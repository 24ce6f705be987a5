import Rphp.Regex.ConfinedEngine

set_option autoImplicit true

namespace Rphp.Regex

open Rphp.Lib

section Rejecting

/-- The nodes that a sequence steps over without consuming anything. -/
def Node.standsStill : Node → Bool
  | .anchor _ | .wordBoundary _ | .lookahead .. | .lookbehind .. | .mark _ | .resetStart
  | .captureEnd .. => true
  | _ => false

variable (env : Env) (flags : RegexFlags) (pos : Nat)

mutual

/-- No match of the node starts at the position: a literal or an anchor that it has to pass first
does not hold there. -/
def Rejects : Node → Prop
  | .literal c => (env.chars[pos]?).any (charsEqual env.tables · c flags) = false
  | .anchor a => anchorMatches a pos env.chars flags env.searchStart = false
  | .sequence nodes => RejectsFirst nodes
  | .group _ inner | .scriptRun inner _ => Rejects inner
  | .alternation branches => RejectsAll branches
  | .quantifier inner min _ _ _ => 0 < min ∧ Rejects inner
  | _ => False

/-- One of the nodes rejects the position, and those before it stand still. -/
def RejectsFirst : List Node → Prop
  | [] => False
  | node :: nodes => Rejects node ∨ (node.standsStill = true ∧ RejectsFirst nodes)

def RejectsAll : List Node → Prop
  | [] => True
  | node :: nodes => Rejects node ∧ RejectsAll nodes

end

variable {env flags pos}

theorem RejectsFirst.append (h : RejectsFirst env flags pos nodes) (rest : List Node) :
    RejectsFirst env flags pos (nodes ++ rest) := by
  induction nodes with
  | nil => exact h.elim
  | cons node nodes ih =>
    rcases h with h | ⟨hstill, h⟩
    · exact .inl h
    · exact .inr ⟨hstill, ih h⟩

end Rejecting

/-- No control is pending in the flags of the attempt. -/
def Calm (flags : RegexFlags) (ctx : MatchCtx) : Prop :=
  ctx.state.control = none ∧ ctx.state.flags = flags

/-- From a calm context a finished run gives such a value in a calm context. -/
abbrev CalmRun (flags : RegexFlags) (m : Matcher α) (P : α → Prop) : Prop :=
  Triple (Calm flags) m fun a ctx => P a ∧ Calm flags ctx

namespace CalmRun

variable {flags : RegexFlags}

theorem pure {P : α → Prop} (h : P a) : CalmRun flags (Pure.pure a) P :=
  Triple.pure fun _ hs => ⟨h, hs⟩

theorem bind {m : Matcher α} {f : α → Matcher β} (hm : CalmRun flags m P)
    (hf : ∀ a, P a → CalmRun flags (f a) Q) : CalmRun flags (m >>= f) Q :=
  Triple.bind hm fun a => Triple.of_fact (hf a)

theorem post {m : Matcher α} (h : CalmRun flags m P) (hPQ : ∀ a, P a → Q a) : CalmRun flags m Q :=
  Triple.post h fun _ _ hp => ⟨hPQ _ hp.1, hp.2⟩

theorem ite {c : Prop} [Decidable c] {m m' : Matcher α} (h : c → CalmRun flags m P)
    (h' : ¬c → CalmRun flags m' P) : CalmRun flags (if c then m else m') P :=
  Triple.ite h h'

theorem exhausted {P : α → Prop} : CalmRun flags Regex.exhausted P := by
  intro ctx hctx a ctx' h
  cases h

theorem view : CalmRun flags view fun s => s.control = none ∧ s.flags = flags := by
  rintro ctx hctx _ _ ⟨⟩
  exact ⟨hctx, hctx⟩

theorem kept {f : MatchState → MatchState}
    (hf : ∀ s, (f s).flags = s.flags ∧ ((f s).control = s.control ∨ (f s).control = none)) :
    CalmRun flags (update f) fun _ => True := by
  rintro ctx ⟨hcontrol, hflags⟩ _ _ ⟨⟩
  refine ⟨trivial, ?_, (hf ctx.state).1.trans hflags⟩
  rcases (hf ctx.state).2 with h | h
  · exact h.trans hcontrol
  · exact h

theorem keptThen {f : MatchState → MatchState} {m : Matcher α}
    (hf : ∀ s, (f s).flags = s.flags ∧ ((f s).control = s.control ∨ (f s).control = none))
    (hm : CalmRun flags m P) : CalmRun flags (update f >>= fun _ => m) P :=
  bind (kept hf) fun _ _ => hm

theorem budgeted (op : MatchBudget → α × MatchBudget) :
    CalmRun flags (budgeted op) fun _ => True := by
  rintro ctx hctx _ _ ⟨⟩
  exact ⟨trivial, hctx⟩

theorem take (pos : Nat) : CalmRun flags (BacktrackState.take pos) fun state => state.end = pos :=
  bind view fun _ _ => keptThen (fun _ => ⟨rfl, .inl rfl⟩) (pure rfl)

theorem install (b : BacktrackState) : CalmRun flags b.install fun _ => True :=
  kept fun _ => ⟨rfl, .inl rfl⟩

theorem consumeAlternative (first : Bool) :
    CalmRun flags (consumeAlternative first) fun _ => True :=
  ite (fun _ => pure trivial) fun _ => budgeted _

theorem inRecursion {refused : α} {m : Matcher α} (hrefused : P refused)
    (hm : CalmRun flags m P) : CalmRun flags (inRecursion refused m) P :=
  bind (budgeted _) fun _ _ => ite (fun _ => pure hrefused) fun _ =>
    bind hm fun _ ha => bind (budgeted _) fun _ _ => pure ha

theorem closeAccepted {env : Env} (tracked : Option Nat) (startOffset : Nat) (result : Option Nat)
    (control : Option MatchControl) :
    CalmRun flags (closeAccepted env tracked startOffset result control) fun _ => True := by
  unfold Regex.closeAccepted
  split
  · split
    · exact kept fun _ => ⟨rfl, .inl rfl⟩
    · exact pure trivial
  · exact pure trivial

/-- A step that keeps its flags, and then the control is taken away. -/
theorem cleared {m : Matcher α} {k : α → Matcher β} (hm : Confined m P)
    (hk : ∀ a, P a → CalmRun flags (k a) Q) :
    CalmRun flags (do let a ← m; setControl none; k a) Q := by
  intro ctx hctx b ctx' h
  obtain ⟨a, mid, hrun, h⟩ := bind_eq_some.mp h
  obtain ⟨u, mid', hclear, h⟩ := bind_eq_some.mp h
  cases hclear
  obtain ⟨⟨hflags, -⟩, hP⟩ := hm _ _ _ hrun
  refine hk a hP _ ?_ _ _ h
  exact ⟨rfl, hflags.trans hctx.2⟩

/-- The same, with the answer whether the control was an ACCEPT. -/
theorem accepted {m : Matcher α} {k : α → Bool → Matcher β} (hm : Confined m P)
    (hk : ∀ a b, P a → CalmRun flags (k a b) Q) :
    CalmRun flags (do let a ← m; let b ← takeAccepted; k a b) Q := by
  intro ctx hctx b ctx' h
  obtain ⟨a, mid, hrun, h⟩ := bind_eq_some.mp h
  obtain ⟨answer, mid', haccepted, h⟩ := bind_eq_some.mp h
  cases haccepted
  obtain ⟨⟨hflags, -⟩, hP⟩ := hm _ _ _ hrun
  refine hk a _ hP _ ?_ _ _ h
  exact ⟨rfl, hflags.trans hctx.2⟩

end CalmRun

namespace Engine.IsConfined

section Still

variable {env : Env} {E : Engine} {flags : RegexFlags} (hc : E.IsConfined env) {rest : List Node}
  {pos : Nat} {Q : Option Nat → Prop} (hpos : pos ≤ env.chars.length)
  (hrest : CalmRun flags (Regex.matchRest E rest pos) Q) (hnone : Q none)

include hrest hnone

omit hc hpos hnone in
theorem still_orElse {f : Matcher (Option Nat)} (hf : CalmRun flags f Q) :
    CalmRun flags
      (do
        match ← Regex.matchRest E rest pos with
        | some final => pure (some final)
        | none => f) Q := by
  refine .bind hrest fun result hresult => ?_
  cases result with
  | some final => exact .pure hresult
  | none => exact hf

omit hc hpos hnone in
theorem still_states (accepted : Bool) {exhaust : Matcher (Option Nat)}
    (hexhaust : CalmRun flags exhaust Q) (hnone : Q none) (states : List BacktrackState) :
    CalmRun flags (Regex.tryAssertionStates E rest pos accepted exhaust states) Q := by
  induction states with
  | nil => exact hexhaust
  | cons state states ih =>
    exact .bind (.install _) fun _ _ => still_orElse hrest
      (.bind .view fun _ _ => .ite (fun _ => .pure hnone) fun _ => ih)

include hc

theorem still_lookbehindStarts (inner : Node) (original : BacktrackState) {starts : List Nat}
    (hstarts : ∀ start ∈ starts, start ≤ env.chars.length) :
    CalmRun flags (Regex.tryLookbehindStarts E inner rest pos original starts) Q := by
  induction starts with
  | nil => exact .bind (.install _) fun _ _ => .pure hnone
  | cons start starts ih =>
    obtain ⟨hstart, hothers⟩ := List.forall_mem_cons.mp hstarts
    exact .accepted (hc.collect inner hstart) fun states accepted _ =>
      still_states hrest accepted (ih hothers) hnone _

include hpos

theorem still_lookahead (positive atomic : Bool) (inner : Node) :
    CalmRun flags (Regex.matchLookahead E positive atomic inner rest pos) Q := by
  refine .inRecursion hnone (.ite (fun _ => ?_) fun _ => ?_)
  · refine .accepted (hc.collectMatchStates inner hpos) ?_
    rintro ⟨initial, states⟩ accepted -
    exact still_states hrest accepted (.bind (.install _) fun _ _ => .pure hnone) hnone states
  · refine .bind .view fun saved _ => .cleared (hc.matchSeqFrom inner [] hpos) fun result _ => ?_
    cases positive <;> cases result
    · exact .keptThen (fun _ => ⟨rfl, .inl rfl⟩) hrest
    · exact .keptThen (fun _ => ⟨rfl, .inl rfl⟩) (.pure hnone)
    · exact .keptThen (fun _ => ⟨rfl, .inl rfl⟩) (.pure hnone)
    · exact hrest

omit hrest hnone hpos in
theorem calm_lookbehindFound (inner : Node) (pos : Nat) {starts : List Nat}
    (hstarts : ∀ start ∈ starts, start ≤ env.chars.length) :
    CalmRun flags (Regex.lookbehindFound E inner pos starts) fun _ => True := by
  induction starts with
  | nil => exact .pure trivial
  | cons start starts ih =>
    obtain ⟨hstart, hothers⟩ := List.forall_mem_cons.mp hstarts
    exact .bind .view fun _ _ => .accepted (hc.matchSeqFrom inner [] hstart) fun _ _ _ =>
      .ite (fun _ => .pure trivial) fun _ => .keptThen (fun _ => ⟨rfl, .inl rfl⟩) (ih hothers)

theorem still_lookbehind (positive atomic : Bool) (inner : Node) :
    CalmRun flags (Regex.matchLookbehind E positive atomic inner rest pos) Q := by
  refine .inRecursion hnone (.ite (fun _ => ?_) fun _ => ?_)
  · exact .bind (.take pos) fun original _ =>
      hc.still_lookbehindStarts hrest hnone inner original fun start hstart =>
        Nat.le_trans (le_of_mem_startsUpTo hstart) hpos
  · exact .bind (hc.calm_lookbehindFound inner pos fun start hstart =>
        Nat.le_trans (le_of_mem_lookbehindStarts hstart) hpos)
      fun _ _ => .ite (fun _ => hrest) fun _ => .pure hnone

/-- Behind a node that stands still the rest is tried at the same position. -/
theorem still_step (hnode : node.standsStill = true) :
    CalmRun flags (Regex.matchSeqFromStep env E node rest pos) Q := by
  have hrestore {f : MatchState → MatchState}
      (hf : ∀ s, (f s).flags = s.flags ∧ ((f s).control = s.control ∨ (f s).control = none)) :
      CalmRun flags (update f >>= fun _ => pure none) Q := .keptThen hf (.pure hnone)
  refine .bind (.budgeted _) fun _ _ => .ite (fun _ => .pure hnone) fun _ => .bind .view fun s _ => ?_
  cases node with
  | anchor a => exact .ite (fun _ => hrest) fun _ => .pure hnone
  | wordBoundary positive => exact .ite (fun _ => hrest) fun _ => .pure hnone
  | lookahead positive atomic inner => exact hc.still_lookahead hpos hrest hnone positive atomic inner
  | lookbehind positive atomic inner =>
    exact hc.still_lookbehind hpos hrest hnone positive atomic inner
  | mark n =>
    exact .bind .view fun _ _ => .keptThen (fun _ => ⟨rfl, .inl rfl⟩)
      (still_orElse hrest (hrestore fun _ => ⟨rfl, .inl rfl⟩))
  | resetStart =>
    refine .bind .view fun s _ => ?_
    cases s.groups with
    | nil => exact hrest
    | cons saved groups =>
      exact .keptThen (fun _ => ⟨rfl, .inl rfl⟩)
        (still_orElse hrest (hrestore fun _ => ⟨rfl, .inl rfl⟩))
  | captureEnd index start =>
    exact .bind .view fun _ _ => .keptThen (fun _ => ⟨rfl, .inl rfl⟩)
      (still_orElse hrest (hrestore fun _ => ⟨rfl, .inl rfl⟩))
  | _ => cases hnode

end Still

end Engine.IsConfined

/-- An engine in which a position that a pattern rejects has no match, and nodes that stand still
end where they start. -/
structure Engine.IsRejecting (env : Env) (flags : RegexFlags) (E : Engine) : Prop where
  rejects : ∀ {node rest pos}, pos ≤ env.chars.length →
    RejectsFirst env flags pos (node :: rest) →
      CalmRun flags (E.matchSeqFrom node rest pos) (· = none)
  stays : ∀ {node pos}, pos ≤ env.chars.length → node.standsStill = true →
    CalmRun flags (E.matchSeqFrom node [] pos) fun result => ∀ final ∈ result, final = pos
  collects : ∀ {node} {state : BacktrackState}, state.end ≤ env.chars.length →
    Rejects env flags state.end node →
      CalmRun flags (E.collectMatchStatesFrom node state) (· = [])
  collectsStill : ∀ {node} {state : BacktrackState}, state.end ≤ env.chars.length →
    node.standsStill = true →
      CalmRun flags (E.collectMatchStatesFrom node state) fun states =>
        ∀ next ∈ states, next.end = state.end

namespace Engine.IsRejecting

section Helpers

variable {env : Env} {E : Engine} {flags : RegexFlags} (hc : E.IsConfined env)
  (h : E.IsRejecting env flags) {inner : Node}

include h

theorem matchRest (hpos : pos ≤ env.chars.length) (hrest : RejectsFirst env flags pos rest) :
    CalmRun flags (Regex.matchRest E rest pos) (· = none) := by
  refine .bind .view fun s hs => ?_
  rw [if_neg (by rw [hs.1]; nofun)]
  cases rest with
  | nil => exact hrest.elim
  | cons node rest => exact h.rejects hpos hrest

omit h in
theorem matchRest_nil (E : Engine) (pos : Nat) :
    CalmRun flags (Regex.matchRest E [] pos) fun result => ∀ final ∈ result, final = pos := by
  refine .bind .view fun s hs => ?_
  rw [if_neg (by rw [hs.1]; nofun)]
  refine .pure ?_
  rintro _ ⟨⟩
  rfl

theorem collectMatchStates (hpos : pos ≤ env.chars.length) (hnode : Rejects env flags pos node) :
    CalmRun flags (Regex.collectMatchStates E node pos) fun result => result.2 = [] := by
  refine .bind (.take pos) fun initial hinitial => ?_
  subst hinitial
  exact .bind (h.collects hpos hnode) fun states hstates => .pure hstates

theorem matchSeqFromWithGroup (hpos : pos ≤ env.chars.length) (hinner : Rejects env flags pos inner)
    (rest : List Node) (groupIdx : Option Nat) (startOffset : Nat) :
    CalmRun flags (Regex.matchSeqFromWithGroup env E inner rest pos groupIdx startOffset)
      (· = none) := by
  cases rest with
  | nil =>
    refine .bind (h.rejects hpos (.inl hinner)) fun result hresult => ?_
    rw [hresult]
    exact .pure rfl
  | cons node rest =>
    cases groupIdx with
    | none => exact h.rejects hpos (.inl hinner)
    | some index =>
      refine .ite (fun _ => h.rejects hpos (.inl hinner)) fun _ =>
        .bind (h.collectMatchStates hpos hinner) ?_
      rintro ⟨initial, states⟩ hstates
      obtain rfl : states = [] := hstates
      exact .bind (.install _) fun _ _ => .pure rfl

theorem matchGroup (hpos : pos ≤ env.chars.length) (hinner : Rejects env flags pos inner)
    (index : Option Nat) (rest : List Node) :
    CalmRun flags (Regex.matchGroup env E index inner rest pos) (· = none) :=
  .inRecursion rfl (.bind .view fun _ _ =>
    .bind (h.matchSeqFromWithGroup hpos hinner rest _ _) fun _ hresult =>
      .bind .view fun _ _ => .bind (.closeAccepted _ _ _ _) fun _ _ => .pure hresult)

theorem matchAlternation (hpos : pos ≤ env.chars.length)
    (hbranches : RejectsAll env flags pos branches) (rest : List Node) (first : Bool) :
    CalmRun flags (Regex.matchAlternation E rest pos first branches) (· = none) := by
  induction branches generalizing first with
  | nil => exact .pure rfl
  | cons branch branches ih =>
    refine .bind (.consumeAlternative first) fun _ _ => .ite (fun _ => .pure rfl) fun _ =>
      .bind .view fun saved _ => .bind (h.rejects hpos (.inl hbranches.1)) fun result hresult => ?_
    rw [hresult]
    refine .bind .view fun s hs => ?_
    rw [if_neg (by rw [hs.1]; nofun), if_neg (by rw [hs.1]; nofun)]
    exact .keptThen (fun _ => ⟨rfl, .inl rfl⟩) (ih hbranches.2 false)

theorem matchScriptRun (hpos : pos ≤ env.chars.length) (hinner : Rejects env flags pos inner)
    (atomic : Bool) (rest : List Node) :
    CalmRun flags (Regex.matchScriptRun env E inner atomic rest pos) (· = none) := by
  refine .inRecursion rfl (.bind (h.collectMatchStates hpos hinner) ?_)
  rintro ⟨initial, states⟩ hstates
  obtain rfl : states = [] := hstates
  have haccepted : CalmRun flags takeAccepted fun _ => True :=
    .bind .view fun _ _ => .keptThen (fun _ => ⟨rfl, .inr rfl⟩) (.pure trivial)
  refine .bind haccepted fun accepted _ => ?_
  rw [List.take_nil, ite_self]
  exact .bind (.install _) fun _ _ => .pure rfl

section Quantifiers

variable {pos min : Nat} (hpos : pos ≤ env.chars.length) (hmin : 0 < min)
  (hinner : Rejects env flags pos inner)

include hpos hmin hinner

theorem matchControlQuantifier (max : Option Nat) (greedy : Bool) (rest : List Node) :
    CalmRun flags (Regex.matchControlQuantifier E inner min max greedy rest pos) (· = none) := by
  have hne : min ≠ 0 := Nat.pos_iff_ne_zero.mp hmin
  refine .inRecursion rfl (.ite (fun _ => ?_) fun _ => ?_)
  · rw [if_neg hne]
    exact .pure rfl
  · rw [if_pos hne]
    exact h.rejects hpos (.inl hinner)

theorem matchTerminalQuantifier (max : Option Nat) (greedy : Bool) :
    CalmRun flags (Regex.matchTerminalQuantifier E inner min max greedy pos) (· = none) := by
  have hfinish (tracks : Bool) (initial : MatchState) :
      CalmRun flags (terminalFinish min tracks initial 0 pos) (· = none) := by
    unfold terminalFinish
    rw [if_neg (Nat.not_le.mpr hmin)]
    exact .keptThen (fun _ => ⟨rfl, .inl rfl⟩) (.pure rfl)
  refine .bind .view fun initial _ => ?_
  rw [if_neg (by simp [Nat.pos_iff_ne_zero.mp hmin])]
  cases E.fuel with
  | zero => exact .exhausted
  | succ steps =>
    refine .ite (fun _ => hfinish _ _) fun _ => .bind .view fun saved _ =>
      .bind (h.rejects hpos (.inl hinner)) fun result hresult => ?_
    rw [hresult]
    refine .bind .view fun s hs => ?_
    rw [if_neg (by rw [hs.1]; nofun)]
    exact .keptThen (fun _ => ⟨rfl, .inl rfl⟩) (hfinish _ _)

omit hmin in
/-- The first repetition of a loop that follows one outcome fails. -/
theorem firstRepetition {saved : MatchState} (tracks : Bool)
    {onSome : Nat → Matcher (LoopExit (List (Nat × MatchState)))} :
    CalmRun flags
      (do
        match ← E.matchSeqFrom inner [] pos with
        | some nextPos => onSome nextPos
        | none => do
          let s ← view
          if s.control.isSome then pure (.return none)
          else do
            restoreTracked tracks saved
            pure (.break []))
      (· = .break []) := by
  refine .bind (h.rejects hpos (.inl hinner)) fun result hresult => ?_
  rw [hresult]
  refine .bind .view fun s hs => ?_
  rw [if_neg (by rw [hs.1]; nofun)]
  exact .keptThen (fun _ => ⟨rfl, .inl rfl⟩) (.pure rfl)

theorem matchQuantifierPreferredPath (max : Option Nat) (greedy possessive : Bool)
    (rest : List Node) :
    CalmRun flags
      (Regex.matchQuantifierPreferredPath E inner min max greedy possessive rest pos)
      (· = none) := by
  have hnot : ¬min ≤ 0 := Nat.not_le.mpr hmin
  have hloop (tracks : Bool) (initial : MatchState) (steps : Nat) :
      CalmRun flags (preferredLoop E inner min max greedy tracks rest initial steps 0 pos [])
        (· = .break []) := by
    cases steps with
    | zero => exact .exhausted
    | succ steps =>
      have hattempt : CalmRun flags
          (preferredAttempt E min greedy tracks rest initial 0 pos) (· = .break ()) := by
        unfold preferredAttempt
        rw [if_neg (by simp [hnot])]
        exact .pure rfl
      refine .bind hattempt fun exit hexit => ?_
      rw [hexit]
      refine .bind .view fun here _ => ?_
      simp only [if_neg hnot]
      exact .ite (fun _ => .pure rfl) fun _ => .bind (.budgeted _) fun _ _ =>
        .ite (fun _ => .pure rfl) fun _ => .bind .view fun saved _ =>
          h.firstRepetition hpos hinner tracks
  refine .bind .view fun initial _ => .bind (hloop _ _ _) fun exit hexit => ?_
  rw [hexit]
  refine .ite (fun _ => ?_) fun _ => .keptThen (fun _ => ⟨rfl, .inl rfl⟩) (.pure rfl)
  rw [List.take_nil, ite_self]
  exact .keptThen (fun _ => ⟨rfl, .inl rfl⟩) (.pure rfl)

theorem matchSingleOutcomeQuantifier (max : Option Nat) (greedy possessive : Bool)
    (rest : List Node) :
    CalmRun flags
      (Regex.matchSingleOutcomeQuantifier E inner min max greedy possessive rest pos)
      (· = none) := by
  have hnot : ¬min ≤ 0 := Nat.not_le.mpr hmin
  have hloop (tracks : Bool) (steps : Nat) :
      CalmRun flags (repetitionLoop E inner min max greedy tracks steps 0 pos [])
        (· = .break []) := by
    cases steps with
    | zero => exact .exhausted
    | succ steps =>
      refine .bind .view fun here _ => ?_
      simp only [if_neg hnot]
      exact .ite (fun _ => .pure rfl) fun _ => .bind (.budgeted _) fun _ _ =>
        .ite (fun _ => .pure rfl) fun _ => .bind .view fun saved _ =>
          h.firstRepetition hpos hinner tracks
  refine .bind .view fun initial _ => .bind (.budgeted _) fun _ _ => .ite (fun _ => .pure rfl)
    fun _ => .bind (hloop _ _) fun exit hexit => ?_
  rw [hexit]
  refine .bind (.budgeted _) fun _ _ => .ite (fun _ => .pure rfl) fun _ => .ite (fun _ => .pure rfl)
    fun _ => ?_
  rw [List.reverse_nil, ite_self]
  exact .pure rfl

end Quantifiers

section Collecting

variable {state : BacktrackState} (hstate : state.end ≤ env.chars.length)

include hstate

theorem collectSelections (hbranches : RejectsAll env flags state.end branches)
    (blocked : Option Nat) (index : Nat) :
    CalmRun flags (Regex.collectSelections env E state blocked index branches) (· = []) := by
  induction branches generalizing index with
  | nil => exact .pure rfl
  | cons branch branches ih =>
    refine .bind .view fun s _ => .ite (fun _ => ih hbranches.2 _) fun _ =>
      .ite (fun _ => ih hbranches.2 _) fun _ => .bind (.consumeAlternative _) fun _ _ =>
        .ite (fun _ => .pure rfl) fun _ =>
          .bind (h.collects hstate hbranches.1) fun next hnext =>
            .bind (ih hbranches.2 _) fun later hlater => .pure ?_
    rw [hnext, hlater]
    rfl

theorem collectRepetition (hinner : Rejects env flags state.end inner) (collapse : Bool)
    (blocked : Option Nat) :
    CalmRun flags (Regex.collectRepetition env E inner collapse state blocked) (· = []) := by
  have hplain : CalmRun flags
      (do
        let next ← E.collectMatchStatesFrom inner state
        pure (next.map fun item => (item, (none : Option Nat)))) (· = []) :=
    .bind (h.collects hstate hinner) fun next hnext => .pure (by rw [hnext]; rfl)
  unfold Regex.collectRepetition
  split
  · exact h.collectSelections hstate hinner blocked 0
  · exact hplain

variable {min : Nat} (hmin : 0 < min)
  (hinner : Rejects env flags state.end inner)

include hmin hinner

theorem collectBranchingQuantifierStates (max : Option Nat) (greedy possessive : Bool) :
    CalmRun flags
      (Regex.collectBranchingQuantifierStates env E inner min max greedy possessive state)
      (· = []) := by
  have hnot : ¬min ≤ 0 := Nat.not_le.mpr hmin
  have hdone (steps : Nat) (seen : List PendingRepetition) :
      CalmRun flags (Regex.branchingLoop env E inner min max greedy steps ⟨[], [], seen⟩)
        (· = []) := by
    unfold Regex.branchingLoop
    exact .pure rfl
  have hloop (steps : Nat) :
      CalmRun flags
        (Regex.branchingLoop env E inner min max greedy steps ⟨[], [(0, state, none)], []⟩)
        (· = []) := by
    cases steps with
    | zero => exact .exhausted
    | succ steps =>
      unfold Regex.branchingLoop
      simp only [if_neg hnot]
      refine .ite (fun _ => hdone steps []) fun _ => .bind (.budgeted _) fun _ _ =>
        .ite (fun _ => .pure rfl) fun _ =>
          .bind (h.collectRepetition hstate hinner _ none) fun next hnext => ?_
      rw [hnext]
      exact hdone steps []
  refine .bind (hloop _) fun repetitions hrepetitions => .pure ?_
  rw [hrepetitions]
  simp

theorem collectSinglePathQuantifierStates (max : Option Nat) (greedy possessive : Bool) :
    CalmRun flags
      (Regex.collectSinglePathQuantifierStates E inner min max greedy possessive state)
      (· = []) := by
  have hloop (steps : Nat) :
      CalmRun flags (singlePathLoop E inner min max greedy steps 0 state []) (· = []) := by
    cases steps with
    | zero => exact .exhausted
    | succ steps =>
      unfold singlePathLoop
      simp only [if_neg (Nat.not_le.mpr hmin)]
      refine .ite (fun _ => .pure rfl) fun _ => .bind (.budgeted _) fun _ _ =>
        .ite (fun _ => .pure rfl) fun _ => .bind (h.collects hstate hinner) fun next hnext => ?_
      rw [hnext]
      exact .pure rfl
  refine .bind (hloop _) fun repetitions hrepetitions => .pure ?_
  rw [hrepetitions]
  simp

theorem collectQuantifier (max : Option Nat) (greedy possessive : Bool) :
    CalmRun flags (Regex.collectQuantifier env E inner min max greedy possessive state) (· = []) :=
  .inRecursion rfl (.ite
    (fun _ => h.collectBranchingQuantifierStates hstate hmin hinner max greedy possessive)
    fun _ => h.collectSinglePathQuantifierStates hstate hmin hinner max greedy possessive)

end Collecting

theorem matchBranchingQuantifier {pos min : Nat} (hpos : pos ≤ env.chars.length) (hmin : 0 < min)
    (hinner : Rejects env flags pos inner) (max : Option Nat) (greedy possessive : Bool)
    (rest : List Node) :
    CalmRun flags (Regex.matchBranchingQuantifier env E inner min max greedy possessive rest pos)
      (· = none) := by
  refine .bind (h.matchQuantifierPreferredPath hpos hmin hinner max greedy possessive rest)
    fun result hresult => ?_
  rw [hresult]
  refine .ite (fun _ => .pure rfl) fun _ => .bind (.budgeted _) fun _ _ => .ite (fun _ => .pure rfl)
    fun _ => .bind (.take pos) fun initial hinitial => ?_
  subst hinitial
  refine .bind (h.collectBranchingQuantifierStates hpos hmin hinner max greedy possessive)
    fun states hstates => ?_
  rw [hstates]
  exact .bind (.install _) fun _ _ => .pure rfl

theorem matchQuantifier {pos min : Nat} (hpos : pos ≤ env.chars.length) (hmin : 0 < min)
    (hinner : Rejects env flags pos inner) (max : Option Nat) (greedy possessive : Bool)
    (rest : List Node) :
    CalmRun flags (Regex.matchQuantifier env E inner min max greedy possessive rest pos)
      (· = none) := by
  have hne : ¬min = 0 := Nat.pos_iff_ne_zero.mp hmin
  refine .inRecursion rfl (.bind .view fun s _ => ?_)
  cases partitionCost? env s.flags inner min max greedy possessive rest pos with
  | some cost => exact .bind (.budgeted _) fun _ _ => .pure rfl
  | none =>
    simp only [matchPossibleQuantifier, hne, decide_false, Bool.false_and, Bool.false_eq_true,
      if_false]
    exact .ite (fun _ => h.matchControlQuantifier hpos hmin hinner max greedy rest) fun _ =>
      .ite (fun _ => h.matchTerminalQuantifier hpos hmin hinner max greedy) fun _ =>
        .ite (fun _ => h.matchBranchingQuantifier hpos hmin hinner max greedy possessive rest)
          fun _ => h.matchSingleOutcomeQuantifier hpos hmin hinner max greedy possessive rest

omit h in
theorem collectAfterEach {Q : BacktrackState → Prop}
    (hnode : ∀ {state : BacktrackState}, state.end = pos →
      CalmRun flags (E.collectMatchStatesFrom node state) fun next => ∀ item ∈ next, Q item)
    {states : List BacktrackState} (hstates : ∀ state ∈ states, state.end = pos) :
    CalmRun flags (Regex.collectAfterEach E node states) fun next => ∀ item ∈ next, Q item := by
  induction states with
  | nil => exact .pure (List.forall_mem_nil _)
  | cons state states ih =>
    obtain ⟨hstate, hothers⟩ := List.forall_mem_cons.mp hstates
    exact .bind (hnode hstate) fun _ hnext => .bind (ih hothers) fun _ hlater =>
      .pure (List.forall_mem_append.mpr ⟨hnext, hlater⟩)

/-- The nodes before the one that rejects leave the states at their position. -/
theorem collectSequence (hpos : pos ≤ env.chars.length) {states : List BacktrackState}
    (hstates : ∀ state ∈ states, state.end = pos) (hnodes : RejectsFirst env flags pos nodes) :
    CalmRun flags (Regex.collectSequence E nodes states) (· = []) := by
  induction nodes generalizing states with
  | nil => exact hnodes.elim
  | cons node nodes ih =>
    rcases hnodes with hnode | ⟨hstill, hnodes⟩
    · have hnone {state : BacktrackState} (hstate : state.end = pos) :
          CalmRun flags (E.collectMatchStatesFrom node state) fun next => ∀ item ∈ next, False :=
        (h.collects (hstate ▸ hpos) (by rwa [hstate])).post fun next hnext => by
          rw [hnext]
          exact List.forall_mem_nil _
      refine .bind (collectAfterEach hnone hstates) fun next hnext => .bind .view fun _ _ => ?_
      obtain rfl := List.eq_nil_iff_forall_not_mem.mpr hnext
      exact .pure rfl
    · have hsame {state : BacktrackState} (hstate : state.end = pos) :
          CalmRun flags (E.collectMatchStatesFrom node state)
            fun next => ∀ item ∈ next, item.end = pos :=
        (h.collectsStill (hstate ▸ hpos) hstill).post fun next hends item hmem =>
          (hends item hmem).trans hstate
      have hnext := collectAfterEach hsame hstates
      refine .bind hnext fun next hends => .bind .view fun s hs => ?_
      rw [hs.1]
      refine .ite (fun hempty => .pure ?_) fun _ => ih hends hnodes
      simpa using hempty

theorem collectAlternation {state : BacktrackState} (hstate : state.end ≤ env.chars.length)
    (hbranches : RejectsAll env flags state.end branches) (first : Bool) :
    CalmRun flags (Regex.collectAlternation E state first branches) (· = []) := by
  induction branches generalizing first with
  | nil => exact .pure rfl
  | cons branch branches ih =>
    refine .bind (.consumeAlternative first) fun _ _ => .ite (fun _ => .pure rfl) fun _ =>
      .bind (h.collects hstate hbranches.1) fun next hnext =>
        .bind (ih hbranches.2 false) fun later hlater => .pure ?_
    rw [hnext, hlater]
    rfl

theorem collectGroup {state : BacktrackState} (hstate : state.end ≤ env.chars.length)
    (hinner : Rejects env flags state.end inner) (index : Option Nat) :
    CalmRun flags (Regex.collectGroup env E index inner state) (· = []) := by
  refine .inRecursion rfl (.bind (h.collects hstate hinner) fun states hstates => .pure ?_)
  rw [hstates]
  cases trackedIndex state.groups index with
  | none => rfl
  | some index => rfl

omit h in
/-- A node that is collected through its one match. -/
theorem collectSimple {P : Option Nat → Prop} {state : BacktrackState}
    (hmatch : CalmRun flags (E.matchSeqFrom node [] state.end) P) :
    CalmRun flags
      (do
        state.install
        match ← E.matchSeqFrom node [] state.end with
        | some final => do
          let next ← BacktrackState.take final
          pure [next]
        | none => pure []) fun states => ∀ next ∈ states, P (some next.end) := by
  refine .bind (.install _) fun _ _ => .bind hmatch fun result hresult => ?_
  cases result with
  | none => exact .pure (List.forall_mem_nil _)
  | some final =>
    refine .bind (.take final) fun next hnext => .pure (List.forall_mem_singleton.mpr ?_)
    rwa [hnext]

theorem collectMatchStatesFromStep {state : BacktrackState} (hstate : state.end ≤ env.chars.length)
    (hnode : Rejects env flags state.end node) :
    CalmRun flags (Regex.collectMatchStatesFromStep env E node state) (· = []) := by
  have hsimple (node : Node) (hnode : Rejects env flags state.end node) :
      CalmRun flags
        (do
          state.install
          match ← E.matchSeqFrom node [] state.end with
          | some final => do
            let next ← BacktrackState.take final
            pure [next]
          | none => pure []) (· = []) :=
    (collectSimple (h.rejects hstate (.inl hnode))).post fun states hstates => by
      cases states with
      | nil => rfl
      | cons next states => cases hstates next (List.mem_cons_self ..)
  refine .bind (.budgeted _) fun _ _ => .ite (fun _ => .pure rfl) fun _ => ?_
  cases node with
  | literal c => exact hsimple _ hnode
  | anchor a => exact hsimple _ hnode
  | sequence nodes =>
    exact h.collectSequence hstate (List.forall_mem_singleton.mpr rfl) hnode
  | group index inner => exact h.collectGroup hstate (show Rejects env flags state.end inner from hnode) index
  | scriptRun inner atomic => exact hsimple _ hnode
  | alternation branches => exact h.collectAlternation hstate hnode true
  | quantifier inner min max greedy possessive =>
    exact h.collectQuantifier hstate hnode.1 hnode.2 max greedy possessive
  | _ => exact hnode.elim

theorem collectStill {state : BacktrackState} (hstate : state.end ≤ env.chars.length)
    (hnode : node.standsStill = true) :
    CalmRun flags (Regex.collectMatchStatesFromStep env E node state) fun states =>
      ∀ next ∈ states, next.end = state.end := by
  have hsimple := (collectSimple (h.stays hstate hnode)).post fun states hstates =>
    fun next hmem => hstates next hmem next.end rfl
  refine .bind (.budgeted _) fun _ _ => .ite (fun _ => .pure (List.forall_mem_nil _)) fun _ => ?_
  cases node <;> first | exact hsimple | cases hnode

omit h in
theorem advanceIf_false (rest : List Node) (hok : ok = false) :
    CalmRun flags (Regex.advanceIf E ok rest pos) (· = none) := by
  subst hok
  exact .pure rfl

include hc in
theorem matchSeqFromStep (hpos : pos ≤ env.chars.length)
    (hnodes : RejectsFirst env flags pos (node :: rest)) :
    CalmRun flags (Regex.matchSeqFromStep env E node rest pos) (· = none) := by
  rcases hnodes with hnode | ⟨hstill, hrest⟩
  · refine .bind (.budgeted _) fun _ _ => .ite (fun _ => .pure rfl) fun _ => .bind .view fun s hs => ?_
    cases node with
    | literal c => exact advanceIf_false rest (by rw [hs.2]; exact hnode)
    | anchor a => exact advanceIf_false rest (by rw [hs.2]; exact hnode)
    | sequence nodes =>
      cases nodes with
      | nil => exact hnode.elim
      | cons first nodes => exact h.rejects hpos (RejectsFirst.append hnode rest)
    | group index inner => exact h.matchGroup hpos (show Rejects env flags pos inner from hnode) index rest
    | scriptRun inner atomic => exact h.matchScriptRun hpos (show Rejects env flags pos inner from hnode) atomic rest
    | alternation branches => exact h.matchAlternation hpos hnode rest true
    | quantifier inner min max greedy possessive =>
      exact h.matchQuantifier hpos hnode.1 hnode.2 max greedy possessive rest
    | _ => exact hnode.elim
  · exact hc.still_step hpos (h.matchRest hpos hrest) rfl hstill

end Helpers

end Engine.IsRejecting

/-- A position that the pattern rejects has no match, whatever the budget. -/
theorem engine_isRejecting (env : Env) (flags : RegexFlags) (fuel : Nat) :
    (engine env fuel).IsRejecting env flags := by
  induction fuel with
  | zero =>
    exact ⟨fun _ _ => .exhausted, fun _ _ => .exhausted, fun _ _ => .exhausted,
      fun _ _ => .exhausted⟩
  | succ fuel ih =>
    have hc := engine_isConfined env fuel
    exact ⟨ih.matchSeqFromStep hc,
      fun hpos => hc.still_step hpos (Engine.IsRejecting.matchRest_nil _ _) nofun,
      ih.collectMatchStatesFromStep, ih.collectStill⟩

end Rphp.Regex
