import Rphp.Regex.LimitOrder

namespace Rphp.Regex
open Rphp.Lib
set_option autoImplicit true

section Traversal

variable (p : Node → Bool)

mutual

/-- Whether a test holds at every node of a pattern. -/
def Node.all : Node → Bool
  | .group index inner => p (.group index inner) && inner.all
  | .alternation branches => p (.alternation branches) && Node.allOf branches
  | .sequence nodes => p (.sequence nodes) && Node.allOf nodes
  | .quantifier inner min max greedy possessive =>
    p (.quantifier inner min max greedy possessive) && inner.all
  | .lookahead positive atomic inner => p (.lookahead positive atomic inner) && inner.all
  | .lookbehind positive atomic inner => p (.lookbehind positive atomic inner) && inner.all
  | .atomic inner => p (.atomic inner) && inner.all
  | .scriptRun inner atomic => p (.scriptRun inner atomic) && inner.all
  | .localFlags flags inner => p (.localFlags flags inner) && inner.all
  | .conditional condition yes no =>
    p (.conditional condition yes no) && condition.all && yes.all && Node.allIn no
  | node => p node

def Node.allOf : List Node → Bool
  | [] => true
  | node :: nodes => node.all && Node.allOf nodes

def Node.allIn : Option Node → Bool
  | none => true
  | some node => node.all

def CaptureCondition.all : CaptureCondition → Bool
  | .assertion _ _ inner => inner.all
  | _ => true

end

theorem Node.allOf_iff (nodes : List Node) :
    Node.allOf p nodes = true ↔ ∀ node ∈ nodes, node.all p = true := by
  induction nodes with
  | nil => simp [Node.allOf]
  | cons node nodes ih => simp [Node.allOf, ih]

variable {p}

theorem Node.all_here {node : Node} (h : node.all p = true) : p node = true := by
  cases node <;> simp_all [Node.all]

theorem Node.all_children {node : Node} (h : node.all p = true) :
    ∀ child ∈ node.children, child.all p = true := by
  cases node with
  | alternation nodes =>
    simp only [Node.all, Bool.and_eq_true, Node.allOf_iff] at h
    exact h.2
  | sequence nodes =>
    simp only [Node.all, Bool.and_eq_true, Node.allOf_iff] at h
    exact h.2
  | conditional condition yes no =>
    cases condition <;> cases no <;>
      simp_all [Node.all, Node.children, Node.allIn, CaptureCondition.all]
  | _ => simp_all [Node.all, Node.children]

end Traversal

section Conditions

mutual

/-- Whether matching the node can reach a limit at all. -/
def mayReachLimit : Node → Bool
  | .sequence nodes => anyMayReachLimit nodes
  | .alternation branches => 1 < branches.length || anyMayReachLimit branches
  | .localFlags _ inner => mayReachLimit inner
  | .group .. | .quantifier .. | .lookahead .. | .lookbehind .. | .atomic _ | .scriptRun ..
  | .subroutine _ | .conditional .. => true
  | _ => false

def anyMayReachLimit : List Node → Bool
  | [] => false
  | node :: nodes => mayReachLimit node || anyMayReachLimit nodes

end

def CaptureCondition.mayReachLimit : CaptureCondition → Bool
  | .assertion _ _ inner => Regex.mayReachLimit inner
  | _ => false

mutual

/-- Whether a node that nothing follows can succeed although a limit was reached in it. -/
def masksLimit : Node → Bool
  | .sequence nodes => lastMasksLimit nodes
  | .alternation branches => anyMasksLimit branches
  | .group _ inner | .atomic inner | .localFlags _ inner => masksLimit inner
  | .quantifier inner min _ greedy possessive =>
    (!possessive && containsControlVerb inner && nodeDefinitelyConsumes inner) ||
      (!greedy && 0 < min && masksLimit inner)
  | .lookahead positive atomic inner | .lookbehind positive atomic inner =>
    if positive && atomic then masksLimit inner else mayReachLimit inner
  | .scriptRun inner _ => mayReachLimit inner
  | .conditional condition yes none => condition.mayReachLimit || masksLimit yes
  | .conditional _ yes (some no) => masksLimit yes || masksLimit no
  | _ => false

/-- Only the last node of a sequence is followed by nothing. -/
def lastMasksLimit : List Node → Bool
  | [] => false
  | [node] => masksLimit node
  | _ :: node :: nodes => lastMasksLimit (node :: nodes)

def anyMasksLimit : List Node → Bool
  | [] => false
  | node :: nodes => masksLimit node || anyMasksLimit nodes

end

/-- No ACCEPT here; `calls` says that the callable groups have none. -/
def acceptFreeHere (calls : Bool) : Node → Bool
  | .control .accept _ => false
  | .subroutine _ => calls
  | _ => true

def acceptFree (calls : Bool) (node : Node) : Bool :=
  node.all (acceptFreeHere calls)

/-- No ACCEPT inside a body whose outcomes are collected before the rest is tried. -/
def collectsNoAccept (calls : Bool) : Node → Bool
  | .group (some _) inner => captureNeedsStreamingContinuation inner || acceptFree calls inner
  | .quantifier inner _ _ _ _ => !matchStatesCanBranch inner || acceptFree calls inner
  | _ => true

def acceptSafe (calls : Bool) (node : Node) : Bool :=
  node.all (collectsNoAccept calls)

/-- The same for every body that a call can reach. -/
structure CallsSafe (env : Env) (calls : Bool) : Prop where
  safe : ∀ target node, resolveSubroutine env target = some node → acceptSafe calls node = true
  free : calls = true →
    ∀ target node, resolveSubroutine env target = some node → acceptFree calls node = true

end Conditions

section Assertions

/-- An assertion about the control and the limit error. -/
def At (P : Option MatchControl → Option MatchLimitError → Prop) (ctx : MatchCtx) : Prop :=
  P ctx.state.control ctx.budget.error

abbrev NoAccept : MatchCtx → Prop :=
  At fun c _ => c ≠ some .accept

abbrev Clean : MatchCtx → Prop :=
  At fun c e => c ≠ some .accept ∧ e = none

/-- Without a limit error, unless something follows or the pattern masks it. -/
abbrev Spared (rest : List Node) (masked : Prop) (e : Option MatchLimitError) : Prop :=
  e = none ∨ rest ≠ [] ∨ masked

/-- Ready to try the rest. -/
abbrev Ready (rest : List Node) (masked : Prop) : MatchCtx → Prop :=
  At fun c e => c ≠ some .accept ∧ Spared rest masked e

def unmasked (masked : Prop) : Option Nat → Option MatchControl → Option MatchLimitError → Prop
  | some _, c, e => e = none ∨ (c ≠ some .accept ∧ masked)
  | none, c, _ => c ≠ some .accept

/-- A success without a limit error, unless the pattern masks it. -/
abbrev Unmasked (masked : Prop) (r : Option Nat) : MatchCtx → Prop :=
  At (unmasked masked r)

theorem unmasked.mono {masked masked' : Prop} (h : masked → masked') {r : Option Nat}
    (hr : unmasked masked r c e) : unmasked masked' r c e := by
  cases r with
  | none => exact hr
  | some final => exact hr.imp_right fun ⟨hc, hm⟩ => ⟨hc, h hm⟩

theorem view_keeps {A : MatchCtx → Prop} : Triple A view fun _ => A := by
  rintro ctx h _ _ ⟨⟩
  exact h

theorem view_at {P : Option MatchControl → Option MatchLimitError → Prop} :
    Triple (At P) view fun s => At fun c e => P c e ∧ s.control = c := by
  rintro ctx h _ _ ⟨⟩
  exact ⟨h, rfl⟩

variable {P Q : Option MatchControl → Option MatchLimitError → Prop}

theorem update_at {f : MatchState → MatchState} (hf : ∀ s, (f s).control = s.control) :
    Triple (At P) (update f) fun _ => At P := by
  rintro ctx h _ _ ⟨⟩
  simpa only [At, hf] using h

theorem setControl_at {c' : Option MatchControl} (h : ∀ c e, P c e → Q c' e) :
    Triple (At P) (setControl c') fun _ => At Q := by
  rintro ctx hp _ _ ⟨⟩
  exact h _ _ hp

theorem clearControl_at {A : MatchCtx → Prop} : Triple A (setControl none) fun _ => NoAccept := by
  rintro ctx - _ _ ⟨⟩
  simp [At]

theorem budgeted_at (op : MatchBudget → α × MatchBudget) {p : Option MatchControl → Prop} :
    Triple (At fun c _ => p c) (budgeted op) fun _ => At fun c _ => p c := by
  rintro ctx h _ _ ⟨⟩
  exact h

theorem leaveRecursion_at :
    Triple (At P) (budgeted MatchBudget.leaveRecursion) fun _ => At P := by
  rintro ctx h _ _ ⟨⟩
  exact h

theorem hasError_at :
    Triple (At P) (budgeted MatchBudget.hasError) fun b => At fun c e => P c e ∧ b = e.isSome := by
  rintro ctx h _ _ ⟨⟩
  exact ⟨h, rfl⟩

theorem takeAccepted_at {S : Bool → Option MatchControl → Option MatchLimitError → Prop}
    (h : ∀ c e, P c e → S (decide (c = some .accept)) none e) :
    Triple (At P) takeAccepted fun accepted => At (S accepted) := by
  rintro ctx hp _ _ ⟨⟩
  exact h _ _ hp

theorem takeAccepted_spared {S : Option MatchLimitError → Prop} :
    Triple (At fun _ e => S e) takeAccepted fun _ => At fun _ e => S e :=
  takeAccepted_at fun _ _ he => he

theorem takeAccepted_ready {rest : List Node} {m : Prop} :
    Triple (At fun _ e => Spared rest m e) takeAccepted fun _ => Ready rest m :=
  takeAccepted_at fun _ _ he => ⟨by simp, he⟩

theorem take_at (pos : Nat) : Triple (At P) (BacktrackState.take pos) fun _ => At P := by
  rintro ctx h _ _ ⟨⟩
  exact h

theorem install_at (b : BacktrackState) : Triple (At P) b.install fun _ => At P :=
  update_at fun _ => rfl

theorem consumeAlternative_at {p : Option MatchControl → Prop} (first : Bool) :
    Triple (At fun c _ => p c) (consumeAlternative first) fun _ => At fun c _ => p c :=
  Triple.ite (fun _ => Triple.pure fun _ h => h) fun _ => budgeted_at _

/-- A recursion level starts without a limit error, or refuses and reaches the limit. -/
theorem inRecursion_at {refused : α} {m : Matcher α}
    {S : α → Option MatchControl → Option MatchLimitError → Prop}
    (hm : Triple Clean m fun a => At (S a)) (href : ∀ c e, c ≠ some .accept → S refused c e) :
    Triple Clean (inRecursion refused m) fun a => At (S a) := by
  refine Triple.bind (R := fun b => At fun c e => c ≠ some .accept ∧ (b = true → e = none)) ?_
    fun b => Triple.ite (fun hb => ?_) fun hb => ?_
  · rintro ctx ⟨hc, he⟩ _ _ ⟨⟩
    refine ⟨hc, fun hb => ?_⟩
    have he' : ctx.budget.error = none := he
    cases hcov : ctx.budget.recursionLimit.covers (ctx.budget.recursionDepth + 1) with
    | true => simp [MatchBudget.enterRecursion, he', hcov]
    | false => simp [MatchBudget.enterRecursion, he', hcov] at hb
  · exact Triple.pure fun ctx h => href _ _ h.1
  · exact Triple.bind (hm.conseq (fun ctx h => ⟨h.1, h.2 (by simpa using hb)⟩) fun _ _ h => h)
      fun a => Triple.bind leaveRecursion_at fun _ => Triple.pure fun _ h => h

end Assertions

section Masks

/-- Whether a limit is masked at the end of the rest, or before it when there is none. -/
def masksAt (masked : Prop) (rest : List Node) : Prop :=
  (rest = [] ∧ masked) ∨ lastMasksLimit rest = true

theorem masksAt.mono {masked masked' : Prop} (h : masked → masked') (hm : masksAt masked rest) :
    masksAt masked' rest :=
  hm.imp_left (And.imp_right h)

theorem masksAt_nil {masked : Prop} : masksAt masked [] ↔ masked := by
  simp [masksAt, lastMasksLimit]

theorem lastMasksLimit_cons (node : Node) (rest : List Node) :
    lastMasksLimit (node :: rest) = true ↔ masksAt (masksLimit node = true) rest := by
  cases rest <;> simp [lastMasksLimit, masksAt]

theorem lastMasksLimit_append (nodes rest : List Node) :
    lastMasksLimit (nodes ++ rest) = true ↔ masksAt (lastMasksLimit nodes = true) rest := by
  induction nodes with
  | nil => simp [masksAt, lastMasksLimit]
  | cons node nodes ih =>
    rw [List.cons_append, lastMasksLimit_cons, lastMasksLimit_cons]
    simp only [masksAt, List.append_eq_nil_iff] at ih ⊢
    rw [ih]
    by_cases hrest : rest = [] <;> simp [hrest, lastMasksLimit]

theorem anyMayReachLimit_iff (nodes : List Node) :
    anyMayReachLimit nodes = true ↔ ∃ node ∈ nodes, mayReachLimit node = true := by
  induction nodes with
  | nil => simp [anyMayReachLimit]
  | cons node nodes ih => simp [anyMayReachLimit, ih]

end Masks

/-- Patterns without ACCEPT leave none behind. -/
def acceptless {env : Env} {calls : Bool} (hcalls : CallsSafe env calls) : MatcherRelation env where
  ok node := acceptFree calls node = true
  children hn := Node.all_children hn
  requantified hn _ _ := by simpa [acceptFree, Node.all, acceptFreeHere] using hn
  captureEnd _ _ := rfl
  captureRestore _ := rfl
  resolved hn htarget := hcalls.free (Node.all_here hn) _ _ htarget
  rel m _ := Triple NoAccept m fun _ => NoAccept
  pure _ := Triple.pure fun _ hc => hc
  bind hm hf := Triple.bind hm hf
  exhausted _ := by rintro _ _ _ _ ⟨⟩
  view := view_keeps
  update {f} hf := by
    rintro ctx hc _ _ ⟨⟩
    rcases (hf ctx.state).2 with hkept | hcleared
    · simpa only [At, hkept] using hc
    · simp [At, hcleared]
  localFlags _ _ hf := update_at hf
  control {verb n} hn _ hc := setControl_at fun _ _ _ hacc => by
    obtain rfl := hc hacc
    simpa [acceptFreeHere] using Node.all_here hn
  hasError := budgeted_at _
  enterRecursion := budgeted_at _
  leaveRecursion := budgeted_at _
  retain := budgeted_at _
  consume := budgeted_at _
  reject _ := budgeted_at _

/-- What the induction on the fuel carries about the two entry points. -/
structure Unmasking {env : Env} {calls : Bool} (hcalls : CallsSafe env calls) (E : Engine) :
    Prop where
  attempts : ∀ {node rest}, acceptSafe calls node = true →
    (∀ n ∈ rest, acceptSafe calls n = true) → ∀ pos, Triple NoAccept (E.matchSeqFrom node rest pos)
      (Unmasked (masksAt (masksLimit node = true) rest))
  free : (acceptless hcalls).Engines E E
  spares : ∀ {node rest}, mayReachLimit node = false → anyMayReachLimit rest = false → ∀ pos,
    Triple (At fun _ e => e = none) (E.matchSeqFrom node rest pos) fun _ => At fun _ e => e = none
  sparesCollected : ∀ {node}, mayReachLimit node = false → ∀ state,
    Triple (At fun _ e => e = none) (E.collectMatchStatesFrom node state)
      fun _ => At fun _ e => e = none

namespace Unmasking

variable {env : Env} {calls : Bool} {hcalls : CallsSafe env calls} {E : Engine} {inner : Node}
  (h : Unmasking hcalls E) {rest : List Node}
  (hr : ∀ n ∈ rest, acceptSafe calls n = true)

include h

section Rest

include hr

/-- The rest after a step that succeeded. -/
theorem matchRest_settled {m : Prop} (pos : Nat) :
    Triple (At fun c e => e = none ∨ (c ≠ some .accept ∧ m)) (matchRest E rest pos)
      (Unmasked (masksAt m rest)) := by
  refine Triple.bind view_at fun s => Triple.ite (fun hs => ?_) fun hs => ?_
  · refine Triple.pure fun ctx ⟨hctx, hc⟩ => ?_
    exact .inl (hctx.resolve_right fun hm => hm.1 (hc ▸ hs))
  · cases rest with
    | nil => exact Triple.pure fun ctx hctx => hctx.1.imp_right (And.imp_right fun hm => .inl ⟨rfl, hm⟩)
    | cons node rest =>
      obtain ⟨hn, hrest⟩ := List.forall_mem_cons.mp hr
      exact (h.attempts hn hrest pos).conseq (fun ctx hctx hc => hs (hctx.2.trans hc))
        fun _ _ hu => hu.mono fun hm => .inr ((lastMasksLimit_cons node rest).mpr hm)

theorem matchRest_ready {m : Prop} (pos : Nat) :
    Triple (Ready rest m) (matchRest E rest pos) (Unmasked (masksAt m rest)) := by
  by_cases hm : rest = [] ∧ ¬m
  · obtain ⟨rfl, hm⟩ := hm
    refine (matchRest_settled h hr pos).pre (fun ctx hctx => .inl ?_)
    exact hctx.2.resolve_right fun hne => hne.elim (fun hne => hne rfl) hm
  · have hmasked : rest ≠ [] ∨ m := by
      by_cases hrest : rest = []
      · exact .inr (by_contra fun hm' => hm ⟨hrest, hm'⟩)
      · exact .inl hrest
    refine (matchRest_settled h hr (m := rest ≠ [] ∨ m) pos).conseq
      (fun ctx hctx => .inr ⟨hctx.1, hmasked⟩) fun _ _ hu => hu.mono ?_
    rintro (⟨hnil, hne | hm⟩ | hlast)
    · exact absurd hnil hne
    · exact .inl ⟨hnil, hm⟩
    · exact .inr hlast

/-- The rest, and a further attempt when it fails. -/
theorem matchRestOrElse {m M : Prop} (pos : Nat) {f : Matcher (Option Nat)}
    (hf : Triple (Ready rest m) f (Unmasked M)) (hM : masksAt m rest → M) :
    Triple (Ready rest m)
      (do
        match ← matchRest E rest pos with
        | some final => pure (some final)
        | none => f) (Unmasked M) := by
  cases rest with
  | nil =>
    refine Triple.bind (R := fun r ctx => r = some pos ∧ Ready [] m ctx) ?_ fun r => ?_
    · refine Triple.bind view_keeps fun s => Triple.ite (fun _ => ?_) fun _ => ?_
      · exact Triple.pure fun _ hctx => ⟨rfl, hctx⟩
      · exact Triple.pure fun _ hctx => ⟨rfl, hctx⟩
    · refine Triple.of_fact fun hpos => ?_
      subst hpos
      refine Triple.pure fun ctx ⟨hc, hs⟩ => hs.imp_right ?_
      rintro (hne | hm)
      · exact absurd rfl hne
      · exact ⟨hc, hM (.inl ⟨rfl, hm⟩)⟩
  | cons node rest =>
    refine Triple.bind (matchRest_ready h hr pos) fun r => ?_
    cases r with
    | some final => exact Triple.pure fun _ hu => hu.mono hM
    | none => exact hf.conseq (fun ctx hc => ⟨hc, .inr (.inl (List.cons_ne_nil _ _))⟩) fun _ _ hu => hu

theorem matchRestOrRestore {m : Prop} (pos : Nat) {f : MatchState → MatchState}
    (hf : ∀ s, (f s).control = s.control) :
    Triple Clean
      (do
        match ← matchRest E rest pos with
        | some final => pure (some final)
        | none => do
          update f
          pure none) (Unmasked (masksAt m rest)) := by
  refine (matchRestOrElse h hr (m := m) (M := masksAt m rest) pos ?_ id).pre
    fun _ hc => ⟨hc.1, .inl hc.2⟩
  exact Triple.bind (update_at hf) fun _ => Triple.pure fun _ hc => hc.1

end Rest

/-- A sub-pattern that is matched on its own. -/
theorem attemptsAlone (hi : acceptSafe calls inner = true) (pos : Nat) :
    Triple NoAccept (E.matchSeqFrom inner [] pos) (Unmasked (masksLimit inner = true)) :=
  (h.attempts hi (List.forall_mem_nil _) pos).post fun _ _ hu => hu.mono masksAt_nil.mp

theorem matches_spared (rest : List Node) {m : Prop} (hm : mayReachLimit inner = true → m)
    (pos : Nat) :
    Triple (At fun _ e => Spared rest m e) (E.matchSeqFrom inner [] pos)
      fun _ => At fun _ e => Spared rest m e := by
  by_cases hs : rest ≠ [] ∨ m
  · exact fun _ _ _ _ _ => .inr hs
  · have hmay : mayReachLimit inner = false := Bool.eq_false_iff.mpr fun hmay => hs (.inr (hm hmay))
    exact (h.spares hmay rfl pos).conseq (fun _ he => he.resolve_right hs) fun _ _ he => .inl he

theorem collects_spared (rest : List Node) {m : Prop} (hm : mayReachLimit inner = true → m) (state : BacktrackState) :
    Triple (At fun _ e => Spared rest m e) (E.collectMatchStatesFrom inner state)
      fun _ => At fun _ e => Spared rest m e := by
  by_cases hs : rest ≠ [] ∨ m
  · exact fun _ _ _ _ _ => .inr hs
  · have hmay : mayReachLimit inner = false := Bool.eq_false_iff.mpr fun hmay => hs (.inr (hm hmay))
    exact (h.sparesCollected hmay state).conseq (fun _ he => he.resolve_right hs) fun _ _ he => .inl he

section Groups

include hr

theorem advanceIf {m : Prop} (ok : Bool) (pos : Nat) :
    Triple Clean (advanceIf E ok rest pos) (Unmasked (masksAt m rest)) :=
  Triple.ite (fun _ => (matchRest_ready h hr pos).pre (fun _ hc => ⟨hc.1, .inl hc.2⟩)) fun _ => Triple.pure fun _ hc => hc.1

theorem tryCaptureStates (hne : rest ≠ []) (index startOffset : Nat) (initial : BacktrackState)
    (states : List BacktrackState) {m : Prop} :
    Triple NoAccept (tryCaptureStates env E index startOffset rest initial states)
      (Unmasked (masksAt m rest)) := by
  suffices Triple (Ready rest m) _ (Unmasked (masksAt m rest)) from
    this.pre (fun _ hc => ⟨hc, .inr (.inl hne)⟩)
  induction states with
  | nil => exact Triple.bind (install_at _) fun _ => Triple.pure fun _ hc => hc.1
  | cons state states ih =>
    exact Triple.bind (install_at _) fun _ => Triple.bind (update_at fun _ => rfl) fun _ =>
      matchRestOrElse h hr state.end ih id

theorem matchSeqFromWithGroup (hi : acceptSafe calls inner = true) (pos : Nat)
    (groupIdx : Option Nat) (startOffset : Nat)
    (hcollects : groupIdx.isSome = true →
      captureNeedsStreamingContinuation inner = true ∨ acceptFree calls inner = true) :
    Triple Clean (matchSeqFromWithGroup env E inner rest pos groupIdx startOffset)
      (Unmasked (masksAt (masksLimit inner = true) rest)) := by
  cases rest with
  | nil =>
    refine Triple.bind ((h.attempts hi hr pos).pre (fun _ hc => hc.1))
      fun r => ?_
    cases r with
    | none => exact Triple.pure fun _ hu => hu
    | some final =>
      cases groupIdx with
      | none => exact Triple.pure fun _ hu => hu
      | some index => exact Triple.bind (update_at fun _ => rfl) fun _ => Triple.pure fun _ hu => hu
  | cons node rest =>
    cases groupIdx with
    | none => exact (h.attempts hi hr pos).pre (fun _ hc => hc.1)
    | some index =>
      refine Triple.ite (fun _ => ?_) fun hstreams => ?_
      · have hr' : ∀ n ∈ .captureEnd index startOffset :: node :: rest, acceptSafe calls n = true :=
          List.forall_mem_cons.mpr ⟨rfl, hr⟩
        refine (h.attempts hi hr' pos).conseq (fun _ hc => hc.1) fun _ _ hu => hu.mono ?_
        simp [masksAt, lastMasksLimit]
      · have hfree := (hcollects rfl).resolve_left hstreams
        refine Triple.bind (R := fun _ => NoAccept) ?_ fun pair => ?_
        · exact Triple.bind (take_at pos) fun _ => Triple.bind
            ((h.free.collect hfree _).pre fun _ hc => hc.1)
            fun _ => Triple.pure fun _ hc => hc
        · exact tryCaptureStates h hr (List.cons_ne_nil _ _) index startOffset pair.1 pair.2

theorem matchGroup (hn : acceptSafe calls (.group index inner) = true) (pos : Nat) :
    Triple Clean (matchGroup env E index inner rest pos)
      (Unmasked (masksAt (masksLimit inner = true) rest)) := by
  have hi : acceptSafe calls inner = true := Node.all_children hn inner (List.mem_singleton_self _)
  refine inRecursion_at ?_ fun _ _ hc => hc
  refine Triple.bind view_keeps fun s => ?_
  refine Triple.bind (matchSeqFromWithGroup h hr hi pos _ _ ?_) fun r => ?_
  · intro htracked
    cases index with
    | none => simp [trackedIndex] at htracked
    | some index => simpa [collectsNoAccept] using Node.all_here hn
  · refine Triple.bind view_keeps fun t => Triple.bind ?_ fun _ => Triple.pure fun _ hu => hu
    unfold closeAccepted
    split
    · split
      · exact update_at fun _ => rfl
      · exact Triple.pure fun _ hu => hu
    · exact Triple.pure fun _ hu => hu

theorem matchCaptureEnd (index start : Nat) (pos : Nat) {m : Prop} :
    Triple Clean (matchCaptureEnd env E index start rest pos) (Unmasked (masksAt m rest)) :=
  Triple.bind view_keeps fun _ => Triple.bind (update_at fun _ => rfl) fun _ =>
    matchRestOrRestore h hr pos fun _ => rfl

theorem matchCaptureRestore (groups : List (Option Match)) (pos : Nat) {m : Prop} :
    Triple Clean (matchCaptureRestore E groups rest pos) (Unmasked (masksAt m rest)) :=
  Triple.bind view_keeps fun _ => Triple.bind (update_at fun _ => rfl) fun _ =>
    matchRestOrRestore h hr pos fun _ => rfl

theorem matchAlternation (pos : Nat) (first : Bool)
    (hb : ∀ n ∈ branches, acceptSafe calls n = true) :
    Triple NoAccept (matchAlternation E rest pos first branches)
      (Unmasked (masksAt (anyMasksLimit branches = true) rest)) := by
  induction branches generalizing first with
  | nil => exact Triple.pure fun _ hc => hc
  | cons branch branches ih =>
    obtain ⟨hbranch, hbranches⟩ := List.forall_mem_cons.mp hb
    have hlater : masksAt (anyMasksLimit branches = true) rest →
        masksAt (anyMasksLimit (branch :: branches) = true) rest :=
      masksAt.mono fun hm => by simp [anyMasksLimit, hm]
    have ih' := (ih false hbranches).conseq (fun _ hc => hc) fun _ _ hu => hu.mono hlater
    refine Triple.bind (consumeAlternative_at first) fun _ => Triple.ite
      (fun _ => Triple.pure fun _ hc => hc) fun _ => Triple.bind view_keeps fun saved => ?_
    refine Triple.bind (h.attempts hbranch hr pos) fun r => ?_
    cases r with
    | some final =>
      exact Triple.pure fun _ hu => hu.mono (masksAt.mono fun hm => by simp [anyMasksLimit, hm])
    | none =>
      refine Triple.bind view_keeps fun s => Triple.ite (fun _ => ?_) fun _ =>
        Triple.ite (fun _ => Triple.pure fun _ hc => hc) fun _ => ?_
      · exact Triple.bind clearControl_at fun _ => Triple.bind (update_at fun _ => rfl) fun _ => ih'
      · exact Triple.bind (update_at fun _ => rfl) fun _ => ih'

end Groups

section Assertions

theorem collectMatchStates_spared (rest : List Node) {m : Prop}
    (hm : mayReachLimit inner = true → m) (pos : Nat) :
    Triple (At fun _ e => Spared rest m e) (collectMatchStates E inner pos)
      fun _ => At fun _ e => Spared rest m e :=
  Triple.bind (take_at pos) fun _ => Triple.bind (collects_spared h rest hm _) fun _ =>
    Triple.pure fun _ he => he

/-- A start was found only without a limit error, unless the pattern masks it. -/
theorem lookbehindFound (hi : acceptSafe calls inner = true) (pos : Nat) (starts : List Nat) :
    Triple NoAccept (lookbehindFound E inner pos starts) fun found =>
      At fun c e => c ≠ some .accept ∧ (found = true → e = none ∨ masksLimit inner = true) := by
  induction starts with
  | nil => exact Triple.pure fun _ hc => ⟨hc, Bool.noConfusion⟩
  | cons start starts ih =>
    refine Triple.bind view_keeps fun saved => Triple.bind (h.attemptsAlone hi start) fun r => ?_
    refine Triple.bind (R := fun accepted => At fun c e => c ≠ some .accept ∧
        (accepted = true ∨ r = some pos → e = none ∨ masksLimit inner = true))
        (takeAccepted_at fun c e hu => ⟨by simp, ?_⟩) fun accepted => Triple.ite (fun hfound => ?_)
        fun _ => Triple.bind (update_at fun _ => rfl) fun _ => ih.pre fun _ hc => hc.1
    · cases r with
      | none => exact fun hor => absurd hu (by simpa [unmasked] using hor)
      | some final => exact fun _ => hu.imp_right And.right
    · exact Triple.pure fun _ hc => ⟨hc.1, fun _ => hc.2 (by simpa using hfound)⟩

theorem lookbehindFound_spared (rest : List Node) {m : Prop} (hm : mayReachLimit inner = true → m) (pos : Nat)
    (starts : List Nat) :
    Triple (At fun _ e => Spared rest m e) (Regex.lookbehindFound E inner pos starts)
      fun _ => At fun _ e => Spared rest m e := by
  induction starts with
  | nil => exact Triple.pure fun _ he => he
  | cons start starts ih =>
    exact Triple.bind view_keeps fun saved => Triple.bind (h.matches_spared rest hm start) fun r =>
      Triple.bind takeAccepted_spared fun accepted =>
        Triple.ite (fun _ => Triple.pure fun _ he => he) fun _ =>
          Triple.bind (update_at fun _ => rfl) fun _ => ih

include hr

theorem tryAssertionStates {m M : Prop} (pos : Nat) (accepted : Bool)
    {exhaust : Matcher (Option Nat)} (hx : Triple (Ready rest m) exhaust (Unmasked M))
    (hM : masksAt m rest → M) (states : List BacktrackState) :
    Triple (Ready rest m) (tryAssertionStates E rest pos accepted exhaust states) (Unmasked M) := by
  induction states with
  | nil => exact hx
  | cons state states ih =>
    exact Triple.bind (install_at _) fun _ => matchRestOrElse h hr pos
      (Triple.bind view_keeps fun _ => Triple.ite (fun _ => Triple.pure fun _ hc => hc.1)
        fun _ => ih) hM

theorem matchNonAtomicLookahead (pos : Nat) :
    Triple Clean (matchNonAtomicLookahead E inner rest pos)
      (Unmasked (masksAt (mayReachLimit inner = true) rest)) := by
  refine Triple.bind ((collectMatchStates_spared h rest id pos).pre (fun _ hc => .inl hc.2)) fun pair => ?_
  refine Triple.bind takeAccepted_ready fun accepted => ?_
  refine tryAssertionStates h hr pos accepted ?_ id pair.2
  exact Triple.bind (install_at _) fun _ => Triple.pure fun _ hc => hc.1

theorem tryLookbehindStarts (pos : Nat) (original : BacktrackState) (starts : List Nat) :
    Triple (Ready rest (mayReachLimit inner = true))
      (tryLookbehindStarts E inner rest pos original starts)
      (Unmasked (masksAt (mayReachLimit inner = true) rest)) := by
  induction starts with
  | nil => exact Triple.bind (install_at _) fun _ => Triple.pure fun _ hc => hc.1
  | cons start starts ih =>
    refine Triple.bind ((collects_spared h rest id _).pre (fun _ hc => hc.2))
      fun states => ?_
    refine Triple.bind takeAccepted_ready fun accepted => ?_
    exact tryAssertionStates h hr pos accepted ih id _

theorem matchAtomicLookahead (hi : acceptSafe calls inner = true) (positive : Bool) (pos : Nat) :
    Triple Clean (matchAtomicLookahead E positive inner rest pos)
      (Unmasked (masksAt
        ((if positive then masksLimit inner else mayReachLimit inner) = true) rest)) := by
  refine Triple.bind view_keeps fun saved => ?_
  cases positive with
  | true =>
    refine Triple.bind ((h.attemptsAlone hi pos).pre fun _ hc => hc.1) fun r => ?_
    cases r with
    | none =>
      exact Triple.bind clearControl_at fun _ => Triple.bind (update_at fun _ => rfl) fun _ =>
        Triple.pure fun _ hc => hc
    | some final =>
      refine Triple.bind (R := fun _ => Ready rest (masksLimit inner = true))
        (setControl_at fun _ _ hu => ⟨by simp, hu.imp_right fun hm => .inr hm.2⟩) fun _ => ?_
      exact matchRest_ready h hr pos
  | false =>
    refine Triple.bind ((h.matches_spared rest id pos).pre fun _ hc => .inl hc.2) fun r => ?_
    refine Triple.bind (R := fun _ => Ready rest (mayReachLimit inner = true))
        (setControl_at fun _ _ he => ⟨by simp, he⟩) fun _ => ?_
    cases r with
    | none => exact Triple.bind (update_at fun _ => rfl) fun _ => matchRest_ready h hr pos
    | some final =>
      exact Triple.bind (update_at fun _ => rfl) fun _ => Triple.pure fun _ hc => hc.1

theorem matchLookahead (hn : acceptSafe calls (.lookahead positive atomic inner) = true)
    (pos : Nat) :
    Triple Clean (matchLookahead E positive atomic inner rest pos)
      (Unmasked (masksAt (masksLimit (.lookahead positive atomic inner) = true) rest)) := by
  have hi : acceptSafe calls inner = true := Node.all_children hn inner (List.mem_singleton_self _)
  refine inRecursion_at (Triple.ite (fun hna => ?_) fun hna => ?_) fun _ _ hc => hc
  · refine (matchNonAtomicLookahead h hr pos).post fun _ _ hu => hu.mono (masksAt.mono fun hm => ?_)
    simp only [Bool.and_eq_true, Bool.not_eq_true'] at hna
    simpa [masksLimit, hna] using hm
  · refine (matchAtomicLookahead h hr hi positive pos).post fun _ _ hu =>
      hu.mono (masksAt.mono fun hm => ?_)
    cases positive <;> cases atomic <;> simp_all [masksLimit]

theorem matchLookbehind (hn : acceptSafe calls (.lookbehind positive atomic inner) = true)
    (pos : Nat) :
    Triple Clean (matchLookbehind E positive atomic inner rest pos)
      (Unmasked (masksAt (masksLimit (.lookbehind positive atomic inner) = true) rest)) := by
  have hi : acceptSafe calls inner = true := Node.all_children hn inner (List.mem_singleton_self _)
  refine inRecursion_at (Triple.ite (fun hna => ?_) fun hna => ?_) fun _ _ hc => hc
  · simp only [Bool.and_eq_true, Bool.not_eq_true'] at hna
    refine Triple.bind (take_at pos) fun original => ?_
    refine (tryLookbehindStarts h hr pos original _).conseq (fun _ hc => ⟨hc.1, .inl hc.2⟩)
      fun _ _ hu => hu.mono (masksAt.mono fun hm => ?_)
    simpa [masksLimit, hna] using hm
  · cases positive with
    | true =>
      have hmask : masksLimit (.lookbehind true atomic inner) = masksLimit inner := by
        cases atomic <;> simp_all [masksLimit]
      rw [hmask]
      refine Triple.bind ((lookbehindFound h hi pos _).pre fun _ hc => hc.1) fun found => ?_
      refine Triple.ite (fun hfound => ?_) fun _ => Triple.pure fun _ hc => hc.1
      exact (matchRest_ready h hr pos).pre fun _ hc =>
        ⟨hc.1, (hc.2 hfound).imp_right fun hm => .inr hm⟩
    | false =>
      have hmask : masksLimit (.lookbehind false atomic inner) = mayReachLimit inner := by
        simp [masksLimit]
      rw [hmask]
      have hfound : Triple Clean (Regex.lookbehindFound E inner pos (lookbehindStarts inner pos))
          fun _ => Ready rest (mayReachLimit inner = true) := fun ctx hc found ctx' hrun =>
        ⟨(lookbehindFound h hi pos _ ctx hc.1 found ctx' hrun).1,
          lookbehindFound_spared h rest id pos _ ctx (.inl hc.2) found ctx' hrun⟩
      exact Triple.bind hfound fun found => Triple.ite (fun _ => matchRest_ready h hr pos)
        fun _ => Triple.pure fun _ hc => hc.1

theorem matchAtomic (hi : acceptSafe calls inner = true) (pos : Nat) :
    Triple Clean (matchAtomic E inner rest pos)
      (Unmasked (masksAt (masksLimit inner = true) rest)) := by
  refine inRecursion_at (Triple.bind ((h.attemptsAlone hi pos).pre fun _ hc => hc.1) fun r => ?_)
    fun _ _ hc => hc
  cases r with
  | none => exact Triple.pure fun _ hc => hc
  | some final => exact matchRest_settled h hr final

theorem matchLocalFlags (hi : acceptSafe calls inner = true) (flags : LocalMatchFlags)
    (pos : Nat) :
    Triple Clean (matchLocalFlags E flags inner rest pos)
      (Unmasked (masksAt (masksLimit inner = true) rest)) := by
  refine Triple.bind view_keeps fun saved => Triple.bind (update_at fun _ => rfl) fun _ => ?_
  refine Triple.bind ((h.attemptsAlone hi pos).pre fun _ hc => hc.1) fun r =>
    Triple.bind (update_at fun _ => rfl) fun _ => ?_
  cases r with
  | none => exact Triple.pure fun _ hc => hc
  | some final => exact matchRest_settled h hr final

theorem tryScriptRuns {m : Prop} (atomic accepted : Bool) (pos : Nat) (initial : BacktrackState)
    (states : List BacktrackState) :
    Triple (Ready rest m) (tryScriptRuns env E atomic accepted rest pos initial states)
      (Unmasked (masksAt m rest)) := by
  induction states with
  | nil => exact Triple.bind (install_at _) fun _ => Triple.pure fun _ hc => hc.1
  | cons state states ih =>
    refine Triple.ite (fun _ => ih) fun _ => Triple.bind (install_at _) fun _ =>
      matchRestOrElse h hr state.end ?_ id
    exact Triple.bind view_keeps fun _ => Triple.ite (fun _ => Triple.pure fun _ hc => hc.1)
      fun _ => ih

theorem matchScriptRun (atomic : Bool) (pos : Nat) :
    Triple Clean (matchScriptRun env E inner atomic rest pos)
      (Unmasked (masksAt (mayReachLimit inner = true) rest)) := by
  refine inRecursion_at ?_ fun _ _ hc => hc
  refine Triple.bind ((collectMatchStates_spared h rest id pos).pre fun _ hc => .inl hc.2)
    fun pair => Triple.bind takeAccepted_ready fun accepted => ?_
  exact tryScriptRuns h hr atomic accepted pos pair.1 _

end Assertions

end Unmasking

end Rphp.Regex
