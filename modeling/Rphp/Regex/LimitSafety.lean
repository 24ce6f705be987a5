import Rphp.Regex.LimitUnmasked

set_option autoImplicit true

namespace Rphp.Regex

open Rphp.Lib

theorem acceptSafe_requantified {inner : Node} {min : Nat} {max : Option Nat}
    (hn : acceptSafe calls (.quantifier inner min max greedy p) = true)
    (min' : Nat) (max' : Option Nat) :
    acceptSafe calls (.quantifier inner min' max' greedy false) = true := by
  simpa [acceptSafe, Node.all, collectsNoAccept] using hn

theorem terminalFinish_unmasked {m : Prop} (min : Nat) (tracks : Bool) (initial : MatchState)
    (repetitions currentPos : Nat) :
    Triple NoAccept (terminalFinish min tracks initial repetitions currentPos) (Unmasked m) := by
  refine Triple.ite (fun _ => Triple.bind hasError_at fun failed => Triple.ite (fun _ => ?_)
    fun hfailed => ?_) fun _ => Triple.bind (update_at fun _ => rfl) fun _ => ?_
  · exact Triple.pure fun _ hc => hc.1
  · refine Triple.pure fun ctx hc => .inl ?_
    have he : failed = ctx.budget.error.isSome := hc.2
    simpa [he] using hfailed
  · exact Triple.pure fun _ hc => hc

namespace Unmasking

variable {env : Env} {calls : Bool} {hcalls : CallsSafe env calls} {E : Engine} {inner : Node}
  (h : Unmasking hcalls E) {rest : List Node}
  (hr : ∀ n ∈ rest, acceptSafe calls n = true)

include h

section References

include hr

theorem matchBackrefByIndex (n : Nat) (pos : Nat) {m : Prop} :
    Triple Clean (matchBackrefByIndex env E n rest pos) (Unmasked (masksAt m rest)) := by
  refine Triple.bind view_keeps fun s => ?_
  split
  · exact Triple.pure fun _ hc => hc.1
  · exact advanceIf h hr _ _

theorem matchNamedBackreference (n : GroupName) (pos : Nat) {m : Prop} :
    Triple Clean (matchNamedBackreference env E n rest pos) (Unmasked (masksAt m rest)) := by
  refine Triple.bind view_keeps fun s => ?_
  split
  · exact matchBackrefByIndex h hr _ pos
  · exact Triple.pure fun _ hc => hc.1

theorem matchSubroutine {m : Prop} (target : SubroutineTarget)
    (pos : Nat) :
    Triple Clean (matchSubroutine env E target rest pos) (Unmasked (masksAt m rest)) := by
  refine Triple.bind view_keeps fun s => Triple.ite (fun _ => Triple.pure fun _ hc => hc.1)
    fun _ => inRecursion_at ?_ fun _ _ hc => hc
  refine Triple.bind (update_at fun _ => rfl) fun _ => Triple.bind (take_at pos) fun initial => ?_
  refine Triple.bind (R := Unmasked (masksAt m rest)) ?_ fun r => Triple.bind view_keeps fun t =>
    Triple.bind ?_ fun _ => Triple.bind (update_at fun _ => rfl) fun _ => Triple.pure fun _ hu => hu
  · cases htarget : resolveSubroutine env target with
    | none => exact Triple.pure fun _ hc => hc.1
    | some node =>
      have hr' : ∀ n ∈ .captureRestore initial.groups :: rest, acceptSafe calls n = true :=
        List.forall_mem_cons.mpr ⟨rfl, hr⟩
      refine (h.attempts (hcalls.safe target node htarget) hr' pos).conseq (fun _ hc => hc.1)
        fun _ _ hu => hu.mono ?_
      rintro (⟨hnil, -⟩ | hlast)
      · exact absurd hnil (List.cons_ne_nil _ _)
      · exact ((lastMasksLimit_cons _ rest).mp hlast).mono fun hm => by simp [masksLimit] at hm
  · cases r with
    | none => exact install_at _
    | some final => exact Triple.ite (fun _ => update_at fun _ => rfl) fun _ => Triple.pure fun _ hu => hu

end References

section Conditions

theorem conditionLookbehind (hi : acceptSafe calls inner = true) (pos : Nat) (saved : MatchState)
    (starts : List Nat) :
    Triple NoAccept (conditionLookbehind E inner pos saved starts) fun _ => NoAccept := by
  induction starts with
  | nil => exact Triple.pure fun _ hc => hc
  | cons start starts ih =>
    refine Triple.bind (update_at fun _ => rfl) fun _ => Triple.bind (h.attemptsAlone hi start)
      fun r => Triple.bind (R := fun _ => NoAccept) (takeAccepted_at fun _ _ _ => by simp)
      fun accepted => Triple.ite (fun _ => Triple.pure fun _ hc => hc) fun _ => ?_
    exact Triple.bind (budgeted_at _) fun _ =>
      Triple.ite (fun _ => Triple.pure fun _ hc => hc) fun _ => ih

theorem conditionLookbehind_spared (rest : List Node) {m : Prop}
    (hm : mayReachLimit inner = true → m) (pos : Nat) (saved : MatchState) (starts : List Nat) :
    Triple (At fun _ e => Spared rest m e) (Regex.conditionLookbehind E inner pos saved starts)
      fun _ => At fun _ e => Spared rest m e := by
  induction starts with
  | nil => exact Triple.pure fun _ he => he
  | cons start starts ih =>
    refine Triple.bind (update_at fun _ => rfl) fun _ => Triple.bind (h.matches_spared rest hm start)
      fun r => Triple.bind takeAccepted_spared
      fun accepted => Triple.ite (fun _ => Triple.pure fun _ he => he) fun _ => ?_
    exact Triple.bind (hasError_at.post fun _ _ he => he.1) fun _ =>
      Triple.ite (fun _ => Triple.pure fun _ he => he) fun _ => ih

/-- Whether an assertion holds, without ACCEPT and with a limit reached only inside it. -/
theorem assertionHolds (rest : List Node) (hi : acceptSafe calls inner = true)
    (positive lookbehind : Bool) (pos : Nat) :
    Triple Clean (assertionHolds E positive lookbehind inner pos)
      fun _ => Ready rest (mayReachLimit inner = true) := by
  refine Triple.bind view_keeps fun saved => Triple.bind
    (R := fun _ => Ready rest (mayReachLimit inner = true)) ?_ fun matched =>
    Triple.ite (fun _ => ?_) fun _ => Triple.ite (fun _ => Triple.pure fun _ hc => hc) fun _ => ?_
  · refine Triple.ite (fun _ => ?_) fun _ => ?_
    · exact fun ctx hc found ctx' hrun =>
        ⟨conditionLookbehind h hi pos saved _ ctx hc.1 found ctx' hrun,
          conditionLookbehind_spared h rest id pos saved _ ctx (.inl hc.2) found ctx' hrun⟩
    · refine Triple.bind ((h.matches_spared rest id pos).pre fun _ hc => .inl hc.2) fun r => ?_
      exact Triple.bind (setControl_at fun _ _ he => ⟨by simp, he⟩) fun _ => Triple.pure fun _ hc => hc
  · exact Triple.bind (update_at fun _ => rfl) fun _ => Triple.pure fun _ hc => hc
  · exact Triple.bind (update_at fun _ => rfl) fun _ => Triple.pure fun _ hc => hc

theorem captureConditionMatches (rest : List Node)
    (hn : acceptSafe calls (.conditional condition yes no) = true) (pos : Nat) :
    Triple Clean (captureConditionMatches env E condition pos)
      fun _ => Ready rest (condition.mayReachLimit = true) := by
  have hpure (b : Bool) {m : Prop} : Triple Clean (pure b) fun _ => Ready rest m :=
    Triple.pure fun _ hc => ⟨hc.1, .inl hc.2⟩
  refine Triple.bind view_keeps fun s => ?_
  cases condition with
  | assertion positive lookbehind inner =>
    exact assertionHolds h rest (Node.all_children hn inner (by simp [Node.children])) _ _ pos
  | ambiguousRecursion n target =>
    refine Triple.ite (fun _ => hpure _) fun _ => ?_
    cases target with
    | none => exact hpure _
    | some target => exact hpure _
  | _ => exact hpure _

include hr

theorem matchConditional (hn : acceptSafe calls (.conditional condition yes no) = true)
    (pos : Nat) :
    Triple Clean (matchConditional env E condition yes no rest pos)
      (Unmasked (masksAt (masksLimit (.conditional condition yes no) = true) rest)) := by
  refine Triple.bind (captureConditionMatches h rest hn pos) fun holds => ?_
  cases hs : if holds then some yes else no with
  | none =>
    have hno : no = none := by
      cases holds <;> simp_all
    subst hno
    exact (matchRest_ready h hr pos).post fun _ _ hu => hu.mono
      (masksAt.mono fun hm => by simp [masksLimit, hm])
  | some node =>
    have hchild : acceptSafe calls node = true := by
      refine Node.all_children hn node ?_
      cases holds <;> simp_all [Node.children]
    refine (h.attempts hchild hr pos).conseq (fun _ hc => hc.1) fun _ _ hu =>
      hu.mono (masksAt.mono fun hm => ?_)
    cases holds <;> cases no <;> simp_all [masksLimit]

end Conditions

section Verbs

include hr

theorem matchMark (n : GroupName) (pos : Nat) {m : Prop} :
    Triple Clean (matchMark E n rest pos) (Unmasked (masksAt m rest)) :=
  Triple.bind view_keeps fun _ => Triple.bind (update_at fun _ => rfl) fun _ =>
    matchRestOrRestore h hr pos fun _ => rfl

theorem matchControl (verb : ControlVerb) (n : Option GroupName) (pos : Nat) {m : Prop} :
    Triple Clean (matchControl E verb n rest pos) (Unmasked (masksAt m rest)) := by
  have hmark : Triple Clean (publishMark n) fun _ => Clean := by
    cases n with
    | none => exact Triple.pure fun _ hc => hc
    | some n => exact @update_at _ (fun s => { s with mark := some n }) fun _ => rfl
  refine Triple.bind hmark fun _ => ?_
  cases verb with
  | fail => exact Triple.pure fun _ hc => hc.1
  | accept =>
    exact Triple.bind (setControl_at fun _ _ hc => .inl hc.2) fun _ => Triple.pure fun _ hu => hu
  | _ =>
    refine (matchRestOrElse h hr (m := m) (M := masksAt m rest) pos ?_ id).pre
      fun _ hc => ⟨hc.1, .inl hc.2⟩
    refine Triple.bind view_keeps fun s => Triple.ite (fun _ => ?_) fun _ =>
      Triple.pure fun _ hc => hc.1
    exact Triple.bind (setControl_at fun _ _ _ =>
      MatcherRelation.verbControl_ne_accept _ n pos s.markPositions) fun _ =>
        Triple.pure fun _ hc => hc

theorem matchResetStart (pos : Nat) {m : Prop} :
    Triple Clean (matchResetStart env E rest pos) (Unmasked (masksAt m rest)) := by
  refine Triple.bind view_keeps fun s => ?_
  split
  · exact (matchRest_ready h hr pos).pre fun _ hc => ⟨hc.1, .inl hc.2⟩
  · exact Triple.bind (update_at fun _ => rfl) fun _ => matchRestOrRestore h hr pos fun _ => rfl

end Verbs

section Quantifiers

variable {min : Nat} {max : Option Nat}

theorem terminalLoop (hi : acceptSafe calls inner = true) (hlazy : greedy = true ∨ 0 < min) (tracks : Bool) (initial : MatchState) (steps : Nat)
    (repetitions currentPos : Nat) :
    Triple NoAccept (terminalLoop E inner min max greedy tracks initial steps repetitions currentPos)
      (Unmasked ((!greedy && decide (0 < min) && masksLimit inner) = true)) := by
  induction steps generalizing repetitions currentPos with
  | zero => rintro _ _ _ _ ⟨⟩
  | succ steps ih =>
    refine Triple.ite (fun _ => terminalFinish_unmasked _ _ _ _ _) fun _ => Triple.bind view_keeps
      fun saved => Triple.bind (h.attemptsAlone hi currentPos) fun r => ?_
    cases r with
    | none =>
      exact Triple.bind view_keeps fun s => Triple.ite (fun _ => Triple.pure fun _ hc => hc) fun _ =>
        Triple.bind (update_at fun _ => rfl) fun _ => terminalFinish_unmasked _ _ _ _ _
    | some nextPos =>
      refine Triple.bind view_at fun s => Triple.ite (fun hs => ?_) fun hs => ?_
      · refine Triple.pure fun ctx ⟨hu, hc⟩ => .inl ?_
        exact hu.resolve_right fun hm => hm.1 (hc ▸ hs)
      · suffices Triple (At fun c e => c ≠ some .accept ∧ (e = none ∨ masksLimit inner = true)) _
            (Unmasked ((!greedy && decide (0 < min) && masksLimit inner) = true)) from
          this.pre fun ctx ⟨hu, hc⟩ =>
            ⟨fun hacc => hs (hc.trans hacc), hu.imp_right And.right⟩
        refine Triple.ite (fun _ => ?_) fun _ => Triple.ite (fun hstop => ?_) fun _ => ?_
        · exact Triple.bind (update_at fun _ => rfl) fun _ =>
            (terminalFinish_unmasked _ _ _ _ _).pre fun _ hc => hc.1
        · refine Triple.pure fun ctx ⟨hc, he⟩ => he.imp_right fun hm => ⟨hc, ?_⟩
          simp_all
        · exact (ih _ _).pre fun _ hc => hc.1

theorem matchTerminalQuantifier (hi : acceptSafe calls inner = true) (greedy : Bool) (pos : Nat) :
    Triple Clean (matchTerminalQuantifier E inner min max greedy pos)
      (Unmasked ((!greedy && decide (0 < min) && masksLimit inner) = true)) := by
  refine Triple.bind view_keeps fun initial => Triple.ite
    (fun _ => Triple.pure fun _ hc => .inl hc.2) fun hlazy => ?_
  refine (terminalLoop h hi ?_ _ initial _ 0 pos).pre fun _ hc => hc.1
  cases greedy with
  | true => exact .inl rfl
  | false =>
    refine .inr (Nat.pos_of_ne_zero fun hmin => hlazy ?_)
    simp [hmin]

include hr

theorem matchControlQuantifier
    (hn : acceptSafe calls (.quantifier inner min max greedy false) = true)
    (pos : Nat) :
    Triple Clean (matchControlQuantifier E inner min max greedy rest pos)
      (Unmasked (masksAt True rest)) := by
  have hi : acceptSafe calls inner = true := Node.all_children hn inner (List.mem_singleton_self _)
  have hrest : Triple NoAccept (matchRest E rest pos) (Unmasked (masksAt True rest)) :=
    (matchRest_ready h hr pos).pre fun _ hc => ⟨hc, .inr (.inr trivial)⟩
  have hrepeat : Triple NoAccept
      (E.matchSeqFrom inner (controlContinuation inner min max greedy rest) pos)
      (Unmasked (masksAt True rest)) := by
    simp only [controlContinuation]
    split
    · have hr' : ∀ n ∈ .quantifier inner (min - 1) (max.map (· - 1)) greedy false :: rest,
          acceptSafe calls n = true :=
        List.forall_mem_cons.mpr ⟨acceptSafe_requantified hn _ _, hr⟩
      refine (h.attempts hi hr' pos).post fun _ _ hu => hu.mono ?_
      rintro (⟨hnil, -⟩ | hlast)
      · exact absurd hnil (List.cons_ne_nil _ _)
      · exact ((lastMasksLimit_cons _ rest).mp hlast).mono fun _ => trivial
    · exact (h.attempts hi hr pos).post fun _ _ hu => hu.mono (masksAt.mono fun _ => trivial)
  have horElse {a b : Matcher (Option Nat)} (ha : Triple NoAccept a (Unmasked (masksAt True rest)))
      (hb : Triple NoAccept b (Unmasked (masksAt True rest))) :
      Triple NoAccept (orElseUncontrolled a b) (Unmasked (masksAt True rest)) := by
    refine Triple.bind ha fun r => ?_
    cases r with
    | some final => exact Triple.pure fun _ hu => hu
    | none =>
      exact Triple.bind view_keeps fun _ => Triple.ite (fun _ => Triple.pure fun _ hc => hc) fun _ => hb
  refine inRecursion_at (Triple.pre ?_ fun _ hc => hc.1) fun _ _ hc => hc
  refine Triple.ite (fun _ => Triple.ite (fun _ => hrest) fun _ => Triple.pure fun _ hc => hc)
    fun _ => Triple.ite (fun _ => hrepeat) fun _ => Triple.ite (fun _ => horElse hrepeat hrest)
    fun _ => horElse hrest hrepeat

theorem tryUniversalEndpoints (hne : rest ≠ []) (possessive : Bool) (initial : MatchState)
    (endpoints : List Nat) {m : Prop} :
    Triple NoAccept (tryUniversalEndpoints E possessive rest initial endpoints)
      (Unmasked (masksAt m rest)) := by
  induction endpoints with
  | nil => exact Triple.bind (update_at fun _ => rfl) fun _ => Triple.pure fun _ hc => hc
  | cons endpoint endpoints ih =>
    refine Triple.bind (R := Unmasked (masksAt m rest)) ?_ fun r => ?_
    · refine Triple.bind (budgeted_at _) fun _ => Triple.ite (fun _ => Triple.pure fun _ hc => hc)
        fun _ => Triple.bind (update_at fun _ => rfl) fun _ => ?_
      exact (matchRest_ready h hr endpoint).pre fun _ hc => ⟨hc, .inr (.inl hne)⟩
    · cases r with
      | some final => exact Triple.pure fun _ hu => hu
      | none =>
        refine Triple.bind view_keeps fun s => Triple.ite (fun _ => Triple.pure fun _ hc => hc)
          fun _ => Triple.ite (fun _ => ?_) fun _ => ih
        exact Triple.bind (update_at fun _ => rfl) fun _ => Triple.pure fun _ hc => hc

/-- The states of a loop are tried one after the other, each for a backtrack. -/
theorem matchRestOrElse_ne (hne : rest ≠ []) {m : Prop} (pos : Nat) {f : Matcher (Option Nat)}
    (hf : Triple NoAccept f (Unmasked (masksAt m rest))) :
    Triple NoAccept
      (do
        match ← matchRest E rest pos with
        | some final => pure (some final)
        | none => do
          let s ← view
          if s.control.isSome then pure none else f) (Unmasked (masksAt m rest)) := by
  refine (matchRestOrElse h hr (m := m) (M := masksAt m rest) pos ?_ id).pre
    fun _ hc => ⟨hc, .inr (.inl hne)⟩
  exact Triple.bind view_keeps fun _ => Triple.ite (fun _ => Triple.pure fun _ hc => hc.1)
    fun _ => hf.pre fun _ hc => hc.1

theorem tryBalancedEndpoints (hne : rest ≠ []) (initial : MatchState) (endpoints : List Nat)
    {m : Prop} :
    Triple NoAccept (tryBalancedEndpoints E rest initial endpoints)
      (Unmasked (masksAt m rest)) := by
  have hgiveUp : Triple NoAccept (do restoreCaptures initial; pure none)
      (Unmasked (masksAt m rest)) :=
    Triple.bind (update_at fun _ => rfl) fun _ => Triple.pure fun _ hc => hc
  induction endpoints with
  | nil => exact hgiveUp
  | cons endpoint endpoints ih =>
    exact Triple.bind (budgeted_at _) fun _ => Triple.ite (fun _ => hgiveUp) fun _ =>
      Triple.bind (update_at fun _ => rfl) fun _ => matchRestOrElse_ne h hr hne endpoint ih

theorem tryPreferredStates (hne : rest ≠ []) (tracks : Bool) (initial : MatchState)
    (states : List (Nat × MatchState)) {m : Prop} :
    Triple NoAccept (tryPreferredStates E tracks rest initial states)
      (Unmasked (masksAt m rest)) := by
  have hgiveUp : Triple NoAccept (do restoreCaptures initial; pure none)
      (Unmasked (masksAt m rest)) :=
    Triple.bind (update_at fun _ => rfl) fun _ => Triple.pure fun _ hc => hc
  induction states with
  | nil => exact hgiveUp
  | cons state states ih =>
    exact Triple.bind (budgeted_at _) fun _ => Triple.ite (fun _ => hgiveUp) fun _ =>
      Triple.bind (update_at fun _ => rfl) fun _ => matchRestOrElse_ne h hr hne state.1 ih

theorem tryRepetitionStates (hne : rest ≠ []) (tracks : Bool) (states : List (Nat × MatchState))
    {m : Prop} :
    Triple NoAccept (tryRepetitionStates E tracks rest states) (Unmasked (masksAt m rest)) := by
  induction states with
  | nil => exact Triple.pure fun _ hc => hc
  | cons state states ih =>
    exact Triple.bind (budgeted_at _) fun _ => Triple.ite (fun _ => Triple.pure fun _ hc => hc)
      fun _ => Triple.bind (update_at fun _ => rfl) fun _ => matchRestOrElse_ne h hr hne state.1 ih

theorem tryCollectedStates (hne : rest ≠ []) (initial : BacktrackState)
    (states : List BacktrackState) {m : Prop} :
    Triple NoAccept (tryCollectedStates E rest initial states) (Unmasked (masksAt m rest)) := by
  induction states with
  | nil => exact Triple.bind (install_at _) fun _ => Triple.pure fun _ hc => hc
  | cons state states ih =>
    exact Triple.bind (install_at _) fun _ => matchRestOrElse_ne h hr hne state.end ih

end Quantifiers

section Loops

/-- A loop returns an unmasked result, or breaks without ACCEPT. -/
abbrev UnmaskedExit {α : Type} (masked : Prop) : LoopExit α → MatchCtx → Prop
  | .return r => Unmasked masked r
  | .break _ => NoAccept

variable {min : Nat} {max : Option Nat}

/-- One repetition of a loop that collects the states before the rest is tried. -/
theorem repetition {α : Type} (hi : acceptSafe calls inner = true) (pos : Nat) {m : Prop}
    {next : Nat → MatchState → Matcher (LoopExit α)} {stop : Matcher (LoopExit α)}
    (hnext : ∀ nextPos s, Triple NoAccept (next nextPos s) (UnmaskedExit m))
    (hstop : Triple NoAccept stop (UnmaskedExit m)) :
    Triple NoAccept
      (do
        match ← E.matchSeqFrom inner [] pos with
        | some nextPos => do
          let s ← view
          if s.control = some .accept then pure (.return (some nextPos)) else next nextPos s
        | none => do
          let s ← view
          if s.control.isSome then pure (.return none) else stop) (UnmaskedExit m) := by
  refine Triple.bind (h.attemptsAlone hi pos) fun r => ?_
  cases r with
  | some nextPos =>
    refine Triple.bind view_at fun s => Triple.ite (fun hs => ?_) fun hs => ?_
    · refine Triple.pure fun ctx ⟨hu, hc⟩ => .inl ?_
      exact hu.resolve_right fun hm => hm.1 (hc ▸ hs)
    · exact (hnext nextPos s).pre fun ctx ⟨hu, hc⟩ hacc => hs (hc.trans hacc)
  | none =>
    exact Triple.bind view_keeps fun s => Triple.ite (fun _ => Triple.pure fun _ hc => hc) fun _ => hstop

theorem repetitionLoop (hi : acceptSafe calls inner = true) (greedy tracks : Bool)
    (steps currentReps currentPos : Nat) (states : List (Nat × MatchState)) {m : Prop} :
    Triple NoAccept (repetitionLoop E inner min max greedy tracks steps currentReps currentPos states)
      (UnmaskedExit m) := by
  have hbreak (states : List (Nat × MatchState)) :
      Triple NoAccept (pure (.break states)) (UnmaskedExit m) := Triple.pure fun _ hc => hc
  induction steps generalizing currentReps currentPos states with
  | zero => rintro _ _ _ _ ⟨⟩
  | succ steps ih =>
    refine Triple.bind view_keeps fun here => Triple.ite (fun _ => hbreak _) fun _ =>
      Triple.bind (budgeted_at _) fun _ => Triple.ite (fun _ => hbreak _) fun _ =>
      Triple.bind view_keeps fun saved => repetition h hi currentPos (fun nextPos s => ?_) ?_
    · exact Triple.ite (fun _ => Triple.ite (fun _ => hbreak _) fun _ => hbreak _) fun _ => ih _ _ _
    · exact Triple.bind (update_at fun _ => rfl) fun _ => hbreak _

include hr

theorem preferredAttempt (hne : rest ≠ []) (greedy tracks : Bool) (initial : MatchState)
    (repetitions currentPos : Nat) {m : Prop} :
    Triple NoAccept (preferredAttempt E min greedy tracks rest initial repetitions currentPos)
      (UnmaskedExit (masksAt m rest)) := by
  refine Triple.ite (fun _ => Triple.bind view_keeps fun saved => Triple.bind (budgeted_at _)
    fun _ => Triple.ite (fun _ => ?_) fun _ => ?_) fun _ => Triple.pure fun _ hc => hc
  · exact Triple.bind (update_at fun _ => rfl) fun _ => Triple.pure fun _ hc => hc
  · refine Triple.bind ((matchRest_ready h hr (m := m) currentPos).pre
      fun _ hc => ⟨hc, .inr (.inl hne)⟩) fun r => ?_
    cases r with
    | some final => exact Triple.pure fun _ hu => hu
    | none =>
      refine Triple.bind view_keeps fun s => Triple.ite (fun _ => Triple.pure fun _ hc => hc) fun _ => ?_
      exact Triple.bind (update_at fun _ => rfl) fun _ => Triple.pure fun _ hc => hc

theorem preferredLoop (hi : acceptSafe calls inner = true) (hne : rest ≠ []) (greedy tracks : Bool)
    (initial : MatchState) (steps repetitions currentPos : Nat) (states : List (Nat × MatchState))
    {m : Prop} :
    Triple NoAccept (preferredLoop E inner min max greedy tracks rest initial steps repetitions
      currentPos states) (UnmaskedExit (masksAt m rest)) := by
  have hbreak (states : List (Nat × MatchState)) :
      Triple NoAccept (pure (.break states)) (UnmaskedExit (masksAt m rest)) :=
    Triple.pure fun _ hc => hc
  induction steps generalizing repetitions currentPos states with
  | zero => rintro _ _ _ _ ⟨⟩
  | succ steps ih =>
    refine Triple.bind (preferredAttempt h hr hne greedy tracks initial repetitions currentPos
      (m := m)) fun exit => ?_
    cases exit with
    | «return» r => exact Triple.pure fun _ hu => hu
    | «break» _ =>
      refine Triple.bind view_keeps fun here => Triple.ite (fun _ => hbreak _) fun _ =>
        Triple.bind (budgeted_at _) fun _ => Triple.ite (fun _ => hbreak _) fun _ =>
        Triple.bind view_keeps fun saved => repetition h hi currentPos (fun nextPos s => ?_) ?_
      · exact Triple.ite (fun _ => Triple.ite (fun _ => hbreak _) fun _ => hbreak _)
          fun _ => ih _ _ _
      · exact Triple.bind (update_at fun _ => rfl) fun _ => hbreak _

theorem matchQuantifierPreferredPath (hi : acceptSafe calls inner = true) (hne : rest ≠ [])
    (greedy possessive : Bool) (pos : Nat) {m : Prop} :
    Triple NoAccept (matchQuantifierPreferredPath E inner min max greedy possessive rest pos)
      (Unmasked (masksAt m rest)) := by
  refine Triple.bind view_keeps fun initial => Triple.bind
    (preferredLoop h hr hi hne greedy _ initial _ 0 pos [] (m := m)) fun exit => ?_
  cases exit with
  | «return» r => exact Triple.pure fun _ hu => hu
  | «break» states =>
    refine Triple.ite (fun _ => tryPreferredStates h hr hne _ initial _) fun _ => ?_
    exact Triple.bind (update_at fun _ => rfl) fun _ => Triple.pure fun _ hc => hc

theorem matchSingleOutcomeQuantifier (hi : acceptSafe calls inner = true) (hne : rest ≠ [])
    (greedy possessive : Bool) (pos : Nat) {m : Prop} :
    Triple NoAccept (matchSingleOutcomeQuantifier E inner min max greedy possessive rest pos)
      (Unmasked (masksAt m rest)) := by
  refine Triple.bind view_keeps fun initial => Triple.bind (budgeted_at _) fun _ =>
    Triple.ite (fun _ => Triple.pure fun _ hc => hc) fun _ => Triple.bind
    (repetitionLoop h hi greedy _ _ 0 pos [] (m := masksAt m rest)) fun exit => ?_
  cases exit with
  | «return» r => exact Triple.pure fun _ hu => hu
  | «break» states =>
    refine Triple.bind (budgeted_at _) fun _ => Triple.ite (fun _ => Triple.pure fun _ hc => hc)
      fun _ => Triple.ite (fun _ => ?_) fun _ => tryRepetitionStates h hr hne _ _
    cases states with
    | nil => exact Triple.pure fun _ hc => hc
    | cons state states =>
      exact Triple.bind (update_at fun _ => rfl) fun _ =>
        (matchRest_ready h hr state.1).pre fun _ hc => ⟨hc, .inr (.inl hne)⟩

theorem matchBranchingQuantifier (hi : acceptSafe calls inner = true)
    (hfree : acceptFree calls inner = true) (hne : rest ≠ []) (greedy possessive : Bool) (pos : Nat)
    {m : Prop} :
    Triple NoAccept (matchBranchingQuantifier env E inner min max greedy possessive rest pos)
      (Unmasked (masksAt m rest)) := by
  refine Triple.bind (matchQuantifierPreferredPath h hr hi hne greedy possessive pos (m := m))
    fun r => ?_
  cases r with
  | some final => exact Triple.pure fun _ hu => hu
  | none =>
    refine Triple.ite (fun _ => Triple.pure fun _ hc => hc) fun _ => Triple.bind (budgeted_at _)
      fun _ => Triple.ite (fun _ => Triple.pure fun _ hc => hc) fun _ => Triple.bind (take_at pos)
      fun initial => ?_
    exact Triple.bind (MatcherRelation.collectBranchingQuantifierStates h.free hfree min max greedy
      possessive initial) fun states => tryCollectedStates h hr hne initial states

/-- The quantifier of any kind, by the loop it takes. -/
theorem matchPossibleQuantifier
    (hn : acceptSafe calls (.quantifier inner min max greedy possessive) = true) (pos : Nat) :
    Triple Clean (matchPossibleQuantifier env E inner min max greedy possessive rest pos)
      (Unmasked (masksAt (masksLimit (.quantifier inner min max greedy possessive) = true)
        rest)) := by
  have hi : acceptSafe calls inner = true := Node.all_children hn inner (List.mem_singleton_self _)
  have hnonempty (hrest : ¬rest.isEmpty = true) : rest ≠ [] := fun hnil => hrest (by simp [hnil])
  refine Triple.ite (fun hcontrol => ?_) fun _ => Triple.ite (fun huniv => ?_) fun _ => ?_
  · refine (matchControlQuantifier h hr (acceptSafe_requantified hn min max) pos).post
      fun _ _ hu => hu.mono (masksAt.mono fun _ => ?_)
    simp only [masksLimit, hcontrol, Bool.true_or]
  · have hne : rest ≠ [] := hnonempty (by simp_all)
    exact Triple.bind view_keeps fun initial =>
      (tryUniversalEndpoints h hr hne possessive initial _).pre fun _ hc => hc.1
  · split
    · rename_i spec hspec
      have hne : rest ≠ [] := hnonempty fun hempty => by simp [hempty] at hspec
      exact Triple.bind view_keeps fun initial =>
        (tryBalancedEndpoints h hr hne initial _).pre fun _ hc => hc.1
    · refine Triple.ite (fun hempty => ?_) fun hempty => Triple.ite (fun hbranch => ?_) fun _ => ?_
      · obtain rfl : rest = [] := by simpa using hempty
        refine (matchTerminalQuantifier h hi greedy pos).post fun _ _ hu =>
          hu.mono fun hm => masksAt_nil.mpr ?_
        simp only [masksLimit, hm, Bool.or_true]
      · have hfree : acceptFree calls inner = true := by
          have hhere : collectsNoAccept calls (.quantifier inner min max greedy possessive) = true :=
            Node.all_here hn
          simp only [Bool.and_eq_true] at hbranch
          simpa [collectsNoAccept, hbranch.1] using hhere
        exact (matchBranchingQuantifier h hr hi hfree (hnonempty hempty) greedy possessive pos).pre
          fun _ hc => hc.1
      · exact (matchSingleOutcomeQuantifier h hr hi (hnonempty hempty) greedy possessive pos).pre
          fun _ hc => hc.1

theorem matchQuantifier
    (hn : acceptSafe calls (.quantifier inner min max greedy possessive) = true) (pos : Nat) :
    Triple Clean (matchQuantifier env E inner min max greedy possessive rest pos)
      (Unmasked (masksAt (masksLimit (.quantifier inner min max greedy possessive) = true)
        rest)) := by
  refine inRecursion_at (Triple.bind view_keeps fun s => ?_) fun _ _ hc => hc
  split
  · exact Triple.bind (R := fun _ => NoAccept) ((budgeted_at _).pre fun _ hc => hc.1)
      fun _ => Triple.pure fun _ hc => hc
  · exact matchPossibleQuantifier h hr hn pos

end Loops

section Spared

abbrev NoError : MatchCtx → Prop :=
  At fun _ e => e = none

variable (hspent : anyMayReachLimit rest = false)

include hspent

theorem matchRest_spared (pos : Nat) :
    Triple NoError (matchRest E rest pos) fun _ => NoError := by
  refine Triple.bind view_keeps fun s => Triple.ite (fun _ => Triple.pure fun _ he => he) fun _ => ?_
  cases rest with
  | nil => exact Triple.pure fun _ he => he
  | cons node rest =>
    simp only [anyMayReachLimit, Bool.or_eq_false_iff] at hspent
    exact h.spares hspent.1 hspent.2 pos

theorem advanceIf_spared (ok : Bool) (pos : Nat) :
    Triple NoError (Regex.advanceIf E ok rest pos) fun _ => NoError :=
  Triple.ite (fun _ => matchRest_spared h hspent pos) fun _ => Triple.pure fun _ he => he

theorem matchRestOrElse_spared (pos : Nat) {f : Matcher (Option Nat)}
    (hf : Triple NoError f fun _ => NoError) :
    Triple NoError
      (do
        match ← matchRest E rest pos with
        | some final => pure (some final)
        | none => f) fun _ => NoError := by
  refine Triple.bind (matchRest_spared h hspent pos) fun r => ?_
  cases r with
  | some final => exact Triple.pure fun _ he => he
  | none => exact hf

theorem matchAlternation_spared (hb : mayReachLimit (.alternation branches) = false) (pos : Nat) :
    Triple NoError (Regex.matchAlternation E rest pos true branches) fun _ => NoError := by
  rcases branches with _ | ⟨branch, _ | ⟨second, branches⟩⟩
  · exact Triple.pure fun _ he => he
  · simp only [mayReachLimit, anyMayReachLimit, List.length_singleton, Nat.lt_irrefl,
      decide_false, Bool.false_or, Bool.or_false] at hb
    have hnone : Triple NoError (Regex.matchAlternation E rest pos false []) fun _ => NoError :=
      Triple.pure fun _ he => he
    refine Triple.bind (R := fun _ => NoError) (Triple.pure fun _ he => he) fun _ => Triple.ite
      (fun _ => Triple.pure fun _ he => he) fun _ => Triple.bind view_keeps fun saved =>
      Triple.bind (h.spares hb hspent pos) fun r => ?_
    cases r with
    | some final => exact Triple.pure fun _ he => he
    | none =>
      refine Triple.bind view_keeps fun s => Triple.ite (fun _ => ?_) fun _ => Triple.ite
        (fun _ => Triple.pure fun _ he => he) fun _ => Triple.bind (update_at fun _ => rfl) fun _ => hnone
      exact Triple.bind (setControl_at fun _ _ he => he) fun _ =>
        Triple.bind (update_at fun _ => rfl) fun _ => hnone
  · simp [mayReachLimit] at hb

theorem matchLocalFlags_spared (hi : mayReachLimit inner = false) (flags : LocalMatchFlags)
    (pos : Nat) :
    Triple NoError (Regex.matchLocalFlags E flags inner rest pos) fun _ => NoError := by
  refine Triple.bind view_keeps fun saved => Triple.bind (update_at fun _ => rfl) fun _ =>
    Triple.bind (h.spares hi rfl pos) fun r => Triple.bind (update_at fun _ => rfl) fun _ => ?_
  cases r with
  | none => exact Triple.pure fun _ he => he
  | some final => exact matchRest_spared h hspent final

theorem matchBackrefByIndex_spared (n : Nat) (pos : Nat) :
    Triple NoError (Regex.matchBackrefByIndex env E n rest pos) fun _ => NoError := by
  refine Triple.bind view_keeps fun s => ?_
  split
  · exact Triple.pure fun _ he => he
  · exact advanceIf_spared h hspent _ _

theorem matchNamedBackreference_spared (n : GroupName) (pos : Nat) :
    Triple NoError (Regex.matchNamedBackreference env E n rest pos) fun _ => NoError := by
  refine Triple.bind view_keeps fun s => ?_
  split
  · exact matchBackrefByIndex_spared h hspent _ pos
  · exact Triple.pure fun _ he => he

theorem matchControl_spared (verb : ControlVerb) (n : Option GroupName) (pos : Nat) :
    Triple NoError (Regex.matchControl E verb n rest pos) fun _ => NoError := by
  have hmark : Triple NoError (publishMark n) fun _ => NoError := by
    cases n with
    | none => exact Triple.pure fun _ he => he
    | some n => exact @update_at _ (fun s => { s with mark := some n }) fun _ => rfl
  have hleave (c : Option MatchControl) :
      Triple NoError (do setControl c; pure none : Matcher (Option Nat)) fun _ => NoError :=
    Triple.bind (setControl_at fun _ _ he => he) fun _ => Triple.pure fun _ he => he
  refine Triple.bind hmark fun _ => ?_
  cases verb with
  | fail => exact Triple.pure fun _ he => he
  | accept =>
    exact Triple.bind (setControl_at fun _ _ he => he) fun _ => Triple.pure fun _ he => he
  | _ =>
    exact matchRestOrElse_spared h hspent pos (Triple.bind view_keeps fun s =>
      Triple.ite (fun _ => hleave _) fun _ => Triple.pure fun _ he => he)

theorem matchResetStart_spared (pos : Nat) :
    Triple NoError (Regex.matchResetStart env E rest pos) fun _ => NoError := by
  refine Triple.bind view_keeps fun s => ?_
  split
  · exact matchRest_spared h hspent pos
  · exact Triple.bind (update_at fun _ => rfl) fun _ => matchRestOrElse_spared h hspent pos
      (Triple.bind (update_at fun _ => rfl) fun _ => Triple.pure fun _ he => he)

theorem matchSeqFromStep_spared (hn : mayReachLimit node = false) (pos : Nat) :
    Triple NoError (matchSeqFromStep env E node rest pos) fun _ => NoError := by
  have hrestore {f : MatchState → MatchState} (hf : ∀ s, (f s).control = s.control) :
      Triple NoError (do update f; pure none : Matcher (Option Nat)) fun _ => NoError :=
    Triple.bind (update_at hf) fun _ => Triple.pure fun _ he => he
  refine Triple.bind (R := fun _ => NoError) (hasError_at.post fun _ _ he => he.1) fun _ =>
    Triple.ite (fun _ => Triple.pure fun _ he => he) fun _ => Triple.bind view_keeps fun s => ?_
  cases node with
  | sequence nodes =>
    cases nodes with
    | nil => exact matchRest_spared h hspent pos
    | cons first nodes =>
      simp only [mayReachLimit, anyMayReachLimit, Bool.or_eq_false_iff] at hn
      refine h.spares hn.1 ?_ pos
      simp only [← Bool.not_eq_true, anyMayReachLimit_iff, List.mem_append] at hn hspent ⊢
      rintro ⟨node, hnode | hnode, hmay⟩
      · exact hn.2 ⟨node, hnode, hmay⟩
      · exact hspent ⟨node, hnode, hmay⟩
  | alternation branches => exact matchAlternation_spared h hspent hn pos
  | localFlags flags inner => exact matchLocalFlags_spared h hspent (by simpa [mayReachLimit] using hn) flags pos
  | backreference n => exact matchBackrefByIndex_spared h hspent n pos
  | namedBackreference n => exact matchNamedBackreference_spared h hspent n pos
  | graphemeCluster =>
    simp only
    split
    · exact matchRest_spared h hspent _
    · exact Triple.pure fun _ he => he
  | linebreak =>
    simp only
    split
    · exact matchRest_spared h hspent _
    · exact Triple.pure fun _ he => he
  | mark n =>
    exact Triple.bind view_keeps fun _ => Triple.bind (update_at fun _ => rfl) fun _ =>
      matchRestOrElse_spared h hspent pos (hrestore fun _ => rfl)
  | control verb n => exact matchControl_spared h hspent verb n pos
  | resetStart => exact matchResetStart_spared h hspent pos
  | captureEnd index start =>
    exact Triple.bind view_keeps fun _ => Triple.bind (update_at fun _ => rfl) fun _ =>
      matchRestOrElse_spared h hspent pos (hrestore fun _ => rfl)
  | captureRestore groups =>
    exact Triple.bind view_keeps fun _ => Triple.bind (update_at fun _ => rfl) fun _ =>
      matchRestOrElse_spared h hspent pos (hrestore fun _ => rfl)
  | group | quantifier | lookahead | lookbehind | atomic | scriptRun | subroutine | conditional =>
    simp [mayReachLimit] at hn
  | _ => exact advanceIf_spared h hspent _ _

end Spared

section Step

theorem collectAfterEach_spared (hn : mayReachLimit node = false) (states : List BacktrackState) :
    Triple NoError (collectAfterEach E node states) fun _ => NoError := by
  induction states with
  | nil => exact Triple.pure fun _ he => he
  | cons state states ih =>
    exact Triple.bind (h.sparesCollected hn state) fun _ => Triple.bind ih fun _ =>
      Triple.pure fun _ he => he

theorem collectSequence_spared (hn : anyMayReachLimit nodes = false)
    (states : List BacktrackState) :
    Triple NoError (collectSequence E nodes states) fun _ => NoError := by
  induction nodes generalizing states with
  | nil => exact Triple.pure fun _ he => he
  | cons node nodes ih =>
    simp only [anyMayReachLimit, Bool.or_eq_false_iff] at hn
    exact Triple.bind (collectAfterEach_spared h hn.1 states) fun _ => Triple.bind view_keeps
      fun _ => Triple.ite (fun _ => Triple.pure fun _ he => he) fun _ => ih hn.2 _

theorem collectAlternation_spared (hb : mayReachLimit (.alternation branches) = false)
    (state : BacktrackState) :
    Triple NoError (collectAlternation E state true branches) fun _ => NoError := by
  rcases branches with _ | ⟨branch, _ | ⟨second, branches⟩⟩
  · exact Triple.pure fun _ he => he
  · simp only [mayReachLimit, anyMayReachLimit, List.length_singleton, Nat.lt_irrefl,
      decide_false, Bool.false_or, Bool.or_false] at hb
    exact Triple.bind (R := fun _ => NoError) (Triple.pure fun _ he => he) fun _ => Triple.ite
      (fun _ => Triple.pure fun _ he => he) fun _ => Triple.bind (h.sparesCollected hb state)
      fun _ => Triple.bind (R := fun _ => NoError) (Triple.pure fun _ he => he) fun _ =>
      Triple.pure fun _ he => he
  · simp [mayReachLimit] at hb

theorem collectMatchStatesFromStep_spared (hn : mayReachLimit node = false)
    (state : BacktrackState) :
    Triple NoError (collectMatchStatesFromStep env E node state) fun _ => NoError := by
  have hsimple : Triple NoError
      (do
        state.install
        match ← E.matchSeqFrom node [] state.end with
        | some final => do
          let next ← BacktrackState.take final
          pure [next]
        | none => pure []) fun _ => NoError := by
    refine Triple.bind (install_at _) fun _ => Triple.bind (h.spares hn rfl _) fun r => ?_
    cases r with
    | none => exact Triple.pure fun _ he => he
    | some final => exact Triple.bind (take_at final) fun _ => Triple.pure fun _ he => he
  refine Triple.bind (R := fun _ => NoError) (hasError_at.post fun _ _ he => he.1) fun _ =>
    Triple.ite (fun _ => Triple.pure fun _ he => he) fun _ => ?_
  cases node with
  | sequence nodes =>
    exact collectSequence_spared h (by simpa [mayReachLimit] using hn) [state]
  | alternation branches => exact collectAlternation_spared h hn state
  | group | quantifier | subroutine | conditional => simp [mayReachLimit] at hn
  | _ => exact hsimple

/-- A step on a pattern without a collected ACCEPT masks a limit only at its end. -/
theorem matchSeqFromStep (hn : acceptSafe calls node = true)
    (hr : ∀ n ∈ rest, acceptSafe calls n = true) (pos : Nat) :
    Triple NoAccept (matchSeqFromStep env E node rest pos)
      (Unmasked (masksAt (masksLimit node = true) rest)) := by
  refine Triple.bind hasError_at fun failed => Triple.ite
    (fun _ => Triple.pure fun _ hc => hc.1) fun hfailed => ?_
  suffices Triple Clean _ (Unmasked (masksAt (masksLimit node = true) rest)) from
    this.pre fun ctx hc => ⟨hc.1, by
      have he : failed = ctx.budget.error.isSome := hc.2
      simpa [he] using hfailed⟩
  have hchild {inner : Node} (hc : node.children = [inner]) : acceptSafe calls inner = true :=
    Node.all_children hn inner (hc ▸ List.mem_singleton_self _)
  have hrest (pos : Nat) : Triple Clean (matchRest E rest pos)
      (Unmasked (masksAt (masksLimit node = true) rest)) :=
    (matchRest_ready h hr pos).pre fun _ hc => ⟨hc.1, .inl hc.2⟩
  refine Triple.bind view_keeps fun s => ?_
  cases node with
  | sequence nodes =>
    cases nodes with
    | nil => exact hrest pos
    | cons first nodes =>
      have hnodes := Node.all_children hn
      have happend : ∀ n ∈ nodes ++ rest, acceptSafe calls n = true :=
        List.forall_mem_append.mpr ⟨fun n hmem => hnodes n (List.mem_cons_of_mem _ hmem), hr⟩
      refine (h.attempts (hnodes first List.mem_cons_self) happend pos).conseq (fun _ hc => hc.1)
        fun _ _ hu => hu.mono fun hm => ?_
      rw [← lastMasksLimit_cons, ← List.cons_append, lastMasksLimit_append] at hm
      exact hm.mono fun hlast => by simpa [masksLimit] using hlast
  | graphemeCluster =>
    simp only
    split
    · exact hrest _
    · exact Triple.pure fun _ hc => hc.1
  | linebreak =>
    simp only
    split
    · exact hrest _
    · exact Triple.pure fun _ hc => hc.1
  | localFlags flags inner =>
    simpa only [masksLimit] using matchLocalFlags h hr (hchild rfl) flags pos
  | alternation branches =>
    have hb : ∀ n ∈ branches, acceptSafe calls n = true := Node.all_children hn
    simpa only [masksLimit] using (matchAlternation h hr pos true hb).pre fun _ hc => hc.1
  | group index inner => simpa only [masksLimit] using matchGroup h hr hn pos
  | quantifier inner min max greedy possessive => exact matchQuantifier h hr hn pos
  | backreference n => exact matchBackrefByIndex h hr n pos
  | namedBackreference n => exact matchNamedBackreference h hr n pos
  | lookahead positive atomic inner => exact matchLookahead h hr hn pos
  | lookbehind positive atomic inner => exact matchLookbehind h hr hn pos
  | atomic inner => simpa only [masksLimit] using matchAtomic h hr (hchild rfl) pos
  | scriptRun inner atomic => simpa only [masksLimit] using matchScriptRun h hr atomic pos
  | mark n => exact matchMark h hr n pos
  | control verb n => exact matchControl h hr verb n pos
  | resetStart => exact matchResetStart h hr pos
  | subroutine target => exact matchSubroutine h hr target pos
  | conditional condition yes no => exact matchConditional h hr hn pos
  | captureEnd index start => exact matchCaptureEnd h hr index start pos
  | captureRestore groups => exact matchCaptureRestore h hr groups pos
  | _ => exact advanceIf h hr _ _

end Step

end Unmasking

theorem engine_unmasking {env : Env} {calls : Bool} (hcalls : CallsSafe env calls) (fuel : Nat) :
    Unmasking hcalls (engine env fuel) := by
  have hfree := (acceptless hcalls).engines (Nat.le_refl fuel)
  induction fuel with
  | zero =>
    refine ⟨?_, hfree, ?_, ?_⟩
    · rintro _ _ _ _ _ _ _ _ _ ⟨⟩
    · rintro _ _ _ _ _ _ _ _ _ ⟨⟩
    · rintro _ _ _ _ _ _ _ ⟨⟩
  | succ fuel ih =>
    have h := ih ((acceptless hcalls).engines (Nat.le_refl fuel))
    exact ⟨fun hn hr pos => h.matchSeqFromStep hn hr pos, hfree,
      fun hn hr pos => h.matchSeqFromStep_spared hr hn pos,
      fun hn state => h.collectMatchStatesFromStep_spared hn state⟩

end Rphp.Regex
