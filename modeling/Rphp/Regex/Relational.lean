import Rphp.Regex.Matcher

set_option autoImplicit true

namespace Rphp.Regex

/-- The patterns a node consists of. -/
def Node.children : Node → List Node
  | .group _ inner | .quantifier inner _ _ _ _ | .lookahead _ _ inner | .lookbehind _ _ inner
  | .atomic inner | .scriptRun inner _ | .localFlags _ inner => [inner]
  | .alternation nodes | .sequence nodes => nodes
  | .conditional condition yes no =>
    yes :: no.toList ++
      (match condition with
      | .assertion _ _ inner => [inner]
      | _ => [])
  | _ => []

/-- An update that changes neither the flags nor the control, apart from clearing it. -/
def Neutral (f : MatchState → MatchState) : Prop :=
  ∀ s, (f s).flags = s.flags ∧ ((f s).control = s.control ∨ (f s).control = none)

/-- A relation between runs on admitted patterns that the primitive steps of the matcher
keep. -/
structure MatcherRelation (env : Env) where
  ok : Node → Prop
  children : ∀ {node}, ok node → ∀ child ∈ node.children, ok child
  requantified : ∀ {inner min max greedy possessive},
    ok (.quantifier inner min max greedy possessive) →
      ∀ min max, ok (.quantifier inner min max greedy false)
  captureEnd : ∀ index start, ok (.captureEnd index start)
  captureRestore : ∀ groups, ok (.captureRestore groups)
  resolved : ∀ {target node}, ok (.subroutine target) → resolveSubroutine env target = some node →
    ok node
  rel : {α : Type} → Matcher α → Matcher α → Prop
  pure : {α : Type} → (a : α) → rel (Pure.pure a) (Pure.pure a)
  bind : {α β : Type} → {m m' : Matcher α} → {f f' : α → Matcher β} →
    rel m m' → (∀ a, rel (f a) (f' a)) → rel (m >>= f) (m' >>= f')
  exhausted : {α : Type} → (m : Matcher α) → rel exhausted m
  view : rel view view
  update : ∀ {f}, Neutral f → rel (Regex.update f) (Regex.update f)
  localFlags : ∀ {flags inner}, ok (.localFlags flags inner) →
    ∀ {f : MatchState → MatchState}, (∀ s, (f s).control = s.control) →
    rel (Regex.update f) (Regex.update f)
  control : ∀ {verb n}, ok (.control verb n) →
    ∀ {c}, (c = some .accept → verb = .accept) → rel (setControl c) (setControl c)
  hasError : rel (budgeted MatchBudget.hasError) (budgeted MatchBudget.hasError)
  enterRecursion :
    rel (budgeted MatchBudget.enterRecursion) (budgeted MatchBudget.enterRecursion)
  leaveRecursion :
    rel (budgeted MatchBudget.leaveRecursion) (budgeted MatchBudget.leaveRecursion)
  retain : rel (budgeted MatchBudget.retainQuantifierContinuation)
    (budgeted MatchBudget.retainQuantifierContinuation)
  consume : rel (budgeted MatchBudget.consumeBacktrack) (budgeted MatchBudget.consumeBacktrack)
  reject : (n : Nat) → rel (budgeted (MatchBudget.rejectImpossibleSearchIfCostExceeds n))
    (budgeted (MatchBudget.rejectImpossibleSearchIfCostExceeds n))

namespace MatcherRelation

def Oks (R : MatcherRelation env) (nodes : List Node) : Prop :=
  ∀ n ∈ nodes, R.ok n

/-- Two engines whose entry points are related on admitted patterns. -/
structure Engines (R : MatcherRelation env) (E E' : Engine) : Prop where
  fuel : E.fuel ≤ E'.fuel
  matchSeqFrom : ∀ {node rest}, R.ok node → R.Oks rest → ∀ pos,
    R.rel (E.matchSeqFrom node rest pos) (E'.matchSeqFrom node rest pos)
  collect : ∀ {node}, R.ok node → ∀ state,
    R.rel (E.collectMatchStatesFrom node state) (E'.collectMatchStatesFrom node state)

variable {env : Env} {R : MatcherRelation env} {E E' : Engine} {inner : Node}

theorem oksNil : R.Oks [] :=
  List.forall_mem_nil _

theorem Oks.head (h : R.Oks (node :: nodes)) : R.ok node :=
  h node List.mem_cons_self

theorem Oks.tail (h : R.Oks (node :: nodes)) : R.Oks nodes :=
  fun n hn => h n (List.mem_cons_of_mem _ hn)

theorem Oks.cons (hn : R.ok node) (h : R.Oks nodes) : R.Oks (node :: nodes) :=
  List.forall_mem_cons.mpr ⟨hn, h⟩

theorem Oks.append (h : R.Oks nodes) (h' : R.Oks nodes') : R.Oks (nodes ++ nodes') :=
  List.forall_mem_append.mpr ⟨h, h'⟩

theorem ite {c : Prop} [Decidable c] {a a' b b' : Matcher α} (ha : R.rel a a')
    (hb : R.rel b b') : R.rel (if c then a else b) (if c then a' else b') := by
  split
  · exact ha
  · exact hb

theorem kept {f : MatchState → MatchState}
    (hf : ∀ s, (f s).flags = s.flags ∧ (f s).control = s.control) :
    R.rel (Regex.update f) (Regex.update f) :=
  R.update fun s => ⟨(hf s).1, .inl (hf s).2⟩

theorem cleared : R.rel (setControl none) (setControl none) :=
  R.update fun _ => ⟨rfl, .inr rfl⟩

theorem takeAccepted : R.rel takeAccepted takeAccepted :=
  R.bind R.view fun _ => R.bind cleared fun _ => R.pure _

theorem take (pos : Nat) : R.rel (BacktrackState.take pos) (BacktrackState.take pos) :=
  R.bind R.view fun _ => R.bind (kept fun _ => ⟨rfl, rfl⟩) fun _ => R.pure _

theorem install (b : BacktrackState) : R.rel b.install b.install :=
  kept fun _ => ⟨rfl, rfl⟩

theorem consumeAlternative (first : Bool) :
    R.rel (Regex.consumeAlternative first) (Regex.consumeAlternative first) :=
  ite (R.pure _) R.consume

theorem inRecursion (refused : α) {m m' : Matcher α} (hm : R.rel m m') :
    R.rel (inRecursion refused m) (inRecursion refused m') :=
  R.bind R.enterRecursion fun _ =>
    ite (R.pure _) (R.bind hm fun _ => R.bind R.leaveRecursion fun _ => R.pure _)

theorem closeAccepted (tracked : Option Nat) (startOffset : Nat) (result : Option Nat)
    (control : Option MatchControl) :
    R.rel (closeAccepted env tracked startOffset result control)
      (closeAccepted env tracked startOffset result control) := by
  unfold Regex.closeAccepted
  split
  · split
    · exact kept fun _ => ⟨rfl, rfl⟩
    · exact R.pure _
  · exact R.pure _

theorem restoreCaller (initial : BacktrackState) (control : Option MatchControl)
    (result : Option Nat) :
    R.rel (restoreCaller initial control result) (restoreCaller initial control result) := by
  cases result with
  | none => exact install _
  | some final => exact ite (kept fun _ => ⟨rfl, rfl⟩) (R.pure _)

theorem publishMark (n : Option GroupName) :
    R.rel (Regex.publishMark n) (Regex.publishMark n) := by
  cases n with
  | none => exact R.pure _
  | some n => exact @kept env R (fun s => { s with mark := some n }) fun _ => ⟨rfl, rfl⟩

theorem verbControl_ne_accept (verb : ControlVerb) (n : Option GroupName) (pos : Nat)
    (markPositions : Option (List (GroupName × Nat))) :
    verbControl verb n pos markPositions ≠ some .accept := by
  cases verb <;> cases n <;> simp [verbControl]

theorem orElseUncontrolled {preferred preferred' other other' : Matcher (Option Nat)}
    (hp : R.rel preferred preferred') (ho : R.rel other other') :
    R.rel (orElseUncontrolled preferred other) (orElseUncontrolled preferred' other') := by
  refine R.bind hp fun result => ?_
  cases result with
  | some final => exact R.pure _
  | none => exact R.bind R.view fun _ => ite (R.pure _) ho

theorem terminalFinish (min : Nat) (tracks : Bool) (initial : MatchState)
    (repetitions currentPos : Nat) :
    R.rel (terminalFinish min tracks initial repetitions currentPos)
      (terminalFinish min tracks initial repetitions currentPos) :=
  ite (R.bind R.hasError fun _ => ite (R.pure _) (R.pure _))
    (R.bind (kept fun _ => ⟨rfl, rfl⟩) fun _ => R.pure _)

section Helpers

variable (h : R.Engines E E')

include h

theorem matchRest (hr : R.Oks rest) (pos : Nat) :
    R.rel (matchRest E rest pos) (matchRest E' rest pos) := by
  refine R.bind R.view fun s => ite (R.pure _) ?_
  cases rest with
  | nil => exact R.pure _
  | cons node rest => exact h.matchSeqFrom hr.head hr.tail pos

/-- The pattern of every backtracking step: the rest, and a repair when it fails. -/
theorem matchRestOrElse (hr : R.Oks rest) (pos : Nat) {f f' : Matcher (Option Nat)}
    (hf : R.rel f f') :
    R.rel
      (do
        match ← Regex.matchRest E rest pos with
        | some final => Pure.pure (some final)
        | none => f)
      (do
        match ← Regex.matchRest E' rest pos with
        | some final => Pure.pure (some final)
        | none => f') := by
  refine R.bind (matchRest h hr pos) fun result => ?_
  cases result with
  | some final => exact R.pure _
  | none => exact hf

theorem advanceIf (ok : Bool) (hr : R.Oks rest) (pos : Nat) :
    R.rel (advanceIf E ok rest pos) (advanceIf E' ok rest pos) :=
  ite (matchRest h hr pos) (R.pure _)

theorem collectMatchStates (hn : R.ok node) (pos : Nat) :
    R.rel (collectMatchStates E node pos) (collectMatchStates E' node pos) :=
  R.bind (take pos) fun _ => R.bind (h.collect hn _) fun _ => R.pure _

theorem tryCaptureStates (index startOffset : Nat) (hr : R.Oks rest) (initial : BacktrackState)
    (states : List BacktrackState) :
    R.rel (tryCaptureStates env E index startOffset rest initial states)
      (tryCaptureStates env E' index startOffset rest initial states) := by
  induction states with
  | nil => exact R.bind (install _) fun _ => R.pure _
  | cons state states ih =>
    exact R.bind (install _) fun _ => R.bind (kept fun _ => ⟨rfl, rfl⟩) fun _ => matchRestOrElse h hr _ ih

theorem matchSeqFromWithGroup (hi : R.ok inner) (hr : R.Oks rest) (pos : Nat)
    (groupIdx : Option Nat) (startOffset : Nat) :
    R.rel (matchSeqFromWithGroup env E inner rest pos groupIdx startOffset)
      (matchSeqFromWithGroup env E' inner rest pos groupIdx startOffset) := by
  cases rest with
  | nil =>
    refine R.bind (h.matchSeqFrom hi oksNil pos) fun result => ?_
    cases result with
    | none => exact R.pure _
    | some final =>
      cases groupIdx with
      | none => exact R.pure _
      | some index => exact R.bind (kept fun _ => ⟨rfl, rfl⟩) fun _ => R.pure _
  | cons node rest =>
    cases groupIdx with
    | none => exact h.matchSeqFrom hi hr pos
    | some index =>
      refine ite (h.matchSeqFrom hi (Oks.cons (R.captureEnd _ _) hr) pos) (R.bind (collectMatchStates h hi pos) ?_)
      rintro ⟨initial, states⟩
      exact tryCaptureStates h index startOffset hr initial states

theorem matchGroup (index : Option Nat) (hi : R.ok inner) (hr : R.Oks rest) (pos : Nat) :
    R.rel (matchGroup env E index inner rest pos) (matchGroup env E' index inner rest pos) :=
  inRecursion none (R.bind R.view fun _ =>
    R.bind (matchSeqFromWithGroup h hi hr pos _ _) fun _ => R.bind R.view fun _ =>
      R.bind (closeAccepted _ _ _ _) fun _ => R.pure _)

theorem matchCaptureEnd (index start : Nat) (hr : R.Oks rest) (pos : Nat) :
    R.rel (matchCaptureEnd env E index start rest pos)
      (matchCaptureEnd env E' index start rest pos) :=
  R.bind R.view fun _ => R.bind (kept fun _ => ⟨rfl, rfl⟩) fun _ =>
    matchRestOrElse h hr _ (R.bind (kept fun _ => ⟨rfl, rfl⟩) fun _ => R.pure _)

theorem matchCaptureRestore (groups : List (Option Match)) (hr : R.Oks rest) (pos : Nat) :
    R.rel (matchCaptureRestore E groups rest pos) (matchCaptureRestore E' groups rest pos) :=
  R.bind R.view fun _ => R.bind (kept fun _ => ⟨rfl, rfl⟩) fun _ =>
    matchRestOrElse h hr _ (R.bind (kept fun _ => ⟨rfl, rfl⟩) fun _ => R.pure _)

theorem matchAlternation (hr : R.Oks rest) (pos : Nat) (first : Bool) (hb : R.Oks branches) :
    R.rel (matchAlternation E rest pos first branches)
      (matchAlternation E' rest pos first branches) := by
  induction branches generalizing first with
  | nil => exact R.pure _
  | cons branch branches ih =>
    replace ih := fun first => ih first hb.tail
    refine R.bind (consumeAlternative first) fun _ => ite (R.pure _) (R.bind R.view fun saved => ?_)
    refine R.bind (h.matchSeqFrom hb.head hr pos) fun result => ?_
    cases result with
    | some final => exact R.pure _
    | none =>
      refine R.bind R.view fun s => ite ?_ (ite (R.pure _) ?_)
      · exact R.bind cleared fun _ => R.bind (kept fun _ => ⟨rfl, rfl⟩) fun _ => ih false
      · exact R.bind (kept fun _ => ⟨rfl, rfl⟩) fun _ => ih false

theorem tryAssertionStates (hr : R.Oks rest) (pos : Nat) (accepted : Bool)
    {exhaust exhaust' : Matcher (Option Nat)} (hx : R.rel exhaust exhaust')
    (states : List BacktrackState) :
    R.rel (tryAssertionStates E rest pos accepted exhaust states)
      (tryAssertionStates E' rest pos accepted exhaust' states) := by
  induction states with
  | nil => exact hx
  | cons state states ih =>
    exact R.bind (install _) fun _ => matchRestOrElse h hr _
      (R.bind R.view fun _ => ite (R.pure _) ih)

theorem matchNonAtomicLookahead (hi : R.ok inner) (hr : R.Oks rest) (pos : Nat) :
    R.rel (matchNonAtomicLookahead E inner rest pos)
      (matchNonAtomicLookahead E' inner rest pos) := by
  refine R.bind (collectMatchStates h hi pos) ?_
  rintro ⟨initial, states⟩
  exact R.bind takeAccepted fun accepted => tryAssertionStates h hr pos accepted
    (R.bind (install _) fun _ => R.pure _) states

theorem tryLookbehindStarts (hi : R.ok inner) (hr : R.Oks rest) (pos : Nat)
    (original : BacktrackState) (starts : List Nat) :
    R.rel (tryLookbehindStarts E inner rest pos original starts)
      (tryLookbehindStarts E' inner rest pos original starts) := by
  induction starts with
  | nil => exact R.bind (install _) fun _ => R.pure _
  | cons start starts ih =>
    exact R.bind (h.collect hi _) fun _ => R.bind takeAccepted fun _ =>
      tryAssertionStates h hr pos _ ih _

theorem matchAtomicLookahead (positive : Bool) (hi : R.ok inner) (hr : R.Oks rest) (pos : Nat) :
    R.rel (matchAtomicLookahead E positive inner rest pos)
      (matchAtomicLookahead E' positive inner rest pos) := by
  refine R.bind R.view fun saved => R.bind (h.matchSeqFrom hi oksNil pos) fun result =>
    R.bind cleared fun _ => ?_
  cases positive <;> cases result
  · exact R.bind (kept fun _ => ⟨rfl, rfl⟩) fun _ => matchRest h hr pos
  · exact R.bind (kept fun _ => ⟨rfl, rfl⟩) fun _ => R.pure _
  · exact R.bind (kept fun _ => ⟨rfl, rfl⟩) fun _ => R.pure _
  · exact matchRest h hr pos

theorem matchLookahead (positive atomic : Bool) (hi : R.ok inner) (hr : R.Oks rest) (pos : Nat) :
    R.rel (matchLookahead E positive atomic inner rest pos)
      (matchLookahead E' positive atomic inner rest pos) :=
  inRecursion none (ite (matchNonAtomicLookahead h hi hr pos)
    (matchAtomicLookahead h positive hi hr pos))

theorem lookbehindFound (hi : R.ok inner) (pos : Nat) (starts : List Nat) :
    R.rel (lookbehindFound E inner pos starts) (lookbehindFound E' inner pos starts) := by
  induction starts with
  | nil => exact R.pure _
  | cons start starts ih =>
    exact R.bind R.view fun _ => R.bind (h.matchSeqFrom hi oksNil start) fun _ =>
      R.bind takeAccepted fun _ => ite (R.pure _) (R.bind (kept fun _ => ⟨rfl, rfl⟩) fun _ => ih)

theorem matchLookbehind (positive atomic : Bool) (hi : R.ok inner) (hr : R.Oks rest) (pos : Nat) :
    R.rel (matchLookbehind E positive atomic inner rest pos)
      (matchLookbehind E' positive atomic inner rest pos) :=
  inRecursion none (ite (R.bind (take pos) fun _ => tryLookbehindStarts h hi hr pos _ _)
    (R.bind (lookbehindFound h hi pos _) fun _ => ite (matchRest h hr pos) (R.pure _)))

theorem matchAtomic (hi : R.ok inner) (hr : R.Oks rest) (pos : Nat) :
    R.rel (matchAtomic E inner rest pos) (matchAtomic E' inner rest pos) := by
  refine inRecursion none (R.bind (h.matchSeqFrom hi oksNil pos) fun result => ?_)
  cases result with
  | some final => exact matchRest h hr final
  | none => exact R.pure _

theorem tryScriptRuns (atomic accepted : Bool) (hr : R.Oks rest) (pos : Nat)
    (initial : BacktrackState) (states : List BacktrackState) :
    R.rel (tryScriptRuns env E atomic accepted rest pos initial states)
      (tryScriptRuns env E' atomic accepted rest pos initial states) := by
  induction states with
  | nil => exact R.bind (install _) fun _ => R.pure _
  | cons state states ih =>
    exact ite ih (R.bind (install _) fun _ => matchRestOrElse h hr _
      (R.bind R.view fun _ => ite (R.pure _) ih))

theorem matchScriptRun (hi : R.ok inner) (atomic : Bool) (hr : R.Oks rest) (pos : Nat) :
    R.rel (matchScriptRun env E inner atomic rest pos)
      (matchScriptRun env E' inner atomic rest pos) := by
  refine inRecursion none (R.bind (collectMatchStates h hi pos) ?_)
  rintro ⟨initial, states⟩
  exact R.bind takeAccepted fun accepted => tryScriptRuns h atomic accepted hr pos initial _

theorem matchLocalFlags (hn : R.ok (.localFlags flags inner)) (hr : R.Oks rest) (pos : Nat) :
    R.rel (matchLocalFlags E flags inner rest pos)
      (matchLocalFlags E' flags inner rest pos) := by
  have hi : R.ok inner := R.children hn inner (List.mem_singleton_self _)
  refine R.bind R.view fun saved => R.bind (R.localFlags hn fun _ => rfl) fun _ =>
    R.bind (h.matchSeqFrom hi oksNil pos) fun result =>
      R.bind (R.localFlags hn fun _ => rfl) fun _ => ?_
  cases result with
  | some final => exact matchRest h hr final
  | none => exact R.pure _

theorem matchBackrefByIndex (n : Nat) (hr : R.Oks rest) (pos : Nat) :
    R.rel (matchBackrefByIndex env E n rest pos) (matchBackrefByIndex env E' n rest pos) := by
  refine R.bind R.view fun s => ?_
  cases (s.groups[n]?).join with
  | none => exact R.pure _
  | some m => exact advanceIf h _ hr _

theorem matchNamedBackreference (n : GroupName) (hr : R.Oks rest) (pos : Nat) :
    R.rel (matchNamedBackreference env E n rest pos)
      (matchNamedBackreference env E' n rest pos) := by
  refine R.bind R.view fun s => ?_
  cases firstSetNamedGroup env s.groups n with
  | none => exact R.pure _
  | some index => exact matchBackrefByIndex h index hr pos

theorem matchSubroutine (hn : R.ok (.subroutine target)) (hr : R.Oks rest) (pos : Nat) :
    R.rel (matchSubroutine env E target rest pos)
      (matchSubroutine env E' target rest pos) := by
  have hcall (initial : BacktrackState) :
      R.rel (callSubroutine E initial rest pos (resolveSubroutine env target))
        (callSubroutine E' initial rest pos (resolveSubroutine env target)) := by
    cases htarget : resolveSubroutine env target with
    | none => exact R.pure _
    | some node =>
      exact h.matchSeqFrom (R.resolved hn htarget) (Oks.cons (R.captureRestore _) hr) pos
  exact R.bind R.view fun _ => ite (R.pure _) (inRecursion none
    (R.bind (kept fun _ => ⟨rfl, rfl⟩) fun _ => R.bind (take pos) fun _ =>
      R.bind (hcall _) fun _ => R.bind R.view fun _ => R.bind (restoreCaller _ _ _) fun _ =>
        R.bind (kept fun _ => ⟨rfl, rfl⟩) fun _ => R.pure _))

theorem conditionLookbehind (hi : R.ok inner) (pos : Nat) (saved : MatchState)
    (starts : List Nat) :
    R.rel (conditionLookbehind E inner pos saved starts)
      (conditionLookbehind E' inner pos saved starts) := by
  induction starts with
  | nil => exact R.pure _
  | cons start starts ih =>
    exact R.bind (kept fun _ => ⟨rfl, rfl⟩) fun _ => R.bind (h.matchSeqFrom hi oksNil start) fun _ =>
      R.bind takeAccepted fun _ => ite (R.pure _)
        (R.bind R.hasError fun _ => ite (R.pure _) ih)

theorem conditionMatched (lookbehind : Bool) (hi : R.ok inner) (pos : Nat) (saved : MatchState) :
    R.rel (conditionMatched E lookbehind inner pos saved)
      (conditionMatched E' lookbehind inner pos saved) :=
  ite (conditionLookbehind h hi pos saved _)
    (R.bind (h.matchSeqFrom hi oksNil pos) fun _ => R.bind cleared fun _ => R.pure _)

theorem assertionHolds (positive lookbehind : Bool) (hi : R.ok inner) (pos : Nat) :
    R.rel (assertionHolds E positive lookbehind inner pos)
      (assertionHolds E' positive lookbehind inner pos) :=
  R.bind R.view fun _ => R.bind (conditionMatched h lookbehind hi pos _) fun _ =>
    ite (R.bind (kept fun _ => ⟨rfl, rfl⟩) fun _ => R.pure _)
      (ite (R.pure _) (R.bind (kept fun _ => ⟨rfl, rfl⟩) fun _ => R.pure _))

theorem captureConditionMatches {condition : CaptureCondition}
    (hn : R.ok (.conditional condition yes no)) (pos : Nat) :
    R.rel (captureConditionMatches env E condition pos)
      (captureConditionMatches env E' condition pos) := by
  refine R.bind R.view fun s => ?_
  cases condition with
  | group index => exact R.pure _
  | name n => exact R.pure _
  | recursionTarget target => exact R.pure _
  | ambiguousRecursion n target =>
    refine ite (R.pure _) ?_
    cases target with
    | none => exact R.pure _
    | some target => exact R.pure _
  | assertion positive lookbehind inner =>
    exact assertionHolds h positive lookbehind
      (R.children hn inner (by simp [Node.children])) pos
  | always value => exact R.pure _

omit h in
theorem selected {holds : Bool} (hn : R.ok (.conditional condition yes no))
    (hs : (if holds then some yes else no) = some node) : R.ok node := by
  apply R.children hn
  cases holds with
  | true =>
    obtain rfl : yes = node := by simpa using hs
    exact List.mem_cons_self
  | false =>
    obtain rfl : no = some node := by simpa using hs
    exact List.mem_cons_of_mem _ List.mem_cons_self

theorem matchConditional (hn : R.ok (.conditional condition yes no)) (hr : R.Oks rest)
    (pos : Nat) :
    R.rel (matchConditional env E condition yes no rest pos)
      (matchConditional env E' condition yes no rest pos) := by
  refine R.bind (captureConditionMatches h hn pos) fun holds => ?_
  cases hs : if holds then some yes else no with
  | none => exact matchRest h hr pos
  | some node => exact h.matchSeqFrom (selected hn hs) hr pos

theorem matchMark (n : GroupName) (hr : R.Oks rest) (pos : Nat) :
    R.rel (matchMark E n rest pos) (matchMark E' n rest pos) :=
  R.bind R.view fun _ => R.bind (kept fun _ => ⟨rfl, rfl⟩) fun _ =>
    matchRestOrElse h hr _ (R.bind (kept fun _ => ⟨rfl, rfl⟩) fun _ => R.pure _)

theorem matchControl (hn : R.ok (.control verb n)) (hr : R.Oks rest) (pos : Nat) :
    R.rel (matchControl E verb n rest pos) (matchControl E' verb n rest pos) := by
  have hverb : R.rel
      (do
        match ← Regex.matchRest E rest pos with
        | some final => Pure.pure (some final)
        | none => do
          let s ← Regex.view
          if s.control.isNone then do
            setControl (verbControl verb n pos s.markPositions)
            Pure.pure none
          else Pure.pure none)
      (do
        match ← Regex.matchRest E' rest pos with
        | some final => Pure.pure (some final)
        | none => do
          let s ← Regex.view
          if s.control.isNone then do
            setControl (verbControl verb n pos s.markPositions)
            Pure.pure none
          else Pure.pure none) :=
    matchRestOrElse h hr _ (R.bind R.view fun _ =>
      ite (R.bind (R.control hn fun hc => absurd hc (verbControl_ne_accept _ _ _ _)) fun _ =>
        R.pure _) (R.pure _))
  refine R.bind (publishMark n) fun _ => ?_
  cases verb with
  | fail => exact R.pure _
  | accept => exact R.bind (R.control hn fun _ => rfl) fun _ => R.pure _
  | commit => exact hverb
  | prune => exact hverb
  | skip => exact hverb
  | «then» => exact hverb

theorem matchResetStart (hr : R.Oks rest) (pos : Nat) :
    R.rel (matchResetStart env E rest pos) (matchResetStart env E' rest pos) := by
  refine R.bind R.view fun s => ?_
  cases s.groups with
  | nil => exact matchRest h hr pos
  | cons saved groups =>
    exact R.bind (kept fun _ => ⟨rfl, rfl⟩) fun _ =>
      matchRestOrElse h hr _ (R.bind (kept fun _ => ⟨rfl, rfl⟩) fun _ => R.pure _)

theorem matchControlQuantifier {min : Nat} {max : Option Nat}
    (hn : R.ok (.quantifier inner min max greedy possessive)) (hr : R.Oks rest) (pos : Nat) :
    R.rel (matchControlQuantifier E inner min max greedy rest pos)
      (matchControlQuantifier E' inner min max greedy rest pos) := by
  have hi : R.ok inner := R.children hn inner (List.mem_singleton_self _)
  have hc : R.Oks (controlContinuation inner min max greedy rest) := by
    simp only [controlContinuation]
    split
    · exact Oks.cons (R.requantified hn _ _) hr
    · exact hr
  have hrep := h.matchSeqFrom hi hc pos
  have hrest := matchRest h hr pos
  exact inRecursion none (ite (ite hrest (R.pure _)) (ite hrep
    (ite (orElseUncontrolled hrep hrest) (orElseUncontrolled hrest hrep))))

theorem tryUniversalEndpoints (possessive : Bool) (hr : R.Oks rest) (initial : MatchState)
    (endpoints : List Nat) :
    R.rel (tryUniversalEndpoints E possessive rest initial endpoints)
      (tryUniversalEndpoints E' possessive rest initial endpoints) := by
  induction endpoints with
  | nil => exact R.bind (kept fun _ => ⟨rfl, rfl⟩) fun _ => R.pure _
  | cons endpoint endpoints ih =>
    refine R.bind (R.bind R.consume fun _ => ite (R.pure _)
      (R.bind (kept fun _ => ⟨rfl, rfl⟩) fun _ => matchRest h hr endpoint)) fun result => ?_
    cases result with
    | some final => exact R.pure _
    | none =>
      exact R.bind R.view fun _ => ite (R.pure _)
        (ite (R.bind (kept fun _ => ⟨rfl, rfl⟩) fun _ => R.pure _) ih)

theorem tryBalancedEndpoints (hr : R.Oks rest) (initial : MatchState) (endpoints : List Nat) :
    R.rel (tryBalancedEndpoints E rest initial endpoints)
      (tryBalancedEndpoints E' rest initial endpoints) := by
  induction endpoints with
  | nil => exact R.bind (kept fun _ => ⟨rfl, rfl⟩) fun _ => R.pure _
  | cons endpoint endpoints ih =>
    exact R.bind R.consume fun _ => ite (R.bind (kept fun _ => ⟨rfl, rfl⟩) fun _ => R.pure _)
      (R.bind (kept fun _ => ⟨rfl, rfl⟩) fun _ => matchRestOrElse h hr _
        (R.bind R.view fun _ => ite (R.pure _) ih))

theorem terminalLoop (hi : R.ok inner) (min : Nat) (max : Option Nat) (greedy tracks : Bool)
    (initial : MatchState) (hn : n ≤ n') (repetitions currentPos : Nat) :
    R.rel (terminalLoop E inner min max greedy tracks initial n repetitions currentPos)
      (terminalLoop E' inner min max greedy tracks initial n' repetitions currentPos) := by
  induction n generalizing n' repetitions currentPos with
  | zero => exact R.exhausted _
  | succ n ih =>
    obtain ⟨n', rfl⟩ : ∃ k, n' = k + 1 := ⟨n' - 1, by omega⟩
    refine ite (terminalFinish _ _ _ _ _) (R.bind R.view fun saved =>
      R.bind (h.matchSeqFrom hi oksNil currentPos) fun result => ?_)
    cases result with
    | some nextPos =>
      refine R.bind R.view fun s => ite (R.pure _) (ite ?_ (ite (R.pure _) ?_))
      · exact R.bind (kept fun _ => ⟨rfl, rfl⟩) fun _ => terminalFinish _ _ _ _ _
      · exact ih (by omega) _ _
    | none =>
      exact R.bind R.view fun s => ite (R.pure _)
        (R.bind (kept fun _ => ⟨rfl, rfl⟩) fun _ => terminalFinish _ _ _ _ _)

theorem matchTerminalQuantifier (hi : R.ok inner) (min : Nat) (max : Option Nat) (greedy : Bool)
    (pos : Nat) :
    R.rel (matchTerminalQuantifier E inner min max greedy pos)
      (matchTerminalQuantifier E' inner min max greedy pos) :=
  R.bind R.view fun _ => ite (R.pure _) (terminalLoop h hi _ _ _ _ _ h.fuel _ _)

theorem preferredAttempt (min : Nat) (greedy tracks : Bool) (hr : R.Oks rest)
    (initial : MatchState) (repetitions currentPos : Nat) :
    R.rel (preferredAttempt E min greedy tracks rest initial repetitions currentPos)
      (preferredAttempt E' min greedy tracks rest initial repetitions currentPos) := by
  refine ite (R.bind R.view fun saved => R.bind R.consume fun _ => ite
    (R.bind (kept fun _ => ⟨rfl, rfl⟩) fun _ => R.pure _)
    (R.bind (matchRest h hr currentPos) fun result => ?_)) (R.pure _)
  cases result with
  | some final => exact R.pure _
  | none => exact R.bind R.view fun s => ite (R.pure _) (R.bind (kept fun _ => ⟨rfl, rfl⟩) fun _ => R.pure _)

theorem preferredLoop (hi : R.ok inner) (min : Nat) (max : Option Nat) (greedy tracks : Bool)
    (hr : R.Oks rest) (initial : MatchState) (hn : n ≤ n') (repetitions currentPos : Nat)
    (states : List (Nat × MatchState)) :
    R.rel
      (preferredLoop E inner min max greedy tracks rest initial n repetitions currentPos states)
      (preferredLoop E' inner min max greedy tracks rest initial n' repetitions currentPos
        states) := by
  induction n generalizing n' repetitions currentPos states with
  | zero => exact R.exhausted _
  | succ n ih =>
    obtain ⟨n', rfl⟩ : ∃ k, n' = k + 1 := ⟨n' - 1, by omega⟩
    refine R.bind (preferredAttempt h _ _ _ hr _ _ _) fun exit => ?_
    cases exit with
    | «return» result => exact R.pure _
    | «break» _ =>
      refine R.bind R.view fun here => ite (R.pure _) (R.bind R.retain fun _ => ite (R.pure _) ?_)
      refine R.bind R.view fun saved => R.bind (h.matchSeqFrom hi oksNil currentPos) fun result => ?_
      cases result with
      | some nextPos =>
        exact R.bind R.view fun s => ite (R.pure _)
          (ite (ite (R.pure _) (R.pure _)) (ih (by omega) _ _ _))
      | none =>
        exact R.bind R.view fun s => ite (R.pure _) (R.bind (kept fun _ => ⟨rfl, rfl⟩) fun _ => R.pure _)

theorem tryPreferredStates (tracks : Bool) (hr : R.Oks rest) (initial : MatchState)
    (states : List (Nat × MatchState)) :
    R.rel (tryPreferredStates E tracks rest initial states)
      (tryPreferredStates E' tracks rest initial states) := by
  induction states with
  | nil => exact R.bind (kept fun _ => ⟨rfl, rfl⟩) fun _ => R.pure _
  | cons state states ih =>
    exact R.bind R.consume fun _ => ite (R.bind (kept fun _ => ⟨rfl, rfl⟩) fun _ => R.pure _)
      (R.bind (kept fun _ => ⟨rfl, rfl⟩) fun _ => matchRestOrElse h hr _
        (R.bind R.view fun _ => ite (R.pure _) ih))

theorem matchQuantifierPreferredPath (hi : R.ok inner) (min : Nat) (max : Option Nat)
    (greedy possessive : Bool) (hr : R.Oks rest) (pos : Nat) :
    R.rel (matchQuantifierPreferredPath E inner min max greedy possessive rest pos)
      (matchQuantifierPreferredPath E' inner min max greedy possessive rest pos) := by
  refine R.bind R.view fun initial => R.bind (preferredLoop h hi _ _ _ _ hr _ h.fuel _ _ _)
    fun exit => ?_
  cases exit with
  | «return» result => exact R.pure _
  | «break» states =>
    exact ite (tryPreferredStates h _ hr initial _) (R.bind (kept fun _ => ⟨rfl, rfl⟩) fun _ => R.pure _)

theorem singlePathLoop (hi : R.ok inner) (min : Nat) (max : Option Nat) (greedy : Bool)
    (hn : n ≤ n') (currentReps : Nat) (current : BacktrackState)
    (repetitions : List BacktrackState) :
    R.rel (singlePathLoop E inner min max greedy n currentReps current repetitions)
      (singlePathLoop E' inner min max greedy n' currentReps current repetitions) := by
  induction n generalizing n' currentReps current repetitions with
  | zero => exact R.exhausted _
  | succ n ih =>
    obtain ⟨n', rfl⟩ : ∃ k, n' = k + 1 := ⟨n' - 1, by omega⟩
    refine ite (R.pure _) (R.bind R.retain fun _ => ite (R.pure _)
      (R.bind (h.collect hi current) fun next => ?_))
    cases next.getLast? with
    | none => exact R.pure _
    | some next => exact ite (ite (R.pure _) (R.pure _)) (ih (by omega) _ _ _)

theorem collectSelections (state : BacktrackState) (blocked : Option Nat) (index : Nat)
    (hb : R.Oks branches) :
    R.rel (collectSelections env E state blocked index branches)
      (collectSelections env E' state blocked index branches) := by
  induction branches generalizing index with
  | nil => exact R.pure _
  | cons branch branches ih =>
    replace ih := fun index => ih index hb.tail
    exact R.bind R.view fun _ => ite (ih _) (ite (ih _) (R.bind (consumeAlternative _) fun _ =>
      ite (R.pure _) (R.bind (h.collect hb.head state) fun _ => R.bind (ih _) fun _ =>
        R.pure _)))

theorem collectRepetition (hi : R.ok inner) (collapse : Bool) (state : BacktrackState)
    (blocked : Option Nat) :
    R.rel (collectRepetition env E inner collapse state blocked)
      (collectRepetition env E' inner collapse state blocked) := by
  unfold Regex.collectRepetition
  split
  · exact collectSelections h state blocked 0 (R.children hi)
  · exact R.bind (h.collect hi _) fun _ => R.pure _

theorem branchingLoop (hi : R.ok inner) (min : Nat) (max : Option Nat) (greedy : Bool)
    (hn : n ≤ n') (p : BranchingProgress) :
    R.rel (branchingLoop env E inner min max greedy n p)
      (branchingLoop env E' inner min max greedy n' p) := by
  induction n generalizing n' p with
  | zero =>
    obtain ⟨repetitions, pending, seen⟩ := p
    cases pending with
    | nil =>
      unfold Regex.branchingLoop
      exact R.pure _
    | cons item pending => exact R.exhausted _
  | succ n ih =>
    obtain ⟨n', rfl⟩ : ∃ k, n' = k + 1 := ⟨n' - 1, by omega⟩
    obtain ⟨repetitions, pending, seen⟩ := p
    cases pending with
    | nil =>
      unfold Regex.branchingLoop
      exact R.pure _
    | cons item pending =>
      exact ite (ih (by omega) _) (R.bind R.retain fun _ => ite (R.pure _)
        (R.bind (collectRepetition h hi _ _ _) fun _ => ih (by omega) _))

theorem collectBranchingQuantifierStates (hi : R.ok inner) (min : Nat) (max : Option Nat)
    (greedy possessive : Bool) (state : BacktrackState) :
    R.rel (collectBranchingQuantifierStates env E inner min max greedy possessive state)
      (collectBranchingQuantifierStates env E' inner min max greedy possessive state) :=
  R.bind (branchingLoop h hi min max greedy h.fuel _) fun _ => R.pure _

theorem repetitionLoop (hi : R.ok inner) (min : Nat) (max : Option Nat) (greedy tracks : Bool)
    (hn : n ≤ n') (currentReps currentPos : Nat) (states : List (Nat × MatchState)) :
    R.rel (repetitionLoop E inner min max greedy tracks n currentReps currentPos states)
      (repetitionLoop E' inner min max greedy tracks n' currentReps currentPos states) := by
  induction n generalizing n' currentReps currentPos states with
  | zero => exact R.exhausted _
  | succ n ih =>
    obtain ⟨n', rfl⟩ : ∃ k, n' = k + 1 := ⟨n' - 1, by omega⟩
    refine R.bind R.view fun here => ite (R.pure _) (R.bind R.retain fun _ => ite (R.pure _) ?_)
    refine R.bind R.view fun saved => R.bind (h.matchSeqFrom hi oksNil currentPos) fun result => ?_
    cases result with
    | some nextPos =>
      exact R.bind R.view fun s => ite (R.pure _)
        (ite (ite (R.pure _) (R.pure _)) (ih (by omega) _ _ _))
    | none =>
      exact R.bind R.view fun s => ite (R.pure _) (R.bind (kept fun _ => ⟨rfl, rfl⟩) fun _ => R.pure _)

theorem tryRepetitionStates (tracks : Bool) (hr : R.Oks rest)
    (states : List (Nat × MatchState)) :
    R.rel (tryRepetitionStates E tracks rest states)
      (tryRepetitionStates E' tracks rest states) := by
  induction states with
  | nil => exact R.pure _
  | cons state states ih =>
    exact R.bind R.consume fun _ => ite (R.pure _) (R.bind (kept fun _ => ⟨rfl, rfl⟩) fun _ =>
      matchRestOrElse h hr _ (R.bind R.view fun _ => ite (R.pure _) ih))

theorem matchSingleOutcomeQuantifier (hi : R.ok inner) (min : Nat) (max : Option Nat)
    (greedy possessive : Bool) (hr : R.Oks rest) (pos : Nat) :
    R.rel (matchSingleOutcomeQuantifier E inner min max greedy possessive rest pos)
      (matchSingleOutcomeQuantifier E' inner min max greedy possessive rest pos) := by
  refine R.bind R.view fun initial => R.bind R.consume fun _ => ite (R.pure _)
    (R.bind (repetitionLoop h hi _ _ _ _ h.fuel _ _ _) fun exit => ?_)
  cases exit with
  | «return» result => exact R.pure _
  | «break» states =>
    refine R.bind R.hasError fun _ => ite (R.pure _) (ite ?_ (tryRepetitionStates h _ hr _))
    cases states with
    | nil => exact R.pure _
    | cons state states => exact R.bind (kept fun _ => ⟨rfl, rfl⟩) fun _ => matchRest h hr _

theorem tryCollectedStates (hr : R.Oks rest) (initial : BacktrackState)
    (states : List BacktrackState) :
    R.rel (tryCollectedStates E rest initial states)
      (tryCollectedStates E' rest initial states) := by
  induction states with
  | nil => exact R.bind (install _) fun _ => R.pure _
  | cons state states ih =>
    exact R.bind (install _) fun _ => matchRestOrElse h hr _
      (R.bind R.view fun _ => ite (R.pure _) ih)

theorem matchBranchingQuantifier (hi : R.ok inner) (min : Nat) (max : Option Nat)
    (greedy possessive : Bool) (hr : R.Oks rest) (pos : Nat) :
    R.rel (matchBranchingQuantifier env E inner min max greedy possessive rest pos)
      (matchBranchingQuantifier env E' inner min max greedy possessive rest pos) := by
  refine R.bind (matchQuantifierPreferredPath h hi _ _ _ _ hr _) fun result => ?_
  cases result with
  | some final => exact R.pure _
  | none =>
    exact ite (R.pure _) (R.bind R.hasError fun _ => ite (R.pure _) (R.bind (take pos) fun _ =>
      R.bind (collectBranchingQuantifierStates h hi _ _ _ _ _) fun _ =>
        tryCollectedStates h hr _ _))

theorem matchPossibleQuantifier {min : Nat} {max : Option Nat}
    (hn : R.ok (.quantifier inner min max greedy possessive)) (hr : R.Oks rest) (pos : Nat) :
    R.rel (matchPossibleQuantifier env E inner min max greedy possessive rest pos)
      (matchPossibleQuantifier env E' inner min max greedy possessive rest pos) := by
  have hi : R.ok inner := R.children hn inner (List.mem_singleton_self _)
  refine ite (matchControlQuantifier h hn hr pos)
    (ite (R.bind R.view fun _ => tryUniversalEndpoints h _ hr _ _) ?_)
  cases (if min = 0 && max.isNone && !rest.isEmpty then balancedDelimiterSpec inner else none) with
  | some spec => exact R.bind R.view fun _ => tryBalancedEndpoints h hr _ _
  | none =>
    exact ite (matchTerminalQuantifier h hi _ _ _ _)
      (ite (matchBranchingQuantifier h hi _ _ _ _ hr _)
        (matchSingleOutcomeQuantifier h hi _ _ _ _ hr _))

theorem matchQuantifier {min : Nat} {max : Option Nat}
    (hn : R.ok (.quantifier inner min max greedy possessive)) (hr : R.Oks rest) (pos : Nat) :
    R.rel (matchQuantifier env E inner min max greedy possessive rest pos)
      (matchQuantifier env E' inner min max greedy possessive rest pos) := by
  refine inRecursion none (R.bind R.view fun s => ?_)
  cases partitionCost? env s.flags inner min max greedy possessive rest pos with
  | some cost => exact R.bind (R.reject cost) fun _ => R.pure _
  | none => exact matchPossibleQuantifier h hn hr pos

theorem matchSeqFromStep (hn : R.ok node) (hr : R.Oks rest) (pos : Nat) :
    R.rel (matchSeqFromStep env E node rest pos) (matchSeqFromStep env E' node rest pos) := by
  refine R.bind R.hasError fun _ => ite (R.pure _) (R.bind R.view fun s => ?_)
  have hchild {inner : Node} (hc : node.children = [inner]) : R.ok inner :=
    R.children hn inner (hc ▸ List.mem_singleton_self _)
  cases node with
  | sequence nodes =>
    cases nodes with
    | nil => exact matchRest h hr pos
    | cons first nodes =>
      have hns : R.Oks (first :: nodes) := R.children hn
      exact h.matchSeqFrom hns.head (hns.tail.append hr) pos
  | graphemeCluster =>
    cases graphemeClusterLen env.tables env.chars pos with
    | none => exact R.pure _
    | some length => exact matchRest h hr _
  | linebreak =>
    cases linebreakLen env.chars pos s.flags with
    | none => exact R.pure _
    | some length => exact matchRest h hr _
  | literal c => exact advanceIf h _ hr _
  | anyChar => exact advanceIf h _ hr _
  | byteUnit => exact advanceIf h _ hr _
  | notNewline => exact advanceIf h _ hr _
  | anchor a => exact advanceIf h _ hr _
  | wordBoundary positive => exact advanceIf h _ hr _
  | charClass negated items => exact advanceIf h _ hr _
  | shorthand sh => exact advanceIf h _ hr _
  | localFlags flags inner => exact matchLocalFlags h hn hr pos
  | alternation branches => exact matchAlternation h hr pos true (R.children hn)
  | group index inner => exact matchGroup h index (hchild rfl) hr pos
  | quantifier inner min max greedy possessive => exact matchQuantifier h hn hr pos
  | backreference n => exact matchBackrefByIndex h n hr pos
  | namedBackreference n => exact matchNamedBackreference h n hr pos
  | lookahead positive atomic inner =>
    exact matchLookahead h positive atomic (hchild rfl) hr pos
  | lookbehind positive atomic inner =>
    exact matchLookbehind h positive atomic (hchild rfl) hr pos
  | atomic inner => exact matchAtomic h (hchild rfl) hr pos
  | scriptRun inner atomic => exact matchScriptRun h (hchild rfl) atomic hr pos
  | mark n => exact matchMark h n hr pos
  | control verb n => exact matchControl h hn hr pos
  | resetStart => exact matchResetStart h hr pos
  | subroutine target => exact matchSubroutine h hn hr pos
  | conditional condition yes no => exact matchConditional h hn hr pos
  | captureEnd index start => exact matchCaptureEnd h index start hr pos
  | captureRestore groups => exact matchCaptureRestore h groups hr pos

theorem collectAfterEach (hn : R.ok node) (states : List BacktrackState) :
    R.rel (collectAfterEach E node states) (collectAfterEach E' node states) := by
  induction states with
  | nil => exact R.pure _
  | cons state states ih =>
    exact R.bind (h.collect hn state) fun _ => R.bind ih fun _ => R.pure _

theorem collectSequence (hns : R.Oks nodes) (states : List BacktrackState) :
    R.rel (collectSequence E nodes states) (collectSequence E' nodes states) := by
  induction nodes generalizing states with
  | nil => exact R.pure _
  | cons node nodes ih =>
    exact R.bind (collectAfterEach h hns.head states) fun _ => R.bind R.view fun _ =>
      ite (R.pure _) (ih hns.tail _)

theorem collectAlternation (state : BacktrackState) (first : Bool) (hb : R.Oks branches) :
    R.rel (collectAlternation E state first branches)
      (collectAlternation E' state first branches) := by
  induction branches generalizing first with
  | nil => exact R.pure _
  | cons branch branches ih =>
    exact R.bind (consumeAlternative first) fun _ => ite (R.pure _)
      (R.bind (h.collect hb.head state) fun _ => R.bind (ih false hb.tail) fun _ => R.pure _)

theorem collectQuantifier (hi : R.ok inner) (min : Nat) (max : Option Nat)
    (greedy possessive : Bool) (state : BacktrackState) :
    R.rel (collectQuantifier env E inner min max greedy possessive state)
      (collectQuantifier env E' inner min max greedy possessive state) :=
  inRecursion [] (ite (collectBranchingQuantifierStates h hi _ _ _ _ _)
    (R.bind (singlePathLoop h hi _ _ _ h.fuel _ _ _) fun _ => R.pure _))

theorem collectSubroutineStates (hn : R.ok (.subroutine target)) (state : BacktrackState) :
    R.rel (collectSubroutineStates env E target state)
      (collectSubroutineStates env E' target state) := by
  refine R.bind R.view fun _ => ite (R.pure _) (inRecursion []
    (R.bind (kept fun _ => ⟨rfl, rfl⟩) fun _ => R.bind ?_ fun _ =>
      R.bind (kept fun _ => ⟨rfl, rfl⟩) fun _ => R.pure _))
  cases htarget : resolveSubroutine env target with
  | none => exact R.pure _
  | some node => exact h.collect (R.resolved hn htarget) state

theorem collectConditionalStates (hn : R.ok (.conditional condition yes no))
    (state : BacktrackState) :
    R.rel (collectConditionalStates env E condition yes no state)
      (collectConditionalStates env E' condition yes no state) := by
  refine R.bind (install _) fun _ => R.bind (captureConditionMatches h hn _) fun holds =>
    R.bind (take _) fun taken => ?_
  cases hs : if holds then some yes else no with
  | none => exact R.pure _
  | some node => exact h.collect (selected hn hs) taken

theorem collectSimple (hn : R.ok node) (state : BacktrackState) :
    R.rel
      (do
        state.install
        match ← E.matchSeqFrom node [] state.end with
        | some final => do
          let next ← BacktrackState.take final
          Pure.pure [next]
        | none => Pure.pure [])
      (do
        state.install
        match ← E'.matchSeqFrom node [] state.end with
        | some final => do
          let next ← BacktrackState.take final
          Pure.pure [next]
        | none => Pure.pure []) := by
  refine R.bind (install _) fun _ => R.bind (h.matchSeqFrom hn oksNil _) fun result => ?_
  cases result with
  | none => exact R.pure _
  | some final => exact R.bind (take final) fun _ => R.pure _

theorem collectMatchStatesFromStep (hn : R.ok node) (state : BacktrackState) :
    R.rel (collectMatchStatesFromStep env E node state)
      (collectMatchStatesFromStep env E' node state) := by
  refine R.bind R.hasError fun _ => ite (R.pure _) ?_
  have hchild {inner : Node} (hc : node.children = [inner]) : R.ok inner :=
    R.children hn inner (hc ▸ List.mem_singleton_self _)
  cases node with
  | sequence nodes => exact collectSequence h (R.children hn) [state]
  | alternation branches => exact collectAlternation h state true (R.children hn)
  | quantifier inner min max greedy possessive =>
    exact collectQuantifier h (hchild rfl) min max greedy possessive state
  | group index inner =>
    exact inRecursion [] (R.bind (h.collect (hchild rfl) state) fun _ => R.pure _)
  | subroutine target => exact collectSubroutineStates h hn state
  | conditional condition yes no => exact collectConditionalStates h hn state
  | _ => exact collectSimple h hn state

end Helpers

/-- Related primitives make the whole engine related, at any two depths in order. -/
theorem engines (R : MatcherRelation env) {n n' : Nat} (hn : n ≤ n') :
    R.Engines (engine env n) (engine env n') := by
  induction n generalizing n' with
  | zero => exact ⟨Nat.zero_le _, fun _ _ _ => R.exhausted _, fun _ _ => R.exhausted _⟩
  | succ n ih =>
    obtain ⟨n', rfl⟩ : ∃ k, n' = k + 1 := ⟨n' - 1, by omega⟩
    have h := ih (Nat.le_of_succ_le_succ hn)
    exact ⟨hn, fun hok hr => matchSeqFromStep h hok hr, collectMatchStatesFromStep h⟩

end MatcherRelation

end Rphp.Regex
