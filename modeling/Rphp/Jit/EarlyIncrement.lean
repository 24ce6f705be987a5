import Mathlib.Data.List.Count
import Rphp.Jit.ScalarValidator
import Rphp.Jit.StraightMachine

namespace Rphp.Jit
open Rphp.Lib NativeStraightLongLoopConfig
set_option autoImplicit true

def dominatesExitStep (config : NativeStraightLongLoopConfig) (candidate : Nat)
    (reachable : Nat → Bool) (index : Nat) : Nat → Bool :=
  if !reachable index || index == candidate then
    reachable
  else
    match config.operations[index]? with
    | some (.branchUnless _ _ _ falseTarget) =>
      Function.update (Function.update reachable (index + 1) true) falseTarget true
    | some (.jump target) => Function.update reachable target true
    | _ => Function.update reachable (index + 1) true

def reachableWithoutCandidate (config : NativeStraightLongLoopConfig) (candidate n : Nat) :
    Nat → Bool :=
  (List.range n).foldl (dominatesExitStep config candidate)
    (Function.update (fun _ => false) 0 true)

def straightLongOperationDominatesExit (config : NativeStraightLongLoopConfig)
    (candidate : Nat) : Bool :=
  !reachableWithoutCandidate config candidate config.operationCount config.operationCount

/-- Pure scalar code: no guard, no branch and no access to a context. -/
def NativeStraightLongOperation.isScalar : NativeStraightLongOperation → Bool
  | modulo _ _ _ => true
  | move _ _ => true
  | binary _ _ _ _ => true
  | binaryAssign _ _ _ _ _ => true
  | _ => false

/-- The earliest operation in front of which the induction value may be incremented. -/
def straightLongEarlyInductionIncrementOperation (config : NativeStraightLongLoopConfig) :
    Option Nat :=
  if config.postResult.isSome then
    none
  else
    (List.range' 1 (config.operationCount - 1)).find? fun candidate =>
      ((config.operations.drop candidate).all fun operation =>
        operation.isScalar &&
          straightLongOperationInputMask operation &&& bit config.inductionSlot == 0) &&
      straightLongOperationDominatesExit config candidate

/-! The position dominates the loop tail. -/

/-- The edges of the body without those out of one operation. -/
def successorsWithout (config : NativeStraightLongLoopConfig) (candidate index : Nat) : List Nat :=
  if index = candidate then [] else config.successors index

def reachablePass (config : NativeStraightLongLoopConfig) (candidate n : Nat) :
    Nat → Option Unit :=
  forwardPass (successorsWithout config candidate) (fun _ _ => ()) (fun _ _ => ()) () n

theorem isSome_mergeFact (facts : Nat → Option Unit) (target index : Nat) :
    (mergeFact (fun _ _ => ()) facts target () index).isSome =
      Function.update (fun i => (facts i).isSome) target true index := by
  by_cases hi : index = target
  · subst hi
    simp [mergeFact]
  · simp [mergeFact, Function.update_of_ne hi]

theorem reachableWithoutCandidate_eq {config : NativeStraightLongLoopConfig}
    (h : n ≤ config.operationCount) (candidate index : Nat) :
    reachableWithoutCandidate config candidate n index =
      (reachablePass config candidate n index).isSome := by
  induction n generalizing index with
  | zero =>
    by_cases hi : index = 0
    · subst hi
      simp [reachableWithoutCandidate, reachablePass, forwardPass]
    · simp [reachableWithoutCandidate, reachablePass, forwardPass, Function.update_of_ne hi]
  | succ n ih =>
    have ih := funext (ih (Nat.le_of_succ_le h))
    have hstep : reachableWithoutCandidate config candidate (n + 1) =
        dominatesExitStep config candidate (reachableWithoutCandidate config candidate n) n := by
      simp only [reachableWithoutCandidate, List.range_succ, List.foldl_append, List.foldl_cons,
        List.foldl_nil]
    obtain ⟨operation, ho⟩ : ∃ operation, config.operations[n]? = some operation :=
      ⟨_, List.getElem?_eq_getElem h⟩
    rw [hstep, reachablePass, forwardPass_succ, ← reachablePass, visit, dominatesExitStep, ih]
    cases hr : reachablePass config candidate n n with
    | none => simp [hr]
    | some fact =>
      by_cases hc : n = candidate
      · simp [hc, successorsWithout]
      · cases operation <;>
          simp [hr, hc, successorsWithout, successors, ho, isSome_mergeFact]

/-- A path that avoids an operation survives when its edges are removed. -/
theorem path_without {config : NativeStraightLongLoopConfig} (h : config.Path 0 nodes index)
    (hk : k ∉ nodes) : Route (successorsWithout config k) 0 nodes index := by
  induction h with
  | nil => exact .nil
  | @snoc nodes v w h hw ih =>
    simp only [List.mem_append, List.mem_singleton, not_or] at hk
    refine .snoc (ih hk.1) ?_
    rwa [successorsWithout, if_neg (Ne.symm hk.2)]

theorem mem_of_dominatesExit {config : NativeStraightLongLoopConfig} (hf : config.ForwardOnly)
    (hd : straightLongOperationDominatesExit config k = true)
    (h : config.Path 0 nodes config.operationCount) : k ∈ nodes := by
  by_contra hk
  have hforward : Forward (successorsWithout config k) := by
    intro u v hv
    unfold successorsWithout at hv
    split at hv
    · cases hv
    · exact hf.forward u v hv
  have hroute := path_without h hk
  have hsome : (reachablePass config k config.operationCount config.operationCount).isSome :=
    (forwardPass_isSome hforward _ _).2
      ⟨nodes, hroute, fun x hx => hroute.lt_of_mem hforward hx⟩
  rw [straightLongOperationDominatesExit, reachableWithoutCandidate_eq (Nat.le_refl _), hsome] at hd
  cases hd

/-- What the analysis checks of the position it returns. -/
structure IsEarlyPosition (config : NativeStraightLongLoopConfig) (k : Nat) : Prop where
  noPostResult : config.postResult = none
  inBody : k < config.operationCount
  scalar : ∀ i ≥ k, ∀ operation, config.operations[i]? = some operation →
    operation.isScalar = true ∧ config.inductionSlot ∉ straightLongOperationInputMask operation
  dominates : straightLongOperationDominatesExit config k = true

theorem isEarlyPosition_of_eq_some {config : NativeStraightLongLoopConfig}
    (h : straightLongEarlyInductionIncrementOperation config = some k) :
    IsEarlyPosition config k := by
  unfold straightLongEarlyInductionIncrementOperation at h
  split at h
  · cases h
  · rename_i hpost
    obtain ⟨hk, hmem, -⟩ := List.find?_range'_eq_some.1 h
    rw [Bool.and_eq_true, List.all_eq_true] at hk
    obtain ⟨hall, hd⟩ := hk
    have hbound := List.mem_range'_1.1 hmem
    refine ⟨by simpa using hpost, by omega, ?_, hd⟩
    intro i hi operation ho
    have hdrop : operation ∈ config.operations.drop k := by
      refine List.mem_of_getElem? (i := i - k) ?_
      rw [List.getElem?_drop, Nat.add_sub_cancel' hi, ho]
    have hop := hall operation hdrop
    rw [Bool.and_eq_true, beq_iff_eq, mask_eq_zero_iff] at hop
    exact ⟨hop.1, fun hread => hop.2 config.inductionSlot (by simpa using hread)⟩

/-! Moving the increment. -/

namespace StraightMachine

variable {ctx : NativeContext W} {config : NativeStraightLongLoopConfig} {e : Emission}
variable {m a b : StraightMachine W}

theorem read_setInduction (h : config.inductionSlot ∉ straightLongOperationInputMask operation)
    (x : Int64) :
    ∀ o ∈ operation.operands, ({ m with induction := x }).read config o = m.read config o := by
  intro o ho
  cases o with
  | const value => rfl
  | slot slot =>
    have hne : slot ≠ config.inductionSlot := by
      rintro rfl
      exact h ((NativeStraightLongOperation.mem_inputMask _).2 ho)
    simp [read, hne]

theorem advance_setInduction (outputs : Mask) (operands : List Int64) (m : StraightMachine W)
    (x : Int64) (effect : Effect W) :
    advance e outputs operands { m with induction := x } effect =
      { advance e outputs operands m effect with induction := x } := by
  cases effect with
  | next value world => cases value <;> rfl
  | _ => rfl

/-- A step looks at the place of the early increment only if it is there. -/
theorem step_withEarly (h : e.early ≠ some m.index) (other : Option Nat)
    (ho : other ≠ some m.index) :
    step ctx checked config { e with early := other } m = step ctx checked config e m := by
  have hbegin : beginOperation { e with early := other } m = beginOperation e m := by
    simp [beginOperation, h, ho]
  have hadvance (outputs : Mask) (operands : List Int64) (m : StraightMachine W)
      (effect : Effect W) :
      advance { e with early := other } outputs operands m effect =
        advance e outputs operands m effect := by
    cases effect with
    | next value world => cases value <;> rfl
    | _ => rfl
  unfold step
  simp only [hbegin, hadvance]

/-- Operations that do not read the induction value pass another one through. -/
theorem step_setInduction (he : m.exit = none)
    (ho : config.operations[m.index]? = some operation)
    (hread : config.inductionSlot ∉ straightLongOperationInputMask operation)
    (hearly : e.early ≠ some m.index) (x : Int64) :
    step ctx checked config e { m with induction := x } =
      { step ctx checked config e m with induction := x } := by
  have hreads := read_setInduction (m := m) hread x
  have hbegin (m' : StraightMachine W) (h : m'.index = m.index) : beginOperation e m' = m' := by
    simp [beginOperation, h, hearly]
  rw [step_of_some (m := { m with induction := x }) he ho, step_of_some he ho,
    hbegin { m with induction := x } rfl, hbegin m rfl, ← advance_setInduction,
    NativeStraightLongOperation.eval_congr hreads, List.map_congr_left hreads]

/-- The increment in front of an operation is a step from the incremented machine. -/
theorem step_atEarly (he : m.exit = none) (ho : config.operations[m.index]? = some operation) :
    step ctx checked config { e with early := some m.index } m =
      step ctx checked config { e with early := none }
        { m with induction := m.induction + 1 } := by
  rw [step_of_some he ho, step_of_some (m := { m with induction := m.induction + 1 }) he ho]
  simp only [beginOperation, ↓reduceIte, reduceCtorEq]
  cases operation.eval ctx checked (({ m with induction := m.induction + 1 }).read config)
      m.world with
  | next value world => cases value <;> rfl
  | _ => rfl

theorem step_induction (h : e.early = none) :
    (step ctx checked config e m).induction = m.induction := by
  unfold step
  split
  · simp only [beginOperation, h, reduceCtorEq, ↓reduceIte]
    cases NativeStraightLongOperation.eval ctx checked _ _ _ with
    | next value world => cases value <;> rfl
    | _ => rfl
  · rfl

/-- Without overflow checks scalar code has a result or faults. -/
theorem eval_scalar (ctx : NativeContext W) {operation : NativeStraightLongOperation}
    (h : operation.isScalar = true) (f : QuickLongOperand → Int64) (world : W) :
    (∃ value, operation.eval ctx false f world = .next (some value) world) ∨
      operation.eval ctx false f world = .fault := by
  have harith (result : Option Int64) :
      (∃ value, NativeStraightLongOperation.arithmetic false world result =
        .next (some value) world) ∨
      NativeStraightLongOperation.arithmetic false world result = .fault := by
    cases result with
    | none => exact .inr rfl
    | some value => exact .inl ⟨value, rfl⟩
  cases operation with
  | modulo | binary | binaryAssign => exact harith _
  | move => exact .inl ⟨_, rfl⟩
  | _ => cases h

theorem step_scalar (he : m.exit = none) (ho : config.operations[m.index]? = some operation)
    (hs : operation.isScalar = true) :
    (step ctx false config e m).exit = none ∨
      (step ctx false config e m).exit = some (.fault m.index) := by
  rw [step_of_some he ho]
  obtain ⟨value, h⟩ | h := eval_scalar ctx hs ((beginOperation e m).read config)
    (beginOperation e m).world
  · exact .inl (by simp [h, advance, he])
  · exact .inr (by simp [h, advance])

/-- The loop with the increment at its tail beside the loop with the increment in front of `k`. -/
inductive EarlyRel (config : NativeStraightLongLoopConfig) (k : Nat) :
    StraightMachine W → StraightMachine W → Prop
  | before : config.Path 0 nodes c.index → k ∉ nodes → c.exit = none → EarlyRel config k c c
  | after : config.Path 0 nodes c.index → k ∈ nodes → c.exit = none →
      EarlyRel config k c { c with induction := c.induction + 1 }
  | left : c.exit ≠ none → EarlyRel config k c c
  | faulted : c.exit = some (.fault i) →
      EarlyRel config k c { c with induction := c.induction + 1 }

theorem earlyRel_cross (hk : IsEarlyPosition config k) (hp : config.Path 0 nodes a.index)
    (he : a.exit = none) (hge : k ≤ a.index) (hmem : k ∈ nodes ++ [a.index])
    (ho : config.operations[a.index]? = some operation) :
    EarlyRel config k (step ctx false config { e with early := none } a)
      (step ctx false config { e with early := none }
        { a with induction := a.induction + 1 }) := by
  obtain ⟨hscalar, hread⟩ := hk.scalar a.index hge operation ho
  rw [step_setInduction he ho hread (by simp) (a.induction + 1)]
  have hind : (step ctx false config { e with early := none } a).induction = a.induction :=
    step_induction rfl
  have hexit : (step ctx false config { e with early := none } a).exit = none ∨
      (step ctx false config { e with early := none } a).exit = some (.fault a.index) :=
    step_scalar he ho hscalar
  obtain hs | hs := hexit
  · have hrel := EarlyRel.after (.snoc hp (index_mem_successors he ho hs)) hmem hs
    rwa [hind] at hrel
  · have hrel := @EarlyRel.faulted W config k _ _ hs
    rwa [hind] at hrel

theorem EarlyRel.step (hf : config.ForwardOnly) (hk : IsEarlyPosition config k)
    (h : EarlyRel config k a b) :
    EarlyRel config k (step ctx false config { e with early := none } a)
      (StraightMachine.step ctx false config { e with early := some k } b) := by
  cases h with
  | left he =>
    rw [step_of_exit he, step_of_exit he]
    exact .left he
  | faulted he =>
    rw [step_of_exit (m := a) (by simp [he]),
      step_of_exit (m := { a with induction := a.induction + 1 }) (by simp [he])]
    exact .faulted he
  | @before nodes _ hp hmem he =>
    cases ho : config.operations[a.index]? with
    | none =>
      rw [step_of_none ho, step_of_none ho]
      exact .before hp hmem he
    | some operation =>
      by_cases hik : k = a.index
      · subst hik
        rw [step_atEarly he ho]
        exact earlyRel_cross hk hp he (Nat.le_refl _) (by simp) ho
      · have hne : some k ≠ some a.index := by simpa using hik
        rw [← step_withEarly (e := { e with early := none }) (by simp) (some k) hne]
        cases hs : (StraightMachine.step ctx false config
            { e with early := some k } a).exit with
        | none =>
          refine .before (.snoc hp (index_mem_successors he ho hs)) ?_ hs
          simp [hmem, hik]
        | some exit => exact .left (by simp [hs])
  | @after nodes _ hp hmem he =>
    have hlt := hp.lt_of_mem hf.forward hmem
    have hne : some k ≠ some a.index := by
      intro h
      cases h
      exact Nat.lt_irrefl _ hlt
    rw [step_withEarly (e := { e with early := none })
      (m := { a with induction := a.induction + 1 }) (by simp) (some k) hne]
    cases ho : config.operations[a.index]? with
    | none =>
      rw [step_of_none ho, step_of_none (m := { a with induction := a.induction + 1 }) ho]
      exact .after hp hmem he
    | some operation =>
      exact earlyRel_cross hk hp he (Nat.le_of_lt hlt) (List.mem_append_left _ hmem) ho

theorem EarlyRel.iterate (hf : config.ForwardOnly) (hk : IsEarlyPosition config k)
    (h : EarlyRel config k a b) (n : Nat) :
    EarlyRel config k ((StraightMachine.step ctx false config { e with early := none })^[n] a)
      ((StraightMachine.step ctx false config { e with early := some k })^[n] b) := by
  induction n with
  | zero => exact h
  | succ n ih =>
    rw [Function.iterate_succ_apply', Function.iterate_succ_apply']
    exact ih.step hf hk

/-- At the end of an iteration the two loops are in the same state, unless a division faulted. -/
theorem EarlyRel.pass_eq (hf : config.ForwardOnly) (hk : IsEarlyPosition config k)
    (hrel : EarlyRel config k a b) (hend : a.exit = none → a.index = config.operationCount) :
    let atTail := tail config { e with early := none } a
    let early := tail config { e with early := some k } b
    early.log = atTail.log ∧ early.exit = atTail.exit ∧
      ((∀ i, atTail.exit ≠ some (.fault i)) → early = atTail) ∧
      (atTail.exit = none → atTail.index = 0) := by
  cases hrel with
  | left he => simp [tail, he]
  | faulted he => simp [tail, he]
  | before hp hmem he =>
    rw [hend he] at hp
    exact absurd (mem_of_dominatesExit hf hk.dominates hp) hmem
  | after hp hmem he => simp [tail, he, hend he, hk.noPostResult]

end StraightMachine

open StraightMachine

/-- Whether the induction value is incremented in front of the position that the analysis returns
or at the loop tail, an iteration executes the same operations on the same operands with the same
decisions and ends in the same state; a faulting division ends both at the same operation. Every
path through the body crosses the position once. -/
theorem earlyInductionIncrement_preserves (ctx : NativeContext W)
    (config : NativeStraightLongLoopConfig) (hv : validateScalarStraightConfig config = .ok ())
    (hk : straightLongEarlyInductionIncrementOperation config = some k) (e : Emission)
    (m : StraightMachine W) (hm : m.index = 0) :
    (let atTail := pass ctx false config { e with early := none } m
     let early := pass ctx false config { e with early := some k } m
     early.log = atTail.log ∧ early.exit = atTail.exit ∧
      ((∀ i, atTail.exit ≠ some (.fault i)) → early = atTail) ∧
      (atTail.exit = none → atTail.index = 0)) ∧
      ∀ nodes, config.Path 0 nodes config.operationCount → nodes.count k = 1 := by
  have hf := forwardOnly_of_validate hv
  have hpos := isEarlyPosition_of_eq_some hk
  constructor
  · have hstart : EarlyRel config k m m := by
      cases he : m.exit with
      | none =>
        refine .before ?_ List.not_mem_nil he
        rw [hm]
        exact .nil
      | some exit => exact .left (by simp [he])
    exact (hstart.iterate hf hpos config.operationCount).pass_eq hf hpos (body_ends hf hm)
  · intro nodes hp
    exact List.count_eq_one_of_mem (hp.nodup hf.forward)
      (mem_of_dominatesExit hf hpos.dominates hp)

/-- Two arms that read the induction value join in front of an operation that does not. -/
def joinedArmsBody : NativeStraightLongLoopConfig where
  inductionSlot := 0
  bound := .const 100
  operations := [
    .branchUnless .lessThan (.source (.slot 0)) (.source (.const 90)) 4,
    .binary .multiply (.slot 0) (.const 3) 3,
    .binaryAssign .add (.slot 3) (.const 1) 4 1,
    .jump 6,
    .binary .multiply (.slot 0) (.const 5) 5,
    .binaryAssign .subtract (.slot 5) (.const 2) 6 1,
    .binaryAssign .multiply (.slot 1) (.const 3) 7 1]
  postResult := none

theorem earlyInductionIncrement_preserves_joinedArms :
    straightLongEarlyInductionIncrementOperation joinedArmsBody = some 6 ∧
      (pass noContext false joinedArmsBody { Emission.canonical with early := some 6 }
          (enter joinedArmsBody (fun _ => 2) ())).log =
        (pass noContext false joinedArmsBody { Emission.canonical with early := none }
          (enter joinedArmsBody (fun _ => 2) ())).log :=
  ⟨by decide +kernel, (earlyInductionIncrement_preserves noContext joinedArmsBody
    (by decide +kernel) (by decide +kernel) Emission.canonical
    (enter joinedArmsBody (fun _ => 2) ()) rfl).1.1⟩

end Rphp.Jit
