import Rphp.Jit.ScalarDouble

namespace Rphp.Jit
open Rphp.Lib
set_option autoImplicit true

inductive ComposedScalarDoubleOp (V : Type) where
  | arithmetic (operation : ScalarDoubleOp V)
  | call (arguments : List (ScalarDoubleSource V))
  deriving DecidableEq, Repr

structure ComposedScalarDoubleFunctionPlan (V : Type) where
  publicArgs : Nat
  operations : List (ComposedScalarDoubleOp V)
  output : ScalarDoubleSource V
  deriving DecidableEq, Repr

/-- A guarded callee behind its resolution: its arguments, its program and its conditional. -/
abbrev ResolvedScalarDoubleProgram (V : Type) := ScalarDoubleFunctionPlan V

def maxOperations : Nat := 8

/-- The flat program so far, and where the results of the composed operations are in it. -/
structure Composition (V : Type) where
  operations : List (ScalarDoubleOp V)
  results : List (ScalarDoubleSource V)
  mergedSelect : Option (ScalarDoubleSelect V)

def remapComposedSource (source : ScalarDoubleSource V) (results : List (ScalarDoubleSource V)) :
    Option (ScalarDoubleSource V) :=
  match source with
  | .input index => some (.input index)
  | .constant value => some (.constant value)
  | .temporary index => results[index]?
  | .selection => some .selection

/-- The sources of a callee with its arguments in place of its inputs and its temporaries behind
the operations in front of it. -/
def remapLeafSource (arguments : List (ScalarDoubleSource V)) (leafStart count : Nat)
    (hasSelect : Bool) : ScalarDoubleSource V → Option (ScalarDoubleSource V)
  | .input index => arguments[index]?
  | .constant value => some (.constant value)
  | .temporary index =>
    if leafStart + index < leafStart + count then some (.temporary (leafStart + index)) else none
  | .selection => if hasSelect then some .selection else none

def remapOp (remap : ScalarDoubleSource V → Option (ScalarDoubleSource V))
    (operation : ScalarDoubleOp V) : Option (ScalarDoubleOp V) := do
  let lhs ← remap operation.lhs
  let rhs ← remap operation.rhs
  return ⟨operation.kind, lhs, rhs⟩

def remapSelect (remap : ScalarDoubleSource V → Option (ScalarDoubleSource V)) (leafStart : Nat)
    (select : ScalarDoubleSelect V) : Option (ScalarDoubleSelect V) := do
  let lhs ← remap select.lhs
  let rhs ← remap select.rhs
  let whenTrue ← remap select.whenTrue
  let whenFalse ← remap select.whenFalse
  return {
    kind := select.kind
    lhs, rhs
    sharedOperationCount := leafStart + select.sharedEnd
    whenTrueOperationCount := select.whenTrueOperationCount
    whenFalseOperationCount := select.whenFalseOperationCount
    whenTrue, whenFalse
    mergeResult := true }

/-- The conditional of a callee becomes the one of the composition, which has none yet. -/
def mergeSelect (remap : ScalarDoubleSource V → Option (ScalarDoubleSource V)) (leafStart : Nat)
    (mergedSelect : Option (ScalarDoubleSelect V)) (callee : ResolvedScalarDoubleProgram V) :
    Option (Option (ScalarDoubleSelect V)) :=
  match callee.select with
  | none => some mergedSelect
  | some select =>
    if mergedSelect.isSome then none
    else do
      let _ ← select.operationRanges callee.program.operations.length
      let merged ← remapSelect remap leafStart select
      return some merged

def remapResult (remap : ScalarDoubleSource V → Option (ScalarDoubleSource V))
    (callee : ResolvedScalarDoubleProgram V) : Option (ScalarDoubleSource V) :=
  match callee.select with
  | none => remap callee.program.output
  | some select =>
    if select.mergeResult then remap callee.program.output else some .selection

/-- One composed operation put behind the flat program. -/
def composeStep (resolved : Option (ResolvedScalarDoubleProgram V)) (state : Composition V) :
    ComposedScalarDoubleOp V → Option (Composition V)
  | .arithmetic operation =>
    if state.operations.length = maxOperations then none
    else do
      let operation ← remapOp (remapComposedSource · state.results) operation
      return {
        operations := state.operations ++ [operation]
        results := state.results ++ [.temporary state.operations.length]
        mergedSelect := state.mergedSelect }
  | .call arguments => do
    let callee ← resolved
    if callee.publicArgs ≠ arguments.length ∨
        state.operations.length + callee.program.operations.length > maxOperations then none
    else if arguments.length > 8 then none
    else do
      let arguments ← arguments.mapM (remapComposedSource · state.results)
      let leafStart := state.operations.length
      let remap := remapLeafSource arguments leafStart callee.program.operations.length
        callee.select.isSome
      let operations ← callee.program.operations.mapM (remapOp remap)
      let mergedSelect ← mergeSelect remap leafStart state.mergedSelect callee
      let result ← remapResult remap callee
      return {
        operations := state.operations ++ operations
        results := state.results ++ [result]
        mergedSelect }

/-- The composed operations from an index on. -/
def composeFrom (resolvedPrograms : List (Option (ResolvedScalarDoubleProgram V))) :
    List (ComposedScalarDoubleOp V) → Nat → Composition V → Option (Composition V)
  | [], _, state => some state
  | operation :: operations, index, state => do
    let state ← composeStep resolvedPrograms[index]?.join state operation
    composeFrom resolvedPrograms operations (index + 1) state

def composeScalarDoubleProgram (plan : ComposedScalarDoubleFunctionPlan V)
    (resolvedPrograms : List (Option (ResolvedScalarDoubleProgram V))) :
    Option (ScalarDoubleFunctionPlan V) :=
  if plan.operations.length > 16 ∨ plan.operations.length > resolvedPrograms.length then none
  else do
    let state ← composeFrom resolvedPrograms plan.operations 0 ⟨[], [], none⟩
    let output ← remapComposedSource plan.output state.results
    return ⟨plan.publicArgs, ⟨state.operations, output⟩, state.mergedSelect⟩

section Evaluation

variable [Inhabited V] (ops : DoubleOperations V) (inputs : Nat → V)

/-- A call evaluates its callee on the values of its arguments. -/
def ComposedScalarDoubleOp.eval (resolved : Option (ResolvedScalarDoubleProgram V))
    (path : DoublePath V) : ComposedScalarDoubleOp V → Except DoubleFault V
  | .arithmetic operation => operation.eval ops inputs path
  | .call arguments => do
    let values ← arguments.mapM (·.eval inputs path)
    match resolved with
    | some callee => callee.eval ops fun index => values.getD index default
    | none => throw .notExecuted

/-- The composed operations in order; their temporaries are their results. -/
def evalComposedFrom (resolvedPrograms : List (Option (ResolvedScalarDoubleProgram V))) :
    List (ComposedScalarDoubleOp V) → Nat → DoublePath V → Except DoubleFault (DoublePath V)
  | [], _, path => return path
  | operation :: operations, index, path => do
    let value ← operation.eval ops inputs resolvedPrograms[index]?.join path
    evalComposedFrom resolvedPrograms operations (index + 1) (path.write index value)

def ComposedScalarDoubleFunctionPlan.eval (plan : ComposedScalarDoubleFunctionPlan V)
    (resolvedPrograms : List (Option (ResolvedScalarDoubleProgram V))) : Except DoubleFault V := do
  let path ← evalComposedFrom ops inputs resolvedPrograms plan.operations 0 .start
  plan.output.eval inputs path

end Evaluation

section Paths

variable {ops : DoubleOperations V} {inputs : Nat → V} {path small big : DoublePath V}

/-- A path that has everything that another one has. -/
structure DoublePath.Extends (small big : DoublePath V) : Prop where
  temporaries : ∀ index value, small.temporaries index = some value →
    big.temporaries index = some value
  selection : ∀ value, small.selection = some value → big.selection = some value

theorem executed_eq_ok {value : Option V} : executed value = .ok v ↔ value = some v := by
  cases value with
  | none => exact ⟨nofun, nofun⟩
  | some w => simp [executed]

theorem source_eval_extends {source : ScalarDoubleSource V} (hextends : small.Extends big)
    (h : source.eval inputs small = .ok v) : source.eval inputs big = .ok v := by
  cases source with
  | input index => exact h
  | constant value => exact h
  | temporary index => exact executed_eq_ok.mpr (hextends.temporaries _ _ (executed_eq_ok.mp h))
  | selection => exact executed_eq_ok.mpr (hextends.selection _ (executed_eq_ok.mp h))

theorem evalOperations_append (front back : List (ScalarDoubleOp V)) (index : Nat)
    (path : DoublePath V) :
    evalOperations ops inputs (front ++ back) index path =
      evalOperations ops inputs front index path >>=
        evalOperations ops inputs back (index + front.length) := by
  induction front generalizing index path with
  | nil => rfl
  | cons operation front ih =>
    simp only [List.cons_append, evalOperations, bind_assoc, ih, List.length_cons, Nat.add_assoc,
      Nat.add_comm 1]

/-- Operations keep what is not in their range. -/
theorem evalOperations_keeps {operations : List (ScalarDoubleOp V)}
    (h : evalOperations ops inputs operations index path = .ok result) :
    result.selection = path.selection ∧
      ∀ other, other < index ∨ index + operations.length ≤ other →
        result.temporaries other = path.temporaries other := by
  induction operations generalizing index path with
  | nil =>
    cases h
    exact ⟨rfl, fun _ _ => rfl⟩
  | cons operation operations ih =>
    obtain ⟨value, -, hrest⟩ := except_bind_eq_ok.mp h
    obtain ⟨hselection, htemporaries⟩ := ih hrest
    refine ⟨hselection, ?_⟩
    intro other hother
    rw [List.length_cons] at hother
    rw [htemporaries other (by omega), DoublePath.write_other _ _ (by omega)]

theorem evalArm_keeps {operations : List (ScalarDoubleOp V)} {source : ScalarDoubleSource V}
    (hfirst : first ≤ last) (hlast : last ≤ operations.length)
    (h : evalArm ops inputs operations first last source path = .ok result) :
    ∀ other, last ≤ other → result.temporaries other = path.temporaries other := by
  obtain ⟨armed, harmed, h⟩ := except_bind_eq_ok.mp h
  obtain ⟨value, -, h⟩ := except_bind_eq_ok.mp h
  cases h
  intro other hother
  apply (evalOperations_keeps harmed).2
  rw [range_length hfirst hlast]
  omega

end Paths

section Leaf

/-- The path of a callee inside the path of the flat program: its temporaries are shifted, and
everything in front of the call stays. -/
structure LeafPath (leafStart : Nat) (base leaf path : DoublePath V) : Prop where
  temporaries : ∀ index value, leaf.temporaries index = some value →
    path.temporaries (leafStart + index) = some value
  selection : ∀ value, leaf.selection = some value → path.selection = some value
  base : base.Extends path

theorem forall₂_of_mapM {f : α → Option β} {items : List α} (h : items.mapM f = some results) :
    List.Forall₂ (fun item result => f item = some result) items results := by
  induction items generalizing results with
  | nil =>
    cases h
    exact .nil
  | cons item items ih =>
    rw [List.mapM_cons] at h
    obtain ⟨result, hresult, h⟩ := Option.bind_eq_some_iff.mp h
    obtain ⟨tail, htail, h⟩ := Option.bind_eq_some_iff.mp h
    cases h
    exact .cons hresult (ih htail)

variable {base leaf path : DoublePath V}

theorem LeafPath.write (hpath : LeafPath leafStart base leaf path)
    (hbase : ∀ other, leafStart ≤ other → base.temporaries other = none) (index : Nat) (value : V) :
    LeafPath leafStart base (leaf.write index value) (path.write (leafStart + index) value) := by
  constructor
  · intro other result hresult
    by_cases heq : other = index
    · subst heq
      rw [DoublePath.write_self] at hresult ⊢
      exact hresult
    · rw [DoublePath.write_other _ _ heq] at hresult
      rw [DoublePath.write_other _ _ (by omega)]
      exact hpath.temporaries other result hresult
  · exact hpath.selection
  · constructor
    · intro other result hresult
      have hother : other ≠ leafStart + index := by
        rintro rfl
        rw [hbase _ (Nat.le_add_right _ _)] at hresult
        cases hresult
      rw [DoublePath.write_other _ _ hother]
      exact hpath.base.temporaries other result hresult
    · exact hpath.base.selection

theorem LeafPath.select (hpath : LeafPath leafStart base leaf path)
    (hbase : base.selection = none) (value : V) :
    LeafPath leafStart base (leaf.select value) (path.select value) := by
  refine ⟨hpath.temporaries, fun _ h => h, hpath.base.temporaries, ?_⟩
  intro result hresult
  rw [hbase] at hresult
  cases hresult

/-- What the remapped conditional of a callee is. -/
theorem remapSelect_eq {select select' : ScalarDoubleSelect V}
    (h : remapSelect remap leafStart select = some select') :
    remap select.lhs = some select'.lhs ∧ remap select.rhs = some select'.rhs ∧
      remap select.whenTrue = some select'.whenTrue ∧
      remap select.whenFalse = some select'.whenFalse ∧ select'.kind = select.kind ∧
      select'.sharedEnd = leafStart + select.sharedEnd ∧
      select'.trueEnd = leafStart + select.trueEnd ∧
      select'.falseEnd = leafStart + select.falseEnd ∧ select'.mergeResult = true := by
  obtain ⟨lhs, hlhs, h⟩ := Option.bind_eq_some_iff.mp h
  obtain ⟨rhs, hrhs, h⟩ := Option.bind_eq_some_iff.mp h
  obtain ⟨whenTrue, hwhenTrue, h⟩ := Option.bind_eq_some_iff.mp h
  obtain ⟨whenFalse, hwhenFalse, h⟩ := Option.bind_eq_some_iff.mp h
  cases h
  refine ⟨hlhs, hrhs, hwhenTrue, hwhenFalse, rfl, rfl, ?_, ?_, rfl⟩
  · exact Nat.add_assoc _ _ _
  · simp only [ScalarDoubleSelect.falseEnd, ScalarDoubleSelect.trueEnd,
      ScalarDoubleSelect.sharedEnd, Nat.add_assoc]

variable [Inhabited V] {ops : DoubleOperations V} {inputs : Nat → V} {values : List V}
  {arguments : List (ScalarDoubleSource V)} {hasSelect : Bool} {leafStart count : Nat}

/-- The arguments have their values in front of the call. -/
def HoldsArguments (inputs : Nat → V) (base : DoublePath V)
    (arguments : List (ScalarDoubleSource V)) (values : List V) : Prop :=
  List.Forall₂ (fun argument value => argument.eval inputs base = .ok value) arguments values

theorem argument_eval {argument : ScalarDoubleSource V}
    (harguments : HoldsArguments inputs base arguments values)
    (h : arguments[index]? = some argument) :
    argument.eval inputs base = .ok (values.getD index default) := by
  induction harguments generalizing index with
  | nil => cases h
  | cons hhead _ ih =>
    cases index with
    | zero =>
      cases h
      exact hhead
    | succ index => exact ih h

/-- Where the source of a callee has a value, its place in the flat program has it too. -/
theorem remapLeaf_eval {source source' : ScalarDoubleSource V}
    (harguments : HoldsArguments inputs base arguments values)
    (hpath : LeafPath leafStart base leaf path)
    (h : remapLeafSource arguments leafStart count hasSelect source = some source') :
    Follows (· = .notExecuted) Eq (source.eval (fun index => values.getD index default) leaf)
      (source'.eval inputs path) := by
  cases source with
  | input index =>
    rw [source_eval_extends hpath.base (argument_eval harguments h)]
    rfl
  | constant value =>
    cases h
    rfl
  | temporary index =>
    simp only [remapLeafSource] at h
    split at h
    · cases h
      simp only [ScalarDoubleSource.eval]
      cases hvalue : leaf.temporaries index with
      | none => exact .inl rfl
      | some value =>
        rw [hpath.temporaries index value hvalue]
        rfl
    · cases h
  | selection =>
    simp only [remapLeafSource] at h
    split at h
    · cases h
      simp only [ScalarDoubleSource.eval]
      cases hvalue : leaf.selection with
      | none => exact .inl rfl
      | some value =>
        rw [hpath.selection value hvalue]
        rfl
    · cases h

theorem remapOp_eval {operation operation' : ScalarDoubleOp V}
    (harguments : HoldsArguments inputs base arguments values)
    (hpath : LeafPath leafStart base leaf path)
    (h : remapOp (remapLeafSource arguments leafStart count hasSelect) operation =
      some operation') :
    Follows (· = .notExecuted) Eq
      (operation.eval ops (fun index => values.getD index default) leaf)
      (operation'.eval ops inputs path) := by
  obtain ⟨lhs, hlhs, h⟩ := Option.bind_eq_some_iff.mp h
  obtain ⟨rhs, hrhs, h⟩ := Option.bind_eq_some_iff.mp h
  cases h
  unfold ScalarDoubleOp.eval
  apply Follows.bind (remapLeaf_eval harguments hpath hlhs)
  rintro a _ - - rfl
  apply Follows.bind (remapLeaf_eval harguments hpath hrhs)
  rintro b _ - - rfl
  cases ops.combine operation.kind a b with
  | none => exact .inr rfl
  | some value => rfl

/-- The operations of a callee run the same behind the operations in front of the call. -/
theorem remapOperations_eval {operations operations' : List (ScalarDoubleOp V)}
    (harguments : HoldsArguments inputs base arguments values)
    (hbase : ∀ other, leafStart ≤ other → base.temporaries other = none)
    (hpath : LeafPath leafStart base leaf path)
    (h : List.Forall₂ (fun operation operation' =>
      remapOp (remapLeafSource arguments leafStart count hasSelect) operation = some operation')
      operations operations') :
    Follows (· = .notExecuted) (LeafPath leafStart base)
      (evalOperations ops (fun index => values.getD index default) operations index leaf)
      (evalOperations ops inputs operations' (leafStart + index) path) := by
  induction h generalizing index leaf path with
  | nil => exact hpath
  | cons hhead _ ih =>
    unfold evalOperations
    apply Follows.bind (remapOp_eval harguments hpath hhead)
    rintro value _ - - rfl
    exact ih (hpath.write hbase index value)

theorem remapRange_eval {front operations operations' : List (ScalarDoubleOp V)}
    (harguments : HoldsArguments inputs base arguments values)
    (hbase : ∀ other, front.length ≤ other → base.temporaries other = none)
    (hpath : LeafPath front.length base leaf path)
    (h : List.Forall₂ (fun operation operation' =>
      remapOp (remapLeafSource arguments front.length count hasSelect) operation = some operation')
      operations operations') :
    Follows (· = .notExecuted) (LeafPath front.length base)
      (evalRange ops (fun index => values.getD index default) operations first last leaf)
      (evalRange ops inputs (front ++ operations') (front.length + first) (front.length + last)
        path) := by
  unfold evalRange
  rw [List.drop_append, Nat.add_sub_add_left, Nat.add_sub_cancel_left,
    List.drop_eq_nil_of_le (Nat.le_add_right _ _), List.nil_append]
  exact remapOperations_eval harguments hbase hpath
    (List.forall₂_take _ (List.forall₂_drop _ h))

theorem remapArm_eval {front operations operations' : List (ScalarDoubleOp V)}
    {source source' : ScalarDoubleSource V}
    (harguments : HoldsArguments inputs base arguments values)
    (hbase : ∀ other, front.length ≤ other → base.temporaries other = none)
    (hselection : base.selection = none) (hpath : LeafPath front.length base leaf path)
    (h : List.Forall₂ (fun operation operation' =>
      remapOp (remapLeafSource arguments front.length count hasSelect) operation = some operation')
      operations operations')
    (hsource : remapLeafSource arguments front.length count hasSelect source = some source') :
    Follows (· = .notExecuted) (LeafPath front.length base)
      (evalArm ops (fun index => values.getD index default) operations first last source leaf)
      (evalArm ops inputs (front ++ operations') (front.length + first) (front.length + last)
        source' path) := by
  unfold evalArm
  apply Follows.bind (remapRange_eval harguments hbase hpath h)
  intro leaf' path' _ _ hpath'
  apply Follows.bind (remapLeaf_eval harguments hpath' hsource)
  rintro value _ - - rfl
  exact hpath'.select hselection value

theorem remapBranch_eval {front operations operations' : List (ScalarDoubleOp V)}
    {select select' : ScalarDoubleSelect V}
    (harguments : HoldsArguments inputs base arguments values)
    (hbase : ∀ other, front.length ≤ other → base.temporaries other = none)
    (hselection : base.selection = none) (hpath : LeafPath front.length base leaf path)
    (h : List.Forall₂ (fun operation operation' =>
      remapOp (remapLeafSource arguments front.length count hasSelect) operation = some operation')
      operations operations')
    (hselect : remapSelect (remapLeafSource arguments front.length count hasSelect) front.length
      select = some select') :
    Follows (· = .notExecuted) (LeafPath front.length base)
      (select.branch ops (fun index => values.getD index default) operations leaf)
      (select'.branch ops inputs (front ++ operations') path) := by
  obtain ⟨hlhs, hrhs, hwhenTrue, hwhenFalse, hkind, hshared, htrue, hfalse, -⟩ :=
    remapSelect_eq hselect
  unfold ScalarDoubleSelect.branch
  rw [hkind, hshared, htrue, hfalse]
  apply Follows.bind (remapLeaf_eval harguments hpath hlhs)
  rintro a _ - - rfl
  apply Follows.bind (remapLeaf_eval harguments hpath hrhs)
  rintro b _ - - rfl
  split
  · exact remapArm_eval harguments hbase hselection hpath h hwhenTrue
  · exact remapArm_eval harguments hbase hselection hpath h hwhenFalse

end Leaf

section Flat

variable {ops : DoubleOperations V} {inputs : Nat → V}

theorem evalRange_append {front back : List (ScalarDoubleOp V)} (hlast : last ≤ front.length)
    (path : DoublePath V) :
    evalRange ops inputs (front ++ back) first last path =
      evalRange ops inputs front first last path := by
  unfold evalRange
  congr 1
  rw [List.drop_append, List.take_append_of_le_length]
  rw [List.length_drop]
  omega

theorem evalArm_append {front back : List (ScalarDoubleOp V)} (hlast : last ≤ front.length)
    (source : ScalarDoubleSource V) (path : DoublePath V) :
    evalArm ops inputs (front ++ back) first last source path =
      evalArm ops inputs front first last source path := by
  unfold evalArm
  rw [evalRange_append hlast]

theorem branch_append {front back : List (ScalarDoubleOp V)} {select : ScalarDoubleSelect V}
    (hinside : select.falseEnd ≤ front.length) (path : DoublePath V) :
    select.branch ops inputs (front ++ back) path = select.branch ops inputs front path := by
  have htrue : select.trueEnd ≤ front.length := (Nat.le_add_right _ _).trans hinside
  unfold ScalarDoubleSelect.branch
  rw [evalArm_append hinside, evalArm_append htrue]

/-- Operations behind a program whose arms are merged run behind it. -/
theorem runProgram_append (front back : List (ScalarDoubleOp V))
    {select : Option (ScalarDoubleSelect V)}
    (hselect : ∀ merged ∈ select, merged.mergeResult = true ∧ merged.falseEnd ≤ front.length) :
    runProgram ops inputs (front ++ back) select =
      runProgram ops inputs front select >>= evalOperations ops inputs back front.length := by
  cases select with
  | none =>
    unfold runProgram
    rw [evalOperations_append, Nat.zero_add]
  | some select =>
    obtain ⟨hmerge, hinside⟩ := hselect select rfl
    have hshared : select.sharedEnd ≤ front.length :=
      ((Nat.le_add_right _ _).trans (Nat.le_add_right _ _)).trans hinside
    have hsuffix : ∀ path, evalOperations ops inputs ((front ++ back).drop select.falseEnd)
        select.falseEnd path =
        evalOperations ops inputs (front.drop select.falseEnd) select.falseEnd path >>=
          evalOperations ops inputs back front.length := by
      intro path
      rw [List.drop_append_of_le_length hinside, evalOperations_append, List.length_drop,
        Nat.add_sub_cancel' hinside]
    simp only [runProgram, hmerge, if_true, bind_assoc, evalRange_append hshared,
      branch_append hinside, hsuffix]

/-- A conditional behind unconditional operations takes them into its shared operations. -/
theorem runProgram_conditional (front back : List (ScalarDoubleOp V))
    {select : ScalarDoubleSelect V} (hmerge : select.mergeResult = true)
    (hshared : select.sharedEnd = front.length + sharedEnd)
    (hfalse : select.falseEnd = front.length + falseEnd) :
    runProgram ops inputs (front ++ back) (some select) =
      (runProgram ops inputs front none >>= fun path => do
        let path ← evalOperations ops inputs (back.take sharedEnd) front.length path
        let path ← select.branch ops inputs (front ++ back) path
        evalOperations ops inputs (back.drop falseEnd) (front.length + falseEnd) path) := by
  have hrange : ∀ path, evalRange ops inputs (front ++ back) 0 select.sharedEnd path =
      evalOperations ops inputs front 0 path >>=
        evalOperations ops inputs (back.take sharedEnd) front.length := by
    intro path
    unfold evalRange
    rw [List.drop_zero, Nat.sub_zero, hshared, List.take_append, List.take_of_length_le
      (Nat.le_add_right _ _), Nat.add_sub_cancel_left, evalOperations_append, Nat.zero_add]
  have hdrop : (front ++ back).drop (front.length + falseEnd) = back.drop falseEnd := by
    rw [List.drop_append, List.drop_eq_nil_of_le (Nat.le_add_right _ _),
      Nat.add_sub_cancel_left, List.nil_append]
  simp only [runProgram, hmerge, if_true, bind_assoc, hrange, hdrop, hfalse]

end Flat

section Composed

variable {ops : DoubleOperations V} {inputs : Nat → V} {state : Composition V}
  {composed path : DoublePath V}

/-- The path of the flat program has the results of the composed operations where the composition
says, and nothing behind its operations. -/
structure Composed (inputs : Nat → V) (state : Composition V) (composed path : DoublePath V) :
    Prop where
  results : ∀ index value, composed.temporaries index = some value →
    ∃ source, state.results[index]? = some source ∧ source.eval inputs path = .ok value
  executed : ∀ index, index < state.results.length → composed.temporaries index ≠ none
  fresh : ∀ index, state.operations.length ≤ index → path.temporaries index = none
  selection : state.mergedSelect = none → path.selection = none

/-- The conditional of a composition is merged and inside its operations. -/
def Composition.Merged (state : Composition V) : Prop :=
  ∀ select ∈ state.mergedSelect, select.mergeResult = true ∧
    select.falseEnd ≤ state.operations.length

/-- A composed operation adds its result to the results in front of it. -/
theorem Composed.extend (h : Composed inputs state composed path)
    {source : ScalarDoubleSource V} {operations : List (ScalarDoubleOp V)}
    {select : Option (ScalarDoubleSelect V)} (hextends : path.Extends path')
    (hsource : source.eval inputs path' = .ok value)
    (hfresh : ∀ index, operations.length ≤ index → path'.temporaries index = none)
    (hselection : select = none → path'.selection = none) :
    Composed inputs ⟨operations, state.results ++ [source], select⟩
      (composed.write state.results.length value) path' := by
  refine ⟨?_, ?_, hfresh, hselection⟩
  · intro index result hresult
    by_cases heq : index = state.results.length
    · subst heq
      rw [DoublePath.write_self] at hresult
      cases hresult
      exact ⟨source, List.getElem?_concat_length, hsource⟩
    · rw [DoublePath.write_other _ _ heq] at hresult
      obtain ⟨old, hold, heval⟩ := h.results index result hresult
      have hinside := (List.getElem?_eq_some_iff.mp hold).1
      refine ⟨old, ?_, source_eval_extends hextends heval⟩
      rw [List.getElem?_append_left hinside, hold]
  · intro index hindex
    rw [List.length_append, List.length_singleton] at hindex
    by_cases heq : index = state.results.length
    · subst heq
      simp
    · rw [DoublePath.write_other _ _ heq]
      exact h.executed index (by omega)

/-- A source of the plan itself is not the selection. -/
def ScalarDoubleSource.Plain : ScalarDoubleSource V → Prop
  | .selection => False
  | _ => True

theorem composedSource_eval {source source' : ScalarDoubleSource V} (hplain : source.Plain)
    (h : Composed inputs state composed path)
    (hsource : remapComposedSource source state.results = some source') :
    ∃ value, source.eval inputs composed = .ok value ∧ source'.eval inputs path = .ok value := by
  cases source with
  | input index =>
    cases hsource
    exact ⟨_, rfl, rfl⟩
  | constant value =>
    cases hsource
    exact ⟨_, rfl, rfl⟩
  | temporary index =>
    have hinside : index < state.results.length := (List.getElem?_eq_some_iff.mp hsource).1
    obtain ⟨value, hvalue⟩ := Option.ne_none_iff_exists'.mp (h.executed index hinside)
    obtain ⟨found, hfound, heval⟩ := h.results index value hvalue
    cases hsource.symm.trans hfound
    exact ⟨value, executed_eq_ok.mpr hvalue, heval⟩
  | selection => exact hplain.elim

theorem composedArguments_eval {arguments arguments' : List (ScalarDoubleSource V)}
    (hplain : ∀ argument ∈ arguments, argument.Plain)
    (h : Composed inputs state composed path)
    (harguments : List.Forall₂ (fun argument argument' =>
      remapComposedSource argument state.results = some argument') arguments arguments') :
    ∃ values, arguments.mapM (·.eval inputs composed) = .ok values ∧
      HoldsArguments inputs path arguments' values := by
  induction harguments with
  | nil => exact ⟨[], rfl, .nil⟩
  | cons hhead _ ih =>
    obtain ⟨hfirst, hrest⟩ := List.forall_mem_cons.mp hplain
    obtain ⟨value, hvalue, hvalue'⟩ := composedSource_eval hfirst h hhead
    obtain ⟨values, hvalues, hholds⟩ := ih hrest
    refine ⟨value :: values, ?_, .cons hvalue' hholds⟩
    rw [List.mapM_cons, hvalue, hvalues]
    rfl

/-- Operations behind the program keep its path. -/
theorem evalOperations_extends {front back : List (ScalarDoubleOp V)}
    (hfresh : ∀ index, front.length ≤ index → path.temporaries index = none)
    (h : evalOperations ops inputs back front.length path = .ok path') :
    path.Extends path' ∧ path'.selection = path.selection ∧
      ∀ index, (front ++ back).length ≤ index → path'.temporaries index = none := by
  obtain ⟨hselection, htemporaries⟩ := evalOperations_keeps h
  refine ⟨⟨?_, ?_⟩, hselection, ?_⟩
  · intro index value hvalue
    have hinside : index < front.length := by
      by_contra hbehind
      rw [hfresh index (Nat.le_of_not_lt hbehind)] at hvalue
      cases hvalue
    rw [htemporaries index (.inl hinside)]
    exact hvalue
  · intro value hvalue
    rw [hselection]
    exact hvalue
  · intro index hindex
    rw [List.length_append] at hindex
    rw [htemporaries index (.inr hindex)]
    exact hfresh index (by omega)

theorem branch_keeps {select : ScalarDoubleSelect V} {operations : List (ScalarDoubleOp V)}
    (hinside : select.falseEnd ≤ operations.length)
    (h : select.branch ops inputs operations path = .ok path') :
    ∀ index, operations.length ≤ index → path'.temporaries index = path.temporaries index := by
  have hshared : select.sharedEnd ≤ select.trueEnd := Nat.le_add_right _ _
  have htrue : select.trueEnd ≤ select.falseEnd := Nat.le_add_right _ _
  obtain ⟨lhs, -, h⟩ := except_bind_eq_ok.mp h
  obtain ⟨rhs, -, h⟩ := except_bind_eq_ok.mp h
  intro index hindex
  split at h
  · exact evalArm_keeps hshared (htrue.trans hinside) h index (by omega)
  · exact evalArm_keeps htrue hinside h index (by omega)

/-- What a call with a conditional callee runs behind unconditional operations. -/
def conditionalCall (ops : DoubleOperations V) (inputs : Nat → V)
    (front back : List (ScalarDoubleOp V)) (select select' : ScalarDoubleSelect V)
    (path : DoublePath V) : Except DoubleFault (DoublePath V) := do
  let path ← evalOperations ops inputs (back.take select.sharedEnd) front.length path
  let path ← select'.branch ops inputs (front ++ back) path
  evalOperations ops inputs (back.drop select.falseEnd) (front.length + select.falseEnd) path

theorem conditionalCall_fresh {front back : List (ScalarDoubleOp V)}
    {select select' : ScalarDoubleSelect V}
    (hfresh : ∀ index, front.length ≤ index → path.temporaries index = none)
    (hinside : select.falseEnd ≤ back.length)
    (hfalse : select'.falseEnd = front.length + select.falseEnd)
    (h : conditionalCall ops inputs front back select select' path = .ok path') :
    ∀ index, (front ++ back).length ≤ index → path'.temporaries index = none := by
  obtain ⟨shared, hshared, h⟩ := except_bind_eq_ok.mp h
  obtain ⟨branched, hbranched, h⟩ := except_bind_eq_ok.mp h
  intro index hindex
  have hlength : (front ++ back).length = front.length + back.length := List.length_append
  have hsuffix := (evalOperations_keeps h).2 index (.inr (by rw [List.length_drop]; omega))
  have hbranch := branch_keeps (by omega) hbranched index hindex
  have hfirst := (evalOperations_keeps hshared).2 index
    (.inr (by rw [List.length_take]; omega))
  rw [hsuffix, hbranch, hfirst]
  exact hfresh index (by omega)

theorem start_leafPath (leafStart : Nat) (path : DoublePath V) :
    LeafPath leafStart path .start path :=
  ⟨nofun, nofun, ⟨fun _ _ h => h, fun _ h => h⟩⟩

theorem source_eval_error {source : ScalarDoubleSource V}
    (h : source.eval inputs path = .error fault) : fault = .notExecuted := by
  have hexecuted : ∀ {value : Option V}, executed value = .error fault → fault = .notExecuted := by
    intro value hvalue
    cases value with
    | none =>
      cases hvalue
      rfl
    | some v => cases hvalue
  cases source with
  | input index => cases h
  | constant value => cases h
  | temporary index => exact hexecuted h
  | selection => exact hexecuted h

variable [Inhabited V] {callee : ResolvedScalarDoubleProgram V} {values : List V}
  {arguments : List (ScalarDoubleSource V)} {front operations : List (ScalarDoubleOp V)}

/-- The program of a conditional callee against its place in the flat program. -/
theorem conditionalCall_follows {select select' : ScalarDoubleSelect V}
    (harguments : HoldsArguments inputs path arguments values)
    (hfresh : ∀ index, front.length ≤ index → path.temporaries index = none)
    (hselection : path.selection = none)
    (hoperations : List.Forall₂ (fun operation operation' =>
      remapOp (remapLeafSource arguments front.length count true) operation = some operation')
      callee.program.operations operations)
    (hselect : remapSelect (remapLeafSource arguments front.length count true) front.length
      select = some select')
    (hterminal : select.mergeResult = false →
      select.falseEnd = callee.program.operations.length) :
    Follows (· = .notExecuted) (LeafPath front.length path)
      (runProgram ops (fun index => values.getD index default) callee.program.operations
        (some select))
      (conditionalCall ops inputs front operations select select' path) := by
  simp only [runProgram, conditionalCall, evalRange, List.drop_zero, Nat.sub_zero]
  apply Follows.bind (remapOperations_eval harguments hfresh (start_leafPath _ path)
    (List.forall₂_take _ hoperations))
  intro leaf shared _ _ hshared
  apply Follows.bind (remapBranch_eval harguments hfresh hselection hshared hoperations hselect)
  intro leaf' branched _ _ hbranched
  cases hmerge : select.mergeResult with
  | true =>
    rw [if_pos rfl]
    exact remapOperations_eval harguments hfresh hbranched (List.forall₂_drop _ hoperations)
  | false =>
    have hend : operations.drop select.falseEnd = [] := by
      rw [hterminal hmerge, hoperations.length_eq]
      exact List.drop_length
    rw [hend]
    exact hbranched

/-- From the run of a callee to the value of the call, in its place. -/
theorem call_matches {rest : DoublePath V → Except DoubleFault (DoublePath V)}
    {result : ScalarDoubleSource V}
    (hvalid : callee.validateRegisterProgram maxInputs maxOps = .ok ())
    (harguments : HoldsArguments inputs path arguments values)
    (hfollows : Follows (· = .notExecuted) (LeafPath leafStart path)
      (runProgram ops (fun index => values.getD index default) callee.program.operations
        callee.select) (rest path))
    (hresult : remapLeafSource arguments leafStart count callee.select.isSome callee.result =
      some result) :
    Matches (· = .sideExit)
      (fun value path' => rest path = .ok path' ∧ path.Extends path' ∧
        result.eval inputs path' = .ok value)
      (callee.eval ops fun index => values.getD index default) (rest path) := by
  have hcall : Follows (· = .notExecuted)
      (fun value path' => rest path = .ok path' ∧ path.Extends path' ∧
        result.eval inputs path' = .ok value)
      (callee.eval ops fun index => values.getD index default) (rest path >>= pure) := by
    apply Follows.bind hfollows
    intro leaf path' _ hrest hpath
    have hvalue := remapLeaf_eval harguments hpath hresult
    cases hleaf : callee.result.eval (fun index => values.getD index default) leaf with
    | error fault => exact .inl (source_eval_error hleaf)
    | ok value =>
      rw [hleaf] at hvalue
      cases hflat : result.eval inputs path' with
      | ok value' =>
        rw [hflat] at hvalue
        obtain rfl : value = value' := hvalue
        exact ⟨hrest, hpath.base, hflat⟩
      | error fault =>
        rw [hflat] at hvalue
        exact hvalue.elim
  rw [bind_pure] at hcall
  apply Matches.of_follows hcall (validated_settles hvalid)
  rintro fault rfl
  exact nofun

end Composed

section Steps

variable {ops : DoubleOperations V} {inputs : Nat → V} {state state' : Composition V}
  {composed path : DoublePath V}

/-- None of the sources of a composed operation is the selection. -/
def ComposedScalarDoubleOp.Plain : ComposedScalarDoubleOp V → Prop
  | .arithmetic operation => operation.lhs.Plain ∧ operation.rhs.Plain
  | .call arguments => ∀ argument ∈ arguments, argument.Plain

/-- What one composed operation adds to the flat program: a piece that is run behind it and gives
the value of the operation. -/
structure Adds (ops : DoubleOperations V) (inputs : Nat → V) (state state' : Composition V)
    (value : DoublePath V → Except DoubleFault V)
    (rest : DoublePath V → Except DoubleFault (DoublePath V)) : Prop where
  run : runProgram ops inputs state'.operations state'.mergedSelect =
    runProgram ops inputs state.operations state.mergedSelect >>= rest
  merged : state'.Merged
  length : state'.results.length = state.results.length + 1
  step : ∀ {composed path}, Composed inputs state composed path →
    Matches (· = .sideExit)
      (fun value path' => Composed inputs state' (composed.write state.results.length value) path')
      (value composed) (rest path)

theorem Composition.Merged.append (hmerged : state.Merged) (more : List (ScalarDoubleOp V))
    (results : List (ScalarDoubleSource V)) :
    (⟨state.operations ++ more, results, state.mergedSelect⟩ : Composition V).Merged := by
  intro select hselect
  obtain ⟨hmerge, hinside⟩ := hmerged select hselect
  exact ⟨hmerge, hinside.trans (by rw [List.length_append]; exact Nat.le_add_right _ _)⟩

theorem write_extends (hfresh : path.temporaries index = none) (value : V) :
    path.Extends (path.write index value) := by
  constructor
  · intro other result hresult
    have hother : other ≠ index := by
      rintro rfl
      rw [hfresh] at hresult
      cases hresult
    rw [DoublePath.write_other _ _ hother]
    exact hresult
  · intro result hresult
    exact hresult

theorem arithmetic_adds {operation operation' : ScalarDoubleOp V} (hmerged : state.Merged)
    (hplain : operation.lhs.Plain ∧ operation.rhs.Plain)
    (hremap : remapOp (remapComposedSource · state.results) operation = some operation') :
    Adds ops inputs state
      ⟨state.operations ++ [operation'],
        state.results ++ [.temporary state.operations.length], state.mergedSelect⟩
      (operation.eval ops inputs)
      (evalOperations ops inputs [operation'] state.operations.length) := by
  refine ⟨runProgram_append _ _ hmerged, hmerged.append _ _, by simp, ?_⟩
  intro composed path h
  obtain ⟨lhs, hlhs, hremap⟩ := Option.bind_eq_some_iff.mp hremap
  obtain ⟨rhs, hrhs, hremap⟩ := Option.bind_eq_some_iff.mp hremap
  cases hremap
  obtain ⟨a, ha, ha'⟩ := composedSource_eval hplain.1 h hlhs
  obtain ⟨b, hb, hb'⟩ := composedSource_eval hplain.2 h hrhs
  simp only [ScalarDoubleOp.eval, evalOperations, ha, ha', hb, hb', bind, Except.bind]
  cases ops.combine operation.kind a b with
  | none => exact ⟨rfl, rfl⟩
  | some value =>
    apply h.extend (write_extends (h.fresh _ (le_refl _)) value)
    · exact executed_eq_ok.mpr (DoublePath.write_self _ _ _)
    · intro index hindex
      rw [List.length_append, List.length_singleton] at hindex
      rw [DoublePath.write_other _ _ (by omega)]
      exact h.fresh index (by omega)
    · exact h.selection

theorem remapResult_eq {callee : ResolvedScalarDoubleProgram V}
    {remap : ScalarDoubleSource V → Option (ScalarDoubleSource V)}
    (hselection : callee.select.isSome = true → remap .selection = some .selection) :
    remapResult remap callee = remap callee.result := by
  unfold remapResult ScalarDoubleFunctionPlan.result
  cases hselect : callee.select with
  | none => rfl
  | some select =>
    rw [hselect] at hselection
    cases hmerge : select.mergeResult with
    | true => simp only [hmerge, if_true]
    | false =>
      simp only [hmerge, Bool.false_eq_true, if_false]
      exact (hselection rfl).symm

variable [Inhabited V] {callee : ResolvedScalarDoubleProgram V}

theorem call_adds {arguments arguments' : List (ScalarDoubleSource V)}
    {operations : List (ScalarDoubleOp V)} {result : ScalarDoubleSource V}
    (hmerged : state.Merged) (hplain : ∀ argument ∈ arguments, argument.Plain)
    (hvalid : callee.validateRegisterProgram maxInputs maxOps = .ok ())
    (harguments : arguments.mapM (remapComposedSource · state.results) = some arguments')
    (hoperations : callee.program.operations.mapM (remapOp (remapLeafSource arguments'
      state.operations.length count callee.select.isSome)) = some operations)
    (hresult : remapLeafSource arguments' state.operations.length count callee.select.isSome
      callee.result = some result)
    (hselect : callee.select = none) :
    Adds ops inputs state
      ⟨state.operations ++ operations, state.results ++ [result], state.mergedSelect⟩
      (fun path => (ComposedScalarDoubleOp.call arguments).eval ops inputs (some callee) path)
      (evalOperations ops inputs operations state.operations.length) := by
  refine ⟨runProgram_append _ _ hmerged, hmerged.append _ _, by simp, ?_⟩
  intro composed path h
  obtain ⟨values, hvalues, hholds⟩ :=
    composedArguments_eval hplain h (forall₂_of_mapM harguments)
  have hfollows : Follows (· = .notExecuted) (LeafPath state.operations.length path)
      (runProgram ops (fun index => values.getD index default) callee.program.operations
        callee.select)
      (evalOperations ops inputs operations state.operations.length path) := by
    rw [hselect]
    exact remapOperations_eval hholds h.fresh (start_leafPath _ path)
      (forall₂_of_mapM hoperations)
  simp only [ComposedScalarDoubleOp.eval, hvalues]
  apply Matches.mono (call_matches hvalid hholds hfollows hresult)
  rintro value path' ⟨hrest, hextends, hvalue⟩
  obtain ⟨-, hselection, hfresh⟩ := evalOperations_extends h.fresh hrest
  exact h.extend hextends hvalue hfresh fun hnone => hselection.trans (h.selection hnone)

theorem conditional_adds {arguments arguments' : List (ScalarDoubleSource V)}
    {operations : List (ScalarDoubleOp V)} {result : ScalarDoubleSource V}
    {select select' : ScalarDoubleSelect V} (hplain : ∀ argument ∈ arguments, argument.Plain)
    (hvalid : callee.validateRegisterProgram maxInputs maxOps = .ok ())
    (harguments : arguments.mapM (remapComposedSource · state.results) = some arguments')
    (hoperations : callee.program.operations.mapM (remapOp (remapLeafSource arguments'
      state.operations.length count callee.select.isSome)) = some operations)
    (hresult : remapLeafSource arguments' state.operations.length count callee.select.isSome
      callee.result = some result)
    (hselect : callee.select = some select) (hnone : state.mergedSelect = none)
    (hremap : remapSelect (remapLeafSource arguments' state.operations.length count
      callee.select.isSome) state.operations.length select = some select') :
    Adds ops inputs state
      ⟨state.operations ++ operations, state.results ++ [result], some select'⟩
      (fun path => (ComposedScalarDoubleOp.call arguments).eval ops inputs (some callee) path)
      (conditionalCall ops inputs state.operations operations select select') := by
  obtain ⟨-, -, -, -, -, hshared, -, hfalse, hmerge⟩ := remapSelect_eq hremap
  obtain ⟨hchecked, hterminal⟩ := validated_select hvalid hselect
  have hforall := forall₂_of_mapM hoperations
  have hinside : select.falseEnd ≤ operations.length := by
    rw [← hforall.length_eq]
    exact hchecked.inside
  constructor
  · rw [hnone]
    exact runProgram_conditional _ _ hmerge hshared hfalse
  · rintro _ ⟨⟩
    refine ⟨hmerge, ?_⟩
    rw [hfalse, List.length_append]
    omega
  · simp
  · intro composed path h
    obtain ⟨values, hvalues, hholds⟩ :=
      composedArguments_eval hplain h (forall₂_of_mapM harguments)
    have hfollows : Follows (· = .notExecuted) (LeafPath state.operations.length path)
        (runProgram ops (fun index => values.getD index default) callee.program.operations
          callee.select)
        (conditionalCall ops inputs state.operations operations select select' path) := by
      rw [hselect] at hforall hremap ⊢
      apply conditionalCall_follows hholds h.fresh (h.selection hnone) hforall hremap
      intro hfalseMerge
      rw [hfalseMerge] at hterminal
      exact hterminal
    simp only [ComposedScalarDoubleOp.eval, hvalues]
    apply Matches.mono (call_matches hvalid hholds hfollows hresult)
    rintro value path' ⟨hrest, hextends, hvalue⟩
    exact h.extend hextends hvalue (conditionalCall_fresh h.fresh hinside hfalse hrest) nofun

theorem composeStep_adds (ops : DoubleOperations V) (inputs : Nat → V)
    {operation : ComposedScalarDoubleOp V}
    {resolved : Option (ResolvedScalarDoubleProgram V)} (hmerged : state.Merged)
    (hplain : operation.Plain)
    (hvalid : ∀ callee ∈ resolved, ∃ maxInputs maxOps,
      callee.validateRegisterProgram maxInputs maxOps = .ok ())
    (h : composeStep resolved state operation = some state') :
    ∃ rest, Adds ops inputs state state'
      (fun path => operation.eval ops inputs resolved path) rest := by
  cases operation with
  | arithmetic operation =>
    obtain ⟨-, h⟩ := Option.ite_none_left_eq_some.mp h
    obtain ⟨operation', hremap, h⟩ := Option.bind_eq_some_iff.mp h
    cases h
    exact ⟨_, arithmetic_adds hmerged hplain hremap⟩
  | call arguments =>
    obtain ⟨callee, hcallee, h⟩ := Option.bind_eq_some_iff.mp h
    obtain ⟨maxInputs, maxOps, hcalleeValid⟩ := hvalid callee hcallee
    obtain ⟨-, h⟩ := Option.ite_none_left_eq_some.mp h
    obtain ⟨-, h⟩ := Option.ite_none_left_eq_some.mp h
    obtain ⟨arguments', harguments, h⟩ := Option.bind_eq_some_iff.mp h
    obtain ⟨operations, hoperations, h⟩ := Option.bind_eq_some_iff.mp h
    obtain ⟨mergedSelect, hmergedSelect, h⟩ := Option.bind_eq_some_iff.mp h
    obtain ⟨result, hresult, h⟩ := Option.bind_eq_some_iff.mp h
    cases h
    subst hcallee
    rw [remapResult_eq fun hsome => by rw [remapLeafSource, if_pos hsome]] at hresult
    unfold mergeSelect at hmergedSelect
    cases hselect : callee.select with
    | none =>
      simp only [hselect] at hmergedSelect
      cases hmergedSelect
      exact ⟨_, call_adds hmerged hplain hcalleeValid harguments hoperations hresult hselect⟩
    | some select =>
      simp only [hselect] at hmergedSelect
      obtain ⟨hnone, hmergedSelect⟩ := Option.ite_none_left_eq_some.mp hmergedSelect
      obtain ⟨ranges, -, hmergedSelect⟩ := Option.bind_eq_some_iff.mp hmergedSelect
      obtain ⟨select', hselect', hmergedSelect⟩ := Option.bind_eq_some_iff.mp hmergedSelect
      cases hmergedSelect
      refine ⟨_, conditional_adds hplain hcalleeValid harguments hoperations hresult hselect ?_ ?_⟩
      · exact Option.not_isSome_iff_eq_none.mp hnone
      · rw [hselect]
        exact hselect'

/-- The flat program of a composition has the values of the composed operations. -/
theorem composeFrom_matches {resolvedPrograms : List (Option (ResolvedScalarDoubleProgram V))}
    {operations : List (ComposedScalarDoubleOp V)} {start : Except DoubleFault (DoublePath V)}
    (hmerged : state.Merged) (hplain : ∀ operation ∈ operations, operation.Plain)
    (hvalid : ∀ callee, some callee ∈ resolvedPrograms → ∃ maxInputs maxOps,
      callee.validateRegisterProgram maxInputs maxOps = .ok ())
    (h : composeFrom resolvedPrograms operations index state = some state')
    (hindex : state.results.length = index)
    (hstart : Matches (· = .sideExit) (Composed inputs state) start
      (runProgram ops inputs state.operations state.mergedSelect)) :
    state'.Merged ∧ Matches (· = .sideExit) (Composed inputs state')
      (start >>= evalComposedFrom ops inputs resolvedPrograms operations index)
      (runProgram ops inputs state'.operations state'.mergedSelect) := by
  induction operations generalizing index state start with
  | nil =>
    cases h
    refine ⟨hmerged, ?_⟩
    rw [← bind_pure start] at hstart
    exact hstart
  | cons operation operations ih =>
    subst hindex
    obtain ⟨middle, hmiddle, h⟩ := Option.bind_eq_some_iff.mp h
    obtain ⟨hhead, htail⟩ := List.forall_mem_cons.mp hplain
    have hcallee : ∀ callee ∈ resolvedPrograms[state.results.length]?.join, ∃ maxInputs maxOps,
        callee.validateRegisterProgram maxInputs maxOps = .ok () := by
      intro callee hjoin
      obtain hfound := Option.join_eq_some_iff.mp hjoin
      exact hvalid callee (List.mem_of_getElem? hfound)
    obtain ⟨rest, hadds⟩ := composeStep_adds ops inputs hmerged hhead hcallee hmiddle
    have hnext : Matches (· = .sideExit) (Composed inputs middle)
        (start >>= fun path =>
          operation.eval ops inputs resolvedPrograms[state.results.length]?.join path >>=
            fun value => pure (path.write state.results.length value))
        (runProgram ops inputs middle.operations middle.mergedSelect) := by
      rw [hadds.run]
      apply Matches.bind hstart
      intro composed path hcomposed
      rw [← bind_pure (rest path)]
      apply Matches.bind (hadds.step hcomposed)
      intro value path' hpath'
      exact hpath'
    obtain ⟨hmerged', hrun⟩ := ih hadds.merged htail h hadds.length hnext
    simp only [bind_assoc, pure_bind] at hrun
    exact ⟨hmerged', hrun⟩

/-- The flat program has the value of the composed operations in order, and side-exits exactly
where they do; no source of it refers to an operation that was not executed. -/
theorem composed_program_same (plan : ComposedScalarDoubleFunctionPlan V)
    (resolvedPrograms : List (Option (ResolvedScalarDoubleProgram V)))
    (hvalid : ∀ callee, some callee ∈ resolvedPrograms → ∃ maxInputs maxOps,
      callee.validateRegisterProgram maxInputs maxOps = .ok ())
    (hplain : ∀ operation ∈ plan.operations, operation.Plain) (houtput : plan.output.Plain)
    (h : composeScalarDoubleProgram plan resolvedPrograms = some program)
    (ops : DoubleOperations V) (inputs : Nat → V) :
    program.eval ops inputs = plan.eval ops inputs resolvedPrograms ∧
      program.eval ops inputs ≠ .error .notExecuted := by
  obtain ⟨-, h⟩ := Option.ite_none_left_eq_some.mp h
  obtain ⟨state, hstate, h⟩ := Option.bind_eq_some_iff.mp h
  obtain ⟨output, hremap, h⟩ := Option.bind_eq_some_iff.mp h
  cases h
  have hempty : Composed inputs ⟨[], [], none⟩ .start .start :=
    ⟨nofun, nofun, fun _ _ => rfl, fun _ => rfl⟩
  have hstart : Matches (· = .sideExit) (Composed inputs ⟨[], [], none⟩) (.ok .start)
      (runProgram ops inputs [] none) := hempty
  have hnone : (⟨[], [], none⟩ : Composition V).Merged := by
    intro select hselect
    cases hselect
  obtain ⟨hmerged, hrun⟩ := composeFrom_matches hnone hplain hvalid hstate rfl hstart
  have hresult : (⟨plan.publicArgs, ⟨state.operations, output⟩, state.mergedSelect⟩ :
      ScalarDoubleFunctionPlan V).result = output := by
    unfold ScalarDoubleFunctionPlan.result
    cases hselect : state.mergedSelect with
    | none => rfl
    | some select => simp only [(hmerged select hselect).1, if_true]
  have heval : Matches (· = .sideExit) Eq (plan.eval ops inputs resolvedPrograms)
      ((⟨plan.publicArgs, ⟨state.operations, output⟩, state.mergedSelect⟩ :
        ScalarDoubleFunctionPlan V).eval ops inputs) := by
    unfold ScalarDoubleFunctionPlan.eval ComposedScalarDoubleFunctionPlan.eval
    rw [hresult]
    apply Matches.bind hrun
    intro composed path hpath
    obtain ⟨value, hvalue, hvalue'⟩ := composedSource_eval houtput hpath hremap
    rw [hvalue, hvalue']
    rfl
  obtain ⟨heq, hsettles⟩ := heval.eq
  refine ⟨heq, ?_⟩
  intro hfault
  rw [hfault] at hsettles
  cases hsettles

end Steps

/-- A callee that doubles the lesser one of its arguments or takes one from the greater one. -/
def conditionalDoubleLeaf : ScalarDoubleFunctionPlan Int where
  publicArgs := 2
  program := ⟨[⟨.multiply, .input 0, .constant 2⟩, ⟨.subtract, .input 0, .constant 1⟩],
    .temporary 0⟩
  select := some {
    kind := .lessThan
    lhs := .input 0
    rhs := .input 1
    sharedOperationCount := 0
    whenTrueOperationCount := 1
    whenFalseOperationCount := 1
    whenTrue := .temporary 0
    whenFalse := .temporary 1
    mergeResult := false }

theorem composed_conditional_leaf : ∃ program,
    composeScalarDoubleProgram ⟨2, [.call [.input 0, .input 1],
      .arithmetic ⟨.add, .temporary 0, .constant 3⟩], .temporary 1⟩
      [some conditionalDoubleLeaf, none] = some program ∧
    program.eval intOperations (fun index => index + 8) = .ok 19 ∧
    program.eval intOperations (fun index => index + 8) ≠ .error .notExecuted := by
  obtain ⟨heval, hexecuted⟩ := composed_program_same ⟨2, [.call [.input 0, .input 1],
      .arithmetic ⟨.add, .temporary 0, .constant 3⟩], .temporary 1⟩
      [some conditionalDoubleLeaf, none]
    (by simpa using ⟨8, 8, by rfl⟩)
    (by simp [ComposedScalarDoubleOp.Plain, ScalarDoubleSource.Plain]) trivial rfl intOperations
    (fun index => index + 8)
  exact ⟨_, rfl, heval.trans (by rfl), hexecuted⟩

/-- A plan whose output is the selection is flattened to a program that reads it unpublished. -/
theorem composed_selection_not_executed : ∃ program,
    composeScalarDoubleProgram (V := Int) ⟨0, [], .selection⟩ [] = some program ∧
      program.eval intOperations (fun _ => 0) = .error .notExecuted :=
  ⟨⟨0, ⟨[], .selection⟩, none⟩, rfl, rfl⟩

end Rphp.Jit
