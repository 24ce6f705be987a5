import Rphp.Jit.Straight
import Rphp.Lib.Faults

namespace Rphp.Jit
open Rphp.Lib
set_option autoImplicit true

/-! Programs over Doubles. What a Double is stays open: `V` is any type of values. -/

inductive ScalarDoubleSource (V : Type) where
  | input (index : Nat)
  | constant (value : V)
  | temporary (index : Nat)
  | selection
  deriving DecidableEq, Repr

inductive ScalarDoubleOpKind where
  | add
  | subtract
  | multiply
  | divide
  deriving DecidableEq, Repr

structure ScalarDoubleOp (V : Type) where
  kind : ScalarDoubleOpKind
  lhs : ScalarDoubleSource V
  rhs : ScalarDoubleSource V
  deriving DecidableEq, Repr

structure ScalarDoubleProgram (V : Type) where
  operations : List (ScalarDoubleOp V)
  output : ScalarDoubleSource V
  deriving DecidableEq, Repr

/-- A predicate with two arms in ranges of their own; merged, it publishes one selection in front
of the common suffix. -/
structure ScalarDoubleSelect (V : Type) where
  kind : ScalarLongConditionKind
  lhs : ScalarDoubleSource V
  rhs : ScalarDoubleSource V
  sharedOperationCount : Nat
  whenTrueOperationCount : Nat
  whenFalseOperationCount : Nat
  whenTrue : ScalarDoubleSource V
  whenFalse : ScalarDoubleSource V
  mergeResult : Bool
  deriving DecidableEq

namespace ScalarDoubleSelect

def sharedEnd (select : ScalarDoubleSelect V) : Nat := select.sharedOperationCount

def trueEnd (select : ScalarDoubleSelect V) : Nat :=
  select.sharedEnd + select.whenTrueOperationCount

def falseEnd (select : ScalarDoubleSelect V) : Nat :=
  select.trueEnd + select.whenFalseOperationCount

def operationRanges (select : ScalarDoubleSelect V) (operationCount : Nat) :
    Option (Nat × Nat × Nat) :=
  if select.sharedEnd ≤ operationCount ∧ select.trueEnd ≤ operationCount ∧
      select.falseEnd ≤ operationCount then
    some (select.sharedEnd, select.trueEnd, select.falseEnd)
  else none

end ScalarDoubleSelect

structure ScalarDoubleFunctionPlan (V : Type) where
  publicArgs : Nat
  program : ScalarDoubleProgram V
  select : Option (ScalarDoubleSelect V)
  deriving DecidableEq

/-- What the operations and the comparisons do; only a division may leave the program. -/
structure DoubleOperations (V : Type) where
  add : V → V → V
  subtract : V → V → V
  multiply : V → V → V
  divide : V → V → Option V
  compare : ScalarLongConditionKind → V → V → Bool

def DoubleOperations.combine (ops : DoubleOperations V) : ScalarDoubleOpKind → V → V → Option V
  | .add, a, b => some (ops.add a b)
  | .subtract, a, b => some (ops.subtract a b)
  | .multiply, a, b => some (ops.multiply a b)
  | .divide, a, b => ops.divide a b

/-- The integers with their operations; the divisor zero leaves the program. -/
def intOperations : DoubleOperations Int where
  add := (· + ·)
  subtract := (· - ·)
  multiply := (· * ·)
  divide a b := if b = 0 then none else some (a / b)
  compare
    | .equal, a, b => a = b
    | .notEqual, a, b => a ≠ b
    | .lessThan, a, b => a < b
    | .lessThanOrEqual, a, b => a ≤ b

/-- Why an evaluation has no value: a division left it, or a source refers to an operation that
was not executed. -/
inductive DoubleFault where
  | sideExit
  | notExecuted
  deriving DecidableEq, Repr

/-- The results of the operations on the path taken, and the selection published on it. -/
structure DoublePath (V : Type) where
  temporaries : Nat → Option V
  selection : Option V

namespace DoublePath

def start : DoublePath V := ⟨fun _ => none, none⟩

def write (path : DoublePath V) (index : Nat) (value : V) : DoublePath V :=
  { path with
    temporaries := fun other => if other = index then some value else path.temporaries other }

def select (path : DoublePath V) (value : V) : DoublePath V := { path with selection := some value }

@[simp] theorem write_self (path : DoublePath V) (index : Nat) (value : V) :
    (path.write index value).temporaries index = some value :=
  if_pos rfl

theorem write_other (path : DoublePath V) (value : V) (h : other ≠ index) :
    (path.write index value).temporaries other = path.temporaries other :=
  if_neg h

end DoublePath

def executed : Option V → Except DoubleFault V
  | some value => .ok value
  | none => .error .notExecuted

section Evaluation

variable (ops : DoubleOperations V) (inputs : Nat → V)

def ScalarDoubleSource.eval (path : DoublePath V) : ScalarDoubleSource V → Except DoubleFault V
  | .input index => .ok (inputs index)
  | .constant value => .ok value
  | .temporary index => executed (path.temporaries index)
  | .selection => executed path.selection

def ScalarDoubleOp.eval (operation : ScalarDoubleOp V) (path : DoublePath V) :
    Except DoubleFault V := do
  let lhs ← operation.lhs.eval inputs path
  let rhs ← operation.rhs.eval inputs path
  match ops.combine operation.kind lhs rhs with
  | some value => return value
  | none => throw .sideExit

/-- The operations from an index on. -/
def evalOperations : List (ScalarDoubleOp V) → Nat → DoublePath V → Except DoubleFault (DoublePath V)
  | [], _, path => return path
  | operation :: operations, index, path => do
    let value ← operation.eval ops inputs path
    evalOperations operations (index + 1) (path.write index value)

/-- The operations of an index range of a program. -/
def evalRange (operations : List (ScalarDoubleOp V)) (first last : Nat) (path : DoublePath V) :
    Except DoubleFault (DoublePath V) :=
  evalOperations ops inputs ((operations.drop first).take (last - first)) first path

/-- One arm, with the selection that it publishes. -/
def evalArm (operations : List (ScalarDoubleOp V)) (first last : Nat)
    (source : ScalarDoubleSource V) (path : DoublePath V) :
    Except DoubleFault (DoublePath V) := do
  let path ← evalRange ops inputs operations first last path
  let value ← source.eval inputs path
  return path.select value

/-- The comparison and the selected arm. -/
def ScalarDoubleSelect.branch (select : ScalarDoubleSelect V)
    (operations : List (ScalarDoubleOp V)) (path : DoublePath V) :
    Except DoubleFault (DoublePath V) := do
  let lhs ← select.lhs.eval inputs path
  let rhs ← select.rhs.eval inputs path
  if ops.compare select.kind lhs rhs then
    evalArm ops inputs operations select.sharedEnd select.trueEnd select.whenTrue path
  else
    evalArm ops inputs operations select.trueEnd select.falseEnd select.whenFalse path

/-- A program without a conditional runs all its operations; with one, the shared operations, the
selected arm and, where the arms are merged, the common suffix. -/
def runProgram (operations : List (ScalarDoubleOp V)) :
    Option (ScalarDoubleSelect V) → Except DoubleFault (DoublePath V)
  | none => evalOperations ops inputs operations 0 .start
  | some select => do
    let path ← evalRange ops inputs operations 0 select.sharedEnd .start
    let path ← select.branch ops inputs operations path
    if select.mergeResult then
      evalOperations ops inputs (operations.drop select.falseEnd) select.falseEnd path
    else return path

/-- A terminal conditional ends with its selection. -/
def ScalarDoubleFunctionPlan.result (plan : ScalarDoubleFunctionPlan V) : ScalarDoubleSource V :=
  match plan.select with
  | none => plan.program.output
  | some select => if select.mergeResult then plan.program.output else .selection

def ScalarDoubleFunctionPlan.eval (plan : ScalarDoubleFunctionPlan V) : Except DoubleFault V := do
  let path ← runProgram ops inputs plan.program.operations plan.select
  plan.result.eval inputs path

end Evaluation

def validateScalarDoubleRegisterSource (source : ScalarDoubleSource V)
    (availableTemporaries inputCount : Nat) : Except String Unit :=
  match source with
  | .input index =>
    if inputCount ≤ index then .error "input index is outside the public ABI" else .ok ()
  | .temporary index =>
    if availableTemporaries ≤ index then .error "temporary is used before it is defined" else .ok ()
  | .selection => .error "selection is used before the conditional merge"
  | .constant _ => .ok ()

def validateScalarDoubleMergeEdgeSource (source : ScalarDoubleSource V)
    (sharedEnd suffixStart availableTemporaries inputCount : Nat) : Except String Unit :=
  match source with
  | .selection => .ok ()
  | .temporary index =>
    if index < sharedEnd ∨ (suffixStart ≤ index ∧ index < availableTemporaries) then
      validateScalarDoubleRegisterSource source availableTemporaries inputCount
    else .error "merge edge references a branch-only temporary"
  | _ => validateScalarDoubleRegisterSource source availableTemporaries inputCount

def validateScalarDoubleFalseEdgeSource (source : ScalarDoubleSource V)
    (sharedEnd falseStart availableTemporaries inputCount : Nat) : Except String Unit :=
  match source with
  | .temporary index =>
    if index < sharedEnd ∨ (falseStart ≤ index ∧ index < availableTemporaries) then
      validateScalarDoubleRegisterSource source availableTemporaries inputCount
    else .error "false edge references a true-edge temporary"
  | _ => validateScalarDoubleRegisterSource source availableTemporaries inputCount

/-- Check both operands of the operations from an index on. -/
def validateDoubleOperations (check : ScalarDoubleSource V → Nat → Except String Unit) :
    List (ScalarDoubleOp V) → Nat → Except String Unit
  | [], _ => .ok ()
  | operation :: operations, index => do
    check operation.lhs index
    check operation.rhs index
    validateDoubleOperations check operations (index + 1)

def validateRange (check : ScalarDoubleSource V → Nat → Except String Unit)
    (operations : List (ScalarDoubleOp V)) (first last : Nat) : Except String Unit :=
  validateDoubleOperations check ((operations.drop first).take (last - first)) first

/-- The dataflow of a program before a backend assigns registers. -/
def ScalarDoubleFunctionPlan.validateRegisterProgram (plan : ScalarDoubleFunctionPlan V)
    (maxInputs maxOperations : Nat) : Except String Unit := do
  let operations := plan.program.operations
  if maxInputs < plan.publicArgs then throw "too many public inputs for the register ABI"
  if maxOperations < operations.length then throw "too many operations for the register ABI"
  let register := fun source available =>
    validateScalarDoubleRegisterSource source available plan.publicArgs
  match plan.select with
  | none =>
    validateDoubleOperations register operations 0
    register plan.program.output operations.length
  | some select =>
    match select.operationRanges operations.length with
    | none => throw "conditional operation range is outside the program"
    | some (sharedEnd, trueEnd, falseEnd) =>
      let falseEdge := fun source available =>
        validateScalarDoubleFalseEdgeSource source sharedEnd trueEnd available plan.publicArgs
      let mergeEdge := fun source available =>
        validateScalarDoubleMergeEdgeSource source sharedEnd falseEnd available plan.publicArgs
      validateRange register operations 0 sharedEnd
      register select.lhs sharedEnd
      register select.rhs sharedEnd
      validateRange register operations sharedEnd trueEnd
      register select.whenTrue trueEnd
      validateRange falseEdge operations trueEnd falseEnd
      falseEdge select.whenFalse falseEnd
      if !select.mergeResult then
        if falseEnd = operations.length then return ()
        else throw "terminal conditional has a common continuation"
      else
        validateDoubleOperations mergeEdge (operations.drop falseEnd) falseEnd
        mergeEdge plan.program.output operations.length

section Validated

variable {ops : DoubleOperations V} {inputs : Nat → V} {path : DoublePath V}

/-- The only fault that a validated program has. -/
def OnlySideExit (P : α → Prop) (x : Except DoubleFault α) : Prop :=
  Settles (· = DoubleFault.sideExit) P x

/-- What a source may refer to. -/
def ScalarDoubleSource.Refers (available : Nat → Prop) (hasSelection : Prop) :
    ScalarDoubleSource V → Prop
  | .temporary index => available index
  | .selection => hasSelection
  | _ => True

/-- A path has executed the operations that may be referred to. -/
structure DoublePath.Has (path : DoublePath V) (available : Nat → Prop) (hasSelection : Prop) :
    Prop where
  temporaries : ∀ index, available index → path.temporaries index ≠ none
  selection : hasSelection → path.selection ≠ none

theorem executed_ok {value : Option V} (h : value ≠ none) : ∃ v, executed value = .ok v := by
  cases value with
  | none => exact absurd rfl h
  | some v => exact ⟨v, rfl⟩

theorem source_eval_ok (inputs : Nat → V) {source : ScalarDoubleSource V}
    (hrefers : source.Refers available hasSelection) (hhas : path.Has available hasSelection) :
    ∃ v, source.eval inputs path = .ok v := by
  cases source with
  | input index => exact ⟨_, rfl⟩
  | constant value => exact ⟨_, rfl⟩
  | temporary index => exact executed_ok (hhas.temporaries index hrefers)
  | selection => exact executed_ok (hhas.selection hrefers)

theorem DoublePath.Has.mono (hhas : path.Has available hasSelection)
    (havailable : ∀ index, available' index → available index)
    (hselection : hasSelection' → hasSelection) : path.Has available' hasSelection' :=
  ⟨fun index h => hhas.temporaries index (havailable index h),
    fun h => hhas.selection (hselection h)⟩

theorem operation_settles {operation : ScalarDoubleOp V}
    (hlhs : operation.lhs.Refers available hasSelection)
    (hrhs : operation.rhs.Refers available hasSelection)
    (hhas : path.Has available hasSelection) :
    OnlySideExit (fun _ => True) (operation.eval ops inputs path) := by
  obtain ⟨lhs, hlhs⟩ := source_eval_ok inputs hlhs hhas
  obtain ⟨rhs, hrhs⟩ := source_eval_ok inputs hrhs hhas
  unfold ScalarDoubleOp.eval
  rw [hlhs, hrhs]
  change OnlySideExit _ (match ops.combine operation.kind lhs rhs with
    | some value => pure value
    | none => throw .sideExit)
  cases ops.combine operation.kind lhs rhs with
  | none => exact rfl
  | some value => trivial

/-- A check that admits only what may be referred to at its place. -/
def Admits (check : ScalarDoubleSource V → Nat → Except String Unit)
    (available : Nat → Nat → Prop) (hasSelection : Prop) : Prop :=
  ∀ source index, check source index = .ok () → source.Refers (available index) hasSelection

theorem evalOperations_settles {operations : List (ScalarDoubleOp V)}
    {available : Nat → Nat → Prop} (hadmits : Admits check available hasSelection)
    (hnext : ∀ index other, available (index + 1) other → other = index ∨ available index other)
    (hvalid : validateDoubleOperations check operations index = .ok ())
    (hhas : path.Has (available index) hasSelection) :
    OnlySideExit (fun result => result.Has (available (index + operations.length)) hasSelection)
      (evalOperations ops inputs operations index path) := by
  induction operations generalizing index path with
  | nil => exact hhas
  | cons operation operations ih =>
    obtain ⟨_, hlhs, hvalid⟩ := except_bind_eq_ok.mp hvalid
    obtain ⟨_, hrhs, hvalid⟩ := except_bind_eq_ok.mp hvalid
    unfold evalOperations
    apply Settles.bind (operation_settles (hadmits _ _ hlhs) (hadmits _ _ hrhs) hhas)
    intro value _
    rw [List.length_cons, Nat.add_comm operations.length, ← Nat.add_assoc]
    apply ih hvalid
    constructor
    · intro other hother
      by_cases heq : other = index
      · subst heq
        simp
      · rw [DoublePath.write_other _ _ heq]
        obtain hhere | hbefore := hnext index other hother
        · exact absurd hhere heq
        · exact hhas.temporaries other hbefore
    · exact hhas.selection

theorem register_admits (inputCount : Nat) :
    Admits (fun (source : ScalarDoubleSource V) available =>
      validateScalarDoubleRegisterSource source available inputCount)
      (fun index other => other < index) False := by
  intro source index h
  cases source with
  | input other => trivial
  | constant value => trivial
  | temporary other =>
    simp only [validateScalarDoubleRegisterSource] at h
    split at h
    · cases h
    · exact Nat.lt_of_not_le ‹_›
  | selection => cases h

theorem falseEdge_admits (sharedEnd falseStart inputCount : Nat) :
    Admits (fun (source : ScalarDoubleSource V) available =>
      validateScalarDoubleFalseEdgeSource source sharedEnd falseStart available inputCount)
      (fun index other => other < sharedEnd ∨ (falseStart ≤ other ∧ other < index)) False := by
  intro source index h
  cases source with
  | input other => trivial
  | constant value => trivial
  | temporary other =>
    simp only [validateScalarDoubleFalseEdgeSource] at h
    split at h
    · assumption
    · cases h
  | selection => cases h

theorem mergeEdge_admits (sharedEnd suffixStart inputCount : Nat) :
    Admits (fun (source : ScalarDoubleSource V) available =>
      validateScalarDoubleMergeEdgeSource source sharedEnd suffixStart available inputCount)
      (fun index other => other < sharedEnd ∨ (suffixStart ≤ other ∧ other < index)) True := by
  intro source index h
  cases source with
  | input other => trivial
  | constant value => trivial
  | temporary other =>
    simp only [validateScalarDoubleMergeEdgeSource] at h
    split at h
    · assumption
    · cases h
  | selection => trivial

theorem range_length {operations : List α} (hfirst : first ≤ last)
    (hlast : last ≤ operations.length) :
    ((operations.drop first).take (last - first)).length = last - first := by
  rw [List.length_take, List.length_drop]
  omega

theorem evalRange_settles {operations : List (ScalarDoubleOp V)}
    {available : Nat → Nat → Prop} (hadmits : Admits check available hasSelection)
    (hnext : ∀ index other, available (index + 1) other → other = index ∨ available index other)
    (hvalid : validateRange check operations first last = .ok ()) (hfirst : first ≤ last)
    (hlast : last ≤ operations.length) (hhas : path.Has (available first) hasSelection) :
    OnlySideExit (fun result => result.Has (available last) hasSelection)
      (evalRange ops inputs operations first last path) := by
  apply Settles.mono (evalOperations_settles hadmits hnext hvalid hhas)
  intro result hresult
  rw [range_length hfirst hlast, Nat.add_sub_cancel' hfirst] at hresult
  exact hresult

theorem evalArm_settles {operations : List (ScalarDoubleOp V)} {source : ScalarDoubleSource V}
    {available : Nat → Nat → Prop} (hadmits : Admits check available hasSelection)
    (hnext : ∀ index other, available (index + 1) other → other = index ∨ available index other)
    (hvalid : validateRange check operations first last = .ok ())
    (hsource : check source last = .ok ()) (hfirst : first ≤ last)
    (hlast : last ≤ operations.length) (hhas : path.Has (available first) hasSelection) :
    OnlySideExit (fun result => result.Has (available last) True)
      (evalArm ops inputs operations first last source path) := by
  unfold evalArm
  apply Settles.bind (evalRange_settles hadmits hnext hvalid hfirst hlast hhas)
  intro armed harmed
  obtain ⟨value, hvalue⟩ := source_eval_ok inputs (hadmits _ _ hsource) harmed
  rw [hvalue]
  exact ⟨harmed.temporaries, fun _ => by simp [DoublePath.select]⟩

theorem selectedEdge_next (sharedEnd start index other : Nat)
    (h : other < sharedEnd ∨ (start ≤ other ∧ other < index + 1)) :
    other = index ∨ (other < sharedEnd ∨ (start ≤ other ∧ other < index)) := by
  omega

theorem lt_next (index other : Nat) (h : other < index + 1) : other = index ∨ other < index := by
  omega

/-- What the validation of a conditional checks in front of its suffix. -/
structure ScalarDoubleSelect.Checked (select : ScalarDoubleSelect V)
    (operations : List (ScalarDoubleOp V)) (inputCount : Nat) : Prop where
  inside : select.falseEnd ≤ operations.length
  shared : validateRange (validateScalarDoubleRegisterSource · · inputCount) operations 0
    select.sharedEnd = .ok ()
  lhs : validateScalarDoubleRegisterSource select.lhs select.sharedEnd inputCount = .ok ()
  rhs : validateScalarDoubleRegisterSource select.rhs select.sharedEnd inputCount = .ok ()
  trueArm : validateRange (validateScalarDoubleRegisterSource · · inputCount) operations
    select.sharedEnd select.trueEnd = .ok ()
  whenTrue : validateScalarDoubleRegisterSource select.whenTrue select.trueEnd inputCount = .ok ()
  falseArm : validateRange
    (validateScalarDoubleFalseEdgeSource · select.sharedEnd select.trueEnd · inputCount) operations
    select.trueEnd select.falseEnd = .ok ()
  whenFalse : validateScalarDoubleFalseEdgeSource select.whenFalse select.sharedEnd select.trueEnd
    select.falseEnd inputCount = .ok ()

theorem branch_settles {select : ScalarDoubleSelect V} {operations : List (ScalarDoubleOp V)}
    (hchecked : select.Checked operations inputCount)
    (hpath : path.Has (· < select.sharedEnd) False) :
    OnlySideExit (fun result => result.Has (· < select.sharedEnd) True)
      (select.branch ops inputs operations path) := by
  have hshared : select.sharedEnd ≤ select.trueEnd := Nat.le_add_right _ _
  have htrue : select.trueEnd ≤ select.falseEnd := Nat.le_add_right _ _
  have hinside := hchecked.inside
  obtain ⟨lhs, hlhs⟩ := source_eval_ok inputs (register_admits _ _ _ hchecked.lhs) hpath
  obtain ⟨rhs, hrhs⟩ := source_eval_ok inputs (register_admits _ _ _ hchecked.rhs) hpath
  unfold ScalarDoubleSelect.branch
  rw [hlhs, hrhs]
  change OnlySideExit _ (if ops.compare select.kind lhs rhs then _ else _)
  split
  · apply Settles.mono (evalArm_settles (register_admits inputCount) lt_next hchecked.trueArm
      hchecked.whenTrue hshared (by omega) hpath)
    intro result hresult
    exact hresult.mono (fun index h => by omega) id
  · apply Settles.mono (evalArm_settles (falseEdge_admits select.sharedEnd select.trueEnd inputCount)
      (selectedEdge_next _ _) hchecked.falseArm hchecked.whenFalse htrue hinside
      (hpath.mono (fun index h => by omega) id))
    intro result hresult
    exact hresult.mono (fun index h => .inl h) id

/-- What the validation checks of a program with a conditional. -/
theorem validated_select {plan : ScalarDoubleFunctionPlan V}
    (hvalid : plan.validateRegisterProgram maxInputs maxOperations = .ok ())
    (hselect : plan.select = some select) :
    select.Checked plan.program.operations plan.publicArgs ∧
      if select.mergeResult then
        validateDoubleOperations
          (validateScalarDoubleMergeEdgeSource · select.sharedEnd select.falseEnd · plan.publicArgs)
          (plan.program.operations.drop select.falseEnd) select.falseEnd = .ok () ∧
        validateScalarDoubleMergeEdgeSource plan.program.output select.sharedEnd select.falseEnd
          plan.program.operations.length plan.publicArgs = .ok ()
      else select.falseEnd = plan.program.operations.length := by
  unfold ScalarDoubleFunctionPlan.validateRegisterProgram at hvalid
  obtain ⟨-, hvalid⟩ := except_guard_eq_ok.mp hvalid
  obtain ⟨-, hvalid⟩ := except_guard_eq_ok.mp hvalid
  simp only [hselect, ScalarDoubleSelect.operationRanges] at hvalid
  by_cases hranges : select.sharedEnd ≤ plan.program.operations.length ∧
      select.trueEnd ≤ plan.program.operations.length ∧
      select.falseEnd ≤ plan.program.operations.length
  · simp only [if_pos hranges] at hvalid
    obtain ⟨_, hshared, hvalid⟩ := except_bind_eq_ok.mp hvalid
    obtain ⟨_, hlhs, hvalid⟩ := except_bind_eq_ok.mp hvalid
    obtain ⟨_, hrhs, hvalid⟩ := except_bind_eq_ok.mp hvalid
    obtain ⟨_, htrueArm, hvalid⟩ := except_bind_eq_ok.mp hvalid
    obtain ⟨_, hwhenTrue, hvalid⟩ := except_bind_eq_ok.mp hvalid
    obtain ⟨_, hfalseArm, hvalid⟩ := except_bind_eq_ok.mp hvalid
    obtain ⟨_, hwhenFalse, hvalid⟩ := except_bind_eq_ok.mp hvalid
    refine ⟨⟨hranges.2.2, hshared, hlhs, hrhs, htrueArm, hwhenTrue, hfalseArm, hwhenFalse⟩, ?_⟩
    cases hmerge : select.mergeResult with
    | false =>
      simp only [hmerge, Bool.not_false, if_true] at hvalid
      split at hvalid
      · assumption
      · cases hvalid
    | true =>
      simp only [hmerge, Bool.not_true, Bool.false_eq_true, if_false] at hvalid
      obtain ⟨_, hsuffix, houtput⟩ := except_bind_eq_ok.mp hvalid
      exact ⟨hsuffix, houtput⟩
  · simp only [if_neg hranges] at hvalid
    cases hvalid

/-- A program that passes the validation never reads an operation that was not executed. -/
theorem validated_settles {plan : ScalarDoubleFunctionPlan V}
    (hvalid : plan.validateRegisterProgram maxInputs maxOperations = .ok ()) :
    OnlySideExit (fun _ => True) (plan.eval ops inputs) := by
  unfold ScalarDoubleFunctionPlan.eval
  cases hselect : plan.select with
  | none =>
    unfold ScalarDoubleFunctionPlan.validateRegisterProgram at hvalid
    obtain ⟨-, hvalid⟩ := except_guard_eq_ok.mp hvalid
    obtain ⟨-, hvalid⟩ := except_guard_eq_ok.mp hvalid
    simp only [hselect] at hvalid
    simp only [ScalarDoubleFunctionPlan.result, hselect, runProgram]
    obtain ⟨_, hoperations, houtput⟩ := except_bind_eq_ok.mp hvalid
    apply Settles.bind (evalOperations_settles (register_admits _) lt_next hoperations
      ⟨fun index h => absurd h (Nat.not_lt_zero index), nofun⟩)
    intro path hpath
    rw [Nat.zero_add] at hpath
    obtain ⟨value, hvalue⟩ := source_eval_ok inputs (register_admits _ _ _ houtput) hpath
    rw [hvalue]
    trivial
  | some select =>
    obtain ⟨hchecked, hrest⟩ := validated_select hvalid hselect
    have hinside := hchecked.inside
    have hshared : select.sharedEnd ≤ plan.program.operations.length :=
      ((Nat.le_add_right _ _).trans (Nat.le_add_right _ _)).trans hinside
    simp only [ScalarDoubleFunctionPlan.result, hselect, runProgram, bind_assoc]
    apply Settles.bind (evalRange_settles (register_admits _) lt_next hchecked.shared
      (Nat.zero_le _) hshared ⟨fun index h => absurd h (Nat.not_lt_zero index), nofun⟩)
    intro shared hsharedPath
    apply Settles.bind (branch_settles hchecked hsharedPath)
    intro path hpath
    cases hmerge : select.mergeResult with
    | false =>
      obtain ⟨value, hvalue⟩ := executed_ok (hpath.selection trivial)
      change OnlySideExit _ (executed path.selection)
      rw [hvalue]
      trivial
    | true =>
      simp only [hmerge, if_true] at hrest ⊢
      apply Settles.bind (evalOperations_settles (mergeEdge_admits _ _ _) (selectedEdge_next _ _)
        hrest.1 (hpath.mono (fun index h => by omega) id))
      intro suffixed hsuffixed
      rw [List.length_drop, Nat.add_sub_cancel' hinside] at hsuffixed
      obtain ⟨value, hvalue⟩ :=
        source_eval_ok inputs (mergeEdge_admits _ _ _ _ _ hrest.2) hsuffixed
      rw [hvalue]
      trivial

end Validated

end Rphp.Jit
