import Rphp.Jit.Straight
import Rphp.Machine

namespace Rphp.Vm
open Rphp.Jit (ScalarLongOpKind ScalarLongConditionKind)
set_option autoImplicit true

/-! The compiled plan of a pure function of integers, and a callback that runs by its plan. -/

section Plans

inductive ScalarLongSource
  | input (index : Nat)
  | constant (value : I64)
  | temporary (index : Nat)
  deriving DecidableEq

structure ScalarLongOp where
  kind : ScalarLongOpKind
  lhs : ScalarLongSource
  rhs : ScalarLongSource

/-- There is room for one output. -/
structure ScalarLongProgram where
  operations : List ScalarLongOp
  output : ScalarLongSource
  outputCount : Nat

inductive ScalarLongConditionOperand
  | source (source : ScalarLongSource)
  | bitwiseAnd (lhs rhs : ScalarLongSource)

/-- The operations of the two edges follow the shared ones. -/
structure ScalarLongSelect where
  kind : ScalarLongConditionKind
  lhs : ScalarLongConditionOperand
  rhs : ScalarLongConditionOperand
  sharedOperationCount : Nat
  whenTrueOperationCount : Nat
  whenTrue : ScalarLongSource
  whenFalse : ScalarLongSource

structure ScalarLongFunctionPlan where
  publicArgs : Nat
  program : ScalarLongProgram
  select : Option ScalarLongSelect

def bitwise (f : BitVec 64 → BitVec 64 → BitVec 64) (lhs rhs : I64) : I64 :=
  .wrap (f (.ofInt 64 lhs.val) (.ofInt 64 rhs.val)).toInt

def applyScalarLongOp (kind : ScalarLongOpKind) (lhs rhs : I64) : Option I64 :=
  match kind with
  | .add => lhs.checkedAdd rhs
  | .subtract => lhs.checkedSub rhs
  | .compare =>
    match Ord.compare lhs.val rhs.val with
    | .lt => some (.wrap (-1))
    | .eq => some .zero
    | .gt => some (.wrap 1)
  | .multiply => lhs.checkedMul rhs
  | .intDivide => lhs.checkedDiv rhs
  | .modulo => lhs.checkedRem rhs
  | .bitwiseAnd => some (bitwise (· &&& ·) lhs rhs)
  | .bitwiseOr => some (bitwise (· ||| ·) lhs rhs)
  | .bitwiseXor => some (bitwise (· ^^^ ·) lhs rhs)

def applyScalarLongCondition (kind : ScalarLongConditionKind) (lhs rhs : I64) : Bool :=
  match kind with
  | .equal => lhs.val = rhs.val
  | .notEqual => lhs.val ≠ rhs.val
  | .lessThan => lhs.val < rhs.val
  | .lessThanOrEqual => lhs.val ≤ rhs.val

def resolveScalarFunctionSource (source : ScalarLongSource) (arguments temporaries : List I64) :
    Option I64 :=
  match source with
  | .input index => arguments[index]?
  | .constant value => some value
  | .temporary index => temporaries[index]?

/-- The temporaries behind an operation. -/
def evaluateScalarLongOperation (operations : List ScalarLongOp) (arguments temporaries : List I64)
    (index : Nat) : Option (List I64) := do
  let operation ← operations[index]?
  let lhs ← resolveScalarFunctionSource operation.lhs arguments temporaries
  let rhs ← resolveScalarFunctionSource operation.rhs arguments temporaries
  return temporaries.set index (← applyScalarLongOp operation.kind lhs rhs)

def evaluateScalarLongOperationRange (operations : List ScalarLongOp)
    (arguments temporaries : List I64) (start stop : Nat) : Option (List I64) :=
  if stop < start then none
  else if operations.length < stop ∨ temporaries.length < stop then none
  else
    (List.range' start (stop - start)).foldlM (evaluateScalarLongOperation operations arguments)
      temporaries

def resolveConditionOperand (operand : ScalarLongConditionOperand)
    (arguments temporaries : List I64) : Option I64 :=
  match operand with
  | .source source => resolveScalarFunctionSource source arguments temporaries
  | .bitwiseAnd lhs rhs => do
    return bitwise (· &&& ·) (← resolveScalarFunctionSource lhs arguments temporaries)
      (← resolveScalarFunctionSource rhs arguments temporaries)

def evaluateScalarLongPlanInterpreted (plan : ScalarLongFunctionPlan) (arguments : List I64) :
    Option I64 :=
  let temporaries := List.replicate 8 I64.zero
  let operations := plan.program.operations
  match plan.select with
  | some select => do
    let sharedEnd := select.sharedOperationCount
    let trueEnd := sharedEnd + select.whenTrueOperationCount
    if operations.length < trueEnd then none
    else
      let temporaries ←
        evaluateScalarLongOperationRange operations arguments temporaries 0 sharedEnd
      let lhs ← resolveConditionOperand select.lhs arguments temporaries
      let rhs ← resolveConditionOperand select.rhs arguments temporaries
      if applyScalarLongCondition select.kind lhs rhs then
        let temporaries ←
          evaluateScalarLongOperationRange operations arguments temporaries sharedEnd trueEnd
        resolveScalarFunctionSource select.whenTrue arguments temporaries
      else
        let temporaries ←
          evaluateScalarLongOperationRange operations arguments temporaries trueEnd
            operations.length
        resolveScalarFunctionSource select.whenFalse arguments temporaries
  | none => do
    let temporaries ←
      evaluateScalarLongOperationRange operations arguments temporaries 0 operations.length
    resolveScalarFunctionSource plan.program.output arguments temporaries

/-- No temporary is behind the only operation of a plan. -/
def leafOperand (arguments : List I64) : ScalarLongSource → Option I64
  | .input index => arguments[index]?
  | .constant value => some value
  | .temporary index => if index < 8 then some .zero else none

def evaluateScalarLongPlan (plan : ScalarLongFunctionPlan) (arguments : List I64) : Option I64 :=
  if 8 < plan.program.operations.length ∨ plan.program.outputCount ≠ 1 then none
  else
    match plan.select, plan.program.operations, plan.program.output with
    | none, [operation], .temporary 0 => do
      applyScalarLongOp operation.kind (← leafOperand arguments operation.lhs)
        (← leafOperand arguments operation.rhs)
    | _, _, _ => evaluateScalarLongPlanInterpreted plan arguments

end Plans

section Callbacks

/-- What the admission of a callback reads of its function. -/
structure ScalarFunction where
  isUser : Bool
  supportsScalarLongPlan : Bool
  publicArity : Nat
  scalarLongPlan : Option ScalarLongFunctionPlan

structure ScalarLongCallback where
  plan : ScalarLongFunctionPlan
  publicNumArgs : Nat

def prepareScalarLongCallback (function : Option ScalarFunction) (publicNumArgs : Nat) :
    Option ScalarLongCallback := do
  let function ← function
  if !function.isUser || !function.supportsScalarLongPlan ||
      function.publicArity ≠ publicNumArgs then none
  else
    let plan ← function.scalarLongPlan
    if plan.publicArgs ≠ publicNumArgs ∨ 8 < publicNumArgs then none
    else return ⟨plan, publicNumArgs⟩

inductive ScalarLongSortOrder
  | ascending
  | descending
  deriving DecidableEq, Repr

def ScalarLongSortOrder.compare (order : ScalarLongSortOrder) (left right : I64) : Ordering :=
  match order with
  | .ascending => Ord.compare left.val right.val
  | .descending => (Ord.compare left.val right.val).swap

namespace ScalarLongCallback

/-- The order that a plan of one comparison or difference of the two arguments asks for. -/
def exactSortOrder (callback : ScalarLongCallback) : Option ScalarLongSortOrder :=
  match callback.plan.select, callback.plan.program.operations with
  | none, [operation] =>
    if callback.plan.program.outputCount ≠ 1 ∨ callback.plan.program.output ≠ .temporary 0 then none
    else if operation.kind = .subtract ∨ operation.kind = .compare then
      match operation.lhs, operation.rhs with
      | .input 0, .input 1 => some .ascending
      | .input 1, .input 0 => some .descending
      | _, _ => none
    else none
  | _, _ => none

def evaluateLongs (callback : ScalarLongCallback) (arguments : List I64) : Option I64 :=
  if arguments.length ≠ callback.publicNumArgs then none
  else
    evaluateScalarLongPlan callback.plan
      (arguments ++ List.replicate (8 - arguments.length) I64.zero)

end ScalarLongCallback

theorem prepareScalarLongCallback_publicNumArgs
    (h : prepareScalarLongCallback function n = some callback) : callback.publicNumArgs = n := by
  simp only [prepareScalarLongCallback, Option.bind_eq_bind, Option.bind_eq_some_iff,
    Option.ite_none_left_eq_some, Option.pure_def, Option.some.injEq] at h
  obtain ⟨_, -, -, _, -, -, rfl⟩ := h
  rfl

/-- The argument that comes first in the order. -/
def ScalarLongSortOrder.first (order : ScalarLongSortOrder) (left right : I64) : I64 :=
  match order with
  | .ascending => left
  | .descending => right

theorem ScalarLongSortOrder.compare_eq (order : ScalarLongSortOrder) (left right : I64) :
    order.compare left right =
      Ord.compare (order.first left right).val (order.first right left).val := by
  cases order with
  | ascending => rfl
  | descending => exact Std.OrientedCmp.eq_swap.symm

theorem evaluateLongs_of_exactSortOrder {callback : ScalarLongCallback}
    (h : callback.exactSortOrder = some order) (hargs : callback.publicNumArgs = 2) :
    ∃ kind, (kind = .subtract ∨ kind = .compare) ∧ ∀ left right,
      callback.evaluateLongs [left, right] =
        applyScalarLongOp kind (order.first left right) (order.first right left) := by
  obtain ⟨⟨publicArgs, ⟨operations, output, outputCount⟩, select⟩, publicNumArgs⟩ := callback
  unfold ScalarLongCallback.exactSortOrder at h
  simp only at h hargs
  split at h
  case h_2 => cases h
  case h_1 operation =>
    rw [Option.ite_none_left_eq_some, Option.ite_none_right_eq_some] at h
    obtain ⟨hone, hkind, h⟩ := h
    obtain ⟨hcount, houtput⟩ := not_or.mp hone
    rw [Decidable.not_not] at hcount houtput
    subst hcount houtput hargs
    refine ⟨operation.kind, hkind, fun left right => ?_⟩
    split at h
    case h_3 => cases h
    all_goals
      rename_i hlhs hrhs
      cases h
      simp [ScalarLongCallback.evaluateLongs, evaluateScalarLongPlan, leafOperand, hlhs, hrhs,
        ScalarLongSortOrder.first]

theorem applyScalarLongOp_compare (lhs rhs : I64) : ∃ n,
    applyScalarLongOp .compare lhs rhs = some n ∧
      Ord.compare n.val 0 = Ord.compare lhs.val rhs.val := by
  simp only [applyScalarLongOp]
  cases hcompare : Ord.compare lhs.val rhs.val with
  | lt => exact ⟨_, rfl, rfl⟩
  | eq => exact ⟨_, rfl, rfl⟩
  | gt => exact ⟨_, rfl, rfl⟩

/-- What a difference or a comparison says about its operands, and that it says something of
operands that are not too far apart. -/
theorem applyScalarLongOp_tells (hkind : kind = .subtract ∨ kind = .compare) (lhs rhs : I64)
    (hlow : i64Min ≤ lhs.val - rhs.val) (hhigh : lhs.val - rhs.val ≤ i64Max) :
    ∃ n, applyScalarLongOp kind lhs rhs = some n ∧
      Ord.compare n.val 0 = Ord.compare lhs.val rhs.val := by
  obtain rfl | rfl := hkind
  · refine ⟨⟨lhs.val - rhs.val, hlow, hhigh⟩, I64.ofInt?_eq_some.mpr rfl, ?_⟩
    simp only [Ord.compare, compareOfLessAndEq]
    split
    · rw [if_pos (by omega)]
    · split
      · rw [if_neg (by omega), if_pos (by omega)]
      · rw [if_neg (by omega), if_neg (by omega)]
  · exact applyScalarLongOp_compare lhs rhs

end Callbacks

end Rphp.Vm
