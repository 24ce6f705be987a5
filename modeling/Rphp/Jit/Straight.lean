import Mathlib.Data.BitVec
import Mathlib.Data.Fintype.Basic
import Rphp.Lib.ForwardFlow

namespace Rphp.Jit
open Rphp.Lib
set_option autoImplicit true

/-- A slot of the fixed shadow, an array of 64 Longs. Every validator rejects a greater number. -/
abbrev Slot := Fin 64

instance slotsNeZero : NeZero 64 := ⟨by decide⟩

/-- A set of slots as a `u64`. -/
abbrev Mask := BitVec 64

instance : Membership Slot Mask := ⟨fun mask slot => mask.getLsbD slot = true⟩

instance (slot : Slot) (mask : Mask) : Decidable (slot ∈ mask) :=
  inferInstanceAs (Decidable (mask.getLsbD slot = true))

/-- The mask `1u64 << slot`. -/
def bit (slot : Slot) : Mask := 1#64 <<< slot.val

section

variable {slot : Slot} {a b : Mask}

theorem mem_def : slot ∈ a ↔ a.getLsbD slot = true := Iff.rfl

@[simp] theorem not_mem_zero : slot ∉ 0#64 := by
  simp [mem_def]

theorem mem_allOnes : slot ∈ BitVec.allOnes 64 := by
  rw [mem_def, BitVec.getLsbD_allOnes, decide_eq_true slot.isLt]

@[simp] theorem mem_or : slot ∈ a ||| b ↔ slot ∈ a ∨ slot ∈ b := by
  simp [mem_def]

@[simp] theorem mem_and : slot ∈ a &&& b ↔ slot ∈ a ∧ slot ∈ b := by
  simp [mem_def]

@[simp] theorem mem_not : slot ∈ ~~~a ↔ slot ∉ a := by
  simp [mem_def]

@[simp] theorem mem_bit : slot ∈ bit other ↔ slot = other := by
  simp only [mem_def, bit, ← BitVec.twoPow_eq, BitVec.getLsbD_twoPow, Bool.and_eq_true,
    decide_eq_true_eq, Fin.ext_iff]
  omega

theorem mask_eq_zero_iff : a = 0 ↔ ∀ slot : Slot, slot ∉ a := by
  constructor
  · rintro rfl slot
    exact not_mem_zero
  · intro h
    refine BitVec.eq_of_getLsbD_eq fun i hi => ?_
    simpa [mem_def] using h ⟨i, hi⟩

end

inductive ScalarLongOpKind where
  | add
  | subtract
  | multiply
  | intDivide
  | modulo
  | bitwiseAnd
  | bitwiseOr
  | bitwiseXor
  | compare
  deriving DecidableEq

inductive ScalarLongConditionKind where
  | equal
  | notEqual
  | lessThan
  | lessThanOrEqual
  deriving DecidableEq

inductive QuickLongOperand where
  | slot (slot : Slot)
  | const (value : Int64)
  deriving DecidableEq

inductive NativeStraightLongConditionOperand where
  | source (source : QuickLongOperand)
  | bitwiseAnd (lhs rhs : QuickLongOperand)
  deriving DecidableEq

inductive NativeStraightLongOperation where
  | unused
  | modulo (value : QuickLongOperand) (divisor : Int64) (result : Slot)
  | move (source : QuickLongOperand) (result : Slot)
  | stringToken (token : Nat) (result : Slot)
  | stringLength (source : Slot) (lengths : Fin 4 → Int64) (tokenCount : Nat) (result : Slot)
  | hashLoad (key : Slot) (entryBase tokenCount : Nat) (result : Slot) (destination : Option Slot)
  | hashStore (key : Slot) (entryBase tokenCount : Nat) (source : QuickLongOperand)
  | indexedLongLoad (key : QuickLongOperand) (context : Nat) (result : Slot)
      (destination : Option Slot)
  | arrayLongSet (key value : QuickLongOperand) (context : Nat) (deferredReserve : Bool)
  | binary (kind : ScalarLongOpKind) (lhs rhs : QuickLongOperand) (result : Slot)
  | binaryAssign (kind : ScalarLongOpKind) (lhs rhs : QuickLongOperand)
      (result destination : Slot)
  | guard (kind : ScalarLongConditionKind) (lhs rhs : NativeStraightLongConditionOperand)
      (expected : Bool)
  | branchUnless (kind : ScalarLongConditionKind) (lhs rhs : NativeStraightLongConditionOperand)
      (falseTarget : Nat)
  | jump (target : Nat)
  deriving DecidableEq

namespace NativeStraightLongOperation

/-- The slots that receive the Long result. A String token is not a Long. -/
def outputMask : NativeStraightLongOperation → Mask
  | unused => 0
  | modulo _ _ result => bit result
  | move _ result => bit result
  | stringToken _ _ => 0
  | stringLength _ _ _ result => bit result
  | hashLoad _ _ _ result destination => bit result ||| destination.elim 0 bit
  | hashStore _ _ _ _ => 0
  | indexedLongLoad _ _ result destination => bit result ||| destination.elim 0 bit
  | arrayLongSet _ _ _ _ => 0
  | binary _ _ _ result => bit result
  | binaryAssign _ _ _ result destination => bit result ||| bit destination
  | guard _ _ _ _ => 0
  | branchUnless _ _ _ _ => 0
  | jump _ => 0

/-- The slots of the shadow that the operation writes, String tokens included. -/
def shadowOutputMask : NativeStraightLongOperation → Mask
  | stringToken _ result => bit result
  | operation => operation.outputMask

end NativeStraightLongOperation

def operandMask : QuickLongOperand → Mask
  | .slot slot => bit slot
  | .const _ => 0

def conditionOperandMask : NativeStraightLongConditionOperand → Mask
  | .source source => operandMask source
  | .bitwiseAnd lhs rhs => operandMask lhs ||| operandMask rhs

/-- Every shadow slot that one operation reads. -/
def straightLongOperationInputMask : NativeStraightLongOperation → Mask
  | .unused => 0
  | .stringToken _ _ => 0
  | .jump _ => 0
  | .modulo value _ _ => operandMask value
  | .move source _ => operandMask source
  | .stringLength source _ _ _ => bit source
  | .hashLoad key _ _ _ _ => bit key
  | .hashStore key _ _ source => bit key ||| operandMask source
  | .indexedLongLoad key _ _ _ => operandMask key
  | .arrayLongSet key value _ _ => operandMask key ||| operandMask value
  | .binary _ lhs rhs _ => operandMask lhs ||| operandMask rhs
  | .binaryAssign _ lhs rhs _ _ => operandMask lhs ||| operandMask rhs
  | .guard _ lhs rhs _ => conditionOperandMask lhs ||| conditionOperandMask rhs
  | .branchUnless _ lhs rhs _ => conditionOperandMask lhs ||| conditionOperandMask rhs

/-- A straight loop. `operations` holds the first `operation_count` entries of the fixed array. -/
structure NativeStraightLongLoopConfig where
  inductionSlot : Slot
  bound : QuickLongOperand
  operations : List NativeStraightLongOperation
  postResult : Option Slot

namespace NativeStraightLongLoopConfig

def operationCount (config : NativeStraightLongLoopConfig) : Nat := config.operations.length

/-- The slots that an operation of the body, by its index, reads. -/
def inputMask (config : NativeStraightLongLoopConfig) (index : Nat) : Mask :=
  (config.operations[index]?).elim 0 straightLongOperationInputMask

def outputMask (config : NativeStraightLongLoopConfig) (index : Nat) : Mask :=
  (config.operations[index]?).elim 0 NativeStraightLongOperation.outputMask

def shadowOutputMask (config : NativeStraightLongLoopConfig) (index : Nat) : Mask :=
  (config.operations[index]?).elim 0 NativeStraightLongOperation.shadowOutputMask

/-- The operations that control can pass to from an operation. The loop tail has the index
`operationCount`. -/
def successors (config : NativeStraightLongLoopConfig) (index : Nat) : List Nat :=
  match config.operations[index]? with
  | some (.branchUnless _ _ _ falseTarget) => [index + 1, falseTarget]
  | some (.jump target) => [target]
  | some _ => [index + 1]
  | none => []

/-- The targets of an operation's branches. -/
def branchTargets (config : NativeStraightLongLoopConfig) (index : Nat) : List Nat :=
  match config.operations[index]? with
  | some (.branchUnless _ _ _ falseTarget) => [falseTarget]
  | some (.jump target) => [target]
  | _ => []

/-- Every branch leads to a later operation or to the loop tail. -/
def ForwardOnly (config : NativeStraightLongLoopConfig) : Prop :=
  ∀ index < config.operationCount, ∀ target ∈ config.branchTargets index,
    index < target ∧ target ≤ config.operationCount

instance (config : NativeStraightLongLoopConfig) : Decidable config.ForwardOnly :=
  inferInstanceAs (Decidable (∀ index < config.operationCount,
    ∀ target ∈ config.branchTargets index, index < target ∧ target ≤ config.operationCount))

/-- The control paths of the body. -/
abbrev Path (config : NativeStraightLongLoopConfig) : Nat → List Nat → Nat → Prop :=
  Route config.successors

section

variable {config : NativeStraightLongLoopConfig}

/-- Only operations of the body read slots. -/
theorem lt_of_mem_inputMask (h : slot ∈ config.inputMask index) :
    index < config.operationCount := by
  by_contra hge
  rw [inputMask, List.getElem?_eq_none (Nat.not_lt.1 hge)] at h
  exact not_mem_zero h

theorem lt_of_mem_shadowOutputMask (h : slot ∈ config.shadowOutputMask index) :
    index < config.operationCount := by
  by_contra hge
  rw [shadowOutputMask, List.getElem?_eq_none (Nat.not_lt.1 hge)] at h
  exact not_mem_zero h

theorem lt_of_mem_successors (h : target ∈ config.successors index) :
    index < config.operationCount := by
  by_contra hlt
  have hnone : config.operations[index]? = none := List.getElem?_eq_none (Nat.not_lt.1 hlt)
  simp [successors, hnone] at h

theorem ForwardOnly.bounds (hf : config.ForwardOnly) (h : target ∈ config.successors index) :
    index < target ∧ target ≤ config.operationCount := by
  have hlt := lt_of_mem_successors h
  have htargets := hf index hlt
  unfold branchTargets at htargets
  unfold successors at h
  split at h <;> simp_all
  all_goals omega

theorem ForwardOnly.forward (hf : config.ForwardOnly) : Forward config.successors :=
  fun _ _ h => (hf.bounds h).1

end

end NativeStraightLongLoopConfig

end Rphp.Jit
