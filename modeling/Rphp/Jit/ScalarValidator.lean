import Rphp.Jit.Straight

namespace Rphp.Jit
open NativeStraightLongLoopConfig
set_option autoImplicit true

def nativeStraightLongMaxContextEntries : Nat := 16

def validateOutput (config : NativeStraightLongLoopConfig) (slot : Slot) : Except String Unit :=
  if slot = config.inductionSlot then
    .error "x86 scalar loop body cannot overwrite its induction slot"
  else
    .ok ()

def validateHashContext (entryBase tokenCount : Nat) : Except String Unit :=
  if tokenCount = 0 ∨ tokenCount > 4 ∨
      entryBase + tokenCount > nativeStraightLongMaxContextEntries then
    .error "x86 hash context selection is outside the shared entry table"
  else
    .ok ()

def validateTarget (config : NativeStraightLongLoopConfig) (message : String)
    (index target : Nat) : Except String Unit :=
  if target ≤ index ∨ target > config.operationCount then .error message else .ok ()

/-- The checks on one operation, and the slots that it writes. -/
def validateOperation (config : NativeStraightLongLoopConfig) (index : Nat) :
    NativeStraightLongOperation → Except String Mask
  | .modulo _ _ result => do
    validateOutput config result
    return bit result
  | .move _ result => do
    validateOutput config result
    return bit result
  | .stringToken token result => do
    if token ≥ 4 then
      throw "x86 finite String token exceeds the shared token table"
    validateOutput config result
    return bit result
  | .stringLength _ _ tokenCount result => do
    if tokenCount = 0 ∨ tokenCount > 4 then
      throw "x86 String token count is outside the finite token table"
    validateOutput config result
    return bit result
  | .hashLoad _ entryBase tokenCount result destination => do
    validateHashContext entryBase tokenCount
    validateOutput config result
    destination.forM (validateOutput config)
    return bit result ||| destination.elim 0 bit
  | .hashStore _ entryBase tokenCount _ => do
    validateHashContext entryBase tokenCount
    return 0
  | .indexedLongLoad _ context result destination => do
    if context ≥ nativeStraightLongMaxContextEntries then
      throw "x86 indexed lookup context is outside the shared entry table"
    validateOutput config result
    destination.forM (validateOutput config)
    return bit result ||| destination.elim 0 bit
  | .arrayLongSet _ _ context _ => do
    if context ≥ nativeStraightLongMaxContextEntries then
      throw "x86 mutable array context is outside the shared entry table"
    return 0
  | .binary _ _ _ result => do
    validateOutput config result
    return bit result
  | .binaryAssign _ _ _ result destination => do
    validateOutput config result
    validateOutput config destination
    return bit result ||| bit destination
  | .guard _ _ _ _ => return 0
  | .branchUnless _ _ _ falseTarget => do
    validateTarget config "x86 conditional branch target is not forward and in range" index
      falseTarget
    return 0
  | .jump target => do
    validateTarget config "x86 jump target is not forward and in range" index target
    return 0
  | .unused => throw "x86 scalar loop operation is not lowered"

def validateOperations (config : NativeStraightLongLoopConfig) :
    Nat → Mask → List NativeStraightLongOperation → Except String Mask
  | _, written, [] => .ok written
  | index, written, operation :: operations => do
    let outputs ← validateOperation config index operation
    validateOperations config (index + 1) (written ||| outputs) operations

def validateScalarStraightConfig (config : NativeStraightLongLoopConfig) : Except String Unit := do
  config.postResult.forM (validateOutput config)
  let written ← validateOperations config 0
    (bit config.inductionSlot ||| config.postResult.elim 0 bit) config.operations
  match config.bound with
  | .slot slot =>
    if slot ∈ written then
      throw "x86 straight-loop bound cannot be written by the loop"
  | .const _ => pure ()

/-! Accepted loops branch forward only. -/

theorem exists_ok_of_bind {x : Except ε α} {f : α → Except ε β} (h : x >>= f = .ok b) :
    ∃ a, x = .ok a ∧ f a = .ok b := by
  cases x with
  | error err => cases h
  | ok a => exact ⟨a, rfl, h⟩

theorem validateOperations_ok {config : NativeStraightLongLoopConfig}
    {ops : List NativeStraightLongOperation}
    (h : validateOperations config start written ops = .ok result)
    (ho : ops[i]? = some operation) :
    ∃ outputs, validateOperation config (start + i) operation = .ok outputs := by
  induction ops generalizing start written i with
  | nil => simp at ho
  | cons first ops ih =>
    obtain ⟨outputs, hfirst, hrest⟩ := exists_ok_of_bind h
    cases i with
    | zero =>
      obtain rfl : first = operation := by simpa using ho
      exact ⟨outputs, hfirst⟩
    | succ i =>
      obtain ⟨outputs, hop⟩ := ih hrest (by simpa using ho)
      exact ⟨outputs, by rwa [Nat.add_right_comm, Nat.add_assoc] at hop⟩

theorem validateTarget_ok {config : NativeStraightLongLoopConfig}
    (h : validateTarget config message index target = .ok ()) :
    index < target ∧ target ≤ config.operationCount := by
  unfold validateTarget at h
  split at h
  · cases h
  · omega

theorem validateOperation_of_validate {config : NativeStraightLongLoopConfig}
    (h : validateScalarStraightConfig config = .ok ())
    (ho : config.operations[index]? = some operation) :
    ∃ outputs, validateOperation config index operation = .ok outputs := by
  obtain ⟨_, _, h⟩ := exists_ok_of_bind h
  obtain ⟨written, hops, _⟩ := exists_ok_of_bind h
  obtain ⟨outputs, hop⟩ := validateOperations_ok hops ho
  rw [Nat.zero_add] at hop
  exact ⟨outputs, hop⟩

theorem forwardOnly_of_validate {config : NativeStraightLongLoopConfig}
    (h : validateScalarStraightConfig config = .ok ()) : config.ForwardOnly := by
  intro index hi target ht
  have hget : config.operations[index]? = some config.operations[index] :=
    List.getElem?_eq_getElem hi
  obtain ⟨outputs, hop⟩ := validateOperation_of_validate h hget
  unfold branchTargets at ht
  rw [hget] at ht
  split at ht
  · rename_i heq
    obtain rfl := List.mem_singleton.1 ht
    rw [Option.some.inj heq] at hop
    obtain ⟨_, htarget, _⟩ := exists_ok_of_bind hop
    exact validateTarget_ok htarget
  · rename_i heq
    obtain rfl := List.mem_singleton.1 ht
    rw [Option.some.inj heq] at hop
    obtain ⟨_, htarget, _⟩ := exists_ok_of_bind hop
    exact validateTarget_ok htarget
  · cases ht

/-- No accepted arithmetic operation writes the induction slot. -/
theorem result_ne_of_validate {config : NativeStraightLongLoopConfig} {index : Nat}
    {result : Slot} (h : validateScalarStraightConfig config = .ok ())
    (ho : config.operations[index]? = some (NativeStraightLongOperation.binary kind lhs rhs result)) :
    result ≠ config.inductionSlot := by
  obtain ⟨outputs, hop⟩ := validateOperation_of_validate h ho
  obtain ⟨_, hout, _⟩ := exists_ok_of_bind hop
  intro heq
  rw [validateOutput, if_pos heq] at hout
  cases hout

end Rphp.Jit
