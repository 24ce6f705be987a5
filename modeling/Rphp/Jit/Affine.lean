import Rphp.Jit.EarlyIncrement
import Rphp.Jit.LinearStores
import Rphp.Jit.LocalResident

namespace Rphp.Jit
open Rphp.Lib NativeStraightLongLoopConfig
set_option autoImplicit true

/-- How the operation after a multiplication combines the product with its other operand. -/
inductive StraightLongProductCombination where
  | add (operand : QuickLongOperand)
  | productMinus (operand : QuickLongOperand)
  | operandMinusProduct (operand : QuickLongOperand)
  deriving DecidableEq

def StraightLongProductCombination.operand : StraightLongProductCombination → QuickLongOperand
  | add operand => operand
  | productMinus operand => operand
  | operandMinusProduct operand => operand

structure StraightLongMultiplyConsumerPair where
  producer : Nat
  consumer : Nat
  lhs : QuickLongOperand
  rhs : QuickLongOperand
  combination : StraightLongProductCombination
  intermediate : Slot
  result : Slot
  destination : Option Slot
  deriving DecidableEq

/-- The operands and the result of a multiplication. -/
def multiplyProducer :
    NativeStraightLongOperation → Option (QuickLongOperand × QuickLongOperand × Slot)
  | .binary .multiply lhs rhs result => some (lhs, rhs, result)
  | _ => none

/-- The combination, the result and the destination of an operation that reads the product. -/
def productConsumer (intermediate : Slot) :
    NativeStraightLongOperation → Option (StraightLongProductCombination × Slot × Option Slot)
  | .binary .add lhs rhs result =>
    if lhs = .slot intermediate then some (.add rhs, result, none)
    else if rhs = .slot intermediate then some (.add lhs, result, none)
    else none
  | .binaryAssign .add lhs rhs result destination =>
    if lhs = .slot intermediate then some (.add rhs, result, some destination)
    else if rhs = .slot intermediate then some (.add lhs, result, some destination)
    else none
  | .binary .subtract lhs rhs result =>
    if lhs = .slot intermediate then some (.productMinus rhs, result, none)
    else if rhs = .slot intermediate then some (.operandMinusProduct lhs, result, none)
    else none
  | .binaryAssign .subtract lhs rhs result destination =>
    if lhs = .slot intermediate then some (.productMinus rhs, result, some destination)
    else if rhs = .slot intermediate then some (.operandMinusProduct lhs, result, some destination)
    else none
  | _ => none

/-- A multiplication and the next operation, which alone reads the product unless it redefines the
slot. -/
def straightLongMultiplyConsumerPair (config : NativeStraightLongLoopConfig) (producer : Nat) :
    Option StraightLongMultiplyConsumerPair := do
  let consumer := producer + 1
  if consumer ≥ config.operationCount then none
  let (lhs, rhs, intermediate) ← config.operations[producer]?.bind multiplyProducer
  let (combination, result, destination) ←
    config.operations[consumer]?.bind (productConsumer intermediate)
  if combination.operand = .slot intermediate then none
  if intermediate ∉ config.outputMask consumer ∧
      (config.operations.drop (consumer + 1)).any
        (fun operation => intermediate ∈ straightLongOperationInputMask operation) then
    none
  return { producer, consumer, lhs, rhs, combination, intermediate, result, destination }

structure X86StraightAffineFusion where
  producer : Nat
  consumer : Nat
  source : QuickLongOperand
  scale : Int64
  bias : Int64
  intermediate : Slot
  result : Slot
  destination : Option Slot
  deriving DecidableEq

/-- The scales that one SIB address can represent. -/
def isAffineScale (scale : Int64) : Bool := scale = 3 || scale = 5 || scale = 9

/-- The slot and the constant of a product that one SIB address can represent. -/
def affineFactors : QuickLongOperand → QuickLongOperand → Option (QuickLongOperand × Int64)
  | .slot source, .const scale => if isAffineScale scale then some (.slot source, scale) else none
  | .const scale, .slot source => if isAffineScale scale then some (.slot source, scale) else none
  | _, _ => none

/-- `0i64.checked_sub(value)`. -/
def checkedNeg (value : Int64) : Option Int64 :=
  if value = Int64.minValue then none else some (0 - value)

def affineBias : StraightLongProductCombination → Option Int64
  | .add (.const bias) => some bias
  | .productMinus (.const bias) => checkedNeg bias
  | _ => none

def fitsI32 (value : Int64) : Bool := -2 ^ 31 ≤ value.toInt && value.toInt < 2 ^ 31

def x86StraightAffineFusion (config : NativeStraightLongLoopConfig) (producer : Nat) :
    Option X86StraightAffineFusion := do
  let pair ← straightLongMultiplyConsumerPair config producer
  let (source, scale) ← affineFactors pair.lhs pair.rhs
  let bias ← affineBias pair.combination
  if !fitsI32 bias then none
  return {
    producer := pair.producer
    consumer := pair.consumer
    source, scale, bias
    intermediate := pair.intermediate
    result := pair.result
    destination := pair.destination }

/-! The range-proven entry. -/

namespace NativeStraightLongOperation

def isLinearScalar : NativeStraightLongOperation → Bool
  | modulo _ _ _ => true
  | move _ _ => true
  | binary _ _ _ _ => true
  | binaryAssign _ _ _ _ _ => true
  | guard _ _ _ _ => true
  | _ => false

def isStructuredScalar : NativeStraightLongOperation → Bool
  | branchUnless _ _ _ _ => true
  | jump _ => true
  | operation => operation.isLinearScalar

end NativeStraightLongOperation

def supportsLinearScalarResidency (config : NativeStraightLongLoopConfig) : Bool :=
  config.operations.all NativeStraightLongOperation.isLinearScalar

def supportsStructuredScalarResidency (config : NativeStraightLongLoopConfig) : Bool :=
  config.operations.all NativeStraightLongOperation.isStructuredScalar

/-- The masks that the emission of the range-proven polling entry works with. -/
structure PublicationMasks where
  publication : Mask
  carried : Mask
  deferred : Mask

/-- The results of an operation that the entry stores in the shadow. -/
def shadowStoreMask (config : NativeStraightLongLoopConfig) (masks : PublicationMasks)
    (index : Nat) : Mask :=
  if supportsLinearScalarResidency config then
    straightLongLinearShadowStoreMask config index masks.publication
      (straightLongLinearLiveAfter config) &&& ~~~masks.deferred
  else if supportsStructuredScalarResidency config then
    config.shadowOutputMask index &&& ~~~masks.deferred &&&
      ~~~localResidentMasks config masks.publication masks.carried index
  else
    config.shadowOutputMask index &&& ~~~masks.deferred

/-- The pair that the entry emits as one operation. -/
def emittedAffineFusion (config : NativeStraightLongLoopConfig) (masks : PublicationMasks)
    (producer : Nat) : Option X86StraightAffineFusion := do
  let fusion ← x86StraightAffineFusion config producer
  if !supportsLinearScalarResidency config && supportsStructuredScalarResidency config &&
      straightLongStructuredBlockStarts config fusion.consumer then
    none
  if straightLongEarlyInductionIncrementOperation config = some fusion.consumer ∧
      fusion.source = .slot config.inductionSlot then
    none
  if fusion.intermediate ∈ shadowStoreMask config masks producer then none
  if fusion.intermediate ∈ masks.deferred then none
  return fusion

/-- The fusion that waits for its consumer when the emission comes to an operation. -/
def pendingAffineFusion (fusionAt : Nat → Option X86StraightAffineFusion) :
    Nat → Option X86StraightAffineFusion
  | 0 => none
  | index + 1 =>
    match pendingAffineFusion fusionAt index with
    | some _ => none
    | none => fusionAt index

/-- Every result is stored, and the increment stands where the range-proven entry has it. -/
def Emission.rangeProven (config : NativeStraightLongLoopConfig) : Emission :=
  { Emission.canonical with early := straightLongEarlyInductionIncrementOperation config }

namespace StraightMachine

/-- Execute what stands in the place of the operation at the current index: nothing for the
producer of a pair, the affine operation for its consumer. -/
def fusedStep (ctx : NativeContext W) (config : NativeStraightLongLoopConfig) (e : Emission)
    (pending : Nat → Option X86StraightAffineFusion) (m : StraightMachine W) :
    StraightMachine W :=
  match m.exit, config.operations[m.index]? with
  | none, some operation =>
    match pending (m.index + 1), pending m.index with
    | some _, none => { beginOperation e m with index := m.index + 1 }
    | _, some fusion =>
      let m := beginOperation e m
      let source := m.read config fusion.source
      advance e operation.shadowOutputMask [source] m
        (.next (some (source * fusion.scale + fusion.bias)) m.world)
    | none, none => step ctx false config e m
  | _, _ => m

def fusedPass (ctx : NativeContext W) (config : NativeStraightLongLoopConfig) (e : Emission)
    (pending : Nat → Option X86StraightAffineFusion) (m : StraightMachine W) :
    StraightMachine W :=
  tail config e ((fusedStep ctx config e pending)^[config.operationCount] m)

end StraightMachine

/-- The executed operations that are not part of a pair. -/
def unpairedEvents (pending : Nat → Option X86StraightAffineFusion) (events : List Event) :
    List Event :=
  events.filter fun event => (pending event.index).isNone && (pending (event.index + 1)).isNone

/-- Any number of iterations with the pairs fused leaves the body at the same operation and with
the same context as the operations in sequence, gives every consumer the same result and every
other operation the same operands, and leaves the same values in the published slots. -/
def FusionPreserves (config : NativeStraightLongLoopConfig)
    (pending : Nat → Option X86StraightAffineFusion) (publicationMask : Mask) : Prop :=
  ∀ (W : Type) (ctx : NativeContext W) (slots : Slot → Int64) (world : W) (n : Nat),
    let sequential := (StraightMachine.pass ctx false config (.rangeProven config))^[n]
      (.enter config slots world)
    let fused := (StraightMachine.fusedPass ctx config (.rangeProven config) pending)^[n]
      (.enter config slots world)
    fused.exit = sequential.exit ∧ fused.world = sequential.world ∧
      unpairedEvents pending fused.log = unpairedEvents pending sequential.log ∧
      (∀ index, (pending (index + 1)).isNone → fused.results index = sequential.results index) ∧
      ∀ slot ∈ publicationMask,
        storedSlots config fused slot = storedSlots config sequential slot

/-- The body writes the slot, and on some path an operation reads what an earlier iteration left
in it. -/
def CarriedOnPath (config : NativeStraightLongLoopConfig) (slot : Slot) : Prop :=
  (∃ writer, slot ∈ config.shadowOutputMask writer) ∧
    ∃ reader nodes, config.Path 0 nodes reader ∧ slot ∈ config.inputMask reader ∧
      ∀ x ∈ nodes, slot ∉ config.shadowOutputMask x

end Rphp.Jit
