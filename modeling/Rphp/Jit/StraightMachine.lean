import Rphp.Jit.Straight

namespace Rphp.Jit
open Rphp.Lib NativeStraightLongLoopConfig
set_option autoImplicit true

/-- What lies behind the context pointers: hash entries, and the helpers on indexed arrays. -/
structure NativeContext (W : Type) where
  entryLoad : W → Nat → Int64
  entryStore : W → Nat → Int64 → W
  indexedLongLookup : W → Nat → Int64 → Option Int64
  longArraySet : W → Nat → Bool → Int64 → Int64 → W × Bool

/-- The context of a loop without contextual operations. -/
def noContext : NativeContext Unit where
  entryLoad _ _ := 0
  entryStore world _ _ := world
  indexedLongLookup _ _ _ := none
  longArraySet world _ _ _ _ := (world, false)

def fitsLong (value : Int) : Bool :=
  Int64.minValue.toInt ≤ value && value ≤ Int64.maxValue.toInt

/-- One arithmetic operation. The unchecked entry wraps around; no entry divides by zero or takes
the quotient or the remainder of the least Long by `-1`. -/
def ScalarLongOpKind.eval (checked : Bool) (kind : ScalarLongOpKind) (lhs rhs : Int64) :
    Option Int64 :=
  match kind with
  | .add => if checked && !fitsLong (lhs.toInt + rhs.toInt) then none else some (lhs + rhs)
  | .subtract => if checked && !fitsLong (lhs.toInt - rhs.toInt) then none else some (lhs - rhs)
  | .multiply => if checked && !fitsLong (lhs.toInt * rhs.toInt) then none else some (lhs * rhs)
  | .intDivide =>
    if rhs = 0 ∨ rhs = -1 ∧ lhs = Int64.minValue then none else some (lhs / rhs)
  | .modulo =>
    if rhs = 0 ∨ rhs = -1 ∧ lhs = Int64.minValue then none else some (lhs % rhs)
  | .bitwiseAnd => some (lhs &&& rhs)
  | .bitwiseOr => some (lhs ||| rhs)
  | .bitwiseXor => some (lhs ^^^ rhs)
  | .compare => none

def ScalarLongConditionKind.holds (kind : ScalarLongConditionKind) (lhs rhs : Int64) : Bool :=
  match kind with
  | .equal => lhs = rhs
  | .notEqual => lhs ≠ rhs
  | .lessThan => lhs < rhs
  | .lessThanOrEqual => lhs ≤ rhs

def NativeStraightLongConditionOperand.eval (read : QuickLongOperand → Int64) :
    NativeStraightLongConditionOperand → Int64
  | .source operand => read operand
  | .bitwiseAnd lhs rhs => read lhs &&& read rhs

def NativeStraightLongConditionOperand.operands :
    NativeStraightLongConditionOperand → List QuickLongOperand
  | .source operand => [operand]
  | .bitwiseAnd lhs rhs => [lhs, rhs]

/-- The token compared with the members of its table, one after the other. -/
def selectToken (token : Int64) (tokenCount : Nat) : Option Nat :=
  (List.range tokenCount).find? fun index => token = Int64.ofNat index

/-- What one operation does: it produces a value or none and falls through, it decides a branch,
or it leaves the body. -/
inductive Effect (W : Type) where
  | next (value : Option Int64) (world : W)
  | branch (holds : Bool) (falseTarget : Nat)
  | jump (target : Nat)
  | sideExit (world : W)
  | fault

namespace NativeStraightLongOperation

/-- The operands, in the order in which the operation has them. -/
def operands : NativeStraightLongOperation → List QuickLongOperand
  | unused => []
  | modulo value _ _ => [value]
  | move source _ => [source]
  | stringToken _ _ => []
  | stringLength source _ _ _ => [.slot source]
  | hashLoad key _ _ _ _ => [.slot key]
  | hashStore key _ _ source => [.slot key, source]
  | indexedLongLoad key _ _ _ => [key]
  | arrayLongSet key value _ _ => [key, value]
  | binary _ lhs rhs _ => [lhs, rhs]
  | binaryAssign _ lhs rhs _ _ => [lhs, rhs]
  | guard _ lhs rhs _ => lhs.operands ++ rhs.operands
  | branchUnless _ lhs rhs _ => lhs.operands ++ rhs.operands
  | jump _ => []

/-- An arithmetic result, the side exit of the checked entry or the fault of the other one. -/
def arithmetic (checked : Bool) (world : W) : Option Int64 → Effect W
  | some value => .next (some value) world
  | none => if checked then .sideExit world else .fault

def eval (ctx : NativeContext W) (checked : Bool) (read : QuickLongOperand → Int64) (world : W) :
    NativeStraightLongOperation → Effect W
  | unused => .next none world
  | modulo value divisor _ =>
    arithmetic checked world (ScalarLongOpKind.modulo.eval checked (read value) divisor)
  | move source _ => .next (some (read source)) world
  | stringToken token _ => .next (some (Int64.ofNat token)) world
  | stringLength source lengths tokenCount _ =>
    match selectToken (read (.slot source)) tokenCount with
    | some index => .next (some (lengths (Fin.ofNat 4 index))) world
    | none => .sideExit world
  | hashLoad key entryBase tokenCount _ _ =>
    match selectToken (read (.slot key)) tokenCount with
    | some index => .next (some (ctx.entryLoad world (entryBase + index))) world
    | none => .sideExit world
  | hashStore key entryBase tokenCount source =>
    match selectToken (read (.slot key)) tokenCount with
    | some index => .next none (ctx.entryStore world (entryBase + index) (read source))
    | none => .sideExit world
  | indexedLongLoad key context _ _ =>
    match ctx.indexedLongLookup world context (read key) with
    | some value => .next (some value) world
    | none => .sideExit world
  | arrayLongSet key value context deferredReserve =>
    match ctx.longArraySet world context deferredReserve (read key) (read value) with
    | (world, true) => .next none world
    | (world, false) => .sideExit world
  | binary kind lhs rhs _ => arithmetic checked world (kind.eval checked (read lhs) (read rhs))
  | binaryAssign kind lhs rhs _ _ =>
    arithmetic checked world (kind.eval checked (read lhs) (read rhs))
  | guard kind lhs rhs expected =>
    if kind.holds (lhs.eval read) (rhs.eval read) = expected then .next none world
    else .sideExit world
  | branchUnless kind lhs rhs falseTarget =>
    .branch (kind.holds (lhs.eval read) (rhs.eval read)) falseTarget
  | jump target => .jump target

end NativeStraightLongOperation

/-- How an entry is emitted: which results an operation stores in the shadow, whether it hands its
result to the next operation in a register, and where the induction value is incremented if not at
the loop tail. -/
structure Emission where
  keep : Nat → Mask
  forward : Nat → Bool
  early : Option Nat

/-- Every result is stored, nothing is forwarded, and the increment stands at the tail. -/
def Emission.canonical : Emission where
  keep _ := BitVec.allOnes 64
  forward _ := false
  early := none

inductive NativeExit where
  | operationSideExit (index : Nat)
  | fault (index : Nat)
  deriving DecidableEq

/-- One executed operation: the operands it got, and the decision if it is a branch. -/
structure Event where
  index : Nat
  operands : List Int64
  decision : Option Bool
  deriving DecidableEq

/-- A running loop. `forwarded` are the slots whose value the forwarding register holds, and
`results` the last value that each operation produced. -/
structure StraightMachine (W : Type) where
  index : Nat
  exit : Option NativeExit
  shadow : Slot → Int64
  induction : Int64
  forwarded : Mask
  register : Int64
  results : Nat → Option Int64
  world : W
  log : List Event

namespace StraightMachine

/-- The machine at the loop head, with the induction value in its register. -/
def enter (config : NativeStraightLongLoopConfig) (slots : Slot → Int64) (world : W) :
    StraightMachine W where
  index := 0
  exit := none
  shadow := slots
  induction := slots config.inductionSlot
  forwarded := 0
  register := 0
  results _ := none
  world := world
  log := []

def read (config : NativeStraightLongLoopConfig) (m : StraightMachine W) :
    QuickLongOperand → Int64
  | .slot slot =>
    if slot = config.inductionSlot then m.induction
    else if slot ∈ m.forwarded then m.register
    else m.shadow slot
  | .const value => value

/-- The increment in front of an operation. -/
def beginOperation (e : Emission) (m : StraightMachine W) : StraightMachine W :=
  if e.early = some m.index then { m with induction := m.induction + 1 } else m

/-- Continue after the effect of the operation at the current index. -/
def advance (e : Emission) (outputs : Mask) (operands : List Int64) (m : StraightMachine W) :
    Effect W → StraightMachine W
  | .next (some value) world =>
    { m with
      index := m.index + 1
      shadow := fun slot => if slot ∈ outputs &&& e.keep m.index then value else m.shadow slot
      forwarded := if e.forward m.index then outputs else 0
      register := value
      results := Function.update m.results m.index (some value)
      world := world
      log := m.log ++ [⟨m.index, operands, none⟩] }
  | .next none world =>
    { m with
      index := m.index + 1
      forwarded := 0
      world := world
      log := m.log ++ [⟨m.index, operands, none⟩] }
  | .branch holds falseTarget =>
    { m with
      index := if holds then m.index + 1 else falseTarget
      forwarded := 0
      log := m.log ++ [⟨m.index, operands, some holds⟩] }
  | .jump target =>
    { m with
      index := target
      forwarded := 0
      log := m.log ++ [⟨m.index, operands, none⟩] }
  | .sideExit world =>
    { m with
      exit := some (.operationSideExit m.index)
      world := world
      log := m.log ++ [⟨m.index, operands, none⟩] }
  | .fault =>
    { m with
      exit := some (.fault m.index)
      log := m.log ++ [⟨m.index, operands, none⟩] }

/-- Execute the operation at the current index. The machine rests at the loop tail and after an
exit. -/
def step (ctx : NativeContext W) (checked : Bool) (config : NativeStraightLongLoopConfig)
    (e : Emission) (m : StraightMachine W) : StraightMachine W :=
  match m.exit, config.operations[m.index]? with
  | none, some operation =>
    let m := beginOperation e m
    advance e operation.shadowOutputMask (operation.operands.map (m.read config)) m
      (operation.eval ctx checked (m.read config) m.world)
  | _, _ => m

/-- The loop tail: the post-increment result, the increment, and the way back to the loop head. -/
def tail (config : NativeStraightLongLoopConfig) (e : Emission) (m : StraightMachine W) :
    StraightMachine W :=
  if m.exit = none ∧ m.index = config.operationCount then
    { m with
      index := 0
      shadow := config.postResult.elim m.shadow fun slot =>
        Function.update m.shadow slot m.induction
      induction := if e.early = none then m.induction + 1 else m.induction
      forwarded := 0 }
  else
    m

/-- One iteration: the body, then the tail. -/
def pass (ctx : NativeContext W) (checked : Bool) (config : NativeStraightLongLoopConfig)
    (e : Emission) (m : StraightMachine W) : StraightMachine W :=
  tail config e ((step ctx checked config e)^[config.operationCount] m)

end StraightMachine

/-! What an operation reads, writes and leads to. -/

theorem mem_operandMask : slot ∈ operandMask operand ↔ operand = .slot slot := by
  cases operand with
  | slot other => simp [operandMask, eq_comm]
  | const value => simp [operandMask]

theorem mem_conditionOperandMask (operand : NativeStraightLongConditionOperand) :
    slot ∈ conditionOperandMask operand ↔ .slot slot ∈ operand.operands := by
  cases operand <;>
    simp [conditionOperandMask, NativeStraightLongConditionOperand.operands, mem_operandMask,
      eq_comm]

namespace NativeStraightLongOperation

theorem mem_inputMask (operation : NativeStraightLongOperation) :
    slot ∈ straightLongOperationInputMask operation ↔ .slot slot ∈ operation.operands := by
  cases operation <;>
    simp [straightLongOperationInputMask, operands, mem_operandMask, mem_conditionOperandMask,
      eq_comm]

section

variable {f g : QuickLongOperand → Int64}

theorem condition_eval_congr {operand : NativeStraightLongConditionOperand}
    (h : ∀ o ∈ operand.operands, f o = g o) : operand.eval f = operand.eval g := by
  cases operand with
  | source o => exact h o (by simp [NativeStraightLongConditionOperand.operands])
  | bitwiseAnd lhs rhs =>
    simp only [NativeStraightLongConditionOperand.operands, List.mem_cons, List.not_mem_nil,
      or_false, forall_eq_or_imp, forall_eq] at h
    simp only [NativeStraightLongConditionOperand.eval, h.1, h.2]

/-- An operation depends on the slots only through its operands. -/
theorem eval_congr {ctx : NativeContext W} {operation : NativeStraightLongOperation}
    (h : ∀ o ∈ operation.operands, f o = g o) :
    operation.eval ctx checked f world = operation.eval ctx checked g world := by
  cases operation with
  | guard kind lhs rhs expected | branchUnless kind lhs rhs target =>
    simp only [operands, List.mem_append] at h
    simp only [eval, condition_eval_congr (fun o ho => h o (.inl ho)),
      condition_eval_congr (fun o ho => h o (.inr ho))]
  | _ => simp_all [operands, eval]

end

end NativeStraightLongOperation

/-- The effect leads to a successor of the operation, and without a value there are no outputs. -/
def Effect.Fits (config : NativeStraightLongLoopConfig) (index : Nat) (outputs : Mask) :
    Effect W → Prop
  | .next (some _) _ => index + 1 ∈ config.successors index
  | .next none _ => index + 1 ∈ config.successors index ∧ outputs = 0
  | .branch holds falseTarget =>
    (if holds then index + 1 else falseTarget) ∈ config.successors index ∧ outputs = 0
  | .jump target => target ∈ config.successors index ∧ outputs = 0
  | .sideExit _ => True
  | .fault => True

theorem arithmetic_fits {config : NativeStraightLongLoopConfig} {world : W}
    (h : index + 1 ∈ config.successors index) (result : Option Int64) :
    (NativeStraightLongOperation.arithmetic checked world result).Fits config index outputs := by
  cases result with
  | none =>
    unfold NativeStraightLongOperation.arithmetic
    cases checked <;> trivial
  | some value => exact h

theorem eval_fits {config : NativeStraightLongLoopConfig}
    {operation : NativeStraightLongOperation} {index : Nat} (ctx : NativeContext W)
    (checked : Bool) (f : QuickLongOperand → Int64) (world : W)
    (ho : config.operations[index]? = some operation) :
    (operation.eval ctx checked f world).Fits config index operation.shadowOutputMask := by
  cases operation with
  | modulo | binary | binaryAssign =>
    exact arithmetic_fits (by simp [successors, ho]) _
  | branchUnless kind lhs rhs target =>
    refine ⟨?_, rfl⟩
    simp only [successors, ho]
    split <;> simp
  | jump target => exact ⟨by simp [successors, ho], rfl⟩
  | unused => exact ⟨by simp [successors, ho], rfl⟩
  | move | stringToken => simp [NativeStraightLongOperation.eval, Effect.Fits, successors, ho]
  | stringLength | hashLoad | hashStore | indexedLongLoad | arrayLongSet | guard =>
    simp only [NativeStraightLongOperation.eval]
    split <;> simp [Effect.Fits, successors, ho, NativeStraightLongOperation.shadowOutputMask,
      NativeStraightLongOperation.outputMask]

namespace StraightMachine

variable {ctx : NativeContext W} {config : NativeStraightLongLoopConfig} {e : Emission}
variable {m : StraightMachine W}

theorem step_of_exit (h : m.exit ≠ none) : step ctx checked config e m = m := by
  unfold step
  split
  · contradiction
  · rfl

theorem exit_of_step (h : (step ctx checked config e m).exit = none) : m.exit = none := by
  by_contra he
  rw [step_of_exit he] at h
  exact he h

theorem step_of_none (h : config.operations[m.index]? = none) :
    step ctx checked config e m = m := by
  unfold step
  split
  · simp_all
  · rfl

theorem step_of_some (he : m.exit = none) (ho : config.operations[m.index]? = some operation) :
    step ctx checked config e m =
      advance e operation.shadowOutputMask
        (operation.operands.map ((beginOperation e m).read config)) (beginOperation e m)
        (operation.eval ctx checked ((beginOperation e m).read config)
          (beginOperation e m).world) := by
  simp only [step, he, ho]

@[simp] theorem beginOperation_index : (beginOperation e m).index = m.index := by
  unfold beginOperation
  split <;> rfl

@[simp] theorem beginOperation_exit : (beginOperation e m).exit = m.exit := by
  unfold beginOperation
  split <;> rfl

/-- An effect that does not leave the body passes control to a successor. -/
theorem advance_index_mem_successors {outputs : Mask} {effect : Effect W}
    (hfits : effect.Fits config m.index outputs)
    (hs : (advance e outputs operands m effect).exit = none) :
    (advance e outputs operands m effect).index ∈ config.successors m.index := by
  cases effect with
  | next value world => cases value <;> simp_all [advance, Effect.Fits]
  | branch holds target => simp_all [advance, Effect.Fits]
  | jump target => simp_all [advance, Effect.Fits]
  | sideExit world => simp [advance] at hs
  | fault => simp [advance] at hs

theorem advance_index_of_exit {outputs : Mask} {effect : Effect W} (he : m.exit = none)
    (hs : (advance e outputs operands m effect).exit ≠ none) :
    (advance e outputs operands m effect).index = m.index := by
  cases effect with
  | next value world => cases value <;> exact absurd he hs
  | branch holds target => exact absurd he hs
  | jump target => exact absurd he hs
  | sideExit world => rfl
  | fault => rfl

/-- An operation that does not leave the body passes control to one of its successors. -/
theorem index_mem_successors (he : m.exit = none)
    (ho : config.operations[m.index]? = some operation)
    (hs : (step ctx checked config e m).exit = none) :
    (step ctx checked config e m).index ∈ config.successors m.index := by
  have hfits := eval_fits ctx checked ((beginOperation e m).read config)
    (beginOperation e m).world ho
  rw [step_of_some he ho] at hs ⊢
  rw [← beginOperation_index (e := e)] at hfits ⊢
  exact advance_index_mem_successors hfits hs

/-- The loop that stores everything holds the last result of an operation in all its outputs. -/
theorem canonical_step_defines (he : m.exit = none)
    (ho : config.operations[m.index]? = some operation)
    (hs : (step ctx checked config .canonical m).exit = none) :
    (∀ j ≠ m.index, (step ctx checked config .canonical m).results j = m.results j) ∧
      (∀ slot ∉ operation.shadowOutputMask,
        (step ctx checked config .canonical m).shadow slot = m.shadow slot) ∧
      ∀ slot ∈ operation.shadowOutputMask,
        (step ctx checked config .canonical m).results m.index =
          some ((step ctx checked config .canonical m).shadow slot) := by
  have hbegin : beginOperation .canonical m = m := by simp [beginOperation, Emission.canonical]
  have hfits := eval_fits ctx checked (m.read config) m.world ho
  rw [step_of_some he ho, hbegin] at hs ⊢
  cases h : operation.eval ctx checked (m.read config) m.world with
  | next value world =>
    rw [h] at hfits
    cases value with
    | none => simp [advance, hfits.2]
    | some value =>
      refine ⟨fun j hj => Function.update_of_ne hj _ _, fun slot hslot => ?_, fun slot hslot => ?_⟩
      · simp only [advance, mem_and, hslot, false_and, ↓reduceIte]
      · simp only [advance, Function.update_self, mem_and, hslot, Emission.canonical,
          mem_allOnes, and_self, ↓reduceIte]
  | branch holds target | jump target =>
    rw [h] at hfits
    simp [advance, hfits.2]
  | sideExit world => simp [h, advance] at hs
  | fault => simp [h, advance] at hs

theorem step_bounds (hf : config.ForwardOnly) (hle : m.index ≤ config.operationCount)
    (hs : (step ctx checked config e m).exit = none) :
    min (m.index + 1) config.operationCount ≤ (step ctx checked config e m).index ∧
      (step ctx checked config e m).index ≤ config.operationCount := by
  cases ho : config.operations[m.index]? with
  | none =>
    have := List.getElem?_eq_none_iff.1 ho
    rw [step_of_none ho]
    unfold operationCount at *
    omega
  | some operation =>
    have := hf.bounds (index_mem_successors (exit_of_step hs) ho hs)
    omega

theorem exit_of_iterate_step (n : Nat)
    (h : ((step ctx checked config e)^[n] m).exit = none) : m.exit = none := by
  induction n with
  | zero => exact h
  | succ n ih =>
    rw [Function.iterate_succ_apply'] at h
    exact ih (exit_of_step h)

theorem iterate_step_bounds (hf : config.ForwardOnly) (hle : m.index ≤ config.operationCount)
    (n : Nat) (hs : ((step ctx checked config e)^[n] m).exit = none) :
    min (m.index + n) config.operationCount ≤ ((step ctx checked config e)^[n] m).index ∧
      ((step ctx checked config e)^[n] m).index ≤ config.operationCount := by
  induction n with
  | zero => exact ⟨Nat.min_le_left _ _, hle⟩
  | succ n ih =>
    rw [Function.iterate_succ_apply'] at hs ⊢
    have hn := ih (exit_of_step hs)
    have hstep := step_bounds hf hn.2 hs
    omega

/-- A body with forward branches only comes to the loop tail, unless it is left before. -/
theorem body_ends (hf : config.ForwardOnly) (hm : m.index = 0)
    (hs : ((step ctx checked config e)^[config.operationCount] m).exit = none) :
    ((step ctx checked config e)^[config.operationCount] m).index = config.operationCount := by
  have := iterate_step_bounds hf (by omega) config.operationCount hs
  omega

end StraightMachine

end Rphp.Jit
