import Rphp.Jit.ScalarDouble

namespace Rphp.Jit
set_option autoImplicit true

inductive QuickDoubleSource (V : Type) where
  | input (index : Nat)
  | induction
  | constant (value : V)
  | temporary (index : Nat)
  deriving DecidableEq, Repr

structure QuickDoubleArgumentOp (V : Type) where
  kind : ScalarDoubleOpKind
  lhs : QuickDoubleSource V
  rhs : QuickDoubleSource V
  deriving DecidableEq, Repr

/-- The outputs are the ones in use, of the eight that there can be. -/
structure QuickDoubleArgumentProgram (V : Type) where
  operations : List (QuickDoubleArgumentOp V)
  outputs : List (QuickDoubleSource V)
  outputCount : outputs.length ≤ 8

namespace QuickDoubleArgumentProgram

/-- Nothing comes out when the recursion does not end within the fuel. -/
def sourceDependsOnInduction (program : QuickDoubleArgumentProgram V) :
    Nat → QuickDoubleSource V → Option Bool
  | 0, _ => none
  | _ + 1, .induction => some true
  | fuel + 1, .temporary index =>
    match program.operations[index]? with
    | none => some false
    | some operation => do
      if ← program.sourceDependsOnInduction fuel operation.lhs then return true
      program.sourceDependsOnInduction fuel operation.rhs
  | _ + 1, .input _ => some false
  | _ + 1, .constant _ => some false

end QuickDoubleArgumentProgram

def ScalarDoubleSource.usesArgument (argument : Nat) : ScalarDoubleSource V → Bool
  | .input index => index = argument
  | _ => false

/-- Whether an operation of the leaf reads an argument behind the write to the register. -/
def readsOverwritten (argument overwrite index : Nat) (operation : ScalarDoubleOp V) : Bool :=
  let lhsUsesArgument := operation.lhs.usesArgument argument
  let rhsUsesArgument := operation.rhs.usesArgument argument
  (lhsUsesArgument && index > overwrite) ||
    (rhsUsesArgument && (index > overwrite || (index = overwrite && !lhsUsesArgument)))

def safeToForward (leaf : ScalarDoubleProgram V) (argument overwrite : Nat) : Bool :=
  !(leaf.operations.zipIdx.any fun entry =>
      readsOverwritten argument overwrite entry.2 entry.1) &&
    !(leaf.output.usesArgument argument && leaf.operations.length > overwrite)

namespace QuickDoubleArgumentProgram

/-- The loop over the outputs from one on. -/
def forwardableFrom (program : QuickDoubleArgumentProgram V) (leaf : ScalarDoubleProgram V)
    (fuel : Nat) : List (QuickDoubleSource V) → Nat → BitVec 8 → Option (BitVec 8)
  | [], _, mask => some mask
  | .temporary register :: outputs, argument, mask => do
    if ← program.sourceDependsOnInduction fuel (.temporary register) then
      let mask := if safeToForward leaf argument register then mask ||| 1#8 <<< argument else mask
      program.forwardableFrom leaf fuel outputs (argument + 1) mask
    else program.forwardableFrom leaf fuel outputs (argument + 1) mask
  | _ :: outputs, argument, mask => program.forwardableFrom leaf fuel outputs (argument + 1) mask

/-- The public arguments that may stay in their temporary of the argument program. -/
def registerForwardableOutputMask (program : QuickDoubleArgumentProgram V)
    (leaf : ScalarDoubleFunctionPlan V) (fuel : Nat) : Option (BitVec 8) :=
  if leaf.select.isSome then some 0
  else program.forwardableFrom leaf.program fuel program.outputs 0 0

end QuickDoubleArgumentProgram

/-- The registers of the temporaries. -/
abbrev Bank (V : Type) := Nat → V

def Bank.write (bank : Bank V) (register : Nat) (value : V) : Bank V :=
  fun other => if other = register then value else bank other

@[simp] theorem Bank.write_self (bank : Bank V) (register : Nat) (value : V) :
    bank.write register value register = value :=
  if_pos rfl

theorem Bank.write_other (bank : Bank V) (value : V) (h : other ≠ register) :
    bank.write register value other = bank other :=
  if_neg h

/-- An operation that copies its left operand into its register and combines it there with the
right one, which is read behind the copy. -/
def combineInPlace (ops : DoubleOperations V) (kind : ScalarDoubleOpKind) (register : Nat)
    (lhs rhs : Bank V → Option V) (bank : Bank V) : Option (Bank V) := do
  let left ← lhs bank
  let bank := bank.write register left
  let right ← rhs bank
  let value ← ops.combine kind (bank register) right
  return bank.write register value

section Arguments

variable (ops : DoubleOperations V) (inputs : Nat → V) (induction : V)

def QuickDoubleSource.read : QuickDoubleSource V → Bank V → V
  | .input index, _ => inputs index
  | .induction, _ => induction
  | .constant value, _ => value
  | .temporary index, bank => bank index

/-- The operations of an argument program from an index on. -/
def runArgumentsFrom : List (QuickDoubleArgumentOp V) → Nat → Bank V → Option (Bank V)
  | [], _, bank => some bank
  | operation :: operations, index, bank => do
    let bank ← combineInPlace ops operation.kind index
      (fun bank => some (operation.lhs.read inputs induction bank))
      (fun bank => some (operation.rhs.read inputs induction bank)) bank
    runArgumentsFrom operations (index + 1) bank

def QuickDoubleArgumentProgram.run (program : QuickDoubleArgumentProgram V) (bank : Bank V) :
    Option (Bank V) :=
  runArgumentsFrom ops inputs induction program.operations 0 bank

/-- The separate locations of the arguments hold the outputs of the argument program. -/
def QuickDoubleArgumentProgram.locations (program : QuickDoubleArgumentProgram V)
    (bank : Bank V) (argument : Nat) : Option V :=
  program.outputs[argument]?.map fun output => output.read inputs induction bank

end Arguments

/-- The register that an argument of the mask is read from. -/
def QuickDoubleArgumentProgram.forwardedRegister (program : QuickDoubleArgumentProgram V)
    (mask : BitVec 8) (argument : Nat) : Option Nat :=
  if mask.getLsbD argument then
    match program.outputs[argument]? with
    | some (.temporary register) => some register
    | _ => none
  else none

section Leaf

variable (ops : DoubleOperations V) (forwarded : Nat → Option Nat) (locations : Nat → Option V)

/-- A forwarded argument is read from the bank, any other one from its location. -/
def ScalarDoubleSource.readForwarded : ScalarDoubleSource V → Bank V → Option V
  | .input index, bank =>
    match forwarded index with
    | some register => some (bank register)
    | none => locations index
  | .constant value, _ => some value
  | .temporary index, bank => some (bank index)
  | .selection, _ => none

def runLeafFrom : List (ScalarDoubleOp V) → Nat → Bank V → Option (Bank V)
  | [], _, bank => some bank
  | operation :: operations, index, bank => do
    let bank ← combineInPlace ops operation.kind index
      (operation.lhs.readForwarded forwarded locations)
      (operation.rhs.readForwarded forwarded locations) bank
    runLeafFrom operations (index + 1) bank

/-- The output of an unconditional leaf. -/
def runLeaf (leaf : ScalarDoubleProgram V) (bank : Bank V) : Option V := do
  let bank ← runLeafFrom ops forwarded locations leaf.operations 0 bank
  leaf.output.readForwarded forwarded locations bank

end Leaf

section Safe

variable {leaf : ScalarDoubleProgram V} {argument register : Nat}

@[simp] theorem usesArgument_iff {source : ScalarDoubleSource V} :
    source.usesArgument argument = true ↔ source = .input argument := by
  cases source with
  | input index => simp [ScalarDoubleSource.usesArgument]
  | constant value => simp [ScalarDoubleSource.usesArgument]
  | temporary index => simp [ScalarDoubleSource.usesArgument]
  | selection => simp [ScalarDoubleSource.usesArgument]

/-- What the operations from an index on owe a register that holds an argument. -/
def KeepsRegister (argument register : Nat) (operations : List (ScalarDoubleOp V))
    (index : Nat) : Prop :=
  ∀ i (operation : ScalarDoubleOp V), operations[i]? = some operation →
    (operation.lhs = .input argument → index + i ≤ register) ∧
    (operation.rhs = .input argument →
      index + i < register ∨ (index + i = register ∧ operation.lhs = .input argument))

theorem KeepsRegister.head (h : KeepsRegister argument register (operation :: operations) index) :
    (operation.lhs = .input argument → index ≤ register) ∧
    (operation.rhs = .input argument →
      index < register ∨ (index = register ∧ operation.lhs = .input argument)) :=
  h 0 operation rfl

theorem KeepsRegister.tail (h : KeepsRegister argument register (operation :: operations) index) :
    KeepsRegister argument register operations (index + 1) := by
  intro i other hother
  have hat := h (i + 1) other (by simpa using hother)
  rw [Nat.add_assoc, Nat.add_comm 1 i]
  exact hat

theorem keepsRegister_of_safe (h : safeToForward leaf argument register = true) :
    KeepsRegister argument register leaf.operations 0 ∧
      (leaf.output = .input argument → leaf.operations.length ≤ register) := by
  rw [safeToForward, Bool.and_eq_true, Bool.not_eq_true', Bool.not_eq_true',
    List.any_eq_false] at h
  obtain ⟨hoperations, houtput⟩ := h
  constructor
  · intro i operation hoperation
    have hsafe := hoperations (operation, i) (List.mk_mem_zipIdx_iff_getElem?.mpr hoperation)
    simp only [readsOverwritten, Bool.or_eq_true, Bool.and_eq_true, usesArgument_iff,
      decide_eq_true_eq, Bool.not_eq_true', not_or, not_and] at hsafe
    obtain ⟨hlhs, hrhs⟩ := hsafe
    rw [Nat.zero_add]
    constructor
    · intro huse
      exact Nat.le_of_not_lt (hlhs huse)
    · intro huse
      obtain ⟨hle, heq⟩ := hrhs huse
      obtain hlt | hregister := Nat.lt_or_eq_of_le (Nat.le_of_not_lt hle)
      · exact .inl hlt
      · refine .inr ⟨hregister, ?_⟩
        have hboth := heq hregister
        rwa [Bool.not_eq_false, usesArgument_iff] at hboth
  · intro huse
    rw [Bool.and_eq_false_iff, ← Bool.not_eq_true, usesArgument_iff] at houtput
    obtain hnot | hle := houtput
    · exact absurd huse hnot
    · simpa using hle

end Safe

section Mask

variable {program : QuickDoubleArgumentProgram V} {leaf : ScalarDoubleProgram V}

theorem forwardableFrom_safe {outputs : List (QuickDoubleSource V)} {start : Nat}
    {mask : BitVec 8} (h : program.forwardableFrom leaf fuel outputs start mask = some result)
    (hbit : result.getLsbD argument = true) :
    mask.getLsbD argument = true ∨ (start ≤ argument ∧ ∃ register,
      outputs[argument - start]? = some (.temporary register) ∧
        safeToForward leaf argument register = true) := by
  induction outputs generalizing start mask with
  | nil =>
    cases h
    exact .inl hbit
  | cons output outputs ih =>
    have hnext : ∀ {mask : BitVec 8},
        program.forwardableFrom leaf fuel outputs (start + 1) mask = some result →
        mask.getLsbD argument = true ∨ (start ≤ argument ∧ ∃ register,
          (output :: outputs)[argument - start]? = some (.temporary register) ∧
            safeToForward leaf argument register = true) := by
      intro mask hrest
      obtain hmask | ⟨hle, register, houtput, hsafe⟩ := ih hrest
      · exact .inl hmask
      · refine .inr ⟨by omega, register, ?_, hsafe⟩
        rw [← houtput, show argument - start = argument - (start + 1) + 1 by omega,
          List.getElem?_cons_succ]
    cases output with
    | input index => exact hnext h
    | induction => exact hnext h
    | constant value => exact hnext h
    | temporary register =>
      unfold QuickDoubleArgumentProgram.forwardableFrom at h
      obtain ⟨depends, -, h⟩ := Option.bind_eq_some_iff.mp h
      cases depends with
      | false => exact hnext h
      | true =>
        obtain hmask | hlater := hnext h
        · split at hmask
          · rename_i hsafe
            rw [BitVec.getLsbD_or, Bool.or_eq_true] at hmask
            obtain hmask | hone := hmask
            · exact .inl hmask
            · rw [← BitVec.twoPow_eq, BitVec.getLsbD_twoPow, Bool.and_eq_true] at hone
              obtain rfl : start = argument := of_decide_eq_true hone.2
              exact .inr ⟨le_refl start, register, by simp, hsafe⟩
          · exact .inl hmask
        · exact .inr hlater

/-- An argument that the mask forwards is the output of its register, which the leaf keeps for
as long as it reads the argument. -/
theorem forwardedRegister_safe {plan : ScalarDoubleFunctionPlan V}
    (hmask : program.registerForwardableOutputMask plan fuel = some mask)
    (h : program.forwardedRegister mask argument = some register) :
    program.outputs[argument]? = some (.temporary register) ∧
      safeToForward plan.program argument register = true := by
  unfold QuickDoubleArgumentProgram.forwardedRegister at h
  split at h
  · rename_i hbit
    unfold QuickDoubleArgumentProgram.registerForwardableOutputMask at hmask
    split at hmask
    · cases hmask
      simp at hbit
    · obtain hzero | ⟨-, found, houtput, hsafe⟩ := forwardableFrom_safe hmask hbit
      · simp at hzero
      · rw [Nat.sub_zero] at houtput
        simp only [houtput, Option.some.injEq] at h
        subst h
        exact ⟨houtput, hsafe⟩
  · cases h

/-- The temporaries that a source reads come in front of an operation. -/
def QuickDoubleSource.Before (index : Nat) : QuickDoubleSource V → Prop
  | .temporary register => register < index
  | _ => True

/-- What the validation of an argument program checks of its temporaries. -/
def QuickDoubleArgumentProgram.Ordered (program : QuickDoubleArgumentProgram V) : Prop :=
  ∀ index (operation : QuickDoubleArgumentOp V), program.operations[index]? = some operation →
    operation.lhs.Before index ∧ operation.rhs.Before index

theorem sourceDependsOnInduction_ends (hordered : program.Ordered)
    {source : QuickDoubleSource V} (hbefore : source.Before bound) (hfuel : bound < fuel) :
    ∃ depends, program.sourceDependsOnInduction fuel source = some depends := by
  induction fuel generalizing bound source with
  | zero => exact absurd hfuel (Nat.not_lt_zero bound)
  | succ fuel ih =>
    cases source with
    | input index => exact ⟨false, rfl⟩
    | induction => exact ⟨true, rfl⟩
    | constant value => exact ⟨false, rfl⟩
    | temporary register =>
      have hregister : register < bound := hbefore
      unfold QuickDoubleArgumentProgram.sourceDependsOnInduction
      cases hoperation : program.operations[register]? with
      | none => exact ⟨false, rfl⟩
      | some operation =>
        obtain ⟨hlhs, hrhs⟩ := hordered register operation hoperation
        obtain ⟨left, hleft⟩ := ih hlhs (by omega)
        obtain ⟨right, hright⟩ := ih hrhs (by omega)
        simp only [hleft, hright]
        cases left with
        | true => exact ⟨true, rfl⟩
        | false => exact ⟨right, rfl⟩

theorem outputDependsOnInduction_ends (hordered : program.Ordered)
    (source : QuickDoubleSource V) :
    ∃ depends, program.sourceDependsOnInduction (program.operations.length + 1) source =
      some depends := by
  cases source with
  | input index => exact ⟨false, rfl⟩
  | induction => exact ⟨true, rfl⟩
  | constant value => exact ⟨false, rfl⟩
  | temporary register =>
    by_cases hinside : register < program.operations.length
    · have hbefore : (QuickDoubleSource.temporary register : QuickDoubleSource V).Before
          program.operations.length := hinside
      exact sourceDependsOnInduction_ends hordered hbefore (Nat.lt_succ_self _)
    · refine ⟨false, ?_⟩
      unfold QuickDoubleArgumentProgram.sourceDependsOnInduction
      rw [List.getElem?_eq_none (Nat.le_of_not_lt hinside)]

/-- A validated argument program has a mask. -/
theorem registerForwardableOutputMask_ends (hordered : program.Ordered)
    (plan : ScalarDoubleFunctionPlan V) :
    ∃ fuel mask, program.registerForwardableOutputMask plan fuel = some mask := by
  refine ⟨program.operations.length + 1, ?_⟩
  unfold QuickDoubleArgumentProgram.registerForwardableOutputMask
  split
  · exact ⟨0, rfl⟩
  · generalize program.outputs = outputs, (0 : Nat) = start, (0 : BitVec 8) = mask
    induction outputs generalizing start mask with
    | nil => exact ⟨mask, rfl⟩
    | cons output outputs ih =>
      cases output with
      | input index => exact ih (start + 1) mask
      | induction => exact ih (start + 1) mask
      | constant value => exact ih (start + 1) mask
      | temporary register =>
        obtain ⟨depends, hdepends⟩ := outputDependsOnInduction_ends hordered (.temporary register)
        unfold QuickDoubleArgumentProgram.forwardableFrom
        simp only [hdepends]
        cases depends with
        | true => exact ih (start + 1) _
        | false => exact ih (start + 1) mask

end Mask

section Runs

variable {ops : DoubleOperations V} {forwarded : Nat → Option Nat} {locations : Nat → Option V}

/-- The bank holds a forwarded argument where it is read from. -/
def HoldsArgument (forwarded : Nat → Option Nat) (locations : Nat → Option V) (bank : Bank V)
    (argument : Nat) : Prop :=
  ∀ register, forwarded argument = some register → locations argument = some (bank register)

theorem readForwarded_eq {source : ScalarDoubleSource V}
    (h : ∀ argument, source = .input argument → HoldsArgument forwarded locations bank argument) :
    source.readForwarded forwarded locations bank =
      source.readForwarded (fun _ => none) locations bank := by
  cases source with
  | input argument =>
    have hholds := h argument rfl
    simp only [ScalarDoubleSource.readForwarded]
    cases hforwarded : forwarded argument with
    | none => rfl
    | some register => exact (hholds register hforwarded).symm
  | constant value => rfl
  | temporary index => rfl
  | selection => rfl

/-- Reads that agree in front of the copy and behind it give the same operation. -/
theorem combineInPlace_congr {lhs rhs lhs' rhs' : Bank V → Option V} (hlhs : lhs bank = lhs' bank)
    (hrhs : ∀ left, lhs' bank = some left →
      rhs (bank.write register left) = rhs' (bank.write register left)) :
    combineInPlace ops kind register lhs rhs bank =
      combineInPlace ops kind register lhs' rhs' bank := by
  unfold combineInPlace
  rw [hlhs]
  cases hleft : lhs' bank with
  | none => rfl
  | some left =>
    have hright := hrhs left hleft
    simp only [Option.bind_eq_bind, Option.bind_some, hright]

theorem combineInPlace_other {lhs rhs : Bank V → Option V}
    (h : combineInPlace ops kind register lhs rhs bank = some bank') (hother : other ≠ register) :
    bank' other = bank other := by
  obtain ⟨left, -, h⟩ := Option.bind_eq_some_iff.mp h
  obtain ⟨right, -, h⟩ := Option.bind_eq_some_iff.mp h
  obtain ⟨value, -, h⟩ := Option.bind_eq_some_iff.mp h
  cases h
  rw [Bank.write_other _ _ hother, Bank.write_other _ _ hother]

theorem runLeafFrom_above {operations : List (ScalarDoubleOp V)}
    (h : runLeafFrom ops forwarded locations operations index bank = some bank')
    (hother : index + operations.length ≤ other) : bank' other = bank other := by
  induction operations generalizing index bank with
  | nil =>
    cases h
    rfl
  | cons operation operations ih =>
    obtain ⟨middle, hstep, hrest⟩ := Option.bind_eq_some_iff.mp h
    rw [List.length_cons] at hother
    rw [ih hrest (by omega), combineInPlace_other hstep (by omega)]

/-- The operation step: both operands are read the same. -/
theorem operation_forwarded_same {operation : ScalarDoubleOp V}
    (hkeeps : ∀ argument register, forwarded argument = some register →
      KeepsRegister argument register (operation :: operations) index)
    (hholds : ∀ argument register, forwarded argument = some register → index ≤ register →
      locations argument = some (bank register)) :
    combineInPlace ops operation.kind index (operation.lhs.readForwarded forwarded locations)
        (operation.rhs.readForwarded forwarded locations) bank =
      combineInPlace ops operation.kind index
        (operation.lhs.readForwarded (fun _ => none) locations)
        (operation.rhs.readForwarded (fun _ => none) locations) bank := by
  apply combineInPlace_congr
  · apply readForwarded_eq
    intro argument huse register hforwarded
    have hle := (hkeeps argument register hforwarded).head.1 huse
    exact hholds argument register hforwarded hle
  · intro left hleft
    apply readForwarded_eq
    intro argument huse register hforwarded
    obtain hlater | ⟨rfl, hlhs⟩ := (hkeeps argument register hforwarded).head.2 huse
    · rw [Bank.write_other _ _ (Nat.ne_of_gt hlater)]
      exact hholds argument register hforwarded hlater.le
    · rw [hlhs] at hleft
      rw [Bank.write_self]
      exact hleft

theorem runLeafFrom_forwarded_same {operations : List (ScalarDoubleOp V)}
    (hkeeps : ∀ argument register, forwarded argument = some register →
      KeepsRegister argument register operations index)
    (hholds : ∀ argument register, forwarded argument = some register → index ≤ register →
      locations argument = some (bank register)) :
    runLeafFrom ops forwarded locations operations index bank =
      runLeafFrom ops (fun _ => none) locations operations index bank := by
  induction operations generalizing index bank with
  | nil => rfl
  | cons operation operations ih =>
    unfold runLeafFrom
    rw [operation_forwarded_same hkeeps hholds]
    cases hstep : combineInPlace ops operation.kind index
        (operation.lhs.readForwarded (fun _ => none) locations)
        (operation.rhs.readForwarded (fun _ => none) locations) bank with
    | none => rfl
    | some middle =>
      apply ih
      · intro argument register hforwarded
        exact (hkeeps argument register hforwarded).tail
      · intro argument register hforwarded hle
        rw [combineInPlace_other hstep (by omega)]
        exact hholds argument register hforwarded (by omega)

/-- A leaf that keeps the register of every forwarded argument has the same output. -/
theorem runLeaf_forwarded_same {leaf : ScalarDoubleProgram V}
    (hsafe : ∀ argument register, forwarded argument = some register →
      safeToForward leaf argument register = true)
    (hholds : ∀ argument, HoldsArgument forwarded locations bank argument) :
    runLeaf ops forwarded locations leaf bank =
      runLeaf ops (fun _ => none) locations leaf bank := by
  unfold runLeaf
  rw [runLeafFrom_forwarded_same
    (fun argument register hforwarded => (keepsRegister_of_safe (hsafe _ _ hforwarded)).1)
    (fun argument register hforwarded _ => hholds argument register hforwarded)]
  cases hrun : runLeafFrom ops (fun _ => none) locations leaf.operations 0 bank with
  | none => rfl
  | some bank' =>
    apply readForwarded_eq
    intro argument huse register hforwarded
    have hle := (keepsRegister_of_safe (hsafe _ _ hforwarded)).2 huse
    rw [runLeafFrom_above hrun (by omega)]
    exact hholds argument register hforwarded

end Runs

/-- A validated argument program has a mask, and reading the arguments of the mask from their
registers gives the same output as reading all arguments from their locations. -/
theorem forwarded_arguments_same (program : QuickDoubleArgumentProgram V) (publicArgs : Nat)
    (leaf : ScalarDoubleProgram V) :
    (program.Ordered → ∃ fuel mask,
      program.registerForwardableOutputMask ⟨publicArgs, leaf, none⟩ fuel = some mask) ∧
    ∀ fuel mask,
      program.registerForwardableOutputMask ⟨publicArgs, leaf, none⟩ fuel = some mask →
      ∀ (ops : DoubleOperations V) (inputs : Nat → V) (induction : V) (start : Bank V),
        (do
          let bank ← program.run ops inputs induction start
          runLeaf ops (program.forwardedRegister mask) (program.locations inputs induction bank)
            leaf bank) =
        (do
          let bank ← program.run ops inputs induction start
          runLeaf ops (fun _ => none) (program.locations inputs induction bank) leaf bank) := by
  constructor
  · intro hordered
    exact registerForwardableOutputMask_ends hordered _
  · intro fuel mask hmask ops inputs induction start
    congr 1
    funext bank
    apply runLeaf_forwarded_same
    · intro argument register hforwarded
      exact (forwardedRegister_safe hmask hforwarded).2
    · intro argument register hforwarded
      unfold QuickDoubleArgumentProgram.locations
      rw [(forwardedRegister_safe hmask hforwarded).1]
      rfl

/-- One argument, the induction variable and five. -/
def dynamicDoubleArgument : QuickDoubleArgumentProgram Int where
  operations := [⟨.add, .induction, .constant 5⟩]
  outputs := [.temporary 0]
  outputCount := by decide

theorem dynamicDoubleArgument_forwarded :
    dynamicDoubleArgument.registerForwardableOutputMask
        ⟨1, ⟨[⟨.add, .input 0, .constant 1⟩], .temporary 0⟩, none⟩ 3 = some 1 ∧
      (do
        let bank ← dynamicDoubleArgument.run intOperations (fun _ => 0) 7 (fun _ => 0)
        runLeaf intOperations (dynamicDoubleArgument.forwardedRegister 1)
          (dynamicDoubleArgument.locations (fun _ => 0) 7 bank)
          ⟨[⟨.add, .input 0, .constant 1⟩], .temporary 0⟩ bank) = some 13 :=
  ⟨by decide, ((forwarded_arguments_same dynamicDoubleArgument 1 _).2 3 1 (by decide) _ _ _ _).trans
    (by decide)⟩

end Rphp.Jit
