import Rphp.Jit.StraightMachine
import Rphp.Lib.BitLanes

namespace Rphp.Jit
open Rphp.Lib
set_option autoImplicit true

/-- One of the sixteen general registers. -/
structure X86_64Register where
  code : Fin 16
  deriving DecidableEq, Repr

abbrev X86_64Registers := X86_64Register → Int64

/-- The immediate of a group-one instruction: a byte or four bytes, both sign-extended. -/
inductive X86_64Immediate where
  | byte (value : Int8)
  | doubleword (value : Int32)
  deriving DecidableEq, Repr

inductive X86_64Instruction where
  | move (destination source : X86_64Register)
  | add (destination source : X86_64Register)
  | subtract (destination source : X86_64Register)
  | and (destination source : X86_64Register)
  | andImmediate (destination : X86_64Register) (immediate : X86_64Immediate)
  | moveImmediate64 (destination : X86_64Register) (immediate : Int64)
  | arithmeticShiftRight (destination : X86_64Register) (immediate : UInt8)
  deriving DecidableEq, Repr

/-- The instructions emitted so far. -/
abbrev X86_64Assembler := List X86_64Instruction

def X86_64Immediate.signExtend : X86_64Immediate → Int64
  | byte value => value.toInt64
  | doubleword value => value.toInt64

/-- Additions and subtractions wrap, and a shift uses the low six bits of its count. -/
def X86_64Instruction.execute (instruction : X86_64Instruction) (registers : X86_64Registers) :
    X86_64Registers :=
  match instruction with
  | move destination source => Function.update registers destination (registers source)
  | add destination source =>
    Function.update registers destination (registers destination + registers source)
  | subtract destination source =>
    Function.update registers destination (registers destination - registers source)
  | and destination source =>
    Function.update registers destination (registers destination &&& registers source)
  | andImmediate destination immediate =>
    Function.update registers destination (registers destination &&& immediate.signExtend)
  | moveImmediate64 destination immediate => Function.update registers destination immediate
  | arithmeticShiftRight destination immediate =>
    Function.update registers destination
      (registers destination >>> Int64.ofNat (immediate.toNat % 64))

namespace X86_64Assembler

def run (assembler : X86_64Assembler) (registers : X86_64Registers) : X86_64Registers :=
  assembler.foldl (fun registers instruction => instruction.execute registers) registers

def moveRegister (assembler : X86_64Assembler) (destination source : X86_64Register) :
    X86_64Assembler :=
  if destination = source then assembler else assembler ++ [.move destination source]

def addRegister (assembler : X86_64Assembler) (destination source : X86_64Register) :
    X86_64Assembler :=
  assembler ++ [.add destination source]

def subtractRegister (assembler : X86_64Assembler) (destination source : X86_64Register) :
    X86_64Assembler :=
  assembler ++ [.subtract destination source]

def andRegister (assembler : X86_64Assembler) (destination source : X86_64Register) :
    X86_64Assembler :=
  assembler ++ [.and destination source]

/-- The immediate that stands for a Long, in its shortest form. -/
def group1Immediate (immediate : Int64) : Option X86_64Immediate :=
  if -128 ≤ immediate.toInt ∧ immediate.toInt ≤ 127 then some (.byte immediate.toInt8)
  else if -2147483648 ≤ immediate.toInt ∧ immediate.toInt ≤ 2147483647 then
    some (.doubleword immediate.toInt32)
  else none

/-- Whether the mask was encoded, and the assembler after it. -/
def andImmediate (assembler : X86_64Assembler) (destination : X86_64Register)
    (immediate : Int64) : Bool × X86_64Assembler :=
  match group1Immediate immediate with
  | some encoded => (true, assembler ++ [.andImmediate destination encoded])
  | none => (false, assembler)

def moveImmediate64 (assembler : X86_64Assembler) (destination : X86_64Register)
    (immediate : Int64) : X86_64Assembler :=
  assembler ++ [.moveImmediate64 destination immediate]

def arithmeticShiftRightImmediate8 (assembler : X86_64Assembler)
    (destination : X86_64Register) (immediate : UInt8) : X86_64Assembler :=
  assembler ++ [.arithmeticShiftRight destination immediate]

end X86_64Assembler

def unsignedAbs (value : Int64) : UInt64 := UInt64.ofNat value.toInt.natAbs

def isPowerOfTwo (n : UInt64) : Bool := n.toNat == 2 ^ n.toNat.log2

def signedPowerOfTwoRemainderMask (divisor : Int64) : Option Int64 :=
  let magnitude := unsignedAbs divisor
  if magnitude ≥ 2 ∧ isPowerOfTwo magnitude then some (magnitude - 1).toInt64 else none

def emitSignedPowerOfTwoRemainder (assembler : X86_64Assembler)
    (result maskScratch signScratch : X86_64Register) (mask : Int64) : X86_64Assembler :=
  let assembler := assembler.moveRegister signScratch result
  let assembler := assembler.arithmeticShiftRightImmediate8 signScratch 63
  let assembler :=
    match assembler.andImmediate signScratch mask with
    | (true, assembler) =>
      let assembler := assembler.addRegister result signScratch
      (assembler.andImmediate result mask).2
    | (false, assembler) =>
      let assembler := assembler.moveImmediate64 maskScratch mask
      let assembler := assembler.andRegister signScratch maskScratch
      let assembler := assembler.addRegister result signScratch
      assembler.andRegister result maskScratch
  assembler.subtractRegister result signScratch

section Assembler

open X86_64Assembler

variable (assembler : X86_64Assembler) (registers : X86_64Registers)

@[simp] theorem run_concat (instruction : X86_64Instruction) :
    run (assembler ++ [instruction]) registers = instruction.execute (run assembler registers) := by
  rw [X86_64Assembler.run, List.foldl_concat]
  rfl

/-- The encoded immediate is the Long again after its sign extension. -/
theorem signExtend_group1Immediate (h : group1Immediate immediate = some encoded) :
    encoded.signExtend = immediate := by
  unfold group1Immediate at h
  split at h
  · rename_i hbyte
    cases h
    apply Int64.toInt.inj
    rw [X86_64Immediate.signExtend, Int8.toInt_toInt64, Int64.toInt_toInt8,
      Int.bmod_eq_of_le (by omega) (by omega)]
  · split at h
    · rename_i hdoubleword
      cases h
      apply Int64.toInt.inj
      rw [X86_64Immediate.signExtend, Int32.toInt_toInt64, Int64.toInt_toInt32,
        Int.bmod_eq_of_le (by omega) (by omega)]
    · cases h

end Assembler

/-- The mask of the low bits, below the sign bit. -/
def lowMask (k : Nat) : Int64 := ⟨⟨BitVec.ofNat 64 (2 ^ k - 1)⟩⟩

section Mask

variable {divisor : Int64}

theorem toNat_unsignedAbs (value : Int64) : (unsignedAbs value).toNat = value.toInt.natAbs := by
  have hlow := value.le_toInt
  have hhigh := value.toInt_lt
  rw [unsignedAbs, UInt64.toNat_ofNat']
  exact Nat.mod_eq_of_lt (by omega)

theorem exponent_le (hd : divisor.toInt.natAbs = 2 ^ k) : k ≤ 63 := by
  have hlow := divisor.le_toInt
  have hhigh := divisor.toInt_lt
  have hle : 2 ^ k ≤ 2 ^ 63 := by omega
  exact (Nat.pow_le_pow_iff_right (by decide)).mp hle

theorem isPowerOfTwo_unsignedAbs (hd : divisor.toInt.natAbs = 2 ^ k) :
    isPowerOfTwo (unsignedAbs divisor) = true := by
  rw [isPowerOfTwo, toNat_unsignedAbs, hd, Nat.log2_two_pow]
  exact beq_self_eq_true _

/-- A power of two and its negation have the mask below the power, and so has the least Long. -/
theorem signedPowerOfTwoRemainderMask_eq (hk : 1 ≤ k) (hd : divisor.toInt.natAbs = 2 ^ k) :
    signedPowerOfTwoRemainderMask divisor = some (lowMask k) := by
  have hk63 := exponent_le hd
  have htwo : 2 ^ 1 ≤ 2 ^ k := Nat.pow_le_pow_right (by decide) hk
  have hmax : 2 ^ k ≤ 2 ^ 63 := Nat.pow_le_pow_right (by decide) hk63
  have hmagnitude : (unsignedAbs divisor).toNat = 2 ^ k := by rw [toNat_unsignedAbs, hd]
  have hge : unsignedAbs divisor ≥ 2 := by
    rw [ge_iff_le, UInt64.le_iff_toNat_le, hmagnitude]
    exact htwo
  rw [signedPowerOfTwoRemainderMask, if_pos ⟨hge, isPowerOfTwo_unsignedAbs hd⟩]
  apply congrArg some
  apply Int64.toBitVec.inj
  apply BitVec.eq_of_toNat_eq
  have hone : (1 : UInt64) ≤ unsignedAbs divisor := by
    rw [UInt64.le_iff_toNat_le, hmagnitude]
    exact Nat.one_le_two_pow
  have hsub : (unsignedAbs divisor - 1).toNat = 2 ^ k - 1 := by
    rw [UInt64.toNat_sub_of_le _ _ hone, hmagnitude]
    rfl
  calc (unsignedAbs divisor - 1).toNat
      = 2 ^ k - 1 := hsub
    _ = (BitVec.ofNat 64 (2 ^ k - 1)).toNat := by
      rw [BitVec.toNat_ofNat, Nat.mod_eq_of_lt (by omega)]

/-- Under the mask a Long is its remainder of the floored division. -/
theorem toInt_and_lowMask (value : Int64) (hk : k ≤ 63) :
    (value &&& lowMask k).toInt = value.toInt % 2 ^ k := by
  have hmax : 2 ^ k ≤ 2 ^ 63 := Nat.pow_le_pow_right (by decide) hk
  have hnat : (value &&& lowMask k).toBitVec.toNat = value.toBitVec.toNat % 2 ^ k := by
    rw [Int64.toBitVec_and]
    exact toNat_and_lowMask value.toBitVec k (by omega)
  have hlt : value.toBitVec.toNat % 2 ^ k < 2 ^ k := Nat.mod_lt _ (Nat.two_pow_pos k)
  have hvalue : value.toInt % 2 ^ k = (value.toBitVec.toNat : Int) % 2 ^ k := by
    obtain ⟨c, hc⟩ : (2 ^ k : Int) ∣ 2 ^ 64 := pow_dvd_pow 2 (by omega)
    have hbv : value.toInt = value.toBitVec.toInt := rfl
    rw [hbv, BitVec.toInt_eq_toNat_cond]
    split
    · rfl
    · rw [show ((2 ^ 64 : Nat) : Int) = 2 ^ k * c from hc, Int.sub_mul_emod_self_left]
  rw [hvalue]
  have hbv : (value &&& lowMask k).toInt = (value &&& lowMask k).toBitVec.toInt := rfl
  rw [hbv, BitVec.toInt_eq_toNat_of_lt (by omega), hnat]
  push_cast
  rfl

/-- The arithmetic shift by 63 spreads the sign over the whole word. -/
theorem toInt_sign (value : Int64) :
    (value >>> Int64.ofNat ((63 : UInt8).toNat % 64)).toInt = if value.toInt < 0 then -1 else 0 := by
  have hlow := value.le_toInt
  have hhigh := value.toInt_lt
  have hshift : (value >>> Int64.ofNat ((63 : UInt8).toNat % 64)).toInt =
      value.toInt >>> (63 : Nat) :=
    BitVec.toInt_sshiftRight ..
  rw [hshift, Int.shiftRight_eq_div_pow]
  split
  · omega
  · omega

end Mask

/-- Adding the bias before the mask and subtracting it after rounds the division to zero. -/
theorem masked_sub_bias_eq_tmod (v n : Int) (hn : 0 < n) :
    (v + if v < 0 then n - 1 else 0) % n - (if v < 0 then n - 1 else 0) = v.tmod n := by
  split
  · rename_i hneg
    obtain ⟨w, rfl⟩ : ∃ w, v = -w := ⟨-v, by omega⟩
    have hmod := Int.emod_add_mul_ediv w n
    have hrange := Int.emod_nonneg w hn.ne'
    have hlt := Int.emod_lt_of_pos w hn
    have hshift : (-w + (n - 1)) % n = n - 1 - w % n := by
      have heq : -w + (n - 1) = (n - 1 - w % n) + n * (-(w / n)) := by
        rw [mul_neg]
        omega
      rw [heq, Int.add_mul_emod_self_left]
      exact Int.emod_eq_of_lt (by omega) (by omega)
    rw [hshift, Int.neg_tmod, Int.tmod_eq_emod_of_nonneg (by omega)]
    omega
  · rename_i hnonneg
    rw [Int.tmod_eq_emod_of_nonneg (by omega), Int.add_zero, Int.sub_zero]

/-- What the sign of the dividend contributes: the mask for a negative one, otherwise nothing. -/
def remainderBias (value mask : Int64) : Int64 :=
  (value >>> Int64.ofNat ((63 : UInt8).toNat % 64)) &&& mask

def maskedRemainder (value mask : Int64) : Int64 :=
  ((value + remainderBias value mask) &&& mask) - remainderBias value mask

section Remainder

variable {divisor : Int64}

theorem neg_one_emod_two_pow (k : Nat) : (-1 : Int) % 2 ^ k = 2 ^ k - 1 := by
  have hpos : (0 : Int) < 2 ^ k := Int.pow_pos (by decide)
  rw [← Int.add_mul_emod_self_left (-1) (2 ^ k) 1, Int.mul_one,
    Int.emod_eq_of_lt (by omega) (by omega)]
  omega

theorem toInt_remainderBias (value : Int64) (hk : k ≤ 63) :
    (remainderBias value (lowMask k)).toInt = if value.toInt < 0 then 2 ^ k - 1 else 0 := by
  rw [remainderBias, toInt_and_lowMask _ hk, toInt_sign]
  split
  · exact neg_one_emod_two_pow k
  · exact Int.zero_emod _

/-- Branch-free, the bias is the mask or zero. -/
theorem remainderBias_eq_ite (value : Int64) (hk : k ≤ 63) :
    remainderBias value (lowMask k) = if value < 0 then lowMask k else 0 := by
  have hlow := toInt_and_lowMask (-1) hk
  apply Int64.toInt.inj
  rw [toInt_remainderBias value hk]
  split
  · rename_i h
    rw [if_pos (Int64.lt_iff_toInt_lt.mpr h), ← Int64.neg_one_and (a := lowMask k), hlow]
    exact (neg_one_emod_two_pow k).symm
  · rename_i h
    rw [if_neg fun hlt => h (Int64.lt_iff_toInt_lt.mp hlt)]
    rfl

theorem tmod_two_pow (value : Int64) (hd : divisor.toInt.natAbs = 2 ^ k) :
    value.toInt.tmod divisor.toInt = value.toInt.tmod (2 ^ k) := by
  have hcast : ((2 ^ k : Nat) : Int) = 2 ^ k := by push_cast; rfl
  rcases Int.natAbs_eq divisor.toInt with h | h
  · rw [h, hd, hcast]
  · rw [h, hd, hcast, Int.tmod_neg]

theorem maskedRemainder_eq_mod (value : Int64) (hd : divisor.toInt.natAbs = 2 ^ k) :
    maskedRemainder value (lowMask k) = value % divisor := by
  have hk := exponent_le hd
  have hpos : (0 : Int) < 2 ^ k := Int.pow_pos (by decide)
  have hmax : (2 : Int) ^ k ≤ 2 ^ 63 := by
    exact_mod_cast Nat.pow_le_pow_right (by decide : 0 < 2) hk
  have hdvd : (2 ^ k : Int) ∣ ((2 ^ 64 : Nat) : Int) := pow_dvd_pow 2 (by omega)
  have hsum : (value + remainderBias value (lowMask k)).toInt % 2 ^ k =
      (value.toInt + if value.toInt < 0 then 2 ^ k - 1 else 0) % 2 ^ k := by
    rw [Int64.toInt_add, toInt_remainderBias value hk, ← Int.emod_emod_of_dvd _ hdvd,
      Int.bmod_emod, Int.emod_emod_of_dvd _ hdvd]
  have hbias := toInt_remainderBias value hk
  have hrange := Int.emod_nonneg
    (value.toInt + if value.toInt < 0 then 2 ^ k - 1 else 0) hpos.ne'
  have hlt := Int.emod_lt_of_pos
    (value.toInt + if value.toInt < 0 then 2 ^ k - 1 else 0) hpos
  apply Int64.toInt.inj
  rw [maskedRemainder, Int64.toInt_sub, toInt_and_lowMask _ hk, hsum, hbias, Int64.toInt_mod,
    tmod_two_pow value hd, ← masked_sub_bias_eq_tmod value.toInt _ hpos]
  apply Int.bmod_eq_of_le
  · split <;> omega
  · split <;> omega

end Remainder

section Emission

variable (assembler : X86_64Assembler) (registers : X86_64Registers)
  {result maskScratch signScratch : X86_64Register}

/-- The registers behind the emitted instructions, in both forms of the mask. -/
theorem run_emitSignedPowerOfTwoRemainder (hsign : result ≠ signScratch)
    (hmask : result ≠ maskScratch) (hscratch : maskScratch ≠ signScratch) (mask : Int64) :
    (emitSignedPowerOfTwoRemainder assembler result maskScratch signScratch mask).run registers
        result = maskedRemainder (assembler.run registers result) mask ∧
      ∀ other, other ≠ result → other ≠ maskScratch → other ≠ signScratch →
        (emitSignedPowerOfTwoRemainder assembler result maskScratch signScratch mask).run registers
          other = assembler.run registers other := by
  generalize hbefore : assembler.run registers = before
  cases hencoded : X86_64Assembler.group1Immediate mask with
  | some encoded =>
    have himmediate := signExtend_group1Immediate hencoded
    simp only [emitSignedPowerOfTwoRemainder, X86_64Assembler.moveRegister, if_neg hsign.symm,
      X86_64Assembler.arithmeticShiftRightImmediate8, X86_64Assembler.andImmediate, hencoded,
      X86_64Assembler.addRegister, X86_64Assembler.subtractRegister, run_concat, hbefore]
    constructor
    · simp [X86_64Instruction.execute, himmediate, hsign, hsign.symm, maskedRemainder,
        remainderBias]
    · intro other hresult _ hother
      simp [X86_64Instruction.execute, hresult, hother]
  | none =>
    simp only [emitSignedPowerOfTwoRemainder, X86_64Assembler.moveRegister, if_neg hsign.symm,
      X86_64Assembler.arithmeticShiftRightImmediate8, X86_64Assembler.andImmediate, hencoded,
      X86_64Assembler.moveImmediate64, X86_64Assembler.andRegister, X86_64Assembler.addRegister,
      X86_64Assembler.subtractRegister, run_concat, hbefore]
    constructor
    · simp [X86_64Instruction.execute, hsign, hsign.symm, hmask, hmask.symm, hscratch,
        hscratch.symm, maskedRemainder, remainderBias]
    · intro other hresult hmaskOther hother
      simp [X86_64Instruction.execute, hresult, hmaskOther, hother]

end Emission

/-- For every power of two from 2 on, or its negation, the emitted instructions leave the truncated
remainder in the result register and change scratch registers only. -/
theorem signedPowerOfTwoRemainder_correct (value divisor : Int64) (hk : 1 ≤ k)
    (hd : divisor.toInt.natAbs = 2 ^ k) :
    ∃ mask, signedPowerOfTwoRemainderMask divisor = some mask ∧
      ((value + if value < 0 then mask else 0) &&& mask) - (if value < 0 then mask else 0) =
        value % divisor ∧
      (value % divisor).toInt = value.toInt.tmod divisor.toInt ∧
      ∀ (assembler : X86_64Assembler) (registers : X86_64Registers)
        (result maskScratch signScratch : X86_64Register),
        result ≠ signScratch → result ≠ maskScratch → maskScratch ≠ signScratch →
        assembler.run registers result = value →
        (emitSignedPowerOfTwoRemainder assembler result maskScratch signScratch mask).run registers
            result = value % divisor ∧
          ∀ other, other ≠ result → other ≠ maskScratch → other ≠ signScratch →
            (emitSignedPowerOfTwoRemainder assembler result maskScratch signScratch mask).run
              registers other = assembler.run registers other := by
  have hmod := maskedRemainder_eq_mod value hd
  refine ⟨lowMask k, signedPowerOfTwoRemainderMask_eq hk hd, ?_, Int64.toInt_mod .., ?_⟩
  · rw [← hmod, maskedRemainder, remainderBias_eq_ite value (exponent_le hd)]
  · intro assembler registers result maskScratch signScratch hsign hmask hscratch hvalue
    have hrun := run_emitSignedPowerOfTwoRemainder assembler registers hsign hmask hscratch
      (lowMask k)
    rw [hvalue, hmod] at hrun
    exact hrun

/-- The least Long as the divisor, whose mask does not fit an immediate. -/
theorem signedPowerOfTwoRemainder_minValue :
    ∃ mask, signedPowerOfTwoRemainderMask Int64.minValue = some mask ∧
      (emitSignedPowerOfTwoRemainder [] ⟨0⟩ ⟨8⟩ ⟨9⟩ mask).run (fun _ => -5) ⟨0⟩ =
        (-5) % Int64.minValue := by
  obtain ⟨mask, hmask, -, -, hrun⟩ :=
    signedPowerOfTwoRemainder_correct (k := 63) (-5) Int64.minValue (by decide) (by decide)
  exact ⟨mask, hmask, (hrun [] _ _ _ _ (by decide) (by decide) (by decide) rfl).1⟩

end Rphp.Jit
