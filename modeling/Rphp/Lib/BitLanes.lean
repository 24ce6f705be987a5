import Mathlib.Data.BitVec

namespace Rphp.Lib
set_option autoImplicit true

/-- Clearing the low bits of a word drops what is below a power of two. -/
theorem and_not_lowMask (x : BitVec w) (k : Nat) :
    x &&& ~~~(BitVec.ofNat w (2 ^ k - 1)) = (x >>> k) <<< k := by
  apply BitVec.eq_of_getLsbD_eq
  intro i hi
  simp only [BitVec.getLsbD_and, BitVec.getLsbD_not, BitVec.getLsbD_ofNat,
    Nat.testBit_two_pow_sub_one, BitVec.getLsbD_shiftLeft, BitVec.getLsbD_ushiftRight, hi]
  by_cases h : i < k
  · simp [h]
  · simp [h, show k + (i - k) = i by omega]

theorem toNat_shiftRight_shiftLeft (x : BitVec w) (k : Nat) :
    ((x >>> k) <<< k).toNat = x.toNat / 2 ^ k * 2 ^ k := by
  have hlt := x.isLt
  have hle : x.toNat / 2 ^ k * 2 ^ k ≤ x.toNat := Nat.div_mul_le_self _ _
  rw [BitVec.toNat_shiftLeft, BitVec.toNat_ushiftRight, Nat.shiftLeft_eq,
    Nat.shiftRight_eq_div_pow, Nat.mod_eq_of_lt (by omega)]

/-- The value of a word whose low bits were cleared. -/
theorem toNat_and_not_lowMask (x : BitVec w) (k : Nat) :
    (x &&& ~~~(BitVec.ofNat w (2 ^ k - 1))).toNat = x.toNat / 2 ^ k * 2 ^ k := by
  rw [and_not_lowMask, toNat_shiftRight_shiftLeft]

/-- The low bits of a word are its remainder by a power of two. -/
theorem toNat_and_lowMask (x : BitVec w) (k : Nat) (h : k ≤ w) :
    (x &&& BitVec.ofNat w (2 ^ k - 1)).toNat = x.toNat % 2 ^ k := by
  have hpos : 0 < 2 ^ k := Nat.two_pow_pos k
  have hle : 2 ^ k ≤ 2 ^ w := Nat.pow_le_pow_right (by decide) h
  rw [BitVec.toNat_and, BitVec.toNat_ofNat, Nat.mod_eq_of_lt (by omega),
    Nat.and_two_pow_sub_one_eq_mod]

/-! Words as vectors of bits: what determines a linear map of them, and many words in one. -/

section Shifts

theorem eq_zero_of_shiftLeft_eq {x : BitVec w} (hk : 0 < k) (h : x <<< k = x) : x = 0#w := by
  apply BitVec.eq_of_getLsbD_eq
  intro i
  induction i using Nat.strong_induction_on with
  | _ i ih =>
    intro hi
    rw [← h, BitVec.getLsbD_shiftLeft, BitVec.getLsbD_zero]
    by_cases hlow : i < k
    · simp [hlow]
    · rw [ih (i - k) (by omega) (by omega), BitVec.getLsbD_zero, Bool.and_false]

theorem eq_zero_of_ushiftRight_eq {x : BitVec w} (hk : 0 < k) (h : x >>> k = x) : x = 0#w := by
  apply BitVec.eq_of_getLsbD_eq
  intro i hi
  induction hn : w - i using Nat.strong_induction_on generalizing i with
  | _ n ih =>
    rw [← h, BitVec.getLsbD_ushiftRight, BitVec.getLsbD_zero]
    by_cases hhigh : w ≤ k + i
    · exact BitVec.getLsbD_of_ge x _ hhigh
    · rw [ih (w - (k + i)) (by omega) (k + i) (by omega) rfl, BitVec.getLsbD_zero]

theorem eq_zero_of_rotateLeft_eq {x : BitVec w} (h : x.rotateLeft r = 0#w) : x = 0#w := by
  apply BitVec.eq_of_getLsbD_eq
  intro i hi
  have hr := Nat.mod_lt r (show 0 < w by omega)
  rw [BitVec.getLsbD_zero]
  by_cases hhigh : w ≤ i + r % w
  · have hbit := congrArg (BitVec.getLsbD · (i + r % w - w)) h
    simp only [BitVec.getLsbD_rotateLeft, BitVec.getLsbD_zero] at hbit
    rwa [decide_eq_true (show i + r % w - w < r % w by omega), cond_true,
      show w - r % w + (i + r % w - w) = i by omega] at hbit
  · have hbit := congrArg (BitVec.getLsbD · (i + r % w)) h
    simp only [BitVec.getLsbD_rotateLeft, BitVec.getLsbD_zero] at hbit
    rwa [decide_eq_false (show ¬ i + r % w < r % w by omega), cond_false,
      decide_eq_true (show i + r % w < w by omega), Bool.true_and,
      show i + r % w - r % w = i by omega] at hbit

theorem rotateLeft_xor (x y : BitVec w) (r : Nat) :
    (x ^^^ y).rotateLeft r = x.rotateLeft r ^^^ y.rotateLeft r := by
  apply BitVec.eq_of_getLsbD_eq
  intro i hi
  simp only [BitVec.getLsbD_xor, BitVec.getLsbD_rotateLeft, hi, decide_true, Bool.true_and]
  by_cases hlow : i < r % w
  · simp [hlow]
  · simp [hlow]

theorem xor_ushiftRight_injective (hk : 0 < k) :
    Function.Injective (fun x : BitVec w => x ^^^ (x >>> k)) := by
  intro x y h
  have hdiff : (x ^^^ y) >>> k = x ^^^ y := by
    apply BitVec.eq_of_getLsbD_eq
    intro i _
    have hbit := congrArg (BitVec.getLsbD · i) h
    simp only [BitVec.getLsbD_xor, BitVec.getLsbD_ushiftRight] at hbit ⊢
    revert hbit
    cases x.getLsbD i <;> cases y.getLsbD i <;> cases x.getLsbD (k + i) <;>
      cases y.getLsbD (k + i) <;> simp
  exact BitVec.xor_eq_zero_iff.mp (eq_zero_of_ushiftRight_eq hk hdiff)

end Shifts

section Units

/-- What holds of the zero word, of each single bit and of sums holds of every word. -/
theorem xorInduction {motive : BitVec w → Prop} (zero : motive 0#w)
    (unit : ∀ i < w, motive (BitVec.twoPow w i))
    (xor : ∀ x y, motive x → motive y → motive (x ^^^ y)) (x : BitVec w) : motive x := by
  have hlow (n : Nat) : ∀ x : BitVec w, (∀ i, n ≤ i → x.getLsbD i = false) → motive x := by
    induction n with
    | zero =>
      intro x hx
      have hzero : x = 0#w := BitVec.eq_of_getLsbD_eq fun i _ => by rw [hx i i.zero_le]; simp
      rw [hzero]
      exact zero
    | succ n ih =>
      intro x hx
      cases hbit : x.getLsbD n with
      | false =>
        refine ih x fun i hi => ?_
        rcases Nat.eq_or_lt_of_le hi with rfl | hlt
        · exact hbit
        · exact hx i hlt
      | true =>
        have hn := BitVec.lt_of_getLsbD hbit
        have hclear : motive (x ^^^ BitVec.twoPow w n) := by
          refine ih _ fun i hi => ?_
          rw [BitVec.getLsbD_xor, BitVec.getLsbD_twoPow]
          rcases Nat.eq_or_lt_of_le hi with rfl | hlt
          · simp [hbit, hn]
          · simp [hx i hlt, Nat.ne_of_lt hlt]
        have hback := xor _ _ hclear (unit n hn)
        rwa [BitVec.xor_assoc, BitVec.xor_self, BitVec.xor_zero] at hback
  exact hlow w x fun i hi => BitVec.getLsbD_of_ge x i hi

end Units

section Lanes

/-- A word is one of the words whose bits are laid out in turn in a longer word. -/
def LaneOf (lanes j : Nat) (x : BitVec (w * lanes)) (y : BitVec w) : Prop :=
  ∀ i < w, y.getLsbD i = x.getLsbD (lanes * i + j)

theorem LaneOf.unique (h : LaneOf lanes j x y) (h' : LaneOf lanes j x y') : y = y' := by
  apply BitVec.eq_of_getLsbD_eq
  intro i hi
  rw [h i hi, h' i hi]

theorem LaneOf.zero : LaneOf lanes j (0#(w * lanes)) (0#w) := by
  intro i _
  rw [BitVec.getLsbD_zero, BitVec.getLsbD_zero]

theorem LaneOf.xor (hx : LaneOf lanes j x y) (hx' : LaneOf lanes j x' y') :
    LaneOf lanes j (x ^^^ x') (y ^^^ y') := by
  intro i hi
  rw [BitVec.getLsbD_xor, BitVec.getLsbD_xor, hx i hi, hx' i hi]

theorem lane_lt {i w : Nat} (hj : j < lanes) (hi : i < w) : lanes * i + j < w * lanes := by
  have h : lanes * (i + 1) ≤ lanes * w := Nat.mul_le_mul_left lanes hi
  rw [Nat.mul_comm w, Nat.mul_succ] at *
  omega

theorem LaneOf.shiftLeft (hj : j < lanes) (hx : LaneOf lanes j x y) (k : Nat) :
    LaneOf lanes j (x <<< (k * lanes)) (y <<< k) := by
  intro i hi
  have hin := lane_lt hj hi
  rw [BitVec.getLsbD_shiftLeft, BitVec.getLsbD_shiftLeft]
  by_cases hlow : i < k
  · have hshift := lane_lt hj hlow
    simp [hlow, hshift]
  · have hshift : k * lanes ≤ lanes * i := by
      rw [Nat.mul_comm]
      exact Nat.mul_le_mul_left lanes (by omega)
    rw [hx (i - k) (by omega), Nat.mul_sub, Nat.mul_comm lanes k,
      show lanes * i + j - k * lanes = lanes * i - k * lanes + j by omega]
    simp [hi, hin, hlow, show ¬ lanes * i + j < k * lanes by omega]

theorem LaneOf.rotateLeft {y : BitVec w} (hj : j < lanes) (hx : LaneOf lanes j x y) (hr : r < w) :
    LaneOf lanes j (x.rotateLeft (r * lanes)) (y.rotateLeft r) := by
  intro i hi
  have hin := lane_lt hj hi
  have hlanes : 0 < lanes := by omega
  have hmod : r * lanes < w * lanes := Nat.mul_lt_mul_of_pos_right hr hlanes
  rw [BitVec.getLsbD_rotateLeft, BitVec.getLsbD_rotateLeft, Nat.mod_eq_of_lt hr,
    Nat.mod_eq_of_lt hmod]
  by_cases hlow : i < r
  · have hshift := lane_lt hj hlow
    rw [hx (w - r + i) (by omega), decide_eq_true hlow, decide_eq_true hshift, cond_true, cond_true,
      Nat.mul_add, Nat.mul_sub, Nat.mul_comm lanes w, Nat.mul_comm lanes r, Nat.add_assoc]
  · have hshift : r * lanes ≤ lanes * i := by
      rw [Nat.mul_comm]
      exact Nat.mul_le_mul_left lanes (by omega)
    rw [hx (i - r) (by omega), Nat.mul_sub, Nat.mul_comm lanes r,
      show lanes * i + j - r * lanes = lanes * i - r * lanes + j by omega]
    simp [hi, hin, hlow, show ¬ lanes * i + j < r * lanes by omega]

end Lanes

end Rphp.Lib
