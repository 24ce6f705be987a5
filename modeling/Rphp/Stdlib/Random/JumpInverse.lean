import Mathlib.Tactic.FinCases
import Rphp.Stdlib.Random.Registers

namespace Rphp.Stdlib.Random.Registers
open Rphp.Lib
set_option autoImplicit true

section Units

/-- Words that are zero but for one. -/
def single : Fin 4 → BitVec w → Registers w
  | 0, x => ⟨x, 0#w, 0#w, 0#w⟩
  | 1, x => ⟨0#w, x, 0#w, 0#w⟩
  | 2, x => ⟨0#w, 0#w, x, 0#w⟩
  | 3, x => ⟨0#w, 0#w, 0#w, x⟩

theorem single_zero (k : Fin 4) : single k (0#w) = 0 := by
  fin_cases k <;> rfl

theorem single_xor (k : Fin 4) (x y : BitVec w) :
    single k (x ^^^ y) = single k x + single k y := by
  fin_cases k <;> simp [single, add_def]

theorem eq_sum_single (s : Registers w) :
    s = single 0 s.w0 + single 1 s.w1 + single 2 s.w2 + single 3 s.w3 := by
  simp [single, add_def]

/-- A linear map is determined by what it makes of the single bits. -/
theorem map_ext {f g : AddMonoid.End (Registers w)}
    (h : ∀ k, ∀ b < w, f (single k (BitVec.twoPow w b)) = g (single k (BitVec.twoPow w b))) :
    f = g := by
  have hsingle (k : Fin 4) (x : BitVec w) : f (single k x) = g (single k x) := by
    induction x using xorInduction with
    | zero => rw [single_zero, map_zero, map_zero]
    | unit b hb => exact h k b hb
    | xor x y hx hy => rw [single_xor, map_add, map_add, hx, hy]
  apply DFunLike.ext
  intro s
  rw [eq_sum_single s]
  simp only [map_add, hsingle]

/-- One bit of each of 64 lanes, at another position in each. -/
def marks (word : Nat) : BitVec (64 * 256) :=
  (List.range 64).foldr (fun b x => x ||| BitVec.twoPow (64 * 256) (257 * b + 64 * word))
    0#(64 * 256)

/-- Words with one lane for each single bit. -/
def allUnits : Registers (64 * 256) := ⟨marks 0, marks 1, marks 2, marks 3⟩

theorem foldr_twoPow_getLsbD (position : Nat → Nat) (bits : List Nat) (i : Nat) :
    (bits.foldr (fun b x => x ||| BitVec.twoPow w (position b)) 0#w).getLsbD i =
      (decide (i < w) && bits.any fun b => i == position b) := by
  induction bits with
  | nil => simp
  | cons b bits ih =>
    rw [List.foldr_cons, BitVec.getLsbD_or, ih, BitVec.getLsbD_twoPow, List.any_cons]
    by_cases hi : i = position b
    · subst hi
      rw [beq_self_eq_true, decide_eq_true rfl]
      cases decide (position b < w) <;> simp
    · rw [beq_false_of_ne hi, decide_eq_false (Ne.symm hi), Bool.and_false, Bool.or_false,
        Bool.false_or]

theorem marks_lane {k : Nat} (word : Nat) (hword : word < 4) (hk : k < 4) (hb : b < 64) :
    Lib.LaneOf 256 (64 * k + b) (marks word) (if word = k then BitVec.twoPow 64 b else 0#64) := by
  intro i hi
  have hany : ((List.range 64).any fun c => 256 * i + (64 * k + b) == 257 * c + 64 * word) =
      decide (word = k ∧ i = b) := by
    rw [Bool.eq_iff_iff, List.any_eq_true, decide_eq_true_eq]
    constructor
    · rintro ⟨c, hc, hpos⟩
      rw [List.mem_range] at hc
      rw [beq_iff_eq] at hpos
      have hleft : 64 * k + b < 256 := by omega
      have hright : 64 * word + c < 256 := by omega
      have hic : i = c := by omega
      omega
    · rintro ⟨rfl, rfl⟩
      exact ⟨i, List.mem_range.mpr hi, by rw [beq_iff_eq]; omega⟩
  have hin : 256 * i + (64 * k + b) < 64 * 256 := by omega
  rw [marks, foldr_twoPow_getLsbD, hany, decide_eq_true hin, Bool.true_and]
  by_cases hk : word = k
  · simp [hk, BitVec.getLsbD_twoPow, hb, eq_comm]
  · simp [hk]

theorem allUnits_lane (k : Fin 4) (hb : b < 64) :
    LaneOf 256 (64 * k + b) allUnits (single k (BitVec.twoPow 64 b)) := by
  have h0 := marks_lane 0 (by decide) k.isLt hb
  have h1 := marks_lane 1 (by decide) k.isLt hb
  have h2 := marks_lane 2 (by decide) k.isLt hb
  have h3 := marks_lane 3 (by decide) k.isLt hb
  fin_cases k <;> exact ⟨h0, h1, h2, h3⟩

end Units

section Inverse

/-- Jumps cancel each other when they do for the lanes of all single bits, laid out in one word. -/
theorem selectedPowers_mul_eq_one {shift rotation : Nat} (hrotation : rotation < 64)
    {back polynomial : List (BitVec 64)}
    (h : jump (transition (shift * 256) (rotation * 256)) back
      (jump (transition (shift * 256) (rotation * 256)) polynomial allUnits) = allUnits) :
    selectedPowers (transitionMap (w := 64) shift rotation) (polynomialBits back) *
      selectedPowers (transitionMap shift rotation) (polynomialBits polynomial) = 1 := by
  apply map_ext
  intro k b hb
  have hlane := allUnits_lane k hb
  have hj : 64 * k.val + b < 256 := by omega
  have hadvance (s t) (hst : LaneOf 256 (64 * k + b) s t) : LaneOf 256 (64 * k + b)
      (transition (shift * 256) (rotation * 256) s) (transition shift rotation t) :=
    LaneOf.transition hj hrotation hst
  have hjumps := (hlane.jump hadvance polynomial).jump hadvance back
  rw [h] at hjumps
  rw [AddMonoid.End.coe_mul, Function.comp_apply, ← jump_eq, ← jump_eq]
  exact hjumps.unique hlane

end Inverse

end Rphp.Stdlib.Random.Registers
