import Mathlib.Data.Fintype.Basic
import Rphp.Lib.BitLanes
import Rphp.Lib.PowerSums

namespace Rphp.Stdlib.Random
open Rphp.Lib
set_option autoImplicit true

/-- Four words, which the engine changes by shifts, rotations and sums of bits. -/
structure Registers (w : Nat) where
  w0 : BitVec w
  w1 : BitVec w
  w2 : BitVec w
  w3 : BitVec w
  deriving DecidableEq, Repr

namespace Registers

section Group

instance : Zero (Registers w) := ⟨⟨0#w, 0#w, 0#w, 0#w⟩⟩

instance : Add (Registers w) :=
  ⟨fun s t => ⟨s.w0 ^^^ t.w0, s.w1 ^^^ t.w1, s.w2 ^^^ t.w2, s.w3 ^^^ t.w3⟩⟩

instance : Neg (Registers w) := ⟨id⟩

theorem zero_def : (0 : Registers w) = ⟨0#w, 0#w, 0#w, 0#w⟩ := rfl

theorem add_def (s t : Registers w) :
    s + t = ⟨s.w0 ^^^ t.w0, s.w1 ^^^ t.w1, s.w2 ^^^ t.w2, s.w3 ^^^ t.w3⟩ := rfl

instance : AddCommGroup (Registers w) where
  add_assoc s t u := by simp only [add_def, BitVec.xor_assoc]
  zero_add s := by simp only [add_def, zero_def, BitVec.zero_xor]
  add_zero s := by simp only [add_def, zero_def, BitVec.xor_zero]
  nsmul := nsmulRec
  zsmul := zsmulRec
  neg_add_cancel s := by
    change s + s = 0
    simp only [add_def, zero_def, BitVec.xor_self]
  add_comm s t := by
    simp only [add_def, BitVec.xor_comm s.w0, BitVec.xor_comm s.w1, BitVec.xor_comm s.w2,
      BitVec.xor_comm s.w3]

end Group

section Transition

/-- The change of the words between two numbers, with the shift and the rotation it uses. -/
def transition (shift rotation : Nat) (s : Registers w) : Registers w :=
  let shifted := s.w1 <<< shift
  let w2 := s.w2 ^^^ s.w0
  let w3 := s.w3 ^^^ s.w1
  let w1 := s.w1 ^^^ w2
  let w0 := s.w0 ^^^ w3
  ⟨w0, w1, w2 ^^^ shifted, w3.rotateLeft rotation⟩

theorem xor_middle (a b c d : BitVec w) : a ^^^ b ^^^ (c ^^^ d) = a ^^^ c ^^^ (b ^^^ d) := by
  rw [BitVec.xor_assoc, BitVec.xor_assoc, ← BitVec.xor_assoc b, ← BitVec.xor_assoc c,
    BitVec.xor_comm b]

theorem transition_add (shift rotation : Nat) (s t : Registers w) :
    transition shift rotation (s + t) =
      transition shift rotation s + transition shift rotation t := by
  simp only [transition, add_def, BitVec.shiftLeft_xor_distrib, ← rotateLeft_xor, xor_middle s.w3,
    xor_middle s.w2, xor_middle s.w1, xor_middle s.w0, xor_middle (s.w2 ^^^ s.w0)]

theorem transition_zero (shift rotation : Nat) :
    transition shift rotation (0 : Registers w) = 0 := by
  have h := transition_add shift rotation (0 : Registers w) 0
  rw [add_zero] at h
  exact left_eq_add.mp h

/-- The change of the words as a linear map of their bits. -/
def transitionMap (shift rotation : Nat) : AddMonoid.End (Registers w) where
  toFun := transition shift rotation
  map_zero' := transition_zero shift rotation
  map_add' := transition_add shift rotation

/-- No words but zero become zero, so no information is lost between two numbers. -/
theorem eq_zero_of_transition_eq_zero {shift rotation : Nat} {s : Registers w} (hshift : 0 < shift)
    (h : transition shift rotation s = 0) : s = 0 := by
  cases s with
  | mk w0 w1 w2 w3 =>
    simp only [transition, zero_def, Registers.mk.injEq] at h
    obtain ⟨h0, h1, h2, h3⟩ := h
    have h31 := eq_zero_of_rotateLeft_eq h3
    rw [h31, BitVec.xor_zero] at h0
    rw [h0, BitVec.xor_zero] at h1 h2
    have h12 := BitVec.xor_eq_zero_iff.mp h1
    have hw1 : w1 = 0#w := by
      rw [← h12] at h2
      exact eq_zero_of_shiftLeft_eq hshift (BitVec.xor_eq_zero_iff.mp h2).symm
    rw [BitVec.xor_eq_zero_iff.mp h31, ← h12, hw1, h0, zero_def]

end Transition

section Jump

/-- One bit of a jump: the words are added up where the bit is set, and then change. -/
def jumpBit (advance : Registers w → Registers w) (word : BitVec 64)
    (loop : Registers w × Registers w) (bit : Nat) : Registers w × Registers w :=
  (if word &&& (1#64 <<< bit) ≠ 0#64 then loop.1 + loop.2 else loop.1, advance loop.2)

def jumpWord (advance : Registers w → Registers w) (loop : Registers w × Registers w)
    (word : BitVec 64) : Registers w × Registers w :=
  (List.range 64).foldl (jumpBit advance word) loop

/-- The sum of the words after the numbers of steps that the bits of a polynomial select. -/
def jump (advance : Registers w → Registers w) (polynomial : List (BitVec 64))
    (s : Registers w) : Registers w :=
  (polynomial.foldl (jumpWord advance) (0, s)).1

def wordBits (word : BitVec 64) : List Bool :=
  (List.range 64).map fun bit => decide (word &&& (1#64 <<< bit) ≠ 0#64)

def polynomialBits (polynomial : List (BitVec 64)) : List Bool := polynomial.flatMap wordBits

theorem jumpWord_eq (advance : Registers w → Registers w) (loop : Registers w × Registers w)
    (word : BitVec 64) :
    jumpWord advance loop word = (wordBits word).foldl (addSelected advance) loop := by
  rw [wordBits, List.foldl_map]
  simp only [addSelected, decide_eq_true_eq]
  rfl

theorem jump_eq (f : AddMonoid.End (Registers w)) (polynomial : List (BitVec 64))
    (s : Registers w) :
    jump f polynomial s = selectedPowers f (polynomialBits polynomial) s := by
  have hloop : polynomial.foldl (jumpWord f) (0, s) =
      (polynomialBits polynomial).foldl (addSelected f) (0, s) := by
    rw [polynomialBits, List.foldl_flatMap]
    simp only [← jumpWord_eq]
  rw [jump, hloop, foldl_addSelected, zero_add]

end Jump

section Lanes

/-- Words whose bits are laid out in turn in longer words. -/
structure LaneOf (lanes j : Nat) (s : Registers (w * lanes)) (t : Registers w) : Prop where
  w0 : Lib.LaneOf lanes j s.w0 t.w0
  w1 : Lib.LaneOf lanes j s.w1 t.w1
  w2 : Lib.LaneOf lanes j s.w2 t.w2
  w3 : Lib.LaneOf lanes j s.w3 t.w3

theorem LaneOf.unique (h : LaneOf lanes j s t) (h' : LaneOf lanes j s t') : t = t' := by
  cases t
  cases t'
  simp only [Registers.mk.injEq]
  exact ⟨h.w0.unique h'.w0, h.w1.unique h'.w1, h.w2.unique h'.w2, h.w3.unique h'.w3⟩

theorem LaneOf.zero : LaneOf lanes j (0 : Registers (w * lanes)) 0 :=
  ⟨Lib.LaneOf.zero, Lib.LaneOf.zero, Lib.LaneOf.zero, Lib.LaneOf.zero⟩

theorem LaneOf.add (h : LaneOf lanes j s t) (h' : LaneOf lanes j s' t') :
    LaneOf lanes j (s + s') (t + t') :=
  ⟨h.w0.xor h'.w0, h.w1.xor h'.w1, h.w2.xor h'.w2, h.w3.xor h'.w3⟩

theorem LaneOf.transition {shift rotation : Nat} {t : Registers w} (hj : j < lanes)
    (hr : rotation < w)
    (h : LaneOf lanes j s t) :
    LaneOf lanes j (s.transition (shift * lanes) (rotation * lanes))
      (t.transition shift rotation) where
  w0 := h.w0.xor (h.w3.xor h.w1)
  w1 := h.w1.xor (h.w2.xor h.w0)
  w2 := (h.w2.xor h.w0).xor (h.w1.shiftLeft hj shift)
  w3 := (h.w3.xor h.w1).rotateLeft hj hr

/-- The sum and the words of a jump in progress, each in a lane of the longer ones. -/
def LoopLane (lanes j : Nat) (a : Registers (w * lanes) × Registers (w * lanes))
    (b : Registers w × Registers w) : Prop :=
  LaneOf lanes j a.1 b.1 ∧ LaneOf lanes j a.2 b.2

variable {wide : Registers (w * lanes) → Registers (w * lanes)} {narrow : Registers w → Registers w}

theorem LoopLane.jumpBit (hadvance : ∀ s t, LaneOf lanes j s t → LaneOf lanes j (wide s) (narrow t))
    (h : LoopLane lanes j a b) (word : BitVec 64) (bit : Nat) :
    LoopLane lanes j (jumpBit wide word a bit) (jumpBit narrow word b bit) := by
  constructor
  · unfold Registers.jumpBit
    split
    · exact h.1.add h.2
    · exact h.1
  · exact hadvance _ _ h.2

theorem LoopLane.jumpWord (hadvance : ∀ s t, LaneOf lanes j s t → LaneOf lanes j (wide s) (narrow t))
    (h : LoopLane lanes j a b) (word : BitVec 64) :
    LoopLane lanes j (jumpWord wide a word) (jumpWord narrow b word) :=
  List.foldl_rel h fun bit _ _ _ h => h.jumpBit hadvance word bit

theorem LaneOf.jump (hadvance : ∀ s t, LaneOf lanes j s t → LaneOf lanes j (wide s) (narrow t))
    (h : LaneOf lanes j s t) (polynomial : List (BitVec 64)) :
    LaneOf lanes j (jump wide polynomial s) (jump narrow polynomial t) := by
  have hloop : LoopLane lanes j (polynomial.foldl (Registers.jumpWord wide) (0, s))
      (polynomial.foldl (Registers.jumpWord narrow) (0, t)) :=
    List.foldl_rel ⟨LaneOf.zero, h⟩ fun word _ _ _ h => h.jumpWord hadvance word
  exact hloop.1

end Lanes

end Registers

end Rphp.Stdlib.Random
