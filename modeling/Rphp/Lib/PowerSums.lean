import Mathlib.Algebra.Group.Hom.End
import Mathlib.Algebra.GroupWithZero.Commute
import Mathlib.Algebra.Ring.Commute

namespace Rphp.Lib
set_option autoImplicit true

/-! Polynomials in one additive map, given by the list of their coefficients. -/

section PowerSums

variable [AddCommMonoid A]

/-- The sum of the powers of a map that a list of coefficients selects. -/
def selectedPowers (f : AddMonoid.End A) : List Bool → AddMonoid.End A
  | [] => 0
  | true :: bits => 1 + selectedPowers f bits * f
  | false :: bits => selectedPowers f bits * f

/-- One step of the loop that adds the selected powers of a map up. -/
def addSelected (f : A → A) (loop : A × A) (bit : Bool) : A × A :=
  (if bit then loop.1 + loop.2 else loop.1, f loop.2)

theorem foldl_addSelected (f : AddMonoid.End A) (bits : List Bool) (result x : A) :
    (bits.foldl (addSelected f) (result, x)).1 = result + selectedPowers f bits x := by
  induction bits generalizing result x with
  | nil => exact (add_zero result).symm
  | cons bit bits ih =>
    rw [List.foldl_cons, addSelected, ih]
    cases bit with
    | false => rfl
    | true => exact add_assoc result x _

theorem selectedPowers_commute_of {f g : AddMonoid.End A} (h : Commute f g) (bits : List Bool) :
    Commute (selectedPowers f bits) g := by
  induction bits with
  | nil => exact Commute.zero_left g
  | cons bit bits ih =>
    cases bit with
    | false => exact ih.mul_left h
    | true => exact (Commute.one_left g).add_left (ih.mul_left h)

theorem selectedPowers_commute (f : AddMonoid.End A) (bits : List Bool) :
    Commute (selectedPowers f bits) f :=
  selectedPowers_commute_of (Commute.refl f) bits

theorem selectedPowers_commute_selectedPowers (f : AddMonoid.End A) (bits bits' : List Bool) :
    Commute (selectedPowers f bits) (selectedPowers f bits') :=
  selectedPowers_commute_of (selectedPowers_commute f bits').symm bits

end PowerSums

end Rphp.Lib
