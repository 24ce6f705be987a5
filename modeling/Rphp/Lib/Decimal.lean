import Mathlib.Data.List.Basic
import Mathlib.Data.List.TakeWhile

namespace Rphp.Lib
set_option autoImplicit true

/-! Decimal numerals, as bytes of ASCII. -/

def isDigit (byte : UInt8) : Bool := 48 ≤ byte && byte ≤ 57

/-- The number that digits stand for. -/
def digitsValue (digits : List UInt8) : Nat :=
  digits.foldl (fun value digit => 10 * value + (digit.toNat - 48)) 0

/-- What is left behind an optional sign. -/
def skipSign (text : List UInt8) : List UInt8 :=
  if text.head? = some 43 ∨ text.head? = some 45 then text.tail else text

theorem isDigit_iff : isDigit byte = true ↔ 48 ≤ byte.toNat ∧ byte.toNat ≤ 57 := by
  rw [isDigit, Bool.and_eq_true, decide_eq_true_eq, decide_eq_true_eq, UInt8.le_iff_toNat_le,
    UInt8.le_iff_toNat_le]
  exact Iff.rfl

/-- A run of digits ends at a byte that is none. -/
theorem dropWhile_digits {digits rest : List UInt8} (hdigits : ∀ byte ∈ digits, isDigit byte = true)
    (hrest : ∀ byte ∈ rest.head?, isDigit byte = false) :
    (digits ++ rest).dropWhile isDigit = rest := by
  rw [List.dropWhile_append_of_pos hdigits]
  cases rest with
  | nil => rfl
  | cons byte rest =>
    have hbyte : isDigit byte = false := hrest byte rfl
    simp [hbyte]

theorem skipSign_sound (text : List UInt8) :
    ∃ sign, (sign = [] ∨ sign = [43] ∨ sign = [45]) ∧ text = sign ++ skipSign text := by
  unfold skipSign
  split
  · rename_i hsign
    rcases hsign with hsign | hsign
    · exact ⟨[43], .inr (.inl rfl), (List.cons_head?_tail hsign).symm⟩
    · exact ⟨[45], .inr (.inr rfl), (List.cons_head?_tail hsign).symm⟩
  · exact ⟨[], .inl rfl, rfl⟩

end Rphp.Lib
