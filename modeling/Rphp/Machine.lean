import Mathlib.Order.Lattice
import Mathlib.Data.Int.Order.Basic
import Rphp.Lib.Decimal

namespace Rphp
set_option autoImplicit true

/-- Errors that abandon the running script. -/
inductive VmError where
  | fatal (message : String)
deriving DecidableEq, Repr

def i64Min : Int := -9223372036854775808

def i64Max : Int := 9223372036854775807

def usizeMax : Nat := 18446744073709551615

def saturatingAdd (a b : Nat) : Nat := min (a + b) usizeMax

/-- The 64-bit signed integers, as integers in their range. -/
structure I64 where
  val : Int
  inRange : i64Min ≤ val ∧ val ≤ i64Max
deriving DecidableEq

namespace I64

def min : I64 := ⟨i64Min, by decide⟩

def max : I64 := ⟨i64Max, by decide⟩

def zero : I64 := ⟨0, by decide⟩

def ofInt? (x : Int) : Option I64 :=
  if h : i64Min ≤ x ∧ x ≤ i64Max then some ⟨x, h⟩ else none

def ofNat? (n : Nat) : Option I64 := ofInt? n

/-- A cast that keeps the low 64 bits. -/
def wrap (x : Int) : I64 :=
  ⟨x.bmod 18446744073709551616, by
    have h1 := @Int.le_bmod x 18446744073709551616 (by decide)
    have h2 := @Int.bmod_lt x 18446744073709551616 (by decide)
    unfold i64Min i64Max
    omega⟩

def toUsize? (a : I64) : Option Nat := if 0 ≤ a.val then some a.val.toNat else none

def checkedAdd (a b : I64) : Option I64 := ofInt? (a.val + b.val)

def checkedSub (a b : I64) : Option I64 := ofInt? (a.val - b.val)

def checkedMul (a b : I64) : Option I64 := ofInt? (a.val * b.val)

/-- Truncated division; zero divisors and the one quotient out of range give nothing. -/
def checkedDiv (a b : I64) : Option I64 := if b.val = 0 then none else ofInt? (a.val.tdiv b.val)

/-- The remainder is refused exactly where the quotient is. -/
def checkedRem (a b : I64) : Option I64 :=
  if b.val = 0 ∨ a.val = i64Min ∧ b.val = -1 then none else ofInt? (a.val.tmod b.val)

def saturatingSucc (a : I64) : I64 := if a = max then max else wrap (a.val + 1)

def wrappingPred (a : I64) : I64 := wrap (a.val - 1)

theorem ext {a b : I64} (h : a.val = b.val) : a = b := by
  cases a
  cases b
  simpa using h

theorem ofInt?_eq_some : ofInt? x = some a ↔ a.val = x := by
  unfold ofInt?
  split
  · simp only [Option.some.injEq]
    exact ⟨fun h => h ▸ rfl, fun h => ext h.symm⟩
  · rename_i h
    simp only [reduceCtorEq, false_iff]
    exact fun he => h (he ▸ a.inRange)

theorem ofInt?_eq_none : ofInt? x = none ↔ ¬ (i64Min ≤ x ∧ x ≤ i64Max) := by
  unfold ofInt?
  split <;> simp_all

theorem wrap_val {x : Int} (h : i64Min ≤ x ∧ x ≤ i64Max) : (wrap x).val = x := by
  unfold wrap i64Min i64Max at *
  exact Int.bmod_eq_of_le (by omega) (by omega)

theorem saturatingSucc_val (a : I64) :
    (saturatingSucc a).val = if a.val = i64Max then i64Max else a.val + 1 := by
  have ha := a.inRange
  unfold saturatingSucc
  by_cases h : a = max
  · rw [if_pos h, h]
    rfl
  · have hne : a.val ≠ i64Max := fun he => h (ext he)
    rw [if_neg h, if_neg hne, wrap_val]
    unfold i64Min i64Max at *
    omega

theorem ofNat?_eq_some : ofNat? n = some a ↔ a.val = n := ofInt?_eq_some

theorem toUsize?_eq_some {a : I64} : a.toUsize? = some n ↔ a.val = n := by
  unfold toUsize?
  split
  · simp only [Option.some.injEq]
    omega
  · simp only [reduceCtorEq, false_iff]
    omega

theorem checkedAdd_eq_some : checkedAdd a b = some c ↔ c.val = a.val + b.val := ofInt?_eq_some

theorem checkedSub_eq_some : checkedSub a b = some c ↔ c.val = a.val - b.val := ofInt?_eq_some

theorem checkedMul_eq_some : checkedMul a b = some c ↔ c.val = a.val * b.val := ofInt?_eq_some

end I64

/-- The integer that a text spells: an optional sign and digits, in range. -/
def parseI64 (text : List UInt8) : Option I64 :=
  let sign : Int := if text.head? = some 45 then -1 else 1
  let digits := Lib.skipSign text
  if digits = [] ∨ ¬ digits.all Lib.isDigit then none
  else I64.ofInt? (sign * Lib.digitsValue digits)

end Rphp
