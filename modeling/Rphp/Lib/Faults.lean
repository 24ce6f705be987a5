import Mathlib.Logic.Basic

namespace Rphp.Lib
set_option autoImplicit true

/-! Computations that may end in a fault, one by one and side by side. -/

/-- A computation gives a value with a property, or one of the faults that are allowed. -/
def Settles (allowed : ε → Prop) (P : α → Prop) : Except ε α → Prop
  | .ok a => P a
  | .error fault => allowed fault

/-- A second computation gives a related value or the same fault; where the first one ends in an
excused fault, nothing is said. -/
def Follows (excused : ε → Prop) (R : α → β → Prop) : Except ε α → Except ε β → Prop
  | .ok a, .ok b => R a b
  | .ok _, .error _ => False
  | .error fault, result => excused fault ∨ result = .error fault

/-- Two computations give related values, or the same fault, which is allowed. -/
def Matches (allowed : ε → Prop) (R : α → β → Prop) : Except ε α → Except ε β → Prop
  | .ok a, .ok b => R a b
  | .error fault, .error fault' => fault = fault' ∧ allowed fault
  | _, _ => False

theorem except_bind_eq_ok {x : Except ε α} {f : α → Except ε β} :
    (x >>= f) = .ok b ↔ ∃ a, x = .ok a ∧ f a = .ok b := by
  cases x with
  | ok a =>
    constructor
    · intro h
      exact ⟨a, rfl, h⟩
    · rintro ⟨_, ⟨⟩, h⟩
      exact h
  | error fault => exact ⟨nofun, nofun⟩

/-- Behind a check that throws, the check was passed. -/
theorem except_guard_eq_ok {c : Prop} [Decidable c] {fault : ε} {f : PUnit → Except ε β} :
    (if c then throw fault >>= f else f PUnit.unit) = .ok b ↔ ¬ c ∧ f PUnit.unit = .ok b := by
  split
  · rename_i hc
    exact ⟨nofun, fun h => absurd hc h.1⟩
  · rename_i hc
    exact (and_iff_right hc).symm

section

variable {allowed excused : ε → Prop}

theorem Settles.mono {x : Except ε α} (h : Settles allowed P x) (hP : ∀ a, P a → Q a) :
    Settles allowed Q x := by
  cases x with
  | ok a => exact hP a h
  | error fault => exact h

theorem Settles.bind {x : Except ε α} {f : α → Except ε β} (h : Settles allowed P x)
    (hf : ∀ a, P a → Settles allowed Q (f a)) : Settles allowed Q (x >>= f) := by
  cases x with
  | ok a => exact hf a h
  | error fault => exact h

theorem Follows.bind {x : Except ε α} {y : Except ε β} {f : α → Except ε α'}
    {g : β → Except ε β'} (h : Follows excused R x y)
    (hf : ∀ a b, x = .ok a → y = .ok b → R a b → Follows excused S (f a) (g b)) :
    Follows excused S (x >>= f) (y >>= g) := by
  cases x with
  | ok a =>
    cases y with
    | ok b => exact hf a b rfl rfl h
    | error fault => exact h.elim
  | error fault =>
    obtain hexcused | rfl := h
    · exact .inl hexcused
    · exact .inr rfl

/-- Where the first computation has no excused fault, the second one has the same fault. -/
theorem Matches.of_follows {x : Except ε α} {y : Except ε β} (h : Follows excused R x y)
    (hx : Settles allowed (fun _ => True) x) (hexcused : ∀ fault, allowed fault → ¬ excused fault) :
    Matches allowed R x y := by
  cases x with
  | ok a =>
    cases y with
    | ok b => exact h
    | error fault => exact h.elim
  | error fault =>
    obtain hfault | rfl := h
    · exact absurd hfault (hexcused fault hx)
    · exact ⟨rfl, hx⟩

theorem Matches.bind {x : Except ε α} {y : Except ε β} {f : α → Except ε α'}
    {g : β → Except ε β'} (h : Matches allowed R x y)
    (hf : ∀ a b, R a b → Matches allowed S (f a) (g b)) :
    Matches allowed S (x >>= f) (y >>= g) := by
  cases x with
  | ok a =>
    cases y with
    | ok b => exact hf a b h
    | error fault => exact h.elim
  | error fault =>
    cases y with
    | ok b => exact h.elim
    | error fault' => exact h

theorem Matches.mono {x : Except ε α} {y : Except ε β} (h : Matches allowed R x y)
    (hR : ∀ a b, R a b → S a b) : Matches allowed S x y := by
  cases x with
  | ok a =>
    cases y with
    | ok b => exact hR a b h
    | error fault => exact h
  | error fault =>
    cases y with
    | ok b => exact h
    | error fault' => exact h

theorem Matches.eq {x y : Except ε α} (h : Matches allowed Eq x y) :
    y = x ∧ Settles allowed (fun _ => True) y := by
  cases x with
  | ok a =>
    cases y with
    | ok b => exact ⟨congrArg Except.ok h.symm, trivial⟩
    | error fault => exact h.elim
  | error fault =>
    cases y with
    | ok b => exact h.elim
    | error fault' =>
      obtain ⟨rfl, hallowed⟩ := h
      exact ⟨rfl, hallowed⟩

end

end Rphp.Lib
