import Mathlib.Logic.Equiv.Basic
import Rphp.Lib.HeapOrder

namespace Rphp.Lib
set_option autoImplicit true

/-! Lists whose elements moved only among some of their positions. -/

section Moves

structure Rearranged (S : Nat → Prop) (l m : List α) : Prop where
  perm : m.Perm l
  inside : ∀ k, S k → ∃ k', S k' ∧ m[k]? = l[k']?
  outside : ∀ k, ¬ S k → m[k]? = l[k]?

theorem Rearranged.refl (S : Nat → Prop) (l : List α) : Rearranged S l l where
  perm := .refl l
  inside k hk := ⟨k, hk, rfl⟩
  outside _ _ := rfl

theorem Rearranged.trans (h : Rearranged S l m) (h' : Rearranged S m n) : Rearranged S l n where
  perm := h'.perm.trans h.perm
  inside k hk := by
    obtain ⟨k', hk', he'⟩ := h'.inside k hk
    obtain ⟨k'', hk'', he⟩ := h.inside k' hk'
    exact ⟨k'', hk'', he'.trans he⟩
  outside k hk := (h'.outside k hk).trans (h.outside k hk)

theorem Rearranged.mono (h : Rearranged S l m) (hS : ∀ k, S k → T k) : Rearranged T l m where
  perm := h.perm
  inside k hk := by
    by_cases hSk : S k
    · obtain ⟨k', hk', he⟩ := h.inside k hSk
      exact ⟨k', hS k' hk', he⟩
    · exact ⟨k, hk, h.outside k hSk⟩
  outside k hk := h.outside k fun hSk => hk (hS k hSk)

theorem Rearranged.length_eq (h : Rearranged S l m) : m.length = l.length := h.perm.length_eq

theorem rearranged_exchange {l : List α} (hi : l[i]? = some a) (hj : l[j]? = some b) (hSi : S i)
    (hSj : S j) : Rearranged S l (exchange l i j a b) where
  perm := exchange_perm hi hj
  inside k hk := by
    rw [getElem?_exchange hi hj]
    by_cases hkj : k = j
    · exact ⟨i, hSi, by rw [if_pos hkj, hi]⟩
    · by_cases hki : k = i
      · exact ⟨j, hSj, by rw [if_neg hkj, if_pos hki, hj]⟩
      · exact ⟨k, hk, by rw [if_neg hkj, if_neg hki]⟩
  outside k hk := by
    have hkj : k ≠ j := by
      rintro rfl
      exact hk hSj
    have hki : k ≠ i := by
      rintro rfl
      exact hk hSi
    rw [getElem?_exchange hi hj, if_neg hkj, if_neg hki]

/-- Positions behind the first one, renamed. -/
def renameBehind (σ : Nat ≃ Nat) : Nat ≃ Nat where
  toFun
    | 0 => 0
    | i + 1 => σ i + 1
  invFun
    | 0 => 0
    | i + 1 => σ.symm i + 1
  left_inv := by
    intro i
    cases i with
    | zero => rfl
    | succ i => exact congrArg (· + 1) (σ.symm_apply_apply i)
  right_inv := by
    intro i
    cases i with
    | zero => rfl
    | succ i => exact congrArg (· + 1) (σ.apply_symm_apply i)

/-- A permutation of a list renames its positions. -/
theorem perm_positions {l m : List α} (h : l.Perm m) : ∃ σ : Nat ≃ Nat, ∀ i, m[σ i]? = l[i]? := by
  induction h with
  | nil => exact ⟨Equiv.refl Nat, fun _ => rfl⟩
  | cons a _ ih =>
    obtain ⟨σ, hσ⟩ := ih
    refine ⟨renameBehind σ, fun i => ?_⟩
    cases i with
    | zero => rfl
    | succ i => exact hσ i
  | swap a b l =>
    refine ⟨Equiv.swap 0 1, fun i => ?_⟩
    cases i with
    | zero => rw [Equiv.swap_apply_left]; rfl
    | succ i =>
      cases i with
      | zero => rw [Equiv.swap_apply_right]; rfl
      | succ i =>
        rw [Equiv.swap_apply_of_ne_of_ne (by omega) (by omega)]
        rfl
  | trans _ _ ih ih' =>
    obtain ⟨σ, hσ⟩ := ih
    obtain ⟨σ', hσ'⟩ := ih'
    exact ⟨σ.trans σ', fun i => (hσ' (σ i)).trans (hσ i)⟩

/-- The element at `source` goes to `destination`, and those from there on move up by one. -/
def rotateRight (l : List α) (destination source : Nat) (a : α) : List α :=
  l.take destination ++ a :: ((l.take source).drop destination ++ l.drop (source + 1))

theorem getElem?_rotateRight {l : List α} (h : destination ≤ source) (ha : l[source]? = some a)
    (k : Nat) : (rotateRight l destination source a)[k]? =
      if k < destination then l[k]?
      else if k = destination then some a
      else if k ≤ source then l[k - 1]? else l[k]? := by
  have hsource := (List.getElem?_eq_some_iff.1 ha).1
  have htake : (l.take destination).length = destination := by
    rw [List.length_take]
    omega
  have hmiddle : ((l.take source).drop destination).length = source - destination := by
    rw [List.length_drop, List.length_take]
    omega
  rw [rotateRight]
  by_cases hlt : k < destination
  · rw [if_pos hlt, List.getElem?_append_left (htake.symm ▸ hlt), List.getElem?_take_of_lt hlt]
  · rw [if_neg hlt, List.getElem?_append_right (by omega), htake]
    by_cases heq : k = destination
    · rw [if_pos heq, heq, Nat.sub_self, List.getElem?_cons_zero]
    · obtain ⟨j, rfl⟩ : ∃ j, k = destination + (j + 1) := ⟨k - destination - 1, by omega⟩
      rw [if_neg heq, Nat.add_sub_cancel_left, List.getElem?_cons_succ]
      by_cases hle : destination + (j + 1) ≤ source
      · rw [if_pos hle, List.getElem?_append_left (by omega), List.getElem?_drop,
          List.getElem?_take_of_lt (by omega)]
        rfl
      · rw [if_neg hle, List.getElem?_append_right (by omega), hmiddle, List.getElem?_drop]
        congr 1
        omega

theorem rotateRight_perm {l : List α} (h : destination ≤ source) (ha : l[source]? = some a) :
    (rotateRight l destination source a).Perm l := by
  obtain ⟨hsource, rfl⟩ := List.getElem?_eq_some_iff.1 ha
  have hsplit : l = l.take destination ++ ((l.take source).drop destination ++
      l[source] :: l.drop (source + 1)) := by
    have hfront : l.take destination = (l.take source).take destination := by
      rw [List.take_take, Nat.min_eq_left h]
    rw [← List.append_assoc, hfront, List.take_append_drop, List.getElem_cons_drop,
      List.take_append_drop]
  rw [rotateRight]
  conv => rhs; rw [hsplit]
  exact List.Perm.append_left _ List.perm_middle.symm

theorem rearranged_rotateRight {l : List α} (h : destination ≤ source)
    (ha : l[source]? = some a) :
    Rearranged (fun k => destination ≤ k ∧ k ≤ source) l (rotateRight l destination source a) where
  perm := rotateRight_perm h ha
  inside k hk := by
    rw [getElem?_rotateRight h ha, if_neg (Nat.not_lt.mpr hk.1)]
    by_cases heq : k = destination
    · exact ⟨source, ⟨h, Nat.le_refl _⟩, by rw [if_pos heq, ha]⟩
    · rw [if_neg heq, if_pos hk.2]
      exact ⟨k - 1, ⟨by omega, by omega⟩, rfl⟩
  outside k hk := by
    rw [getElem?_rotateRight h ha]
    by_cases hlt : k < destination
    · rw [if_pos hlt]
    · rw [if_neg hlt, if_neg (by omega), if_neg (by omega)]

end Moves

section Orders

/-- The element at one position may stand before the one at the other. -/
def Below (le : α → α → Prop) (l : List α) (i j : Nat) : Prop :=
  ∃ a b, l[i]? = some a ∧ l[j]? = some b ∧ le a b

/-- A segment in order. -/
def Ascending (le : α → α → Prop) (l : List α) (start stop : Nat) : Prop :=
  ∀ i j, start ≤ i → i < j → j < stop → Below le l i j

variable {le : α → α → Prop} {l m : List α}

theorem Below.congr (h : Below le l i j) (hi : m[i']? = l[i]?) (hj : m[j']? = l[j]?) :
    Below le m i' j' := by
  obtain ⟨a, b, ha, hb, hab⟩ := h
  exact ⟨a, b, hi.trans ha, hj.trans hb, hab⟩

theorem Below.trans (trans : ∀ a b c, le a b → le b c → le a c) (h : Below le l i j)
    (h' : Below le l j k) : Below le l i k := by
  obtain ⟨a, b, ha, hb, hab⟩ := h
  obtain ⟨b', c, hb', hc, hbc⟩ := h'
  cases hb.symm.trans hb'
  exact ⟨a, c, ha, hc, trans a b c hab hbc⟩

/-- An element goes into a segment in order, behind those that may stand before it. -/
theorem Ascending.rotateRight {a : α} (h : Ascending le l start source)
    (hstart : start ≤ destination) (hle : destination ≤ source) (ha : l[source]? = some a)
    (hbefore : ∀ k, start ≤ k → k < destination → Below le l k source)
    (hbehind : ∀ k, destination ≤ k → k < source → Below le l source k) :
    Ascending le (Lib.rotateRight l destination source a) start (source + 1) := by
  intro i j hi hij hj
  have hat := getElem?_rotateRight hle ha
  by_cases hjd : j < destination
  · apply (h i j hi hij (by omega)).congr
    · rw [hat, if_pos (by omega)]
    · rw [hat, if_pos hjd]
  · by_cases hjeq : j = destination
    · apply (hbefore i hi (by omega)).congr
      · rw [hat, if_pos (by omega)]
      · rw [hat, if_neg hjd, if_pos hjeq, ha]
    · have hjat : (Lib.rotateRight l destination source a)[j]? = l[j - 1]? := by
        rw [hat, if_neg hjd, if_neg hjeq, if_pos (by omega)]
      by_cases hid : i < destination
      · apply (h i (j - 1) hi (by omega) (by omega)).congr
        · rw [hat, if_pos hid]
        · exact hjat
      · by_cases hieq : i = destination
        · apply (hbehind (j - 1) (by omega) (by omega)).congr
          · rw [hat, if_neg hid, if_pos hieq, ha]
          · exact hjat
        · apply (h (i - 1) (j - 1) (by omega) (by omega) (by omega)).congr
          · rw [hat, if_neg hid, if_neg hieq, if_pos (by omega)]
          · exact hjat

end Orders

end Rphp.Lib
