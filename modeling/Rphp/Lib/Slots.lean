import Mathlib.Data.List.Basic
import Mathlib.Data.List.Perm.Basic

namespace Rphp.Lib
set_option autoImplicit true

/-! An array of optional slots that is filled from the front. -/

/-- The elements in the first slots, and the other slots free. -/
def denseSlots (capacity : Nat) (l : List α) : List (Option α) :=
  l.map some ++ List.replicate (capacity - l.length) none

def occupied (slots : List (Option α)) : Nat := (slots.takeWhile Option.isSome).length

/-- Move the elements of that many slots behind the index forward by one. -/
def shiftSlots (slots : List (Option α)) : Nat → Nat → List (Option α)
  | _, 0 => slots
  | index, count + 1 =>
    shiftSlots ((slots.set index slots[index + 1]?.join).set (index + 1) none) (index + 1) count

theorem occupied_dense (capacity : Nat) (l : List α) :
    occupied (denseSlots capacity l) = l.length := by
  unfold occupied denseSlots
  rw [List.takeWhile_append_of_pos (by simp)]
  cases capacity - l.length <;> simp [List.replicate_succ]

theorem denseSlots_getElem? (capacity : Nat) (l : List α) (i : Nat) :
    (denseSlots capacity l)[i]?.join = l[i]? := by
  unfold denseSlots
  rcases Nat.lt_or_ge i l.length with hi | hi
  · rw [List.getElem?_append_left (by simpa using hi)]
    simp [hi]
  · rw [List.getElem?_append_right (by simpa using hi), List.getElem?_replicate]
    split <;> simp [hi]

theorem take_denseSlots (capacity : Nat) (l : List α) :
    (denseSlots capacity l).take l.length = l.map some := by
  simp [denseSlots]

theorem filterMap_denseSlots (capacity : Nat) (l : List α) :
    (denseSlots capacity l).filterMap id = l := by
  simp [denseSlots, List.filterMap_append]

theorem map_denseSlots (capacity : Nat) (l : List α) (f : α → β) :
    (denseSlots capacity l).map (Option.map f) = denseSlots capacity (l.map f) := by
  simp [denseSlots, Function.comp_def]

theorem denseSlots_set (capacity : Nat) (l : List α) (hi : i < l.length) (x : α) :
    (denseSlots capacity l).set i (some x) = denseSlots capacity (l.set i x) := by
  simp [denseSlots, hi, List.map_set]

theorem denseSlots_push (l : List α) (h : l.length < capacity) (x : α) :
    (denseSlots capacity l).set l.length (some x) = denseSlots capacity (l ++ [x]) := by
  obtain ⟨n, hn⟩ : ∃ n, capacity - l.length = n + 1 := ⟨capacity - l.length - 1, by omega⟩
  have hn' : capacity - (l.length + 1) = n := by omega
  simp [denseSlots, hn, hn', List.replicate_succ]

/-- The loop moves a block of elements forward by one slot and frees the last one. -/
theorem shiftSlots_eq (pre : List (Option α)) (x : Option α) (block rest : List (Option α)) :
    (shiftSlots (pre ++ x :: (block ++ rest)) pre.length block.length).set
      (pre.length + block.length) none = pre ++ (block ++ none :: rest) := by
  induction block generalizing pre x with
  | nil => simp [shiftSlots]
  | cons y block ih =>
    have hmoved : ((pre ++ x :: (y :: block ++ rest)).set pre.length
        (pre ++ x :: (y :: block ++ rest))[pre.length + 1]?.join).set (pre.length + 1) none =
        (pre ++ [y]) ++ none :: (block ++ rest) := by
      simp
    rw [List.length_cons, shiftSlots, hmoved]
    have hlen : (pre ++ [y]).length = pre.length + 1 := by simp
    have := ih (pre ++ [y]) none
    rw [hlen, show pre.length + 1 + block.length = pre.length + (block.length + 1) by omega] at this
    rw [this]
    simp

theorem shiftSlots_dense (l : List α) (hp : p < l.length) (hc : l.length ≤ capacity) :
    (shiftSlots (denseSlots capacity l) p (l.length - 1 - p)).set (l.length - 1) none =
      denseSlots capacity (l.eraseIdx p) := by
  obtain ⟨pre, x, block, hl, hpre⟩ : ∃ pre x block, l = pre ++ x :: block ∧ pre.length = p :=
    ⟨l.take p, l[p], l.drop (p + 1), by simp, by simp; omega⟩
  subst hpre
  have hlen : l.length = pre.length + block.length + 1 := by
    rw [hl]
    simp only [List.length_append, List.length_cons]
    omega
  have hshift := shiftSlots_eq (pre.map some) (some x) (block.map some)
    (List.replicate (capacity - l.length) none)
  simp only [List.length_map] at hshift
  have hslots : denseSlots capacity l = pre.map some ++ some x ::
      (block.map some ++ List.replicate (capacity - l.length) none) := by
    rw [denseSlots]
    simp [hl]
  have hcap : capacity - (pre.length + block.length) = (capacity - l.length) + 1 := by omega
  rw [hslots, show l.length - 1 - pre.length = block.length by omega,
    show l.length - 1 = pre.length + block.length by omega, hshift]
  simp [denseSlots, hl, List.eraseIdx_append_of_length_le, hcap, List.replicate_succ]

/-- Remove one position by moving the last element into it. -/
def swapRemove (l : List α) (i : Nat) : List α :=
  match l.getLast? with
  | some last => (l.set i last).dropLast
  | none => []

theorem swapRemove_length (l : List α) (i : Nat) : (swapRemove l i).length = l.length - 1 := by
  unfold swapRemove
  split
  · simp
  · rename_i hnone
    simp [List.getLast?_eq_none_iff.1 hnone]

/-- What is in front of the position stays, and what is behind it stays in some order. -/
theorem swapRemove_append (before after : List α) (a : α) :
    ∃ rest, swapRemove (before ++ a :: after) before.length = before ++ rest ∧ rest.Perm after := by
  rcases List.eq_nil_or_concat after with rfl | ⟨after, last, rfl⟩
  · exact ⟨[], by simp [swapRemove], List.Perm.refl _⟩
  · have hsplit : before ++ a :: after.concat last = (before ++ a :: after) ++ [last] := by simp
    refine ⟨last :: after, ?_, ?_⟩
    · rw [hsplit, swapRemove, List.getLast?_concat, ← hsplit]
      simp only [List.set_append_right _ _ (Nat.le_refl _), Nat.sub_self, List.set_cons_zero,
        List.concat_eq_append]
      rw [← List.cons_append, ← List.append_assoc, List.dropLast_concat]
    · rw [List.concat_eq_append]
      exact (List.perm_append_singleton last after).symm

theorem swapRemove_perm {l : List α} (h : l[i]? = some a) : (a :: swapRemove l i).Perm l := by
  obtain ⟨hlt, hget⟩ := List.getElem?_eq_some_iff.1 h
  have hsplit : l = l.take i ++ a :: l.drop (i + 1) := by
    rw [← hget, ← List.drop_eq_getElem_cons hlt, List.take_append_drop]
  have hlen : (l.take i).length = i := by rw [List.length_take, Nat.min_eq_left (Nat.le_of_lt hlt)]
  obtain ⟨rest, hswap, hrest⟩ := swapRemove_append (l.take i) (l.drop (i + 1)) a
  rw [← hsplit, hlen] at hswap
  rw [hswap]
  refine List.perm_middle.symm.trans (((hrest.cons a).append_left _).trans ?_)
  rw [← hsplit]

end Rphp.Lib
