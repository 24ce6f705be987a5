import Mathlib.Data.List.Destutter
import Mathlib.Data.List.Sort

set_option autoImplicit true

namespace Rphp.Lib

section SortDedup

variable [LinearOrder κ] (key : α → κ)

/-- The elements in the order of their keys, and of each key only the first. -/
def sortDedup (l : List α) : List α :=
  (l.insertionSort fun a b => key a ≤ key b).destutter fun a b => key a ≠ key b

variable {key}

theorem mem_of_mem_sortDedup (h : a ∈ sortDedup key l) : a ∈ l :=
  (List.mem_insertionSort _).mp ((List.destutter_sublist _ _).subset h)

/-- Every key of a list stays when repetitions are left out. -/
theorem exists_mem_destutter' (first : α) (l : List α) (ha : a ∈ first :: l) :
    ∃ b ∈ l.destutter' (fun a b => key a ≠ key b) first, key b = key a := by
  induction l generalizing first a with
  | nil =>
    rw [List.mem_singleton.mp ha]
    exact ⟨first, List.mem_singleton_self first, rfl⟩
  | cons c l ih =>
    rw [List.destutter'_cons]
    split
    · rcases List.mem_cons.mp ha with rfl | ha
      · exact ⟨_, List.mem_cons_self, rfl⟩
      · obtain ⟨b, hb, hkey⟩ := ih c ha
        exact ⟨b, List.mem_cons_of_mem _ hb, hkey⟩
    · rename_i hsame
      rw [not_not] at hsame
      rcases List.mem_cons.mp ha with rfl | ha
      · exact ih _ List.mem_cons_self
      · rcases List.mem_cons.mp ha with rfl | ha
        · obtain ⟨b, hb, hkey⟩ := ih first List.mem_cons_self
          exact ⟨b, hb, hkey.trans hsame⟩
        · exact ih first (List.mem_cons_of_mem _ ha)

theorem exists_mem_sortDedup (h : a ∈ l) : ∃ b ∈ sortDedup key l, key b = key a := by
  have hsorted := (List.mem_insertionSort fun a b => key a ≤ key b).mpr h
  unfold sortDedup
  cases hl : l.insertionSort fun a b => key a ≤ key b with
  | nil =>
    rw [hl] at hsorted
    cases hsorted
  | cons first rest =>
    rw [hl] at hsorted
    exact exists_mem_destutter' first rest hsorted

/-- The keys that are left increase. -/
theorem sortDedup_sorted (l : List α) : ((sortDedup key l).map key).Pairwise (· < ·) := by
  rw [List.pairwise_map]
  have hle : (sortDedup key l).Pairwise fun a b => key a ≤ key b :=
    (List.pairwise_insertionSort (fun a b => key a ≤ key b) l).sublist (List.destutter_sublist _ _)
  have hne : (sortDedup key l).IsChain fun a b => key a ≠ key b := List.isChain_destutter _ _
  have hlt : (sortDedup key l).IsChain fun a b => key a < key b :=
    List.isChain_iff_getElem.mpr fun i hi =>
      lt_of_le_of_ne (hle.isChain.getElem i hi) (hne.getElem i hi)
  have htrans : IsTrans α fun a b => key a < key b := ⟨fun _ _ _ => lt_trans⟩
  exact List.isChain_iff_pairwise.mp hlt

/-- The keys that are left depend only on which keys there are. -/
theorem map_sortDedup_congr {l l' : List α} (h : ∀ k, k ∈ l.map key ↔ k ∈ l'.map key) :
    (sortDedup key l).map key = (sortDedup key l').map key := by
  have hmem : ∀ (l : List α) k, k ∈ (sortDedup key l).map key ↔ k ∈ l.map key := by
    intro l k
    simp only [List.mem_map]
    constructor
    · rintro ⟨a, ha, rfl⟩
      exact ⟨a, mem_of_mem_sortDedup ha, rfl⟩
    · rintro ⟨a, ha, rfl⟩
      exact exists_mem_sortDedup ha
  refine (sortDedup_sorted l).eq_of_mem_iff (sortDedup_sorted l') fun k => ?_
  rw [hmem, hmem, h]

end SortDedup

end Rphp.Lib
