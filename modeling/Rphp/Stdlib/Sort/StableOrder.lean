import Rphp.Stdlib.Sort.ScheduleRun

namespace Rphp.Stdlib.Sort
open Rphp.Lib
set_option autoImplicit true

/-! The order that a consistent comparison asks for: equal entries as they were before. -/

section Orders

variable (cmp : α → α → Ordering)

def mayPrecede (a b : α) : Bool := (cmp a b).isLE

/-- An entry and its position; there is none past the end. -/
def placed (entries : List α) (default : α) (i : Nat) : α × Nat :=
  (entries[i]?.getD default, i)

def Precedes (entries : List α) (default : α) (i j : Nat) : Prop :=
  List.zipIdxLE (mayPrecede cmp) (placed entries default i) (placed entries default j) = true

variable [Std.TransCmp cmp]

theorem mayPrecede_trans (a b c : α) (hab : mayPrecede cmp a b) (hbc : mayPrecede cmp b c) :
    mayPrecede cmp a c := Std.TransCmp.isLE_trans hab hbc

theorem mayPrecede_total (a b : α) : (mayPrecede cmp a b || mayPrecede cmp b a) = true := by
  simp only [mayPrecede, ← Std.OrientedCmp.isGE_eq_isLE (a := a)]
  cases cmp a b with
  | lt => rfl
  | eq => rfl
  | gt => rfl

variable {cmp}

/-- A comparison whose answers are those of `cmp`; it may raise an error instead. -/
def Consistent (compare : Compare α ε σ) (cmp : α → α → Ordering) : Prop :=
  ∀ a b world, Post (fun ordering _ => ordering = cmp a b) (fun _ _ => True) (compare a b world)

theorem isGT_iff_not_zipIdxLE (a b : α) (i j : Nat) :
    (if cmp a b = .eq then Ord.compare i j else cmp a b).isGT = true ↔
      ¬ List.zipIdxLE (mayPrecede cmp) (a, i) (b, j) = true := by
  have hback : (cmp a b).isGE = (cmp b a).isLE := Std.OrientedCmp.isGE_eq_isLE
  cases hab : cmp a b with
  | lt =>
    rw [hab] at hback
    simp [List.zipIdxLE, mayPrecede, hab, ← hback]
  | eq =>
    rw [hab] at hback
    simp only [List.zipIdxLE, mayPrecede, hab, ← hback, if_true, Ordering.isLE_eq,
      Ordering.isGE_eq, Ordering.isGT_iff_eq_gt, decide_eq_true_eq, Nat.compare_eq_gt]
    exact Nat.not_le.symm
  | gt =>
    simp [List.zipIdxLE, mayPrecede, hab]

theorem Consistent.oracle {compare : Compare α ε σ} (h : Consistent compare cmp)
    (entries : List α) (default : α) :
    Oracle entries compare True (Precedes cmp entries default) where
  trans a b c := List.zipIdxLE_trans (mayPrecede_trans cmp) _ _ _
  total a b hab := by
    have htotal := List.zipIdxLE_total (mayPrecede_total cmp)
      (placed entries default a) (placed entries default b)
    cases (Bool.or_eq_true _ _).mp htotal with
    | inl hle => exact absurd hle hab
    | inr hle => exact hle
  decides _ i j a b world ha hb := by
    apply (h a b world).mono
    · rintro ordering _ rfl
      rw [isGT_iff_not_zipIdxLE, Precedes, placed, placed, ha, hb]
      rfl
    · intro _ _ _
      trivial

end Orders

section Results

variable {cmp : α → α → Ordering} {entries : List α} {default : α} {order : List Nat}

/-- The entries in an order, with the positions that they had. -/
def labelled (entries : List α) (order : List Nat) : List (α × Nat) :=
  arranged entries.zipIdx order

theorem labelled_fst (entries : List α) (order : List Nat) :
    (labelled entries order).map Prod.fst = arranged entries order := by
  rw [labelled, arranged, List.map_filterMap, arranged]
  congr 1
  funext index
  rw [List.getElem?_zipIdx, Option.map_map]
  cases entries[index]? with
  | none => rfl
  | some a => rfl

theorem labelled_perm (h : order.Perm (List.range entries.length)) :
    (labelled entries order).Perm entries.zipIdx := by
  apply arranged_perm
  rw [List.length_zipIdx]
  exact h

theorem labelled_pairwise (h : Ascending (Precedes cmp entries default) order 0 order.length) :
    (labelled entries order).Pairwise fun a b => List.zipIdxLE (mayPrecede cmp) a b = true := by
  rw [labelled, arranged, List.pairwise_filterMap, List.pairwise_iff_getElem]
  intro i j hi hj hij a ha b hb
  obtain ⟨k, k', hk, hk', hle⟩ := h i j (Nat.zero_le i) hij hj
  rw [List.getElem?_eq_getElem hi] at hk
  rw [List.getElem?_eq_getElem hj] at hk'
  cases hk
  cases hk'
  rw [List.getElem?_zipIdx, Option.map_eq_some_iff] at ha hb
  obtain ⟨a', ha', rfl⟩ := ha
  obtain ⟨b', hb', rfl⟩ := hb
  rw [Precedes, placed, placed, ha', hb'] at hle
  rw [Nat.zero_add, Nat.zero_add]
  exact hle

/-- Two entries at one position are one. -/
theorem zipIdx_antisymm (cmp : α → α → Ordering) (a b : α × Nat) (ha : a ∈ entries.zipIdx)
    (hb : b ∈ entries.zipIdx)
    (hab : List.zipIdxLE (mayPrecede cmp) a b = true)
    (hba : List.zipIdxLE (mayPrecede cmp) b a = true) : a = b := by
  have heq : a.2 = b.2 := by
    rw [List.zipIdxLE] at hab hba
    by_cases hle : mayPrecede cmp a.1 b.1 = true
    · by_cases hge : mayPrecede cmp b.1 a.1 = true
      · rw [if_pos hle, if_pos hge] at hab
        rw [if_pos hge, if_pos hle] at hba
        exact Nat.le_antisymm (of_decide_eq_true hab) (of_decide_eq_true hba)
      · rw [if_neg hge] at hba
        exact absurd hba Bool.false_ne_true
    · rw [if_neg hle] at hab
      exact absurd hab Bool.false_ne_true
  have ha' := List.mem_zipIdx_iff_getElem?.mp ha
  have hb' := List.mem_zipIdx_iff_getElem?.mp hb
  rw [heq] at ha'
  exact Prod.ext (Option.some.inj (ha'.symm.trans hb')) heq

/-- There is one stable order. -/
theorem arranged_eq_mergeSort [Std.TransCmp cmp] (hperm : order.Perm (List.range entries.length))
    (hascending : Ascending (Precedes cmp entries default) order 0 entries.length) :
    arranged entries order = entries.mergeSort (mayPrecede cmp) := by
  have hlength : order.length = entries.length := by
    rw [hperm.length_eq, List.length_range]
  rw [← hlength] at hascending
  have hlabelled : labelled entries order =
      entries.zipIdx.mergeSort (List.zipIdxLE (mayPrecede cmp)) := by
    apply List.Perm.eq_of_pairwise
    · intro a b ha hb
      exact zipIdx_antisymm cmp a b ((labelled_perm hperm).mem_iff.mp ha)
        ((List.mergeSort_perm _ _).mem_iff.mp hb)
    · exact labelled_pairwise hascending
    · exact List.pairwise_mergeSort (List.zipIdxLE_trans (mayPrecede_trans cmp))
        (List.zipIdxLE_total (mayPrecede_total cmp)) _
    · exact (labelled_perm hperm).trans (List.mergeSort_perm _ _).symm
  rw [← labelled_fst, hlabelled, List.mergeSort_zipIdx]

/-- With a consistent comparison the sort is the stable one. -/
theorem stableSortChecked_stable [Std.TransCmp cmp] {compare : Compare α ε σ}
    (h : Consistent compare cmp) (table : Table α σ) :
    Post (fun _ t => t.entries = table.entries.mergeSort (mayPrecede cmp))
      (fun e t => (∃ error, e = .raised error) ∧ t.entries = table.entries)
      (stableSortChecked compare table) := by
  obtain ⟨entries, world⟩ := table
  cases entries with
  | nil => exact (List.mergeSort_nil).symm
  | cons a entries =>
    apply (stableSortChecked_arranges (h.oracle (a :: entries) a) world).mono
    · rintro _ t ⟨order, hperm, hascending, heq⟩
      rw [heq]
      exact arranged_eq_mergeSort hperm (hascending trivial)
    · intro e t he
      exact he

/-- Pairs by their first number; the calls are counted. -/
def byFirst : Compare (Nat × Nat) Empty Nat := fun a b calls =>
  .ok (compareOn Prod.fst a b) (calls + 1)

theorem byFirst_consistent : Consistent byFirst (compareOn Prod.fst) := fun _ _ _ => rfl

theorem stableSortChecked_stable_pairs :
    Post (fun _ (t : Table (Nat × Nat) Nat) => t.entries =
        [(2, 0), (1, 1), (2, 2), (0, 3)].mergeSort (mayPrecede (compareOn Prod.fst)))
      (fun e t => (∃ error, e = .raised error) ∧ t.entries = [(2, 0), (1, 1), (2, 2), (0, 3)])
      (stableSortChecked byFirst ⟨[(2, 0), (1, 1), (2, 2), (0, 3)], 0⟩) :=
  stableSortChecked_stable byFirst_consistent ⟨[(2, 0), (1, 1), (2, 2), (0, 3)], 0⟩

end Results

end Rphp.Stdlib.Sort
