import Rphp.Stdlib.Sort.SchedulePartition

namespace Rphp.Stdlib.Sort
open Rphp.Lib
set_option autoImplicit true

/-! The schedule as a whole: the segments on its stack are what is left to do. -/

variable {entries : List α} {compare : Compare α ε σ} {sound : Prop} {le : Nat → Nat → Prop}
  {n start length pivot : Nat} {l m : List Nat} {segment : Nat × Nat} {pending : List (Nat × Nat)}

section Stacks

def Within (segment : Nat × Nat) : Nat → Prop := Inside segment.1 (segment.1 + segment.2)

structure Segments (n : Nat) (pending : List (Nat × Nat)) : Prop where
  bounded : ∀ segment ∈ pending, segment.1 + segment.2 ≤ n
  disjoint : pending.Pairwise fun segment segment' => ∀ k, Within segment k → ¬ Within segment' k

/-- Two positions out of order share a segment on the stack. -/
def Outlying (sound : Prop) (le : Nat → Nat → Prop) (n : Nat) (pending : List (Nat × Nat))
    (l : List Nat) : Prop :=
  sound → ∀ i j, i < j → j < n →
    Below le l i j ∨ ∃ segment ∈ pending, Within segment i ∧ Within segment j

theorem Segments.tail (h : Segments n (segment :: pending)) : Segments n pending where
  bounded _ hsegment := h.bounded _ (List.mem_cons_of_mem _ hsegment)
  disjoint := (List.pairwise_cons.mp h.disjoint).2

/-- Positions in and out of the first segment share none. -/
theorem Outlying.below (h : Outlying sound le n (segment :: pending) l) (hsound : sound)
    (hsegments : Segments n (segment :: pending)) (hij : i < j) (hj : j < n)
    (hone : (Within segment i ∧ ¬ Within segment j) ∨ (¬ Within segment i ∧ Within segment j)) :
    Below le l i j := by
  have hdisjoint := (List.pairwise_cons.mp hsegments.disjoint).1
  cases h hsound i j hij hj with
  | inl hbelow => exact hbelow
  | inr hcommon =>
    obtain ⟨shared, hmem, hi, hj⟩ := hcommon
    cases List.mem_cons.mp hmem with
    | inl heq =>
      subst heq
      cases hone with
      | inl hone => exact absurd hj hone.2
      | inr hone => exact absurd hi hone.1
    | inr htail =>
      cases hone with
      | inl hone => exact absurd hi (hdisjoint shared htail i hone.1)
      | inr hone => exact absurd hj (hdisjoint shared htail j hone.2)

/-- What moves inside the first segment stays on its side of everything else. -/
theorem Outlying.rearranged (h : Outlying sound le n (segment :: pending) l)
    (hsegments : Segments n (segment :: pending)) (hmoved : Rearranged (Within segment) l m) :
    Outlying sound le n (segment :: pending) m := by
  intro hsound i j hij hj
  by_cases hi : Within segment i
  · by_cases hj' : Within segment j
    · exact .inr ⟨segment, List.mem_cons_self, hi, hj'⟩
    · left
      obtain ⟨i', hi', hat⟩ := hmoved.inside i hi
      have hlt : i' < j := by
        have := hi.1
        have := hi'.2
        have : ¬ j < segment.1 + segment.2 := fun hlt => hj' ⟨by omega, hlt⟩
        omega
      exact (h.below hsound hsegments hlt hj (.inl ⟨hi', hj'⟩)).congr hat (hmoved.outside j hj')
  · by_cases hj' : Within segment j
    · left
      obtain ⟨j', hj', hat⟩ := hmoved.inside j hj'
      have hlt : i < j' := by
        have := hj'.1
        have := (‹Within segment j›).2
        have : ¬ segment.1 ≤ i := fun hle => hi ⟨hle, by omega⟩
        omega
      have hlast : j' < n := Nat.lt_of_lt_of_le hj'.2 (hsegments.bounded _ List.mem_cons_self)
      exact (h.below hsound hsegments hlt hlast (.inr ⟨hi, hj'⟩)).congr (hmoved.outside i hi) hat
    · cases h hsound i j hij hj with
      | inl hbelow => exact .inl (hbelow.congr (hmoved.outside i hi) (hmoved.outside j hj'))
      | inr hcommon => exact .inr hcommon

theorem Outlying.settled (h : Outlying sound le n (segment :: pending) m)
    (hsorted : sound → Ascending le m segment.1 (segment.1 + segment.2)) :
    Outlying sound le n pending m := by
  intro hsound i j hij hj
  cases h hsound i j hij hj with
  | inl hbelow => exact .inl hbelow
  | inr hcommon =>
    obtain ⟨shared, hmem, hi, hj⟩ := hcommon
    cases List.mem_cons.mp hmem with
    | inl heq =>
      subst heq
      exact .inl (hsorted hsound i j hi.1 hij hj.2)
    | inr htail => exact .inr ⟨shared, htail, hi, hj⟩

theorem mem_partsAround (h : segment ∈ partsAround start length pivot) :
    segment = (start, pivot - start) ∨
      segment = (pivot + 1, start + length - (pivot + 1)) := by
  simp only [partsAround] at h
  split at h
  · simp only [List.mem_cons, List.not_mem_nil, or_false] at h
    exact h
  · split at h
    · simp only [List.mem_cons, List.not_mem_nil, or_false] at h
      exact h.symm
    · simp only [List.mem_cons, List.not_mem_nil, or_false] at h
      exact .inr h

theorem left_mem_partsAround (h : pivot - start ≠ 0) :
    (start, pivot - start) ∈ partsAround start length pivot := by
  simp only [partsAround, ne_eq, h, not_false_eq_true, if_true]
  split
  · exact List.mem_cons_self
  · exact List.mem_cons_of_mem _ List.mem_cons_self

theorem right_mem_partsAround (start length pivot : Nat) :
    (pivot + 1, start + length - (pivot + 1)) ∈ partsAround start length pivot := by
  simp only [partsAround]
  split
  · exact List.mem_cons_of_mem _ List.mem_cons_self
  · split
    · exact List.mem_cons_self
    · exact List.mem_cons_self

/-- Neither part holds the pivot. -/
theorem partsAround_disjoint (hle : start ≤ pivot) :
    (partsAround start length pivot).Pairwise fun segment segment' =>
      ∀ k, Within segment k → ¬ Within segment' k := by
  have happart : ∀ k, Within (start, pivot - start) k →
      ¬ Within (pivot + 1, start + length - (pivot + 1)) k := by
    intro k hk hk'
    have := hk.2
    have := hk'.1
    omega
  simp only [partsAround]
  split
  · exact List.pairwise_pair.mpr happart
  · split
    · exact List.pairwise_pair.mpr fun k hk hk' => happart k hk' hk
    · exact List.pairwise_singleton _ _

theorem within_part (h : segment ∈ partsAround start length pivot) (hle : start ≤ pivot)
    (hlt : pivot < start + length) (hk : Within segment k) : Within (start, length) k := by
  have hfirst := hk.1
  have hlast := hk.2
  cases mem_partsAround h with
  | inl heq =>
    subst heq
    exact ⟨hfirst, by simp only at hlast ⊢; omega⟩
  | inr heq =>
    subst heq
    exact ⟨by simp only at hfirst ⊢; omega, by simp only at hlast ⊢; omega⟩

theorem Segments.parts (h : Segments n ((start, length) :: pending)) (hle : start ≤ pivot)
    (hlt : pivot < start + length) : Segments n (partsAround start length pivot ++ pending) where
  bounded segment hsegment := by
    have hbound := h.bounded _ List.mem_cons_self
    cases List.mem_append.mp hsegment with
    | inl hpart =>
      cases mem_partsAround hpart with
      | inl heq =>
        subst heq
        simp only at hbound ⊢
        omega
      | inr heq =>
        subst heq
        simp only at hbound ⊢
        omega
    | inr htail => exact h.bounded _ (List.mem_cons_of_mem _ htail)
  disjoint := by
    have hdisjoint := List.pairwise_cons.mp h.disjoint
    apply List.pairwise_append.mpr
    refine ⟨partsAround_disjoint hle, hdisjoint.2, ?_⟩
    intro segment hpart segment' htail k hk
    exact hdisjoint.1 segment' htail k (within_part hpart hle hlt hk)

/-- The pivot is in its place, and each pair on one side of it shares a part. -/
theorem Outlying.parted (h : Outlying sound le n ((start, length) :: pending) m)
    (trans : ∀ a b c, le a b → le b c → le a c)
    (hparted : Parted sound le start (start + length) pivot m) :
    Outlying sound le n (partsAround start length pivot ++ pending) m := by
  intro hsound i j hij hj
  cases h hsound i j hij hj with
  | inl hbelow => exact .inl hbelow
  | inr hcommon =>
    obtain ⟨shared, hmem, hi, hj⟩ := hcommon
    cases List.mem_cons.mp hmem with
    | inr htail => exact .inr ⟨shared, List.mem_append_right _ htail, hi, hj⟩
    | inl heq =>
      subst heq
      have hfirst : start ≤ i := hi.1
      have hlast : j < start + length := hj.2
      by_cases hleft : j < pivot
      · right
        have hmem : (start, pivot - start) ∈ partsAround start length pivot :=
          left_mem_partsAround (by omega)
        exact ⟨_, List.mem_append_left _ hmem, ⟨hfirst, by simp only; omega⟩,
          ⟨by simp only; omega, by simp only; omega⟩⟩
      · by_cases hright : pivot < i
        · right
          have hmem := right_mem_partsAround start length pivot
          exact ⟨_, List.mem_append_left _ hmem, ⟨hright, by simp only; omega⟩,
            ⟨by simp only; omega, by simp only; omega⟩⟩
        · left
          by_cases hip : i = pivot
          · rw [hip]
            exact hparted.behind hsound j (by omega) hlast
          · have hbefore := hparted.before hsound i hfirst (by omega)
            by_cases hjp : j = pivot
            · rw [hjp]
              exact hbefore
            · exact hbefore.trans trans (hparted.behind hsound j (by omega) hlast)

end Stacks

section Runs

/-- The schedule takes a step for each segment that it sorts or splits. -/
def weight : List (Nat × Nat) → Nat
  | [] => 0
  | segment :: pending => 2 * segment.2 + 1 + weight pending

theorem weight_cons (segment : Nat × Nat) (pending : List (Nat × Nat)) :
    weight (segment :: pending) = 2 * segment.2 + 1 + weight pending := rfl

theorem weight_append (parts pending : List (Nat × Nat)) :
    weight (parts ++ pending) = weight parts + weight pending := by
  induction parts with
  | nil => exact (Nat.zero_add _).symm
  | cons segment parts ih =>
    rw [List.cons_append, weight_cons, weight_cons, ih]
    omega

theorem weight_partsAround_le (hle : start ≤ pivot) (hlt : pivot < start + length) :
    weight (partsAround start length pivot) ≤ 2 * length := by
  simp only [partsAround]
  split
  · simp only [weight]
    omega
  · split
    · simp only [weight]
      omega
    · simp only [weight]
      omega

/-- The order before counts for what is known of the order after. -/
theorem Sorts.frame {mo : Sorter ε σ β} {P : List Nat → Prop} {S : Nat → Prop}
    (h : Sorts n S P mo Q) (hQ : ∀ b l m, P l → Rearranged S l m → Q b m → Q' b m) :
    Sorts n S P mo Q' := by
  intro s hs hP
  apply (h s hs hP).mono
  · rintro b t ⟨hmoved, hb⟩
    exact ⟨hmoved, hQ b _ _ hP hmoved hb⟩
  · intro e t he
    exact he

theorem insertion_outlying (h : Oracle entries compare sound le)
    (hsegments : Segments entries.length ((start, length) :: pending)) :
    Sorts entries.length (fun _ => True)
      (Outlying sound le entries.length ((start, length) :: pending))
      (observedInsertionSchedule entries compare start length)
      fun _ => Outlying sound le entries.length pending := by
  have hbound := hsegments.bounded _ List.mem_cons_self
  apply ((observedInsertionSchedule_sorts h length hbound).frame ?_).mono
    (fun _ _ => trivial) (fun _ hl => hl) (fun _ _ hm => hm)
  intro _ l m hl hmoved hsorted
  exact (hl.rearranged hsegments hmoved).settled hsorted

theorem split_outlying (h : Oracle entries compare sound le) (hlength : 16 < length)
    (hsegments : Segments entries.length ((start, length) :: pending)) :
    Sorts entries.length (fun _ => True)
      (Outlying sound le entries.length ((start, length) :: pending))
      (split entries compare start length) fun pivot m =>
        (start ≤ pivot ∧ pivot < start + length) ∧
          Outlying sound le entries.length (partsAround start length pivot ++ pending) m := by
  have hbound := hsegments.bounded _ List.mem_cons_self
  apply ((split_sorts h hlength hbound).frame ?_).mono
    (fun _ _ => trivial) (fun _ hl => hl) (fun _ _ hm => hm)
  rintro pivot l m hl hmoved ⟨hfirst, hlast, hparted⟩
  exact ⟨⟨Nat.le_of_succ_le hfirst, Nat.lt_of_succ_lt hlast⟩,
    (hl.rearranged hsegments hmoved).parted h.trans hparted⟩

theorem phpObservedSortSchedule_sorts (h : Oracle entries compare sound le) (fuel : Nat) :
    ∀ pending, Segments entries.length pending → weight pending ≤ fuel →
      Sorts entries.length (fun _ => True) (Outlying sound le entries.length pending)
        (phpObservedSortSchedule entries compare fuel pending) fun _ m =>
          Outlying sound le entries.length [] m := by
  induction fuel with
  | zero =>
    intro pending _ hfuel
    cases pending with
    | nil => exact Sorts.pure fun _ hl => hl
    | cons segment pending =>
      rw [weight_cons] at hfuel
      omega
  | succ fuel ih =>
    intro pending hsegments hfuel
    cases pending with
    | nil => exact Sorts.pure fun _ hl => hl
    | cons segment pending =>
      obtain ⟨start, length⟩ := segment
      rw [weight_cons] at hfuel
      simp only at hfuel
      rw [phpObservedSortSchedule]
      by_cases hlong : 16 < length
      · rw [if_pos hlong]
        apply (split_outlying h hlong hsegments).bind
        intro pivot
        by_cases hpivot : start ≤ pivot ∧ pivot < start + length
        · have hweight := weight_partsAround_le hpivot.1 hpivot.2
          apply (ih _ (hsegments.parts hpivot.1 hpivot.2) ?_).mono (fun _ hk => hk)
            (fun _ hl => hl.2) (fun _ _ hm => hm)
          rw [weight_append]
          omega
        · intro s _ hP
          exact absurd hP.1 hpivot
      · rw [if_neg hlong]
        apply (insertion_outlying h hsegments).bind
        intro _
        exact ih pending hsegments.tail (by omega)

theorem Outlying.ascending (h : Outlying sound le n [] l) (hsound : sound) :
    Ascending le l 0 n := by
  intro i j _ hij hj
  cases h hsound i j hij hj with
  | inl hbelow => exact hbelow
  | inr hcommon =>
    obtain ⟨_, hmem, -⟩ := hcommon
    exact absurd hmem List.not_mem_nil

theorem whole_segments (n : Nat) : Segments n [(0, n)] where
  bounded segment hsegment := by
    rw [List.mem_singleton.mp hsegment]
    exact Nat.le_of_eq (Nat.zero_add n)
  disjoint := List.pairwise_singleton _ _

theorem whole_outlying : Outlying sound le n [(0, n)] l := by
  intro _ i j hij hj
  exact .inr ⟨(0, n), List.mem_singleton_self _, ⟨Nat.zero_le i, by simp only; omega⟩,
    ⟨Nat.zero_le j, by simp only; omega⟩⟩

theorem whole_schedule (h : Oracle entries compare sound le) :
    Sorts entries.length (fun _ => True) (fun _ => True)
      (phpObservedSortSchedule entries compare (2 * entries.length + 1) [(0, entries.length)])
      fun _ m => sound → Ascending le m 0 entries.length := by
  apply (phpObservedSortSchedule_sorts h _ _ (whole_segments _) ?_).mono (fun _ hk => hk)
    (fun _ _ => whole_outlying) (fun _ _ hm hsound => hm.ascending hsound)
  rw [weight_cons]
  exact Nat.le_refl _

end Runs

section Entries

/-- The entries in an order. -/
def arranged (entries : List α) (order : List Nat) : List α :=
  order.filterMap fun index => entries[index]?

theorem arranged_range (entries : List α) :
    arranged entries (List.range entries.length) = entries := by
  have hmap : (List.range entries.length).map (fun index => entries[index]?) =
      entries.map some := by
    apply List.ext_getElem?
    intro i
    rw [List.getElem?_map, List.getElem?_map]
    by_cases hi : i < entries.length
    · rw [List.getElem?_range hi, List.getElem?_eq_getElem hi]
      exact congrArg some (List.getElem?_eq_getElem hi)
    · rw [List.getElem?_eq_none (Nat.le_of_not_lt hi), List.getElem?_eq_none]
      · rfl
      · rw [List.length_range]
        exact Nat.le_of_not_lt hi
  calc arranged entries (List.range entries.length)
      = ((List.range entries.length).map fun index => entries[index]?).filterMap id := by
        rw [List.filterMap_map]
        rfl
    _ = entries := by rw [hmap, List.filterMap_map]; exact List.filterMap_some

theorem arranged_perm {order : List Nat} (h : order.Perm (List.range entries.length)) :
    (arranged entries order).Perm entries := by
  have hperm := h.filterMap fun index => entries[index]?
  rw [← arranged, ← arranged, arranged_range] at hperm
  exact hperm

/-- Each slot that is still to be taken is filled. -/
theorem takeEntries_apply (s : Sorting σ) (order : List Nat) : ∀ slots : List (Option α),
    order.Nodup →
    (∀ index ∈ order, ∃ a, slots[index]? = some (some a) ∧ entries[index]? = some a) →
      (takeEntries slots order : Sorter ε σ (List α)) s = .ok (arranged entries order) s := by
  induction order with
  | nil =>
    intro slots _ _
    rfl
  | cons index order ih =>
    intro slots hnodup hslots
    obtain ⟨a, hslot, ha⟩ := hslots index List.mem_cons_self
    have hrest := ih (slots.set index none) (List.nodup_cons.mp hnodup).2 ?_
    · simp only [takeEntries, fetch_bind hslot, arranged, List.filterMap_cons_some ha]
      simp only [bind, EStateM.bind, hrest]
      rfl
    · intro other hother
      have hne : index ≠ other := by
        rintro rfl
        exact (List.nodup_cons.mp hnodup).1 hother
      rw [List.getElem?_set_ne hne]
      exact hslots other (List.mem_cons_of_mem _ hother)

theorem takeEntries_whole (s : Sorting σ) (hs : s.order.Perm (List.range entries.length)) :
    (takeEntries (entries.map some) s.order : Sorter ε σ (List α)) s =
      .ok (arranged entries s.order) s := by
  apply takeEntries_apply
  · exact hs.nodup_iff.mpr List.nodup_range
  · intro index hindex
    have hlt := List.mem_range.mp (hs.mem_iff.mp hindex)
    have ha := List.getElem?_eq_getElem hlt
    exact ⟨_, by rw [List.getElem?_map, ha]; rfl, ha⟩

/-- The entries come out in the order that was found, or stay as they were. -/
theorem stableSortChecked_arranges (h : Oracle entries compare sound le) (world : σ) :
    Post (fun _ t => ∃ order, order.Perm (List.range entries.length) ∧
        (sound → Ascending le order 0 entries.length) ∧ t.entries = arranged entries order)
      (fun e t => (∃ error, e = .raised error) ∧ t.entries = entries)
      (stableSortChecked compare ⟨entries, world⟩) := by
  by_cases hshort : entries.length < 2
  · have hrun : stableSortChecked compare ⟨entries, world⟩ = .ok ⟨⟩ ⟨entries, world⟩ :=
      if_pos hshort
    rw [hrun]
    refine ⟨List.range entries.length, .refl _, ?_, (arranged_range entries).symm⟩
    intro _ i j _ hij hj
    omega
  · have hschedule := whole_schedule h ⟨List.range entries.length, world⟩ (.refl _) trivial
    have hsorted : Post (fun sorted (t : Sorting σ) =>
        ∃ order, order.Perm (List.range entries.length) ∧
          (sound → Ascending le order 0 entries.length) ∧ sorted = arranged entries order)
        Raised ((do
          phpObservedSortSchedule entries compare (2 * entries.length + 1) [(0, entries.length)]
          takeEntries (entries.map some) (← get).order : Sorter ε σ (List α))
          ⟨List.range entries.length, world⟩) := by
      apply hschedule.bind
      rintro _ t - ⟨hmoved, hascending⟩
      rw [get_bind_apply, takeEntries_whole t hmoved.perm]
      exact ⟨t.order, hmoved.perm, hascending, rfl⟩
    simp only [stableSortChecked, if_neg hshort]
    split
    · next hrun =>
      rw [hrun] at hsorted
      exact hsorted
    · next hrun =>
      rw [hrun] at hsorted
      exact ⟨hsorted, rfl⟩

/-- Whatever the comparisons answer, the sort ends: with the same entries in some order, or with
the error of a comparison and the entries as they were. -/
theorem stableSortChecked_keeps (compare : Compare α ε σ) (table : Table α σ) :
    Post (fun _ t => t.entries.Perm table.entries)
      (fun e t => (∃ error, e = .raised error) ∧ t.entries = table.entries)
      (stableSortChecked compare table) := by
  apply (stableSortChecked_arranges (oracle_trivial table.entries compare) table.world).mono
  · rintro _ t ⟨order, hperm, -, heq⟩
    rw [heq]
    exact arranged_perm hperm
  · intro e t he
    exact he

end Entries

end Rphp.Stdlib.Sort
