import Rphp.Stdlib.Sort.ScheduleSmall

namespace Rphp.Stdlib.Sort
open Rphp.Lib
set_option autoImplicit true

/-! Short segments of the order, by insertion. -/

variable {entries : List α} {compare : Compare α ε σ} {sound : Prop} {le : Nat → Nat → Prop}
  {P : List Nat → Prop} {start source stop : Nat} {l : List Nat}

section Places

/-- A place for the entry at `source` in the segment before it. -/
structure Placed (sound : Prop) (le : Nat → Nat → Prop) (start source destination : Nat)
    (l : List Nat) : Prop where
  start_le : start ≤ destination
  le_source : destination ≤ source
  before : sound → start < destination → Below le l (destination - 1) source
  behind : sound → destination < source → Below le l source destination

/-- In a segment in order, one comparison on each side is enough. -/
theorem Placed.ascending (h : Placed sound le start source destination l) (hsound : sound)
    (hl : Ascending le l start source) (trans : ∀ a b c, le a b → le b c → le a c)
    {a : Nat} (ha : l[source]? = some a) :
    Ascending le (rotateRight l destination source a) start (source + 1) := by
  apply hl.rotateRight h.start_le h.le_source ha
  · intro k hk hlt
    have hbefore := h.before hsound (by omega)
    by_cases hkd : k = destination - 1
    · rw [hkd]
      exact hbefore
    · have hle := h.le_source
      exact (hl k (destination - 1) hk (by omega) (by omega)).trans trans hbefore
  · intro k hk hlt
    have hbehind := h.behind hsound (by omega)
    by_cases hkd : k = destination
    · rw [hkd]
      exact hbehind
    · exact hbehind.trans trans (hl destination k h.start_le (by omega) hlt)

theorem slide_asks (h : Oracle entries compare sound le) (hsource : source < entries.length)
    (destination : Nat) (hstart : start ≤ destination) (hdestination : destination < source) :
    Asks entries.length (fun l => sound → Below le l source destination)
      (slide entries compare start source destination) (Placed sound le start source) := by
  induction destination with
  | zero =>
    rw [slide, if_pos (Nat.le_zero.mp hstart)]
    apply Asks.pure
    intro l hl
    exact ⟨hstart, Nat.le_of_lt hdestination, fun _ hlt => absurd hlt (Nat.not_lt_zero _),
      fun hs _ => hl hs⟩
  | succ destination ih =>
    rw [slide]
    by_cases heq : destination + 1 = start
    · rw [if_pos heq]
      apply Asks.pure
      intro l hl
      exact ⟨hstart, Nat.le_of_lt hdestination, fun _ hlt => absurd hlt (by omega),
        fun hs _ => hl hs⟩
    · rw [if_neg heq]
      apply (isAfter_asks h (by omega) hsource).bind
      intro after
      cases after with
      | true =>
        apply (ih (by omega) (by omega)).mono
        · intro l hl
          exact hl.2
        · intro _ _ _ hplaced
          exact hplaced
      | false =>
        apply Asks.pure
        intro l hl
        exact ⟨hstart, Nat.le_of_lt hdestination, fun hs _ => hl.2 hs, fun hs _ => hl.1 hs⟩

/-- The entry two positions down is met only where there are two more. -/
theorem leap_asks (h : Oracle entries compare sound le) (hsource : source < entries.length)
    (destination : Nat) (hstart : start + 2 ≤ destination) (hdestination : destination < source) :
    Asks entries.length (fun l => sound → Below le l source destination)
      (leap entries compare start source destination) (Placed sound le start source) := by
  induction destination using Nat.strongRecOn with
  | ind destination ih =>
    obtain ⟨destination, rfl⟩ : ∃ d, destination = d + 2 := ⟨destination - 2, by omega⟩
    rw [leap]
    apply (isAfter_asks h (by omega) hsource).bind
    intro after
    cases after with
    | true =>
      simp only [if_true]
      by_cases hend : destination = start
      · rw [if_pos hend]
        apply Asks.pure
        intro l hl
        exact ⟨by omega, by omega, fun _ hlt => absurd hlt (by omega), fun hs _ => hl.2 hs⟩
      · rw [if_neg hend]
        by_cases hnext : destination = start + 1
        · rw [if_pos hnext]
          apply (isAfter_asks h hsource (by omega)).bind
          intro after
          cases after with
          | true =>
            apply Asks.pure
            intro l hl
            have hdown : destination - 1 = start := by omega
            exact ⟨by omega, by omega, fun hs _ => hdown.symm ▸ hl.2 hs, fun hs _ => hl.1.2 hs⟩
          | false =>
            apply Asks.pure
            intro l hl
            exact ⟨Nat.le_refl _, by omega, fun _ hlt => absurd hlt (Nat.lt_irrefl _),
              fun hs _ => hl.2 hs⟩
        · rw [if_neg hnext]
          apply (ih destination (by omega) (by omega) (by omega)).mono
          · intro l hl
            exact hl.2
          · intro _ _ _ hplaced
            exact hplaced
    | false =>
      simp only [Bool.false_eq_true, if_false]
      apply (isAfter_asks h (by omega) hsource).bind
      intro after
      cases after with
      | true =>
        apply Asks.pure
        intro l hl
        exact ⟨by omega, by omega, fun hs _ => hl.1.2 hs, fun hs _ => hl.2 hs⟩
      | false =>
        apply Asks.pure
        intro l hl
        exact ⟨by omega, by omega, fun hs _ => hl.2 hs, fun hs _ => hl.1.1 hs⟩

end Places

section Insertions

/-- The positions of a segment. -/
def Inside (start stop k : Nat) : Prop := start ≤ k ∧ k < stop

/-- An insertion lengthens the segment in order, wherever the place comes from. -/
theorem insert_sorts (h : Oracle entries compare sound le) {place : Nat → Sorter ε σ Nat}
    (hsource : source < entries.length) (hstart : start < source)
    (hplace : Asks entries.length (fun l => sound → Below le l source (source - 1))
      (place (source - 1)) (Placed sound le start source)) :
    Sorts entries.length (Inside start (source + 1))
      (fun l => sound → Ascending le l start source)
      (do
        if ← isAfter entries compare (source - 1) source then
          let destination ← place (source - 1)
          placeObservedEntry destination source
        else return)
      fun _ m => sound → Ascending le m start (source + 1) := by
  apply Sorts.ask (isAfter_asks h (by omega) hsource)
  intro after
  cases after with
  | true =>
    apply Sorts.ask (hplace.mono (fun _ hl => hl.2) fun _ _ _ hplaced => hplaced)
    intro destination
    by_cases hplaces : start ≤ destination ∧ destination ≤ source
    · apply (place_sorts hplaces.2 hsource fun k hk hk' =>
        ⟨Nat.le_trans hplaces.1 hk, Nat.lt_succ_of_le hk'⟩).mono (fun _ hk => hk) (fun _ hl => hl)
      rintro _ m ⟨l, a, ⟨⟨hl, -⟩, hplaced⟩, ha, rfl⟩ hsound
      exact hplaced.ascending hsound (hl hsound) h.trans ha
    · intro s _ hP
      exact absurd ⟨hP.2.start_le, hP.2.le_source⟩ hplaces
  | false =>
    apply Sorts.pure
    intro l hl hsound i j hi hij hj
    have hlast := hl.2 hsound
    by_cases hjs : j = source
    · rw [hjs]
      by_cases hil : i = source - 1
      · rw [hil]
        exact hlast
      · exact (hl.1 hsound i (source - 1) hi (by omega) (by omega)).trans h.trans hlast
    · exact hl.1 hsound i j hi hij (by omega)

theorem insertNear_sorts (h : Oracle entries compare sound le) (hsource : source < entries.length)
    (hstart : start < source) :
    Sorts entries.length (Inside start (source + 1)) (fun l => sound → Ascending le l start source)
      (insertNear entries compare start source)
      fun _ m => sound → Ascending le m start (source + 1) :=
  insert_sorts h hsource hstart (slide_asks h hsource (source - 1) (by omega) (by omega))

theorem insertFar_sorts (h : Oracle entries compare sound le) (hsource : source < entries.length)
    (hstart : start + 3 ≤ source) :
    Sorts entries.length (Inside start (source + 1)) (fun l => sound → Ascending le l start source)
      (insertFar entries compare start source)
      fun _ m => sound → Ascending le m start (source + 1) :=
  insert_sorts h hsource (by omega) (leap_asks h hsource (source - 1) (by omega) (by omega))

/-- Insertions one after another. -/
theorem forM_sorts {f : Nat → Sorter ε σ Unit} {n : Nat} (count : Nat) :
    ∀ source, (∀ k, source ≤ k → k < source + count → Sorts n (Inside start (k + 1))
        (fun l => sound → Ascending le l start k) (f k)
        fun _ m => sound → Ascending le m start (k + 1)) →
      Sorts n (Inside start (source + count)) (fun l => sound → Ascending le l start source)
        ((List.range' source count).forM f)
        fun _ m => sound → Ascending le m start (source + count) := by
  induction count with
  | zero =>
    intro source _
    exact Sorts.pure fun _ hl => hl
  | succ count ih =>
    intro source hf
    rw [List.range'_succ]
    have hfirst := hf source (Nat.le_refl _) (by omega)
    have hrest := ih (source + 1) fun k hk hk' => hf k (by omega) (by omega)
    have hsum : source + 1 + count = source + (count + 1) := by omega
    rw [hsum] at hrest
    apply Sorts.bind (R := fun _ l => sound → Ascending le l start (source + 1))
    · apply hfirst.mono ?_ (fun _ hl => hl) (fun _ _ hm => hm)
      intro k hk
      exact ⟨hk.1, by have := hk.2; omega⟩
    · intro _
      exact hrest

theorem ascending_singleton (start : Nat) : Ascending le l start (start + 1) := by
  intro i j hi hij hj
  omega

theorem Chained.ascending (h : Chained le (fun k => start + k) count l) :
    Ascending le l start (start + count) := by
  intro i j hi hij hj
  have hbelow : Below le l (start + (i - start)) (start + (j - start)) :=
    h (i - start) (j - start) (by omega) (by omega)
  rwa [Nat.add_sub_cancel' hi, Nat.add_sub_cancel' (by omega)] at hbelow

theorem range'_sample {n length : Nat} (hstop : start + length ≤ n) :
    Sample n (Inside start (start + length)) (List.range' start length) (fun k => start + k)
      length where
  at_eq k hk := by
    rw [List.getElem?_range' hk, Nat.one_mul]
  lt k hk := by omega
  inside k hk := ⟨Nat.le_add_right _ _, Nat.add_lt_add_left hk _⟩
  injective i j hij hj := by omega

theorem observedInsertionSchedule_sorts (h : Oracle entries compare sound le) (length : Nat)
    (hstop : start + length ≤ entries.length) :
    Sorts entries.length (Inside start (start + length)) P
      (observedInsertionSchedule entries compare start length)
      fun _ m => sound → Ascending le m start (start + length) := by
  rw [observedInsertionSchedule]
  by_cases hone : length ≤ 1
  · rw [if_pos hone]
    apply Sorts.pure
    intro l _ _ i j hi hij hj
    omega
  · rw [if_neg hone]
    by_cases hfive : length ≤ 5
    · have hlength : (List.range' start length).length = length := List.length_range'
      rw [if_pos hfive]
      apply (observedSmallSortSchedule_sorts h (range'_sample hstop) hlength hfive).mono
        (fun _ hk => hk) (fun _ hl => hl)
      intro _ m hm hsound
      exact (hm hsound).ascending
    · rw [if_neg hfive]
      have hnear := forM_sorts 5 (start + 1) fun k hk hk' =>
        insertNear_sorts h (by omega : k < entries.length) (by omega : start < k)
      have hfar := forM_sorts (length - 6) (start + 6) fun k hk hk' =>
        insertFar_sorts h (by omega : k < entries.length) (by omega : start + 3 ≤ k)
      have hsum : start + 6 + (length - 6) = start + length := by omega
      rw [hsum] at hfar
      apply Sorts.bind (R := fun _ l => sound → Ascending le l start (start + 6))
      · apply hnear.mono ?_ ?_ (fun _ _ hm => hm)
        · intro k hk
          exact ⟨hk.1, by have := hk.2; omega⟩
        · intro l _ _
          exact ascending_singleton start
      · intro _
        exact hfar

end Insertions

end Rphp.Stdlib.Sort
