import Rphp.Stdlib.Sort.ScheduleInsertion

namespace Rphp.Stdlib.Sort
open Rphp.Lib
set_option autoImplicit true

/-! Long segments of the order, around a pivot. -/

variable {entries : List α} {compare : Compare α ε σ} {sound : Prop} {le : Nat → Nat → Prop}
  {P : List Nat → Prop} {start stop pivot low high : Nat} {l m : List Nat}

section Scans

/-- Where the scan from the low end stops. -/
structure LowStop (sound : Prop) (le : Nat → Nat → Prop) (pivot low high next : Nat)
    (l : List Nat) : Prop where
  low_le : low ≤ next
  le_high : next ≤ high
  passed : sound → ∀ k, low ≤ k → k < next → Below le l k pivot
  stopped : sound → next < high → Below le l pivot next

theorem scanLow_asks (h : Oracle entries compare sound le) (hpivot : pivot < entries.length)
    (hhigh : high ≤ entries.length) (fuel : Nat) :
    ∀ low, low < high → high ≤ low + fuel →
      Asks entries.length P (scanLow entries compare pivot high fuel low)
        (LowStop sound le pivot low high) := by
  induction fuel with
  | zero =>
    intro low hlow hfuel
    omega
  | succ fuel ih =>
    intro low hlow hfuel
    have hfirst : ∀ {l : List Nat}, (sound → Below le l low pivot) →
        sound → ∀ k, low ≤ k → k < low + 1 → Below le l k pivot := by
      intro l hl hs k hk hk'
      rw [show k = low by omega]
      exact hl hs
    rw [scanLow]
    apply (isAfter_asks h hpivot (by omega)).bind
    intro after
    cases after with
    | true =>
      simp only [if_true]
      by_cases hend : low + 1 = high
      · rw [if_pos hend]
        apply Asks.pure
        intro l hl
        exact ⟨Nat.le_succ low, Nat.le_of_eq hend, hfirst hl.2, fun _ hlt => absurd hlt (by omega)⟩
      · rw [if_neg hend]
        apply (ih (low + 1) (by omega) (by omega)).mono (fun _ hl => hl.1)
        intro next l hl hstop
        refine ⟨Nat.le_of_succ_le hstop.low_le, hstop.le_high, ?_, hstop.stopped⟩
        intro hs k hk hk'
        by_cases hkl : k < low + 1
        · exact hfirst hl.2 hs k hk hkl
        · exact hstop.passed hs k (by omega) hk'
    | false =>
      apply Asks.pure
      intro l hl
      exact ⟨Nat.le_refl low, Nat.le_of_lt hlow, fun _ k hk hk' => absurd hk (by omega),
        fun hs _ => hl.2 hs⟩

/-- Where the scan from the high end stops. -/
structure HighStop (sound : Prop) (le : Nat → Nat → Prop) (pivot low high next : Nat)
    (l : List Nat) : Prop where
  low_le : low ≤ next
  le_high : next ≤ high
  passed : sound → ∀ k, next < k → k ≤ high → Below le l pivot k
  stopped : sound → low < next → Below le l next pivot

theorem scanHigh_asks (h : Oracle entries compare sound le) (hpivot : pivot < entries.length)
    (fuel : Nat) : ∀ high, low < high → high < entries.length → high ≤ low + fuel →
      Asks entries.length P (scanHigh entries compare pivot low fuel high)
        (HighStop sound le pivot low high) := by
  induction fuel with
  | zero =>
    intro high hlow _ hfuel
    omega
  | succ fuel ih =>
    intro high hlow hhigh hfuel
    rw [scanHigh]
    apply (isAfter_asks h hhigh hpivot).bind
    intro after
    cases after with
    | true =>
      simp only [if_true]
      apply (decrement_asks (Nat.zero_lt_of_lt hlow)).bind
      intro next
      by_cases hnext : next + 1 = high
      · have hlast : ∀ {l : List Nat}, (sound → Below le l pivot high) →
            sound → ∀ k, next < k → k ≤ high → Below le l pivot k := by
          intro l hl hs k hk hk'
          rw [show k = high by omega]
          exact hl hs
        by_cases hend : next = low
        · rw [if_pos hend]
          apply Asks.pure
          intro l hl
          exact ⟨Nat.le_of_eq hend.symm, by omega, hlast hl.1.2, fun _ hlt => absurd hlt (by omega)⟩
        · rw [if_neg hend]
          apply (ih next (by omega) (by omega) (by omega)).mono (fun _ hl => hl.1.1)
          intro next' l hl hstop
          refine ⟨hstop.low_le, Nat.le_trans hstop.le_high (by omega), ?_, hstop.stopped⟩
          intro hs k hk hk'
          by_cases hkn : k ≤ next
          · exact hstop.passed hs k hk hkn
          · exact hlast hl.1.2 hs k (by omega) hk'
      · intro s _ hP
        exact absurd hP.2 hnext
    | false =>
      apply Asks.pure
      intro l hl
      exact ⟨Nat.le_of_lt hlow, Nat.le_refl high, fun _ k hk hk' => absurd hk (by omega),
        fun hs _ => hl.2 hs⟩

end Scans

section Partitions

/-- The entries that were found before and behind the pivot. -/
structure Around (sound : Prop) (le : Nat → Nat → Prop) (start stop pivot low high : Nat)
    (l : List Nat) : Prop where
  before : sound → ∀ k, start ≤ k → k < low → k ≠ pivot → Below le l k pivot
  behind : sound → ∀ k, high ≤ k → k < stop → Below le l pivot k

theorem Around.lower (h : Around sound le start stop pivot low high l)
    (hnext : LowStop sound le pivot low high next l) :
    Around sound le start stop pivot next high l where
  before hs k hk hk' hne := by
    by_cases hlt : k < low
    · exact h.before hs k hk hlt hne
    · exact hnext.passed hs k (by omega) hk'
  behind := h.behind

theorem Around.upper (h : Around sound le start stop pivot low (high + 1) l)
    (hnext : HighStop sound le pivot low high next l) :
    Around sound le start stop pivot low (next + 1) l where
  before := h.before
  behind hs k hk hk' := by
    by_cases hle : k ≤ high
    · exact hnext.passed hs k hk hle
    · exact h.behind hs k (by omega) hk'

/-- The entry where both scans stopped is behind the pivot. -/
theorem Around.met (h : Around sound le start stop pivot low (low + 1) l)
    (hlow : sound → Below le l pivot low) : Around sound le start stop pivot low low l where
  before := h.before
  behind hs k hk hk' := by
    by_cases hkl : k = low
    · rw [hkl]
      exact hlow hs
    · exact h.behind hs k (by omega) hk'

theorem Around.swapped (h : Around sound le start stop pivot low (high + 1) l)
    (hpivot : pivot < low) (hlt : low < high) (hlow : sound → Below le l pivot low)
    (hhigh : sound → Below le l high pivot) (hswapped : Swapped low high l m) :
    Around sound le start stop pivot (low + 1) high m := by
  have hp := hswapped.other (k := pivot) (by omega) (by omega)
  have hl := hswapped.left (Nat.ne_of_lt hlt)
  constructor
  · intro hs k hk hk' hne
    by_cases hkl : k = low
    · rw [hkl]
      exact (hhigh hs).congr hl hp
    · exact (h.before hs k hk (by omega) hne).congr (hswapped.other hkl (by omega)) hp
  · intro hs k hk hk'
    by_cases hkh : k = high
    · rw [hkh]
      exact (hlow hs).congr hp hswapped.right
    · exact (h.behind hs k (by omega) hk').congr hp (hswapped.other (by omega) hkh)

theorem partition_sorts (h : Oracle entries compare sound le) (hpivot : pivot < start + 2)
    (hstop : stop ≤ entries.length) (fuel : Nat) :
    ∀ low high, start + 2 ≤ low → low < high → high < stop → high ≤ low + fuel →
      Sorts entries.length (Inside (start + 2) stop) (Around sound le start stop pivot low high)
        (partition entries compare pivot fuel low high) fun next m =>
          start + 2 ≤ next ∧ next < stop ∧ Around sound le start stop pivot next next m := by
  induction fuel with
  | zero =>
    intro low high _ hlt _ hfuel
    omega
  | succ fuel ih =>
    intro low high hlow hlt hhigh hfuel
    rw [partition]
    apply Sorts.ask (scanLow_asks h (by omega) (by omega) (high - low) low hlt (by omega))
    intro next
    by_cases hend : next = high
    · rw [if_pos hend]
      apply Sorts.pure
      rintro l ⟨haround, hnext⟩
      have hmet := haround.lower hnext
      rw [hend] at hmet ⊢
      exact ⟨by omega, hhigh, hmet⟩
    · rw [if_neg hend]
      apply Sorts.ask (decrement_asks (by omega))
      intro down
      by_cases hbounds : low ≤ next ∧ next ≤ high ∧ down + 1 = high
      · obtain ⟨hle, hnexthigh, rfl⟩ := hbounds
        by_cases hmet : down = next
        · rw [if_pos hmet]
          apply Sorts.pure
          rintro l ⟨⟨haround, hnext⟩, -⟩
          have hnarrow := haround.lower hnext
          rw [hmet] at hnarrow
          exact ⟨by omega, by omega, hnarrow.met fun hs => hnext.stopped hs (by omega)⟩
        · rw [if_neg hmet]
          apply Sorts.ask (scanHigh_asks h (by omega) (down - next) down (by omega) (by omega)
            (by omega))
          intro up
          by_cases hup : up = next
          · rw [if_pos hup]
            apply Sorts.pure
            rintro l ⟨⟨⟨haround, hnext⟩, -⟩, hdown⟩
            have hnarrow := (haround.lower hnext).upper hdown
            rw [hup] at hnarrow
            exact ⟨by omega, by omega, hnarrow.met fun hs => hnext.stopped hs (by omega)⟩
          · rw [if_neg hup]
            by_cases hrange : next ≤ up ∧ up ≤ down
            · apply Sorts.bind (R := fun _ => Around sound le start stop pivot (next + 1) up)
              · apply (swap_sorts (by omega) (by omega) ⟨by omega, by omega⟩
                  ⟨by omega, by omega⟩).mono (fun _ hk => hk) (fun _ hl => hl)
                rintro _ m ⟨l, ⟨⟨⟨haround, hnext⟩, -⟩, hdown⟩, hswapped⟩
                have hnarrow := (haround.lower hnext).upper hdown
                exact hnarrow.swapped (by omega) (by omega) (fun hs => hnext.stopped hs (by omega))
                  (fun hs => hdown.stopped hs (by omega)) hswapped
              · intro _
                by_cases hlast : next + 1 = up
                · rw [if_pos hlast]
                  apply Sorts.pure
                  intro l hl
                  rw [hlast] at hl ⊢
                  exact ⟨by omega, by omega, hl⟩
                · rw [if_neg hlast]
                  exact ih (next + 1) up (by omega) (by omega) (by omega) (by omega)
            · intro s _ hP
              exact absurd ⟨hP.2.low_le, hP.2.le_high⟩ hrange
      · intro s _ hP
        exact absurd ⟨hP.1.2.low_le, hP.1.2.le_high, hP.2⟩ hbounds

/-- The pivot is in its place. -/
structure Parted (sound : Prop) (le : Nat → Nat → Prop) (start stop pivot : Nat)
    (l : List Nat) : Prop where
  before : sound → ∀ k, start ≤ k → k < pivot → Below le l k pivot
  behind : sound → ∀ k, pivot < k → k < stop → Below le l pivot k

theorem Around.parted (h : Around sound le start stop (start + 1) (pivot + 1) (pivot + 1) l)
    (hpivot : start + 1 ≤ pivot) (hswapped : Swapped (start + 1) pivot l m) :
    Parted sound le start stop pivot m := by
  have hp := hswapped.right
  constructor
  · intro hs k hk hk'
    by_cases hks : k = start + 1
    · rw [hks]
      exact (h.before hs pivot (by omega) (Nat.lt_succ_self _) (by omega)).congr
        (hswapped.left (by omega)) hp
    · exact (h.before hs k hk (by omega) hks).congr (hswapped.other hks (by omega)) hp
  · intro hs k hk hk'
    exact (h.behind hs k hk hk').congr hp (hswapped.other (by omega) (by omega))

/-- The position that the sample takes from a long segment. -/
def samplePosition (start length k : Nat) : Nat := (samplePositions start length).getD k 0

theorem getElem?_getD {positions : List Nat} (hk : k < positions.length) :
    positions[k]? = some (positions.getD k 0) := by
  rw [List.getD_eq_getElem?_getD, List.getElem?_eq_getElem hk, Option.getD_some]

theorem sample_of_pairwise {positions : List Nat} {n : Nat} {S : Nat → Prop}
    (hincreasing : positions.Pairwise (· < ·)) (hinside : ∀ k ∈ positions, S k ∧ k < n) :
    Sample n S positions (fun k => positions.getD k 0) positions.length where
  at_eq k hk := getElem?_getD hk
  lt k hk := (hinside _ (List.mem_of_getElem? (getElem?_getD hk))).2
  inside k hk := (hinside _ (List.mem_of_getElem? (getElem?_getD hk))).1
  injective i j hij hj := by
    have hi := Nat.lt_trans hij hj
    have hlt := List.pairwise_iff_getElem.mp hincreasing i j hi hj hij
    have hati := Option.some.inj ((List.getElem?_eq_getElem hi).symm.trans (getElem?_getD hi))
    have hatj := Option.some.inj ((List.getElem?_eq_getElem hj).symm.trans (getElem?_getD hj))
    rw [hati, hatj] at hlt
    exact Nat.ne_of_lt hlt

theorem samplePositions_sample {n : Nat} (hlength : 16 < length) (hstop : start + length ≤ n) :
    Sample n (Inside start (start + length)) (samplePositions start length)
      (samplePosition start length) (samplePositions start length).length := by
  apply sample_of_pairwise
  · by_cases hlong : 1024 ≤ length
    · simp only [samplePositions, if_pos hlong, List.pairwise_cons, List.mem_cons,
        List.not_mem_nil, or_false, forall_eq_or_imp, forall_eq]
      refine ⟨⟨?_, ?_, ?_, ?_⟩, ⟨?_, ?_, ?_⟩, ⟨?_, ?_⟩, ?_, by simp⟩ <;> omega
    · simp only [samplePositions, if_neg hlong, List.pairwise_cons, List.mem_cons,
        List.not_mem_nil, or_false, forall_eq_or_imp, forall_eq]
      refine ⟨⟨?_, ?_⟩, ?_, by simp⟩ <;> omega
  · intro k hk
    simp only [samplePositions, Inside] at hk ⊢
    split at hk
    · simp only [List.mem_cons, List.not_mem_nil, or_false] at hk
      omega
    · simp only [List.mem_cons, List.not_mem_nil, or_false] at hk
      omega

theorem samplePositions_length_le (start length : Nat) :
    (samplePositions start length).length ≤ 5 := by
  rw [samplePositions]
  split
  · exact Nat.le_refl 5
  · exact Nat.le_add_left 3 2

/-- The middle of the sample is the middle of the segment. -/
theorem Chained.middle (h : Chained le (samplePosition start length)
      (samplePositions start length).length l) :
    Below le l start (start + length / 2) ∧
      Below le l (start + length / 2) (start + length - 1) := by
  by_cases hlong : 1024 ≤ length
  · have hpositions : samplePositions start length = [start, start + length / 2 / 2,
        start + length / 2, start + length / 2 + length / 2 / 2, start + length - 1] := if_pos hlong
    have hfirst := h 0 2 (by decide) (hpositions ▸ Nat.le_add_left 3 2)
    have hlast := h 2 4 (by decide) (hpositions ▸ Nat.le_refl 5)
    simp only [samplePosition, hpositions] at hfirst hlast
    exact ⟨hfirst, hlast⟩
  · have hpositions : samplePositions start length =
        [start, start + length / 2, start + length - 1] := if_neg hlong
    have hfirst := h 0 1 (by decide) (hpositions ▸ Nat.le_succ 2)
    have hlast := h 1 2 (by decide) (hpositions ▸ Nat.le_refl 3)
    simp only [samplePosition, hpositions] at hfirst hlast
    exact ⟨hfirst, hlast⟩

/-- The ends of the sample are where the scans begin. -/
theorem around_of_middle (hlength : 16 < length)
    (hfirst : sound → Below le l start (start + length / 2))
    (hlast : sound → Below le l (start + length / 2) (start + length - 1))
    (hswapped : Swapped (start + 1) (start + length / 2) l m) :
    Around sound le start (start + length) (start + 1) (start + 2) (start + length - 1) m := by
  have hp := hswapped.left (by omega)
  constructor
  · intro hs k hk hk' hne
    rw [show k = start by omega]
    exact (hfirst hs).congr (hswapped.other (by omega) (by omega)) hp
  · intro hs k hk hk'
    rw [show k = start + length - 1 by omega]
    exact (hlast hs).congr hp (hswapped.other (by omega) (by omega))

theorem split_sorts (h : Oracle entries compare sound le) (hlength : 16 < length)
    (hstop : start + length ≤ entries.length) :
    Sorts entries.length (Inside start (start + length)) P (split entries compare start length)
      fun pivot m => start + 1 ≤ pivot ∧ pivot + 1 < start + length ∧
        Parted sound le start (start + length) pivot m := by
  apply Sorts.bind (R := fun _ l => sound → Below le l start (start + length / 2) ∧
    Below le l (start + length / 2) (start + length - 1))
  · apply (observedSmallSortSchedule_sorts h (samplePositions_sample hlength hstop) rfl
      (samplePositions_length_le start length)).mono (fun _ hk => hk) (fun _ hl => hl)
    intro _ m hm hsound
    exact (hm hsound).middle
  · intro _
    apply Sorts.bind (R := fun _ =>
      Around sound le start (start + length) (start + 1) (start + 2) (start + length - 1))
    · apply (swap_sorts (by omega) (by omega) ⟨by omega, by omega⟩ ⟨by omega, by omega⟩).mono
        (fun _ hk => hk) (fun _ hl => hl)
      rintro _ m ⟨l, hl, hswapped⟩
      exact around_of_middle hlength (fun hs => (hl hs).1) (fun hs => (hl hs).2) hswapped
    · intro _
      apply Sorts.bind (R := fun next m => start + 2 ≤ next ∧ next < start + length ∧
        Around sound le start (start + length) (start + 1) next next m)
      · apply (partition_sorts h (by omega) hstop length (start + 2) (start + length - 1)
          (by omega) (by omega) (by omega) (by omega)).mono ?_ (fun _ hl => hl) (fun _ _ hm => hm)
        intro k hk
        exact ⟨by have := hk.1; omega, hk.2⟩
      · intro next
        by_cases hnext : start + 2 ≤ next ∧ next < start + length
        · apply Sorts.ask (decrement_asks (by omega))
          intro pivot
          by_cases hpivot : pivot + 1 = next
          · subst hpivot
            apply Sorts.bind (R := fun _ m => Parted sound le start (start + length) pivot m)
            · apply (swap_sorts (by omega) (by omega) ⟨by omega, by omega⟩
                ⟨by omega, by omega⟩).mono (fun _ hk => hk) (fun _ hl => hl)
              rintro _ m ⟨l, ⟨⟨-, -, haround⟩, -⟩, hswapped⟩
              exact haround.parted (by omega) hswapped
            · intro _
              apply Sorts.pure
              intro l hl
              exact ⟨by omega, hnext.2, hl⟩
          · intro s _ hP
            exact absurd hP.2 hpivot
        · intro s _ hP
          exact absurd ⟨hP.1, hP.2.1⟩ hnext

end Partitions

end Rphp.Stdlib.Sort
