import Rphp.Stdlib.Sort.UserSort

namespace Rphp.Stdlib.Sort
open Rphp.Lib
set_option autoImplicit true

/-! Sorts with a callback end in the same order as the schedule over positions. -/

variable {entries : List α} {compare : UserCompare α ε σ} {n index : Nat} {l m : List Nat}

section Sinks

/-- The positions from here on are as they were. -/
def Untouched (n index : Nat) (l : List Nat) : Prop := ∀ j, index ≤ j → j < n → l[j]? = some j

theorem Untouched.peak (h : Untouched n index l) (hperm : l.Perm (List.range n))
    (hindex : index < n) : Peak index l := by
  intro k hk
  have hlength : l.length = n := by rw [hperm.length_eq, List.length_range]
  have hklt : k < l.length := by omega
  have hat := List.getElem?_eq_getElem hklt
  refine ⟨l[k], index, hat, h index (Nat.le_refl _) hindex, ?_⟩
  apply Nat.lt_of_not_le
  intro hle
  have hvalue : l[k] < n := List.mem_range.mp (hperm.mem_iff.mp (List.mem_of_getElem? hat))
  have hnodup := hperm.nodup_iff.mpr List.nodup_range
  have hsame := (List.getElem?_inj hklt hnodup).mp (hat.trans (h _ hle hvalue).symm)
  omega

theorem Untouched.rearranged (h : Untouched n index l)
    (hmoved : Rearranged (Inside 0 index') l m) (hle : index ≤ index') :
    Untouched n index' m := by
  intro j hj hjn
  rw [hmoved.outside j fun hinside => absurd hinside.2 (Nat.not_lt.mpr hj)]
  exact h j (Nat.le_trans hle hj) hjn

theorem untouched_range (n index : Nat) : Untouched n index (List.range n) :=
  fun _ _ hj => List.getElem?_range hj

/-- What is known of the order alone. -/
theorem Mirrored.moved {P : List Nat → Prop} {m : Sorter (Option ε) σ β}
    {m' : UserSorter α ε σ γ} {Q : β → γ → List Nat → Prop} {R : β → List Nat → Prop}
    (h : Mirrored entries P m m' Q) (hs : Sorts entries.length S P m R) :
    Mirrored entries P m m' fun b c l' =>
      Q b c l' ∧ R b l' ∧ ∃ l, P l ∧ Rearranged S l l' := by
  intro s t hmirrors hP
  have hagree := h s t hmirrors hP
  have hsorts := hs s hmirrors.perm hP
  cases hm : m s with
  | ok b s' =>
    rw [hm] at hagree hsorts
    cases hm' : m' t with
    | ok c t' =>
      rw [hm'] at hagree
      exact ⟨hagree.1, hagree.2, hsorts.2, s.order, hP, hsorts.1⟩
    | error e t' =>
      rw [hm'] at hagree
      exact hagree.elim
  | error e s' =>
    rw [hm] at hagree
    cases hm' : m' t with
    | ok c t' =>
      rw [hm'] at hagree
      exact hagree.elim
    | error e' t' =>
      rw [hm'] at hagree
      exact hagree

theorem whole_sample (hle : count ≤ entries.length) :
    Sample entries.length (Inside 0 count) (List.range' 0 entries.length) (fun k => 0 + k)
      count where
  at_eq k hk := by
    rw [List.getElem?_range' (Nat.lt_of_lt_of_le hk hle), Nat.one_mul]
  lt k hk := by omega
  inside k hk := ⟨Nat.zero_le _, by omega⟩
  injective i j hij hj := by omega

theorem sink_untouched (hindex : index < entries.length) :
    Mirrored entries (Untouched entries.length index)
      (sink entries (checked compare) (List.range' 0 entries.length) index)
      (sinkEntry compare index) fun _ _ => Untouched entries.length (index + 1) := by
  have hsink : Mirrored entries (Untouched entries.length index)
      (sink entries (checked compare) (List.range' 0 entries.length) index)
      (sinkEntry compare index) fun _ _ _ => True :=
    (sink_mirrors index hindex).mono (fun _ hperm hl => hl.peak hperm hindex) fun _ _ _ _ hm => hm
  have hsorts : Sorts entries.length (Inside 0 (index + 1)) (Untouched entries.length index)
      (sink entries (checked compare) (List.range' 0 entries.length) index) fun _ _ => True := by
    apply (sink_sorts (oracle_trivial entries (checked compare)) (whole_sample hindex) index
      (Nat.lt_succ_self _)).mono (fun _ hk => hk) ?_ fun _ _ _ => trivial
    intro _ _ hfalse
    exact hfalse.elim
  apply (hsink.moved hsorts).mono (fun _ _ hl => hl)
  rintro _ _ m - ⟨-, -, l, hl, hmoved⟩
  exact hl.rearranged hmoved (Nat.le_succ _)

theorem sinks_mirror (count : Nat) : ∀ index, index + count ≤ entries.length →
    Mirrored entries (Untouched entries.length index)
      ((List.range' index count).forM
        (sink entries (checked compare) (List.range' 0 entries.length)))
      ((List.range' index count).forM (sinkEntry compare))
      fun _ _ => Untouched entries.length (index + count) := by
  induction count with
  | zero =>
    intro index _
    exact Mirrored.pure fun _ hl => hl
  | succ count ih =>
    intro index hle
    rw [List.range'_succ]
    have hsum : index + 1 + count = index + (count + 1) := by omega
    have hrest := ih (index + 1) (by omega)
    rw [hsum] at hrest
    apply (sink_untouched (by omega)).bind
    intro _ _
    exact hrest

end Sinks

section Triples

theorem sortPair_mirrors {P : List Nat → Prop} (hleft : left < entries.length)
    (hright : right < entries.length)
    (hP : ∀ l, l.Perm (List.range entries.length) → P l → Below (· < ·) l left right) :
    Mirrored entries P (sortPair entries (checked compare) left right) (do
      if (← compareOrAbort compare left right) = .gt then swapEntries left right else return)
      fun _ _ _ => True :=
  branch_mirrors hP ((swap_mirrors hleft hright).mono (fun _ _ hl => hl) fun _ _ _ _ _ => trivial)
    (Mirrored.pure fun _ _ => trivial)

/-- The order before the first comparison. -/
def Start (n : Nat) (l : List Nat) : Prop := l = List.range n

theorem Start.below (h : Start n l) (hij : i < j) (hj : j < n) : Below (· < ·) l i j := by
  rw [h]
  exact ⟨i, j, List.getElem?_range (Nat.lt_trans hij hj), List.getElem?_range hj, hij⟩

/-- The first two are in order. -/
theorem sortThird_straight (hlength : 3 ≤ entries.length) :
    Mirrored entries (Start entries.length)
      (isAfter entries (checked compare) 1 2 >>= fun after =>
        if after then do
          swap 1 2
          sortPair entries (checked compare) 0 1
        else return)
      (sortThird compare false) fun _ _ _ => True := by
  apply branch_mirrors (fun l _ hl => hl.below (by decide) hlength)
  · apply (swap_mirrors (by omega) (by omega)).bind
    intro _ _
    apply sortPair_mirrors (by omega) (by omega)
    rintro m - ⟨l, hl, hswapped⟩
    have hbelow : Below (· < ·) l 0 2 := hl.below (by decide) (by omega)
    exact hbelow.congr (hswapped.other (by decide) (by decide)) (hswapped.left (by decide))
  · exact Mirrored.pure fun _ _ => trivial

/-- Three exchanges of neighbours make one of the ends. -/
theorem exchange_ends {order : List Nat} (h0 : order[0]? = some 0) (h1 : order[1]? = some 1)
    (h2 : order[2]? = some 2) :
    (exchange order 0 1 0 1)[0]? = some 1 ∧ (exchange order 0 1 0 1)[1]? = some 0 ∧
      (exchange order 0 1 0 1)[2]? = some 2 ∧
      (exchange (exchange order 0 1 0 1) 1 2 0 2)[0]? = some 1 ∧
      (exchange (exchange order 0 1 0 1) 1 2 0 2)[1]? = some 2 ∧
      exchange (exchange (exchange order 0 1 0 1) 1 2 0 2) 0 1 1 2 = exchange order 0 2 0 2 := by
  have hfirst := getElem?_exchange h0 h1
  have h10 : (exchange order 0 1 0 1)[1]? = some 0 := hfirst 1
  have h12 : (exchange order 0 1 0 1)[2]? = some 2 := (hfirst 2).trans h2
  have hsecond := getElem?_exchange h10 h12
  have h20 : (exchange (exchange order 0 1 0 1) 1 2 0 2)[0]? = some 1 :=
    (hsecond 0).trans (hfirst 0)
  have h21 : (exchange (exchange order 0 1 0 1) 1 2 0 2)[1]? = some 2 := hsecond 1
  refine ⟨hfirst 0, h10, h12, h20, h21, ?_⟩
  apply List.ext_getElem?
  intro k
  rw [getElem?_exchange h20 h21, hsecond, hfirst, getElem?_exchange h0 h2]
  by_cases hk0 : k = 0
  · subst hk0
    rfl
  · by_cases hk1 : k = 1
    · subst hk1
      exact h1.symm
    · by_cases hk2 : k = 2
      · subst hk2
        rfl
      · simp only [hk0, hk1, hk2, if_false]

/-- The entries are exchanged here before the comparison, and there after it. -/
theorem sortThird_turned (hlength : 3 ≤ entries.length) :
    Mirrored entries (Start entries.length)
      (isAfter entries (checked compare) 2 1 >>= fun after =>
        if after then do
          swap 0 1
          sortPair entries (checked compare) 1 2
        else swap 0 2)
      (swapEntries 0 1 >>= fun _ => sortThird compare true) fun _ _ _ => True := by
  intro s t hmirrors hstart
  have hat : ∀ k < 3, s.order[k]? = some k := by
    intro k hk
    rw [hstart]
    exact List.getElem?_range (Nat.lt_of_lt_of_le hk hlength)
  have h0 := hat 0 (by decide)
  have h1 := hat 1 (by decide)
  have h2 := hat 2 (by decide)
  obtain ⟨h01, h10, h12, h20, h21, hends⟩ := exchange_ends h0 h1 h2
  obtain ⟨a, ha⟩ := entry_of_perm hmirrors.perm h0
  obtain ⟨b, hb⟩ := entry_of_perm hmirrors.perm h1
  obtain ⟨c, hc⟩ := entry_of_perm hmirrors.perm h2
  have hturned := hmirrors.exchange h0 h1 ha hb
  rw [bind_congr_at (isAfter_apply h2 h1 hc hb), bind_assoc, sortThird, if_pos rfl,
    bind_apply_ok (swapEntries_apply (hmirrors.at h0 ha) (hmirrors.at h1 hb)),
    bind_congr_at (compareOrAbort_apply (hturned.at h12 hc) (hturned.at h01 hb))]
  apply ask_agree (s := s) (t := { t with entries := exchange t.entries 0 1 a b })
    hmirrors.world_eq
  intro ordering w
  have hturnedw := hturned.with_world w
  rw [pure_bind]
  by_cases hlt : ordering = .lt
  · have hends' := (hturnedw.exchange h10 h12 ha hc).exchange h20 h21 hb hc
    have hbehind : (if ordering = .eq then Ord.compare 2 1 else ordering).isGT = false := by
      rw [hlt]
      rfl
    rw [hbehind, if_neg Bool.false_ne_true, if_pos hlt,
      bind_apply_ok (swapEntries_apply (hturnedw.at h10 ha) (hturnedw.at h12 hc)),
      swapEntries_apply ((hturnedw.exchange h10 h12 ha hc).at h20 hb)
        ((hturnedw.exchange h10 h12 ha hc).at h21 hc),
      swap_apply (s := { s with world := w }) h0 h2]
    simp only [hends] at hends'
    exact ⟨hends', trivial⟩
  · have hahead : (if ordering = .eq then Ord.compare 2 1 else ordering).isGT = true := by
      cases ordering with
      | lt => exact absurd rfl hlt
      | eq => rfl
      | gt => rfl
    rw [hahead, if_pos rfl, if_neg hlt,
      bind_apply_ok (swap_apply (s := { s with world := w }) h0 h1)]
    apply sortPair_mirrors (P := fun l => Below (· < ·) l 1 2) (by omega) (by omega)
      (fun _ _ hl => hl) _ _ hturnedw
    exact ⟨0, 2, h10, h12, by decide⟩

theorem sortFirstTwo_bind (f : Bool → UserSorter α ε σ β) :
    (sortFirstTwo compare >>= f) = compareOrAbort compare 0 1 >>= fun ordering =>
      if ordering = .gt then swapEntries 0 1 >>= fun _ => f true else f false := by
  rw [sortFirstTwo, bind_assoc]
  congr 1
  funext ordering
  split
  · rw [bind_assoc]
    rfl
  · rfl

theorem sortTriple_mirrors (compare : UserCompare α ε σ) (hlength : 3 ≤ entries.length) :
    Mirrored entries (Start entries.length) (sortTriple entries (checked compare) 0 1 2)
      (sortFirstTwo compare >>= sortThird compare) fun _ _ _ => True := by
  rw [sortFirstTwo_bind]
  exact branch_mirrors (fun l _ hl => hl.below (by decide) (by omega)) (sortThird_turned hlength)
    (sortThird_straight hlength)

end Triples

section Prefixes

/-- The first entries, of which there are three at least. -/
def sortFront (compare : UserCompare α ε σ) (count : Nat) : UserSorter α ε σ Unit := do
  let swapped ← sortFirstTwo compare
  sortThird compare swapped
  (List.range' 3 count).forM (sinkEntry compare)

theorem forM_range'_succ (f : Nat → UserSorter α ε σ Unit) (start count : Nat) :
    (List.range' start (count + 1)).forM f =
      (List.range' start count).forM f >>= fun _ => f (start + count) := by
  rw [List.range'_concat, Nat.one_mul]
  induction List.range' start count with
  | nil => exact bind_pure (f (start + count))
  | cons index indices ih =>
    have hassoc := bind_assoc (f index) (fun _ => indices.forM f) (fun _ => f (start + count))
    rw [← ih] at hassoc
    exact hassoc.symm

theorem sortFront_succ (count : Nat) : sortFront compare (count + 1) =
    sortFront compare count >>= fun _ => sinkEntry compare (3 + count) := by
  simp only [sortFront, forM_range'_succ, bind_assoc]

theorem prefix_mirrors (compare : UserCompare α ε σ) (hlength : entries.length ≤ 5) (count : Nat)
    (hcount : 3 + count ≤ entries.length) :
    Mirrored entries (Start entries.length)
      (observedSmallPrefix entries (checked compare) (List.range' 0 entries.length) (count + 3))
      (sortFront compare count) fun _ _ => Untouched entries.length (count + 3) := by
  induction count with
  | zero =>
    have hat : ∀ k < 3, (List.range' 0 entries.length)[k]? = some k := by
      intro k hk
      rw [List.getElem?_range' (by omega), Nat.one_mul, Nat.zero_add]
    have htriple : observedSmallPrefix entries (checked compare) (List.range' 0 entries.length) 3 =
        sortTriple entries (checked compare) 0 1 2 := by
      simp only [observedSmallPrefix, fetch, hat 0 (by decide), hat 1 (by decide),
        hat 2 (by decide), pure_bind]
    have hfront : sortFront compare 0 = sortFirstTwo compare >>= sortThird compare := by
      rw [sortFront]
      congr 1
      funext swapped
      exact bind_pure _
    have hsorts : Sorts entries.length (Inside 0 3) (Start entries.length)
        (observedSmallPrefix entries (checked compare) (List.range' 0 entries.length) 3)
        fun _ _ => True := by
      apply (observedSmallPrefix_sorts (oracle_trivial entries (checked compare))
        (whole_sample hcount) (by decide) 3 (Nat.le_refl 3)).mono (fun _ hk => hk)
        (fun _ hl => hl) fun _ _ _ => trivial
    rw [Nat.zero_add, hfront]
    have hmirrored := sortTriple_mirrors compare hcount
    rw [← htriple] at hmirrored
    apply (hmirrored.moved hsorts).mono (fun _ _ hl => hl)
    rintro _ _ m - ⟨-, -, l, rfl, hmoved⟩
    exact (untouched_range _ 0).rearranged hmoved (Nat.zero_le 3)
  | succ count ih =>
    have hfive : count + 4 ≤ 5 := by omega
    rw [sortFront_succ, show count + 1 + 3 = count + 4 by omega, observedSmallPrefix,
      if_pos hfive, Nat.add_comm 3 count]
    apply (ih (by omega)).bind
    intro _ _
    exact sink_untouched (by omega)

theorem Mirrors.length_eq {s : Sorting σ} {t : Table α σ} (h : Mirrors entries s t) :
    t.entries.length = entries.length := by
  rw [h.entries_eq, (arranged_perm h.perm).length_eq]

theorem small_mirrors (compare : UserCompare α ε σ) (hlength : entries.length ≤ 5) :
    Mirrored entries (Start entries.length)
      (observedInsertionSchedule entries (checked compare) 0 entries.length) (sortSmall compare)
      fun _ _ _ => True := by
  intro s t hmirrors hstart
  rw [sortSmall, get_bind_apply, hmirrors.length_eq, observedInsertionSchedule]
  by_cases hone : entries.length ≤ 1
  · rw [if_pos hone, if_pos (Nat.lt_succ_of_le hone)]
    exact ⟨hmirrors, trivial⟩
  · have hshort : ¬ entries.length < 2 := by omega
    rw [if_neg hone, if_pos hlength, if_neg hshort, observedSmallSortSchedule, List.length_range']
    by_cases htwo : entries.length = 2
    · have hpair : observedSmallPrefix entries (checked compare) (List.range' 0 entries.length) 2 =
          sortPair entries (checked compare) 0 1 := by
        rw [htwo]
        rfl
      simp only [if_pos htwo]
      rw [htwo] at hpair ⊢
      rw [hpair, sortFirstTwo_bind]
      apply branch_mirrors (P := Start entries.length)
        (fun l _ hl => hl.below (by decide) (by omega)) ?_
        (Mirrored.pure fun _ _ => trivial) s t hmirrors hstart
      rw [← bind_pure (swap 0 1)]
      exact (swap_mirrors (by omega) (by omega)).bind fun _ _ => Mirrored.pure fun _ _ => trivial
    · obtain ⟨count, hcount⟩ : ∃ count, entries.length = count + 3 :=
        ⟨entries.length - 3, by omega⟩
      simp only [if_neg htwo]
      have hprefix := (prefix_mirrors compare hlength count (by omega)) s t hmirrors
        hstart
      rw [← hcount] at hprefix
      have hback : entries.length - 3 = count := by omega
      rw [hback]
      exact hprefix.mono fun _ _ _ _ _ => trivial

end Prefixes

section Outcomes

theorem phpObservedSortSchedule_short {compare : Compare α ε σ} (hlength : entries.length ≤ 16)
    (fuel : Nat) : phpObservedSortSchedule entries compare (fuel + 1) [(0, entries.length)] =
      observedInsertionSchedule entries compare 0 entries.length := by
  have hnil : phpObservedSortSchedule entries compare fuel [] = pure ⟨⟩ := by
    cases fuel <;> rfl
  rw [phpObservedSortSchedule, if_neg (Nat.not_lt.mpr hlength), hnil]
  exact bind_pure _

/-- A complete sort gives the same entries; another stops after the same comparisons. -/
def SameOutcome : EStateM.Result (Stop ε) (Table α σ) Bool →
    EStateM.Result (Stop (Option ε)) (Table α σ) Unit → Prop
  | .ok true t, .ok _ t' => t = t'
  | .ok false t, .error (.raised none) t' => t.world = t'.world
  | .error (.raised e) t, .error (.raised (some e')) t' => e = e' ∧ t.world = t'.world
  | _, _ => False

/-- The sort for a few entries makes the comparisons of the sort for any number, one by one. -/
theorem stableSortSmallOptionalChecked_agrees (compare : UserCompare α ε σ) (table : Table α σ)
    (hlength : table.entries.length ≤ 5) :
    SameOutcome (stableSortSmallOptionalChecked compare table)
      (stableSortChecked (checked compare) table) := by
  obtain ⟨entries, world⟩ := table
  have hfew : entries.length ≤ 5 := hlength
  have hstart : Mirrors entries ⟨List.range entries.length, world⟩ ⟨entries, world⟩ :=
    ⟨.refl _, (arranged_range entries).symm, rfl⟩
  have hagree := small_mirrors compare hfew _ _ hstart rfl
  by_cases hshort : entries.length < 2
  · have hsmall : stableSortSmallOptionalChecked compare ⟨entries, world⟩ =
        .ok true ⟨entries, world⟩ := by
      rw [stableSortSmallOptionalChecked, completed, sortSmall, get_bind_apply, if_pos hshort]
      rfl
    have hwhole : stableSortChecked (checked compare) ⟨entries, world⟩ = .ok ⟨⟩ ⟨entries, world⟩ :=
      if_pos hshort
    rw [hsmall, hwhole]
    rfl
  · simp only [stableSortChecked, if_neg hshort,
      phpObservedSortSchedule_short (Nat.le_trans hfew (by decide)),
      stableSortSmallOptionalChecked, completed, Bind.bind, EStateM.bind]
    cases hrun : observedInsertionSchedule entries (checked compare) 0 entries.length
        ⟨List.range entries.length, world⟩ with
    | ok b s =>
      rw [hrun] at hagree
      cases hsmall : sortSmall compare ⟨entries, world⟩ with
      | ok c t =>
        rw [hsmall] at hagree
        have htake : (takeEntries (entries.map some) s.order : Sorter (Option ε) σ (List α)) s =
            .ok (arranged entries s.order) s := takeEntries_whole s hagree.1.perm
        have hget : (get : Sorter (Option ε) σ (Sorting σ)) s = .ok s s := rfl
        simp only [hget, htake]
        obtain ⟨entries', world'⟩ := t
        have hentries : entries' = arranged entries s.order := hagree.1.entries_eq
        have hworld : world' = s.world := hagree.1.world_eq
        rw [hentries, hworld]
        rfl
      | error e t =>
        rw [hsmall] at hagree
        exact hagree.elim
    | error e s =>
      rw [hrun] at hagree
      cases hsmall : sortSmall compare ⟨entries, world⟩ with
      | ok c t =>
        rw [hsmall] at hagree
        exact hagree.elim
      | error e' t =>
        rw [hsmall] at hagree
        obtain ⟨hstop, hworld⟩ := hagree
        cases e with
        | fault => exact hstop.elim
        | raised e =>
          cases e with
          | none =>
            cases e' with
            | aborted => exact hworld
            | raised e' => exact hstop.elim
            | fault => exact hstop.elim
          | some e =>
            cases e' with
            | raised e' => exact ⟨hstop.symm, hworld⟩
            | aborted => exact hstop.elim
            | fault => exact hstop.elim

theorem stableSortSmallOptionalChecked_agrees_three :
    SameOutcome
      (stableSortSmallOptionalChecked (fun a b w => .ok (some (Ord.compare a b)) (w + 1) :
        UserCompare Nat Empty Nat) ⟨[3, 1, 2], 0⟩)
      (stableSortChecked (checked fun a b w => .ok (some (Ord.compare a b)) (w + 1))
        ⟨[3, 1, 2], 0⟩) :=
  stableSortSmallOptionalChecked_agrees _ ⟨[3, 1, 2], 0⟩ (by decide)

variable {sound : Prop} {le : Nat → Nat → Prop}

/-- What is known of the order is known of the entries of a complete sort. -/
theorem Mirrored.completed {m : Sorter (Option ε) σ β} {m' : UserSorter α ε σ Unit}
    {R : List Nat → Prop} (h : Mirrored entries (Start entries.length) m m' fun _ _ => R)
    (world : σ) :
    Post (fun complete t => complete = true → ∃ order,
        order.Perm (List.range entries.length) ∧ R order ∧ t.entries = arranged entries order)
      (fun e _ => ∃ error, e = .raised error) (completed m' ⟨entries, world⟩) := by
  have hagree := h ⟨List.range entries.length, world⟩ ⟨entries, world⟩
    ⟨.refl _, (arranged_range entries).symm, rfl⟩ rfl
  simp only [Sort.completed]
  cases hm : m ⟨List.range entries.length, world⟩ with
  | ok b s =>
    rw [hm] at hagree
    cases hm' : m' ⟨entries, world⟩ with
    | ok c t =>
      rw [hm'] at hagree
      intro _
      exact ⟨s.order, hagree.1.perm, hagree.2, hagree.1.entries_eq⟩
    | error e t =>
      rw [hm'] at hagree
      exact hagree.elim
  | error e s =>
    rw [hm] at hagree
    cases hm' : m' ⟨entries, world⟩ with
    | ok c t =>
      rw [hm'] at hagree
      exact hagree.elim
    | error e' t =>
      rw [hm'] at hagree
      cases e' with
      | raised e' => exact ⟨e', rfl⟩
      | aborted =>
        intro hcomplete
        exact absurd hcomplete Bool.false_ne_true
      | fault =>
        cases e with
        | fault => exact hagree.1.elim
        | raised e =>
          cases e with
          | none => exact hagree.1.elim
          | some e => exact hagree.1.elim

theorem sinks_sorts (h : Oracle entries (checked compare) sound le) :
    Sorts entries.length (Inside 0 (1 + (entries.length - 1))) (Untouched entries.length 1)
      ((List.range' 1 (entries.length - 1)).forM
        (sink entries (checked compare) (List.range' 0 entries.length)))
      fun _ m => sound → Ascending le m 0 (1 + (entries.length - 1)) := by
  have hsingle : ∀ l, Untouched entries.length 1 l → sound → Ascending le l 0 1 :=
    fun _ _ _ => ascending_singleton 0
  apply (forM_sorts (entries.length - 1) 1 ?_).mono (fun _ hk => hk) hsingle fun _ _ hm => hm
  intro k hk hk'
  apply (sink_sorts h (whole_sample (by omega)) k (Nat.lt_succ_self k)).mono (fun _ hk => hk)
  · intro l hl hsound
    apply Chained.sinking
    intro i j hij hj
    show Below le l (0 + i) (0 + j)
    rw [Nat.zero_add, Nat.zero_add]
    exact hl hsound i j (Nat.zero_le i) hij hj
  · intro _ m hm hsound
    have hascending := (hm hsound).ascending
    rwa [Nat.zero_add] at hascending

theorem large_mirrors (h : Oracle entries (checked compare) sound le)
    (hlength : 0 < entries.length) :
    Mirrored entries (Start entries.length)
      ((List.range' 1 (entries.length - 1)).forM
        (sink entries (checked compare) (List.range' 0 entries.length)))
      (sortLarge compare) fun _ _ m => sound → Ascending le m 0 entries.length := by
  intro s t hmirrors hstart
  rw [sortLarge, get_bind_apply, hmirrors.length_eq]
  have huntouched : Untouched entries.length 1 s.order := by
    rw [hstart]
    exact untouched_range _ 1
  have hsinks := (sinks_mirror (entries.length - 1) 1 (by omega)).moved (sinks_sorts h) s t
    hmirrors huntouched
  rw [Nat.add_sub_cancel' hlength] at hsinks
  exact hsinks.mono fun _ _ _ _ hm => hm.2.1

/-- The entries of a complete sort are those of the array in some order. -/
theorem userSortItems_arranges (h : Oracle entries (checked compare) sound le) (world : σ) :
    Post (fun complete t => complete = true → ∃ order,
        order.Perm (List.range entries.length) ∧
          (sound → Ascending le order 0 entries.length) ∧ t.entries = arranged entries order)
      (fun e _ => ∃ error, e = .raised error) (userSortItems compare ⟨entries, world⟩) := by
  simp only [userSortItems]
  by_cases hfew : entries.length < 6
  · rw [if_pos hfew]
    apply Mirrored.completed
    have hsorts : Sorts entries.length (Inside 0 (0 + entries.length)) (Start entries.length)
        (observedInsertionSchedule entries (checked compare) 0 entries.length)
        fun _ m => sound → Ascending le m 0 (0 + entries.length) :=
      observedInsertionSchedule_sorts h entries.length (Nat.le_of_eq (Nat.zero_add _))
    rw [Nat.zero_add] at hsorts
    apply ((small_mirrors compare (Nat.le_of_lt_succ hfew)).moved hsorts).mono (fun _ _ hl => hl)
    intro _ _ m _ hm
    exact hm.2.1
  · rw [if_neg hfew]
    apply Mirrored.completed
    exact large_mirrors h (by omega)

end Outcomes

section Callbacks

variable {cmp : α → α → Ordering}

/-- The answers, where there are any, are those of `cmp`. -/
def Answers (compare : UserCompare α ε σ) (cmp : α → α → Ordering) : Prop :=
  ∀ a b world, Post (fun answer _ => ∀ ordering, answer = some ordering → ordering = cmp a b)
    (fun _ _ => True) (compare a b world)

theorem Answers.consistent (h : Answers compare cmp) : Consistent (checked compare) cmp := by
  intro a b world
  have hanswer := h a b world
  simp only [checked]
  cases hrun : compare a b world with
  | error e w => trivial
  | ok answer w =>
    rw [hrun] at hanswer
    cases answer with
    | none => trivial
    | some ordering => exact hanswer ordering rfl

/-- What a sort with a callback does to the array. -/
def SortsStably (cmp : α → α → Ordering) (entries : List α)
    (r : EStateM.Result (Stop ε) (Table α σ) Bool) : Prop :=
  Post (fun complete t => complete = true → t.entries = entries.mergeSort (mayPrecede cmp))
    (fun e _ => ∃ error, e = .raised error) r

theorem sortsStably_of_arranges [Std.TransCmp cmp] {first : α}
    {r : EStateM.Result (Stop ε) (Table α σ) Bool}
    (h : Post (fun complete t => complete = true → ∃ order,
        order.Perm (List.range entries.length) ∧
          (True → Ascending (Precedes cmp entries first) order 0 entries.length) ∧
          t.entries = arranged entries order)
      (fun e _ => ∃ error, e = .raised error) r) : SortsStably cmp entries r := by
  apply h.mono
  · intro complete t ht hcomplete
    obtain ⟨order, hperm, hascending, heq⟩ := ht hcomplete
    rw [heq]
    exact arranged_eq_mergeSort hperm (hascending trivial)
  · intro e t he
    exact he

/-- The insertion schedule alone, whatever the number of entries. -/
theorem sortLarge_stable [Std.TransCmp cmp] (h : Answers compare cmp) (table : Table α σ) :
    SortsStably cmp table.entries (completed (sortLarge compare) table) := by
  obtain ⟨entries, world⟩ := table
  cases entries with
  | nil =>
    intro _
    exact List.mergeSort_nil.symm
  | cons a entries =>
    exact sortsStably_of_arranges (Mirrored.completed
      (large_mirrors (h.consistent.oracle (a :: entries) a) (Nat.succ_pos _)) world)

theorem userSortItems_stable [Std.TransCmp cmp] (h : Answers compare cmp) (table : Table α σ) :
    SortsStably cmp table.entries (userSortItems compare table) := by
  obtain ⟨entries, world⟩ := table
  cases entries with
  | nil =>
    intro _
    exact List.mergeSort_nil.symm
  | cons a entries =>
    exact sortsStably_of_arranges
      (userSortItems_arranges (h.consistent.oracle (a :: entries) a) world)

theorem usortCanonical_stable [Std.TransCmp cmp] (h : Answers compare cmp) (table : Table α σ) :
    Post (fun complete t => t.entries =
        if complete then table.entries.mergeSort (mayPrecede cmp) else table.entries)
      (fun e t => (∃ error, e = .raised error) ∧ t.entries = table.entries)
      (usortCanonical compare table) := by
  have hitems := userSortItems_stable h table
  simp only [usortCanonical]
  cases hrun : userSortItems compare table with
  | ok complete t =>
    rw [hrun] at hitems
    cases complete with
    | true => exact hitems rfl
    | false => exact rfl
  | error e t =>
    rw [hrun] at hitems
    exact ⟨hitems, rfl⟩

/-- A callback may return a number, or whether its first argument is the greater one. -/
def CallbackResult.Tells (ordering : Ordering) : CallbackResult → Prop
  | .true => ordering = .gt
  | .false => ordering ≠ .gt
  | .other long => Ord.compare long 0 = ordering

/-- The results of calls tell the order. -/
def CallsTell (callback : Callback α ε σ) (cmp : α → α → Ordering) : Prop :=
  ∀ a b world, Post (fun result _ => ∀ r, result = some r → r.Tells (cmp a b))
    (fun _ _ => True) (callback a b world)

theorem inWorld_post {m : EStateM ε σ β} {s : Script σ} {Q : β → Prop}
    (h : Post (fun b _ => Q b) (fun _ _ => True) (m s.world)) :
    Post (fun b _ => Q b) (fun _ _ => True) (inWorld m s) := by
  simp only [inWorld]
  cases hrun : m s.world with
  | ok b w =>
    rw [hrun] at h
    exact h
  | error e w => trivial

theorem post_true (r : EStateM.Result ε σ β) : Post (fun _ _ => True) (fun _ _ => True) r := by
  cases r <;> trivial

/-- The call the other way round tells a smaller argument from an equal one. -/
theorem reverse_tells [Std.OrientedCmp cmp] (h : cmp a b ≠ .gt) (r : CallbackResult)
    (hr : r.Tells (cmp b a)) : (Ord.compare r.toLongVal 0).swap = cmp a b := by
  have hswap : cmp a b = (cmp b a).swap := Std.OrientedCmp.eq_swap
  cases r with
  | true =>
    rw [hswap, show cmp b a = .gt from hr]
    rfl
  | false =>
    have heq : cmp b a = .eq := by
      cases hba : cmp b a with
      | lt =>
        rw [hba] at hswap
        exact absurd hswap h
      | eq => rfl
      | gt => exact absurd hba hr
    rw [hswap, heq]
    rfl
  | other long => rw [hswap, ← show Ord.compare long 0 = cmp b a from hr]; rfl

theorem userSortComparison_answers [Std.OrientedCmp cmp] {callback : Callback α ε σ}
    (h : CallsTell callback cmp) (reportDeprecation : EStateM ε σ Bool) :
    Answers (userSortComparison reportDeprecation callback) cmp := by
  intro a b s
  apply (inWorld_post (h a b s.world)).bind
  intro result t _ hresult
  cases result with
  | none =>
    intro ordering hordering
    cases hordering
  | some r =>
    have htells := hresult r rfl
    cases r with
    | true =>
      apply (post_true _).bind
      intro raised u _ _
      cases raised with
      | true =>
        intro ordering hordering
        cases hordering
      | false =>
        rintro ordering ⟨⟩
        exact htells.symm
    | false =>
      apply (post_true _).bind
      intro raised u _ _
      cases raised with
      | true =>
        intro ordering hordering
        cases hordering
      | false =>
        apply (inWorld_post (h b a u.world)).bind
        intro reverse v _ hreverse
        cases reverse with
        | none =>
          intro ordering hordering
          cases hordering
        | some r =>
          rintro ordering ⟨⟩
          exact reverse_tells htells r (hreverse r rfl)
    | other long =>
      rintro ordering ⟨⟩
      exact htells

end Callbacks

end Rphp.Stdlib.Sort
