import Rphp.Stdlib.Sort.Schedule

namespace Rphp.Stdlib.Sort
open Rphp.Lib
set_option autoImplicit true

/-! Up to five positions of the order, next to each other or not. -/

variable {entries : List α} {compare : Compare α ε σ} {sound : Prop} {le : Nat → Nat → Prop}
  {P : List Nat → Prop} {S : Nat → Prop}

section Triples

/-- The pair is in order, as it was or exchanged. -/
def Paired (sound : Prop) (le : Nat → Nat → Prop) (left right : Nat) (l m : List Nat) : Prop :=
  (m = l ∧ (sound → Below le l left right)) ∨
    (Swapped left right l m ∧ (sound → Below le l right left))

theorem sortPair_sorts (h : Oracle entries compare sound le) (hleft : left < entries.length)
    (hright : right < entries.length) (hSleft : S left) (hSright : S right) :
    Sorts entries.length S P (sortPair entries compare left right)
      fun _ m => ∃ l, P l ∧ Paired sound le left right l m := by
  apply Sorts.ask (isAfter_asks h hleft hright)
  intro after
  cases after with
  | true =>
    apply (swap_sorts hleft hright hSleft hSright).mono (fun _ hk => hk) (fun _ hl => hl)
    rintro _ m ⟨l, ⟨hP, hanswer⟩, hswapped⟩
    exact ⟨l, hP, .inr ⟨hswapped, hanswer⟩⟩
  | false =>
    apply Sorts.pure
    rintro l ⟨hP, hanswer⟩
    exact ⟨l, hP, .inl ⟨rfl, hanswer⟩⟩

/-- Three positions in order. -/
def Tripled (le : Nat → Nat → Prop) (first second third : Nat) (l : List Nat) : Prop :=
  Below le l first second ∧ Below le l second third ∧ Below le l first third

theorem Paired.tripled_front (h : Paired sound le first second l m) (hsound : sound)
    (hfs : first ≠ second) (hst : second ≠ third) (hft : first ≠ third)
    (hfirst : Below le l first third) (hsecond : Below le l second third) :
    Tripled le first second third m := by
  obtain ⟨rfl, hbelow⟩ | ⟨hswapped, hbelow⟩ := h
  · exact ⟨hbelow hsound, hsecond, hfirst⟩
  · have hf := hswapped.left hfs
    have hs := hswapped.right
    have ht := hswapped.other hft.symm hst.symm
    exact ⟨(hbelow hsound).congr hf hs, hfirst.congr hs ht, hsecond.congr hf ht⟩

theorem Paired.tripled_back (h : Paired sound le second third l m) (hsound : sound)
    (hfs : first ≠ second) (hst : second ≠ third) (hft : first ≠ third)
    (hsecond : Below le l first second) (hthird : Below le l first third) :
    Tripled le first second third m := by
  obtain ⟨rfl, hbelow⟩ | ⟨hswapped, hbelow⟩ := h
  · exact ⟨hsecond, hbelow hsound, hthird⟩
  · have hf := hswapped.other hfs hft
    have hs := hswapped.left hst
    have ht := hswapped.right
    exact ⟨hthird.congr hf hs, (hbelow hsound).congr hs ht, hsecond.congr hf ht⟩

theorem sortTriple_sorts (h : Oracle entries compare sound le) (hfirst : first < entries.length)
    (hsecond : second < entries.length) (hthird : third < entries.length) (hSf : S first)
    (hSs : S second) (hSt : S third) (hfs : first ≠ second) (hst : second ≠ third)
    (hft : first ≠ third) :
    Sorts entries.length S P (sortTriple entries compare first second third)
      fun _ m => sound → Tripled le first second third m := by
  apply Sorts.ask (isAfter_asks h hfirst hsecond)
  intro after
  cases after with
  | true =>
    apply Sorts.ask (isAfter_asks h hthird hsecond)
    intro after
    cases after with
    | true =>
      apply (swap_sorts hfirst hsecond hSf hSs).bind
      intro _
      apply (sortPair_sorts h hsecond hthird hSs hSt).mono (fun _ hk => hk) (fun _ hl => hl)
      rintro _ m ⟨l, ⟨l', ⟨⟨-, hafter⟩, hafter'⟩, hswapped⟩, hpaired⟩ hsound
      have hf := hswapped.left hfs
      have hs := hswapped.right
      have ht := hswapped.other hft.symm hst.symm
      exact hpaired.tripled_back hsound hfs hst hft ((hafter hsound).congr hf hs)
        ((hafter' hsound).congr hf ht)
    | false =>
      apply (swap_sorts hfirst hthird hSf hSt).mono (fun _ hk => hk) (fun _ hl => hl)
      rintro _ m ⟨l, ⟨⟨-, hafter⟩, hafter'⟩, hswapped⟩ hsound
      have hf := hswapped.left hft
      have hs := hswapped.other hfs.symm hst
      have ht := hswapped.right
      have hthird := (hafter' hsound).trans h.trans (hafter hsound)
      exact ⟨(hafter' hsound).congr hf hs, (hafter hsound).congr hs ht, hthird.congr hf ht⟩
  | false =>
    apply Sorts.ask (isAfter_asks h hsecond hthird)
    intro after
    cases after with
    | true =>
      apply (swap_sorts hsecond hthird hSs hSt).bind
      intro _
      apply (sortPair_sorts h hfirst hsecond hSf hSs).mono (fun _ hk => hk) (fun _ hl => hl)
      rintro _ m ⟨l, ⟨l', ⟨⟨-, hafter⟩, hafter'⟩, hswapped⟩, hpaired⟩ hsound
      have hf := hswapped.other hfs hft
      have hs := hswapped.left hst
      have ht := hswapped.right
      exact hpaired.tripled_front hsound hfs hst hft ((hafter hsound).congr hf ht)
        ((hafter' hsound).congr hs ht)
    | false =>
      apply Sorts.pure
      rintro l ⟨⟨-, hafter⟩, hafter'⟩ hsound
      exact ⟨hafter hsound, hafter' hsound, (hafter hsound).trans h.trans (hafter' hsound)⟩

end Triples

section Samples

/-- Positions of the order, no two of them the same. -/
structure Sample (n : Nat) (S : Nat → Prop) (positions : List Nat) (p : Nat → Nat)
    (count : Nat) : Prop where
  at_eq : ∀ k < count, positions[k]? = some (p k)
  lt : ∀ k < count, p k < n
  inside : ∀ k < count, S (p k)
  injective : ∀ i j, i < j → j < count → p i ≠ p j

/-- The first positions in order. -/
def Chained (le : Nat → Nat → Prop) (p : Nat → Nat) (count : Nat) (l : List Nat) : Prop :=
  ∀ i j, i < j → j < count → Below le l (p i) (p j)

/-- Only the entry at the cursor may be out of order, with those before it. -/
structure Sinking (le : Nat → Nat → Prop) (p : Nat → Nat) (cursor count : Nat)
    (l : List Nat) : Prop where
  others : ∀ i j, i < j → j < count → i ≠ cursor → j ≠ cursor → Below le l (p i) (p j)
  below : ∀ j, cursor < j → j < count → Below le l (p cursor) (p j)

variable {positions : List Nat} {p : Nat → Nat} {count cursor : Nat} {l m : List Nat}

theorem Sample.mono (h : Sample n S positions p count) (hle : count' ≤ count) :
    Sample n S positions p count' where
  at_eq k hk := h.at_eq k (Nat.lt_of_lt_of_le hk hle)
  lt k hk := h.lt k (Nat.lt_of_lt_of_le hk hle)
  inside k hk := h.inside k (Nat.lt_of_lt_of_le hk hle)
  injective i j hij hj := h.injective i j hij (Nat.lt_of_lt_of_le hj hle)

theorem Chained.sinking (h : Chained le p cursor l) : Sinking le p cursor (cursor + 1) l where
  others i j hij hj hi hjc := h i j hij (by omega)
  below j hj hj' := by omega

theorem Sinking.chained_zero (h : Sinking le p 0 count l) : Chained le p count l := by
  intro i j hij hj
  by_cases hi : i = 0
  · rw [hi]
    exact h.below j (by omega) hj
  · exact h.others i j hij hj hi (by omega)

theorem Sinking.chained (h : Sinking le p (cursor + 1) count l)
    (trans : ∀ a b c, le a b → le b c → le a c) (hbelow : Below le l (p cursor) (p (cursor + 1))) :
    Chained le p count l := by
  intro i j hij hj
  by_cases hi : i = cursor + 1
  · rw [hi]
    exact h.below j (by omega) hj
  · by_cases hjc : j = cursor + 1
    · rw [hjc]
      by_cases hic : i = cursor
      · rw [hic]
        exact hbelow
      · exact (h.others i cursor (by omega) (by omega) hi (by omega)).trans trans hbelow
    · exact h.others i j hij hj hi hjc

theorem Sinking.swapped (h : Sinking le p (cursor + 1) count l) (hcursor : cursor + 1 < count)
    (hinj : ∀ i j, i < j → j < count → p i ≠ p j)
    (hbelow : Below le l (p (cursor + 1)) (p cursor))
    (hswapped : Swapped (p cursor) (p (cursor + 1)) l m) : Sinking le p cursor count m := by
  have hleft := hswapped.left (hinj cursor (cursor + 1) (Nat.lt_succ_self _) hcursor)
  have hright := hswapped.right
  have hother : ∀ k < count, k ≠ cursor → k ≠ cursor + 1 → m[p k]? = l[p k]? := by
    intro k hk hne hne'
    apply hswapped.other
    · obtain hlt | hlt := Nat.lt_or_gt_of_ne hne
      · exact hinj k cursor hlt (by omega)
      · exact (hinj cursor k hlt hk).symm
    · obtain hlt | hlt := Nat.lt_or_gt_of_ne hne'
      · exact hinj k (cursor + 1) hlt hcursor
      · exact (hinj (cursor + 1) k hlt hk).symm
  constructor
  · intro i j hij hj hi hjc
    by_cases hi' : i = cursor + 1
    · rw [hi']
      exact (h.others cursor j (by omega) hj (by omega) (by omega)).congr hright
        (hother j hj hjc (by omega))
    · by_cases hj' : j = cursor + 1
      · rw [hj']
        exact (h.others i cursor (by omega) (by omega) hi' (by omega)).congr
          (hother i (by omega) hi hi') hright
      · exact (h.others i j hij hj hi' hj').congr (hother i (by omega) hi hi')
          (hother j hj hjc hj')
  · intro j hj hj'
    by_cases hjc : j = cursor + 1
    · rw [hjc]
      exact hbelow.congr hleft hright
    · exact (h.below j (by omega) hj').congr hleft (hother j hj' (by omega) hjc)

theorem sink_sorts (h : Oracle entries compare sound le)
    (hs : Sample entries.length S positions p count) (cursor : Nat) (hcursor : cursor < count) :
    Sorts entries.length S (fun l => sound → Sinking le p cursor count l)
      (sink entries compare positions cursor) fun _ m => sound → Chained le p count m := by
  induction cursor with
  | zero =>
    apply Sorts.pure
    intro l hl hsound
    exact (hl hsound).chained_zero
  | succ cursor ih =>
    have hlt : cursor < count := by omega
    apply Sorts.fetch (hs.at_eq cursor hlt)
    apply Sorts.fetch (hs.at_eq (cursor + 1) hcursor)
    apply Sorts.ask (isAfter_asks h (hs.lt cursor hlt) (hs.lt (cursor + 1) hcursor))
    intro after
    cases after with
    | true =>
      apply (swap_sorts (hs.lt cursor hlt) (hs.lt (cursor + 1) hcursor) (hs.inside cursor hlt)
        (hs.inside (cursor + 1) hcursor)).bind
      intro _
      apply (ih hlt).mono (fun _ hk => hk) ?_ (fun _ _ hm => hm)
      rintro m ⟨l, ⟨hsinking, hafter⟩, hswapped⟩ hsound
      exact (hsinking hsound).swapped hcursor hs.injective (hafter hsound) hswapped
    | false =>
      apply Sorts.pure
      rintro l ⟨hsinking, hafter⟩ hsound
      exact (hsinking hsound).chained h.trans (hafter hsound)

theorem chained_of_le_one (hcount : count ≤ 1) : Chained le p count l := by
  intro i j hij hj
  omega

theorem Paired.chained (h : Paired sound le (p 0) (p 1) l m) (hsound : sound) (hne : p 0 ≠ p 1) :
    Chained le p 2 m := by
  intro i j hij hj
  obtain ⟨rfl, rfl⟩ : i = 0 ∧ j = 1 := by omega
  obtain ⟨rfl, hbelow⟩ | ⟨hswapped, hbelow⟩ := h
  · exact hbelow hsound
  · exact (hbelow hsound).congr (hswapped.left hne) hswapped.right

theorem Tripled.chained (h : Tripled le (p 0) (p 1) (p 2) l) : Chained le p 3 l := by
  intro i j hij hj
  obtain ⟨hfirst, hsecond, hthird⟩ := h
  obtain ⟨rfl, rfl⟩ | ⟨rfl, rfl⟩ | ⟨rfl, rfl⟩ :
      (i = 0 ∧ j = 1) ∨ (i = 1 ∧ j = 2) ∨ (i = 0 ∧ j = 2) := by omega
  · exact hfirst
  · exact hsecond
  · exact hthird

theorem observedSmallPrefix_sorts (h : Oracle entries compare sound le)
    (hs : Sample entries.length S positions p count) (hcount : count ≤ 5) :
    ∀ k ≤ count, Sorts entries.length S P
      (observedSmallPrefix entries compare positions k) fun _ m => sound → Chained le p k m
  | 0, _ | 1, _ => Sorts.pure fun _ _ _ => chained_of_le_one (by decide)
  | 2, hk => by
    apply Sorts.fetch (hs.at_eq 0 (by omega))
    apply Sorts.fetch (hs.at_eq 1 hk)
    apply (sortPair_sorts h (hs.lt 0 (by omega)) (hs.lt 1 hk) (hs.inside 0 (by omega))
      (hs.inside 1 hk)).mono (fun _ hk => hk) (fun _ hl => hl)
    rintro _ m ⟨l, -, hpaired⟩ hsound
    exact hpaired.chained hsound (hs.injective 0 1 (by decide) hk)
  | 3, hk => by
    apply Sorts.fetch (hs.at_eq 0 (by omega))
    apply Sorts.fetch (hs.at_eq 1 (by omega))
    apply Sorts.fetch (hs.at_eq 2 hk)
    apply (sortTriple_sorts h (hs.lt 0 (by omega)) (hs.lt 1 (by omega)) (hs.lt 2 hk)
      (hs.inside 0 (by omega)) (hs.inside 1 (by omega)) (hs.inside 2 hk)
      (hs.injective 0 1 (by decide) (by omega)) (hs.injective 1 2 (by decide) hk)
      (hs.injective 0 2 (by decide) hk)).mono (fun _ hk => hk) (fun _ hl => hl)
    intro _ m htripled hsound
    exact (htripled hsound).chained
  | k + 4, hk => by
    have hfive : k + 4 ≤ 5 := Nat.le_trans hk hcount
    rw [observedSmallPrefix, if_pos hfive]
    apply (observedSmallPrefix_sorts h hs hcount (k + 3) (by omega)).bind
    intro _
    apply (sink_sorts h (hs.mono hk) (k + 3) (Nat.lt_succ_self _)).mono (fun _ hk => hk) ?_
      (fun _ _ hm => hm)
    intro l hl hsound
    exact (hl hsound).sinking

theorem observedSmallSortSchedule_sorts (h : Oracle entries compare sound le)
    (hs : Sample entries.length S positions p count) (hlength : positions.length = count)
    (hcount : count ≤ 5) :
    Sorts entries.length S P (observedSmallSortSchedule entries compare positions)
      fun _ m => sound → Chained le p count m := by
  rw [observedSmallSortSchedule, hlength]
  exact observedSmallPrefix_sorts h hs hcount count (Nat.le_refl _)

end Samples

end Rphp.Stdlib.Sort
