import Mathlib.Data.List.Infix

namespace Rphp.Lib
set_option autoImplicit true

/-! Search for the first occurrence of a pattern in a text that comes in pieces. -/

section Borders

/-- The first `k` elements of the pattern are the last of the text. -/
def Ends (pattern text : List α) (k : Nat) : Prop :=
  k ≤ pattern.length ∧ pattern.take k <:+ text

/-- No longer part of the pattern ends the text. -/
structure Longest (pattern text : List α) (k : Nat) : Prop where
  ends : Ends pattern text k
  most : ∀ j, Ends pattern text j → j ≤ k

variable {pattern text : List α}

theorem longest_nil (pattern : List α) : Longest pattern [] 0 where
  ends := ⟨Nat.zero_le _, List.nil_suffix⟩
  most j hj := by
    have hlength := hj.2.length_le
    rw [List.length_take, Nat.min_eq_left hj.1] at hlength
    exact hlength

theorem Ends.le_length (h : Ends pattern text k) : k ≤ text.length := by
  have hlength := h.2.length_le
  rwa [List.length_take, Nat.min_eq_left h.1] at hlength

theorem concat_suffix_concat {l m : List α} : l ++ [a] <:+ m ++ [b] ↔ a = b ∧ l <:+ m := by
  constructor
  · rintro ⟨front, hfront⟩
    rw [← List.append_assoc] at hfront
    obtain ⟨hinit, hlast⟩ := List.append_inj' hfront rfl
    exact ⟨List.head_eq_of_cons_eq hlast, front, hinit⟩
  · rintro ⟨rfl, front, rfl⟩
    exact ⟨front, (List.append_assoc _ _ _).symm⟩

/-- More of the pattern ends a longer text exactly if its next element does. -/
theorem ends_concat_iff : Ends pattern (text ++ [a]) (k + 1) ↔
    Ends pattern text k ∧ pattern[k]? = some a := by
  constructor
  · rintro ⟨hle, hsuffix⟩
    have hat := List.getElem?_eq_getElem hle
    rw [List.take_add_one, hat, Option.toList_some, concat_suffix_concat] at hsuffix
    exact ⟨⟨Nat.le_of_succ_le hle, hsuffix.2⟩, hat.trans (congrArg some hsuffix.1)⟩
  · rintro ⟨⟨hle, hsuffix⟩, hat⟩
    refine ⟨(List.getElem?_eq_some_iff.1 hat).1, ?_⟩
    rw [List.take_add_one, hat, Option.toList_some, concat_suffix_concat]
    exact ⟨rfl, hsuffix⟩

/-- What ends the text is a border of anything longer that ends it. -/
theorem Ends.border (h : Ends pattern text j) (hk : Ends pattern text k) (hjk : j < k) :
    Ends pattern (pattern.take k).tail j := by
  have hsuffix : pattern.take j <:+ pattern.take k := by
    apply List.suffix_of_suffix_length_le h.2 hk.2
    rw [List.length_take, List.length_take]
    omega
  refine ⟨h.1, ?_⟩
  cases hfront : pattern.take k with
  | nil =>
    rw [hfront] at hsuffix
    exact hsuffix
  | cons a rest =>
    rw [hfront] at hsuffix
    cases List.suffix_cons_iff.mp hsuffix with
    | inr htail => exact htail
    | inl heq =>
      have hlengths := congrArg List.length heq
      rw [← hfront, List.length_take, List.length_take, Nat.min_eq_left h.1,
        Nat.min_eq_left hk.1] at hlengths
      exact absurd hlengths (Nat.ne_of_lt hjk)

theorem Ends.of_border (h : Ends pattern (pattern.take k).tail j) (hk : Ends pattern text k) :
    Ends pattern text j :=
  ⟨h.1, h.2.trans ((List.tail_suffix _).trans hk.2)⟩

theorem Ends.border_lt (h : Ends pattern (pattern.take k).tail j) (hk : 0 < k) : j < k := by
  have hlength := h.le_length
  rw [List.length_tail, List.length_take] at hlength
  omega

theorem suffix_iff_ends : pattern <:+ text ↔ Ends pattern text pattern.length := by
  rw [Ends, List.take_length]
  exact ⟨fun h => ⟨Nat.le_refl _, h⟩, fun h => h.2⟩

end Borders

section Matchers

variable [DecidableEq α]

/-- Shorter and shorter borders, until one goes on with the element. -/
def fall (pattern : List α) (table : List Nat) (a : α) : Nat → Nat → Nat
  | 0, matched => matched
  | fuel + 1, matched =>
    if 0 < matched ∧ pattern[matched]? ≠ some a then
      fall pattern table a fuel (table[matched - 1]?.getD 0)
    else matched

def advance (pattern : List α) (table : List Nat) (matched : Nat) (a : α) : Nat :=
  let matched := fall pattern table a matched matched
  if pattern[matched]? = some a then matched + 1 else matched

/-- The entries up to a length hold the longest borders. -/
def Bordered (pattern : List α) (table : List Nat) (count : Nat) : Prop :=
  ∀ i < count, ∃ k, table[i]? = some k ∧ Longest pattern (pattern.take (i + 1)).tail k

variable {pattern text : List α} {table : List Nat}

/-- The longest part of the pattern that goes on with the element is still to come. -/
theorem fall_spec (a : α) (fuel : Nat) : ∀ matched, matched ≤ fuel →
    Bordered pattern table matched → Ends pattern text matched →
    (∀ j, Ends pattern text j → pattern[j]? = some a → j ≤ matched) →
    let k := fall pattern table a fuel matched
    Ends pattern text k ∧ (∀ j, Ends pattern text j → pattern[j]? = some a → j ≤ k) ∧
      (k = 0 ∨ pattern[k]? = some a) := by
  induction fuel with
  | zero =>
    intro matched hfuel _ hends hmost
    exact ⟨hends, hmost, .inl (Nat.le_zero.mp hfuel)⟩
  | succ fuel ih =>
    intro matched hfuel htable hends hmost
    rw [fall]
    by_cases hgo : 0 < matched ∧ pattern[matched]? ≠ some a
    · rw [if_pos hgo]
      obtain ⟨k, hk, hlongest⟩ := htable (matched - 1) (by omega)
      rw [Nat.sub_add_cancel hgo.1] at hlongest
      have hlt := hlongest.ends.border_lt hgo.1
      rw [hk, Option.getD_some]
      apply ih k (by omega)
      · intro i hi
        exact htable i (by omega)
      · exact hlongest.ends.of_border hends
      · intro j hj hat
        have hjle := hmost j hj hat
        have hne : j ≠ matched := by
          rintro rfl
          exact hgo.2 hat
        exact hlongest.most j (hj.border hends (by omega))
    · rw [if_neg hgo]
      refine ⟨hends, hmost, ?_⟩
      by_cases hzero : matched = 0
      · exact .inl hzero
      · exact .inr (Classical.not_not.mp fun hne => hgo ⟨Nat.pos_of_ne_zero hzero, hne⟩)

theorem advance_longest (h : Longest pattern text matched)
    (htable : Bordered pattern table matched) (a : α) :
    Longest pattern (text ++ [a]) (advance pattern table matched a) := by
  obtain ⟨hends, hmost, hstop⟩ := fall_spec a matched matched (Nat.le_refl _) htable h.ends
    fun j hj _ => h.most j hj
  rw [advance]
  by_cases hat : pattern[fall pattern table a matched matched]? = some a
  · rw [if_pos hat]
    refine ⟨ends_concat_iff.mpr ⟨hends, hat⟩, ?_⟩
    intro j hj
    cases j with
    | zero => exact Nat.zero_le _
    | succ j =>
      have hj := ends_concat_iff.mp hj
      exact Nat.succ_le_succ (hmost j hj.1 hj.2)
  · rw [if_neg hat]
    have hzero := hstop.resolve_right hat
    rw [hzero] at hat hmost ⊢
    refine ⟨⟨Nat.zero_le _, List.nil_suffix⟩, ?_⟩
    intro j hj
    cases j with
    | zero => exact Nat.le_refl 0
    | succ j =>
      have hj := ends_concat_iff.mp hj
      have hjzero := Nat.le_zero.mp (hmost j hj.1 hj.2)
      rw [hjzero] at hj
      exact absurd hj.2 hat

def buildTable (pattern : List α) : List α → Nat → List Nat → Nat → List Nat
  | [], _, table, _ => table
  | a :: rest, index, table, matched =>
    let matched := advance pattern table matched a
    buildTable pattern rest (index + 1) (table.set index matched) matched

/-- The length of the longest border of each nonempty part at the front. -/
def prefixTable (pattern : List α) : List Nat :=
  buildTable pattern pattern.tail 1 (List.replicate pattern.length 0) 0

theorem buildTable_bordered (rest : List α) : ∀ index table matched, 0 < index →
    pattern.drop index = rest → index ≤ pattern.length → table.length = pattern.length →
    Bordered pattern table index → Longest pattern (pattern.take index).tail matched →
    Bordered pattern (buildTable pattern rest index table matched) pattern.length := by
  induction rest with
  | nil =>
    intro index table matched _ hrest hle _ htable _
    have hlength := List.drop_eq_nil_iff.mp hrest
    rw [Nat.le_antisymm hle hlength] at htable
    exact htable
  | cons a rest ih =>
    intro index table matched hpos hrest _ hlength htable hmatched
    have hat : pattern[index]? = some a := by
      have hhead := congrArg List.head? hrest
      rwa [List.head?_drop] at hhead
    have hlt := (List.getElem?_eq_some_iff.1 hat).1
    have htake : (pattern.take (index + 1)).tail = (pattern.take index).tail ++ [a] := by
      rw [List.take_add_one, hat, Option.toList_some, List.tail_append_of_ne_nil]
      intro hnil
      have := congrArg List.length hnil
      rw [List.length_take] at this
      simp only [List.length_nil] at this
      omega
    have hbound := hmatched.ends.border_lt hpos
    have hnext := advance_longest hmatched (fun i hi => htable i (by omega)) a
    rw [← htake] at hnext
    apply ih (index + 1) _ _ (Nat.succ_pos _) ?_ hlt (by rw [List.length_set, hlength]) ?_ hnext
    · rw [← List.tail_drop, hrest]
      rfl
    · intro i hi
      by_cases heq : i = index
      · subst heq
        exact ⟨_, List.getElem?_set_self (hlength.symm ▸ hlt), hnext⟩
      · rw [List.getElem?_set_ne (Ne.symm heq)]
        exact htable i (by omega)

theorem prefixTable_bordered (pattern : List α) :
    Bordered pattern (prefixTable pattern) pattern.length := by
  cases pattern with
  | nil =>
    intro i hi
    exact absurd hi (Nat.not_lt_zero i)
  | cons a pattern =>
    have hpos : 1 ≤ (a :: pattern).length := Nat.succ_le_succ (Nat.zero_le _)
    apply buildTable_bordered _ 1 _ 0 Nat.one_pos rfl hpos List.length_replicate
    · intro i hi
      obtain rfl : i = 0 := by omega
      exact ⟨0, rfl, longest_nil _⟩
    · exact longest_nil _

/-- The end of the first occurrence in this piece of the text, and how much is matched so far. -/
def findEnding (pattern : List α) (table : List Nat) : List α → Nat → Option Nat × Nat
  | [], matched => (none, matched)
  | a :: piece, matched =>
    let matched := advance pattern table matched a
    if matched = pattern.length then (some 1, matched)
    else
      let found := findEnding pattern table piece matched
      (found.1.map (· + 1), found.2)

/-- No occurrence ends before here, but for those that ended before this piece. -/
def Fresh (pattern text piece : List α) (stop : Nat) : Prop :=
  ∀ k, 0 < k → k < stop → ¬ pattern <:+ text ++ piece.take k

theorem findEnding_spec (htable : Bordered pattern table pattern.length) (piece : List α) :
    ∀ text matched, Longest pattern text matched → matched < pattern.length →
      match findEnding pattern table piece matched with
      | (some stop, _) => 0 < stop ∧ stop ≤ piece.length ∧ pattern <:+ text ++ piece.take stop ∧
          Fresh pattern text piece stop
      | (none, matched) => Longest pattern (text ++ piece) matched ∧ matched < pattern.length ∧
          Fresh pattern text piece (piece.length + 1) := by
  induction piece with
  | nil =>
    intro text matched hmatched hlt
    refine ⟨(List.append_nil text).symm ▸ hmatched, hlt, ?_⟩
    intro k hk hk'
    exact absurd hk (Nat.not_lt.mpr (Nat.le_of_lt_succ hk'))
  | cons a piece ih =>
    intro text matched hmatched hlt
    have hnext := advance_longest hmatched (fun i hi => htable i (Nat.lt_trans hi hlt)) a
    rw [findEnding]
    by_cases hfull : advance pattern table matched a = pattern.length
    · rw [if_pos hfull]
      rw [hfull] at hnext
      refine ⟨Nat.one_pos, Nat.succ_le_succ (Nat.zero_le _), suffix_iff_ends.mpr hnext.ends, ?_⟩
      intro k hk hk'
      omega
    · rw [if_neg hfull]
      have hshort : advance pattern table matched a < pattern.length :=
        Nat.lt_of_le_of_ne hnext.ends.1 hfull
      have hrest := ih (text ++ [a]) _ hnext hshort
      have hfresh : ∀ stop, Fresh pattern (text ++ [a]) piece stop →
          Fresh pattern text (a :: piece) (stop + 1) := by
        intro stop hstop k hk hk' hsuffix
        cases k with
        | zero => exact absurd hk (Nat.lt_irrefl 0)
        | succ k =>
          rw [List.take_succ_cons, List.append_cons] at hsuffix
          by_cases hzero : k = 0
          · rw [hzero, List.take_zero, List.append_nil] at hsuffix
            have hle := hnext.most _ (suffix_iff_ends.mp hsuffix)
            omega
          · exact hstop k (Nat.pos_of_ne_zero hzero) (Nat.lt_of_succ_lt_succ hk') hsuffix
      cases hfound : findEnding pattern table piece (advance pattern table matched a) with
      | mk found matched' =>
        rw [hfound] at hrest
        cases found with
        | some stop =>
          obtain ⟨_, hle, hsuffix, hstop⟩ := hrest
          refine ⟨Nat.succ_pos _, Nat.succ_le_succ hle, ?_, hfresh stop hstop⟩
          rw [List.take_succ_cons, List.append_cons]
          exact hsuffix
        | none =>
          obtain ⟨hlongest, hlt', hstop⟩ := hrest
          refine ⟨?_, hlt', hfresh _ hstop⟩
          rw [List.append_cons]
          exact hlongest

end Matchers

end Rphp.Lib
