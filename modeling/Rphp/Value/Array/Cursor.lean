import Rphp.Value.Array.CachedLongRun

namespace Rphp
open Rphp.Lib
set_option autoImplicit true

/-! The cursor word: a position below eight marks. -/

def arrayCursorPristine : BitVec 64 := 1#64 <<< 63

def arrayIntKeyInitialized : BitVec 64 := 1#64 <<< 62

def arrayExternalByteKeys : BitVec 64 := 1#64 <<< 61

def arrayUtf8TextKeys : BitVec 64 := 1#64 <<< 60

def arrayDeferredObjectHandlesPublished : BitVec 64 := 1#64 <<< 59

def arrayNestedReleaseCandidate : BitVec 64 := 1#64 <<< 58

def arrayDeepDropStackCheckpoint : BitVec 64 := 1#64 <<< 57

def arrayReferenceForeach : BitVec 64 := 1#64 <<< 56

def arrayCursorMetadata : BitVec 64 :=
  arrayCursorPristine ||| arrayIntKeyInitialized ||| arrayExternalByteKeys ||| arrayUtf8TextKeys |||
    arrayDeferredObjectHandlesPublished ||| arrayNestedReleaseCandidate |||
    arrayDeepDropStackCheckpoint ||| arrayReferenceForeach

/-- The word with its marks kept and another position. -/
def moveCursor (cursor position : BitVec 64) : BitVec 64 :=
  (cursor &&& arrayCursorMetadata) ||| position

theorem not_arrayCursorMetadata : (~~~arrayCursorMetadata).toNat = 2 ^ 56 - 1 := by decide

theorem and_not_metadata_of_lt {w : BitVec 64} (h : w.toNat < 2 ^ 56) :
    w &&& ~~~arrayCursorMetadata = w := by
  refine BitVec.eq_of_toNat_eq ?_
  rw [BitVec.toNat_and, not_arrayCursorMetadata, Nat.and_two_pow_sub_one_eq_mod,
    Nat.mod_eq_of_lt h]

theorem position_lt (w : BitVec 64) : (w &&& ~~~arrayCursorMetadata).toNat < 2 ^ 56 := by
  rw [BitVec.toNat_and, not_arrayCursorMetadata, Nat.and_two_pow_sub_one_eq_mod]
  exact Nat.mod_lt _ (by decide)

theorem and_metadata_of_lt {w : BitVec 64} (h : w.toNat < 2 ^ 56) :
    w &&& arrayCursorMetadata = 0#64 := by
  rw [← and_not_metadata_of_lt h, BitVec.and_assoc, BitVec.and_comm (~~~arrayCursorMetadata)]
  simp

theorem moveCursor_position {w position : BitVec 64} (h : position.toNat < 2 ^ 56) :
    moveCursor w position &&& ~~~arrayCursorMetadata = position := by
  rw [moveCursor, BitVec.and_or_distrib_right, BitVec.and_assoc, BitVec.and_not_self,
    and_not_metadata_of_lt h]
  simp

theorem moveCursor_metadata {w position : BitVec 64} (h : position.toNat < 2 ^ 56) :
    moveCursor w position &&& arrayCursorMetadata = w &&& arrayCursorMetadata := by
  rw [moveCursor, BitVec.and_or_distrib_right, BitVec.and_assoc, BitVec.and_self,
    and_metadata_of_lt h]
  simp

/-- An array with its cursor word, one mark of which says that integer keys have started. -/
structure CursorArray (P : Type u) where
  storage : ArrayStorage P
  nextIntKey : I64
  cursor : BitVec 64

namespace CursorArray

def array (c : CursorArray P) : PhpArray P :=
  ⟨c.storage, c.nextIntKey, decide (c.cursor &&& arrayIntKeyInitialized ≠ 0#64)⟩

def position (c : CursorArray P) : Nat := (c.cursor &&& ~~~arrayCursorMetadata).toNat

def cursorCurrent (c : CursorArray P) : Option (Value P) :=
  match c.storage with
  | .packed values => values[c.position]?
  | .smallHash entries => entries[c.position]?.map Prod.snd
  | .linearHash linear => linear.entries[c.position]?.map Prod.snd
  | .hash hash => hash.entries[c.position]?.map Prod.snd

def cursorKey (c : CursorArray P) : Option ArrayKey :=
  match c.storage with
  | .packed values =>
    if c.position < values.length then some (.int (I64.wrap c.position)) else none
  | .smallHash entries => entries[c.position]?.map Prod.fst
  | .linearHash linear => linear.entries[c.position]?.map Prod.fst
  | .hash hash => hash.entries[c.position]?.map Prod.fst

def cursorNext (c : CursorArray P) : CursorArray P × Option (Value P) :=
  let next : CursorArray P :=
    { c with cursor := moveCursor c.cursor (BitVec.ofNat 64 (saturatingAdd c.position 1)) }
  (next, next.cursorCurrent)

def adjustCursorAfterRemove (cursor : BitVec 64) (removedPosition : Nat) : BitVec 64 :=
  let current := cursor &&& ~~~arrayCursorMetadata
  if removedPosition < current.toNat then moveCursor cursor (current - 1#64) else cursor

def takeWithPosition (c : CursorArray P) (key : ArrayKey) :
    CursorArray P × Option (Nat × Value P) :=
  let taken := c.array.takeWithPosition key
  match taken.2 with
  | some (removed, value) =>
    (⟨taken.1.storage, taken.1.nextIntKey, adjustCursorAfterRemove c.cursor removed⟩,
      some (removed, value))
  | none => (⟨taken.1.storage, taken.1.nextIntKey, c.cursor⟩, none)

/-- The entry that the cursor is on, if it is not past the end. -/
def cursorEntry (c : CursorArray P) : Option (Entry P) := c.array.iter[c.position]?

theorem cursorEntry_eq_packed (c : CursorArray P) (values : List (Value P))
    (hs : c.storage = .packed values) :
    c.cursorEntry = values[c.position]?.map fun v => (.int (I64.wrap c.position), v) := by
  rw [cursorEntry, PhpArray.iter_of_packed (a := c.array) hs, packedEntries_getElem?]

theorem cursorKey_eq (c : CursorArray P) : c.cursorKey = c.cursorEntry.map Prod.fst := by
  cases hs : c.storage with
  | packed values =>
    rw [cursorEntry_eq_packed c values hs, cursorKey, hs, Option.map_map]
    simp only
    split
    · rename_i hlt
      simp [hlt]
    · rename_i hlt
      simp [hlt]
  | smallHash entries => simp [cursorKey, cursorEntry, PhpArray.iter, array, hs]
  | linearHash linear => simp [cursorKey, cursorEntry, PhpArray.iter, array, hs]
  | hash hash => simp [cursorKey, cursorEntry, PhpArray.iter, array, hs]

/-- Removal of a key keeps the cursor on its entry, or moves it from the removed entry to the one
that followed; a cursor past the end stays there, an absent key changes nothing, and the marks
stay. -/
structure KeepsCursor (c : CursorArray P) (key : ArrayKey) : Prop where
  other : ∀ e, c.cursorEntry = some e → e.1 ≠ key → (c.takeWithPosition key).1.cursorEntry = some e
  removed : ∀ e, c.cursorEntry = some e → e.1 = key →
    (c.takeWithPosition key).1.cursorEntry = c.array.iter[c.position + 1]?
  past : c.cursorEntry = none → (c.takeWithPosition key).1.cursorEntry = none
  absent : key ∉ keysOf c.array.iter → (c.takeWithPosition key).1.array.iter = c.array.iter ∧
    (c.takeWithPosition key).1.cursor = c.cursor
  metadata : (c.takeWithPosition key).1.cursor &&& arrayCursorMetadata =
    c.cursor &&& arrayCursorMetadata

theorem adjustCursorAfterRemove_spec (w : BitVec 64) (removed : Nat) :
    (adjustCursorAfterRemove w removed &&& ~~~arrayCursorMetadata).toNat =
        (if removed < (w &&& ~~~arrayCursorMetadata).toNat then
          (w &&& ~~~arrayCursorMetadata).toNat - 1
        else (w &&& ~~~arrayCursorMetadata).toNat) ∧
      adjustCursorAfterRemove w removed &&& arrayCursorMetadata = w &&& arrayCursorMetadata := by
  have hlt := position_lt w
  unfold adjustCursorAfterRemove
  generalize hcur : w &&& ~~~arrayCursorMetadata = current at *
  simp only
  split
  · rename_i hr
    have hsub : (current - 1#64).toNat = current.toNat - 1 := by
      bv_omega
    have hsmall : (current - 1#64).toNat < 2 ^ 56 := by omega
    exact ⟨by rw [moveCursor_position hsmall, hsub], moveCursor_metadata hsmall⟩
  · exact ⟨by rw [hcur], rfl⟩

/-- In the one state in which the prefix cannot be followed, no integer key is found. -/
theorem find_int_eq_none {h : HashStorage P} (hw : h.Wf) (he : ¬ h.Exact) (k : I64) :
    h.find (.int k) = none := by
  have hints := hw.ints
  have hn : h.verifiedIntPrefix ≠ 0 := fun h0 => he (.of_lt (by omega))
  rw [IntIndexed, if_neg hn] at hints
  obtain ⟨hempty, -, ha | hu⟩ := hints
  · exact absurd ha he
  · simp [HashStorage.find, HashStorage.intPosition, indexedIntPosition, hempty,
      verifiedIntPosition_unrepresentable hu]

theorem takeWithPosition_missed {c : CursorArray P}
    (hf : c.array.transitionToHash.findForRemoval key = none) :
    (c.takeWithPosition key).1.array.iter = c.array.transitionToHash.iter ∧
      (c.takeWithPosition key).1.cursor = c.cursor := by
  simp only [takeWithPosition, PhpArray.takeWithPosition, hf]
  exact ⟨rfl, trivial⟩

theorem takeWithPosition_found {c : CursorArray P} (hw : c.storage.Wf) (hfits : Fits c.array.iter)
    (hf : c.array.transitionToHash.findForRemoval key = some i) :
    (c.takeWithPosition key).1.array.iter = c.array.iter.eraseIdx i ∧
      (c.takeWithPosition key).1.cursor = adjustCursorAfterRemove c.cursor i := by
  have hsame := PhpArray.transitionToHash_same (a := c.array) hw hfits
  have hk := PhpArray.findForRemoval_sound hsame.storage hf
  obtain ⟨e, he, -⟩ := Option.map_eq_some_iff.1 ((keysOf_getElem? _ _).symm.trans hk)
  have hi : i < c.array.transitionToHash.iter.length := (List.getElem?_eq_some_iff.1 he).1
  obtain ⟨hholds, -, -⟩ := PhpArray.removeAt_holds (PhpArray.transitionToHash_not_packed c.array)
    hsame.storage (by rwa [hsame.iter]) hi
  have hiter := hholds.iter
  rw [hsame.iter] at hiter
  simp only [takeWithPosition, PhpArray.takeWithPosition, hf, he, Option.map_some]
  exact ⟨hiter, trivial⟩

/-- A key that is there is found, except for an integer key in the unrepresentable state. -/
theorem findForRemoval_eq_none_iff {c : CursorArray P} (hw : c.storage.Wf)
    (hf : Fits c.array.iter) (hk : key ∈ keysOf c.array.iter) :
    c.array.transitionToHash.findForRemoval key = none ↔
      ¬ c.storage.Exact ∧ ∃ k, key = .int k := by
  have hsame := PhpArray.transitionToHash_same (a := c.array) hw hf
  have hnp := PhpArray.transitionToHash_not_packed c.array
  by_cases he : c.storage.Exact
  · have hexact : c.array.transitionToHash.storage.Exact := hsame.exact he
    rw [PhpArray.findForRemoval_eq hnp hsame.storage hexact, hsame.iter, positionOf_eq_none]
    simp [he, hk]
  · obtain ⟨storage, next, cursor⟩ := c
    cases storage with
    | hash h =>
      simp only [he, not_false_eq_true, true_and]
      cases key with
      | int k => simp [array, PhpArray.transitionToHash, PhpArray.findForRemoval, find_int_eq_none hw he]
      | string s =>
        have hfind := HashStorage.Wf.strs hw
        simp only [reduceCtorEq, exists_false, iff_false]
        intro hnone
        exact hfind.lookup_eq_none.1 hnone hk
    | packed values => exact absurd trivial he
    | smallHash entries => exact absurd trivial he
    | linearHash linear => exact absurd trivial he

/-- Removing a found position shifts the cursor with its entry. -/
theorem keepsCursor_found {c : CursorArray P} (hw : c.storage.Wf) (hf : Fits c.array.iter)
    (hfind : c.array.transitionToHash.findForRemoval key = some i) : c.KeepsCursor key := by
  have hnd := PhpArray.nodup_iter (a := c.array) hw hf
  have hsame := PhpArray.transitionToHash_same (a := c.array) hw hf
  have hki := PhpArray.findForRemoval_sound hsame.storage hfind
  rw [hsame.iter] at hki
  have hilt : i < c.array.iter.length := by
    rw [← keysOf_length]
    exact (List.getElem?_eq_some_iff.1 hki).1
  obtain ⟨hiter, hcursor⟩ := takeWithPosition_found hw hf hfind
  obtain ⟨hpos, hmeta⟩ := adjustCursorAfterRemove_spec c.cursor i
  have hentry : (c.takeWithPosition key).1.cursorEntry =
      (c.array.iter.eraseIdx i)[if i < c.position then c.position - 1 else c.position]? := by
    rw [cursorEntry, hiter, position, hcursor, hpos]
    rfl
  have hat : ∀ e, c.cursorEntry = some e → (e.1 = key ↔ c.position = i) := by
    intro e he
    have hke : (keysOf c.array.iter)[c.position]? = some e.1 := by
      rw [keysOf_getElem?]
      exact congrArg (Option.map Prod.fst) he
    constructor
    · rintro rfl
      have h1 := (positionOf_eq_some hnd).2 hke
      have h2 := (positionOf_eq_some hnd).2 hki
      exact Option.some.inj (h1.symm.trans h2)
    · rintro rfl
      exact Option.some.inj (hke.symm.trans hki)
  refine ⟨fun e he hne => ?_, fun e he hke => ?_, fun he => ?_,
    fun habs => absurd (List.mem_of_getElem? hki) habs, by rw [hcursor, hmeta]⟩
  · have hi : c.position ≠ i := fun h => hne ((hat e he).2 h)
    rw [hentry]
    split
    · rename_i hlt
      rw [List.getElem?_eraseIdx_of_ge (by omega), Nat.sub_add_cancel (by omega)]
      exact he
    · rw [List.getElem?_eraseIdx_of_lt (by omega)]
      exact he
  · have hi := (hat e he).1 hke
    rw [hentry, if_neg (by omega), List.getElem?_eraseIdx_of_ge (by omega)]
  · have hge : c.array.iter.length ≤ c.position := List.getElem?_eq_none_iff.1 he
    rw [hentry, if_pos (by omega), List.getElem?_eq_none_iff, List.length_eraseIdx_of_lt hilt]
    omega

/-- A removal keeps the cursor unless the array holds two integer keys whose difference is not
representable and the key to remove is one of them, under the cursor: it is not found then. -/
theorem keepsCursor_iff {c : CursorArray P} (hw : c.storage.Wf) (hf : Fits c.array.iter)
    (key : ArrayKey) :
    c.KeepsCursor key ↔
      ¬ (¬ c.storage.Exact ∧ (∃ k, key = .int k) ∧ c.cursorKey = some key) := by
  have hmem : c.cursorKey = some key → key ∈ keysOf c.array.iter := by
    intro hk
    rw [cursorKey_eq] at hk
    obtain ⟨e, he, rfl⟩ := Option.map_eq_some_iff.1 hk
    exact List.mem_map_of_mem (List.mem_of_getElem? he)
  cases hfind : c.array.transitionToHash.findForRemoval key with
  | none =>
    obtain ⟨hiter, hcursor⟩ := takeWithPosition_missed hfind
    rw [(PhpArray.transitionToHash_same (a := c.array) hw hf).iter] at hiter
    have hentry : (c.takeWithPosition key).1.cursorEntry = c.cursorEntry := by
      rw [cursorEntry, cursorEntry, position, position, hiter, hcursor]
    constructor
    · rintro h ⟨-, -, hk⟩
      rw [cursorKey_eq] at hk
      obtain ⟨e, he, rfl⟩ := Option.map_eq_some_iff.1 hk
      have hnext : c.array.iter[c.position + 1]? = some e :=
        (h.removed e he rfl).symm.trans (hentry.trans he)
      have hnd := PhpArray.nodup_iter (a := c.array) hw hf
      have h1 := (positionOf_eq_some hnd).2 ((keysOf_getElem? _ _).trans (congrArg _ he))
      have h2 := (positionOf_eq_some hnd).2 ((keysOf_getElem? _ _).trans (congrArg _ hnext))
      have := Option.some.inj (h1.symm.trans h2)
      omega
    · intro h
      refine ⟨fun e he _ => hentry.trans he, fun e he hk => ?_, fun he => hentry.trans he,
        fun _ => ⟨hiter, hcursor⟩, by rw [hcursor]⟩
      have hkey : c.cursorKey = some key := by
        rw [cursorKey_eq, he, Option.map_some, hk]
      obtain ⟨hne, hint⟩ := (findForRemoval_eq_none_iff hw hf (hmem hkey)).1 hfind
      exact absurd ⟨hne, hint, hkey⟩ h
  | some i =>
    refine ⟨fun _ h => ?_, fun _ => keepsCursor_found hw hf hfind⟩
    have hnone := (findForRemoval_eq_none_iff hw hf (hmem h.2.2)).2 ⟨h.1, h.2.1⟩
    rw [hfind] at hnone
    cases hnone

/-- Three packed values with the cursor on the second. -/
theorem three_inRange : i64Min ≤ 3 ∧ 3 ≤ i64Max := by decide

def onSecond : CursorArray Unit :=
  ⟨.packed [.long .zero, .other (), .long .max], ⟨3, three_inRange⟩,
    arrayIntKeyInitialized ||| 1#64⟩

theorem keepsCursor_iff_onSecond :
    onSecond.cursorKey = some (.int ⟨1, by decide⟩) ∧ onSecond.cursorCurrent = some (.other ()) ∧
      onSecond.cursorNext.2 = some (.long .max) ∧ onSecond.KeepsCursor (.int .zero) :=
  ⟨by decide, by decide, by decide, (keepsCursor_iff (c := onSecond) trivial (by decide) (.int .zero)).2
    fun h => h.1 trivial⟩

/-- The two extreme integers as first keys of an indexed array: the key under the cursor is not
found, so the cursor stays on it. -/
theorem not_keepsCursor_extremes : ∃ c : CursorArray Unit,
    run ArrayOp.step (ArrayConstructor.withHashCapacity 4).make
      [.setInt .min (.long .zero), .setInt .max (.other ())] = some c.array ∧
    c.cursorKey = some (.int .min) ∧ ¬ c.KeepsCursor (.int .min) := by
  refine ⟨⟨.hash ⟨[(.int .min, .long .zero), (.int .max, .other ())], ∅, ∅, 2⟩, .max,
    arrayIntKeyInitialized⟩, rfl, by decide +kernel, fun h => ?_⟩
  have hnext := h.removed (.int .min, .long .zero) (by decide +kernel) rfl
  revert hnext
  decide +kernel

end CursorArray

end Rphp
