import Rphp.Value.Array.HashStorage

namespace Rphp
open Rphp.Lib
set_option autoImplicit true

theorem Arithmetic.append (h : Arithmetic keys n) (l : List ArrayKey) : Arithmetic (keys ++ l) n := by
  intro hn
  obtain ⟨first, stride, hs, hk⟩ := h hn
  refine ⟨first, stride, hs, fun i hi => ?_⟩
  obtain ⟨k, hki, he⟩ := hk i hi
  exact ⟨k, by rw [List.getElem?_append_left (List.getElem?_eq_some_iff.1 hki).1, hki], he⟩

theorem IntKeysFirst.le_length (h : IntKeysFirst keys n) : n ≤ keys.length := by
  by_contra hlt
  obtain ⟨k, hk⟩ := (h keys.length).2 (by omega)
  simp at hk

theorem IntIndexed.concat_string (h : IntIndexed keys intIndex n) (key : String) :
    IntIndexed (keys ++ [.string key]) intIndex n := by
  unfold IntIndexed at *
  split
  · rename_i hn
    rw [if_pos hn] at h
    exact h.push_other (by simp)
  · rename_i hn
    rw [if_neg hn] at h
    obtain ⟨hempty, hfirst, hrun⟩ := h
    refine ⟨hempty, fun i => ?_, ?_⟩
    · simp only [getElem?_concat_eq_some, reduceCtorEq, and_false, or_false]
      exact hfirst i
    · rcases hrun with ha | ⟨rfl, first, second, h0, h1, hsub⟩
      · exact .inl (ha.append _)
      · exact .inr ⟨rfl, first, second, getElem?_concat_eq_some.2 (.inl h0),
          getElem?_concat_eq_some.2 (.inl h1), hsub⟩

/-- Keys of the progression that lie in the list lie in it without its last element, except for
that element. -/
theorem Arithmetic.init (h : Arithmetic (keys ++ [x]) n) (hm : m ≤ n) (hlen : m ≤ keys.length) :
    Arithmetic keys m := by
  intro h2
  obtain ⟨first, stride, hs, hk⟩ := h (by omega)
  refine ⟨first, stride, hs, fun i hi => ?_⟩
  obtain ⟨k, hki, he⟩ := hk i (by omega)
  rcases getElem?_concat_eq_some.1 hki with hki | ⟨hi', -⟩
  · exact ⟨k, hki, he⟩
  · omega

theorem IntIndexed.init_string (h : IntIndexed (keys ++ [.string key]) intIndex n) :
    IntIndexed keys intIndex n := by
  unfold IntIndexed at *
  split
  · rename_i hn
    rw [if_pos hn] at h
    exact h.pop_other (by simp)
  · rename_i hn
    rw [if_neg hn] at h
    obtain ⟨hempty, hfirst, hrun⟩ := h
    have hfirst' : IntKeysFirst keys n := fun i => by
      have := hfirst i
      simpa only [getElem?_concat_eq_some, reduceCtorEq, and_false, or_false] using this
    refine ⟨hempty, hfirst', ?_⟩
    rcases hrun with ha | ⟨rfl, first, second, h0, h1, hsub⟩
    · exact .inl (ha.init (le_refl n) hfirst'.le_length)
    · have hinit : ∀ (i : Nat) k, (keys ++ [.string key])[i]? = some (ArrayKey.int k) →
          keys[i]? = some (ArrayKey.int k) := by
        intro i k hk
        rcases getElem?_concat_eq_some.1 hk with hk | ⟨-, hk⟩
        · exact hk
        · cases hk
      exact .inr ⟨rfl, first, second, hinit 0 first h0, hinit 1 second h1, hsub⟩

/-- Removing the last key of an arithmetic prefix shortens it. -/
theorem IntIndexed.init_prefix (h : IntIndexed (keys ++ [x]) intIndex (keys.length + 1)) :
    IntIndexed keys intIndex keys.length ∧ Arithmetic keys keys.length := by
  rw [IntIndexed, if_neg (by omega)] at h
  obtain ⟨rfl, hfirst, hrun⟩ := h
  have ha : Arithmetic keys keys.length := by
    rcases hrun with ha | ⟨h2, -⟩
    · exact ha.init (by omega) (le_refl _)
    · exact .of_lt (by omega)
  refine ⟨?_, ha⟩
  rw [IntIndexed]
  split
  · rename_i h0
    rw [List.length_eq_zero_iff.1 h0]
    exact IndexesBy.nil
  · refine ⟨rfl, fun i => ?_, .inl ha⟩
    constructor
    · rintro ⟨k, hk⟩
      exact (List.getElem?_eq_some_iff.1 hk).1
    · intro hi
      obtain ⟨k, hk⟩ := (hfirst i).2 (by omega)
      rcases getElem?_concat_eq_some.1 hk with hk | ⟨hi', -⟩
      · exact ⟨k, hk⟩
      · omega

namespace HashStorage

theorem empty_wf : (empty : HashStorage P).Wf :=
  ⟨by simp [empty, keysOf], IndexesBy.nil, by rw [IntIndexed]; exact IndexesBy.nil⟩

theorem ofEntries_wf {entries : List (Entry P)} (hf : Fits entries)
    (hnd : (keysOf entries).Nodup) : (ofEntries entries).Wf :=
  ⟨hnd, IndexesBy.indexEntries (strEntry_enters _) (le_refl _) ArrayKey.string_injective hnd,
    (rebuildIntIndex_spec hf hnd).1⟩

theorem ofEntries_exact {entries : List (Entry P)} (hf : Fits entries)
    (hnd : (keysOf entries).Nodup) : (ofEntries entries).Exact :=
  (rebuildIntIndex_spec hf hnd).2

theorem setIndexedStr_cases {h : HashStorage P} (hw : h.Wf) (key : String) (val : Value P) :
    (∃ i, (keysOf h.entries)[i]? = some (.string key) ∧
      h.setIndexedStr key val = { h with entries := setValue h.entries i val }) ∨
    (.string key ∉ keysOf h.entries ∧
      h.setIndexedStr key val = { h with
        entries := h.entries ++ [(.string key, val)]
        strIndex := h.strIndex.insert key h.entries.length }) := by
  unfold setIndexedStr
  cases hl : h.strIndex.lookup key with
  | some i => exact .inl ⟨i, (hw.strs key i).1 (by rw [hl]; rfl), rfl⟩
  | none => exact .inr ⟨hw.strs.lookup_eq_none.1 hl, rfl⟩

theorem setIndexedStr_entries {h : HashStorage P} (hw : h.Wf) (key : String) (val : Value P) :
    (h.setIndexedStr key val).entries = putKey h.entries (.string key) val := by
  unfold putKey
  obtain ⟨i, hk, hr⟩ | ⟨hk, hr⟩ := setIndexedStr_cases hw key val
  · simp only [hr, (positionOf_eq_some hw.nodup).2 hk]
  · simp only [hr, positionOf_eq_none.2 hk]

theorem setIndexedStr_wf {h : HashStorage P} (hw : h.Wf) (key : String) (val : Value P) :
    (h.setIndexedStr key val).Wf := by
  have hnd := nodup_putKey hw.nodup (.string key) val
  rw [← setIndexedStr_entries hw] at hnd
  obtain ⟨i, -, hr⟩ | ⟨hk, hr⟩ := setIndexedStr_cases hw key val <;> rw [hr] at hnd ⊢
  · exact ⟨hnd, by simpa using hw.strs, by simpa using hw.ints⟩
  · refine ⟨hnd, ?_, ?_⟩
    · rw [keysOf_append]
      exact hw.strs.push ArrayKey.string_injective hk (by simp)
    · rw [keysOf_append]
      exact hw.ints.concat_string key

theorem setIndexedStr_exact {h : HashStorage P} (hw : h.Wf) (he : h.Exact) (key : String)
    (val : Value P) : (h.setIndexedStr key val).Exact := by
  obtain ⟨i, -, hr⟩ | ⟨-, hr⟩ := setIndexedStr_cases hw key val <;> rw [hr]
  · simpa [Exact] using he
  · rw [Exact, keysOf_append]
    exact he.append _

/-- The keys before a removed position keep their places, and no other key stands there. -/
theorem getElem?_take_of_not_mem {keys : List ArrayKey} (hdrop : x ∉ keys.drop (p + 1))
    (hp : keys[p]? ≠ some x) (i : Nat) : keys[i]? = some x ↔ (keys.take p)[i]? = some x := by
  rw [List.getElem?_take]
  constructor
  · intro hi
    rw [if_pos]
    · exact hi
    · by_contra hlt
      rcases Nat.eq_or_lt_of_le (Nat.not_lt.1 hlt) with rfl | hlt
      · exact hp hi
      · refine hdrop (List.mem_iff_getElem?.2 ⟨i - (p + 1), ?_⟩)
        rw [List.getElem?_drop, show p + 1 + (i - (p + 1)) = i by omega, hi]
  · intro hi
    split at hi
    · exact hi
    · cases hi

theorem removeAt_strs {h : HashStorage P} (hw : h.Wf) (hp : p < h.entries.length) :
    IndexesBy id .string (h.removeAt p).strIndex (keysOf (h.entries.eraseIdx p)) := by
  have hsplit : h.entries.eraseIdx p =
      (h.entries.eraseIdx p).take p ++ (h.entries.eraseIdx p).drop p :=
    (List.take_append_drop p _).symm
  have hlen : ((h.entries.eraseIdx p).take p).length = p := by
    rw [List.length_take, List.length_eraseIdx_of_lt hp]
    omega
  have htake : keysOf ((h.entries.eraseIdx p).take p) = (keysOf h.entries).take p := by
    rw [keysOf, List.map_take, ← keysOf, keysOf_eraseIdx, List.eraseIdx_eq_take_drop_succ,
      List.take_append_of_le_length (by simp; omega), List.take_take, Nat.min_self]
  have hdrop : keysOf ((h.entries.eraseIdx p).drop p) = (keysOf h.entries).drop (p + 1) := by
    rw [keysOf, List.map_drop, ← keysOf, keysOf_eraseIdx, List.eraseIdx_eq_take_drop_succ,
      List.drop_append_of_le_length (by simp; omega), List.drop_take]
    simp
  have hnd : (keysOf (h.entries.eraseIdx p)).Nodup := by
    rw [keysOf_eraseIdx]
    exact hw.nodup.sublist (List.eraseIdx_sublist _ _)
  have key : ∀ m : AList fun _ : String => Nat,
      (∀ k, ArrayKey.string k ∉ keysOf ((h.entries.eraseIdx p).drop p) → ∀ i,
        (m.lookup k).map id = some i ↔
          (keysOf ((h.entries.eraseIdx p).take p))[i]? = some (.string k)) →
      IndexesBy id .string (reindexStringEntries (h.entries.eraseIdx p) m p)
        (keysOf (h.entries.eraseIdx p)) := by
    intro m hm
    have hindexed := IndexesBy.reindex ((h.entries.eraseIdx p).take p)
      ((h.entries.eraseIdx p).drop p) (strEntry_enters _) (le_refl _) ArrayKey.string_injective
      (hsplit ▸ hnd) hm
    rw [hlen, ← hsplit] at hindexed
    exact hindexed
  apply key
  intro k hk i
  rw [hdrop] at hk
  rw [htake, ← keysOf_getElem?]
  have hs := hw.strs k i
  by_cases hrem : (keysOf h.entries)[p]? = some (.string k)
  · have hne : ((keysOf h.entries).take p)[i]? ≠ some (.string k) := by
      rw [List.getElem?_take]
      split
      · intro hi
        have h1 := (idxOf?_eq_some_of_nodup hw.nodup).2 hi
        have h2 := (idxOf?_eq_some_of_nodup hw.nodup).2 hrem
        rw [h1] at h2
        cases h2
        omega
      · simp
    simp [hrem, hne]
  · rw [← getElem?_take_of_not_mem hk hrem, ← hs]
    rcases hkp : (keysOf h.entries)[p]? with _ | _ | s
    · rfl
    · rfl
    · have hks : k ≠ s := fun hks => hrem (hks ▸ hkp)
      simp [hks]

theorem removeAt_wf {h : HashStorage P} (hw : h.Wf) (hf : Fits h.entries)
    (hp : p < h.entries.length) : (h.removeAt p).Wf ∧ (h.removeAt p).Exact := by
  have hnd : (keysOf (h.entries.eraseIdx p)).Nodup := by
    rw [keysOf_eraseIdx]
    exact hw.nodup.sublist (List.eraseIdx_sublist _ _)
  have hfit : Fits (h.entries.eraseIdx p) := by
    unfold Fits at *
    rw [List.length_eraseIdx_of_lt hp]
    omega
  obtain ⟨hints, hexact⟩ := rebuildIntIndex_spec hfit hnd
  exact ⟨⟨hnd, removeAt_strs hw hp, hints⟩, hexact⟩

theorem popKey_wf {h : HashStorage P} (hw : h.Wf) (hl : h.entries = init ++ [(key, v)]) :
    (h.popKey key).Wf ∧ (h.Exact → (h.popKey key).Exact) := by
  obtain ⟨hnd, hstrs, hints⟩ := hw
  rw [hl, keysOf_append, keysOf_singleton] at hnd hstrs hints
  simp only at hnd hstrs hints
  have hnd' : (keysOf init).Nodup := (List.nodup_append.1 hnd).1
  cases key with
  | string key =>
    simp only [popKey, Exact, hl, List.dropLast_concat, keysOf_append, keysOf_singleton]
    refine ⟨⟨hnd', hstrs.pop hnd ArrayKey.string_injective, hints.init_string⟩, fun ha => ?_⟩
    by_cases hn : h.verifiedIntPrefix = 0
    · exact .of_lt (by omega)
    · exact ha.init (le_refl _) (hints.init_string.intKeysFirst hn).le_length
  | int key =>
    have hs' : IndexesBy id .string h.strIndex (keysOf init) := hstrs.pop_other (by simp)
    simp only [popKey, Exact]
    split
    · rename_i hn
      rw [hn, hl] at hints
      have hlen : (init ++ [(ArrayKey.int key, v)]).length = (keysOf init).length + 1 := by simp
      rw [hlen] at hints
      obtain ⟨hi, ha⟩ := hints.init_prefix
      rw [keysOf_length] at hi ha
      simp only [hl, List.dropLast_concat, List.length_append, List.length_singleton,
        Nat.add_sub_cancel]
      exact ⟨⟨hnd', hs', hi⟩, fun _ => ha⟩
    · rename_i hn
      have h0 : h.verifiedIntPrefix = 0 := by
        by_contra h0
        have hfirst := hints.intKeysFirst h0
        have hle := hfirst.le_length
        have hlt := (hfirst (keysOf init).length).1 ⟨key, by simp⟩
        simp only [List.length_append, List.length_singleton, hl, keysOf_length] at hle hlt hn
        omega
      rw [IntIndexed, if_pos h0] at hints
      simp only [hl, List.dropLast_concat, h0]
      refine ⟨⟨hnd', hs', ?_⟩, fun _ => .of_lt (by omega)⟩
      rw [IntIndexed, if_pos rfl]
      exact hints.pop hnd ArrayKey.int_injective

end HashStorage

/-- The integer in the entry a word of the index points to. -/
def longAt (entries : List (Entry P)) (i : Nat) : Option I64 :=
  entries[i]?.bind fun entry => entry.2.asLong

/-- Every integer copied into the index is the one its entry holds. -/
def CacheFresh (intIndex : IntIndex) (entries : List (Entry P)) : Prop :=
  ∀ k w n, intIndex.lookup k = some w → w.cachedLong = some n → longAt entries w.position = some n

theorem CacheFresh.empty (entries : List (Entry P)) : CacheFresh ∅ entries := by
  intro k w n h
  simp at h

theorem materializeIntIndex_fresh {entries : List (Entry P)} (hf : Fits entries) :
    CacheFresh (materializeIntIndex entries) entries := by
  intro k w n hl hc
  rcases indexEntries_lookup hl with hm | ⟨i, ⟨key, value⟩, he, hw⟩
  · simp at hm
  · have hi : i < IntIndexValue.cachedLongBit :=
      (List.getElem?_eq_some_iff.1 he).1.trans hf.lt_cachedLongBit
    rw [Nat.zero_add] at hw
    cases key with
    | string s => cases hw
    | int key =>
      cases hw
      rw [longAt, IntIndexValue.position_new hi, he]
      exact IntIndexValue.cachedLong_new hi value hc

theorem rebuildIntIndex_fresh {entries : List (Entry P)} (hf : Fits entries) :
    CacheFresh (rebuildIntIndex entries).1 entries := by
  unfold rebuildIntIndex
  split
  · exact .empty entries
  · exact materializeIntIndex_fresh hf

/-- Words that were fresh stay so while their entries keep their integers. -/
theorem CacheFresh.mono (h : CacheFresh intIndex entries)
    (hsub : ∀ k w, intIndex'.lookup k = some w →
      intIndex.lookup k = some w ∧ longAt entries' w.position = longAt entries w.position) :
    CacheFresh intIndex' entries' := by
  intro k w n hl hc
  obtain ⟨hl', heq⟩ := hsub k w hl
  rw [heq]
  exact h k w n hl' hc

/-- A write that refreshes its own word. -/
theorem CacheFresh.insert (h : CacheFresh intIndex entries)
    (hi : i < IntIndexValue.cachedLongBit) (hnew : entries'[i]? = some (.int key, val))
    (hsame : ∀ k w, k ≠ key → intIndex.lookup k = some w →
      longAt entries' w.position = longAt entries w.position) :
    CacheFresh (intIndex.insert key (.new i val)) entries' := by
  intro k w n hl hc
  rw [lookup_insert_eq] at hl
  split at hl
  · cases hl
    rw [longAt, IntIndexValue.position_new hi, hnew]
    exact IntIndexValue.cachedLong_new hi val hc
  · rename_i hk
    rw [hsame k w hk hl]
    exact h k w n hl hc

theorem longAt_setValue_ne (entries : List (Entry P)) (val : Value P) (h : i ≠ j) :
    longAt (setValue entries i val) j = longAt entries j := by
  rw [longAt, setValue_getElem?, if_neg h, longAt]

theorem longAt_append {entries : List (Entry P)} (l : List (Entry P)) (h : i < entries.length) :
    longAt (entries ++ l) i = longAt entries i := by
  rw [longAt, List.getElem?_append_left h, longAt]

namespace HashStorage

/-- A word of the index points to the entry of its key. -/
theorem Wf.indexed {h : HashStorage P} (hw : h.Wf) (hl : h.intIndex.lookup k = some w) :
    (keysOf h.entries)[w.position]? = some (.int k) := by
  have hi := hw.ints
  unfold IntIndexed at hi
  split at hi
  · exact (hi k _).1 (by rw [hl]; rfl)
  · rw [hi.1] at hl
    simp at hl

theorem indexForWrite_fresh {h : HashStorage P} (hf : Fits h.entries)
    (hc : CacheFresh h.intIndex h.entries) : CacheFresh h.indexForWrite h.entries := by
  unfold indexForWrite
  split
  · exact materializeIntIndex_fresh hf
  · exact hc

theorem setIndexedInt_fresh {h : HashStorage P} (hw : h.Wf) (hf : Fits h.entries)
    (hc : CacheFresh h.intIndex h.entries) (next key : I64) (val : Value P) :
    CacheFresh (h.setIndexedInt next key val).1.intIndex
      (h.setIndexedInt next key val).1.entries := by
  have hidx := indexForWrite_indexes hw hf
  have hword : ∀ k w, h.indexForWrite.lookup k = some w →
      (keysOf h.entries)[w.position]? = some (.int k) := fun k w hl =>
    (hidx k _).1 (by rw [hl]; rfl)
  have hlen := keysOf_length h.entries
  obtain ⟨i, -, hn, hr⟩ | ⟨he, hr⟩ | ⟨w, hl, hk, hr⟩ | ⟨hk, hl, hr⟩ :=
    setIndexedInt_cases hw hf next key val <;> rw [hr]
  · have hi := hw.ints
    rw [IntIndexed, if_neg hn] at hi
    rw [hi.1]
    exact .empty _
  · rw [(extendsVerifiedPrefix_spec hw he).2.1]
    exact .empty _
  · have hlt := (List.getElem?_eq_some_iff.1 hk).1
    refine (indexForWrite_fresh hf hc).insert ?_ ?_ fun k w' hne hl' => ?_
    · have := hf.lt_cachedLongBit
      omega
    · rw [keysOf_getElem?] at hk
      obtain ⟨e, he, hek⟩ := Option.map_eq_some_iff.1 hk
      rw [setValue_getElem?, if_pos rfl, he, Option.map_some, hek]
    · refine longAt_setValue_ne _ _ fun heq => hne ?_
      have := hword k w' hl'
      rw [← heq, hk] at this
      cases this
      rfl
  · refine (indexForWrite_fresh hf hc).insert hf.lt_cachedLongBit (by simp) fun k w' _ hl' => ?_
    refine longAt_append _ ?_
    rw [← hlen]
    exact (List.getElem?_eq_some_iff.1 (hword k w' hl')).1

theorem setIndexedStr_fresh {h : HashStorage P} (hw : h.Wf)
    (hc : CacheFresh h.intIndex h.entries) (key : String) (val : Value P) :
    CacheFresh (h.setIndexedStr key val).intIndex (h.setIndexedStr key val).entries := by
  have hlen := keysOf_length h.entries
  obtain ⟨i, hk, hr⟩ | ⟨hk, hr⟩ := setIndexedStr_cases hw key val <;> rw [hr]
  · refine hc.mono fun k w hl => ⟨hl, longAt_setValue_ne _ _ fun heq => ?_⟩
    have := hw.indexed hl
    rw [← heq, hk] at this
    cases this
  · refine hc.mono fun k w hl => ⟨hl, longAt_append _ ?_⟩
    rw [← hlen]
    exact (List.getElem?_eq_some_iff.1 (hw.indexed hl)).1

theorem popKey_fresh {h : HashStorage P} (hw : h.Wf) (hc : CacheFresh h.intIndex h.entries)
    (hl : h.entries = init ++ [(key, v)]) :
    CacheFresh (h.popKey key).intIndex (h.popKey key).entries := by
  have hsame : ∀ k w, h.intIndex.lookup k = some w → key ≠ .int k →
      longAt init w.position = longAt h.entries w.position := by
    intro k w hlk hne
    have hk := hw.indexed hlk
    rw [hl, keysOf_append, keysOf_singleton] at hk
    rcases getElem?_concat_eq_some.1 hk with hk | ⟨-, hk⟩
    · rw [hl]
      refine (longAt_append _ ?_).symm
      rw [← keysOf_length init]
      exact (List.getElem?_eq_some_iff.1 hk).1
    · exact absurd hk hne
  cases key with
  | string key =>
    simp only [popKey, hl, List.dropLast_concat]
    rw [hl] at hsame hc
    exact hc.mono fun k w hlk => ⟨hlk, hsame k w hlk (by simp)⟩
  | int key =>
    simp only [popKey]
    split
    · rename_i hn
      have hi := hw.ints
      rw [IntIndexed, if_neg (by rw [hn, hl]; simp)] at hi
      rw [hi.1]
      exact .empty _
    · simp only [hl, List.dropLast_concat]
      rw [hl] at hsame hc
      refine hc.mono fun k w hlk => ?_
      rw [lookup_erase_eq] at hlk
      split at hlk
      · cases hlk
      · rename_i hne
        exact ⟨hlk, hsame k w hlk fun he => hne (ArrayKey.int_injective he).symm⟩

end HashStorage

end Rphp
