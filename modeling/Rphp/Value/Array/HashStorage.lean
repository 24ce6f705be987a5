import Rphp.Value.Array.Storage

namespace Rphp
open Rphp.Lib
set_option autoImplicit true

/-- The general ordered map: entries with a string index and, for the integer keys, either an
index or the length of an arithmetic prefix. -/
structure HashStorage (P : Type u) where
  entries : List (Entry P)
  strIndex : StrIndex
  intIndex : IntIndex
  verifiedIntPrefix : Nat

def bumpNextIntKey (next key : I64) : I64 :=
  if next.val ≤ key.val then key.saturatingSucc else next

namespace HashStorage

def empty : HashStorage P := ⟨[], ∅, ∅, 0⟩

def extendsVerifiedPrefix (h : HashStorage P) (key : I64) : Bool :=
  h.verifiedIntPrefix = h.entries.length && h.intIndex.entries.isEmpty &&
    match h.verifiedIntPrefix with
    | 0 => h.entries.isEmpty
    | 1 => (intKeyAt h.entries 0).any fun first => first ≠ key
    | len =>
      match intKeyAt h.entries 0, intKeyAt h.entries 1 with
      | some first, some second =>
        ((second.checkedSub first).bind fun stride => expectedKey first stride len) = some key
      | _, _ => false

/-- The index that a write outside the prefix works on. -/
def indexForWrite (h : HashStorage P) : IntIndex :=
  if h.verifiedIntPrefix ≠ 0 then materializeIntIndex h.entries else h.intIndex

/-- The storage after the write, and the next automatic key. -/
def setIndexedInt (h : HashStorage P) (next key : I64) (val : Value P) : HashStorage P × I64 :=
  match verifiedIntPosition h.entries h.verifiedIntPrefix key with
  | some position => ({ h with entries := setValue h.entries position val }, next)
  | none =>
    if h.extendsVerifiedPrefix key then
      ({ h with
          entries := h.entries ++ [(.int key, val)]
          verifiedIntPrefix := h.verifiedIntPrefix + 1 }, bumpNextIntKey next key)
    else
      match h.indexForWrite.lookup key with
      | some indexed =>
        ({ h with
            entries := setValue h.entries indexed.position val
            intIndex := h.indexForWrite.insert key (.new indexed.position val)
            verifiedIntPrefix := 0 }, next)
      | none =>
        ({ h with
            entries := h.entries ++ [(.int key, val)]
            intIndex := h.indexForWrite.insert key (.new h.entries.length val)
            verifiedIntPrefix := 0 }, bumpNextIntKey next key)

def setIndexedStr (h : HashStorage P) (key : String) (val : Value P) : HashStorage P :=
  match h.strIndex.lookup key with
  | some position => { h with entries := setValue h.entries position val }
  | none =>
    { h with
      entries := h.entries ++ [(.string key, val)]
      strIndex := h.strIndex.insert key h.entries.length }

/-- The positional fast path of an integer read: the entry at the distance from the first key. -/
def positionalInt (h : HashStorage P) (key : I64) : Option (Value P) :=
  let position :=
    match intKeyAt h.entries 0 with
    | some first => (key.checkedSub first).bind I64.toUsize?
    | none => key.toUsize?
  position.bind fun position =>
    if intKeyAt h.entries position = some key then h.entries[position]?.map Prod.snd else none

def intPosition (h : HashStorage P) (key : I64) : Option Nat :=
  indexedIntPosition h.entries h.intIndex h.verifiedIntPrefix key

def getInt (h : HashStorage P) (key : I64) : Option (Value P) :=
  (h.positionalInt key).or ((h.intPosition key).bind fun position =>
    h.entries[position]?.map Prod.snd)

def getStr (h : HashStorage P) (key : String) : Option (Value P) :=
  (h.strIndex.lookup key).bind fun position => h.entries[position]?.map Prod.snd

def find (h : HashStorage P) : ArrayKey → Option Nat
  | .int key => h.intPosition key
  | .string key => h.strIndex.lookup key

def reindexStringEntries (entries : List (Entry P)) (strIndex : StrIndex) (start : Nat) : StrIndex :=
  indexEntries strEntry start strIndex (entries.drop start)

/-- Remove the entry at a position and repair both indexes behind it. -/
def removeAt (h : HashStorage P) (position : Nat) : HashStorage P :=
  let entries := h.entries.eraseIdx position
  let strIndex :=
    match h.entries[position]?.map Prod.fst with
    | some (.string key) => h.strIndex.erase key
    | _ => h.strIndex
  { entries
    strIndex := reindexStringEntries entries strIndex position
    intIndex := (rebuildIntIndex entries).1
    verifiedIntPrefix := (rebuildIntIndex entries).2 }

/-- Remove the last entry, whose key is given. -/
def popKey (h : HashStorage P) : ArrayKey → HashStorage P
  | .int key =>
    if h.verifiedIntPrefix = h.entries.length then
      { h with
        entries := h.entries.dropLast
        verifiedIntPrefix := h.entries.length - 1 }
    else { h with entries := h.entries.dropLast, intIndex := h.intIndex.erase key }
  | .string key => { h with entries := h.entries.dropLast, strIndex := h.strIndex.erase key }

/-- Index the given entries from nothing. -/
def ofEntries (entries : List (Entry P)) : HashStorage P :=
  { entries
    strIndex := indexEntries strEntry 0 ∅ entries
    intIndex := (rebuildIntIndex entries).1
    verifiedIntPrefix := (rebuildIntIndex entries).2 }

structure Wf (h : HashStorage P) : Prop where
  nodup : (keysOf h.entries).Nodup
  strs : IndexesBy id .string h.strIndex (keysOf h.entries)
  ints : IntIndexed (keysOf h.entries) h.intIndex h.verifiedIntPrefix

/-- The arithmetic prefix, if there is one, can be followed. -/
def Exact (h : HashStorage P) : Prop := Arithmetic (keysOf h.entries) h.verifiedIntPrefix

/-- The write that the progression test lets through although the difference to the first key is
not representable. -/
def EntersUnrepresentable (h : HashStorage P) (key : I64) : Prop :=
  h.verifiedIntPrefix = 1 ∧ h.entries.length = 1 ∧
    ∃ first ∈ intKeyAt h.entries 0, key.checkedSub first = none

/-! Reads. -/

theorem positionalInt_eq_some {h : HashStorage P} (hv : h.positionalInt key = some v) :
    (.int key, v) ∈ h.entries := by
  obtain ⟨i, -, hv⟩ := Option.bind_eq_some_iff.1 hv
  split at hv
  · rename_i hk
    obtain ⟨⟨k, w⟩, he, rfl⟩ := Option.map_eq_some_iff.1 hv
    have hk := intKeyAt_eq_some.1 hk
    rw [keysOf_getElem?, he] at hk
    cases hk
    exact List.mem_of_getElem? he
  · cases hv

theorem getInt_eq {h : HashStorage P} (hw : h.Wf) (he : h.Exact) (key : I64) :
    h.getInt key = getKey h.entries (.int key) := by
  rw [getInt, intPosition, indexedIntPosition_eq hw.ints he hw.nodup]
  cases hp : h.positionalInt key with
  | none => rfl
  | some v => exact ((getKey_eq_some hw.nodup).2 (positionalInt_eq_some hp)).symm

theorem getStr_eq {h : HashStorage P} (hw : h.Wf) (key : String) :
    h.getStr key = getKey h.entries (.string key) := by
  have := hw.strs.position hw.nodup key
  rw [Option.map_id] at this
  rw [getStr, getKey, positionOf, ← this]
  rfl

theorem find_eq {h : HashStorage P} (hw : h.Wf) (he : h.Exact) (key : ArrayKey) :
    h.find key = positionOf h.entries key := by
  cases key with
  | int key => exact indexedIntPosition_eq hw.ints he hw.nodup key
  | string key =>
    have := hw.strs.position hw.nodup key
    rwa [Option.map_id] at this

/-- Without an exact prefix, a lookup may miss an integer key but never finds a wrong one. -/
theorem find_sound {h : HashStorage P} (hw : h.Wf) (hf : h.find key = some i) :
    (keysOf h.entries)[i]? = some key := by
  cases key with
  | int key =>
    rcases Option.or_eq_some_iff.1 hf with hf | ⟨-, hf⟩
    · exact (verifiedIntPosition_sound hf).2
    · have hi := hw.ints
      unfold IntIndexed at hi
      split at hi
      · exact (hi key i).1 hf
      · rw [hi.1] at hf
        simp at hf
  | string key => exact (hw.strs key i).1 (by simpa [find] using hf)

/-! Writes. -/

theorem indexForWrite_indexes {h : HashStorage P} (hw : h.Wf) (hf : Fits h.entries) :
    IndexesBy IntIndexValue.position .int h.indexForWrite (keysOf h.entries) := by
  unfold indexForWrite
  split
  · exact materializeIntIndex_indexes hf hw.nodup
  · rename_i h0
    have := hw.ints
    rwa [IntIndexed, if_pos (not_not.1 h0)] at this

/-- An extension of the prefix is by a new key, and the extended prefix can be followed unless
the write enters the unrepresentable state. -/
theorem extendsVerifiedPrefix_spec {h : HashStorage P} (hw : h.Wf)
    (he : h.extendsVerifiedPrefix key = true) :
    h.verifiedIntPrefix = h.entries.length ∧ h.intIndex = ∅ ∧ .int key ∉ keysOf h.entries ∧
      (Arithmetic (keysOf h.entries ++ [.int key]) (h.entries.length + 1) ∨
        h.EntersUnrepresentable key ∧
          Unrepresentable (keysOf h.entries ++ [.int key]) (h.entries.length + 1)) := by
  have hwn := hw.ints
  simp only [extendsVerifiedPrefix, Bool.and_eq_true, decide_eq_true_eq] at he
  obtain ⟨⟨hlen, hempty⟩, hm⟩ := he
  have hindex : h.intIndex = ∅ := AList.ext (by simpa using hempty)
  have hkl := keysOf_length h.entries
  refine ⟨hlen, hindex, ?_⟩
  rw [hlen] at hm hwn
  rcases hn : h.entries.length with _ | _ | n
  · rw [List.length_eq_zero_iff.1 hn]
    exact ⟨by simp [keysOf], .inl (.of_lt (by omega))⟩
  · rw [hn] at hm hkl
    cases hk : intKeyAt h.entries 0 with
    | none => simp [hk] at hm
    | some first =>
      have hne : first ≠ key := by simpa [hk] using hm
      obtain ⟨x, hx⟩ := List.length_eq_one_iff.1 hkl
      have h0 := intKeyAt_eq_some.1 hk
      rw [hx] at h0 ⊢
      cases h0
      refine ⟨by simpa using hne.symm, ?_⟩
      cases hs : key.checkedSub first with
      | none =>
        exact .inr ⟨⟨hlen.trans hn, hn, first, hk, hs⟩, rfl, first, key, rfl, rfl, hs⟩
      | some stride => exact .inl (.pair hne hs)
  · rw [hn] at hm hwn hkl
    rw [IntIndexed, if_neg (by omega)] at hwn
    obtain ⟨-, -, hwn⟩ := hwn
    cases h0 : intKeyAt h.entries 0 with
    | none => simp [h0] at hm
    | some first =>
      cases h1 : intKeyAt h.entries 1 with
      | none => simp [h0, h1] at hm
      | some second =>
        simp only [h0, h1, decide_eq_true_eq] at hm
        have h0 := intKeyAt_eq_some.1 h0
        have h1 := intKeyAt_eq_some.1 h1
        rcases hwn with ha | ⟨-, first', second', h0', h1', hsub⟩
        · obtain ⟨hmem, ha⟩ := ha.extend (by omega) hkl h0 h1 hm
          exact ⟨hmem, .inl ha⟩
        · rw [h0] at h0'
          rw [h1] at h1'
          cases h0'
          cases h1'
          simp [hsub] at hm

/-- Everything an integer write can do. -/
theorem setIndexedInt_cases {h : HashStorage P} (hw : h.Wf) (hf : Fits h.entries)
    (next key : I64) (val : Value P) :
    (∃ i, (keysOf h.entries)[i]? = some (.int key) ∧ h.verifiedIntPrefix ≠ 0 ∧
      h.setIndexedInt next key val = ({ h with entries := setValue h.entries i val }, next)) ∨
    (h.extendsVerifiedPrefix key = true ∧
      h.setIndexedInt next key val = ({ h with
        entries := h.entries ++ [(.int key, val)]
        verifiedIntPrefix := h.entries.length + 1 }, bumpNextIntKey next key)) ∨
    (∃ w, h.indexForWrite.lookup key = some w ∧
      (keysOf h.entries)[w.position]? = some (.int key) ∧
      h.setIndexedInt next key val = ({ h with
        entries := setValue h.entries w.position val
        intIndex := h.indexForWrite.insert key (.new w.position val)
        verifiedIntPrefix := 0 }, next)) ∨
    (.int key ∉ keysOf h.entries ∧ h.indexForWrite.lookup key = none ∧
      h.setIndexedInt next key val = ({ h with
        entries := h.entries ++ [(.int key, val)]
        intIndex := h.indexForWrite.insert key (.new h.entries.length val)
        verifiedIntPrefix := 0 }, bumpNextIntKey next key)) := by
  have hidx := indexForWrite_indexes hw hf
  unfold setIndexedInt
  cases hv : verifiedIntPosition h.entries h.verifiedIntPrefix key with
  | some i =>
    obtain ⟨hlt, hk⟩ := verifiedIntPosition_sound hv
    exact .inl ⟨i, hk, by omega, rfl⟩
  | none =>
    by_cases he : h.extendsVerifiedPrefix key = true
    · refine .inr (.inl ⟨he, ?_⟩)
      simp only [he, ↓reduceIte, (extendsVerifiedPrefix_spec hw he).1]
    · simp only [he]
      cases hl : h.indexForWrite.lookup key with
      | some w =>
        exact .inr (.inr (.inl ⟨w, rfl, (hidx key _).1 (by rw [hl]; rfl), rfl⟩))
      | none => exact .inr (.inr (.inr ⟨hidx.lookup_eq_none.1 hl, rfl, rfl⟩))

theorem setIndexedInt_entries {h : HashStorage P} (hw : h.Wf) (hf : Fits h.entries)
    (next key : I64) (val : Value P) :
    (h.setIndexedInt next key val).1.entries = putKey h.entries (.int key) val := by
  unfold putKey
  obtain ⟨i, hk, -, hr⟩ | ⟨he, hr⟩ | ⟨w, -, hk, hr⟩ | ⟨hk, -, hr⟩ :=
    setIndexedInt_cases hw hf next key val
  · simp only [hr, (positionOf_eq_some hw.nodup).2 hk]
  · simp only [hr, positionOf_eq_none.2 (extendsVerifiedPrefix_spec hw he).2.2.1]
  · simp only [hr, (positionOf_eq_some hw.nodup).2 hk]
  · simp only [hr, positionOf_eq_none.2 hk]

theorem setIndexedInt_next {h : HashStorage P} (hw : h.Wf) (hf : Fits h.entries)
    (next key : I64) (val : Value P) :
    (h.setIndexedInt next key val).2 =
      if .int key ∈ keysOf h.entries then next else bumpNextIntKey next key := by
  obtain ⟨i, hk, -, hr⟩ | ⟨he, hr⟩ | ⟨w, -, hk, hr⟩ | ⟨hk, -, hr⟩ :=
    setIndexedInt_cases hw hf next key val
  · rw [hr, if_pos (List.mem_of_getElem? hk)]
  · rw [hr, if_neg (extendsVerifiedPrefix_spec hw he).2.2.1]
  · rw [hr, if_pos (List.mem_of_getElem? hk)]
  · rw [hr, if_neg hk]

/-- Integer writes keep every index right, also in the unrepresentable state. -/
theorem setIndexedInt_wf {h : HashStorage P} (hw : h.Wf) (hf : Fits h.entries)
    (next key : I64) (val : Value P) : (h.setIndexedInt next key val).1.Wf := by
  have hnd := nodup_putKey hw.nodup (.int key) val
  rw [← setIndexedInt_entries hw hf next] at hnd
  have hidx := indexForWrite_indexes hw hf
  have hstr : ∀ v : Value P, IndexesBy id .string h.strIndex
      (keysOf (h.entries ++ [(ArrayKey.int key, v)])) := fun v => by
    rw [keysOf_append]
    exact hw.strs.push_other (by simp)
  obtain ⟨i, -, -, hr⟩ | ⟨he, hr⟩ | ⟨w, hl, hk, hr⟩ | ⟨hk, hl, hr⟩ :=
    setIndexedInt_cases hw hf next key val <;> rw [hr] at hnd ⊢
  · exact ⟨hnd, by simpa using hw.strs, by simpa using hw.ints⟩
  · obtain ⟨hlen, hempty, -, hext⟩ := extendsVerifiedPrefix_spec hw he
    have hfirst : IntKeysFirst (keysOf h.entries) (keysOf h.entries).length := by
      by_cases h0 : h.verifiedIntPrefix = 0
      · rw [h0] at hlen
        rw [List.length_eq_zero_iff.1 hlen.symm]
        intro i
        simp [keysOf]
      · have := hw.ints.intKeysFirst h0
        rwa [hlen, ← keysOf_length] at this
    refine ⟨hnd, hstr val, ?_⟩
    rw [IntIndexed, if_neg (by simp)]
    have hcat := hfirst.concat key
    rw [keysOf_length] at hcat
    simp only [keysOf_append, keysOf_singleton]
    refine ⟨hempty, hcat, ?_⟩
    rcases hext with ha | ⟨-, hu⟩
    · exact .inl ha
    · exact .inr hu
  · have hlt : w.position < IntIndexValue.cachedLongBit := by
      have := (List.getElem?_eq_some_iff.1 hk).1
      have := hf.lt_cachedLongBit
      rw [keysOf_length] at *
      omega
    refine ⟨hnd, by simpa using hw.strs, ?_⟩
    rw [IntIndexed, if_pos rfl, keysOf_setValue]
    exact hidx.replace hl (IntIndexValue.position_new hlt val)
  · refine ⟨hnd, hstr val, ?_⟩
    rw [IntIndexed, if_pos rfl, keysOf_append]
    refine hidx.push ArrayKey.int_injective hk ?_
    rw [IntIndexValue.position_new hf.lt_cachedLongBit, keysOf_length]

theorem setIndexedInt_exact {h : HashStorage P} (hw : h.Wf) (hf : Fits h.entries) (he : h.Exact)
    (hok : ¬ h.EntersUnrepresentable key) (next : I64) (val : Value P) :
    (h.setIndexedInt next key val).1.Exact := by
  obtain ⟨i, -, -, hr⟩ | ⟨hx, hr⟩ | ⟨w, -, -, hr⟩ | ⟨-, -, hr⟩ :=
    setIndexedInt_cases hw hf next key val <;> rw [hr]
  · simpa [Exact] using he
  · obtain ⟨-, -, -, ha | ⟨hu, -⟩⟩ := extendsVerifiedPrefix_spec hw hx
    · simpa [Exact] using ha
    · exact absurd hu hok
  · exact .of_lt (by simp)
  · exact .of_lt (by simp)

end HashStorage

end Rphp
