import Rphp.Value.Array.Removals
import Rphp.Value.Array.Refinement

namespace Rphp
open Rphp.Lib
set_option autoImplicit true

namespace PhpArray

/-! Writes through a borrowed slot: the value is what the slot holds when the borrow ends. -/

def getIntMut (a : PhpArray P) (key : I64) (val : Value P) : PhpArray P :=
  match a.storage with
  | .packed values =>
    match key.toUsize? with
    | some position => { a with storage := .packed (values.set position val) }
    | none => a
  | .smallHash entries =>
    match positionOf entries (.int key) with
    | some position => { a with storage := .smallHash (setValue entries position val) }
    | none => a
  | .linearHash linear =>
    match positionOf linear.entries (.int key) with
    | some position => { a with storage := .linearHash (linear.setAt position val) }
    | none => a
  | .hash hash =>
    match hash.intPosition key with
    | some position =>
      { a with
        storage := .hash { hash with
          entries := setValue hash.entries position val
          intIndex := modifyKey hash.intIndex key IntIndexValue.clearCachedLong } }
    | none => a

def getStrMut (a : PhpArray P) (key : String) (val : Value P) : PhpArray P :=
  match a.storage with
  | .packed _ => a
  | .smallHash entries =>
    match positionOf entries (.string key) with
    | some position => { a with storage := .smallHash (setValue entries position val) }
    | none => a
  | .linearHash linear =>
    match linear.findStr key with
    | some position => { a with storage := .linearHash (linear.afterFindStr.setAt position val) }
    | none => { a with storage := .linearHash linear.afterFindStr }
  | .hash hash =>
    match hash.strIndex.lookup key with
    | some position =>
      { a with storage := .hash { hash with entries := setValue hash.entries position val } }
    | none => a

def getKeyMut (a : PhpArray P) (key : ArrayKey) (val : Value P) : PhpArray P :=
  match key with
  | .int key => a.getIntMut key val
  | .string key => a.getStrMut key val

def getKeyMutForReplacement (a : PhpArray P) (key : ArrayKey) (val : Value P) : PhpArray P :=
  a.getKeyMut key val

/-! Writes by position. -/

/-- Overwrite the slot at a position and nothing else; no index is looked at. -/
def writeSlot (a : PhpArray P) (position : Nat) (val : Value P) : PhpArray P :=
  match a.storage with
  | .packed values => { a with storage := .packed (values.set position val) }
  | .smallHash entries => { a with storage := .smallHash (setValue entries position val) }
  | .linearHash linear => { a with storage := .linearHash (linear.setAt position val) }
  | .hash hash =>
    { a with storage := .hash { hash with entries := setValue hash.entries position val } }

def replaceValueAt (a : PhpArray P) (position : Nat) (val : Value P) :
    PhpArray P × Option (Value P) :=
  match a.iter[position]? with
  | some entry => (a.writeSlot position val, some entry.2)
  | none => (a, none)

def setValueAt (a : PhpArray P) (position : Nat) (val : Value P) : PhpArray P × Bool :=
  ((a.replaceValueAt position val).1, (a.replaceValueAt position val).2.isSome)

/-- A reference is written through: its cell changes and the slot does not. -/
def assignDereferencedAt (a : PhpArray P) (position : Nat) (val : Value P) : PhpArray P × Bool :=
  match a.iter[position]? with
  | some entry => (if entry.2.isReference then a else a.writeSlot position val, true)
  | none => (a, false)

/-- The slot becomes a reference to the given new cell unless it is a reference already. -/
def argumentUnpackReferenceAt (a : PhpArray P) (position cell : Nat) :
    PhpArray P × Option (Value P) :=
  match a.iter[position]? with
  | some entry =>
    if entry.2.isReference then (a, some entry.2)
    else (a.writeSlot position (.reference true cell), some (.reference true cell))
  | none => (a, none)

/-! Other ways to a new array. -/

def pushPackedLongChunk (a : PhpArray P) (values : List I64) : PhpArray P × Bool :=
  match a.storage with
  | .packed packed =>
    if I64.ofNat? packed.length = some a.nextIntKey then
      match (I64.ofNat? values.length).bind a.nextIntKey.checkedAdd with
      | some next =>
        ({ a with storage := .packed (packed ++ values.map .long), nextIntKey := next }, true)
      | none => (a, false)
    else (a, false)
  | _ => (a, false)

def packedFromValues (values : List (Value P)) : PhpArray P :=
  ⟨.packed values, I64.wrap values.length, !values.isEmpty⟩

def projectValues (a : PhpArray P) (view : CellView P) : PhpArray P :=
  ⟨.packed (a.iter.map fun entry => entry.2.cloneForArrayCow view), I64.wrap a.iter.length, false⟩

def set (a : PhpArray P) (key : ArrayKey) (val : Value P) : PhpArray P :=
  match key with
  | .int key => a.setInt key val
  | .string key => a.setStr key val

def hasStringKeys (a : PhpArray P) : Bool :=
  match a.storage with
  | .packed _ => false
  | .smallHash entries => entries.any fun entry => (strEntry 0 entry).isSome
  | .linearHash linear => linear.entries.any fun entry => (strEntry 0 entry).isSome
  | .hash hash => !hash.strIndex.entries.isEmpty

/-- One character for each byte of the text. -/
def phpByteString (text : String) : String :=
  String.ofList (text.toUTF8.toList.map fun byte => Char.ofNat byte.toNat)

def normalizeKeyForExternalStorage : ArrayKey → ArrayKey
  | .int key => .int key
  | .string key => .string (phpByteString key)

/-- Rebuild the array under byte-string keys; reference cells are kept as they are. -/
def promoteKeysToExternalStorage (a : PhpArray P) : PhpArray P :=
  let fresh : PhpArray P :=
    if a.hasStringKeys then withDeferredHashCapacity a.iter.length
    else withPackedCapacity a.iter.length
  let rebuilt := a.iter.foldl (fun r entry => r.set (normalizeKeyForExternalStorage entry.1) entry.2)
    fresh
  { rebuilt with
    nextIntKey := a.nextIntKey
    intKeyInitialized := a.intKeyInitialized || rebuilt.intKeyInitialized }

/-! Typed reads. -/

def getIndexedLongWithPosition (a : PhpArray P) (key : I64) : Option (Nat × I64) :=
  match a.storage with
  | .packed _ => none
  | .smallHash entries =>
    (positionOf entries (.int key)).bind fun position =>
      (longAt entries position).map fun value => (position, value)
  | .linearHash linear =>
    (positionOf linear.entries (.int key)).bind fun position =>
      (longAt linear.entries position).map fun value => (position, value)
  | .hash hash =>
    (hash.intIndex.lookup key).bind fun indexed =>
      (indexed.cachedLong.or (longAt hash.entries indexed.position)).map fun value =>
        (indexed.position, value)

def getIndexedLong (a : PhpArray P) (key : I64) : Option I64 :=
  match a.storage with
  | .packed _ => none
  | .smallHash entries => (positionOf entries (.int key)).bind (longAt entries)
  | .linearHash linear => (positionOf linear.entries (.int key)).bind (longAt linear.entries)
  | .hash hash =>
    (hash.intIndex.lookup key).bind fun indexed =>
      indexed.cachedLong.or (longAt hash.entries indexed.position)

/-- The view of a materialised integer index that native code reads through. -/
structure NativeIndexedLongLookupContext (P : Type u) where
  intIndex : IntIndex
  entries : List (Entry P)

def nativeIndexedLongLookupContext (a : PhpArray P) : Option (NativeIndexedLongLookupContext P) :=
  match a.storage with
  | .hash hash =>
    if hash.verifiedIntPrefix = 0 ∧ hash.intIndex.entries ≠ [] then
      some ⟨hash.intIndex, hash.entries⟩
    else none
  | _ => none

def nativeIndexedLongLookup (context : NativeIndexedLongLookupContext P) (key : I64) :
    Option I64 :=
  (context.intIndex.lookup key).bind fun indexed =>
    match indexed.cachedLong with
    | some value => some value
    | none =>
      if context.entries.length ≤ indexed.position then none
      else longAt context.entries indexed.position

end PhpArray

namespace PhpArray

/-- Values are replaced under the same keys. -/
theorem wf_of_keys {a b : PhpArray P} (hw : a.Wf) (hs : b.storage.Wf)
    (hk : keysOf b.iter = keysOf a.iter) (hn : b.nextIntKey = a.nextIntKey)
    (hp : ∀ values, b.storage = .packed values →
      ∃ old, a.storage = .packed old ∧ old.length = values.length) : b.Wf where
  storage := hs
  below := by
    rw [hk, hn]
    exact hw.below
  packed := fun values hv => by
    obtain ⟨old, hold, hlen⟩ := hp values hv
    rw [hn, ← hlen]
    exact hw.packed old hold

theorem Fits.of_keys {l l' : List (Entry P)} (h : Fits l) (hk : keysOf l' = keysOf l) : Fits l' := by
  have := congrArg List.length hk
  simp only [keysOf_length] at this
  unfold Fits at *
  rwa [this]

/-- Values replaced in their slots: the keys, the counters and the prefix stay. -/
structure SameKeys (a b : PhpArray P) : Prop where
  storage : b.storage.Wf
  keys : keysOf b.iter = keysOf a.iter
  next : b.nextIntKey = a.nextIntKey
  packed : ∀ values, b.storage = .packed values →
    ∃ old, a.storage = .packed old ∧ old.length = values.length
  exact : a.storage.Exact → b.storage.Exact

theorem SameKeys.refl {a : PhpArray P} (hw : a.storage.Wf) : SameKeys a a :=
  ⟨hw, rfl, rfl, fun values hv => ⟨values, hv, rfl⟩, id⟩

theorem SameKeys.wf {a b : PhpArray P} (h : SameKeys a b) (hw : a.Wf) : b.Wf :=
  wf_of_keys hw h.storage h.keys h.next h.packed

theorem SameKeys.fits {a b : PhpArray P} (h : SameKeys a b) (hf : Fits a.iter) : Fits b.iter :=
  Fits.of_keys hf h.keys

theorem packedSlot_sameKeys {a b : PhpArray P} (ha : a.storage = .packed values)
    (hb : b = { a with storage := .packed (values.set i val) }) : SameKeys a b := by
  subst hb
  refine ⟨trivial, ?_, rfl, fun values' hv => ⟨values, ha, ?_⟩, fun _ => trivial⟩
  · simp only [iter, ha, packedEntries_set, keysOf_setValue]
  · cases hv
    simp

theorem smallSlot_sameKeys {a b : PhpArray P} (hw : a.storage.Wf) (ha : a.storage = .smallHash entries)
    (hb : b = { a with storage := .smallHash (setValue entries i val) }) : SameKeys a b := by
  subst hb
  rw [ha] at hw
  refine ⟨by simpa [ArrayStorage.Wf] using hw, ?_, rfl, by simp, fun _ => trivial⟩
  simp only [iter, ha, keysOf_setValue]

theorem linearSlot_sameKeys {a b : PhpArray P} (ha : a.storage = .linearHash linear)
    (hw : (ArrayStorage.linearHash linear').Wf) (he : linear'.entries = linear.entries)
    (hb : b = { a with storage := .linearHash (linear'.setAt i val) }) : SameKeys a b := by
  subst hb
  refine ⟨setAt_wf hw i val, ?_, rfl, by simp, fun _ => trivial⟩
  simp only [iter, ha, LinearHash.setAt, keysOf_setValue, he]

theorem hashSlot_sameKeys {a b : PhpArray P} (hw : a.storage.Wf) (ha : a.storage = .hash h)
    (hints : IntIndexed (keysOf h.entries) intIndex h.verifiedIntPrefix)
    (hb : b = { a with storage := .hash { h with
      entries := setValue h.entries i val
      intIndex } }) : SameKeys a b := by
  subst hb
  rw [ha] at hw
  refine ⟨⟨by simpa using hw.nodup, by simpa using hw.strs, by simpa using hints⟩, ?_, rfl, by simp,
    fun he => ?_⟩
  · simp only [iter, ha, keysOf_setValue]
  · rw [ha] at he
    simpa [ArrayStorage.Exact, HashStorage.Exact] using he

theorem writeSlot_sameKeys {a : PhpArray P} (hw : a.storage.Wf) (i : Nat) (val : Value P) :
    SameKeys a (a.writeSlot i val) := by
  unfold writeSlot
  split
  · rename_i hs
    exact packedSlot_sameKeys hs rfl
  · rename_i hs
    exact smallSlot_sameKeys hw hs rfl
  · rename_i hs
    exact linearSlot_sameKeys hs (hs ▸ hw) rfl rfl
  · rename_i h hs
    have hwh : h.Wf := by
      rw [hs] at hw
      exact hw
    exact hashSlot_sameKeys hw hs hwh.ints rfl

/-- Clearing the cached copy of one key moves nothing. -/
theorem IntIndexed.clearCachedLong {h : HashStorage P} (hw : h.Wf) (hf : Fits h.entries)
    (key : I64) :
    IntIndexed (keysOf h.entries) (modifyKey h.intIndex key IntIndexValue.clearCachedLong)
      h.verifiedIntPrefix := by
  have hints := hw.ints
  unfold IntIndexed at *
  split at hints
  · rename_i h0
    rw [if_pos h0]
    unfold modifyKey
    split
    · rename_i w hl
      refine hints.replace hl (IntIndexValue.position_clearCachedLong ?_)
      have := (List.getElem?_eq_some_iff.1 (hw.indexed hl)).1
      have := hf.lt_cachedLongBit
      rw [keysOf_length] at *
      omega
    · exact hints
  · rename_i h0
    rw [if_neg h0]
    refine ⟨?_, hints.2⟩
    rw [hints.1]
    simp [modifyKey]

theorem getIntMut_sameKeys {a : PhpArray P} (hw : a.storage.Wf) (hf : Fits a.iter) (key : I64)
    (val : Value P) : SameKeys a (a.getIntMut key val) := by
  unfold getIntMut
  split
  · rename_i hs
    split
    · exact packedSlot_sameKeys hs rfl
    · exact .refl hw
  · rename_i hs
    split
    · exact smallSlot_sameKeys hw hs rfl
    · exact .refl hw
  · rename_i hs
    split
    · exact linearSlot_sameKeys hs (hs ▸ hw) rfl rfl
    · exact .refl hw
  · rename_i h hs
    split
    · have hwh : h.Wf := by
        rw [hs] at hw
        exact hw
      have hfh : Fits h.entries := by simpa [iter, hs] using hf
      exact hashSlot_sameKeys hw hs (IntIndexed.clearCachedLong hwh hfh key) rfl
    · exact .refl hw

theorem getStrMut_sameKeys {a : PhpArray P} (hw : a.storage.Wf) (key : String) (val : Value P) :
    SameKeys a (a.getStrMut key val) := by
  have hread := afterGetStr_same hw
  unfold getStrMut
  split
  · exact .refl hw
  · rename_i hs
    split
    · exact smallSlot_sameKeys hw hs rfl
    · exact .refl hw
  · rename_i linear hs
    simp only [afterGetStr, hs] at hread
    have hentries : linear.afterFindStr.entries = linear.entries := by
      simpa [iter, hs] using hread.iter
    split
    · exact linearSlot_sameKeys hs hread.storage hentries rfl
    · exact ⟨hread.storage, congrArg keysOf hread.iter, rfl, by simp, fun _ => trivial⟩
  · rename_i h hs
    split
    · have hwh : h.Wf := by
        rw [hs] at hw
        exact hw
      exact hashSlot_sameKeys hw hs hwh.ints rfl
    · exact .refl hw

theorem getKeyMut_sameKeys {a : PhpArray P} (hw : a.storage.Wf) (hf : Fits a.iter) (key : ArrayKey)
    (val : Value P) : SameKeys a (a.getKeyMut key val) := by
  cases key with
  | int key => exact getIntMut_sameKeys hw hf key val
  | string key => exact getStrMut_sameKeys hw key val

end PhpArray

end Rphp
