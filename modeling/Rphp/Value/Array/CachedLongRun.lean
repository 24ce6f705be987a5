import Rphp.Value.Array.CachedLong

namespace Rphp
open Rphp.Lib
set_option autoImplicit true

/-- An array with the two marks of its key-storage convention. -/
structure TaggedArray (P : Type u) where
  array : PhpArray P
  externalByteKeys : Bool
  utf8TextKeys : Bool

/-- The mutators of an array, with those that hand on a copy or a projection of it. -/
inductive ArrayMutation (P : Type u) where
  | ordinary (op : ArrayOp P)
  | getIntMut (key : I64) (val : Value P)
  | getStrMut (key : String) (val : Value P)
  | getKeyMut (key : ArrayKey) (val : Value P)
  | getKeyMutForReplacement (key : ArrayKey) (val : Value P)
  | replaceValueAt (position : Nat) (val : Value P)
  | setValueAt (position : Nat) (val : Value P)
  | assignDereferencedAt (position : Nat) (val : Value P)
  | argumentUnpackReferenceAt (position cell : Nat)
  | pushPackedLongChunk (values : List I64)
  | entries
  | projectValues (view : CellView P)
  | markExternalByteKeys
  | markUtf8TextKeys
  | promoteKeysToExternalStorage

namespace TaggedArray

def markExternalByteKeys (c : TaggedArray P) : TaggedArray P := { c with externalByteKeys := true }

def markUtf8TextKeys (c : TaggedArray P) : TaggedArray P := { c with utf8TextKeys := true }

/-- Keys that are bytes already stay as they are. -/
def promoteKeysToExternalStorage (c : TaggedArray P) : TaggedArray P :=
  if c.externalByteKeys then c
  else ⟨c.array.promoteKeysToExternalStorage, true, false⟩

/-- A projection starts without marks. -/
def mutate (c : TaggedArray P) : ArrayMutation P → TaggedArray P
  | .ordinary op => { c with array := op.apply c.array }
  | .getIntMut key val => { c with array := c.array.getIntMut key val }
  | .getStrMut key val => { c with array := c.array.getStrMut key val }
  | .getKeyMut key val => { c with array := c.array.getKeyMut key val }
  | .getKeyMutForReplacement key val =>
    { c with array := c.array.getKeyMutForReplacement key val }
  | .replaceValueAt position val => { c with array := (c.array.replaceValueAt position val).1 }
  | .setValueAt position val => { c with array := (c.array.setValueAt position val).1 }
  | .assignDereferencedAt position val =>
    { c with array := (c.array.assignDereferencedAt position val).1 }
  | .argumentUnpackReferenceAt position cell =>
    { c with array := (c.array.argumentUnpackReferenceAt position cell).1 }
  | .pushPackedLongChunk values => { c with array := (c.array.pushPackedLongChunk values).1 }
  | .entries => { c with array := c.array.transitionToHash }
  | .projectValues view => ⟨c.array.projectValues view, false, false⟩
  | .markExternalByteKeys => c.markExternalByteKeys
  | .markUtf8TextKeys => c.markUtf8TextKeys
  | .promoteKeysToExternalStorage => c.promoteKeysToExternalStorage

def addressable (c : TaggedArray P) : Option (TaggedArray P) :=
  if Fits c.array.iter then some c else none

theorem addressable_eq_some {c d : TaggedArray P} :
    c.addressable = some d ↔ Fits c.array.iter ∧ c = d := by
  unfold addressable
  split <;> simp_all

end TaggedArray

namespace ArrayMutation

def step (c : TaggedArray P) (m : ArrayMutation P) : Option (TaggedArray P) :=
  (c.mutate m).addressable

/-- Positional writes keep the integers that the index has copied, a negative first key does not
put the automatic key below existing ones, and an array that is rebuilt without string keys has
no negative automatic key. -/
def KeepsCached (c : TaggedArray P) : ArrayMutation P → Prop
  | .ordinary (.setInt key _) => key.val < 0 → c.array.Startable
  | .ordinary (.setStreamedInt key _) => key.val < 0 → c.array.Startable
  | .replaceValueAt position val => ∀ n ∈ c.array.cachedAt position, val = .long n
  | .setValueAt position val => ∀ n ∈ c.array.cachedAt position, val = .long n
  | .assignDereferencedAt position val => ∀ n ∈ c.array.cachedAt position, val = .long n
  | .argumentUnpackReferenceAt position _ => c.array.cachedAt position = []
  | .promoteKeysToExternalStorage =>
    c.externalByteKeys = false → c.array.hasStringKeys = true ∨ 0 ≤ c.array.nextIntKey.val
  | _ => True

instance (a : PhpArray P) : Decidable a.Startable :=
  decidable_of_iff
    (a.nextIntKey = .zero → a.intKeyInitialized = false → ∀ entry ∈ a.iter,
      (intEntry 0 entry).isNone = true) (by
      refine imp_congr_right fun _ => imp_congr_right fun _ => ⟨fun h k hk => ?_, fun h e he => ?_⟩
      · obtain ⟨e, he, hek⟩ := List.mem_map.1 hk
        have := h e he
        simp [intEntry, hek] at this
      · obtain ⟨key | key, value⟩ := e
        · exact absurd (List.mem_map_of_mem he) (h key)
        · rfl)

instance [DecidableEq P] (c : TaggedArray P) : (m : ArrayMutation P) → Decidable (m.KeepsCached c)
  | .ordinary op =>
    match op with
    | .setInt key _ => inferInstanceAs (Decidable (key.val < 0 → c.array.Startable))
    | .setStreamedInt key _ => inferInstanceAs (Decidable (key.val < 0 → c.array.Startable))
    | .tryPush _ => .isTrue trivial
    | .setStr _ _ => .isTrue trivial
    | .setOwnedStr _ _ => .isTrue trivial
    | .setStreamedOwnedStr _ _ => .isTrue trivial
    | .takeWithPosition _ => .isTrue trivial
    | .pop => .isTrue trivial
    | .shift => .isTrue trivial
    | .clone _ => .isTrue trivial
    | .getStr _ => .isTrue trivial
  | .replaceValueAt i val => inferInstanceAs (Decidable (∀ n ∈ c.array.cachedAt i, val = .long n))
  | .setValueAt i val => inferInstanceAs (Decidable (∀ n ∈ c.array.cachedAt i, val = .long n))
  | .assignDereferencedAt i val => inferInstanceAs (Decidable (∀ n ∈ c.array.cachedAt i, val = .long n))
  | .argumentUnpackReferenceAt i _ => inferInstanceAs (Decidable (c.array.cachedAt i = []))
  | .promoteKeysToExternalStorage =>
    inferInstanceAs (Decidable (c.externalByteKeys = false →
      c.array.hasStringKeys = true ∨ 0 ≤ c.array.nextIntKey.val))
  | .getIntMut _ _ => .isTrue trivial
  | .getStrMut _ _ => .isTrue trivial
  | .getKeyMut _ _ => .isTrue trivial
  | .getKeyMutForReplacement _ _ => .isTrue trivial
  | .pushPackedLongChunk _ => .isTrue trivial
  | .entries => .isTrue trivial
  | .projectValues _ => .isTrue trivial
  | .markExternalByteKeys => .isTrue trivial
  | .markUtf8TextKeys => .isTrue trivial

theorem op_cached {c : TaggedArray P} (h : c.array.Cached) (op : ArrayOp P)
    (hok : (ArrayMutation.ordinary op).KeepsCached c) (hf : Fits (op.apply c.array).iter) :
    (op.apply c.array).Cached := by
  cases op with
  | tryPush val => exact PhpArray.tryPush_cached h val hf
  | setInt key val => exact PhpArray.setInt_cached h hok val hf
  | setStr key val => exact PhpArray.setStr_cached h key val hf
  | setOwnedStr key val => exact PhpArray.setStr_cached h key val hf
  | setStreamedInt key val =>
    obtain ⟨hsame, hp⟩ := PhpArray.promoteStreamed_same h.wf.storage h.fits (.int key)
    refine PhpArray.setInt_cached (hsame.cached h hp) (fun hneg => ?_) val hf
    have := hok hneg
    unfold PhpArray.Startable at *
    rwa [hsame.next, hsame.initialized, hsame.iter]
  | setStreamedOwnedStr key val =>
    obtain ⟨hsame, hp⟩ := PhpArray.promoteStreamed_same h.wf.storage h.fits (.string key)
    exact PhpArray.setStr_cached (hsame.cached h hp) key val hf
  | takeWithPosition key => exact PhpArray.takeWithPosition_cached h key
  | pop => exact PhpArray.pop_cached h
  | shift => exact PhpArray.shift_cached h
  | clone view => exact PhpArray.clone_cached h view
  | getStr key => exact PhpArray.afterGetStr_cached h

theorem replaceValueAt_cached {a : PhpArray P} (h : a.Cached)
    (hok : ∀ n ∈ a.cachedAt i, val = .long n) : (a.replaceValueAt i val).1.Cached := by
  unfold PhpArray.replaceValueAt
  split
  · exact PhpArray.writeSlot_cached h i val fun _ => hok
  · exact h

/-- One mutation keeps every cached integer current. -/
theorem mutate_cached {c : TaggedArray P} (h : c.array.Cached) (m : ArrayMutation P)
    (hok : m.KeepsCached c) (hf : Fits (c.mutate m).array.iter) : (c.mutate m).array.Cached := by
  cases m with
  | ordinary op => exact op_cached h op hok hf
  | getIntMut key val => exact PhpArray.getIntMut_cached h key val
  | getStrMut key val => exact PhpArray.getStrMut_cached h key val
  | getKeyMut key val => exact PhpArray.getKeyMut_cached h key val
  | getKeyMutForReplacement key val => exact PhpArray.getKeyMut_cached h key val
  | replaceValueAt i val => exact replaceValueAt_cached h hok
  | setValueAt i val => exact replaceValueAt_cached h hok
  | assignDereferencedAt i val =>
    simp only [TaggedArray.mutate, PhpArray.assignDereferencedAt]
    split
    · split
      · exact h
      · exact PhpArray.writeSlot_cached h i val fun _ => hok
    · exact h
  | argumentUnpackReferenceAt i cell =>
    have hnone : c.array.cachedAt i = [] := hok
    simp only [TaggedArray.mutate, PhpArray.argumentUnpackReferenceAt]
    split
    · split
      · exact h
      · exact PhpArray.writeSlot_cached h i _ fun _ n hn => by simp [hnone] at hn
    · exact h
  | pushPackedLongChunk values => exact PhpArray.pushPackedLongChunk_cached h values hf
  | entries =>
    exact (PhpArray.transitionToHash_same h.wf.storage h.fits).cached h fun values hv =>
      absurd hv (PhpArray.transitionToHash_not_packed c.array values)
  | projectValues view => exact PhpArray.projectValues_cached h view
  | markExternalByteKeys => exact h
  | markUtf8TextKeys => exact h
  | promoteKeysToExternalStorage =>
    simp only [TaggedArray.mutate, TaggedArray.promoteKeysToExternalStorage]
    split
    · exact h
    · rename_i hkeys
      exact PhpArray.promoteKeys_cached h (hok (by simpa using hkeys))

/-- An array as a constructor makes it. -/
inductive Constructed : PhpArray P → Prop where
  | make (c : ArrayConstructor) : Constructed c.make
  | packedFromValues (values : List (Value P)) (hf : Fits values) :
    Constructed (PhpArray.packedFromValues values)

theorem constructed_cached {a : PhpArray P} (h : Constructed a) : a.Cached := by
  cases h with
  | make c =>
    have hs := PhpArray.make_refines (P := P) c
    exact ⟨hs.wf, (PhpArray.make_empty c).2, hs.fits⟩
  | packedFromValues values hf =>
    refine PhpArray.packed_cached rfl ?_ ?_
    · unfold Fits at *
      simpa [PhpArray.packedFromValues, PhpArray.iter] using hf
    · exact (hf.wrap_val (le_refl _)).ge

/-- In every run of mutations that keep cached integers, whatever a typed read returns is the
integer in the entry that the general read returns, and no word of the index is stale. -/
theorem run_typed_reads_current {start : TaggedArray P} (hs : Constructed start.array)
    (ms : List (ArrayMutation P)) (hok : Meets step (fun c m => m.KeepsCached c) start ms)
    (hr : run step start ms = some c) :
    (∀ k v, c.array.getIndexedLong k = some v → c.array.getInt k = some (.long v)) ∧
    (∀ k i v, c.array.getIndexedLongWithPosition k = some (i, v) →
      c.array.getInt k = some (.long v)) ∧
    (∀ context k v, c.array.nativeIndexedLongLookupContext = some context →
      PhpArray.nativeIndexedLongLookup context k = some v → c.array.getInt k = some (.long v)) ∧
    ∀ h k w v, c.array.storage = .hash h → h.intIndex.lookup k = some w → w.cachedLong = some v →
      h.entries[w.position]? = some (.int k, .long v) := by
  have hc : c.array.Cached := run_invariant (s := start) (t := c) (fun b m b' hb hm hst => by
    obtain ⟨hf, rfl⟩ := TaggedArray.addressable_eq_some.1 hst
    exact mutate_cached hb m hm hf) (constructed_cached hs) hok hr
  refine ⟨fun k v hv => ?_, fun k i v hv => PhpArray.getIndexedLongWithPosition_sound hc hv,
    fun context k v hctx hv => PhpArray.nativeIndexedLongLookup_sound hc hctx hv,
    fun h k w v hsto hl hcl => ?_⟩
  · rw [PhpArray.getIndexedLong_eq] at hv
    obtain ⟨⟨i, n⟩, hp, rfl⟩ := Option.map_eq_some_iff.1 hv
    exact PhpArray.getIndexedLongWithPosition_sound hc hp
  · have hw := hc.wf.storage
    have hfresh := hc.fresh
    rw [hsto] at hw hfresh
    have hk := hw.indexed hl
    rw [keysOf_getElem?] at hk
    obtain ⟨⟨key, value⟩, he, rfl⟩ := Option.map_eq_some_iff.1 hk
    have hlong := hfresh k w v hl hcl
    rw [longAt, he, Option.bind_some] at hlong
    have hval : value = .long v := by
      revert hlong
      cases value <;> simp [Value.asLong]
    rw [he, hval]

/-- Four irregular keys, whose integers the index copies. -/
def irregularKeys : List (ArrayMutation Unit) :=
  [.ordinary (.setInt ⟨5, by decide⟩ (.long ⟨1, by decide⟩)),
    .ordinary (.setInt ⟨3, by decide⟩ (.long ⟨2, by decide⟩)),
    .ordinary (.setInt ⟨9, by decide⟩ (.long ⟨4, by decide⟩)),
    .ordinary (.setInt ⟨1, by decide⟩ (.long ⟨7, by decide⟩))]

/-- After a write through a borrowed slot the position may be written directly too. -/
def borrowThenReplace : List (ArrayMutation Unit) :=
  irregularKeys ++ [.getIntMut ⟨5, by decide⟩ (.long .max), .replaceValueAt 0 (.long .zero)]

theorem run_typed_reads_current_borrow :
    (∃ c, run step ⟨.new, false, false⟩ borrowThenReplace = some c ∧
      c.array.getIndexedLong ⟨5, by decide⟩ = some .zero) ∧
    ∀ c, run step ⟨.new, false, false⟩ borrowThenReplace = some c →
      ∀ k v, c.array.getIndexedLong k = some v → c.array.getInt k = some (.long v) :=
  ⟨⟨_, rfl, rfl⟩, fun _ hr => (run_typed_reads_current (.make .new) borrowThenReplace
    (by decide) hr).1⟩

/-- A write by position leaves the copy in the index behind. -/
theorem getIndexedLong_stale_after_replaceValueAt :
    ∃ c, run step ⟨.new, false, false⟩
        (irregularKeys ++ [.replaceValueAt 0 (.long ⟨8, by decide⟩)]) = some c ∧
      c.array.getInt ⟨5, by decide⟩ = some (.long ⟨8, by decide⟩) ∧
      c.array.getIndexedLong ⟨5, by decide⟩ = some ⟨1, by decide⟩ := by
  refine ⟨_, rfl, rfl, ?_⟩
  decide +kernel

end ArrayMutation

end Rphp
