import Rphp.Value.Array.SlotWrites

namespace Rphp
open Rphp.Lib
set_option autoImplicit true

namespace PhpArray

/-- The integers that the index holds for the entry at a position. -/
def cachedAt (a : PhpArray P) (position : Nat) : List I64 :=
  match a.storage with
  | .hash hash => hash.intIndex.entries.filterMap fun word =>
    if word.2.position = position then word.2.cachedLong else none
  | _ => []

theorem mem_cachedAt {a : PhpArray P} {h : HashStorage P} (hs : a.storage = .hash h)
    (hl : h.intIndex.lookup k = some w) (hc : w.cachedLong = some n) :
    n ∈ a.cachedAt w.position := by
  have hm : (⟨k, w⟩ : Sigma fun _ => IntIndexValue) ∈ h.intIndex.entries := AList.mem_lookup_iff.1 hl
  simp only [cachedAt, hs, List.mem_filterMap]
  exact ⟨_, hm, by simp [hc]⟩

/-- The indexes are right, no cached integer is stale, and every position is addressable. -/
structure Cached (a : PhpArray P) : Prop where
  wf : a.Wf
  fresh : a.storage.Fresh
  fits : Fits a.iter

/-- A positional write is harmless if it leaves every cached integer of its entry as it is. -/
theorem writeSlot_cached {a : PhpArray P} (h : a.Cached) (i : Nat) (val : Value P)
    (hc : i < a.iter.length → ∀ n ∈ a.cachedAt i, val = .long n) : (a.writeSlot i val).Cached := by
  have hsame := writeSlot_sameKeys h.wf.storage i val
  refine ⟨hsame.wf h.wf, ?_, hsame.fits h.fits⟩
  cases hs : a.storage with
  | hash hash =>
    have hfresh := h.fresh
    rw [hs] at hfresh
    simp only [writeSlot, hs]
    intro k w n hl hcl
    by_cases hi : i = w.position
    · have hlong := hfresh k w n hl hcl
      obtain ⟨e, he, -⟩ := Option.bind_eq_some_iff.1 hlong
      have hlt : i < a.iter.length := by
        rw [hi, iter, hs]
        exact (List.getElem?_eq_some_iff.1 he).1
      have hval := hc hlt n (hi ▸ mem_cachedAt hs hl hcl)
      simp [longAt, hi, setValue_getElem?, he, hval, Value.asLong]
    · rw [longAt_setValue_ne _ _ hi]
      exact hfresh k w n hl hcl
  | packed values =>
    simp only [writeSlot, hs]
    trivial
  | smallHash entries =>
    simp only [writeSlot, hs]
    trivial
  | linearHash linear =>
    simp only [writeSlot, hs]
    trivial

theorem SameMap.cached {a b : PhpArray P} (h : SameMap a b) (ha : a.Cached)
    (hp : ∀ values, b.storage = .packed values → a.storage = .packed values) : b.Cached :=
  ⟨h.wf ha.wf hp, h.fresh ha.fresh, by rw [h.iter]; exact ha.fits⟩

/-- A write through a borrowed integer slot clears the cached copy first. -/
theorem getIntMut_fresh {h : HashStorage P} (hw : h.Wf) (hf : Fits h.entries)
    (hc : CacheFresh h.intIndex h.entries) (hi : h.intPosition key = some i) (val : Value P) :
    CacheFresh (modifyKey h.intIndex key IntIndexValue.clearCachedLong)
      (setValue h.entries i val) := by
  have hfind : h.find (.int key) = some i := hi
  have hk : (keysOf h.entries)[i]? = some (.int key) := HashStorage.find_sound hw hfind
  intro k w n hl hcl
  rw [lookup_modifyKey] at hl
  split at hl
  · obtain ⟨w', hl', rfl⟩ := Option.map_eq_some_iff.1 hl
    have hpos : w'.position < IntIndexValue.cachedLongBit := by
      have := (List.getElem?_eq_some_iff.1 (hw.indexed hl')).1
      have := hf.lt_cachedLongBit
      rw [keysOf_length] at *
      omega
    rw [IntIndexValue.cachedLong_clearCachedLong hpos] at hcl
    cases hcl
  · rename_i hne
    rw [longAt_setValue_ne]
    · exact hc k w n hl hcl
    · intro he
      have := hw.indexed hl
      rw [← he, hk] at this
      exact hne (ArrayKey.int_injective (Option.some.inj this)).symm

/-- Values replaced under the same keys, with nothing stale. -/
structure Rewritten (a b : PhpArray P) : Prop where
  storage : b.storage.Wf
  keys : keysOf b.iter = keysOf a.iter
  next : b.nextIntKey = a.nextIntKey
  packed : ∀ values, b.storage = .packed values →
    ∃ old, a.storage = .packed old ∧ old.length = values.length
  fresh : b.storage.Fresh

theorem SameKeys.rewritten {a b : PhpArray P} (h : SameKeys a b) (hf : b.storage.Fresh) :
    Rewritten a b :=
  ⟨h.storage, h.keys, h.next, h.packed, hf⟩

theorem Rewritten.cached {a b : PhpArray P} (h : Rewritten a b) (ha : a.Cached) : b.Cached :=
  ⟨wf_of_keys ha.wf h.storage h.keys h.next h.packed, h.fresh, Fits.of_keys ha.fits h.keys⟩

theorem getIntMut_cached {a : PhpArray P} (h : a.Cached) (key : I64) (val : Value P) :
    (a.getIntMut key val).Cached := by
  refine ((getIntMut_sameKeys h.wf.storage h.fits key val).rewritten ?_).cached h
  obtain ⟨hw, hfresh, hf⟩ := h
  have hw := hw.storage
  obtain ⟨values | entries | linear | h', next, init⟩ := a
  · simp only [getIntMut]
    split <;> trivial
  · simp only [getIntMut]
    split <;> trivial
  · simp only [getIntMut]
    split <;> trivial
  · simp only [getIntMut]
    split
    · rename_i i hi
      exact getIntMut_fresh hw hf hfresh hi val
    · exact hfresh

theorem getStrMut_cached {a : PhpArray P} (h : a.Cached) (key : String) (val : Value P) :
    (a.getStrMut key val).Cached := by
  refine ((getStrMut_sameKeys h.wf.storage key val).rewritten ?_).cached h
  obtain ⟨hw, hfresh, hf⟩ := h
  have hw := hw.storage
  obtain ⟨values | entries | linear | h', next, init⟩ := a
  · trivial
  · simp only [getStrMut]
    split <;> trivial
  · simp only [getStrMut]
    split <;> trivial
  · simp only [getStrMut]
    split
    · rename_i i hi
      have hk := (hw.strs key i).1 (by rw [hi]; rfl)
      intro k w n hl hcl
      rw [longAt_setValue_ne]
      · exact hfresh k w n hl hcl
      · intro he
        have := hw.indexed hl
        rw [← he, hk] at this
        cases this
    · exact hfresh

theorem getKeyMut_cached {a : PhpArray P} (h : a.Cached) (key : ArrayKey) (val : Value P) :
    (a.getKeyMut key val).Cached := by
  cases key with
  | int key => exact getIntMut_cached h key val
  | string key => exact getStrMut_cached h key val

theorem packed_cached {a : PhpArray P} (hs : a.storage = .packed values) (hf : Fits a.iter)
    (hlen : (values.length : Int) ≤ a.nextIntKey.val) : a.Cached :=
  ⟨packed_wf hs hf hlen, by rw [hs]; trivial, hf⟩

theorem pushPackedLongChunk_cached {a : PhpArray P} (h : a.Cached) (values : List I64)
    (hf : Fits (a.pushPackedLongChunk values).1.iter) : (a.pushPackedLongChunk values).1.Cached := by
  unfold pushPackedLongChunk at *
  split
  · rename_i packed hs
    split
    · rename_i hlen
      split
      · rename_i next hnext
        obtain ⟨count, hcount, hadd⟩ := Option.bind_eq_some_iff.1 hnext
        have h1 := I64.ofNat?_eq_some.1 hlen
        have h2 := I64.ofNat?_eq_some.1 hcount
        have h3 := I64.checkedAdd_eq_some.1 hadd
        simp only [hs, hlen, hnext, ↓reduceIte] at hf
        refine packed_cached rfl hf ?_
        simp only [List.length_append, List.length_map, Nat.cast_add]
        omega
      · exact h
    · exact h
  · exact h

theorem projectValues_cached {a : PhpArray P} (h : a.Cached) (view : CellView P) :
    (a.projectValues view).Cached := by
  refine packed_cached rfl ?_ ?_
  · have := h.fits
    unfold Fits at *
    simpa [projectValues, iter] using this
  · rw [List.length_map]
    exact (h.fits.wrap_val (le_refl _)).ge

end PhpArray

namespace PhpArray

theorem putKey_length_le (l : List (Entry P)) (key : ArrayKey) (val : Value P) :
    (putKey l key val).length ≤ l.length + 1 := by
  rw [← keysOf_length (putKey l key val), keysOf_putKey]
  split <;> simp

theorem setInt_length_le {a : PhpArray P} (hw : a.Wf) (hf : Fits a.iter) (key : I64)
    (val : Value P) : (a.setInt key val).iter.length ≤ a.iter.length + 1 := by
  rcases setInt_cases hw hf val with ⟨values, hs, -, hr⟩ | hwr
  · rw [hr]
    simp [iter, hs]
  · rw [hwr.iter, startIntKeys_iter]
    exact putKey_length_le _ _ _

theorem setInt_cached {a : PhpArray P} {key : I64} (h : a.Cached) (hst : key.val < 0 → a.Startable)
    (val : Value P) (hf : Fits (a.setInt key val).iter) : (a.setInt key val).Cached := by
  refine ⟨setInt_wf h.wf (startsAbove_of_startable hst) h.fits val hf, ?_, hf⟩
  rcases setInt_cases h.wf h.fits val with ⟨values, -, -, hr⟩ | hwr
  · rw [hr]
    trivial
  · refine hwr.fresh ?_
    rw [startIntKeys_storage]
    exact h.fresh

theorem setStr_cached {a : PhpArray P} (h : a.Cached) (key : String) (val : Value P)
    (hf : Fits (a.setStr key val).iter) : (a.setStr key val).Cached :=
  ⟨setStr_wf h.wf h.fits key val, (setStr_written h.wf.storage h.fits key val).fresh h.fresh, hf⟩

theorem tryPush_cached {a : PhpArray P} (h : a.Cached) (val : Value P)
    (hf : Fits (a.tryPush val).1.iter) : (a.tryPush val).1.Cached := by
  refine ⟨tryPush_wf h.wf h.fits val hf, ?_, hf⟩
  by_cases hc : a.canPush = true
  · rcases tryPush_cases h.wf h.fits hc val with ⟨values, -, hr⟩ | hwr
    · rw [hr]
      trivial
    · exact hwr.fresh h.fresh
  · rw [tryPush, if_neg hc]
    exact h.fresh

theorem takeWithPosition_cached {a : PhpArray P} (h : a.Cached) (key : ArrayKey) :
    (a.takeWithPosition key).1.Cached := by
  obtain ⟨entries, hholds, -, -, hs, -⟩ := takeWithPosition_spec h.wf.storage h.fits key
  refine ⟨takeWithPosition_wf h.wf h.fits key, hholds.fresh h.fresh, ?_⟩
  rw [hholds.iter]
  exact h.fits.sublist hs

theorem pop_cached {a : PhpArray P} (h : a.Cached) : a.pop.1.Cached := by
  rcases pop_spec h.wf.storage with ⟨-, hr⟩ | ⟨key, value, -, hholds, -⟩
  · rw [hr]
    exact h
  · refine ⟨pop_wf h.wf h.fits, hholds.fresh h.fresh, ?_⟩
    rw [hholds.iter]
    exact h.fits.sublist (List.dropLast_sublist _)

theorem shift_cached {a : PhpArray P} (h : a.Cached) : a.shift.1.Cached := by
  obtain ⟨hp, ⟨-, hsame⟩ | ⟨key, value, rest, hiter, hholds, -⟩⟩ := shift_spec h.wf.storage h.fits
  · exact hsame.cached h fun values hv => absurd hv (hp values)
  · refine ⟨shift_wf h.wf h.fits, hholds.fresh h.fresh, ?_⟩
    have hf := h.fits
    rw [hholds.iter]
    unfold Fits at *
    rw [hiter, List.length_cons] at hf
    rw [renumber_length]
    omega

theorem clone_cached {a : PhpArray P} (h : a.Cached) (view : CellView P) :
    (a.clone view).Cached := by
  obtain ⟨hholds, -⟩ := clone_spec h.wf.storage view
  refine ⟨clone_wf h.wf view, hholds.fresh h.fresh, Fits.of_keys h.fits ?_⟩
  rw [hholds.iter, keysOf_mapValues]

theorem afterGetStr_cached {a : PhpArray P} (h : a.Cached) : a.afterGetStr.Cached := by
  refine (afterGetStr_same h.wf.storage).cached h fun values hv => ?_
  unfold afterGetStr at hv
  split at hv
  · cases hv
  · exact hv

/-! Rebuilding under other keys. -/

/-- What the rebuilt array keeps while it takes over entries whose integer keys are known. -/
structure Rebuilding (known : List ArrayKey) (strings : Bool) (r : PhpArray P) : Prop where
  sound : r.Sound
  fresh : r.storage.Fresh
  ints : ∀ k, .int k ∈ keysOf r.iter → .int k ∈ known
  unpacked : strings = true → ∀ values, r.storage ≠ .packed values

theorem set_rebuilding {r : PhpArray P} {key : ArrayKey} (h : Rebuilding known strings r)
    (hkey : ∀ k, key = .int k → .int k ∈ known) (hlen : ((r.iter.length + 1 : Nat) : Int) ≤ i64Max)
    (val : Value P) : Rebuilding known strings (r.set key val) ∧
      (r.set key val).iter.length ≤ r.iter.length + 1 := by
  have hints : ∀ b : PhpArray P, b.iter = putKey r.iter key val →
      ∀ k, .int k ∈ keysOf b.iter → .int k ∈ known := by
    intro b hb k hk
    rw [hb, keysOf_putKey] at hk
    split at hk
    · exact h.ints k hk
    · rcases List.mem_append.1 hk with hk | hk
      · exact h.ints k hk
      · exact hkey k (List.mem_singleton.1 hk).symm
  cases key with
  | int key =>
    have hst : key.val < 0 → r.Startable := fun _ => h.sound.startable
    have hle := setInt_length_le h.sound.wf h.sound.fits key val
    have hf : Fits (r.setInt key val).iter := by
      unfold Fits
      omega
    obtain ⟨hsound, hiter⟩ := setInt_sound h.sound key val hf
    have hc := setInt_cached ⟨h.sound.wf, h.fresh, h.sound.fits⟩ hst val hf
    refine ⟨⟨hsound, hc.fresh, hints _ hiter, fun hs values hv => ?_⟩, hle⟩
    rcases setInt_cases h.sound.wf h.sound.fits val with ⟨old, hold, -⟩ | hwr
    · exact h.unpacked hs old hold
    · obtain ⟨old, hold, -⟩ := hwr.packed values hv
      rw [startIntKeys_storage] at hold
      exact h.unpacked hs old hold
  | string key =>
    have hwr := setStr_written h.sound.wf.storage h.sound.fits key val
    have hle : (r.setStr key val).iter.length ≤ r.iter.length + 1 := by
      rw [hwr.iter]
      exact putKey_length_le _ _ _
    have hf : Fits (r.setStr key val).iter := by
      unfold Fits
      omega
    refine ⟨⟨(setStr_sound h.sound key val hf).1, hwr.fresh h.fresh, hints _ hwr.iter,
      fun hs values hv => ?_⟩, hle⟩
    obtain ⟨old, hold, -⟩ := hwr.packed values hv
    exact h.unpacked hs old hold

theorem foldl_set_rebuilding {r : PhpArray P} (h : Rebuilding known strings r)
    (es : List (Entry P))
    (hkeys : ∀ e ∈ es, ∀ k, normalizeKeyForExternalStorage e.1 = .int k → .int k ∈ known)
    (hlen : ((r.iter.length + es.length : Nat) : Int) ≤ i64Max) :
    Rebuilding known strings
      (es.foldl (fun r e => r.set (normalizeKeyForExternalStorage e.1) e.2) r) := by
  induction es generalizing r with
  | nil => exact h
  | cons e es ih =>
    simp only [List.length_cons] at hlen
    obtain ⟨hset, hle⟩ := set_rebuilding h (hkeys e List.mem_cons_self) (by omega) e.2
    rw [List.foldl_cons]
    exact ih hset (fun e' he' => hkeys e' (List.mem_cons_of_mem _ he'))
      (le_trans (Int.ofNat_le.2 (by omega)) hlen)

theorem make_empty (c : ArrayConstructor) :
    (c.make : PhpArray P).iter = [] ∧ (c.make : PhpArray P).storage.Fresh := by
  have hhash : ∀ n, (withHashCapacity n : PhpArray P).iter = [] ∧
      (withHashCapacity n : PhpArray P).storage.Fresh := by
    intro n
    unfold withHashCapacity
    split
    · exact ⟨rfl, trivial⟩
    · exact ⟨rfl, .empty _⟩
  cases c with
  | new => exact ⟨rfl, trivial⟩
  | withPackedCapacity n => exact ⟨rfl, trivial⟩
  | withHashCapacity n => exact hhash n
  | withDeferredHashCapacity n =>
    simp only [ArrayConstructor.make, withDeferredHashCapacity]
    split
    · exact ⟨rfl, trivial⟩
    · split
      · exact ⟨rfl, trivial⟩
      · exact hhash n

theorem withDeferredHashCapacity_not_packed (n : Nat) (values : List (Value P)) :
    (withDeferredHashCapacity n : PhpArray P).storage ≠ .packed values := by
  unfold withDeferredHashCapacity withHashCapacity
  split
  · simp
  · split <;> simp

/-- A list of packed values reaches no further than the keys that are known to be taken. -/
theorem Rebuilding.packed_le {r : PhpArray P} {next : I64} (h : Rebuilding known strings r)
    (hs : r.storage = .packed values) (hnext : 0 ≤ next.val)
    (hknown : ∀ k, .int k ∈ known → k.val < next.val ∨ k = .max) :
    (values.length : Int) ≤ next.val := by
  have hiter : r.iter = packedEntries values := by simp [iter, hs]
  have hfv : Fits values := by
    have := h.sound.fits
    unfold Fits at *
    rwa [hiter, packedEntries_length] at this
  rcases Nat.eq_zero_or_pos values.length with h0 | hpos
  · omega
  · have hv := hfv.wrap_val (Nat.sub_le values.length 1)
    have hk : ArrayKey.int (I64.wrap (values.length - 1 : Nat)) ∈ keysOf r.iter := by
      rw [hiter]
      exact List.mem_of_getElem? ((keysOf_packedEntries_getElem? hfv).2 ⟨by omega, hv⟩)
    rcases hknown _ (h.ints _ hk) with hlt | hmax
    · omega
    · rw [hmax] at hv
      unfold Fits at hfv
      simp only [I64.max] at hv
      omega

/-- The array that a rebuild starts from. -/
theorem rebuilding_start (a : PhpArray P) :
    Rebuilding (keysOf a.iter) a.hasStringKeys
      (if a.hasStringKeys then withDeferredHashCapacity a.iter.length
        else withPackedCapacity a.iter.length : PhpArray P) ∧
      (if a.hasStringKeys then withDeferredHashCapacity a.iter.length
        else withPackedCapacity a.iter.length : PhpArray P).iter = [] := by
  have hstart : ∀ c : ArrayConstructor,
      (a.hasStringKeys = true → ∀ values, (c.make : PhpArray P).storage ≠ .packed values) →
      Rebuilding (keysOf a.iter) a.hasStringKeys (c.make : PhpArray P) := fun c hp => by
    obtain ⟨hnil, hfresh⟩ := make_empty (P := P) c
    refine ⟨(make_refines c).toSound, hfresh, ?_, hp⟩
    simp [hnil, keysOf]
  split
  · exact ⟨hstart (.withDeferredHashCapacity _) fun _ => withDeferredHashCapacity_not_packed _,
      (make_empty (.withDeferredHashCapacity _)).1⟩
  · rename_i hs
    exact ⟨hstart (.withPackedCapacity a.iter.length) fun ht => absurd ht hs,
      (make_empty (.withPackedCapacity a.iter.length)).1⟩

theorem promoteKeys_cached {a : PhpArray P} (h : a.Cached)
    (hok : a.hasStringKeys = true ∨ 0 ≤ a.nextIntKey.val) :
    a.promoteKeysToExternalStorage.Cached := by
  obtain ⟨hstart, hnil⟩ := rebuilding_start a
  have hR := foldl_set_rebuilding hstart a.iter (fun e he k hk => by
    cases hek : e.1 with
    | int key =>
      rw [hek] at hk
      cases hk
      exact hek ▸ List.mem_map_of_mem he
    | string s =>
      rw [hek] at hk
      cases hk) (by
    have := h.fits
    unfold Fits at this
    rw [hnil]
    simpa using this)
  refine ⟨⟨hR.sound.wf.storage, fun k hk => h.wf.below k (hR.ints k hk), fun values hv => ?_⟩,
    hR.fresh, hR.sound.fits⟩
  rcases hok with hs | hn
  · exact absurd hv (hR.unpacked hs values)
  · exact hR.packed_le hv hn h.wf.below

/-! Reads of the index. -/

theorem mem_of_longAt {entries : List (Entry P)} (hk : (keysOf entries)[i]? = some (.int key))
    (hl : longAt entries i = some n) : (.int key, .long n) ∈ entries := by
  rw [keysOf_getElem?] at hk
  obtain ⟨⟨k, v⟩, he, rfl⟩ := Option.map_eq_some_iff.1 hk
  rw [longAt, he, Option.bind_some] at hl
  have hv : v = .long n := by
    revert hl
    cases v <;> simp [Value.asLong]
  rw [← hv]
  exact List.mem_of_getElem? he

/-- A word of the index leads to an entry that the general lookup finds too. -/
theorem getInt_of_indexed {h : HashStorage P} (hw : h.Wf) (hc : CacheFresh h.intIndex h.entries)
    (hl : h.intIndex.lookup key = some w)
    (hv : w.cachedLong.or (longAt h.entries w.position) = some n) :
    h.getInt key = some (.long n) := by
  have hexact : h.Exact := by
    refine Arithmetic.of_lt ?_
    have hi := hw.ints
    unfold IntIndexed at hi
    split at hi
    · omega
    · rw [hi.1] at hl
      simp at hl
  have hlong : longAt h.entries w.position = some n := by
    rcases Option.or_eq_some_iff.1 hv with hcl | ⟨-, hlong⟩
    · exact hc key w n hl hcl
    · exact hlong
  rw [HashStorage.getInt_eq hw hexact, getKey_eq_some hw.nodup]
  exact mem_of_longAt (hw.indexed hl) hlong

theorem getKey_of_longAt {entries : List (Entry P)} (hnd : (keysOf entries).Nodup)
    (hp : positionOf entries (.int key) = some i) (hl : longAt entries i = some n) :
    getKey entries (.int key) = some (.long n) :=
  (getKey_eq_some hnd).2 (mem_of_longAt ((positionOf_eq_some hnd).1 hp) hl)

theorem getIndexedLongWithPosition_sound {a : PhpArray P} (h : a.Cached)
    (hv : a.getIndexedLongWithPosition key = some (i, n)) : a.getInt key = some (.long n) := by
  obtain ⟨hw, hc, -⟩ := h
  have hw := hw.storage
  obtain ⟨values | entries | linear | h, next, init⟩ := a
  · cases hv
  · obtain ⟨j, hj, hv⟩ := Option.bind_eq_some_iff.1 hv
    obtain ⟨m, hm, ⟨rfl, rfl⟩⟩ := Option.map_eq_some_iff.1 hv
    exact getKey_of_longAt hw hj hm
  · obtain ⟨j, hj, hv⟩ := Option.bind_eq_some_iff.1 hv
    obtain ⟨m, hm, ⟨rfl, rfl⟩⟩ := Option.map_eq_some_iff.1 hv
    exact getKey_of_longAt hw.1 hj hm
  · obtain ⟨w, hl, hv⟩ := Option.bind_eq_some_iff.1 hv
    obtain ⟨m, hm, ⟨rfl, rfl⟩⟩ := Option.map_eq_some_iff.1 hv
    exact getInt_of_indexed hw hc hl hm

/-- The two typed reads differ only in whether they tell the position. -/
theorem getIndexedLong_eq (a : PhpArray P) (key : I64) :
    a.getIndexedLong key = (a.getIndexedLongWithPosition key).map Prod.snd := by
  obtain ⟨values | entries | linear | h, next, init⟩ := a
  · rfl
  · simp only [getIndexedLong, getIndexedLongWithPosition]
    cases positionOf entries (.int key) <;> simp [Function.comp_def]
  · simp only [getIndexedLong, getIndexedLongWithPosition]
    cases positionOf linear.entries (.int key) <;> simp [Function.comp_def]
  · simp only [getIndexedLong, getIndexedLongWithPosition]
    cases h.intIndex.lookup key <;> simp [Function.comp_def]

theorem nativeIndexedLongLookup_sound {a : PhpArray P} (h : a.Cached)
    (hctx : a.nativeIndexedLongLookupContext = some context)
    (hv : nativeIndexedLongLookup context key = some n) : a.getInt key = some (.long n) := by
  obtain ⟨hw, hc, -⟩ := h
  have hw := hw.storage
  obtain ⟨values | entries | linear | h, next, init⟩ := a
  · cases hctx
  · cases hctx
  · cases hctx
  · simp only [nativeIndexedLongLookupContext] at hctx
    split at hctx
    · cases hctx
      obtain ⟨w, hl, hv⟩ := Option.bind_eq_some_iff.1 hv
      refine getInt_of_indexed hw hc hl ?_
      cases hcl : w.cachedLong with
      | some m =>
        simp only [hcl] at hv
        simpa using hv
      | none =>
        simp only [hcl] at hv
        split at hv
        · cases hv
        · simpa using hv
    · cases hctx

end PhpArray

end Rphp
