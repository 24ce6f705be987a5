import Rphp.Value.Array.Removals
import Rphp.Lib.Run

namespace Rphp
open Rphp.Lib
set_option autoImplicit true

inductive ArrayConstructor where
  | new
  | withPackedCapacity (capacity : Nat)
  | withHashCapacity (capacity : Nat)
  | withDeferredHashCapacity (capacity : Nat)

def ArrayConstructor.make : ArrayConstructor → PhpArray P
  | .new => .new
  | .withPackedCapacity capacity => .withPackedCapacity capacity
  | .withHashCapacity capacity => .withHashCapacity capacity
  | .withDeferredHashCapacity capacity => .withDeferredHashCapacity capacity

/-- The operations of a run; a string read is one because it may build an index. -/
inductive ArrayOp (P : Type u) where
  | tryPush (val : Value P)
  | setInt (key : I64) (val : Value P)
  | setStr (key : String) (val : Value P)
  | setOwnedStr (key : String) (val : Value P)
  | setStreamedInt (key : I64) (val : Value P)
  | setStreamedOwnedStr (key : String) (val : Value P)
  | takeWithPosition (key : ArrayKey)
  | pop
  | shift
  | clone (view : CellView P)
  | getStr (key : String)

namespace ArrayOp

def apply (a : PhpArray P) : ArrayOp P → PhpArray P
  | .tryPush val => (a.tryPush val).1
  | .setInt key val => a.setInt key val
  | .setStr key val => a.setStr key val
  | .setOwnedStr key val => a.setOwnedStr key val
  | .setStreamedInt key val => a.setStreamedInt key val
  | .setStreamedOwnedStr key val => a.setStreamedOwnedStr key val
  | .takeWithPosition key => (a.takeWithPosition key).1
  | .pop => a.pop.1
  | .shift => a.shift.1
  | .clone view => a.clone view
  | .getStr _ => a.afterGetStr

/-- A vector that would not be addressable any more ends the run. -/
def step (a : PhpArray P) (op : ArrayOp P) : Option (PhpArray P) :=
  if Fits (apply a op).iter then some (apply a op) else none

/-- What the operation does to one insertion-ordered map, given the next automatic key. -/
def effect (next : I64) (l : List (Entry P)) : ArrayOp P → List (Entry P)
  | .tryPush val =>
    if next = .max ∧ .int .max ∈ keysOf l then l else l ++ [(.int next, val)]
  | .setInt key val => putKey l (.int key) val
  | .setStr key val => putKey l (.string key) val
  | .setOwnedStr key val => putKey l (.string key) val
  | .setStreamedInt key val => putKey l (.int key) val
  | .setStreamedOwnedStr key val => putKey l (.string key) val
  | .takeWithPosition key => removeKey l key
  | .pop => l.dropLast
  | .shift => renumber 0 l.tail
  | .clone view => PhpArray.mapValues (Value.cloneForArrayCow view) l
  | .getStr _ => l

/-- The write does not put a second integer key into an indexed storage whose difference to the
first is not representable. -/
def Representable (a : PhpArray P) : ArrayOp P → Prop
  | .tryPush _ => ¬ a.EntersUnrepresentable a.nextIntKey
  | .setInt key _ => ¬ a.EntersUnrepresentable key
  | .setStreamedInt key _ => ¬ a.EntersUnrepresentable key
  | _ => True

end ArrayOp

instance (h : HashStorage P) (key : I64) : Decidable (h.EntersUnrepresentable key) :=
  decidable_of_iff (h.verifiedIntPrefix = 1 ∧ h.entries.length = 1 ∧
    ((intKeyAt h.entries 0).any fun first => (key.checkedSub first).isNone) = true) (by
      simp [HashStorage.EntersUnrepresentable, Option.any_eq_true])

instance (a : PhpArray P) (key : I64) : Decidable (a.EntersUnrepresentable key) :=
  match h : a.storage with
  | .packed _ => .isFalse (by simp [PhpArray.EntersUnrepresentable, h])
  | .smallHash _ => .isFalse (by simp [PhpArray.EntersUnrepresentable, h])
  | .linearHash _ => .isFalse (by simp [PhpArray.EntersUnrepresentable, h])
  | .hash hash =>
    decidable_of_iff (hash.EntersUnrepresentable key) (by simp [PhpArray.EntersUnrepresentable, h])

instance (a : PhpArray P) : (op : ArrayOp P) → Decidable (op.Representable a)
  | .tryPush _ => inferInstanceAs (Decidable (¬ _))
  | .setInt _ _ => inferInstanceAs (Decidable (¬ _))
  | .setStreamedInt _ _ => inferInstanceAs (Decidable (¬ _))
  | .setStr _ _ => .isTrue trivial
  | .setOwnedStr _ _ => .isTrue trivial
  | .setStreamedOwnedStr _ _ => .isTrue trivial
  | .takeWithPosition _ => .isTrue trivial
  | .pop => .isTrue trivial
  | .shift => .isTrue trivial
  | .clone _ => .isTrue trivial
  | .getStr _ => .isTrue trivial

/-- Packed values end at the automatic key, and automatic keys start with the first integer
key. -/
structure PhpArray.Sound (a : PhpArray P) : Prop where
  wf : a.Wf
  fits : Fits a.iter
  dense : ∀ values, a.storage = .packed values → (values.length : Int) = a.nextIntKey.val
  started : a.intKeyInitialized = false →
    a.nextIntKey = .zero ∧ ∀ k, .int k ∉ keysOf a.iter

/-- What every run of representable writes keeps. -/
structure PhpArray.Refines (a : PhpArray P) : Prop extends a.Sound where
  exact : a.storage.Exact

namespace PhpArray

theorem Sound.startable {a : PhpArray P} (h : a.Sound) : a.Startable :=
  fun _ hi => (h.started hi).2

theorem empty_refines {a : PhpArray P} (hs : a.storage = .packed [] ∨ a.storage = .smallHash [] ∨
    a.storage = .linearHash (.fromEntries []) ∨ a.storage = .hash .empty)
    (hn : a.nextIntKey = .zero) : a.Refines := by
  have hiter : a.iter = [] := by
    rcases hs with hs | hs | hs | hs <;> rw [iter, hs] <;> rfl
  have hk : ∀ k, .int k ∉ keysOf a.iter := by simp [hiter, keysOf]
  refine ⟨⟨⟨?_, fun k h => absurd h (hk k), ?_⟩, by simp [hiter, Fits, i64Max], ?_,
    fun _ => ⟨hn, hk⟩⟩, ?_⟩
  · rcases hs with hs | hs | hs | hs <;> rw [hs]
    · trivial
    · simp [ArrayStorage.Wf, keysOf]
    · exact fromEntries_wf (by simp [keysOf])
    · exact HashStorage.empty_wf
  · intro values hv
    rcases hs with hs | hs | hs | hs <;> rw [hs] at hv <;> cases hv
    simp [hn, I64.zero]
  · intro values hv
    rcases hs with hs | hs | hs | hs <;> rw [hs] at hv <;> cases hv
    simp [hn, I64.zero]
  · rcases hs with hs | hs | hs | hs <;> rw [hs]
    · trivial
    · trivial
    · trivial
    · exact Arithmetic.of_lt (by simp [HashStorage.empty])

theorem make_refines (c : ArrayConstructor) : (c.make : PhpArray P).Refines := by
  have hhash : ∀ n, (withHashCapacity n : PhpArray P).Refines := by
    intro n
    unfold withHashCapacity
    split
    · exact empty_refines (.inr (.inl rfl)) rfl
    · exact empty_refines (.inr (.inr (.inr rfl))) rfl
  cases c with
  | new => exact empty_refines (.inl rfl) rfl
  | withPackedCapacity n => exact empty_refines (.inl rfl) rfl
  | withHashCapacity n => exact hhash n
  | withDeferredHashCapacity n =>
    simp only [ArrayConstructor.make, withDeferredHashCapacity]
    split
    · exact empty_refines (.inr (.inl rfl)) rfl
    · split
      · exact empty_refines (.inr (.inr (.inl rfl))) rfl
      · exact hhash n

theorem SameMap.refines {a b : PhpArray P} (h : SameMap a b) (ha : a.Refines)
    (hp : ∀ values, b.storage = .packed values → a.storage = .packed values) : b.Refines where
  wf := h.wf ha.wf hp
  exact := h.exact ha.exact
  fits := by
    rw [h.iter]
    exact ha.fits
  dense := fun values hv => by
    rw [h.next]
    exact ha.dense values (hp values hv)
  started := by
    rw [h.initialized, h.next, h.iter]
    exact ha.started

theorem entersUnrepresentable_startIntKeys (a : PhpArray P) (key k : I64) :
    (a.startIntKeys key).EntersUnrepresentable k ↔ a.EntersUnrepresentable k := by
  rw [EntersUnrepresentable, startIntKeys_storage, EntersUnrepresentable]

theorem startIntKeys_initialized {a : PhpArray P} (h : a.Sound) (key : I64) :
    (a.startIntKeys key).intKeyInitialized = true := by
  unfold startIntKeys
  split
  · rfl
  · rename_i hn
    by_contra hi
    have hi : a.intKeyInitialized = false := by simpa using hi
    exact hn ⟨(h.started hi).1, hi⟩

/-- One more packed value is one more entry, under the next key. -/
theorem packed_push_sound {a b : PhpArray P} (h : a.Sound) (hs : a.storage = .packed values)
    (hb : b.storage = .packed (values ++ [val])) (hn : b.nextIntKey = a.nextIntKey.saturatingSucc)
    (hi : b.intKeyInitialized = true) (hf : Fits b.iter) :
    b.Sound ∧ .int a.nextIntKey ∉ keysOf a.iter ∧
      b.iter = a.iter ++ [(.int a.nextIntKey, val)] := by
  have hiter : a.iter = packedEntries values := by simp [iter, hs]
  have hfv : Fits values := by
    have := h.fits
    unfold Fits at *
    rwa [hiter, packedEntries_length] at this
  have hlen := h.dense values hs
  have hbiter : b.iter = packedEntries (values ++ [val]) := by simp [iter, hb]
  have hkey : I64.wrap values.length = a.nextIntKey :=
    I64.ext ((hfv.wrap_val (le_refl _)).trans hlen)
  refine ⟨⟨packed_push_wf h.wf hs hb hn hf, hf, fun values' hv => ?_, ?_⟩, fun hm => ?_, ?_⟩
  · rw [hb] at hv
    cases hv
    rw [hbiter] at hf
    unfold Fits at hf
    rw [hn, I64.saturatingSucc_val]
    simp only [packedEntries_length, List.length_append, List.length_singleton] at *
    split <;> omega
  · simp [hi]
  · rw [hiter] at hm
    obtain ⟨i, hi⟩ := List.getElem?_of_mem hm
    have := (keysOf_packedEntries_getElem? hfv).1 hi
    omega
  · rw [hbiter, packedEntries_concat, hiter, hkey]

/-- An integer write is a write of the map, whether or not the prefix can be followed. -/
theorem setInt_sound {a : PhpArray P} (h : a.Sound) (key : I64) (val : Value P)
    (hf : Fits (a.setInt key val).iter) :
    (a.setInt key val).Sound ∧ (a.setInt key val).iter = putKey a.iter (.int key) val := by
  have hst : a.StartsAbove key := startsAbove_of_startable fun _ => h.startable
  rcases setInt_cases h.wf h.fits val with ⟨values, hs, hk, hr⟩ | hwr
  · obtain ⟨hsound, hnew, hiter⟩ := packed_push_sound (b := a.setInt key val) h hs (by rw [hr])
      (by rw [hr, hk]) (by rw [hr]; exact startIntKeys_initialized h key) hf
    exact ⟨hsound, by rw [hiter, hk, putKey_of_new (positionOf_eq_none.2 hnew)]⟩
  · have hi : (a.setInt key val).iter = putKey a.iter (.int key) val := by
      rw [hwr.iter, startIntKeys_iter]
    refine ⟨⟨setInt_wf h.wf hst h.fits val hf, hf, ?_, ?_⟩, hi⟩
    · intro values hv
      obtain ⟨old, hold, hlen, hmem⟩ := hwr.packed values hv
      rw [startIntKeys_storage] at hold
      rw [hwr.next, nextAfter, if_pos hmem, hlen, h.dense old hold]
      rw [startIntKeys_iter] at hmem
      rcases startIntKeys_next a key with hn | ⟨hneg, -⟩
      · rw [hn]
      · exact absurd hmem (not_mem_packed_of_neg hold h.fits hneg)
    · rw [hwr.initialized, startIntKeys_initialized h]
      simp

theorem setInt_refines {a : PhpArray P} (h : a.Refines) (key : I64) (val : Value P)
    (hok : ¬ a.EntersUnrepresentable key) (hf : Fits (a.setInt key val).iter) :
    (a.setInt key val).Refines ∧ (a.setInt key val).iter = putKey a.iter (.int key) val := by
  obtain ⟨hsound, hiter⟩ := setInt_sound h.toSound key val hf
  refine ⟨⟨hsound, ?_⟩, hiter⟩
  rcases setInt_cases h.wf h.fits val with ⟨values, -, -, hr⟩ | hwr
  · rw [hr]
    trivial
  · refine hwr.exact ?_ ?_
    · rw [startIntKeys_storage]
      exact h.exact
    · rintro k ⟨rfl⟩
      rwa [entersUnrepresentable_startIntKeys]

theorem setStr_sound {a : PhpArray P} (h : a.Sound) (key : String) (val : Value P)
    (hf : Fits (a.setStr key val).iter) :
    (a.setStr key val).Sound ∧ (a.setStr key val).iter = putKey a.iter (.string key) val := by
  have hwr := setStr_written h.wf.storage h.fits key val
  refine ⟨⟨setStr_wf h.wf h.fits key val, hf, ?_, ?_⟩, hwr.iter⟩
  · intro values hv
    obtain ⟨old, hold, hlen, -⟩ := hwr.packed values hv
    rw [hwr.next, hlen]
    exact h.dense old hold
  · intro hi
    rw [hwr.initialized] at hi
    obtain ⟨hn, hk⟩ := h.started hi
    refine ⟨hwr.next.trans hn, fun k hm => hk k ?_⟩
    rw [hwr.iter, keysOf_putKey] at hm
    split at hm
    · exact hm
    · simpa using hm

theorem setStr_refines {a : PhpArray P} (h : a.Refines) (key : String) (val : Value P)
    (hf : Fits (a.setStr key val).iter) :
    (a.setStr key val).Refines ∧ (a.setStr key val).iter = putKey a.iter (.string key) val := by
  obtain ⟨hsound, hiter⟩ := setStr_sound h.toSound key val hf
  exact ⟨⟨hsound, (setStr_written h.wf.storage h.fits key val).exact h.exact (by simp)⟩, hiter⟩

theorem tryPush_refines {a : PhpArray P} (h : a.Refines) (val : Value P)
    (hok : ¬ a.EntersUnrepresentable a.nextIntKey) (hf : Fits (a.tryPush val).1.iter) :
    (a.tryPush val).1.Refines ∧
      (a.tryPush val).1.iter = (ArrayOp.tryPush val).effect a.nextIntKey a.iter := by
  by_cases hc : a.canPush = true
  · have hnew := not_mem_of_canPush h.wf h.fits hc h.exact
    have heff : (ArrayOp.tryPush val).effect a.nextIntKey a.iter =
        a.iter ++ [(.int a.nextIntKey, val)] := by
      rw [ArrayOp.effect, if_neg]
      rintro ⟨hn, hm⟩
      exact hnew (hn ▸ hm)
    have hinit : a.afterKey.intKeyInitialized = true := by
      simp only [afterKey, Bool.or_eq_true, decide_eq_true_eq]
      by_cases hi : a.intKeyInitialized = true
      · exact .inl hi
      · exact .inr (h.started (by simpa using hi)).1
    rw [heff]
    rcases tryPush_cases h.wf h.fits hc val with ⟨values, hs, hr⟩ | hwr
    · obtain ⟨hsound, -, hiter⟩ := packed_push_sound (b := (a.tryPush val).1) h.toSound hs
        (by rw [hr]) (by rw [hr]; rfl) (by rw [hr]; exact hinit) hf
      exact ⟨⟨hsound, by rw [hr]; trivial⟩, hiter⟩
    · refine ⟨⟨⟨tryPush_wf h.wf h.fits val hf, hf, ?_, ?_⟩, hwr.exact h.exact ?_⟩, ?_⟩
      · intro values hv
        obtain ⟨-, -, -, hmem⟩ := hwr.packed values hv
        exact absurd hmem hnew
      · rw [hwr.initialized, hinit]
        simp
      · rintro k ⟨rfl⟩
        exact hok
      · rw [hwr.iter]
        exact putKey_of_new (positionOf_eq_none.2 hnew) val
  · rw [tryPush, if_neg hc]
    refine ⟨h, ?_⟩
    simp only [canPush, ne_eq, decide_not, Bool.or_eq_true, Bool.not_eq_eq_eq_not, Bool.not_true,
      decide_eq_false_iff_not, Option.isNone_iff_eq_none, not_or, not_not] at hc
    obtain ⟨hn, hg⟩ := hc
    rw [getInt_eq h.wf.storage h.fits h.exact, getKey_eq_none, not_not] at hg
    rw [ArrayOp.effect, if_pos ⟨hn, hg⟩]

theorem takeWithPosition_refines {a : PhpArray P} (h : a.Refines) (key : ArrayKey) :
    (a.takeWithPosition key).1.Refines ∧
      (a.takeWithPosition key).1.iter = removeKey a.iter key := by
  obtain ⟨entries, hholds, hn, hp, hs, hrem⟩ := takeWithPosition_spec h.wf.storage h.fits key
  refine ⟨⟨⟨hholds.wf h.wf hn hp hs, ?_, fun values hv => absurd hv (hp values), fun hi => ?_⟩,
    hholds.exact h.exact⟩, hholds.iter.trans (hrem h.exact)⟩
  · rw [hholds.iter]
    exact h.fits.sublist hs
  · rw [hholds.initialized] at hi
    obtain ⟨hz, hk⟩ := h.started hi
    refine ⟨hn.trans hz, fun k hm => hk k ?_⟩
    rw [hholds.iter] at hm
    exact (hs.map Prod.fst).subset hm

theorem pop_refines {a : PhpArray P} (h : a.Refines) :
    a.pop.1.Refines ∧ a.pop.1.iter = a.iter.dropLast := by
  rcases pop_spec h.wf.storage with ⟨hnil, hr⟩ | ⟨key, value, hl, hholds, -, hp⟩
  · rw [hr]
    exact ⟨h, by rw [hnil]; rfl⟩
  · have hsub : a.iter.dropLast.Sublist a.iter := List.dropLast_sublist _
    refine ⟨⟨⟨pop_wf h.wf h.fits, ?_, fun values' hv => ?_, fun hi => ?_⟩, hholds.exact h.exact⟩,
      hholds.iter⟩
    · rw [hholds.iter]
      exact h.fits.sublist hsub
    · rcases hp with ⟨values, hs, hps, hn⟩ | ⟨hnp, -⟩
      · rw [hps] at hv
        cases hv
        have hiter : a.iter = packedEntries values := by simp [iter, hs]
        have hfv : Fits values := by
          have := h.fits
          unfold Fits at *
          rwa [hiter, packedEntries_length] at this
        rw [hn, hfv.wrap_val (by simp)]
      · exact absurd hv (hnp values')
    · rw [hholds.initialized] at hi
      obtain ⟨hz, hk⟩ := h.started hi
      have hkey : key ∈ keysOf a.iter := by
        rw [getLast?_eq_some_concat hl, keysOf_append]
        simp
      refine ⟨?_, fun k hm => hk k ?_⟩
      · rcases hp with ⟨values, hs, -⟩ | ⟨-, hn⟩
        · have hiter : a.iter = packedEntries values := by simp [iter, hs]
          obtain ⟨i, hi⟩ := List.getElem?_of_mem hkey
          rw [hiter] at hi
          obtain ⟨k, rfl⟩ := packedEntries_key hi
          exact absurd hkey (hk k)
        · cases key with
          | int k => exact absurd hkey (hk k)
          | string s => exact hn.trans hz
      · rw [hholds.iter] at hm
        exact (hsub.map Prod.fst).subset hm

theorem intKeyCount_eq_zero {l : List (Entry P)} (h : ∀ k, .int k ∉ keysOf l) :
    intKeyCount l = 0 := by
  rw [intKeyCount, List.countP_eq_zero]
  rintro ⟨key | key, v⟩ he
  · exact absurd (List.mem_map_of_mem he) (h key)
  · simp [intEntry]

theorem shift_refines {a : PhpArray P} (h : a.Refines) :
    a.shift.1.Refines ∧ a.shift.1.iter = renumber 0 a.iter.tail := by
  obtain ⟨hp, ⟨hnil, hsame⟩ | ⟨key, value, rest, hiter, hholds, hn⟩⟩ :=
    shift_spec h.wf.storage h.fits
  · refine ⟨hsame.refines h fun values hv => absurd hv (hp values), ?_⟩
    rw [hsame.iter, hnil]
    rfl
  · have hsub : rest.Sublist a.iter := by
      rw [hiter]
      exact List.sublist_cons_self _ _
    refine ⟨⟨⟨shift_wf h.wf h.fits, ?_, fun values hv => absurd hv (hp values), fun hi => ?_⟩,
      hholds.exact h.exact⟩, by rw [hholds.iter, hiter, List.tail_cons]⟩
    · rw [hholds.iter]
      have := h.fits.sublist hsub
      unfold Fits at *
      rwa [renumber_length]
    · rw [hholds.initialized] at hi
      obtain ⟨-, hk⟩ := h.started hi
      have hzero := intKeyCount_eq_zero fun k hm => hk k ((hsub.map Prod.fst).subset hm)
      refine ⟨by rw [hn, hzero]; rfl, fun k hm => ?_⟩
      rw [hholds.iter] at hm
      obtain ⟨m, h1, h2, -⟩ := int_mem_renumber hm
      omega

theorem clone_refines {a : PhpArray P} (h : a.Refines) (view : CellView P) :
    (a.clone view).Refines ∧
      (a.clone view).iter = mapValues (Value.cloneForArrayCow view) a.iter := by
  obtain ⟨hholds, hn, hp⟩ := clone_spec h.wf.storage view
  refine ⟨⟨⟨clone_wf h.wf view, ?_, fun values hv => ?_, fun hi => ?_⟩, hholds.exact h.exact⟩,
    hholds.iter⟩
  · rw [hholds.iter]
    have := h.fits
    unfold Fits at *
    simpa [mapValues] using this
  · obtain ⟨old, hold, hlen⟩ := hp values hv
    rw [hn, ← hlen]
    exact h.dense old hold
  · rw [hholds.initialized] at hi
    obtain ⟨hz, hk⟩ := h.started hi
    refine ⟨hn.trans hz, fun k => ?_⟩
    rw [hholds.iter, keysOf_mapValues]
    exact hk k

theorem afterGetStr_refines {a : PhpArray P} (h : a.Refines) :
    a.afterGetStr.Refines ∧ a.afterGetStr.iter = a.iter := by
  have hsame := afterGetStr_same h.wf.storage
  refine ⟨hsame.refines h fun values hv => ?_, hsame.iter⟩
  unfold afterGetStr at hv
  split at hv
  · cases hv
  · exact hv

end PhpArray

namespace ArrayOp

/-- One operation keeps the invariant and acts on the ordered map. -/
theorem apply_refines {a : PhpArray P} (h : a.Refines) (op : ArrayOp P)
    (hok : op.Representable a) (hf : Fits (op.apply a).iter) :
    (op.apply a).Refines ∧ (op.apply a).iter = op.effect a.nextIntKey a.iter := by
  cases op with
  | tryPush val => exact PhpArray.tryPush_refines h val hok hf
  | setInt key val => exact PhpArray.setInt_refines h key val hok hf
  | setStr key val => exact PhpArray.setStr_refines h key val hf
  | setOwnedStr key val => exact PhpArray.setStr_refines h key val hf
  | setStreamedInt key val =>
    obtain ⟨hsame, hp⟩ := PhpArray.promoteStreamed_same h.wf.storage h.fits (.int key)
    have := PhpArray.setInt_refines (hsame.refines h hp) key val
      (fun hu => hok (hsame.unrepresentable key hu)) hf
    rwa [hsame.iter] at this
  | setStreamedOwnedStr key val =>
    obtain ⟨hsame, hp⟩ := PhpArray.promoteStreamed_same h.wf.storage h.fits (.string key)
    have := PhpArray.setStr_refines (hsame.refines h hp) key val hf
    rwa [hsame.iter] at this
  | takeWithPosition key => exact PhpArray.takeWithPosition_refines h key
  | pop => exact PhpArray.pop_refines h
  | shift => exact PhpArray.shift_refines h
  | clone view => exact PhpArray.clone_refines h view
  | getStr key => exact PhpArray.afterGetStr_refines h

theorem step_eq_some {a b : PhpArray P} {op : ArrayOp P} :
    step a op = some b ↔ Fits (op.apply a).iter ∧ op.apply a = b := by
  unfold step
  split <;> simp_all

/-- In every run of representable writes the array is one insertion-ordered map: its iteration
has distinct keys, reads find exactly what it shows, and every operation acts on it. -/
theorem run_refines_ordered_map (c : ArrayConstructor) (ops : List (ArrayOp P))
    (hok : Meets step (fun a op => op.Representable a) c.make ops)
    (hr : run step c.make ops = some a) :
    (keysOf a.iter).Nodup ∧
      (∀ k, a.getInt k = getKey a.iter (.int k)) ∧
      (∀ s, a.getStr s = getKey a.iter (.string s)) ∧
      ∀ op b, op.Representable a → step a op = some b → b.iter = op.effect a.nextIntKey a.iter := by
  have h : a.Refines := run_invariant (fun b op b' hb hop hs => by
    obtain ⟨hf, rfl⟩ := step_eq_some.1 hs
    exact (apply_refines hb op hop hf).1) (PhpArray.make_refines c) hok hr
  refine ⟨PhpArray.nodup_iter h.wf.storage h.fits, PhpArray.getInt_eq h.wf.storage h.fits h.exact,
    PhpArray.getStr_eq h.wf.storage, fun op b hop hs => ?_⟩
  obtain ⟨hf, rfl⟩ := step_eq_some.1 hs
  exact (apply_refines h op hop hf).2

def irregularWrites : List (ArrayOp Unit) :=
  [.setInt .zero (.long .zero), .setInt .min (.long .max), .setStr "a" (.other ()),
    .setInt .max (.other ()), .takeWithPosition (.string "a"), .tryPush (.long .zero), .pop]

theorem run_refines_ordered_map_irregular :
    (∃ a, run step (ArrayConstructor.withHashCapacity 4).make irregularWrites = some a) ∧
    ∀ a, run step (ArrayConstructor.withHashCapacity 4).make irregularWrites = some a →
      ∀ k, a.getInt k = getKey a.iter (.int k) :=
  ⟨⟨_, rfl⟩, fun _ hr => (run_refines_ordered_map (.withHashCapacity 4) irregularWrites
    (by decide) hr).2.1⟩

/-- With the two extreme integers as its first keys, the array shows an entry that it cannot
find. -/
theorem getInt_misses_second_extreme_key : ∃ a : PhpArray Unit,
    run step (ArrayConstructor.withHashCapacity 4).make
      [.setInt .min (.long .zero), .setInt .max (.long .zero)] = some a ∧
    getKey a.iter (.int .max) = some (.long .zero) ∧ a.getInt .max = none :=
  ⟨_, rfl, rfl, rfl⟩

end ArrayOp

end Rphp
