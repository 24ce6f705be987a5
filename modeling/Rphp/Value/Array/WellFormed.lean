import Rphp.Value.Array.PhpArray
import Rphp.Value.Array.HashMutation

namespace Rphp
open Rphp.Lib
set_option autoImplicit true

def ArrayStorage.Wf : ArrayStorage P → Prop
  | .packed _ => True
  | .smallHash entries => (keysOf entries).Nodup
  | .linearHash linear => (keysOf linear.entries).Nodup ∧
    ∀ index, linear.strIndex = some index → IndexesBy id .string index (keysOf linear.entries)
  | .hash h => h.Wf

/-- No integer key hides behind a prefix that cannot be followed. -/
def ArrayStorage.Exact : ArrayStorage P → Prop
  | .hash h => h.Exact
  | _ => True

/-- No integer in the index is stale. -/
def ArrayStorage.Fresh : ArrayStorage P → Prop
  | .hash h => CacheFresh h.intIndex h.entries
  | _ => True

def PhpArray.EntersUnrepresentable (a : PhpArray P) (key : I64) : Prop :=
  match a.storage with
  | .hash hash => hash.EntersUnrepresentable key
  | _ => False

/-- The indexes agree with the ordered entries and the automatic key lies above the integer
keys, except for the last one there is. -/
structure PhpArray.Wf (a : PhpArray P) : Prop where
  storage : a.storage.Wf
  below : ∀ k, .int k ∈ keysOf a.iter → k.val < a.nextIntKey.val ∨ k = .max
  packed : ∀ values, a.storage = .packed values → (values.length : Int) ≤ a.nextIntKey.val

/-! Packed storage. -/

theorem PhpArray.iter_of_packed {a : PhpArray P} (h : a.storage = .packed values) :
    a.iter = packedEntries values := by
  simp [iter, h]

theorem packedEntries_getElem? (values : List (Value P)) (i : Nat) :
    (packedEntries values)[i]? = values[i]?.map fun v => (.int (I64.wrap i), v) := by
  simp [packedEntries]

@[simp] theorem packedEntries_length (values : List (Value P)) :
    (packedEntries values).length = values.length := by
  simp [packedEntries]

theorem packedEntries_concat (values : List (Value P)) (v : Value P) :
    packedEntries (values ++ [v]) =
      packedEntries values ++ [(.int (I64.wrap values.length), v)] := by
  simp [packedEntries, List.mapIdx_append]

theorem packedEntries_set (values : List (Value P)) (i : Nat) (v : Value P) :
    packedEntries (values.set i v) = setValue (packedEntries values) i v := by
  apply List.ext_getElem?
  intro j
  rw [setValue_getElem?, packedEntries_getElem?, packedEntries_getElem?, List.getElem?_set]
  by_cases h : i = j
  · subst h
    by_cases hi : i < values.length
    · simp [hi]
    · simp [hi]
  · simp [h]

theorem packedEntries_dropLast (values : List (Value P)) :
    packedEntries values.dropLast = (packedEntries values).dropLast := by
  rcases List.eq_nil_or_concat values with rfl | ⟨init, v, rfl⟩
  · rfl
  · simp [packedEntries_concat]

theorem Fits.wrap_val {values : List α} (hf : Fits values) (hi : i ≤ values.length) :
    (I64.wrap i).val = i := by
  refine I64.wrap_val ?_
  unfold Fits i64Max at hf
  unfold i64Min i64Max
  omega

theorem keysOf_packedEntries_getElem? {values : List (Value P)} {i : Nat} {k : I64}
    (hf : Fits values) :
    (keysOf (packedEntries values))[i]? = some (.int k) ↔ i < values.length ∧ k.val = i := by
  rw [keysOf_getElem?, packedEntries_getElem?]
  by_cases hi : i < values.length
  · have hw := hf.wrap_val (Nat.le_of_lt hi)
    simp only [hi, List.getElem?_eq_getElem, Option.map_some, Option.some.injEq, ArrayKey.int.injEq,
      true_and]
    exact ⟨fun hk => hk ▸ hw, fun hk => I64.ext (hw.trans hk.symm)⟩
  · simp [hi]

theorem packedEntries_key {values : List (Value P)} {i : Nat} {x : ArrayKey}
    (h : (keysOf (packedEntries values))[i]? = some x) : ∃ k, x = .int k := by
  rw [keysOf_getElem?, packedEntries_getElem?, Option.map_map] at h
  obtain ⟨v, -, rfl⟩ := Option.map_eq_some_iff.1 h
  exact ⟨_, rfl⟩

theorem packedEntries_nodup {values : List (Value P)} (hf : Fits values) :
    (keysOf (packedEntries values)).Nodup := by
  rw [List.nodup_iff_getElem?_ne_getElem?]
  intro i j hij hj he
  have hj' : j < values.length := by simpa using hj
  obtain ⟨k, hk⟩ : ∃ k, (keysOf (packedEntries values))[j]? = some (.int k) := by
    rw [List.getElem?_eq_getElem hj]
    obtain ⟨k, hk⟩ := packedEntries_key (List.getElem?_eq_getElem hj)
    exact ⟨k, congrArg some hk⟩
  have h1 := (keysOf_packedEntries_getElem? hf).1 hk
  have h2 := (keysOf_packedEntries_getElem? hf).1 (he.trans hk)
  omega

theorem packedEntries_positionOf {values : List (Value P)} (hf : Fits values) (k : I64) :
    positionOf (packedEntries values) (.int k) =
      k.toUsize?.filter fun i => i < values.length := by
  refine Option.ext fun i => ?_
  rw [positionOf_eq_some (packedEntries_nodup hf), keysOf_packedEntries_getElem? hf]
  simp only [Option.filter_eq_some_iff, I64.toUsize?_eq_some, decide_eq_true_eq]
  exact and_comm

theorem getKey_packedEntries_int {values : List (Value P)} (hf : Fits values) (k : I64) :
    getKey (packedEntries values) (.int k) = k.toUsize?.bind fun i => values[i]? := by
  rw [getKey, packedEntries_positionOf hf]
  cases hk : k.toUsize? with
  | none => rfl
  | some i =>
    by_cases hi : i < values.length
    · simp [Option.filter, hi, packedEntries_getElem?]
    · simp [Option.filter, hi]

theorem getKey_packedEntries_string (values : List (Value P)) (s : String) :
    getKey (packedEntries values) (.string s) = none := by
  rw [getKey_eq_none]
  intro h
  obtain ⟨i, hi⟩ := List.getElem?_of_mem h
  obtain ⟨k, hk⟩ := packedEntries_key hi
  cases hk

theorem packedEntries_arithmetic {values : List (Value P)} (hf : Fits values) :
    Arithmetic (keysOf (packedEntries values)) values.length := by
  refine fun _ => ⟨.zero, ⟨1, by decide⟩, by decide, fun i hi => ?_⟩
  have hv := hf.wrap_val (Nat.le_of_lt hi)
  refine ⟨I64.wrap i, (keysOf_packedEntries_getElem? hf).2 ⟨hi, hv⟩, ?_⟩
  rw [expectedKey_eq_some, hv]
  unfold Fits at hf
  simp only [I64.zero, i64Min, i64Max, one_mul] at *
  omega

/-- Packed values taken over as a hash are one arithmetic prefix. -/
theorem packedHash_wf {values : List (Value P)} (hf : Fits values) (hn : values.length ≠ 0) :
    (⟨packedEntries values, ∅, ∅, values.length⟩ : HashStorage P).Wf := by
  refine ⟨packedEntries_nodup hf, fun k i => ?_, ?_⟩
  · simp only [AList.lookup_empty, Option.map_none, reduceCtorEq, false_iff]
    intro h
    obtain ⟨k, hk⟩ := packedEntries_key h
    cases hk
  · rw [IntIndexed, if_neg hn]
    refine ⟨rfl, fun i => ?_, .inl (packedEntries_arithmetic hf)⟩
    simp only [keysOf_packedEntries_getElem? hf]
    constructor
    · rintro ⟨k, hi, -⟩
      exact hi
    · intro hi
      exact ⟨I64.wrap i, hi, hf.wrap_val (Nat.le_of_lt hi)⟩

theorem LinearHash.afterFindStr_entries (linear : LinearHash P) :
    linear.afterFindStr.entries = linear.entries := by
  unfold LinearHash.afterFindStr
  split
  · rfl
  · simp only
    split <;> rfl

/-! Changes of representation. -/

/-- The same map and the same counters in another storage, which has its indexes right. -/
structure PhpArray.SameMap (a b : PhpArray P) : Prop where
  iter : b.iter = a.iter
  next : b.nextIntKey = a.nextIntKey
  initialized : b.intKeyInitialized = a.intKeyInitialized
  storage : b.storage.Wf
  exact : a.storage.Exact → b.storage.Exact
  fresh : a.storage.Fresh → b.storage.Fresh
  unrepresentable : ∀ k, b.EntersUnrepresentable k → a.EntersUnrepresentable k

namespace PhpArray

theorem SameMap.refl {a : PhpArray P} (h : a.storage.Wf) : SameMap a a :=
  ⟨rfl, rfl, rfl, h, id, id, fun _ h => h⟩

theorem SameMap.trans {a b c : PhpArray P} (h : SameMap a b) (h' : SameMap b c) : SameMap a c :=
  ⟨h'.iter.trans h.iter, h'.next.trans h.next, h'.initialized.trans h.initialized, h'.storage,
    fun he => h'.exact (h.exact he), fun hc => h'.fresh (h.fresh hc), fun k hk => h.unrepresentable k (h'.unrepresentable k hk)⟩

/-- A promotion indexes entries that are too many for the unrepresentable state. -/
theorem SameMap.of_hash {a : PhpArray P} {h : HashStorage P} (hentries : h.entries = a.iter)
    (hw : h.Wf) (he : h.Exact) (hc : CacheFresh h.intIndex h.entries)
    (hlen : h.entries.length ≠ 1) : SameMap a { a with storage := .hash h } :=
  ⟨hentries, rfl, rfl, hw, fun _ => he, fun _ => hc, fun _ hk => absurd hk.2.1 hlen⟩

theorem transitionToHash_same {a : PhpArray P} (hw : a.storage.Wf) (hf : Fits a.iter) :
    SameMap a a.transitionToHash := by
  unfold transitionToHash
  split
  · rename_i values hs
    have hiter : packedEntries values = a.iter := by simp [iter, hs]
    have hfv : Fits values := by
      unfold Fits at *
      rw [← hiter, packedEntries_length] at hf
      exact hf
    split
    · exact ⟨hiter, rfl, rfl, packedEntries_nodup hfv, fun _ => trivial, fun _ => trivial,
        fun _ hk => hk.elim⟩
    · rename_i hlen
      unfold smallHashCapacity at hlen
      refine .of_hash hiter (packedHash_wf hfv (by omega)) (packedEntries_arithmetic hfv)
        (.empty _) ?_
      rw [packedEntries_length]
      omega
  · exact .refl hw

theorem transitionToHash_not_packed (a : PhpArray P) (values : List (Value P)) :
    a.transitionToHash.storage ≠ .packed values := by
  unfold transitionToHash
  split
  · split <;> simp
  · rename_i hs
    exact hs values

theorem promoteSmallHash_same {a : PhpArray P} (hw : a.storage.Wf) (hf : Fits a.iter)
    (hlen : a.iter.length ≠ 1) : SameMap a a.promoteSmallHash := by
  unfold promoteSmallHash
  split
  · rename_i entries hs
    simp only [iter, hs] at hf hlen
    rw [hs] at hw
    exact .of_hash (by simp [iter, hs, HashStorage.ofEntries]) (HashStorage.ofEntries_wf hf hw)
      (HashStorage.ofEntries_exact hf hw) (rebuildIntIndex_fresh hf) hlen
  · exact .refl hw

theorem promoteSmallHashToLinear_same {a : PhpArray P} (hw : a.storage.Wf) :
    SameMap a a.promoteSmallHashToLinear := by
  unfold promoteSmallHashToLinear
  split
  · rename_i entries hs
    rw [hs] at hw
    refine ⟨by simp [iter, hs, LinearHash.fromEntries], rfl, rfl, ⟨hw, ?_⟩, fun _ => trivial,
      fun _ => trivial, fun _ hk => hk.elim⟩
    simp [LinearHash.fromEntries]
  · exact .refl hw

theorem promote_wf {linear : LinearHash P} (hw : (ArrayStorage.linearHash linear).Wf)
    (hf : Fits linear.entries) : linear.promote.Wf ∧ linear.promote.Exact := by
  obtain ⟨hnd, hidx⟩ := hw
  obtain ⟨hints, hexact⟩ := rebuildIntIndex_spec hf hnd
  refine ⟨⟨hnd, ?_, hints⟩, hexact⟩
  simp only [LinearHash.promote]
  cases hs : linear.strIndex with
  | none =>
    exact IndexesBy.indexMissing (l := []) (strEntry_enters _) (le_refl _)
      ArrayKey.string_injective IndexesBy.nil hnd
  | some index =>
    rw [Option.getD_some, indexMissing_of_known]
    · exact hidx index hs
    · intro e he n p hp
      obtain ⟨hk, -⟩ := (strEntry_enters (n + 1) n e (Nat.lt_succ_self n)).1 p.1 p.2 hp
      rw [Option.isSome_iff_ne_none, Ne, (hidx index hs).lookup_eq_none, not_not, ← hk]
      exact List.mem_map_of_mem he

theorem promoteLinearHash_same {a : PhpArray P} (hw : a.storage.Wf) (hf : Fits a.iter)
    (hlen : a.iter.length ≠ 1) : SameMap a a.promoteLinearHash := by
  unfold promoteLinearHash
  split
  · rename_i linear hs
    simp only [iter, hs] at hf hlen
    rw [hs] at hw
    obtain ⟨hpw, hpe⟩ := promote_wf hw hf
    exact .of_hash (by simp [iter, hs, LinearHash.promote]) hpw hpe (rebuildIntIndex_fresh hf) hlen
  · exact .refl hw

theorem afterGetStr_same {a : PhpArray P} (hw : a.storage.Wf) : SameMap a a.afterGetStr := by
  unfold afterGetStr
  split
  · rename_i linear hs
    rw [hs] at hw
    obtain ⟨hnd, hidx⟩ := hw
    have hentries := linear.afterFindStr_entries
    refine ⟨by simp [iter, hs, hentries], rfl, rfl, ?_, fun _ => trivial, fun _ => trivial,
      fun _ hk => hk.elim⟩
    refine ⟨hentries ▸ hnd, ?_⟩
    rw [hentries]
    unfold LinearHash.afterFindStr
    split
    · exact hidx
    · simp only
      split
      · rintro index ⟨rfl⟩
        exact IndexesBy.indexEntries (strEntry_enters _) (le_refl _) ArrayKey.string_injective hnd
      · rename_i hnone _
        simp [hnone]
  · exact .refl hw

/-- Reads find exactly what the iteration shows. -/
theorem getInt_eq {a : PhpArray P} (hw : a.storage.Wf) (hf : Fits a.iter) (he : a.storage.Exact)
    (key : I64) : a.getInt key = getKey a.iter (.int key) := by
  unfold getInt iter at *
  split
  · rename_i values hs
    simp only [hs] at hf
    refine (getKey_packedEntries_int ?_ key).symm
    unfold Fits at *
    rwa [packedEntries_length] at hf
  · rfl
  · rfl
  · rename_i h hs
    rw [hs] at hw he
    exact HashStorage.getInt_eq hw he key

theorem findStr_eq {linear : LinearHash P} (hw : (ArrayStorage.linearHash linear).Wf)
    (key : String) : linear.findStr key = positionOf linear.entries (.string key) := by
  unfold LinearHash.findStr
  cases hs : linear.strIndex with
  | none => rfl
  | some index => simpa [positionOf] using (hw.2 index hs).position hw.1 key

theorem findStrForUpdate_eq {linear : LinearHash P} (hw : (ArrayStorage.linearHash linear).Wf)
    (key : String) : linear.findStrForUpdate key = positionOf linear.entries (.string key) := by
  unfold LinearHash.findStrForUpdate
  cases hs : linear.strIndex with
  | none => rfl
  | some index =>
    have hl : index.lookup key = positionOf linear.entries (.string key) := by
      simpa [positionOf] using (hw.2 index hs).position hw.1 key
    rw [Option.bind_some, hl]
    exact Option.or_self

theorem getStr_eq {a : PhpArray P} (hw : a.storage.Wf) (key : String) :
    a.getStr key = getKey a.iter (.string key) := by
  unfold getStr iter
  split
  · exact (getKey_packedEntries_string _ key).symm
  · rfl
  · rename_i linear hs
    rw [hs] at hw
    rw [findStr_eq hw]
    rfl
  · rename_i h hs
    rw [hs] at hw
    exact HashStorage.getStr_eq hw key

theorem nodup_iter {a : PhpArray P} (hw : a.storage.Wf) (hf : Fits a.iter) :
    (keysOf a.iter).Nodup := by
  rcases a with ⟨values | entries | linear | h, next, init⟩
  · refine packedEntries_nodup ?_
    unfold Fits at *
    rwa [iter, packedEntries_length] at hf
  · exact hw
  · exact hw.1
  · exact hw.nodup

end PhpArray

end Rphp
