import Rphp.Value.Array.CachedLong

namespace Rphp
open Rphp.Lib
set_option autoImplicit true

namespace HashStorage

/-- A key that the storage does not have ends a prefix that could not be followed. -/
theorem setIndexedInt_exact_of_new {h : HashStorage P} (hw : h.Wf) (hf : Fits h.entries)
    (hnew : .int key ∉ keysOf h.entries) (hok : ¬ h.EntersUnrepresentable key) (next : I64)
    (val : Value P) : (h.setIndexedInt next key val).1.Exact := by
  obtain ⟨i, hk, -, -⟩ | ⟨hx, hr⟩ | ⟨w, -, hk, -⟩ | ⟨-, -, hr⟩ :=
    setIndexedInt_cases hw hf next key val
  · exact absurd (List.mem_of_getElem? hk) hnew
  · rw [hr]
    obtain ⟨-, -, -, ha | ⟨hu, -⟩⟩ := extendsVerifiedPrefix_spec hw hx
    · simpa [Exact] using ha
    · exact absurd hu hok
  · exact absurd (List.mem_of_getElem? hk) hnew
  · rw [hr]
    exact .of_lt (by simp)

/-- An entry that a read returns is there, whether or not the prefix can be followed. -/
theorem mem_of_getInt {h : HashStorage P} (hw : h.Wf) (hg : h.getInt key = some v) :
    .int key ∈ keysOf h.entries := by
  rcases Option.or_eq_some_iff.1 hg with hp | ⟨-, hp⟩
  · exact List.mem_map_of_mem (positionalInt_eq_some hp)
  · obtain ⟨i, hi, -⟩ := Option.bind_eq_some_iff.1 hp
    have hfind : h.find (.int key) = some i := hi
    exact List.mem_of_getElem? (find_sound hw hfind)

/-- The first key is found by its distance to itself. -/
theorem getInt_first {h : HashStorage P} (hk : intKeyAt h.entries 0 = some key) :
    (h.getInt key).isSome = true := by
  have hsub : key.checkedSub key = some .zero := I64.checkedSub_eq_some.2 (by simp [I64.zero])
  have hz : I64.zero.toUsize? = some 0 := by decide
  obtain ⟨⟨k, v⟩, he, -⟩ := Option.map_eq_some_iff.1
    ((keysOf_getElem? h.entries 0).symm.trans (intKeyAt_eq_some.1 hk))
  have hpos : h.positionalInt key = some v := by
    simp [positionalInt, hk, hsub, hz, he]
  simp [getInt, hpos]

end HashStorage

namespace PhpArray

/-- The last integer key is found if it is there: the prefix can be followed, or that key is not
behind the first one. -/
def FindsLast (a : PhpArray P) : Prop :=
  a.storage.Exact ∨ .int .max ∉ (keysOf a.iter).tail

/-- Automatic keys are free: the automatic key lies above the integer keys, packed values end at
it, and the last integer key is found. -/
structure Appendable (a : PhpArray P) : Prop where
  wf : a.Wf
  fits : Fits a.iter
  dense : ∀ values, a.storage = .packed values → (values.length : Int) = a.nextIntKey.val
  last : a.FindsLast

/-- The append is refused exactly if the last integer key is the next one and taken; otherwise the
value stands at the end, under the next key, which was free. -/
structure AppendsAtNext (a : PhpArray P) (val : Value P) : Prop where
  refused : a.nextIntKey = .max ∧ .int .max ∈ keysOf a.iter → a.tryPush val = (a, false)
  appended : ¬ (a.nextIntKey = .max ∧ .int .max ∈ keysOf a.iter) →
    (a.tryPush val).2 = true ∧ .int a.nextIntKey ∉ keysOf a.iter ∧
      (a.tryPush val).1.iter = a.iter ++ [(.int a.nextIntKey, val)]

theorem findsLast_of {a b : PhpArray P} (h : a.FindsLast)
    (he : a.storage.Exact → b.storage.Exact)
    (ht : (keysOf b.iter).tail.Sublist (keysOf a.iter).tail) : b.FindsLast := by
  rcases h with hexact | hmax
  · exact .inl (he hexact)
  · exact .inr fun hm => hmax (ht.subset hm)

theorem getInt_max_iff {a : PhpArray P} (hw : a.storage.Wf) (hf : Fits a.iter) (hl : a.FindsLast) :
    (a.getInt .max).isSome = true ↔ .int .max ∈ keysOf a.iter := by
  by_cases he : a.storage.Exact
  · rw [getInt_eq hw hf he, Option.isSome_iff_ne_none, Ne, getKey_eq_none, not_not]
  · have hl := hl.resolve_left he
    cases hs : a.storage with
    | hash h =>
      rw [hs] at hw
      simp only [getInt, iter, hs] at hl ⊢
      constructor
      · intro hg
        obtain ⟨v, hv⟩ := Option.isSome_iff_exists.1 hg
        exact HashStorage.mem_of_getInt hw hv
      · intro hm
        refine HashStorage.getInt_first (intKeyAt_eq_some.2 ?_)
        cases hk : keysOf h.entries with
        | nil =>
          rw [hk] at hm
          cases hm
        | cons x rest =>
          rw [hk] at hm hl
          rcases List.mem_cons.1 hm with rfl | hm
          · rfl
          · exact absurd hm hl
    | packed values =>
      rw [hs] at he
      exact absurd trivial he
    | smallHash entries =>
      rw [hs] at he
      exact absurd trivial he
    | linearHash linear =>
      rw [hs] at he
      exact absurd trivial he

theorem canPush_iff {a : PhpArray P} (h : a.Appendable) :
    a.canPush = true ↔ ¬ (a.nextIntKey = .max ∧ .int .max ∈ keysOf a.iter) := by
  rw [← getInt_max_iff h.wf.storage h.fits h.last]
  simp only [canPush, ne_eq, decide_not, Bool.or_eq_true, Bool.not_eq_eq_eq_not, Bool.not_true,
    decide_eq_false_iff_not, Option.isNone_iff_eq_none, not_and, Option.isSome_iff_ne_none, not_not]
  exact ⟨fun h hn => h.resolve_left (not_not.2 hn), fun h => or_iff_not_imp_left.2 fun hn =>
    h (not_not.1 hn)⟩

theorem next_not_mem {a : PhpArray P} (h : a.Appendable) (hc : a.canPush = true) :
    .int a.nextIntKey ∉ keysOf a.iter := by
  intro hk
  rcases h.wf.below _ hk with hlt | hmax
  · omega
  · exact (canPush_iff h).1 hc ⟨hmax, hmax ▸ hk⟩

theorem packed_push_iter {a : PhpArray P} (h : a.Appendable) (hs : a.storage = .packed values)
    (val : Value P) :
    packedEntries (values ++ [val]) = a.iter ++ [(.int a.nextIntKey, val)] := by
  have hiter : a.iter = packedEntries values := by simp [iter, hs]
  have hfv : Fits values := by
    have := h.fits
    unfold Fits at *
    rwa [hiter, packedEntries_length] at this
  have hkey : I64.wrap values.length = a.nextIntKey :=
    I64.ext ((hfv.wrap_val (le_refl _)).trans (h.dense values hs))
  rw [packedEntries_concat, hiter, hkey]

theorem Appendable.appendsAtNext {a : PhpArray P} (h : a.Appendable) (val : Value P) :
    a.AppendsAtNext val := by
  refine ⟨fun hr => ?_, fun hn => ?_⟩
  · rw [tryPush, if_neg]
    rw [canPush_iff h, not_not]
    exact hr
  · have hc := (canPush_iff h).2 hn
    have hnew := next_not_mem h hc
    refine ⟨?_, hnew, ?_⟩
    · rw [tryPush, if_pos hc]
      simp only
      split <;> rfl
    · rcases tryPush_cases h.wf h.fits hc val with ⟨values, hs, hr⟩ | hwr
      · rw [hr]
        exact packed_push_iter h hs val
      · rw [hwr.iter]
        exact putKey_of_new (positionOf_eq_none.2 hnew) val

/-! What each operation keeps. -/

theorem EntersUnrepresentable.iter_eq {a : PhpArray P} (h : a.EntersUnrepresentable key) :
    ∃ first v, a.iter = [(.int first, v)] ∧ key.checkedSub first = none := by
  cases hs : a.storage with
  | hash hash =>
    rw [EntersUnrepresentable, hs] at h
    obtain ⟨-, hlen, first, hfirst, hsub⟩ := h
    obtain ⟨⟨k, v⟩, he⟩ := List.length_eq_one_iff.1 hlen
    rw [he] at hfirst
    cases k with
    | int k =>
      cases hfirst
      exact ⟨first, v, by simp [iter, hs, he], hsub⟩
    | string k => cases hfirst
  | packed values =>
    rw [EntersUnrepresentable, hs] at h
    exact h.elim
  | smallHash entries =>
    rw [EntersUnrepresentable, hs] at h
    exact h.elim
  | linearHash linear =>
    rw [EntersUnrepresentable, hs] at h
    exact h.elim

/-- A write can only hide the last integer key by putting it there. -/
theorem Written.findsLast {a b : PhpArray P} (h : Written a key val b) (hl : a.FindsLast)
    (hmax : key = .int .max → key ∉ keysOf a.iter → b.storage.Exact) : b.FindsLast := by
  have hkeys := keysOf_putKey a.iter key val
  rw [← h.iter] at hkeys
  split at hkeys
  · by_cases he : a.storage.Exact ∧ ∀ k, key = .int k → ¬ a.EntersUnrepresentable k
    · exact .inl (h.exact he.1 he.2)
    · rcases hl with hexact | hl
      · simp only [hexact, true_and, not_forall, not_not] at he
        obtain ⟨k, -, hu⟩ := he
        obtain ⟨first, v, hiter, -⟩ := hu.iter_eq
        rw [hiter] at hkeys
        exact .inr (by rw [hkeys]; simp [keysOf])
      · exact .inr (hkeys ▸ hl)
  · rename_i hnew
    by_cases hk : key = .int .max
    · exact .inl (hmax hk hnew)
    · have htail : ∀ keys : List ArrayKey, .int .max ∉ keys.tail →
          .int .max ∉ (keys ++ [key]).tail := by
        intro keys hm
        cases keys with
        | nil => simp
        | cons x rest =>
          simp only [List.cons_append, List.tail_cons, List.mem_append, List.mem_singleton, not_or]
          exact ⟨hm, fun he => hk he.symm⟩
      by_cases he : a.storage.Exact ∧ ∀ k, key = .int k → ¬ a.EntersUnrepresentable k
      · exact .inl (h.exact he.1 he.2)
      · refine .inr (hkeys ▸ htail _ ?_)
        rcases hl with hexact | hl
        · simp only [hexact, true_and, not_forall, not_not] at he
          obtain ⟨k, -, hu⟩ := he
          obtain ⟨first, v, hiter, -⟩ := hu.iter_eq
          simp [hiter, keysOf]
        · exact hl

/-- A new key leaves a prefix that can be followed, unless it enters the unrepresentable state. -/
theorem Written.exact_of_new {a b : PhpArray P} {key : I64} (h : Written a (.int key) val b)
    (hw : a.storage.Wf) (hf : Fits a.iter) (hnew : .int key ∉ keysOf a.iter)
    (hok : ¬ a.EntersUnrepresentable key)
    (hhash : ∀ hash, a.storage = .hash hash →
      ∃ next, b.storage = .hash (hash.setIndexedInt next key val).1) : b.storage.Exact := by
  by_cases he : a.storage.Exact
  · refine h.exact he ?_
    rintro k ⟨rfl⟩
    exact hok
  · cases hs : a.storage with
    | hash hash =>
      obtain ⟨next, hb⟩ := hhash hash hs
      rw [hs] at hw
      have hiter : a.iter = hash.entries := by simp [PhpArray.iter, hs]
      rw [hiter] at hf hnew
      rw [hb]
      refine HashStorage.setIndexedInt_exact_of_new hw hf hnew (fun hu => hok ?_) next val
      rwa [EntersUnrepresentable, hs]
    | _ => simp [hs, ArrayStorage.Exact] at he

theorem setInt_exact_of_new {a : PhpArray P} {key : I64} (hw : a.Wf) (hf : Fits a.iter)
    (hnew : .int key ∉ keysOf a.iter) (hok : ¬ a.EntersUnrepresentable key) (val : Value P) :
    (a.setInt key val).storage.Exact := by
  rcases setInt_cases hw hf val with ⟨values, -, -, hr⟩ | hwr
  · rw [hr]
    trivial
  · have hsto := startIntKeys_storage a key
    refine hwr.exact_of_new (hsto ▸ hw.storage) (by rwa [startIntKeys_iter])
      (by rwa [startIntKeys_iter]) (by rwa [entersUnrepresentable_startIntKeys]) fun hash hs =>
        ⟨(a.startIntKeys key).nextIntKey, ?_⟩
    simp [setInt, setPreparedInt, hs, setHashInt]

theorem setInt_appendable {a : PhpArray P} {key : I64} (h : a.Appendable)
    (hst : a.StartsAbove key) (hlast : key = .max → ¬ a.EntersUnrepresentable .max)
    (val : Value P) (hf : Fits (a.setInt key val).iter) : (a.setInt key val).Appendable := by
  have hwf := setInt_wf h.wf hst h.fits val hf
  have hexact : ArrayKey.int key = .int .max → .int key ∉ keysOf a.iter →
      (a.setInt key val).storage.Exact := by
    rintro ⟨rfl⟩ hnew
    exact setInt_exact_of_new h.wf h.fits hnew (hlast rfl) val
  rcases setInt_cases h.wf h.fits val with ⟨values, hs, hk, hr⟩ | hwr
  · refine ⟨hwf, hf, fun values' hv => ?_, .inl (by rw [hr]; trivial)⟩
    rw [hr] at hv
    cases hv
    have hle := hwf.packed (values ++ [val]) (by rw [hr])
    have hlen := h.dense values hs
    rw [hr] at hle ⊢
    simp only [List.length_append, List.length_singleton] at hle ⊢
    rw [I64.saturatingSucc_val] at hle ⊢
    rw [hk] at hle ⊢
    split at hle <;> split <;> omega
  · refine ⟨hwf, hf, fun values hv => ?_, hwr.findsLast ?_ (by rwa [startIntKeys_iter])⟩
    · obtain ⟨old, hold, hlen, hmem⟩ := hwr.packed values hv
      rw [startIntKeys_storage] at hold
      rw [hwr.next, nextAfter, if_pos hmem, hlen, h.dense old hold]
      rw [startIntKeys_iter] at hmem
      rcases startIntKeys_next a key with hn | ⟨hneg, -⟩
      · rw [hn]
      · exact absurd hmem (not_mem_packed_of_neg hold h.fits hneg)
    · have := h.last
      unfold FindsLast at *
      rwa [startIntKeys_storage, startIntKeys_iter]

theorem setStr_appendable {a : PhpArray P} (h : a.Appendable) (key : String) (val : Value P)
    (hf : Fits (a.setStr key val).iter) : (a.setStr key val).Appendable := by
  have hwr := setStr_written h.wf.storage h.fits key val
  refine ⟨setStr_wf h.wf h.fits key val, hf, fun values hv => ?_, hwr.findsLast h.last (by simp)⟩
  obtain ⟨old, hold, hlen, -⟩ := hwr.packed values hv
  rw [hwr.next, hlen]
  exact h.dense old hold

theorem tryPush_appendable {a : PhpArray P} (h : a.Appendable)
    (hlast : a.nextIntKey = .max → ¬ a.EntersUnrepresentable .max) (val : Value P)
    (hf : Fits (a.tryPush val).1.iter) : (a.tryPush val).1.Appendable := by
  by_cases hc : a.canPush = true
  · have hwf := tryPush_wf h.wf h.fits val hf
    have hnew := next_not_mem h hc
    rcases tryPush_cases h.wf h.fits hc val with ⟨values, hs, hr⟩ | hwr
    · refine ⟨hwf, hf, fun values' hv => ?_, .inl (by rw [hr]; trivial)⟩
      rw [hr] at hv
      cases hv
      have hle := hwf.packed (values ++ [val]) (by rw [hr])
      have hlen := h.dense values hs
      rw [hr] at hle ⊢
      simp only [afterKey, List.length_append, List.length_singleton] at hle ⊢
      rw [I64.saturatingSucc_val] at hle ⊢
      split at hle <;> split <;> omega
    · refine ⟨hwf, hf, fun values hv => ?_, hwr.findsLast h.last fun hk hnew => ?_⟩
      · obtain ⟨-, -, -, hmem⟩ := hwr.packed values hv
        exact absurd hmem hnew
      · have hk : a.nextIntKey = .max := ArrayKey.int_injective hk
        refine hwr.exact_of_new h.wf.storage h.fits hnew ?_ fun hash hs =>
          ⟨a.nextIntKey.saturatingSucc, ?_⟩
        · rw [hk]
          exact hlast hk
        · have hs : a.storage = .hash hash := hs
          simp [tryPush, hc, hs, promoteFull, pushExplicit, setHashInt]
  · rw [tryPush, if_neg hc]
    exact h

theorem SameMap.appendable {a b : PhpArray P} (h : SameMap a b) (ha : a.Appendable)
    (hp : ∀ values, b.storage = .packed values → a.storage = .packed values) : b.Appendable where
  wf := h.wf ha.wf hp
  fits := by
    rw [h.iter]
    exact ha.fits
  dense := fun values hv => by
    rw [h.next]
    exact ha.dense values (hp values hv)
  last := findsLast_of ha.last h.exact (by rw [h.iter])

theorem takeWithPosition_appendable {a : PhpArray P} (h : a.Appendable) (key : ArrayKey) :
    (a.takeWithPosition key).1.Appendable := by
  obtain ⟨entries, hholds, -, hp, hs, -⟩ := takeWithPosition_spec h.wf.storage h.fits key
  refine ⟨takeWithPosition_wf h.wf h.fits key, ?_, fun values hv => absurd hv (hp values),
    findsLast_of h.last hholds.exact ?_⟩
  · rw [hholds.iter]
    exact h.fits.sublist hs
  · rw [hholds.iter]
    exact (hs.map Prod.fst).tail

theorem pop_appendable {a : PhpArray P} (h : a.Appendable) : a.pop.1.Appendable := by
  rcases pop_spec h.wf.storage with ⟨-, hr⟩ | ⟨key, value, -, hholds, -, hp⟩
  · rw [hr]
    exact h
  · have hsub : a.iter.dropLast.Sublist a.iter := List.dropLast_sublist _
    refine ⟨pop_wf h.wf h.fits, ?_, fun values' hv => ?_, findsLast_of h.last hholds.exact ?_⟩
    · rw [hholds.iter]
      exact h.fits.sublist hsub
    · rcases hp with ⟨values, hs, hps, hn⟩ | ⟨hnp, -⟩
      · rw [hps] at hv
        cases hv
        have hfv : Fits values := by
          have := h.fits
          unfold Fits at *
          simpa [iter, hs] using this
        rw [hn, hfv.wrap_val (by simp)]
      · exact absurd hv (hnp values')
    · rw [hholds.iter]
      exact (hsub.map Prod.fst).tail

theorem max_not_mem_renumber {l : List (Entry P)} (hf : Fits l) :
    .int .max ∉ keysOf (renumber 0 l) := by
  intro hm
  obtain ⟨m, -, hlt, hk⟩ := int_mem_renumber hm
  have hle := intKeyCount_le l
  unfold Fits at hf
  have hval : (I64.wrap (m : Nat)).val = m := I64.wrap_val (by unfold i64Min; omega)
  rw [← hk] at hval
  simp only [I64.max] at hval
  omega

theorem shift_appendable {a : PhpArray P} (h : a.Appendable) : a.shift.1.Appendable := by
  obtain ⟨hp, ⟨-, hsame⟩ | ⟨key, value, rest, hiter, hholds, -⟩⟩ := shift_spec h.wf.storage h.fits
  · exact hsame.appendable h fun values hv => absurd hv (hp values)
  · have hf : Fits rest := by
      refine h.fits.sublist ?_
      rw [hiter]
      exact List.sublist_cons_self _ _
    refine ⟨shift_wf h.wf h.fits, ?_, fun values hv => absurd hv (hp values), .inr fun hm => ?_⟩
    · rw [hholds.iter]
      unfold Fits at *
      rwa [renumber_length]
    · rw [hholds.iter] at hm
      exact max_not_mem_renumber hf (List.mem_of_mem_tail hm)

theorem clone_appendable {a : PhpArray P} (h : a.Appendable) (view : CellView P) :
    (a.clone view).Appendable := by
  obtain ⟨hholds, hn, hp⟩ := clone_spec h.wf.storage view
  have hkeys : keysOf (a.clone view).iter = keysOf a.iter := by
    rw [hholds.iter, keysOf_mapValues]
  refine ⟨clone_wf h.wf view, Fits.of_keys h.fits hkeys, fun values hv => ?_,
    findsLast_of h.last hholds.exact (by rw [hkeys])⟩
  obtain ⟨old, hold, hlen⟩ := hp values hv
  rw [hn, ← hlen]
  exact h.dense old hold

theorem afterGetStr_appendable {a : PhpArray P} (h : a.Appendable) : a.afterGetStr.Appendable := by
  refine (afterGetStr_same h.wf.storage).appendable h fun values hv => ?_
  unfold afterGetStr at hv
  split at hv
  · cases hv
  · exact hv

theorem SameKeys.appendable {a b : PhpArray P} (h : SameKeys a b) (ha : a.Appendable) :
    b.Appendable := by
  refine ⟨h.wf ha.wf, h.fits ha.fits, fun values hv => ?_,
    findsLast_of ha.last h.exact (by rw [h.keys])⟩
  obtain ⟨old, hold, hlen⟩ := h.packed values hv
  rw [h.next, ← hlen]
  exact ha.dense old hold

theorem packed_appendable {a : PhpArray P} (hs : a.storage = .packed values) (hf : Fits a.iter)
    (hlen : (values.length : Int) = a.nextIntKey.val) : a.Appendable := by
  refine ⟨packed_wf hs hf hlen.le, hf, fun values' hv => ?_, .inl (by rw [hs]; trivial)⟩
  rw [hs] at hv
  cases hv
  exact hlen

theorem Sound.appendable {a : PhpArray P} (h : a.Sound) (hl : a.FindsLast) : a.Appendable :=
  ⟨h.wf, h.fits, h.dense, hl⟩

end PhpArray

end Rphp
