import Rphp.Value.Array.IntWrites

namespace Rphp
open Rphp.Lib
set_option autoImplicit true

theorem Fits.sublist {l l' : List α} (h : Fits l) (hs : l'.Sublist l) : Fits l' := by
  have := hs.length_le
  unfold Fits at *
  omega

theorem I64.wrappingPred_val (a : I64) :
    a.wrappingPred.val = if a.val = i64Min then i64Max else a.val - 1 := by
  have ha := a.inRange
  split
  · rename_i h
    rw [wrappingPred, h]
    rfl
  · rw [wrappingPred, wrap_val]
    unfold i64Min i64Max at *
    omega

/-! Renumbering. -/

@[simp] theorem renumber_length (l : List (Entry P)) (n : Nat) :
    (renumber n l).length = l.length := by
  induction l generalizing n with
  | nil => rfl
  | cons e l ih =>
    obtain ⟨_ | _, v⟩ := e <;> simp [renumber, ih]

theorem intKeyCount_le (l : List (Entry P)) : intKeyCount l ≤ l.length := List.countP_le_length

theorem intKeyCount_cons (e : Entry P) (l : List (Entry P)) :
    intKeyCount (e :: l) = intKeyCount l + if (intEntry 0 e).isSome then 1 else 0 := by
  rw [intKeyCount, List.countP_cons]
  rfl

/-- Renumbered integer keys count up from the start. -/
theorem int_mem_renumber {l : List (Entry P)} (h : .int k ∈ keysOf (renumber n l)) :
    ∃ m, n ≤ m ∧ m < n + intKeyCount l ∧ k = I64.wrap m := by
  induction l generalizing n with
  | nil => simp [renumber, keysOf] at h
  | cons e l ih =>
    obtain ⟨key | key, v⟩ := e
    · rw [intKeyCount_cons]
      simp only [renumber, keysOf, List.map_cons, List.mem_cons, ArrayKey.int.injEq] at h
      rcases h with rfl | h
      · exact ⟨n, by omega, by simp [intEntry], rfl⟩
      · obtain ⟨m, h1, h2, h3⟩ := ih h
        exact ⟨m, by omega, by simp [intEntry]; omega, h3⟩
    · rw [intKeyCount_cons]
      simp only [renumber, keysOf, List.map_cons, List.mem_cons, reduceCtorEq, false_or] at h
      obtain ⟨m, h1, h2, h3⟩ := ih h
      exact ⟨m, h1, by omega, h3⟩

theorem string_mem_renumber {l : List (Entry P)} :
    .string s ∈ keysOf (renumber n l) ↔ .string s ∈ keysOf l := by
  induction l generalizing n with
  | nil => rfl
  | cons e l ih =>
    obtain ⟨key | key, v⟩ := e
    · have := ih (n := n + 1)
      simp only [renumber, keysOf, List.map_cons, List.mem_cons, reduceCtorEq, false_or] at *
      exact this
    · have := ih (n := n)
      simp only [renumber, keysOf, List.map_cons, List.mem_cons] at *
      rw [this]

theorem wrap_injective_of_fits {m n : Nat} (h1 : (m : Int) ≤ i64Max) (h2 : (n : Int) ≤ i64Max)
    (h : I64.wrap m = I64.wrap n) : m = n := by
  have e1 : (I64.wrap m).val = m := I64.wrap_val (by unfold i64Min i64Max at *; omega)
  have e2 : (I64.wrap n).val = n := I64.wrap_val (by unfold i64Min i64Max at *; omega)
  rw [h, e2] at e1
  omega

theorem renumber_nodup {l : List (Entry P)} (hnd : (keysOf l).Nodup)
    (hf : ((n + l.length : Nat) : Int) ≤ i64Max) : (keysOf (renumber n l)).Nodup := by
  induction l generalizing n with
  | nil => simp [renumber, keysOf]
  | cons e l ih =>
    have hnd' := List.nodup_cons.1 hnd
    simp only [List.length_cons] at hf
    obtain ⟨key | key, v⟩ := e
    · refine List.nodup_cons.2 ⟨fun hm => ?_, ih hnd'.2 (by omega)⟩
      obtain ⟨m, h1, h2, h3⟩ := int_mem_renumber hm
      have hle := intKeyCount_le l
      have := wrap_injective_of_fits (m := n) (n := m) (by omega) (by omega) h3
      omega
    · exact List.nodup_cons.2 ⟨fun hm => hnd'.1 (string_mem_renumber.1 hm), ih hnd'.2 (by omega)⟩

namespace PhpArray

/-- Another list of entries in a storage that has its indexes right. -/
structure Holds (a b : PhpArray P) (entries : List (Entry P)) : Prop where
  storage : b.storage.Wf
  iter : b.iter = entries
  initialized : b.intKeyInitialized = a.intKeyInitialized
  exact : a.storage.Exact → b.storage.Exact
  fresh : a.storage.Fresh → b.storage.Fresh

theorem SameMap.holds {a b : PhpArray P} (h : SameMap a b) : Holds a b a.iter :=
  ⟨h.storage, h.iter, h.initialized, h.exact, h.fresh⟩

theorem Holds.of_same {a b c : PhpArray P} (h : SameMap a b) (h' : Holds b c entries) :
    Holds a c entries :=
  ⟨h'.storage, h'.iter, h'.initialized.trans h.initialized, fun he => h'.exact (h.exact he),
    fun hc => h'.fresh (h.fresh hc)⟩

theorem nodup_eraseIdx {l : List (Entry P)} (h : (keysOf l).Nodup) (i : Nat) :
    (keysOf (l.eraseIdx i)).Nodup := by
  rw [keysOf_eraseIdx]
  exact h.sublist (List.eraseIdx_sublist _ _)

theorem findForRemoval_sound {a : PhpArray P} (hw : a.storage.Wf)
    (h : a.findForRemoval key = some i) : (keysOf a.iter)[i]? = some key := by
  obtain ⟨values | entries | linear | h', next, init⟩ := a
  · cases h
  · exact (positionOf_eq_some hw).1 h
  · cases key with
    | int key => exact (positionOf_eq_some hw.1).1 h
    | string key =>
      refine (positionOf_eq_some hw.1).1 ?_
      rw [← findStrForUpdate_eq hw]
      exact h
  · exact HashStorage.find_sound hw h

theorem findForRemoval_eq {a : PhpArray P} (hp : ∀ values, a.storage ≠ .packed values)
    (hw : a.storage.Wf) (he : a.storage.Exact) (key : ArrayKey) :
    a.findForRemoval key = positionOf a.iter key := by
  obtain ⟨values | entries | linear | h', next, init⟩ := a
  · exact absurd rfl (hp values)
  · rfl
  · cases key with
    | int key => rfl
    | string key => exact findStrForUpdate_eq hw key
  · exact HashStorage.find_eq hw he key

theorem removeAt_holds {a : PhpArray P} (hp : ∀ values, a.storage ≠ .packed values)
    (hw : a.storage.Wf) (hf : Fits a.iter) (hi : i < a.iter.length) :
    Holds a (a.removeAt i) (a.iter.eraseIdx i) ∧ (a.removeAt i).nextIntKey = a.nextIntKey ∧
      ∀ values, (a.removeAt i).storage ≠ .packed values := by
  obtain ⟨values | entries | linear | h, next, init⟩ := a
  · exact absurd rfl (hp values)
  · exact ⟨⟨nodup_eraseIdx hw i, rfl, rfl, id, id⟩, rfl, by simp [removeAt]⟩
  · exact ⟨⟨fromEntries_wf (nodup_eraseIdx hw.1 i), rfl, rfl, id, id⟩, rfl, by simp [removeAt]⟩
  · obtain ⟨hw', he'⟩ := HashStorage.removeAt_wf hw hf hi
    refine ⟨⟨hw', rfl, rfl, fun _ => he', fun _ => ?_⟩, rfl, by simp [removeAt]⟩
    exact rebuildIntIndex_fresh (hf.sublist (List.eraseIdx_sublist _ _))

/-- Removal of a found entry, or nothing. -/
theorem takeWithPosition_spec {a : PhpArray P} (hw : a.storage.Wf) (hf : Fits a.iter)
    (key : ArrayKey) : ∃ entries, Holds a (a.takeWithPosition key).1 entries ∧
      (a.takeWithPosition key).1.nextIntKey = a.nextIntKey ∧
      (∀ values, (a.takeWithPosition key).1.storage ≠ .packed values) ∧
      entries.Sublist a.iter ∧ (a.storage.Exact → entries = removeKey a.iter key) := by
  have hsame := transitionToHash_same hw hf
  have hnp := transitionToHash_not_packed a
  have hfb : Fits a.transitionToHash.iter := by rwa [hsame.iter]
  simp only [takeWithPosition]
  cases hfind : a.transitionToHash.findForRemoval key with
  | none =>
    refine ⟨a.iter, hsame.holds, hsame.next, hnp, List.Sublist.refl _, fun he => ?_⟩
    rw [findForRemoval_eq hnp hsame.storage (hsame.exact he), hsame.iter] at hfind
    rw [removeKey, hfind]
  | some i =>
    have hk := findForRemoval_sound hsame.storage hfind
    have hi : i < a.transitionToHash.iter.length := by
      rw [← keysOf_length]
      exact (List.getElem?_eq_some_iff.1 hk).1
    obtain ⟨hholds, hnext, hp⟩ := removeAt_holds hnp hsame.storage hfb hi
    rw [hsame.iter] at hholds
    refine ⟨_, .of_same hsame hholds, hnext.trans hsame.next, hp, List.eraseIdx_sublist _ _,
      fun he => ?_⟩
    rw [findForRemoval_eq hnp hsame.storage (hsame.exact he), hsame.iter] at hfind
    rw [removeKey, hfind]

/-- Fewer entries under the same automatic key. -/
theorem Holds.wf {a b : PhpArray P} (h : Holds a b entries) (hw : a.Wf)
    (hn : b.nextIntKey = a.nextIntKey) (hp : ∀ values, b.storage ≠ .packed values)
    (hs : entries.Sublist a.iter) : b.Wf where
  storage := h.storage
  below := fun k hk => by
    rw [h.iter] at hk
    rw [hn]
    exact hw.below k ((hs.map Prod.fst).subset hk)
  packed := fun values hv => absurd hv (hp values)

theorem takeWithPosition_wf {a : PhpArray P} (hw : a.Wf) (hf : Fits a.iter) (key : ArrayKey) :
    (a.takeWithPosition key).1.Wf := by
  obtain ⟨entries, hholds, hn, hp, hs, -⟩ := takeWithPosition_spec hw.storage hf key
  exact hholds.wf hw hn hp hs

/-! The last entry. -/

theorem getLast?_eq_some_concat {l : List α} (h : l.getLast? = some x) :
    l = l.dropLast ++ [x] := by
  obtain ⟨init, rfl⟩ := List.getLast?_eq_some_iff.1 h
  simp

/-- Popping drops the last entry and lowers the automatic key if it was the one just below. -/
theorem pop_spec {a : PhpArray P} (hw : a.storage.Wf) :
    (a.iter = [] ∧ a.pop = (a, none)) ∨
    ∃ key value, a.iter.getLast? = some (key, value) ∧
      Holds a a.pop.1 a.iter.dropLast ∧ a.pop.2 = some value ∧
      ((∃ values, a.storage = .packed values ∧ a.pop.1.storage = .packed values.dropLast ∧
        a.pop.1.nextIntKey = I64.wrap values.dropLast.length) ∨
        (∀ values, a.pop.1.storage ≠ .packed values) ∧
          a.pop.1.nextIntKey = lowerNextIntKey a.nextIntKey key) := by
  obtain ⟨values | entries | linear | h, next, init⟩ := a
  · simp only [pop]
    cases hl : values.getLast? with
    | none => exact .inl ⟨by simp [iter, List.getLast?_eq_none_iff.1 hl, packedEntries], rfl⟩
    | some v =>
      refine .inr ⟨.int (I64.wrap values.dropLast.length), v, ?_,
        ⟨trivial, packedEntries_dropLast _, rfl, id, id⟩, rfl, .inl ⟨values, rfl, rfl, rfl⟩⟩
      obtain ⟨vs, rfl⟩ := List.getLast?_eq_some_iff.1 hl
      simp [iter, packedEntries_concat]
  · simp only [pop]
    cases hl : entries.getLast? with
    | none => exact .inl ⟨List.getLast?_eq_none_iff.1 hl, rfl⟩
    | some e =>
      obtain ⟨key, value⟩ := e
      refine .inr ⟨key, value, hl, ⟨?_, rfl, rfl, id, id⟩, rfl, .inr ⟨by simp, rfl⟩⟩
      exact (hw : (keysOf entries).Nodup).sublist ((List.dropLast_sublist _).map _)
  · simp only [pop]
    cases hl : linear.entries.getLast? with
    | none => exact .inl ⟨List.getLast?_eq_none_iff.1 hl, rfl⟩
    | some e =>
      obtain ⟨key, value⟩ := e
      refine .inr ⟨key, value, hl, ⟨?_, rfl, rfl, id, id⟩, rfl, .inr ⟨by simp, rfl⟩⟩
      exact fromEntries_wf (hw.1.sublist ((List.dropLast_sublist _).map _))
  · simp only [pop]
    cases hl : h.entries.getLast? with
    | none => exact .inl ⟨List.getLast?_eq_none_iff.1 hl, rfl⟩
    | some e =>
      obtain ⟨key, value⟩ := e
      have hc := getLast?_eq_some_concat hl
      obtain ⟨hw', he'⟩ := HashStorage.popKey_wf hw hc
      have hentries : (h.popKey key).entries = h.entries.dropLast := by
        cases key with
        | string s => rfl
        | int k =>
          simp only [HashStorage.popKey]
          split <;> rfl
      exact .inr ⟨key, value, hl, ⟨hw', hentries, rfl, he', fun hcf =>
        HashStorage.popKey_fresh hw hcf hc⟩, rfl, .inr ⟨by simp, rfl⟩⟩

/-- Below a lowered automatic key there is still every other integer key. -/
theorem lowerNextIntKey_below {next k : I64} (hk : k.val < next.val ∨ k = .max)
    (hne : key ≠ .int k) : k.val < (lowerNextIntKey next key).val ∨ k = .max := by
  cases key with
  | string s => exact hk
  | int key =>
    rw [lowerNextIntKey]
    split
    · rename_i hkey
      rcases hk with hk | hk
      · have hkr := k.inRange
        have hkk : k.val ≠ key.val := fun h => hne (congrArg _ (I64.ext h.symm))
        have hv := I64.wrappingPred_val next
        rw [← hkey] at hv ⊢
        rw [if_neg (by omega)] at hv
        exact .inl (by omega)
      · exact .inr hk
    · exact hk

theorem pop_wf {a : PhpArray P} (hw : a.Wf) (hf : Fits a.iter) : a.pop.1.Wf := by
  rcases pop_spec hw.storage with ⟨-, hr⟩ | ⟨key, value, hl, hholds, -, hp | ⟨hp, hn⟩⟩
  · rw [hr]
    exact hw
  · obtain ⟨values, hs, hps, hn⟩ := hp
    have hiter : a.iter = packedEntries values := by simp [iter, hs]
    have hfv : Fits values := by
      unfold Fits at *
      rwa [hiter, packedEntries_length] at hf
    refine packed_wf hps ?_ ?_
    · rw [hholds.iter]
      exact hf.sublist (List.dropLast_sublist _)
    · rw [hn, hfv.wrap_val (by simp)]
  · have hc := getLast?_eq_some_concat hl
    have hnd := nodup_iter hw.storage hf
    rw [hc, keysOf_append, keysOf_singleton] at hnd
    refine ⟨hholds.storage, fun k hk => ?_, fun values hv => absurd hv (hp values)⟩
    rw [hholds.iter] at hk
    rw [hn]
    refine lowerNextIntKey_below (hw.below k ?_) fun he => ?_
    · exact ((List.dropLast_sublist _).map Prod.fst).subset hk
    · exact (List.nodup_append.1 hnd).2.2 _ hk key (by simp) he.symm

/-! The first entry. -/

theorem shift_spec {a : PhpArray P} (hw : a.storage.Wf) (hf : Fits a.iter) :
    (∀ values, a.shift.1.storage ≠ .packed values) ∧
    ((a.iter = [] ∧ SameMap a a.shift.1) ∨
    ∃ key value rest, a.iter = (key, value) :: rest ∧
      Holds a a.shift.1 (renumber 0 rest) ∧ a.shift.1.nextIntKey = I64.wrap (intKeyCount rest)) := by
  have hsame := transitionToHash_same hw hf
  have hnp := transitionToHash_not_packed a
  have hfb : Fits a.transitionToHash.iter := by rwa [hsame.iter]
  simp only [shift]
  have hrest : ∀ {key value rest}, a.transitionToHash.iter = (key, value) :: rest →
      (keysOf rest).Nodup ∧ Fits (renumber 0 rest) ∧ (keysOf (renumber 0 rest)).Nodup := by
    intro key value rest hb
    have hnd := nodup_iter hsame.storage hfb
    rw [hb] at hnd hfb
    have hnd' : (keysOf rest).Nodup := (List.nodup_cons.1 hnd).2
    unfold Fits at *
    simp only [List.length_cons, Nat.cast_add, Nat.cast_one] at hfb
    exact ⟨hnd', by rw [renumber_length]; omega, renumber_nodup hnd' (by simp; omega)⟩
  generalize hb : a.transitionToHash = b at *
  obtain ⟨values | entries | linear | h, next, init⟩ := b
  · exact absurd rfl (hnp values)
  · cases entries with
    | nil => exact ⟨by simp, .inl ⟨hsame.iter.symm, hsame⟩⟩
    | cons e rest =>
      obtain ⟨-, -, hnd⟩ := hrest rfl
      refine ⟨by simp, .inr ⟨e.1, e.2, rest, hsame.iter.symm, ?_, rfl⟩⟩
      exact ⟨hnd, rfl, hsame.initialized, fun _ => trivial, fun _ => trivial⟩
  · obtain ⟨entries, lookups, index⟩ := linear
    cases entries with
    | nil => exact ⟨by simp, .inl ⟨hsame.iter.symm, hsame⟩⟩
    | cons e rest =>
      obtain ⟨-, -, hnd⟩ := hrest rfl
      refine ⟨by simp, .inr ⟨e.1, e.2, rest, hsame.iter.symm, ?_, rfl⟩⟩
      exact ⟨fromEntries_wf hnd, rfl, hsame.initialized, fun _ => trivial, fun _ => trivial⟩
  · obtain ⟨entries, strIndex, intIndex, verified⟩ := h
    cases entries with
    | nil => exact ⟨by simp, .inl ⟨hsame.iter.symm, hsame⟩⟩
    | cons e rest =>
      obtain ⟨-, hfr, hnd⟩ := hrest rfl
      refine ⟨by simp, .inr ⟨e.1, e.2, rest, hsame.iter.symm, ?_, rfl⟩⟩
      exact ⟨HashStorage.ofEntries_wf hfr hnd, rfl, hsame.initialized,
        fun _ => HashStorage.ofEntries_exact hfr hnd, fun _ => rebuildIntIndex_fresh hfr⟩

theorem shift_wf {a : PhpArray P} (hw : a.Wf) (hf : Fits a.iter) : a.shift.1.Wf := by
  obtain ⟨hp, ⟨-, hsame⟩ | ⟨key, value, rest, hiter, hholds, hn⟩⟩ := shift_spec hw.storage hf
  · exact hsame.wf hw fun values hv => absurd hv (hp values)
  · have hfr : Fits rest := hf.sublist (by rw [hiter]; exact List.sublist_cons_self _ _)
    have hle := intKeyCount_le rest
    refine ⟨hholds.storage, fun k hk => ?_, fun values hv => absurd hv (hp values)⟩
    rw [hholds.iter] at hk
    obtain ⟨m, -, hm, rfl⟩ := int_mem_renumber hk
    rw [hn, hfr.wrap_val hle, hfr.wrap_val (by omega)]
    exact .inl (by omega)

/-! Copies. -/

@[simp] theorem keysOf_mapValues (f : Value P → Value P) (entries : List (Entry P)) :
    keysOf (mapValues f entries) = keysOf entries := by
  simp [keysOf, mapValues]

theorem longAt_mapValues (view : CellView P) {entries : List (Entry P)} {i : Nat}
    (h : longAt entries i = some n) :
    longAt (mapValues (Value.cloneForArrayCow view) entries) i = some n := by
  obtain ⟨e, he, hl⟩ := Option.bind_eq_some_iff.1 h
  have hv : e.2 = .long n := by
    revert hl
    cases e.2 <;> simp [Value.asLong]
  simp [longAt, mapValues, he, hv, Value.cloneForArrayCow, Value.asLong]

/-- Copying an array keeps its keys and copies its values one by one. -/
theorem clone_spec {a : PhpArray P} (hw : a.storage.Wf) (view : CellView P) :
    Holds a (a.clone view) (mapValues (Value.cloneForArrayCow view) a.iter) ∧
      (a.clone view).nextIntKey = a.nextIntKey ∧
      ∀ values, (a.clone view).storage = .packed values →
        ∃ old, a.storage = .packed old ∧ old.length = values.length := by
  obtain ⟨values | entries | linear | h, next, init⟩ := a
  · refine ⟨⟨trivial, ?_, rfl, id, id⟩, rfl, ?_⟩
    · apply List.ext_getElem?
      intro i
      simp [iter, clone, packedEntries_getElem?, mapValues, Function.comp_def]
    · rintro _ ⟨rfl⟩
      exact ⟨values, rfl, by simp⟩
  · refine ⟨⟨?_, rfl, rfl, id, id⟩, rfl, by simp [clone]⟩
    simpa [clone, ArrayStorage.Wf] using hw
  · refine ⟨⟨fromEntries_wf ?_, rfl, rfl, id, id⟩, rfl, by simp [clone]⟩
    simpa using hw.1
  · refine ⟨⟨⟨?_, ?_, ?_⟩, rfl, rfl, fun he => ?_, fun hc => ?_⟩, rfl, by simp [clone]⟩
    · simpa [clone] using hw.nodup
    · simpa [clone] using hw.strs
    · simpa [clone] using hw.ints
    · simpa [ArrayStorage.Exact, HashStorage.Exact, clone] using he
    · intro k w n hl hcl
      exact longAt_mapValues view (hc k w n hl hcl)

theorem clone_wf {a : PhpArray P} (hw : a.Wf) (view : CellView P) : (a.clone view).Wf := by
  obtain ⟨hholds, hn, hp⟩ := clone_spec hw.storage view
  refine ⟨hholds.storage, fun k hk => ?_, fun values hv => ?_⟩
  · rw [hholds.iter, keysOf_mapValues] at hk
    rw [hn]
    exact hw.below k hk
  · obtain ⟨old, hold, hlen⟩ := hp values hv
    rw [hn, ← hlen]
    exact hw.packed old hold

end PhpArray

end Rphp
