import Rphp.Value.Array.WellFormed

namespace Rphp
open Rphp.Lib
set_option autoImplicit true

theorem le_bumpNextIntKey (next key : I64) : next.val ≤ (bumpNextIntKey next key).val := by
  have := next.inRange
  have := key.inRange
  unfold bumpNextIntKey
  split
  · rw [I64.saturatingSucc_val]
    split <;> omega
  · exact le_refl _

theorem lt_bumpNextIntKey (next key : I64) :
    key.val < (bumpNextIntKey next key).val ∨ key = .max := by
  unfold bumpNextIntKey
  split
  · rw [I64.saturatingSucc_val]
    split
    · rename_i hk
      exact .inr (I64.ext hk)
    · exact .inl (by omega)
  · exact .inl (by omega)

namespace PhpArray

def nextAfter (a : PhpArray P) : ArrayKey → I64
  | .int key => if .int key ∈ keysOf a.iter then a.nextIntKey else bumpNextIntKey a.nextIntKey key
  | .string _ => a.nextIntKey

/-- The map after a write in place or at the end. -/
structure Written (a : PhpArray P) (key : ArrayKey) (val : Value P) (b : PhpArray P) : Prop where
  storage : b.storage.Wf
  iter : b.iter = putKey a.iter key val
  next : b.nextIntKey = a.nextAfter key
  initialized : b.intKeyInitialized = a.intKeyInitialized
  packed : ∀ values, b.storage = .packed values → ∃ old, a.storage = .packed old ∧
    values.length = old.length ∧ key ∈ keysOf a.iter
  exact : a.storage.Exact → (∀ k, key = .int k → ¬ a.EntersUnrepresentable k) → b.storage.Exact
  fresh : a.storage.Fresh → b.storage.Fresh

theorem Written.of_same {a b c : PhpArray P} (hs : SameMap a b)
    (hp : ∀ values, b.storage ≠ .packed values) (h : Written b key val c) : Written a key val c where
  storage := h.storage
  iter := by rw [h.iter, hs.iter]
  next := by rw [h.next]; cases key <;> simp only [nextAfter, hs.iter, hs.next]
  initialized := h.initialized.trans hs.initialized
  packed := fun values hv => by
    obtain ⟨old, hold, -⟩ := h.packed values hv
    exact absurd hold (hp old)
  exact := fun he hk => h.exact (hs.exact he) fun k hkey hu => hk k hkey (hs.unrepresentable k hu)
  fresh := fun hc => h.fresh (hs.fresh hc)

/-- Writes keep the automatic key above the integer keys. -/
theorem Written.wf {a b : PhpArray P} (h : Written a key val b)
    (hbelow : ∀ k, .int k ∈ keysOf a.iter → k.val < a.nextIntKey.val ∨ k = .max)
    (hpacked : ∀ old, a.storage = .packed old → key ∈ keysOf a.iter →
      (old.length : Int) ≤ a.nextIntKey.val) : b.Wf where
  storage := h.storage
  below := by
    intro k hk
    have hle : a.nextIntKey.val ≤ b.nextIntKey.val := by
      rw [h.next]
      cases key with
      | string s => exact le_refl _
      | int key =>
        simp only [nextAfter]
        split
        · exact le_refl _
        · exact le_bumpNextIntKey _ _
    have hold : .int k ∈ keysOf a.iter → k.val < b.nextIntKey.val ∨ k = .max := by
      intro hk
      rcases hbelow k hk with hlt | hmax
      · exact .inl (by omega)
      · exact .inr hmax
    rw [h.iter, keysOf_putKey] at hk
    split at hk
    · exact hold hk
    · rename_i hnew
      rcases List.mem_append.1 hk with hk | hk
      · exact hold hk
      · cases List.mem_singleton.1 hk
        rw [h.next, nextAfter, if_neg hnew]
        exact lt_bumpNextIntKey _ _
  packed := by
    intro values hv
    obtain ⟨old, hold, hlen, hmem⟩ := h.packed values hv
    have hnext : b.nextIntKey = a.nextIntKey := by
      rw [h.next]
      cases key with
      | string s => rfl
      | int key => rw [nextAfter, if_pos hmem]
    rw [hlen, hnext]
    exact hpacked old hold hmem

theorem putKey_of_position {l : List (Entry P)} (h : positionOf l key = some i) (val : Value P) :
    putKey l key val = setValue l i val := by
  rw [putKey, h]

theorem putKey_of_new {l : List (Entry P)} (h : positionOf l key = none) (val : Value P) :
    putKey l key val = l ++ [(key, val)] := by
  rw [putKey, h]

theorem mem_keysOf_of_position {l : List (Entry P)} (h : positionOf l key = some i) :
    key ∈ keysOf l := by
  by_contra hn
  rw [positionOf_eq_none.2 hn] at h
  cases h

theorem nodup_concat_of_new {l : List (Entry P)} (hnd : (keysOf l).Nodup)
    (h : positionOf l key = none) (val : Value P) : (keysOf (l ++ [(key, val)])).Nodup := by
  rw [← putKey_of_new h]
  exact nodup_putKey hnd key val

theorem setAt_wf {linear : LinearHash P} (hw : (ArrayStorage.linearHash linear).Wf) (i : Nat)
    (val : Value P) : (ArrayStorage.linearHash (linear.setAt i val)).Wf := by
  simpa [ArrayStorage.Wf, LinearHash.setAt] using hw

theorem fromEntries_wf {entries : List (Entry P)} (hnd : (keysOf entries).Nodup) :
    (ArrayStorage.linearHash (.fromEntries entries)).Wf :=
  ⟨hnd, by simp [LinearHash.fromEntries]⟩

theorem setHashInt_written {a : PhpArray P} {h : HashStorage P} (hs : a.storage = .hash h)
    (hw : a.storage.Wf) (hf : Fits a.iter) (key : I64) (val : Value P) :
    Written a (.int key) val (a.setHashInt key val) := by
  have hiter : a.iter = h.entries := by simp [iter, hs]
  rw [hs] at hw
  rw [hiter] at hf
  simp only [setHashInt, hs]
  refine ⟨HashStorage.setIndexedInt_wf hw hf _ key val, ?_, ?_, rfl, by simp, fun he hk => ?_,
    fun hc => ?_⟩
  · rw [hiter]
    exact HashStorage.setIndexedInt_entries hw hf _ key val
  · rw [nextAfter, hiter]
    exact HashStorage.setIndexedInt_next hw hf _ key val
  · rw [hs] at he
    refine HashStorage.setIndexedInt_exact hw hf he (fun hu => hk key rfl ?_) _ val
    rwa [EntersUnrepresentable, hs]
  · rw [hs] at hc
    exact HashStorage.setIndexedInt_fresh hw hf hc _ key val

theorem setLinearInt_written {a : PhpArray P} (hp : ∀ values, a.storage ≠ .packed values)
    (hsm : ∀ entries, a.storage ≠ .smallHash entries) (hw : a.storage.Wf) (hf : Fits a.iter)
    (key : I64) (val : Value P) : Written a (.int key) val (a.setLinearInt key val) := by
  unfold setLinearInt
  split
  · rename_i linear hs
    have hiter : a.iter = linear.entries := by simp [iter, hs]
    have hwl := hs ▸ hw
    split
    · rename_i i hi
      refine ⟨setAt_wf hwl i val, ?_, ?_, rfl, by simp, fun _ _ => trivial, fun _ => trivial⟩
      · rw [hiter, putKey_of_position hi]
        rfl
      · rw [nextAfter, hiter, if_pos (mem_keysOf_of_position hi)]
    · rename_i hi
      split
      · refine ⟨fromEntries_wf (nodup_concat_of_new hwl.1 hi val), ?_, ?_, rfl, by simp,
          fun _ _ => trivial, fun _ => trivial⟩
        · rw [hiter, putKey_of_new hi]
          rfl
        · rw [nextAfter, hiter, if_neg (positionOf_eq_none.1 hi)]
      · rename_i hlen
        unfold linearHashCapacity at hlen
        have hsame := promoteLinearHash_same hw hf (by rw [hiter]; omega)
        have hps : a.promoteLinearHash.storage = .hash linear.promote := by
          simp [promoteLinearHash, hs]
        refine .of_same hsame (by simp [hps]) (setHashInt_written hps hsame.storage ?_ key val)
        rwa [hsame.iter]
  · rename_i hl
    cases hs : a.storage with
    | packed values => exact absurd hs (hp values)
    | smallHash entries => exact absurd hs (hsm entries)
    | linearHash linear => exact absurd hs (hl linear)
    | hash h => exact setHashInt_written hs hw hf key val

theorem setExplicitInt_written {a : PhpArray P} (hp : ∀ values, a.storage ≠ .packed values)
    (hw : a.storage.Wf) (hf : Fits a.iter) (key : I64) (val : Value P) :
    Written a (.int key) val (a.setExplicitInt key val) := by
  unfold setExplicitInt
  split
  · rename_i entries hs
    have hiter : a.iter = entries := by simp [iter, hs]
    have hnd : (ArrayStorage.smallHash entries).Wf := hs ▸ hw
    split
    · rename_i i hi
      refine ⟨?_, ?_, ?_, rfl, by simp, fun _ _ => trivial, fun _ => trivial⟩
      · simpa [ArrayStorage.Wf] using hnd
      · rw [hiter, putKey_of_position hi]
        rfl
      · rw [nextAfter, hiter, if_pos (mem_keysOf_of_position hi)]
    · rename_i hi
      split
      · refine ⟨nodup_concat_of_new hnd hi val, ?_, ?_, rfl, by simp, fun _ _ => trivial,
          fun _ => trivial⟩
        · rw [hiter, putKey_of_new hi]
          rfl
        · rw [nextAfter, hiter, if_neg (positionOf_eq_none.1 hi)]
      · rename_i hlen
        unfold smallHashCapacity at hlen
        have hsame := promoteSmallHash_same hw hf (by rw [hiter]; omega)
        have hps : a.promoteSmallHash.storage = .hash (.ofEntries entries) := by
          simp [promoteSmallHash, hs]
        refine .of_same hsame (by simp [hps])
          (setLinearInt_written (by simp [hps]) (by simp [hps]) hsame.storage ?_ key val)
        rwa [hsame.iter]
  · rename_i hsm
    exact setLinearInt_written hp hsm hw hf key val

/-- An integer write either extends packed values under the next key or is a write of the map. -/
theorem setPreparedInt_cases {a : PhpArray P} (hw : a.storage.Wf) (hf : Fits a.iter) (key : I64)
    (val : Value P) :
    (∃ values, a.storage = .packed values ∧ key = a.nextIntKey ∧ a.setPreparedInt key val =
      { a with storage := .packed (values ++ [val]), nextIntKey := key.saturatingSucc }) ∨
    Written a (.int key) val (a.setPreparedInt key val) := by
  unfold setPreparedInt
  split
  · rename_i values hs
    have hiter : a.iter = packedEntries values := by simp [iter, hs]
    split
    · rename_i hk
      exact .inl ⟨values, hs, hk, rfl⟩
    · have hfv : Fits values := by
        unfold Fits at *
        rwa [hiter, packedEntries_length] at hf
      have hpos := packedEntries_positionOf hfv key
      right
      split
      · rename_i i hi
        rw [hi] at hpos
        refine ⟨trivial, ?_, ?_, rfl, ?_, fun _ _ => trivial, fun _ => trivial⟩
        · rw [hiter, putKey_of_position hpos]
          exact packedEntries_set values i val
        · rw [nextAfter, hiter, if_pos (mem_keysOf_of_position hpos)]
        · rintro values' ⟨rfl⟩
          exact ⟨values, hs, by simp, hiter ▸ mem_keysOf_of_position hpos⟩
      · have hsame := transitionToHash_same hw hf
        have hnp := transitionToHash_not_packed a
        refine .of_same hsame hnp (setExplicitInt_written hnp hsame.storage ?_ key val)
        rwa [hsame.iter]
  · rename_i h hs
    exact .inr (setHashInt_written hs hw hf key val)
  · rename_i hp _
    exact .inr (setExplicitInt_written hp hw hf key val)

theorem setHashStr_written {a : PhpArray P} {h : HashStorage P} (hs : a.storage = .hash h)
    (hw : a.storage.Wf) (key : String) (val : Value P) :
    Written a (.string key) val (a.setHashStr key val) := by
  have hiter : a.iter = h.entries := by simp [iter, hs]
  rw [hs] at hw
  simp only [setHashStr, hs]
  refine ⟨HashStorage.setIndexedStr_wf hw key val, ?_, rfl, rfl, by simp, fun he _ => ?_,
    fun hc => ?_⟩
  · rw [hiter]
    exact HashStorage.setIndexedStr_entries hw key val
  · rw [hs] at he
    exact HashStorage.setIndexedStr_exact hw he key val
  · rw [hs] at hc
    exact HashStorage.setIndexedStr_fresh hw hc key val

theorem setLinearStr_written {a : PhpArray P} (hp : ∀ values, a.storage ≠ .packed values)
    (hsm : ∀ entries, a.storage ≠ .smallHash entries) (hw : a.storage.Wf) (hf : Fits a.iter)
    (key : String) (val : Value P) : Written a (.string key) val (a.setLinearStr key val) := by
  unfold setLinearStr
  split
  · rename_i linear hs
    have hiter : a.iter = linear.entries := by simp [iter, hs]
    have hwl := hs ▸ hw
    rw [findStrForUpdate_eq hwl]
    split
    · rename_i i hi
      refine ⟨setAt_wf hwl i val, ?_, rfl, rfl, by simp, fun _ _ => trivial, fun _ => trivial⟩
      rw [hiter, putKey_of_position hi]
      rfl
    · rename_i hi
      split
      · refine ⟨fromEntries_wf (nodup_concat_of_new hwl.1 hi val), ?_, rfl, rfl, by simp,
          fun _ _ => trivial, fun _ => trivial⟩
        rw [hiter, putKey_of_new hi]
        rfl
      · rename_i hlen
        unfold linearHashCapacity at hlen
        have hsame := promoteLinearHash_same hw hf (by rw [hiter]; omega)
        have hps : a.promoteLinearHash.storage = .hash linear.promote := by
          simp [promoteLinearHash, hs]
        exact .of_same hsame (by simp [hps]) (setHashStr_written hps hsame.storage key val)
  · rename_i hl
    cases hs : a.storage with
    | packed values => exact absurd hs (hp values)
    | smallHash entries => exact absurd hs (hsm entries)
    | linearHash linear => exact absurd hs (hl linear)
    | hash h => exact setHashStr_written hs hw key val

theorem setExplicitStr_written {a : PhpArray P} (hp : ∀ values, a.storage ≠ .packed values)
    (hw : a.storage.Wf) (hf : Fits a.iter) (key : String) (val : Value P) :
    Written a (.string key) val (a.setExplicitStr key val) := by
  unfold setExplicitStr
  split
  · rename_i entries hs
    have hiter : a.iter = entries := by simp [iter, hs]
    have hnd : (ArrayStorage.smallHash entries).Wf := hs ▸ hw
    split
    · rename_i i hi
      refine ⟨?_, ?_, rfl, rfl, by simp, fun _ _ => trivial, fun _ => trivial⟩
      · simpa [ArrayStorage.Wf] using hnd
      · rw [hiter, putKey_of_position hi]
        rfl
    · rename_i hi
      split
      · refine ⟨nodup_concat_of_new hnd hi val, ?_, rfl, rfl, by simp, fun _ _ => trivial,
          fun _ => trivial⟩
        rw [hiter, putKey_of_new hi]
        rfl
      · rename_i hlen
        unfold smallHashCapacity at hlen
        have hsame := promoteSmallHash_same hw hf (by rw [hiter]; omega)
        have hps : a.promoteSmallHash.storage = .hash (.ofEntries entries) := by
          simp [promoteSmallHash, hs]
        refine .of_same hsame (by simp [hps])
          (setLinearStr_written (by simp [hps]) (by simp [hps]) hsame.storage ?_ key val)
        rwa [hsame.iter]
  · rename_i hsm
    exact setLinearStr_written hp hsm hw hf key val

theorem setStr_written {a : PhpArray P} (hw : a.storage.Wf) (hf : Fits a.iter) (key : String)
    (val : Value P) : Written a (.string key) val (a.setStr key val) := by
  have hread := afterGetStr_same hw
  have hsame := transitionToHash_same hread.storage (by rwa [hread.iter])
  have hnp := transitionToHash_not_packed a.afterGetStr
  refine .of_same (hread.trans hsame) hnp (setExplicitStr_written hnp hsame.storage ?_ key val)
  rwa [hsame.iter, hread.iter]

theorem promoteStreamedSmall_same {a : PhpArray P} (hw : a.storage.Wf) (key : ArrayKey) :
    SameMap a (a.promoteStreamedSmall key) ∧
      ∀ values, (a.promoteStreamedSmall key).storage = .packed values →
        a.storage = .packed values := by
  unfold promoteStreamedSmall
  split
  · rename_i entries hs
    split
    · refine ⟨promoteSmallHashToLinear_same hw, fun values hv => ?_⟩
      simp [promoteSmallHashToLinear, hs] at hv
    · exact ⟨.refl hw, fun _ hv => hv⟩
  · exact ⟨.refl hw, fun _ hv => hv⟩

theorem promoteStreamedLinear_same {a : PhpArray P} (hw : a.storage.Wf) (hf : Fits a.iter)
    (key : ArrayKey) :
    SameMap a (a.promoteStreamedLinear key) ∧
      ∀ values, (a.promoteStreamedLinear key).storage = .packed values →
        a.storage = .packed values := by
  unfold promoteStreamedLinear
  split
  · rename_i linear hs
    split
    · rename_i hfull
      have hlen : a.iter.length ≠ 1 := by
        simp only [iter, hs, hfull.1, linearHashCapacity]
        omega
      refine ⟨promoteLinearHash_same hw hf hlen, fun values hv => ?_⟩
      simp [promoteLinearHash, hs] at hv
    · exact ⟨.refl hw, fun _ hv => hv⟩
  · exact ⟨.refl hw, fun _ hv => hv⟩

theorem promoteStreamed_same {a : PhpArray P} (hw : a.storage.Wf) (hf : Fits a.iter)
    (key : ArrayKey) :
    SameMap a (a.promoteStreamed key) ∧
      ∀ values, (a.promoteStreamed key).storage = .packed values → a.storage = .packed values := by
  obtain ⟨h1, hp1⟩ := promoteStreamedSmall_same hw key
  obtain ⟨h2, hp2⟩ := promoteStreamedLinear_same h1.storage (by rwa [h1.iter]) key
  exact ⟨h1.trans h2, fun values hv => hp1 values (hp2 values hv)⟩

end PhpArray

end Rphp
