import Rphp.Value.Array.Writes

namespace Rphp
open Rphp.Lib
set_option autoImplicit true

namespace PhpArray

/-- The same map keeps what is known about the automatic key. -/
theorem SameMap.wf {a b : PhpArray P} (h : SameMap a b) (hw : a.Wf)
    (hp : ∀ values, b.storage = .packed values → a.storage = .packed values) : b.Wf where
  storage := h.storage
  below := by
    rw [h.iter, h.next]
    exact hw.below
  packed := fun values hv => by
    rw [h.next]
    exact hw.packed values (hp values hv)

/-- Automatic keys that have not started have no integer key to respect. -/
def Startable (a : PhpArray P) : Prop :=
  a.nextIntKey = .zero → a.intKeyInitialized = false → ∀ k, .int k ∉ keysOf a.iter

theorem startIntKeys_iter (a : PhpArray P) (key : I64) : (a.startIntKeys key).iter = a.iter := by
  unfold startIntKeys
  split <;> rfl

theorem startIntKeys_storage (a : PhpArray P) (key : I64) :
    (a.startIntKeys key).storage = a.storage := by
  unfold startIntKeys
  split <;> rfl

theorem saturatingSucc_ne {key : I64} (h : key.val < 0) : key ≠ key.saturatingSucc := by
  intro he
  have := I64.saturatingSucc_val key
  rw [← he] at this
  unfold i64Max at this
  split at this <;> omega

theorem startIntKeys_next (a : PhpArray P) (key : I64) :
    (a.startIntKeys key).nextIntKey = a.nextIntKey ∨
      key.val < 0 ∧ (a.startIntKeys key).nextIntKey = key.saturatingSucc := by
  unfold startIntKeys
  split
  · simp only
    split
    · rename_i hneg
      exact .inr ⟨hneg, rfl⟩
    · exact .inl rfl
  · exact .inl rfl

/-- A negative key that starts the automatic keys lies above the integer keys there are. -/
def StartsAbove (a : PhpArray P) (key : I64) : Prop :=
  key.val < 0 → a.nextIntKey = .zero → a.intKeyInitialized = false →
    ∀ k, .int k ∈ keysOf a.iter → k.val ≤ key.val ∨ k = .max

theorem startsAbove_of_startable {a : PhpArray P} {key : I64} (h : key.val < 0 → a.Startable) :
    a.StartsAbove key :=
  fun hneg hz hi k hk => absurd hk (h hneg hz hi k)

/-- Before the write, the automatic key is above every integer key. -/
theorem startIntKeys_below {a : PhpArray P} {key : I64} (hw : a.Wf) (hs : a.StartsAbove key)
    (k : I64) (hk : .int k ∈ keysOf a.iter) :
    k.val < (a.startIntKeys key).nextIntKey.val ∨ k = .max := by
  unfold startIntKeys
  split
  · rename_i h0
    simp only
    split
    · rename_i hneg
      rcases hs hneg h0.1 h0.2 k hk with hle | hmax
      · have hkey := key.inRange
        refine .inl ?_
        rw [I64.saturatingSucc_val]
        unfold i64Max at *
        split <;> omega
      · exact .inr hmax
    · exact hw.below k hk
  · exact hw.below k hk

/-- Everything an integer write can do, from the array it starts on. -/
theorem setInt_cases {a : PhpArray P} {key : I64} (hw : a.Wf) (hf : Fits a.iter) (val : Value P) :
    (∃ values, a.storage = .packed values ∧ key = a.nextIntKey ∧ a.setInt key val =
      { storage := .packed (values ++ [val])
        nextIntKey := key.saturatingSucc
        intKeyInitialized := (a.startIntKeys key).intKeyInitialized }) ∨
    Written (a.startIntKeys key) (.int key) val (a.setInt key val) := by
  have hsto := startIntKeys_storage a key
  rcases setPreparedInt_cases (a := a.startIntKeys key) (hsto ▸ hw.storage)
      (by rwa [startIntKeys_iter]) key val with ⟨values, hv, hk, hr⟩ | h
  · refine .inl ⟨values, hsto ▸ hv, ?_, hr⟩
    rcases startIntKeys_next a key with hn | ⟨hneg, hn⟩
    · rw [hk, hn]
    · exact absurd (hk.trans hn) (saturatingSucc_ne hneg)
  · exact .inr h

/-- Packed values have no key above the automatic one. -/
theorem packed_wf {a : PhpArray P} (hs : a.storage = .packed values) (hf : Fits a.iter)
    (hlen : (values.length : Int) ≤ a.nextIntKey.val) : a.Wf where
  storage := by
    rw [hs]
    trivial
  below := by
    have hiter : a.iter = packedEntries values := by simp [iter, hs]
    have hfv : Fits values := by
      unfold Fits at *
      rwa [hiter, packedEntries_length] at hf
    intro k hk
    rw [hiter] at hk
    obtain ⟨i, hi⟩ := List.getElem?_of_mem hk
    obtain ⟨hlt, hk⟩ := (keysOf_packedEntries_getElem? hfv).1 hi
    exact .inl (by omega)
  packed := fun values' hv => by
    rw [hs] at hv
    cases hv
    exact hlen

/-- Packed values with one more element, as long as they fit, stay below the next key. -/
theorem packed_push_wf {a b : PhpArray P} (hw : a.Wf) (hs : a.storage = .packed values)
    (hb : b.storage = .packed (values ++ [val])) (hn : b.nextIntKey = a.nextIntKey.saturatingSucc)
    (hf : Fits b.iter) : b.Wf := by
  refine packed_wf hb hf ?_
  have hlen := hw.packed values hs
  have hfv : ((values ++ [val]).length : Int) ≤ i64Max := by
    have hiter : b.iter = packedEntries (values ++ [val]) := by simp [iter, hb]
    rw [hiter] at hf
    unfold Fits at hf
    rwa [packedEntries_length] at hf
  rw [hn, I64.saturatingSucc_val]
  simp only [List.length_append, List.length_singleton] at *
  split <;> omega

theorem not_mem_packed_of_neg {a : PhpArray P} (hs : a.storage = .packed values)
    (hf : Fits a.iter) {key : I64} (hk : key.val < 0) : .int key ∉ keysOf a.iter := by
  have hiter : a.iter = packedEntries values := by simp [iter, hs]
  have hfv : Fits values := by
    unfold Fits at *
    rwa [hiter, packedEntries_length] at hf
  intro hm
  rw [hiter] at hm
  obtain ⟨i, hi⟩ := List.getElem?_of_mem hm
  have := ((keysOf_packedEntries_getElem? hfv).1 hi).2
  omega

theorem setInt_wf {a : PhpArray P} {key : I64} (hw : a.Wf) (hst : a.StartsAbove key)
    (hf : Fits a.iter) (val : Value P) (hf' : Fits (a.setInt key val).iter) : (a.setInt key val).Wf := by
  rcases setInt_cases hw hf val with ⟨values, hv, hk, hr⟩ | h
  · exact packed_push_wf hw hv (by rw [hr]) (by rw [hr, hk]) hf'
  · refine h.wf (by rw [startIntKeys_iter]; exact startIntKeys_below hw hst) fun old hold hmem => ?_
    rw [startIntKeys_storage] at hold
    rw [startIntKeys_iter] at hmem
    rcases startIntKeys_next a key with hn | ⟨hneg, -⟩
    · rw [hn]
      exact hw.packed old hold
    · exact absurd hmem (not_mem_packed_of_neg hold hf hneg)

theorem setStr_wf {a : PhpArray P} (hw : a.Wf) (hf : Fits a.iter) (key : String) (val : Value P) :
    (a.setStr key val).Wf :=
  (setStr_written hw.storage hf key val).wf hw.below fun old hold _ => hw.packed old hold

theorem bumpNextIntKey_succ (key : I64) :
    bumpNextIntKey key.saturatingSucc key = key.saturatingSucc := by
  unfold bumpNextIntKey
  split <;> rfl

theorem pushExplicit_written {a : PhpArray P} {key : I64}
    (hp : ∀ values, a.storage ≠ .packed values) (hw : a.storage.Wf) (hf : Fits a.iter)
    (hnew : (∀ h, a.storage ≠ .hash h) → .int key ∉ keysOf a.iter)
    (hnext : a.nextIntKey = key.saturatingSucc) (val : Value P) :
    Written a (.int key) val (a.pushExplicit key val) := by
  have hbump : .int key ∉ keysOf a.iter → a.nextIntKey = a.nextAfter (.int key) := by
    intro hk
    rw [nextAfter, if_neg hk, hnext, bumpNextIntKey_succ]
  unfold pushExplicit
  split
  · rename_i values hs
    exact absurd hs (hp values)
  · rename_i entries hs
    have hiter : a.iter = entries := by simp [iter, hs]
    have hk := hnew (by simp [hs])
    have hpos := positionOf_eq_none.2 (hiter ▸ hk)
    rw [hs] at hw
    refine ⟨nodup_concat_of_new hw hpos val, ?_, hbump hk, rfl, by simp, fun _ _ => trivial,
      fun _ => trivial⟩
    rw [hiter, putKey_of_new hpos]
    rfl
  · rename_i linear hs
    have hiter : a.iter = linear.entries := by simp [iter, hs]
    have hk := hnew (by simp [hs])
    have hpos := positionOf_eq_none.2 (hiter ▸ hk)
    rw [hs] at hw
    refine ⟨fromEntries_wf (nodup_concat_of_new hw.1 hpos val), ?_, hbump hk, rfl, by simp,
      fun _ _ => trivial, fun _ => trivial⟩
    rw [hiter, putKey_of_new hpos]
    rfl
  · rename_i h hs
    exact setHashInt_written hs hw hf key val

theorem promoteFull_same {a : PhpArray P} (hw : a.storage.Wf) (hf : Fits a.iter) :
    SameMap a a.promoteFull ∧
      (∀ values, a.promoteFull.storage = .packed values → a.storage = .packed values) ∧
      ((∀ h, a.promoteFull.storage ≠ .hash h) → ∀ h, a.storage ≠ .hash h) := by
  have hself : SameMap a a ∧ (∀ values, a.storage = .packed values → a.storage = .packed values) ∧
      ((∀ h, a.storage ≠ .hash h) → ∀ h, a.storage ≠ .hash h) :=
    ⟨.refl hw, fun _ hv => hv, fun hh => hh⟩
  unfold promoteFull
  split
  · rename_i entries hs
    split
    · rename_i hfull
      have hlen : a.iter.length ≠ 1 := by
        simp only [iter, hs, hfull, smallHashCapacity]
        omega
      exact ⟨promoteSmallHash_same hw hf hlen, by simp [promoteSmallHash, hs], by simp [hs]⟩
    · exact hself
  · rename_i linear hs
    split
    · rename_i hfull
      have hlen : a.iter.length ≠ 1 := by
        simp only [iter, hs, hfull, linearHashCapacity]
        omega
      exact ⟨promoteLinearHash_same hw hf hlen, by simp [promoteLinearHash, hs], by simp [hs]⟩
    · exact hself
  · exact hself

/-- The array between the choice of an automatic key and the write under it. -/
def afterKey (a : PhpArray P) : PhpArray P :=
  { a with
    intKeyInitialized := a.intKeyInitialized || decide (a.nextIntKey = .zero)
    nextIntKey := a.nextIntKey.saturatingSucc }

theorem le_saturatingSucc (key : I64) : key.val ≤ key.saturatingSucc.val := by
  have := key.inRange
  rw [I64.saturatingSucc_val]
  split <;> omega

/-- An append that is not refused uses a key that no short storage has. -/
theorem not_mem_of_canPush {a : PhpArray P} (hw : a.Wf) (hf : Fits a.iter) (hc : a.canPush = true)
    (he : a.storage.Exact) : .int a.nextIntKey ∉ keysOf a.iter := by
  intro hk
  rcases hw.below _ hk with hlt | hmax
  · omega
  · simp only [canPush, hmax, ne_eq, not_true_eq_false, decide_false, Bool.false_or,
      Option.isNone_iff_eq_none] at hc
    rw [getInt_eq hw.storage hf he, getKey_eq_none] at hc
    rw [hmax] at hk
    exact hc hk

theorem pushPromoted_written {a : PhpArray P} (hp : ∀ values, a.storage ≠ .packed values)
    (hw : a.Wf) (hf : Fits a.iter) (hc : a.canPush = true) (val : Value P) :
    Written a.afterKey (.int a.nextIntKey) val
      (a.afterKey.promoteFull.pushExplicit a.nextIntKey val) := by
  obtain ⟨hsame, hpk, hhash⟩ := promoteFull_same (a := a.afterKey) hw.storage hf
  have hnp : ∀ values, a.afterKey.promoteFull.storage ≠ .packed values :=
    fun values hv => hp values (hpk values hv)
  refine .of_same hsame hnp (pushExplicit_written hnp hsame.storage ?_ ?_ hsame.next val)
  · rw [hsame.iter]
    exact hf
  · intro hh
    rw [hsame.iter]
    refine not_mem_of_canPush hw hf hc ?_
    have hns : ∀ h, a.storage ≠ .hash h := hhash hh
    cases hs : a.storage with
    | hash h => exact absurd hs (hns h)
    | _ => trivial

/-- Everything an append that is not refused can do. -/
theorem tryPush_cases {a : PhpArray P} (hw : a.Wf) (hf : Fits a.iter) (hc : a.canPush = true)
    (val : Value P) :
    (∃ values, a.storage = .packed values ∧
      (a.tryPush val).1 = { a.afterKey with storage := .packed (values ++ [val]) }) ∨
    Written a.afterKey (.int a.nextIntKey) val (a.tryPush val).1 := by
  rw [tryPush, if_pos hc]
  obtain ⟨values | entries | linear | h, next, init⟩ := a
  · exact .inl ⟨values, rfl, rfl⟩
  · exact .inr (pushPromoted_written (by simp) hw hf hc val)
  · exact .inr (pushPromoted_written (by simp) hw hf hc val)
  · exact .inr (pushPromoted_written (by simp) hw hf hc val)

theorem tryPush_wf {a : PhpArray P} (hw : a.Wf) (hf : Fits a.iter) (val : Value P)
    (hf' : Fits (a.tryPush val).1.iter) : (a.tryPush val).1.Wf := by
  by_cases hc : a.canPush = true
  · rcases tryPush_cases hw hf hc val with ⟨values, hv, hr⟩ | h
    · exact packed_push_wf hw hv (by rw [hr]) (by rw [hr]; rfl) hf'
    · have hle := le_saturatingSucc a.nextIntKey
      refine h.wf (fun k hk => ?_) fun old hold _ => (hw.packed old hold).trans hle
      rcases hw.below k hk with hlt | hmax
      · exact .inl (hlt.trans_le hle)
      · exact .inr hmax
  · rw [tryPush, if_neg hc]
    exact hw

end PhpArray

end Rphp
