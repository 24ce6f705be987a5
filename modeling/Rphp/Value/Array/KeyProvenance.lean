import Rphp.Value.Array.AppendKey
import Rphp.Value.Array.CachedLongRun

namespace Rphp
open Rphp.Lib
set_option autoImplicit true

def Value.clone (view : CellView P) : Value P → Value P
  | .reference _ cell => view.target cell
  | value => value

def ArrayKey.isString : ArrayKey → Bool
  | .int _ => false
  | .string _ => true

namespace PhpArray

def listKeys (entries : List (Entry P)) : Bool :=
  entries.zipIdx.all fun entry => entry.1.1 = .int (I64.wrap entry.2)

def isList (a : PhpArray P) : Bool :=
  match a.storage with
  | .packed _ => true
  | .smallHash entries => listKeys entries
  | .linearHash linear => listKeys linear.entries
  | .hash hash => listKeys hash.entries

/-- One entry of the right operand: kept out if the key is there already. -/
def unionEntry (r : PhpArray P) (key : ArrayKey) (val : Value P) : PhpArray P :=
  match key with
  | .int key => if (r.getInt key).isSome then r else r.setInt key val
  | .string key => if (r.getStr key).isSome then r.afterGetStr else r.afterGetStr.setStr key val

def unionStep (r : PhpArray P) (entry : Entry P) : Option (PhpArray P) :=
  if Fits (r.unionEntry entry.1 entry.2).iter then some (r.unionEntry entry.1 entry.2) else none

end PhpArray

namespace TaggedArray

def absorbKeyProvenance (c : TaggedArray P) (sourceExternalByteKeys sourceUtf8TextKeys : Bool) :
    TaggedArray P :=
  if sourceExternalByteKeys then c.promoteKeysToExternalStorage
  else if sourceUtf8TextKeys && !c.externalByteKeys then c.markUtf8TextKeys
  else c

def normalizeKeyFromProvenance (c : TaggedArray P) (key : ArrayKey)
    (sourceExternalByteKeys : Bool) : ArrayKey :=
  if c.externalByteKeys && !sourceExternalByteKeys then
    PhpArray.normalizeKeyForExternalStorage key
  else key

/-- The left operand's copy, in the convention that both operands need. -/
def unionTarget (c right : TaggedArray P) (view : CellView P) : TaggedArray P :=
  ({ c with array := c.array.clone view } : TaggedArray P).absorbKeyProvenance
    right.externalByteKeys right.utf8TextKeys

def unionWrites (c right : TaggedArray P) (view : CellView P) : List (Entry P) :=
  right.array.iter.map fun entry =>
    ((c.unionTarget right view).normalizeKeyFromProvenance entry.1 right.externalByteKeys,
      entry.2.clone view)

def union (c right : TaggedArray P) (view : CellView P) : Option (TaggedArray P) :=
  (run PhpArray.unionStep (c.unionTarget right view).array (c.unionWrites right view)).map
    fun array => { c.unionTarget right view with array }

end TaggedArray

namespace PhpArray

/-! The rebuilt array. -/

theorem byteArray_toList (b : ByteArray) : b.toList = b.data.toList := by
  have hsize : b.size = b.data.toList.length := rfl
  have hloop : ∀ i r, ByteArray.toList.loop b i r = r.reverse ++ b.data.toList.drop i := by
    intro i r
    induction i, r using ByteArray.toList.loop.induct b with
    | case1 i r hi ih =>
      have hi' : i < b.data.toList.length := hsize ▸ hi
      have hget : b.get! i = b.data.toList[i] := by
        rw [ByteArray.get!, Array.getElem_toList]
        exact getElem!_pos _ _ _
      rw [ByteArray.toList.loop, if_pos hi, ih, List.drop_eq_getElem_cons hi', hget,
        List.reverse_cons, List.append_assoc, List.singleton_append]
    | case2 i r hi =>
      rw [ByteArray.toList.loop, if_neg hi, List.drop_eq_nil_of_le (hsize ▸ Nat.not_lt.1 hi),
        List.append_nil]
  exact hloop 0 []

theorem byteChar_injective : Function.Injective fun byte : UInt8 => Char.ofNat byte.toNat := by
  have hval : ∀ c : UInt8, (Char.ofNat c.toNat).toNat = c.toNat := by
    intro c
    have hlt := c.toNat_lt
    have hvalid : c.toNat.isValidChar := .inl (by omega)
    rw [Char.ofNat, dif_pos hvalid]
    rfl
  intro a b h
  have h := congrArg Char.toNat h
  simp only [hval] at h
  exact UInt8.toNat_inj.1 h

theorem phpByteString_injective : Function.Injective phpByteString := by
  intro s t h
  have h := List.map_injective_iff.2 byteChar_injective (String.ofList_injective h)
  rw [byteArray_toList, byteArray_toList] at h
  have hdata : s.toUTF8.data = t.toUTF8.data := by simpa using h
  exact String.toByteArray_inj.1 (ByteArray.ext hdata)

/-- Rebuilding merges no two keys. -/
theorem normalizeKey_injective : Function.Injective normalizeKeyForExternalStorage := by
  intro x y h
  cases x with
  | int k =>
    cases y with
    | int l => exact h
    | string t => cases h
  | string s =>
    cases y with
    | int l => cases h
    | string t =>
      simp only [normalizeKeyForExternalStorage, ArrayKey.string.injEq] at h
      rw [phpByteString_injective h]

theorem normalizeKey_eq_int : normalizeKeyForExternalStorage key = .int k ↔ key = .int k := by
  cases key with
  | int l => rfl
  | string s => simp [normalizeKeyForExternalStorage]

def normalizeEntry (entry : Entry P) : Entry P :=
  (normalizeKeyForExternalStorage entry.1, entry.2)

theorem keysOf_normalizeEntry (l : List (Entry P)) :
    keysOf (l.map normalizeEntry) = (keysOf l).map normalizeKeyForExternalStorage := by
  simp [keysOf, normalizeEntry, Function.comp_def]

/-- A negative integer key, then the last integer key, then strings only. -/
def lastIsSecond : List ArrayKey → Bool
  | .int first :: .int second :: rest => first.val < 0 && second = .max && rest.all ArrayKey.isString
  | _ => false

theorem lastIsSecond_concat_string (h : lastIsSecond keys = true) (s : String) :
    lastIsSecond (keys ++ [.string s]) = true := by
  match keys, h with
  | .int first :: .int second :: rest, h =>
    simp only [lastIsSecond, Bool.and_eq_true] at h
    simp only [List.cons_append, lastIsSecond, Bool.and_eq_true, List.all_append]
    exact ⟨h.1, h.2, rfl⟩

/-- What the array holds while it takes over entries one by one. -/
structure Rebuilt (known : List ArrayKey) (strings : Bool) (total : Nat)
    (copied : List (Entry P)) (r : PhpArray P) : Prop where
  base : Rebuilding known strings r
  iter : r.iter = copied.map normalizeEntry
  indexed : ∀ h, r.storage = .hash h → copied.length ≤ 1 → linearHashCapacity < total
  last : r.FindsLast ∨ lastIsSecond (keysOf copied) = true ∧ linearHashCapacity < total

/-- The first entry of a short storage does not make it an indexed one. -/
theorem set_empty_not_hash {r : PhpArray P} (hnil : r.iter = [])
    (hh : ∀ h, r.storage ≠ .hash h) (key : ArrayKey) (val : Value P) (h : HashStorage P) :
    (r.set key val).storage ≠ .hash h := by
  have hpos : ∀ x : ArrayKey, positionOf ([] : List (Entry P)) x = none := fun _ => rfl
  have hstart : ∀ key : I64, ∃ next init, r.startIntKeys key = ⟨r.storage, next, init⟩ := by
    intro key
    exact ⟨_, _, by rw [← startIntKeys_storage r key]⟩
  cases key with
  | int key =>
    obtain ⟨next, init, hs⟩ := hstart key
    simp only [set, setInt, hs]
    obtain ⟨values | entries | linear | hash, n, i⟩ := r
    · have hv : values = [] := by simpa [iter, packedEntries] using hnil
      subst hv
      simp only [setPreparedInt]
      split
      · simp
      · simp [Option.filter, transitionToHash, setExplicitInt, packedEntries, hpos, smallHashCapacity]
        split <;> simp_all
    · have he : entries = [] := hnil
      subst he
      simp [setPreparedInt, setExplicitInt, hpos, smallHashCapacity]
    · have he : linear.entries = [] := hnil
      simp [setPreparedInt, setExplicitInt, setLinearInt, he, hpos, linearHashCapacity]
    · exact absurd rfl (hh hash)
  | string key =>
    simp only [set, setStr]
    obtain ⟨values | entries | linear | hash, n, i⟩ := r
    · have hv : values = [] := by simpa [iter, packedEntries] using hnil
      subst hv
      simp [afterGetStr, transitionToHash, setExplicitStr, packedEntries, hpos, smallHashCapacity]
    · have he : entries = [] := hnil
      subst he
      simp [afterGetStr, transitionToHash, setExplicitStr, hpos, smallHashCapacity]
    · have he : linear.afterFindStr.entries = [] := linear.afterFindStr_entries.trans hnil
      simp only [afterGetStr, transitionToHash, setExplicitStr, setLinearStr, he]
      split
      · simp
      · simp [linearHashCapacity]
    · exact absurd rfl (hh hash)

theorem set_iter {r : PhpArray P} (h : r.Sound)
    (hlen : ((r.iter.length + 1 : Nat) : Int) ≤ i64Max) (key : ArrayKey) (val : Value P) :
    (r.set key val).iter = putKey r.iter key val := by
  cases key with
  | int key =>
    have hle := setInt_length_le h.wf h.fits key val
    refine (setInt_sound h key val ?_).2
    unfold Fits
    omega
  | string key => exact (setStr_written h.wf.storage h.fits key val).iter

/-- The last integer key gets lost only as the second entry of an array that started indexed. -/
theorem Rebuilt.findsLast_set {r : PhpArray P} {e : Entry P}
    (h : Rebuilt known strings total copied r)
    (hnot : normalizeKeyForExternalStorage e.1 ∉ keysOf r.iter) :
    (r.set (normalizeKeyForExternalStorage e.1) e.2).FindsLast ∨
      lastIsSecond (keysOf (copied ++ [e])) = true ∧ linearHashCapacity < total := by
  obtain ⟨key, val⟩ := e
  rw [keysOf_append, keysOf_singleton]
  have hw := h.base.sound.wf
  have hf := h.base.sound.fits
  cases key with
  | string s =>
    rcases h.last with hl | ⟨hl, htotal⟩
    · exact .inl ((setStr_written hw.storage hf (phpByteString s) val).findsLast hl (by simp))
    · exact .inr ⟨lastIsSecond_concat_string hl s, htotal⟩
  | int k =>
    by_cases hu : r.EntersUnrepresentable k
    · obtain ⟨first, v, hiter, hsub⟩ := hu.iter_eq
      by_cases hk : k = .max
      · subst hk
        right
        obtain ⟨hash, hs⟩ : ∃ hash, r.storage = .hash hash := by
          unfold EntersUnrepresentable at hu
          split at hu
          · rename_i hash hs
            exact ⟨hash, hs⟩
          · exact hu.elim
        have hcopied := h.iter
        rw [hiter] at hcopied
        obtain ⟨e, rfl⟩ := List.length_eq_one_iff.1 (by simpa using (congrArg List.length hcopied).symm)
        have hfirst : e.1 = .int first := by
          simp only [List.map_cons, List.map_nil, List.cons.injEq, and_true] at hcopied
          exact normalizeKey_eq_int.1 (congrArg Prod.fst hcopied).symm
        refine ⟨?_, h.indexed hash hs (by simp)⟩
        have hneg : first.val < 0 := by
          rw [I64.checkedSub, I64.ofInt?_eq_none] at hsub
          have := first.inRange
          simp only [I64.max, i64Min, i64Max] at *
          omega
        simp [keysOf, hfirst, lastIsSecond, hneg]
      · left
        rcases @setInt_cases _ _ k hw hf val with ⟨values, -, -, hr⟩ | hwr
        · refine .inl ?_
          simp only [normalizeKeyForExternalStorage, PhpArray.set, hr]
          trivial
        · refine hwr.findsLast (.inr ?_) fun he => absurd (ArrayKey.int_injective he) hk
          rw [startIntKeys_iter, hiter]
          simp [keysOf]
    · exact .inl (.inl (setInt_exact_of_new hw hf hnot hu val))

/-- One more entry, under a key that has not been copied yet. -/
theorem Rebuilt.set {r : PhpArray P} {e : Entry P} (h : Rebuilt known strings total copied r)
    (hknown : ∀ k, e.1 = .int k → .int k ∈ known) (hnew : e.1 ∉ keysOf copied)
    (hlen : ((r.iter.length + 1 : Nat) : Int) ≤ i64Max) :
    Rebuilt known strings total (copied ++ [e])
      (r.set (normalizeKeyForExternalStorage e.1) e.2) := by
  have hnot : normalizeKeyForExternalStorage e.1 ∉ keysOf r.iter := by
    rw [h.iter, keysOf_normalizeEntry, List.mem_map]
    rintro ⟨x, hx, hxe⟩
    exact hnew (normalizeKey_injective hxe ▸ hx)
  obtain ⟨hbase, hle⟩ := set_rebuilding h.base
    (fun k hk => hknown k (normalizeKey_eq_int.1 hk)) hlen e.2
  have hiter : (r.set (normalizeKeyForExternalStorage e.1) e.2).iter =
      (copied ++ [e]).map normalizeEntry := by
    rw [set_iter h.base.sound hlen, putKey_of_new (positionOf_eq_none.2 hnot), h.iter,
      List.map_append]
    rfl
  refine ⟨hbase, hiter, fun hash hs hone => ?_, ?_⟩
  · have hnil : copied = [] := by
      simp only [List.length_append, List.length_singleton] at hone
      exact List.length_eq_zero_iff.1 (by omega)
    by_cases hh : ∀ h, r.storage ≠ .hash h
    · refine absurd hs (set_empty_not_hash ?_ hh _ _ hash)
      rw [h.iter, hnil]
      rfl
    · simp only [not_forall, not_not] at hh
      obtain ⟨h', hs'⟩ := hh
      exact h.indexed h' hs' (by simp [hnil])
  · exact h.findsLast_set hnot

theorem foldl_set_rebuilt {r : PhpArray P} (es : List (Entry P))
    (h : Rebuilt known strings total copied r)
    (hknown : ∀ e ∈ es, ∀ k, e.1 = .int k → .int k ∈ known)
    (hnd : (keysOf (copied ++ es)).Nodup)
    (hlen : ((r.iter.length + es.length : Nat) : Int) ≤ i64Max) :
    Rebuilt known strings total (copied ++ es)
      (es.foldl (fun r e => r.set (normalizeKeyForExternalStorage e.1) e.2) r) := by
  induction es generalizing r copied with
  | nil =>
    rw [List.append_nil]
    exact h
  | cons e es ih =>
    simp only [List.length_cons] at hlen
    have hsplit : copied ++ e :: es = (copied ++ [e]) ++ es := by simp
    rw [hsplit] at hnd ⊢
    have hnew : e.1 ∉ keysOf copied := by
      rw [keysOf_append, keysOf_append, keysOf_singleton] at hnd
      exact fun hm => (List.nodup_append.1 (List.nodup_append.1 hnd).1).2.2 _ hm _
        (List.mem_singleton.2 rfl) rfl
    have hstep := h.set (hknown e List.mem_cons_self) hnew (by omega)
    refine ih hstep (fun e' he' => hknown e' (List.mem_cons_of_mem _ he')) hnd ?_
    rw [hstep.iter]
    rw [h.iter] at hlen
    simp only [List.length_map, List.length_append, List.length_singleton] at hlen ⊢
    omega

theorem withDeferredHashCapacity_hash {n : Nat} {h : HashStorage P}
    (hs : (withDeferredHashCapacity n : PhpArray P).storage = .hash h) : linearHashCapacity < n := by
  unfold withDeferredHashCapacity at hs
  split at hs
  · cases hs
  · split at hs
    · cases hs
    · rename_i hn
      exact Nat.not_le.1 hn

/-- The whole rebuild, before the counters are restored. -/
theorem promoteKeys_rebuilt {a : PhpArray P} (hw : a.storage.Wf) (hf : Fits a.iter) :
    Rebuilt (keysOf a.iter) a.hasStringKeys a.iter.length a.iter
      (a.iter.foldl (fun r e => r.set (normalizeKeyForExternalStorage e.1) e.2)
        (if a.hasStringKeys then withDeferredHashCapacity a.iter.length
          else withPackedCapacity a.iter.length)) := by
  obtain ⟨hstart, hnil⟩ := rebuilding_start a
  have hfirst : Rebuilt (keysOf a.iter) a.hasStringKeys a.iter.length []
      (if a.hasStringKeys then withDeferredHashCapacity a.iter.length
        else withPackedCapacity a.iter.length : PhpArray P) := by
    refine ⟨hstart, hnil, fun h hs _ => ?_, .inl (.inr (by rw [hnil]; simp [keysOf]))⟩
    split at hs
    · exact withDeferredHashCapacity_hash hs
    · cases hs
  refine foldl_set_rebuilt a.iter hfirst (fun e he k hk => ?_) (nodup_iter hw hf) ?_
  · exact hk ▸ List.mem_map_of_mem he
  · unfold Fits at hf
    rw [hnil]
    simpa using hf

theorem listKeys_iff {l : List (Entry P)} :
    listKeys l = true ↔ ∀ (i : Nat) (e : Entry P), l[i]? = some e → e.1 = .int (I64.wrap i) := by
  simp only [listKeys, List.all_eq_true, decide_eq_true_eq, Prod.forall,
    List.mem_zipIdx_iff_getElem?]
  exact ⟨fun h i k v he => h k v i he, fun h k v i he => h i k v he⟩

theorem isList_of_iter {a : PhpArray P}
    (h : ∀ (i : Nat) (e : Entry P), a.iter[i]? = some e → e.1 = .int (I64.wrap i)) :
    a.isList = true := by
  obtain ⟨values | entries | linear | hash, next, init⟩ := a
  · rfl
  · exact listKeys_iff.2 h
  · exact listKeys_iff.2 h
  · exact listKeys_iff.2 h

/-- A rebuild leaves the automatic key of a list at its end, and does not put the last integer
key second into an array that starts indexed. -/
def PromotionKeeps (a : PhpArray P) : Prop :=
  (a.isList = true → (a.iter.length : Int) = a.nextIntKey.val) ∧
    ¬ (lastIsSecond (keysOf a.iter) = true ∧ linearHashCapacity < a.iter.length)

theorem listKeys_mapValues (f : Value P → Value P) (l : List (Entry P)) :
    listKeys (mapValues f l) = listKeys l := by
  rw [Bool.eq_iff_iff, listKeys_iff, listKeys_iff]
  simp only [mapValues, List.getElem?_map, Option.map_eq_some_iff]
  constructor
  · intro h i e he
    exact h i (e.1, f e.2) ⟨e, he, rfl⟩
  · rintro h i _ ⟨e, he, rfl⟩
    exact h i e he

theorem clone_promotionKeeps {a : PhpArray P} (h : a.PromotionKeeps) (hw : a.storage.Wf)
    (view : CellView P) : (a.clone view).PromotionKeeps := by
  obtain ⟨hholds, hn, -⟩ := clone_spec hw view
  have hkeys : keysOf (a.clone view).iter = keysOf a.iter := by
    rw [hholds.iter, keysOf_mapValues]
  have hlen : (a.clone view).iter.length = a.iter.length := by
    simpa using congrArg List.length hkeys
  have hlist : (a.clone view).isList = a.isList := by
    obtain ⟨values | entries | linear | hash, next, init⟩ := a
    · rfl
    · exact listKeys_mapValues _ entries
    · exact listKeys_mapValues _ linear.entries
    · exact listKeys_mapValues _ hash.entries
  unfold PromotionKeeps at *
  rwa [hlist, hlen, hn, hkeys]

theorem promoteKeys_appendable {a : PhpArray P} (h : a.Appendable) (hok : a.PromotionKeeps) :
    a.promoteKeysToExternalStorage.Appendable := by
  have hR := promoteKeys_rebuilt h.wf.storage h.fits
  have hdense : ∀ values, a.promoteKeysToExternalStorage.storage = .packed values →
      (values.length : Int) = a.nextIntKey.val := by
    intro values hv
    have hiter : packedEntries values = a.iter.map normalizeEntry := by
      rw [← hR.iter]
      exact (iter_of_packed hv).symm
    have hlen : values.length = a.iter.length := by
      simpa using congrArg List.length hiter
    rw [hlen]
    refine hok.1 (isList_of_iter fun i e he => normalizeKey_eq_int.1 ?_)
    have hi : (packedEntries values)[i]? = some (normalizeEntry e) := by
      rw [hiter, List.getElem?_map, he]
      rfl
    rw [packedEntries_getElem?] at hi
    obtain ⟨v, -, hv⟩ := Option.map_eq_some_iff.1 hi
    exact (congrArg Prod.fst hv).symm
  refine ⟨⟨hR.base.sound.wf.storage, fun k hk => h.wf.below k (hR.base.ints k hk),
    fun values hv => (hdense values hv).le⟩, hR.base.sound.fits, hdense, ?_⟩
  exact hR.last.resolve_right hok.2

end PhpArray

end Rphp
