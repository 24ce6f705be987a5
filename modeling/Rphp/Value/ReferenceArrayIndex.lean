import Rphp.Value.ReferenceArrayIteration

namespace Rphp.Value
open Rphp.Lib
set_option autoImplicit true

namespace Registry

/-- A live cursor with this key refers to the array. -/
def Refers (r : Registry) (key array : Nat) : Prop :=
  ∃ cursor, r.cursors.lookup key = some cursor ∧ cursor.Refers array

/-- The reverse index lists a key once under exactly the arrays its cursor refers to. -/
structure Inverse (r : Registry) : Prop where
  once : ∀ array key, occurrences r.byArray array key ≤ 1
  listed : ∀ array key, 0 < occurrences r.byArray array key ↔ r.Refers key array
  noEmpty : NoEmpty r.byArray

theorem Inverse.empty : Inverse .empty := by
  constructor <;> intros <;> simp [Registry.empty, occurrences, NoEmpty, Refers]

/-- The reverse index once a key has been taken out. -/
def detached (r : Registry) (key : Nat) : AList (fun _ : Nat => List Nat) :=
  match r.cursors.lookup key with
  | some previous => unlink r.byArray key previous
  | none => r.byArray

theorem Inverse.occurrences_detached {r : Registry} (h : r.Inverse) (key a c : Nat) :
    occurrences (r.detached key) a c = if c = key then 0 else occurrences r.byArray a c := by
  have hzero : ¬ r.Refers key a → occurrences r.byArray a key = 0 := by
    intro hn
    have := mt (h.listed a key).1 hn
    omega
  unfold detached
  cases hk : r.cursors.lookup key with
  | none =>
    by_cases hc : c = key
    · subst hc
      simpa only [↓reduceIte] using hzero fun h' => by
        obtain ⟨_, hlookup, _⟩ := h'
        simp [hk] at hlookup
    · simp [hc]
  | some cursor =>
    simp only [occurrences_unlink]
    by_cases hc : c = key
    · subst hc
      by_cases hr : cursor.Refers a
      · simp [hr]
      · simp only [hr, false_and, ↓reduceIte]
        apply hzero
        rintro ⟨_, h', hr'⟩
        exact hr (Option.some.inj (hk.symm.trans h') ▸ hr')
    · simp [hc]

theorem noEmpty_detached {r : Registry} (h : NoEmpty r.byArray) (key : Nat) :
    NoEmpty (r.detached key) := by
  unfold detached
  split
  · exact noEmpty_unlink h
  · exact h

/-- Replacing a cursor by one that only iterates an array, with its links moved along. -/
theorem Inverse.rehome {r : Registry} (h : r.Inverse) (key array position : Nat) :
    Inverse ⟨r.cursors.insert key ⟨some array, position, ∅⟩,
      link (r.detached key) array key⟩ := by
  have hocc : ∀ a c, occurrences (link (r.detached key) array key) a c =
      if c = key then (if a = array then 1 else 0) else occurrences r.byArray a c := by
    intro a c
    rw [occurrences_link, h.occurrences_detached]
    by_cases h1 : c = key <;> by_cases h2 : a = array <;> simp [h1, h2]
  constructor
  · intro a c
    have := h.once a c
    rw [hocc]
    split
    · split <;> omega
    · exact this
  · intro a c
    rw [hocc]
    simp only [Refers, lookup_insert_eq]
    by_cases hc : c = key
    · by_cases ha : a = array
      · simp [hc, ha, Cursor.Refers]
      · simp [hc, ha, Cursor.Refers, Ne.symm ha]
    · simp only [hc, ↓reduceIte]
      exact h.listed a c
  · exact noEmpty_link (noEmpty_detached h.noEmpty key)

theorem Inverse.register {r : Registry} (h : r.Inverse) (key array : Nat) :
    (r.register key array).Inverse :=
  h.rehome key array 0

theorem Inverse.resolve {r : Registry} (h : r.Inverse)
    (hr : r.resolve key array fallback = some (position, r')) : r'.Inverse := by
  unfold Registry.resolve at hr
  split at hr
  · cases hr
  · rename_i cursor hk
    split at hr
    · cases hr
      have hd : unlink r.byArray key cursor = r.detached key := by simp only [detached, hk]
      rw [hd]
      exact h.rehome key array _
    · cases hr
      exact h

theorem Inverse.releaseCursor {r : Registry} (h : r.Inverse) (key : Nat) :
    (r.releaseCursor key).Inverse := by
  unfold Registry.releaseCursor
  cases hk : r.cursors.lookup key with
  | none => exact h
  | some cursor =>
    have hd : unlink r.byArray key cursor = r.detached key := by simp only [detached, hk]
    simp only [hd]
    constructor
    · intro a c
      rw [h.occurrences_detached]
      split
      · omega
      · exact h.once a c
    · intro a c
      rw [h.occurrences_detached]
      simp only [Refers, lookup_erase_eq]
      by_cases hc : c = key
      · simp [hc]
      · simp only [hc, ↓reduceIte]
        exact h.listed a c
    · exact noEmpty_detached h.noEmpty key

theorem Inverse.count_eq {r : Registry} (h : r.Inverse)
    (hk : r.byArray.lookup array = some keys) (c : Nat) :
    keys.count c ≤ 1 ∧ (0 < keys.count c ↔ r.Refers c array) := by
  have ho : occurrences r.byArray array c = keys.count c := by simp [occurrences, hk]
  exact ⟨ho ▸ h.once array c, ho ▸ h.listed array c⟩

theorem Inverse.not_refers_of_lookup_eq_none {r : Registry} (h : r.Inverse)
    (hk : r.byArray.lookup array = none) (c : Nat) : ¬ r.Refers c array := by
  intro hr
  have := (h.listed array c).2 hr
  simp [occurrences, hk] at this

/-- A change along the list of an array reaches each cursor that refers to it once. -/
theorem Inverse.lookup_foldl {r : Registry} (h : r.Inverse) {f : Cursor → Cursor}
    (hf : ∀ cursor, ¬ Cursor.Refers cursor array → f cursor = cursor)
    (hk : r.byArray.lookup array = some keys) (c : Nat) :
    (keys.foldl (fun cursors key => modifyKey cursors key f) r.cursors).lookup c =
      (r.cursors.lookup c).map f := by
  obtain ⟨hle, hpos⟩ := h.count_eq hk c
  rw [lookup_foldl_modifyKey]
  cases hc : r.cursors.lookup c with
  | none => rfl
  | some cursor =>
    simp only [Option.map_some, Option.some.injEq]
    by_cases hr : cursor.Refers array
    · have hone : keys.count c = 1 := by
        have := hpos.2 ⟨cursor, hc, hr⟩
        omega
      rw [hone, Function.iterate_one]
    · have hzero : keys.count c = 0 := by
        have hn : ¬ r.Refers c array := by
          rintro ⟨cursor', hc', hr'⟩
          exact hr (Option.some.inj (hc.symm.trans hc') ▸ hr')
        have := mt hpos.1 hn
        omega
      rw [hzero, Function.iterate_zero, id, hf cursor hr]

theorem forget_of_not_refers (cursor : Cursor) (h : ¬ cursor.Refers array) :
    forget array cursor = cursor := by
  simp only [Cursor.Refers, not_or] at h
  have he : cursor.copies.erase array = cursor.copies := by
    apply AList.ext
    exact List.kerase_of_notMem_keys h.2
  simp only [forget, h.1, ↓reduceIte, he]

theorem shiftCursor_of_not_refers (cursor : Cursor) (h : ¬ cursor.Refers array) :
    shiftCursor array start removed inserted cursor = cursor := by
  simp only [Cursor.Refers, not_or] at h
  have hm : modifyKey cursor.copies array (adjust start removed inserted) = cursor.copies := by
    unfold modifyKey
    rw [AList.lookup_eq_none.2 h.2]
  simp only [shiftCursor, h.1, ↓reduceIte, hm]

/-- Splicing moves each position held on the array once and nothing else. -/
theorem Inverse.lookup_splice {r : Registry} (h : r.Inverse) (array start removed inserted c : Nat) :
    (r.splice array start removed inserted).cursors.lookup c =
      (r.cursors.lookup c).map (shiftCursor array start removed inserted) := by
  unfold Registry.splice
  cases hk : r.byArray.lookup array with
  | some keys => exact h.lookup_foldl shiftCursor_of_not_refers hk c
  | none =>
    cases hc : r.cursors.lookup c with
    | none => simp
    | some cursor =>
      have hn : ¬ cursor.Refers array := fun hr =>
        h.not_refers_of_lookup_eq_none hk c ⟨cursor, hc, hr⟩
      simp [shiftCursor_of_not_refers cursor hn]

theorem Inverse.lookup_releaseArray {r : Registry} (h : r.Inverse) (array c : Nat) :
    (r.releaseArray array).cursors.lookup c = (r.cursors.lookup c).map (forget array) := by
  unfold Registry.releaseArray
  cases hk : r.byArray.lookup array with
  | some keys => exact h.lookup_foldl forget_of_not_refers hk c
  | none =>
    cases hc : r.cursors.lookup c with
    | none => simp
    | some cursor =>
      have hn : ¬ cursor.Refers array := fun hr =>
        h.not_refers_of_lookup_eq_none hk c ⟨cursor, hc, hr⟩
      simp [forget_of_not_refers cursor hn]

/-- A change of the cursors that keeps what each of them refers to. -/
theorem Inverse.of_refers_iff {r r' : Registry} (h : r.Inverse) (hb : r'.byArray = r.byArray)
    (hr : ∀ c a, r'.Refers c a ↔ r.Refers c a) : r'.Inverse := by
  constructor
  · intro a c
    rw [hb]
    exact h.once a c
  · intro a c
    rw [hb, hr]
    exact h.listed a c
  · rw [hb]
    exact h.noEmpty

theorem refers_map_iff {r r' : Registry} {f : Cursor → Cursor}
    (hl : ∀ c, r'.cursors.lookup c = (r.cursors.lookup c).map f) (c a : Nat) :
    r'.Refers c a ↔ ∃ cursor, r.cursors.lookup c = some cursor ∧ (f cursor).Refers a := by
  unfold Refers
  rw [hl]
  cases r.cursors.lookup c with
  | none => simp
  | some cursor => simp

theorem shiftCursor_refers (cursor : Cursor) :
    (shiftCursor array start removed inserted cursor).Refers a ↔ cursor.Refers a := by
  unfold Cursor.Refers shiftCursor
  refine or_congr_right ?_
  rw [← AList.lookup_isSome, lookup_modifyKey, ← AList.lookup_isSome]
  split
  · rw [Option.isSome_map]
  · rfl

theorem forget_refers (cursor : Cursor) :
    (forget array cursor).Refers a ↔ a ≠ array ∧ cursor.Refers a := by
  unfold Cursor.Refers forget
  simp only [AList.mem_erase]
  by_cases ha : a = array
  · subst ha
    by_cases hc : cursor.array = some a <;> simp [hc]
  · by_cases hc : cursor.array = some array
    · simp [hc, ha, Ne.symm ha]
    · simp [hc, ha]

theorem Inverse.splice {r : Registry} (h : r.Inverse) (array start removed inserted : Nat) :
    (r.splice array start removed inserted).Inverse := by
  refine h.of_refers_iff ?_ fun c a => ?_
  · unfold Registry.splice
    split <;> rfl
  · rw [refers_map_iff (h.lookup_splice array start removed inserted)]
    simp only [shiftCursor_refers]
    rfl

theorem Inverse.advance {r : Registry} (h : r.Inverse) (key position : Nat) :
    (r.advance key position).Inverse := by
  refine h.of_refers_iff rfl fun c a => ?_
  unfold Registry.advance Refers
  simp only [lookup_modifyKey]
  split
  · cases r.cursors.lookup c <;> simp [Cursor.Refers]
  · rfl

theorem releaseArray_byArray (r : Registry) (array a : Nat) :
    (r.releaseArray array).byArray.lookup a =
      if a = array then none else r.byArray.lookup a := by
  unfold Registry.releaseArray
  cases hk : r.byArray.lookup array with
  | some keys => exact lookup_erase_eq _ _ _
  | none =>
    by_cases ha : a = array
    · subst ha
      simpa using hk
    · simp [ha]

theorem Inverse.releaseArray {r : Registry} (h : r.Inverse) (array : Nat) :
    (r.releaseArray array).Inverse := by
  have hocc : ∀ a c, occurrences (r.releaseArray array).byArray a c =
      if a = array then 0 else occurrences r.byArray a c := by
    intro a c
    unfold occurrences
    rw [releaseArray_byArray]
    split <;> rfl
  constructor
  · intro a c
    rw [hocc]
    split
    · omega
    · exact h.once a c
  · intro a c
    rw [hocc, refers_map_iff (h.lookup_releaseArray array)]
    simp only [forget_refers]
    by_cases ha : a = array
    · simp [ha]
    · simp only [ha, ↓reduceIte, ne_eq, not_false_eq_true, true_and]
      exact h.listed a c
  · intro a
    rw [releaseArray_byArray]
    split
    · simp
    · exact h.noEmpty a

/-- What a copy of the source leaves in a cursor that refers to it. -/
def remember (source target : Nat) (cursor : Cursor) : Cursor :=
  match positionOn cursor source with
  | none => cursor
  | some position => { cursor with copies := cursor.copies.insert target position }

theorem positionOn_isSome (cursor : Cursor) :
    (positionOn cursor source).isSome ↔ cursor.Refers source := by
  unfold positionOn Cursor.Refers
  by_cases h : cursor.array = some source
  · simp [h]
  · simp only [h, ↓reduceIte, false_or, AList.lookup_isSome]

theorem remember_refers (cursor : Cursor) (h : cursor.Refers source) :
    (remember source target cursor).Refers a ↔ a = target ∨ cursor.Refers a := by
  obtain ⟨position, hp⟩ := Option.isSome_iff_exists.1 ((positionOn_isSome cursor).2 h)
  unfold remember
  rw [hp]
  simp only [Cursor.Refers, AList.mem_insert]
  tauto

/-- With distinct interested keys and a target new to all of them, every key is linked. -/
theorem foldl_copyOne {keys : List Nat} {s : AList (fun _ : Nat => Cursor) × List Nat}
    (hnd : keys.Nodup)
    (hk : ∀ k ∈ keys, ∃ cursor, s.1.lookup k = some cursor ∧ cursor.Refers source ∧
      target ∉ cursor.copies) :
    (keys.foldl (copyOne source target) s).2 = s.2 ++ keys ∧
      ∀ c, (keys.foldl (copyOne source target) s).1.lookup c =
        if c ∈ keys then (s.1.lookup c).map (remember source target) else s.1.lookup c := by
  induction keys generalizing s with
  | nil => simp
  | cons k keys ih =>
    obtain ⟨hknot, hnd⟩ := List.nodup_cons.1 hnd
    obtain ⟨cursor, hc, hr, ht⟩ := hk k (by simp)
    obtain ⟨position, hp⟩ := Option.isSome_iff_exists.1 ((positionOn_isSome cursor).2 hr)
    have hstep : copyOne source target s k =
        (s.1.insert k (remember source target cursor), s.2 ++ [k]) := by
      simp only [copyOne, hc, hp, ht, ↓reduceIte, remember]
    rw [List.foldl_cons, hstep]
    have hih := ih (s := (s.1.insert k (remember source target cursor), s.2 ++ [k])) hnd ?_
    · refine ⟨by simp [hih.1], fun c => ?_⟩
      rw [hih.2 c]
      simp only [List.mem_cons, lookup_insert_eq]
      by_cases hck : c = k
      · subst hck
        simp [hknot, hc]
      · simp [hck]
    · intro k' hk'
      have hne : k' ≠ k := fun he => hknot (he ▸ hk')
      simpa only [lookup_insert_eq, hne, ↓reduceIte] using hk k' (List.mem_cons_of_mem _ hk')

/-- No cursor knows the array yet. -/
def Fresh (r : Registry) (array : Nat) : Prop :=
  ∀ entry ∈ r.cursors.entries, ¬ entry.2.Refers array

instance (r : Registry) (array : Nat) : Decidable (r.Fresh array) :=
  inferInstanceAs (Decidable (∀ entry ∈ r.cursors.entries, _))

theorem Fresh.not_refers {r : Registry} (h : r.Fresh array) (c : Nat) : ¬ r.Refers c array := by
  rintro ⟨cursor, hc, hr⟩
  exact h ⟨c, cursor⟩ (AList.mem_lookup_iff.1 hc) hr

theorem Inverse.copied {r : Registry} (h : r.Inverse) (source : Nat) (hf : r.Fresh target) :
    (r.copied source target).2.Inverse := by
  unfold Registry.copied
  cases hk : r.byArray.lookup source with
  | none => exact h
  | some keys =>
    have hcount := h.count_eq hk
    have hnd : keys.Nodup := List.nodup_iff_count_le_one.2 fun c => (hcount c).1
    have hmem : ∀ c, c ∈ keys ↔ r.Refers c source := fun c =>
      List.count_pos_iff.symm.trans (hcount c).2
    have hne : keys ≠ [] := fun he => h.noEmpty source (he ▸ hk)
    obtain ⟨hlinked, hlookup⟩ := foldl_copyOne (s := (r.cursors, [])) hnd fun k hk' => by
      obtain ⟨cursor, hc, hr⟩ := (hmem k).1 hk'
      exact ⟨cursor, hc, hr, fun ht => hf.not_refers k ⟨cursor, hc, .inr ht⟩⟩
    have hold : (r.byArray.lookup target).getD [] = [] := by
      refine List.eq_nil_iff_forall_not_mem.2 fun c hc => ?_
      exact hf.not_refers c ((h.listed target c).1 (List.count_pos_iff.2 hc))
    simp only [hlinked, List.nil_append, hne, ↓reduceIte, hold]
    have hocc : ∀ a c, occurrences (r.byArray.insert target keys) a c =
        if a = target then keys.count c else occurrences r.byArray a c := by
      intro a c
      unfold occurrences
      rw [lookup_insert_eq]
      split <;> rfl
    constructor
    · intro a c
      rw [hocc]
      split
      · exact (hcount c).1
      · exact h.once a c
    · intro a c
      rw [hocc]
      simp only [Refers, hlookup]
      by_cases hc : c ∈ keys
      · obtain ⟨cursor, hcur, hr⟩ := (hmem c).1 hc
        simp only [hc, ↓reduceIte, hcur, Option.map_some, Option.some.injEq, exists_eq_left',
          remember_refers cursor hr]
        by_cases ha : a = target
        · simp [ha, hc]
        · simp only [ha, ↓reduceIte, false_or]
          rw [h.listed a c]
          simp [Refers, hcur]
      · simp only [hc, ↓reduceIte]
        by_cases ha : a = target
        · subst ha
          simp only [↓reduceIte, List.count_eq_zero.2 hc]
          exact ⟨fun h0 => absurd h0 (by omega), fun hr => absurd hr (hf.not_refers c)⟩
        · simp only [ha, ↓reduceIte]
          exact h.listed a c
    · intro a
      rw [lookup_insert_eq]
      split
      · simpa using hne
      · exact h.noEmpty a

end Registry

inductive RegistryOp where
  | register (key array : Nat)
  | resolve (key array fallback : Nat)
  | advance (key position : Nat)
  | copied (source target : Nat)
  | releaseArray (array : Nat)
  | splice (array start removed inserted : Nat)
  | releaseCursor (key : Nat)
deriving DecidableEq, Repr

namespace Registry

def step (r : Registry) : RegistryOp → Option Registry
  | .register key array => some (r.register key array)
  | .resolve key array fallback => (r.resolve key array fallback).map Prod.snd
  | .advance key position => some (r.advance key position)
  | .copied source target => some (r.copied source target).2
  | .releaseArray array => some (r.releaseArray array)
  | .splice array start removed inserted => some (r.splice array start removed inserted)
  | .releaseCursor key => some (r.releaseCursor key)

/-- A copy gets an identity no cursor knows. -/
def FreshTarget (r : Registry) : RegistryOp → Prop
  | .copied _ target => r.Fresh target
  | _ => True

instance (r : Registry) : (op : RegistryOp) → Decidable (r.FreshTarget op)
  | .copied _ target => inferInstanceAs (Decidable (r.Fresh target))
  | .register _ _ | .resolve _ _ _ | .advance _ _ | .releaseArray _ | .splice _ _ _ _
  | .releaseCursor _ => .isTrue trivial

theorem Inverse.step {r r' : Registry} (h : r.Inverse) (hf : r.FreshTarget op)
    (hs : r.step op = some r') : r'.Inverse := by
  cases op with
  | register key array => cases hs; exact h.register key array
  | resolve key array fallback =>
    obtain ⟨⟨position, r''⟩, hr, rfl⟩ := Option.map_eq_some_iff.1 hs
    exact h.resolve hr
  | advance key position => cases hs; exact h.advance key position
  | copied source target => cases hs; exact h.copied source hf
  | releaseArray array => cases hs; exact h.releaseArray array
  | splice array start removed inserted => cases hs; exact h.splice array start removed inserted
  | releaseCursor key => cases hs; exact h.releaseCursor key

theorem Inverse.releaseCursor_gone {r : Registry} (h : r.Inverse) (key : Nat) :
    (r.releaseCursor key).cursors.lookup key = none ∧
      ∀ array, occurrences (r.releaseCursor key).byArray array key = 0 := by
  have hnone : (r.releaseCursor key).cursors.lookup key = none := by
    unfold Registry.releaseCursor
    cases hk : r.cursors.lookup key with
    | none => exact hk
    | some cursor => exact AList.lookup_erase _ _
  refine ⟨hnone, fun array => ?_⟩
  have := mt ((h.releaseCursor key).listed array key).1 fun ⟨_, hc, _⟩ => by
    simp [hnone] at hc
  omega

theorem Inverse.releaseArray_gone {r : Registry} (h : r.Inverse) (array : Nat) :
    (r.releaseArray array).byArray.lookup array = none ∧
      ∀ key, ¬ (r.releaseArray array).Refers key array := by
  have hnone : (r.releaseArray array).byArray.lookup array = none := by
    simp [releaseArray_byArray]
  exact ⟨hnone, (h.releaseArray array).not_refers_of_lookup_eq_none hnone⟩

/-- In every run whose copies are fresh the reverse index is the inverse of the cursors'
references, so a splice moves each interested position once and a release leaves no entry. -/
theorem registry_index_inverse (ops : List RegistryOp) (r : Registry)
    (hf : Meets step FreshTarget .empty ops) (hr : run step .empty ops = some r) :
    r.Inverse ∧
      (∀ array start removed inserted key,
        (r.splice array start removed inserted).cursors.lookup key =
          (r.cursors.lookup key).map (shiftCursor array start removed inserted)) ∧
      (∀ array, (r.releaseArray array).byArray.lookup array = none ∧
        ∀ key, ¬ (r.releaseArray array).Refers key array) ∧
      ∀ key, (r.releaseCursor key).cursors.lookup key = none ∧
        ∀ array, occurrences (r.releaseCursor key).byArray array key = 0 := by
  have h : r.Inverse :=
    run_invariant (fun _ _ _ h hok hs => Inverse.step h hok hs) Inverse.empty hf hr
  exact ⟨h, h.lookup_splice, h.releaseArray_gone, h.releaseCursor_gone⟩

/-- A copy is remembered, both arrays are spliced, and the copy's position moves once. -/
theorem registry_index_inverse_copy :
    ∃ ops r, Meets step FreshTarget .empty ops ∧ run step .empty ops = some r ∧
      r.byArray.lookup 11 = some [1] ∧ r.Inverse := by
  have hf : Meets step FreshTarget .empty
      [.register 1 10, .advance 1 3, .copied 10 11, .splice 11 0 1 0] := by decide
  exact ⟨_, _, hf, rfl, by decide, (registry_index_inverse _ _ hf rfl).1⟩

end Registry

end Rphp.Value
