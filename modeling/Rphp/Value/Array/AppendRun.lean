import Rphp.Value.Array.KeyProvenance
import Rphp.Value.Array.ChunkPush

namespace Rphp
open Rphp.Lib
set_option autoImplicit true

/-- The operations of an array together with those that combine it with another one. -/
inductive ArrayCommand (P : Type u) where
  | mutate (m : ArrayMutation P)
  | absorbKeyProvenance (sourceExternalByteKeys sourceUtf8TextKeys : Bool)
  | union (right : TaggedArray P) (view : CellView P)

namespace PhpArray

/-- An integer write that starts the automatic keys does so above the keys there are, and the
last integer key is not put next to a single negative one into an indexed storage. -/
def IntWriteKeeps (a : PhpArray P) (key : I64) : Prop :=
  a.StartsAbove key ∧ (key = .max → ¬ a.EntersUnrepresentable .max)

/-- The condition for one entry of a union, which writes absent keys only. -/
def UnionEntryKeeps (a : PhpArray P) : ArrayKey → Prop
  | .int key => (a.getInt key).isSome = false → a.IntWriteKeeps key
  | .string _ => True

end PhpArray

namespace ArrayCommand

def step (c : TaggedArray P) : ArrayCommand P → Option (TaggedArray P)
  | .mutate m => (c.mutate m).addressable
  | .absorbKeyProvenance external text => (c.absorbKeyProvenance external text).addressable
  | .union right view => c.union right view

/-- The steps after which automatic keys are still free. -/
def KeepsAppend (c : TaggedArray P) : ArrayCommand P → Prop
  | .mutate (.ordinary (.tryPush _)) =>
    c.array.nextIntKey = .max → ¬ c.array.EntersUnrepresentable .max
  | .mutate (.ordinary (.setInt key _)) => c.array.IntWriteKeeps key
  | .mutate (.ordinary (.setStreamedInt key _)) => c.array.IntWriteKeeps key
  | .mutate .promoteKeysToExternalStorage => c.externalByteKeys = false → c.array.PromotionKeeps
  | .absorbKeyProvenance external _ =>
    external = true → c.externalByteKeys = false → c.array.PromotionKeeps
  | .union right view =>
    (right.externalByteKeys = true → c.externalByteKeys = false → c.array.PromotionKeeps) ∧
    Meets PhpArray.unionStep (fun r entry => r.UnionEntryKeeps entry.1)
      (c.unionTarget right view).array (c.unionWrites right view)
  | _ => True

end ArrayCommand

instance (a : PhpArray P) (key : I64) : Decidable (a.StartsAbove key) :=
  decidable_of_iff
    (key.val < 0 → a.nextIntKey = .zero → a.intKeyInitialized = false →
      ((keysOf a.iter).all fun x =>
        match x with
        | .int k => decide (k.val ≤ key.val ∨ k = .max)
        | .string _ => true) = true) (by
      refine imp_congr_right fun _ => imp_congr_right fun _ => imp_congr_right fun _ => ?_
      rw [List.all_eq_true]
      refine ⟨fun h k hk => by simpa using h _ hk, fun h x hx => ?_⟩
      cases x with
      | int k => simpa using h k hx
      | string s => rfl)

instance (a : PhpArray P) (key : I64) : Decidable (a.IntWriteKeeps key) :=
  inferInstanceAs (Decidable (_ ∧ _))

instance (a : PhpArray P) : (key : ArrayKey) → Decidable (a.UnionEntryKeeps key)
  | .int key => inferInstanceAs (Decidable ((a.getInt key).isSome = false → a.IntWriteKeeps key))
  | .string _ => .isTrue trivial

instance (a : PhpArray P) : Decidable a.PromotionKeeps := inferInstanceAs (Decidable (_ ∧ _))

instance (c : TaggedArray P) : (command : ArrayCommand P) → Decidable (command.KeepsAppend c)
  | .mutate m =>
    match m with
    | .ordinary op =>
      match op with
      | .tryPush _ =>
        (inferInstance : Decidable (c.array.nextIntKey = .max → ¬ c.array.EntersUnrepresentable .max))
      | .setInt key _ => (inferInstance : Decidable (c.array.IntWriteKeeps key))
      | .setStreamedInt key _ => (inferInstance : Decidable (c.array.IntWriteKeeps key))
      | .setStr _ _ => .isTrue trivial
      | .setOwnedStr _ _ => .isTrue trivial
      | .setStreamedOwnedStr _ _ => .isTrue trivial
      | .takeWithPosition _ => .isTrue trivial
      | .pop => .isTrue trivial
      | .shift => .isTrue trivial
      | .clone _ => .isTrue trivial
      | .getStr _ => .isTrue trivial
    | .promoteKeysToExternalStorage =>
      (inferInstance : Decidable (c.externalByteKeys = false → c.array.PromotionKeeps))
    | .replaceValueAt _ _ => .isTrue trivial
    | .setValueAt _ _ => .isTrue trivial
    | .assignDereferencedAt _ _ => .isTrue trivial
    | .argumentUnpackReferenceAt _ _ => .isTrue trivial
    | .getIntMut _ _ => .isTrue trivial
    | .getStrMut _ _ => .isTrue trivial
    | .getKeyMut _ _ => .isTrue trivial
    | .getKeyMutForReplacement _ _ => .isTrue trivial
    | .pushPackedLongChunk _ => .isTrue trivial
    | .entries => .isTrue trivial
    | .projectValues _ => .isTrue trivial
    | .markExternalByteKeys => .isTrue trivial
    | .markUtf8TextKeys => .isTrue trivial
  | .absorbKeyProvenance external _ =>
    (inferInstance : Decidable (external = true → c.externalByteKeys = false → c.array.PromotionKeeps))
  | .union _ _ => (inferInstance : Decidable (_ ∧ Meets _ _ _ _))

namespace PhpArray

theorem SameMap.intWriteKeeps {a b : PhpArray P} {key : I64} (h : SameMap a b)
    (hk : a.IntWriteKeeps key) : b.IntWriteKeeps key := by
  refine ⟨?_, fun hmax hu => hk.2 hmax (h.unrepresentable _ hu)⟩
  have := hk.1
  unfold StartsAbove at *
  rwa [h.next, h.initialized, h.iter]

theorem unionEntry_appendable {r : PhpArray P} (h : r.Appendable) (key : ArrayKey) (val : Value P)
    (hok : r.UnionEntryKeeps key) (hf : Fits (r.unionEntry key val).iter) :
    (r.unionEntry key val).Appendable := by
  cases key with
  | int key =>
    simp only [unionEntry] at hf ⊢
    split
    · exact h
    · rename_i hnone
      simp only [hnone] at hf
      have hk := hok (by simpa using hnone)
      exact setInt_appendable h hk.1 hk.2 val hf
  | string key =>
    simp only [unionEntry] at hf ⊢
    split
    · exact afterGetStr_appendable h
    · rename_i hnone
      simp only [hnone] at hf
      exact setStr_appendable (afterGetStr_appendable h) key val hf

theorem op_appendable {a : PhpArray P} (h : a.Appendable) (op : ArrayOp P)
    (hpush : ∀ val, op = .tryPush val → a.nextIntKey = .max → ¬ a.EntersUnrepresentable .max)
    (hset : ∀ key val, op = .setInt key val ∨ op = .setStreamedInt key val → a.IntWriteKeeps key)
    (hf : Fits (op.apply a).iter) : (op.apply a).Appendable := by
  cases op with
  | tryPush val => exact tryPush_appendable h (hpush val rfl) val hf
  | setInt key val =>
    have hk := hset key val (.inl rfl)
    exact setInt_appendable h hk.1 hk.2 val hf
  | setStr key val => exact setStr_appendable h key val hf
  | setOwnedStr key val => exact setStr_appendable h key val hf
  | setStreamedInt key val =>
    obtain ⟨hsame, hp⟩ := promoteStreamed_same h.wf.storage h.fits (.int key)
    have hk := hsame.intWriteKeeps (hset key val (.inr rfl))
    exact setInt_appendable (hsame.appendable h hp) hk.1 hk.2 val hf
  | setStreamedOwnedStr key val =>
    obtain ⟨hsame, hp⟩ := promoteStreamed_same h.wf.storage h.fits (.string key)
    exact setStr_appendable (hsame.appendable h hp) key val hf
  | takeWithPosition key => exact takeWithPosition_appendable h key
  | pop => exact pop_appendable h
  | shift => exact shift_appendable h
  | clone view => exact clone_appendable h view
  | getStr key => exact afterGetStr_appendable h

theorem pushPackedLongChunk_appendable {a : PhpArray P} (h : a.Appendable) (values : List I64)
    (hf : Fits (a.pushPackedLongChunk values).1.iter) :
    (a.pushPackedLongChunk values).1.Appendable := by
  obtain ⟨storage, next, init⟩ := a
  cases storage with
  | packed packed =>
    rcases pushPackedLongChunk_cases packed next init values with ⟨-, hfit, hr⟩ | ⟨-, hr⟩
    · rw [hr] at hf ⊢
      refine packed_appendable rfl hf ?_
      rw [I64.wrap_val (by unfold i64Min; omega)]
      simp
    · rw [hr]
      exact h
  | _ => exact h

theorem writeSlot_appendable {a : PhpArray P} (h : a.Appendable) (i : Nat) (val : Value P) :
    (a.writeSlot i val).Appendable :=
  (writeSlot_sameKeys h.wf.storage i val).appendable h

end PhpArray

namespace TaggedArray

theorem mutate_appendable {c : TaggedArray P} (h : c.array.Appendable) (m : ArrayMutation P)
    (hok : (ArrayCommand.mutate m).KeepsAppend c) (hf : Fits (c.mutate m).array.iter) :
    (c.mutate m).array.Appendable := by
  have hw := h.wf.storage
  have hreplace : ∀ i val, (c.array.replaceValueAt i val).1.Appendable := by
    intro i val
    unfold PhpArray.replaceValueAt
    split
    · exact PhpArray.writeSlot_appendable h i val
    · exact h
  cases m with
  | ordinary op =>
    refine PhpArray.op_appendable h op ?_ ?_ hf
    · rintro val rfl
      exact hok
    · rintro key val (rfl | rfl) <;> exact hok
  | getIntMut key val => exact (PhpArray.getIntMut_sameKeys hw h.fits key val).appendable h
  | getStrMut key val => exact (PhpArray.getStrMut_sameKeys hw key val).appendable h
  | getKeyMut key val => exact (PhpArray.getKeyMut_sameKeys hw h.fits key val).appendable h
  | getKeyMutForReplacement key val =>
    exact (PhpArray.getKeyMut_sameKeys hw h.fits key val).appendable h
  | replaceValueAt i val => exact hreplace i val
  | setValueAt i val => exact hreplace i val
  | assignDereferencedAt i val =>
    simp only [mutate, PhpArray.assignDereferencedAt]
    split
    · split
      · exact h
      · exact PhpArray.writeSlot_appendable h i val
    · exact h
  | argumentUnpackReferenceAt i cell =>
    simp only [mutate, PhpArray.argumentUnpackReferenceAt]
    split
    · split
      · exact h
      · exact PhpArray.writeSlot_appendable h i _
    · exact h
  | pushPackedLongChunk values => exact PhpArray.pushPackedLongChunk_appendable h values hf
  | entries =>
    exact (PhpArray.transitionToHash_same hw h.fits).appendable h fun values hv =>
      absurd hv (PhpArray.transitionToHash_not_packed c.array values)
  | projectValues view =>
    refine PhpArray.packed_appendable rfl hf ?_
    rw [List.length_map]
    exact (h.fits.wrap_val (le_refl _)).symm
  | markExternalByteKeys => exact h
  | markUtf8TextKeys => exact h
  | promoteKeysToExternalStorage =>
    simp only [mutate, promoteKeysToExternalStorage]
    split
    · exact h
    · rename_i he
      exact PhpArray.promoteKeys_appendable h (hok (by simpa using he))

theorem absorbKeyProvenance_appendable {c : TaggedArray P} (h : c.array.Appendable)
    (hok : external = true → c.externalByteKeys = false → c.array.PromotionKeeps) (text : Bool) :
    (c.absorbKeyProvenance external text).array.Appendable := by
  unfold absorbKeyProvenance
  split
  · rename_i he
    unfold promoteKeysToExternalStorage
    split
    · exact h
    · rename_i hc
      exact PhpArray.promoteKeys_appendable h (hok he (by simpa using hc))
  · split
    · exact h
    · exact h

theorem union_appendable {c d right : TaggedArray P} {view : CellView P} (h : c.array.Appendable)
    (hok : (ArrayCommand.union right view).KeepsAppend c) (hu : c.union right view = some d) :
    d.array.Appendable := by
  obtain ⟨r, hr, rfl⟩ := Option.map_eq_some_iff.1 hu
  have htarget : (c.unionTarget right view).array.Appendable :=
    absorbKeyProvenance_appendable (c := { c with array := c.array.clone view })
      (PhpArray.clone_appendable h view) (fun he hc => PhpArray.clone_promotionKeeps (hok.1 he hc) h.wf.storage view) _
  refine run_invariant (fun r entry r' hr hk hs => ?_) htarget hok.2 hr
  unfold PhpArray.unionStep at hs
  split at hs
  · rename_i hf
    cases hs
    exact PhpArray.unionEntry_appendable hr entry.1 entry.2 hk hf
  · cases hs

end TaggedArray

namespace ArrayCommand

/-- One command keeps automatic keys free. -/
theorem step_appendable {c d : TaggedArray P} (h : c.array.Appendable) (command : ArrayCommand P)
    (hok : command.KeepsAppend c) (hs : step c command = some d) : d.array.Appendable := by
  cases command with
  | mutate m =>
    obtain ⟨hf, rfl⟩ := TaggedArray.addressable_eq_some.1 hs
    exact TaggedArray.mutate_appendable h m hok hf
  | absorbKeyProvenance external text =>
    obtain ⟨-, rfl⟩ := TaggedArray.addressable_eq_some.1 hs
    exact TaggedArray.absorbKeyProvenance_appendable h hok text
  | union right view => exact TaggedArray.union_appendable h hok hs

theorem constructed_appendable {a : PhpArray P} (h : ArrayMutation.Constructed a) :
    a.Appendable := by
  cases h with
  | make c =>
    have hr := PhpArray.make_refines (P := P) c
    exact hr.toSound.appendable (.inl hr.exact)
  | packedFromValues values hf =>
    refine PhpArray.packed_appendable rfl ?_ (hf.wrap_val (le_refl _)).symm
    unfold Fits at *
    simpa [PhpArray.packedFromValues, PhpArray.iter] using hf

/-- In every run of commands that keep automatic keys free, an append is refused exactly if the
last integer key is next and taken, and otherwise puts the value at the end under the next key,
which was free; packed values end at the next key. -/
theorem run_appends_at_next {start : TaggedArray P} (hs : ArrayMutation.Constructed start.array)
    (commands : List (ArrayCommand P))
    (hok : Meets step (fun c command => command.KeepsAppend c) start commands)
    (hr : run step start commands = some c) :
    (∀ val, c.array.AppendsAtNext val) ∧
      ∀ values, c.array.storage = .packed values →
        (values.length : Int) = c.array.nextIntKey.val := by
  have h : c.array.Appendable := run_invariant (s := start) (t := c)
    (fun c command d hc hk hd => step_appendable hc command hk hd) (constructed_appendable hs) hok hr
  exact ⟨h.appendsAtNext, h.dense⟩

/-- A byte-keyed operand with a negative and a string key. -/
def byteKeyed : TaggedArray Unit :=
  ⟨((PhpArray.new.setInt PhpArray.minusFive (.long .zero)).setStr "k" (.other ())), true, false⟩

def mergeThenAppend : List (ArrayCommand Unit) :=
  [.mutate (.ordinary (.tryPush (.long .zero))), .absorbKeyProvenance true false,
    .union byteKeyed ⟨fun _ => .other (), fun _ => false⟩, .mutate (.ordinary .pop),
    .mutate (.ordinary (.setInt .max (.long .zero)))]

theorem run_appends_at_next_merge :
    (∃ c, run step ⟨.new, false, false⟩ mergeThenAppend = some c ∧ c.array.nextIntKey = .max) ∧
    ∀ c, run step ⟨.new, false, false⟩ mergeThenAppend = some c →
      c.array.AppendsAtNext (.other ()) :=
  ⟨⟨_, rfl, rfl⟩, fun _ hr => (run_appends_at_next (.make .new) mergeThenAppend
    (by decide +kernel) hr).1 _⟩

/-- A list whose last entry has been removed keeps its automatic key when it is rebuilt as packed
values, and then appends under another one. -/
theorem rebuilt_list_appends_elsewhere : ∃ c : TaggedArray Unit,
    run step ⟨.new, false, false⟩
      [.mutate (.ordinary (.tryPush (.long .zero))), .mutate (.ordinary (.tryPush (.long .zero))),
        .mutate (.ordinary (.takeWithPosition (.int ⟨1, by decide⟩))),
        .mutate .promoteKeysToExternalStorage] = some c ∧
    c.array.storage = .packed [.long .zero] ∧ c.array.nextIntKey = ⟨2, by decide⟩ ∧
    ¬ c.array.AppendsAtNext (.other ()) := by
  refine ⟨_, rfl, rfl, rfl, fun h => ?_⟩
  have hiter := (h.appended (by decide +kernel)).2.2
  revert hiter
  decide +kernel

end ArrayCommand

end Rphp
