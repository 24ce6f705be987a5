import Rphp.Value.Array.SlotWrites
import Rphp.Lib.Run
import Mathlib.Data.List.Induction

namespace Rphp
open Rphp.Lib
set_option autoImplicit true

/-- The calls by which a caller can tell two arrays apart. -/
inductive ArrayCall (P : Type u) where
  | setInt (key : I64) (val : Value P)
  | tryPush (val : Value P)
  | pop
  | shift
  | remove (key : ArrayKey)
  | iter

/-- What a call shows: nothing, the key of an accepted append, a value that was taken out, whether
there was something to remove, or all entries. -/
inductive ArrayAnswer (P : Type u) where
  | done
  | appended (key : Option I64)
  | taken (val : Option (Value P))
  | removed (found : Bool)
  | entries (entries : List (Entry P))
deriving DecidableEq

namespace ArrayCall

def act (a : PhpArray P) : ArrayCall P → PhpArray P × ArrayAnswer P
  | .setInt key val => (a.setInt key val, .done)
  | .tryPush val =>
    ((a.tryPush val).1, .appended (if (a.tryPush val).2 then some a.nextIntKey else none))
  | .pop => (a.pop.1, .taken a.pop.2)
  | .shift => (a.shift.1, .taken a.shift.2)
  | .remove key => ((a.takeWithPosition key).1, .removed (a.takeWithPosition key).2.isSome)
  | .iter => (a, .entries a.iter)

end ArrayCall

namespace PhpArray

def pushEach (a : PhpArray P) (values : List (Value P)) : PhpArray P :=
  values.foldl (fun a val => (a.tryPush val).1) a

/-- An accepted batch cannot be told from single appends, and a refused one changes nothing. -/
structure ChunkAgrees (a : PhpArray P) (values : List I64) : Prop where
  accepted : (a.pushPackedLongChunk values).2 = true →
    Indistinguishable ArrayCall.act (a.pushPackedLongChunk values).1
      (a.pushEach (values.map .long))
  refused : (a.pushPackedLongChunk values).2 = false → (a.pushPackedLongChunk values).1 = a

theorem tryPush_packed (packed : List (Value P)) {next : I64} (hn : next ≠ .max) (init : Bool)
    (val : Value P) :
    (tryPush ⟨.packed packed, next, init⟩ val).1 =
      ⟨.packed (packed ++ [val]), next.saturatingSucc, init || decide (next = .zero)⟩ := by
  have hc : canPush (⟨.packed packed, next, init⟩ : PhpArray P) = true := by
    simp [canPush, hn]
  rw [tryPush, if_pos hc]

/-- Single appends to dense values set the bit with the key zero. -/
theorem pushEach_packed (packed : List (Value P)) {next : I64} (hlen : next.val = packed.length)
    (init : Bool) (values : List (Value P))
    (hfit : (packed.length + values.length : Int) ≤ i64Max) :
    pushEach ⟨.packed packed, next, init⟩ values =
      ⟨.packed (packed ++ values), I64.wrap (packed.length + values.length),
        init || (decide (next = .zero) && !values.isEmpty)⟩ := by
  induction values generalizing packed next init with
  | nil =>
    have hnext : I64.wrap packed.length = next := by
      refine I64.ext ?_
      rw [I64.wrap_val, hlen]
      rw [← hlen]
      exact next.inRange
    simp [pushEach, hnext]
  | cons val values ih =>
    simp only [List.length_cons, Nat.cast_add, Nat.cast_one] at hfit
    have hmax : next ≠ .max := by
      rintro rfl
      simp only [I64.max] at hlen
      omega
    have hsucc : next.saturatingSucc.val = (packed ++ [val]).length := by
      rw [I64.saturatingSucc_val, if_neg (by omega)]
      simp [hlen]
    have hpos : next.saturatingSucc ≠ .zero := by
      intro hz
      rw [hz] at hsucc
      simp only [I64.zero, List.length_append, List.length_singleton, Nat.cast_add] at hsucc
      omega
    have step := ih (packed ++ [val]) hsucc (init || decide (next = .zero)) (by
      simp only [List.length_append, List.length_singleton, Nat.cast_add, Nat.cast_one]
      omega)
    rw [pushEach, List.foldl_cons, tryPush_packed packed hmax, ← pushEach, step]
    simp [hpos, add_assoc, add_comm, add_left_comm]

theorem pop_all (packed : List (Value P)) (hne : packed ≠ []) (next : I64) (init : Bool) :
    (List.replicate packed.length ArrayCall.pop).foldl (fun a call => (ArrayCall.act a call).1)
      ⟨.packed packed, next, init⟩ = ⟨.packed [], .zero, init⟩ := by
  induction packed using List.reverseRecOn generalizing next with
  | nil => exact absurd rfl hne
  | append_singleton packed val ih =>
    rw [List.length_append, List.length_singleton, List.replicate_succ, List.foldl_cons]
    have hpop : (ArrayCall.act (⟨.packed (packed ++ [val]), next, init⟩ : PhpArray P) .pop).1 =
        ⟨.packed packed, I64.wrap packed.length, init⟩ := by
      simp [ArrayCall.act, pop]
    rw [hpop]
    by_cases hnil : packed = []
    · subst hnil
      have hzero : I64.wrap 0 = .zero := by decide
      simp [hzero]
    · exact ih hnil _

def minusFive : I64 := ⟨-5, by decide⟩

/-- An emptied array that has never counted an integer key starts below a negative one. -/
theorem emptied_distinguished :
    ¬ Indistinguishable ArrayCall.act (⟨.packed [], .zero, false⟩ : PhpArray P)
      ⟨.packed [], .zero, true⟩ := by
  intro h
  have hcalls := h [.setInt minusFive (.long .zero), .tryPush (.long .zero)]
  have hfresh : observations ArrayCall.act (⟨.packed [], .zero, false⟩ : PhpArray P)
      [.setInt minusFive (.long .zero), .tryPush (.long .zero)] =
      [.done, .appended (some ⟨-4, by decide⟩)] := rfl
  have hused : observations ArrayCall.act (⟨.packed [], .zero, true⟩ : PhpArray P)
      [.setInt minusFive (.long .zero), .tryPush (.long .zero)] =
      [.done, .appended (some .zero)] := rfl
  rw [hfresh, hused] at hcalls
  injection hcalls with _ hcalls
  injection hcalls with hcalls
  injection hcalls with hcalls
  revert hcalls
  decide

theorem pushPackedLongChunk_cases (packed : List (Value P)) (next : I64) (init : Bool)
    (values : List I64) :
    (next.val = packed.length ∧ (packed.length + values.length : Int) ≤ i64Max ∧
      pushPackedLongChunk ⟨.packed packed, next, init⟩ values =
        (⟨.packed (packed ++ values.map .long), I64.wrap (packed.length + values.length), init⟩,
          true)) ∨
    (¬ (next.val = packed.length ∧ (packed.length + values.length : Int) ≤ i64Max) ∧
      pushPackedLongChunk ⟨.packed packed, next, init⟩ values =
        (⟨.packed packed, next, init⟩, false)) := by
  simp only [pushPackedLongChunk]
  split
  · rename_i hlen
    have hlen := I64.ofNat?_eq_some.1 hlen
    split
    · rename_i next' hnext
      obtain ⟨count, hcount, hadd⟩ := Option.bind_eq_some_iff.1 hnext
      have hcount := I64.ofNat?_eq_some.1 hcount
      have hadd := I64.checkedAdd_eq_some.1 hadd
      have hval : next'.val = packed.length + values.length := by rw [hadd, hlen, hcount]
      have hnext' : next' = I64.wrap (packed.length + values.length) := by
        refine I64.ext ?_
        rw [← hval, I64.wrap_val next'.inRange]
      refine .inl ⟨hlen, ?_, by rw [hnext']⟩
      rw [← hval]
      exact next'.inRange.2
    · rename_i hnone
      refine .inr ⟨fun h => ?_, rfl⟩
      obtain ⟨count, hcount⟩ : ∃ count, I64.ofNat? values.length = some count :=
        ⟨⟨values.length, by unfold i64Min; omega⟩, I64.ofNat?_eq_some.2 rfl⟩
      rw [hcount, Option.bind_some] at hnone
      have hcount := I64.ofNat?_eq_some.1 hcount
      rw [I64.checkedAdd, I64.ofInt?_eq_none, hcount, hlen] at hnone
      unfold i64Min at hnone
      omega
  · rename_i hlen
    refine .inr ⟨fun h => hlen (I64.ofNat?_eq_some.2 h.1), rfl⟩

/-- A batch agrees with single appends exactly if it does not start the integer keys of an empty
array: that leaves the array without the mark that its integer keys have started. -/
theorem chunkAgrees_iff (packed : List (Value P)) (next : I64) (init : Bool) (values : List I64) :
    ChunkAgrees ⟨.packed packed, next, init⟩ values ↔
      values = [] ∨ packed ≠ [] ∨ next ≠ .zero ∨ init = true ∨ i64Max < values.length := by
  rcases pushPackedLongChunk_cases packed next init values with ⟨hlen, hfit, hr⟩ | ⟨hno, hr⟩
  · have hpush := pushEach_packed packed hlen init (values.map .long) (by simpa using hfit)
    simp only [List.length_map, List.isEmpty_map] at hpush
    constructor
    · intro h
      by_contra hc
      simp only [not_or, not_not, Bool.not_eq_true] at hc
      obtain ⟨hne, rfl, rfl, rfl, -⟩ := hc
      have hsame := h.accepted (by rw [hr])
      rw [hr, hpush] at hsame
      have hafter := hsame.after (List.replicate values.length .pop)
      have hne' : values.map (Value.long (P := P)) ≠ [] := by simpa using hne
      have hpop := fun next => pop_all (values.map (Value.long (P := P))) hne' next
      simp only [List.length_map] at hpop
      simp only [List.nil_append, hpop] at hafter
      simp only [Bool.false_or, decide_true, Bool.true_and] at hafter
      rw [List.isEmpty_eq_false_iff.2 hne] at hafter
      exact emptied_distinguished hafter
    · intro hc
      refine ⟨fun _ => ?_, fun hf => by rw [hr] at hf; cases hf⟩
      have hinit : (init || (decide (next = .zero) && !values.isEmpty)) = init := by
        rcases hc with rfl | hne | hne | rfl | hlt
        · simp
        · have hz : next ≠ .zero := by
            rintro rfl
            simp only [I64.zero] at hlen
            exact hne (List.length_eq_zero_iff.1 (by omega))
          simp [hz]
        · simp [hne]
        · rfl
        · omega
      rw [hr, hpush, hinit]
      exact fun _ => rfl
  · constructor
    · intro _
      by_contra hc
      simp only [not_or, not_not, not_lt, Bool.not_eq_true] at hc
      obtain ⟨-, rfl, rfl, -, hle⟩ := hc
      exact hno ⟨rfl, by simpa using hle⟩
    · intro _
      refine ⟨fun ht => ?_, fun _ => by rw [hr]⟩
      rw [hr] at ht
      cases ht

/-- The batch that starts the integer keys of a new array is told apart once it has been popped. -/
theorem not_chunkAgrees_new : ¬ ChunkAgrees (new : PhpArray Unit) [⟨7, by decide⟩] := by
  intro h
  have hcalls := h.accepted (by decide +kernel)
    [.pop, .setInt minusFive (.long .zero), .tryPush (.long .zero), .iter]
  revert hcalls
  decide +kernel

end PhpArray

end Rphp
