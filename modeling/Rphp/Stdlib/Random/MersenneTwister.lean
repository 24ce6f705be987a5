import Mathlib.Data.BitVec
import Rphp.Lib.Draws

namespace Rphp.Stdlib.Random
open Rphp.Lib
set_option autoImplicit true

/-! The legacy generator, which reloads its words in place. -/

section Generator

@[irreducible] def mtStateSize : Nat := 624
@[irreducible] def mtPeriod : Nat := 397
def mtMatrix : BitVec 32 := 0x9908b0df

structure Mt19937State where
  words : List (BitVec 32)
  next : Nat
  legacy : Bool
  deriving DecidableEq, Repr

def seedMix (previous : BitVec 32) (index : Nat) : BitVec 32 :=
  1812433253 * (previous ^^^ (previous >>> 30)) + BitVec.ofNat 32 index

/-- The legacy variant takes the parity of the wrong word. -/
def twist (legacy : Bool) (current following distant : BitVec 32) : BitVec 32 :=
  let mixed := (current &&& 0x80000000) ||| (following &&& 0x7fffffff)
  let parity := (if legacy then current else following) &&& 1
  distant ^^^ (mixed >>> 1) ^^^ (if parity ≠ 0 then mtMatrix else 0)

def temper (word : BitVec 32) : BitVec 32 :=
  let value := word ^^^ (word >>> 11)
  let value := value ^^^ ((value <<< 7) &&& 0x9d2c5680)
  let value := value ^^^ ((value <<< 15) &&& 0xefc60000)
  value ^^^ (value >>> 18)

namespace Mt19937State

def seedStep (words : List (BitVec 32)) (index : Nat) : List (BitVec 32) :=
  words.set index (seedMix (words.getD (index - 1) 0) index)

def seedWords (seed : BitVec 32) : List (BitVec 32) :=
  (List.range' 1 (mtStateSize - 1)).foldl seedStep ((List.replicate mtStateSize 0).set 0 seed)

def seeded (seed : BitVec 32) (legacy : Bool) : Mt19937State :=
  ⟨seedWords seed, mtStateSize, legacy⟩

/-- Indices wrap around, into words that were reloaded before. -/
def reloadStep (legacy : Bool) (words : List (BitVec 32)) (index : Nat) : List (BitVec 32) :=
  words.set index (twist legacy (words.getD index 0)
    (words.getD ((index + 1) % mtStateSize) 0)
    (words.getD ((index + mtPeriod) % mtStateSize) 0))

def reloadWords (legacy : Bool) (words : List (BitVec 32)) : List (BitVec 32) :=
  (List.range mtStateSize).foldl (reloadStep legacy) words

def reload (s : Mt19937State) : Mt19937State := ⟨reloadWords s.legacy s.words, 0, s.legacy⟩

def nextU32 (s : Mt19937State) : BitVec 32 × Mt19937State :=
  let s := if s.next = mtStateSize then s.reload else s
  (temper (s.words.getD s.next 0), { s with next := s.next + 1 })

end Mt19937State

end Generator

section Recurrence

theorem one_lt_mtStateSize : 1 < mtStateSize := by
  rw [mtStateSize]
  decide

theorem mtStateSize_pos : 0 < mtStateSize := Nat.lt_trans Nat.zero_lt_one one_lt_mtStateSize

theorem mtPeriod_lt : mtPeriod < mtStateSize := by
  rw [mtPeriod, mtStateSize]
  decide

def seedWord (seed : BitVec 32) : Nat → BitVec 32
  | 0 => seed
  | n + 1 => seedMix (seedWord seed n) (n + 1)

/-- The words that the generator goes through, each made from three before it. -/
def sequenceWord (seed : BitVec 32) (legacy : Bool) (n : Nat) : BitVec 32 :=
  if _h : n < mtStateSize then seedWord seed n
  else
    let base := n - mtStateSize
    twist legacy (sequenceWord seed legacy base) (sequenceWord seed legacy (base + 1))
      (sequenceWord seed legacy (base + mtPeriod))
termination_by n
decreasing_by
  all_goals
    have hone := one_lt_mtStateSize
    have hperiod := mtPeriod_lt
    omega

variable {seed : BitVec 32} {legacy : Bool} {words : List (BitVec 32)}

theorem sequenceWord_of_lt (h : n < mtStateSize) :
    sequenceWord seed legacy n = seedWord seed n := by
  rw [sequenceWord, dif_pos h]

theorem sequenceWord_add (n : Nat) :
    sequenceWord seed legacy (n + mtStateSize) =
      twist legacy (sequenceWord seed legacy n) (sequenceWord seed legacy (n + 1))
        (sequenceWord seed legacy (n + mtPeriod)) := by
  rw [sequenceWord, dif_neg (Nat.not_lt.mpr (Nat.le_add_left mtStateSize n))]
  simp only [Nat.add_sub_cancel]

theorem getD_set (words : List (BitVec 32)) (j : Nat) (word : BitVec 32) (hi : i < words.length) :
    (words.set i word).getD j 0 = if i = j then word else words.getD j 0 := by
  rw [List.getD_eq_getElem?_getD, List.getElem?_set]
  by_cases hij : i = j
  · rw [if_pos hij, if_pos hij, if_pos hi]
    rfl
  · rw [if_neg hij, if_neg hij, List.getD_eq_getElem?_getD]

/-- The words that are seeded, up to one that is not yet. -/
structure Seeded (seed : BitVec 32) (stop : Nat) (words : List (BitVec 32)) : Prop where
  length_eq : words.length = mtStateSize
  word : ∀ j < stop, words.getD j 0 = seedWord seed j

theorem Seeded.step (h : Seeded seed (i + 1) words) (hi : i + 1 < mtStateSize) :
    Seeded seed (i + 2) (Mt19937State.seedStep words (i + 1)) where
  length_eq := by rw [Mt19937State.seedStep, List.length_set, h.length_eq]
  word := by
    intro j hj
    rw [Mt19937State.seedStep, getD_set _ _ _ (by rw [h.length_eq]; exact hi)]
    by_cases hij : i + 1 = j
    · rw [if_pos hij, ← hij, Nat.add_sub_cancel, h.word i (Nat.lt_succ_self i)]
      rfl
    · rw [if_neg hij]
      exact h.word j (by omega)

theorem Seeded.fold (n : Nat) : ∀ {i : Nat} {words : List (BitVec 32)}, Seeded seed (i + 1) words →
    i + n < mtStateSize →
    Seeded seed (i + 1 + n) ((List.range' (i + 1) n).foldl Mt19937State.seedStep words) := by
  induction n with
  | zero => exact fun h _ => h
  | succ n ih =>
    intro i words h hlt
    rw [List.range'_succ, List.foldl_cons]
    have hrest := ih (h.step (by omega)) (by omega)
    have hstop : i + 1 + 1 + n = i + 1 + (n + 1) := by omega
    rw [hstop] at hrest
    exact hrest

theorem seedWords_seeded (seed : BitVec 32) :
    Seeded seed mtStateSize (Mt19937State.seedWords seed) := by
  have hfirst : Seeded seed (0 + 1) ((List.replicate mtStateSize 0).set 0 seed) := by
    refine ⟨by rw [List.length_set, List.length_replicate], ?_⟩
    intro j hj
    obtain rfl : j = 0 := by omega
    rw [getD_set _ _ _ (by rw [List.length_replicate]; exact mtStateSize_pos), if_pos rfl]
    rfl
  have hpos := mtStateSize_pos
  have hwords := hfirst.fold (mtStateSize - 1) (by omega)
  have hstop : 0 + 1 + (mtStateSize - 1) = mtStateSize := by omega
  rw [hstop, Nat.zero_add] at hwords
  rw [Mt19937State.seedWords]
  exact hwords

/-- A reload before one of its steps: the words before it are those of the next round. -/
structure Reloaded (seed : BitVec 32) (legacy : Bool) (base stop : Nat)
    (words : List (BitVec 32)) : Prop where
  length_eq : words.length = mtStateSize
  word : ∀ j < mtStateSize, words.getD j 0 =
    sequenceWord seed legacy (base + if j < stop then mtStateSize + j else j)

/-- A word that is read at a distance is the one at that distance in the sequence. -/
theorem Reloaded.ahead (h : Reloaded seed legacy base i words) (hi : i < mtStateSize)
    (hd : d < mtStateSize) :
    words.getD ((i + d) % mtStateSize) 0 = sequenceWord seed legacy (base + (i + d)) := by
  rw [h.word _ (Nat.mod_lt _ mtStateSize_pos)]
  by_cases hlt : i + d < mtStateSize
  · rw [Nat.mod_eq_of_lt hlt, if_neg (by omega)]
  · have hmod : (i + d) % mtStateSize = i + d - mtStateSize := by
      rw [Nat.mod_eq_sub_mod (by omega)]
      exact Nat.mod_eq_of_lt (by omega)
    have hindex : mtStateSize + (i + d - mtStateSize) = i + d := by omega
    rw [hmod, if_pos (by omega), hindex]

theorem Reloaded.step (h : Reloaded seed legacy base i words) (hi : i < mtStateSize) :
    Reloaded seed legacy base (i + 1) (Mt19937State.reloadStep legacy words i) where
  length_eq := by rw [Mt19937State.reloadStep, List.length_set, h.length_eq]
  word := by
    intro j hj
    have hcurrent := h.ahead hi mtStateSize_pos
    rw [Nat.add_zero, Nat.mod_eq_of_lt hi] at hcurrent
    rw [Mt19937State.reloadStep, getD_set _ _ _ (by rw [h.length_eq]; exact hi), hcurrent,
      h.ahead hi one_lt_mtStateSize, h.ahead hi mtPeriod_lt]
    by_cases hij : i = j
    · have hindex : base + (mtStateSize + j) = base + i + mtStateSize := by omega
      rw [if_pos hij, if_pos (by omega), hindex, sequenceWord_add, Nat.add_assoc, Nat.add_assoc]
    · rw [if_neg hij, h.word j hj]
      by_cases hlt : j < i
      · rw [if_pos hlt, if_pos (by omega)]
      · rw [if_neg hlt, if_neg (by omega)]

theorem Reloaded.fold (h : Reloaded seed legacy base 0 words) (n : Nat) (hn : n ≤ mtStateSize) :
    Reloaded seed legacy base n ((List.range n).foldl (Mt19937State.reloadStep legacy) words) := by
  induction n with
  | zero => exact h
  | succ n ih =>
    rw [List.range_succ, List.foldl_append]
    exact (ih (by omega)).step (by omega)

/-- The state whose next word is a given one of the sequence. -/
structure At (seed : BitVec 32) (legacy : Bool) (index : Nat) (s : Mt19937State) : Prop where
  legacy_eq : s.legacy = legacy
  next_le : s.next ≤ mtStateSize
  held : ∃ base, index = base + s.next ∧ Reloaded seed legacy base 0 s.words

theorem at_seeded (seed : BitVec 32) (legacy : Bool) :
    At seed legacy mtStateSize (.seeded seed legacy) := by
  have hseeded := seedWords_seeded seed
  refine ⟨rfl, Nat.le_refl _, 0, (Nat.zero_add _).symm, hseeded.length_eq, ?_⟩
  intro j hj
  rw [Mt19937State.seeded, hseeded.word j hj, Nat.zero_add, if_neg (Nat.not_lt_zero j),
    sequenceWord_of_lt hj]

theorem At.reload (h : At seed legacy index s) (hnext : s.next = mtStateSize) :
    At seed legacy index s.reload := by
  obtain ⟨base, hindex, hheld⟩ := h.held
  have hreloaded := hheld.fold mtStateSize (Nat.le_refl _)
  refine ⟨h.legacy_eq, Nat.zero_le _, base + mtStateSize, ?_, ?_⟩
  · rw [hindex, hnext]
    exact (Nat.add_zero _).symm
  · rw [Mt19937State.reload, h.legacy_eq, Mt19937State.reloadWords]
    refine ⟨hreloaded.length_eq, ?_⟩
    intro j hj
    rw [hreloaded.word j hj, if_pos hj, if_neg (Nat.not_lt_zero j), Nat.add_assoc]

theorem At.nextU32 (h : At seed legacy index s) :
    s.nextU32.1 = temper (sequenceWord seed legacy index) ∧
      At seed legacy (index + 1) s.nextU32.2 := by
  have hready : ∃ t, (if s.next = mtStateSize then s.reload else s) = t ∧
      At seed legacy index t ∧ t.next < mtStateSize := by
    by_cases hnext : s.next = mtStateSize
    · rw [if_pos hnext]
      exact ⟨_, rfl, h.reload hnext, mtStateSize_pos⟩
    · rw [if_neg hnext]
      have hle := h.next_le
      exact ⟨s, rfl, h, by omega⟩
  obtain ⟨t, ht, hat, hlt⟩ := hready
  obtain ⟨base, hindex, hheld⟩ := hat.held
  rw [Mt19937State.nextU32, ht]
  have hword := hheld.word t.next hlt
  rw [if_neg (Nat.not_lt_zero _), ← hindex] at hword
  refine ⟨congrArg temper hword, hat.legacy_eq, hlt, base, ?_, hheld⟩
  rw [hindex]
  rfl

theorem At.words_eq (n : Nat) : ∀ {index : Nat} {s : Mt19937State}, At seed legacy index s →
    Draw.words Mt19937State.nextU32 n s =
      (List.range' index n).map fun i => temper (sequenceWord seed legacy i) := by
  induction n with
  | zero => exact fun _ => rfl
  | succ n ih =>
    intro index s h
    obtain ⟨hword, hnext⟩ := h.nextU32
    rw [Draw.words, List.range'_succ, List.map_cons, hword, ih hnext]

/-- The words of a seeded generator, however often it reloads, are those of the recurrence. -/
theorem words_seeded (seed : BitVec 32) (legacy : Bool) (n : Nat) :
    Draw.words Mt19937State.nextU32 n (.seeded seed legacy) =
      (List.range' mtStateSize n).map fun i => temper (sequenceWord seed legacy i) :=
  At.words_eq n (at_seeded seed legacy)

end Recurrence

end Rphp.Stdlib.Random
