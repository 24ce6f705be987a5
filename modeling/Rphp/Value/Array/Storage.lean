import Mathlib.Tactic.Linarith
import Rphp.Lib.OrderedMap
import Rphp.Machine

namespace Rphp
open Rphp.Lib
set_option autoImplicit true

/-- A PHP value: an integer, a reference to a cell (owned by the handle or borrowed), or any
other payload. -/
inductive Value (P : Type u) where
  | long (n : I64)
  | reference (owned : Bool) (cell : Nat)
  | other (payload : P)
deriving DecidableEq

def Value.asLong : Value P → Option I64
  | .long n => some n
  | _ => none

def Value.isReference : Value P → Bool
  | .reference _ _ => true
  | _ => false

inductive ArrayKey where
  | int (value : I64)
  | string (value : String)
deriving DecidableEq

abbrev Entry (P : Type u) := ArrayKey × Value P

/-- One machine word of the integer index: a position, or a flag bit, a 24-bit position and a
39-bit integer. The fields do not overlap, so their union is a sum. -/
structure IntIndexValue where
  word : Nat
deriving DecidableEq

namespace IntIndexValue

def cachedLongBit : Nat := 9223372036854775808

def positionScale : Nat := 549755813888

def positionMask : Nat := 16777215

def longMin : Int := -274877906944

def longMax : Int := 274877906943

def new (position : Nat) (value : Value P) : IntIndexValue :=
  match value.asLong with
  | none => ⟨position⟩
  | some long =>
    if ¬ (longMin ≤ long.val ∧ long.val ≤ longMax) ∨ positionMask < position then ⟨position⟩
    else
      ⟨cachedLongBit + position * positionScale + (long.val % (positionScale : Int)).toNat⟩

def isCached (w : IntIndexValue) : Bool := cachedLongBit ≤ w.word

def position (w : IntIndexValue) : Nat :=
  if w.isCached then w.word / positionScale % (positionMask + 1) else w.word

/-- The cached integer, sign-extended from 39 bits. -/
def cachedLong (w : IntIndexValue) : Option I64 :=
  if w.isCached then some (I64.wrap (Int.bmod (w.word % positionScale : Nat) positionScale))
  else none

def clearCachedLong (w : IntIndexValue) : IntIndexValue := ⟨w.position⟩

theorem position_of_not_cached {w : IntIndexValue} (h : w.isCached = false) :
    w.position = w.word := by
  simp [IntIndexValue.position, h]

theorem isCached_mk {p : Nat} (h : p < cachedLongBit) :
    (⟨p⟩ : IntIndexValue).isCached = false := by
  simpa [isCached] using h

theorem position_new {p : Nat} (h : p < cachedLongBit) (value : Value P) :
    (new p value).position = p := by
  unfold new
  split
  · exact position_of_not_cached (isCached_mk h)
  · rename_i long _
    split
    · exact position_of_not_cached (isCached_mk h)
    · rename_i hc
      simp only [not_or, not_not] at hc
      have hlow : (long.val % (positionScale : Int)).toNat < positionScale := by
        have h1 := Int.emod_lt_of_pos long.val (show (0 : Int) < positionScale by decide)
        have h2 := Int.emod_nonneg long.val (show (positionScale : Int) ≠ 0 by decide)
        omega
      generalize (long.val % (positionScale : Int)).toNat = low at hlow ⊢
      have hcached : (⟨cachedLongBit + p * positionScale + low⟩ : IntIndexValue).isCached = true := by
        simp only [isCached, decide_eq_true_eq]
        omega
      rw [IntIndexValue.position, if_pos hcached]
      have hz : cachedLongBit = positionScale * (positionMask + 1) := by decide
      simp only [hz, positionScale, positionMask] at *
      omega

/-- A word made for a value caches nothing but that value's integer. -/
theorem cachedLong_new {p : Nat} (h : p < cachedLongBit) (value : Value P)
    (hc : (new p value).cachedLong = some n) : value.asLong = some n := by
  unfold new at hc
  split at hc
  · simp [cachedLong, isCached_mk h] at hc
  · rename_i long hl
    split at hc
    · simp [cachedLong, isCached_mk h] at hc
    · rename_i hcond
      simp only [not_or, not_not] at hcond
      have hr := long.inRange
      unfold cachedLong at hc
      split at hc
      · rw [hl]
        refine congrArg some (I64.ext ?_)
        rw [← Option.some.inj hc]
        have h1 := Int.emod_lt_of_pos long.val (show (0 : Int) < positionScale by decide)
        have h2 := Int.emod_nonneg long.val (show (positionScale : Int) ≠ 0 by decide)
        have hlow : (cachedLongBit + p * positionScale +
            (long.val % (positionScale : Int)).toNat) % positionScale =
            (long.val % (positionScale : Int)).toNat := by
          have hz : cachedLongBit % positionScale = 0 := by decide
          simp only [cachedLongBit, positionScale] at *
          omega
        rw [hlow, Int.toNat_of_nonneg h2, Int.emod_bmod, Int.bmod_eq_of_le, I64.wrap_val hr]
        all_goals simp only [longMin, longMax, positionScale] at *; omega
      · cases hc

theorem position_clearCachedLong {w : IntIndexValue} (h : w.position < cachedLongBit) :
    w.clearCachedLong.position = w.position := by
  exact position_of_not_cached (isCached_mk h)

theorem cachedLong_clearCachedLong {w : IntIndexValue} (h : w.position < cachedLongBit) :
    w.clearCachedLong.cachedLong = none := by
  simp [clearCachedLong, cachedLong, isCached_mk h]

end IntIndexValue

abbrev StrIndex := AList fun _ : String => Nat

abbrev IntIndex := AList fun _ : I64 => IntIndexValue

/-- The key an arithmetic progression has at a position, if it is representable. -/
def expectedKey (first stride : I64) (len : Nat) : Option I64 :=
  (I64.ofNat? len).bind fun offset =>
    (stride.checkedMul offset).bind fun offset => first.checkedAdd offset

def verifiedIntRun (first stride : I64) (len : Nat) : List (Entry P) → Nat
  | (.int key, _) :: rest =>
    if expectedKey first stride len = some key then verifiedIntRun first stride (len + 1) rest
    else len
  | _ => len

/-- A representable difference other than zero. -/
def strideBetween (first second : I64) : Option I64 :=
  (second.checkedSub first).filter fun stride => stride ≠ .zero

def verifiedIntPrefixLen : List (Entry P) → Nat
  | (.int first, _) :: (.int second, v) :: rest =>
    match strideBetween first second with
    | some stride => verifiedIntRun first stride 1 ((.int second, v) :: rest)
    | none => 1
  | (.int _, _) :: _ => 1
  | _ => 0

/-- The position the progression predicts for a key. -/
def predictedPosition (first second key : I64) : Option Nat :=
  (strideBetween first second).bind fun stride =>
    (key.checkedSub first).bind fun offset =>
      if offset.checkedRem stride = some .zero then (offset.checkedDiv stride).bind I64.toUsize?
      else none

def intKeyAt (entries : List (Entry P)) (position : Nat) : Option I64 :=
  match entries[position]? with
  | some entry =>
    match entry.1 with
    | .int key => some key
    | .string _ => none
  | none => none

def verifiedIntPosition (entries : List (Entry P)) (verified : Nat) (key : I64) : Option Nat :=
  if verified = 0 then none
  else
    (intKeyAt entries 0).bind fun first =>
      (if verified = 1 then if first = key then some 0 else none
      else (intKeyAt entries 1).bind fun second => predictedPosition first second key).bind
        fun position =>
          if verified ≤ position then none
          else if intKeyAt entries position = some key then some position
          else none

def intEntry (position : Nat) (entry : Entry P) : Option (I64 × IntIndexValue) :=
  match entry.1 with
  | .int key => some (key, .new position entry.2)
  | .string _ => none

def strEntry (position : Nat) (entry : Entry P) : Option (String × Nat) :=
  match entry.1 with
  | .int _ => none
  | .string key => some (key, position)

def materializeIntIndex (entries : List (Entry P)) : IntIndex := indexEntries intEntry 0 ∅ entries

/-- The index and the length of the prefix that replaces it; one of the two is empty. -/
def rebuildIntIndex (entries : List (Entry P)) : IntIndex × Nat :=
  if (entries.drop (verifiedIntPrefixLen entries)).all fun entry => (intEntry 0 entry).isNone then
    (∅, verifiedIntPrefixLen entries)
  else (materializeIntIndex entries, 0)

def indexedIntPosition (entries : List (Entry P)) (intIndex : IntIndex) (verified : Nat)
    (key : I64) : Option Nat :=
  (verifiedIntPosition entries verified key).or
    ((intIndex.lookup key).map IntIndexValue.position)

theorem ArrayKey.int_injective : Function.Injective ArrayKey.int := by
  intro a b h
  cases h
  rfl

theorem ArrayKey.string_injective : Function.Injective ArrayKey.string := by
  intro a b h
  cases h
  rfl

theorem strEntry_enters (bound : Nat) :
    Enters id ArrayKey.string (strEntry (P := P)) bound := by
  rintro n ⟨_ | _, _⟩ _ <;> simp [strEntry]

theorem intEntry_enters : Enters IntIndexValue.position ArrayKey.int (intEntry (P := P))
    IntIndexValue.cachedLongBit := by
  rintro n ⟨key | _, value⟩ hn
  · constructor
    · intro k w h
      simp only [intEntry, Option.some.injEq, Prod.mk.injEq] at h
      obtain ⟨rfl, rfl⟩ := h
      exact ⟨rfl, IntIndexValue.position_new hn value⟩
    · simp [intEntry]
  · simp [intEntry]

/-- Vectors are indexed by signed machine words. -/
def Fits (entries : List α) : Prop := (entries.length : Int) ≤ i64Max

instance (entries : List α) : Decidable (Fits entries) :=
  inferInstanceAs (Decidable ((entries.length : Int) ≤ i64Max))

theorem Fits.lt_cachedLongBit {entries : List α} (h : Fits entries) :
    entries.length < IntIndexValue.cachedLongBit := by
  unfold Fits i64Max at h
  unfold IntIndexValue.cachedLongBit
  omega

theorem materializeIntIndex_indexes {entries : List (Entry P)} (hf : Fits entries)
    (hnd : (keysOf entries).Nodup) :
    IndexesBy IntIndexValue.position .int (materializeIntIndex entries) (keysOf entries) :=
  IndexesBy.indexEntries intEntry_enters hf.lt_cachedLongBit.le ArrayKey.int_injective hnd

theorem expectedKey_eq_some : expectedKey first stride n = some k ↔
    ((n : Int) ≤ i64Max ∧ i64Min ≤ stride.val * n ∧ stride.val * n ≤ i64Max) ∧
      k.val = first.val + stride.val * n := by
  simp only [expectedKey, Option.bind_eq_some_iff, I64.ofNat?_eq_some, I64.checkedMul_eq_some,
    I64.checkedAdd_eq_some]
  constructor
  · rintro ⟨o, ho, p, hp, hk⟩
    rw [ho] at hp
    exact ⟨⟨ho ▸ o.inRange.2, hp ▸ p.inRange.1, hp ▸ p.inRange.2⟩, by rw [hk, hp]⟩
  · rintro ⟨⟨h1, h2, h3⟩, hk⟩
    have h0 : i64Min ≤ (n : Int) := by
      unfold i64Min
      omega
    exact ⟨⟨n, h0, h1⟩, rfl, ⟨stride.val * n, h2, h3⟩, rfl, hk⟩

theorem expectedKey_zero (first stride : I64) : expectedKey first stride 0 = some first := by
  rw [expectedKey_eq_some]
  simp [i64Min, i64Max]

theorem expectedKey_one : expectedKey first stride 1 = some k ↔ k.val = first.val + stride.val := by
  have := stride.inRange
  rw [expectedKey_eq_some]
  simp only [i64Min, i64Max] at *
  omega

theorem expectedKey_injective (hs : stride ≠ .zero)
    (hi : expectedKey first stride i = some k) (hj : expectedKey first stride j = some k) :
    i = j := by
  obtain ⟨-, hi⟩ := expectedKey_eq_some.1 hi
  obtain ⟨-, hj⟩ := expectedKey_eq_some.1 hj
  have hne : stride.val ≠ 0 := fun h => hs (I64.ext h)
  have : stride.val * i = stride.val * j := by omega
  exact_mod_cast mul_left_cancel₀ hne this

theorem strideBetween_eq_some : strideBetween first second = some stride ↔
    stride.val = second.val - first.val ∧ stride ≠ .zero := by
  simp only [strideBetween, Option.filter_eq_some_iff, I64.checkedSub_eq_some, decide_eq_true_eq]

/-- A key the progression reaches is predicted at its own position. -/
theorem predictedPosition_expected (hs : strideBetween first second = some stride)
    (hk : expectedKey first stride i = some key) :
    predictedPosition first second key = some i := by
  obtain ⟨⟨hi, hlo, hhi⟩, hkey⟩ := expectedKey_eq_some.1 hk
  obtain ⟨-, hz⟩ := strideBetween_eq_some.1 hs
  have hne : stride.val ≠ 0 := fun h => hz (I64.ext h)
  have hoff : key.checkedSub first = some ⟨stride.val * i, hlo, hhi⟩ := by
    rw [I64.checkedSub_eq_some]
    simp only
    omega
  have hguard : ¬ (stride.val = 0 ∨ stride.val * i = i64Min ∧ stride.val = -1) := by
    rintro (h | ⟨h, h1⟩)
    · exact hne h
    · rw [h1] at h
      unfold i64Min i64Max at *
      omega
  have hrem : I64.checkedRem ⟨stride.val * i, hlo, hhi⟩ stride = some .zero := by
    rw [I64.checkedRem, if_neg hguard, I64.ofInt?_eq_some]
    simp [I64.zero]
  have hdiv : I64.checkedDiv ⟨stride.val * i, hlo, hhi⟩ stride =
      some ⟨i, by unfold i64Min; omega, hi⟩ := by
    rw [I64.checkedDiv, if_neg hne, I64.ofInt?_eq_some]
    simp [Int.mul_tdiv_cancel_left _ hne]
  simp only [predictedPosition, hs, Option.bind_some, hoff, hrem, ↓reduceIte, hdiv]
  exact I64.toUsize?_eq_some.2 rfl

/-! What the index and the prefix know about the ordered entries. -/

/-- The integer keys are exactly those of the first entries. -/
def IntKeysFirst (keys : List ArrayKey) (n : Nat) : Prop :=
  ∀ i, (∃ k, keys[i]? = some (.int k)) ↔ i < n

/-- The first keys are an arithmetic progression that checked arithmetic can follow. -/
def Arithmetic (keys : List ArrayKey) (n : Nat) : Prop :=
  2 ≤ n → ∃ first stride, stride ≠ .zero ∧
    ∀ i < n, ∃ k, keys[i]? = some (.int k) ∧ expectedKey first stride i = some k

/-- Two keys whose difference is not representable. -/
def Unrepresentable (keys : List ArrayKey) (n : Nat) : Prop :=
  n = 2 ∧ ∃ first second, keys[0]? = some (.int first) ∧ keys[1]? = some (.int second) ∧
    second.checkedSub first = none

def IntIndexed (keys : List ArrayKey) (intIndex : IntIndex) (verified : Nat) : Prop :=
  if verified = 0 then IndexesBy IntIndexValue.position .int intIndex keys
  else intIndex = ∅ ∧ IntKeysFirst keys verified ∧
    (Arithmetic keys verified ∨ Unrepresentable keys verified)

theorem Arithmetic.of_lt (h : n < 2) : Arithmetic keys n := by
  intro h2
  omega

/-- The progression runs from the first key by the difference to the second. -/
theorem Arithmetic.stride (h : Arithmetic keys n) (hn : 2 ≤ n) : ∃ first second stride,
    keys[0]? = some (.int first) ∧ keys[1]? = some (.int second) ∧
      strideBetween first second = some stride ∧
      ∀ i < n, ∃ k, keys[i]? = some (.int k) ∧ expectedKey first stride i = some k := by
  obtain ⟨first, stride, hs, hk⟩ := h hn
  obtain ⟨k0, h0, he0⟩ := hk 0 (by omega)
  obtain ⟨k1, h1, he1⟩ := hk 1 (by omega)
  rw [expectedKey_zero] at he0
  cases he0
  have := expectedKey_one.1 he1
  exact ⟨first, k1, stride, h0, h1, strideBetween_eq_some.2 ⟨by omega, hs⟩, hk⟩

theorem Arithmetic.pair {stride : I64} (hne : first ≠ key)
    (hs : key.checkedSub first = some stride) :
    Arithmetic [.int first, .int key] 2 := by
  have hv := I64.checkedSub_eq_some.1 hs
  intro _
  refine ⟨first, stride, fun hz => hne (I64.ext ?_), fun i hi => ?_⟩
  · rw [hz] at hv
    simp only [I64.zero] at hv
    omega
  · rcases i with _ | _ | i
    · exact ⟨first, rfl, expectedKey_zero first stride⟩
    · exact ⟨key, rfl, expectedKey_one.2 (by omega)⟩
    · omega

/-- The key the progression expects next is new and extends it. -/
theorem Arithmetic.extend (ha : Arithmetic keys n) (hn : 2 ≤ n) (hlen : keys.length = n)
    (hfirst : keys[0]? = some (.int first)) (hsecond : keys[1]? = some (.int second))
    (hk : ((second.checkedSub first).bind fun stride => expectedKey first stride n) = some key) :
    .int key ∉ keys ∧ Arithmetic (keys ++ [.int key]) (n + 1) := by
  obtain ⟨first', second', stride, h0, h1, hs, hrun⟩ := ha.stride hn
  rw [hfirst] at h0
  rw [hsecond] at h1
  cases h0
  cases h1
  obtain ⟨hsub, hz⟩ := strideBetween_eq_some.1 hs
  rw [I64.checkedSub_eq_some.2 hsub, Option.bind_some] at hk
  constructor
  · intro hmem
    obtain ⟨i, hi⟩ := List.getElem?_of_mem hmem
    have hlt : i < n := hlen ▸ (List.getElem?_eq_some_iff.1 hi).1
    obtain ⟨k, hki, he⟩ := hrun i hlt
    rw [hi] at hki
    cases hki
    exact absurd (expectedKey_injective hz he hk) (by omega)
  · refine fun _ => ⟨first, stride, hz, fun i hi => ?_⟩
    rcases Nat.eq_or_lt_of_le (Nat.le_of_lt_succ hi) with rfl | hlt
    · exact ⟨key, getElem?_concat_eq_some.2 (.inr ⟨hlen.symm, rfl⟩), hk⟩
    · obtain ⟨k, hki, he⟩ := hrun i hlt
      exact ⟨k, getElem?_concat_eq_some.2 (.inl hki), he⟩

theorem IntKeysFirst.of_ints (h1 : ∀ i < n, ∃ k, keys[i]? = some (.int k))
    (h2 : ∀ x ∈ keys.drop n, ∀ k, x ≠ .int k) : IntKeysFirst keys n := by
  intro i
  refine ⟨fun ⟨k, hk⟩ => ?_, h1 i⟩
  by_contra hlt
  refine h2 (.int k) ?_ k rfl
  rw [List.mem_iff_getElem?]
  exact ⟨i - n, by rw [List.getElem?_drop]; simpa [show n + (i - n) = i by omega] using hk⟩

theorem IntKeysFirst.concat (h : IntKeysFirst keys keys.length) (key : I64) :
    IntKeysFirst (keys ++ [.int key]) (keys.length + 1) := by
  intro i
  simp only [getElem?_concat_eq_some]
  constructor
  · rintro ⟨k, hk | ⟨rfl, -⟩⟩
    · exact Nat.lt_succ_of_lt ((h i).1 ⟨k, hk⟩)
    · omega
  · intro hi
    rcases Nat.eq_or_lt_of_le (Nat.le_of_lt_succ hi) with rfl | hlt
    · exact ⟨key, .inr ⟨rfl, rfl⟩⟩
    · obtain ⟨k, hk⟩ := (h i).2 hlt
      exact ⟨k, .inl hk⟩

theorem IntIndexed.intKeysFirst (h : IntIndexed keys intIndex n) (hn : n ≠ 0) :
    IntKeysFirst keys n := by
  rw [IntIndexed, if_neg hn] at h
  exact h.2.1

theorem intKeyAt_eq_some {entries : List (Entry P)} :
    intKeyAt entries i = some k ↔ (keysOf entries)[i]? = some (.int k) := by
  rw [keysOf_getElem?, intKeyAt]
  rcases entries[i]? with _ | ⟨_ | _, _⟩ <;> simp

theorem verifiedIntPosition_sound {entries : List (Entry P)}
    (h : verifiedIntPosition entries n key = some i) :
    i < n ∧ (keysOf entries)[i]? = some (.int key) := by
  unfold verifiedIntPosition at h
  split at h
  · cases h
  · obtain ⟨first, -, h⟩ := Option.bind_eq_some_iff.1 h
    obtain ⟨position, -, h⟩ := Option.bind_eq_some_iff.1 h
    split at h
    · cases h
    · rename_i hlt
      split at h
      · rename_i hk
        cases h
        exact ⟨by omega, intKeyAt_eq_some.1 hk⟩
      · cases h

theorem verifiedIntPosition_complete {entries : List (Entry P)}
    (ha : Arithmetic (keysOf entries) n) (hi : i < n)
    (hk : (keysOf entries)[i]? = some (.int key)) :
    verifiedIntPosition entries n key = some i := by
  have hki := intKeyAt_eq_some.2 hk
  rw [verifiedIntPosition, if_neg (by omega)]
  by_cases h1 : n = 1
  · have h0 : i = 0 := by omega
    subst h0
    simp [hki, h1]
  · obtain ⟨first, second, stride, hfirst, hsecond, hs, hrun⟩ := ha.stride (by omega)
    obtain ⟨k, hk', he⟩ := hrun i hi
    rw [hk] at hk'
    cases hk'
    simp only [intKeyAt_eq_some.2 hfirst, intKeyAt_eq_some.2 hsecond, h1, ↓reduceIte,
      Option.bind_some, predictedPosition_expected hs he, hki]
    rw [if_neg (by omega)]

theorem verifiedIntPosition_unrepresentable {entries : List (Entry P)}
    (hu : Unrepresentable (keysOf entries) n) (key : I64) :
    verifiedIntPosition entries n key = none := by
  obtain ⟨rfl, first, second, h0, h1, hsub⟩ := hu
  have hs : strideBetween first second = none := by simp [strideBetween, hsub]
  simp [verifiedIntPosition, intKeyAt_eq_some.2 h0, intKeyAt_eq_some.2 h1, predictedPosition, hs]

/-- Outside the one unrepresentable state, the lookup finds every integer key. -/
theorem indexedIntPosition_eq {entries : List (Entry P)}
    (h : IntIndexed (keysOf entries) intIndex n) (ha : Arithmetic (keysOf entries) n)
    (hnd : (keysOf entries).Nodup) (key : I64) :
    indexedIntPosition entries intIndex n key = positionOf entries (.int key) := by
  unfold IntIndexed at h
  unfold indexedIntPosition
  by_cases hn : n = 0
  · rw [if_pos hn] at h
    rw [h.position hnd]
    simp [verifiedIntPosition, hn, positionOf]
  · rw [if_neg hn] at h
    obtain ⟨rfl, hfirst, -⟩ := h
    cases hp : positionOf entries (.int key) with
    | none =>
      cases hv : verifiedIntPosition entries n key with
      | none => simp
      | some i =>
        have := List.mem_of_getElem? (verifiedIntPosition_sound hv).2
        exact absurd this (positionOf_eq_none.1 hp)
    | some i =>
      have hk := (positionOf_eq_some hnd).1 hp
      have hi := (hfirst i).1 ⟨key, hk⟩
      simp [verifiedIntPosition_complete ha hi hk]

/-- The run counts keys of the progression, starting with the first list entry. -/
theorem verifiedIntRun_spec (first stride : I64) (entries : List (Entry P)) (len : Nat) :
    len ≤ verifiedIntRun first stride len entries ∧
      verifiedIntRun first stride len entries ≤ len + entries.length ∧
      ∀ i, len ≤ i → i < verifiedIntRun first stride len entries →
        ∃ k, (keysOf entries)[i - len]? = some (.int k) ∧ expectedKey first stride i = some k := by
  induction entries generalizing len with
  | nil => simp [verifiedIntRun]
  | cons e entries ih =>
    obtain ⟨key | key, value⟩ := e
    · rw [verifiedIntRun]
      split
      · rename_i hk
        obtain ⟨h1, h2, h3⟩ := ih (len + 1)
        refine ⟨by omega, by simp only [List.length_cons]; omega, fun i hi hlt => ?_⟩
        rcases Nat.eq_or_lt_of_le hi with rfl | hi'
        · exact ⟨key, by simp [keysOf], hk⟩
        · obtain ⟨k, hk, he⟩ := h3 i hi' hlt
          refine ⟨k, ?_, he⟩
          rw [show i - len = i - (len + 1) + 1 by omega]
          simpa [keysOf] using hk
      · simp
        omega
    · simp [verifiedIntRun]
      omega

/-- The measured prefix is a progression of integer keys. -/
theorem verifiedIntPrefixLen_spec (entries : List (Entry P)) :
    (∀ i < verifiedIntPrefixLen entries, ∃ k, (keysOf entries)[i]? = some (.int k)) ∧
      Arithmetic (keysOf entries) (verifiedIntPrefixLen entries) := by
  unfold verifiedIntPrefixLen
  split
  · rename_i first v1 second v rest
    split
    · rename_i stride hs
      obtain ⟨-, -, hrun⟩ := verifiedIntRun_spec first stride
        ((ArrayKey.int second, v) :: rest) 1
      have hkeys : ∀ i < verifiedIntRun first stride 1 ((ArrayKey.int second, v) :: rest),
          ∃ k, (keysOf ((ArrayKey.int first, v1) :: (ArrayKey.int second, v) :: rest))[i]? =
            some (.int k) ∧ expectedKey first stride i = some k := by
        intro i hi
        cases i with
        | zero => exact ⟨first, rfl, expectedKey_zero first stride⟩
        | succ i =>
          obtain ⟨k, hk, he⟩ := hrun (i + 1) (by omega) hi
          exact ⟨k, by simpa [keysOf] using hk, he⟩
      refine ⟨fun i hi => ?_, fun _ => ⟨first, stride, (strideBetween_eq_some.1 hs).2, hkeys⟩⟩
      obtain ⟨k, hk, -⟩ := hkeys i hi
      exact ⟨k, hk⟩
    · refine ⟨fun i hi => ⟨first, ?_⟩, .of_lt (by omega)⟩
      rw [show i = 0 by omega]
      rfl
  · rename_i first _ _ _
    refine ⟨fun i hi => ⟨first, ?_⟩, .of_lt (by omega)⟩
    rw [show i = 0 by omega]
    rfl
  · exact ⟨fun i hi => absurd hi (by omega), .of_lt (by omega)⟩

theorem rebuildIntIndex_spec {entries : List (Entry P)} (hf : Fits entries)
    (hnd : (keysOf entries).Nodup) :
    IntIndexed (keysOf entries) (rebuildIntIndex entries).1 (rebuildIntIndex entries).2 ∧
      Arithmetic (keysOf entries) (rebuildIntIndex entries).2 := by
  obtain ⟨hints, harith⟩ := verifiedIntPrefixLen_spec entries
  unfold rebuildIntIndex
  split
  · rename_i hall
    have hstr : ∀ x ∈ (keysOf entries).drop (verifiedIntPrefixLen entries), ∀ k, x ≠ .int k := by
      rintro x hx k rfl
      rw [keysOf, ← List.map_drop] at hx
      obtain ⟨e, he, hek⟩ := List.mem_map.1 hx
      have := List.all_eq_true.1 hall e he
      simp [intEntry, hek] at this
    have hfirst := IntKeysFirst.of_ints hints hstr
    refine ⟨?_, harith⟩
    unfold IntIndexed
    split
    · rename_i h0
      intro k i
      have hne : (keysOf entries)[i]? ≠ some (.int k) := fun h => by
        have hlt := (hfirst i).1 ⟨k, h⟩
        exact absurd (h0 ▸ hlt) (Nat.not_lt_zero i)
      simp [hne]
    · exact ⟨rfl, hfirst, .inl harith⟩
  · exact ⟨by rw [IntIndexed, if_pos rfl]; exact materializeIntIndex_indexes hf hnd,
      .of_lt (by omega)⟩

end Rphp
