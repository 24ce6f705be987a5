import Rphp.Stdlib.Random.Engine
import Rphp.Stdlib.Random.MersenneTwister

namespace Rphp.Stdlib.Random
open Rphp.Lib
set_option autoImplicit true

/-! Numbers in a range, drawn without favouring one of them. -/

section Offsets

def nextU64 : Draw (BitVec 32) Nat := do
  let low ← Draw.draw
  let high ← Draw.draw
  return low.toNat ||| high.toNat <<< 32

def sampleSpace (width : Nat) : Nat := if width ≤ 2 ^ 32 then 2 ^ 32 else 2 ^ 64

def sample (width : Nat) : Draw (BitVec 32) Nat :=
  if width ≤ 2 ^ 32 then Draw.draw >>= fun word => .done word.toNat else nextU64

/-- As many samples as there are in whole multiples of the width. -/
def accepted (width : Nat) : Nat := sampleSpace width - sampleSpace width % width

/-- Draws again until a sample is accepted; the number of attempts is bounded here only. -/
def offset (width : Nat) : Nat → Draw (BitVec 32) (Option Nat)
  | 0 => .done none
  | attempts + 1 => do
    let sample ← sample width
    if sample < accepted width then .done (some (sample % width)) else offset width attempts

theorem runs_word (v : Nat) (hv : v < 2 ^ 32) :
    (Draw.draw >>= fun word => .done word.toNat : Draw (BitVec 32) Nat).Runs v =
      {[BitVec.ofNat 32 v]} := by
  ext ws
  constructor
  · intro h
    cases ws with
    | nil => cases h
    | cons w ws =>
      cases h
      show [w] = [BitVec.ofNat 32 w.toNat]
      rw [BitVec.ofNat_toNat, BitVec.setWidth_eq]
  · rintro rfl
    show some ((BitVec.ofNat 32 v).toNat, []) = some (v, [])
    rw [BitVec.toNat_ofNat, Nat.mod_eq_of_lt hv]

theorem join_words (low high : BitVec 32) :
    low.toNat ||| high.toNat <<< 32 = low.toNat + 2 ^ 32 * high.toNat := by
  rw [Nat.or_comm, Nat.shiftLeft_eq, Nat.mul_comm high.toNat,
    ← Nat.two_pow_add_eq_or_of_lt low.isLt, Nat.add_comm]

theorem runs_nextU64 (v : Nat) (hv : v < 2 ^ 64) :
    nextU64.Runs v = {[BitVec.ofNat 32 v, BitVec.ofNat 32 (v / 2 ^ 32)]} := by
  have hhigh : v / 2 ^ 32 < 2 ^ 32 := Nat.div_lt_of_lt_mul (by rw [← Nat.pow_add]; exact hv)
  ext ws
  constructor
  · intro h
    cases ws with
    | nil => cases h
    | cons low ws =>
      cases ws with
      | nil => cases h
      | cons high ws =>
      cases h
      have hlow : (low.toNat ||| high.toNat <<< 32) % 2 ^ 32 = low.toNat := by
        rw [join_words, Nat.add_mul_mod_self_left, Nat.mod_eq_of_lt low.isLt]
      have hhigh : (low.toNat ||| high.toNat <<< 32) / 2 ^ 32 = high.toNat := by
        rw [join_words, Nat.add_mul_div_left _ _ (Nat.two_pow_pos 32),
          Nat.div_eq_of_lt low.isLt, Nat.zero_add]
      show [low, high] = [_, _]
      rw [hhigh, BitVec.ofNat_toNat, BitVec.setWidth_eq]
      congr 1
      apply BitVec.eq_of_toNat_eq
      rw [BitVec.toNat_ofNat, hlow]
  · rintro rfl
    show some ((BitVec.ofNat 32 v).toNat ||| (BitVec.ofNat 32 (v / 2 ^ 32)).toNat <<< 32, []) =
      some (v, [])
    rw [join_words, BitVec.toNat_ofNat, BitVec.toNat_ofNat, Nat.mod_eq_of_lt hhigh,
      Nat.mod_add_div]

/-- Every sample comes from one list of words. -/
theorem alike_sample (hv : v < sampleSpace width) (hv' : v' < sampleSpace width) :
    Alike ((sample width).Runs v) ((sample width).Runs v') := by
  rw [sampleSpace] at hv hv'
  rw [sample]
  by_cases hwidth : width ≤ 2 ^ 32
  · rw [if_pos hwidth] at hv hv' ⊢
    rw [runs_word v hv, runs_word v' hv']
    exact .singleton rfl
  · rw [if_neg hwidth] at hv hv' ⊢
    rw [runs_nextU64 v hv, runs_nextU64 v' hv']
    exact .singleton rfl

theorem accepted_le (width : Nat) : accepted width ≤ sampleSpace width := Nat.sub_le _ _

/-- The multiples of the width in the samples. -/
theorem accepted_eq (width : Nat) : accepted width = width * (sampleSpace width / width) := by
  have hdiv := Nat.div_add_mod (sampleSpace width) width
  rw [accepted]
  omega

/-- The accepted samples with two remainders exchanged. -/
def exchangeRemainders (width r r' sample : Nat) : Nat :=
  if sample < accepted width then
    width * (sample / width) + Equiv.swap r r' (sample % width)
  else sample

theorem exchangeRemainders_lt {sample : Nat} (hr : r < width) (hr' : r' < width)
    (hsample : sample < accepted width) :
    exchangeRemainders width r r' sample < accepted width ∧
      exchangeRemainders width r r' sample % width = Equiv.swap r r' (sample % width) ∧
      exchangeRemainders width r r' sample / width = sample / width := by
  have hpos : 0 < width := Nat.zero_lt_of_lt hr
  have hswap : Equiv.swap r r' (sample % width) < width :=
    (Draw.swap_lt hr hr' _).mpr (Nat.mod_lt _ hpos)
  rw [exchangeRemainders, if_pos hsample]
  refine ⟨?_, ?_, ?_⟩
  · rw [accepted_eq] at hsample ⊢
    have hdiv : sample / width + 1 ≤ sampleSpace width / width :=
      Nat.div_lt_of_lt_mul hsample
    have hmul := Nat.mul_le_mul_left width hdiv
    rw [Nat.mul_add, Nat.mul_one] at hmul
    omega
  · rw [Nat.mul_add_mod, Nat.mod_eq_of_lt hswap]
  · rw [Nat.mul_add_div hpos, Nat.div_eq_of_lt hswap, Nat.add_zero]

theorem exchangeRemainders_involutive (hr : r < width) (hr' : r' < width) :
    Function.Involutive (exchangeRemainders width r r') := by
  intro sample
  by_cases hsample : sample < accepted width
  · obtain ⟨hlt, hmod, hdiv⟩ := exchangeRemainders_lt hr hr' hsample
    have hagain := exchangeRemainders_lt hr hr' hlt
    have hmod' := hagain.2.1
    have hdiv' := hagain.2.2
    rw [hmod, Equiv.swap_apply_self] at hmod'
    rw [hdiv] at hdiv'
    have hsame := Nat.div_add_mod (exchangeRemainders width r r'
      (exchangeRemainders width r r' sample)) width
    rw [hmod', hdiv', Nat.div_add_mod] at hsame
    exact hsame.symm
  · have hfix : exchangeRemainders width r r' sample = sample := if_neg hsample
    rw [hfix, hfix]

/-- Every number below the width comes from equally many lists of words. -/
theorem alike_offset (hr : r < width) (hr' : r' < width) (attempts : Nat) :
    Alike ((offset width attempts).Runs (some r)) ((offset width attempts).Runs (some r')) := by
  have hinvolutive := exchangeRemainders_involutive hr hr'
  induction attempts with
  | zero => exact Draw.alike_done ⟨fun h => absurd h (by simp), fun h => absurd h (by simp)⟩
  | succ attempts ih =>
    apply Draw.alike_bind (hinvolutive.toPerm)
    · intro v
      rw [hinvolutive.coe_toPerm]
      by_cases hv : v < accepted width
      · obtain ⟨hlt, -, -⟩ := exchangeRemainders_lt hr hr' hv
        exact alike_sample (Nat.lt_of_lt_of_le hv (accepted_le width))
          (Nat.lt_of_lt_of_le hlt (accepted_le width))
      · have hfix : exchangeRemainders width r r' v = v := if_neg hv
        rw [hfix]
        exact .refl _
    · intro v _
      rw [hinvolutive.coe_toPerm]
      by_cases hv : v < accepted width
      · obtain ⟨hlt, hmod, -⟩ := exchangeRemainders_lt hr hr' hv
        rw [if_pos hv, if_pos hlt, hmod]
        apply Draw.alike_done
        rw [Option.some_inj, Option.some_inj]
        exact (Equiv.swap_apply_eq_iff.trans (by rw [Equiv.swap_apply_right])).symm
      · have hfix : exchangeRemainders width r r' v = v := if_neg hv
        rw [hfix, if_neg hv]
        exact ih

theorem offset_lt (hwidth : 0 < width) (attempts : Nat) :
    ∀ {ws : List (BitVec 32)} {r : Nat}, ws ∈ (offset width attempts).Runs (some r) →
      r < width := by
  induction attempts with
  | zero =>
    intro ws r h
    cases h
  | succ attempts ih =>
    intro ws r h
    obtain ⟨v, front, rest, rfl, -, hrest⟩ := Draw.mem_runs_bind.mp h
    by_cases hv : v < accepted width
    · rw [if_pos hv] at hrest
      cases hrest
      exact Nat.mod_lt v hwidth
    · rw [if_neg hv] at hrest
      exact ih hrest

theorem offset_uniform (hwidth : 0 < width) (attempts : Nat) :
    (offset width attempts).Uniform width where
  below _ _ h := offset_lt hwidth attempts h
  alike _ _ hr hr' := alike_offset hr hr' attempts

/-- Every number below the width can be drawn at the first attempt. -/
theorem offset_reaches (hr : r < width) (hwidth : width ≤ 2 ^ 64) (hattempts : 0 < attempts) :
    ∃ ws, ws ∈ (offset width attempts).Runs (some r) := by
  have hle : width ≤ accepted width := by
    have hspace : width ≤ sampleSpace width := by
      rw [sampleSpace]
      split
      · assumption
      · exact hwidth
    have hdiv : 1 ≤ sampleSpace width / width :=
      (Nat.le_div_iff_mul_le (Nat.zero_lt_of_lt hr)).mpr (by rw [Nat.one_mul]; exact hspace)
    rw [accepted_eq]
    exact Nat.le_mul_of_pos_right width hdiv
  have hlt : r < accepted width := Nat.lt_of_lt_of_le hr hle
  have hsample : ∃ ws, ws ∈ (sample width).Runs r := by
    have hspace := Nat.lt_of_lt_of_le hlt (accepted_le width)
    rw [sampleSpace] at hspace
    rw [sample]
    by_cases hnarrow : width ≤ 2 ^ 32
    · rw [if_pos hnarrow] at hspace ⊢
      exact ⟨_, (runs_word r hspace).symm.subset rfl⟩
    · rw [if_neg hnarrow] at hspace ⊢
      exact ⟨_, (runs_nextU64 r hspace).symm.subset rfl⟩
  obtain ⟨ws, hws⟩ := hsample
  cases attempts with
  | zero => exact absurd hattempts (Nat.lt_irrefl 0)
  | succ attempts =>
    refine ⟨ws ++ [], Draw.mem_runs_bind.mpr ⟨r, ws, [], rfl, hws, ?_⟩⟩
    rw [if_pos hlt, Nat.mod_eq_of_lt hr]
    rfl

end Offsets

section Integers

def nextI31 : Draw (BitVec 32) Nat := Draw.draw >>= fun word => .done (word >>> 1).toNat

/-- The deprecated mapping scales one presented word, whatever the width. -/
def legacyOffset (width : Nat) : Draw (BitVec 32) Nat :=
  nextI31 >>= fun presented => .done ((presented * width) >>> 31)

def rangeOffset (legacy : Bool) (width attempts : Nat) : Draw (BitVec 32) (Option Nat) :=
  if legacy then legacyOffset width >>= fun offset => .done (some offset)
  else offset width attempts

/-- A number between two bounds, which may be given in either order where that is accepted. -/
def legacyRandomInteger (function : String) (acceptsInvertedRange legacy : Bool)
    (minimum maximum : Option Int64) (attempts : Nat) :
    Except Thrown (Draw (BitVec 32) (Option Int)) :=
  match minimum, maximum with
  | none, some _ => .error ⟨"ArgumentCountError",
      s!"{function}(): Argument #1 ($min) must be passed explicitly, " ++
        "because the default value is not known"⟩
  | some _, none => .error ⟨"ArgumentCountError",
      s!"{function}() expects exactly 2 arguments, 1 given"⟩
  | none, none => .ok (nextI31 >>= fun number => .done (some number))
  | some minimum, some maximum =>
    if maximum < minimum ∧ !acceptsInvertedRange then .error ⟨"ValueError",
      s!"{function}(): Argument #2 ($max) must be greater than or equal to argument #1 ($min)"⟩
    else
      let low := min minimum.toInt maximum.toInt
      let high := max minimum.toInt maximum.toInt
      .ok ((rangeOffset legacy (high - low + 1).toNat attempts).andThen fun offset =>
        .done (some (low + offset)))

def mtRand (legacy : Bool) (minimum maximum : Option Int64) (attempts : Nat) :
    Except Thrown (Draw (BitVec 32) (Option Int)) :=
  legacyRandomInteger "mt_rand" false legacy minimum maximum attempts

def rand (legacy : Bool) (minimum maximum : Option Int64) (attempts : Nat) :
    Except Thrown (Draw (BitVec 32) (Option Int)) :=
  legacyRandomInteger "rand" true legacy minimum maximum attempts

/-- Only `rand` takes its bounds in either order. -/
theorem rand_swapped (legacy : Bool) (minimum maximum : Int64) (attempts : Nat) :
    rand legacy (some minimum) (some maximum) attempts =
      rand legacy (some maximum) (some minimum) attempts := by
  have hinverted : ∀ p : Prop, ¬ (p ∧ !true) := fun _ h => Bool.false_ne_true h.2
  rw [rand, rand, legacyRandomInteger, legacyRandomInteger, if_neg (hinverted _),
    if_neg (hinverted _), min_comm, max_comm]

theorem legacyOffset_lt (hwidth : 0 < width) (h : ws ∈ (legacyOffset width).Runs r) :
    r < width := by
  obtain ⟨n, front, rest, rfl, hfront, hrest⟩ := Draw.mem_runs_bind.mp h
  obtain ⟨word, front, rest', rfl, -, hword⟩ := Draw.mem_runs_bind.mp hfront
  cases hword
  cases hrest
  rw [Nat.shiftRight_eq_div_pow]
  apply Nat.div_lt_of_lt_mul
  have hhalf : (word >>> 1).toNat < 2 ^ 31 := by
    have hlt := word.isLt
    rw [BitVec.toNat_ushiftRight, Nat.shiftRight_eq_div_pow]
    omega
  exact Nat.mul_lt_mul_of_pos_right hhalf hwidth

theorem rangeOffset_lt (hwidth : 0 < width) {legacy : Bool}
    (h : ws ∈ (rangeOffset legacy width attempts).Runs (some r)) : r < width := by
  cases legacy with
  | true =>
    obtain ⟨n, front, rest, rfl, hfront, hrest⟩ := Draw.mem_runs_bind.mp h
    cases hrest
    exact legacyOffset_lt hwidth hfront
  | false => exact offset_lt hwidth attempts h

/-- A draw that has only the numbers between two bounds, and favours none of them. -/
structure Fair (d : Draw (BitVec 32) (Option Int)) (low high : Int) : Prop where
  between : ∀ ws v, ws ∈ d.Runs (some v) → low ≤ v ∧ v ≤ high
  reaches : ∀ v, low ≤ v → v ≤ high → ∃ ws, ws ∈ d.Runs (some v)
  ncard_eq : ∀ v v', low ≤ v → v ≤ high → low ≤ v' → v' ≤ high → ∀ n,
    {ws ∈ d.Runs (some v) | ws.length = n}.ncard = {ws ∈ d.Runs (some v') | ws.length = n}.ncard

variable {low high : Int}

theorem shifted_between {legacy : Bool} (hle : low ≤ high)
    (h : ws ∈ ((rangeOffset legacy (high - low + 1).toNat attempts).andThen fun offset =>
      .done (some (low + offset))).Runs (some v)) : low ≤ v ∧ v ≤ high := by
  obtain ⟨r, front, rest, rfl, hfront, hrest⟩ := Draw.mem_runs_andThen.mp h
  have hlt := rangeOffset_lt (by omega) hfront
  cases hrest
  omega

theorem shifted_fair (hle : low ≤ high) (hwidth : high - low < 2 ^ 64) (hattempts : 0 < attempts) :
    Fair ((rangeOffset false (high - low + 1).toNat attempts).andThen fun offset =>
      .done (some (low + offset))) low high where
  between _ _ h := shifted_between hle h
  reaches := by
    intro v hlow hhigh
    have hr : (v - low).toNat < (high - low + 1).toNat := by omega
    obtain ⟨ws, hws⟩ := offset_reaches hr (by omega) hattempts
    refine ⟨ws ++ [], Draw.mem_runs_andThen.mpr ⟨(v - low).toNat, ws, [], rfl, hws, ?_⟩⟩
    have hv : low + ((v - low).toNat : Int) = v := by omega
    rw [hv]
    rfl
  ncard_eq := by
    intro v v' hlow hhigh hlow' hhigh' n
    apply Alike.ncard_eq
    apply Draw.alike_andThen (Equiv.swap (v - low).toNat (v' - low).toNat)
    · have hpos : 0 < (high - low + 1).toNat := by omega
      exact (offset_uniform hpos attempts).permute _ (Draw.swap_lt (by omega) (by omega))
    · intro a _
      apply Draw.alike_done
      rw [Option.some_inj, Option.some_inj]
      by_cases ha : a = (v - low).toNat
      · rw [ha, Equiv.swap_apply_left]
        omega
      · by_cases ha' : a = (v' - low).toNat
        · rw [ha', Equiv.swap_apply_right]
          omega
        · rw [Equiv.swap_apply_of_ne_of_ne ha ha']
          omega

/-- With the legacy twist numbers stay in the range, also those that a generator in any state
gives; otherwise none is favoured either. -/
theorem legacyRandomInteger_fair (function : String) (legacy : Bool) (minimum maximum : Int64)
    (horder : minimum ≤ maximum ∨ acceptsInvertedRange = true) (hattempts : 0 < attempts) :
    ∃ d, legacyRandomInteger function acceptsInvertedRange legacy (some minimum) (some maximum)
        attempts = .ok d ∧
      (∀ ws v, ws ∈ d.Runs (some v) →
        min minimum.toInt maximum.toInt ≤ v ∧ v ≤ max minimum.toInt maximum.toInt) ∧
      (∀ state v, (d.run Mt19937State.nextU32 state).1 = some v →
        min minimum.toInt maximum.toInt ≤ v ∧ v ≤ max minimum.toInt maximum.toInt) ∧
      (legacy = false →
        Fair d (min minimum.toInt maximum.toInt) (max minimum.toInt maximum.toInt)) := by
  have haccepted : ¬ (maximum < minimum ∧ !acceptsInvertedRange) := by
    rintro ⟨hlt, hinverted⟩
    obtain hle | htrue := horder
    · exact absurd (Int64.lt_iff_toInt_lt.mp hlt) (Int.not_lt.mpr (Int64.le_iff_toInt_le.mp hle))
    · rw [htrue] at hinverted
      exact absurd hinverted Bool.false_ne_true
  rw [legacyRandomInteger, if_neg haccepted]
  have hle : min minimum.toInt maximum.toInt ≤ max minimum.toInt maximum.toInt := by omega
  have hminimum := minimum.toInt_lt
  have hminimum' := minimum.le_toInt
  have hmaximum := maximum.toInt_lt
  have hmaximum' := maximum.le_toInt
  refine ⟨_, rfl, fun ws v hws => shifted_between hle hws, ?_, ?_⟩
  · intro state v hv
    obtain ⟨n, hwords, -⟩ := Draw.run_words Mt19937State.nextU32 _ state
    rw [hv] at hwords
    exact shifted_between hle hwords
  rintro rfl
  exact shifted_fair hle (by omega) hattempts

theorem legacyRandomInteger_fair_dice :
    ∃ d, mtRand false (some 1) (some 6) 3 = .ok d ∧
      (∀ ws v, ws ∈ d.Runs (some v) → min (Int64.toInt 1) (Int64.toInt 6) ≤ v ∧
        v ≤ max (Int64.toInt 1) (Int64.toInt 6)) ∧
      (∀ state v, (d.run Mt19937State.nextU32 state).1 = some v →
        min (Int64.toInt 1) (Int64.toInt 6) ≤ v ∧ v ≤ max (Int64.toInt 1) (Int64.toInt 6)) ∧
      (false = false →
        Fair d (min (Int64.toInt 1) (Int64.toInt 6)) (max (Int64.toInt 1) (Int64.toInt 6))) :=
  legacyRandomInteger_fair "mt_rand" false 1 6 (.inl (by decide)) (by decide)

end Integers

end Rphp.Stdlib.Random
