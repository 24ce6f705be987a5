import Mathlib.Data.List.TakeWhile
import Rphp.Lib.Bytes
import Rphp.Machine

namespace Rphp.Stdlib.Serialization
open Rphp.Lib
set_option autoImplicit true

def repeatedR (order : ByteOrder) : UInt64 := UInt64.ofNat (ofBytes order (List.replicate 8 82))

def lowBits : UInt64 := 0x0101010101010101

def highBits : UInt64 := 0x8080808080808080

/-- The test of eight bytes at once, read in the order of the machine. -/
def wordHasR (order : ByteOrder) (bytes : List UInt8) : Bool :=
  let word := UInt64.ofNat (ofBytes order bytes)
  let difference := word ^^^ repeatedR order
  (difference - lowBits) &&& ~~~difference &&& highBits != 0

/-- The index in the input of the first `R` of a piece of it that begins at a position. -/
def positionOfR (position : Nat) (bytes : List UInt8) : Option Nat :=
  (bytes.findIdx? (· = 82)).map fun relative => position + relative

def findUppercaseReferenceMarker (order : ByteOrder) (input : List UInt8) (position : Nat) :
    Option Nat :=
  if 8 ≤ input.length - position then
    if wordHasR order ((input.drop position).take 8) then
      positionOfR position ((input.drop position).take 8)
    else findUppercaseReferenceMarker order input (position + 8)
  else positionOfR position (input.drop position)
termination_by input.length - position

/-- The result of a checked operation of `usize`. -/
def checked (n : Nat) : Option Nat := if n ≤ usizeMax then some n else none

def appendDigit (target : Nat) (digit : UInt8) : Option Nat := do
  let tens ← checked (target * 10)
  checked (tens + (digit - 48).toNat)

/-- The loop over the digits: where it stops, the number read, and whether there was a digit. A
number that leaves `usize` counts as none. -/
def scanDigits (input : List UInt8) (position target : Nat) (hasDigit : Bool) : Nat × Nat × Bool :=
  match _h : input[position]? with
  | some digit =>
    if isDigit digit then
      match appendDigit target digit with
      | some next => scanDigits input (position + 1) next true
      | none => (position, target, false)
    else (position, target, hasDigit)
  | none => (position, target, hasDigit)
termination_by input.length - position
decreasing_by
  have hlt := (List.getElem?_eq_some_iff.mp _h).1
  omega

/-- The target that a marker announces. -/
def referenceAt (input : List UInt8) (marker : Nat) : Option Nat :=
  if input[marker + 1]? ≠ some 58 then none
  else
    match scanDigits input (marker + 2) 0 false with
    | (position, target, hasDigit) =>
      if hasDigit ∧ input[position]? = some 59 then some target else none

section Marker

theorem toNat_ofBytes (order : ByteOrder) (hlength : bytes.length = 8) :
    (UInt64.ofNat (ofBytes order bytes)).toNat = ofBytes order bytes := by
  rw [UInt64.toNat_ofNat']
  apply Nat.mod_eq_of_lt
  cases order with
  | little =>
    have hlt := ofLittleBytes_lt bytes
    rwa [hlength] at hlt
  | big =>
    have hlt := ofLittleBytes_lt bytes.reverse
    rwa [List.length_reverse, hlength] at hlt

theorem wordTest_eq (difference : UInt64) :
    ((difference - lowBits) &&& ~~~difference &&& highBits).toNat =
      zeroFlags 8 difference.toNat := by
  have hlow : lowBits.toNat = repeatedByte 1 8 := by decide
  have hhigh : highBits.toNat = repeatedByte 128 8 := by decide
  have hle : repeatedByte 1 8 ≤ 2 ^ 64 := by decide
  rw [UInt64.toNat_and, UInt64.toNat_and, UInt64.toNat_sub, UInt64.toNat_not, hlow, hhigh,
    zeroFlags, Nat.add_comm, ← Nat.add_sub_assoc hle]
  rfl

/-- The letter is found in the eight bytes, in whichever order the machine reads them. -/
theorem wordHasR_iff (order : ByteOrder) (hlength : bytes.length = 8) :
    wordHasR order bytes = true ↔ 82 ∈ bytes := by
  have hword := toNat_ofBytes order hlength
  have hrepeated : (UInt64.ofNat (ofBytes order (List.replicate 8 82))).toNat =
      ofBytes order (List.replicate 8 82) := toNat_ofBytes order rfl
  have hflags : ∀ read : List UInt8, read.length = 8 →
      (zeroFlags 8 (ofLittleBytes read ^^^ repeatedByte 82 8) ≠ 0 ↔ 82 ∈ read) := by
    intro read hread
    rw [← hread]
    exact zeroFlags_xor_ne_zero 82 read
  rw [wordHasR, bne_iff_ne, ne_eq, ← UInt64.toNat_inj, wordTest_eq, UInt64.toNat_xor, hword,
    repeatedR, hrepeated]
  cases order with
  | little => exact hflags bytes hlength
  | big =>
    rw [← List.mem_reverse]
    exact hflags bytes.reverse (by rw [List.length_reverse, hlength])

theorem positionOfR_eq_some :
    positionOfR position bytes = some i ↔
      position ≤ i ∧ bytes[i - position]? = some 82 ∧
        ∀ j, position ≤ j → j < i → bytes[j - position]? ≠ some 82 := by
  rw [positionOfR, Option.map_eq_some_iff]
  constructor
  · rintro ⟨relative, hfound, rfl⟩
    obtain ⟨hlt, hbyte, hbefore⟩ := List.findIdx?_eq_some_iff_getElem.mp hfound
    refine ⟨Nat.le_add_right _ _, ?_, fun j hj hji heq => ?_⟩
    · rw [Nat.add_sub_cancel_left, List.getElem?_eq_getElem hlt, of_decide_eq_true hbyte]
    · obtain ⟨hjlt, hj82⟩ := List.getElem?_eq_some_iff.mp heq
      exact hbefore (j - position) (by omega) (decide_eq_true hj82)
  · rintro ⟨hle, hbyte, hbefore⟩
    obtain ⟨hlt, h82⟩ := List.getElem?_eq_some_iff.mp hbyte
    refine ⟨i - position, List.findIdx?_eq_some_iff_getElem.mpr
      ⟨hlt, decide_eq_true h82, fun j hj heq => ?_⟩, by omega⟩
    apply hbefore (position + j) (Nat.le_add_right _ _) (by omega)
    rw [Nat.add_sub_cancel_left, List.getElem?_eq_getElem (by omega), of_decide_eq_true heq]

theorem positionOfR_eq_none (position : Nat) : positionOfR position bytes = none ↔ 82 ∉ bytes := by
  rw [positionOfR, Option.map_eq_none_iff, List.findIdx?_eq_none_iff]
  simp only [decide_eq_false_iff_not]
  exact ⟨fun h hmem => h 82 hmem rfl, fun h byte hmem heq => h (heq ▸ hmem)⟩

theorem positionOfR_append (position : Nat) (front rest : List UInt8) :
    positionOfR position (front ++ rest) =
      (positionOfR position front).or (positionOfR (position + front.length) rest) := by
  simp only [positionOfR, List.findIdx?_append, Option.map_or, Option.map_map]
  congr 2
  funext relative
  simp only [Function.comp]
  omega

/-- Eight bytes without the letter are skipped as a whole. -/
theorem findUppercaseReferenceMarker_eq (order : ByteOrder) (input : List UInt8) (position : Nat) :
    findUppercaseReferenceMarker order input position =
      positionOfR position (input.drop position) := by
  fun_induction findUppercaseReferenceMarker order input position with
  | case1 position hword hflags =>
    have hlength : ((input.drop position).take 8).length = 8 := by
      rw [List.length_take, List.length_drop]
      omega
    rw [wordHasR_iff order hlength] at hflags
    have hfound : (positionOfR position ((input.drop position).take 8)).isSome := by
      rw [Option.isSome_iff_ne_none, ne_eq, positionOfR_eq_none, not_not]
      exact hflags
    conv_rhs => rw [← List.take_append_drop 8 (input.drop position), positionOfR_append]
    rw [Option.or_of_isSome hfound]
  | case2 position hword hflags ih =>
    have hlength : ((input.drop position).take 8).length = 8 := by
      rw [List.length_take, List.length_drop]
      omega
    rw [wordHasR_iff order hlength, ← positionOfR_eq_none position] at hflags
    conv_rhs => rw [← List.take_append_drop 8 (input.drop position), positionOfR_append]
    rw [ih, hflags, Option.none_or, hlength, List.drop_drop]
  | case3 position hword => rfl

theorem findUppercaseReferenceMarker_bounds
    (h : findUppercaseReferenceMarker order input cursor = some marker) :
    cursor ≤ marker ∧ marker < input.length := by
  rw [findUppercaseReferenceMarker_eq] at h
  obtain ⟨hle, hbyte, -⟩ := positionOfR_eq_some.mp h
  obtain ⟨hlt, -⟩ := List.getElem?_eq_some_iff.mp hbyte
  rw [List.length_drop] at hlt
  omega

/-- The first letter at or behind a position, or none. -/
theorem findUppercaseReferenceMarker_spec (order : ByteOrder) (input : List UInt8)
    (position : Nat) :
    (∀ i, findUppercaseReferenceMarker order input position = some i ↔
      position ≤ i ∧ input[i]? = some 82 ∧ ∀ j, position ≤ j → j < i → input[j]? ≠ some 82) ∧
    (findUppercaseReferenceMarker order input position = none ↔
      ∀ i, position ≤ i → input[i]? ≠ some 82) := by
  have hdrop : ∀ i, position ≤ i → (input.drop position)[i - position]? = input[i]? := by
    intro i hi
    rw [List.getElem?_drop, Nat.add_sub_cancel' hi]
  rw [findUppercaseReferenceMarker_eq]
  constructor
  · intro i
    rw [positionOfR_eq_some]
    constructor
    · rintro ⟨hle, hbyte, hbefore⟩
      rw [hdrop i hle] at hbyte
      exact ⟨hle, hbyte, fun j hj hji => hdrop j hj ▸ hbefore j hj hji⟩
    · rintro ⟨hle, hbyte, hbefore⟩
      rw [← hdrop i hle] at hbyte
      exact ⟨hle, hbyte, fun j hj hji => (hdrop j hj).symm ▸ hbefore j hj hji⟩
  · rw [positionOfR_eq_none]
    constructor
    · intro hmem i hi hbyte
      rw [← hdrop i hi] at hbyte
      exact hmem (List.mem_of_getElem? hbyte)
    · intro hbytes hmem
      obtain ⟨i, hi⟩ := List.getElem?_of_mem hmem
      rw [List.getElem?_drop] at hi
      exact hbytes (position + i) (Nat.le_add_right _ _) hi

end Marker

/-- The loop over the markers from a cursor on. -/
def referenceTargetsFrom (order : ByteOrder) (input : List UInt8) (cursor : Nat)
    (targets : List Nat) : List Nat :=
  match _h : findUppercaseReferenceMarker order input cursor with
  | some marker =>
    match referenceAt input marker with
    | some target =>
      if target ∈ targets then referenceTargetsFrom order input (marker + 1) targets
      else referenceTargetsFrom order input (marker + 1) (targets ++ [target])
    | none => referenceTargetsFrom order input (marker + 1) targets
  | none => targets
termination_by input.length - cursor
decreasing_by
  all_goals
    have hbounds := findUppercaseReferenceMarker_bounds _h
    omega

def uppercaseReferenceTargets (order : ByteOrder) (input : List UInt8) : List Nat :=
  referenceTargetsFrom order input 0 []

section Targets

variable {input : List UInt8}

/-- The number that decimal digits append to a number. -/
def appendDigits (target : Nat) (digits : List UInt8) : Nat :=
  digits.foldl (fun target digit => target * 10 + (digit - 48).toNat) target

theorem appendDigit_eq (target : Nat) (digit : UInt8) :
    appendDigit target digit = checked (target * 10 + (digit - 48).toNat) := by
  unfold appendDigit checked
  split
  · rfl
  · rw [if_neg (by omega)]
    rfl

theorem appendDigits_cons (target : Nat) (digit : UInt8) (digits : List UInt8) :
    appendDigits target (digit :: digits) =
      appendDigits (target * 10 + (digit - 48).toNat) digits := rfl

theorem le_appendDigits (target : Nat) (digits : List UInt8) :
    target ≤ appendDigits target digits := by
  induction digits generalizing target with
  | nil => exact Nat.le_refl _
  | cons digit digits ih =>
    have hle := ih (target * 10 + (digit - 48).toNat)
    rw [appendDigits_cons]
    omega

theorem scanDigits_stop (h : ∀ byte, input[position]? = some byte → isDigit byte = false) :
    scanDigits input position target hasDigit = (position, target, hasDigit) := by
  rw [scanDigits]
  split
  · rename_i byte hbyte
    rw [h byte hbyte]
    rfl
  · rfl

theorem scanDigits_digit (hbyte : input[position]? = some digit) (hdigit : isDigit digit = true) :
    scanDigits input position target hasDigit =
      match appendDigit target digit with
      | some next => scanDigits input (position + 1) next true
      | none => (position, target, false) := by
  rw [scanDigits]
  split
  · rename_i byte h
    obtain rfl : digit = byte := Option.some.inj (hbyte.symm.trans h)
    rw [if_pos hdigit]
  · rename_i h
    cases hbyte.symm.trans h

/-- The loop reads all the digits at its position when their number fits. -/
theorem scanDigits_fits (target : Nat) (hasDigit : Bool)
    (hinput : input.drop position = digits ++ rest)
    (hdigits : ∀ digit ∈ digits, isDigit digit = true)
    (hrest : ∀ byte, rest.head? = some byte → isDigit byte = false)
    (hfits : appendDigits target digits ≤ usizeMax) :
    scanDigits input position target hasDigit =
      (position + digits.length, appendDigits target digits, hasDigit || !digits.isEmpty) := by
  induction digits generalizing position target hasDigit with
  | nil =>
    have hstop : ∀ byte, input[position]? = some byte → isDigit byte = false := by
      intro byte hbyte
      apply hrest
      rw [← hbyte, ← List.head?_drop, hinput, List.nil_append]
    rw [scanDigits_stop hstop, List.isEmpty_nil, Bool.not_true, Bool.or_false]
    rfl
  | cons digit digits ih =>
    rw [List.forall_mem_cons] at hdigits
    rw [appendDigits_cons] at hfits ⊢
    have hbyte : input[position]? = some digit := by
      rw [← List.head?_drop, hinput, List.cons_append, List.head?_cons]
    have hnext : input.drop (position + 1) = digits ++ rest := by
      rw [← List.tail_drop, hinput, List.cons_append, List.tail_cons]
    have hle := le_appendDigits (target * 10 + (digit - 48).toNat) digits
    rw [scanDigits_digit hbyte hdigits.1, appendDigit_eq, checked, if_pos (by omega)]
    dsimp only
    rw [ih _ _ hnext hdigits.2 hfits, List.length_cons, Bool.true_or, List.isEmpty_cons, Bool.not_false,
      Bool.or_true]
    congr 1
    omega

/-- A number that does not fit counts as no digit. -/
theorem scanDigits_overflows (target : Nat) (hasDigit : Bool)
    (hinput : input.drop position = digits ++ rest)
    (hdigits : ∀ digit ∈ digits, isDigit digit = true) (htarget : target ≤ usizeMax)
    (hover : usizeMax < appendDigits target digits) :
    (scanDigits input position target hasDigit).2.2 = false := by
  induction digits generalizing position target hasDigit with
  | nil => exact absurd htarget (Nat.not_le.mpr hover)
  | cons digit digits ih =>
    rw [List.forall_mem_cons] at hdigits
    rw [appendDigits_cons] at hover
    have hbyte : input[position]? = some digit := by
      rw [← List.head?_drop, hinput, List.cons_append, List.head?_cons]
    have hnext : input.drop (position + 1) = digits ++ rest := by
      rw [← List.tail_drop, hinput, List.cons_append, List.tail_cons]
    rw [scanDigits_digit hbyte hdigits.1, appendDigit_eq, checked]
    split
    · rename_i next hsome
      split at hsome
      · rename_i hle
        cases hsome
        exact ih _ _ hnext hdigits.2 hle hover
      · cases hsome
    · rfl

/-- Decimal digits, at least one, whose number fits `usize`. -/
structure Numeral (numeral : List UInt8) (n : Nat) : Prop where
  nonempty : numeral ≠ []
  digits : ∀ digit ∈ numeral, isDigit digit = true
  value : appendDigits 0 numeral = n
  fits : n ≤ usizeMax

theorem cons_prefix_drop {l : List α} :
    a :: tail <+: l.drop i ↔ l[i]? = some a ∧ tail <+: l.drop (i + 1) := by
  rw [← List.head?_drop, ← List.tail_drop]
  cases l.drop i with
  | nil => simp
  | cons b rest =>
    rw [List.cons_prefix_cons, List.head?_cons, List.tail_cons, Option.some.injEq, eq_comm]

/-- The digits in front of a semicolon are all the digits there. -/
theorem referenceAt_of_numeral (hcolon : input[marker + 1]? = some 58) (hnumeral : Numeral numeral n)
    (hbegins : numeral ++ [59] <+: input.drop (marker + 2)) :
    referenceAt input marker = some n := by
  obtain ⟨rest, hrest⟩ := hbegins
  rw [List.append_assoc] at hrest
  have hscan := scanDigits_fits 0 false hrest.symm hnumeral.digits
    (by rintro byte ⟨⟩; rfl) (hnumeral.value ▸ hnumeral.fits)
  have hsemicolon : input[marker + 2 + numeral.length]? = some 59 := by
    rw [← List.getElem?_drop, ← hrest, List.getElem?_append_right (Nat.le_refl _), Nat.sub_self]
    rfl
  have hempty : (false || !numeral.isEmpty) = true := by
    simpa using hnumeral.nonempty
  rw [referenceAt, if_neg (not_not.mpr hcolon), hscan]
  dsimp only
  rw [if_pos ⟨hempty, hsemicolon⟩, hnumeral.value]

theorem referenceAt_eq_some :
    referenceAt input marker = some n ↔
      ∃ numeral, Numeral numeral n ∧ 58 :: (numeral ++ [59]) <+: input.drop (marker + 1) := by
  simp only [cons_prefix_drop]
  constructor
  · intro h
    rw [referenceAt] at h
    split at h
    · cases h
    · rename_i hcolon
      obtain ⟨numeral, rest, hinput, hdigits, hrest⟩ : ∃ numeral rest,
          input.drop (marker + 2) = numeral ++ rest ∧ (∀ digit ∈ numeral, isDigit digit = true) ∧
            ∀ byte, rest.head? = some byte → isDigit byte = false := by
        refine ⟨(input.drop (marker + 2)).takeWhile isDigit,
          (input.drop (marker + 2)).dropWhile isDigit, List.takeWhile_append_dropWhile.symm,
          fun digit hdigit => List.mem_takeWhile_imp hdigit, fun byte hbyte => ?_⟩
        have hhead := List.head?_dropWhile_not isDigit (input.drop (marker + 2))
        rw [hbyte] at hhead
        simpa using hhead
      rcases Nat.lt_or_ge usizeMax (appendDigits 0 numeral) with hover | hfits
      · have hscan := scanDigits_overflows 0 false hinput hdigits (Nat.zero_le _) hover
        rcases hresult : scanDigits input (marker + 2) 0 false with ⟨stop, number, hasDigit⟩
        rw [hresult] at h hscan
        obtain rfl : hasDigit = false := hscan
        cases h
      · rw [scanDigits_fits 0 false hinput hdigits hrest hfits] at h
        dsimp only at h
        split at h
        · rename_i hfound
          cases h
          refine ⟨numeral, ⟨?_, hdigits, rfl, hfits⟩, not_not.mp hcolon, ?_⟩
          · rintro rfl
            cases hfound.1
          · have hsemicolon : rest.head? = some 59 := by
              rw [← hfound.2, ← List.getElem?_drop, hinput,
                List.getElem?_append_right (Nat.le_refl _), Nat.sub_self, List.head?_eq_getElem?]
            obtain ⟨after, rfl⟩ := List.head?_eq_some_iff.mp hsemicolon
            exact ⟨after, by rw [hinput, List.append_assoc]; rfl⟩
        · cases h
  · rintro ⟨numeral, hnumeral, hcolon, hbegins⟩
    exact referenceAt_of_numeral hcolon hnumeral hbegins

/-- At a marker the input announces a number: `R:`, its digits and a semicolon. -/
def Announces (input : List UInt8) (marker n : Nat) : Prop :=
  ∃ numeral, Numeral numeral n ∧ 82 :: 58 :: (numeral ++ [59]) <+: input.drop marker

theorem announces_iff (marker : Nat) :
    Announces input marker n ↔ input[marker]? = some 82 ∧ referenceAt input marker = some n := by
  rw [referenceAt_eq_some]
  constructor
  · rintro ⟨numeral, hnumeral, hbegins⟩
    obtain ⟨hmarker, htail⟩ := cons_prefix_drop.mp hbegins
    exact ⟨hmarker, numeral, hnumeral, htail⟩
  · rintro ⟨hmarker, numeral, hnumeral, htail⟩
    exact ⟨numeral, hnumeral, cons_prefix_drop.mpr ⟨hmarker, htail⟩⟩

/-- Behind the first letter are the same markers as behind the cursor, without the letter itself. -/
theorem announces_from (hfound : findUppercaseReferenceMarker order input cursor = some marker) :
    (∃ i, cursor ≤ i ∧ Announces input i n) ↔
      referenceAt input marker = some n ∨ ∃ i, marker + 1 ≤ i ∧ Announces input i n := by
  obtain ⟨hle, hletter, hbefore⟩ :=
    ((findUppercaseReferenceMarker_spec order input cursor).1 marker).mp hfound
  constructor
  · rintro ⟨i, hi, hannounces⟩
    obtain ⟨hbyte, href⟩ := (announces_iff i).mp hannounces
    rcases Nat.lt_trichotomy i marker with hlt | rfl | hgt
    · exact absurd hbyte (hbefore i hi hlt)
    · exact .inl href
    · exact .inr ⟨i, hgt, hannounces⟩
  · rintro (href | ⟨i, hi, hannounces⟩)
    · exact ⟨marker, hle, (announces_iff marker).mpr ⟨hletter, href⟩⟩
    · exact ⟨i, by omega, hannounces⟩

theorem referenceTargetsFrom_spec (order : ByteOrder) (input : List UInt8) (cursor : Nat)
    (targets : List Nat) (hnodup : targets.Nodup) :
    (referenceTargetsFrom order input cursor targets).Nodup ∧
      ∀ n, n ∈ referenceTargetsFrom order input cursor targets ↔
        n ∈ targets ∨ ∃ marker, cursor ≤ marker ∧ Announces input marker n := by
  fun_induction referenceTargetsFrom order input cursor targets with
  | case1 cursor targets marker hfound target href hmem ih =>
    obtain ⟨hresult, hiff⟩ := ih hnodup
    refine ⟨hresult, fun n => ?_⟩
    rw [hiff, announces_from hfound, href, Option.some.injEq]
    constructor
    · rintro (h | h)
      · exact .inl h
      · exact .inr (.inr h)
    · rintro (h | rfl | h)
      · exact .inl h
      · exact .inl hmem
      · exact .inr h
  | case2 cursor targets marker hfound target href hmem ih =>
    obtain ⟨hresult, hiff⟩ := ih (List.nodup_append.mpr ⟨hnodup, List.pairwise_singleton _ _, by
      intro a ha b hb
      rw [List.mem_singleton] at hb
      rintro rfl
      exact hmem (hb ▸ ha)⟩)
    refine ⟨hresult, fun n => ?_⟩
    rw [hiff, announces_from hfound, href, Option.some.injEq, List.mem_append, List.mem_singleton,
      or_assoc, eq_comm (a := n)]
  | case3 cursor targets marker hfound href ih =>
    obtain ⟨hresult, hiff⟩ := ih hnodup
    refine ⟨hresult, fun n => ?_⟩
    rw [hiff, announces_from hfound, href]
    simp only [reduceCtorEq, false_or]
  | case4 cursor targets hfound =>
    refine ⟨hnodup, fun n => ⟨.inl, ?_⟩⟩
    rintro (h | ⟨marker, hmarker, hannounces⟩)
    · exact h
    · have hnone := (findUppercaseReferenceMarker_spec order input cursor).2.mp hfound
      exact absurd ((announces_iff marker).mp hannounces).1 (hnone marker hmarker)

/-- The scan finds the first letter at or behind a position, and the targets are, without
repetition, the numbers that stand between `R:` and a semicolon somewhere in the input. -/
theorem uppercaseReferences_spec (order : ByteOrder) (input : List UInt8) :
    (∀ position ≤ input.length,
      (∀ i, findUppercaseReferenceMarker order input position = some i ↔
        position ≤ i ∧ input[i]? = some 82 ∧
          ∀ j, position ≤ j → j < i → input[j]? ≠ some 82) ∧
      (findUppercaseReferenceMarker order input position = none ↔
        ∀ i, position ≤ i → input[i]? ≠ some 82)) ∧
    (uppercaseReferenceTargets order input).Nodup ∧
    ∀ n, n ∈ uppercaseReferenceTargets order input ↔
      ∃ before numeral after, Numeral numeral n ∧
        input = before ++ [82, 58] ++ numeral ++ [59] ++ after := by
  obtain ⟨hnodup, hiff⟩ := referenceTargetsFrom_spec order input 0 [] List.nodup_nil
  refine ⟨fun position _ => findUppercaseReferenceMarker_spec order input position, hnodup,
    fun n => (hiff n).trans ?_⟩
  simp only [List.not_mem_nil, false_or, Nat.zero_le, true_and]
  constructor
  · rintro ⟨marker, numeral, hnumeral, after, hafter⟩
    refine ⟨input.take marker, numeral, after, hnumeral, ?_⟩
    conv_lhs => rw [← List.take_append_drop marker input, ← hafter]
    simp
  · rintro ⟨before, numeral, after, hnumeral, hinput⟩
    refine ⟨before.length, numeral, hnumeral, after, ?_⟩
    rw [hinput]
    simp

end Targets

end Rphp.Stdlib.Serialization
