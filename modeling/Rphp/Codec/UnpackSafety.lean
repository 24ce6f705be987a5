import Rphp.Codec.Pack
import Rphp.Lib.Run

namespace Rphp.Codec.Pack
open Rphp.Lib
set_option autoImplicit true

section Cursor

/-- The position some bytes further, when the data has as many. -/
def within (length position count : Nat) : Option Nat :=
  if position + count ≤ length then some (position + count) else none

def moveCursor (length offset : Nat) (code : Char) (r : Repeat) (position : Nat) : Option Nat :=
  match code with
  | 'x' => within length position (r.countOr (length - position))
  | 'X' => some (max (position - r.countOr 1) offset)
  | '@' => some (min length (max position (saturatingAdd offset (r.countOr 1))))
  | _ => none

/-- Where a code leaves the position, from lengths alone; nothing when it ends the call. -/
def codeCursor (length offset : Nat) (code : Char) (r : Repeat) (position : Nat) : Option Nat :=
  match integerWidth code <|> floatWidth code with
  | some width => within length position (r.countOr ((length - position) / width) * width)
  | none =>
    match code with
    | 'a' | 'A' | 'Z' | 'h' | 'H' =>
      within length position (bytesNeeded code (requestedBy code r (length - position)))
    | _ => moveCursor length offset code r position

/-- Where a segment leaves the position, from lengths alone; nothing when it ends the call. -/
def cursorAfter (length offset position : Nat) (segment : List Char) : Option Nat :=
  match utf8 segment with
  | [] => some position
  | first :: raw =>
    if countOverflows raw then none
    else codeCursor length offset (Char.ofNat first.toNat) (parseRepeat raw).1 position

/-- A result that goes on at the position, or that ends the call when there is none. -/
def Follows (flow : Option (Flow P)) : Option Nat → Prop
  | some position => ∃ s, flow = some (.next s) ∧ s.position = position
  | none => ∃ outcome, flow = some (.done outcome)

variable {native : ByteOrder} {C : Conversions P} {data : List UInt8} {offset : Nat}
  {s : UnpackState P}

theorem readSigned_isSome (h : bytes.length = width) (order : ByteOrder) :
    (readSigned order width bytes).isSome := by
  simp [readSigned, exactly, h]

theorem readUnsigned_isSome (h : bytes.length = width) (order : ByteOrder) :
    (readUnsigned order width bytes).isSome := by
  simp [readUnsigned, exactly, h]

theorem readInteger_isSome (native : ByteOrder) (hwidth : integerWidth code = some width)
    (h : bytes.length = width) :
    (readInteger native code bytes).isSome := by
  unfold integerWidth at hwidth
  split at hwidth <;> cases hwidth
  case h_1 | h_2 =>
    obtain ⟨byte, rfl⟩ := List.length_eq_one_iff.mp h
    simp [readInteger, readSigned, readUnsigned, exactly]
  all_goals simp only [readInteger, readSigned_isSome h, readUnsigned_isSome h]

theorem readValue_eq_some (hwidth : (integerWidth code <|> floatWidth code) = some width)
    (h : bytes.length = width) : ∃ value, readValue native C code bytes = some value := by
  unfold readValue
  cases hint : integerWidth code with
  | none => exact ⟨_, if_neg (by simp)⟩
  | some w =>
    rw [hint] at hwidth
    cases hwidth
    obtain ⟨n, hn⟩ := Option.isSome_iff_exists.mp (readInteger_isSome native hint h)
    exact ⟨.long n, by simp [hn]⟩

theorem addUsize_eq (h : a + b ≤ usizeMax) : addUsize a b = some (a + b) := if_pos h

theorem length_slice (h : start + n ≤ data.length) : ((data.drop start).take n).length = n := by
  rw [List.length_take, List.length_drop]
  omega

theorem unpackNumbers_follows (hwidth : (integerWidth code <|> floatWidth code) = some width)
    (hdata : data.length ≤ usizeMax) (name : List Char) (repeated : Bool) (count index : Nat)
    (hs : s.position ≤ data.length) :
    Follows (unpackNumbers native C data code width name repeated count index s)
      (within data.length s.position (count * width)) := by
  induction count generalizing index s with
  | zero =>
    rw [Nat.zero_mul, within, Nat.add_zero, if_pos hs]
    exact ⟨s, rfl, rfl⟩
  | succ count ih =>
    have hmul : s.position + (count + 1) * width = s.position + width + count * width := by
      rw [Nat.add_one_mul]
      omega
    rw [unpackNumbers, within, hmul]
    by_cases havailable : data.length - s.position < width
    · have hend : ¬ s.position + width + count * width ≤ data.length := by omega
      rw [if_neg hend]
      exact ⟨_, if_pos havailable⟩
    · have hstop : s.position + width ≤ data.length := by omega
      obtain ⟨value, hvalue⟩ : ∃ value,
          readValue native C code ((data.drop s.position).take width) = some value :=
        readValue_eq_some hwidth (length_slice hstop)
      simp only [if_neg havailable, addUsize_eq (hstop.trans hdata), slice_add hstop, hvalue,
        Option.bind_eq_bind, Option.bind_some]
      exact ih (index + 1) (s := ⟨_, s.position + width, _⟩) hstop

theorem unpackString_follows (hdata : data.length ≤ usizeMax) (code : Char) (r : Repeat)
    (name : List Char) (hs : s.position ≤ data.length) :
    Follows (unpackString C data code r name s) (within data.length s.position
      (bytesNeeded code (requestedBy code r (data.length - s.position)))) := by
  unfold unpackString within
  dsimp only
  generalize bytesNeeded code (requestedBy code r (data.length - s.position)) = needed
  by_cases hneeded : data.length - s.position < needed
  · have hend : ¬ s.position + needed ≤ data.length := by omega
    rw [if_neg hend]
    exact ⟨_, if_pos hneeded⟩
  · have hstop : s.position + needed ≤ data.length := by omega
    simp only [if_neg hneeded, addUsize_eq (hstop.trans hdata), slice_add hstop,
      Option.bind_eq_bind, Option.bind_some, if_pos hstop]
    exact ⟨_, rfl, rfl⟩

theorem unpackCursor_follows (hdata : data.length ≤ usizeMax) (code : Char) (r : Repeat)
    (hs : s.position ≤ data.length) :
    Follows (unpackCursor data offset code r s)
      (moveCursor data.length offset code r s.position) := by
  unfold unpackCursor moveCursor
  split
  · unfold within
    dsimp only
    generalize r.countOr (data.length - s.position) = count
    by_cases hcount : data.length - s.position < count
    · have hend : ¬ s.position + count ≤ data.length := by omega
      rw [if_neg hend]
      exact ⟨_, if_pos hcount⟩
    · have hstop : s.position + count ≤ data.length := by omega
      simp only [if_neg hcount, addUsize_eq (hstop.trans hdata), Option.bind_eq_bind,
        Option.bind_some, if_pos hstop]
      exact ⟨_, rfl, rfl⟩
  · exact ⟨_, rfl, rfl⟩
  · dsimp only
    generalize max s.position (saturatingAdd offset (r.countOr 1)) = target
    by_cases htarget : data.length < target
    · rw [if_pos htarget, Nat.min_eq_left htarget.le]
      exact ⟨_, rfl, rfl⟩
    · rw [if_neg htarget, Nat.min_eq_right (by omega)]
      exact ⟨_, rfl, rfl⟩
  · simp only [Follows, *]
    exact ⟨_, rfl⟩

/-- A code moves the position as its cursor says, and never panics. -/
theorem unpackCode_follows (hdata : data.length ≤ usizeMax) (code : Char) (r : Repeat)
    (name : List Char) (hs : s.position ≤ data.length) :
    Follows (unpackCode native C data offset code r name s)
      (codeCursor data.length offset code r s.position) := by
  unfold unpackCode codeCursor
  cases hwidth : (integerWidth code <|> floatWidth code) with
  | some width => exact unpackNumbers_follows hwidth hdata name r.isRepeated _ 1 hs
  | none =>
    dsimp only
    split
    case h_6 =>
      have hcursor : Follows (unpackCursor data offset code r s)
          (moveCursor data.length offset code r s.position) :=
        unpackCursor_follows hdata code r hs
      simp only [*]
    all_goals exact unpackString_follows hdata _ r name hs

theorem within_bounds (h : within length position count = some p) :
    position ≤ p ∧ p ≤ length := by
  unfold within at h
  split at h
  · cases h
    omega
  · cases h

/-- A code leaves the position between the offset and the end of the data. -/
theorem codeCursor_bounds (hoffset : offset ≤ position) (hposition : position ≤ length)
    (h : codeCursor length offset code r position = some p) : offset ≤ p ∧ p ≤ length := by
  have hwithin : ∀ {count}, within length position count = some p → offset ≤ p ∧ p ≤ length :=
    fun hw => ⟨hoffset.trans (within_bounds hw).1, (within_bounds hw).2⟩
  unfold codeCursor at h
  split at h
  · exact hwithin h
  · split at h
    case h_6 =>
      unfold moveCursor at h
      split at h
      · exact hwithin h
      · cases h
        omega
      · cases h
        omega
      · cases h
    all_goals exact hwithin h

end Cursor

section Segments

theorem parseRepeat_consumed (raw : List UInt8) :
    (parseRepeat raw).2 ≤ raw.length ∧
      ∀ byte ∈ raw.take (parseRepeat raw).2, byte.toNat < 128 := by
  unfold parseRepeat
  split
  · rename_i hstar
    cases raw with
    | nil => cases hstar
    | cons byte raw =>
      cases hstar
      refine ⟨by simp, ?_⟩
      simp
  · dsimp only
    split
    · simp
    · refine ⟨(List.takeWhile_sublist _).length_le, fun byte hbyte => ?_⟩
      have hdigits : raw.take (raw.takeWhile isDigit).length = raw.takeWhile isDigit :=
        List.prefix_iff_eq_take.mp (List.takeWhile_prefix _) |>.symm
      rw [hdigits] at hbyte
      have hdigit := isDigit_iff.mp (List.mem_takeWhile_imp hbyte)
      omega

/-- Nothing but a star or a digit is taken as a count. -/
theorem parseRepeat_wide (h : ∀ byte ∈ raw.head?, 128 ≤ UInt8.toNat byte) :
    parseRepeat raw = (.count 1, 0) := by
  cases raw with
  | nil => rfl
  | cons byte raw =>
    have hbyte : 128 ≤ byte.toNat := h byte rfl
    have hstar : byte ≠ 42 := by
      rintro rfl
      revert hbyte
      decide
    have hdigit : isDigit byte = false := by
      rw [Bool.eq_false_iff, Ne, isDigit_iff]
      omega
    simp [parseRepeat, hstar, hdigit]

/-- Whether a segment is empty or starts with an ASCII character. -/
def startsAscii (segment : List Char) : Bool := segment.head?.all isAsciiChar

variable {segment : List Char} {native : ByteOrder} {C : Conversions P} {data : List UInt8}
  {offset : Nat} {s : UnpackState P}

/-- A segment that starts in ASCII moves the position as its cursor says. -/
theorem unpackSegment_follows (hascii : startsAscii segment = true)
    (hdata : data.length ≤ usizeMax) (hs : s.position ≤ data.length) :
    Follows (unpackSegment native C data offset s segment)
      (cursorAfter data.length offset s.position segment) := by
  cases segment with
  | nil => exact ⟨s, rfl, rfl⟩
  | cons c text =>
    have hc : isAsciiChar c = true := hascii
    have hbytes : utf8 (c :: text) = UInt8.ofNat c.toNat :: utf8 text := by
      rw [utf8_cons, utf8EncodeChar_ascii hc]
      rfl
    obtain ⟨hlength, htaken⟩ := parseRepeat_consumed (utf8 text)
    obtain ⟨before, after, htext, hbefore, hplain⟩ := exists_ascii_of_take hlength htaken
    have hname : sliceFrom (c :: text) (1 + (parseRepeat (utf8 text)).2) = some after := by
      have hslice := sliceFrom_ascii (List.forall_mem_cons.mpr ⟨hc, hplain⟩) after
      rwa [List.cons_append, ← htext, List.length_cons, hbefore, Nat.add_comm] at hslice
    unfold unpackSegment cursorAfter
    rw [hbytes]
    dsimp only
    cases hcount : countOverflows (utf8 text) with
    | true => exact ⟨_, if_pos rfl⟩
    | false =>
      simp only [Bool.false_eq_true, if_false, hname, Option.bind_eq_bind, Option.bind_some]
      exact unpackCode_follows hdata _ _ after hs

/-- A segment that starts outside ASCII is cut inside its first character. -/
theorem unpackSegment_panics (hwide : startsAscii segment = false) :
    unpackSegment native C data offset s segment = none := by
  cases segment with
  | nil => cases hwide
  | cons c text =>
    have hc : isAsciiChar c = false := hwide
    obtain ⟨hlength, hbytes⟩ := utf8EncodeChar_wide hc
    cases hchar : String.utf8EncodeChar c with
    | nil => simp [hchar] at hlength
    | cons lead tail =>
      have hraw : utf8 (c :: text) = lead :: (tail ++ utf8 text) := by
        rw [utf8_cons, hchar, List.cons_append]
      have hcount : parseRepeat (tail ++ utf8 text) = (.count 1, 0) := by
        apply parseRepeat_wide
        cases tail with
        | nil => simp [hchar] at hlength
        | cons next tail =>
          rintro byte ⟨rfl⟩
          exact hbytes next (by simp [hchar])
      have hoverflow : countOverflows (tail ++ utf8 text) = false := by
        simp [countOverflows, hcount]
      unfold unpackSegment
      rw [hraw]
      simp only [hoverflow, Bool.false_eq_true, if_false, hcount, Nat.add_zero,
        sliceFrom_one_wide hc, Option.bind_eq_bind, Option.bind_none]

theorem cursorAfter_bounds (hoffset : offset ≤ position) (hposition : position ≤ length)
    (h : cursorAfter length offset position segment = some p) : offset ≤ p ∧ p ≤ length := by
  unfold cursorAfter at h
  split at h
  · cases h
    exact ⟨hoffset, hposition⟩
  · split at h
    · cases h
    · exact codeCursor_bounds hoffset hposition h

end Segments

section Calls

variable {segment : List Char} {native : ByteOrder} {C : Conversions P} {data : List UInt8}
  {offset : Nat} {s : UnpackState P}

/-- Every segment in front of which the position gets starts with an ASCII character. -/
def ReachedAscii (length offset position : Nat) (segments : List (List Char)) : Prop :=
  ∀ before segment after, segments = before ++ segment :: after →
    (run (cursorAfter length offset) position before).isSome → startsAscii segment = true

theorem reachedAscii_cons (length offset position : Nat) (segment : List Char)
    (segments : List (List Char)) :
    ReachedAscii length offset position (segment :: segments) ↔
      startsAscii segment = true ∧ ∀ p, cursorAfter length offset position segment = some p →
        ReachedAscii length offset p segments := by
  constructor
  · intro h
    refine ⟨h [] segment segments rfl rfl, fun p hp before next after hsegments hrun => ?_⟩
    refine h (segment :: before) next after (by rw [hsegments]; rfl) ?_
    rwa [run, hp, Option.bind_some]
  · rintro ⟨hascii, hrest⟩ before next after hsegments hrun
    cases before with
    | nil =>
      cases hsegments
      exact hascii
    | cons first before =>
      cases hsegments
      rw [run] at hrun
      cases hp : cursorAfter length offset position segment with
      | none => simp [hp] at hrun
      | some p => exact hrest p hp before next after rfl (by simpa [hp] using hrun)

/-- A call returns exactly when it reaches no segment that starts outside ASCII. -/
theorem unpackSegments_isSome_iff (hdata : data.length ≤ usizeMax) (segments : List (List Char))
    (hoffset : offset ≤ s.position) (hs : s.position ≤ data.length) :
    (unpackSegments native C data offset segments s).isSome ↔
      ReachedAscii data.length offset s.position segments := by
  induction segments generalizing s with
  | nil => exact iff_of_true rfl fun before segment after h => absurd h (by simp)
  | cons segment segments ih =>
    rw [reachedAscii_cons, unpackSegments]
    cases hascii : startsAscii segment with
    | false => simp [unpackSegment_panics hascii]
    | true =>
      have hfollows : Follows (unpackSegment native C data offset s segment)
          (cursorAfter data.length offset s.position segment) :=
        unpackSegment_follows hascii hdata hs
      cases hcursor : cursorAfter data.length offset s.position segment with
      | none =>
        rw [hcursor] at hfollows
        obtain ⟨outcome, hflow⟩ := hfollows
        simp [hflow]
      | some p =>
        rw [hcursor] at hfollows
        obtain ⟨next, hflow, hnext⟩ := hfollows
        obtain ⟨hlow, hhigh⟩ := cursorAfter_bounds hoffset hs hcursor
        subst hnext
        simp [hflow, ih hlow hhigh]

variable (native C data offset)

/-- A segment after which the call goes on. -/
def passes (s : UnpackState P) (segment : List Char) : Option (UnpackState P) :=
  match unpackSegment native C data offset s segment with
  | some (.next s) => some s
  | _ => none

def UnpackState.InBounds (offset length : Nat) (s : UnpackState P) : Prop :=
  offset ≤ s.position ∧ s.position ≤ length

/-- The call returns, and after every segment that it gets past the position is between the
offset and the end of the data. -/
structure Safe (format : List Char) : Prop where
  returns : (unpackValues native C data offset format).isSome
  positions : ∀ before after s, formatSegments format = before ++ after →
    run (passes native C data offset) ⟨.new, offset, []⟩ before = some s →
      s.InBounds offset data.length

variable {native C data offset}

theorem passes_bounds (hdata : data.length ≤ usizeMax) {t : UnpackState P}
    (hs : s.InBounds offset data.length)
    (h : passes native C data offset s segment = some t) : t.InBounds offset data.length := by
  unfold passes at h
  split at h
  · rename_i next hflow
    cases h
    cases hascii : startsAscii segment with
    | false =>
      rw [unpackSegment_panics hascii] at hflow
      cases hflow
    | true =>
      have hfollows : Follows (unpackSegment native C data offset s segment)
          (cursorAfter data.length offset s.position segment) :=
        unpackSegment_follows hascii hdata hs.2
      cases hcursor : cursorAfter data.length offset s.position segment with
      | none =>
        rw [hcursor, hflow] at hfollows
        obtain ⟨outcome, hdone⟩ := hfollows
        cases hdone
      | some p =>
        rw [hcursor, hflow] at hfollows
        obtain ⟨next, hnext, hp⟩ := hfollows
        cases hnext
        subst hp
        exact cursorAfter_bounds hs.1 hs.2 hcursor
  · cases h

/-- A call is safe exactly when it reaches no segment that starts outside ASCII. -/
theorem unpackValues_safe_iff (native : ByteOrder) (C : Conversions P) (format : List Char)
    (data : List UInt8) (hdata : data.length ≤ usizeMax) (offset : Nat)
    (hoffset : offset ≤ data.length) :
    Safe native C data offset format ↔
      ReachedAscii data.length offset offset (formatSegments format) := by
  have hreturns : (unpackValues native C data offset format).isSome ↔
      ReachedAscii data.length offset offset (formatSegments format) :=
    unpackSegments_isSome_iff hdata (formatSegments format) (Nat.le_refl offset) hoffset
  refine ⟨fun h => hreturns.mp h.returns, fun h => ⟨hreturns.mpr h, ?_⟩⟩
  intro before after s _ hrun
  have hstart : (⟨.new, offset, []⟩ : UnpackState P).InBounds offset data.length :=
    ⟨Nat.le_refl offset, hoffset⟩
  exact run_invariant (fun _ _ _ hs _ ht => passes_bounds hdata hs ht) hstart
    (meets_of_forall (fun _ _ => trivial) _ _) hrun

/-- Conversions of integers and byte strings. -/
def byteStrings : Conversions (List UInt8) where
  isArray _ := false
  valueBytes
    | .long n => utf8 (toString n.val).toList
    | .reference _ _ => []
    | .other bytes => bytes
  long _ := .zero
  longWarning _ := none
  floatBytes _ _ := []
  floatWarning _ := none
  binaryString bytes := bytes
  readFloat _ bytes := bytes

theorem unpackValues_safe_iff_words :
    Safe .little byteStrings [1, 2, 3, 4] 1 ['C', 'a', '/', 'X', '/', 'n', '*'] :=
  (unpackValues_safe_iff .little byteStrings ['C', 'a', '/', 'X', '/', 'n', '*'] [1, 2, 3, 4]
    (by decide) 1 (by decide)).mpr (by
      have hsegments : formatSegments ['C', 'a', '/', 'X', '/', 'n', '*'] =
          [['C', 'a'], ['X'], ['n', '*']] := by decide +kernel
      have hall : ∀ segment ∈ formatSegments ['C', 'a', '/', 'X', '/', 'n', '*'],
          startsAscii segment = true := by
        rw [hsegments]
        decide
      rintro before segment after hsplit -
      exact hall segment (by simp [hsplit]))

/-- A format whose first character is outside ASCII is cut inside that character. -/
theorem unpackValues_panics_wide :
    unpackValues .little byteStrings [] 0 ['é'] = none ∧
      ¬ Safe .little byteStrings [] 0 ['é'] := by
  have hpanic : unpackValues .little byteStrings [] 0 ['é'] = none := by
    have hsegments : formatSegments ['é'] = [['é']] := by decide +kernel
    rw [unpackValues, hsegments, unpackSegments, unpackSegment_panics (by decide)]
  refine ⟨hpanic, fun h => ?_⟩
  have hreturns := h.returns
  rw [hpanic] at hreturns
  cases hreturns

end Calls

end Rphp.Codec.Pack
