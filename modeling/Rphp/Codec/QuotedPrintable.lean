import Mathlib.Tactic.IntervalCases
import Rphp.Lib.Bytes
import Rphp.Machine

namespace Rphp.Codec.QuotedPrintable
set_option autoImplicit true

open Rphp.Lib

/-- The sixteen digits, `0` to `9` and `A` to `F`. -/
def hex (nibble : UInt8) : UInt8 := if nibble < 10 then nibble + 48 else nibble + 55

def maxContentColumns : Nat := 75

/-- Whether the first of the bytes is escaped, given the bytes after it. -/
def mustEncode (byte : UInt8) (rest : List UInt8) : Bool :=
  if byte = 32 then rest.head? = some 13
  else !(33 ≤ byte && byte ≤ 60 || 62 ≤ byte && byte ≤ 126)

def projectedCharacterWidth (byte : UInt8) (encoded : Bool) : Nat :=
  if byte < 0x80 then if encoded then 3 else 1
  else if byte ≤ 0xdf then 6
  else if byte ≤ 0xef then 9
  else if byte ≤ 0xf4 then 12
  else 0

/-- Whether a soft line break goes out before the byte. -/
def breaksBefore (byte : UInt8) (encoded : Bool) (lineColumns : Nat) : Prop :=
  projectedCharacterWidth byte encoded ≠ 0 ∧
    maxContentColumns < saturatingAdd lineColumns (projectedCharacterWidth byte encoded)

instance : Decidable (breaksBefore byte encoded lineColumns) :=
  inferInstanceAs (Decidable (_ ∧ _))

/-- The output for one byte that starts no line end. -/
def encodeByte (byte : UInt8) (encoded : Bool) : List UInt8 :=
  if encoded then [61, hex (byte >>> 4), hex (byte &&& 0x0f)] else [byte]

/-- The loop of `encode` on the bytes that are left. -/
def encodeFrom : List UInt8 → Nat → List UInt8
  | [], _ => []
  | byte :: rest, lineColumns =>
    match byte, rest with
    | 13, 10 :: rest => 13 :: 10 :: encodeFrom rest 0
    | byte, rest =>
      let encoded := mustEncode byte rest
      if breaksBefore byte encoded lineColumns then
        61 :: 13 :: 10 :: (encodeByte byte encoded ++
          encodeFrom rest (saturatingAdd 0 (encodeByte byte encoded).length))
      else
        encodeByte byte encoded ++
          encodeFrom rest (saturatingAdd lineColumns (encodeByte byte encoded).length)

def encode (input : List UInt8) : List UInt8 := encodeFrom input 0

def hexValue (byte : UInt8) : Option UInt8 :=
  if 48 ≤ byte ∧ byte ≤ 57 then some (byte - 48)
  else if 97 ≤ byte ∧ byte ≤ 102 then some (byte - 97 + 10)
  else if 65 ≤ byte ∧ byte ≤ 70 then some (byte - 65 + 10)
  else none

/-- The byte of an escape, from what follows its equals sign. -/
def escape : List UInt8 → Option UInt8
  | high :: low :: _ => do
    let high ← hexValue high
    let low ← hexValue low
    some (high <<< 4 ||| low)
  | _ => none

def isBlank (byte : UInt8) : Bool := byte = 32 || byte = 9

def decode : List UInt8 → List UInt8
  | [] => []
  | byte :: rest =>
    if byte = 0 then []
    else if byte ≠ 61 then byte :: decode rest
    else
      match escape rest with
      | some value => value :: decode (rest.drop 2)
      | none =>
        match _h : rest.dropWhile isBlank with
        | [] => []
        | 13 :: 10 :: after => decode after
        | 13 :: after => decode after
        | 10 :: after => decode after
        | next :: _ => if next = 0 then [] else 61 :: decode rest
termination_by input => input.length
decreasing_by
  all_goals
    try simp only [List.length_cons, List.length_drop]
    try have hle := (List.dropWhile_sublist (p := isBlank) (l := rest)).length_le
    try simp only [_h, List.length_cons] at hle
    omega

/-- Printable bytes and whole line ends, and nothing else. -/
def isText : List UInt8 → Bool
  | [] => true
  | byte :: rest =>
    match byte, rest with
    | 13, 10 :: rest => isText rest
    | byte, rest => 32 ≤ byte && byte ≤ 126 && isText rest

/-- Put a byte in front of the first line. -/
def consLine (byte : UInt8) : List (List UInt8) → List (List UInt8)
  | [] => [[byte]]
  | line :: lines => (byte :: line) :: lines

/-- The content of each line, without its line end or its soft break. -/
def contentLines : List UInt8 → List (List UInt8)
  | [] => [[]]
  | byte :: rest =>
    match byte, rest with
    | 61, 13 :: 10 :: rest => [] :: contentLines rest
    | 13, 10 :: rest => [] :: contentLines rest
    | byte, rest => consLine byte (contentLines rest)

theorem encodeFrom_nil (lineColumns : Nat) : encodeFrom [] lineColumns = [] := rfl

theorem encodeFrom_crlf (rest : List UInt8) (lineColumns : Nat) :
    encodeFrom (13 :: 10 :: rest) lineColumns = 13 :: 10 :: encodeFrom rest 0 := rfl

theorem encodeFrom_cons (h : ¬ (byte = 13 ∧ rest.head? = some 10)) (lineColumns : Nat) :
    encodeFrom (byte :: rest) lineColumns =
      if breaksBefore byte (mustEncode byte rest) lineColumns then
        61 :: 13 :: 10 :: (encodeByte byte (mustEncode byte rest) ++
          encodeFrom rest (saturatingAdd 0 (encodeByte byte (mustEncode byte rest)).length))
      else
        encodeByte byte (mustEncode byte rest) ++ encodeFrom rest
          (saturatingAdd lineColumns (encodeByte byte (mustEncode byte rest)).length) := by
  rw [encodeFrom]
  intro tail hb hr
  exact h ⟨hb, by rw [hr]; rfl⟩

/-- Whether a byte stands for itself in the output. -/
def IsLiteral (byte : UInt8) : Prop := 32 ≤ byte ∧ byte ≤ 126 ∧ byte ≠ 61

instance : DecidablePred IsLiteral := fun _ => inferInstanceAs (Decidable (_ ∧ _))

theorem isLiteral_of_not_mustEncode (h : mustEncode byte rest = false) : IsLiteral byte := by
  unfold mustEncode at h
  split at h
  · subst byte
    decide
  · simp only [Bool.not_eq_eq_eq_not, Bool.not_false, Bool.or_eq_true, Bool.and_eq_true,
      decide_eq_true_eq, UInt8.le_iff_toNat_le, UInt8.reduceToNat] at h
    simp only [IsLiteral, UInt8.le_iff_toNat_le, ne_eq, ← UInt8.toNat_inj, UInt8.reduceToNat]
    omega

theorem forall_nibble {p : UInt8 → Prop} (h : ∀ i : Fin 16, p (UInt8.ofNat i))
    (hnibble : UInt8.toNat nibble < 16) : p nibble := by
  have hi := h ⟨nibble.toNat, hnibble⟩
  rwa [UInt8.ofNat_toNat] at hi

theorem hexValue_hex (hnibble : UInt8.toNat nibble < 16) :
    hexValue (hex nibble) = some nibble := by
  revert hnibble
  exact forall_nibble (p := fun nibble => hexValue (hex nibble) = some nibble) (by decide)

theorem isLiteral_hex_nibble (hnibble : UInt8.toNat nibble < 16) : IsLiteral (hex nibble) := by
  revert hnibble
  exact forall_nibble (p := fun nibble => IsLiteral (hex nibble)) (by decide)

theorem high_nibble_lt (byte : UInt8) : (byte >>> 4).toNat < 16 := by
  have hbyte := byte.toNat_lt
  have hshift : (4 : UInt8).toNat % 8 = 4 := rfl
  rw [UInt8.toNat_shiftRight, hshift, Nat.shiftRight_eq_div_pow]
  omega

theorem low_nibble_lt (byte : UInt8) : (byte &&& 0x0f).toNat < 16 := by
  rw [UInt8.toNat_and]
  exact Nat.and_lt_two_pow _ (show (0x0f : UInt8).toNat < 2 ^ 4 by decide)

theorem join_nibbles (byte : UInt8) : (byte >>> 4) <<< 4 ||| (byte &&& 0x0f) = byte := by
  apply UInt8.eq_of_toBitVec_eq
  apply BitVec.eq_of_getLsbD_eq
  intro i hi
  interval_cases i <;> simp

theorem escape_hex (byte : UInt8) (rest : List UInt8) :
    escape (hex (byte >>> 4) :: hex (byte &&& 0x0f) :: rest) = some byte := by
  simp [escape, hexValue_hex (high_nibble_lt byte), hexValue_hex (low_nibble_lt byte),
    join_nibbles]

theorem isLiteral_hex (byte : UInt8) :
    IsLiteral (hex (byte >>> 4)) ∧ IsLiteral (hex (byte &&& 0x0f)) :=
  ⟨isLiteral_hex_nibble (high_nibble_lt byte), isLiteral_hex_nibble (low_nibble_lt byte)⟩

theorem decode_plain (hzero : byte ≠ 0) (hescape : byte ≠ 61) (rest : List UInt8) :
    decode (byte :: rest) = byte :: decode rest := by
  rw [decode, if_neg hzero, if_pos hescape]

theorem decode_literal (h : IsLiteral byte) (rest : List UInt8) :
    decode (byte :: rest) = byte :: decode rest := by
  apply decode_plain _ h.2.2
  intro hb
  rw [hb] at h
  exact absurd h (by decide)

theorem decode_softBreak (rest : List UInt8) : decode (61 :: 13 :: 10 :: rest) = decode rest := by
  have he : escape (13 :: 10 :: rest) = none := rfl
  rw [decode, if_neg (by decide), if_neg (by decide), he]
  rfl

theorem decode_crlf (rest : List UInt8) :
    decode (13 :: 10 :: rest) = 13 :: 10 :: decode rest := by
  rw [decode_plain (by decide) (by decide), decode_plain (by decide) (by decide)]

theorem decode_encodeByte (h : encoded = false → IsLiteral byte) (rest : List UInt8) :
    decode (encodeByte byte encoded ++ rest) = byte :: decode rest := by
  cases encoded with
  | false => exact decode_literal (h rfl) rest
  | true =>
    simp only [encodeByte, if_pos, List.cons_append, List.nil_append]
    rw [decode, if_neg (by decide), if_neg (by decide), escape_hex]
    rfl

/-- Induction along the loop of `encode`. -/
theorem encode_induction {motive : List UInt8 → Nat → Prop}
    (nil : ∀ lineColumns, motive [] lineColumns)
    (crlf : ∀ rest lineColumns, motive rest 0 → motive (13 :: 10 :: rest) lineColumns)
    (byte : ∀ byte rest lineColumns, ¬ (byte = 13 ∧ rest.head? = some 10) →
      (∀ columns, motive rest columns) → motive (byte :: rest) lineColumns)
    (input : List UInt8) (lineColumns : Nat) : motive input lineColumns := by
  induction hk : input.length using Nat.strongRecOn generalizing input lineColumns with
  | ind k ih =>
    match input with
    | [] => exact nil lineColumns
    | first :: rest =>
      by_cases h : first = 13 ∧ rest.head? = some 10
      · obtain ⟨rfl, hr⟩ := h
        obtain ⟨tail, rfl⟩ := List.head?_eq_some_iff.1 hr
        apply crlf
        apply ih tail.length _ _ _ rfl
        simp only [List.length_cons] at hk
        omega
      · apply byte first rest lineColumns h
        intro columns
        apply ih rest.length _ _ _ rfl
        simp only [List.length_cons] at hk
        omega

theorem decode_encodeFrom (x : List UInt8) (lineColumns : Nat) :
    decode (encodeFrom x lineColumns) = x := by
  induction x, lineColumns using encode_induction with
  | nil => rw [encodeFrom_nil, decode]
  | crlf rest lineColumns ih => rw [encodeFrom_crlf, decode_crlf, ih]
  | byte byte rest lineColumns h ih =>
    have hlit : mustEncode byte rest = false → IsLiteral byte := isLiteral_of_not_mustEncode
    rw [encodeFrom_cons h]
    split
    · rw [decode_softBreak, decode_encodeByte hlit, ih]
    · rw [decode_encodeByte hlit, ih]

theorem isText_literal (h : IsLiteral byte) (rest : List UInt8) :
    isText (byte :: rest) = isText rest := by
  have hcr : byte ≠ 13 := by
    intro hb
    rw [hb] at h
    exact absurd h (by decide)
  rw [isText]
  · simp [h.1, h.2.1]
  · intro tail hb
    exact absurd hb hcr

theorem isText_crlf (rest : List UInt8) : isText (13 :: 10 :: rest) = isText rest := rfl

theorem isText_softBreak (rest : List UInt8) :
    isText (61 :: 13 :: 10 :: rest) = isText rest := rfl

theorem isText_equals (rest : List UInt8) : isText (61 :: rest) = isText rest := rfl

theorem isText_encodeByte (h : encoded = false → IsLiteral byte) (rest : List UInt8) :
    isText (encodeByte byte encoded ++ rest) = isText rest := by
  cases encoded with
  | false => exact isText_literal (h rfl) rest
  | true =>
    simp only [encodeByte, if_pos, List.cons_append, List.nil_append]
    rw [isText_equals, isText_literal (isLiteral_hex byte).1,
      isText_literal (isLiteral_hex byte).2]

theorem isText_encodeFrom (x : List UInt8) (lineColumns : Nat) :
    isText (encodeFrom x lineColumns) = true := by
  induction x, lineColumns using encode_induction with
  | nil => rfl
  | crlf rest lineColumns ih => rw [encodeFrom_crlf, isText_crlf, ih]
  | byte byte rest lineColumns h ih =>
    have hlit : mustEncode byte rest = false → IsLiteral byte := isLiteral_of_not_mustEncode
    rw [encodeFrom_cons h]
    split
    · rw [isText_softBreak, isText_encodeByte hlit, ih]
    · rw [isText_encodeByte hlit, ih]

/-- Every line has at most 75 columns, the first one after columns already used. -/
def Narrow (used : Nat) (lines : List (List UInt8)) : Prop :=
  ∃ first rest, lines = first :: rest ∧ used + first.length ≤ maxContentColumns ∧
    ∀ line ∈ rest, line.length ≤ maxContentColumns

theorem Narrow.all (h : Narrow 0 lines) : ∀ line ∈ lines, line.length ≤ maxContentColumns := by
  obtain ⟨first, rest, rfl, hfirst, hrest⟩ := h
  intro line hline
  rcases List.mem_cons.1 hline with rfl | hmem
  · omega
  · exact hrest line hmem

theorem Narrow.fresh (hused : used ≤ maxContentColumns) (h : Narrow 0 lines) :
    Narrow used ([] :: lines) :=
  ⟨[], lines, rfl, by simpa using hused, h.all⟩

theorem Narrow.cons (h : Narrow (used + 1) lines) (byte : UInt8) :
    Narrow used (consLine byte lines) := by
  obtain ⟨first, rest, rfl, hfirst, hrest⟩ := h
  refine ⟨byte :: first, rest, rfl, ?_, hrest⟩
  simp only [List.length_cons]
  omega

theorem contentLines_crlf (rest : List UInt8) :
    contentLines (13 :: 10 :: rest) = [] :: contentLines rest := rfl

theorem contentLines_softBreak (rest : List UInt8) :
    contentLines (61 :: 13 :: 10 :: rest) = [] :: contentLines rest := rfl

theorem contentLines_literal (h : IsLiteral byte) (rest : List UInt8) :
    contentLines (byte :: rest) = consLine byte (contentLines rest) := by
  have hcr : byte ≠ 13 := by
    intro hb
    rw [hb] at h
    exact absurd h (by decide)
  rw [contentLines]
  · intro tail hb
    exact absurd hb h.2.2
  · intro tail hb
    exact absurd hb hcr

theorem contentLines_escape (h : IsLiteral byte) (rest : List UInt8) :
    contentLines (61 :: byte :: rest) = consLine 61 (contentLines (byte :: rest)) := by
  have hcr : byte ≠ 13 := by
    intro hb
    rw [hb] at h
    exact absurd h (by decide)
  rw [contentLines]
  · intro tail _ hb
    exact absurd (List.cons.inj hb).1 hcr
  · nofun

/-- The columns of an encoded byte come on top of those already used. -/
theorem narrow_encodeByte (h : encoded = false → IsLiteral byte)
    (hrest : Narrow (used + (encodeByte byte encoded).length) (contentLines rest)) :
    Narrow used (contentLines (encodeByte byte encoded ++ rest)) := by
  cases encoded with
  | false =>
    simp only [encodeByte, Bool.false_eq_true, if_false, List.cons_append, List.nil_append]
    rw [contentLines_literal (h rfl)]
    exact hrest.cons byte
  | true =>
    have hlit := isLiteral_hex byte
    simp only [encodeByte, if_pos, List.cons_append, List.nil_append]
    rw [contentLines_escape hlit.1, contentLines_literal hlit.1, contentLines_literal hlit.2]
    exact ((hrest.cons _).cons _).cons _

/-- Below `0xf5` the projected width of a byte covers what goes out for it. -/
theorem width_le_projected (hbyte : byte < 0xf5) (encoded : Bool)
    (h : encoded = false → IsLiteral byte) :
    (encodeByte byte encoded).length ≤ projectedCharacterWidth byte encoded := by
  cases encoded with
  | false =>
    have hascii : byte < 0x80 := by
      obtain ⟨-, hupper, -⟩ := h rfl
      simp only [UInt8.le_iff_toNat_le, UInt8.lt_iff_toNat_lt, UInt8.reduceToNat] at *
      omega
    rw [projectedCharacterWidth, if_pos hascii]
    rfl
  | true =>
    have hlast : byte ≤ 0xf4 := by
      simp only [UInt8.le_iff_toNat_le, UInt8.lt_iff_toNat_lt, UInt8.reduceToNat] at *
      omega
    have hlength : (encodeByte byte true).length = 3 := rfl
    simp only [projectedCharacterWidth, if_pos hlast, if_true, hlength]
    split
    · exact le_rfl
    · split
      · decide
      · split <;> decide

theorem saturatingAdd_eq (h : a + b ≤ 255) : saturatingAdd a b = a + b := by
  unfold saturatingAdd usizeMax
  omega

theorem narrow_encodeFrom (x : List UInt8) (lineColumns : Nat)
    (hcolumns : lineColumns ≤ maxContentColumns) (hx : ∀ byte ∈ x, byte < 0xf5) :
    Narrow lineColumns (contentLines (encodeFrom x lineColumns)) := by
  induction x, lineColumns using encode_induction with
  | nil lineColumns => exact ⟨[], [], rfl, hcolumns, nofun⟩
  | crlf rest lineColumns ih =>
    rw [encodeFrom_crlf, contentLines_crlf]
    exact (ih (Nat.zero_le _) fun b hb => hx b (by simp [hb])).fresh hcolumns
  | byte byte rest lineColumns h ih =>
    have hlit : mustEncode byte rest = false → IsLiteral byte := isLiteral_of_not_mustEncode
    have hwidth := width_le_projected (hx byte List.mem_cons_self) (mustEncode byte rest) hlit
    have hmax : projectedCharacterWidth byte (mustEncode byte rest) ≤ 12 := by
      unfold projectedCharacterWidth
      repeat' split
      all_goals omega
    have hrest : ∀ b ∈ rest, b < 0xf5 := fun b hb => hx b (List.mem_cons_of_mem _ hb)
    unfold maxContentColumns at hcolumns
    rw [encodeFrom_cons h]
    split
    · rw [contentLines_softBreak]
      apply Narrow.fresh hcolumns
      apply narrow_encodeByte hlit
      rw [← saturatingAdd_eq (by omega)]
      apply ih
      · rw [saturatingAdd_eq (by omega)]
        unfold maxContentColumns
        omega
      · exact hrest
    · rename_i hbreak
      have hfit : lineColumns + (encodeByte byte (mustEncode byte rest)).length ≤ 75 := by
        unfold breaksBefore maxContentColumns at hbreak
        rw [saturatingAdd_eq (by omega)] at hbreak
        omega
      apply narrow_encodeByte hlit
      rw [← saturatingAdd_eq (by omega)]
      apply ih
      · rw [saturatingAdd_eq (by omega)]
        exact hfit
      · exact hrest

/-- Encoding is undone by decoding, gives printable text with whole line ends, and keeps every
line within 75 columns when no byte is above `0xf4`. -/
theorem quotedPrintable_roundTrip_text_narrow (x : List UInt8) :
    decode (encode x) = x ∧ isText (encode x) = true ∧
    ((∀ byte ∈ x, ¬ (0xf5 ≤ byte ∧ byte ≤ 0xff)) →
      ∀ line ∈ contentLines (encode x), line.length ≤ maxContentColumns) := by
  refine ⟨decode_encodeFrom x 0, isText_encodeFrom x 0, ?_⟩
  intro hx
  apply (narrow_encodeFrom x 0 (Nat.zero_le _) ?_).all
  intro byte hbyte
  have hle : byte ≤ 0xff := by
    have := byte.toNat_lt
    rw [UInt8.le_iff_toNat_le]
    exact Nat.le_of_lt_succ this
  exact UInt8.not_le.1 fun hge => hx byte hbyte ⟨hge, hle⟩

end Rphp.Codec.QuotedPrintable
