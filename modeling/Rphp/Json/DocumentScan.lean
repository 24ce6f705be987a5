import Rphp.Json.Document
import Mathlib.Data.List.Basic

namespace Rphp.Json
open Rphp.Lib
set_option autoImplicit true

section Lexemes

/-- A byte that does not continue a run of digits, or none. -/
def NoDigit (rest : List UInt8) : Prop := ∀ byte ∈ rest.head?, isDigit byte = false

theorem afterDigits_sound {token rest : List UInt8} (h : afterDigits token = some rest) :
    ∃ first digits, isDigit first = true ∧ (∀ byte ∈ digits, isDigit byte = true) ∧
      token = first :: (digits ++ rest) := by
  unfold afterDigits at h
  split at h
  · cases h
  · rename_i first tail
    split at h
    · rename_i hfirst
      cases h
      exact ⟨first, tail.takeWhile isDigit, hfirst, fun _ => List.mem_takeWhile_imp,
        by rw [List.takeWhile_append_dropWhile]⟩
    · cases h

theorem afterDigits_complete {digits rest : List UInt8} (hfirst : isDigit first = true)
    (hdigits : ∀ byte ∈ digits, isDigit byte = true) (hrest : NoDigit rest) :
    afterDigits (first :: (digits ++ rest)) = some rest := by
  rw [afterDigits, if_pos hfirst, dropWhile_digits hdigits hrest]

theorem afterInteger_sound {token rest : List UInt8} (h : afterInteger token = some rest) :
    ∃ sign integer, (sign = [] ∨ sign = [45]) ∧ IsInteger integer ∧
      token = sign ++ integer ++ rest := by
  have hsign : ∃ sign, (sign = [] ∨ sign = [45]) ∧
      token = sign ++ (if token.head? = some 45 then token.tail else token) := by
    split
    · rename_i hminus
      exact ⟨[45], .inr rfl, (List.cons_head?_tail hminus).symm⟩
    · exact ⟨[], .inl rfl, rfl⟩
  obtain ⟨sign, hsign, htoken⟩ := hsign
  unfold afterInteger at h
  split at h
  · cases h
  · rename_i first tail hbody
    rw [hbody] at htoken
    split_ifs at h with hzero hfirst
    · cases h
      refine ⟨sign, [48], hsign, .zero, ?_⟩
      rw [htoken, hzero, List.append_assoc]
      rfl
    · cases h
      refine ⟨sign, first :: tail.takeWhile isDigit, hsign,
        .digits _ _ hfirst fun _ => List.mem_takeWhile_imp, ?_⟩
      rw [htoken, List.append_assoc, List.cons_append, List.takeWhile_append_dropWhile]

theorem afterInteger_complete {sign integer rest : List UInt8} (hsign : sign = [] ∨ sign = [45])
    (hinteger : IsInteger integer) (hrest : NoDigit rest) :
    afterInteger (sign ++ integer ++ rest) = some rest := by
  have hbody : ∀ body : List UInt8, body.head? ≠ some 45 → (sign = [] ∨ sign = [45]) →
      (if (sign ++ body).head? = some 45 then (sign ++ body).tail else sign ++ body) = body := by
    rintro body hhead (rfl | rfl)
    · exact if_neg hhead
    · exact if_pos rfl
  rw [List.append_assoc, afterInteger]
  cases hinteger with
  | zero =>
    rw [hbody _ (by simp) hsign]
    rfl
  | digits first tail hfirst htail =>
    have hnotMinus : first ≠ 45 := by
      rintro rfl
      exact absurd hfirst.1 (by decide)
    have hnotZero : first ≠ 48 := by
      rintro rfl
      exact absurd hfirst.1 (by decide)
    rw [hbody _ (by simpa using hnotMinus) hsign, List.cons_append]
    simp only [if_neg hnotZero, if_pos hfirst, dropWhile_digits htail hrest]

theorem afterFraction_sound {token rest : List UInt8} (h : afterFraction token = some rest) :
    ∃ fraction, IsFraction fraction ∧ token = fraction ++ rest := by
  unfold afterFraction at h
  split at h
  · rename_i hpoint
    obtain ⟨first, digits, hfirst, hdigits, htail⟩ := afterDigits_sound h
    refine ⟨46 :: first :: digits, .digits first digits hfirst hdigits, ?_⟩
    rw [← List.cons_head?_tail hpoint, htail]
    rfl
  · cases h
    exact ⟨[], .none, rfl⟩

theorem afterExponent_sound {token rest : List UInt8} (h : afterExponent token = some rest) :
    ∃ exponent, IsExponent exponent ∧ token = exponent ++ rest := by
  unfold afterExponent at h
  split at h
  · rename_i hletter
    have hhead : ∃ letter, (letter = 101 ∨ letter = 69) ∧ token = letter :: token.tail := by
      rcases hletter with hletter | hletter
      · exact ⟨101, .inl rfl, (List.cons_head?_tail hletter).symm⟩
      · exact ⟨69, .inr rfl, (List.cons_head?_tail hletter).symm⟩
    obtain ⟨letter, hcase, htoken⟩ := hhead
    obtain ⟨sign, hsign, htail⟩ := skipSign_sound token.tail
    obtain ⟨first, digits, hfirst, hdigits, hskipped⟩ := afterDigits_sound h
    refine ⟨letter :: (sign ++ first :: digits),
      .digits letter sign first digits hcase hsign hfirst hdigits, ?_⟩
    rw [htoken, htail, hskipped]
    simp
  · cases h
    exact ⟨[], .none, rfl⟩

theorem noDigit_exponent (h : IsExponent exponent) : NoDigit exponent := by
  cases h with
  | none => nofun
  | digits letter sign first rest hletter =>
    rintro byte ⟨rfl⟩
    rcases hletter with rfl | rfl <;> decide

theorem noDigit_fraction {fraction exponent : List UInt8} (hfraction : IsFraction fraction)
    (hexponent : IsExponent exponent) : NoDigit (fraction ++ exponent) := by
  cases hfraction with
  | none => exact noDigit_exponent hexponent
  | digits first rest =>
    rintro byte ⟨rfl⟩
    decide

theorem afterFraction_complete {fraction exponent : List UInt8} (hfraction : IsFraction fraction)
    (hexponent : IsExponent exponent) : afterFraction (fraction ++ exponent) = some exponent := by
  cases hfraction with
  | none =>
    cases hexponent with
    | none => rfl
    | digits letter sign first rest hletter =>
      rcases hletter with rfl | rfl <;> exact if_neg (by simp)
  | digits first rest hfirst hrest =>
    have hdigits := afterDigits_complete hfirst hrest (noDigit_exponent hexponent)
    exact (if_pos rfl).trans hdigits

theorem afterExponent_complete {exponent : List UInt8} (h : IsExponent exponent) :
    afterExponent exponent = some [] := by
  cases h with
  | none => rfl
  | digits letter sign first rest hletter hsign hfirst hrest =>
    have hskip : skipSign (sign ++ first :: rest) = first :: rest := by
      rcases hsign with rfl | rfl | rfl
      · refine if_neg ?_
        rintro (hhead | hhead) <;> cases hhead <;> exact absurd hfirst (by decide)
      · exact if_pos (.inl rfl)
      · exact if_pos (.inr rfl)
    have hdigits := afterDigits_complete hfirst hrest (show NoDigit [] from nofun)
    rw [List.append_nil] at hdigits
    rw [afterExponent, if_pos (by rcases hletter with rfl | rfl <;> simp), List.tail_cons, hskip,
      hdigits]

/-- The scanner takes exactly the numbers of the grammar for numbers. -/
theorem isValidJsonNumber_iff (token : List UInt8) :
    isValidJsonNumber token = true ↔ IsNumber token := by
  rw [isValidJsonNumber, decide_eq_true_eq]
  constructor
  · intro h
    obtain ⟨behindFraction, hboth, hexponents⟩ := Option.bind_eq_some_iff.mp h
    obtain ⟨behindInteger, hintegers, hfractions⟩ := Option.bind_eq_some_iff.mp hboth
    obtain ⟨sign, integer, hsign, hinteger, rfl⟩ := afterInteger_sound hintegers
    obtain ⟨fraction, hfraction, rfl⟩ := afterFraction_sound hfractions
    obtain ⟨exponent, hexponent, rfl⟩ := afterExponent_sound hexponents
    rw [List.append_nil, ← List.append_assoc]
    exact .parts sign integer fraction exponent hsign hinteger hfraction hexponent
  · rintro ⟨sign, integer, fraction, exponent, hsign, hinteger, hfraction, hexponent⟩
    rw [List.append_assoc (sign ++ integer),
      afterInteger_complete hsign hinteger (noDigit_fraction hfraction hexponent), Option.bind_some,
      afterFraction_complete hfraction hexponent, Option.bind_some,
      afterExponent_complete hexponent]

theorem not_delimiter_of_digit (h : isDigit byte = true) : isJsonNumberDelimiter byte = false := by
  obtain ⟨hlow, hhigh⟩ := isDigit_iff.mp h
  rw [Bool.eq_false_iff]
  intro hdelimiter
  simp only [isJsonNumberDelimiter, Bool.or_eq_true, decide_eq_true_eq, or_assoc] at hdelimiter
  rcases hdelimiter with rfl | rfl | rfl | rfl | rfl | rfl | rfl | rfl
  all_goals first
    | exact absurd hlow (by decide)
    | exact absurd hhigh (by decide)

theorem isDigit_of_nonzero (h : 49 ≤ byte ∧ byte ≤ 57) : isDigit byte = true := by
  simp only [isDigit, Bool.and_eq_true, decide_eq_true_eq]
  exact ⟨UInt8.le_trans (by decide) h.1, h.2⟩

/-- No byte of a number ends it. -/
theorem IsNumber.not_delimiter (h : IsNumber token) :
    ∀ byte ∈ token, isJsonNumberDelimiter byte = false := by
  obtain ⟨sign, integer, fraction, exponent, hsign, hinteger, hfraction, hexponent⟩ := h
  intro byte hmem
  simp only [List.mem_append, or_assoc] at hmem
  rcases hmem with hmem | hmem | hmem | hmem
  · rcases hsign with rfl | rfl
    · cases hmem
    · rw [List.mem_singleton.mp hmem]
      decide
  · cases hinteger with
    | zero =>
      rw [List.mem_singleton.mp hmem]
      decide
    | digits first rest hfirst hrest =>
      rcases List.mem_cons.mp hmem with rfl | hmem
      · exact not_delimiter_of_digit (isDigit_of_nonzero hfirst)
      · exact not_delimiter_of_digit (hrest byte hmem)
  · cases hfraction with
    | none => cases hmem
    | digits first rest hfirst hrest =>
      rcases List.mem_cons.mp hmem with rfl | hmem
      · decide
      · rcases List.mem_cons.mp hmem with rfl | hmem
        · exact not_delimiter_of_digit hfirst
        · exact not_delimiter_of_digit (hrest byte hmem)
  · cases hexponent with
    | none => cases hmem
    | digits letter sign first rest hletter hsign hfirst hrest =>
      simp only [List.mem_cons, List.mem_append] at hmem
      rcases hmem with rfl | hmem | rfl | hmem
      · rcases hletter with rfl | rfl <;> decide
      · rcases hsign with rfl | rfl | rfl
        · cases hmem
        · rw [List.mem_singleton.mp hmem]
          decide
        · rw [List.mem_singleton.mp hmem]
          decide
      · exact not_delimiter_of_digit hfirst
      · exact not_delimiter_of_digit (hrest byte hmem)

/-- A number starts with a byte at which the scanner looks for a token. -/
theorem IsNumber.starts (h : IsNumber token) :
    ∃ first rest, token = first :: rest ∧ flagsAfter false false first = none := by
  obtain ⟨sign, integer, fraction, exponent, hsign, hinteger, -, -⟩ := h
  have hdigit : ∀ byte, isDigit byte = true → flagsAfter false false byte = none := by
    intro byte hbyte
    have hquote : byte ≠ 34 := by
      rintro rfl
      exact absurd hbyte (by decide)
    simp [flagsAfter, hquote, hbyte]
  rcases hsign with rfl | rfl
  · cases hinteger with
    | zero => exact ⟨48, fraction ++ exponent, by simp, by decide⟩
    | digits first rest hfirst hrest =>
      exact ⟨first, rest ++ fraction ++ exponent, by simp,
        hdigit first (isDigit_of_nonzero hfirst)⟩
  · exact ⟨45, integer ++ fraction ++ exponent, by simp, by decide⟩

end Lexemes

section Scans

/-- A number in front of a delimiter is one piece. -/
theorem scan_number {lexeme rest : List UInt8} (h : IsNumber lexeme) (hrest : Ends rest) :
    scan false false (lexeme ++ rest) = .number lexeme :: scan false false rest := by
  obtain ⟨first, tail, rfl, hstart⟩ := h.starts
  have htail : ∀ byte ∈ tail, isJsonNumberDelimiter byte = false :=
    fun byte hmem => h.not_delimiter byte (List.mem_cons_of_mem first hmem)
  rw [List.cons_append, scan_tokenPieces hstart htail hrest,
    if_pos ((isValidJsonNumber_iff _).mpr h)]
  rfl

/-- Bytes that start neither a string nor a number are pieces of their own. -/
theorem scan_plain {bytes : List UInt8}
    (h : ∀ byte ∈ bytes, flagsAfter false false byte = some (false, false)) (rest : List UInt8) :
    scan false false (bytes ++ rest) = bytes.map .byte ++ scan false false rest := by
  induction bytes with
  | nil => rfl
  | cons byte bytes ih =>
    rw [List.cons_append, scan_byte (h byte List.mem_cons_self),
      ih fun b hb => h b (List.mem_cons_of_mem byte hb)]
    rfl

theorem scan_space {space : List UInt8} (h : IsSpace space) (rest : List UInt8) :
    scan false false (space ++ rest) = space.map .byte ++ scan false false rest := by
  refine scan_plain (fun byte hbyte => ?_) rest
  have hspace := h byte hbyte
  simp only [isSpace, Bool.or_eq_true, decide_eq_true_eq, or_assoc] at hspace
  rcases hspace with rfl | rfl | rfl | rfl <;> decide

theorem ends_space {space rest : List UInt8} (h : IsSpace space) (hrest : Ends rest) :
    Ends (space ++ rest) := by
  cases space with
  | nil => exact hrest
  | cons byte space =>
    rintro b ⟨rfl⟩
    have hspace := h _ List.mem_cons_self
    simp only [isSpace, Bool.or_eq_true, decide_eq_true_eq, or_assoc] at hspace
    rcases hspace with rfl | rfl | rfl | rfl <;> decide

theorem hexDigit_plain (h : isHexDigit byte = true) :
    flagsAfter true false byte = some (true, false) := by
  have hquote : byte ≠ 34 := by
    rintro rfl
    exact absurd h (by decide)
  have hbackslash : byte ≠ 92 := by
    rintro rfl
    exact absurd h (by decide)
  simp [flagsAfter, hquote, hbackslash]

/-- The body of a string is passed byte by byte and leaves the scanner in the string. -/
theorem scan_stringBody {body : List UInt8} (h : IsStringBody body) (rest : List UInt8) :
    scan true false (body ++ rest) = body.map .byte ++ scan true false rest := by
  induction h with
  | nil => rfl
  | byte b tail hb hquote hbackslash htail ih =>
    have hflags : flagsAfter true false b = some (true, false) := by
      simp [flagsAfter, hquote, hbackslash]
    rw [List.cons_append, scan_byte hflags, ih]
    rfl
  | escape b tail hb htail ih =>
    have hflags : flagsAfter true true b = some (true, false) := rfl
    rw [List.cons_append, List.cons_append,
      scan_byte (show flagsAfter true false 92 = some (true, true) from by decide), scan_byte hflags,
      ih]
    rfl
  | unicode digits tail hlength hdigits htail ih =>
    have hhex : ∀ digits : List UInt8, (∀ b ∈ digits, isHexDigit b = true) →
        scan true false (digits ++ (tail ++ rest)) =
          digits.map .byte ++ scan true false (tail ++ rest) := by
      intro digits hdigits
      induction digits with
      | nil => rfl
      | cons digit digits ihdigits =>
        rw [List.cons_append, scan_byte (hexDigit_plain (hdigits digit List.mem_cons_self)),
          ihdigits fun b hb => hdigits b (List.mem_cons_of_mem digit hb)]
        rfl
    rw [List.cons_append, List.cons_append, List.append_assoc,
      scan_byte (show flagsAfter true false 92 = some (true, true) from by decide),
      scan_byte (show flagsAfter true true 117 = some (true, false) from by decide),
      hhex digits hdigits, ih]
    simp

theorem scan_quoted {body : List UInt8} (h : IsStringBody body) (rest : List UInt8) :
    scan false false (quoted body ++ rest) = (quoted body).map .byte ++ scan false false rest := by
  rw [quoted, List.cons_append, List.append_assoc,
    scan_byte (show flagsAfter false false 34 = some (true, false) from by decide),
    scan_stringBody h, List.singleton_append,
    scan_byte (show flagsAfter true false 34 = some (false, false) from by decide)]
  simp

theorem scan_memberHead {beforeKey key afterKey before : List UInt8}
    (h : IsSpace beforeKey ∧ IsStringBody key ∧ IsSpace afterKey ∧ IsSpace before)
    (rest : List UInt8) :
    scan false false (memberHead beforeKey key afterKey before ++ rest) =
      (memberHead beforeKey key afterKey before).map .byte ++ scan false false rest := by
  obtain ⟨hbeforeKey, hkey, hafterKey, hbefore⟩ := h
  simp only [memberHead, List.append_assoc, List.cons_append, List.nil_append]
  rw [scan_space hbeforeKey, scan_quoted hkey, scan_space hafterKey,
    scan_byte (show flagsAfter false false 58 = some (false, false) from by decide),
    scan_space hbefore]
  simp

theorem scan_delimiter (h : isJsonNumberDelimiter byte = true) (rest : List UInt8) :
    scan false false (byte :: rest) = .byte byte :: scan false false rest :=
  scan_byte (delimiter_plain h) rest

theorem ends_delimiter (h : isJsonNumberDelimiter byte = true) (rest : List UInt8) :
    Ends (byte :: rest) := by
  rintro b ⟨rfl⟩
  exact h

mutual

/-- The scanner cuts the text of a value into the pieces that it was written with. -/
theorem JsonValue.scan_pieces (value : JsonValue) (h : value.WellFormed) {rest : List UInt8}
    (hrest : Ends rest) :
    scan false false (text value.pieces ++ rest) = value.pieces ++ scan false false rest := by
  cases value with
  | null =>
    rw [JsonValue.pieces, text_map_byte]
    exact scan_plain (by decide +kernel) rest
  | bool b =>
    rw [JsonValue.pieces, text_map_byte]
    cases b <;> exact scan_plain (by decide +kernel) rest
  | number lexeme =>
    rw [JsonValue.pieces, text_cons, text_nil, List.append_nil]
    exact scan_number h hrest
  | string body =>
    rw [JsonValue.pieces, text_map_byte]
    exact scan_quoted h rest
  | emptyArray space =>
    rw [JsonValue.pieces, text_map_byte, List.cons_append, List.append_assoc,
      scan_byte (show flagsAfter false false 91 = some (false, false) from by decide),
      scan_space h, List.singleton_append, scan_delimiter (by decide)]
    simp
  | array elements =>
    have helements := elements.scan_pieces h (ends_delimiter (show isJsonNumberDelimiter 93 = true from by decide) rest)
    simp only [JsonValue.pieces, text_cons, text_append, Piece.bytes, text_nil, List.append_assoc,
      List.nil_append, List.cons_append]
    rw [scan_byte (show flagsAfter false false 91 = some (false, false) from by decide), helements,
      scan_delimiter (by decide)]
  | emptyObject space =>
    rw [JsonValue.pieces, text_map_byte, List.cons_append, List.append_assoc,
      scan_byte (show flagsAfter false false 123 = some (false, false) from by decide),
      scan_space h, List.singleton_append, scan_delimiter (by decide)]
    simp
  | object members =>
    have hmembers := members.scan_pieces h
      (ends_delimiter (show isJsonNumberDelimiter 125 = true from by decide) rest)
    simp only [JsonValue.pieces, text_cons, text_append, Piece.bytes, text_nil, List.append_assoc,
      List.nil_append, List.cons_append]
    rw [scan_byte (show flagsAfter false false 123 = some (false, false) from by decide), hmembers,
      scan_delimiter (by decide)]

theorem JsonElements.scan_pieces (elements : JsonElements) (h : elements.WellFormed)
    {rest : List UInt8} (hrest : Ends rest) :
    scan false false (text elements.pieces ++ rest) = elements.pieces ++ scan false false rest := by
  cases elements with
  | last before value after =>
    obtain ⟨hbefore, hvalue, hafter⟩ := h
    simp only [JsonElements.pieces, text_append, text_map_byte, List.append_assoc]
    rw [scan_space hbefore, value.scan_pieces hvalue (ends_space hafter hrest), scan_space hafter]
  | cons before value after tail =>
    obtain ⟨hbefore, hvalue, hafter, htail⟩ := h
    simp only [JsonElements.pieces, text_append, text_map_byte, text_cons, Piece.bytes,
      List.append_assoc, List.nil_append, List.cons_append]
    rw [scan_space hbefore,
      value.scan_pieces hvalue (ends_space hafter (ends_delimiter (by decide) _)),
      scan_space hafter, scan_delimiter (by decide), tail.scan_pieces htail hrest]

theorem JsonMembers.scan_pieces (members : JsonMembers) (h : members.WellFormed)
    {rest : List UInt8} (hrest : Ends rest) :
    scan false false (text members.pieces ++ rest) = members.pieces ++ scan false false rest := by
  cases members with
  | last beforeKey key afterKey before value after =>
    obtain ⟨hhead, hvalue, hafter⟩ := h
    simp only [JsonMembers.pieces, text_append, text_map_byte, List.append_assoc]
    rw [scan_memberHead hhead, value.scan_pieces hvalue (ends_space hafter hrest),
      scan_space hafter]
  | cons beforeKey key afterKey before value after tail =>
    obtain ⟨hhead, hvalue, hafter, htail⟩ := h
    simp only [JsonMembers.pieces, text_append, text_map_byte, text_cons, Piece.bytes,
      List.append_assoc, List.nil_append, List.cons_append]
    rw [scan_memberHead hhead,
      value.scan_pieces hvalue (ends_space hafter (ends_delimiter (by decide) _)),
      scan_space hafter, scan_delimiter (by decide), tail.scan_pieces htail hrest]

end

/-- The scanner stays in step with the grammar over a whole document. -/
theorem JsonDocument.scan_render (d : JsonDocument) (h : d.WellFormed) :
    scan false false d.render = d.pieces := by
  obtain ⟨hbefore, hvalue, hafter⟩ := h
  have hends : Ends (d.after ++ []) := ends_space hafter nofun
  have hspace := scan_space hafter []
  have hnil : scan false false [] = [] := by rw [scan]
  rw [List.append_nil, hnil, List.append_nil] at hspace
  rw [List.append_nil] at hends
  simp only [JsonDocument.render, JsonDocument.pieces, text_append, text_map_byte,
    List.append_assoc]
  rw [scan_space hbefore, d.value.scan_pieces hvalue hends, hspace]

end Scans

end Rphp.Json
