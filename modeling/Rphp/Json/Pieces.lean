import Mathlib.Data.List.TakeWhile
import Rphp.Machine

namespace Rphp.Json
open Rphp.Lib
set_option autoImplicit true

section Lexemes

def isJsonNumberDelimiter (byte : UInt8) : Bool :=
  byte = 32 || byte = 9 || byte = 13 || byte = 10 || byte = 44 || byte = 93 || byte = 125 ||
    byte = 58

/-- What is left of a token behind its integer part. -/
def afterInteger (token : List UInt8) : Option (List UInt8) :=
  match (if token.head? = some 45 then token.tail else token) with
  | [] => none
  | byte :: rest =>
    if byte = 48 then some rest
    else if 49 ≤ byte ∧ byte ≤ 57 then some (rest.dropWhile isDigit)
    else none

/-- What is left behind a run of at least one digit. -/
def afterDigits (token : List UInt8) : Option (List UInt8) :=
  match token with
  | [] => none
  | byte :: rest => if isDigit byte then some (rest.dropWhile isDigit) else none

def afterFraction (token : List UInt8) : Option (List UInt8) :=
  if token.head? = some 46 then afterDigits token.tail else some token

def afterExponent (token : List UInt8) : Option (List UInt8) :=
  if token.head? = some 101 ∨ token.head? = some 69 then afterDigits (skipSign token.tail)
  else some token

def isValidJsonNumber (token : List UInt8) : Bool :=
  ((afterInteger token).bind afterFraction).bind afterExponent = some []

/-- A number as PHP sees it; a double is kept as the text it is read from. -/
inductive PhpNumber
  | long (n : I64)
  | string (token : List UInt8)
  | double (token : List UInt8)
  deriving DecidableEq

def isFloatLexeme (token : List UInt8) : Bool :=
  token.any fun byte => byte = 46 || byte = 101 || byte = 69

def phpNumberFromLexeme (token : List UInt8) (bigintAsString : Bool) : PhpNumber :=
  if isFloatLexeme token then .double token
  else
    match parseI64 token with
    | some n => .long n
    | none => if bigintAsString then .string token else .double token

end Lexemes

section Visits

/-- A number token of a text, with the offset it starts at. -/
structure Token where
  start : Nat
  lexeme : List UInt8

/-- The loop over the bytes that are left, from an offset on. -/
def visitFrom (index : Nat) (inString escaped : Bool) : List UInt8 → List Token
  | [] => []
  | byte :: rest =>
    if escaped then visitFrom (index + 1) inString false rest
    else if inString then
      if byte = 92 then visitFrom (index + 1) true true rest
      else if byte = 34 then visitFrom (index + 1) false false rest
      else visitFrom (index + 1) true false rest
    else if byte = 34 then visitFrom (index + 1) true false rest
    else if byte ≠ 45 ∧ ¬ isDigit byte then visitFrom (index + 1) false false rest
    else
      let token := byte :: rest.takeWhile fun b => !isJsonNumberDelimiter b
      let after := rest.dropWhile fun b => !isJsonNumberDelimiter b
      if isValidJsonNumber token then
        ⟨index, token⟩ :: visitFrom (index + token.length) false false after
      else visitFrom (index + token.length) false false after
termination_by text => text.length
decreasing_by
  all_goals simp only [List.length_cons]
  all_goals first
    | omega
    | exact Nat.lt_succ_of_le (List.dropWhile_sublist _).length_le

def visitValidJsonNumbers (input : List UInt8) : List Token := visitFrom 0 false false input

/-- Copy what lies before a token and write a zero for it. -/
def replaceToken (input : List UInt8) (copied : Nat × List UInt8) (token : Token) :
    Nat × List UInt8 :=
  (token.start + token.lexeme.length,
    copied.2 ++ (input.drop copied.1).take (token.start - copied.1) ++ [48])

def replaceValidJsonNumbers (input : List UInt8) : List UInt8 :=
  let copied := (visitValidJsonNumbers input).foldl (replaceToken input) (0, [])
  copied.2 ++ input.drop copied.1

structure PreparedNumbers where
  input : List UInt8
  values : List PhpNumber

def prepareNumbers (input : List UInt8) (bigintAsString : Bool) : PreparedNumbers where
  input := replaceValidJsonNumbers input
  values := (visitValidJsonNumbers input).map fun token =>
    phpNumberFromLexeme token.lexeme bigintAsString

end Visits

/-- A text as its number tokens and the bytes around them. -/
inductive Piece
  | byte (b : UInt8)
  | number (lexeme : List UInt8)
  deriving DecidableEq

namespace Piece

def bytes : Piece → List UInt8
  | .byte b => [b]
  | .number lexeme => lexeme

/-- The placeholder of a number. -/
def zeroed : Piece → Piece
  | .byte b => .byte b
  | .number _ => .number [48]

def lexeme? : Piece → Option (List UInt8)
  | .byte _ => none
  | .number lexeme => some lexeme

end Piece

def text (pieces : List Piece) : List UInt8 := pieces.flatMap Piece.bytes

def lexemes (pieces : List Piece) : List (List UInt8) := pieces.filterMap Piece.lexeme?

section Scanning

/-- The flags of the loop behind a byte that starts no token. -/
def flagsAfter (inString escaped : Bool) (byte : UInt8) : Option (Bool × Bool) :=
  if escaped then some (inString, false)
  else if inString then some (byte ≠ 34, byte = 92)
  else if byte = 34 then some (true, false)
  else if byte ≠ 45 ∧ ¬ isDigit byte then some (false, false)
  else none

/-- The pieces that the loop over a text sees. -/
def scan (inString escaped : Bool) : List UInt8 → List Piece
  | [] => []
  | byte :: rest =>
    match flagsAfter inString escaped byte with
    | some (inString, escaped) => .byte byte :: scan inString escaped rest
    | none =>
      let token := byte :: rest.takeWhile fun b => !isJsonNumberDelimiter b
      let after := rest.dropWhile fun b => !isJsonNumberDelimiter b
      (if isValidJsonNumber token then [.number token] else token.map .byte) ++
        scan false false after
termination_by text => text.length
decreasing_by
  all_goals simp only [List.length_cons]
  all_goals first
    | omega
    | exact Nat.lt_succ_of_le (List.dropWhile_sublist _).length_le

@[simp] theorem text_append (a b : List Piece) : text (a ++ b) = text a ++ text b :=
  List.flatMap_append

@[simp] theorem text_cons (p : Piece) (ps : List Piece) : text (p :: ps) = p.bytes ++ text ps := rfl

@[simp] theorem text_nil : text [] = [] := rfl

@[simp] theorem text_map_byte (l : List UInt8) : text (l.map .byte) = l := by
  induction l with
  | nil => rfl
  | cons b l ih =>
    rw [List.map_cons, text_cons, ih]
    rfl

@[simp] theorem lexemes_append (a b : List Piece) : lexemes (a ++ b) = lexemes a ++ lexemes b :=
  List.filterMap_append

@[simp] theorem lexemes_map_byte (l : List UInt8) : lexemes (l.map .byte) = [] := by
  induction l with
  | nil => rfl
  | cons b l ih => exact ih

theorem scan_byte (h : flagsAfter inString escaped byte = some (nextString, nextEscaped))
    (rest : List UInt8) :
    scan inString escaped (byte :: rest) = .byte byte :: scan nextString nextEscaped rest := by
  rw [scan, h]

theorem scan_token (h : flagsAfter inString escaped byte = none) (rest : List UInt8) :
    scan inString escaped (byte :: rest) =
      (if isValidJsonNumber (byte :: rest.takeWhile fun b => !isJsonNumberDelimiter b) then
          [.number (byte :: rest.takeWhile fun b => !isJsonNumberDelimiter b)]
        else (byte :: rest.takeWhile fun b => !isJsonNumberDelimiter b).map .byte) ++
        scan false false (rest.dropWhile fun b => !isJsonNumberDelimiter b) := by
  rw [scan, h]

/-- The pieces of a token, number or not. -/
theorem text_tokenPieces (token : List UInt8) :
    text (if isValidJsonNumber token then [.number token] else token.map .byte) = token := by
  split
  · simp [Piece.bytes]
  · exact text_map_byte token

/-- The pieces are the text, cut apart. -/
theorem text_scan (inString escaped : Bool) (input : List UInt8) :
    text (scan inString escaped input) = input := by
  fun_induction scan inString escaped input with
  | case1 => rfl
  | case2 inString escaped byte rest nextString nextEscaped hflags ih =>
    rw [text_cons, ih]
    rfl
  | case3 inString escaped byte rest hflags token after ih =>
    rw [text_append, text_tokenPieces, ih]
    exact congrArg (byte :: ·) List.takeWhile_append_dropWhile

theorem visitFrom_byte (h : flagsAfter inString escaped byte = some (nextString, nextEscaped))
    (index : Nat) (rest : List UInt8) :
    visitFrom index inString escaped (byte :: rest) =
      visitFrom (index + 1) nextString nextEscaped rest := by
  rw [visitFrom]
  unfold flagsAfter at h
  split_ifs at h ⊢ with hescaped hstring hquote hplain hbackslash
  all_goals cases h
  all_goals simp_all

theorem visitFrom_token (h : flagsAfter inString escaped byte = none) (index : Nat)
    (rest : List UInt8) :
    visitFrom index inString escaped (byte :: rest) =
      (if isValidJsonNumber (byte :: rest.takeWhile fun b => !isJsonNumberDelimiter b) then
          [⟨index, byte :: rest.takeWhile fun b => !isJsonNumberDelimiter b⟩]
        else []) ++
        visitFrom (index + (byte :: rest.takeWhile fun b => !isJsonNumberDelimiter b).length)
          false false (rest.dropWhile fun b => !isJsonNumberDelimiter b) := by
  rw [visitFrom]
  unfold flagsAfter at h
  split_ifs at h ⊢ with hescaped hstring hquote hplain hvalid
  · exact if_pos hvalid
  · exact if_neg hvalid

theorem take_copied {input piece rest : List UInt8} (hinput : input.drop index = piece ++ rest) (hcopied : copied ≤ index) :
    (input.drop copied).take (index + piece.length - copied) =
      (input.drop copied).take (index - copied) ++ piece := by
  have hsplit : index + piece.length - copied = (index - copied) + piece.length := by omega
  have hdrop : (input.drop copied).drop (index - copied) = piece ++ rest := by
    rw [List.drop_drop, ← hinput]
    congr 1
    omega
  rw [hsplit, List.take_add, hdrop, List.take_left]

/-- The loop that replaces numbers from some offset on rewrites the pieces of what is left. -/
theorem foldl_visitFrom {input : List UInt8} (hinput : input.drop index = rest) (hcopied : copied ≤ index)
    (inString escaped : Bool) (output : List UInt8) :
    ((visitFrom index inString escaped rest).foldl (replaceToken input) (copied, output)).2 ++
        input.drop
          ((visitFrom index inString escaped rest).foldl (replaceToken input) (copied, output)).1 =
      output ++ (input.drop copied).take (index - copied) ++
        text ((scan inString escaped rest).map Piece.zeroed) := by
  fun_induction scan inString escaped rest generalizing index copied output with
  | case1 inString escaped =>
    have hend : input.length ≤ index := by simpa using hinput
    rw [visitFrom]
    simp only [List.foldl_nil, List.map_nil, text_nil, List.append_nil]
    rw [List.take_of_length_le (by rw [List.length_drop]; omega)]
  | case2 inString escaped byte rest nextString nextEscaped hflags ih =>
    have hnext : input.drop (index + 1) = rest := by
      rw [← List.drop_drop, hinput]
      rfl
    have hone : (input.drop copied).take (index + 1 - copied) =
        (input.drop copied).take (index - copied) ++ [byte] :=
      take_copied (show input.drop index = [byte] ++ rest from hinput) hcopied
    rw [visitFrom_byte hflags, ih hnext (by omega), hone]
    simp [Piece.zeroed, Piece.bytes]
  | case3 inString escaped byte rest hflags token =>
    rename_i after ih
    have hsplit : token ++ after = byte :: rest :=
      congrArg (byte :: ·) List.takeWhile_append_dropWhile
    have hvisit : visitFrom index inString escaped (byte :: rest) =
        (if isValidJsonNumber token then [⟨index, token⟩] else []) ++
          visitFrom (index + token.length) false false after :=
      visitFrom_token hflags index rest
    rw [hvisit]
    rw [← hsplit] at hinput
    have hnext : input.drop (index + token.length) = after := by
      rw [← List.drop_drop, hinput, List.drop_left]
    by_cases hvalid : isValidJsonNumber token = true
    · rw [if_pos hvalid, if_pos hvalid, List.singleton_append, List.foldl_cons, replaceToken,
        ih hnext (Nat.le_refl _)]
      simp [Piece.zeroed, Piece.bytes]
    · rw [if_neg hvalid, if_neg hvalid, List.nil_append, ih hnext (by omega),
        take_copied hinput hcopied, List.map_append, text_append]
      have hplain : (token.map Piece.byte).map Piece.zeroed = token.map Piece.byte := by
        simp [Piece.zeroed]
      rw [hplain, text_map_byte]
      simp

/-- The rewritten text has a zero for every number token. -/
theorem replaceValidJsonNumbers_eq (input : List UInt8) :
    replaceValidJsonNumbers input = text ((scan false false input).map Piece.zeroed) := by
  have h := foldl_visitFrom (show input.drop 0 = input from rfl) (Nat.le_refl 0) false false []
  rw [replaceValidJsonNumbers, visitValidJsonNumbers]
  simpa using h

/-- The visited tokens are the number pieces in order. -/
theorem visitFrom_lexemes (index : Nat) (inString escaped : Bool) (input : List UInt8) :
    (visitFrom index inString escaped input).map Token.lexeme =
      lexemes (scan inString escaped input) := by
  fun_induction scan inString escaped input generalizing index with
  | case1 => rw [visitFrom]; rfl
  | case2 inString escaped byte rest nextString nextEscaped hflags ih =>
    rw [visitFrom_byte hflags, ih]
    rfl
  | case3 inString escaped byte rest hflags token after ih =>
    rw [visitFrom_token hflags, List.map_append, lexemes_append, ih]
    by_cases hvalid : isValidJsonNumber token = true
    · rw [if_pos hvalid, if_pos hvalid]
      rfl
    · rw [if_neg hvalid, if_neg hvalid, lexemes_map_byte]
      rfl

end Scanning

section Rescanning

/-- A text that is empty or starts with a delimiter. -/
def Ends (rest : List UInt8) : Prop := ∀ byte ∈ rest.head?, isJsonNumberDelimiter byte = true

theorem delimiter_plain (h : isJsonNumberDelimiter byte = true) :
    flagsAfter false false byte = some (false, false) := by
  simp only [isJsonNumberDelimiter, Bool.or_eq_true, decide_eq_true_eq, or_assoc] at h
  rcases h with rfl | rfl | rfl | rfl | rfl | rfl | rfl | rfl <;> decide

theorem ends_dropWhile (rest : List UInt8) :
    Ends (rest.dropWhile fun b => !isJsonNumberDelimiter b) := by
  intro byte hbyte
  have hhead := List.head?_dropWhile_not (fun b => !isJsonNumberDelimiter b) rest
  rw [Option.mem_def.mp hbyte] at hhead
  simpa using hhead

theorem takeWhile_ends (h : Ends rest) :
    rest.takeWhile (fun b => !isJsonNumberDelimiter b) = [] ∧
      rest.dropWhile (fun b => !isJsonNumberDelimiter b) = rest := by
  cases rest with
  | nil => exact ⟨rfl, rfl⟩
  | cons byte rest =>
    have hbyte : isJsonNumberDelimiter byte = true := h byte rfl
    simp [hbyte]

/-- A token in front of a delimiter is seen as a whole. -/
theorem scan_tokenPieces (hstart : flagsAfter false false byte = none)
    (htail : ∀ b ∈ tail, isJsonNumberDelimiter b = false) (hrest : Ends rest) :
    scan false false (byte :: (tail ++ rest)) =
      (if isValidJsonNumber (byte :: tail) then [.number (byte :: tail)]
        else (byte :: tail).map .byte) ++ scan false false rest := by
  have hplain : ∀ b ∈ tail, (!isJsonNumberDelimiter b) = true := by
    intro b hb
    rw [htail b hb]
    rfl
  obtain ⟨htake, hdrop⟩ := takeWhile_ends hrest
  rw [scan_token hstart, List.takeWhile_append_of_pos hplain, List.dropWhile_append_of_pos hplain,
    htake, hdrop, List.append_nil]

theorem ends_text_scan (h : Ends rest) : Ends (text ((scan false false rest).map Piece.zeroed)) := by
  cases rest with
  | nil =>
    rw [scan]
    exact h
  | cons byte rest =>
    have hbyte : isJsonNumberDelimiter byte = true := h byte rfl
    rw [scan_byte (delimiter_plain hbyte)]
    rintro b ⟨rfl⟩
    exact hbyte

/-- The rewritten text is scanned into the same pieces, with zeros for the numbers. -/
theorem scan_zeroed (inString escaped : Bool) (input : List UInt8) :
    scan inString escaped (text ((scan inString escaped input).map Piece.zeroed)) =
      (scan inString escaped input).map Piece.zeroed := by
  fun_induction scan inString escaped input with
  | case1 =>
    rw [List.map_nil, text_nil, scan]
  | case2 inString escaped byte rest nextString nextEscaped hflags ih =>
    have htext : text ((.byte byte :: scan nextString nextEscaped rest).map Piece.zeroed) =
        byte :: text ((scan nextString nextEscaped rest).map Piece.zeroed) := rfl
    rw [htext, scan_byte hflags, ih]
    rfl
  | case3 inString escaped byte rest hflags token =>
    rename_i after ih
    have hends : Ends (text ((scan false false after).map Piece.zeroed)) :=
      ends_text_scan (ends_dropWhile rest)
    have hflags : inString = false ∧ escaped = false ∧ flagsAfter false false byte = none := by
      unfold flagsAfter at hflags
      split_ifs at hflags with hescaped hstring hquote hplain
      rw [Bool.not_eq_true] at hescaped hstring
      exact ⟨hstring, hescaped, by simp only [flagsAfter, hquote, hplain]; rfl⟩
    obtain ⟨rfl, rfl, hstart⟩ := hflags
    rw [List.map_append, text_append]
    by_cases hvalid : isValidJsonNumber token = true
    · rw [if_pos hvalid]
      have hone : isValidJsonNumber [48] = true := by decide +kernel
      have hzero : scan false false (48 :: ([] ++ text ((scan false false after).map Piece.zeroed))) =
          (if isValidJsonNumber [48] then [.number [48]] else [48].map .byte) ++
            scan false false (text ((scan false false after).map Piece.zeroed)) :=
        scan_tokenPieces (by decide) nofun hends
      rw [if_pos hone] at hzero
      exact hzero.trans (by rw [ih]; rfl)
    · have hplain : (token.map Piece.byte).map Piece.zeroed = token.map Piece.byte := by
        simp [Piece.zeroed]
      have htail : ∀ b ∈ rest.takeWhile (fun b => !isJsonNumberDelimiter b),
          isJsonNumberDelimiter b = false := by
        intro b hb
        simpa using List.mem_takeWhile_imp hb
      have htoken := scan_tokenPieces hstart htail hends
      rw [if_neg hvalid] at htoken
      rw [if_neg hvalid, hplain, text_map_byte]
      exact htoken.trans (by rw [ih])

/-- Every number piece is a number. -/
theorem scan_numbers (inString escaped : Bool) (input : List UInt8) :
    ∀ lexeme, .number lexeme ∈ scan inString escaped input → isValidJsonNumber lexeme = true := by
  fun_induction scan inString escaped input with
  | case1 => nofun
  | case2 inString escaped byte rest nextString nextEscaped hflags ih =>
    intro lexeme hmem
    rcases List.mem_cons.mp hmem with hmem | hmem
    · cases hmem
    · exact ih lexeme hmem
  | case3 inString escaped byte rest hflags token =>
    rename_i after ih
    intro lexeme hmem
    rcases List.mem_append.mp hmem with hmem | hmem
    · split at hmem
      · rename_i hvalid
        rw [List.mem_singleton, Piece.number.injEq] at hmem
        rw [hmem]
        exact hvalid
      · obtain ⟨b, -, hb⟩ := List.mem_map.mp hmem
        cases hb
    · exact ih lexeme hmem

end Rescanning

end Rphp.Json
