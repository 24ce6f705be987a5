import Rphp.Json.Document
import Rphp.Json.DocumentScan

namespace Rphp.Json
open Rphp.Lib
set_option autoImplicit true

section Zeroing

theorem map_zeroed_bytes (bytes : List UInt8) :
    (bytes.map Piece.byte).map Piece.zeroed = bytes.map Piece.byte := by
  simp [Piece.zeroed]

mutual

theorem JsonValue.pieces_zeroed (value : JsonValue) :
    value.zeroed.pieces = value.pieces.map Piece.zeroed := by
  cases value with
  | null => rfl
  | bool b => exact (map_zeroed_bytes _).symm
  | number lexeme => rfl
  | string body => exact (map_zeroed_bytes _).symm
  | emptyArray space => exact (map_zeroed_bytes _).symm
  | array elements =>
    rw [JsonValue.zeroed, JsonValue.pieces, JsonValue.pieces, elements.pieces_zeroed]
    simp [Piece.zeroed]
  | emptyObject space => exact (map_zeroed_bytes _).symm
  | object members =>
    rw [JsonValue.zeroed, JsonValue.pieces, JsonValue.pieces, members.pieces_zeroed]
    simp [Piece.zeroed]

theorem JsonElements.pieces_zeroed (elements : JsonElements) :
    elements.zeroed.pieces = elements.pieces.map Piece.zeroed := by
  cases elements with
  | last before value after =>
    rw [JsonElements.zeroed, JsonElements.pieces, JsonElements.pieces, value.pieces_zeroed]
    simp only [List.map_append, map_zeroed_bytes]
  | cons before value after rest =>
    rw [JsonElements.zeroed, JsonElements.pieces, JsonElements.pieces, value.pieces_zeroed,
      rest.pieces_zeroed]
    simp only [List.map_append, List.map_cons, map_zeroed_bytes, Piece.zeroed]

theorem JsonMembers.pieces_zeroed (members : JsonMembers) :
    members.zeroed.pieces = members.pieces.map Piece.zeroed := by
  cases members with
  | last beforeKey key afterKey before value after =>
    rw [JsonMembers.zeroed, JsonMembers.pieces, JsonMembers.pieces, value.pieces_zeroed]
    simp only [List.map_append, map_zeroed_bytes]
  | cons beforeKey key afterKey before value after rest =>
    rw [JsonMembers.zeroed, JsonMembers.pieces, JsonMembers.pieces, value.pieces_zeroed,
      rest.pieces_zeroed]
    simp only [List.map_append, List.map_cons, map_zeroed_bytes, Piece.zeroed]

end

theorem JsonDocument.pieces_zeroed (d : JsonDocument) :
    d.zeroed.pieces = d.pieces.map Piece.zeroed := by
  rw [JsonDocument.zeroed, JsonDocument.pieces, JsonDocument.pieces, d.value.pieces_zeroed]
  simp only [List.map_append, map_zeroed_bytes]

theorem isNumber_zero : IsNumber [48] := (isValidJsonNumber_iff [48]).mp (by decide +kernel)

mutual

theorem JsonValue.wellFormed_zeroed (value : JsonValue) (h : value.WellFormed) :
    value.zeroed.WellFormed := by
  cases value with
  | null => trivial
  | bool b => trivial
  | number lexeme => exact isNumber_zero
  | string body => exact h
  | emptyArray space => exact h
  | array elements => exact elements.wellFormed_zeroed h
  | emptyObject space => exact h
  | object members => exact members.wellFormed_zeroed h

theorem JsonElements.wellFormed_zeroed (elements : JsonElements) (h : elements.WellFormed) :
    elements.zeroed.WellFormed := by
  cases elements with
  | last before value after =>
    obtain ⟨hbefore, hvalue, hafter⟩ := h
    exact ⟨hbefore, value.wellFormed_zeroed hvalue, hafter⟩
  | cons before value after rest =>
    obtain ⟨hbefore, hvalue, hafter, hrest⟩ := h
    exact ⟨hbefore, value.wellFormed_zeroed hvalue, hafter, rest.wellFormed_zeroed hrest⟩

theorem JsonMembers.wellFormed_zeroed (members : JsonMembers) (h : members.WellFormed) :
    members.zeroed.WellFormed := by
  cases members with
  | last beforeKey key afterKey before value after =>
    obtain ⟨hhead, hvalue, hafter⟩ := h
    exact ⟨hhead, value.wellFormed_zeroed hvalue, hafter⟩
  | cons beforeKey key afterKey before value after rest =>
    obtain ⟨hhead, hvalue, hafter, hrest⟩ := h
    exact ⟨hhead, value.wellFormed_zeroed hvalue, hafter, rest.wellFormed_zeroed hrest⟩

end

end Zeroing

section Restoring

/-- Pieces whose numbers are all numbers of the grammar. -/
def ValidPieces (pieces : List Piece) : Prop := ∀ lexeme, .number lexeme ∈ pieces → IsNumber lexeme

theorem ValidPieces.append_left {a b : List Piece} (h : ValidPieces (a ++ b)) : ValidPieces a :=
  fun lexeme hmem => h lexeme (List.mem_append_left b hmem)

theorem ValidPieces.append_right {a b : List Piece} (h : ValidPieces (a ++ b)) : ValidPieces b :=
  fun lexeme hmem => h lexeme (List.mem_append_right a hmem)

theorem validPieces_scan (input : List UInt8) : ValidPieces (scan false false input) := by
  intro lexeme hmem
  exact (isValidJsonNumber_iff lexeme).mp (scan_numbers false false input lexeme hmem)

theorem eq_byte_of_zeroed (h : Piece.zeroed piece = .byte b) : piece = .byte b := by
  cases piece with
  | byte a => exact h
  | number lexeme => cases h

/-- Zeroing changes no byte outside of the numbers. -/
theorem eq_bytes_of_zeroed {bytes : List UInt8} (h : pieces.map Piece.zeroed = bytes.map .byte) :
    pieces = bytes.map .byte := by
  induction bytes generalizing pieces with
  | nil => exact List.map_eq_nil_iff.mp h
  | cons b bytes ih =>
    obtain ⟨piece, rest, rfl, hpiece, hrest⟩ := List.map_eq_cons_iff.mp h
    rw [eq_byte_of_zeroed hpiece, ih hrest]
    rfl

mutual

/-- What was zeroed to the pieces of a value are the pieces of a value. -/
theorem JsonValue.restore (value : JsonValue) (h : value.WellFormed) {pieces : List Piece}
    (hvalid : ValidPieces pieces) (hpieces : pieces.map Piece.zeroed = value.pieces) :
    ∃ original : JsonValue, original.WellFormed ∧ original.pieces = pieces ∧
      original.zeroed = value := by
  cases value with
  | null => exact ⟨.null, trivial, (eq_bytes_of_zeroed hpieces).symm, rfl⟩
  | bool b => exact ⟨.bool b, trivial, (eq_bytes_of_zeroed hpieces).symm, rfl⟩
  | number lexeme =>
    obtain ⟨piece, rest, rfl, hpiece, hrest⟩ := List.map_eq_cons_iff.mp hpieces
    rw [List.map_eq_nil_iff] at hrest
    subst hrest
    cases piece with
    | byte b => cases hpiece
    | number original =>
      cases hpiece
      exact ⟨.number original, hvalid original List.mem_cons_self, rfl, rfl⟩
  | string body => exact ⟨.string body, h, (eq_bytes_of_zeroed hpieces).symm, rfl⟩
  | emptyArray space => exact ⟨.emptyArray space, h, (eq_bytes_of_zeroed hpieces).symm, rfl⟩
  | array elements =>
    obtain ⟨openPiece, rest, rfl, hopen, hrest⟩ := List.map_eq_cons_iff.mp hpieces
    obtain ⟨inner, close, rfl, hinner, hclose⟩ := List.map_eq_append_iff.mp hrest
    have hvalidInner : ValidPieces inner :=
      fun lexeme hmem => hvalid lexeme (List.mem_cons_of_mem _ (List.mem_append_left _ hmem))
    obtain ⟨original, hwell, horiginal, hzeroed⟩ := elements.restore h hvalidInner hinner
    have hcloseEq : close = [93].map .byte := eq_bytes_of_zeroed hclose
    refine ⟨.array original, hwell, ?_, congrArg JsonValue.array hzeroed⟩
    rw [JsonValue.pieces, horiginal, hcloseEq, eq_byte_of_zeroed hopen]
    rfl
  | emptyObject space => exact ⟨.emptyObject space, h, (eq_bytes_of_zeroed hpieces).symm, rfl⟩
  | object members =>
    obtain ⟨openPiece, rest, rfl, hopen, hrest⟩ := List.map_eq_cons_iff.mp hpieces
    obtain ⟨inner, close, rfl, hinner, hclose⟩ := List.map_eq_append_iff.mp hrest
    have hvalidInner : ValidPieces inner :=
      fun lexeme hmem => hvalid lexeme (List.mem_cons_of_mem _ (List.mem_append_left _ hmem))
    obtain ⟨original, hwell, horiginal, hzeroed⟩ := members.restore h hvalidInner hinner
    have hcloseEq : close = [125].map .byte := eq_bytes_of_zeroed hclose
    refine ⟨.object original, hwell, ?_, congrArg JsonValue.object hzeroed⟩
    rw [JsonValue.pieces, horiginal, hcloseEq, eq_byte_of_zeroed hopen]
    rfl

theorem JsonElements.restore (elements : JsonElements) (h : elements.WellFormed)
    {pieces : List Piece} (hvalid : ValidPieces pieces)
    (hpieces : pieces.map Piece.zeroed = elements.pieces) :
    ∃ original : JsonElements, original.WellFormed ∧ original.pieces = pieces ∧
      original.zeroed = elements := by
  cases elements with
  | last before value after =>
    obtain ⟨hbefore, hvalue, hafter⟩ := h
    obtain ⟨front, afters, rfl, hfront, hafters⟩ := List.map_eq_append_iff.mp hpieces
    obtain ⟨befores, inner, rfl, hbefores, hinner⟩ := List.map_eq_append_iff.mp hfront
    obtain ⟨original, hwell, horiginal, hzeroed⟩ :=
      value.restore hvalue hvalid.append_left.append_right hinner
    refine ⟨.last before original after, ⟨hbefore, hwell, hafter⟩, ?_, ?_⟩
    · rw [JsonElements.pieces, horiginal, eq_bytes_of_zeroed hbefores, eq_bytes_of_zeroed hafters]
    · rw [JsonElements.zeroed, hzeroed]
  | cons before value after rest =>
    obtain ⟨hbefore, hvalue, hafter, hrest⟩ := h
    obtain ⟨front, tail, rfl, hfront, htail⟩ := List.map_eq_append_iff.mp hpieces
    obtain ⟨front, afters, rfl, hfront, hafters⟩ := List.map_eq_append_iff.mp hfront
    obtain ⟨befores, inner, rfl, hbefores, hinner⟩ := List.map_eq_append_iff.mp hfront
    obtain ⟨comma, tail, rfl, hcomma, htail⟩ := List.map_eq_cons_iff.mp htail
    obtain ⟨original, hwell, horiginal, hzeroed⟩ :=
      value.restore hvalue hvalid.append_left.append_left.append_right hinner
    have hvalidTail : ValidPieces tail :=
      fun lexeme hmem => hvalid.append_right lexeme (List.mem_cons_of_mem _ hmem)
    obtain ⟨others, hothersWell, hothers, hothersZeroed⟩ := rest.restore hrest hvalidTail htail
    refine ⟨.cons before original after others, ⟨hbefore, hwell, hafter, hothersWell⟩, ?_, ?_⟩
    · rw [JsonElements.pieces, horiginal, hothers, eq_bytes_of_zeroed hbefores,
        eq_bytes_of_zeroed hafters, eq_byte_of_zeroed hcomma]
    · rw [JsonElements.zeroed, hzeroed, hothersZeroed]

theorem JsonMembers.restore (members : JsonMembers) (h : members.WellFormed)
    {pieces : List Piece} (hvalid : ValidPieces pieces)
    (hpieces : pieces.map Piece.zeroed = members.pieces) :
    ∃ original : JsonMembers, original.WellFormed ∧ original.pieces = pieces ∧
      original.zeroed = members := by
  cases members with
  | last beforeKey key afterKey before value after =>
    obtain ⟨hhead, hvalue, hafter⟩ := h
    obtain ⟨front, afters, rfl, hfront, hafters⟩ := List.map_eq_append_iff.mp hpieces
    obtain ⟨heads, inner, rfl, hheads, hinner⟩ := List.map_eq_append_iff.mp hfront
    obtain ⟨original, hwell, horiginal, hzeroed⟩ :=
      value.restore hvalue hvalid.append_left.append_right hinner
    refine ⟨.last beforeKey key afterKey before original after, ⟨hhead, hwell, hafter⟩, ?_, ?_⟩
    · rw [JsonMembers.pieces, horiginal, eq_bytes_of_zeroed hheads, eq_bytes_of_zeroed hafters]
    · rw [JsonMembers.zeroed, hzeroed]
  | cons beforeKey key afterKey before value after rest =>
    obtain ⟨hhead, hvalue, hafter, hrest⟩ := h
    obtain ⟨front, tail, rfl, hfront, htail⟩ := List.map_eq_append_iff.mp hpieces
    obtain ⟨front, afters, rfl, hfront, hafters⟩ := List.map_eq_append_iff.mp hfront
    obtain ⟨heads, inner, rfl, hheads, hinner⟩ := List.map_eq_append_iff.mp hfront
    obtain ⟨comma, tail, rfl, hcomma, htail⟩ := List.map_eq_cons_iff.mp htail
    obtain ⟨original, hwell, horiginal, hzeroed⟩ :=
      value.restore hvalue hvalid.append_left.append_left.append_right hinner
    have hvalidTail : ValidPieces tail :=
      fun lexeme hmem => hvalid.append_right lexeme (List.mem_cons_of_mem _ hmem)
    obtain ⟨others, hothersWell, hothers, hothersZeroed⟩ := rest.restore hrest hvalidTail htail
    refine ⟨.cons beforeKey key afterKey before original after others,
      ⟨hhead, hwell, hafter, hothersWell⟩, ?_, ?_⟩
    · rw [JsonMembers.pieces, horiginal, hothers, eq_bytes_of_zeroed hheads,
        eq_bytes_of_zeroed hafters, eq_byte_of_zeroed hcomma]
    · rw [JsonMembers.zeroed, hzeroed, hothersZeroed]

end

theorem JsonDocument.restore (d : JsonDocument) (h : d.WellFormed) {pieces : List Piece}
    (hvalid : ValidPieces pieces) (hpieces : pieces.map Piece.zeroed = d.pieces) :
    ∃ original : JsonDocument, original.WellFormed ∧ original.pieces = pieces ∧
      original.zeroed = d := by
  obtain ⟨hbefore, hvalue, hafter⟩ := h
  obtain ⟨front, afters, rfl, hfront, hafters⟩ := List.map_eq_append_iff.mp hpieces
  obtain ⟨befores, inner, rfl, hbefores, hinner⟩ := List.map_eq_append_iff.mp hfront
  obtain ⟨original, hwell, horiginal, hzeroed⟩ :=
    d.value.restore hvalue hvalid.append_left.append_right hinner
  refine ⟨⟨d.before, original, d.after⟩, ⟨hbefore, hwell, hafter⟩, ?_, ?_⟩
  · rw [JsonDocument.pieces, horiginal, eq_bytes_of_zeroed hbefores, eq_bytes_of_zeroed hafters]
  · rw [JsonDocument.zeroed, hzeroed]

end Restoring

section Decoding

variable (build : Builder V) (unescape : List UInt8 → List UInt8)

theorem lexemes_cons_byte (b : UInt8) (pieces : List Piece) :
    lexemes (.byte b :: pieces) = lexemes pieces := rfl

theorem planned_next {values : List PhpNumber} (h : values.drop cursor = value :: rest)
    (lexeme : List UInt8) : planned values lexeme cursor = .ok (value, cursor + 1) := by
  have hget : values[cursor]? = some value := by
    rw [← List.head?_drop, h]
    rfl
  rw [planned, hget]

theorem drop_advance {values first rest : List PhpNumber} (h : values.drop cursor = first ++ rest) :
    values.drop (cursor + first.length) = rest := by
  rw [← List.drop_drop, h, List.drop_left]

mutual

/-- Over zeros, a plan of the projected lexemes yields what the lexemes themselves yield. -/
theorem decodeValue_planned (seed : PhpValueSeed) (value : JsonValue) {values rest : List PhpNumber}
    (hvalues : values.drop cursor =
      (lexemes value.pieces).map (phpNumberFromLexeme · bigintAsString) ++ rest) (other : Nat) :
    decodeValue build unescape (planned values) seed value.zeroed cursor =
      (decodeValue build unescape (projected bigintAsString) seed value other).map
        fun result => (result.1, cursor + (lexemes value.pieces).length) := by
  cases value with
  | null => rfl
  | bool b => 
    have hnone : lexemes (JsonValue.bool b).pieces = [] := lexemes_map_byte _
    rw [hnone]
    rfl
  | number lexeme =>
    have hnext := planned_next hvalues [48]
    simp only [JsonValue.zeroed, decodeValue, hnext]
    rfl
  | string body =>
    have hnone : lexemes (JsonValue.string body).pieces = [] := lexemes_map_byte _
    rw [hnone]
    rfl
  | emptyArray space =>
    have hnone : lexemes (JsonValue.emptyArray space).pieces = [] := lexemes_map_byte _
    rw [hnone]
    simp only [JsonValue.zeroed, decodeValue]
    cases seed.enterContainer 1 <;> rfl
  | array elements =>
    have hlexemes : lexemes (JsonValue.array elements).pieces = lexemes elements.pieces := by
      rw [JsonValue.pieces, lexemes_cons_byte, lexemes_append]
      exact List.append_nil _
    rw [hlexemes] at hvalues ⊢
    simp only [JsonValue.zeroed, decodeValue]
    cases seed.enterContainer 1 with
    | error e => rfl
    | ok child =>
      have helements := decodeElements_planned child elements hvalues other
      simp only [bind, Except.bind, helements]
      cases decodeElements build unescape (projected bigintAsString) child elements other <;> rfl
  | emptyObject space =>
    have hnone : lexemes (JsonValue.emptyObject space).pieces = [] := lexemes_map_byte _
    rw [hnone]
    simp only [JsonValue.zeroed, decodeValue]
    cases seed.enterContainer 2 <;> rfl
  | object members =>
    have hlexemes : lexemes (JsonValue.object members).pieces = lexemes members.pieces := by
      rw [JsonValue.pieces, lexemes_cons_byte, lexemes_append]
      exact List.append_nil _
    rw [hlexemes] at hvalues ⊢
    simp only [JsonValue.zeroed, decodeValue]
    cases seed.enterContainer 2 with
    | error e => rfl
    | ok child =>
      have hmembers := decodeMembers_planned child members hvalues other
      simp only [bind, Except.bind, hmembers]
      cases decodeMembers build unescape (projected bigintAsString) child members other <;> rfl

theorem decodeElements_planned (seed : PhpValueSeed) (elements : JsonElements)
    {values rest : List PhpNumber}
    (hvalues : values.drop cursor =
      (lexemes elements.pieces).map (phpNumberFromLexeme · bigintAsString) ++ rest) (other : Nat) :
    decodeElements build unescape (planned values) seed elements.zeroed cursor =
      (decodeElements build unescape (projected bigintAsString) seed elements other).map
        fun result => (result.1, cursor + (lexemes elements.pieces).length) := by
  cases elements with
  | last before value after =>
    have hlexemes : lexemes (JsonElements.last before value after).pieces =
        lexemes value.pieces := by
      simp only [JsonElements.pieces, lexemes_append, lexemes_map_byte, List.nil_append,
        List.append_nil]
    rw [hlexemes] at hvalues ⊢
    have hvalue := decodeValue_planned seed value hvalues other
    simp only [JsonElements.zeroed, decodeElements, bind, Except.bind, hvalue]
    cases decodeValue build unescape (projected bigintAsString) seed value other <;> rfl
  | cons before value after tail =>
    have hlexemes : lexemes (JsonElements.cons before value after tail).pieces =
        lexemes value.pieces ++ lexemes tail.pieces := by
      simp only [JsonElements.pieces, lexemes_append, lexemes_map_byte, List.nil_append,
        List.append_nil, lexemes_cons_byte]
    rw [hlexemes] at hvalues ⊢
    rw [List.map_append, List.append_assoc] at hvalues
    have hvalue := decodeValue_planned seed value hvalues other
    have hadvance := drop_advance hvalues
    rw [List.length_map] at hadvance
    simp only [JsonElements.zeroed, decodeElements, bind, Except.bind, hvalue]
    cases decodeValue build unescape (projected bigintAsString) seed value other with
    | error e => rfl
    | ok result =>
      have htail := decodeElements_planned seed tail hadvance result.2
      simp only [Except.map, htail]
      cases decodeElements build unescape (projected bigintAsString) seed tail result.2 with
      | error e => rfl
      | ok others => simp [Nat.add_assoc]

theorem decodeMembers_planned (seed : PhpValueSeed) (members : JsonMembers)
    {values rest : List PhpNumber}
    (hvalues : values.drop cursor =
      (lexemes members.pieces).map (phpNumberFromLexeme · bigintAsString) ++ rest) (other : Nat) :
    decodeMembers build unescape (planned values) seed members.zeroed cursor =
      (decodeMembers build unescape (projected bigintAsString) seed members other).map
        fun result => (result.1, cursor + (lexemes members.pieces).length) := by
  cases members with
  | last beforeKey key afterKey before value after =>
    have hlexemes : lexemes (JsonMembers.last beforeKey key afterKey before value after).pieces =
        lexemes value.pieces := by
      simp only [JsonMembers.pieces, lexemes_append, lexemes_map_byte, List.nil_append,
        List.append_nil]
    rw [hlexemes] at hvalues ⊢
    have hvalue := decodeValue_planned seed value hvalues other
    simp only [JsonMembers.zeroed, decodeMembers, bind, Except.bind, hvalue]
    cases decodeValue build unescape (projected bigintAsString) seed value other with
    | error e => rfl
    | ok result =>
      simp only [Except.map]
      cases checkProperty seed.associative (unescape key) <;> rfl
  | cons beforeKey key afterKey before value after tail =>
    have hlexemes : lexemes (JsonMembers.cons beforeKey key afterKey before value after tail).pieces =
        lexemes value.pieces ++ lexemes tail.pieces := by
      simp only [JsonMembers.pieces, lexemes_append, lexemes_map_byte, List.nil_append,
        List.append_nil, lexemes_cons_byte]
    rw [hlexemes] at hvalues ⊢
    rw [List.map_append, List.append_assoc] at hvalues
    have hvalue := decodeValue_planned seed value hvalues other
    have hadvance := drop_advance hvalues
    rw [List.length_map] at hadvance
    simp only [JsonMembers.zeroed, decodeMembers, bind, Except.bind, hvalue]
    cases decodeValue build unescape (projected bigintAsString) seed value other with
    | error e => rfl
    | ok result =>
      have htail := decodeMembers_planned seed tail hadvance result.2
      simp only [Except.map, htail]
      cases checkProperty seed.associative (unescape key) with
      | error e => rfl
      | ok u =>
        cases decodeMembers build unescape (projected bigintAsString) seed tail result.2 with
        | error e => rfl
        | ok others => simp [Nat.add_assoc]

end

/-- A result that is not the error of an exhausted plan. -/
def NoPlanError (result : Except DecodeError α) : Prop := result ≠ .error .numberPlan

theorem noPlanError_ok (a : α) : NoPlanError (.ok a) := nofun

theorem NoPlanError.bind {x : Except DecodeError α} {f : α → Except DecodeError β}
    (hx : NoPlanError x) (hf : ∀ a, NoPlanError (f a)) : NoPlanError (x >>= f) := by
  cases x with
  | error e =>
    intro h
    cases h
    exact hx rfl
  | ok a => exact hf a

theorem NoPlanError.map {x : Except DecodeError α} (hx : NoPlanError x) (f : α → β) :
    NoPlanError (x.map f) := by
  cases x with
  | error e =>
    intro h
    cases h
    exact hx rfl
  | ok a => exact noPlanError_ok _

theorem noPlanError_enterContainer (seed : PhpValueSeed) (cost : Nat) :
    NoPlanError (seed.enterContainer cost) := by
  unfold PhpValueSeed.enterContainer
  dsimp only
  split_ifs <;> nofun

theorem noPlanError_checkProperty (associative : Bool) (name : List UInt8) :
    NoPlanError (checkProperty associative name) := by
  unfold checkProperty
  split_ifs <;> nofun

mutual

theorem decodeValue_noPlanError (seed : PhpValueSeed) (value : JsonValue) (cursor : Nat) :
    NoPlanError (decodeValue build unescape (projected bigintAsString) seed value cursor) := by
  cases value with
  | null => exact noPlanError_ok _
  | bool b => exact noPlanError_ok _
  | number lexeme => exact noPlanError_ok _
  | string body => exact noPlanError_ok _
  | emptyArray space =>
    exact (noPlanError_enterContainer seed 1).bind fun _ => noPlanError_ok _
  | array elements =>
    exact (noPlanError_enterContainer seed 1).bind fun child =>
      (decodeElements_noPlanError child elements cursor).bind fun _ => noPlanError_ok _
  | emptyObject space =>
    exact (noPlanError_enterContainer seed 2).bind fun _ => noPlanError_ok _
  | object members =>
    exact (noPlanError_enterContainer seed 2).bind fun child =>
      (decodeMembers_noPlanError child members cursor).bind fun _ => noPlanError_ok _

theorem decodeElements_noPlanError (seed : PhpValueSeed) (elements : JsonElements) (cursor : Nat) :
    NoPlanError (decodeElements build unescape (projected bigintAsString) seed elements cursor) := by
  cases elements with
  | last before value after =>
    exact (decodeValue_noPlanError seed value cursor).bind fun _ => noPlanError_ok _
  | cons before value after rest =>
    exact (decodeValue_noPlanError seed value cursor).bind fun result =>
      (decodeElements_noPlanError seed rest result.2).bind fun _ => noPlanError_ok _

theorem decodeMembers_noPlanError (seed : PhpValueSeed) (members : JsonMembers) (cursor : Nat) :
    NoPlanError (decodeMembers build unescape (projected bigintAsString) seed members cursor) := by
  cases members with
  | last beforeKey key afterKey before value after =>
    exact (decodeValue_noPlanError seed value cursor).bind fun _ =>
      (noPlanError_checkProperty _ _).bind fun _ => noPlanError_ok _
  | cons beforeKey key afterKey before value after rest =>
    exact (decodeValue_noPlanError seed value cursor).bind fun result =>
      (noPlanError_checkProperty _ _).bind fun _ =>
        (decodeMembers_noPlanError seed rest result.2).bind fun _ => noPlanError_ok _

end

end Decoding

section Plan

theorem prepareNumbers_input (input : List UInt8) (bigintAsString : Bool) :
    (prepareNumbers input bigintAsString).input =
      text ((scan false false input).map Piece.zeroed) :=
  replaceValidJsonNumbers_eq input

theorem prepareNumbers_values (input : List UInt8) (bigintAsString : Bool) :
    (prepareNumbers input bigintAsString).values =
      (lexemes (scan false false input)).map (phpNumberFromLexeme · bigintAsString) := by
  rw [← visitFrom_lexemes 0, List.map_map]
  rfl

/-- The rewritten text of a document is the text of the document with zeros. -/
theorem prepareNumbers_document (d : JsonDocument) (h : d.WellFormed) (bigintAsString : Bool) :
    (prepareNumbers d.render bigintAsString).input = d.zeroed.render ∧
      (prepareNumbers d.render bigintAsString).values =
        (lexemes d.pieces).map (phpNumberFromLexeme · bigintAsString) := by
  rw [prepareNumbers_input, prepareNumbers_values, d.scan_render h, ← d.pieces_zeroed]
  exact ⟨rfl, rfl⟩

/-- A document of the rewritten text comes from a document of the text. -/
theorem restore_prepared {input : List UInt8} (d : JsonDocument) (h : d.WellFormed)
    (hrender : d.render = (prepareNumbers input bigintAsString).input) :
    ∃ original : JsonDocument, original.WellFormed ∧ original.render = input ∧
      original.zeroed = d := by
  have hpieces : (scan false false input).map Piece.zeroed = d.pieces := by
    rw [← d.scan_render h, hrender, prepareNumbers_input, scan_zeroed]
  obtain ⟨original, hwell, horiginal, hzeroed⟩ := d.restore h (validPieces_scan input) hpieces
  refine ⟨original, hwell, ?_, hzeroed⟩
  rw [JsonDocument.render, horiginal, text_scan]

theorem decodeDocument_planned (build : Builder V) (unescape : List UInt8 → List UInt8)
    (associative : Bool) (maximumDepth : Nat) (d : JsonDocument) (bigintAsString : Bool) :
    decodeDocument build unescape
        (planned ((lexemes d.pieces).map (phpNumberFromLexeme · bigintAsString)))
        associative maximumDepth d.zeroed =
      (decodeDocument build unescape (projected bigintAsString) associative maximumDepth d).map
        fun result => (result.1, (lexemes d.pieces).length) := by
  have hlexemes : lexemes d.pieces = lexemes d.value.pieces := by
    simp only [JsonDocument.pieces, lexemes_append, lexemes_map_byte, List.nil_append,
      List.append_nil]
  have hvalues : ((lexemes d.pieces).map (phpNumberFromLexeme · bigintAsString)).drop 0 =
      (lexemes d.value.pieces).map (phpNumberFromLexeme · bigintAsString) ++ [] := by
    rw [List.drop_zero, List.append_nil, hlexemes]
  have hdecode := decodeValue_planned build unescape (.new associative maximumDepth) d.value
    hvalues 0
  rw [Nat.zero_add, ← hlexemes] at hdecode
  exact hdecode

/-- Preparing keeps validity, plans exactly the numbers in order, and the planned decoder yields
the document with its own numbers and never runs out of the plan. -/
theorem prepareNumbers_correct (build : Builder V) (unescape : List UInt8 → List UInt8)
    (associative : Bool) (maximumDepth : Nat) (input : List UInt8) (bigintAsString : Bool) :
    (IsJson input ↔ IsJson (prepareNumbers input bigintAsString).input) ∧
      (∀ d : JsonDocument, d.WellFormed → d.render = input →
        (prepareNumbers input bigintAsString).input = d.zeroed.render ∧
          d.zeroed.pieces = d.pieces.map Piece.zeroed ∧
          (prepareNumbers input bigintAsString).values =
            (lexemes d.pieces).map (phpNumberFromLexeme · bigintAsString)) ∧
      ∀ d : JsonDocument, d.WellFormed →
        d.render = (prepareNumbers input bigintAsString).input →
        ∃ original : JsonDocument, original.WellFormed ∧ original.render = input ∧
          original.zeroed = d ∧
          decodeDocument build unescape (planned (prepareNumbers input bigintAsString).values)
              associative maximumDepth d =
            (decodeDocument build unescape (projected bigintAsString) associative maximumDepth
              original).map
              (fun result => (result.1, (prepareNumbers input bigintAsString).values.length)) ∧
          decodeDocument build unescape (planned (prepareNumbers input bigintAsString).values)
              associative maximumDepth d ≠ .error .numberPlan := by
  refine ⟨⟨?_, ?_⟩, ?_, ?_⟩
  · rintro ⟨d, hwell, rfl⟩
    exact ⟨d.zeroed, ⟨hwell.1, d.value.wellFormed_zeroed hwell.2.1, hwell.2.2⟩,
      (prepareNumbers_document d hwell bigintAsString).1.symm⟩
  · rintro ⟨d, hwell, hrender⟩
    obtain ⟨original, horiginal, hinput, -⟩ := restore_prepared d hwell hrender
    exact ⟨original, horiginal, hinput⟩
  · rintro d hwell rfl
    obtain ⟨hinput, hvalues⟩ := prepareNumbers_document d hwell bigintAsString
    exact ⟨hinput, d.pieces_zeroed, hvalues⟩
  · intro d hwell hrender
    obtain ⟨original, horiginal, rfl, rfl⟩ := restore_prepared d hwell hrender
    have hvalues := (prepareNumbers_document original horiginal bigintAsString).2
    have hdecode := decodeDocument_planned build unescape associative maximumDepth original
      bigintAsString
    refine ⟨original, horiginal, rfl, rfl, ?_, ?_⟩
    · rw [hvalues, hdecode, List.length_map]
    · rw [hvalues, hdecode]
      have hplan : NoPlanError (decodeDocument build unescape (projected bigintAsString)
          associative maximumDepth original) := decodeValue_noPlanError build unescape _ _ _
      exact hplan.map _

end Plan

end Rphp.Json
