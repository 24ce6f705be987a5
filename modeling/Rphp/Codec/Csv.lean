import Mathlib.Data.List.Basic
import Mathlib.Data.Option.Basic

namespace Rphp.Codec.Csv
set_option autoImplicit true

inductive CsvState
  | fieldStart
  | unquoted
  | quoted
  | afterQuote
  deriving DecidableEq, Repr

/-- The parser of one record: what it has read of the current field and the fields before it. -/
structure CsvParser where
  separator : UInt8
  enclosure : UInt8
  escape : Option UInt8
  state : CsvState
  field : List UInt8
  fields : List (Option (List UInt8))
  pendingEscape : Bool
  sawNonEolByte : Bool
  recordDone : Bool
  stringInput : Bool
  deriving DecidableEq, Repr

namespace CsvParser

/-- Only an ASCII byte is an active escape. -/
def new (separator enclosure : UInt8) (escape : Option UInt8) : CsvParser where
  separator := separator
  enclosure := enclosure
  escape := escape.filter fun byte => byte < 0x80
  state := .fieldStart
  field := []
  fields := []
  pendingEscape := false
  sawNonEolByte := false
  recordDone := false
  stringInput := false

def newString (separator enclosure : UInt8) (escape : Option UInt8) : CsvParser :=
  { new separator enclosure escape with stringInput := true }

def pushByte (p : CsvParser) (byte : UInt8) : CsvParser :=
  { p with field := p.field ++ [byte] }

def pushField (p : CsvParser) (field : Option (List UInt8)) : CsvParser :=
  { p with fields := p.fields ++ [field] }

def stripCarriageReturn (field : List UInt8) : List UInt8 :=
  if field.getLast? = some 13 then field.dropLast else field

def finishField (p : CsvParser) (strip : Bool) : CsvParser :=
  let field := if strip then stripCarriageReturn p.field else p.field
  let field := if field.isEmpty ∧ p.state = .quoted ∧ p.escape = some 0 then [0] else field
  { p with
    field := []
    fields := p.fields ++ [some field]
    state := .fieldStart
    pendingEscape := false }

def finishRecord (p : CsvParser) (strip : Bool) : CsvParser :=
  if ¬ p.sawNonEolByte ∧ p.fields.isEmpty then
    { pushField { p with field := [] } none with recordDone := true }
  else { finishField p strip with recordDone := true }

def finishRecordAtLineEnd (p : CsvParser) : CsvParser := finishRecord p true

/-- Whether a byte is the line feed that ends the record, given whether a byte follows it. -/
def endsRecord (p : CsvParser) (byte : UInt8) (next : Option UInt8) : Bool :=
  byte = 10 && (!p.stringInput || (next.isNone && p.state ≠ .quoted))

def noteByte (p : CsvParser) (byte : UInt8) : CsvParser :=
  { p with sawNonEolByte := p.sawNonEolByte || (byte ≠ 13 && byte ≠ 10) }

/-- One turn of the loop over a segment; the flag says that the next byte is consumed too. -/
def pushSegmentByte (p : CsvParser) (byte : UInt8) (next : Option UInt8) : CsvParser × Bool :=
  let p := noteByte p byte
  if p.pendingEscape then ({ pushByte p byte with pendingEscape := false }, false)
  else
    match p.state with
    | .fieldStart =>
      if endsRecord p byte next then (finishRecordAtLineEnd p, false)
      else if byte = p.enclosure then ({ p with field := [], state := .quoted }, false)
      else if byte = p.separator then (finishField p false, false)
      else if byte = 32 ∨ byte = 9 then (pushByte p byte, false)
      else ({ pushByte p byte with state := .unquoted }, false)
    | .unquoted =>
      if endsRecord p byte next then (finishRecordAtLineEnd p, false)
      else if byte = p.separator then (finishField p false, false)
      else (pushByte p byte, false)
    | .quoted =>
      if byte = p.enclosure then
        if next = some p.enclosure then (pushByte p p.enclosure, true)
        else ({ p with state := .afterQuote }, false)
      else if p.escape = some byte then
        match next with
        | some next => (pushByte (pushByte p byte) next, true)
        | none => ({ pushByte p byte with pendingEscape := true }, false)
      else (pushByte p byte, false)
    | .afterQuote =>
      if endsRecord p byte next then (finishRecordAtLineEnd p, false)
      else if byte = p.separator then (finishField p false, false)
      else (pushByte p byte, false)

def pushSegment : CsvParser → List UInt8 → CsvParser
  | p, [] => p
  | p, [byte] => (pushSegmentByte p byte none).1
  | p, byte :: next :: rest =>
    match pushSegmentByte p byte (some next) with
    | (p, true) => if p.recordDone then p else pushSegment p rest
    | (p, false) => if p.recordDone then p else pushSegment p (next :: rest)

def needsContinuation (p : CsvParser) : Bool := !p.recordDone && p.state = .quoted

def finish (p : CsvParser) (stripFinalCarriageReturn : Bool) : List (Option (List UInt8)) :=
  (if p.recordDone then p else finishRecord p stripFinalCarriageReturn).fields

end CsvParser

/-- Put a byte in front of the first line. -/
def consLine (byte : UInt8) : List (List UInt8) → List (List UInt8)
  | [] => [[byte]]
  | line :: lines => (byte :: line) :: lines

/-- The physical lines of a text, each with its line feed. -/
def physicalLines : List UInt8 → List (List UInt8)
  | [] => []
  | byte :: rest => if byte = 10 then [10] :: physicalLines rest else consLine byte (physicalLines rest)

/-- The loop that feeds further lines while an enclosure is open. -/
def continueRecord (p : CsvParser) : List (List UInt8) → CsvParser
  | [] => p
  | line :: lines =>
    if p.needsContinuation then continueRecord (p.pushSegment line) lines else p

/-- One record of a text; `eof` is what the stream says after the last line it read. -/
def readCsvRecord (separator enclosure : UInt8) (escape : Option UInt8) (eof : Bool)
    (text : List UInt8) : Option (List (Option (List UInt8))) :=
  match physicalLines text with
  | [] => none
  | line :: lines =>
    some ((continueRecord ((CsvParser.new separator enclosure escape).pushSegment line)
      lines).finish eof)

/-- The encoder of one record. -/
structure CsvEncoder where
  separator : UInt8
  enclosure : UInt8
  escape : Option UInt8
  bytes : List UInt8
  firstField : Bool

namespace CsvEncoder

def new (separator enclosure : UInt8) (escape : Option UInt8) : CsvEncoder where
  separator := separator
  enclosure := enclosure
  escape := escape
  bytes := []
  firstField := true

/-- Whether a field goes out enclosed. -/
def quotes (e : CsvEncoder) (field : List UInt8) : Bool :=
  field.any fun byte => byte = e.separator || byte = e.enclosure || e.escape = some byte ||
    byte = 10 || byte = 13 || byte = 9 || byte = 32

/-- The loop over an enclosed field: an enclosure is doubled unless an escape precedes it. -/
def enclosedBytes (e : CsvEncoder) : Bool → List UInt8 → List UInt8
  | _, [] => []
  | escaped, byte :: rest =>
    if e.escape = some byte then byte :: enclosedBytes e true rest
    else if byte = e.enclosure ∧ ¬ escaped then byte :: byte :: enclosedBytes e escaped rest
    else byte :: enclosedBytes e false rest

def encodeField (e : CsvEncoder) (field : List UInt8) : List UInt8 :=
  if e.quotes field then [e.enclosure] ++ enclosedBytes e false field ++ [e.enclosure] else field

def pushField (e : CsvEncoder) (field : List UInt8) : CsvEncoder :=
  { e with
    bytes := e.bytes ++ (if e.firstField then [] else [e.separator]) ++ e.encodeField field
    firstField := false }

def finish (e : CsvEncoder) (eol : List UInt8) : List UInt8 := e.bytes ++ eol

end CsvEncoder

/-- The record of a list of fields, with the given line end. -/
def encodeRecord (separator enclosure : UInt8) (escape : Option UInt8)
    (fields : List (List UInt8)) (eol : List UInt8) : List UInt8 :=
  (fields.foldl CsvEncoder.pushField (CsvEncoder.new separator enclosure escape)).finish eol

section Lines

/-- Everything a text makes of a parser, line by line. -/
def process (p : CsvParser) (text : List UInt8) : CsvParser :=
  match physicalLines text with
  | [] => p
  | line :: lines => continueRecord (p.pushSegment line) lines

theorem physicalLines_cons (hbyte : byte ≠ 10) (rest : List UInt8) :
    physicalLines (byte :: rest) = consLine byte (physicalLines rest) := by
  rw [physicalLines, if_neg hbyte]

theorem pushSegment_cons {p p' : CsvParser} {line : List UInt8}
    (hstep : p.pushSegmentByte byte line.head? = (p', false)) (hdone : p'.recordDone = false) :
    p.pushSegment (byte :: line) = p'.pushSegment line := by
  cases line with
  | nil =>
    have hone : p.pushSegment [byte] = (p.pushSegmentByte byte none).1 := rfl
    rw [hone, show p.pushSegmentByte byte none = (p', false) from hstep]
    rfl
  | cons next rest =>
    rw [CsvParser.pushSegment, show p.pushSegmentByte byte (some next) = (p', false) from hstep]
    simp [hdone]

/-- A byte that ends no line and takes no further byte is processed on its own. -/
theorem process_cons {p p' : CsvParser} (hbyte : byte ≠ 10)
    (hstep : ∀ line lines, physicalLines rest = line :: lines →
      p.pushSegmentByte byte line.head? = (p', false))
    (hlast : physicalLines rest = [] → p.pushSegmentByte byte none = (p', false))
    (hdone : p'.recordDone = false) : process p (byte :: rest) = process p' rest := by
  unfold process
  rw [physicalLines_cons hbyte]
  cases hlines : physicalLines rest with
  | nil =>
    have hone : p.pushSegment [byte] = (p.pushSegmentByte byte none).1 := rfl
    simp only [consLine, hone, hlast hlines, continueRecord]
  | cons line lines =>
    simp only [consLine]
    rw [pushSegment_cons (hstep line lines hlines) hdone]

theorem physicalLines_head (hbyte : byte ≠ 10) (rest : List UInt8) :
    ∃ line lines, physicalLines (byte :: rest) = (byte :: line) :: lines := by
  rw [physicalLines_cons hbyte]
  cases physicalLines rest with
  | nil => exact ⟨[], [], rfl⟩
  | cons line lines => exact ⟨line, lines, rfl⟩

/-- Two bytes of one line that are consumed together. -/
theorem process_pair {p p' : CsvParser} (hbyte : byte ≠ 10) (hnext : next ≠ 10)
    (hstep : p.pushSegmentByte byte (some next) = (p', true)) (hdone : p'.recordDone = false) :
    process p (byte :: next :: rest) = process p' rest := by
  unfold process
  rw [physicalLines_cons hbyte, physicalLines_cons hnext]
  cases hlines : physicalLines rest with
  | nil => simp [consLine, CsvParser.pushSegment, hstep, hdone, continueRecord]
  | cons line lines => simp [consLine, CsvParser.pushSegment, hstep, hdone]

theorem process_eq_continueRecord {p : CsvParser} (h : p.needsContinuation = true)
    (text : List UInt8) : continueRecord p (physicalLines text) = process p text := by
  unfold process
  cases physicalLines text with
  | nil => rfl
  | cons line lines => rw [continueRecord, if_pos h]

/-- A line feed inside an enclosure goes on to the next line. -/
theorem process_lineFeed {p p' : CsvParser} (hstep : p.pushSegmentByte 10 none = (p', false))
    (hopen : p'.needsContinuation = true) : process p (10 :: rest) = process p' rest := by
  have hone : p.pushSegment [10] = (p.pushSegmentByte 10 none).1 := rfl
  have hline : process p (10 :: rest) = continueRecord (p.pushSegment [10]) (physicalLines rest) :=
    rfl
  rw [hline, hone, hstep, process_eq_continueRecord hopen]

/-- A line feed outside an enclosure ends the record, whatever follows it. -/
theorem process_recordEnd {p p' : CsvParser} (hstep : p.pushSegmentByte 10 none = (p', false))
    (hdone : p'.recordDone = true) : process p (10 :: rest) = p' := by
  have hone : p.pushSegment [10] = (p.pushSegmentByte 10 none).1 := rfl
  have hline : process p (10 :: rest) = continueRecord (p.pushSegment [10]) (physicalLines rest) :=
    rfl
  rw [hline, hone, hstep]
  cases physicalLines rest with
  | nil => rfl
  | cons line lines =>
    rw [continueRecord, if_neg]
    simp [CsvParser.needsContinuation, hdone]

end Lines

section Fields

/-- A parser without an escape in the middle of a stream record that holds more than line
ends. -/
structure Reading (p : CsvParser) : Prop where
  distinct : p.separator ≠ p.enclosure
  separator_ne_lf : p.separator ≠ 10
  enclosure_ne_lf : p.enclosure ≠ 10
  escape : p.escape = none
  pendingEscape : p.pendingEscape = false
  recordDone : p.recordDone = false
  stringInput : p.stringInput = false
  sawNonEolByte : p.sawNonEolByte = true

variable {p : CsvParser}

theorem Reading.noteByte (h : Reading p) (byte : UInt8) : p.noteByte byte = p := by
  unfold CsvParser.noteByte
  rw [h.sawNonEolByte, Bool.true_or, ← h.sawNonEolByte]

theorem Reading.withField (h : Reading p) (state : CsvState) (field : List UInt8) :
    Reading { p with state := state, field := field } :=
  ⟨h.distinct, h.separator_ne_lf, h.enclosure_ne_lf, h.escape, h.pendingEscape, h.recordDone,
    h.stringInput, h.sawNonEolByte⟩

theorem endsRecord_of_ne (hlf : byte ≠ 10) (p : CsvParser) (next : Option UInt8) :
    p.endsRecord byte next = false := by
  simp [CsvParser.endsRecord, hlf]

theorem process_unquoted (h : Reading p) (hstate : p.state = .unquoted) {bytes : List UInt8}
    (hbytes : ∀ byte ∈ bytes, byte ≠ p.separator ∧ byte ≠ 10) (rest : List UInt8) :
    process p (bytes ++ rest) = process { p with field := p.field ++ bytes } rest := by
  induction bytes generalizing p with
  | nil => simp
  | cons byte bytes ih =>
    obtain ⟨hsep, hlf⟩ := hbytes byte (by simp)
    have hstep : ∀ next, p.pushSegmentByte byte next = (p.pushByte byte, false) := by
      intro next
      unfold CsvParser.pushSegmentByte
      simp [h.noteByte, h.pendingEscape, hstate, endsRecord_of_ne hlf, hsep]
    have hpush : Reading (p.pushByte byte) := h.withField p.state (p.field ++ [byte])
    rw [List.cons_append, process_cons hlf (fun _ _ _ => hstep _) (fun _ => hstep _)
      hpush.recordDone, ih hpush hstate fun b hb => hbytes b (by simp [hb])]
    simp [CsvParser.pushByte]

/-- An enclosed field up to its closing enclosure, in front of any other byte. -/
theorem process_enclosed (h : Reading p) (hstate : p.state = .quoted) {e : CsvEncoder}
    (henclosure : e.enclosure = p.enclosure) (hescape : e.escape = none)
    (hnext : next ≠ p.enclosure) (bytes rest : List UInt8) :
    process p (e.enclosedBytes false bytes ++ p.enclosure :: next :: rest) =
      process { p with state := .afterQuote, field := p.field ++ bytes } (next :: rest) := by
  induction bytes generalizing p with
  | nil =>
    have hstep : ∀ after, after ≠ some p.enclosure →
        p.pushSegmentByte p.enclosure after = ({ p with state := .afterQuote }, false) := by
      intro after hafter
      unfold CsvParser.pushSegmentByte
      simp [h.noteByte, h.pendingEscape, hstate, hafter]
    have hhead : ∀ line lines, physicalLines (next :: rest) = line :: lines →
        line.head? = some next := by
      intro line lines hlines
      by_cases hlf : next = 10
      · subst hlf
        have : physicalLines (10 :: rest) = [10] :: physicalLines rest := rfl
        rw [this, List.cons.injEq] at hlines
        rw [← hlines.1]
        rfl
      · obtain ⟨line', lines', hlines'⟩ := physicalLines_head hlf rest
        rw [hlines', List.cons.injEq] at hlines
        rw [← hlines.1]
        rfl
    rw [CsvEncoder.enclosedBytes, List.nil_append, process_cons h.enclosure_ne_lf
      (fun line lines hlines => hstep _ (by rw [hhead line lines hlines]; simpa using hnext))
      (fun _ => hstep _ (by simp)) h.recordDone]
    simp
  | cons byte bytes ih =>
    have hbody : e.enclosedBytes false (byte :: bytes) =
        (if byte = p.enclosure then [byte, byte] else [byte]) ++ e.enclosedBytes false bytes := by
      by_cases hb : byte = p.enclosure <;>
        simp [CsvEncoder.enclosedBytes, hescape, henclosure, hb]
    have hpush : Reading (p.pushByte byte) := h.withField p.state (p.field ++ [byte])
    have hrest := ih hpush hstate henclosure hnext
    have hfield : { p.pushByte byte with
        state := .afterQuote, field := (p.pushByte byte).field ++ bytes } =
        { p with state := .afterQuote, field := p.field ++ byte :: bytes } := by
      simp [CsvParser.pushByte]
    rw [hbody, ← hfield, ← hrest]
    by_cases hb : byte = p.enclosure
    · have hstep : p.pushSegmentByte byte (some byte) = (p.pushByte byte, true) := by
        unfold CsvParser.pushSegmentByte
        simp [h.noteByte, h.pendingEscape, hstate, hb]
      have hlf : byte ≠ 10 := by
        rw [hb]
        exact h.enclosure_ne_lf
      rw [if_pos hb]
      exact process_pair hlf hlf hstep hpush.recordDone
    · have hstep : ∀ after, p.pushSegmentByte byte after = (p.pushByte byte, false) := by
        intro after
        unfold CsvParser.pushSegmentByte
        simp [h.noteByte, h.pendingEscape, hstate, hb, h.escape]
      rw [if_neg hb]
      by_cases hlf : byte = 10
      · subst hlf
        apply process_lineFeed (hstep none)
        simp [CsvParser.needsContinuation, h.recordDone, CsvParser.pushByte, hstate]
      · exact process_cons hlf (fun _ _ _ => hstep _) (fun _ => hstep _) hpush.recordDone

/-- A parser at the start of a field. -/
structure AtField (p : CsvParser) : Prop where
  reading : Reading { p with sawNonEolByte := true }
  state : p.state = .fieldStart
  field : p.field = []

/-- An encoder and a parser with the same controls and no escape. -/
structure Agree (e : CsvEncoder) (p : CsvParser) : Prop where
  separator : e.separator = p.separator
  enclosure : e.enclosure = p.enclosure
  escape : e.escape = none

theorem noteByte_eq (hcr : byte ≠ 13) (hlf : byte ≠ 10) (p : CsvParser) :
    p.noteByte byte = { p with sawNonEolByte := true } := by
  unfold CsvParser.noteByte
  simp [hcr, hlf]

theorem AtField.step (h : AtField p) (hcr : byte ≠ 13) (hlf : byte ≠ 10) (next : Option UInt8) :
    p.pushSegmentByte byte next =
      ({ p with sawNonEolByte := true } : CsvParser).pushSegmentByte byte next := by
  unfold CsvParser.pushSegmentByte
  rw [noteByte_eq hcr hlf, h.reading.noteByte]

theorem plain_of_not_quotes {e : CsvEncoder} (he : Agree e p) (h : e.quotes field = false) :
    ∀ byte ∈ field, byte ≠ p.separator ∧ byte ≠ p.enclosure ∧ byte ≠ 10 ∧ byte ≠ 13 ∧
      byte ≠ 9 ∧ byte ≠ 32 := by
  intro byte hbyte
  rw [CsvEncoder.quotes, List.any_eq_false] at h
  have := h byte hbyte
  simp only [he.separator, he.enclosure, he.escape, Bool.or_eq_true, decide_eq_true_eq,
    reduceCtorEq, or_false, not_or] at this
  obtain ⟨⟨⟨⟨⟨hsep, henc⟩, hlf⟩, hcr⟩, htab⟩, hblank⟩ := this
  exact ⟨hsep, henc, hlf, hcr, htab, hblank⟩

/-- A field that goes out as it is. -/
theorem process_plain (h : AtField p)
    (hplain : ∀ byte ∈ field, byte ≠ p.separator ∧ byte ≠ p.enclosure ∧ byte ≠ 10 ∧ byte ≠ 13 ∧
      byte ≠ 9 ∧ byte ≠ 32) (hne : field ≠ []) (rest : List UInt8) :
    process p (field ++ rest) =
      process { p with state := .unquoted, field := field, sawNonEolByte := true } rest := by
  obtain ⟨first, field, rfl⟩ := List.exists_cons_of_ne_nil hne
  obtain ⟨hsep, henc, hlf, hcr, htab, hblank⟩ := hplain first (by simp)
  have hstep : ∀ next, p.pushSegmentByte first next =
      ({ p with state := .unquoted, field := [first], sawNonEolByte := true }, false) := by
    intro next
    rw [h.step hcr hlf]
    unfold CsvParser.pushSegmentByte
    rw [h.reading.noteByte]
    have hpending : p.pendingEscape = false := h.reading.pendingEscape
    simp [hpending, h.state, endsRecord_of_ne hlf, hsep, henc, htab, hblank, CsvParser.pushByte,
      h.field]
  have hreading := h.reading.withField .unquoted [first]
  rw [List.cons_append, process_cons hlf (fun _ _ _ => hstep _) (fun _ => hstep _)
    hreading.recordDone, process_unquoted hreading rfl fun byte hbyte => ?_]
  · rfl
  · obtain ⟨hsep, -, hlf, -⟩ := hplain byte (by simp [hbyte])
    exact ⟨hsep, hlf⟩

/-- A field between two enclosures. -/
theorem process_quoted (h : AtField p) {e : CsvEncoder} (he : Agree e p)
    (hcr : p.enclosure ≠ 13) (hnext : next ≠ p.enclosure) (field rest : List UInt8) :
    process p ([p.enclosure] ++ e.enclosedBytes false field ++ [p.enclosure] ++ next :: rest) =
      process { p with state := .afterQuote, field := field, sawNonEolByte := true }
        (next :: rest) := by
  have hlf : p.enclosure ≠ 10 := h.reading.enclosure_ne_lf
  have hstep : ∀ after, p.pushSegmentByte p.enclosure after =
      ({ p with state := .quoted, field := [], sawNonEolByte := true }, false) := by
    intro after
    rw [h.step hcr hlf]
    unfold CsvParser.pushSegmentByte
    rw [h.reading.noteByte]
    have hpending : p.pendingEscape = false := h.reading.pendingEscape
    simp [hpending, h.state, endsRecord_of_ne hlf]
  have hreading := h.reading.withField .quoted []
  have henclosed := process_enclosed hreading rfl he.enclosure he.escape hnext field rest
  have htext : [p.enclosure] ++ e.enclosedBytes false field ++ [p.enclosure] ++ next :: rest =
      p.enclosure :: (e.enclosedBytes false field ++ p.enclosure :: next :: rest) := by
    simp
  rw [htext, process_cons hlf (fun _ _ _ => hstep _) (fun _ => hstep _) hreading.recordDone]
  exact henclosed

/-- A parser behind the last byte of a field. -/
structure Behind (p : CsvParser) (content : List UInt8) (q : CsvParser) : Prop where
  separator : q.separator = p.separator
  enclosure : q.enclosure = p.enclosure
  reading : Reading { q with sawNonEolByte := true }
  state : q.state ≠ .quoted
  field : q.field = content
  fields : q.fields = p.fields
  sawNonEolByte : content ≠ [] ∨ p.sawNonEolByte = true → q.sawNonEolByte = true

theorem AtField.behind (h : AtField p) {after : CsvState} (hafter : after ≠ .quoted)
    (content : List UInt8) :
    Behind p content { p with state := after, field := content, sawNonEolByte := true } :=
  ⟨rfl, rfl, h.reading.withField after content, hafter, rfl, rfl, fun _ => rfl⟩

theorem process_encodeField (h : AtField p) {e : CsvEncoder} (he : Agree e p)
    (hcr : p.enclosure ≠ 13) (hnext : next ≠ p.enclosure) (content rest : List UInt8) :
    ∃ q, Behind p content q ∧
      process p (e.encodeField content ++ next :: rest) = process q (next :: rest) := by
  unfold CsvEncoder.encodeField
  cases hquotes : e.quotes content with
  | true =>
    rw [if_pos rfl, he.enclosure]
    exact ⟨_, h.behind (by decide) content, process_quoted h he hcr hnext content rest⟩
  | false =>
    rw [if_neg (by simp)]
    by_cases hne : content = []
    · subst hne
      refine ⟨p, ⟨rfl, rfl, h.reading, by simp [h.state], h.field, rfl, fun hsaw => ?_⟩, rfl⟩
      exact hsaw.resolve_left fun hf => hf rfl
    · exact ⟨_, h.behind (by decide) content,
        process_plain h (plain_of_not_quotes he hquotes) hne _⟩

/-- The separator closes a field. -/
theorem process_separator {q : CsvParser} (h : Reading { q with sawNonEolByte := true })
    (hcr : q.separator ≠ 13) (hstate : q.state ≠ .quoted) (rest : List UInt8) :
    process q (q.separator :: rest) =
      process { q with
        state := .fieldStart, field := [], fields := q.fields ++ [some q.field],
        pendingEscape := false, sawNonEolByte := true } rest := by
  have hlf : q.separator ≠ 10 := h.separator_ne_lf
  have hdistinct : q.separator ≠ q.enclosure := h.distinct
  have hstep : ∀ next, q.pushSegmentByte q.separator next = ({ q with
      state := .fieldStart, field := [], fields := q.fields ++ [some q.field],
      pendingEscape := false, sawNonEolByte := true }, false) := by
    intro next
    have hescape : q.escape = none := h.escape
    have hpending : q.pendingEscape = false := h.pendingEscape
    unfold CsvParser.pushSegmentByte
    rw [noteByte_eq hcr hlf]
    cases hq : q.state with
    | quoted => exact absurd hq hstate
    | _ => simp [hpending, endsRecord_of_ne hlf, hdistinct, CsvParser.finishField, hescape]
  exact process_cons hlf (fun _ _ _ => hstep _) (fun _ => hstep _) h.recordDone

/-- The line feed closes the record. -/
theorem process_recordEnd_fields {q : CsvParser} (h : Reading { q with sawNonEolByte := true })
    (hstate : q.state ≠ .quoted) (hsaw : q.sawNonEolByte = true ∨ q.fields ≠ []) :
    (process q [10]).recordDone = true ∧
      (process q [10]).fields = q.fields ++ [some (CsvParser.stripCarriageReturn q.field)] := by
  have hescape : q.escape = none := h.escape
  have hpending : q.pendingEscape = false := h.pendingEscape
  have hinput : q.stringInput = false := h.stringInput
  have hnote : q.noteByte 10 = q := by simp [CsvParser.noteByte]
  have hends : q.endsRecord 10 none = true := by simp [CsvParser.endsRecord, hinput]
  have hstep : q.pushSegmentByte 10 none = (q.finishRecord true, false) := by
    unfold CsvParser.pushSegmentByte
    rw [hnote]
    cases hq : q.state with
    | quoted => exact absurd hq hstate
    | _ => simp [hq, hpending, hends, CsvParser.finishRecordAtLineEnd]
  have hrecord : q.finishRecord true = { q.finishField true with recordDone := true } := by
    rw [CsvParser.finishRecord, if_neg]
    simpa [or_iff_not_imp_left] using hsaw
  rw [process_recordEnd hstep (by rw [hrecord]), hrecord]
  exact ⟨rfl, by simp [CsvParser.finishField, hescape]⟩

end Fields

section Records

/-- The encoded fields behind the first one, each with its separator. -/
def encodeTail (e : CsvEncoder) (fields : List (List UInt8)) : List UInt8 :=
  fields.flatMap fun field => e.separator :: e.encodeField field

theorem enclosedBytes_pushField (e : CsvEncoder) (field bytes : List UInt8) (escaped : Bool) :
    (e.pushField field).enclosedBytes escaped bytes = e.enclosedBytes escaped bytes := by
  induction bytes generalizing escaped with
  | nil => rfl
  | cons byte bytes ih =>
    simp only [CsvEncoder.enclosedBytes, ih]
    rfl

theorem encodeTail_pushField (e : CsvEncoder) (field : List UInt8) (fields : List (List UInt8)) :
    encodeTail (e.pushField field) fields = encodeTail e fields := by
  have hfield : ∀ content, (e.pushField field).encodeField content = e.encodeField content := by
    intro content
    unfold CsvEncoder.encodeField
    rw [enclosedBytes_pushField]
    rfl
  simp only [encodeTail, hfield]
  rfl

theorem foldl_pushField (e : CsvEncoder) (he : e.firstField = false) (fields : List (List UInt8)) :
    (fields.foldl CsvEncoder.pushField e).bytes = e.bytes ++ encodeTail e fields := by
  induction fields generalizing e with
  | nil => simp [encodeTail]
  | cons field fields ih =>
    rw [List.foldl_cons, ih (e.pushField field) rfl, encodeTail_pushField]
    simp [CsvEncoder.pushField, he, encodeTail]

theorem encodeRecord_cons (separator enclosure : UInt8) (escape : Option UInt8)
    (field : List UInt8) (fields : List (List UInt8)) (eol : List UInt8) :
    encodeRecord separator enclosure escape (field :: fields) eol =
      (CsvEncoder.new separator enclosure escape).encodeField field ++
        encodeTail (CsvEncoder.new separator enclosure escape) fields ++ eol := by
  unfold encodeRecord CsvEncoder.finish
  rw [List.foldl_cons, foldl_pushField _ rfl, encodeTail_pushField]
  rfl

/-- The fields as the parser gives them back: the last one loses a carriage return at its
end. -/
def stripLast : List (List UInt8) → List (List UInt8)
  | [] => []
  | [field] => [CsvParser.stripCarriageReturn field]
  | field :: fields => field :: stripLast fields

variable {p : CsvParser}

/-- A record is read back field by field, whatever fields the parser holds already. -/
theorem process_record (h : AtField p) {e : CsvEncoder} (he : Agree e p)
    (hsep : p.separator ≠ 13) (henc : p.enclosure ≠ 13) (field : List UInt8)
    (fields : List (List UInt8))
    (hsaw : p.sawNonEolByte = true ∨ field ≠ [] ∨ fields ≠ []) :
    (process p (e.encodeField field ++ encodeTail e fields ++ [10])).recordDone = true ∧
      (process p (e.encodeField field ++ encodeTail e fields ++ [10])).fields =
        p.fields ++ (stripLast (field :: fields)).map some := by
  induction fields generalizing p field with
  | nil =>
    obtain ⟨q, hq, hrun⟩ := process_encodeField h he henc h.reading.enclosure_ne_lf.symm field []
    have hnotes : q.sawNonEolByte = true := by
      apply hq.sawNonEolByte
      rcases hsaw with hsaw | hne | hne
      · exact .inr hsaw
      · exact .inl hne
      · exact absurd rfl hne
    have htext : e.encodeField field ++ encodeTail e [] ++ [10] = e.encodeField field ++ [10] := by
      simp [encodeTail]
    obtain ⟨hdone, hfields⟩ := process_recordEnd_fields hq.reading hq.state (.inl hnotes)
    rw [htext, hrun]
    exact ⟨hdone, by rw [hfields, hq.field, hq.fields]; rfl⟩
  | cons next fields ih =>
    have hdistinct : p.separator ≠ p.enclosure := h.reading.distinct
    obtain ⟨q, hq, hrun⟩ := process_encodeField h he henc hdistinct field
      (e.encodeField next ++ encodeTail e fields ++ [10])
    have htext : e.encodeField field ++ encodeTail e (next :: fields) ++ [10] =
        e.encodeField field ++
          p.separator :: (e.encodeField next ++ encodeTail e fields ++ [10]) := by
      simp [encodeTail, he.separator]
    have hclose := process_separator hq.reading (by rw [hq.separator]; exact hsep) hq.state
      (e.encodeField next ++ encodeTail e fields ++ [10])
    rw [htext, hrun, ← hq.separator, hclose]
    have hat : AtField { q with
        state := .fieldStart, field := [], fields := q.fields ++ [some q.field],
        pendingEscape := false, sawNonEolByte := true } :=
      ⟨⟨hq.reading.distinct, hq.reading.separator_ne_lf, hq.reading.enclosure_ne_lf,
        hq.reading.escape, rfl, hq.reading.recordDone, hq.reading.stringInput, rfl⟩, rfl, rfl⟩
    have hagree : Agree e { q with
        state := .fieldStart, field := [], fields := q.fields ++ [some q.field],
        pendingEscape := false, sawNonEolByte := true } :=
      ⟨he.separator.trans hq.separator.symm, he.enclosure.trans hq.enclosure.symm, he.escape⟩
    obtain ⟨hdone, hfields⟩ := ih hat hagree (by rw [← hq.separator] at hsep; exact hsep)
      (by rw [← hq.enclosure] at henc; exact henc) next (.inl rfl)
    refine ⟨hdone, ?_⟩
    rw [hfields, hq.field, hq.fields]
    simp [stripLast]

theorem readCsvRecord_eq_process (hne : text ≠ []) (separator enclosure : UInt8)
    (escape : Option UInt8) (eof : Bool) :
    readCsvRecord separator enclosure escape eof text =
      some ((process (CsvParser.new separator enclosure escape) text).finish eof) := by
  obtain ⟨byte, rest, rfl⟩ := List.exists_cons_of_ne_nil hne
  have hlines : physicalLines (byte :: rest) ≠ [] := by
    unfold physicalLines
    split
    · exact List.cons_ne_nil _ _
    · cases physicalLines rest <;> exact List.cons_ne_nil _ _
  obtain ⟨line, lines, hlines⟩ := List.exists_cons_of_ne_nil hlines
  simp only [readCsvRecord, process, hlines]

theorem atField_new (hdistinct : separator ≠ enclosure) (hsep : separator ≠ 10)
    (henc : enclosure ≠ 10) : AtField (CsvParser.new separator enclosure none) :=
  ⟨⟨hdistinct, hsep, henc, rfl, rfl, rfl, rfl, rfl⟩, rfl, rfl⟩

/-- What the parser makes of an encoded record: every field comes back but for a carriage
return at the end of the last one. -/
theorem readCsvRecord_encodeRecord (hdistinct : separator ≠ enclosure)
    (hsep : separator ≠ 10 ∧ separator ≠ 13) (henc : enclosure ≠ 10 ∧ enclosure ≠ 13)
    {fields : List (List UInt8)} (hne : fields ≠ []) (hblank : fields ≠ [[]]) (eof : Bool) :
    readCsvRecord separator enclosure none eof (encodeRecord separator enclosure none fields [10]) =
      some ((stripLast fields).map some) := by
  obtain ⟨field, fields, rfl⟩ := List.exists_cons_of_ne_nil hne
  have hsaw : field ≠ [] ∨ fields ≠ [] := by
    by_contra hboth
    push Not at hboth
    rw [hboth.1, hboth.2] at hblank
    exact hblank rfl
  obtain ⟨hdone, hfields⟩ := process_record (atField_new hdistinct hsep.1 henc.1)
    (show Agree (CsvEncoder.new separator enclosure none) _ from ⟨rfl, rfl, rfl⟩) hsep.2 henc.2
    field fields (.inr hsaw)
  rw [encodeRecord_cons, readCsvRecord_eq_process (by simp), CsvParser.finish, if_pos hdone,
    hfields]
  rfl

/-- Whether the last field ends in a carriage return. -/
def endsInCarriageReturn (fields : List (List UInt8)) : Prop :=
  ∃ field, fields.getLast? = some field ∧ field.getLast? = some 13

theorem stripCarriageReturn_eq_iff (field : List UInt8) :
    CsvParser.stripCarriageReturn field = field ↔ field.getLast? ≠ some 13 := by
  unfold CsvParser.stripCarriageReturn
  split
  · rename_i hlast
    refine iff_of_false (fun heq => ?_) fun hne => hne hlast
    have hlength := congrArg List.length heq
    have hpos : field ≠ [] := by
      rintro rfl
      cases hlast
    have := List.length_pos_of_ne_nil hpos
    rw [List.length_dropLast] at hlength
    omega
  · rename_i hlast
    exact iff_of_true rfl hlast

theorem stripLast_eq_iff (fields : List (List UInt8)) :
    stripLast fields = fields ↔ ¬ endsInCarriageReturn fields := by
  induction fields with
  | nil => exact iff_of_true rfl nofun
  | cons field fields ih =>
    cases fields with
    | nil =>
      rw [stripLast, List.cons.injEq, and_iff_left rfl, stripCarriageReturn_eq_iff]
      simp [endsInCarriageReturn]
    | cons next fields =>
      have hlast : endsInCarriageReturn (field :: next :: fields) ↔
          endsInCarriageReturn (next :: fields) := by
        simp [endsInCarriageReturn, List.getLast?_cons_cons]
      rw [hlast, ← ih, stripLast, List.cons.injEq, and_iff_right rfl]
      nofun

/-- An encoded record is read back exactly when its last field does not end in a carriage
return. -/
theorem csv_roundTrip_iff (separator enclosure : UInt8) (hdistinct : separator ≠ enclosure)
    (hsep : separator ≠ 10 ∧ separator ≠ 13) (henc : enclosure ≠ 10 ∧ enclosure ≠ 13)
    (fields : List (List UInt8)) (hne : fields ≠ []) (hblank : fields ≠ [[]]) (eof : Bool) :
    readCsvRecord separator enclosure none eof (encodeRecord separator enclosure none fields [10]) =
        some (fields.map some) ↔
      ¬ endsInCarriageReturn fields := by
  rw [readCsvRecord_encodeRecord hdistinct hsep henc hne hblank, Option.some_inj,
    ← stripLast_eq_iff]
  exact (List.map_injective_iff.mpr (Option.some_injective _)).eq_iff

theorem csv_roundTrip_iff_quoted :
    readCsvRecord 44 34 none true (encodeRecord 44 34 none [[34, 10], [], [13, 32]] [10]) =
      some [some [34, 10], some [], some [13, 32]] :=
  (csv_roundTrip_iff 44 34 (by decide) (by decide) (by decide) [[34, 10], [], [13, 32]]
    (by decide) (by decide) true).mpr (by rintro ⟨field, hfield, hlast⟩; cases hfield; cases hlast)

/-- A last field that ends in a carriage return loses it, although it stands between
enclosures. -/
theorem csv_roundTrip_drops_carriageReturn :
    readCsvRecord 44 34 none true (encodeRecord 44 34 none [[97], [98, 13]] [10]) =
        some [some [97], some [98]] ∧
      readCsvRecord 44 34 none true (encodeRecord 44 34 none [[97], [98, 13]] [10]) ≠
        some ([[97], [98, 13]].map some) := by
  decide +kernel

end Records

end Rphp.Codec.Csv
