import Rphp.Stdlib.Output.Buffers

namespace Rphp.Stdlib.Output
open Rphp.Lib
set_option autoImplicit true

/-! Where no handler transforms anything, the buffers are marks in one text. -/

section Marks

/-- Where a buffer begins. -/
structure Mark (η : Type) where
  position : Nat
  handler : Option η
  chunkSize : Nat
  flags : Int64
  deriving DecidableEq, Repr

def Mark.Full (mark : Mark η) (length : Nat) : Prop :=
  mark.chunkSize ≠ 0 ∧ mark.position + mark.chunkSize ≤ length

instance instDecidableFull (mark : Mark η) (length : Nat) : Decidable (mark.Full length) :=
  inferInstanceAs (Decidable (_ ∧ _))

/-- Full buffers begin again at the end of the text, up to the first that is not full. -/
def settle (length : Nat) : List (Mark η) → List (Mark η)
  | [] => []
  | mark :: marks =>
    if mark.Full length then { mark with position := length } :: settle length marks
    else mark :: marks

/-- All that was printed and not discarded; the innermost mark comes first. -/
structure Text (η : Type) where
  text : List UInt8
  marks : List (Mark η)
  deriving DecidableEq, Repr

def Text.start : Text η := ⟨[], []⟩

def Text.echo (t : Text η) (data : List UInt8) : Text η :=
  ⟨t.text ++ data, settle (t.text ++ data).length t.marks⟩

variable (script : Script η ε σ)

namespace Text

def notice (t : Text η) (site : CallSite) (message : String) : Text η :=
  match script.shown site message with
  | some diagnostic => t.echo diagnostic
  | none => t

def denial (t : Text η) (site : CallSite) (function action : String) : Text η :=
  match t.marks with
  | [] => t
  | mark :: marks =>
    let name := bufferName script mark.handler
    let level := marks.length
    t.notice script site s!"{function}(): Failed to {action} buffer of {name} ({level})"

def contents (t : Text η) : Option (List UInt8) :=
  t.marks.head?.map fun mark => t.text.drop mark.position

/-- Discarding cuts the text at the mark; flushing moves the mark, and nothing else. -/
def apply (t : Text η) (operation : OutputBufferOperation) (site : CallSite) :
    Text η × OutputAnswer ε :=
  match t.marks with
  | [] =>
    let function := operation.name
    let action := operation.missingAction
    let missing := operation.missing
    (if operation = .getClean then t
      else
        t.notice script site s!"{function}(): Failed to {action} buffer. No buffer to {missing}",
      .flag false)
  | mark :: marks =>
    let contents := t.text.drop mark.position
    if mark.flags &&& operation.capability = 0 then
      let t := t.denial script site operation.name operation.deniedAction
      if operation.returnsContents then
        (t.denial script site operation.name "delete", .bytes contents)
      else (t, .flag false)
    else
      let text := if operation.discards then t.text.take mark.position else t.text
      (⟨text, if operation.removes then marks
          else { mark with position := text.length } :: marks⟩,
        if operation.returnsContents then .bytes contents else .flag true)

def act (t : Text η) : OutputCall η → Text η × OutputAnswer ε
  | .echo data _ => (t.echo data, .done)
  | .start handler chunkSize flags =>
    ({ t with marks := ⟨t.text.length, handler, chunkSize.toNat, flags⟩ :: t.marks }, .flag true)
  | .operation operation site => t.apply script operation site
  | .getContents =>
    (t, (t.contents.map .bytes).getD (.flag false))
  | .getLength =>
    (t, (t.contents.map fun contents => .count contents.length).getD (.flag false))
  | .getLevel => (t, .count t.marks.length)

end Text

end Marks

section Coupling

variable (script : Script η ε σ)

/-- The handler prints nothing, and returns what it is given or declines. -/
def Transparent (handler : η) : Prop :=
  ∀ buffers data mode world, (script.call handler buffers data mode world).printed = [] ∧
    ((script.call handler buffers data mode world).reply = .declined ∨
      (script.call handler buffers data mode world).reply = .bytes data)

structure MarkedBy (buffer : OutputBuffer η) (mark : Mark η) (text : List UInt8) : Prop where
  position : mark.position ≤ text.length
  data : buffer.data = text.drop mark.position
  enabled : buffer.disabled = false
  handler : buffer.handler = mark.handler
  chunkSize : buffer.chunkSize = mark.chunkSize
  flags : buffer.flags = mark.flags
  transparent : ∀ handler, mark.handler = some handler → Transparent script handler

def Couples : List (OutputBuffer η) → List (Mark η) → List UInt8 → List UInt8 → Prop
  | [], [], output, text => output = text
  | buffer :: buffers, mark :: marks, output, text =>
    MarkedBy script buffer mark text ∧ Couples buffers marks output (text.take mark.position)
  | _, _, _, _ => False

structure Coupled (g : Globals η ε σ) (t : Text η) : Prop where
  quiet : g.exception = none
  couples : Couples script g.outputBuffers t.marks g.output t.text

variable {script}

theorem Couples.level : ∀ {buffers : List (OutputBuffer η)} {marks output text},
    Couples script buffers marks output text → buffers.length = marks.length := by
  intro buffers
  induction buffers with
  | nil =>
    intro marks output text h
    cases marks with
    | nil => rfl
    | cons => cases h
  | cons buffer buffers ih =>
    intro marks output text h
    cases marks with
    | nil => cases h
    | cons mark marks => rw [List.length_cons, List.length_cons, ih h.2]

theorem MarkedBy.full (h : MarkedBy script buffer mark text) :
    buffer.chunkReady = true ↔ mark.Full text.length := by
  have hposition := h.position
  rw [OutputBuffer.chunkReady, h.enabled, h.chunkSize, h.data, Mark.Full, List.length_drop]
  simp only [Bool.not_false, Bool.true_and, Bool.and_eq_true, bne_iff_ne, decide_eq_true_eq]
  omega

theorem MarkedBy.append (h : MarkedBy script buffer mark text) (data : List UInt8) :
    MarkedBy script { buffer with data := buffer.data ++ data } mark (text ++ data) where
  position := by
    have hposition := h.position
    rw [List.length_append]
    omega
  data := by rw [List.drop_append_of_le_length h.position, h.data]
  enabled := h.enabled
  handler := h.handler
  chunkSize := h.chunkSize
  flags := h.flags
  transparent := h.transparent

/-- An emptied buffer begins at the end of the text. -/
theorem MarkedBy.emptied (h : MarkedBy script buffer mark text) (text' : List UInt8)
    (started : Bool) :
    MarkedBy script { buffer with data := [], started := started }
      { mark with position := text'.length } text' where
  position := Nat.le_refl _
  data := by rw [List.drop_length]
  enabled := h.enabled
  handler := h.handler
  chunkSize := h.chunkSize
  flags := h.flags
  transparent := h.transparent

theorem writeBuffers_enabled (h : buffer.disabled = false) (buffers : List (OutputBuffer η))
    (data : List UInt8) : writeBuffers (buffer :: buffers) data =
      some ({ buffer with data := buffer.data ++ data } :: buffers) := by
  rw [writeBuffers, if_neg (by rw [h]; exact Bool.false_ne_true)]

theorem Globals.writeOutput_nil (g : Globals η ε σ) (h : Couples script g.outputBuffers marks o t) :
    g.writeOutput [] = g := by
  obtain ⟨buffers, output, exception, world⟩ := g
  cases buffers with
  | nil => simp only [writeOutput, writeBuffers, List.append_nil]
  | cons buffer buffers =>
    cases marks with
    | nil => cases h
    | cons mark marks =>
      simp only [writeOutput, writeBuffers_enabled h.1.enabled, withBuffers, List.append_nil]

theorem Coupled.writeOutput (h : Coupled script g t) (data : List UInt8) :
    Coupled script (g.writeOutput data) { t with text := t.text ++ data } := by
  obtain ⟨buffers, output, exception, world⟩ := g
  obtain ⟨text, marks⟩ := t
  obtain ⟨hquiet, hcouples⟩ := h
  cases buffers with
  | nil =>
    cases marks with
    | cons => cases hcouples
    | nil =>
      constructor
      · exact hquiet
      · exact congrArg (· ++ data) hcouples
  | cons buffer buffers =>
    cases marks with
    | nil => cases hcouples
    | cons mark marks =>
      obtain ⟨hmark, hrest⟩ := hcouples
      simp only [Globals.writeOutput, writeBuffers_enabled hmark.enabled, Globals.withBuffers]
      constructor
      · exact hquiet
      · constructor
        · exact hmark.append data
        · rw [List.take_append_of_le_length hmark.position]
          exact hrest

/-- Detaching the innermost buffer leaves the text before its mark. -/
theorem Coupled.detach (h : Coupled script g ⟨text, mark :: marks⟩)
    (hg : g.outputBuffers = buffer :: buffers) :
    MarkedBy script buffer mark text ∧
      Coupled script (g.withBuffers buffers) ⟨text.take mark.position, marks⟩ := by
  have hcouples := h.couples
  rw [hg] at hcouples
  constructor
  · exact hcouples.1
  · exact ⟨h.quiet, hcouples.2⟩

theorem Coupled.restore (h : Coupled script g ⟨text.take mark.position, marks⟩)
    (hmark : MarkedBy script buffer mark text) :
    Coupled script (g.restore buffer) ⟨text, mark :: marks⟩ where
  quiet := h.quiet
  couples := ⟨hmark, h.couples⟩

theorem Coupled.withWorld (h : Coupled script g t) (world : σ) :
    Coupled script { g with world := world } t where
  quiet := h.quiet
  couples := h.couples

theorem transform_transparent (h : Coupled script g t) (hmark : MarkedBy script buffer mark text)
    (operation : Int64) (caller : Option CallSite) :
    ∃ world, transform script g buffer operation caller =
      ⟨{ g with world := world }, { buffer with data := [], started := true }, buffer.data,
        false⟩ := by
  rw [transform, if_neg (by rw [hmark.enabled]; exact Bool.false_ne_true)]
  generalize (operation ||| if buffer.started = true then 0 else handlerStart) = mode
  simp only
  split
  · exact ⟨g.world, rfl⟩
  · rename_i handler hhandler
    have htransparent := hmark.transparent handler (hmark.handler.symm.trans hhandler)
    obtain ⟨hprinted, hreply⟩ := htransparent g.outputBuffers buffer.data mode g.world
    split
    · refine ⟨(script.call handler g.outputBuffers buffer.data mode g.world).world, ?_⟩
      rw [hprinted, Globals.writeOutput_nil _ (h.withWorld _).couples]
      cases hreply with
      | inl hdeclined => rw [hdeclined]
      | inr hbytes => rw [hbytes]
    · exact ⟨g.world, rfl⟩

end Coupling

section Refinement

variable {script : Script η ε σ}

/-- A full buffer hands its text to the one around it. -/
theorem Coupled.handOver (h : Coupled script g ⟨text, mark :: marks⟩)
    (hg : g.outputBuffers = buffer :: buffers) (operation : Int64)
    (caller : Option CallSite) :
    ∃ world, transform script (g.withBuffers buffers) buffer operation caller =
        ⟨{ g.withBuffers buffers with world := world },
          { buffer with data := [], started := true }, buffer.data, false⟩ ∧
      Coupled script { g.withBuffers buffers with world := world }
        ⟨text.take mark.position, marks⟩ ∧
      Coupled script (({ g.withBuffers buffers with world := world }).writeOutput buffer.data)
        ⟨text, marks⟩ := by
  obtain ⟨hmark, hrest⟩ := h.detach hg
  obtain ⟨world, htransform⟩ := transform_transparent hrest hmark operation caller
  refine ⟨world, htransform, hrest.withWorld world, ?_⟩
  have hwritten := (hrest.withWorld world).writeOutput buffer.data
  rw [hmark.data, List.take_append_drop] at hwritten
  rw [hmark.data]
  exact hwritten

theorem Coupled.flushReady (caller : Option CallSite) : ∀ {g : Globals η ε σ} {t : Text η},
    Coupled script g t →
      Coupled script (flushReady script caller g) ⟨t.text, settle t.text.length t.marks⟩ := by
  intro g t
  obtain ⟨text, marks⟩ := t
  induction marks generalizing g with
  | nil =>
    intro h
    have hcouples := h.couples
    have hlevel := hcouples.level
    rw [List.length_nil, List.length_eq_zero_iff] at hlevel
    rw [Output.flushReady]
    split
    · exact h
    · rename_i hg
      rw [hlevel] at hg
      cases hg
  | cons mark marks ih =>
    intro h
    rw [Output.flushReady]
    split
    · rename_i hg
      have hlevel := h.couples.level
      rw [hg] at hlevel
      cases hlevel
    · rename_i buffer buffers hg
      obtain ⟨hmark, _⟩ := h.detach hg
      rw [settle]
      split
      · rename_i hready
        rw [if_pos (hmark.full.mp hready)]
        obtain ⟨world, htransform, _, hwritten⟩ := h.handOver hg 0 caller
        rw [htransform]
        simp only
        have hquiet := h.quiet
        rw [if_neg (by simp only [Globals.withBuffers, hquiet, Option.isSome_none,
          Bool.false_eq_true, not_false_iff])]
        have hflushed := ih hwritten
        apply Coupled.restore
        · rw [List.take_length]
          exact hflushed
        · exact hmark.emptied text true
      · rename_i hready
        rw [if_neg (fun hfull => hready (hmark.full.mpr hfull))]
        exact h

theorem Coupled.echo (h : Coupled script g t) (data : List UInt8) (caller : Option CallSite) :
    Coupled script (writePhpOutput script g data caller) (t.echo data) :=
  (h.writeOutput data).flushReady caller

theorem Coupled.notice (h : Coupled script g t) (site : CallSite) (message : String) :
    Coupled script (reportNotice script g site message) (t.notice script site message) := by
  rw [reportNotice, Text.notice]
  cases script.shown site message with
  | none => exact h
  | some diagnostic => exact h.echo diagnostic (some site)

theorem Coupled.denial (h : Coupled script g t) (site : CallSite) (function action : String) :
    Coupled script (reportDenial script g site function action)
      (t.denial script site function action) := by
  obtain ⟨text, marks⟩ := t
  rw [reportDenial, Text.denial]
  have hlevel := h.couples.level
  cases hg : g.outputBuffers with
  | nil =>
    cases marks with
    | nil => exact h
    | cons =>
      rw [hg] at hlevel
      cases hlevel
  | cons buffer buffers =>
    cases marks with
    | nil =>
      rw [hg] at hlevel
      cases hlevel
    | cons mark marks =>
      obtain ⟨hmark, hrest⟩ := h.detach hg
      have hdepth : buffers.length = marks.length := hrest.couples.level
      simp only [hmark.handler, hdepth]
      exact h.notice site _

theorem Coupled.answer (h : Coupled script g t) (reply : OutputAnswer ε) :
    answer g reply = reply := by
  rw [Output.answer, h.quiet]

theorem Coupled.discard {mark : Mark η}
    (hrest : Coupled script g ⟨text.take mark.position, marks⟩)
    (hwritten : Coupled script (g.writeOutput data) ⟨text, marks⟩) (discards : Bool) :
    Coupled script (if discards then g else g.writeOutput data)
      ⟨if discards then text.take mark.position else text, marks⟩ := by
  cases discards with
  | true => exact hrest
  | false => exact hwritten

theorem Coupled.keep (h : Coupled script g ⟨text', marks⟩)
    (hmark : MarkedBy script buffer mark text) (removes : Bool) :
    Coupled script (if removes then g else g.restore { buffer with data := [], started := true })
      ⟨text', if removes then marks else { mark with position := text'.length } :: marks⟩ := by
  cases removes with
  | true => exact h
  | false =>
    apply Coupled.restore
    · rw [List.take_length]
      exact h
    · exact hmark.emptied text' true

theorem Coupled.contents (h : Coupled script g t) : g.outputBufferContents = t.contents := by
  obtain ⟨text, marks⟩ := t
  have hlevel := h.couples.level
  rw [Globals.outputBufferContents, Text.contents]
  cases hg : g.outputBuffers with
  | nil =>
    cases marks with
    | nil => rfl
    | cons =>
      rw [hg] at hlevel
      cases hlevel
  | cons buffer buffers =>
    cases marks with
    | nil =>
      rw [hg] at hlevel
      cases hlevel
    | cons mark marks =>
      obtain ⟨hmark, _⟩ := h.detach hg
      exact congrArg some hmark.data

theorem Coupled.applyOperation (h : Coupled script g t) (operation : OutputBufferOperation)
    (site : CallSite) :
    Coupled script (applyOperation script g operation site).1
        (t.apply (ε := ε) script operation site).1 ∧
      (applyOperation script g operation site).2 = (t.apply script operation site).2 := by
  obtain ⟨text, marks⟩ := t
  have hlevel := h.couples.level
  rw [Output.applyOperation, Text.apply]
  cases hg : g.outputBuffers with
  | nil =>
    cases marks with
    | cons =>
      rw [hg] at hlevel
      cases hlevel
    | nil =>
      simp only
      split
      · exact ⟨h, h.answer _⟩
      · have hnotice := h.notice site
        exact ⟨hnotice _, (hnotice _).answer _⟩
  | cons buffer buffers =>
    cases marks with
    | nil =>
      rw [hg] at hlevel
      cases hlevel
    | cons mark marks =>
      obtain ⟨hmark, _⟩ := h.detach hg
      simp only [hmark.flags, hmark.data]
      split
      · have hdenied := h.denial site operation.name operation.deniedAction
        have htwice := hdenied.denial site operation.name "delete"
        simp only [hdenied.quiet, Option.isNone_none, Bool.and_true]
        split
        · exact ⟨htwice, htwice.answer _⟩
        · exact ⟨hdenied, hdenied.answer _⟩
      · obtain ⟨world, htransform, hrest, hwritten⟩ := h.handOver hg operation.phase (some site)
        simp only [htransform]
        have hleft := hrest.discard hwritten operation.discards
        have hkept := hleft.keep hmark operation.removes
        constructor
        · exact hkept
        · exact hkept.answer _

theorem Coupled.act (h : Coupled script g t) (call : OutputCall η)
    (hcall : ∀ handler, call.handler = some handler → Transparent script handler) :
    Coupled script (act script g call).1 (t.act (ε := ε) script call).1 ∧
      (act script g call).2 = (t.act script call).2 := by
  cases call with
  | echo data site =>
    have hecho := h.echo data (some site)
    constructor
    · exact ⟨rfl, hecho.couples⟩
    · exact hecho.answer _
  | start handler chunkSize flags =>
    constructor
    · apply Coupled.restore
      · rw [List.take_length]
        exact h
      · exact ⟨Nat.le_refl _, List.drop_length.symm, rfl, rfl, rfl, rfl, hcall⟩
    · rfl
  | operation operation site =>
    obtain ⟨happlied, hanswer⟩ := h.applyOperation operation site
    constructor
    · exact ⟨rfl, happlied.couples⟩
    · exact hanswer
  | getContents =>
    constructor
    · exact h
    · simp only [Output.act, Text.act, h.contents]
  | getLength =>
    constructor
    · exact h
    · simp only [Output.act, Text.act, h.contents]
  | getLevel =>
    constructor
    · exact h
    · exact congrArg OutputAnswer.count h.couples.level

/-- What is still buffered at the end is printed. -/
theorem Coupled.flushAll : ∀ {g : Globals η ε σ} {t : Text η}, Coupled script g t →
    (flushAllOutputBuffers script g).output = t.text := by
  intro g t
  obtain ⟨text, marks⟩ := t
  induction marks generalizing g text with
  | nil =>
    intro h
    have hlevel := h.couples.level
    rw [List.length_nil, List.length_eq_zero_iff] at hlevel
    have hcouples := h.couples
    rw [hlevel] at hcouples
    rw [flushAllOutputBuffers]
    split
    · exact hcouples
    · rename_i hg
      rw [hlevel] at hg
      cases hg
  | cons mark marks ih =>
    intro h
    rw [flushAllOutputBuffers]
    split
    · rename_i hg
      have hlevel := h.couples.level
      rw [hg] at hlevel
      cases hlevel
    · rename_i buffer buffers hg
      obtain ⟨world, htransform, _, hwritten⟩ := h.handOver hg handlerFinal none
      simp only [htransform, Bool.false_eq_true, if_false]
      exact ih text hwritten

theorem text_simulates (script : Script η ε σ) :
    Simulates (act script) (Text.act script)
      (fun _ call => ∀ handler, call.handler = some handler → Transparent script handler)
      (Coupled script) where
  answer := fun _ _ call h hcall => (h.act call hcall).2
  related := fun _ _ call h hcall => (h.act call hcall).1

/-- Buffers whose handlers transform nothing cannot be told from marks in one text, over any run;
and that text is what has been printed when the request is over. -/
theorem buffers_refine_text (script : Script η ε σ) (world : σ) (calls : List (OutputCall η))
    (hcalls : ∀ call ∈ calls, ∀ handler, call.handler = some handler →
      Transparent script handler) :
    observations (act script) (Globals.start world) calls =
        observations (Text.act script) Text.start calls ∧
      (request script world calls).output =
        (calls.foldl (fun t call => (Text.act (ε := ε) script t call).1) Text.start).text := by
  have hstart : Coupled script (Globals.start world : Globals η ε σ) Text.start := ⟨rfl, rfl⟩
  have hallowed := allowed_of_forall (act script) (Globals.start world) calls (fun _ => hcalls)
  constructor
  · exact (text_simulates script).observations hstart hallowed
  · exact ((text_simulates script).after hstart hallowed).flushAll

/-- One handler, that always declines. -/
def decliningScript : Script Unit Empty Unit :=
  ⟨fun _ _ _ => true, fun _ _ _ _ _ => ⟨[], .declined, ()⟩, fun _ => "decline",
    fun _ _ => none⟩

def site : CallSite := ⟨"index.php", 1, none⟩

/-- A chunk leaves by itself, and what is cleaned after it is lost. -/
def chunkedCalls : List (OutputCall Unit) :=
  [.start none 3 handlerDefaultFlags, .echo [1, 2] site, .start (some ()) 0 handlerDefaultFlags,
    .echo [3, 4] site, .operation .endFlush site, .echo [5] site, .echo [9] site,
    .operation .clean site, .echo [6] site]

theorem buffers_refine_text_chunked :
    observations (act decliningScript) (Globals.start ()) chunkedCalls =
        observations (Text.act decliningScript) Text.start chunkedCalls ∧
      (request decliningScript () chunkedCalls).output = [1, 2, 3, 4, 5, 6] := by
  obtain ⟨hanswers, houtput⟩ := buffers_refine_text decliningScript () chunkedCalls (by
    intro call _ handler _ buffers data mode world
    exact ⟨rfl, Or.inl rfl⟩)
  constructor
  · exact hanswers
  · exact houtput.trans (by decide)

end Refinement

end Rphp.Stdlib.Output
