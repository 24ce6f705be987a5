import Rphp.Lib.Run

namespace Rphp.Stdlib.Output
open Rphp.Lib
set_option autoImplicit true

/-! Output buffers: nested, each with a handler that may transform what leaves it. -/

section Buffers

def handlerStart : Int64 := 1
def handlerClean : Int64 := 2
def handlerFlush : Int64 := 4
def handlerFinal : Int64 := 8
def handlerCleanable : Int64 := 16
def handlerFlushable : Int64 := 32
def handlerRemovable : Int64 := 64

def handlerDefaultFlags : Int64 := handlerCleanable ||| handlerFlushable ||| handlerRemovable

structure OutputBuffer (η : Type) where
  data : List UInt8
  handler : Option η
  chunkSize : Nat
  flags : Int64
  started : Bool
  disabled : Bool
  deriving DecidableEq, Repr

/-- Where a call stands. -/
structure CallSite where
  file : String
  line : Nat
  lexicalClass : Option String
  deriving DecidableEq, Repr

/-- What a display handler returns. -/
inductive Reply (ε : Type)
  | bytes (bytes : List UInt8)
  | declined
  | threw (exception : ε)
  deriving DecidableEq, Repr

structure Called (ε σ : Type) where
  printed : List UInt8
  reply : Reply ε
  world : σ

/-- What the rest of the program does: handlers, whether one can be resolved for a caller, their
names, and what is displayed of a notice. A handler may look at the buffers around its own. -/
structure Script (η ε σ : Type) where
  resolves : η → Option CallSite → σ → Bool
  call : η → List (OutputBuffer η) → List UInt8 → Int64 → σ → Called ε σ
  displayName : η → String
  shown : CallSite → String → Option (List UInt8)

/-- The innermost buffer comes first. -/
structure Globals (η ε σ : Type) where
  outputBuffers : List (OutputBuffer η)
  output : List UInt8
  exception : Option ε
  world : σ
  deriving DecidableEq, Repr

def Globals.start (world : σ) : Globals η ε σ := ⟨[], [], none, world⟩

/-- A buffer whose handler threw is passed over. -/
def writeBuffers : List (OutputBuffer η) → List UInt8 → Option (List (OutputBuffer η))
  | [], _ => none
  | buffer :: buffers, data =>
    if buffer.disabled then (writeBuffers buffers data).map (buffer :: ·)
    else some ({ buffer with data := buffer.data ++ data } :: buffers)

namespace Globals

def withBuffers (g : Globals η ε σ) (buffers : List (OutputBuffer η)) : Globals η ε σ :=
  { g with outputBuffers := buffers }

def restore (g : Globals η ε σ) (buffer : OutputBuffer η) : Globals η ε σ :=
  { g with outputBuffers := buffer :: g.outputBuffers }

def writeOutput (g : Globals η ε σ) (data : List UInt8) : Globals η ε σ :=
  match writeBuffers g.outputBuffers data with
  | some buffers => g.withBuffers buffers
  | none => { g with output := g.output ++ data }

def outputBufferContents (g : Globals η ε σ) : Option (List UInt8) :=
  g.outputBuffers.head?.map (·.data)

end Globals

def OutputBuffer.chunkReady (buffer : OutputBuffer η) : Bool :=
  !buffer.disabled && buffer.chunkSize != 0 && buffer.chunkSize ≤ buffer.data.length

structure Transformed (η ε σ : Type) where
  globals : Globals η ε σ
  buffer : OutputBuffer η
  output : List UInt8
  threw : Bool

variable (script : Script η ε σ)

/-- The buffer is detached: what its handler prints goes to those around it. Nothing is called where
the handler cannot be resolved; the end of the request has no caller. -/
def transform (g : Globals η ε σ) (buffer : OutputBuffer η) (operation : Int64)
    (caller : Option CallSite) : Transformed η ε σ :=
  let raw := buffer.data
  let emptied := { buffer with data := [] }
  if buffer.disabled then ⟨g, emptied, raw, false⟩
  else
    let mode := operation ||| if buffer.started then 0 else handlerStart
    let begun := { emptied with started := true }
    match buffer.handler with
    | none => ⟨g, begun, raw, false⟩
    | some handler =>
      if script.resolves handler caller g.world then
        let called := script.call handler g.outputBuffers raw mode g.world
        let g := { g with world := called.world }.writeOutput called.printed
        match called.reply with
        | .bytes bytes => ⟨g, begun, bytes, false⟩
        | .declined => ⟨g, begun, raw, false⟩
        | .threw exception =>
          ⟨{ g with exception := some exception }, begun, if caller.isNone then [] else raw, true⟩
      else ⟨g, begun, raw, false⟩

variable {script}

theorem writeBuffers_length : ∀ (buffers : List (OutputBuffer η)) {written data},
    writeBuffers buffers data = some written → written.length = buffers.length := by
  intro buffers
  induction buffers with
  | nil =>
    intro written data h
    cases h
  | cons buffer buffers ih =>
    intro written data h
    rw [writeBuffers] at h
    split at h
    · obtain ⟨rest, hrest, rfl⟩ := Option.map_eq_some_iff.mp h
      rw [List.length_cons, List.length_cons, ih hrest]
    · cases h
      rfl

@[simp] theorem Globals.writeOutput_length (g : Globals η ε σ) (data : List UInt8) :
    (g.writeOutput data).outputBuffers.length = g.outputBuffers.length := by
  rw [writeOutput]
  split
  · rename_i buffers hwritten
    exact writeBuffers_length _ hwritten
  · rfl

@[simp] theorem transform_length (g : Globals η ε σ) (buffer : OutputBuffer η)
    (operation : Int64) (caller : Option CallSite) :
    (transform script g buffer operation caller).globals.outputBuffers.length =
      g.outputBuffers.length := by
  rw [transform]
  split
  · rfl
  · simp only
    split
    · rfl
    · split
      · split
        · exact Globals.writeOutput_length _ _
        · exact Globals.writeOutput_length _ _
        · exact Globals.writeOutput_length _ _
      · rfl

variable (script)

/-- The parents take the transformed chunk first; the emptied child is not ready again. -/
def flushReady (caller : Option CallSite) (g : Globals η ε σ) : Globals η ε σ :=
  match _h : g.outputBuffers with
  | [] => g
  | buffer :: buffers =>
    if buffer.chunkReady then
      let r := transform script (g.withBuffers buffers) buffer 0 caller
      if r.globals.exception.isSome then
        (r.globals.restore { r.buffer with disabled := true }).writeOutput r.output
      else (flushReady caller (r.globals.writeOutput r.output)).restore r.buffer
    else g
termination_by g.outputBuffers.length
decreasing_by
  simp only [Globals.writeOutput_length, transform_length, Globals.withBuffers, _h,
    List.length_cons]
  omega

def writePhpOutput (g : Globals η ε σ) (data : List UInt8) (caller : Option CallSite) :
    Globals η ε σ :=
  flushReady script caller (g.writeOutput data)

/-- Without a handler for errors, a notice is displayed like any other output. -/
def reportNotice (g : Globals η ε σ) (site : CallSite) (message : String) : Globals η ε σ :=
  match script.shown site message with
  | some diagnostic => writePhpOutput script g diagnostic (some site)
  | none => g

end Buffers

section Operations

inductive OutputBufferOperation
  | clean
  | flush
  | endClean
  | endFlush
  | getClean
  | getFlush
  deriving DecidableEq, Repr

namespace OutputBufferOperation

def name : OutputBufferOperation → String
  | clean => "ob_clean"
  | flush => "ob_flush"
  | endClean => "ob_end_clean"
  | endFlush => "ob_end_flush"
  | getClean => "ob_get_clean"
  | getFlush => "ob_get_flush"

def capability : OutputBufferOperation → Int64
  | clean => handlerCleanable
  | flush => handlerFlushable
  | _ => handlerRemovable

def phase : OutputBufferOperation → Int64
  | clean => handlerClean
  | flush => handlerFlush
  | endClean | getClean => handlerClean ||| handlerFinal
  | endFlush | getFlush => handlerFinal

def returnsContents : OutputBufferOperation → Bool
  | getClean | getFlush => true
  | _ => false

def deniedAction : OutputBufferOperation → String
  | clean => "delete"
  | flush => "flush"
  | endClean | getClean => "discard"
  | endFlush | getFlush => "send"

def missingAction : OutputBufferOperation → String
  | flush => "flush"
  | endFlush | getFlush => "delete and flush"
  | _ => "delete"

/-- What there is no buffer for. -/
def missing (operation : OutputBufferOperation) : String :=
  if operation.missingAction = "delete and flush" then "delete or flush"
  else operation.missingAction

def removes (operation : OutputBufferOperation) : Bool :=
  operation.phase &&& handlerFinal != 0

def discards (operation : OutputBufferOperation) : Bool :=
  operation.phase &&& handlerClean != 0

end OutputBufferOperation

/-- What a call answers; an exception is thrown into the script. -/
inductive OutputAnswer (ε : Type)
  | done
  | flag (flag : Bool)
  | bytes (bytes : List UInt8)
  | count (count : Nat)
  | threw (exception : ε)
  deriving DecidableEq, Repr

variable (script : Script η ε σ)

def bufferName : Option η → String
  | some handler => script.displayName handler
  | none => "default output handler"

def reportDenial (g : Globals η ε σ) (site : CallSite) (function action : String) :
    Globals η ε σ :=
  match g.outputBuffers with
  | [] => g
  | buffer :: buffers =>
    let name := bufferName script buffer.handler
    let level := buffers.length
    reportNotice script g site s!"{function}(): Failed to {action} buffer of {name} ({level})"

/-- Unless there is an exception. -/
def answer (g : Globals η ε σ) (reply : OutputAnswer ε) : OutputAnswer ε :=
  match g.exception with
  | some exception => .threw exception
  | none => reply

def applyOperation (g : Globals η ε σ) (operation : OutputBufferOperation) (site : CallSite) :
    Globals η ε σ × OutputAnswer ε :=
  match g.outputBuffers with
  | [] =>
    let function := operation.name
    let action := operation.missingAction
    let missing := operation.missing
    let g :=
      if operation = .getClean then g
      else reportNotice script g site
        s!"{function}(): Failed to {action} buffer. No buffer to {missing}"
    (g, answer g (.flag false))
  | buffer :: buffers =>
    if buffer.flags &&& operation.capability = 0 then
      let g := reportDenial script g site operation.name operation.deniedAction
      let g :=
        if operation.returnsContents && g.exception.isNone then
          reportDenial script g site operation.name "delete"
        else g
      (g, answer g (if operation.returnsContents then .bytes buffer.data else .flag false))
    else
      let r := transform script (g.withBuffers buffers) buffer operation.phase (some site)
      let g := if operation.discards then r.globals else r.globals.writeOutput r.output
      let g := if operation.removes then g else g.restore r.buffer
      (g, answer g (if operation.returnsContents then .bytes buffer.data else .flag true))

inductive OutputCall (η : Type)
  | echo (data : List UInt8) (site : CallSite)
  | start (handler : Option η) (chunkSize : Int) (flags : Int64)
  | operation (operation : OutputBufferOperation) (site : CallSite)
  | getContents
  | getLength
  | getLevel
  deriving DecidableEq, Repr

/-- The handler that a call installs. -/
def OutputCall.handler : OutputCall η → Option η
  | start handler _ _ => handler
  | _ => none

/-- The script catches what is thrown, and goes on. -/
def act (g : Globals η ε σ) : OutputCall η → Globals η ε σ × OutputAnswer ε
  | .echo data site =>
    let g := writePhpOutput script g data (some site)
    ({ g with exception := none }, answer g .done)
  | .start handler chunkSize flags =>
    (g.restore ⟨[], handler, chunkSize.toNat, flags, false, false⟩, .flag true)
  | .operation operation site =>
    let (g, reply) := applyOperation script g operation site
    ({ g with exception := none }, reply)
  | .getContents =>
    (g, (g.outputBufferContents.map .bytes).getD (.flag false))
  | .getLength =>
    (g, (g.outputBufferContents.map fun contents => .count contents.length).getD (.flag false))
  | .getLevel => (g, .count g.outputBuffers.length)

/-- At the end of the request; a handler that fails there keeps the buffers around it back. -/
def flushAllOutputBuffers (g : Globals η ε σ) : Globals η ε σ :=
  match _h : g.outputBuffers with
  | [] => g
  | buffer :: buffers =>
    let r := transform script (g.withBuffers buffers) buffer handlerFinal none
    let g' := r.globals.writeOutput r.output
    if r.threw then g' else flushAllOutputBuffers g'
termination_by g.outputBuffers.length
decreasing_by
  simp only [Globals.writeOutput_length, transform_length, Globals.withBuffers, _h,
    List.length_cons]
  omega

/-- A whole request. -/
def request (world : σ) (calls : List (OutputCall η)) : Globals η ε σ :=
  flushAllOutputBuffers script
    (calls.foldl (fun g call => (act script g call).1) (Globals.start world))

end Operations

end Rphp.Stdlib.Output
