import Rphp.Lib.Borders
import Rphp.Lib.Run
import Rphp.Machine

namespace Rphp.Stream
open Rphp.Lib
set_option autoImplicit true

/-! Memory streams: a cursor over bytes, and what was read ahead of the script. -/

section Cursors

/-- A vector of bytes has at most this length. -/
def isizeMax : Nat := 9223372036854775807

structure Cursor where
  contents : List UInt8
  position : Nat
  deriving DecidableEq, Repr

inductive SeekFrom
  | start (position : Nat)
  | stop (offset : Int64)
  | current (offset : Int64)
  deriving DecidableEq, Repr

namespace Cursor

def rest (c : Cursor) : List UInt8 := c.contents.drop c.position

def read (c : Cursor) (count : Nat) : List UInt8 × Cursor :=
  let bytes := c.rest.take count
  (bytes, { c with position := c.position + bytes.length })

/-- Bytes over others or behind them; a gap before them is filled with zeros. -/
def overwrite (contents : List UInt8) (position : Nat) (bytes : List UInt8) : List UInt8 :=
  let padded := contents ++ List.replicate (position - contents.length) 0
  padded.take position ++ bytes ++ padded.drop (position + bytes.length)

/-- The storage cannot grow past its bound. -/
def write (c : Cursor) (bytes : List UInt8) : Option Cursor :=
  if c.position + bytes.length ≤ isizeMax then
    some ⟨overwrite c.contents c.position bytes, c.position + bytes.length⟩
  else none

def offsetFrom (base : Nat) (offset : Int) : Option Nat :=
  let position := (base : Int) + offset
  if 0 ≤ position ∧ position < 18446744073709551616 then some position.toNat else none

def seekBy (c : Cursor) (base : Nat) (offset : Int) : Option Cursor := do
  return { c with position := ← offsetFrom base offset }

def resize (contents : List UInt8) (length : Nat) : List UInt8 :=
  contents.take length ++ List.replicate (length - contents.length) 0

theorem overwrite_length (contents : List UInt8) (position : Nat) (bytes : List UInt8) :
    (overwrite contents position bytes).length = max contents.length (position + bytes.length) := by
  simp only [overwrite, List.length_append, List.length_take, List.length_drop,
    List.length_replicate]
  omega

theorem resize_length (contents : List UInt8) (length : Nat) :
    (resize contents length).length = length := by
  simp only [resize, List.length_append, List.length_take, List.length_replicate]
  omega

end Cursor

end Cursors

section Buffers

/-- Only the bytes between the two bounds are published. -/
structure ReadBuffer where
  bytes : List UInt8
  start : Nat
  stop : Nat
  deriving DecidableEq, Repr

namespace ReadBuffer

def empty : ReadBuffer := ⟨[], 0, 0⟩

def published (b : ReadBuffer) : List UInt8 := (b.bytes.take b.stop).drop b.start

def unreadLen (b : ReadBuffer) : Nat := b.stop - b.start

/-- Bytes over those at a position, all of them inside the storage. -/
def blit (bytes : List UInt8) (position : Nat) (cover : List UInt8) : List UInt8 :=
  bytes.take position ++ cover ++ bytes.drop (position + cover.length)

def refill (b : ReadBuffer) (read : List UInt8) : ReadBuffer :=
  let bytes := b.bytes ++ List.replicate (8192 - b.bytes.length) 0
  ⟨blit bytes 0 read, 0, read.length⟩

def take (b : ReadBuffer) (count : Nat) : List UInt8 × ReadBuffer :=
  let count := min count b.unreadLen
  ((b.bytes.drop b.start).take count, { b with start := b.start + count })

def snapshot (_ : ReadBuffer) (bytes : List UInt8) : ReadBuffer := ⟨bytes, 0, bytes.length⟩

/-- The scanned bytes stand before the published ones again. -/
def putBack (b : ReadBuffer) (bytes : List UInt8) : ReadBuffer :=
  if bytes = [] then b
  else if bytes.length ≤ b.start then
    let start := b.start - bytes.length
    { b with bytes := blit b.bytes start bytes, start := start }
  else
    let remaining := b.stop - b.start
    let moved := blit b.bytes 0 ((b.bytes.drop b.start).take remaining)
    let stop := remaining + bytes.length
    let resized := moved ++ List.replicate (stop - moved.length) 0
    let shifted := blit resized bytes.length (resized.take remaining)
    ⟨blit shifted 0 bytes, 0, stop⟩

def discard (b : ReadBuffer) : ReadBuffer := { b with start := 0, stop := 0 }

end ReadBuffer

end Buffers

section Streams

def lineFeed : UInt8 := 10

/-- Up to the first line feed, if there is one. -/
def lineOf (bytes : List UInt8) : List UInt8 :=
  match bytes.findIdx? (· = lineFeed) with
  | some i => bytes.take (i + 1)
  | none => bytes

structure StreamMode where
  read : Bool
  write : Bool
  append : Bool
  deriving DecidableEq, Repr

/-- The wrapper accepts any mode: some letters in it make the stream writable. -/
def phpMemoryStreamMode (mode : List Char) : StreamMode :=
  let mode := mode.takeWhile (· ≠ '\x00')
  ⟨true, mode.any fun c => c = 'w' || c = 'a' || c = '+', mode.contains 'a'⟩

structure PhpStream where
  memory : Cursor
  mode : StreamMode
  eof : Bool
  readBuffer : ReadBuffer
  memoryAppendAfterTruncate : Bool
  eagerEof : Bool
  deriving DecidableEq, Repr

def openMemory (mode : List Char) : PhpStream :=
  ⟨⟨[], 0⟩, phpMemoryStreamMode mode, false, .empty, false, false⟩

/-- The bytes of a wrapper; its streams know their end at once. -/
def readonlyBytes (bytes : List UInt8) : PhpStream :=
  ⟨⟨bytes, 0⟩, ⟨true, false, false⟩, false, .empty, false, true⟩

namespace PhpStream

def unreadLen (s : PhpStream) : Nat := s.readBuffer.unreadLen

def isEof (s : PhpStream) : Bool :=
  s.eof || (s.eagerEof && s.unreadLen == 0 && s.memory.contents.length ≤ s.memory.position)

def withEof (s : PhpStream) (eof : Bool) : PhpStream := { s with eof := eof }

def readBackend (s : PhpStream) (count : Nat) : List UInt8 × PhpStream :=
  let (bytes, memory) := s.memory.read count
  (bytes, { s with memory := memory })

def refillReadBuffer (s : PhpStream) : PhpStream :=
  let (bytes, s) := s.readBackend 8192
  { s with readBuffer := s.readBuffer.refill bytes }

def takePublished (s : PhpStream) (count : Nat) : List UInt8 × PhpStream :=
  let (bytes, buffer) := s.readBuffer.take count
  (bytes, { s with readBuffer := buffer })

def readPrefetched (s : PhpStream) (count : Nat) : List UInt8 × PhpStream :=
  if count = 0 then ([], s)
  else if s.unreadLen = 0 then
    if 8192 ≤ count then s.readBackend count else s.refillReadBuffer.takePublished count
  else s.takePublished count

def readOnce (s : PhpStream) (count : Nat) : List UInt8 × PhpStream :=
  if s.unreadLen ≠ 0 then s.readPrefetched count else s.readBackend count

def putBack (s : PhpStream) (bytes : List UInt8) : PhpStream :=
  { s with readBuffer := s.readBuffer.putBack bytes }

/-- Reads until the buffer of the caller is full, or one of them gets nothing. -/
def readFully (s : PhpStream) (total : List UInt8) (count : Nat) : List UInt8 × PhpStream :=
  if total.length < count then
    match s.readOnce (count - total.length) with
    | ([], s) => (total, s.withEof true)
    | (byte :: bytes, s) => readFully (s.withEof false) (total ++ byte :: bytes) count
  else (total, s)
termination_by count - total.length
decreasing_by
  simp only [List.length_append, List.length_cons]
  omega

def readBytes (s : PhpStream) (count : Nat) : List UInt8 × PhpStream :=
  if s.unreadLen = 0 then
    let (bytes, s) := s.readBackend count
    (bytes, if count = 0 then s else s.withEof (decide (bytes.length < count)))
  else s.readFully [] count

def readShortMemoryLine (s : PhpStream) (maximum : Nat) : Option (List UInt8) × PhpStream :=
  let (bytes, memory) := s.memory.read 8192
  let line := lineOf (bytes.take maximum)
  let buffer :=
    if line.length < bytes.length then s.readBuffer.snapshot (bytes.drop line.length)
    else s.readBuffer
  let ended := !(line.contains lineFeed) && decide (line.length < maximum)
  (if line = [] then none else some line,
    { s with memory := memory, readBuffer := buffer }.withEof ended)

def readLineBuffered (s : PhpStream) (output : List UInt8) (maximum : Nat) :
    Option (List UInt8) × PhpStream :=
  if _h : output.length < maximum then
    let s := if s.unreadLen = 0 then s.refillReadBuffer else s
    match (s.takePublished (maximum - output.length)).1 with
    | [] => (if output = [] then none else some output, s.withEof true)
    | byte :: bytes =>
      let line := lineOf (byte :: bytes)
      let s := (s.takePublished line.length).2.withEof false
      if (byte :: bytes).contains lineFeed then (some (output ++ line), s)
      else readLineBuffered s (output ++ byte :: bytes) maximum
  else (some output, s)
termination_by maximum - output.length
decreasing_by
  simp only [List.length_append, List.length_cons]
  omega

def readLineChunks (s : PhpStream) (output : List UInt8) (maximum : Nat) :
    Option (List UInt8) × PhpStream :=
  if _h : output.length < maximum then
    match s.readPrefetched (min 8192 (maximum - output.length)) with
    | ([], s) => (if output = [] then none else some output, s.withEof true)
    | (byte :: bytes, s) =>
      let line := lineOf (byte :: bytes)
      let s := (s.withEof false).putBack ((byte :: bytes).drop line.length)
      if (byte :: bytes).contains lineFeed then (some (output ++ line), s)
      else readLineChunks s (output ++ byte :: bytes) maximum
  else (some output, s)
termination_by maximum - output.length
decreasing_by
  simp only [List.length_append, List.length_cons]
  omega

def readLineMax (s : PhpStream) (maximum : Nat) : Option (List UInt8) × PhpStream :=
  if maximum = 0 then (none, s)
  else if maximum ≤ 64 then
    if s.unreadLen = 0 then s.readShortMemoryLine maximum else s.readLineBuffered [] maximum
  else s.readLineChunks [] maximum

/-- The ending is consumed, but is no part of the result. -/
def readUntilFrom (ending : List UInt8) (table : List Nat) (s : PhpStream) (output : List UInt8)
    (matched maximum : Nat) : Option (List UInt8) × PhpStream :=
  if _h : output.length < maximum then
    match s.readPrefetched (min 8192 (maximum - output.length)) with
    | ([], s) => (if output = [] then none else some output, s.withEof true)
    | (byte :: bytes, s) =>
      let s := s.withEof false
      let found :=
        if ending = [] then (none, matched) else findEnding ending table (byte :: bytes) matched
      match found with
      | (some stop, _) =>
        let output := output ++ (byte :: bytes).take stop
        (some (output.take (output.length - ending.length)), s.putBack ((byte :: bytes).drop stop))
      | (none, matched) => readUntilFrom ending table s (output ++ byte :: bytes) matched maximum
  else (some output, s)
termination_by maximum - output.length
decreasing_by
  simp only [List.length_append, List.length_cons]
  omega

/-- Reads in chunks, each of them until it is full or nothing is left. -/
def readContentsFrom (s : PhpStream) (output : List UInt8) (maximum : Nat) :
    List UInt8 × PhpStream :=
  if _h : output.length < maximum then
    match s.readBytes (min 8192 (maximum - output.length)) with
    | ([], s) => (output, s)
    | (byte :: bytes, s) => readContentsFrom s (output ++ byte :: bytes) maximum
  else (output, s)
termination_by maximum - output.length
decreasing_by
  simp only [List.length_append, List.length_cons]
  omega

def discardPrefetched (s : PhpStream) : PhpStream :=
  { s with readBuffer := s.readBuffer.discard }

def sought (s : PhpStream) (memory : Cursor) : PhpStream :=
  { s.discardPrefetched with memory := memory, eof := false, memoryAppendAfterTruncate := false }

/-- An offset from the place of the script counts from behind what was read ahead. -/
def seek (s : PhpStream) : SeekFrom → Option PhpStream
  | .start position => some (s.sought { s.memory with position := position })
  | .stop offset => do
    return s.sought (← s.memory.seekBy s.memory.contents.length offset.toInt)
  | .current offset =>
    let offset := offset.toInt - s.unreadLen
    if offset < -9223372036854775808 then none
    else do return s.sought (← s.memory.seekBy s.memory.position offset)

def rewind (s : PhpStream) : PhpStream := s.sought { s.memory with position := 0 }

def position (s : PhpStream) : Nat := s.memory.position - s.unreadLen

def writeMemory (s : PhpStream) (bytes : List UInt8) : Option PhpStream := do
  return { s with memory := ← s.memory.write bytes }

def atEnd (s : PhpStream) : PhpStream :=
  { s with memory := { s.memory with position := s.memory.contents.length } }

/-- At the end of the bytes, where the script has not moved since they were cut off. -/
def writeDetached (s : PhpStream) (bytes : List UInt8) : Option PhpStream := do
  let memory ← s.atEnd.memory.write bytes
  return { s with memory := { memory with position := s.memory.position + bytes.length } }

def writeBuffered (s : PhpStream) (bytes : List UInt8) : Option PhpStream := do
  let s ← if s.unreadLen ≠ 0 then s.seek (.current 0) else some s
  let s := s.withEof false
  if s.mode.append then s.atEnd.writeMemory bytes
  else if s.memoryAppendAfterTruncate then s.writeDetached bytes
  else s.writeMemory bytes

def write (s : PhpStream) (bytes : List UInt8) : Option PhpStream :=
  if !s.mode.append && !s.memoryAppendAfterTruncate && s.unreadLen == 0 then
    (s.withEof false).writeMemory bytes
  else s.writeBuffered bytes

def truncate (s : PhpStream) (length : Nat) : Option PhpStream :=
  if length ≤ isizeMax then
    some { s with
      memory := { s.memory with contents := Cursor.resize s.memory.contents length }
      memoryAppendAfterTruncate := decide (length < s.memory.position) }
  else none

end PhpStream

end Streams

section Calls

inductive Call
  | read (count : Nat)
  | readLine (length : Option Nat)
  | readUntil (maximum : Option Nat) (ending : List UInt8)
  | readContents (maximum : Option Nat) (offset : Option Nat)
  | seek (whence : SeekFrom)
  | rewind
  | position
  | isEof
  | write (bytes : List UInt8)
  | truncate (length : Nat)
  deriving DecidableEq, Repr

/-- What a call answers; an error is told by its kind. -/
inductive Answer
  | bytes (bytes : List UInt8)
  | line (line : Option (List UInt8))
  | count (count : Nat)
  | position (position : Nat)
  | flag (flag : Bool)
  | done
  | permissionDenied
  | invalidInput
  | outOfMemory
  deriving DecidableEq, Repr

/-- The length of a line counts a terminator. -/
def lineMaximum : Option Nat → Option Nat
  | some length => if length - 1 = 0 then none else some (length - 1)
  | none => some usizeMax

namespace PhpStream

def readLine (s : PhpStream) (length : Option Nat) : PhpStream × Answer :=
  match lineMaximum length with
  | none => (s, .line none)
  | some maximum =>
    if s.mode.read then
      let (line, s) := s.readLineMax maximum
      (s, .line line)
    else (s, .permissionDenied)

def readUntil (s : PhpStream) (maximum : Option Nat) (ending : List UInt8) : PhpStream × Answer :=
  if s.mode.read then
    let (line, s) := readUntilFrom ending (prefixTable ending) s [] 0 (maximum.getD usizeMax)
    (s, .line line)
  else (s, .permissionDenied)

def readContents (s : PhpStream) (maximum offset : Option Nat) : PhpStream × Answer :=
  if s.mode.read then
    let s := match offset with
      | some offset => s.sought { s.memory with position := offset }
      | none => s
    let (bytes, s) := s.readContentsFrom [] (maximum.getD usizeMax)
    (s, .bytes bytes)
  else (s, .permissionDenied)

def act (s : PhpStream) : Call → PhpStream × Answer
  | .read count =>
    if s.mode.read then
      let (bytes, s) := s.readBytes count
      (s, .bytes bytes)
    else (s, .permissionDenied)
  | .readLine length => s.readLine length
  | .readUntil maximum ending => s.readUntil maximum ending
  | .readContents maximum offset => s.readContents maximum offset
  | .seek whence =>
    match s.seek whence with
    | some s => (s, .position s.memory.position)
    | none => (s, .invalidInput)
  | .rewind => (s.rewind, .flag true)
  | .position => (s, .position s.position)
  | .isEof => (s, .flag s.isEof)
  | .write bytes =>
    if s.mode.write then
      match s.write bytes with
      | some s => (s, .count bytes.length)
      | none => (s, .outOfMemory)
    else (s, .permissionDenied)
  | .truncate length =>
    if s.mode.write then
      match s.truncate length with
      | some s => (s, .done)
      | none => (s, .outOfMemory)
    else (s, .permissionDenied)

end PhpStream

end Calls

end Rphp.Stream
