import Rphp.Stream.Memory
import Rphp.Stream.Buffer

namespace Rphp.Stream
open Rphp.Lib
set_option autoImplicit true

/-! A stream without a read buffer: bytes, and the place of the script in them. -/

/-- The end of the first occurrence. -/
def firstEnding (ending whole : List UInt8) : Option Nat :=
  if ending = [] then none
  else (List.range' 1 whole.length).find? fun stop => ending.isSuffixOf (whole.take stop)

structure Logical where
  contents : List UInt8
  position : Nat
  mode : StreamMode
  eof : Bool
  eagerEof : Bool
  detached : Bool
  deriving DecidableEq, Repr

namespace Logical

def rest (t : Logical) : List UInt8 := t.contents.drop t.position

def skip (t : Logical) (count : Nat) : Logical := { t with position := t.position + count }

/-- After a read, which tells whether it met the end. -/
def reach (t : Logical) (count : Nat) (eof : Bool) : Logical :=
  { t with position := t.position + count, eof := eof }

def readBytes (t : Logical) (count : Nat) : List UInt8 × Logical :=
  let bytes := t.rest.take count
  (bytes, if count = 0 then t else t.reach bytes.length (decide (bytes.length < count)))

def readLineMax (t : Logical) (maximum : Nat) : Option (List UInt8) × Logical :=
  if maximum = 0 then (none, t)
  else
    let line := lineOf (t.rest.take maximum)
    (if line = [] then none else some line,
      t.reach line.length (!(line.contains lineFeed) && decide (line.length < maximum)))

def readUntilMax (t : Logical) (maximum : Nat) (ending : List UInt8) :
    Option (List UInt8) × Logical :=
  if maximum = 0 then (some [], t)
  else
    let window := t.rest.take maximum
    match firstEnding ending window with
    | some stop =>
      (some (window.take (stop - ending.length)), t.reach stop false)
    | none =>
      (if window = [] then none else some window,
        t.reach window.length (decide (window.length < maximum)))

def sought (t : Logical) (position : Nat) : Logical :=
  { t with position := position, eof := false, detached := false }

def seek (t : Logical) : SeekFrom → Option Logical
  | .start position => some (t.sought position)
  | .stop offset => (Cursor.offsetFrom t.contents.length offset.toInt).map t.sought
  | .current offset => (Cursor.offsetFrom t.position offset.toInt).map t.sought

/-- Bytes at the place of the script, or at the end. -/
def write (t : Logical) (bytes : List UInt8) : Option Logical :=
  let target := if t.mode.append || t.detached then t.contents.length else t.position
  if target + bytes.length ≤ isizeMax then
    some { t with
      contents := Cursor.overwrite t.contents target bytes
      position := (if t.mode.append then t.contents.length else t.position) + bytes.length
      eof := false }
  else none

def truncate (t : Logical) (length : Nat) : Option Logical :=
  if length ≤ isizeMax then
    some { t with
      contents := Cursor.resize t.contents length
      detached := decide (length < t.position) }
  else none

def isEof (t : Logical) : Bool := t.eof || (t.eagerEof && decide (t.contents.length ≤ t.position))

def act (t : Logical) : Call → Logical × Answer
  | .read count =>
    if t.mode.read then ((t.readBytes count).2, .bytes (t.readBytes count).1)
    else (t, .permissionDenied)
  | .readLine length =>
    match lineMaximum length with
    | none => (t, .line none)
    | some maximum =>
      if t.mode.read then ((t.readLineMax maximum).2, .line (t.readLineMax maximum).1)
      else (t, .permissionDenied)
  | .readUntil maximum ending =>
    if t.mode.read then
      let result := t.readUntilMax (maximum.getD usizeMax) ending
      (result.2, .line result.1)
    else (t, .permissionDenied)
  | .readContents maximum offset =>
    if t.mode.read then
      let t := match offset with
        | some offset => t.sought offset
        | none => t
      let result := t.readBytes (maximum.getD usizeMax)
      (result.2, .bytes result.1)
    else (t, .permissionDenied)
  | .seek whence =>
    match t.seek whence with
    | some t => (t, .position t.position)
    | none => (t, .invalidInput)
  | .rewind => (t.sought 0, .flag true)
  | .position => (t, .position t.position)
  | .isEof => (t, .flag t.isEof)
  | .write bytes =>
    if t.mode.write then
      match t.write bytes with
      | some t => (t, .count bytes.length)
      | none => (t, .outOfMemory)
    else (t, .permissionDenied)
  | .truncate length =>
    if t.mode.write then
      match t.truncate length with
      | some t => (t, .done)
      | none => (t, .outOfMemory)
    else (t, .permissionDenied)

def openMemory (mode : List Char) : Logical :=
  ⟨[], 0, phpMemoryStreamMode mode, false, false, false⟩

def readonlyBytes (bytes : List UInt8) : Logical :=
  ⟨bytes, 0, ⟨true, false, false⟩, false, true, false⟩

end Logical

/-! A stream shows the bytes behind the place of the script: those read ahead come first. -/

/-- The end was left behind when bytes were cut off. -/
def Logical.Behind (t : Logical) : Prop := t.detached = true → t.contents.length ≤ t.position

structure Views (s : PhpStream) (t : Logical) : Prop where
  contents_eq : t.contents = s.memory.contents
  position_eq : s.memory.position = t.position + s.readBuffer.published.length
  rest_eq : s.readBuffer.published ++ s.memory.rest = t.rest
  valid : s.readBuffer.Valid
  mode_eq : t.mode = s.mode
  eof_eq : t.eof = s.eof
  eager_eq : t.eagerEof = s.eagerEof
  detached_eq : t.detached = s.memoryAppendAfterTruncate
  bounded : s.memory.contents.length ≤ isizeMax
  behind : t.Behind

variable {s : PhpStream} {t : Logical} {bytes : List UInt8} {count : Nat}

section Parts

theorem Logical.skip_zero (t : Logical) : t.skip 0 = t := rfl

theorem Logical.skip_rest (t : Logical) (count : Nat) :
    (t.skip count).rest = t.rest.drop count := by
  rw [rest, rest, List.drop_drop]
  rfl

theorem Logical.Behind.skip (h : t.Behind) (count : Nat) : (t.skip count).Behind :=
  fun hdetached => Nat.le_trans (h hdetached) (Nat.le_add_right _ _)

theorem Views.with_eof (h : Views s (t.skip count)) (eof : Bool) :
    Views (s.withEof eof) (t.reach count eof) :=
  ⟨h.contents_eq, h.position_eq, h.rest_eq, h.valid, h.mode_eq, rfl, h.eager_eq, h.detached_eq,
    h.bounded, h.behind⟩

theorem Views.published_eq_nil (h : Views s t) (hempty : s.unreadLen = 0) :
    s.readBuffer.published = [] := h.valid.published_eq_nil_iff.mpr hempty

theorem Cursor.read_rest (c : Cursor) (count : Nat) :
    (c.read count).1 ++ (c.read count).2.rest = c.rest := by
  simp only [read, rest, List.length_take, ← List.drop_drop]
  by_cases hle : count ≤ (c.contents.drop c.position).length
  · rw [Nat.min_eq_left hle, List.take_append_drop]
  · have hlong : (c.contents.drop c.position).length ≤ count := Nat.le_of_not_le hle
    rw [Nat.min_eq_right hlong, List.take_of_length_le hlong, List.drop_length, List.append_nil]

theorem Views.readBackend (h : Views s t) (hempty : s.unreadLen = 0) (count : Nat) :
    (s.readBackend count).1 = t.rest.take count ∧
      Views (s.readBackend count).2 (t.skip (s.readBackend count).1.length) := by
  have hnil := h.published_eq_nil hempty
  have hrest : s.memory.rest = t.rest := by
    rw [← h.rest_eq, hnil, List.nil_append]
  have hbytes : (s.readBackend count).1 = t.rest.take count := by
    rw [← hrest]
    rfl
  refine ⟨hbytes, h.contents_eq, ?_, ?_, h.valid, h.mode_eq, h.eof_eq, h.eager_eq, h.detached_eq,
    h.bounded, h.behind.skip _⟩
  · have hposition := h.position_eq
    rw [hnil] at hposition
    simp only [PhpStream.readBackend, Cursor.read, Logical.skip, hnil]
    rw [hposition]
    rfl
  · have hread := s.memory.read_rest count
    rw [hrest] at hread
    rw [Logical.skip_rest, ← hread]
    simp only [PhpStream.readBackend, hnil, List.nil_append]
    exact (List.drop_left ..).symm

theorem Views.refillReadBuffer (h : Views s t) (hempty : s.unreadLen = 0) :
    Views s.refillReadBuffer t ∧ (s.refillReadBuffer.readBuffer.published = [] → t.rest = []) := by
  have hnil := h.published_eq_nil hempty
  have hrest : s.memory.rest = t.rest := by
    rw [← h.rest_eq, hnil, List.nil_append]
  have hpublished : s.refillReadBuffer.readBuffer.published = (s.memory.read 8192).1 :=
    ReadBuffer.refill_published _ _
  refine ⟨⟨h.contents_eq, ?_, ?_, ReadBuffer.refill_valid _ _, h.mode_eq, h.eof_eq, h.eager_eq,
    h.detached_eq, h.bounded, h.behind⟩, ?_⟩
  · have hposition := h.position_eq
    rw [hnil] at hposition
    rw [hpublished]
    simp only [PhpStream.refillReadBuffer, PhpStream.readBackend, Cursor.read]
    rw [hposition]
    rfl
  · rw [hpublished, ← hrest]
    exact s.memory.read_rest 8192
  · intro hempty'
    rw [hpublished] at hempty'
    rw [← hrest]
    apply List.length_eq_zero_iff.mp
    have hlength := congrArg List.length hempty'
    simp only [Cursor.read, List.length_take, List.length_nil] at hlength
    omega

theorem Views.takePublished (h : Views s t) (count : Nat) :
    (s.takePublished count).1 = s.readBuffer.published.take count ∧
      Views (s.takePublished count).2 (t.skip (s.takePublished count).1.length) := by
  have hbytes : (s.takePublished count).1 = s.readBuffer.published.take count :=
    s.readBuffer.take_bytes count
  have hpublished : (s.takePublished count).2.readBuffer.published =
      s.readBuffer.published.drop count := ReadBuffer.take_published h.valid count
  refine ⟨hbytes, h.contents_eq, ?_, ?_, ReadBuffer.take_valid h.valid count, h.mode_eq, h.eof_eq,
    h.eager_eq, h.detached_eq, h.bounded, h.behind.skip _⟩
  · have hsplit := congrArg List.length (List.take_append_drop count s.readBuffer.published)
    rw [List.length_append] at hsplit
    rw [hpublished, hbytes]
    simp only [PhpStream.takePublished, Logical.skip]
    rw [h.position_eq]
    omega
  · rw [hpublished, Logical.skip_rest, ← h.rest_eq, hbytes]
    simp only [PhpStream.takePublished]
    have hsplit : (s.readBuffer.published.take count ++ (s.readBuffer.published.drop count ++
        s.memory.rest)).drop (s.readBuffer.published.take count).length =
          s.readBuffer.published.drop count ++ s.memory.rest := List.drop_left
    rw [← List.append_assoc, List.take_append_drop] at hsplit
    exact hsplit.symm

/-- Bytes that were taken last can be returned. -/
theorem Views.putBack (h : Views s (t.skip bytes.length)) (hbytes : bytes <+: t.rest)
    (ht : t.Behind) : Views (s.putBack bytes) t := by
  have hpublished : (s.putBack bytes).readBuffer.published = bytes ++ s.readBuffer.published :=
    ReadBuffer.putBack_published h.valid
  refine ⟨h.contents_eq, ?_, ?_, ReadBuffer.putBack_valid h.valid bytes, h.mode_eq, h.eof_eq,
    h.eager_eq, h.detached_eq, h.bounded, ht⟩
  · rw [hpublished, List.length_append, ← Nat.add_assoc]
    exact h.position_eq
  · obtain ⟨after, hafter⟩ := hbytes
    have hrest := h.rest_eq
    rw [Logical.skip_rest, ← hafter, List.drop_left] at hrest
    rw [hpublished, ← hafter, List.append_assoc]
    exact congrArg (bytes ++ ·) hrest

/-- What one read gets: some of the bytes behind the place of the script, if there are any. -/
structure Takes (t : Logical) (count : Nat) (bytes : List UInt8) (s : PhpStream) : Prop where
  front : bytes <+: t.rest
  length_le : bytes.length ≤ count
  ended : bytes = [] → t.rest = []
  views : Views s (t.skip bytes.length)

theorem Views.take_takes (h : Views s t) (hpublished : s.readBuffer.published = [] → t.rest = [])
    (hcount : 0 < count) : Takes t count (s.takePublished count).1 (s.takePublished count).2 := by
  obtain ⟨hbytes, hviews⟩ := h.takePublished count
  refine ⟨?_, ?_, ?_, hviews⟩
  · rw [hbytes, ← h.rest_eq]
    exact (List.take_prefix _ _).trans (List.prefix_append _ _)
  · rw [hbytes]
    exact List.length_take_le _ _
  · intro hnil
    rw [hbytes] at hnil
    apply hpublished
    cases hlist : s.readBuffer.published with
    | nil => rfl
    | cons byte bytes =>
      rw [hlist] at hnil
      obtain ⟨n, rfl⟩ : ∃ n, count = n + 1 := ⟨count - 1, by omega⟩
      cases hnil

theorem Views.backend_takes (h : Views s t) (hempty : s.unreadLen = 0) (hcount : 0 < count) :
    Takes t count (s.readBackend count).1 (s.readBackend count).2 := by
  obtain ⟨hbytes, hviews⟩ := h.readBackend hempty count
  refine ⟨?_, ?_, ?_, hviews⟩
  · rw [hbytes]
    exact List.take_prefix _ _
  · rw [hbytes]
    exact List.length_take_le _ _
  · intro hnil
    rw [hbytes] at hnil
    apply List.length_eq_zero_iff.mp
    have hlength := congrArg List.length hnil
    simp only [List.length_take, List.length_nil] at hlength
    omega

theorem Views.unread (h : Views s t) (hunread : s.unreadLen ≠ 0) :
    s.readBuffer.published = [] → t.rest = [] :=
  fun hnil => absurd (h.valid.published_eq_nil_iff.mp hnil) hunread

theorem Views.readPrefetched (h : Views s t) (hcount : 0 < count) :
    Takes t count (s.readPrefetched count).1 (s.readPrefetched count).2 := by
  rw [PhpStream.readPrefetched, if_neg (Nat.ne_of_gt hcount)]
  by_cases hempty : s.unreadLen = 0
  · rw [if_pos hempty]
    by_cases hlarge : 8192 ≤ count
    · rw [if_pos hlarge]
      exact h.backend_takes hempty hcount
    · rw [if_neg hlarge]
      obtain ⟨hrefilled, hended⟩ := h.refillReadBuffer hempty
      exact hrefilled.take_takes hended hcount
  · rw [if_neg hempty]
    exact h.take_takes (h.unread hempty) hcount

theorem Views.readOnce (h : Views s t) (hcount : 0 < count) :
    Takes t count (s.readOnce count).1 (s.readOnce count).2 := by
  rw [PhpStream.readOnce]
  by_cases hempty : s.unreadLen = 0
  · rw [if_neg (fun hne => hne hempty)]
    exact h.backend_takes hempty hcount
  · rw [if_pos hempty]
    exact h.readPrefetched hcount

end Parts

end Rphp.Stream
