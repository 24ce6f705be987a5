import Rphp.Lib.Run
import Rphp.Stream.Memory

namespace Rphp.Stream
open Rphp.Lib
set_option autoImplicit true

/-! Temporary streams: in memory up to a limit, and in a file beyond it. -/

section Storages

inductive Failure
  | invalidInput
  | outOfMemory
  | fileTooLarge
  deriving DecidableEq, Repr

inductive Storage
  | memory (cursor : Cursor)
  | file (cursor : Cursor)
  deriving DecidableEq, Repr

/-- The place that a seek asks for. -/
def Cursor.target (c : Cursor) : SeekFrom → Int
  | .start position => position
  | .stop offset => c.contents.length + offset.toInt
  | .current offset => c.position + offset.toInt

namespace Storage

def cursor : Storage → Cursor
  | memory c => c
  | file c => c

/-- The same kind of storage over another cursor. -/
def onCursor : Storage → Cursor → Storage
  | memory _, c => memory c
  | file _, c => file c

/-- The system counts places in a file with a signed number. -/
def places : Storage → Nat
  | memory _ => 18446744073709551616
  | file _ => 9223372036854775808

def read (s : Storage) (count : Nat) : List UInt8 × Storage :=
  let (bytes, cursor) := s.cursor.read count
  (bytes, s.onCursor cursor)

def seek (s : Storage) (whence : SeekFrom) : Except Failure Storage :=
  let target := s.cursor.target whence
  if 0 ≤ target ∧ target < s.places then
    .ok (s.onCursor { s.cursor with position := target.toNat })
  else .error .invalidInput

/-- An empty write does not reach a file, but it fills the gap before it in memory. -/
def write : Storage → List UInt8 → Except Failure Storage
  | memory c, bytes =>
    match c.write bytes with
    | some c => .ok (memory c)
    | none => .error .outOfMemory
  | file c, bytes =>
    if bytes = [] then .ok (file c)
    else
      match c.write bytes with
      | some c => .ok (file c)
      | none => .error .fileTooLarge

def setLen (s : Storage) (length : Nat) : Except Failure Storage :=
  if length ≤ isizeMax then
    .ok (s.onCursor { s.cursor with contents := Cursor.resize s.cursor.contents length })
  else
    match s with
    | memory _ => .error .outOfMemory
    | file _ => .error .invalidInput

/-- How many bytes are held in memory. -/
def held : Storage → Nat
  | memory c => c.contents.length
  | file _ => 0

end Storage

end Storages

section Streams

structure TempStream where
  storage : Storage
  maxMemory : Nat
  appendAfterTruncate : Bool
  readEof : Bool
  deriving DecidableEq, Repr

inductive TempCall
  | read (count : Nat)
  | isEof
  | write (bytes : List UInt8) (append : Bool)
  | seek (whence : SeekFrom)
  | position
  | truncate (length : Nat)
  | flush
  | stat (writable : Bool)
  | lockFile
  deriving DecidableEq, Repr

/-- The metadata of a file tells its size. -/
inductive StreamStat
  | filesystem (size : Nat)
  | memory (size : Nat) (writable : Bool)
  deriving DecidableEq, Repr

inductive TempAnswer
  | bytes (bytes : List UInt8)
  | flag (flag : Bool)
  | count (count : Nat)
  | position (position : Nat)
  | stat (stat : StreamStat)
  | file (present : Bool)
  | done
  | failed (failure : Failure)
  deriving DecidableEq, Repr

namespace TempStream

def new (maxMemory : Nat) : TempStream := ⟨.memory ⟨[], 0⟩, maxMemory, false, false⟩

def cursor (t : TempStream) : Cursor := t.storage.cursor

def withStorage (t : TempStream) (storage : Storage) : TempStream := { t with storage := storage }

/-- All bytes move to a file, and the place in it. -/
def spill (t : TempStream) : Except Failure TempStream :=
  match t.storage with
  | .memory c =>
    if c.position < 9223372036854775808 then .ok (t.withStorage (.file c)) else .error .invalidInput
  | .file _ => .ok t

def spillBeyond (t : TempStream) (required : Nat) : Except Failure TempStream :=
  match t.storage with
  | .memory _ => if t.maxMemory < required then t.spill else .ok t
  | .file _ => .ok t

def seekWithoutReset (t : TempStream) (whence : SeekFrom) : Except Failure TempStream :=
  t.storage.seek whence |>.map t.withStorage

def seek (t : TempStream) (whence : SeekFrom) : Except Failure TempStream :=
  (t.seekWithoutReset whence).map fun t =>
    { t with appendAfterTruncate := false, readEof := false }

def read (t : TempStream) (count : Nat) : List UInt8 × TempStream :=
  let (bytes, storage) := t.storage.read count
  (bytes, { t with
    storage := storage
    readEof := if count = 0 then t.readEof else decide (bytes.length < count) })

def put (t : TempStream) (bytes : List UInt8) : TempStream × TempAnswer :=
  match t.storage.write bytes with
  | .ok storage => (t.withStorage storage, .count bytes.length)
  | .error failure => (t, .failed failure)

/-- A step that fails ends the call. -/
def andThen (t : TempStream) (step : Except Failure TempStream)
    (next : TempStream → TempStream × TempAnswer) : TempStream × TempAnswer :=
  match step with
  | .ok t => next t
  | .error failure => (t, .failed failure)

/-- Behind the bytes, with the place of the script moved on from where it was. -/
def writeAfterMemoryTruncate (t : TempStream) (bytes : List UInt8) : TempStream × TempAnswer :=
  let position := t.cursor.position
  t.andThen (t.spillBeyond (t.cursor.contents.length + bytes.length)) fun t =>
    t.andThen (t.seekWithoutReset (.stop 0)) fun t =>
      match t.put bytes with
      | (t, .failed failure) =>
        t.andThen (t.seekWithoutReset (.start position)) fun t => (t, .failed failure)
      | (t, answer) =>
        t.andThen (t.seekWithoutReset (.start (min (position + bytes.length) 18446744073709551615)))
          fun t => (t, answer)

def writeWithin (t : TempStream) (bytes : List UInt8) : TempStream × TempAnswer :=
  let required := t.cursor.position + bytes.length
  match t.storage with
  | .memory c =>
    if required < 18446744073709551616 then
      t.andThen (t.spillBeyond (max required c.contents.length)) fun t => t.put bytes
    else (t, .failed .outOfMemory)
  | .file _ => t.put bytes

def write (t : TempStream) (bytes : List UInt8) (append : Bool) : TempStream × TempAnswer :=
  let t := { t with readEof := false }
  t.andThen (if append then t.seek (.stop 0) else .ok t) fun t =>
    if t.appendAfterTruncate && !append then t.writeAfterMemoryTruncate bytes
    else t.writeWithin bytes

/-- In memory, bytes that are cut off before the place detach it from where writes go. -/
def truncate (t : TempStream) (length : Nat) : TempStream × TempAnswer :=
  match t.storage with
  | .memory c =>
    if t.maxMemory < length then
      t.andThen t.spill fun t =>
        t.andThen (t.storage.setLen length |>.map t.withStorage) fun t =>
          ({ t with appendAfterTruncate := false }, .done)
    else
      t.andThen (t.storage.setLen length |>.map t.withStorage) fun t =>
        ({ t with appendAfterTruncate := decide (length < c.position) }, .done)
  | .file _ =>
    t.andThen (t.storage.setLen length |>.map t.withStorage) fun t =>
      ({ t with appendAfterTruncate := false }, .done)

def stat (t : TempStream) (writable : Bool) : StreamStat :=
  match t.storage with
  | .memory c => .memory c.contents.length writable
  | .file c => .filesystem c.contents.length

/-- Whether there is a file to lock. -/
def lockFile (t : TempStream) : Bool :=
  match t.storage with
  | .file _ => true
  | .memory _ => false

def act (t : TempStream) : TempCall → TempStream × TempAnswer
  | .read count =>
    let (bytes, t) := t.read count
    (t, .bytes bytes)
  | .isEof => (t, .flag t.readEof)
  | .write bytes append => t.write bytes append
  | .seek whence => t.andThen (t.seek whence) fun t => (t, .position t.cursor.position)
  | .position => (t, .position t.cursor.position)
  | .truncate length => t.truncate length
  | .flush => (t, .done)
  | .stat writable => (t, .stat (t.stat writable))
  | .lockFile => (t, .file t.lockFile)

end TempStream

end Streams

/-! What a temporary stream holds in memory. -/

section Bound

/-- A temporary stream keeps to its limit. -/
def WithinLimit (t : TempStream) : Prop := t.storage.held ≤ t.maxMemory

/-- A call leaves the limit as it is, and keeps to it. -/
structure Keeps (t : TempStream) (r : TempStream × TempAnswer) : Prop where
  maxMemory_eq : r.1.maxMemory = t.maxMemory
  within : WithinLimit r.1

@[simp] theorem Storage.held_onCursor (s : Storage) (position : Nat) :
    (s.onCursor { s.cursor with position := position }).held = s.held := by
  cases s with
  | memory c => rfl
  | file c => rfl

@[simp] theorem Storage.cursor_onCursor (s : Storage) (c : Cursor) : (s.onCursor c).cursor = c := by
  cases s with
  | memory _ => rfl
  | file _ => rfl

theorem Storage.seek_ok {s s' : Storage} (h : s.seek whence = .ok s') :
    0 ≤ s.cursor.target whence ∧
      s' = s.onCursor { s.cursor with position := (s.cursor.target whence).toNat } := by
  simp only [seek] at h
  split at h
  · rename_i hbounds
    cases h
    exact ⟨hbounds.1, rfl⟩
  · cases h

theorem TempStream.seekWithoutReset_ok {t t' : TempStream}
    (h : t.seekWithoutReset whence = .ok t') :
    ∃ position, t' = t.withStorage (t.storage.onCursor { t.cursor with position := position }) := by
  rw [seekWithoutReset] at h
  cases hseek : t.storage.seek whence with
  | error failure =>
    rw [hseek] at h
    cases h
  | ok s =>
    rw [hseek] at h
    cases h
    obtain ⟨-, hs⟩ := Storage.seek_ok hseek
    exact ⟨_, congrArg t.withStorage hs⟩

theorem TempStream.seekWithoutReset_within {t t' : TempStream} (hwithin : WithinLimit t)
    (h : t.seekWithoutReset whence = .ok t') : t'.maxMemory = t.maxMemory ∧ WithinLimit t' := by
  obtain ⟨position, rfl⟩ := seekWithoutReset_ok h
  refine ⟨rfl, ?_⟩
  rw [WithinLimit, withStorage, cursor]
  rw [Storage.held_onCursor]
  exact hwithin

theorem TempStream.seek_within {t t' : TempStream} (hwithin : WithinLimit t)
    (h : t.seek whence = .ok t') : t'.maxMemory = t.maxMemory ∧ WithinLimit t' := by
  rw [seek] at h
  cases hseek : t.seekWithoutReset whence with
  | error failure =>
    rw [hseek] at h
    cases h
  | ok u =>
    rw [hseek] at h
    cases h
    obtain ⟨hmax, hwithin'⟩ := seekWithoutReset_within hwithin hseek
    exact ⟨hmax, hwithin'⟩

theorem TempStream.spill_within {t t' : TempStream} (h : t.spill = .ok t') :
    t'.maxMemory = t.maxMemory ∧ ∃ c, t'.storage = .file c := by
  rw [spill] at h
  cases hstorage : t.storage with
  | memory c =>
    simp only [hstorage] at h
    split at h
    · cases h
      exact ⟨rfl, c, rfl⟩
    · cases h
  | file c =>
    simp only [hstorage] at h
    cases h
    exact ⟨rfl, c, hstorage⟩

/-- In memory there is room for what is required, or it is a file now. -/
theorem TempStream.spillBeyond_within {t t' : TempStream} (h : t.spillBeyond required = .ok t') :
    t'.maxMemory = t.maxMemory ∧
      ((∃ c, t'.storage = .file c) ∨ t' = t ∧ required ≤ t.maxMemory) := by
  rw [spillBeyond] at h
  cases hstorage : t.storage with
  | memory c =>
    simp only [hstorage] at h
    split at h
    · obtain ⟨hmax, hfile⟩ := spill_within h
      exact ⟨hmax, .inl hfile⟩
    · cases h
      exact ⟨rfl, .inr ⟨rfl, by omega⟩⟩
  | file c =>
    simp only [hstorage] at h
    cases h
    exact ⟨rfl, .inl ⟨c, hstorage⟩⟩

theorem keeps_andThen {t : TempStream} (hwithin : WithinLimit t)
    (hnext : ∀ t', step = .ok t' → t'.maxMemory = t.maxMemory ∧ Keeps t' (next t')) :
    Keeps t (t.andThen step next) := by
  cases step with
  | ok t' =>
    obtain ⟨hmax, hkeeps⟩ := hnext t' rfl
    exact ⟨hkeeps.maxMemory_eq.trans hmax, hkeeps.within⟩
  | error failure => exact ⟨rfl, hwithin⟩

/-- A write has room where it is made. -/
theorem keeps_put {t : TempStream} (hwithin : WithinLimit t)
    (hroom : (∃ c, t.storage = .file c) ∨ max (t.cursor.position + bytes.length)
      t.cursor.contents.length ≤ t.maxMemory) : Keeps t (t.put bytes) := by
  rw [TempStream.put]
  cases hwrite : t.storage.write bytes with
  | error failure => exact ⟨rfl, hwithin⟩
  | ok s =>
    refine ⟨rfl, ?_⟩
    show s.held ≤ t.maxMemory
    cases hstorage : t.storage with
    | memory c =>
      have hlength : max (c.position + bytes.length) c.contents.length ≤ t.maxMemory := by
        obtain ⟨c', hfile⟩ | hle := hroom
        · rw [hstorage] at hfile
          cases hfile
        · rw [TempStream.cursor, hstorage] at hle
          exact hle
      simp only [hstorage, Storage.write, Cursor.write] at hwrite
      split at hwrite
      · rename_i c' heq
        cases hwrite
        split at heq
        · cases heq
          rw [Storage.held, Cursor.overwrite_length]
          omega
        · cases heq
      · cases hwrite
    | file c =>
      simp only [hstorage, Storage.write] at hwrite
      split at hwrite
      · cases hwrite
        exact Nat.zero_le _
      · split at hwrite
        · cases hwrite
          exact Nat.zero_le _
        · cases hwrite

theorem TempStream.seekWithoutReset_file {t t' : TempStream} (hfile : ∃ c, t.storage = .file c)
    (h : t.seekWithoutReset whence = .ok t') : ∃ c, t'.storage = .file c := by
  obtain ⟨position, rfl⟩ := seekWithoutReset_ok h
  obtain ⟨c, hc⟩ := hfile
  refine ⟨{ c with position := position }, ?_⟩
  simp only [withStorage, cursor, hc, Storage.onCursor, Storage.cursor]

theorem TempStream.seekToEnd {t t' : TempStream} (h : t.seekWithoutReset (.stop 0) = .ok t') :
    t'.cursor = ⟨t.cursor.contents, t.cursor.contents.length⟩ ∧ t'.maxMemory = t.maxMemory := by
  rw [seekWithoutReset] at h
  cases hseek : t.storage.seek (.stop 0) with
  | error failure =>
    rw [hseek] at h
    cases h
  | ok s =>
    rw [hseek] at h
    cases h
    obtain ⟨-, rfl⟩ := Storage.seek_ok hseek
    refine ⟨?_, rfl⟩
    have hzero : (0 : Int64).toInt = 0 := rfl
    simp only [withStorage, cursor, Storage.cursor_onCursor, Cursor.target, hzero, Int.add_zero,
      Int.toNat_natCast]

theorem keeps_writeAfterMemoryTruncate {t : TempStream} (hwithin : WithinLimit t)
    (bytes : List UInt8) : Keeps t (t.writeAfterMemoryTruncate bytes) := by
  rw [TempStream.writeAfterMemoryTruncate]
  apply keeps_andThen hwithin
  intro u hu
  obtain ⟨hmax, hroom⟩ := TempStream.spillBeyond_within hu
  refine ⟨hmax, ?_⟩
  have hwithin' : WithinLimit u := by
    obtain ⟨c, hfile⟩ | ⟨rfl, -⟩ := hroom
    · rw [WithinLimit, hfile]
      exact Nat.zero_le _
    · exact hwithin
  apply keeps_andThen hwithin'
  intro v hv
  obtain ⟨hmax', hwithin''⟩ := TempStream.seekWithoutReset_within hwithin' hv
  refine ⟨hmax', ?_⟩
  have hput : Keeps v (v.put bytes) := by
    apply keeps_put hwithin''
    obtain ⟨hcursor, -⟩ := TempStream.seekToEnd hv
    obtain hfile | ⟨rfl, hle⟩ := hroom
    · exact .inl (TempStream.seekWithoutReset_file hfile hv)
    · right
      rw [hcursor, hmax']
      simp only
      omega
  cases hanswer : v.put bytes with
  | mk w answer =>
    rw [hanswer] at hput
    have hback : ∀ whence answer', Keeps v (w.andThen (w.seekWithoutReset whence)
        fun t => (t, answer')) := by
      intro whence answer'
      have hkeeps : Keeps w (w.andThen (w.seekWithoutReset whence) fun t => (t, answer')) := by
        apply keeps_andThen hput.within
        intro x hx
        obtain ⟨hmax, hwithin⟩ := TempStream.seekWithoutReset_within hput.within hx
        exact ⟨hmax, rfl, hwithin⟩
      exact ⟨hkeeps.maxMemory_eq.trans hput.maxMemory_eq, hkeeps.within⟩
    cases answer with
    | failed failure => exact hback _ _
    | _ => exact hback _ _

theorem keeps_writeWithin {t : TempStream} (hwithin : WithinLimit t) (bytes : List UInt8) :
    Keeps t (t.writeWithin bytes) := by
  rw [TempStream.writeWithin]
  cases hstorage : t.storage with
  | memory c =>
    simp only
    split
    · apply keeps_andThen hwithin
      intro u hu
      obtain ⟨hmax, hroom⟩ := TempStream.spillBeyond_within hu
      refine ⟨hmax, ?_⟩
      obtain ⟨c', hfile⟩ | ⟨rfl, hle⟩ := hroom
      · apply keeps_put
        · rw [WithinLimit, hfile]
          exact Nat.zero_le _
        · exact .inl ⟨c', hfile⟩
      · apply keeps_put hwithin
        right
        rw [TempStream.cursor, hstorage]
        rw [TempStream.cursor, hstorage] at hle
        exact hle
    · exact ⟨rfl, hwithin⟩
  | file c => exact keeps_put hwithin (.inl ⟨c, hstorage⟩)

theorem keeps_write {t : TempStream} (hwithin : WithinLimit t) (bytes : List UInt8)
    (append : Bool) : Keeps t (t.write bytes append) := by
  have hcleared : WithinLimit { t with readEof := false } := hwithin
  have hkeeps : Keeps { t with readEof := false } (t.write bytes append) := by
    rw [TempStream.write]
    apply keeps_andThen hcleared
    intro u hu
    have hu' : u.maxMemory = t.maxMemory ∧ WithinLimit u := by
      cases append with
      | true =>
        rw [if_pos rfl] at hu
        obtain ⟨hmax, hwithin'⟩ := TempStream.seek_within hcleared hu
        exact ⟨hmax, hwithin'⟩
      | false =>
        cases hu
        exact ⟨rfl, hwithin⟩
    refine ⟨hu'.1, ?_⟩
    split
    · exact keeps_writeAfterMemoryTruncate hu'.2 bytes
    · exact keeps_writeWithin hu'.2 bytes
  exact ⟨hkeeps.maxMemory_eq, hkeeps.within⟩

theorem Storage.setLen_held {s s' : Storage} (h : s.setLen length = .ok s') :
    s'.held ≤ length := by
  cases s with
  | memory c =>
    simp only [setLen] at h
    split at h
    · cases h
      exact Nat.le_of_eq (Cursor.resize_length _ _)
    · cases h
  | file c =>
    simp only [setLen] at h
    split at h
    · cases h
      exact Nat.zero_le _
    · cases h

theorem keeps_setLen {t : TempStream} (length : Nat) (hwithin : WithinLimit t)
    (hroom : (∃ c, t.storage = .file c) ∨ length ≤ t.maxMemory) (detached : Bool) :
    Keeps t (t.andThen (t.storage.setLen length |>.map t.withStorage) fun t =>
      ({ t with appendAfterTruncate := detached }, .done)) := by
  apply keeps_andThen hwithin
  intro u hu
  cases hset : t.storage.setLen length with
  | error failure =>
    rw [hset] at hu
    cases hu
  | ok s =>
    rw [hset] at hu
    cases hu
    refine ⟨rfl, rfl, ?_⟩
    obtain ⟨c, hfile⟩ | hle := hroom
    · simp only [hfile, Storage.setLen] at hset
      split at hset
      · cases hset
        exact Nat.zero_le _
      · cases hset
    · exact Nat.le_trans (Storage.setLen_held hset) hle

theorem keeps_truncate {t : TempStream} (hwithin : WithinLimit t) (length : Nat) :
    Keeps t (t.truncate length) := by
  rw [TempStream.truncate]
  cases hstorage : t.storage with
  | memory c =>
    simp only
    split
    · apply keeps_andThen hwithin
      intro u hu
      obtain ⟨hmax, hfile⟩ := TempStream.spill_within hu
      refine ⟨hmax, keeps_setLen length ?_ (.inl hfile) false⟩
      obtain ⟨c', hfile⟩ := hfile
      rw [WithinLimit, hfile]
      exact Nat.zero_le _
    · rename_i hle
      have hkeeps := keeps_setLen length hwithin (.inr (Nat.le_of_not_lt hle))
        (decide (length < c.position))
      rw [hstorage] at hkeeps
      exact hkeeps
  | file c =>
    have hkeeps := keeps_setLen length hwithin (.inl ⟨c, hstorage⟩) false
    rw [hstorage] at hkeeps
    exact hkeeps

theorem keeps_act {t : TempStream} (hwithin : WithinLimit t) (call : TempCall) :
    Keeps t (t.act call) := by
  cases call with
  | read count =>
    refine ⟨rfl, ?_⟩
    have hheld := t.storage.held_onCursor
      (t.cursor.position + (t.cursor.rest.take count).length)
    exact Nat.le_trans (Nat.le_of_eq hheld) hwithin
  | isEof => exact ⟨rfl, hwithin⟩
  | write bytes append => exact keeps_write hwithin bytes append
  | seek whence =>
    apply keeps_andThen hwithin
    intro u hu
    obtain ⟨hmax, hwithin'⟩ := TempStream.seek_within hwithin hu
    exact ⟨hmax, rfl, hwithin'⟩
  | position => exact ⟨rfl, hwithin⟩
  | truncate length => exact keeps_truncate hwithin length
  | flush | stat _ | lockFile => exact ⟨rfl, hwithin⟩

theorem keeps_run (calls : List TempCall) : ∀ {t : TempStream}, WithinLimit t →
    (calls.foldl (fun t call => (t.act call).1) t).maxMemory = t.maxMemory ∧
      WithinLimit (calls.foldl (fun t call => (t.act call).1) t) := by
  induction calls with
  | nil => exact fun hwithin => ⟨rfl, hwithin⟩
  | cons call calls ih =>
    intro t hwithin
    obtain ⟨hmax, hwithin'⟩ := keeps_act hwithin call
    obtain ⟨hmax', hwithin''⟩ := ih hwithin'
    exact ⟨hmax'.trans hmax, hwithin''⟩

/-- Whatever is called, no more bytes are held in memory than the limit allows. -/
theorem held_le_maxMemory (maxMemory : Nat) (calls : List TempCall) :
    (calls.foldl (fun t call => (t.act call).1) (TempStream.new maxMemory)).storage.held ≤
      maxMemory := by
  have hwithin : WithinLimit (.new maxMemory) := Nat.zero_le _
  obtain ⟨hmax, hwithin'⟩ := keeps_run calls hwithin
  exact Nat.le_trans hwithin' (Nat.le_of_eq hmax)

end Bound

end Rphp.Stream
