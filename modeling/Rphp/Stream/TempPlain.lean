import Rphp.Stream.Temp

namespace Rphp.Stream
open Rphp.Lib
set_option autoImplicit true

/-! A temporary stream answers as one without a limit. -/

section Transparency

/-- One storage that has no limit. -/
structure Plain where
  cursor : Cursor
  readEof : Bool
  deriving DecidableEq, Repr

namespace Plain

def new : Plain := ⟨⟨[], 0⟩, false⟩

def place (p : Plain) (append : Bool) : Nat :=
  if append then p.cursor.contents.length else p.cursor.position

def act (p : Plain) : TempCall → Plain × TempAnswer
  | .read count =>
    let (bytes, cursor) := p.cursor.read count
    (⟨cursor, if count = 0 then p.readEof else decide (bytes.length < count)⟩, .bytes bytes)
  | .isEof => (p, .flag p.readEof)
  | .write bytes append =>
    let position := p.place append
    (⟨⟨Cursor.overwrite p.cursor.contents position bytes, position + bytes.length⟩, false⟩,
      .count bytes.length)
  | .seek whence =>
    let target := p.cursor.target whence
    if 0 ≤ target then
      (⟨{ p.cursor with position := target.toNat }, false⟩, .position target.toNat)
    else (p, .failed .invalidInput)
  | .position => (p, .position p.cursor.position)
  | .truncate length =>
    ({ p with cursor := { p.cursor with contents := Cursor.resize p.cursor.contents length } },
      .done)
  | .flush => (p, .done)
  | .stat writable => (p, .stat (.memory p.cursor.contents.length writable))
  | .lockFile => (p, .file false)

end Plain

/-- Places that a file has, no bytes cut off before the script, no gap for no bytes, and neither of
the two calls that tell memory from a file. -/
def Modest (p : Plain) : TempCall → Prop
  | .write bytes append =>
    p.place append + bytes.length ≤ isizeMax ∧
      (bytes = [] → p.place append ≤ p.cursor.contents.length)
  | .seek whence => p.cursor.target whence ≤ isizeMax
  | .truncate length => p.cursor.position ≤ length ∧ length ≤ isizeMax
  | .stat _ | .lockFile => False
  | .read _ | .isEof | .position | .flush => True

instance decidableModest (p : Plain) : (call : TempCall) → Decidable (Modest p call)
  | .read _ => .isTrue trivial
  | .isEof => .isTrue trivial
  | .write _ _ => inferInstanceAs (Decidable (_ ∧ (_ → _)))
  | .seek _ => inferInstanceAs (Decidable (_ ≤ _))
  | .position => .isTrue trivial
  | .truncate _ => inferInstanceAs (Decidable (_ ∧ _))
  | .flush => .isTrue trivial
  | .stat _ => .isFalse id
  | .lockFile => .isFalse id

/-- The storage holds what the plain one does, in places that a file has. -/
structure Holds (p : Plain) (t : TempStream) : Prop where
  cursor_eq : t.cursor = p.cursor
  readEof_eq : t.readEof = p.readEof
  attached : t.appendAfterTruncate = false
  position_le : p.cursor.position ≤ isizeMax
  length_le : p.cursor.contents.length ≤ isizeMax

/-- Related states, and the same answer. -/
def HoldsAfter (r : Plain × TempAnswer) (r' : TempStream × TempAnswer) : Prop :=
  r.2 = r'.2 ∧ Holds r.1 r'.1

variable {p : Plain} {t : TempStream}

theorem Holds.withStorage (h : Holds p t) {s : Storage} (hs : s.cursor = t.cursor) :
    Holds p (t.withStorage s) :=
  ⟨hs.trans h.cursor_eq, h.readEof_eq, h.attached, h.position_le, h.length_le⟩

theorem Holds.spill (h : Holds p t) : ∃ t', t.spill = .ok t' ∧ Holds p t' := by
  rw [TempStream.spill]
  cases hstorage : t.storage with
  | memory c =>
    have hcursor : t.cursor = c := by
      rw [TempStream.cursor, hstorage]
      rfl
    have hposition : c.position < 9223372036854775808 := by
      have hle := h.position_le
      rw [← h.cursor_eq, hcursor, isizeMax] at hle
      omega
    simp only [if_pos hposition]
    exact ⟨_, rfl, h.withStorage hcursor.symm⟩
  | file c => exact ⟨t, rfl, h⟩

theorem Holds.spillBeyond (h : Holds p t) (required : Nat) :
    ∃ t', t.spillBeyond required = .ok t' ∧ Holds p t' := by
  rw [TempStream.spillBeyond]
  cases t.storage with
  | memory c =>
    simp only
    split
    · exact h.spill
    · exact ⟨t, rfl, h⟩
  | file c => exact ⟨t, rfl, h⟩

theorem Holds.seek (h : Holds p t) (hmodest : p.cursor.target whence ≤ isizeMax) :
    (0 ≤ p.cursor.target whence ∧ ∃ t', t.seek whence = .ok t' ∧
      Holds ⟨{ p.cursor with position := (p.cursor.target whence).toNat }, false⟩ t') ∨
    (¬ 0 ≤ p.cursor.target whence ∧ t.seek whence = .error .invalidInput) := by
  have hcursor : t.storage.cursor = p.cursor := h.cursor_eq
  rw [TempStream.seek, TempStream.seekWithoutReset, Storage.seek]
  simp only [hcursor]
  by_cases hzero : 0 ≤ p.cursor.target whence
  · left
    have hplaces : p.cursor.target whence < t.storage.places := by
      cases t.storage with
      | memory c =>
        rw [isizeMax] at hmodest
        rw [Storage.places]
        omega
      | file c =>
        rw [isizeMax] at hmodest
        rw [Storage.places]
        omega
    rw [if_pos ⟨hzero, hplaces⟩]
    refine ⟨hzero, _, rfl, ?_, rfl, rfl, ?_, h.length_le⟩
    · exact Storage.cursor_onCursor _ _
    · show (p.cursor.target whence).toNat ≤ isizeMax
      omega
  · right
    rw [if_neg fun hbounds => hzero hbounds.1]
    exact ⟨hzero, rfl⟩

theorem Holds.put (h : Holds p t) (hle : p.cursor.position + bytes.length ≤ isizeMax)
    (hgap : bytes = [] → p.cursor.position ≤ p.cursor.contents.length) :
    HoldsAfter
      (⟨⟨Cursor.overwrite p.cursor.contents p.cursor.position bytes,
        p.cursor.position + bytes.length⟩, p.readEof⟩, .count bytes.length) (t.put bytes) := by
  have hwrite : ∃ s, t.storage.write bytes = .ok s ∧
      s.cursor = ⟨Cursor.overwrite p.cursor.contents p.cursor.position bytes,
        p.cursor.position + bytes.length⟩ := by
    have hcursor : t.storage.cursor = p.cursor := h.cursor_eq
    cases hstorage : t.storage with
    | memory c =>
      obtain rfl : c = p.cursor := by
        rw [← hcursor, hstorage]
        rfl
      simp only [Storage.write, Cursor.write, if_pos hle]
      exact ⟨_, rfl, rfl⟩
    | file c =>
      obtain rfl : c = p.cursor := by
        rw [← hcursor, hstorage]
        rfl
      by_cases hempty : bytes = []
      · subst hempty
        simp only [Storage.write, if_true]
        refine ⟨.file p.cursor, rfl, ?_⟩
        have hlength : p.cursor.position - p.cursor.contents.length = 0 :=
          Nat.sub_eq_zero_of_le (hgap rfl)
        simp only [Cursor.overwrite, hlength, List.replicate_zero, List.append_nil,
          List.length_nil, Nat.add_zero, List.take_append_drop]
        rfl
      · simp only [Storage.write, if_neg hempty, Cursor.write, if_pos hle]
        exact ⟨_, rfl, rfl⟩
  obtain ⟨s, hs, hcursor⟩ := hwrite
  rw [TempStream.put, hs]
  refine ⟨rfl, hcursor, h.readEof_eq, h.attached, hle, ?_⟩
  have hlength := h.length_le
  simp only [Cursor.overwrite_length]
  omega

theorem Holds.writeWithin (h : Holds p t) (hle : p.cursor.position + bytes.length ≤ isizeMax)
    (hgap : bytes = [] → p.cursor.position ≤ p.cursor.contents.length) :
    HoldsAfter
      (⟨⟨Cursor.overwrite p.cursor.contents p.cursor.position bytes,
        p.cursor.position + bytes.length⟩, p.readEof⟩, .count bytes.length)
      (t.writeWithin bytes) := by
  rw [TempStream.writeWithin]
  cases t.storage with
  | memory c =>
    have hrequired : t.cursor.position + bytes.length < 18446744073709551616 := by
      rw [h.cursor_eq]
      rw [isizeMax] at hle
      omega
    simp only [if_pos hrequired]
    obtain ⟨u, hu, hholds⟩ := h.spillBeyond (max (t.cursor.position + bytes.length)
      c.contents.length)
    rw [hu]
    exact hholds.put hle hgap
  | file c => exact h.put hle hgap

theorem Holds.write (h : Holds p t) (append : Bool)
    (hle : p.place append + bytes.length ≤ isizeMax)
    (hgap : bytes = [] → p.place append ≤ p.cursor.contents.length) :
    HoldsAfter (p.act (.write bytes append)) (t.write bytes append) := by
  have hcleared : Holds { p with readEof := false } { t with readEof := false } :=
    ⟨h.cursor_eq, rfl, h.attached, h.position_le, h.length_le⟩
  rw [TempStream.write]
  cases append with
  | true =>
    have htarget : p.cursor.target (.stop 0) = p.cursor.contents.length := Int.add_zero _
    have hend : p.cursor.target (.stop 0) ≤ isizeMax := by
      rw [htarget]
      exact Int.ofNat_le.mpr h.length_le
    obtain ⟨-, u, hu, hholds⟩ | ⟨hneg, -⟩ := hcleared.seek hend
    · rw [if_pos rfl, hu]
      simp only [TempStream.andThen, hholds.attached, Bool.false_and, Bool.false_eq_true, if_false]
      rw [htarget, Int.toNat_natCast] at hholds
      exact hholds.writeWithin hle hgap
    · exact absurd (Int.natCast_nonneg _) (htarget ▸ hneg)
  | false =>
    rw [if_neg Bool.false_ne_true]
    simp only [TempStream.andThen]
    rw [if_neg (by rw [h.attached]; exact Bool.false_ne_true)]
    exact hcleared.writeWithin hle hgap

theorem Holds.setLen (h : Holds p t) (hle : length ≤ isizeMax) :
    HoldsAfter (p.act (.truncate length))
      (t.andThen (t.storage.setLen length |>.map t.withStorage) fun t =>
        ({ t with appendAfterTruncate := false }, .done)) := by
  have hcursor : t.storage.cursor = p.cursor := h.cursor_eq
  rw [Storage.setLen.eq_def, if_pos hle, hcursor]
  refine ⟨rfl, Storage.cursor_onCursor _ _, h.readEof_eq, rfl, h.position_le, ?_⟩
  exact Nat.le_trans (Nat.le_of_eq (Cursor.resize_length _ _)) hle

theorem Holds.truncate (h : Holds p t) (hposition : p.cursor.position ≤ length)
    (hle : length ≤ isizeMax) :
    HoldsAfter (p.act (.truncate length)) (t.truncate length) := by
  rw [TempStream.truncate]
  cases hstorage : t.storage with
  | memory c =>
    have hcursor : c = p.cursor := by
      rw [← h.cursor_eq, TempStream.cursor, hstorage]
      rfl
    simp only
    split
    · obtain ⟨u, hu, hholds⟩ := h.spill
      rw [hu]
      exact hholds.setLen hle
    · have hattached : decide (length < c.position) = false := by
        rw [hcursor]
        exact decide_eq_false (Nat.not_lt.mpr hposition)
      have hset := h.setLen hle
      rw [hstorage] at hset
      rw [hattached]
      exact hset
  | file c =>
    have hset := h.setLen hle
    rw [hstorage] at hset
    exact hset

theorem Holds.act (h : Holds p t) (call : TempCall) (hmodest : Modest p call) :
    HoldsAfter (p.act call) (t.act call) := by
  have hcursor : t.storage.cursor = p.cursor := h.cursor_eq
  cases call with
  | read count =>
    simp only [Plain.act, TempStream.act, TempStream.read, Storage.read, hcursor, Cursor.read,
      h.readEof_eq]
    refine ⟨rfl, Storage.cursor_onCursor _ _, rfl, h.attached, ?_, h.length_le⟩
    have hposition := h.position_le
    have hlength := h.length_le
    simp only [Cursor.rest, List.length_take, List.length_drop]
    omega
  | isEof => exact ⟨congrArg TempAnswer.flag h.readEof_eq.symm, h⟩
  | write bytes append => exact h.write append hmodest.1 hmodest.2
  | seek whence =>
    obtain ⟨hzero, u, hu, hholds⟩ | ⟨hneg, herror⟩ := h.seek hmodest
    · simp only [Plain.act, TempStream.act, if_pos hzero, hu, TempStream.andThen]
      have hposition := congrArg Cursor.position hholds.cursor_eq.symm
      exact ⟨congrArg TempAnswer.position hposition, hholds⟩
    · simp only [Plain.act, TempStream.act, if_neg hneg, herror, TempStream.andThen]
      exact ⟨rfl, h⟩
  | position =>
    have hposition := congrArg Cursor.position h.cursor_eq.symm
    exact ⟨congrArg TempAnswer.position hposition, h⟩
  | truncate length => exact h.truncate hmodest.1 hmodest.2
  | flush => exact ⟨rfl, h⟩
  | stat _ | lockFile => exact hmodest.elim

/-- No run of such calls shows where the bytes are kept. -/
theorem observations_eq_plain (maxMemory : Nat) (calls : List TempCall)
    (hmodest : Allowed Plain.act Modest .new calls) :
    observations TempStream.act (.new maxMemory) calls =
      observations Plain.act .new calls := by
  have hsimulates : Simulates Plain.act TempStream.act Modest Holds :=
    ⟨fun _ _ call hholds hok => (hholds.act call hok).1,
      fun _ _ call hholds hok => (hholds.act call hok).2⟩
  have hnew : Holds .new (.new maxMemory) := ⟨rfl, rfl, rfl, Nat.zero_le _, Nat.zero_le _⟩
  exact (hsimulates.observations hnew hmodest).symm

theorem observations_eq_plain_spilled :
    observations TempStream.act (.new 3)
      [.write [1, 2] false, .seek (.current 2), .write [3] false, .seek (.start 0), .truncate 4,
        .read 9, .isEof, .write [4] true, .position] =
    observations Plain.act .new
      [.write [1, 2] false, .seek (.current 2), .write [3] false, .seek (.start 0), .truncate 4,
        .read 9, .isEof, .write [4] true, .position] :=
  observations_eq_plain 3 _ (by decide)

end Transparency

end Rphp.Stream
