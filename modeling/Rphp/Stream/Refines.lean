import Rphp.Lib.Run
import Rphp.Stream.Until

namespace Rphp.Stream
open Rphp.Lib
set_option autoImplicit true

/-! Whole runs of a stream: the read buffer cannot be seen. -/

variable {s : PhpStream} {t : Logical} {bytes : List UInt8} {position length : Nat}

section Seeks

theorem Views.sought (h : Views s t) (position : Nat) :
    Views (s.sought { s.memory with position := position }) (t.sought position) where
  contents_eq := h.contents_eq
  position_eq := by
    have hpublished : (s.sought { s.memory with position := position }).readBuffer.published = [] :=
      ReadBuffer.discard_published _
    rw [hpublished]
    rfl
  rest_eq := by
    have hpublished : (s.sought { s.memory with position := position }).readBuffer.published = [] :=
      ReadBuffer.discard_published _
    rw [hpublished, List.nil_append, Logical.rest, Logical.sought, h.contents_eq]
    rfl
  valid := ReadBuffer.discard_valid _
  mode_eq := h.mode_eq
  eof_eq := rfl
  eager_eq := h.eager_eq
  detached_eq := rfl
  bounded := h.bounded
  behind hdetached := absurd hdetached Bool.false_ne_true

theorem Views.unread_eq (h : Views s t) :
    s.memory.position = t.position + s.unreadLen := by
  rw [h.position_eq, h.valid.published_length]
  rfl

/-- What was read ahead lies inside the bytes. -/
theorem Views.unread_le (h : Views s t) (hunread : s.unreadLen ≠ 0) :
    s.memory.position ≤ s.memory.contents.length := by
  have hlength := congrArg List.length h.rest_eq
  rw [List.length_append, h.valid.published_length, Logical.rest, List.length_drop,
    h.contents_eq] at hlength
  have hunread' : s.readBuffer.unreadLen ≠ 0 := hunread
  have hposition := h.unread_eq
  have hlen : s.unreadLen = s.readBuffer.unreadLen := rfl
  omega

theorem Views.seek_current (h : Views s t) (offset : Int64) :
    s.seek (.current offset) =
      (Cursor.offsetFrom t.position offset.toInt).map
        fun position => s.sought { s.memory with position := position } := by
  have hposition := h.unread_eq
  have hbase : ((s.memory.position : Nat) : Int) + (offset.toInt - s.unreadLen) =
      (t.position : Int) + offset.toInt := by omega
  have hoffset : Cursor.offsetFrom s.memory.position (offset.toInt - s.unreadLen) =
      Cursor.offsetFrom t.position offset.toInt := by
    simp only [Cursor.offsetFrom, hbase]
  rw [PhpStream.seek]
  by_cases hlow : offset.toInt - s.unreadLen < -9223372036854775808
  · have hnone : Cursor.offsetFrom t.position offset.toInt = none := by
      have hi64 := offset.le_toInt
      have hunread : s.unreadLen ≠ 0 := by
        intro hzero
        rw [hzero] at hlow
        omega
      have hle := h.unread_le hunread
      have hbounded := h.bounded
      rw [Cursor.offsetFrom, if_neg]
      simp only [isizeMax] at hbounded
      omega
    rw [if_pos hlow, hnone]
    rfl
  · rw [if_neg hlow, Cursor.seekBy, hoffset]
    cases Cursor.offsetFrom t.position offset.toInt with
    | none => rfl
    | some position => rfl

/-- The same result, or none on both sides. -/
def SameResult (r : Option PhpStream) (r' : Option Logical) : Prop :=
  match r, r' with
  | some s, some t => Views s t
  | none, none => True
  | _, _ => False

theorem SameResult.or_none {r : Option PhpStream} {r' : Option Logical} (h : SameResult r r') :
    (∃ s t, r = some s ∧ r' = some t ∧ Views s t) ∨ (r = none ∧ r' = none) := by
  cases r with
  | none =>
    cases r' with
    | none => exact .inr ⟨rfl, rfl⟩
    | some t => exact h.elim
  | some s =>
    cases r' with
    | none => exact h.elim
    | some t => exact .inl ⟨s, t, rfl, rfl, h⟩

/-- Nothing is read ahead after a seek. -/
theorem seek_unread {whence : SeekFrom} {s' : PhpStream} (h : s.seek whence = some s') :
    s'.unreadLen = 0 := by
  cases whence with
  | start position =>
    cases h
    rfl
  | stop offset =>
    obtain ⟨memory, _, heq⟩ := Option.bind_eq_some_iff.mp h
    cases heq
    rfl
  | current offset =>
    rw [PhpStream.seek] at h
    split at h
    · cases h
    · obtain ⟨memory, _, heq⟩ := Option.bind_eq_some_iff.mp h
      cases heq
      rfl

theorem seek_views (h : Views s t) (whence : SeekFrom) :
    SameResult (s.seek whence) (t.seek whence) := by
  cases whence with
  | start position => exact h.sought position
  | stop offset =>
    rw [PhpStream.seek, Logical.seek, Cursor.seekBy, h.contents_eq]
    cases Cursor.offsetFrom s.memory.contents.length offset.toInt with
    | none => trivial
    | some position => exact h.sought position
  | current offset =>
    rw [h.seek_current, Logical.seek]
    cases Cursor.offsetFrom t.position offset.toInt with
    | none => trivial
    | some position => exact h.sought position

end Seeks

section Writes

/-- A write at a place, from a state with nothing read ahead. -/
theorem Views.written (h : Views s t) (hunread : s.unreadLen = 0) {target after : Nat}
    (hle : target + bytes.length ≤ isizeMax)
    (hbehind : t.detached = true → max t.contents.length (target + bytes.length) ≤ after) :
    Views { s with
        memory := ⟨Cursor.overwrite s.memory.contents target bytes, after⟩
        eof := false }
      { t with
        contents := Cursor.overwrite t.contents target bytes
        position := after
        eof := false } := by
  have hnil := h.published_eq_nil hunread
  refine ⟨congrArg (Cursor.overwrite · target bytes) h.contents_eq, ?_, ?_, h.valid, h.mode_eq, rfl,
    h.eager_eq, h.detached_eq, ?_, ?_⟩
  · simp only [hnil]
    rfl
  · simp only [hnil, List.nil_append, Logical.rest, Cursor.rest, h.contents_eq]
  · have := h.bounded
    simp only [Cursor.overwrite_length]
    omega
  · intro hdetached
    simp only [Cursor.overwrite_length]
    exact hbehind hdetached

/-- The place of the script comes first, and nothing is read ahead any more. -/
theorem Views.settled (h : Views s t) (hunread : s.unreadLen ≠ 0) :
    ∃ s', s.seek (.current 0) = some s' ∧ Views s' { t with eof := false } ∧ s'.unreadLen = 0 ∧
      s'.mode = s.mode ∧ s'.memoryAppendAfterTruncate = false := by
  have hposition := h.unread_eq
  have hle := h.unread_le hunread
  have hbounded := h.bounded
  have hattached : t.detached = false := by
    cases hdetached : t.detached with
    | false => rfl
    | true =>
      have hend := h.behind hdetached
      rw [h.contents_eq] at hend
      omega
  have hoffset : Cursor.offsetFrom t.position (0 : Int64).toInt = some t.position := by
    have hzero : (0 : Int64).toInt = 0 := rfl
    simp only [isizeMax] at hbounded
    rw [Cursor.offsetFrom, hzero, Int.add_zero, if_pos (by omega)]
    rfl
  refine ⟨s.sought { s.memory with position := t.position }, ?_, ?_, rfl, rfl, rfl⟩
  · rw [h.seek_current, hoffset]
    rfl
  · have hsame : ({ t with eof := false } : Logical) = t.sought t.position := by
      rw [Logical.sought, ← hattached]
    rw [hsame]
    exact h.sought t.position

theorem writeMemory_eq (s : PhpStream) (bytes : List UInt8) :
    s.writeMemory bytes =
      if s.memory.position + bytes.length ≤ isizeMax then
        some { s with memory := ⟨Cursor.overwrite s.memory.contents s.memory.position bytes,
          s.memory.position + bytes.length⟩ }
      else none := by
  rw [PhpStream.writeMemory, Cursor.write]
  split
  · rfl
  · rfl

theorem writeDetached_eq (s : PhpStream) (bytes : List UInt8) :
    s.writeDetached bytes =
      if s.memory.contents.length + bytes.length ≤ isizeMax then
        some { s with memory := ⟨Cursor.overwrite s.memory.contents s.memory.contents.length bytes,
          s.memory.position + bytes.length⟩ }
      else none := by
  rw [PhpStream.writeDetached, Cursor.write, PhpStream.atEnd]
  simp only
  split
  · rfl
  · rfl

theorem Logical.write_eq {target base : Nat}
    (htarget : (if t.mode.append || t.detached then t.contents.length else t.position) = target)
    (hbase : (if t.mode.append then t.contents.length else t.position) = base) :
    t.write bytes =
      if target + bytes.length ≤ isizeMax then
        some { t with
          contents := Cursor.overwrite t.contents target bytes
          position := base + bytes.length
          eof := false }
      else none := by
  rw [write, hbase]
  simp only [htarget]

theorem Views.same_write (h : Views s t) (hunread : s.unreadLen = 0) (bytes : List UInt8)
    (target base : Nat)
    (htarget : (if t.mode.append || t.detached then t.contents.length else t.position) = target)
    (hbase : (if t.mode.append then t.contents.length else t.position) = base)
    (hbehind : t.detached = true →
      max t.contents.length (target + bytes.length) ≤ base + bytes.length) :
    SameResult
      (if target + bytes.length ≤ isizeMax then
        some { s with
          memory := ⟨Cursor.overwrite s.memory.contents target bytes, base + bytes.length⟩
          eof := false }
      else none)
      (t.write bytes) := by
  rw [Logical.write_eq htarget hbase]
  by_cases hle : target + bytes.length ≤ isizeMax
  · rw [if_pos hle, if_pos hle]
    exact h.written hunread hle hbehind
  · rw [if_neg hle, if_neg hle]
    trivial

/-- Where the script has not moved since the end was left behind, the place it is at does not
matter. -/
theorem write_settled (h : Views s t) (hunread : s.unreadLen = 0) (bytes : List UInt8) :
    SameResult
      (if s.mode.append then (s.withEof false).atEnd.writeMemory bytes
        else if s.memoryAppendAfterTruncate then (s.withEof false).writeDetached bytes
        else (s.withEof false).writeMemory bytes)
      (t.write bytes) := by
  have hposition := h.unread_eq
  rw [hunread, Nat.add_zero] at hposition
  by_cases happend : s.mode.append = true
  · rw [if_pos happend, writeMemory_eq]
    have happend' : t.mode.append = true := h.mode_eq ▸ happend
    have hresult := h.same_write hunread bytes t.contents.length t.contents.length
      (by rw [happend', Bool.true_or, if_pos rfl]) (by rw [if_pos happend'])
      (fun _ => Nat.max_le.mpr ⟨Nat.le_add_right _ _, Nat.le_refl _⟩)
    rw [h.contents_eq] at hresult
    exact hresult
  · have happend' : t.mode.append = false := by
      rw [h.mode_eq]
      exact Bool.not_eq_true _ ▸ happend
    rw [if_neg happend]
    by_cases hdetached : s.memoryAppendAfterTruncate = true
    · have hdetached' : t.detached = true := h.detached_eq.trans hdetached
      have hend := h.behind hdetached'
      rw [if_pos hdetached]
      have hresult := h.same_write hunread bytes t.contents.length t.position
        (by rw [hdetached', Bool.or_true, if_pos rfl])
        (by rw [happend', if_neg Bool.false_ne_true])
        (fun _ => Nat.max_le.mpr ⟨by omega, by omega⟩)
      rw [h.contents_eq, ← hposition] at hresult
      rw [writeDetached_eq]
      exact hresult
    · have hdetached' : t.detached = false := by
        rw [h.detached_eq]
        exact Bool.not_eq_true _ ▸ hdetached
      rw [if_neg hdetached, writeMemory_eq]
      have hresult := h.same_write hunread bytes t.position t.position
        (by rw [happend', hdetached', Bool.or_self, if_neg Bool.false_ne_true])
        (by rw [happend', if_neg Bool.false_ne_true])
        (fun htrue => absurd (hdetached'.symm.trans htrue) Bool.false_ne_true)
      rw [← hposition] at hresult
      exact hresult

theorem write_views (h : Views s t) (bytes : List UInt8) :
    SameResult (s.write bytes) (t.write bytes) := by
  rw [PhpStream.write]
  by_cases hunread : s.unreadLen = 0
  · have hresult := write_settled h hunread bytes
    by_cases hfast : (!s.mode.append && !s.memoryAppendAfterTruncate && s.unreadLen == 0) = true
    · rw [if_pos hfast]
      simp only [Bool.and_eq_true, Bool.not_eq_true'] at hfast
      rw [hfast.1.1, hfast.1.2, if_neg Bool.false_ne_true, if_neg Bool.false_ne_true] at hresult
      exact hresult
    · rw [if_neg hfast]
      simp only [PhpStream.writeBuffered, hunread, ne_eq, not_true_eq_false, if_false]
      exact hresult
  · have hslow : ¬ (!s.mode.append && !s.memoryAppendAfterTruncate && s.unreadLen == 0) = true := by
      simp only [Bool.and_eq_true, beq_iff_eq]
      exact fun hfast => hunread hfast.2
    obtain ⟨s', hseek, hviews, hempty, -, -⟩ := h.settled hunread
    rw [if_neg hslow]
    simp only [PhpStream.writeBuffered, hunread, ne_eq, not_false_eq_true, if_true, hseek]
    have hresult := write_settled hviews hempty bytes
    exact hresult

theorem resize_rest (h : Views s t) (hsettled : s.unreadLen = 0 ∨ s.memory.position ≤ length) :
    s.readBuffer.published ++ (Cursor.resize s.memory.contents length).drop s.memory.position =
      (Cursor.resize s.memory.contents length).drop t.position := by
  have hposition := h.unread_eq
  by_cases hunread : s.unreadLen = 0
  · rw [hunread, Nat.add_zero] at hposition
    rw [h.published_eq_nil hunread, List.nil_append, hposition]
  · have hkept := hsettled.resolve_left hunread
    have hle := h.unread_le hunread
    have hpublished : s.readBuffer.published =
        (s.memory.contents.drop t.position).take s.unreadLen := by
      have hlength : s.readBuffer.published.length = s.unreadLen := h.valid.published_length
      have hrest := congrArg (List.take s.unreadLen) h.rest_eq
      rw [List.take_append_of_le_length (Nat.le_of_eq hlength.symm),
        List.take_of_length_le (Nat.le_of_eq hlength), Logical.rest, h.contents_eq] at hrest
      exact hrest
    have htake : ((Cursor.resize s.memory.contents length).drop t.position).take s.unreadLen =
        (s.memory.contents.drop t.position).take s.unreadLen := by
      rw [List.take_drop, List.take_drop, Cursor.resize,
        List.take_append_of_le_length (by rw [List.length_take]; omega), List.take_take,
        Nat.min_eq_left (by omega)]
    rw [hpublished, ← htake, hposition, ← List.drop_drop, List.take_append_drop]

/-- Bytes may be cut off behind those that were read ahead. -/
theorem truncate_views (h : Views s t)
    (hsettled : s.unreadLen = 0 ∨ s.memory.position ≤ length) :
    SameResult (s.truncate length) (t.truncate length) := by
  rw [PhpStream.truncate, Logical.truncate]
  by_cases hle : length ≤ isizeMax
  · rw [if_pos hle, if_pos hle]
    have hposition := h.unread_eq
    have hcut : decide (length < t.position) = decide (length < s.memory.position) := by
      apply decide_eq_decide.mpr
      omega
    refine ⟨congrArg (Cursor.resize · length) h.contents_eq, h.position_eq, ?_, h.valid, h.mode_eq,
      h.eof_eq, h.eager_eq, hcut, ?_, ?_⟩
    · simp only [Logical.rest, Cursor.rest, h.contents_eq]
      exact resize_rest h hsettled
    · simp only [Cursor.resize_length]
      exact hle
    · intro hdetached
      simp only [Cursor.resize_length]
      exact Nat.le_of_lt (of_decide_eq_true hdetached)
  · rw [if_neg hle, if_neg hle]
    trivial

end Writes

section Runs

/-- No bytes are cut off that were read ahead. -/
def Settled (s : PhpStream) : Call → Prop
  | .truncate length => s.unreadLen = 0 ∨ s.memory.position ≤ length
  | _ => True

instance decidableSettled (s : PhpStream) : (call : Call) → Decidable (Settled s call)
  | .truncate length =>
    inferInstanceAs (Decidable (s.unreadLen = 0 ∨ s.memory.position ≤ length))
  | .read _ | .readLine _ | .readUntil _ _ | .readContents _ _ | .seek _ | .rewind | .position
  | .isEof | .write _ => .isTrue trivial

theorem isEof_eq (h : Views s t) : s.isEof = t.isEof := by
  have hposition := h.unread_eq
  rw [PhpStream.isEof, Logical.isEof, h.eof_eq, h.eager_eq, h.contents_eq]
  by_cases hunread : s.unreadLen = 0
  · rw [hunread, Nat.add_zero] at hposition
    rw [hunread, hposition, beq_self_eq_true, Bool.and_true]
  · have hle := h.unread_le hunread
    have hbehind : decide (s.memory.contents.length ≤ t.position) = false :=
      decide_eq_false (by omega)
    have hunread' : (s.unreadLen == 0) = false := beq_eq_false_iff_ne.mpr hunread
    rw [hbehind, hunread', Bool.and_false, Bool.false_and]

/-- One call answers the same, and the stream still shows the bytes behind the script. -/
def SameAnswer (r : PhpStream × Answer) (r' : Logical × Answer) : Prop :=
  r.2 = r'.2 ∧ Views r.1 r'.1

theorem SameLine.answer {r : Option (List UInt8) × PhpStream} {r' : Option (List UInt8) × Logical}
    (h : SameLine r r') : SameAnswer (r.2, .line r.1) (r'.2, .line r'.1) :=
  ⟨congrArg Answer.line h.1, h.2⟩

/-- Both streams may be read, or neither. -/
theorem Views.readable (h : Views s t) {r : PhpStream × Answer} {r' : Logical × Answer}
    (hread : SameAnswer r r') :
    SameAnswer (if s.mode.read then r else (s, .permissionDenied))
      (if t.mode.read then r' else (t, .permissionDenied)) := by
  rw [h.mode_eq]
  split
  · exact hread
  · exact ⟨rfl, h⟩

theorem Views.writable (h : Views s t) {r : PhpStream × Answer} {r' : Logical × Answer}
    (hwrite : SameAnswer r r') :
    SameAnswer (if s.mode.write then r else (s, .permissionDenied))
      (if t.mode.write then r' else (t, .permissionDenied)) := by
  rw [h.mode_eq]
  split
  · exact hwrite
  · exact ⟨rfl, h⟩

theorem act_views (h : Views s t) (call : Call) (hsettled : Settled s call) :
    SameAnswer (s.act call) (t.act call) := by
  cases call with
  | read count =>
    obtain ⟨hbytes, hviews⟩ := readBytes_views h count
    exact h.readable ⟨congrArg Answer.bytes hbytes, hviews⟩
  | readLine length =>
    simp only [PhpStream.act, Logical.act, PhpStream.readLine]
    cases lineMaximum length with
    | none => exact ⟨rfl, h⟩
    | some maximum => exact h.readable (readLineMax_views h maximum).answer
  | readUntil maximum ending => exact h.readable (readUntil_views h _ ending).answer
  | readContents maximum offset =>
    apply h.readable
    cases offset with
    | none =>
      obtain ⟨hbytes, hviews⟩ := readContents_views h (maximum.getD usizeMax)
      exact ⟨congrArg Answer.bytes hbytes, hviews⟩
    | some offset =>
      obtain ⟨hbytes, hviews⟩ := readContents_views (h.sought offset) (maximum.getD usizeMax)
      exact ⟨congrArg Answer.bytes hbytes, hviews⟩
  | seek whence =>
    simp only [PhpStream.act, Logical.act]
    obtain ⟨s', t', hs, ht, hviews⟩ | ⟨hs, ht⟩ := (seek_views h whence).or_none
    · rw [hs, ht]
      have hposition := hviews.unread_eq
      rw [seek_unread hs, Nat.add_zero] at hposition
      exact ⟨congrArg Answer.position hposition, hviews⟩
    · rw [hs, ht]
      exact ⟨rfl, h⟩
  | rewind => exact ⟨rfl, h.sought 0⟩
  | position =>
    have hposition := h.unread_eq
    refine ⟨congrArg Answer.position ?_, h⟩
    rw [PhpStream.position]
    omega
  | isEof => exact ⟨congrArg Answer.flag (isEof_eq h), h⟩
  | write bytes =>
    apply h.writable
    obtain ⟨s', t', hs, ht, hviews⟩ | ⟨hs, ht⟩ := (write_views h bytes).or_none
    · rw [hs, ht]
      exact ⟨rfl, hviews⟩
    · rw [hs, ht]
      exact ⟨rfl, h⟩
  | truncate length =>
    apply h.writable
    obtain ⟨s', t', hs, ht, hviews⟩ | ⟨hs, ht⟩ := (truncate_views h hsettled).or_none
    · rw [hs, ht]
      exact ⟨rfl, hviews⟩
    · rw [hs, ht]
      exact ⟨rfl, h⟩

/-- A stream as it is opened, over nothing or over the bytes of a wrapper. -/
inductive Opens : PhpStream → Logical → Prop
  | memory (mode : List Char) : Opens (openMemory mode) (.openMemory mode)
  | bytes (bytes : List UInt8) (hbounded : bytes.length ≤ isizeMax) :
    Opens (readonlyBytes bytes) (.readonlyBytes bytes)

theorem Opens.views (h : Opens s t) : Views s t := by
  cases h with
  | memory mode =>
    exact ⟨rfl, rfl, rfl, ReadBuffer.valid_empty, rfl, rfl, rfl, rfl, Nat.zero_le _,
      fun hdetached => absurd hdetached Bool.false_ne_true⟩
  | bytes bytes hbounded =>
    exact ⟨rfl, rfl, rfl, ReadBuffer.valid_empty, rfl, rfl, rfl, rfl, hbounded,
      fun hdetached => absurd hdetached Bool.false_ne_true⟩

/-- No run of calls shows the read buffer of a stream. -/
theorem observations_eq_logical (h : Opens s t) (calls : List Call)
    (hsettled : Allowed PhpStream.act Settled s calls) :
    observations PhpStream.act s calls = observations Logical.act t calls := by
  have hsimulates : Simulates PhpStream.act Logical.act Settled Views :=
    ⟨fun _ _ call hviews hok => (act_views hviews call hok).1,
      fun _ _ call hviews hok => (act_views hviews call hok).2⟩
  exact hsimulates.observations h.views hsettled

theorem observations_eq_logical_lines :
    observations PhpStream.act (openMemory ['w', '+'])
      [.write [97, 10, 98, 99], .rewind, .readLine none, .position, .rewind, .truncate 3,
        .readUntil none [98], .isEof] =
    observations Logical.act (.openMemory ['w', '+'])
      [.write [97, 10, 98, 99], .rewind, .readLine none, .position, .rewind, .truncate 3,
        .readUntil none [98], .isEof] :=
  observations_eq_logical (.memory ['w', '+']) _
    ⟨trivial, trivial, trivial, trivial, trivial, .inl rfl, trivial, trivial, trivial⟩

/-- The ending is found where it first occurs, whatever pieces it is read in. -/
theorem readUntil_first (h : Views s t) (hread : s.mode.read = true)
    (line ending after : List UInt8) (hending : ending ≠ [])
    (hrest : t.rest = line ++ ending ++ after)
    (hfirst : ∀ k < (line ++ ending).length, ¬ ending <:+ (line ++ ending).take k)
    {maximum : Nat} (hmaximum : (line ++ ending).length ≤ maximum) :
    (s.readUntil (some maximum) ending).2 = .line (some line) ∧
      Views (s.readUntil (some maximum) ending).1 (t.reach (line ++ ending).length false) := by
  have hpos : 0 < (line ++ ending).length := by
    have := List.length_pos_of_ne_nil hending
    rw [List.length_append]
    omega
  have hfound : firstEnding ending (t.rest.take maximum) = some (line ++ ending).length := by
    have htake : ∀ k ≤ (line ++ ending).length,
        (t.rest.take maximum).take k = (line ++ ending).take k := by
      intro k hk
      rw [List.take_take, Nat.min_eq_left (Nat.le_trans hk hmaximum), hrest,
        List.take_append_of_le_length hk]
    apply firstEnding_eq_some hending hpos
    · have hlength := congrArg List.length hrest
      rw [List.length_append] at hlength
      rw [List.length_take]
      omega
    · rw [htake _ (Nat.le_refl _), List.take_length]
      exact List.suffix_append line ending
    · intro k _ hk
      rw [htake k (Nat.le_of_lt hk)]
      exact hfirst k hk
  have hline : (t.rest.take maximum).take ((line ++ ending).length - ending.length) = line := by
    rw [List.length_append, Nat.add_sub_cancel, List.take_take, hrest, List.append_assoc]
    rw [Nat.min_eq_left (by rw [List.length_append] at hmaximum; omega)]
    exact List.take_left
  have hresult := readUntil_views h maximum ending
  rw [Logical.readUntilMax, if_neg (by omega)] at hresult
  simp only [hfound, hline] at hresult
  rw [PhpStream.readUntil, if_pos hread]
  exact ⟨congrArg Answer.line hresult.1, hresult.2⟩

theorem readUntil_first_overlap :
    ((readonlyBytes [97, 97, 98, 97, 97, 99]).readUntil (some 8) [97, 97, 99]).2 =
        .line (some [97, 97, 98]) ∧
      Views ((readonlyBytes [97, 97, 98, 97, 97, 99]).readUntil (some 8) [97, 97, 99]).1
        ((Logical.readonlyBytes [97, 97, 98, 97, 97, 99]).reach 6 false) :=
  readUntil_first (Opens.bytes _ (by decide)).views rfl [97, 97, 98] [97, 97, 99] []
    (List.cons_ne_nil _ _) rfl (by decide) (by decide)

end Runs

end Rphp.Stream
