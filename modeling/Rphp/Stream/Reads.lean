import Rphp.Stream.Views

namespace Rphp.Stream
open Rphp.Lib
set_option autoImplicit true

/-! Each way to read gets the bytes behind the place of the script. -/

variable {s : PhpStream} {t : Logical} {bytes output : List UInt8} {count maximum : Nat}

section Bytes

theorem Logical.reach_reach (t : Logical) (count count' : Nat) (eof eof' : Bool) :
    (t.reach count eof).reach count' eof' = t.reach (count + count') eof' := by
  rw [reach, reach, reach, Nat.add_assoc]

theorem Logical.reach_zero {ended : Bool} (heof : t.eof = ended) : t.reach 0 ended = t := by
  rw [← heof]
  rfl

theorem Logical.reach_rest (t : Logical) (count : Nat) (eof : Bool) :
    (t.reach count eof).rest = t.rest.drop count := t.skip_rest count

/-- The rest of a read that has got some bytes. -/
theorem Logical.split_rest (hfront : bytes <+: t.rest) (hle : bytes.length ≤ total) (eof : Bool) :
    t.rest.take total =
      bytes ++ (t.reach bytes.length eof).rest.take (total - bytes.length) := by
  obtain ⟨after, hafter⟩ := hfront
  rw [reach_rest, ← hafter, List.drop_left, List.take_append, List.take_of_length_le hle]

theorem Takes.split (h : Takes t count bytes s) (hle : count ≤ total) (eof : Bool) :
    t.rest.take total =
      bytes ++ (t.reach bytes.length eof).rest.take (total - bytes.length) :=
  Logical.split_rest h.front (Nat.le_trans h.length_le hle) eof

/-- What the whole read gets, from a state where some of it has been got. -/
theorem readFully_views (remaining : Nat) : ∀ {s : PhpStream} {t : Logical},
    Views s t → ∀ total : List UInt8, total.length + remaining = count →
    (remaining = 0 → t.eof = false) →
    (s.readFully total count).1 = total ++ t.rest.take remaining ∧
      Views (s.readFully total count).2 (t.reach (t.rest.take remaining).length
        (decide ((t.rest.take remaining).length < remaining))) := by
  induction remaining using Nat.strongRecOn with
  | ind remaining ih =>
    intro s t h total hcount heof
    rw [PhpStream.readFully]
    by_cases hlt : total.length < count
    · rw [if_pos hlt]
      have htakes := h.readOnce (Nat.sub_pos_of_lt hlt)
      have hsub : count - total.length = remaining := by omega
      rw [hsub] at htakes ⊢
      cases hread : s.readOnce remaining with
      | mk bytes s' =>
        rw [hread] at htakes
        cases bytes with
        | nil =>
          have hshort : (0 : Nat) < remaining := by omega
          rw [htakes.ended rfl, List.take_nil, List.append_nil, List.length_nil,
            decide_eq_true hshort]
          exact ⟨rfl, htakes.views.with_eof true⟩
        | cons byte bytes =>
          have hle : (byte :: bytes).length ≤ remaining := htakes.length_le
          have hpos : 0 < (byte :: bytes).length := Nat.succ_pos _
          have hsplit := htakes.split (Nat.le_refl _) false
          have hrest := ih (remaining - (byte :: bytes).length) (by omega)
            (htakes.views.with_eof false) (total ++ byte :: bytes)
            (by rw [List.length_append]; omega) (fun _ => rfl)
          rw [Logical.reach_reach] at hrest
          rw [hsplit, List.length_append, ← List.append_assoc]
          refine ⟨hrest.1, ?_⟩
          have hdecide : decide ((byte :: bytes).length +
              ((t.reach (byte :: bytes).length false).rest.take
                (remaining - (byte :: bytes).length)).length < remaining) =
              decide (((t.reach (byte :: bytes).length false).rest.take
                (remaining - (byte :: bytes).length)).length <
                remaining - (byte :: bytes).length) := by
            apply decide_eq_decide.mpr
            omega
          rw [hdecide]
          exact hrest.2
    · rw [if_neg hlt]
      obtain rfl : remaining = 0 := by omega
      have hsame : t.reach 0 (decide (0 < 0)) = t := Logical.reach_zero (heof rfl)
      rw [List.take_zero, List.append_nil, List.length_nil, hsame]
      exact ⟨rfl, h⟩

theorem readBytes_views (h : Views s t) (count : Nat) :
    (s.readBytes count).1 = (t.readBytes count).1 ∧
      Views (s.readBytes count).2 (t.readBytes count).2 := by
  rw [PhpStream.readBytes, Logical.readBytes]
  by_cases hempty : s.unreadLen = 0
  · rw [if_pos hempty]
    obtain ⟨hbytes, hviews⟩ := h.readBackend hempty count
    refine ⟨hbytes, ?_⟩
    by_cases hzero : count = 0
    · subst hzero
      rw [if_pos rfl]
      simp only [if_pos]
      rw [hbytes, List.take_zero] at hviews
      exact hviews
    · simp only [if_neg hzero]
      rw [← hbytes]
      exact hviews.with_eof _
  · rw [if_neg hempty]
    by_cases hzero : count = 0
    · subst hzero
      rw [PhpStream.readFully]
      exact ⟨rfl, h⟩
    · have hfully := readFully_views count h [] (Nat.zero_add count)
        (fun hz => absurd hz hzero)
      rw [List.nil_append] at hfully
      simp only [if_neg hzero]
      exact hfully

end Bytes

section Lines

variable {l m : List UInt8}

theorem lineOf_of_not_mem (h : lineFeed ∉ l) : lineOf l = l := by
  have hnone : l.findIdx? (fun byte => decide (byte = lineFeed)) = none := by
    rw [List.findIdx?_eq_none_iff]
    intro byte hbyte
    apply decide_eq_false
    rintro rfl
    exact h hbyte
  rw [lineOf, hnone]

theorem lineOf_cons (byte : UInt8) (l : List UInt8) :
    lineOf (byte :: l) = if byte = lineFeed then [byte] else byte :: lineOf l := by
  rw [lineOf, List.findIdx?_cons]
  by_cases heq : byte = lineFeed
  · rw [if_pos heq]
    simp only [decide_eq_true heq, if_true]
    rfl
  · rw [if_neg heq, lineOf]
    simp only [decide_eq_false heq, Bool.false_eq_true, if_false]
    cases l.findIdx? (fun byte => decide (byte = lineFeed)) with
    | none => rfl
    | some i => rfl

theorem lineOf_append (l m : List UInt8) :
    lineOf (l ++ m) = if lineFeed ∈ l then lineOf l else l ++ lineOf m := by
  induction l with
  | nil => rfl
  | cons byte l ih =>
    rw [List.cons_append, lineOf_cons, lineOf_cons, ih]
    by_cases heq : byte = lineFeed
    · rw [if_pos heq, if_pos heq, if_pos (heq ▸ List.mem_cons_self)]
    · rw [if_neg heq, if_neg heq]
      have hmem : lineFeed ∈ byte :: l ↔ lineFeed ∈ l := by
        rw [List.mem_cons]
        exact or_iff_right (Ne.symm heq)
      by_cases hl : lineFeed ∈ l
      · rw [if_pos hl, if_pos (hmem.mpr hl)]
      · rw [if_neg hl, if_neg (fun hin => hl (hmem.mp hin)), List.cons_append]

theorem lineOf_front (l : List UInt8) : lineOf l <+: l := by
  induction l with
  | nil => exact List.prefix_refl _
  | cons byte l ih =>
    rw [lineOf_cons]
    split
    · exact ⟨l, rfl⟩
    · exact List.prefix_cons_inj byte |>.mpr ih

theorem mem_lineOf_iff : lineFeed ∈ lineOf l ↔ lineFeed ∈ l := by
  constructor
  · exact fun h => (lineOf_front l).subset h
  · intro h
    induction l with
    | nil => exact h
    | cons byte l ih =>
      rw [lineOf_cons]
      split
      · next heq => exact heq ▸ List.mem_singleton_self _
      · next hne =>
        have hmem := (List.mem_cons.mp h).resolve_left (Ne.symm hne)
        exact List.mem_cons_of_mem _ (ih hmem)

theorem lineOf_ne_nil (h : l ≠ []) : lineOf l ≠ [] := by
  cases l with
  | nil => exact h
  | cons byte l =>
    rw [lineOf_cons]
    split
    · exact List.cons_ne_nil _ _
    · exact List.cons_ne_nil _ _

/-- What a line reader has when it goes on: no line feed in what it got so far. -/
structure Unfinished (t : Logical) (output : List UInt8) (maximum : Nat) : Prop where
  no_feed : lineFeed ∉ output
  length_le : output.length ≤ maximum
  not_ended : output.length = maximum → t.eof = false
  nonempty : 0 < maximum

/-- The line that goes on from what was got so far, and whether the end was met. -/
def Logical.finishLine (t : Logical) (output : List UInt8) (maximum : Nat) :
    Option (List UInt8) × Logical :=
  let line := lineOf (t.rest.take (maximum - output.length))
  (if output ++ line = [] then none else some (output ++ line),
    t.reach line.length (!(line.contains lineFeed) && decide ((output ++ line).length < maximum)))

theorem finishLine_full (h : Unfinished t output maximum) (hfull : ¬ output.length < maximum) :
    t.finishLine output maximum = (some output, t) := by
  have heq : output.length = maximum := Nat.le_antisymm h.length_le (Nat.le_of_not_lt hfull)
  have hne : output ≠ [] := by
    rintro rfl
    exact absurd h.nonempty (by rw [← heq]; exact Nat.lt_irrefl 0)
  have hline : lineOf (t.rest.take (maximum - output.length)) = [] := by
    rw [heq, Nat.sub_self, List.take_zero]
    rfl
  simp only [Logical.finishLine, hline, List.append_nil, if_neg hne, decide_eq_false hfull,
    Bool.and_false]
  rw [List.length_nil, Logical.reach_zero (h.not_ended heq)]

theorem finishLine_ended (hlt : output.length < maximum)
    (hrest : t.rest = []) :
    t.finishLine output maximum = (if output = [] then none else some output, t.reach 0 true) := by
  have hline : lineOf (t.rest.take (maximum - output.length)) = [] := by
    rw [hrest, List.take_nil]
    rfl
  simp only [Logical.finishLine, hline, List.append_nil, decide_eq_true hlt]
  rfl

/-- A piece of the bytes with a line feed ends the line. -/
theorem finishLine_found (h : Takes t count bytes s) (hle : count ≤ maximum - output.length)
    (hfeed : lineFeed ∈ bytes) :
    t.finishLine output maximum =
      (some (output ++ lineOf bytes), t.reach (lineOf bytes).length false) := by
  have hline : lineOf (t.rest.take (maximum - output.length)) = lineOf bytes := by
    rw [h.split hle false, lineOf_append, if_pos hfeed]
  have hmem : (lineOf bytes).contains lineFeed = true :=
    List.contains_iff_mem.mpr (mem_lineOf_iff.mpr hfeed)
  have hne : output ++ lineOf bytes ≠ [] := by
    intro hnil
    exact lineOf_ne_nil (List.ne_nil_of_mem hfeed) (List.append_eq_nil_iff.mp hnil).2
  simp only [Logical.finishLine, hline, hmem, Bool.not_true, Bool.false_and, if_neg hne]

/-- A piece without one is part of it. -/
theorem finishLine_more (h : Takes t count bytes s) (hle : count ≤ maximum - output.length)
    (hfeed : lineFeed ∉ bytes) :
    t.finishLine output maximum =
      (t.reach bytes.length false).finishLine (output ++ bytes) maximum := by
  have hsub : maximum - output.length - bytes.length = maximum - (output ++ bytes).length := by
    rw [List.length_append]
    omega
  have hline : lineOf (t.rest.take (maximum - output.length)) =
      bytes ++ lineOf ((t.reach bytes.length false).rest.take
        (maximum - (output ++ bytes).length)) := by
    rw [h.split hle false, lineOf_append, if_neg hfeed, hsub]
  have hcontains : bytes.contains lineFeed = false := by
    rw [← Bool.not_eq_true, List.contains_iff_mem]
    exact hfeed
  simp only [Logical.finishLine, hline, ← List.append_assoc, Logical.reach_reach,
    List.contains_append, hcontains, Bool.false_or, List.length_append]

theorem Unfinished.more (h : Unfinished t output maximum)
    (hle : bytes.length ≤ maximum - output.length) (hfeed : lineFeed ∉ bytes) :
    Unfinished (t.reach bytes.length false) (output ++ bytes) maximum where
  no_feed hmem := (List.mem_append.mp hmem).elim h.no_feed hfeed
  length_le := by
    have := h.length_le
    rw [List.length_append]
    omega
  not_ended _ := rfl
  nonempty := h.nonempty

/-- The same result, from related states. -/
def SameLine (r : Option (List UInt8) × PhpStream) (r' : Option (List UInt8) × Logical) : Prop :=
  r.1 = r'.1 ∧ Views r.2 r'.2

theorem contains_false_iff : (bytes.contains lineFeed = true) = (lineFeed ∈ bytes) :=
  propext List.contains_iff_mem

/-- The bytes behind those that are used are read again. -/
theorem Takes.putBack_drop (h : Takes t count bytes s) (ht : t.Behind) (hle : used ≤ bytes.length) :
    Views ((s.withEof false).putBack (bytes.drop used)) (t.reach used false) := by
  obtain ⟨behind, hbehind⟩ := h.front
  apply Views.putBack
  · have hsum : used + (bytes.drop used).length = bytes.length := by
      rw [List.length_drop]
      omega
    have hreach : (t.reach used false).skip (bytes.drop used).length = t.reach bytes.length false :=
      (Logical.reach_reach t used _ false false).trans (by rw [hsum])
    rw [hreach]
    exact h.views.with_eof false
  · rw [Logical.reach_rest, ← hbehind, List.drop_append_of_le_length hle]
    exact List.prefix_append _ _
  · exact ht.skip _

theorem readLineChunks_views (remaining : Nat) : ∀ {s : PhpStream} {t : Logical}
    {output : List UInt8}, Views s t → Unfinished t output maximum →
    maximum - output.length = remaining →
    SameLine (s.readLineChunks output maximum) (t.finishLine output maximum) := by
  induction remaining using Nat.strongRecOn with
  | ind remaining ih =>
    intro s t output h hunfinished hremaining
    rw [PhpStream.readLineChunks]
    by_cases hlt : output.length < maximum
    · rw [dif_pos hlt]
      have hcount : 0 < min 8192 (maximum - output.length) := by omega
      have htakes := h.readPrefetched hcount
      have hle : min 8192 (maximum - output.length) ≤ maximum - output.length :=
        Nat.min_le_right _ _
      cases hread : s.readPrefetched (min 8192 (maximum - output.length)) with
      | mk bytes s' =>
        rw [hread] at htakes
        cases bytes with
        | nil =>
          rw [finishLine_ended hlt (htakes.ended rfl)]
          exact ⟨rfl, htakes.views.with_eof true⟩
        | cons byte bytes =>
          by_cases hfeed : lineFeed ∈ byte :: bytes
          · rw [finishLine_found htakes hle hfeed]
            simp only [List.contains_iff_mem.mpr hfeed, if_true]
            exact ⟨rfl, htakes.putBack_drop h.behind (lineOf_front _).length_le⟩
          · rw [finishLine_more htakes hle hfeed]
            have hlength := Nat.le_trans htakes.length_le hle
            have hpos : 0 < (byte :: bytes).length := Nat.succ_pos _
            simp only [contains_false_iff, if_neg hfeed, lineOf_of_not_mem hfeed, List.drop_length]
            apply ih (maximum - (output ++ byte :: bytes).length) ?_ ?_
              (hunfinished.more hlength hfeed) rfl
            · rw [List.length_append]
              omega
            · exact (htakes.views.with_eof false)
    · rw [dif_neg hlt, finishLine_full hunfinished hlt]
      exact ⟨rfl, h⟩

/-- The buffer holds something, or there is nothing left. -/
theorem Views.filled (h : Views s t) :
    Views (if s.unreadLen = 0 then s.refillReadBuffer else s) t ∧
      ((if s.unreadLen = 0 then s.refillReadBuffer else s).readBuffer.published = [] →
        t.rest = []) := by
  by_cases hempty : s.unreadLen = 0
  · rw [if_pos hempty]
    exact h.refillReadBuffer hempty
  · rw [if_neg hempty]
    exact ⟨h, h.unread hempty⟩

/-- Less may be taken from the buffer than was looked at. -/
theorem Views.take_front (h : Views s t) (hbytes : (s.takePublished count).1 = bytes)
    (hle : used ≤ bytes.length) :
    Views ((s.takePublished used).2.withEof false) (t.reach used false) := by
  obtain ⟨htake, hviews⟩ := h.takePublished used
  have hlength : (s.takePublished used).1.length = used := by
    rw [htake, List.length_take]
    have hlooked := congrArg List.length ((h.takePublished count).1.symm.trans hbytes)
    rw [List.length_take] at hlooked
    omega
  rw [hlength] at hviews
  exact hviews.with_eof false

theorem readLineBuffered_views (remaining : Nat) : ∀ {s : PhpStream} {t : Logical}
    {output : List UInt8}, Views s t → Unfinished t output maximum →
    maximum - output.length = remaining →
    SameLine (s.readLineBuffered output maximum) (t.finishLine output maximum) := by
  induction remaining using Nat.strongRecOn with
  | ind remaining ih =>
    intro s t output h hunfinished hremaining
    rw [PhpStream.readLineBuffered]
    by_cases hlt : output.length < maximum
    · rw [dif_pos hlt]
      obtain ⟨hfilled, hended⟩ := h.filled
      generalize (if s.unreadLen = 0 then s.refillReadBuffer else s) = s at hfilled hended
      have htakes := hfilled.take_takes hended (Nat.sub_pos_of_lt hlt)
      have hle := Nat.le_refl (maximum - output.length)
      cases hread : (s.takePublished (maximum - output.length)).1 with
      | nil =>
        rw [hread] at htakes
        simp only [hread]
        rw [finishLine_ended hlt (htakes.ended rfl)]
        exact ⟨rfl, Views.with_eof (t.skip_zero.symm ▸ hfilled) true⟩
      | cons byte bytes =>
        rw [hread] at htakes
        simp only [hread]
        have hviews := hfilled.take_front hread (lineOf_front (byte :: bytes)).length_le
        by_cases hfeed : lineFeed ∈ byte :: bytes
        · rw [finishLine_found htakes hle hfeed]
          simp only [List.contains_iff_mem.mpr hfeed, if_true]
          exact ⟨rfl, hviews⟩
        · rw [finishLine_more htakes hle hfeed]
          have hlength := htakes.length_le
          have hpos : 0 < (byte :: bytes).length := Nat.succ_pos _
          rw [lineOf_of_not_mem hfeed] at hviews
          simp only [contains_false_iff, if_neg hfeed, lineOf_of_not_mem hfeed]
          apply ih (maximum - (output ++ byte :: bytes).length) ?_ hviews
            (hunfinished.more hlength hfeed) rfl
          rw [List.length_append]
          omega
    · rw [dif_neg hlt, finishLine_full hunfinished hlt]
      exact ⟨rfl, h⟩

theorem Logical.readLineMax_eq (t : Logical) (hmaximum : 0 < maximum) :
    t.readLineMax maximum = t.finishLine [] maximum := by
  rw [readLineMax, if_neg (Nat.ne_of_gt hmaximum), finishLine]
  simp only [List.nil_append, List.length_nil, Nat.sub_zero]

theorem unfinished_nil (t : Logical) (hmaximum : 0 < maximum) : Unfinished t [] maximum where
  no_feed := List.not_mem_nil
  length_le := Nat.zero_le _
  not_ended heq := absurd hmaximum (Nat.not_lt.mpr (Nat.le_of_eq heq.symm))
  nonempty := hmaximum

/-- The bytes of a snapshot behind those that are used go into the buffer. -/
theorem Views.snapshot (h : Views s t) (hempty : s.unreadLen = 0)
    (hle : used ≤ (s.memory.read 8192).1.length) :
    Views { s with
      memory := (s.memory.read 8192).2
      readBuffer := if used < (s.memory.read 8192).1.length then
        s.readBuffer.snapshot ((s.memory.read 8192).1.drop used) else s.readBuffer }
      (t.skip used) := by
  have hnil := h.published_eq_nil hempty
  have hposition := h.position_eq
  rw [hnil, List.length_nil, Nat.add_zero] at hposition
  generalize hbuffer : (if used < (s.memory.read 8192).1.length then
    s.readBuffer.snapshot ((s.memory.read 8192).1.drop used) else s.readBuffer) = buffer
  have hpublished : buffer.published = (s.memory.read 8192).1.drop used ∧ buffer.Valid := by
    rw [← hbuffer]
    split
    · exact ⟨ReadBuffer.snapshot_published _ _, ReadBuffer.snapshot_valid _ _⟩
    · next hfull =>
      rw [hnil, List.drop_of_length_le (Nat.le_of_not_lt hfull)]
      exact ⟨rfl, h.valid⟩
  refine ⟨h.contents_eq, ?_, ?_, hpublished.2, h.mode_eq, h.eof_eq, h.eager_eq, h.detached_eq,
    h.bounded, h.behind.skip _⟩
  · rw [hpublished.1, List.length_drop]
    simp only [Logical.skip, Cursor.read] at hle ⊢
    rw [hposition]
    omega
  · rw [hpublished.1, Logical.skip_rest, ← h.rest_eq, hnil, List.nil_append,
      ← s.memory.read_rest 8192, List.drop_append_of_le_length hle]

/-- A short line comes straight from the memory. -/
theorem readShortMemoryLine_views (h : Views s t) (hempty : s.unreadLen = 0)
    (hmaximum : 0 < maximum) (hshort : maximum ≤ 64) :
    SameLine (s.readShortMemoryLine maximum) (t.readLineMax maximum) := by
  have hrest : s.memory.rest = t.rest := by
    rw [← h.rest_eq, h.published_eq_nil hempty, List.nil_append]
  have hline : lineOf ((s.memory.read 8192).1.take maximum) = lineOf (t.rest.take maximum) := by
    rw [← hrest]
    simp only [Cursor.read, List.take_take]
    rw [Nat.min_eq_left (Nat.le_trans hshort (by decide))]
  have hle : (lineOf (t.rest.take maximum)).length ≤ (s.memory.read 8192).1.length := by
    rw [← hline]
    exact Nat.le_trans (lineOf_front _).length_le (List.length_take_le' _ _)
  rw [Logical.readLineMax, if_neg (Nat.ne_of_gt hmaximum)]
  refine ⟨?_, ?_⟩
  · simp only [PhpStream.readShortMemoryLine, hline]
  · simp only [PhpStream.readShortMemoryLine, hline]
    exact (h.snapshot hempty hle).with_eof _

/-- The three line readers get the same lines. -/
theorem readLineMax_views (h : Views s t) (maximum : Nat) :
    SameLine (s.readLineMax maximum) (t.readLineMax maximum) := by
  rw [PhpStream.readLineMax]
  by_cases hzero : maximum = 0
  · rw [if_pos hzero, Logical.readLineMax, if_pos hzero]
    exact ⟨rfl, h⟩
  · have hmaximum := Nat.pos_of_ne_zero hzero
    rw [if_neg hzero]
    by_cases hshort : maximum ≤ 64
    · rw [if_pos hshort]
      by_cases hempty : s.unreadLen = 0
      · rw [if_pos hempty]
        exact readShortMemoryLine_views h hempty hmaximum hshort
      · rw [if_neg hempty, t.readLineMax_eq hmaximum]
        exact readLineBuffered_views _ h (unfinished_nil t hmaximum) rfl
    · rw [if_neg hshort, t.readLineMax_eq hmaximum]
      exact readLineChunks_views _ h (unfinished_nil t hmaximum) rfl

end Lines

end Rphp.Stream
