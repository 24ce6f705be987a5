import Mathlib.Algebra.GroupWithZero.Nat
import Rphp.Lib.Splice
import Rphp.Regex.ConfinedEngine
import Rphp.Regex.Replace

set_option autoImplicit true

namespace Rphp.Regex

open Rphp.Lib

section Texts

theorem utf8_length (chars : List Char) :
    (utf8 chars).length = (chars.map Char.utf8Size).sum := by
  induction chars with
  | nil => rfl
  | cons c chars ih =>
    rw [utf8_cons, List.length_append, String.length_utf8EncodeChar, ih, List.map_cons,
      List.sum_cons]

/-- The offset of a position is the length of the text before it. -/
theorem byteOffsetOf_eq (subject : List Char) (hp : p ≤ subject.length) :
    byteOffsetOf subject p = (utf8 (subject.take p)).length := by
  rw [byteOffsetOf]
  split
  · rename_i hascii
    have hsizes : ∀ chars : List Char, chars.all isAscii = true →
        (utf8 chars).length = chars.length := by
      intro chars hchars
      induction chars with
      | nil => rfl
      | cons c chars ih =>
        rw [List.all_cons, Bool.and_eq_true] at hchars
        have hc : isAsciiChar c = true := hchars.1
        rw [utf8_cons, List.length_append, ih hchars.2, utf8EncodeChar_ascii hc, List.length_cons]
        exact Nat.add_comm _ _
    rw [hsizes _ (List.all_eq_true.mpr fun c hc =>
      List.all_eq_true.mp hascii c (List.mem_of_mem_take hc)), List.length_take, Nat.min_eq_left hp]
  · exact (utf8_length _).symm

theorem byteOffsetOf_mono {subject : List Char} (hpq : p ≤ q) (hq : q ≤ subject.length) :
    byteOffsetOf subject p ≤ byteOffsetOf subject q := by
  have hsplit : subject.take q = subject.take p ++ (subject.drop p).take (q - p) := by
    rw [← List.take_add]
    congr 1
    omega
  rw [byteOffsetOf_eq subject (Nat.le_trans hpq hq), byteOffsetOf_eq subject hq, hsplit,
    utf8_append, List.length_append]
  exact Nat.le_add_right _ _

theorem byteOffsetOf_length (subject : List Char) :
    byteOffsetOf subject subject.length = (utf8 subject).length := by
  rw [byteOffsetOf_eq subject (Nat.le_refl _), List.take_length]

/-- The bytes from one position to the next are those of the character there. -/
theorem bytes_at {subject : List Char} (hc : subject[p]? = some c) :
    ((utf8 subject).drop (byteOffsetOf subject p)).take
        (byteOffsetOf subject (p + 1) - byteOffsetOf subject p) = String.utf8EncodeChar c := by
  have hp : p < subject.length := (List.getElem?_eq_some_iff.mp hc).1
  have hget : subject[p] = c := (List.getElem?_eq_some_iff.mp hc).2
  have hsplit : subject = subject.take p ++ c :: subject.drop (p + 1) := by
    rw [← hget, List.getElem_cons_drop, List.take_append_drop]
  have htake : subject.take (p + 1) = subject.take p ++ [c] := by
    rw [← List.take_append_getElem hp, hget]
  have hnext : byteOffsetOf subject (p + 1) =
      byteOffsetOf subject p + (String.utf8EncodeChar c).length := by
    rw [byteOffsetOf_eq subject hp, byteOffsetOf_eq subject (Nat.le_of_lt hp), htake, utf8_append,
      List.length_append, utf8_cons]
    simp [utf8]
  have htext : utf8 subject =
      utf8 (subject.take p) ++ (String.utf8EncodeChar c ++ utf8 (subject.drop (p + 1))) := by
    rw [← utf8_cons, ← utf8_append, ← hsplit]
  rw [hnext, Nat.add_sub_cancel_left, byteOffsetOf_eq subject (Nat.le_of_lt hp), htext,
    List.drop_left, List.take_left]

theorem slice_eq_some (h : slice text start stop = some part) :
    start ≤ stop ∧ stop ≤ text.length ∧ part = (text.drop start).take (stop - start) := by
  unfold slice at h
  split at h
  · obtain ⟨hle, hstop, hpart⟩ := Lib.slice_eq_some.mp h
    exact ⟨hle, hstop, hpart.symm⟩
  · cases h

/-- The template of the whole match stands for the whole match. -/
theorem expandReplacement_whole {groups : List (Option Match)} {input : List UInt8}
    (hgroups : groups.head? = some (some m))
    (h : expandReplacement groups input [36, 48] = some expansion) :
    expansion = (input.drop m.start).take (m.end - m.start) := by
  have href : reference? 36 [48] = some (0, []) := by decide +kernel
  have hget : (groups[0]?).join = some m := by
    rw [← List.head?_eq_getElem?, hgroups]
    rfl
  rw [expandReplacement] at h
  split at h
  · rename_i n after hreference
    rw [href] at hreference
    cases hreference
    obtain ⟨text, htext, h⟩ := Option.bind_eq_some_iff.mp h
    rw [expandReplacement] at h
    cases h
    rw [groupText, hget] at htext
    rw [List.append_nil]
    exact (slice_eq_some htext).2.2
  · rename_i hreference
    rw [href] at hreference
    cases hreference

end Texts

section Failures

/-- A computation that does not run out of turns, and returns such a value if it returns. -/
def Ends (P : α → Prop) (x : Except ReplaceFailure α) : Prop :=
  x ≠ .error .steps ∧ ∀ a, x = .ok a → P a

namespace Ends

theorem ok {P : α → Prop} (h : P a) : Ends P (.ok a) := by
  refine ⟨nofun, ?_⟩
  rintro _ ⟨⟩
  exact h

theorem error {P : α → Prop} (hne : e ≠ .steps) : Ends P (.error e) := by
  refine ⟨?_, nofun⟩
  rintro ⟨⟩
  exact hne rfl

theorem bind {x : Except ReplaceFailure α} {f : α → Except ReplaceFailure β} (hx : Ends P x)
    (hf : ∀ a, P a → Ends Q (f a)) : Ends Q (x >>= f) := by
  cases x with
  | error e => exact ⟨fun h => hx.1 (by cases h; rfl), nofun⟩
  | ok a => exact hf a (hx.2 a rfl)

theorem map {x : Except ReplaceFailure α} {f : α → β} (hx : Ends (fun a => Q (f a)) x) :
    Ends Q (f <$> x) := by
  cases x with
  | error e => exact ⟨fun h => hx.1 (by cases h; rfl), nofun⟩
  | ok a => exact ok (hx.2 a rfl)

theorem orPanic (x : Option α) : Ends (fun a => x = some a) (orPanic x) := by
  cases x with
  | none => exact error nofun
  | some a => exact ok rfl

end Ends

end Failures

section Replacements

variable (text replacement : List UInt8) (limit : Nat)
  (Reported : List (Option Match) → Prop)

/-- An edit that replaces a reported match by its expansion. -/
def Replaces (e : Edit UInt8) : Prop :=
  ∃ groups, Reported groups ∧ groups.head? = some (some ⟨e.start, e.stop⟩) ∧
    expandReplacement groups text replacement = some e.insert

/-- What is copied and replaced up to an offset. -/
structure Copied (edits : List (Edit UInt8)) (offset : Nat) (result : List UInt8) (count : Nat) :
    Prop where
  spaced : Spaced offset 0 edits
  spliced : result = splice (text.take offset) 0 edits
  counted : edits.length = count
  bounded : count ≤ limit
  replaces : ∀ e ∈ edits, Replaces text replacement Reported e

/-- The text with the reported matches replaced by their expansions. -/
def IsReplaced (out : Replaced) : Prop :=
  ∃ edits : List (Edit UInt8), edits.length = out.count ∧ out.count ≤ limit ∧
    Spaced text.length 0 edits ∧ out.result = splice text 0 edits ∧
    ∀ e ∈ edits, Replaces text replacement Reported e

variable {text replacement limit Reported}

theorem copied_nil : Copied text replacement limit Reported [] 0 [] 0 := by
  refine ⟨Nat.le_refl 0, ?_, rfl, Nat.zero_le _, List.forall_mem_nil _⟩
  simp [splice]

namespace Copied

variable {edits : List (Edit UInt8)}

/-- More text is copied. -/
theorem extend (h : Copied text replacement limit Reported edits offset result count)
    (hslice : slice text offset stop = some part) :
    Copied text replacement limit Reported edits stop (result ++ part) count := by
  obtain ⟨hle, -, rfl⟩ := slice_eq_some hslice
  refine ⟨h.spaced.mono hle, ?_, h.counted, h.bounded, h.replaces⟩
  rw [splice_take h.spaced hle, h.spliced]

/-- The rest of the text is copied. -/
theorem finish (h : Copied text replacement limit Reported edits offset result count)
    (hend : offset = text.length) : IsReplaced text replacement limit Reported ⟨result, count⟩ := by
  subst hend
  refine ⟨edits, h.counted, h.bounded, h.spaced, ?_, h.replaces⟩
  rw [← List.take_length (l := text)]
  exact h.spliced

/-- A match is replaced. -/
theorem replace (h : Copied text replacement limit Reported edits offset result count)
    (hlimit : count ≠ limit) (hslice : slice text offset m.start = some before)
    (hend : m.start ≤ m.end) (hreported : Reported groups) (hgroups : groups.head? = some (some m))
    (hexpand : expandReplacement groups text replacement = some expansion) :
    ∃ edits', Copied text replacement limit Reported edits' m.end (result ++ before ++ expansion)
      (count + 1) := by
  have hbefore := h.extend hslice
  refine ⟨edits ++ [⟨m.start, m.end, expansion⟩], ?_, ?_, ?_, ?_, ?_⟩
  · exact Spaced.concat (e := ⟨m.start, m.end, expansion⟩) hbefore.spaced hend
  · rw [hbefore.spliced]
    exact (splice_concat (e := ⟨m.start, m.end, expansion⟩) hbefore.spaced hend).symm
  · rw [List.length_append, h.counted]
    rfl
  · have := h.bounded
    omega
  · exact List.forall_mem_append.mpr ⟨h.replaces,
      List.forall_mem_singleton.mpr ⟨groups, hreported, hgroups, hexpand⟩⟩

end Copied

end Replacements

section General

variable {T : CharTables} {r : CompiledRegex} {subject : List Char} {replacement : List UInt8}
  {limit fuel : Nat}

/-- The registers of a match that the backtracking matcher found from a position of the
subject. -/
def GeneralReport (T : CharTables) (r : CompiledRegex) (subject : List Char) (fuel : Nat)
    (groups : List (Option Match)) : Prop :=
  ∃ retry pos searchStart ctx final ctx', pos ≤ final ∧ final ≤ subject.length ∧
    replaceAttempt T r subject fuel retry pos searchStart ctx = some (some final, ctx') ∧
    groups = publishOverallMatch ctx'.state.groups (byteOffsetOf subject pos)
      (byteOffsetOf subject final)

/-- What is copied up to the position of the loop. -/
def LoopCopied (T : CharTables) (r : CompiledRegex) (subject : List Char)
    (replacement : List UInt8) (limit fuel : Nat) (s : ReplaceState) : Prop :=
  ∃ edits, Copied (utf8 subject) replacement limit (GeneralReport T r subject fuel) edits
    (byteOffsetOf subject (min s.pos subject.length)) s.result s.count

/-- A match attempted at a position ends between it and the end of the subject, and a retry ends
behind it. -/
theorem replaceAttempt_bounds (hpos : pos ≤ subject.length)
    (h : replaceAttempt T r subject fuel retry pos searchStart ctx = some (some final, ctx')) :
    pos ≤ final ∧ final ≤ subject.length ∧ (retry = true → final ≠ pos) := by
  have hengine := engine_isConfined (captureEnv T r subject searchStart) fuel
  unfold replaceAttempt at h
  dsimp only at h
  split at h
  · obtain ⟨⟨initial, states⟩, mid, hstates, h⟩ := bind_eq_some.mp h
    obtain ⟨-, hends⟩ := hengine.collectMatchStates r.ast hpos _ _ _ hstates
    dsimp only at h
    cases hfind : states.find? fun state => state.end != pos with
    | some state =>
      rw [hfind] at h
      obtain ⟨u, mid', -, h⟩ := bind_eq_some.mp h
      cases h
      obtain ⟨hlo, hhi⟩ := hends state (List.mem_of_find?_eq_some hfind)
      have hne := List.find?_some hfind
      exact ⟨hlo, hhi, fun _ => by simpa using hne⟩
    | none =>
      rw [hfind] at h
      obtain ⟨u, mid', -, h⟩ := bind_eq_some.mp h
      cases h
  · rename_i hretry
    obtain ⟨-, hbetween⟩ := hengine.matchSeqFrom r.ast [] hpos _ _ _ h
    exact ⟨hbetween.of_some.1, hbetween.of_some.2, fun hr => absurd hr hretry⟩

/-- How often the loop can still turn. -/
def turnsLeft (subject : List Char) (s : ReplaceState) : Nat :=
  2 * (subject.length + 1 - s.pos) + (if s.retryNonempty then 0 else 1)

theorem skipStarts_bounds (hpos : pos ≤ subject.length)
    (h : skipStarts T r subject retry pos = some next) :
    pos ≤ next ∧ next ≤ subject.length ∧ (retry = true → next = pos) := by
  unfold skipStarts at h
  split_ifs at h with hretry hanchored
  · cases h
    exact ⟨Nat.le_refl _, hpos, fun _ => rfl⟩
  · have hfalse : retry = true → next = pos := fun hr => by simp [hr] at hretry
    split at h
    · obtain ⟨relative, hfind, rfl⟩ := Option.map_eq_some_iff.mp h
      have hlt := (List.findIdx?_eq_some_iff_findIdx_eq.mp hfind).1
      rw [List.length_drop] at hlt
      exact ⟨Nat.le_add_right _ _, by omega, hfalse⟩
    · cases h
      exact ⟨Nat.le_refl _, hpos, hfalse⟩

theorem copyRest_ends (hs : LoopCopied T r subject replacement limit fuel s)
    (hpos : s.pos ≤ subject.length) :
    Ends (IsReplaced (utf8 subject) replacement limit (GeneralReport T r subject fuel))
      (copyRest subject s) := by
  obtain ⟨edits, hcopied⟩ := hs
  rw [Nat.min_eq_left hpos] at hcopied
  exact .bind (.orPanic _) fun rest hrest => .ok ((hcopied.extend hrest).finish rfl)

/-- The skipped text is copied, and the position is the next start. -/
theorem copySkipped_ends (hs : LoopCopied T r subject replacement limit fuel s)
    (hnext : s.pos ≤ next) (hend : next ≤ subject.length) :
    Ends (fun s' => LoopCopied T r subject replacement limit fuel s' ∧ s'.pos = next ∧
      s'.count = s.count ∧ s'.retryNonempty = s.retryNonempty) (copySkipped subject s next) := by
  unfold copySkipped
  split
  · obtain ⟨edits, hcopied⟩ := hs
    rw [Nat.min_eq_left (Nat.le_trans hnext hend)] at hcopied
    refine .bind (.orPanic _) fun skipped hskipped => .ok ⟨⟨edits, ?_⟩, rfl, rfl, rfl⟩
    rw [Nat.min_eq_left hend]
    exact hcopied.extend hskipped
  · exact .ok ⟨hs, by omega, rfl, rfl⟩

theorem head_publishOverallMatch {groups : List (Option Match)}
    (h : ((publishOverallMatch groups start final).head?).join = some m) :
    (publishOverallMatch groups start final).head? = some (some m) ∧ m.start ≤ m.end ∧
      m.end = final := by
  cases groups with
  | nil => cases h
  | cons first groups =>
    cases h
    exact ⟨rfl, Nat.min_le_right _ _, rfl⟩

/-- A replaced match leaves the loop behind it, or at the same position to retry. -/
theorem replaceMatch_ends (hs : LoopCopied T r subject replacement limit fuel s)
    (hlimit : s.count ≠ limit) (hfinal : s.pos ≤ final) (hend : final ≤ subject.length)
    (hreport : GeneralReport T r subject fuel (publishOverallMatch groups
      (byteOffsetOf subject s.pos) (byteOffsetOf subject final))) :
    Ends (fun s' => LoopCopied T r subject replacement limit fuel s' ∧ s'.pos = final ∧
      s'.retryNonempty = decide (final = s.pos)) (replaceMatch subject replacement s groups final) := by
  obtain ⟨edits, hcopied⟩ := hs
  rw [Nat.min_eq_left (Nat.le_trans hfinal hend)] at hcopied
  refine .bind (.orPanic _) fun m hm => .bind (.orPanic _) fun before hbefore =>
    .bind (.orPanic _) fun expansion hexpansion => ?_
  obtain ⟨hhead, hspan, hstop⟩ := head_publishOverallMatch hm
  obtain ⟨edits', hcopied'⟩ := hcopied.replace hlimit hbefore hspan hreport hhead hexpansion
  rw [hstop, ← Nat.min_eq_left hend] at hcopied'
  dsimp only
  split
  · rename_i hsame
    refine .ok ⟨⟨edits', ?_⟩, hsame.symm, by simp [hsame]⟩
    simpa [hsame] using hcopied'
  · rename_i hne
    exact .ok ⟨⟨edits', hcopied'⟩, rfl, by simpa using hne⟩

theorem stepOver_copied (hs : LoopCopied T r subject replacement limit fuel s)
    (hpos : s.pos ≤ subject.length) :
    LoopCopied T r subject replacement limit fuel (stepOver subject s) := by
  obtain ⟨edits, hcopied⟩ := hs
  refine ⟨edits, ?_⟩
  rw [Nat.min_eq_left hpos] at hcopied
  cases hc : subject[s.pos]? with
  | none =>
    have hend : s.pos = subject.length := by
      have := List.getElem?_eq_none_iff.mp hc
      omega
    have hmin : min (stepOver subject s).pos subject.length = s.pos := by
      show min (s.pos + 1) subject.length = s.pos
      omega
    rw [hmin]
    simpa [stepOver, hc] using hcopied
  | some c =>
    have hlt : s.pos < subject.length := (List.getElem?_eq_some_iff.mp hc).1
    have hmin : min (stepOver subject s).pos subject.length = s.pos + 1 := by
      show min (s.pos + 1) subject.length = s.pos + 1
      omega
    have hle := byteOffsetOf_mono (Nat.le_succ s.pos) hlt
    have hresult : (stepOver subject s).result = s.result ++ String.utf8EncodeChar c := by
      simp [stepOver, hc]
    rw [hmin, hresult, ← bytes_at hc]
    refine ⟨hcopied.spaced.mono hle, ?_, hcopied.counted, hcopied.bounded, hcopied.replaces⟩
    rw [splice_take hcopied.spaced hle, ← hcopied.spliced]

/-- How a turn may leave the loop: with the text replaced, or with fewer turns to come. -/
def TurnLeads (T : CharTables) (r : CompiledRegex) (subject : List Char) (replacement : List UInt8)
    (limit fuel : Nat) (s : ReplaceState) : Replaced ⊕ ReplaceState → Prop
  | .inl out => IsReplaced (utf8 subject) replacement limit (GeneralReport T r subject fuel) out
  | .inr s' => LoopCopied T r subject replacement limit fuel s' ∧
    turnsLeft subject s' < turnsLeft subject s

theorem nextAttempt_gt {control : Option MatchControl}
    (h : nextAttemptAfterControl control pos = some next) : pos < next := by
  unfold nextAttemptAfterControl at h
  split at h
  · cases h
  · cases h
  · split at h
    · cases h
      assumption
    · cases h
      exact Nat.lt_succ_self _
  · cases h
    exact Nat.lt_succ_self _
  · cases h
    exact Nat.lt_succ_self _
  · cases h
    exact Nat.lt_succ_self _

theorem afterFailure_leads (hs : LoopCopied T r subject replacement limit fuel s)
    (hpos : s.pos ≤ subject.length) (control : Option MatchControl) :
    Ends (TurnLeads T r subject replacement limit fuel s) (afterFailure r subject s control) := by
  unfold afterFailure
  split_ifs with hanchored hretry
  · exact .map (copyRest_ends hs hpos)
  · refine .ok ⟨stepOver_copied hs hpos, ?_⟩
    simp only [turnsLeft, stepOver, hretry, if_true]
    simp only [Bool.false_eq_true, if_false]
    omega
  · cases hnext : nextAttemptAfterControl control s.pos with
    | none => exact .map (copyRest_ends hs hpos)
    | some next =>
      have hgt := nextAttempt_gt hnext
      obtain ⟨edits, hcopied⟩ := hs
      rw [Nat.min_eq_left hpos] at hcopied
      refine .bind (.orPanic _) fun skipped hskipped =>
        .ok ⟨⟨edits, hcopied.extend hskipped⟩, ?_⟩
      simp only [turnsLeft, hretry]
      omega

theorem afterAttempt_leads (hs : LoopCopied T r subject replacement limit fuel s)
    (hlimit : s.count ≠ limit) (hpos : s.pos ≤ subject.length) (searchStart : Nat)
    (ctx : MatchCtx) :
    Ends (TurnLeads T r subject replacement limit fuel s) (afterAttempt r subject replacement s
      (replaceAttempt T r subject fuel s.retryNonempty s.pos searchStart ctx)) := by
  cases hattempt : replaceAttempt T r subject fuel s.retryNonempty s.pos searchStart ctx with
  | none => exact .error nofun
  | some outcome =>
    obtain ⟨result, ctx'⟩ := outcome
    unfold afterAttempt
    dsimp only
    cases ctx'.budget.error with
    | some e => exact .error nofun
    | none =>
      cases result with
      | none =>
        exact afterFailure_leads
          (s := { s with calls := ctx'.state.activeCalls, budget := ctx'.budget }) hs hpos _
      | some final =>
        obtain ⟨hfinal, hend, hnonempty⟩ := replaceAttempt_bounds hpos hattempt
        have hreport : GeneralReport T r subject fuel (publishOverallMatch ctx'.state.groups
            (byteOffsetOf subject s.pos) (byteOffsetOf subject final)) :=
          ⟨_, _, _, _, _, _, hfinal, hend, hattempt, rfl⟩
        refine .map ?_
        have hmatch := replaceMatch_ends
          (s := { s with calls := ctx'.state.activeCalls, budget := ctx'.budget }) hs hlimit hfinal
          hend hreport
        refine ⟨hmatch.1, fun s' hs' => ?_⟩
        obtain ⟨hcopied, hposition, hretry⟩ := hmatch.2 s' hs'
        refine ⟨hcopied, ?_⟩
        simp only [turnsLeft, hposition, hretry, decide_eq_true_eq]
        split <;> split <;> rename_i h₁ h₂
        · exact absurd h₁ (hnonempty h₂)
        · omega
        · omega
        · omega

/-- One turn of the loop. -/
theorem replaceTurn_leads (hs : LoopCopied T r subject replacement limit fuel s) :
    Ends (TurnLeads T r subject replacement limit fuel s)
      (replaceTurn T r subject replacement limit fuel s) := by
  unfold replaceTurn
  split_ifs with hend hcount
  · obtain ⟨edits, hcopied⟩ := hs
    refine .ok (hcopied.finish ?_)
    rw [Nat.min_eq_right (Nat.le_of_lt hend), byteOffsetOf_length]
  · exact .map (copyRest_ends hs (Nat.le_of_not_lt hend))
  · have hpos : s.pos ≤ subject.length := Nat.le_of_not_lt hend
    cases hskip : skipStarts T r subject s.retryNonempty s.pos with
    | none => exact .map (copyRest_ends hs hpos)
    | some next =>
      obtain ⟨hnext, hnextEnd, -⟩ := skipStarts_bounds hpos hskip
      refine .bind (copySkipped_ends hs hnext hnextEnd) ?_
      rintro s₁ ⟨hs₁, hpos₁, hcount₁, hretry₁⟩
      have hturns : turnsLeft subject s₁ ≤ turnsLeft subject s := by
        unfold turnsLeft
        rw [hretry₁, hpos₁]
        omega
      have hlead := afterAttempt_leads hs₁ (by rwa [hcount₁]) (hpos₁ ▸ hnextEnd) s₁.searchStart
        ⟨freshState r (r.numGroups + 1) s₁.calls, s₁.budget⟩
      refine ⟨hlead.1, fun outcome houtcome => ?_⟩
      have hled := hlead.2 outcome houtcome
      cases outcome with
      | inl out => exact hled
      | inr s' => exact ⟨hled.1, Nat.lt_of_lt_of_le hled.2 hturns⟩

/-- The loop ends within its turns, and returns the replaced text. -/
theorem replaceLoop_ends (hs : LoopCopied T r subject replacement limit fuel s)
    (hturns : turnsLeft subject s < steps) :
    Ends (IsReplaced (utf8 subject) replacement limit (GeneralReport T r subject fuel))
      (replaceLoop T r subject replacement limit fuel steps s) := by
  induction steps generalizing s with
  | zero => exact absurd hturns (Nat.not_lt_zero _)
  | succ steps ih =>
    rw [replaceLoop]
    refine .bind (replaceTurn_leads hs) fun outcome hled => ?_
    cases outcome with
    | inl out => exact .ok hled
    | inr s' => exact ih hled.1 (by have := hled.2; omega)

theorem replaceGeneral_ends (scale : Nat) (limits : MatchLimits) :
    Ends (IsReplaced (utf8 subject) replacement limit (GeneralReport T r subject fuel))
      (replaceGeneral T r subject replacement limit fuel scale limits) := by
  refine replaceLoop_ends ⟨[], ?_⟩ ?_
  · have hzero : byteOffsetOf subject (min 0 subject.length) = 0 := by
      rw [Nat.zero_min, byteOffsetOf_eq subject (Nat.zero_le _)]
      rfl
    rw [hzero]
    exact copied_nil
  · simp only [turnsLeft]
    simp only [Bool.false_eq_true, if_false]
    omega

end General

end Rphp.Regex
