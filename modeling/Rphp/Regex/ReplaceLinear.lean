import Rphp.Regex.Linear
import Rphp.Regex.ReplaceRun

set_option autoImplicit true

namespace Rphp.Regex

open Rphp.Lib

section Visits

/-- A scan whose starts and matches stay between a position and its length. -/
structure LinearScan.Bounded (scan : LinearScan) : Prop where
  nextStart : ∀ {pos next}, pos ≤ scan.length → scan.nextStart pos = some next →
    pos ≤ next ∧ next ≤ scan.length
  attempt : ∀ {pos searchStart final}, pos ≤ scan.length →
    scan.attempt pos searchStart = some final → pos ≤ final ∧ final ≤ scan.length
  offset : ∀ {p q}, p ≤ q → q ≤ scan.length → scan.offset p ≤ scan.offset q

/-- The span of a match that the scan found. -/
def LinearReport (scan : LinearScan) (groups : List (Option Match)) : Prop :=
  ∃ pos searchStart final, pos ≤ final ∧ final ≤ scan.length ∧
    scan.attempt pos searchStart = some final ∧
    groups = [some ⟨scan.offset pos, scan.offset final⟩]

variable {scan : LinearScan} {text replacement : List UInt8} {limit : Nat}

def VisitCopied (scan : LinearScan) (text replacement : List UInt8) (limit : Nat)
    (s : VisitState) : Prop :=
  ∃ edits, Copied text replacement limit (LinearReport scan) edits s.copiedUntil s.result s.count

theorem finishVisit_ends (hs : VisitCopied scan text replacement limit s) :
    Ends (IsReplaced text replacement limit (LinearReport scan)) (finishVisit text s) := by
  obtain ⟨edits, hcopied⟩ := hs
  exact .bind (.orPanic _) fun rest hrest => .ok ((hcopied.extend hrest).finish rfl)

theorem visitMatch_ends (hs : VisitCopied scan text replacement limit s) (hlimit : s.count ≠ limit)
    (hspan : m.start ≤ m.end) (hreport : LinearReport scan [some m]) :
    Ends (VisitCopied scan text replacement limit) (visitMatch text replacement s m) := by
  obtain ⟨edits, hcopied⟩ := hs
  exact .bind (.orPanic _) fun before hbefore => .bind (.orPanic _) fun expansion hexpansion =>
    .ok (hcopied.replace hlimit hbefore hspan hreport rfl hexpansion)

/-- How a turn of the scan may leave it: with the text replaced, or further on. -/
def VisitLeads (scan : LinearScan) (text replacement : List UInt8) (limit : Nat) (s : VisitState) :
    Replaced ⊕ VisitState → Prop
  | .inl out => IsReplaced text replacement limit (LinearReport scan) out
  | .inr s' => VisitCopied scan text replacement limit s' ∧ s.pos < s'.pos ∧ s.pos ≤ scan.length

theorem visitTurn_leads (hscan : scan.Bounded) (hs : VisitCopied scan text replacement limit s) :
    Ends (VisitLeads scan text replacement limit s)
      (visitTurn scan text replacement limit s) := by
  unfold visitTurn
  by_cases hend : scan.length < s.pos
  · rw [if_pos hend]
    exact .map (finishVisit_ends hs)
  · rw [if_neg hend]
    have hpos : s.pos ≤ scan.length := Nat.le_of_not_lt hend
    cases hnext : scan.nextStart s.pos with
    | none => exact .map (finishVisit_ends hs)
    | some pos =>
      obtain ⟨hle, hposEnd⟩ := hscan.nextStart hpos hnext
      dsimp only
      cases hattempt : scan.attempt pos s.searchStart with
      | none =>
        dsimp only
        split_ifs
        · exact .map (finishVisit_ends hs)
        · exact .ok ⟨hs, Nat.lt_succ_of_le hle, hpos⟩
      | some final =>
        obtain ⟨hfinal, hfinalEnd⟩ := hscan.attempt hposEnd hattempt
        dsimp only
        by_cases hlimit : s.count = limit
        · rw [if_pos hlimit]
          exact .map (finishVisit_ends hs)
        · rw [if_neg hlimit]
          refine .bind (visitMatch_ends hs hlimit (hscan.offset hfinal hfinalEnd)
            ⟨pos, _, final, hfinal, hfinalEnd, hattempt, rfl⟩) fun s' hs' => .ok ⟨hs', ?_, hpos⟩
          show s.pos < if final = pos then pos + 1 else final
          split <;> omega

/-- The scan ends within its turns, and returns the replaced text. -/
theorem visitLoop_ends (hscan : scan.Bounded) (hs : VisitCopied scan text replacement limit s)
    (hturns : scan.length + 1 - s.pos < steps) :
    Ends (IsReplaced text replacement limit (LinearReport scan))
      (visitLoop scan text replacement limit steps s) := by
  induction steps generalizing s with
  | zero => exact absurd hturns (Nat.not_lt_zero _)
  | succ steps ih =>
    rw [visitLoop]
    refine .bind (visitTurn_leads hscan hs) fun outcome hled => ?_
    cases outcome with
    | inl out => exact .ok hled
    | inr s' => exact ih hled.1 (by have := hled.2; omega)

end Visits

section Scans

variable {atom : Node → Nat → Option Nat} {length : Nat}

/-- Atoms that stay in the subject. -/
def AtomsBounded (atom : Node → Nat → Option Nat) (length : Nat) : Prop :=
  ∀ node {pos next}, Linear.isLinearAtom node = true → pos ≤ length → atom node pos = some next →
    pos ≤ next ∧ next ≤ length

theorem terminalRun_bounds {step : Nat → Option Nat}
    (hstep : ∀ {pos next}, pos ≤ length → step pos = some next → pos ≤ next ∧ next ≤ length)
    (target : Option Nat) (steps repetitions : Nat) (hpos : current ≤ length) :
    current ≤ (Linear.terminalRun step target steps repetitions current).2 ∧
      (Linear.terminalRun step target steps repetitions current).2 ≤ length := by
  induction steps generalizing repetitions current with
  | zero => exact ⟨Nat.le_refl _, hpos⟩
  | succ steps ih =>
    rw [Linear.terminalRun]
    split
    · exact ⟨Nat.le_refl _, hpos⟩
    · split
      · rename_i next hnext
        obtain ⟨hle, hend⟩ := hstep hpos hnext
        obtain ⟨hle', hend'⟩ := ih (repetitions + 1) hend
        exact ⟨Nat.le_trans hle hle', hend'⟩
      · exact ⟨Nat.le_refl _, hpos⟩

theorem matchTerminalQuantifier_bounds {step : Nat → Option Nat}
    (hstep : ∀ {pos next}, pos ≤ length → step pos = some next → pos ≤ next ∧ next ≤ length)
    {min : Nat} {max : Option Nat} (hpos : pos ≤ length)
    (h : Linear.matchTerminalQuantifier step length min max greedy pos = some final) :
    pos ≤ final ∧ final ≤ length := by
  unfold Linear.matchTerminalQuantifier at h
  dsimp only at h
  split at h
  · cases h
    exact terminalRun_bounds hstep _ _ _ hpos
  · cases h

theorem matchAtom_bounds (hatom : AtomsBounded atom length)
    (hnode : Linear.isLinearAtom node = true) (hpos : pos ≤ length)
    (h : Linear.matchAtom atom length node pos = some next) : pos ≤ next ∧ next ≤ length := by
  cases node with
  | literal c => exact hatom _ hnode hpos h
  | anyChar => exact hatom _ hnode hpos h
  | byteUnit => exact hatom _ hnode hpos h
  | notNewline => exact hatom _ hnode hpos h
  | charClass negated items => exact hatom _ hnode hpos h
  | shorthand sh => exact hatom _ hnode hpos h
  | anchor a => exact hatom _ hnode hpos h
  | wordBoundary positive => exact hatom _ hnode hpos h
  | _ => cases hnode

theorem quantified_bounds {min : Nat} {max : Option Nat} (hatom : AtomsBounded atom length)
    (hnode : Linear.isLinearConsumingAtom node = true) (hpos : pos ≤ length)
    (h : Linear.matchTerminalQuantifier (fun current => Linear.matchAtom atom length node current)
      length min max greedy pos = some final) : pos ≤ final ∧ final ≤ length :=
  matchTerminalQuantifier_bounds
    (fun hpos hnext => matchAtom_bounds hatom (Linear.isLinearAtom_of_consuming hnode) hpos hnext)
    hpos h

theorem matchNodes_bounds (hatom : AtomsBounded atom length)
    (hnodes : Linear.areSupported nodes = true) (hpos : pos ≤ length)
    (h : Linear.matchNodes atom length nodes pos = some final) : pos ≤ final ∧ final ≤ length := by
  fun_induction Linear.areSupported nodes generalizing pos with
  | case1 =>
    rw [Linear.matchNodes] at h
    cases h
    exact ⟨Nat.le_refl _, hpos⟩
  | case2 inner min max greedy possessive =>
    rw [Linear.matchNodes] at h
    obtain ⟨next, hnext, hfinal⟩ := Option.bind_eq_some_iff.mp h
    rw [Linear.matchNodes] at hfinal
    cases hfinal
    exact quantified_bounds hatom hnodes hpos hnext
  | case3 node nodes hne ih =>
    rw [Bool.and_eq_true] at hnodes
    obtain ⟨hnode, hrest⟩ := hnodes
    have hstep : Linear.matchNodes atom length (node :: nodes) pos =
        (Linear.matchAtom atom length node pos).bind fun next =>
          Linear.matchNodes atom length nodes next := by
      cases node with
      | quantifier inner min max greedy possessive => cases hnode
      | _ => rw [Linear.matchNodes]; exact nofun
    rw [hstep] at h
    obtain ⟨next, hnext, hfinal⟩ := Option.bind_eq_some_iff.mp h
    obtain ⟨hle, hend⟩ := matchAtom_bounds hatom hnode hpos hnext
    obtain ⟨hle', hend'⟩ := ih hrest hend hfinal
    exact ⟨Nat.le_trans hle hle', hend'⟩

theorem matchNoCapture_bounds (hatom : AtomsBounded atom length)
    (hnode : Linear.isSupported node = true) (hpos : pos ≤ length)
    (h : Linear.matchNoCapture atom length node pos = some final) :
    pos ≤ final ∧ final ≤ length := by
  cases node with
  | sequence nodes =>
    rw [Linear.matchNoCapture] at h
    exact matchNodes_bounds hatom hnode hpos h
  | quantifier inner min max greedy possessive =>
    rw [Linear.matchNoCapture] at h
    exact quantified_bounds hatom hnode hpos h
  | literal c => exact hatom (.literal c) hnode hpos h
  | anyChar => exact hatom (.anyChar) hnode hpos h
  | byteUnit => exact hatom (.byteUnit) hnode hpos h
  | notNewline => exact hatom (.notNewline) hnode hpos h
  | charClass negated items => exact hatom (.charClass negated items) hnode hpos h
  | shorthand sh => exact hatom (.shorthand sh) hnode hpos h
  | anchor a => exact hatom (.anchor a) hnode hpos h
  | wordBoundary positive => exact hatom (.wordBoundary positive) hnode hpos h
  | _ => cases hnode

theorem charAtom_bounded (T : CharTables) (chars : List Char) (flags : RegexFlags)
    (searchStart : Nat) : AtomsBounded (Linear.charAtom T chars flags searchStart) chars.length := by
  intro node pos next hnode hpos h
  by_cases hconsuming : Linear.isLinearConsumingAtom node = true
  · obtain ⟨rfl, hlt⟩ := Linear.charAtom_consumes hconsuming h
    exact ⟨Nat.le_succ _, hlt⟩
  · cases node with
    | anchor a =>
      obtain ⟨-, rfl⟩ := Linear.advance_eq_some.mp h
      exact ⟨Nat.le_refl _, hpos⟩
    | wordBoundary positive =>
      obtain ⟨-, rfl⟩ := Linear.advance_eq_some.mp h
      exact ⟨Nat.le_refl _, hpos⟩
    | _ => exact absurd hnode hconsuming

theorem byteAtom_bounded (T : CharTables) (bytes : List Nat) (flags : RegexFlags)
    (searchStart : Nat) : AtomsBounded (Ascii.byteAtom T bytes flags searchStart) bytes.length := by
  have hany : ∀ {pos : Nat} {p : Nat → Bool}, bytes[pos]?.any p = true → pos < bytes.length := by
    intro pos p hp
    by_contra hlt
    rw [List.getElem?_eq_none (by omega)] at hp
    cases hp
  have hone : ∀ {ok : Bool} {pos next : Nat}, Linear.advance 1 pos ok = some next →
      (ok = true → pos < bytes.length) → pos ≤ next ∧ next ≤ bytes.length := by
    intro ok pos next h hok
    obtain ⟨htrue, rfl⟩ := Linear.advance_eq_some.mp h
    exact ⟨Nat.le_succ _, hok htrue⟩
  intro node pos next hnode hpos h
  cases node with
  | literal c => exact hone h hany
  | anyChar => exact hone h fun hok => by simpa using (Bool.and_eq_true_iff.mp hok).1
  | byteUnit => exact hone h fun hok => by simpa using hok
  | notNewline => exact hone h fun hok => by simpa using (Bool.and_eq_true_iff.mp hok).1
  | charClass negated items => exact hone h hany
  | shorthand sh => exact hone h hany
  | anchor a =>
    obtain ⟨-, rfl⟩ := Linear.advance_eq_some.mp h
    exact ⟨Nat.le_refl _, hpos⟩
  | wordBoundary positive =>
    obtain ⟨-, rfl⟩ := Linear.advance_eq_some.mp h
    exact ⟨Nat.le_refl _, hpos⟩
  | _ => cases hnode

end Scans

section Replacing

variable {T : CharTables} {r : CompiledRegex} {subject : List Char} {replacement : List UInt8}
  {limit fuel : Nat}

theorem charScan_bounded (hsupported : Linear.isSupported r.ast = true) :
    (charScan T r subject).Bounded := by
  refine ⟨fun {pos next} hpos h => ?_, fun hpos h => ?_, byteOffsetOf_mono⟩
  · simp only [charScan, nextStart] at h hpos ⊢
    split at h
    · split at h
      · cases h
        exact ⟨Nat.le_refl _, hpos⟩
      · obtain ⟨relative, hfind, rfl⟩ := Option.map_eq_some_iff.mp h
        have hlt := (List.findIdx?_eq_some_iff_findIdx_eq.mp hfind).1
        rw [List.length_drop] at hlt
        exact ⟨Nat.le_add_right _ _, by omega⟩
    · cases h
      exact ⟨Nat.le_refl _, hpos⟩
  · exact matchNoCapture_bounds (charAtom_bounded T subject r.flags _) hsupported hpos h

theorem tail_consuming (hnodes : Linear.areSupported nodes = true)
    (h : Ascii.prefixNodes taken nodes = some plan) :
    ∀ tail ∈ plan.tail, Linear.isLinearConsumingAtom tail.inner = true := by
  fun_induction Ascii.prefixNodes taken nodes with
  | case1 taken =>
    cases h
    nofun
  | case2 taken c nodes hc ih =>
    have hrest : Linear.areSupported nodes = true := by
      rw [Linear.areSupported, Bool.and_eq_true] at hnodes
      · exact hnodes.2
      · exact nofun
    exact ih hrest h
  | case3 taken c nodes hc => cases h
  | case4 taken node hliteral =>
    obtain ⟨tail, htail, rfl⟩ := Option.map_eq_some_iff.mp h
    cases node with
    | quantifier inner min max greedy possessive =>
      cases htail
      rintro tail ⟨⟩
      exact hnodes
    | _ => cases htail
  | case5 taken first second nodes hliteral => cases h

theorem matchTail_bounds {bytes : List Nat} {flags : RegexFlags} {tail : Ascii.Tail}
    (htail : Linear.isLinearConsumingAtom tail.inner = true) (hpos : pos ≤ bytes.length)
    (h : Ascii.matchTail T bytes flags tail pos = some final) :
    pos ≤ final ∧ final ≤ bytes.length :=
  quantified_bounds (byteAtom_bounded T bytes flags 0) htail hpos h

theorem matchPrefixPlan_bounds {bytes : List Nat} {flags : RegexFlags} {plan : Ascii.PrefixPlan}
    (htail : ∀ tail ∈ plan.tail, Linear.isLinearConsumingAtom tail.inner = true)
    (h : Ascii.matchPrefixPlan T bytes flags plan pos = some final) :
    pos ≤ final ∧ final ≤ bytes.length := by
  unfold Ascii.matchPrefixPlan at h
  dsimp only at h
  split at h
  · rename_i hprefix
    cases hplan : plan.tail with
    | none =>
      rw [hplan] at h
      cases h
      exact ⟨Nat.le_add_right _ _, hprefix.1⟩
    | some tail =>
      rw [hplan] at h
      obtain ⟨hle, hend⟩ := matchTail_bounds (htail tail hplan) hprefix.1 h
      exact ⟨Nat.le_trans (Nat.le_add_right _ _) hle, hend⟩
  · cases h

/-- The plan of a supported shape has a tail that consumes. -/
theorem prefixPlan_consuming (hsupported : Linear.isSupported r.ast = true)
    (h : Ascii.prefixPlan r.ast = some plan) :
    ∀ tail ∈ plan.tail, Linear.isLinearConsumingAtom tail.inner = true := by
  obtain ⟨h, -⟩ := Option.filter_eq_some_iff.mp h
  cases hast : r.ast with
  | sequence nodes =>
    rw [hast] at h hsupported
    exact tail_consuming hsupported h
  | quantifier inner min max greedy possessive =>
    rw [hast] at h hsupported
    have hnodes : Linear.areSupported [.quantifier inner min max greedy possessive] = true :=
      hsupported
    exact tail_consuming hnodes h
  | literal c =>
    rw [hast] at h
    have hnodes : Linear.areSupported [.literal c] = true := rfl
    exact tail_consuming hnodes h
  | _ =>
    rw [hast] at h
    cases h

theorem findLiteral_bounds {bytes : List Nat} {literal : Char} (hpos : pos ≤ bytes.length)
    (h : Ascii.findLiteral bytes literal pos = some next) : pos ≤ next ∧ next ≤ bytes.length := by
  obtain ⟨relative, hfind, rfl⟩ := Option.map_eq_some_iff.mp h
  have hlt := (List.findIdx?_eq_some_iff_findIdx_eq.mp hfind).1
  rw [List.length_drop] at hlt
  refine ⟨Nat.le_add_right _ _, ?_⟩
  omega

/-- A scan of bytes that goes from one occurrence of the start literal to the next. -/
theorem LinearScan.bounded_of_startLiteral {scan : LinearScan} {bytes : List Nat}
    {l : Option Char} (hlength : scan.length = bytes.length)
    (hoffset : scan.offset = id)
    (hsome : ∀ literal, l = some literal →
      scan.nextStart = Ascii.findLiteral bytes literal)
    (hnone : l = none → scan.nextStart = some)
    (hattempt : ∀ {pos searchStart final}, pos ≤ bytes.length →
      scan.attempt pos searchStart = some final → pos ≤ final ∧ final ≤ bytes.length) :
    scan.Bounded := by
  rw [← hlength] at hattempt
  refine ⟨fun {pos next} hpos hnext => ?_, hattempt, fun hpq _ => by rw [hoffset]; exact hpq⟩
  rw [hlength] at hpos ⊢
  cases hstart : l with
  | none =>
    rw [hnone hstart] at hnext
    cases hnext
    exact ⟨Nat.le_refl _, hpos⟩
  | some literal =>
    rw [hsome literal hstart] at hnext
    exact findLiteral_bounds hpos hnext

theorem visitScan_bounded (hsupported : Linear.isSupported r.ast = true) {bytes : List Nat}
    (h : Ascii.visitScan T bytes r = some scan) : scan.Bounded ∧ scan.length = bytes.length := by
  unfold Ascii.visitScan at h
  split at h
  · cases h
  · dsimp only at h
    split at h
    · rename_i plan other hplan
      cases h
      refine ⟨LinearScan.bounded_of_startLiteral (l := r.startLiteral) rfl rfl ?_ ?_
        fun _ => ?_, rfl⟩
      · intro literal hstart
        simp only [hstart]
      · intro hstart
        simp only [hstart]
      · exact matchPrefixPlan_bounds (prefixPlan_consuming hsupported hplan)
    · rename_i tail hnone htail
      cases h
      refine ⟨LinearScan.bounded_of_startLiteral (l := r.startLiteral) rfl rfl ?_ ?_
        (matchTail_bounds ?_), rfl⟩
      · intro literal hstart
        simp only [hstart]
      · intro hstart
        simp only [hstart]
      · unfold Ascii.classTailPlan at htail
        split at htail
        · cases htail
          rfl
        · cases htail
    · cases h

theorem linearScan_bounded (hsupported : Linear.isSupported r.ast = true) :
    (linearScan T r subject).Bounded := by
  unfold linearScan
  split
  · cases hscan : Ascii.visitScan T (subjectBytes subject) r with
    | none => exact charScan_bounded hsupported
    | some scan => exact (visitScan_bounded hsupported hscan).1
  · exact charScan_bounded hsupported

theorem replaceLinear_ends (hsupported : Linear.isSupported r.ast = true) :
    Ends (IsReplaced (utf8 subject) replacement limit (LinearReport (linearScan T r subject)))
      (replaceLinear T r subject replacement limit) :=
  visitLoop_ends (linearScan_bounded hsupported) ⟨[], copied_nil⟩ (by omega)

/-- The registers of a match that either path found. -/
def Reports (T : CharTables) (r : CompiledRegex) (subject : List Char) (fuel : Nat)
    (groups : List (Option Match)) : Prop :=
  GeneralReport T r subject fuel groups ∨ LinearReport (linearScan T r subject) groups

theorem IsReplaced.mono {text : List UInt8} {P Q : List (Option Match) → Prop}
    (h : IsReplaced text replacement limit P out) (hPQ : ∀ groups, P groups → Q groups) :
    IsReplaced text replacement limit Q out := by
  obtain ⟨edits, hcount, hlimit, hspaced, hresult, hreplaces⟩ := h
  refine ⟨edits, hcount, hlimit, hspaced, hresult, fun e he => ?_⟩
  obtain ⟨groups, hreported, hgroups, hexpand⟩ := hreplaces e he
  exact ⟨groups, hPQ groups hreported, hgroups, hexpand⟩

theorem replaceLimitWithLimits_ends (scale : Nat) (limits : MatchLimits) :
    Ends (IsReplaced (utf8 subject) replacement limit (Reports T r subject fuel))
      (replaceLimitWithLimits T r subject replacement limit fuel scale limits) := by
  unfold replaceLimitWithLimits
  split_ifs with hzero hlinear
  · refine .ok ⟨[], rfl, Nat.zero_le _, Nat.zero_le _, rfl, List.forall_mem_nil _⟩
  · have hends : Ends _ (replaceLinear T r subject replacement limit) :=
      replaceLinear_ends hlinear.2.2.2
    exact ⟨hends.1, fun out hout => (hends.2 out hout).mono fun _ => .inr⟩
  · have hends : Ends _ (replaceGeneral T r subject replacement limit fuel scale limits) :=
      replaceGeneral_ends scale limits
    exact ⟨hends.1, fun out hout => (hends.2 out hout).mono fun _ => .inl⟩

/-- A replacement ends, and one that returns has replaced at most the limit of matches, apart and
in order, by their expansions and changed nothing else; the whole match as its own replacement
changes nothing at all. -/
theorem replaceLimitWithLimits_correct (T : CharTables) (r : CompiledRegex) (subject : List Char)
    (replacement : List UInt8) (limit fuel scale : Nat) (limits : MatchLimits) :
    replaceLimitWithLimits T r subject replacement limit fuel scale limits ≠ .error .steps ∧
      ∀ out, replaceLimitWithLimits T r subject replacement limit fuel scale limits = .ok out →
        ∃ edits : List (Edit UInt8), edits.length = out.count ∧ out.count ≤ limit ∧
          Spaced (utf8 subject).length 0 edits ∧
          edits.Pairwise (fun a b => a.stop ≤ b.start) ∧
          out.result = splice (utf8 subject) 0 edits ∧
          (∀ e ∈ edits, Replaces (utf8 subject) replacement (Reports T r subject fuel) e) ∧
          (replacement = [36, 48] → out.result = utf8 subject) := by
  obtain ⟨hsteps, hout⟩ : Ends (IsReplaced (utf8 subject) replacement limit
      (Reports T r subject fuel)) (replaceLimitWithLimits T r subject replacement limit fuel scale
        limits) := replaceLimitWithLimits_ends scale limits
  refine ⟨hsteps, fun out h => ?_⟩
  obtain ⟨edits, hcount, hlimit, hspaced, hresult, hreplaces⟩ := hout out h
  refine ⟨edits, hcount, hlimit, hspaced, hspaced.pairwise, hresult, hreplaces, ?_⟩
  rintro rfl
  rw [hresult]
  refine splice_same hspaced fun e he => ?_
  obtain ⟨groups, -, hgroups, hexpand⟩ := hreplaces e he
  exact expandReplacement_whole hgroups hexpand

end Replacing

end Rphp.Regex
