import Rphp.Lib.StepFunction
import Rphp.Stdlib.Date.Tzdb

namespace Rphp.Stdlib.Date.Tzdb
open Rphp.Lib
set_option autoImplicit true

/-- The result of an operation of Longs that saturates. -/
def saturated (x : Int) : Int := max i64Min (min x i64Max)

def offsetAt (db : Database) (identifier : List UInt8) (timestamp : Int) : Option Int :=
  (stateAt db identifier timestamp).map ZoneState.offset

/-- The loop over the probes, which keeps every offset once. -/
def probeOffsets (db : Database) (identifier : List UInt8) :
    List Int → List Int → Option (List Int)
  | [], offsets => some offsets
  | probe :: probes, offsets => do
    let offset ← offsetAt db identifier probe
    if offset ∈ offsets then probeOffsets db identifier probes offsets
    else probeOffsets db identifier probes (offsets ++ [offset])

def localTimestampToUtc (db : Database) (identifier : List UInt8) (localTime : Int) : Int :=
  if identifier = utc ∨ identifier = etc utc ∨ identifier = gmt ∨ identifier = etc gmt then
    localTime
  else
    match probeOffsets db identifier
      [saturated (localTime - 86400), localTime, saturated (localTime + 86400)] [] with
    | none => localTime
    | some offsets =>
      let candidate := fun offset => saturated (localTime - offset)
      let valid := (offsets.filter fun offset =>
        offsetAt db identifier (candidate offset) = some offset).map candidate
      let gapCandidate := (offsets.map candidate).foldl max i64Min
      valid.min?.getD gapCandidate

section Offsets

variable {db : Database} {identifier : List UInt8} {zone : Zone}

/-- The offset that a zone has at an instant, folded where its table ends. -/
def zoneOffset (db : Database) (zone : Zone) (timestamp : Int) : Int :=
  (zoneStateAt db zone (canonicalTransitionTimestamp timestamp)).offset

theorem offsetAt_eq (hfixed : fixedState identifier = none)
    (hzone : lookupZoneIn db identifier = some zone) (x : Int) :
    offsetAt db identifier x = some (zoneOffset db zone x) := by
  rw [offsetAt, stateAt_eq hfixed hzone]
  rfl

theorem probeOffsets_eq (hfixed : fixedState identifier = none)
    (hzone : lookupZoneIn db identifier = some zone) (probes offsets : List Int) :
    ∃ found, probeOffsets db identifier probes offsets = some found ∧
      ∀ offset, offset ∈ found ↔ offset ∈ offsets ∨ ∃ probe ∈ probes, zoneOffset db zone probe = offset := by
  induction probes generalizing offsets with
  | nil => exact ⟨offsets, rfl, fun offset => by simp⟩
  | cons probe probes ih =>
    have hprobe := offsetAt_eq hfixed hzone probe
    by_cases hmem : zoneOffset db zone probe ∈ offsets
    · obtain ⟨found, hfound, hiff⟩ := ih offsets
      refine ⟨found, ?_, fun offset => ?_⟩
      · rw [probeOffsets, hprobe]
        exact (if_pos hmem).trans hfound
      · rw [hiff, List.exists_mem_cons_iff]
        constructor
        · rintro (h | h)
          · exact .inl h
          · exact .inr (.inr h)
        · rintro (h | rfl | h)
          · exact .inl h
          · exact .inl hmem
          · exact .inr h
    · obtain ⟨found, hfound, hiff⟩ := ih (offsets ++ [zoneOffset db zone probe])
      refine ⟨found, ?_, fun offset => ?_⟩
      · rw [probeOffsets, hprobe]
        exact (if_neg hmem).trans hfound
      · rw [hiff, List.exists_mem_cons_iff, List.mem_append, List.mem_singleton, or_assoc,
          eq_comm (a := offset)]

end Offsets

/-- The greatest of the start and the items is what the fold ends with. -/
theorem foldl_max_eq {items : List Int} {start greatest : Int}
    (hmem : start = greatest ∨ greatest ∈ items) (hstart : start ≤ greatest)
    (hle : ∀ item ∈ items, item ≤ greatest) : items.foldl max start = greatest := by
  induction items generalizing start with
  | nil => exact hmem.resolve_right List.not_mem_nil
  | cons item items ih =>
    rw [List.forall_mem_cons] at hle
    apply ih _ (max_le hstart hle.1) hle.2
    rw [List.mem_cons] at hmem
    rcases hmem with rfl | rfl | h
    · exact .inl (max_eq_left hle.1)
    · exact .inl (max_eq_right hstart)
    · exact .inr h

section Resolution

variable {db : Database} {identifier : List UInt8} {zone : Zone} {localTime : Int}

theorem saturated_eq (hlow : i64Min ≤ x) (hhigh : x ≤ i64Max) : saturated x = x := by
  rw [saturated, min_eq_left hhigh, max_eq_right hlow]

/-- Where the offsets are below a day and change once at most within a day of the local time, the
probes find what the clock resolves to. -/
theorem localTimestampToUtc_resolves (hfixed : fixedState identifier = none)
    (hzone : lookupZoneIn db identifier = some zone)
    (hbound : ∀ x, -86400 < zoneOffset db zone x ∧ zoneOffset db zone x < 86400)
    (hone : ChangesOnce (zoneOffset db zone) (localTime - 86400) (localTime + 86400))
    (hlow : i64Min ≤ localTime - 86400) (hhigh : localTime + 86400 ≤ i64Max) :
    Resolves (zoneOffset db zone) localTime (localTimestampToUtc db identifier localTime) := by
  have hnamed : ¬ (identifier = utc ∨ identifier = etc utc ∨ identifier = gmt ∨
      identifier = etc gmt) := by
    intro h
    unfold fixedState at hfixed
    split_ifs at hfixed
    tauto
  obtain ⟨offsets, hprobes, hoffsets⟩ := probeOffsets_eq hfixed hzone
    [saturated (localTime - 86400), localTime, saturated (localTime + 86400)] []
  have hcandidate : ∀ offset ∈ offsets, saturated (localTime - offset) = localTime - offset := by
    intro offset hoffset
    obtain ⟨probe, -, rfl⟩ := ((hoffsets offset).mp hoffset).resolve_left List.not_mem_nil
    have hprobe := hbound probe
    exact saturated_eq (by omega) (by omega)
  have hprobed : ∀ offset ∈ offsets, ∃ x, localTime - 86400 ≤ x ∧ x ≤ localTime + 86400 ∧
      zoneOffset db zone x = offset := by
    intro offset hoffset
    obtain ⟨probe, hprobe, rfl⟩ := ((hoffsets offset).mp hoffset).resolve_left List.not_mem_nil
    rw [saturated_eq (by omega) (by omega), saturated_eq (by omega) (by omega)] at hprobe
    simp only [List.mem_cons, List.not_mem_nil, or_false] at hprobe
    rcases hprobe with rfl | rfl | rfl <;> exact ⟨_, by omega, by omega, rfl⟩
  have hfirst : zoneOffset db zone (localTime - 86400) ∈ offsets := by
    refine (hoffsets _).mpr (.inr ⟨_, List.mem_cons_self, ?_⟩)
    rw [saturated_eq (by omega) (by omega)]
  have hlast : zoneOffset db zone (localTime + 86400) ∈ offsets := by
    refine (hoffsets _).mpr (.inr ⟨saturated (localTime + 86400), by simp, ?_⟩)
    rw [saturated_eq (by omega) (by omega)]
  obtain ⟨valid, hvalidEq⟩ : ∃ valid, valid = (offsets.filter fun offset =>
      offsetAt db identifier (saturated (localTime - offset)) = some offset).map
        fun offset => saturated (localTime - offset) := ⟨_, rfl⟩
  have hvalid : ∀ v, v ∈ valid ↔ v + zoneOffset db zone v = localTime := by
    intro v
    simp only [hvalidEq, List.mem_map, List.mem_filter, decide_eq_true_eq, offsetAt_eq hfixed hzone,
      Option.some.injEq]
    constructor
    · rintro ⟨offset, ⟨hoffset, hshows⟩, rfl⟩
      rw [hcandidate offset hoffset] at hshows ⊢
      omega
    · intro hshows
      have hoffset : zoneOffset db zone v ∈ offsets := by
        rcases offset_probed hbound hone hshows with h | h
        · rw [h]
          exact hfirst
        · rw [h]
          exact hlast
      have hv : saturated (localTime - zoneOffset db zone v) = v := by
        rw [hcandidate _ hoffset]
        omega
      exact ⟨zoneOffset db zone v, ⟨hoffset, by rw [hv]⟩, hv⟩
  rw [localTimestampToUtc, if_neg hnamed, hprobes]
  dsimp only
  rw [← hvalidEq]
  constructor
  · intro v hv
    have hmem := (hvalid v).mpr hv
    obtain ⟨least, hleast⟩ : ∃ least, valid.min? = some least :=
      Option.isSome_iff_exists.mp (List.isSome_min?_of_mem hmem)
    obtain ⟨hin, hle⟩ := List.min?_eq_some_iff.mp hleast
    rw [hleast]
    exact ⟨(hvalid least).mp hin, hle v hmem⟩
  · intro hnone
    have hempty : valid = [] :=
      List.eq_nil_iff_forall_not_mem.mpr fun v hv => hnone v ((hvalid v).mp hv)
    obtain ⟨t, hbefore, hbehind, hoffset, hgreatest⟩ := jump_between hbound hone hnone
    refine ⟨t, hbefore, hbehind, ?_⟩
    have hboundary := hbound (t - 1)
    have hmem : zoneOffset db zone (t - 1) ∈ offsets := by
      rw [hoffset]
      exact hfirst
    rw [hempty]
    apply foldl_max_eq
    · rw [List.mem_map]
      exact .inr ⟨_, hmem, hcandidate _ hmem⟩
    · omega
    · rw [List.forall_mem_map]
      intro offset hmem
      obtain ⟨x, hlowX, hhighX, rfl⟩ := hprobed offset hmem
      have hle := hgreatest x hlowX hhighX
      rw [hcandidate _ hmem]
      omega

end Resolution

section Spacing

variable {db : Database} {identifier : List UInt8} {zone : Zone} {localTime : Int}

/-- What is assumed of a table: offsets below a day and transitions more than two days apart. -/
structure Zone.Regular (zone : Zone) : Prop where
  spaced : zone.transitions.IsChain fun a b => a.timestamp + 172800 < b.timestamp
  initial : -86400 < zone.initial.offset ∧ zone.initial.offset < 86400
  offsets : ∀ transition ∈ zone.transitions,
    -86400 < transition.state.offset ∧ transition.state.offset < 86400

/-- The fold of the later years adds no change of the offset at the seams of the cycle, and the
changes on the two sides of a seam are as far apart as all others. -/
structure Zone.ClosesCycle (db : Database) (zone : Zone) : Prop where
  seam : (zoneStateAt db zone (farStart - 1)).offset = (zoneStateAt db zone cycleStart).offset
  spaced : ∀ first ∈ zone.transitions, ∀ last ∈ zone.transitions, cycleStart < first.timestamp →
    last.timestamp < farStart → last.timestamp + 172800 < first.timestamp + cycleLength

theorem Zone.Regular.pairwise (h : zone.Regular) :
    zone.transitions.Pairwise fun a b => a.timestamp + 172800 < b.timestamp := by
  have : IsTrans Transition fun a b => a.timestamp + 172800 < b.timestamp :=
    ⟨fun a b c hab hbc => by omega⟩
  exact List.isChain_iff_pairwise.mp h.spaced

theorem Zone.Regular.sorted (h : zone.Regular) :
    zone.transitions.Pairwise (·.timestamp < ·.timestamp) :=
  h.pairwise.imp fun hab => by omega

theorem Zone.Regular.apart (h : zone.Regular) {first second : Transition}
    (hfirst : first ∈ zone.transitions) (hsecond : second ∈ zone.transitions)
    (hlt : first.timestamp < second.timestamp) : first.timestamp + 172800 < second.timestamp := by
  have hforward : zone.transitions.Pairwise fun a b =>
      a.timestamp < b.timestamp → a.timestamp + 172800 < b.timestamp :=
    h.pairwise.imp fun hab hlt => by omega
  have hbackward : zone.transitions.Pairwise fun a b =>
      b.timestamp < a.timestamp → b.timestamp + 172800 < a.timestamp :=
    h.pairwise.imp fun hab hba => by omega
  exact hforward.forall_of_forall_of_flip (fun _ _ hlt => by omega) hbackward hfirst hsecond hlt

theorem Zone.Regular.bound (h : zone.Regular) (db : Database) (x : Int) :
    -86400 < zoneOffset db zone x ∧ zoneOffset db zone x < 86400 := by
  have hstate : zoneStateAt db zone (canonicalTransitionTimestamp x) =
      decodeState db (zone.active (canonicalTransitionTimestamp x)) := (decode_active _ _ _).symm
  rw [zoneOffset, hstate]
  change -86400 < (zone.active (canonicalTransitionTimestamp x)).offset ∧
    (zone.active (canonicalTransitionTimestamp x)).offset < 86400
  rw [Zone.active, selected_eq]
  cases hlast : (changesUpTo Transition.timestamp zone.transitions
      (canonicalTransitionTimestamp x)).getLast? with
  | none => exact h.initial
  | some transition => exact h.offsets transition (getLast_time_le hlast).2

/-- The table changes its state at its transitions only. -/
theorem table_change (hsorted : zone.transitions.Pairwise (·.timestamp < ·.timestamp))
    (hchange : (zoneStateAt db zone (x - 1)).offset ≠ (zoneStateAt db zone x).offset) :
    ∃ transition ∈ zone.transitions, transition.timestamp = x := by
  by_contra hnone
  apply hchange
  have hstate : zoneStateAt db zone (x - 1) = zoneStateAt db zone x := by
    apply stepAt_eq hsorted _ _ _ (by omega)
    intro transition hmem
    rw [changesUpTo_eq_filter hsorted, List.mem_filter, decide_eq_true_eq] at hmem
    have hne : transition.timestamp ≠ x := fun heq => hnone ⟨transition, hmem.1, heq⟩
    omega
  rw [hstate]

/-- A change of the offset is a transition, one that is folded, or the seam of two cycles. -/
theorem offset_change (hsorted : zone.transitions.Pairwise (·.timestamp < ·.timestamp))
    (hchange : ChangesAt (zoneOffset db zone) t) :
    (t < farStart ∧ ∃ transition ∈ zone.transitions, transition.timestamp = t) ∨
      ∃ k, 1 ≤ k ∧ cycleStart ≤ t - cycleLength * k ∧ t - cycleLength * k < farStart ∧
        ((t - cycleLength * k = cycleStart ∧ (zoneStateAt db zone (farStart - 1)).offset ≠
            (zoneStateAt db zone cycleStart).offset) ∨
          cycleStart < t - cycleLength * k ∧
            ∃ transition ∈ zone.transitions, transition.timestamp = t - cycleLength * k) := by
  unfold ChangesAt zoneOffset at hchange
  by_cases hnear : t < farStart
  · rw [canonical_near hnear, canonical_near (by omega)] at hchange
    exact .inl ⟨hnear, table_change hsorted hchange⟩
  · obtain ⟨k, hk, hfold, hstart, hend⟩ := canonical_far (not_lt.mp hnear)
    refine .inr ⟨k, hk, hstart, hend, ?_⟩
    have hbefore : canonicalTransitionTimestamp (t - 1) =
        if t - cycleLength * k = cycleStart then farStart - 1 else t - 1 - cycleLength * k := by
      by_cases hlast : t - 1 < farStart
      · rw [canonical_near hlast, if_pos]
        · unfold cycleLength farStart cycleStart at *
          omega
        · unfold cycleLength farStart cycleStart at *
          omega
      · obtain ⟨j, hj, hfold', hstart', hend'⟩ := canonical_far (not_lt.mp hlast)
        rw [hfold']
        unfold cycleLength farStart cycleStart at *
        split_ifs <;> omega
    rw [hfold, hbefore] at hchange
    split at hchange
    · rename_i hseam
      exact .inl ⟨hseam, hseam ▸ hchange⟩
    · rename_i hinside
      rw [sub_right_comm] at hchange
      exact .inr ⟨by omega, table_change hsorted hchange⟩

/-- Below the year 2500 the table's own spacing is enough. -/
theorem changesOnce_near (h : zone.Regular) (db : Database) (hnear : localTime + 86400 < farStart) :
    ChangesOnce (zoneOffset db zone) (localTime - 86400) (localTime + 86400) := by
  intro s t hs hst ht hfirst hsecond
  rcases offset_change h.sorted hfirst with ⟨-, first, hfirstMem, rfl⟩ | ⟨k, hk, hstart, -⟩
  · rcases offset_change h.sorted hsecond with ⟨-, second, hsecondMem, rfl⟩ | ⟨k, hk, hstart, -⟩
    · have hapart := h.apart hfirstMem hsecondMem hst
      omega
    · unfold cycleLength farStart cycleStart at *
      omega
  · unfold cycleLength farStart cycleStart at *
    omega

/-- A change of a zone that closes its cycle is a transition of the table or a folded one. -/
theorem Zone.ClosesCycle.change (hcycle : zone.ClosesCycle db) (h : zone.Regular)
    (hchange : ChangesAt (zoneOffset db zone) t) :
    ∃ transition ∈ zone.transitions, ∃ k, 0 ≤ k ∧ t = transition.timestamp + cycleLength * k ∧
      transition.timestamp < farStart ∧ (1 ≤ k → cycleStart < transition.timestamp) := by
  rcases offset_change h.sorted hchange with ⟨hnear, transition, hmem, rfl⟩ |
    ⟨k, hk, -, hend, ⟨-, hseam⟩ | ⟨hinside, transition, hmem, htime⟩⟩
  · exact ⟨transition, hmem, 0, by omega, by omega, hnear, by omega⟩
  · exact absurd hcycle.seam hseam
  · exact ⟨transition, hmem, k, by omega, by omega, by omega, fun _ => by omega⟩

theorem changesOnce_cycle (h : zone.Regular) (hcycle : zone.ClosesCycle db) :
    ChangesOnce (zoneOffset db zone) (localTime - 86400) (localTime + 86400) := by
  intro s t hs hst ht hfirst hsecond
  obtain ⟨first, hfirstMem, j, hj, rfl, hfirstEnd, hfirstStart⟩ := hcycle.change h hfirst
  obtain ⟨second, hsecondMem, k, hk, rfl, hsecondEnd, hsecondStart⟩ := hcycle.change h hsecond
  rcases lt_trichotomy j k with hjk | rfl | hjk
  · have hwrap := hcycle.spaced second hsecondMem first hfirstMem (hsecondStart (by omega)) hfirstEnd
    unfold cycleLength at *
    omega
  · have hapart := h.apart hfirstMem hsecondMem (by omega)
    omega
  · have hstart := hfirstStart (by omega)
    unfold cycleLength farStart cycleStart at *
    omega

end Spacing

/-- For a zone with offsets below a day and transitions more than two days apart, a local time is
resolved to its earliest instant, or through a jump with the offset before it: below the year 2500,
and everywhere when the fold of the later years closes the cycle. -/
theorem localTimestampToUtc_earliest (db : Database) (identifier : List UInt8) (zone : Zone)
    (localTime : Int) (hfixed : fixedState identifier = none)
    (hzone : lookupZoneIn db identifier = some zone) (hregular : zone.Regular)
    (hlow : i64Min ≤ localTime - 86400) (hhigh : localTime + 86400 ≤ i64Max)
    (hcycle : localTime + 86400 < farStart ∨ zone.ClosesCycle db) :
    Resolves (zoneOffset db zone) localTime (localTimestampToUtc db identifier localTime) := by
  apply localTimestampToUtc_resolves hfixed hzone (hregular.bound db) _ hlow hhigh
  rcases hcycle with hnear | hcloses
  · exact changesOnce_near hregular db hnear
  · exact changesOnce_cycle hregular hcloses

/-- In the year 2255 the zone `Z` jumps over an hour. -/
theorem localTimestampToUtc_jump :
    ∃ zone, lookupZoneIn changingDatabase [90] = some zone ∧
      Resolves (zoneOffset changingDatabase zone) 9000001800
        (localTimestampToUtc changingDatabase [90] 9000001800) := by
  refine ⟨_, rfl, localTimestampToUtc_earliest changingDatabase [90] _ 9000001800 (by decide) rfl
    ⟨?_, by decide, ?_⟩ (by decide) (by decide) (.inl (by decide))⟩
  · exact .singleton _
  · decide

/-- One zone with the name `Z`, whose only change is an hour before the year 2500. -/
def lateDatabase : Database :=
  ⟨release, [[83], [68]], [⟨⟨0, 0, false⟩, [⟨16725222000, ⟨7200, 1, true⟩⟩]⟩], [⟨[90], 0⟩]⟩

/-- The change is undone by the fold an hour later, and no probe sees the offset between. -/
theorem localTimestampToUtc_late :
    ∃ zone, fixedState [90] = none ∧ lookupZoneIn lateDatabase [90] = some zone ∧ zone.Regular ∧
      ¬ Resolves (zoneOffset lateDatabase zone) 16725229200
        (localTimestampToUtc lateDatabase [90] 16725229200) := by
  refine ⟨_, by decide, rfl, ⟨.singleton _, by decide, by decide⟩, fun h => ?_⟩
  obtain ⟨-, hle⟩ := h.earliest 16725222000 (by decide)
  exact absurd hle (by decide)

end Rphp.Stdlib.Date.Tzdb
