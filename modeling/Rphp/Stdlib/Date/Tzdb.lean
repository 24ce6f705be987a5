import Rphp.Lib.StepFunction
import Rphp.Stdlib.Date.TzdbDecode
import Rphp.Stdlib.Date.UnixTime

namespace Rphp.Stdlib.Date.Tzdb
set_option autoImplicit true

open Rphp.Lib

structure ZoneState where
  offset : Int
  abbreviation : List UInt8
  isDst : Bool
  deriving DecidableEq, Repr

structure ZoneTransition where
  timestamp : Int
  state : ZoneState
  deriving DecidableEq, Repr

/-- The texts `UTC` and `GMT`, and `Etc/` in front of a text. -/
def utc : List UInt8 := [85, 84, 67]

def gmt : List UInt8 := [71, 77, 84]

def etc (name : List UInt8) : List UInt8 := [69, 116, 99, 47] ++ name

def fixedState (identifier : List UInt8) : Option ZoneState :=
  if identifier = utc ∨ identifier = etc utc then some ⟨0, utc, false⟩
  else if identifier = gmt ∨ identifier = etc gmt then some ⟨0, gmt, false⟩
  else none

/-- The identifiers of a database are in order, so that the binary search finds a name where the
first search does. -/
def lookupZoneIn (db : Database) (identifier : List UInt8) : Option Zone := do
  let found ← db.identifiers.find? fun candidate => candidate.name = identifier
  db.zones[found.zone]?

def contains (db : Database) (identifier : List UInt8) : Bool :=
  (fixedState identifier).isSome || (lookupZoneIn db identifier).isSome

def decodeState (db : Database) (state : EncodedState) : ZoneState :=
  ⟨state.offset, db.abbreviations[state.abbreviation]?.getD [], state.isDst⟩

def generatedEndYear : Int := 2500

def futureCycleStartYear : Int := 2100

def canonicalTransitionTimestamp (timestamp : Int) : Int :=
  let parts := unixToParts timestamp
  if parts.year < generatedEndYear then timestamp
  else
    let mappedYear := futureCycleStartYear + (parts.year - futureCycleStartYear) % 400
    partsToUnix mappedYear parts.month parts.day parts.hour parts.minute parts.second

/-- The first index whose item does not have the property. -/
def partitionPoint (p : α → Bool) (items : List α) : Nat := (items.takeWhile p).length

def Zone.selected (zone : Zone) (timestamp : Int) : Option Transition :=
  match partitionPoint (fun transition => transition.timestamp ≤ timestamp) zone.transitions with
  | 0 => none
  | index + 1 => zone.transitions[index]?

def Zone.active (zone : Zone) (timestamp : Int) : EncodedState :=
  ((zone.selected timestamp).map Transition.state).getD zone.initial

def stateAt (db : Database) (identifier : List UInt8) (timestamp : Int) : Option ZoneState :=
  match fixedState identifier with
  | some state => some state
  | none => do
    let zone ← lookupZoneIn db identifier
    let timestamp := canonicalTransitionTimestamp timestamp
    return decodeState db (zone.active timestamp)

def stateAndTransitionAt (db : Database) (identifier : List UInt8) (timestamp : Int) :
    Option (ZoneState × Int) :=
  match fixedState identifier with
  | some state => some (state, i64Min)
  | none => do
    let zone ← lookupZoneIn db identifier
    let timestamp := canonicalTransitionTimestamp timestamp
    match zone.selected timestamp with
    | some transition => return (decodeState db transition.state, transition.timestamp)
    | none => return (decodeState db zone.initial, i64Min)

def transitions (db : Database) (identifier : List UInt8) (begin stop : Int) :
    Option (List ZoneTransition) :=
  if stop ≤ begin then some []
  else
    match fixedState identifier with
    | some state => some [⟨begin, state⟩]
    | none => do
      let zone ← lookupZoneIn db identifier
      let first := partitionPoint (fun transition => transition.timestamp ≤ begin) zone.transitions
      let inside := (zone.transitions.drop first).takeWhile fun transition =>
        transition.timestamp < stop
      return ⟨begin, decodeState db (zone.active begin)⟩ ::
        inside.map fun transition => ⟨transition.timestamp, decodeState db transition.state⟩

/-- The three queries describe one step function in a window. -/
def OneStepFunction (db : Database) (identifier : List UInt8) (begin stop : Int) : Prop :=
  ∃ entries, transitions db identifier begin stop = some entries ∧
    (∀ entry ∈ entries, stateAt db identifier entry.timestamp = some entry.state) ∧
    ∀ x, begin ≤ x → x < stop →
      (∃ entry, (entries.filter fun entry => entry.timestamp ≤ x).getLast? = some entry ∧
        stateAt db identifier x = some entry.state) ∧
      ∃ state b, stateAndTransitionAt db identifier x = some (state, b) ∧
        stateAt db identifier x = some state ∧ b ≤ x ∧
        (∀ y, b ≤ y → y ≤ x → stateAt db identifier y = some state) ∧
        (b = i64Min ∨ ∃ zone, lookupZoneIn db identifier = some zone ∧
          ∃ transition ∈ zone.transitions, transition.timestamp = b)

/-- The state that the table of a zone has at an instant, with nothing folded. -/
def zoneStateAt (db : Database) (zone : Zone) : Int → ZoneState :=
  stepAt Transition.timestamp (fun transition => decodeState db transition.state)
    (decodeState db zone.initial) zone.transitions

/-- The table of a zone has the same state over the whole cycle and in the window behind it. -/
def OneStateFar (db : Database) (zone : Zone) (begin stop : Int) : Prop :=
  ∃ state, ∀ x, (cycleStart ≤ x ∧ x < farStart) ∨ (farStart ≤ x ∧ begin ≤ x ∧ x < stop) →
    zoneStateAt db zone x = state

section Canonical

theorem canonical_near (h : x < farStart) : canonicalTransitionTimestamp x = x := by
  unfold canonicalTransitionTimestamp
  exact if_pos ((unixToParts_year_lt x).mpr h)

/-- From the year 2500 on an instant is folded by whole cycles. -/
theorem canonical_far (h : farStart ≤ x) :
    ∃ k, 1 ≤ k ∧ canonicalTransitionTimestamp x = x - cycleLength * k ∧
      cycleStart ≤ x - cycleLength * k ∧ x - cycleLength * k < farStart := by
  have hyear : ¬ (unixToParts x).year < 2500 := fun hlt =>
    absurd ((unixToParts_year_lt x).mp hlt) (not_lt.mpr h)
  obtain ⟨k, hk⟩ : ∃ k, k = ((unixToParts x).year - 2100) / 400 := ⟨_, rfl⟩
  have hmapped : futureCycleStartYear + ((unixToParts x).year - futureCycleStartYear) % 400 =
      (unixToParts x).year - 400 * k := by
    unfold futureCycleStartYear
    omega
  have hstart : ¬ x < cycleStart + cycleLength * k := fun hlt =>
    absurd ((unixToParts_year_lt_cycle x k).mpr hlt) (by omega)
  have hend : x < cycleStart + cycleLength * (k + 1) :=
    (unixToParts_year_lt_cycle x (k + 1)).mp (by omega)
  refine ⟨k, by omega, ?_, ?_⟩
  · unfold canonicalTransitionTimestamp
    simp only [hmapped]
    exact (if_neg hyear).trans (partsToUnix_shift x k (by omega))
  · unfold cycleStart cycleLength farStart at *
    omega

theorem canonical_le (x : Int) : canonicalTransitionTimestamp x ≤ x := by
  by_cases hnear : x < farStart
  · exact (canonical_near hnear).le
  · obtain ⟨k, hk, hfold, -⟩ := canonical_far (not_lt.mp hnear)
    rw [hfold]
    unfold cycleLength
    omega

theorem min_le_canonical (hx : i64Min ≤ x) : i64Min ≤ canonicalTransitionTimestamp x := by
  by_cases hnear : x < farStart
  · rw [canonical_near hnear]
    exact hx
  · obtain ⟨k, -, hfold, hstart, -⟩ := canonical_far (not_lt.mp hnear)
    rw [hfold]
    exact le_trans (by decide) hstart

end Canonical

section Table

variable {db : Database} {zone : Zone} {identifier : List UInt8} {begin stop x y : Int}

theorem drop_partitionPoint (p : α → Bool) (items : List α) :
    items.drop (partitionPoint p items) = items.dropWhile p := by
  induction items with
  | nil => rfl
  | cons item items ih =>
    unfold partitionPoint at ih ⊢
    cases hp : p item with
    | false =>
      rw [List.takeWhile_cons_of_neg (by simp [hp]), List.dropWhile_cons_of_neg (by simp [hp])]
      rfl
    | true =>
      rw [List.takeWhile_cons_of_pos hp, List.dropWhile_cons_of_pos hp, List.length_cons,
        List.drop_succ_cons, ih]

theorem selected_eq (zone : Zone) (x : Int) :
    zone.selected x = (changesUpTo Transition.timestamp zone.transitions x).getLast? := by
  have hprefix := List.takeWhile_prefix (l := zone.transitions)
    (fun transition => decide (transition.timestamp ≤ x))
  unfold Zone.selected partitionPoint changesUpTo
  rw [List.getLast?_eq_getElem?]
  cases hlength : (zone.transitions.takeWhile
      fun transition => decide (transition.timestamp ≤ x)).length with
  | zero =>
    rw [List.length_eq_zero_iff.mp hlength]
    rfl
  | succ index =>
    have hindex : index < (zone.transitions.takeWhile
        fun transition => decide (transition.timestamp ≤ x)).length := by omega
    exact (List.prefix_iff_getElem?.mp hprefix index hindex).trans
      (List.getElem?_eq_getElem hindex).symm

/-- The state that is selected is the one of the table. -/
theorem decode_active (db : Database) (zone : Zone) (x : Int) :
    decodeState db (zone.active x) = zoneStateAt db zone x := by
  rw [Zone.active, selected_eq, zoneStateAt, stepAt, stateAfter]
  cases (changesUpTo Transition.timestamp zone.transitions x).getLast? with
  | none => rfl
  | some transition => rfl

theorem stateAt_eq (hfixed : fixedState identifier = none)
    (hzone : lookupZoneIn db identifier = some zone) (x : Int) :
    stateAt db identifier x = some (zoneStateAt db zone (canonicalTransitionTimestamp x)) := by
  simp only [stateAt, hfixed, hzone, ← decode_active]
  rfl

/-- The last transition up to an instant. -/
def Zone.boundary (zone : Zone) (x : Int) : Int :=
  ((zone.selected x).map Transition.timestamp).getD i64Min

theorem stateAndTransitionAt_eq (hfixed : fixedState identifier = none)
    (hzone : lookupZoneIn db identifier = some zone) (x : Int) :
    stateAndTransitionAt db identifier x =
      some (zoneStateAt db zone (canonicalTransitionTimestamp x),
        zone.boundary (canonicalTransitionTimestamp x)) := by
  rw [← decode_active, Zone.active, Zone.boundary]
  unfold stateAndTransitionAt
  simp only [hfixed, hzone]
  change (match zone.selected (canonicalTransitionTimestamp x) with
    | some transition => _
    | none => _) = _
  cases zone.selected (canonicalTransitionTimestamp x) with
  | none => rfl
  | some transition => rfl

theorem boundary_le (zone : Zone) (hx : i64Min ≤ x) : zone.boundary x ≤ x := by
  unfold Zone.boundary
  rw [selected_eq]
  cases hlast : (changesUpTo Transition.timestamp zone.transitions x).getLast? with
  | none => exact hx
  | some transition => exact (getLast_time_le hlast).1

theorem boundary_takes_effect (zone : Zone) (x : Int) :
    zone.boundary x = i64Min ∨
      ∃ transition ∈ zone.transitions, transition.timestamp = zone.boundary x := by
  unfold Zone.boundary
  rw [selected_eq]
  cases hlast : (changesUpTo Transition.timestamp zone.transitions x).getLast? with
  | none => exact .inl rfl
  | some transition => exact .inr ⟨transition, (getLast_time_le hlast).2, rfl⟩

/-- The table has the same state from the boundary on. -/
theorem zoneStateAt_boundary (db : Database)
    (hsorted : zone.transitions.Pairwise (·.timestamp < ·.timestamp))
    (hy : zone.boundary x ≤ y) (hyx : y ≤ x) :
    zoneStateAt db zone y = zoneStateAt db zone x := by
  apply stepAt_eq hsorted _ _ _ hyx
  unfold Zone.boundary at hy
  rw [selected_eq] at hy
  cases hlast : (changesUpTo Transition.timestamp zone.transitions x).getLast? with
  | none =>
    rw [List.getLast?_eq_none_iff] at hlast
    rw [hlast]
    exact nofun
  | some last =>
    rw [hlast] at hy
    intro change hchange
    exact (time_le_getLast hsorted hlast change hchange).trans hy

def Transition.decoded (db : Database) (transition : Transition) : ZoneTransition :=
  ⟨transition.timestamp, decodeState db transition.state⟩

/-- The changes of the table inside the window, behind the state at its start. -/
def entriesInside (db : Database) (zone : Zone) (begin stop : Int) : List ZoneTransition :=
  ⟨begin, zoneStateAt db zone begin⟩ ::
    (changesInside Transition.timestamp zone.transitions begin stop).map (·.decoded db)

theorem transitions_eq (hfixed : fixedState identifier = none)
    (hzone : lookupZoneIn db identifier = some zone) (hlt : begin < stop) :
    transitions db identifier begin stop = some (entriesInside db zone begin stop) := by
  unfold transitions entriesInside changesInside
  rw [if_neg (not_le.mpr hlt)]
  simp only [hfixed, hzone, ← decode_active, ← drop_partitionPoint]
  rfl

/-- Every entry has the state of the table at its instant. -/
theorem entry_state (hsorted : zone.transitions.Pairwise (·.timestamp < ·.timestamp))
    (hlt : begin < stop) (hentry : entry ∈ entriesInside db zone begin stop) :
    begin ≤ entry.timestamp ∧ entry.timestamp < stop ∧
      zoneStateAt db zone entry.timestamp = entry.state := by
  cases hentry with
  | head => exact ⟨le_refl begin, hlt, rfl⟩
  | tail _ hmem =>
    obtain ⟨transition, hinside, rfl⟩ := List.mem_map.mp hmem
    obtain ⟨hbegin, hstop, hmem⟩ := time_changesInside hsorted hinside
    exact ⟨hbegin.le, hstop, stepAt_time hsorted hmem _ _⟩

/-- The last entry up to an instant has the state of the table there. -/
theorem last_entry_state (db : Database)
    (hsorted : zone.transitions.Pairwise (·.timestamp < ·.timestamp))
    (hbegin : begin ≤ x) (hstop : x < stop) :
    ∃ entry, ((entriesInside db zone begin stop).filter
        fun entry => entry.timestamp ≤ x).getLast? = some entry ∧
      zoneStateAt db zone x = entry.state := by
  have hinside : (changesInside Transition.timestamp zone.transitions begin stop).Pairwise
      (·.timestamp < ·.timestamp) :=
    hsorted.sublist ((List.takeWhile_sublist _).trans (List.dropWhile_sublist _))
  have hfilter : (entriesInside db zone begin stop).filter (fun entry => entry.timestamp ≤ x) =
      ⟨begin, zoneStateAt db zone begin⟩ ::
        (changesUpTo Transition.timestamp
          (changesInside Transition.timestamp zone.transitions begin stop) x).map
          (·.decoded db) := by
    rw [entriesInside, List.filter_cons_of_pos (by simpa using hbegin), List.filter_map,
      changesUpTo_eq_filter hinside]
    rfl
  have hstate : zoneStateAt db zone x =
      stateAfter (fun transition => decodeState db transition.state) (zoneStateAt db zone begin)
        (changesUpTo Transition.timestamp
          (changesInside Transition.timestamp zone.transitions begin stop) x) :=
    stepAt_window _ _ hbegin hstop
  rw [hfilter, List.getLast?_cons, hstate]
  refine ⟨_, rfl, ?_⟩
  rw [List.getLast?_map, stateAfter]
  cases (changesUpTo Transition.timestamp
      (changesInside Transition.timestamp zone.transitions begin stop) x).getLast? with
  | none => rfl
  | some transition => rfl

end Table

section Queries

variable {db : Database} {zone : Zone} {identifier : List UInt8} {begin stop x y : Int}

theorem oneStepFunction_fixed (hfixed : fixedState identifier = some state)
    (hbegin : i64Min ≤ begin) (hlt : begin < stop) :
    OneStepFunction db identifier begin stop := by
  have hstate : ∀ x, stateAt db identifier x = some state := by
    intro x
    simp only [stateAt, hfixed]
  have hentries : transitions db identifier begin stop = some [⟨begin, state⟩] := by
    simp only [transitions, hfixed]
    exact if_neg (not_le.mpr hlt)
  refine ⟨_, hentries, ?_, ?_⟩
  · intro entry hentry
    rw [List.mem_singleton.mp hentry]
    exact hstate begin
  · intro x hx _
    constructor
    · refine ⟨⟨begin, state⟩, ?_, hstate x⟩
      rw [List.filter_cons_of_pos (by simpa using hx)]
      rfl
    · refine ⟨state, i64Min, ?_, hstate x, hbegin.trans hx, fun y _ _ => hstate y, .inl rfl⟩
      simp only [stateAndTransitionAt, hfixed]

/-- Where the fold does not change the state of the table, the queries agree. -/
theorem oneStepFunction_of_unfolded (hfixed : fixedState identifier = none)
    (hzone : lookupZoneIn db identifier = some zone)
    (hsorted : zone.transitions.Pairwise (·.timestamp < ·.timestamp))
    (hbegin : i64Min ≤ begin) (hlt : begin < stop)
    (hfar : stop ≤ farStart ∨ OneStateFar db zone begin stop) :
    OneStepFunction db identifier begin stop := by
  have hunfolded : ∀ x, begin ≤ x → x < stop →
      zoneStateAt db zone (canonicalTransitionTimestamp x) = zoneStateAt db zone x := by
    intro x hx hxs
    by_cases hnear : x < farStart
    · rw [canonical_near hnear]
    · obtain hstop | ⟨state, hstate⟩ := hfar
      · exact absurd (hxs.trans_le hstop) hnear
      · obtain ⟨k, -, hk, hcycle⟩ := canonical_far (not_lt.mp hnear)
        rw [hk, hstate _ (.inl hcycle), hstate x (.inr ⟨not_lt.mp hnear, hx, hxs⟩)]
  have hboundary : ∀ x, begin ≤ x → x < stop → ∀ y,
      zone.boundary (canonicalTransitionTimestamp x) ≤ y → y ≤ x →
      zoneStateAt db zone (canonicalTransitionTimestamp y) =
        zoneStateAt db zone (canonicalTransitionTimestamp x) := by
    intro x hx hxs y hby hyx
    by_cases hnear : x < farStart
    · rw [canonical_near hnear] at hby ⊢
      rw [canonical_near (hyx.trans_lt hnear)]
      exact zoneStateAt_boundary db hsorted hby hyx
    · obtain hstop | ⟨state, hstate⟩ := hfar
      · exact absurd (hxs.trans_le hstop) hnear
      · obtain ⟨k, -, hk, hcycle⟩ := canonical_far (not_lt.mp hnear)
        rw [hk] at hby ⊢
        by_cases hynear : y < farStart
        · rw [canonical_near hynear]
          obtain hfolded | hlater := le_total y (x - cycleLength * k)
          · exact zoneStateAt_boundary db hsorted hby hfolded
          · rw [hstate _ (.inl hcycle), hstate y (.inl ⟨hcycle.1.trans hlater, hynear⟩)]
        · obtain ⟨j, -, hj, hcycle'⟩ := canonical_far (not_lt.mp hynear)
          rw [hj, hstate _ (.inl hcycle), hstate _ (.inl hcycle')]
  refine ⟨_, transitions_eq hfixed hzone hlt, ?_, ?_⟩
  · intro entry hentry
    obtain ⟨hfirst, hlast, hstate⟩ := entry_state hsorted hlt hentry
    rw [stateAt_eq hfixed hzone, hunfolded _ hfirst hlast, hstate]
  · intro x hx hxs
    constructor
    · obtain ⟨entry, hentry, hstate⟩ := last_entry_state db hsorted hx hxs
      exact ⟨entry, hentry, by rw [stateAt_eq hfixed hzone, hunfolded x hx hxs, hstate]⟩
    · refine ⟨_, _, stateAndTransitionAt_eq hfixed hzone x, stateAt_eq hfixed hzone x, ?_, ?_, ?_⟩
      · exact (boundary_le zone (min_le_canonical (hbegin.trans hx))).trans (canonical_le x)
      · intro y hby hyx
        rw [stateAt_eq hfixed hzone, hboundary x hx hxs y hby hyx]
      · obtain hmin | htransition := boundary_takes_effect zone (canonicalTransitionTimestamp x)
        · exact .inl hmin
        · exact .inr ⟨zone, hzone, htransition⟩

/-- Two instants that are folded onto the same cycle from a whole cycle of instants. -/
theorem exists_folded (hx : farStart ≤ x) (hy : cycleStart ≤ y ∧ y < farStart) :
    ∃ y', canonicalTransitionTimestamp x ≤ y' ∧ y' ≤ x ∧ canonicalTransitionTimestamp y' = y := by
  obtain ⟨k, hk, hfold, hcycle⟩ := canonical_far hx
  rw [hfold]
  by_cases hlater : x - cycleLength * k ≤ y
  · refine ⟨y, hlater, ?_, canonical_near hy.2⟩
    unfold cycleLength farStart at *
    omega
  · have hshift : farStart ≤ y + cycleLength := by
      unfold cycleLength farStart cycleStart at *
      omega
    obtain ⟨j, hj, hfold', hcycle'⟩ := canonical_far hshift
    refine ⟨y + cycleLength, ?_, ?_, ?_⟩
    · unfold cycleLength farStart cycleStart at *
      omega
    · unfold cycleLength farStart cycleStart at *
      omega
    · rw [hfold']
      unfold cycleLength farStart cycleStart at *
      omega

theorem oneStateFar_of_oneStepFunction (hfixed : fixedState identifier = none)
    (hzone : lookupZoneIn db identifier = some zone)
    (hsorted : zone.transitions.Pairwise (·.timestamp < ·.timestamp))
    (hbegin : i64Min ≤ begin) (hlt : begin < stop) (hstop : farStart < stop)
    (hone : OneStepFunction db identifier begin stop) :
    OneStateFar db zone begin stop := by
  obtain ⟨entries, hentries, -, hqueries⟩ := hone
  rw [transitions_eq hfixed hzone hlt] at hentries
  cases hentries
  have htable : ∀ x, begin ≤ x → x < stop →
      zoneStateAt db zone (canonicalTransitionTimestamp x) = zoneStateAt db zone x := by
    intro x hx hxs
    obtain ⟨⟨entry, hlast, hstate⟩, -⟩ := hqueries x hx hxs
    obtain ⟨entry', hlast', hstate'⟩ := last_entry_state db hsorted hx hxs
    rw [hlast] at hlast'
    cases hlast'
    rw [stateAt_eq hfixed hzone] at hstate
    rw [hstate']
    exact Option.some.inj hstate
  obtain ⟨last, hlast⟩ : ∃ last, last = stop - 1 := ⟨_, rfl⟩
  have hlastFar : farStart ≤ last := by omega
  obtain ⟨-, state, b, hpair, -, -, hconstant, -⟩ := hqueries last (by omega) (by omega)
  rw [stateAndTransitionAt_eq hfixed hzone] at hpair
  cases hpair
  have hcycle : ∀ y, cycleStart ≤ y ∧ y < farStart →
      zoneStateAt db zone y = zoneStateAt db zone (canonicalTransitionTimestamp last) := by
    intro y hy
    obtain ⟨y', hfirst, hle, hfold⟩ := exists_folded hlastFar hy
    have hmin : i64Min ≤ last := by omega
    have hstate := hconstant y' ((boundary_le zone (min_le_canonical hmin)).trans hfirst) hle
    rw [stateAt_eq hfixed hzone, hfold] at hstate
    exact Option.some.inj hstate
  refine ⟨zoneStateAt db zone (canonicalTransitionTimestamp last), ?_⟩
  rintro x (hx | ⟨hx, hxb, hxs⟩)
  · exact hcycle x hx
  · obtain ⟨k, -, hfold, hin⟩ := canonical_far hx
    rw [← htable x hxb hxs, hfold]
    exact hcycle _ hin

/-- The queries describe one step function exactly where the window ends before the year 2500 or
the fold of the later instants changes no state. -/
theorem oneStepFunction_iff (hdecoded : decodeDatabase data = .ok db)
    (hcontains : contains db identifier) (begin stop : I64) (hlt : begin.val < stop.val) :
    OneStepFunction db identifier begin.val stop.val ↔
      (fixedState identifier).isSome ∨ stop.val ≤ farStart ∨
        ∃ zone, lookupZoneIn db identifier = some zone ∧
          OneStateFar db zone begin.val stop.val := by
  have hsound := decodeDatabase_sound hdecoded
  have hbegin := begin.inRange.1
  cases hfixed : fixedState identifier with
  | some state =>
    rw [Option.isSome_some]
    exact iff_of_true (oneStepFunction_fixed hfixed hbegin hlt) (.inl rfl)
  | none =>
    simp only [contains, hfixed, Option.isSome_none, Bool.false_or] at hcontains
    obtain ⟨zone, hzone⟩ := Option.isSome_iff_exists.mp hcontains
    have hmem : zone ∈ db.zones := by
      obtain ⟨found, -, hfound⟩ := Option.bind_eq_some_iff.mp hzone
      exact List.mem_of_getElem? hfound
    have hsorted := (hsound.zones zone hmem).sorted
    constructor
    · intro hone
      by_cases hnear : stop.val ≤ farStart
      · exact .inr (.inl hnear)
      · exact .inr (.inr ⟨zone, hzone, oneStateFar_of_oneStepFunction hfixed hzone hsorted hbegin
          hlt (not_le.mp hnear) hone⟩)
    · intro hcondition
      apply oneStepFunction_of_unfolded hfixed hzone hsorted hbegin hlt
      obtain hsome | hnear | ⟨zone', hzone', hfar⟩ := hcondition
      · cases hsome
      · exact .inl hnear
      · rw [hzone] at hzone'
        cases hzone'
        exact .inr hfar

/-- One zone with the name `Z`, whose only change is in the year 2255. -/
def changingDatabase : Database :=
  ⟨release, [[83], [68]], [⟨⟨0, 0, false⟩, [⟨9000000000, ⟨3600, 1, true⟩⟩]⟩], [⟨[90], 0⟩]⟩

def changingBytes : List UInt8 :=
  magic ++ [5] ++ release ++ [2, 0, 1, 83, 1, 68] ++
    [1, 0, 2, 0, 0, 0, 0, 0, 0, 0, 16, 14, 0, 0, 1, 0, 1] ++
    [1, 0, 0, 0, 0, 26, 113, 24, 2, 0, 0, 0, 1] ++ [1, 0, 1, 0, 90, 0, 0]

theorem changingBytes_decoded : decodeDatabase changingBytes = .ok changingDatabase := by
  decide +kernel

theorem oneStepFunction_before_2500 :
    decodeDatabase changingBytes = .ok changingDatabase ∧ contains changingDatabase [90] ∧
      OneStepFunction changingDatabase [90] 0 farStart :=
  ⟨changingBytes_decoded, by decide,
    (oneStepFunction_iff changingBytes_decoded (by decide) ⟨0, by decide⟩ ⟨farStart, by decide⟩
      (by decide)).mpr (.inr (.inl (by decide)))⟩

/-- In the year 2500 the zone is folded in front of its change, which its transitions are not. -/
theorem oneStepFunction_fails_in_2500 :
    decodeDatabase changingBytes = .ok changingDatabase ∧ contains changingDatabase [90] ∧
      ¬ OneStepFunction changingDatabase [90] farStart (farStart + 1) := by
  refine ⟨changingBytes_decoded, by decide, ?_⟩
  rintro ⟨entries, hentries, hagree, -⟩
  have hlist : transitions changingDatabase [90] farStart (farStart + 1) =
      some [⟨farStart, ⟨3600, [68], true⟩⟩] := by decide
  rw [hlist] at hentries
  cases hentries
  have hstate := hagree _ List.mem_cons_self
  exact absurd hstate (by decide)

end Queries

end Rphp.Stdlib.Date.Tzdb
