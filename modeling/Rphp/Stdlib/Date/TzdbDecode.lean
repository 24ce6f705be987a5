import Mathlib.Data.List.Lex
import Rphp.Lib.Bytes
import Rphp.Lib.Utf8
import Rphp.Machine

namespace Rphp.Stdlib.Date.Tzdb
set_option autoImplicit true

open Rphp.Lib

structure EncodedState where
  offset : Int
  abbreviation : Nat
  isDst : Bool
  deriving DecidableEq, Repr

structure Transition where
  timestamp : Int
  state : EncodedState
  deriving DecidableEq, Repr

structure Zone where
  initial : EncodedState
  transitions : List Transition
  deriving DecidableEq, Repr

structure Identifier where
  name : List UInt8
  zone : Nat
  deriving DecidableEq, Repr

structure Database where
  version : List UInt8
  abbreviations : List (List UInt8)
  zones : List Zone
  identifiers : List Identifier
  deriving DecidableEq, Repr

/-- A step of the cursor: what it reads, and the bytes behind it. -/
abbrev Cursor (α : Type) := StateT (List UInt8) (Except String) α

namespace Cursor

def take (count : Nat) : Cursor (List UInt8) := fun bytes =>
  if count ≤ bytes.length then .ok (bytes.take count, bytes.drop count)
  else .error "truncated timezone database"

def u8 : Cursor UInt8 := do
  let bytes ← take 1
  return bytes.headD 0

def u16 : Cursor Nat := do
  let bytes ← take 2
  return ofLittleBytes bytes

def u32 : Cursor Nat := do
  let bytes ← take 4
  return ofLittleBytes bytes

def i32 : Cursor Int := do
  let bytes ← take 4
  return (ofLittleBytes bytes : Int).bmod 4294967296

def i64 : Cursor Int := do
  let bytes ← take 8
  return (ofLittleBytes bytes : Int).bmod 18446744073709551616

/-- The loop of `var_u64` over the shifts that are left. -/
def varU64From : List Nat → Nat → Cursor Nat
  | [], _ => throw "timezone variable integer is too long"
  | shift :: shifts, value => do
    let byte ← u8
    if shift = 63 ∧ 1 < byte then throw "timezone variable integer overflow"
    let value := value ||| (byte &&& 0x7f).toNat <<< shift
    if byte &&& 0x80 = 0 then return value
    varU64From shifts value

def varU64 : Cursor Nat := varU64From [0, 7, 14, 21, 28, 35, 42, 49, 56, 63] 0

def string (length : Nat) : Cursor (List UInt8) := do
  let bytes ← take length
  if isUtf8 bytes then return bytes else throw "invalid timezone database UTF-8"

def stringU8 : Cursor (List UInt8) := do
  let length ← u8
  string length.toNat

def stringU16 : Cursor (List UInt8) := do
  let length ← u16
  string length

def state (abbreviationCount : Nat) : Cursor EncodedState := do
  let offset ← i32
  let abbreviation ← u16
  if abbreviationCount ≤ abbreviation then
    throw "timezone state points outside abbreviation table"
  let flag ← u8
  if flag = 0 then return ⟨offset, abbreviation, false⟩
  else if flag = 1 then return ⟨offset, abbreviation, true⟩
  else throw "invalid timezone daylight flag"

/-- Read that many items in a row. -/
def many (item : Cursor α) : Nat → Cursor (List α)
  | 0 => return []
  | count + 1 => do
    let head ← item
    let tail ← many item count
    return head :: tail

/-- The timestamp of a transition: the first one in full, the others as distances. -/
def timestamp (index : Nat) (previous : Option Int) : Cursor Int := do
  if index = 0 then i64
  else
    let delta ← varU64
    if i64Max < delta then throw "timezone transition delta does not fit i64"
    match previous with
    | none => throw "timezone transition timestamp overflow"
    | some previous =>
      if previous + delta ≤ i64Max then return previous + delta
      else throw "timezone transition timestamp overflow"

/-- The transitions of a zone from an index on. -/
def transitions (states : List EncodedState) : Nat → Nat → Option Int → Cursor (List Transition)
  | 0, _, _ => return []
  | count + 1, index, previous => do
    let timestamp ← timestamp index previous
    if previous.any (timestamp ≤ ·) then throw "timezone transitions are not strictly ordered"
    let position ← u8
    match states[position.toNat]? with
    | none => throw "timezone transition state is outside zone table"
    | some state =>
      let rest ← transitions states count (index + 1) (some timestamp)
      return ⟨timestamp, state⟩ :: rest

def zone (abbreviationCount : Nat) : Cursor Zone := do
  let stateCount ← u8
  if stateCount = 0 then throw "timezone zone has no states"
  let states ← many (state abbreviationCount) stateCount.toNat
  match states with
  | [] => throw "timezone zone has no states"
  | initial :: _ =>
    let transitionCount ← u32
    let transitions ← transitions states transitionCount 0 none
    return ⟨initial, transitions⟩

/-- The identifiers from one on. -/
def identifiers (zoneCount : Nat) : Nat → Option (List UInt8) → Cursor (List Identifier)
  | 0, _ => return []
  | count + 1, previous => do
    let name ← stringU16
    if previous.any (fun previous => ¬ previous < name) then
      throw "timezone identifiers are not strictly ordered"
    let zone ← u16
    if zoneCount ≤ zone then throw "timezone identifier points outside zone table"
    let rest ← identifiers zoneCount count (some name)
    return ⟨name, zone⟩ :: rest

end Cursor

/-- The bytes `RPHTZ02` and a zero. -/
def magic : List UInt8 := [82, 80, 72, 84, 90, 48, 50, 0]

/-- The bytes `2026a`. -/
def release : List UInt8 := [50, 48, 50, 54, 97]

def database : Cursor Database := do
  let bytes ← Cursor.take magic.length
  if bytes ≠ magic then throw "invalid timezone database magic"
  let version ← Cursor.stringU8
  if version ≠ release then throw "unexpected timezone database version"
  let abbreviationCount ← Cursor.u16
  let abbreviations ← Cursor.many Cursor.stringU8 abbreviationCount
  let zoneCount ← Cursor.u16
  let zones ← Cursor.many (Cursor.zone abbreviationCount) zoneCount
  let identifierCount ← Cursor.u16
  let identifiers ← Cursor.identifiers zoneCount identifierCount none
  return ⟨version, abbreviations, zones, identifiers⟩

def decodeDatabase (data : List UInt8) : Except String Database :=
  match database data with
  | .error message => .error message
  | .ok (database, rest) =>
    if rest = [] then .ok database else .error "trailing timezone database bytes"

section Decoded

variable {bytes rest : List UInt8}

theorem bind_ok {x : Cursor α} {f : α → Cursor β} :
    (x >>= f) bytes = .ok r ↔ ∃ a middle, x bytes = .ok (a, middle) ∧ f a middle = .ok r := by
  change (x bytes >>= fun p => f p.1 p.2) = .ok r ↔ _
  cases x bytes with
  | error message => exact ⟨nofun, nofun⟩
  | ok result =>
    obtain ⟨a, middle⟩ := result
    constructor
    · intro h
      exact ⟨a, middle, rfl, h⟩
    · rintro ⟨_, _, h, hf⟩
      cases h
      exact hf

theorem pure_ok {a : α} : (pure a : Cursor α) bytes = .ok r ↔ r = (a, bytes) := by
  constructor
  · intro h
    cases h
    rfl
  · rintro rfl
    rfl

theorem throw_ok {message : String} : ¬ (throw message : Cursor α) bytes = .ok r := nofun

/-- Behind a check that throws, the check was passed. -/
theorem guard_ok {c : Prop} [Decidable c] {message : String} {f : PUnit → Cursor β} :
    (if c then throw message >>= f else f PUnit.unit) bytes = .ok r ↔
      ¬ c ∧ f PUnit.unit bytes = .ok r := by
  split
  · rename_i hc
    constructor
    · intro h
      obtain ⟨_, _, hthrow, -⟩ := bind_ok.mp h
      exact absurd hthrow throw_ok
    · intro h
      exact absurd hc h.1
  · rename_i hc
    exact (and_iff_right hc).symm

theorem state_sound (h : Cursor.state abbreviationCount bytes = .ok (state, rest)) :
    state.abbreviation < abbreviationCount := by
  unfold Cursor.state at h
  obtain ⟨offset, _, -, h⟩ := bind_ok.mp h
  obtain ⟨abbreviation, _, -, h⟩ := bind_ok.mp h
  obtain ⟨hinside, h⟩ := guard_ok.mp h
  obtain ⟨flag, _, -, h⟩ := bind_ok.mp h
  have hstate : state.abbreviation = abbreviation := by
    split at h
    · cases pure_ok.mp h
      rfl
    · split at h
      · cases pure_ok.mp h
        rfl
      · exact absurd h throw_ok
  rw [hstate]
  exact not_le.mp hinside

theorem many_sound {item : Cursor α} {P : α → Prop}
    (hitem : ∀ bytes a rest, item bytes = .ok (a, rest) → P a)
    (h : Cursor.many item count bytes = .ok (items, rest)) :
    items.length = count ∧ ∀ a ∈ items, P a := by
  induction count generalizing bytes items with
  | zero =>
    cases pure_ok.mp h
    exact ⟨rfl, nofun⟩
  | succ count ih =>
    unfold Cursor.many at h
    obtain ⟨head, middle, hhead, h⟩ := bind_ok.mp h
    obtain ⟨tail, _, htail, h⟩ := bind_ok.mp h
    cases pure_ok.mp h
    obtain ⟨hlength, hall⟩ := ih htail
    constructor
    · rw [List.length_cons, hlength]
    · intro a ha
      cases ha with
      | head => exact hitem _ _ _ hhead
      | tail _ ha => exact hall a ha

/-- The transitions that are read are later than the one in front of them, in order, and of the
states of their zone. -/
theorem transitions_sound
    (h : Cursor.transitions states count index previous bytes = .ok (transitions, rest)) :
    transitions.Pairwise (·.timestamp < ·.timestamp) ∧
      (∀ time ∈ previous, ∀ transition ∈ transitions, time < transition.timestamp) ∧
      ∀ transition ∈ transitions, transition.state ∈ states := by
  induction count generalizing bytes index previous transitions with
  | zero =>
    cases pure_ok.mp h
    exact ⟨List.Pairwise.nil, nofun, nofun⟩
  | succ count ih =>
    unfold Cursor.transitions at h
    obtain ⟨timestamp, _, -, h⟩ := bind_ok.mp h
    obtain ⟨hordered, h⟩ := guard_ok.mp h
    obtain ⟨position, _, -, h⟩ := bind_ok.mp h
    cases hstate : states[position.toNat]? with
    | none =>
      simp only [hstate] at h
      exact absurd h throw_ok
    | some state =>
      simp only [hstate] at h
      obtain ⟨tail, _, htail, h⟩ := bind_ok.mp h
      cases pure_ok.mp h
      obtain ⟨hsorted, hlater, hstates⟩ := ih htail
      have hlater : ∀ transition ∈ tail, timestamp < transition.timestamp := hlater timestamp rfl
      refine ⟨List.pairwise_cons.mpr ⟨hlater, hsorted⟩, ?_, ?_⟩
      · intro time htime transition hmem
        have hfirst : time < timestamp := by
          cases htime
          simpa using hordered
        cases hmem with
        | head => exact hfirst
        | tail _ hmem => exact hfirst.trans (hlater transition hmem)
      · intro transition hmem
        cases hmem with
        | head => exact List.mem_of_getElem? hstate
        | tail _ hmem => exact hstates transition hmem

/-- The transitions of a zone are in order and all its states have a name. -/
structure Zone.Sound (abbreviationCount : Nat) (zone : Zone) : Prop where
  sorted : zone.transitions.Pairwise (·.timestamp < ·.timestamp)
  initial : zone.initial.abbreviation < abbreviationCount
  states : ∀ transition ∈ zone.transitions, transition.state.abbreviation < abbreviationCount

theorem zone_sound (h : Cursor.zone abbreviationCount bytes = .ok (zone, rest)) :
    zone.Sound abbreviationCount := by
  unfold Cursor.zone at h
  obtain ⟨stateCount, _, -, h⟩ := bind_ok.mp h
  obtain ⟨-, h⟩ := guard_ok.mp h
  obtain ⟨states, _, hstates, h⟩ := bind_ok.mp h
  obtain ⟨-, hstates⟩ := many_sound (fun _ _ _ => state_sound) hstates
  cases states with
  | nil => exact absurd h throw_ok
  | cons initial others =>
    obtain ⟨transitionCount, _, -, h⟩ := bind_ok.mp h
    obtain ⟨transitions, _, htransitions, h⟩ := bind_ok.mp h
    cases pure_ok.mp h
    obtain ⟨hsorted, -, hmem⟩ := transitions_sound htransitions
    exact ⟨hsorted, hstates initial List.mem_cons_self,
      fun transition ht => hstates _ (hmem transition ht)⟩

theorem identifiers_sound
    (h : Cursor.identifiers zoneCount count previous bytes = .ok (identifiers, rest)) :
    identifiers.Pairwise (·.name < ·.name) ∧
      (∀ name ∈ previous, ∀ identifier ∈ identifiers, name < identifier.name) ∧
      ∀ identifier ∈ identifiers, identifier.zone < zoneCount := by
  induction count generalizing bytes previous identifiers with
  | zero =>
    cases pure_ok.mp h
    exact ⟨List.Pairwise.nil, nofun, nofun⟩
  | succ count ih =>
    unfold Cursor.identifiers at h
    obtain ⟨name, _, -, h⟩ := bind_ok.mp h
    obtain ⟨hordered, h⟩ := guard_ok.mp h
    obtain ⟨zone, _, -, h⟩ := bind_ok.mp h
    obtain ⟨hzone, h⟩ := guard_ok.mp h
    obtain ⟨tail, _, htail, h⟩ := bind_ok.mp h
    cases pure_ok.mp h
    obtain ⟨hsorted, hlater, hzones⟩ := ih htail
    have hlater : ∀ identifier ∈ tail, name < identifier.name := hlater name rfl
    refine ⟨List.pairwise_cons.mpr ⟨hlater, hsorted⟩, ?_, ?_⟩
    · intro earlier hearlier identifier hmem
      have hfirst : earlier < name := by
        cases hearlier
        simpa using hordered
      cases hmem with
      | head => exact hfirst
      | tail _ hmem => exact List.lt_trans hfirst (hlater identifier hmem)
    · intro identifier hmem
      cases hmem with
      | head => exact not_le.mp hzone
      | tail _ hmem => exact hzones identifier hmem

/-- What the decoder checks of a database. -/
structure Database.Sound (db : Database) : Prop where
  zones : ∀ zone ∈ db.zones, zone.Sound db.abbreviations.length
  sorted : db.identifiers.Pairwise (·.name < ·.name)
  identifiers : ∀ identifier ∈ db.identifiers, identifier.zone < db.zones.length

theorem decodeDatabase_sound (h : decodeDatabase data = .ok db) : db.Sound := by
  unfold decodeDatabase at h
  split at h
  · cases h
  · rename_i found rest hdatabase
    split at h
    · cases h
      unfold database at hdatabase
      obtain ⟨_, _, -, h⟩ := bind_ok.mp hdatabase
      obtain ⟨-, h⟩ := guard_ok.mp h
      obtain ⟨version, _, -, h⟩ := bind_ok.mp h
      obtain ⟨-, h⟩ := guard_ok.mp h
      obtain ⟨abbreviationCount, _, -, h⟩ := bind_ok.mp h
      obtain ⟨abbreviations, _, habbreviations, h⟩ := bind_ok.mp h
      obtain ⟨zoneCount, _, -, h⟩ := bind_ok.mp h
      obtain ⟨zones, _, hzones, h⟩ := bind_ok.mp h
      obtain ⟨identifierCount, _, -, h⟩ := bind_ok.mp h
      obtain ⟨identifiers, _, hidentifiers, h⟩ := bind_ok.mp h
      cases pure_ok.mp h
      obtain ⟨rfl, -⟩ := many_sound (P := fun _ => True) (fun _ _ _ _ => trivial) habbreviations
      obtain ⟨rfl, hsound⟩ := many_sound (fun _ _ _ => zone_sound) hzones
      obtain ⟨hsorted, -, hinside⟩ := identifiers_sound hidentifiers
      exact ⟨hsound, hsorted, hinside⟩
    · cases h

end Decoded

end Rphp.Stdlib.Date.Tzdb
