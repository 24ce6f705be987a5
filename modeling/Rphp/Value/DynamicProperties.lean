import Rphp.Value.Array.PhpArray
import Rphp.Lib.Assoc
import Rphp.Lib.Slots

namespace Rphp
open Rphp.Lib
set_option autoImplicit true

abbrev Property (P : Type u) := String × Value P

def smallDynamicPropertyCapacity : Nat := 3

def linearDynamicPropertyCapacity : Nat := 8

/-- A value as it moves between two storages: a shared cell stays shared, other cells are read. -/
def Value.cloneForPhpStorage (view : CellView P) : Value P → Value P
  | .reference owned cell =>
    if owned && view.shared cell then .reference owned cell else view.target cell
  | value => value

structure SmallDynamicProperties (P : Type u) where
  slots : List (Option (Property P))

namespace SmallDynamicProperties

def new : SmallDynamicProperties P := ⟨List.replicate smallDynamicPropertyCapacity none⟩

def len (s : SmallDynamicProperties P) : Nat := occupied s.slots

def find (s : SmallDynamicProperties P) (key : String) : Option Nat :=
  (s.slots.take s.len).findIdx? fun slot => slot.any fun entry => entry.1 = key

def push (s : SmallDynamicProperties P) (key : String) (val : Value P) : SmallDynamicProperties P :=
  ⟨s.slots.set s.len (some (key, val))⟩

def entryAt (s : SmallDynamicProperties P) (position : Nat) : Option (Property P) :=
  s.slots[position]?.join

def setAt (s : SmallDynamicProperties P) (position : Nat) (val : Value P) :
    SmallDynamicProperties P :=
  match s.entryAt position with
  | some entry => ⟨s.slots.set position (some (entry.1, val))⟩
  | none => s

def removeAt (s : SmallDynamicProperties P) (position : Nat) : SmallDynamicProperties P :=
  ⟨(shiftSlots s.slots position (s.len - 1 - position)).set (s.len - 1) none⟩

end SmallDynamicProperties

structure LinearDynamicProperties (P : Type u) where
  entries : List (Property P)

namespace LinearDynamicProperties

def fromSmall (small : SmallDynamicProperties P) : LinearDynamicProperties P :=
  ⟨small.slots.filterMap id⟩

def find (l : LinearDynamicProperties P) (key : String) : Option Nat := positionOf l.entries key

end LinearDynamicProperties

structure IndexedDynamicProperties (P : Type u) where
  entries : List (Property P)
  index : StrIndex

namespace IndexedDynamicProperties

def empty : IndexedDynamicProperties P := ⟨[], ∅⟩

def fromHashMap (properties : List (Property P)) : IndexedDynamicProperties P :=
  ⟨properties, indexOf (keysOf properties)⟩

def find (i : IndexedDynamicProperties P) (key : String) : Option Nat := i.index.lookup key

def insertOwned (i : IndexedDynamicProperties P) (key : String) (val : Value P) :
    IndexedDynamicProperties P :=
  match i.find key with
  | some position => { i with entries := setValue i.entries position val }
  | none => ⟨i.entries ++ [(key, val)], i.index.insert key i.entries.length⟩

/-- The entries of the linear tier, inserted one by one. -/
def ofEntries (entries : List (Property P)) : IndexedDynamicProperties P :=
  entries.foldl (fun i entry => i.insertOwned entry.1 entry.2) empty

/-- Remove the entry and move the index of those behind it. -/
def removeAt (i : IndexedDynamicProperties P) (position : Nat) (key : String) :
    IndexedDynamicProperties P :=
  ⟨i.entries.eraseIdx position,
    indexFrom position (i.index.erase key) ((keysOf (i.entries.eraseIdx position)).drop position)⟩

end IndexedDynamicProperties

/-- The storage tiers of an object's dynamic properties. -/
inductive DynamicPropertyMap (P : Type u) where
  | small (small : SmallDynamicProperties P)
  | linear (linear : LinearDynamicProperties P)
  | indexed (indexed : IndexedDynamicProperties P)

namespace DynamicPropertyMap

def withCapacity (capacity : Nat) : DynamicPropertyMap P :=
  if capacity ≤ smallDynamicPropertyCapacity then .small .new
  else if capacity ≤ linearDynamicPropertyCapacity then .linear ⟨[]⟩
  else .indexed .empty

def len : DynamicPropertyMap P → Nat
  | .small s => s.len
  | .linear l => l.entries.length
  | .indexed i => i.entries.length

def find : DynamicPropertyMap P → String → Option Nat
  | .small s, key => s.find key
  | .linear l, key => l.find key
  | .indexed i, key => i.find key

def entryAt : DynamicPropertyMap P → Nat → Option (Property P)
  | .small s, position => s.entryAt position
  | .linear l, position => l.entries[position]?
  | .indexed i, position => i.entries[position]?

def get (m : DynamicPropertyMap P) (key : String) : Option (Value P) :=
  (m.find key).bind fun position => (m.entryAt position).map Prod.snd

/-- A position is a guard: another key there gives nothing. -/
def getAtPosition (m : DynamicPropertyMap P) (position : Nat) (key : String) : Option (Value P) :=
  (m.entryAt position).bind fun entry => if entry.1 = key then some entry.2 else none

/-- Both positions first, and then both names for what is still missing. -/
def getPairByPositionsThenNames (m : DynamicPropertyMap P) (keys : String × String)
    (positions : Option Nat × Option Nat) : Option (Value P) × Option (Value P) :=
  let first := positions.1.bind fun position => m.getAtPosition position keys.1
  let second := positions.2.bind fun position => m.getAtPosition position keys.2
  if first.isNone || second.isNone then
    (if first.isNone then m.get keys.1 else first, if second.isNone then m.get keys.2 else second)
  else (first, second)

def getPairAtPositions (m : DynamicPropertyMap P) (keys : String × String)
    (positions : Option Nat × Option Nat) : Option (Value P) × Option (Value P) :=
  match m with
  | .small s =>
    let read (position : Option Nat) (key : String) : Option (Value P) :=
      (position.bind fun position => (small s).getAtPosition position key).or ((small s).get key)
    (read positions.1 keys.1, read positions.2 keys.2)
  | m => m.getPairByPositionsThenNames keys positions

def setAt : DynamicPropertyMap P → Nat → Value P → DynamicPropertyMap P
  | .small s, position, val => .small (s.setAt position val)
  | .linear l, position, val => .linear ⟨setValue l.entries position val⟩
  | .indexed i, position, val => .indexed { i with entries := setValue i.entries position val }

/-- An assignment through the borrowed slot of a key. -/
def getMut (m : DynamicPropertyMap P) (key : String) (val : Value P) : DynamicPropertyMap P :=
  match m.find key with
  | some position => m.setAt position val
  | none => m

def insertOwned (m : DynamicPropertyMap P) (key : String) (val : Value P) : DynamicPropertyMap P :=
  match m with
  | .indexed i => .indexed (i.insertOwned key val)
  | .linear l =>
    match l.find key with
    | some position => .linear ⟨setValue l.entries position val⟩
    | none =>
      if l.entries.length < linearDynamicPropertyCapacity then .linear ⟨l.entries ++ [(key, val)]⟩
      else
        .indexed ((IndexedDynamicProperties.ofEntries l.entries).insertOwned key val)
  | .small s =>
    match s.find key with
    | some position => .small (s.setAt position val)
    | none =>
      if s.len < smallDynamicPropertyCapacity then .small (s.push key val)
      else .linear ⟨(LinearDynamicProperties.fromSmall s).entries ++ [(key, val)]⟩

def insert (m : DynamicPropertyMap P) (key : String) (val : Value P) : DynamicPropertyMap P :=
  match m.find key with
  | some position => m.setAt position val
  | none => m.insertOwned key val

def remove (m : DynamicPropertyMap P) (key : String) : DynamicPropertyMap P × Bool :=
  match m.find key with
  | some position =>
    (match m with
      | .small s => .small (s.removeAt position)
      | .linear l => .linear ⟨l.entries.eraseIdx position⟩
      | .indexed i => .indexed (i.removeAt position key), true)
  | none => (m, false)

/-- The entries in the order in which they are visited. -/
def forEach : DynamicPropertyMap P → List (Property P)
  | .small s => (s.slots.take s.len).filterMap id
  | .linear l => l.entries
  | .indexed i => i.entries

/-- The hash map is given by its entries in the order in which it yields them. -/
def fromHashMap (properties : List (Property P)) : DynamicPropertyMap P :=
  if linearDynamicPropertyCapacity < properties.length then .indexed (.fromHashMap properties)
  else properties.foldl (fun m entry => m.insertOwned entry.1 entry.2)
    (withCapacity properties.length)

def cloneForPhpObject (m : DynamicPropertyMap P) (view : CellView P) : DynamicPropertyMap P :=
  match m with
  | .small s =>
    .small ⟨s.slots.map (Option.map fun entry => (entry.1, entry.2.cloneForPhpStorage view))⟩
  | m =>
    m.forEach.foldl (fun clone entry => clone.insertOwned entry.1 (entry.2.cloneForPhpStorage view))
      (withCapacity m.len)

end DynamicPropertyMap

/-- The tier holds exactly these entries, in this order. -/
def DynamicPropertyMap.Holds : DynamicPropertyMap P → List (Property P) → Prop
  | .small s, l => s.slots = denseSlots smallDynamicPropertyCapacity l ∧
    l.length ≤ smallDynamicPropertyCapacity
  | .linear r, l => r.entries = l
  | .indexed i, l => i.entries = l ∧ IsIndexOf i.index (keysOf l)

/-- The map is one insertion-ordered map. -/
structure DynamicPropertyMap.Represents (m : DynamicPropertyMap P) (l : List (Property P)) :
    Prop where
  holds : m.Holds l
  nodup : (keysOf l).Nodup

theorem setValue_eq_set {l : List (Property P)} (h : l[i]? = some e) (val : Value P) :
    setValue l i val = l.set i (e.1, val) := by
  apply List.ext_getElem?
  intro j
  obtain ⟨hi, rfl⟩ := List.getElem?_eq_some_iff.1 h
  rw [setValue_getElem?, List.getElem?_set]
  split
  · rename_i hij
    subst hij
    simp [hi]
  · rfl

namespace SmallDynamicProperties

variable {s : SmallDynamicProperties P} {l : List (Property P)}

theorem len_eq (h : s.slots = denseSlots smallDynamicPropertyCapacity l) : s.len = l.length := by
  rw [len, h, occupied_dense]

theorem entryAt_eq (h : s.slots = denseSlots smallDynamicPropertyCapacity l) (i : Nat) :
    s.entryAt i = l[i]? := by
  rw [entryAt, h, denseSlots_getElem?]

theorem find_eq (h : s.slots = denseSlots smallDynamicPropertyCapacity l) (key : String) :
    s.find key = positionOf l key := by
  rw [find, len_eq h, h, take_denseSlots, positionOf, keysOf, List.idxOf?, List.findIdx?_map,
    List.findIdx?_map]
  congr 1

theorem push_eq (h : s.slots = denseSlots smallDynamicPropertyCapacity l)
    (hlen : l.length < smallDynamicPropertyCapacity) (key : String) (val : Value P) :
    (s.push key val).slots = denseSlots smallDynamicPropertyCapacity (l ++ [(key, val)]) := by
  rw [push, len_eq h, h, denseSlots_push l hlen]

theorem setAt_eq (h : s.slots = denseSlots smallDynamicPropertyCapacity l) (hi : i < l.length)
    (val : Value P) :
    (s.setAt i val).slots = denseSlots smallDynamicPropertyCapacity (setValue l i val) := by
  have he : l[i]? = some l[i] := List.getElem?_eq_getElem hi
  rw [setAt, entryAt_eq h, he]
  simp only
  rw [h, denseSlots_set _ _ hi, setValue_eq_set he]

theorem removeAt_eq (h : s.slots = denseSlots smallDynamicPropertyCapacity l) (hi : i < l.length)
    (hlen : l.length ≤ smallDynamicPropertyCapacity) :
    (s.removeAt i).slots = denseSlots smallDynamicPropertyCapacity (l.eraseIdx i) := by
  rw [removeAt, len_eq h, h, shiftSlots_dense l hi hlen]

end SmallDynamicProperties

theorem IsIndexOf.positionOf {m : StrIndex} {l : List (Property P)} (h : IsIndexOf m (keysOf l))
    (key : String) : m.lookup key = Lib.positionOf l key := by
  refine Option.ext fun i => ?_
  rw [h key i, positionOf_eq_some h.nodup]

namespace IndexedDynamicProperties

theorem insertOwned_spec {i : IndexedDynamicProperties P} (h : IsIndexOf i.index (keysOf i.entries))
    (key : String) (val : Value P) :
    (i.insertOwned key val).entries = putKey i.entries key val ∧
      IsIndexOf (i.insertOwned key val).index (keysOf (putKey i.entries key val)) := by
  unfold insertOwned putKey find
  rw [IsIndexOf.positionOf h]
  cases hp : Lib.positionOf i.entries key with
  | some position => simpa using h
  | none =>
    refine ⟨rfl, ?_⟩
    have := h.push (positionOf_eq_none.1 hp)
    simpa using this

theorem ofEntries_spec (es : List (Property P)) (hnd : (keysOf es).Nodup) :
    (ofEntries es).entries = es ∧ IsIndexOf (ofEntries es).index (keysOf es) := by
  have hfold : ∀ (es : List (Property P)) (i : IndexedDynamicProperties P),
      IsIndexOf i.index (keysOf i.entries) →
      (es.foldl (fun i e => i.insertOwned e.1 e.2) i).entries =
          es.foldl (fun l e => putKey l e.1 e.2) i.entries ∧
        IsIndexOf (es.foldl (fun i e => i.insertOwned e.1 e.2) i).index
          (keysOf (es.foldl (fun l e => putKey l e.1 e.2) i.entries)) := by
    intro es
    induction es with
    | nil => exact fun i h => ⟨rfl, h⟩
    | cons e es ih =>
      intro i h
      obtain ⟨hentries, hindex⟩ := insertOwned_spec h e.1 e.2
      rw [← hentries] at hindex
      simp only [List.foldl_cons]
      rw [← hentries]
      exact ih _ hindex
  have := hfold es empty IsIndexOf.nil
  rwa [foldl_putKey (l := empty.entries) hnd] at this

end IndexedDynamicProperties

namespace DynamicPropertyMap

variable {m : DynamicPropertyMap P} {l : List (Property P)}

theorem Represents.find (h : m.Represents l) (key : String) : m.find key = positionOf l key := by
  cases m with
  | small s => exact SmallDynamicProperties.find_eq h.holds.1 key
  | linear r => exact congrArg (positionOf · key) h.holds
  | indexed i => exact IsIndexOf.positionOf h.holds.2 key

theorem Represents.entryAt (h : m.Represents l) (i : Nat) : m.entryAt i = l[i]? := by
  cases m with
  | small s => exact SmallDynamicProperties.entryAt_eq h.holds.1 i
  | linear r => exact congrArg (·[i]?) h.holds
  | indexed r => exact congrArg (·[i]?) h.holds.1

theorem Represents.get (h : m.Represents l) (key : String) : m.get key = getKey l key := by
  rw [DynamicPropertyMap.get, h.find, getKey]
  simp only [h.entryAt]

theorem Represents.len (h : m.Represents l) : m.len = l.length := by
  cases m with
  | small s => exact SmallDynamicProperties.len_eq h.holds.1
  | linear r => exact congrArg List.length h.holds
  | indexed r => exact congrArg List.length h.holds.1

theorem Represents.forEach (h : m.Represents l) : m.forEach = l := by
  cases m with
  | small s =>
    have hs := h.holds.1
    simp only [DynamicPropertyMap.forEach, SmallDynamicProperties.len_eq hs]
    rw [hs, take_denseSlots]
    simp
  | linear r => exact h.holds
  | indexed r => exact h.holds.1

theorem Represents.setAt (h : m.Represents l) (hp : positionOf l key = some i) (val : Value P) :
    (m.setAt i val).Represents (putKey l key val) := by
  have hput : putKey l key val = setValue l i val := by rw [putKey, hp]
  refine ⟨?_, nodup_putKey h.nodup key val⟩
  rw [hput]
  have hi : i < l.length := by
    rw [← keysOf_length]
    exact (List.getElem?_eq_some_iff.1 ((positionOf_eq_some h.nodup).1 hp)).1
  cases m with
  | small s =>
    refine ⟨SmallDynamicProperties.setAt_eq h.holds.1 hi val, ?_⟩
    rw [setValue_length]
    exact h.holds.2
  | linear r => exact congrArg (setValue · i val) h.holds
  | indexed r =>
    refine ⟨congrArg (setValue · i val) h.holds.1, ?_⟩
    rw [keysOf_setValue]
    exact h.holds.2

theorem Represents.insertOwned (h : m.Represents l) (key : String) (val : Value P) :
    (m.insertOwned key val).Represents (putKey l key val) := by
  have hfind := h.find key
  cases m with
  | indexed i =>
    obtain ⟨rfl, hindex⟩ := h.holds
    obtain ⟨hentries, hindex⟩ := IndexedDynamicProperties.insertOwned_spec hindex key val
    exact ⟨⟨hentries, hindex⟩, nodup_putKey h.nodup key val⟩
  | linear r =>
    have hr : r.entries = l := h.holds
    simp only [DynamicPropertyMap.insertOwned]
    have hfind : r.find key = positionOf l key := hfind
    rw [hfind]
    cases hp : positionOf l key with
    | some i => exact h.setAt hp val
    | none =>
      have hput : putKey l key val = l ++ [(key, val)] := by rw [putKey, hp]
      simp only
      refine ⟨?_, nodup_putKey h.nodup key val⟩
      split
      · rw [hput, ← hr]
        rfl
      · obtain ⟨hentries, hindex⟩ := IndexedDynamicProperties.ofEntries_spec l h.nodup
        rw [hr]
        have hspec := IndexedDynamicProperties.insertOwned_spec (i := .ofEntries l)
          (by rwa [hentries]) key val
        rw [hentries] at hspec
        exact hspec
  | small s =>
    have hs := h.holds.1
    simp only [DynamicPropertyMap.insertOwned]
    have hfind : s.find key = positionOf l key := hfind
    rw [hfind]
    cases hp : positionOf l key with
    | some i => exact h.setAt hp val
    | none =>
      have hput : putKey l key val = l ++ [(key, val)] := by rw [putKey, hp]
      simp only
      refine ⟨?_, nodup_putKey h.nodup key val⟩
      rw [hput, SmallDynamicProperties.len_eq hs]
      split
      · rename_i hlt
        refine ⟨SmallDynamicProperties.push_eq hs hlt key val, ?_⟩
        rw [List.length_append, List.length_singleton]
        omega
      · simp only [LinearDynamicProperties.fromSmall, hs, filterMap_denseSlots]
        rfl

theorem Represents.foldl_insertOwned (h : m.Represents l) (es : List (Property P)) :
    (es.foldl (fun m e => m.insertOwned e.1 e.2) m).Represents
      (es.foldl (fun l e => putKey l e.1 e.2) l) := by
  induction es generalizing m l with
  | nil => exact h
  | cons e es ih => exact ih (h.insertOwned e.1 e.2)

theorem Represents.insert (h : m.Represents l) (key : String) (val : Value P) :
    (m.insert key val).Represents (putKey l key val) := by
  unfold DynamicPropertyMap.insert
  rw [h.find]
  cases hp : positionOf l key with
  | some i => exact h.setAt hp val
  | none => exact h.insertOwned key val

theorem Represents.remove (h : m.Represents l) (key : String) :
    (m.remove key).1.Represents (removeKey l key) ∧
      (m.remove key).2 = decide (key ∈ keysOf l) := by
  unfold DynamicPropertyMap.remove removeKey
  rw [h.find]
  cases hp : positionOf l key with
  | none =>
    have hnot := positionOf_eq_none.1 hp
    exact ⟨h, by simp [hnot]⟩
  | some i =>
    have hk := (positionOf_eq_some h.nodup).1 hp
    have hi : i < l.length := by
      rw [← keysOf_length]
      exact (List.getElem?_eq_some_iff.1 hk).1
    have hnd : (keysOf (l.eraseIdx i)).Nodup := by
      rw [keysOf_eraseIdx]
      exact h.nodup.sublist (List.eraseIdx_sublist _ _)
    refine ⟨⟨?_, hnd⟩, by simp [List.mem_of_getElem? hk]⟩
    cases m with
    | small s =>
      refine ⟨SmallDynamicProperties.removeAt_eq h.holds.1 hi h.holds.2, ?_⟩
      have := h.holds.2
      rw [List.length_eraseIdx_of_lt hi]
      omega
    | linear r => exact congrArg (List.eraseIdx · i) h.holds
    | indexed r =>
      obtain ⟨rfl, hindex⟩ := h.holds
      refine ⟨rfl, ?_⟩
      have := hindex.eraseIdx hk
      rwa [← keysOf_eraseIdx] at this

theorem Represents.getMut (h : m.Represents l) (key : String) (val : Value P) :
    (m.getMut key val).Represents (if key ∈ keysOf l then putKey l key val else l) := by
  unfold DynamicPropertyMap.getMut
  rw [h.find]
  cases hp : positionOf l key with
  | some i =>
    have hk := List.mem_of_getElem? ((positionOf_eq_some h.nodup).1 hp)
    rw [if_pos hk]
    exact h.setAt hp val
  | none =>
    rw [if_neg (positionOf_eq_none.1 hp)]
    exact h

theorem withCapacity_represents (capacity : Nat) :
    (withCapacity capacity : DynamicPropertyMap P).Represents [] := by
  refine ⟨?_, by simp [keysOf]⟩
  unfold withCapacity
  split
  · exact ⟨rfl, by simp [smallDynamicPropertyCapacity]⟩
  · split
    · rfl
    · exact ⟨rfl, IsIndexOf.nil⟩

/-- Entries with distinct keys, inserted one by one into an empty map. -/
theorem foldl_withCapacity_represents {es : List (Property P)} (hnd : (keysOf es).Nodup)
    (capacity : Nat) :
    (es.foldl (fun m e => m.insertOwned e.1 e.2) (withCapacity capacity)).Represents es := by
  have h := (withCapacity_represents (P := P) capacity).foldl_insertOwned es
  rwa [foldl_putKey (l := []) hnd] at h

theorem fromHashMap_represents {properties : List (Property P)}
    (hnd : (keysOf properties).Nodup) : (fromHashMap properties).Represents properties := by
  unfold fromHashMap
  split
  · exact ⟨⟨rfl, isIndexOf_indexOf hnd⟩, hnd⟩
  · exact foldl_withCapacity_represents hnd _

def cloneEntries (view : CellView P) (l : List (Property P)) : List (Property P) :=
  l.map fun entry => (entry.1, entry.2.cloneForPhpStorage view)

theorem keysOf_cloneEntries (view : CellView P) (l : List (Property P)) :
    keysOf (cloneEntries view l) = keysOf l := by
  simp [keysOf, cloneEntries, Function.comp_def]

theorem Represents.cloneForPhpObject (h : m.Represents l) (view : CellView P) :
    (m.cloneForPhpObject view).Represents (cloneEntries view l) := by
  have hnd : (keysOf (cloneEntries view l)).Nodup := by
    rw [keysOf_cloneEntries]
    exact h.nodup
  have hrebuilt : (m.forEach.foldl (fun clone entry =>
      clone.insertOwned entry.1 (entry.2.cloneForPhpStorage view))
      (withCapacity m.len)).Represents (cloneEntries view l) := by
    rw [h.forEach, h.len]
    have := foldl_withCapacity_represents hnd l.length
    rwa [cloneEntries, List.foldl_map] at this
  cases m with
  | small s =>
    refine ⟨⟨?_, ?_⟩, hnd⟩
    · simp only [h.holds.1, map_denseSlots]
      rfl
    · rw [cloneEntries, List.length_map]
      exact h.holds.2
  | linear r => exact hrebuilt
  | indexed i => exact hrebuilt

/-! Reads by position. -/

theorem Represents.getAtPosition (h : m.Represents l) (i : Nat) (key : String) :
    m.getAtPosition i key = if (keysOf l)[i]? = some key then m.get key else none := by
  rw [DynamicPropertyMap.getAtPosition, h.entryAt, h.get, keysOf_getElem?]
  cases he : l[i]? with
  | none => simp
  | some e =>
    simp only [Option.bind_some, Option.map_some, Option.some.injEq]
    split
    · rename_i hk
      subst hk
      exact ((getKey_eq_some h.nodup).2 (List.mem_of_getElem? he)).symm
    · rfl

/-- A value that a position gives is the value that the name gives. -/
theorem Represents.getAtPosition_some (h : m.Represents l)
    (hv : m.getAtPosition i key = some v) : m.get key = some v := by
  rw [h.getAtPosition] at hv
  split at hv
  · exact hv
  · cases hv

theorem Represents.hinted (h : m.Represents l) (position : Option Nat) (key : String) :
    (position.bind fun position => m.getAtPosition position key).or (m.get key) = m.get key := by
  cases position with
  | none => rfl
  | some i =>
    cases hv : m.getAtPosition i key with
    | none => simp [hv]
    | some v => simp [hv, h.getAtPosition_some hv]

theorem Represents.getPairAtPositions (h : m.Represents l) (keys : String × String)
    (positions : Option Nat × Option Nat) :
    m.getPairAtPositions keys positions = (m.get keys.1, m.get keys.2) := by
  have h1 := h.hinted positions.1 keys.1
  have h2 := h.hinted positions.2 keys.2
  have hpair : m.getPairByPositionsThenNames keys positions = (m.get keys.1, m.get keys.2) := by
    unfold getPairByPositionsThenNames
    generalize (positions.1.bind fun position => m.getAtPosition position keys.1) = first at *
    generalize (positions.2.bind fun position => m.getAtPosition position keys.2) = second at *
    cases first <;> cases second <;> simp_all
  cases m with
  | small s =>
    simp only [DynamicPropertyMap.getPairAtPositions]
    rw [h1, h2]
  | linear r => exact hpair
  | indexed i => exact hpair

end DynamicPropertyMap

/-- How a map starts: empty, or from the entries that a hash map yields. -/
inductive DynamicPropertyConstructor (P : Type u) where
  | withCapacity (capacity : Nat)
  | fromHashMap (properties : List (Property P)) (distinct : (keysOf properties).Nodup)

namespace DynamicPropertyConstructor

def make : DynamicPropertyConstructor P → DynamicPropertyMap P
  | .withCapacity capacity => .withCapacity capacity
  | .fromHashMap properties _ => .fromHashMap properties

def entries : DynamicPropertyConstructor P → List (Property P)
  | .withCapacity _ => []
  | .fromHashMap properties _ => properties

theorem make_represents (c : DynamicPropertyConstructor P) : c.make.Represents c.entries := by
  cases c with
  | withCapacity capacity => exact DynamicPropertyMap.withCapacity_represents capacity
  | fromHashMap properties distinct => exact DynamicPropertyMap.fromHashMap_represents distinct

end DynamicPropertyConstructor

inductive DynamicPropertyOp (P : Type u) where
  | insert (key : String) (val : Value P)
  | insertOwned (key : String) (val : Value P)
  | remove (key : String)
  | getMut (key : String) (val : Value P)
  | cloneForPhpObject (view : CellView P)

namespace DynamicPropertyOp

def apply (m : DynamicPropertyMap P) : DynamicPropertyOp P → DynamicPropertyMap P
  | .insert key val => m.insert key val
  | .insertOwned key val => m.insertOwned key val
  | .remove key => (m.remove key).1
  | .getMut key val => m.getMut key val
  | .cloneForPhpObject view => m.cloneForPhpObject view

/-- What the operation does to one insertion-ordered map: overwrite in place or append, remove
without reordering, assign to a key that is there, copy the values. -/
def effect (l : List (Property P)) : DynamicPropertyOp P → List (Property P)
  | .insert key val => putKey l key val
  | .insertOwned key val => putKey l key val
  | .remove key => removeKey l key
  | .getMut key val => if key ∈ keysOf l then putKey l key val else l
  | .cloneForPhpObject view => DynamicPropertyMap.cloneEntries view l

theorem apply_represents {m : DynamicPropertyMap P} {l : List (Property P)} (h : m.Represents l)
    (op : DynamicPropertyOp P) : (op.apply m).Represents (op.effect l) := by
  cases op with
  | insert key val => exact h.insert key val
  | insertOwned key val => exact h.insertOwned key val
  | remove key => exact (h.remove key).1
  | getMut key val => exact h.getMut key val
  | cloneForPhpObject view => exact h.cloneForPhpObject view

/-- A whole run acts on one insertion-ordered map. -/
theorem foldl_represents {m : DynamicPropertyMap P} {l : List (Property P)} (h : m.Represents l)
    (ops : List (DynamicPropertyOp P)) : (ops.foldl apply m).Represents (ops.foldl effect l) := by
  induction ops generalizing m l with
  | nil => exact h
  | cons op ops ih => exact ih (apply_represents h op)

/-- Every run of a dynamic property map refines an insertion-ordered map: its entries are those of
the ordered map, in its order and under distinct names, reads by name agree with it, a removal
tells whether the name was there, a single hinted read is the read by name if the hint is right
and nothing otherwise, and a pair of hinted reads is always the pair of reads by name. -/
theorem run_refines_insertion_order (c : DynamicPropertyConstructor P)
    (ops : List (DynamicPropertyOp P)) :
    let m := ops.foldl apply c.make
    let l := ops.foldl effect c.entries
    (keysOf l).Nodup ∧
      (∀ position, m.entryAt position = l[position]?) ∧
      (∀ name, m.get name = getKey l name) ∧
      (∀ name, (m.remove name).2 = decide (name ∈ keysOf l)) ∧
      (∀ position name, m.getAtPosition position name =
        if (keysOf l)[position]? = some name then m.get name else none) ∧
      ∀ names positions, m.getPairAtPositions names positions = (m.get names.1, m.get names.2) := by
  have h := foldl_represents c.make_represents ops
  exact ⟨h.nodup, h.entryAt, h.get, fun name => (h.remove name).2, h.getAtPosition,
    h.getPairAtPositions⟩

/-- A hinted position that holds another name gives nothing although the name is there. -/
theorem getAtPosition_stale :
    let m := [DynamicPropertyOp.insert "a" (.other ()), .insert "b" (.long .zero)].foldl apply
      (DynamicPropertyConstructor.withCapacity 0).make
    m.get "b" = some (.long .zero) ∧ m.getAtPosition 0 "b" = none := by
  decide +kernel

end DynamicPropertyOp

end Rphp
