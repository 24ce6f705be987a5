import Mathlib.Data.List.Basic
import Rphp.Lib.HeapOrder

namespace Rphp.Stdlib
open Lib
set_option autoImplicit true

/-- A heap stores every value with its priority; outside of a queue the priority is null, which
is the default value. -/
structure Entry (V : Type) where
  value : V
  priority : V
deriving DecidableEq, Repr

structure Heap (V : Type) where
  entries : List (Option (Entry V)) := []
  free : List Nat := []
  order : List Nat := []
  len : Nat := 0
  flags : Nat := 0
  queue : Bool := false
  locked : Bool := false
  corrupted : Bool := false

/-- What one comparison comes to: an ordering, with or without a pending exception, or an
error of the virtual machine. -/
inductive Comparison where
  | ordered (ordering : Int) (raised : Bool)
  | failed
deriving DecidableEq, Repr

/-- The answers to the comparisons of one operation, which may differ from call to call. -/
abbrev Comparator (V : Type) := Nat → V → V → Comparison

/-- How a run of comparisons or a destructor ends. -/
inductive Ending where
  | done
  | raised
  | failed
deriving DecidableEq, Repr

inductive Projection (V : Type) where
  | value (v : V)
  | priority (v : V)
  | pair (data priority : V)
deriving DecidableEq, Repr

inductive Reply (V : Type) where
  | null
  | value (v : Projection V)
  | bool (b : Bool)
  | long (n : Nat)
  | exception (message : String)
  | failed
deriving DecidableEq, Repr

namespace Heap

/-- The state of a fresh object; a queue extracts its data by default. -/
def new (queue : Bool) : Heap V := { queue, flags := queue.toNat }

def entryOf (h : Heap V) (slot : Nat) : Option (Entry V) := (h.entries[slot]?).join

/-- The component of an entry that comparisons look at. -/
def key (queue : Bool) (e : Entry V) : V := if queue then e.priority else e.value

def allocate (h : Heap V) (entry : Entry V) : Nat × Heap V :=
  match h.free.getLast? with
  | some slot => (slot, { h with free := h.free.dropLast, entries := h.entries.set slot (some entry) })
  | none => (h.entries.length, { h with entries := h.entries ++ [some entry] })

def project (h : Heap V) (e : Entry V) : Projection V :=
  match h.flags, h.queue with
  | 2, true => .priority e.priority
  | 3, true => .pair e.value e.priority
  | _, _ => .value e.value

def lockedMessage : String := "Heap cannot be changed when it is already being modified."

def corruptedMessage : String := "Heap is corrupted, heap properties are no longer ensured."

/-- Take the lock, or say why it is not to be had. -/
def begin (h : Heap V) : Except String (Heap V) :=
  if h.locked then .error lockedMessage
  else if h.corrupted then .error corruptedMessage
  else .ok { h with locked := true }

def finish (h : Heap V) (ending : Ending) : Heap V :=
  { h with corrupted := h.corrupted || ending ≠ .done, locked := false }

/-- A slot without an entry would be a panic. -/
def compareSlots (h : Heap V) (compare : Comparator V) (n left right : Nat) : Option Comparison :=
  match h.entryOf left, h.entryOf right with
  | some a, some b => some (compare n (key h.queue a) (key h.queue b))
  | _, _ => none

/-- Move the hole towards the root while the new entry is above the parent. The last
component of the result is the position of the hole. -/
def percolateUp (h : Heap V) (compare : Comparator V) (slot n hole : Nat) :
    Option (Ending × Heap V × Nat) :=
  if hole = 0 then some (.done, h, 0)
  else
    match h.order[(hole - 1) / 2]? with
    | none => none
    | some ancestor =>
      match h.compareSlots compare n ancestor slot with
      | none => none
      | some .failed => some (.failed, h, hole)
      | some (.ordered ordering raised) =>
        if ordering ≥ 0 then some (if raised then .raised else .done, h, hole)
        else
          let h := { h with order := h.order.set hole ancestor }
          if raised then some (.raised, h, (hole - 1) / 2)
          else percolateUp h compare slot (n + 1) ((hole - 1) / 2)
termination_by hole
decreasing_by omega

/-- The lock is held. -/
def insertEntry (h : Heap V) (entry : Entry V) (compare : Comparator V) :
    Option (Ending × Heap V) :=
  let (slot, h) := h.allocate entry
  let h := { h with order := h.order ++ [slot] }
  match h.percolateUp compare slot 0 h.len with
  | none => none
  | some (ending, h, hole) =>
    some (ending, { h with order := h.order.set hole slot, len := h.len + 1 }.finish ending)

def insert [Inhabited V] (h : Heap V) (value priority : V) (compare : Comparator V) :
    Option (Reply V × Heap V) :=
  match h.begin with
  | .error message => some (.exception message, h)
  | .ok h =>
    match h.insertEntry ⟨value, if h.queue then priority else default⟩ compare with
    | none => none
    | some (.failed, h) => some (.failed, h)
    | some (_, h) => some (.bool true, h)

/-- Move the hole away from the root while a child is above the tail. The tail stays readable
behind the end of the heap and stands for a right child that is missing. -/
def percolateDown (h : Heap V) (compare : Comparator V) (tail n hole : Nat) :
    Option (Ending × Heap V × Nat) :=
  if hole * 2 + 1 < h.len then
    match h.order[hole * 2 + 1]?, h.order[hole * 2 + 2]? with
    | some left, some right =>
      match h.compareSlots compare n right left with
      | none => none
      | some .failed => some (.failed, h, hole)
      | some (.ordered ordering raised) =>
        if raised then some (.raised, h, hole)
        else
          let winner := if ordering > 0 then right else left
          let destination := if ordering > 0 then hole * 2 + 2 else hole * 2 + 1
          match h.compareSlots compare (n + 1) tail winner with
          | none => none
          | some .failed => some (.failed, h, hole)
          | some (.ordered ordering raised) =>
            if ordering ≥ 0 then some (if raised then .raised else .done, h, hole)
            else
              let h := { h with order := h.order.set hole winner }
              if raised then some (.raised, h, destination)
              else percolateDown h compare tail (n + 2) destination
    | _, _ => none
  else some (.done, h, hole)
termination_by h.len - hole
decreasing_by split <;> omega

/-- Take the root out. `retirement` is how its destructor ended, which `next` runs first. The
last component of the result is the entry that left the heap. -/
def remove (h : Heap V) (take : Bool) (retirement : Ending) (compare : Comparator V) :
    Option (Reply V × Heap V × Option (Entry V)) :=
  match h.begin with
  | .error message => some (.exception message, h, none)
  | .ok h =>
    if h.len = 0 then
      some (if take then .exception "Can't extract from an empty heap" else .null,
        h.finish .done, none)
    else
      match h.order[0]?, h.order[h.len - 1]? with
      | some root, some tail =>
        match h.entryOf root with
        | none => none
        | some entry =>
          let result := h.project entry
          let h := { h with len := h.len - 1 }
          match if retirement = .done then h.percolateDown compare tail 0 0
              else some (retirement, h, 0) with
          | none => none
          | some (ending, h, hole) =>
            let h := { h with
              order := (h.order.set hole tail).take h.len
              free := h.free ++ [root]
              entries := h.entries.set root none }
            let reply : Reply V :=
              if ending = .failed then .failed
              else if take then .value result
              else .null
            some (reply, h.finish ending, some entry)
      | _, _ => none

def extract (h : Heap V) (compare : Comparator V) : Option (Reply V × Heap V × Option (Entry V)) :=
  h.remove true .done compare

def next (h : Heap V) (retirement : Ending) (compare : Comparator V) :
    Option (Reply V × Heap V × Option (Entry V)) :=
  h.remove false retirement compare

def recover (h : Heap V) : Reply V × Heap V := (.bool true, { h with corrupted := false })

def setFlags (h : Heap V) (flags : Int) : Reply V × Heap V :=
  let flags := (flags % 4).toNat
  if flags = 0 then (.exception "Must specify at least one extract flag", h)
  else (.long flags, { h with flags })

end Heap

/-- A comparison function that orders its arguments consistently. -/
structure TotalPreorder (c : V → V → Int) : Prop where
  flip : ∀ a b, 0 < c a b ↔ c b a < 0
  trans : ∀ a b d, 0 ≤ c a b → 0 ≤ c b d → 0 ≤ c a d

/-- Comparisons that succeed agree with one function. -/
def Honest (c : V → V → Int) (compare : Comparator V) : Prop :=
  ∀ n a b ordering, compare n a b = .ordered ordering false → ordering = c a b

namespace TotalPreorder
variable {c : V → V → Int}

theorem self (h : TotalPreorder c) (a : V) : c a a = 0 := by
  have := h.flip a a
  omega

theorem of_neg (h : TotalPreorder c) (hlt : c a b < 0) : 0 ≤ c b a :=
  Int.le_of_lt ((h.flip b a).2 hlt)

theorem of_not_pos (h : TotalPreorder c) (hle : ¬0 < c a b) : 0 ≤ c b a := by
  have := h.flip a b
  omega

end TotalPreorder

namespace Heap

section
variable {h : Heap V}

/-- The slots as they are once the tail is put into the hole. -/
def filled (h : Heap V) (tail hole : Nat) (order : List Nat) : List Nat :=
  (order.take h.len).set hole tail

theorem filled_getElem? (tail : Nat) (hi : i ≠ hole) (hlt : i < h.len) :
    (h.filled tail hole h.order)[i]? = h.order[i]? := by
  rw [filled, List.getElem?_set_ne (Ne.symm hi), List.getElem?_take_of_lt hlt]

theorem filled_hole (tail hole : Nat) (hlt : hole < h.len) (hlen : h.len < h.order.length) :
    (h.filled tail hole h.order)[hole]? = some tail := by
  refine List.getElem?_set_self ?_
  rw [List.length_take]
  omega

theorem filled_move (tail winner : Nat) (hole dest : Nat) :
    h.filled tail dest (h.order.set hole winner) =
      exchange (h.filled tail hole h.order) hole dest tail winner := by
  rw [filled, filled, exchange, List.set_set, List.take_set]

/-- Moving the winner up permutes the slots, also when it is the tail itself. -/
theorem filled_move_perm (htail : h.order[h.len]? = some tail) (hlt : hole < dest)
    (hle : dest ≤ h.len) (hwin : h.order[dest]? = some winner) :
    (h.filled tail dest (h.order.set hole winner)).Perm (h.filled tail hole h.order) := by
  have hlen : h.len < h.order.length := (List.getElem?_eq_some_iff.1 htail).1
  by_cases hd : dest < h.len
  · rw [filled_move]
    refine exchange_perm (filled_hole tail hole (by omega) hlen) ?_
    rw [filled_getElem? tail (by omega) hd, hwin]
  · have hd : dest = h.len := by omega
    subst hd
    cases htail.symm.trans hwin
    rw [filled, List.take_set, List.set_eq_of_length_le]
    · exact List.Perm.refl _
    · rw [List.length_set, List.length_take]
      omega

end

section
variable [Inhabited V] {h : Heap V} {compare : Comparator V} {c : V → V → Int}

/-- The key of a live slot. -/
def keyAt (h : Heap V) (slot : Nat) : V :=
  match h.entryOf slot with
  | some e => key h.queue e
  | none => default

/-- The entry of one slot compares not less than that of another. -/
def AtLeast (c : V → V → Int) (h : Heap V) (a b : Nat) : Prop := 0 ≤ c (h.keyAt a) (h.keyAt b)

theorem AtLeast.trans (hc : TotalPreorder c) (p q r : Nat) (hpq : h.AtLeast c p q)
    (hqr : h.AtLeast c q r) : h.AtLeast c p r := hc.trans _ _ _ hpq hqr

theorem AtLeast.refl (hc : TotalPreorder c) (p : Nat) : h.AtLeast c p p :=
  Int.le_of_eq (hc.self _).symm

theorem compareSlots_eq (ha : (h.entryOf a).isSome) (hb : (h.entryOf b).isSome) (n : Nat) :
    h.compareSlots compare n a b = some (compare n (h.keyAt a) (h.keyAt b)) := by
  obtain ⟨x, hx⟩ := Option.isSome_iff_exists.1 ha
  obtain ⟨y, hy⟩ := Option.isSome_iff_exists.1 hb
  simp only [compareSlots, keyAt, hx, hy]

theorem percolateUp_spec (slot : Nat) (hslot : (h.entryOf slot).isSome) (n hole : Nat)
    (hlive : ∀ s ∈ h.order, (h.entryOf s).isSome) (hlt : hole < h.order.length) :
    ∃ ending order hole', h.percolateUp compare slot n hole =
        some (ending, { h with order := order }, hole') ∧
      (order.set hole' slot).Perm (h.order.set hole slot) ∧
      ∀ c, TotalPreorder c → Honest c compare → ending = .done →
        UpOrdered (h.AtLeast c) (h.order.set hole slot) hole →
        HeapOrdered (h.AtLeast c) (order.set hole' slot) := by
  induction hole using Nat.strongRecOn generalizing h n with
  | _ hole ih =>
    rw [percolateUp]
    by_cases hz : hole = 0
    · subst hz
      exact ⟨.done, h.order, 0, rfl, List.Perm.refl _, fun c _ _ _ hup =>
        hup.finish fun h0 => absurd h0 (Nat.lt_irrefl 0)⟩
    have hplt : (hole - 1) / 2 < h.order.length := by omega
    obtain ⟨ancestor, hanc⟩ : ∃ a, h.order[(hole - 1) / 2]? = some a :=
      ⟨_, List.getElem?_eq_getElem hplt⟩
    have hx : (h.order.set hole slot)[hole]? = some slot := List.getElem?_set_self hlt
    have ha : (h.order.set hole slot)[(hole - 1) / 2]? = some ancestor := by
      rw [List.getElem?_set_ne (by omega), hanc]
    rw [if_neg hz, hanc]
    simp only [compareSlots_eq (hlive ancestor (List.mem_of_getElem? hanc)) hslot]
    cases hcmp : compare n (h.keyAt ancestor) (h.keyAt slot) with
    | failed => exact ⟨.failed, h.order, hole, rfl, List.Perm.refl _, fun c _ _ he => by cases he⟩
    | ordered ordering raised =>
      simp only
      by_cases hge : ordering ≥ 0
      · rw [if_pos hge]
        refine ⟨_, h.order, hole, rfl, List.Perm.refl _, fun c _ hhonest he hup => ?_⟩
        have hraised : raised = false := by cases raised <;> simp_all
        subst hraised
        refine hup.finish fun _ a x ha' hx' => ?_
        cases ha.symm.trans ha'
        cases hx.symm.trans hx'
        have hval := hhonest _ _ _ _ hcmp
        change 0 ≤ c (h.keyAt ancestor) (h.keyAt slot)
        omega
      · rw [if_neg hge]
        have hmove : exchange (h.order.set hole slot) hole ((hole - 1) / 2) slot ancestor =
            (h.order.set hole ancestor).set ((hole - 1) / 2) slot := by
          rw [exchange, List.set_set]
        have hperm := exchange_perm hx ha
        rw [hmove] at hperm
        cases raised with
        | true => exact ⟨.raised, _, _, rfl, hperm, fun c _ _ he => by cases he⟩
        | false =>
          have hlive' : ∀ s ∈ h.order.set hole ancestor, (h.entryOf s).isSome := by
            intro s hs
            rcases List.mem_or_eq_of_mem_set hs with hs | rfl
            · exact hlive s hs
            · exact hlive _ (List.mem_of_getElem? hanc)
          obtain ⟨ending, order, hole', heq, hp, hord⟩ := ih ((hole - 1) / 2) (by omega)
            (h := { h with order := h.order.set hole ancestor }) hslot (n + 1) hlive'
            (by simpa using hplt)
          refine ⟨ending, order, hole', heq, hp.trans hperm, fun c hc hhonest he hup => ?_⟩
          refine hord c hc hhonest he ?_
          have hneg : c (h.keyAt ancestor) (h.keyAt slot) < 0 := by
            rw [← hhonest _ _ _ _ hcmp]
            omega
          have := hup.move (AtLeast.trans hc) (Nat.pos_of_ne_zero hz) hx ha (hc.of_neg hneg)
          rwa [hmove] at this

/-- The children of a position. -/
theorem child_cases (hi : 0 < i) (hp : (i - 1) / 2 = hole) : i = hole * 2 + 1 ∨ i = hole * 2 + 2 := by
  omega

/-- The slot that wins the comparison of two children is at least both. -/
theorem winner_atLeast (hc : TotalPreorder c) (left right : Nat) (winner : Nat)
    (hw : winner = if 0 < c (h.keyAt right) (h.keyAt left) then right else left) :
    h.AtLeast c winner left ∧ h.AtLeast c winner right := by
  split at hw
  · rename_i hpos
    subst hw
    exact ⟨Int.le_of_lt hpos, AtLeast.refl hc _⟩
  · rename_i hpos
    subst hw
    exact ⟨AtLeast.refl hc _, hc.of_not_pos hpos⟩

theorem percolateDown_spec (tail : Nat) (n hole : Nat) (hlive : ∀ s ∈ h.order, (h.entryOf s).isSome)
    (htail : h.order[h.len]? = some tail) (hle : hole ≤ h.len) :
    ∃ ending order hole', h.percolateDown compare tail n hole =
        some (ending, { h with order := order }, hole') ∧
      (h.filled tail hole' order).Perm (h.filled tail hole h.order) ∧
      ∀ c, TotalPreorder c → Honest c compare → ending = .done →
        DownOrdered (h.AtLeast c) (h.filled tail hole h.order) hole →
        HeapOrdered (h.AtLeast c) (h.filled tail hole' order) := by
  have hlen : h.len < h.order.length := (List.getElem?_eq_some_iff.1 htail).1
  induction hm : h.len - hole using Nat.strongRecOn generalizing h n hole with
  | _ m ih =>
    rw [percolateDown]
    by_cases hlt : hole * 2 + 1 < h.len
    swap
    · rw [if_neg hlt]
      refine ⟨.done, h.order, hole, rfl, List.Perm.refl _, fun c _ _ _ hdown => ?_⟩
      refine hdown.finish fun i x b hi hp _ hb => ?_
      have := (List.getElem?_eq_some_iff.1 hb).1
      simp only [filled, List.length_set, List.length_take] at this
      omega
    obtain ⟨left, hleft⟩ : ∃ a, h.order[hole * 2 + 1]? = some a :=
      ⟨_, List.getElem?_eq_getElem (by omega)⟩
    obtain ⟨right, hright⟩ : ∃ a, h.order[hole * 2 + 2]? = some a :=
      ⟨_, List.getElem?_eq_getElem (by omega)⟩
    have hllive := hlive left (List.mem_of_getElem? hleft)
    have hrlive := hlive right (List.mem_of_getElem? hright)
    have htlive := hlive tail (List.mem_of_getElem? htail)
    have hx := filled_hole (h := h) tail hole (by omega) hlen
    rw [if_pos hlt, hleft, hright]
    simp only [compareSlots_eq hrlive hllive]
    cases hfirst : compare n (h.keyAt right) (h.keyAt left) with
    | failed => exact ⟨.failed, h.order, hole, rfl, List.Perm.refl _, fun c _ _ he => by cases he⟩
    | ordered first raised =>
      cases raised with
      | true => exact ⟨.raised, h.order, hole, rfl, List.Perm.refl _, fun c _ _ he => by cases he⟩
      | false =>
        simp only [Bool.false_eq_true, if_false]
        generalize hwin : (if first > 0 then right else left) = winner
        generalize hdest : (if first > 0 then hole * 2 + 2 else hole * 2 + 1) = dest
        have hwlive : (h.entryOf winner).isSome := by
          rw [← hwin]
          split
          · exact hrlive
          · exact hllive
        have hwdest : h.order[dest]? = some winner := by
          rw [← hwin, ← hdest]
          split
          · exact hright
          · exact hleft
        have hchild : 0 < dest ∧ (dest - 1) / 2 = hole ∧ dest ≤ h.len ∧ hole < dest := by
          rw [← hdest]
          split <;> omega
        have hmax : ∀ c, TotalPreorder c → Honest c compare → ∀ j b, 0 < j → (j - 1) / 2 = hole →
            (h.filled tail hole h.order)[j]? = some b → h.AtLeast c winner b := by
          intro c hc hhonest j b hj hp hb
          have hwinner := winner_atLeast (h := h) hc left right winner
            (by rw [← hhonest _ _ _ _ hfirst, ← hwin])
          have hjlt : j < h.len := by
            have := (List.getElem?_eq_some_iff.1 hb).1
            simp only [filled, List.length_set, List.length_take] at this
            omega
          rw [filled_getElem? tail (by omega) hjlt] at hb
          rcases child_cases hj hp with rfl | rfl
          · cases hleft.symm.trans hb
            exact hwinner.1
          · cases hright.symm.trans hb
            exact hwinner.2
        simp only [compareSlots_eq htlive hwlive]
        cases hsecond : compare (n + 1) (h.keyAt tail) (h.keyAt winner) with
        | failed => exact ⟨.failed, h.order, hole, rfl, List.Perm.refl _, fun c _ _ he => by cases he⟩
        | ordered ordering raised =>
          simp only
          by_cases hge : ordering ≥ 0
          · rw [if_pos hge]
            refine ⟨_, h.order, hole, rfl, List.Perm.refl _, fun c hc hhonest he hdown => ?_⟩
            have hraised : raised = false := by cases raised <;> simp_all
            subst hraised
            have hwin' : h.AtLeast c tail winner := by
              have := hhonest _ _ _ _ hsecond
              change 0 ≤ c (h.keyAt tail) (h.keyAt winner)
              omega
            refine hdown.finish fun i x b hi hp hx' hb => ?_
            cases hx.symm.trans hx'
            exact AtLeast.trans hc _ _ _ hwin' (hmax c hc hhonest i b hi hp hb)
          · rw [if_neg hge]
            have hperm := filled_move_perm htail hchild.2.2.2 hchild.2.2.1 hwdest
            cases raised with
            | true => exact ⟨.raised, _, _, rfl, hperm, fun c _ _ he => by cases he⟩
            | false =>
              have hlive' : ∀ s ∈ h.order.set hole winner, (h.entryOf s).isSome := by
                intro s hs
                rcases List.mem_or_eq_of_mem_set hs with hs | rfl
                · exact hlive s hs
                · exact hwlive
              have htail' : (h.order.set hole winner)[h.len]? = some tail := by
                rw [List.getElem?_set_ne (by omega), htail]
              obtain ⟨ending, order, hole', heq, hp, hord⟩ := ih (h.len - dest) (by omega)
                (h := { h with order := h.order.set hole winner }) (n + 2) dest hlive' htail'
                hchild.2.2.1 (by simpa using hlen) rfl
              refine ⟨ending, order, hole', heq, hp.trans hperm, fun c hc hhonest he hdown => ?_⟩
              refine hord c hc hhonest he ?_
              have hneg : c (h.keyAt tail) (h.keyAt winner) < 0 := by
                rw [← hhonest _ _ _ _ hsecond]
                omega
              have hdlt : dest < h.len := by
                refine Nat.lt_of_le_of_ne hchild.2.2.1 fun hd => ?_
                rw [hd, htail] at hwdest
                cases hwdest
                rw [hc.self] at hneg
                exact absurd hneg (by decide)
              have hw : (h.filled tail hole h.order)[dest]? = some winner := by
                rw [filled_getElem? tail (by omega) hdlt, hwdest]
              have := hdown.move hx hchild.1 hchild.2.1 hw (hc.of_neg hneg)
                (hmax c hc hhonest)
              rw [← filled_move] at this
              exact this

end

end Heap

end Rphp.Stdlib
