import Rphp.Machine

namespace Rphp.Stdlib
set_option autoImplicit true

structure Node (V : Type) where
  slot : Nat
  previous : Option Nat
  next : Option Nat
  value : V
deriving DecidableEq, Repr

/-- A cursor owns a node, which may have left the list, and counts its moves. -/
structure Position where
  node : Option Nat := none
  key : I64 := I64.zero

/-- The arena of a list. A node is known by its place in the store, which holds every node that
was ever made; the null value is the default one. -/
structure Deque (V : Type) where
  store : List (Node V) := []
  nodes : List (Option Nat) := []
  free : List Nat := []
  head : Option Nat := none
  tail : Option Nat := none
  len : Nat := 0
  mode : Nat := 0
  cursor : Position := {}

/-- Last in, first out. -/
def isLifo (mode : Nat) : Bool := mode.testBit 1

/-- A traversal that empties the list. -/
def isDelete (mode : Nat) : Bool := mode.testBit 0

namespace Deque

/-- The node of a slot; a slot without one would be a panic. -/
def node (d : Deque V) (slot : Nat) : Option Nat := (d.nodes[slot]?).join

def onNode (d : Deque V) (id : Nat) (f : Node V → Node V) : Deque V :=
  { d with store := d.store.modify id f }

/-- Let the left neighbour, or the head, lead to `next`. A node that is borrowed already cannot
be borrowed again. -/
def linkNext (d : Deque V) (borrowed : Option Nat) (previous next : Option Nat) :
    Option (Deque V) :=
  match previous with
  | none => some { d with head := next }
  | some slot =>
    match d.node slot with
    | none => none
    | some id => if borrowed = some id then none else some (d.onNode id fun n => { n with next })

/-- Let the right neighbour, or the tail, lead to `previous`. -/
def linkPrevious (d : Deque V) (borrowed : Option Nat) (next previous : Option Nat) :
    Option (Deque V) :=
  match next with
  | none => some { d with tail := previous }
  | some slot =>
    match d.node slot with
    | none => none
    | some id =>
      if borrowed = some id then none else some (d.onNode id fun n => { n with previous })

/-- The left neighbour of a new node. -/
def previousOf (d : Deque V) (before : Option Nat) : Option (Option Nat) :=
  match before with
  | none => some d.tail
  | some slot =>
    match d.node slot with
    | none => none
    | some id => (d.store[id]?).map Node.previous

/-- A slot to be filled: the last one that became free, or a new one. -/
def takeSlot (d : Deque V) : Nat × Deque V :=
  match d.free.getLast? with
  | some slot => (slot, { d with free := d.free.dropLast })
  | none => (d.nodes.length, { d with nodes := d.nodes ++ [none] })

def fill (d : Deque V) (n : Node V) : Deque V :=
  { d with nodes := d.nodes.set n.slot (some d.store.length), store := d.store ++ [n] }

def insertBefore (d : Deque V) (before : Option Nat) (value : V) : Option (Deque V) := do
  let previous ← d.previousOf before
  let (slot, d) := d.takeSlot
  let d := d.fill ⟨slot, previous, before, value⟩
  let d ← d.linkNext none previous (some slot)
  let d ← d.linkPrevious none before (some slot)
  return { d with len := d.len + 1 }

/-- Take a node out, unless it has left the list already. -/
def remove [Inhabited V] (d : Deque V) (id : Nat) (invalidateManual : Bool) : Option (V × Deque V) :=
  match d.store[id]? with
  | none => none
  | some n =>
    if d.node n.slot = some id then do
      let d := d.onNode id fun n => { n with previous := none, next := none }
      let d ← d.linkNext (some id) n.previous n.next
      let d ← d.linkPrevious (some id) n.next n.previous
      let cursor : Position :=
        if invalidateManual ∧ d.cursor.node = some id then { d.cursor with node := none }
        else d.cursor
      let d := { d with
        nodes := d.nodes.set n.slot none
        free := d.free ++ [n.slot]
        len := d.len - 1
        cursor }
      return (n.value, d.onNode id fun n => { n with value := default })
    else some (default, d)

/-- Follow the links; `some none` where the chain ends early. -/
def walk (d : Deque V) (fromTail : Bool) : Nat → Nat → Option (Option Nat)
  | 0, slot => (d.node slot).map some
  | steps + 1, slot =>
    match d.node slot with
    | none => none
    | some id =>
      match d.store[id]? with
      | none => none
      | some n =>
        match if fromTail then n.previous else n.next with
        | none => some none
        | some slot => walk d fromTail steps slot

/-- The node at an index in the direction of the mode. -/
def nodeAt (d : Deque V) (index : Nat) : Option (Option Nat) :=
  if index ≥ d.len then some none
  else
    let physical := if isLifo d.mode then d.len - 1 - index else index
    let fromTail : Bool := physical > d.len / 2
    match if fromTail then d.tail else d.head with
    | none => some none
    | some slot => d.walk fromTail (if fromTail then d.len - 1 - physical else physical) slot

/-- The node of a link that may be missing. -/
def nodeOf (d : Deque V) : Option Nat → Option (Option Nat)
  | none => some none
  | some slot => (d.node slot).map some

def rewind (d : Deque V) (mode : Nat) : Option Position := do
  let node ← d.nodeOf (if isLifo mode then d.tail else d.head)
  return ⟨node, I64.wrap (if isLifo mode then d.len - 1 else 0)⟩

/-- The key only counts down while the traversal deletes. -/
def advanceKey (key : I64) (mode : Nat) (reverse : Bool) : I64 :=
  if reverse then I64.wrap (key.val - 1)
  else if isDelete mode then key
  else I64.wrap (key.val + 1)

/-- Move a cursor to its neighbour. A deleting traversal removes the end it started from,
whatever node the cursor is on. -/
def advance [Inhabited V] (d : Deque V) (position : Position) (mode : Nat) (backward : Bool) :
    Option (Position × Option V × Deque V) :=
  match position.node with
  | none => some (position, none, d)
  | some id => do
    let reverse := isLifo mode ^^ backward
    let n ← d.store[id]?
    let node ← d.nodeOf (if reverse then n.previous else n.next)
    let position : Position := ⟨node, advanceKey position.key mode reverse⟩
    if isDelete mode then
      match ← d.nodeOf (if reverse then d.tail else d.head) with
      | none => return (position, none, d)
      | some last =>
        let (value, d) ← d.remove last false
        return (position, some value, d)
    else
      return (position, none, d)

end Deque

end Rphp.Stdlib
