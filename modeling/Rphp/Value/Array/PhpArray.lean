import Rphp.Value.Array.HashMutation

namespace Rphp
open Rphp.Lib
set_option autoImplicit true

def smallHashCapacity : Nat := 3

def linearHashCapacity : Nat := 8

def linearHashIndexThreshold : Nat := 4

/-- A short entry list that builds a string index once it has been searched often enough. -/
structure LinearHash (P : Type u) where
  entries : List (Entry P)
  stringLookups : Nat
  strIndex : Option StrIndex

namespace LinearHash

def fromEntries (entries : List (Entry P)) : LinearHash P := ⟨entries, 0, none⟩

def findStr (l : LinearHash P) (key : String) : Option Nat :=
  match l.strIndex with
  | some index => index.lookup key
  | none => positionOf l.entries (.string key)

/-- What a string search leaves behind in the interior cells. -/
def afterFindStr (l : LinearHash P) : LinearHash P :=
  match l.strIndex with
  | some _ => l
  | none =>
    let lookups := min (l.stringLookups + 1) 255
    if linearHashIndexThreshold ≤ lookups then
      { l with strIndex := some (indexEntries strEntry 0 ∅ l.entries) }
    else { l with stringLookups := lookups }

def findStrForUpdate (l : LinearHash P) (key : String) : Option Nat :=
  (l.strIndex.bind fun index => index.lookup key).or (positionOf l.entries (.string key))

def find (l : LinearHash P) : ArrayKey → Option Nat
  | .int key => positionOf l.entries (.int key)
  | .string key => l.findStrForUpdate key

/-- Overwriting in place leaves the index as it is. -/
def setAt (l : LinearHash P) (position : Nat) (val : Value P) : LinearHash P :=
  { l with entries := setValue l.entries position val }

/-- Index the entries, keeping the string index that may be there already. -/
def promote (l : LinearHash P) : HashStorage P :=
  { entries := l.entries
    strIndex := indexMissing strEntry 0 (l.strIndex.getD ∅) l.entries
    intIndex := (rebuildIntIndex l.entries).1
    verifiedIntPrefix := (rebuildIntIndex l.entries).2 }

end LinearHash

inductive ArrayStorage (P : Type u) where
  | packed (values : List (Value P))
  | smallHash (entries : List (Entry P))
  | linearHash (linear : LinearHash P)
  | hash (hash : HashStorage P)

structure PhpArray (P : Type u) where
  storage : ArrayStorage P
  nextIntKey : I64
  intKeyInitialized : Bool

def packedEntries (values : List (Value P)) : List (Entry P) :=
  values.mapIdx fun i value => (.int (I64.wrap i), value)

/-- Integer keys become consecutive, string keys stay. -/
def renumber (next : Nat) : List (Entry P) → List (Entry P)
  | [] => []
  | (.int _, value) :: rest => (.int (I64.wrap next), value) :: renumber (next + 1) rest
  | (.string key, value) :: rest => (.string key, value) :: renumber next rest

def intKeyCount (entries : List (Entry P)) : Nat :=
  entries.countP fun entry => (intEntry 0 entry).isSome

/-- What copying an array needs to know about reference cells: the value a copied cell yields,
and whether an owned cell stays shared. -/
structure CellView (P : Type u) where
  target : Nat → Value P
  shared : Nat → Bool

def Value.cloneForArrayCow (view : CellView P) : Value P → Value P
  | .reference owned cell =>
    if owned && view.shared cell then .reference owned cell else view.target cell
  | value => value

namespace PhpArray

def new : PhpArray P := ⟨.packed [], .zero, false⟩

def withPackedCapacity (_capacity : Nat) : PhpArray P := ⟨.packed [], .zero, false⟩

def withHashCapacity (capacity : Nat) : PhpArray P :=
  if capacity ≤ smallHashCapacity then ⟨.smallHash [], .zero, false⟩
  else ⟨.hash .empty, .zero, false⟩

def withDeferredHashCapacity (capacity : Nat) : PhpArray P :=
  if capacity ≤ smallHashCapacity then ⟨.smallHash [], .zero, false⟩
  else if capacity ≤ linearHashCapacity then ⟨.linearHash (.fromEntries []), .zero, false⟩
  else withHashCapacity capacity

def iter (a : PhpArray P) : List (Entry P) :=
  match a.storage with
  | .packed values => packedEntries values
  | .smallHash entries => entries
  | .linearHash linear => linear.entries
  | .hash hash => hash.entries

def transitionToHash (a : PhpArray P) : PhpArray P :=
  match a.storage with
  | .packed values =>
    if values.length ≤ smallHashCapacity then { a with storage := .smallHash (packedEntries values) }
    else { a with storage := .hash ⟨packedEntries values, ∅, ∅, values.length⟩ }
  | _ => a

def promoteSmallHash (a : PhpArray P) : PhpArray P :=
  match a.storage with
  | .smallHash entries => { a with storage := .hash (.ofEntries entries) }
  | _ => a

def promoteSmallHashToLinear (a : PhpArray P) : PhpArray P :=
  match a.storage with
  | .smallHash entries => { a with storage := .linearHash (.fromEntries entries) }
  | _ => a

def promoteLinearHash (a : PhpArray P) : PhpArray P :=
  match a.storage with
  | .linearHash linear => { a with storage := .hash linear.promote }
  | _ => a

def getInt (a : PhpArray P) (key : I64) : Option (Value P) :=
  match a.storage with
  | .packed values => key.toUsize?.bind fun position => values[position]?
  | .smallHash entries => getKey entries (.int key)
  | .linearHash linear => getKey linear.entries (.int key)
  | .hash hash => hash.getInt key

def getStr (a : PhpArray P) (key : String) : Option (Value P) :=
  match a.storage with
  | .packed _ => none
  | .smallHash entries => getKey entries (.string key)
  | .linearHash linear =>
    (linear.findStr key).bind fun position => linear.entries[position]?.map Prod.snd
  | .hash hash => hash.getStr key

/-- The array after a string read, which may have built the index of a linear storage. -/
def afterGetStr (a : PhpArray P) : PhpArray P :=
  match a.storage with
  | .linearHash linear => { a with storage := .linearHash linear.afterFindStr }
  | _ => a

def canPush (a : PhpArray P) : Bool := a.nextIntKey ≠ .max || (a.getInt .max).isNone

def promoteFull (a : PhpArray P) : PhpArray P :=
  match a.storage with
  | .smallHash entries => if entries.length = smallHashCapacity then a.promoteSmallHash else a
  | .linearHash linear =>
    if linear.entries.length = linearHashCapacity then a.promoteLinearHash else a
  | _ => a

def setHashInt (a : PhpArray P) (key : I64) (val : Value P) : PhpArray P :=
  match a.storage with
  | .hash hash =>
    { a with
      storage := .hash (hash.setIndexedInt a.nextIntKey key val).1
      nextIntKey := (hash.setIndexedInt a.nextIntKey key val).2 }
  | _ => a

def pushExplicit (a : PhpArray P) (key : I64) (val : Value P) : PhpArray P :=
  match a.storage with
  | .packed _ => a
  | .smallHash entries => { a with storage := .smallHash (entries ++ [(.int key, val)]) }
  | .linearHash linear =>
    { a with storage := .linearHash (.fromEntries (linear.entries ++ [(.int key, val)])) }
  | .hash _ => a.setHashInt key val

/-- Append under the next automatic key; refused once that key is taken for good. -/
def tryPush (a : PhpArray P) (val : Value P) : PhpArray P × Bool :=
  if a.canPush then
    let key := a.nextIntKey
    let b : PhpArray P :=
      { a with
        intKeyInitialized := a.intKeyInitialized || decide (key = .zero)
        nextIntKey := key.saturatingSucc }
    match b.storage with
    | .packed values => ({ b with storage := .packed (values ++ [val]) }, true)
    | _ => (b.promoteFull.pushExplicit key val, true)
  else (a, false)

/-- The first integer key of an array decides where automatic keys start. -/
def startIntKeys (a : PhpArray P) (key : I64) : PhpArray P :=
  if a.nextIntKey = .zero ∧ a.intKeyInitialized = false then
    { a with
      intKeyInitialized := true
      nextIntKey := if key.val < 0 then key.saturatingSucc else a.nextIntKey }
  else a

def setLinearInt (a : PhpArray P) (key : I64) (val : Value P) : PhpArray P :=
  match a.storage with
  | .linearHash linear =>
    match positionOf linear.entries (.int key) with
    | some position => { a with storage := .linearHash (linear.setAt position val) }
    | none =>
      if linear.entries.length < linearHashCapacity then
        { a with
          storage := .linearHash (.fromEntries (linear.entries ++ [(.int key, val)]))
          nextIntKey := bumpNextIntKey a.nextIntKey key }
      else a.promoteLinearHash.setHashInt key val
  | _ => a.setHashInt key val

def setExplicitInt (a : PhpArray P) (key : I64) (val : Value P) : PhpArray P :=
  match a.storage with
  | .smallHash entries =>
    match positionOf entries (.int key) with
    | some position => { a with storage := .smallHash (setValue entries position val) }
    | none =>
      if entries.length < smallHashCapacity then
        { a with
          storage := .smallHash (entries ++ [(.int key, val)])
          nextIntKey := bumpNextIntKey a.nextIntKey key }
      else a.promoteSmallHash.setLinearInt key val
  | _ => a.setLinearInt key val

def setPreparedInt (a : PhpArray P) (key : I64) (val : Value P) : PhpArray P :=
  match a.storage with
  | .packed values =>
    if key = a.nextIntKey then
      { a with storage := .packed (values ++ [val]), nextIntKey := key.saturatingSucc }
    else
      match key.toUsize?.filter fun position => position < values.length with
      | some position => { a with storage := .packed (values.set position val) }
      | none => a.transitionToHash.setExplicitInt key val
  | .hash _ => a.setHashInt key val
  | _ => a.setExplicitInt key val

def setInt (a : PhpArray P) (key : I64) (val : Value P) : PhpArray P :=
  (a.startIntKeys key).setPreparedInt key val

def promoteStreamedSmall (a : PhpArray P) (key : ArrayKey) : PhpArray P :=
  match a.storage with
  | .smallHash entries =>
    if entries.length = smallHashCapacity ∧ positionOf entries key = none then
      a.promoteSmallHashToLinear
    else a
  | _ => a

def promoteStreamedLinear (a : PhpArray P) (key : ArrayKey) : PhpArray P :=
  match a.storage with
  | .linearHash linear =>
    if linear.entries.length = linearHashCapacity ∧ linear.find key = none then a.promoteLinearHash
    else a
  | _ => a

/-- Full short storages give way to the next tier when the key is new. -/
def promoteStreamed (a : PhpArray P) (key : ArrayKey) : PhpArray P :=
  (a.promoteStreamedSmall key).promoteStreamedLinear key

def setStreamedInt (a : PhpArray P) (key : I64) (val : Value P) : PhpArray P :=
  (a.promoteStreamed (.int key)).setInt key val

def setHashStr (a : PhpArray P) (key : String) (val : Value P) : PhpArray P :=
  match a.storage with
  | .hash hash => { a with storage := .hash (hash.setIndexedStr key val) }
  | _ => a

def setLinearStr (a : PhpArray P) (key : String) (val : Value P) : PhpArray P :=
  match a.storage with
  | .linearHash linear =>
    match linear.findStrForUpdate key with
    | some position => { a with storage := .linearHash (linear.setAt position val) }
    | none =>
      if linear.entries.length < linearHashCapacity then
        { a with
          storage := .linearHash (.fromEntries (linear.entries ++ [(.string key, val)])) }
      else a.promoteLinearHash.setHashStr key val
  | _ => a.setHashStr key val

def setExplicitStr (a : PhpArray P) (key : String) (val : Value P) : PhpArray P :=
  match a.storage with
  | .smallHash entries =>
    match positionOf entries (.string key) with
    | some position => { a with storage := .smallHash (setValue entries position val) }
    | none =>
      if entries.length < smallHashCapacity then
        { a with storage := .smallHash (entries ++ [(.string key, val)]) }
      else a.promoteSmallHash.setLinearStr key val
  | _ => a.setLinearStr key val

/-- The write first reads the key, which a linear storage counts as a lookup. -/
def setStr (a : PhpArray P) (key : String) (val : Value P) : PhpArray P :=
  a.afterGetStr.transitionToHash.setExplicitStr key val

def setOwnedStr (a : PhpArray P) (key : String) (val : Value P) : PhpArray P := a.setStr key val

def setStreamedOwnedStr (a : PhpArray P) (key : String) (val : Value P) : PhpArray P :=
  (a.promoteStreamed (.string key)).setOwnedStr key val

/-- The position a removal works on, searched as each storage does for an update. -/
def findForRemoval (a : PhpArray P) (key : ArrayKey) : Option Nat :=
  match a.storage with
  | .packed _ => none
  | .smallHash entries => positionOf entries key
  | .linearHash linear => linear.find key
  | .hash hash => hash.find key

def removeAt (a : PhpArray P) (position : Nat) : PhpArray P :=
  match a.storage with
  | .packed _ => a
  | .smallHash entries => { a with storage := .smallHash (entries.eraseIdx position) }
  | .linearHash linear =>
    { a with storage := .linearHash (.fromEntries (linear.entries.eraseIdx position)) }
  | .hash hash => { a with storage := .hash (hash.removeAt position) }

def takeWithPosition (a : PhpArray P) (key : ArrayKey) : PhpArray P × Option (Nat × Value P) :=
  let b := a.transitionToHash
  match b.findForRemoval key with
  | some position =>
    (b.removeAt position, b.iter[position]?.map fun entry => (position, entry.2))
  | none => (b, none)

def lowerNextIntKey (next : I64) : ArrayKey → I64
  | .int key => if key = next.wrappingPred then next.wrappingPred else next
  | .string _ => next

def pop (a : PhpArray P) : PhpArray P × Option (Value P) :=
  match a.storage with
  | .packed values =>
    match values.getLast? with
    | some value =>
      ({ a with storage := .packed values.dropLast, nextIntKey := I64.wrap values.dropLast.length },
        some value)
    | none => (a, none)
  | .smallHash entries =>
    match entries.getLast? with
    | some (key, value) =>
      ({ a with
          storage := .smallHash entries.dropLast
          nextIntKey := lowerNextIntKey a.nextIntKey key }, some value)
    | none => (a, none)
  | .linearHash linear =>
    match linear.entries.getLast? with
    | some (key, value) =>
      ({ a with
          storage := .linearHash (.fromEntries linear.entries.dropLast)
          nextIntKey := lowerNextIntKey a.nextIntKey key }, some value)
    | none => (a, none)
  | .hash hash =>
    match hash.entries.getLast? with
    | some (key, value) =>
      ({ a with
          storage := .hash (hash.popKey key)
          nextIntKey := lowerNextIntKey a.nextIntKey key }, some value)
    | none => (a, none)

def shift (a : PhpArray P) : PhpArray P × Option (Value P) :=
  let b := a.transitionToHash
  match b.storage with
  | .packed _ => (b, none)
  | .smallHash [] => (b, none)
  | .smallHash ((_, value) :: rest) =>
    ({ b with
        storage := .smallHash (renumber 0 rest)
        nextIntKey := I64.wrap (intKeyCount rest) }, some value)
  | .linearHash linear =>
    match linear.entries with
    | [] => (b, none)
    | (_, value) :: rest =>
      ({ b with
          storage := .linearHash (.fromEntries (renumber 0 rest))
          nextIntKey := I64.wrap (intKeyCount rest) }, some value)
  | .hash hash =>
    match hash.entries with
    | [] => (b, none)
    | (_, value) :: rest =>
      ({ b with
          storage := .hash (.ofEntries (renumber 0 rest))
          nextIntKey := I64.wrap (intKeyCount rest) }, some value)

def mapValues (f : Value P → Value P) (entries : List (Entry P)) : List (Entry P) :=
  entries.map fun entry => (entry.1, f entry.2)

def clone (a : PhpArray P) (view : CellView P) : PhpArray P :=
  { a with
    storage :=
      match a.storage with
      | .packed values => .packed (values.map (Value.cloneForArrayCow view))
      | .smallHash entries => .smallHash (mapValues (Value.cloneForArrayCow view) entries)
      | .linearHash linear =>
        .linearHash (.fromEntries (mapValues (Value.cloneForArrayCow view) linear.entries))
      | .hash hash =>
        .hash { hash with entries := mapValues (Value.cloneForArrayCow view) hash.entries } }

end PhpArray

end Rphp
