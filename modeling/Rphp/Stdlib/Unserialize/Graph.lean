import Rphp.Stdlib.Date.TzdbDecode
import Rphp.Stdlib.Serialization.ReferenceTargets

namespace Rphp.Stdlib.Unserialize
open Rphp.Lib (isDigit)
set_option autoImplicit true

/-! The cursor of the `unserialize` parser and the tokens it reads. -/

/-- The ways in which the parser could panic, or fail to end. -/
inductive Fault
  | range
  | overflow
  | underflow
  | capacity
  | fuel
  deriving DecidableEq, Repr

inductive Stop
  | rejected
  | fault (fault : Fault)
  deriving DecidableEq, Repr

structure Cursor where
  input : List UInt8
  position : Nat
  deriving DecidableEq

abbrev Reader := EStateM Stop Cursor

def ascii (c : Char) : UInt8 := UInt8.ofNat c.toNat

namespace Cursor

def left (c : Cursor) : Nat := c.input.length - c.position

end Cursor

/-- An addition of `usize` that panics on overflow. -/
def add (a b : Nat) : Reader Nat :=
  if a + b ≤ usizeMax then pure (a + b) else throw (.fault .overflow)

def subtract (a b : Nat) : Reader Nat :=
  if b ≤ a then pure (a - b) else throw (.fault .underflow)

def slice (start stop : Nat) : Reader (List UInt8) := do
  let c ← get
  match Lib.slice c.input start stop with
  | some bytes => return bytes
  | none => throw (.fault .range)

def moveTo (position : Nat) : Reader Unit :=
  modify fun c => { c with position }

def peek : Reader (Option UInt8) := do
  let c ← get
  return c.input[c.position]?

def byte : Reader UInt8 := do
  let c ← get
  match c.input[c.position]? with
  | none => throw .rejected
  | some byte =>
    moveTo (← add c.position 1)
    return byte

def expect (expected : UInt8) : Reader Unit := do
  let actual ← byte
  if actual = expected then return
  else
    let c ← get
    moveTo (← subtract c.position 1)
    throw .rejected

def token (delimiter : UInt8) : Reader (List UInt8) := do
  let c ← get
  if c.input.length < c.position then throw .rejected
  else
    match (c.input.drop c.position).findIdx? (· = delimiter) with
    | none => throw .rejected
    | some length =>
      let stop ← add c.position length
      moveTo (← add stop 1)
      slice c.position stop

def integer (delimiter : UInt8) : Reader I64 := do
  match parseI64 (← token delimiter) with
  | none => throw .rejected
  | some n => return n

/-- An integer that is a length. -/
def size (delimiter : UInt8) : Reader Nat := do
  match (← integer delimiter).toUsize? with
  | none => throw .rejected
  | some n => return n

/-- The next bytes, which have to be there. -/
def take (length : Nat) : Reader (List UInt8) := do
  let c ← get
  let stop := c.position + length
  if usizeMax < stop ∨ c.input.length < stop then throw .rejected
  else
    moveTo stop
    return (c.input.drop c.position).take length

inductive Key
  | int (n : I64)
  | string (bytes : List UInt8)
  deriving DecidableEq

def key : Reader Key := do
  let tag ← byte
  if tag = ascii 'i' then
    expect (ascii ':')
    return .int (← integer (ascii ';'))
  else if tag = ascii 's' then
    expect (ascii ':')
    let length ← size (ascii ':')
    expect (ascii '"')
    let bytes ← take length
    expect (ascii '"')
    expect (ascii ';')
    return .string bytes
  else throw .rejected

/-! The values that the parser builds, and the world it asks about classes and hooks. -/

section Values

abbrev Name := List UInt8

def name (text : String) : Name := text.toList.map ascii

/-- A double by its bits. -/
inductive Scalar
  | null
  | bool (b : Bool)
  | long (n : I64)
  | double (bits : BitVec 64)
  | string (bytes : List UInt8)
  deriving DecidableEq

/-- Objects are numbered in the order in which they were allocated, and a reference cell is named
by the slot it was reserved for. -/
inductive Val
  | scalar (value : Scalar)
  | array (entries : List (Key × Val))
  | object (id : Nat)
  | enumCase (case : Nat)
  | cell (slot : Nat)

abbrev Entries := List (Key × Val)

/-- A key that is there already keeps its place. -/
def setEntry [DecidableEq K] : List (K × Val) → K → Val → List (K × Val)
  | [], key, value => [(key, value)]
  | (other, old) :: rest, key, value =>
    if other = key then (key, value) :: rest else (other, old) :: setEntry rest key value

/-- Native containers keep their elements apart from their properties. -/
structure Obj where
  className : Name
  properties : List (Name × Val)
  storage : List Val
  flags : Option I64

def Obj.setProperty (object : Obj) (key : Name) (value : Val) : Obj :=
  { object with properties := setEntry object.properties key value }

def Obj.names (object : Obj) : List Name := object.properties.map Prod.fst

/-- Properties have string names. -/
def keyName : Key → Name
  | .int n => name (toString n.val)
  | .string bytes => bytes

def incompleteObject (className : Name) (properties : Entries) : Obj where
  className := name "__PHP_Incomplete_Class"
  properties := properties.foldl (fun values entry => setEntry values (keyName entry.1) entry.2)
    [(name "__PHP_Incomplete_Class_Name", .scalar (.string className))]
  storage := []
  flags := none

/-- An integer in its canonical spelling is an integer key. -/
def canonicalDecimalArrayKey (text : Name) : Option I64 :=
  match text with
  | [] => none
  | first :: rest =>
    if text = [ascii '0'] then some .zero
    else if ascii '1' ≤ first && first ≤ ascii '9' then
      if rest.all isDigit then parseI64 text else none
    else
      match rest with
      | [] => none
      | second :: digits =>
        if first = ascii '-' && ascii '1' ≤ second && second ≤ ascii '9' && digits.all isDigit then
          parseI64 text
        else none

def Val.withoutEntries : Val → Val
  | .array _ => .array []
  | value => value

def Val.isObject : Val → Bool
  | .object _ | .enumCase _ => true
  | _ => false

def Val.convert (f : Scalar → Scalar) : Val → Val
  | .scalar value => .scalar (f value)
  | value => value

end Values

section Classes

inductive AllowedClasses
  | all
  | none
  | list (classes : List Name)

def toLower (byte : UInt8) : UInt8 :=
  if ascii 'A' ≤ byte && byte ≤ ascii 'Z' then byte + 32 else byte

def AllowedClasses.allows : AllowedClasses → Name → Bool
  | .all, _ => true
  | .none, _ => false
  | .list classes, className =>
    classes.any fun other => other.map toLower = className.map toLower

inductive UnserializeMethod
  | none
  | user
  | deque
  | arrayWrapper
  deriving DecidableEq

/-- The answer of a native container to its backing value. -/
inductive Admission
  | fails
  | ignored
  | stored
  deriving DecidableEq

/-- The answer of a native container to a member; it may end the members without an error. -/
inductive MemberAdmission
  | fails
  | ends
  | stored (storageKey : Name)

/-- How a property takes its value: refused, or stored under a key and with scalars converted to
the property's type. -/
inductive Prepared
  | refused
  | stored (storageKey : Name) (convert : Scalar → Scalar)

/-- What the world sees of a value: read through its cell, without the entries of an array, and
with the class of an object. -/
structure Shape where
  value : Val
  className : Option Name

/-- Class lookups, type checks and user hooks, with any outcome. -/
structure Environment (ω : Type) where
  parseDouble : List UInt8 → Option (BitVec 64)
  allocateObject : ω → Name → Option Obj × ω
  hasUnserializeHook : ω → Name → Bool
  callUnserializeHook : ω → Nat → Entries → Bool × ω
  reportDiagnostic : ω → Bool × ω
  isVirtualProperty : ω → Name → Name → Bool
  prepareProperty : ω → Name → List Name → Name → Shape → Prepared × ω
  enumCase : ω → Name → Name → Option Nat × ω
  raised : ω → Bool
  unserializeMethod : ω → Name → UnserializeMethod
  callUnserialize : ω → Nat → List UInt8 → Bool × ω
  rejectMutation : ω → Nat → Bool × ω
  admitStorage : ω → Nat → I64 → Shape → Admission × ω
  admitMember : ω → Name → List Name → Name → MemberAdmission × ω
  clearDeque : ω → Nat → Bool × ω

end Classes

section Graphs

/-- The reference table, the cells of reserved slots and which of them have an alias, the objects,
the hooks to be called at the end, and the world. -/
structure Graph (ω : Type) where
  references : Nat → Option Val
  cells : Nat → Val
  aliased : List Nat
  objects : List Obj
  hooks : List (Nat × Entries)
  world : ω

/-- Steps on the graph, which can reject the input. -/
abbrev Building (ω : Type) := EStateM Unit (Graph ω)

def update (f : Nat → α) (i : Nat) (a : α) : Nat → α := fun j => if j = i then a else f j

namespace Graph

def dereferenced (g : Graph ω) : Val → Val
  | .cell slot => g.cells slot
  | value => value

def shape (g : Graph ω) (value : Val) : Shape where
  value := (g.dereferenced value).withoutEntries
  className :=
    match g.dereferenced value with
    | .object id => g.objects[id]?.map Obj.className
    | _ => none

def modifyObject (g : Graph ω) (id : Nat) (f : Obj → Obj) : Graph ω :=
  { g with objects := g.objects.modify id f }

/-- A cell stays visible only while another place of the graph holds it. -/
def cloneForPhpStorage (g : Graph ω) : Val → Val
  | .cell slot => if slot ∈ g.aliased then .cell slot else g.cells slot
  | value => value

def reserveReference (g : Graph ω) (targets : List Nat) (slot : Nat) : Graph ω :=
  if slot ∈ targets then
    { g with
      cells := update g.cells slot (.scalar .null)
      references := update g.references slot (some (.cell slot)) }
  else g

def removeReference (g : Graph ω) (slot : Nat) : Graph ω :=
  { g with references := update g.references slot none }

/-- The table after a value is put into a slot, which may hold a cell. -/
def publish (g : Graph ω) (slot : Nat) (value : Val) : Graph ω :=
  match g.references slot with
  | some (.cell target) => { g with cells := update g.cells target value }
  | _ => { g with references := update g.references slot (some value) }

/-- What takes the place of a published value: the cell of its slot, if it has one. -/
def published (g : Graph ω) (slot : Nat) (value : Val) : Val :=
  match g.references slot with
  | some (.cell target) => .cell target
  | _ => value

def publishIfAbsent (g : Graph ω) (slot : Nat) (value : Val) : Graph ω :=
  if (g.references slot).isSome then g
  else { g with references := update g.references slot (some value) }

end Graph

/-- A question to the world. -/
def ask (question : ω → α × ω) : Building ω α := fun g =>
  .ok (question g.world).1 { g with world := (question g.world).2 }

def newObject (object : Obj) : Building ω Nat := do
  let g ← get
  set { g with objects := g.objects ++ [object] }
  return g.objects.length

variable (env : Environment ω) (allowed : AllowedClasses)

def createObject (className : Name) (reference : Nat) : Building ω Nat := do
  let id ←
    if allowed.allows className then
      match ← ask (env.allocateObject · className) with
      | none => throw ()
      | some object => newObject object
    else newObject (incompleteObject className [])
  modify (·.publish reference (.object id))
  return id

/-- The object before its properties are parsed, and whether a hook takes them in the end. -/
def prepareObject (className : Name) (reference : Nat) : Building ω (Nat × Bool) := do
  let id ← createObject env allowed className reference
  let g ← get
  return (id, allowed.allows className &&
    g.objects[id]?.any fun object => env.hasUnserializeHook g.world object.className)

/-- A cell keeps its place in the property, and its contents are converted. -/
def storeProperty (id : Nat) (storageKey : Name) (convert : Scalar → Scalar) (value : Val)
    (g : Graph ω) : Graph ω :=
  match value with
  | .cell slot =>
    { g with cells := update g.cells slot ((g.cells slot).convert convert) }.modifyObject id
      (·.setProperty storageKey (.cell slot))
  | value => g.modifyObject id (·.setProperty storageKey (value.convert convert))

def populateObjectProperties (id : Nat) : Entries → Building ω Unit
  | [] => return
  | (key, value) :: properties => do
    let g ← get
    match g.objects[id]? with
    | none => throw ()
    | some object =>
      match ← ask (env.prepareProperty · object.className object.names (keyName key)
        (g.shape value)) with
      | .refused => throw ()
      | .stored storageKey convert =>
        modify (storeProperty id storageKey convert value)
        populateObjectProperties id properties

/-- The object once its properties are there. -/
def hydrate (className : Name) (id : Nat) (hasHook malformedClose : Bool) (properties : Entries)
    (names : List Name) : Building ω Nat := do
  if !allowed.allows className then newObject (incompleteObject className properties)
  else if hasHook then
    if malformedClose then
      if ← ask (env.callUnserializeHook · id properties) then return id else throw ()
    else
      modify fun g => { g with hooks := g.hooks ++ [(id, properties)] }
      return id
  else
    let g ← get
    match g.objects[id]? with
    | none => throw ()
    | some object =>
      if names.any (env.isVirtualProperty g.world object.className) then throw ()
      else
        populateObjectProperties env id properties
        return id

/-- The warning of the first diagnostic may end in an exception. -/
def reportDiagnostic : Building ω Unit := do
  if ← ask env.reportDiagnostic then return else throw ()

def rejectRaised : Building ω Unit := do
  let g ← get
  if env.raised g.world then throw () else return

def restoreStorage (id : Nat) (flags : I64) (storage : Val) : Building ω Unit := do
  let g ← get
  match ← ask (env.admitStorage · id flags (g.shape storage)) with
  | .fails => throw ()
  | .ignored => modify (·.modifyObject id fun object => { object with flags := some flags })
  | .stored =>
    modify fun g => g.modifyObject id fun object =>
      { object with flags := some flags, storage := [g.dereferenced storage] }

def restoreLegacyMembers (id : Nat) : Entries → Building ω Unit
  | [] => return
  | (key, member) :: members => do
    let g ← get
    match g.objects[id]? with
    | none => throw ()
    | some object =>
      match ← ask (env.admitMember · object.className object.names (keyName key)) with
      | .fails => throw ()
      | .ends => return
      | .stored storageKey =>
        modify fun g => g.modifyObject id (·.setProperty storageKey (g.cloneForPhpStorage member))
        restoreLegacyMembers id members

def longOf (value : Val) : Building ω I64 := do
  let g ← get
  match g.dereferenced value with
  | .scalar (.long n) => return n
  | _ => throw ()

/-- The members of a native container, which have to be spelled as an array. -/
def membersOf (tag : Option UInt8) (value : Val) : Building ω Entries := do
  let g ← get
  match g.dereferenced value with
  | .array entries => if tag = some (ascii 'a') then return entries else throw ()
  | _ => throw ()

def appendElement (id : Nat) (value : Val) : Building ω Unit := do
  rejectRaised env
  modify fun g => g.modifyObject id fun object =>
    { object with storage := object.storage ++ [g.dereferenced value] }

def clearDeque (id : Nat) : Building ω Unit := do
  if ← ask (env.clearDeque · id) then
    modify (·.modifyObject id fun object => { object with storage := [] })
  else throw ()

def setDequeFlags (id : Nat) (value : Val) : Building ω Unit := do
  let flags ← longOf value
  modify (·.modifyObject id fun object => { object with flags := some flags })

def enumCase (serializedName : Name) : Building ω Val := do
  match serializedName.findIdx? (· = ascii ':') with
  | none => throw ()
  | some colon =>
    match ← ask (env.enumCase · (serializedName.take colon) (serializedName.drop (colon + 1))) with
    | none => throw ()
    | some case => return .enumCase case

def lowercaseReference (target : Nat) : Building ω Val := do
  let g ← get
  match (g.references target).map g.dereferenced with
  | none => throw ()
  | some value => if value.isObject then return value else throw ()

/-- An alias of an earlier slot, which must have a cell. -/
def uppercaseReference (uppercase : Bool) (reference target : Nat) : Building ω Val := do
  if !uppercase || reference ≤ target then throw ()
  else
    let g ← get
    match g.references target with
    | some (.cell slot) =>
      set { g with aliased := slot :: g.aliased }
      return .cell slot
    | _ => throw ()

end Graphs

end Rphp.Stdlib.Unserialize
