import Rphp.Stdlib.Unserialize.Graph

namespace Rphp.Stdlib.Unserialize
open Rphp.Lib (isDigit isUtf8)
set_option autoImplicit true

/-! The parser of `unserialize`, with and without cells for the slots that an `R:` may name. -/

section Headers

inductive Tag
  | null
  | bool
  | long
  | double
  | string
  | array
  | object
  | custom
  | enum
  | lowercase
  | uppercase
  deriving DecidableEq

def Tag.ofByte (byte : UInt8) : Option Tag :=
  if byte = ascii 'N' then some .null
  else if byte = ascii 'b' then some .bool
  else if byte = ascii 'i' then some .long
  else if byte = ascii 'd' then some .double
  else if byte = ascii 's' then some .string
  else if byte = ascii 'a' then some .array
  else if byte = ascii 'O' then some .object
  else if byte = ascii 'C' then some .custom
  else if byte = ascii 'E' then some .enum
  else if byte = ascii 'r' then some .lowercase
  else if byte = ascii 'R' then some .uppercase
  else none

def parseNull : Reader Val := do
  expect (ascii ';')
  return .scalar .null

def parseBool : Reader Val := do
  expect (ascii ':')
  let value ← integer (ascii ';')
  if value.val = 0 then return .scalar (.bool false)
  else if value.val = 1 then return .scalar (.bool true)
  else throw .rejected

def parseLong : Reader Val := do
  expect (ascii ':')
  return .scalar (.long (← integer (ascii ';')))

def doubleBits (env : Environment ω) (text : List UInt8) : Option (BitVec 64) :=
  if text = name "NAN" then some 0x7ff8000000000000
  else if text = name "INF" then some 0x7ff0000000000000
  else if text = name "-INF" then some 0xfff0000000000000
  else env.parseDouble text

def parseDouble (env : Environment ω) : Reader Val := do
  expect (ascii ':')
  match doubleBits env (← token (ascii ';')) with
  | none => throw .rejected
  | some bits => return .scalar (.double bits)

def quoted : Reader (List UInt8) := do
  expect (ascii ':')
  let length ← size (ascii ':')
  expect (ascii '"')
  let bytes ← take length
  expect (ascii '"')
  return bytes

def parseString : Reader Val := do
  let bytes ← quoted
  expect (ascii ';')
  return .scalar (.string bytes)

def arrayHeader : Reader Nat := do
  expect (ascii ':')
  let length ← size (ascii ':')
  expect (ascii '{')
  return length

def objectHeader : Reader (Name × Nat) := do
  let className ← quoted
  expect (ascii ':')
  let c ← get
  -- the rest of the input may be a property count without an end
  if (← slice c.position c.input.length).all isDigit then throw .rejected
  else
    let propertyCount ← size (ascii ':')
    expect (ascii '{')
    if isUtf8 className then return (className, propertyCount) else throw .rejected

/-- Whether the closing brace is missing. -/
def closing : Reader Bool := do
  let c ← get
  if c.input[c.position]? = some (ascii '}') then
    moveTo (← add c.position 1)
    return false
  else return true

def customHeader : Reader (Name × List UInt8) := do
  let className ← quoted
  if isUtf8 className then
    expect (ascii ':')
    let payloadLength ← size (ascii ':')
    expect (ascii '{')
    let payload ← take payloadLength
    expect (ascii '}')
    return (className, payload)
  else throw .rejected

def enumName : Reader Name := do
  let bytes ← quoted
  expect (ascii ';')
  if isUtf8 bytes then return bytes else throw .rejected

def referenceTarget : Reader Nat := do
  expect (ascii ':')
  size (ascii ';')

/-- The separator of a deque, at an index that the input has. -/
def colon : Reader Unit := do
  let c ← get
  match c.input[c.position]? with
  | none => throw (.fault .range)
  | some byte =>
    if byte = ascii ':' then moveTo (← add c.position 1) else throw .rejected

def membersHeader : Reader (Option UInt8) := do
  expect (ascii 'm')
  expect (ascii ':')
  peek

end Headers

section States

/-- The values that declare the number of their members. -/
inductive Declarer
  | array
  | object
  deriving DecidableEq

/-- The count that such a value declares, from behind its tag. -/
def Declarer.count : Declarer → Reader Nat
  | .array => arrayHeader
  | .object => Prod.snd <$> objectHeader

/-- Where the parser stood behind the tag of a value that declares a count, the number of entries
that it reserved for it and the bytes that were left then. -/
structure Opening where
  declarer : Declarer
  start : Cursor
  reserved : Nat
  left : Nat

/-- The state of the parser, with the values it opened so far. -/
structure State (ω : Type) where
  cursor : Cursor
  nextReference : Nat
  graph : Graph ω
  opened : List Opening

abbrev Parser (ω : Type) := EStateM Stop (State ω)

def reading (m : Reader α) : Parser ω α := fun s =>
  match m s.cursor with
  | .ok a c => .ok a { s with cursor := c }
  | .error e c => .error e { s with cursor := c }

def building (m : Building ω α) : Parser ω α := fun s =>
  match m s.graph with
  | .ok a g => .ok a { s with graph := g }
  | .error _ g => .error .rejected { s with graph := g }

def reject : Parser ω α := throw .rejected

def nextSlot : Parser ω Nat := do
  let s ← get
  let next ← reading (add s.nextReference 1)
  modify fun s => { s with nextReference := next }
  return s.nextReference

/-- An `R:` gives its slot back. -/
def releaseSlot : Parser ω Unit := do
  let s ← get
  let next ← reading (subtract s.nextReference 1)
  modify fun s => { s with nextReference := next }

/-- The bytes of a key and a value. -/
def entryBytes : Nat := 32

def isizeMax : Nat := 9223372036854775807

/-- The entries are reserved before the first of them is parsed; without a limit on the memory of
the request, which is the default, only a capacity beyond `isize` is refused. -/
def reserve (declarer : Declarer) (start : Cursor) (count : Nat) : Parser ω Unit := do
  modify fun s => { s with opened := ⟨declarer, start, count, s.cursor.left⟩ :: s.opened }
  if isizeMax < count * entryBytes then throw (.fault .capacity) else return

/-- The payload takes the place of the input for a while. -/
def withInput (payload : List UInt8) (m : Parser ω α) : Parser ω α := fun s =>
  match m { s with cursor := ⟨payload, 0⟩ } with
  | .ok a t => .ok a { t with cursor := s.cursor }
  | .error .rejected t => .error .rejected { t with cursor := s.cursor }
  | .error (.fault f) t => .error (.fault f) t

/-- What follows a rejection of `m` before it goes on. -/
def onReject (m : Parser ω α) (cleanup : Parser ω Unit) : Parser ω α := fun s =>
  match m s with
  | .ok a t => .ok a t
  | .error .rejected t => (cleanup >>= fun _ => reject) t
  | .error (.fault f) t => .error (.fault f) t

end States

section Members

def arrayMembers (value : Parser ω Val) : Nat → Entries → Parser ω Entries
  | 0, array => return array
  | n + 1, array => do
    let key ← reading key
    let member ← value
    arrayMembers value n (setEntry array key member)

def parseArray (value : Parser ω Val) : Parser ω Val := do
  let s ← get
  let length ← reading arrayHeader
  reserve .array s.cursor length
  let array ← arrayMembers value length []
  reading (expect (ascii '}'))
  return .array array

/-- The arguments of a hook are arrays, with integer keys for the canonical spelling of one. -/
def propertyKey (hasHook : Bool) : Key → Key
  | .int n => .int n
  | .string bytes =>
    if hasHook then
      match canonicalDecimalArrayKey bytes with
      | some n => .int n
      | none => .string bytes
    else .string bytes

def stringNames (names : List Name) : Key → List Name
  | .int _ => names
  | .string bytes => names ++ [bytes]

def objectMembers (hasHook : Bool) (value : Parser ω Val) :
    Nat → Entries → List Name → Parser ω (Entries × List Name)
  | 0, properties, names => return (properties, names)
  | n + 1, properties, names => do
    let key ← reading key
    let member ← value
    objectMembers hasHook value n (setEntry properties (propertyKey hasHook key) member)
      (stringNames names key)

variable (env : Environment ω) (allowed : AllowedClasses)

def parseObject (value : Parser ω Val) (reference : Nat) : Parser ω Val := do
  let s ← get
  let (className, propertyCount) ← reading objectHeader
  let (id, hasHook) ← building (prepareObject env allowed className reference)
  reserve .object s.cursor propertyCount
  let (properties, names) ← objectMembers hasHook value propertyCount [] []
  let malformedClose ← reading closing
  if malformedClose then building (reportDiagnostic env)
  let hydrated ←
    building (hydrate env allowed className id hasHook malformedClose properties names)
  building (rejectRaised env)
  if malformedClose then reject else return .object hydrated

end Members

section Payloads

variable (env : Environment ω) (allowed : AllowedClasses)

def hasSelfBacking (flags : I64) : Bool := 2 ^ 24 ≤ flags.val % 2 ^ 25

def isBackingTag (byte : Option UInt8) : Bool :=
  byte = some (ascii 'a') || byte = some (ascii 'O') || byte = some (ascii 'C') ||
    byte = some (ascii 'r')

def restoreBacking (value : Parser ω Val) (id : Nat) (flags : I64) : Parser ω Unit := do
  if hasSelfBacking flags then building (restoreStorage env id flags (.object id))
  else
    if isBackingTag (← reading peek) then
      let storage ← value
      building (restoreStorage env id flags storage)
      reading (expect (ascii ';'))
    else reject

def arrayWrapperPayload (value : Parser ω Val) (id : Nat) : Parser ω Unit := do
  let s ← get
  if s.cursor.input = [] then return
  else if ← building (ask (env.rejectMutation · id)) then reject
  else if !(name "x:").isPrefixOf s.cursor.input then reject
  else
    reading (moveTo 2)
    let flags ← building (longOf (← value))
    restoreBacking env value id flags
    let membersTag ← reading membersHeader
    let members ← building (membersOf membersTag (← value))
    building (restoreLegacyMembers env id members)
    building (rejectRaised env)

/-- Where the cursor stays after a value of a deque is rejected. -/
def rewind (start : Nat) : Parser ω Unit := do
  let s ← get
  match s.cursor.input[start]?.bind Tag.ofByte with
  | none | some .null | some .bool | some .long | some .double => reading (moveTo start)
  | some .lowercase | some .uppercase =>
    if s.cursor.position = start then reading (moveTo start)
    else
      let last ← reading (subtract s.cursor.position 1)
      if s.cursor.input[last]? = some (ascii ';') then return else reading (moveTo start)
  | some _ => return

def dequeValue (value : Parser ω Val) : Parser ω Val := do
  let s ← get
  onReject value (rewind s.cursor.position)

/-- The elements to the end of the payload; each takes a byte at least. -/
def dequeElements (value : Parser ω Val) (id : Nat) : Nat → Parser ω Unit
  | 0 => do
    let s ← get
    if s.cursor.position < s.cursor.input.length then throw (.fault .fuel) else return
  | n + 1 => do
    let s ← get
    if s.cursor.position < s.cursor.input.length then
      reading colon
      let member ← dequeValue value
      building (appendElement env id member)
      dequeElements value id n
    else return

def dequePayload (value : Parser ω Val) (id : Nat) : Parser ω Unit := do
  let s ← get
  if s.cursor.input = [] then return
  else
    building (clearDeque env id)
    building (rejectRaised env)
    let flags ← dequeValue value
    building (setDequeFlags id flags)
    let s ← get
    dequeElements env value id s.cursor.left

def restoreCustom (value : Parser ω Val) (id : Nat) (payload : List UInt8) : Parser ω Unit := do
  let s ← get
  match s.graph.objects[id]?.map fun object =>
      env.unserializeMethod s.graph.world object.className with
  | some .deque => withInput payload (dequePayload env value id)
  | some .arrayWrapper => withInput payload (arrayWrapperPayload env value id)
  | some .user => if ← building (ask (env.callUnserialize · id payload)) then return else reject
  | some .none | none => return

def parseCustom (value : Parser ω Val) (reference : Nat) : Parser ω Val := do
  let (className, payload) ← reading customHeader
  let id ← building (createObject env allowed className reference)
  if allowed.allows className then restoreCustom env value id payload
  building (rejectRaised env)
  return .object id

end Payloads

section Values

variable (env : Environment ω) (allowed : AllowedClasses)

/-- The value behind a tag, and whether it is an alias of an earlier slot. -/
def parseValueTag (uppercase : Bool) (value : Parser ω Val) (tag : UInt8) (reference : Nat) :
    Parser ω (Val × Bool) :=
  match Tag.ofByte tag with
  | none => reject
  | some .null => (·, false) <$> reading parseNull
  | some .bool => (·, false) <$> reading parseBool
  | some .long => (·, false) <$> reading parseLong
  | some .double => (·, false) <$> reading (parseDouble env)
  | some .string => (·, false) <$> reading parseString
  | some .array => (·, false) <$> parseArray value
  | some .object => (·, false) <$> parseObject env allowed value reference
  | some .custom => (·, false) <$> parseCustom env allowed value reference
  | some .enum => do
    let serializedName ← reading enumName
    return (← building (enumCase env serializedName), false)
  | some .lowercase => do
    let target ← reading referenceTarget
    return (← building (lowercaseReference target), false)
  | some .uppercase => do
    let target ← reading referenceTarget
    return (← building (uppercaseReference uppercase reference target), true)

def valueWithoutUppercaseReferences (value : Parser ω Val) : Parser ω Val := do
  let reference ← nextSlot
  let tag ← reading byte
  let (decoded, _) ← parseValueTag env allowed false value tag reference
  building (modify (·.publishIfAbsent reference decoded))
  return decoded

/-- The diagnostic of a rejected value is put at its tag or behind it. -/
def discard (start reference : Nat) : Parser ω Unit := do
  building (modify (·.removeReference reference))
  let _ ← reading (add start 1)

def valueWithUppercaseReferences (targets : List Nat) (value : Parser ω Val) : Parser ω Val := do
  let start := (← get).cursor.position
  let reference ← nextSlot
  building (modify (·.reserveReference targets reference))
  let tag ← onReject (reading byte) (building (modify (·.removeReference reference)))
  let (decoded, aliasesExistingReference) ←
    onReject (parseValueTag env allowed true value tag reference) (discard start reference)
  if aliasesExistingReference then
    building (modify (·.removeReference reference))
    releaseSlot
    return decoded
  else
    let g := (← get).graph
    building (set (g.publish reference decoded))
    return g.published reference decoded

/-- A value and everything in it; every level of nesting takes a tag. -/
def valueMode (uppercase : Bool) (targets : List Nat) : Nat → Parser ω Val
  | 0 => throw (.fault .fuel)
  | fuel + 1 =>
    if uppercase then
      valueWithUppercaseReferences env allowed targets (valueMode uppercase targets fuel)
    else valueWithoutUppercaseReferences env allowed (valueMode uppercase targets fuel)

end Values

def State.start (input : List UInt8) (world : ω) : State ω where
  cursor := ⟨input, 0⟩
  nextReference := 1
  graph := ⟨fun _ => none, fun _ => .scalar .null, [], [], [], world⟩
  opened := []

/-- The parser on a whole input with cells for the slots in `targets`. -/
def parse (env : Environment ω) (allowed : AllowedClasses) (targets : List Nat)
    (input : List UInt8) (world : ω) : EStateM.Result Stop (State ω) Val :=
  valueMode env allowed (targets ≠ []) targets (input.length + 1) (.start input world)

end Rphp.Stdlib.Unserialize
