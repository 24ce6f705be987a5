import Rphp.Lib.OrderedMap
import Rphp.Lib.StageFusion
import Rphp.Vm.CallbackPipeline

namespace Rphp.Vm.CallbackPipeline
open Rphp.Lib
set_option autoImplicit true

section Values

/-- A value that a stage passes on; a reference is aliased when another owner shares its cell. -/
inductive Member
  | long (n : I64)
  | reference (aliased : Bool) (target : Member)
  | other (truthy : Bool)
  deriving DecidableEq

namespace Member

def clone : Member → Member
  | .reference _ target => target.clone
  | value => value

def dereferenced : Member → Member
  | .reference _ target => target
  | value => value

def isTruthy : Member → Bool
  | .long n => n.val ≠ 0
  | .reference _ _ => true
  | .other truthy => truthy

def asLong : Member → Option I64
  | .long n => some n
  | _ => none

/-- What a filter puts into its result. -/
def projection : Member → Member
  | .reference true target => .reference true target
  | value => value.clone

end Member

/-- The entries of an array in their order, with distinct keys. -/
structure PhpArray (K : Type) where
  entries : List (K × Member)
  nodup : (keysOf entries).Nodup

namespace PhpArray

def empty : PhpArray K := ⟨[], List.nodup_nil⟩

def values (array : PhpArray K) : List Member := array.entries.map Prod.snd

def len (array : PhpArray K) : Nat := array.entries.length

variable [DecidableEq K]

def set (array : PhpArray K) (key : K) (value : Member) : PhpArray K :=
  ⟨putKey array.entries key value, nodup_putKey array.nodup key value⟩

end PhpArray

/-- A callback of some integers: its plan is a partial function of eight words. -/
structure ScalarLongCallback where
  publicNumArgs : Nat
  plan : List I64 → Option I64

namespace ScalarLongCallback

def evaluateLongs (callback : ScalarLongCallback) (arguments : List I64) : Option I64 :=
  if arguments.length ≠ callback.publicNumArgs then none
  else callback.plan (arguments ++ List.replicate (8 - arguments.length) I64.zero)

/-- A call with values, which is a call with integers or none at all. -/
def call (callback : ScalarLongCallback) (arguments : List Member) : Option Member := do
  let longs ← arguments.mapM Member.asLong
  (callback.evaluateLongs longs).map .long

end ScalarLongCallback

/-- The numbers of calls recorded for the callbacks. -/
structure Calls where
  map : Nat
  filter : Nat
  reduce : Nat
  deriving DecidableEq, Repr

structure PreparedCallbackArrayPipeline (K : Type) where
  source : PhpArray K
  mapCallback : ScalarLongCallback
  filterCallback : ScalarLongCallback
  reduceCallback : ScalarLongCallback
  initial : I64

end Values

section Streaming

/-- One member: the next carry and whether the member was kept. -/
def streamMember (filterFirst : Bool) (prepared : PreparedCallbackArrayPipeline K) (carry : I64) :
    Member → Option (I64 × Bool)
  | .long input =>
    if filterFirst then do
      let keep ← prepared.filterCallback.evaluateLongs [input]
      if keep.val ≠ 0 then
        let mapped ← prepared.mapCallback.evaluateLongs [input]
        let carry ← prepared.reduceCallback.evaluateLongs [carry, mapped]
        some (carry, true)
      else some (carry, false)
    else do
      let mapped ← prepared.mapCallback.evaluateLongs [input]
      let keep ← prepared.filterCallback.evaluateLongs [mapped]
      if keep.val ≠ 0 then
        let carry ← prepared.reduceCallback.evaluateLongs [carry, mapped]
        some (carry, true)
      else some (carry, false)
  | _ => none

/-- The loop over the members; `interrupt` says what handling an interrupt at an index comes to. -/
def streamMembers (filterFirst : Bool) (interrupt : Nat → Except VmError Unit)
    (prepared : PreparedCallbackArrayPipeline K) :
    Nat → List Member → I64 → Nat → Except VmError (Option (I64 × Nat))
  | _, [], carry, retained => .ok (some (carry, retained))
  | index, value :: values, carry, retained => do
    if index &&& 255 = 0 then interrupt index
    match streamMember filterFirst prepared carry value with
    | none => .ok none
    | some (carry, kept) =>
      streamMembers filterFirst interrupt prepared (index + 1) values carry
        (if kept then retained + 1 else retained)

def evaluateCallbackArrayPipeline (filterFirst : Bool) (interrupt : Nat → Except VmError Unit)
    (prepared : PreparedCallbackArrayPipeline K) : Except VmError (Option (I64 × Calls)) := do
  match ← streamMembers filterFirst interrupt prepared 0 prepared.source.values prepared.initial 0 with
  | none => .ok none
  | some (carry, retained) =>
    let memberCount := prepared.source.len
    if filterFirst then .ok (some (carry, ⟨retained, memberCount, retained⟩))
    else .ok (some (carry, ⟨memberCount, memberCount, retained⟩))

end Streaming

section Stages

variable [DecidableEq K]

def arrayMapFrom (callback : ScalarLongCallback) :
    List (K × Member) → PhpArray K → Nat → Option (PhpArray K × Nat)
  | [], result, calls => some (result, calls)
  | (key, value) :: entries, result, calls => do
    let mapped ← callback.call [value.dereferenced.clone]
    arrayMapFrom callback entries (result.set key mapped) (calls + 1)

def arrayMap (callback : ScalarLongCallback) (array : PhpArray K) : Option (PhpArray K × Nat) :=
  arrayMapFrom callback array.entries .empty 0

def arrayFilterFrom (callback : ScalarLongCallback) :
    List (K × Member) → PhpArray K → Nat → Option (PhpArray K × Nat)
  | [], result, calls => some (result, calls)
  | (key, value) :: entries, result, calls => do
    let accepted ← callback.call [value.dereferenced.clone]
    arrayFilterFrom callback entries
      (if accepted.isTruthy then result.set key value.projection else result) (calls + 1)

def arrayFilter (callback : ScalarLongCallback) (array : PhpArray K) : Option (PhpArray K × Nat) :=
  arrayFilterFrom callback array.entries .empty 0

def arrayReduceFrom (callback : ScalarLongCallback) :
    List Member → Member → Nat → Option (Member × Nat)
  | [], carry, calls => some (carry, calls)
  | item :: items, carry, calls => do
    arrayReduceFrom callback items (← callback.call [carry, item]) (calls + 1)

def arrayReduce (callback : ScalarLongCallback) (array : PhpArray K) (initial : Member) :
    Option (Member × Nat) :=
  arrayReduceFrom callback (array.values.map Member.clone) initial 0

/-- The three calls of a script one after the other, with the calls that each makes. -/
def stagedEvaluation (order : CallbackArrayPipelineOrder)
    (prepared : PreparedCallbackArrayPipeline K) : Option (Member × Calls) :=
  match order with
  | .mapFilter => do
    let (mapped, mapCalls) ← arrayMap prepared.mapCallback prepared.source
    let (filtered, filterCalls) ← arrayFilter prepared.filterCallback mapped
    let (carry, reduceCalls) ←
      arrayReduce prepared.reduceCallback filtered (.long prepared.initial)
    some (carry, ⟨mapCalls, filterCalls, reduceCalls⟩)
  | .filterMap => do
    let (filtered, filterCalls) ← arrayFilter prepared.filterCallback prepared.source
    let (mapped, mapCalls) ← arrayMap prepared.mapCallback filtered
    let (carry, reduceCalls) ← arrayReduce prepared.reduceCallback mapped (.long prepared.initial)
    some (carry, ⟨mapCalls, filterCalls, reduceCalls⟩)

end Stages

end Rphp.Vm.CallbackPipeline
