import Rphp.Heap.Region
import Rphp.Lib.Run

namespace Rphp.Heap
set_option autoImplicit true

open Rphp.Lib

def stackVersion : Usize := 1 <<< 24

/-- A lock-free stack: its head packs the top entry's index with a version. -/
structure PageStack where
  head : Usize
  count : Usize
deriving DecidableEq, Repr

/-- The head that replaces `head` with a top index; the version part moves on. -/
def PageStack.successor (head index : Usize) : Usize :=
  ((head &&& ~~~stackIndexMask) + stackVersion) ||| (index &&& stackIndexMask)

/-- Where a call stands, with the values that it has read so far. -/
inductive Point where
  | pushCount (entry : Usize)
  | pushLoad (entry : Usize)
  | pushLink (entry head : Usize)
  | pushSwap (entry head : Usize)
  | popLoad
  | popRead (head : Usize)
  | popSwap (head next : Usize)
  | popCount (entry : Usize)
deriving DecidableEq, Repr

/-- A call in flight, with the number of updates that its stack had seen when it began. -/
structure Call (σ : Type) where
  stack : σ
  began : Nat
  point : Point

/-- The calls that returned, in the order of their last step. -/
inductive Event (σ : Type) where
  | pushed (stack : σ) (entry : Usize)
  | popped (stack : σ) (entry : Usize)
deriving DecidableEq

/-- The stacks, the link words they share, and the calls of every thread. Of the last three
fields, `owned` says which entries a caller owns, and the other two only record the run. -/
structure Shared (τ σ : Type) where
  stackAt : σ → PageStack
  link : Usize → Usize
  calls : τ → Option (Call σ)
  owned : Usize → Bool
  updates : σ → Nat
  log : List (Event σ)

/-- One atomic step: a call begins, or a thread's call takes its next step, where a weak
compare-exchange may also fail without cause. -/
inductive Action (τ σ : Type) where
  | push (thread : τ) (stack : σ) (entry : Usize)
  | pop (thread : τ) (stack : σ)
  | advance (thread : τ)
  | fail (thread : τ)

/-- The addresses that an index of a stack can name. -/
def Range.IsEntry (r : Range) (entry : Usize) : Prop :=
  r.stackIndex entry ≠ 0 ∧ r.stackIndex entry &&& stackIndexMask = r.stackIndex entry ∧
    r.stackEntry (r.stackIndex entry) = entry

instance (r : Range) : DecidablePred r.IsEntry := fun _ => inferInstanceAs (Decidable (_ ∧ _))

namespace Shared

variable [DecidableEq τ] [DecidableEq σ]

def setCall (m : Shared τ σ) (t : τ) (call : Option (Call σ)) : Shared τ σ :=
  { m with calls := Function.update m.calls t call }

def moveTo (m : Shared τ σ) (t : τ) (call : Call σ) (point : Point) : Shared τ σ :=
  m.setCall t (some { call with point := point })

def setStack (m : Shared τ σ) (s : σ) (stack : PageStack) : Shared τ σ :=
  { m with stackAt := Function.update m.stackAt s stack }

def setLink (m : Shared τ σ) (entry value : Usize) : Shared τ σ :=
  { m with link := Function.update m.link entry value }

def setOwned (m : Shared τ σ) (entry : Usize) (owned : Bool) : Shared τ σ :=
  { m with owned := Function.update m.owned entry owned }

/-- A successful compare-exchange of a head. -/
def swapHead (m : Shared τ σ) (s : σ) (head : Usize) : Shared τ σ :=
  { m.setStack s { m.stackAt s with head := head } with
    updates := Function.update m.updates s (m.updates s + 1) }

def record (m : Shared τ σ) (event : Event σ) : Shared τ σ := { m with log := m.log ++ [event] }

/-- The next step of a call. -/
def advance (r : Range) (m : Shared τ σ) (t : τ) (call : Call σ) : Shared τ σ :=
  let stack := m.stackAt call.stack
  match call.point with
  | .pushCount entry =>
    (m.setStack call.stack { stack with count := stack.count + 1 }).moveTo t call (.pushLoad entry)
  | .pushLoad entry => m.moveTo t call (.pushLink entry stack.head)
  | .pushLink entry head =>
    (m.setLink entry (head &&& stackIndexMask)).moveTo t call (.pushSwap entry head)
  | .pushSwap entry head =>
    if stack.head = head then
      ((m.swapHead call.stack (PageStack.successor head (r.stackIndex entry))).record
        (.pushed call.stack entry)).setCall t none
    else m.moveTo t call (.pushLink entry stack.head)
  | .popLoad => m.moveTo t call (.popRead stack.head)
  | .popRead head =>
    if head &&& stackIndexMask = 0 then m.setCall t none
    else m.moveTo t call (.popSwap head (m.link (r.stackEntry (head &&& stackIndexMask))))
  | .popSwap head next =>
    if stack.head = head then
      (m.swapHead call.stack (PageStack.successor head next)).moveTo t call
        (.popCount (r.stackEntry (head &&& stackIndexMask)))
    else m.moveTo t call (.popRead stack.head)
  | .popCount entry =>
    (((m.setStack call.stack { stack with count := stack.count - 1 }).setOwned entry true).record
      (.popped call.stack entry)).setCall t none

/-- A weak compare-exchange that fails although the head is unchanged. -/
def failSwap (m : Shared τ σ) (t : τ) (call : Call σ) : Option (Shared τ σ) :=
  match call.point with
  | .pushSwap entry _ => some (m.moveTo t call (.pushLink entry (m.stackAt call.stack).head))
  | .popSwap _ _ => some (m.moveTo t call (.popRead (m.stackAt call.stack).head))
  | _ => none

/-- Steps of the whole system. A push needs an entry that its caller owns, which is its safety
contract. -/
def step (r : Range) (m : Shared τ σ) : Action τ σ → Option (Shared τ σ)
  | .push t s entry =>
    if (m.calls t).isNone ∧ m.owned entry = true ∧ r.IsEntry entry then
      some ((m.setOwned entry false).setCall t (some ⟨s, m.updates s, .pushCount entry⟩))
    else none
  | .pop t s =>
    if (m.calls t).isNone then some (m.setCall t (some ⟨s, m.updates s, .popLoad⟩)) else none
  | .advance t => (m.calls t).map (m.advance r t)
  | .fail t => (m.calls t).bind (m.failSwap t)

/-- Empty stacks, no calls, and every entry owned by a caller. -/
def initial (link : Usize → Usize) : Shared τ σ :=
  ⟨fun _ => ⟨0, 0⟩, link, fun _ => none, fun _ => true, fun _ => 0, []⟩

/-- No version field has wrapped since a call in flight began. -/
def Unwrapped (m : Shared τ σ) : Prop :=
  ∀ t, ∀ call ∈ m.calls t, m.updates call.stack < call.began + 2 ^ 40

/-- No call is in flight. -/
def Quiescent (m : Shared τ σ) : Prop := ∀ t, m.calls t = none

end Shared

/-- The entries reachable from an index along the links, ending at index zero. -/
def Chain (r : Range) (link : Usize → Usize) : Usize → List Usize → Prop
  | index, [] => index = 0
  | index, entry :: rest => index ≠ 0 ∧ index &&& stackIndexMask = index ∧
    r.stackEntry index = entry ∧ Chain r link (link entry) rest

end Rphp.Heap
