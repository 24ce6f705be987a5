import Mathlib.Data.List.Sort
import Rphp.Machine
import Rphp.Lib.Assoc

namespace Rphp.Scheduler
set_option autoImplicit true

/-- How a call ends that returns no value: with an error for its caller, or in a panic. -/
inductive Abort where
  | error (e : VmError)
  | panicked
deriving DecidableEq, Repr

def osError (operation error : String) : VmError :=
  .fatal s!"failed to {operation}: {error}"

inductive IoDirection where
  | readable
  | writable
deriving DecidableEq, Repr

structure IoReady where
  task : Nat
  descriptor : Nat
  direction : IoDirection
deriving DecidableEq, Repr

inductive ByteStream where
  | unix
  | tcp
deriving DecidableEq, Repr

inductive Descriptor where
  | stream (s : ByteStream)
  | listener
  | datagram
  | resolverWake
deriving DecidableEq, Repr

structure DescriptorState where
  descriptor : Descriptor
  readers : List Nat := []
  writers : List Nat := []
  readerInFlight : Bool := false
  writerInFlight : Bool := false
deriving DecidableEq, Repr

namespace DescriptorState

def new (descriptor : Descriptor) : DescriptorState := { descriptor }

def queue (s : DescriptorState) : IoDirection → List Nat
  | .readable => s.readers
  | .writable => s.writers

def inFlight (s : DescriptorState) : IoDirection → Bool
  | .readable => s.readerInFlight
  | .writable => s.writerInFlight

def setQueue (s : DescriptorState) (queue : List Nat) : IoDirection → DescriptorState
  | .readable => { s with readers := queue }
  | .writable => { s with writers := queue }

def setInFlight (s : DescriptorState) (flag : Bool) : IoDirection → DescriptorState
  | .readable => { s with readerInFlight := flag }
  | .writable => { s with writerInFlight := flag }

/-- The requested poll events: a direction with a waiter and nothing in flight. -/
def events (s : DescriptorState) (direction : IoDirection) : Bool :=
  !s.inFlight direction && !(s.queue direction).isEmpty

@[simp] theorem new_queue (kind : Descriptor) : (new kind).queue direction = [] := by
  cases direction <;> rfl

@[simp] theorem new_inFlight (kind : Descriptor) : (new kind).inFlight direction = false := by
  cases direction <;> rfl

@[simp] theorem setQueue_queue (s : DescriptorState) (q : List Nat) :
    (s.setQueue q direction).queue other = if other = direction then q else s.queue other := by
  cases direction <;> cases other <;> rfl

@[simp] theorem setQueue_inFlight (s : DescriptorState) (q : List Nat) :
    (s.setQueue q direction).inFlight other = s.inFlight other := by
  cases direction <;> cases other <;> rfl

@[simp] theorem setInFlight_queue (s : DescriptorState) (flag : Bool) :
    (s.setInFlight flag direction).queue other = s.queue other := by
  cases direction <;> cases other <;> rfl

@[simp] theorem setInFlight_inFlight (s : DescriptorState) (flag : Bool) :
    (s.setInFlight flag direction).inFlight other =
      if other = direction then flag else s.inFlight other := by
  cases direction <;> cases other <;> rfl

end DescriptorState

/-- The continuation of a task whose connection is still being established. -/
structure ConnectWaiter (A : Type) where
  task : Nat
  frame : Nat
  returnValue : Nat
  remaining : List A
deriving DecidableEq, Repr

structure IoSet (A : Type) where
  nextId : Nat := 1
  descriptors : AList (fun _ : Nat => DescriptorState) := ∅
  connectWaiters : AList (fun _ : Nat => ConnectWaiter A) := ∅
  inFlight : AList (fun _ : Nat => Nat × IoDirection) := ∅

/-- The event bits the operating system reports for one descriptor. -/
structure Revents where
  readable : Bool := false
  writable : Bool := false
  terminal : Bool := false
deriving DecidableEq, Repr

/-- A terminal event counts for both directions, whichever was requested. -/
def Revents.reports (r : Revents) : IoDirection → Bool
  | .readable => r.readable || r.terminal
  | .writable => r.writable || r.terminal

/-- What one call of `poll` answers; the events are listed by descriptor. -/
inductive PollAnswer where
  | interrupted
  | failed (error : String)
  | reported (revents : Nat → Revents)

/-- What opening a socket and starting to connect it comes to. -/
inductive ConnectStart where
  | connected
  | inProgress
  | failed (e : VmError)
deriving DecidableEq, Repr

/-- What inspecting the socket of a pending connection shows. -/
inductive ConnectProbe where
  | connected
  | pending
  | failed (operation error : String)
deriving DecidableEq, Repr

inductive ConnectOutcome where
  | connected (descriptor : Nat)
  | inProgress (descriptor : Nat)
deriving DecidableEq, Repr

inductive ConnectCompletion (A : Type) where
  | connected (waiter : ConnectWaiter A)
  | pending
  | failed (waiter : ConnectWaiter A) (error : VmError)
deriving DecidableEq, Repr

/-- The pseudo task that stands for the resolver in the readiness queues. -/
def resolverWakeTask : Nat := 18446744073709551615

namespace IoSet

def hasWaiters (s : IoSet A) : Bool :=
  s.descriptors.entries.any fun e => !e.2.readers.isEmpty || !e.2.writers.isEmpty

def allocateId : EStateM Abort (IoSet A) Nat := fun s =>
  if (s.nextId : Int) > i64Max then
    .error (.error (.fatal "coroutine descriptor identifier space exhausted")) s
  else
    .ok s.nextId { s with nextId := s.nextId + 1 }

def insertDescriptor (id : Nat) (descriptor : Descriptor) : EStateM Abort (IoSet A) Unit :=
  modify fun s => { s with descriptors := s.descriptors.insert id (.new descriptor) }

/-- Store a socket that the operating system has already opened. -/
def register (descriptor : Descriptor) : EStateM Abort (IoSet A) Nat := do
  let id ← allocateId
  insertDescriptor id descriptor
  return id

def createPair : EStateM Abort (IoSet A) (Nat × Nat) := do
  let first ← allocateId
  let second ← allocateId
  insertDescriptor first (.stream .unix)
  insertDescriptor second (.stream .unix)
  return (first, second)

def createTcpListener : EStateM Abort (IoSet A) Nat := register .listener

def createUdpSocket : EStateM Abort (IoSet A) Nat := register .datagram

def registerResolverWake : EStateM Abort (IoSet A) Nat := register .resolverWake

def unknownDescriptor (descriptor : Nat) : Abort :=
  .error (.fatal s!"unknown coroutine descriptor {descriptor}")

/-- Accept a connection that is present; without one the listener is only checked. -/
def accept (listener : Nat) (present : Bool) : EStateM Abort (IoSet A) (Option Nat) := fun s =>
  match s.descriptors.lookup listener with
  | none => .error (unknownDescriptor listener) s
  | some state =>
    if state.descriptor = .listener then
      if present then (some <$> register (.stream .tcp)) s else .ok none s
    else
      .error (.error (.fatal s!"coroutine descriptor {listener} is not a TCP listener")) s

def ensureWaitable (descriptor : Nat) (direction : IoDirection) :
    EStateM Abort (IoSet A) Unit := fun s =>
  match s.descriptors.lookup descriptor with
  | none => .error (unknownDescriptor descriptor) s
  | some state =>
    if direction = .writable ∧ state.descriptor = .listener then
      .error (.error (.fatal
        s!"coroutine TCP listener {descriptor} does not support writable readiness")) s
    else
      .ok () s

def enqueueWaiter (descriptor task : Nat) (direction : IoDirection) :
    EStateM Abort (IoSet A) Unit := fun s =>
  match s.descriptors.lookup descriptor with
  | none => .error .panicked s
  | some state =>
    .ok () { s with
      descriptors :=
        s.descriptors.insert descriptor
          (state.setQueue (state.queue direction ++ [task]) direction) }

def acknowledgeReady (task : Nat) : EStateM Abort (IoSet A) Unit := fun s =>
  match s.inFlight.lookup task with
  | none => .ok () s
  | some (stream, direction) =>
    let s := { s with inFlight := s.inFlight.erase task }
    match s.descriptors.lookup stream with
    | none => .error .panicked s
    | some state =>
      if state.inFlight direction then
        .ok () { s with
          descriptors := s.descriptors.insert stream (state.setInFlight false direction) }
      else
        .error .panicked s

/-- The descriptors handed to `poll`, in the order of their identifiers. -/
def pollStreams (s : IoSet A) : List Nat :=
  (s.descriptors.keys.insertionSort (· ≤ ·)).filter fun id =>
    match s.descriptors.lookup id with
    | some state => state.events .readable || state.events .writable
    | none => false

/-- Move the first waiter of one direction in flight. -/
def takeReady (descriptor : Nat) (direction : IoDirection) :
    EStateM Abort (IoSet A) (List IoReady) := fun s =>
  match s.descriptors.lookup descriptor with
  | none => .error .panicked s
  | some state =>
    match state.queue direction with
    | [] => .ok [] s
    | task :: rest =>
      if state.inFlight direction then .error .panicked s
      else if (s.inFlight.lookup task).isSome then .error .panicked s
      else
        .ok [⟨task, descriptor, direction⟩] { s with
          descriptors :=
            s.descriptors.insert descriptor
              ((state.setQueue rest direction).setInFlight true direction)
          inFlight := s.inFlight.insert task (descriptor, direction) }

def takeReported (revents : Revents) (descriptor : Nat) (direction : IoDirection) :
    EStateM Abort (IoSet A) (List IoReady) :=
  if revents.reports direction then takeReady descriptor direction else pure []

def collectReady (revents : Nat → Revents) : List Nat → EStateM Abort (IoSet A) (List IoReady)
  | [] => pure []
  | descriptor :: rest => do
    let readers ← takeReported (revents descriptor) descriptor .readable
    let writers ← takeReported (revents descriptor) descriptor .writable
    let later ← collectReady revents rest
    return readers ++ writers ++ later

def pollReady (answer : PollAnswer) : EStateM Abort (IoSet A) (List IoReady) := fun s =>
  if s.pollStreams = [] then .ok [] s
  else
    match answer with
    | .interrupted => .ok [] s
    | .failed error => .error (.error (osError "poll coroutine streams" error)) s
    | .reported revents => collectReady revents s.pollStreams s

def createTcpConnection (start : ConnectStart) : EStateM Abort (IoSet A) ConnectOutcome :=
  match start with
  | .failed e => throw (.error e)
  | .connected => .connected <$> register (.stream .tcp)
  | .inProgress => .inProgress <$> register (.stream .tcp)

def enqueueTcpConnectWaiter (descriptor : Nat) (waiter : ConnectWaiter A) :
    EStateM Abort (IoSet A) Unit := fun s =>
  if (s.connectWaiters.lookup descriptor).isSome then .error .panicked s
  else
    enqueueWaiter descriptor waiter.task .writable
      { s with connectWaiters := s.connectWaiters.insert descriptor waiter }

def connectWaiter (descriptor task : Nat) : EStateM Abort (IoSet A) (ConnectWaiter A) := fun s =>
  match s.connectWaiters.lookup descriptor with
  | none =>
    .error (.error (.fatal
      s!"coroutine TCP connection {descriptor} has no pending continuation")) s
  | some waiter =>
    if waiter.task = task then .ok waiter s
    else
      .error (.error (.fatal
        s!"coroutine TCP connection {descriptor} belongs to task {waiter.task}, not {task}")) s

def finishTcpConnection (s : IoSet A) (descriptor : Nat) (probe : ConnectProbe) :
    Except VmError Bool :=
  match s.descriptors.lookup descriptor with
  | none => .error (.fatal s!"unknown coroutine TCP connection {descriptor}")
  | some state =>
    if state.descriptor = .stream .tcp then
      match probe with
      | .connected => .ok true
      | .pending => .ok false
      | .failed operation error => .error (osError operation error)
    else
      .error (.fatal s!"coroutine descriptor {descriptor} is not a TCP connection")

/-- Give up a pending connection; its descriptor goes with it. -/
def cancelTcpConnect (descriptor task : Nat) : EStateM Abort (IoSet A) Unit := fun s =>
  if (s.connectWaiters.lookup descriptor).all fun waiter => waiter.task = task then
    .ok () { s with
      connectWaiters := s.connectWaiters.erase descriptor
      inFlight := s.inFlight.erase task
      descriptors := s.descriptors.erase descriptor }
  else
    .error .panicked s

def completeTcpConnect (descriptor task : Nat) (probe : ConnectProbe) :
    EStateM Abort (IoSet A) (ConnectCompletion A) := do
  let waiter ← connectWaiter descriptor task
  match finishTcpConnection (← get) descriptor probe with
  | .ok true =>
    modify fun s => { s with connectWaiters := s.connectWaiters.erase descriptor }
    return .connected waiter
  | .ok false =>
    acknowledgeReady task
    enqueueWaiter descriptor task .writable
    return .pending
  | .error e =>
    cancelTcpConnect descriptor task
    return .failed waiter e

def armResolverWake (descriptor : Nat) : EStateM Abort (IoSet A) Unit := fun s =>
  if (s.inFlight.lookup resolverWakeTask).isSome then .ok () s
  else
    match s.descriptors.lookup descriptor with
    | none => .error .panicked s
    | some state =>
      if resolverWakeTask ∈ state.readers then .ok () s
      else
        .ok () { s with
          descriptors :=
            s.descriptors.insert descriptor
              (state.setQueue (state.readers ++ [resolverWakeTask]) .readable) }

def disarmResolverWake (descriptor : Nat) : EStateM Abort (IoSet A) Unit := fun s =>
  match s.descriptors.lookup descriptor with
  | none => .error .panicked s
  | some state =>
    let state := state.setQueue (state.readers.filter (· ≠ resolverWakeTask)) .readable
    .ok () { s with
      descriptors :=
        s.descriptors.insert descriptor
          (if (s.inFlight.lookup resolverWakeTask).isSome then state.setInFlight false .readable
          else state)
      inFlight := s.inFlight.erase resolverWakeTask }

/-- Read the wake stream empty; `failure` is the error the last read met, if any. -/
def drainResolverWake (descriptor : Nat) (failure : Option String) :
    EStateM Abort (IoSet A) Unit := fun s =>
  match s.descriptors.lookup descriptor with
  | none => .error .panicked s
  | some state =>
    if state.descriptor = .resolverWake then
      match failure with
      | none => .ok () s
      | some error =>
        .error (.error (osError "drain coroutine resolver wake stream" error)) s
    else
      .error (.error (.fatal "coroutine resolver wake descriptor has inconsistent type")) s

end IoSet

inductive CoroutineStatus where
  | created
  | ready
  | running
  | suspended
  | waiting
  | completed
  | failed
  | joined
  | cancelled
deriving DecidableEq, Repr

namespace CoroutineStatus

def text : CoroutineStatus → String
  | created => "Created"
  | ready => "Ready"
  | running => "Running"
  | suspended => "Suspended"
  | waiting => "Waiting"
  | completed => "Completed"
  | failed => "Failed"
  | joined => "Joined"
  | cancelled => "Cancelled"

def runnable (status : CoroutineStatus) : Bool := status = created ∨ status = ready

end CoroutineStatus

inductive WaitReason where
  | channelSend (channel : Nat)
  | channelReceive (channel : Nat)
  | timer
  | ioRead (descriptor : Nat)
  | ioWrite (descriptor : Nat)
  | tcpConnect (descriptor : Nat)
  | dnsResolve (job : Nat)
deriving DecidableEq, Repr

/-- The reason of a task that waits for a descriptor. -/
def WaitReason.ofDirection (descriptor : Nat) : IoDirection → WaitReason
  | .readable => .ioRead descriptor
  | .writable => .ioWrite descriptor

structure CoroutineContext where
  status : CoroutineStatus := .created
  waitReason : Option WaitReason := none
deriving DecidableEq, Repr

structure Timer where
  deadline : Nat
  sequence : Nat
  task : Nat
deriving DecidableEq, Repr

/-- Deadlines first; timers of one deadline keep the order in which they were scheduled. -/
def Timer.Before (a b : Timer) : Prop :=
  a.deadline < b.deadline ∨ a.deadline = b.deadline ∧
    (a.sequence < b.sequence ∨ a.sequence = b.sequence ∧ a.task ≤ b.task)

instance (a b : Timer) : Decidable (a.Before b) :=
  inferInstanceAs (Decidable (_ ∨ _ ∧ (_ ∨ _ ∧ _)))

/-- The queue of runnable tasks and the timer heap, kept in the order of removal. -/
structure Readiness where
  ready : List Nat := []
  timers : List Timer := []
  nextTimerSequence : Nat := 0
deriving DecidableEq, Repr

namespace Readiness

def enqueue (r : Readiness) (task : Nat) : Readiness := { r with ready := r.ready ++ [task] }

def removeReady (r : Readiness) (task : Nat) : Readiness := { r with ready := r.ready.erase task }

/-- Timer sequence numbers are 64 bits wide. -/
def scheduleTimer (r : Readiness) (task deadline : Nat) : Except Abort Readiness :=
  if r.nextTimerSequence < usizeMax then
    .ok { r with
      timers := r.timers.orderedInsert Timer.Before ⟨deadline, r.nextTimerSequence, task⟩
      nextTimerSequence := r.nextTimerSequence + 1 }
  else
    .error .panicked

def cancelTimer (r : Readiness) (task : Nat) : Readiness :=
  { r with timers := r.timers.filter fun timer => timer.task ≠ task }

/-- The tasks whose deadline has passed, in heap order, and what remains. -/
def drainDue (r : Readiness) (now : Nat) : List Nat × Readiness :=
  ((r.timers.takeWhile fun timer => timer.deadline ≤ now).map Timer.task,
    { r with timers := r.timers.dropWhile fun timer => timer.deadline ≤ now })

def nextDeadline (r : Readiness) : Option Nat := r.timers.head?.map Timer.deadline

end Readiness

/-- A task parked until its host name is resolved. -/
structure ResolveWaiter where
  task : Nat
  frame : Nat
  returnValue : Nat
deriving DecidableEq, Repr

structure ResolverSet where
  wakeDescriptor : Nat
  nextId : Nat := 1
  waiters : AList (fun _ : Nat => ResolveWaiter) := ∅

namespace ResolverSet

def hasWaiters (r : ResolverSet) : Bool := !r.waiters.keys.isEmpty

/-- Queue one request; `refused` is the error of the worker pool, if it takes no request. -/
def submit (r : ResolverSet) (waiter : ResolveWaiter) (refused : Option VmError) :
    Except Abort (Nat × ResolverSet) :=
  if r.nextId < usizeMax then
    match refused with
    | some e => .error (.error e)
    | none =>
      if (r.waiters.lookup r.nextId).isSome then .error .panicked
      else
        .ok (r.nextId, { r with
          nextId := r.nextId + 1
          waiters := r.waiters.insert r.nextId waiter })
  else
    .error (.error (.fatal "coroutine resolver job space exhausted"))

def takeWaiter (r : ResolverSet) (job : Nat) : Option ResolveWaiter × ResolverSet :=
  (r.waiters.lookup job, { r with waiters := r.waiters.erase job })

def cancel (r : ResolverSet) (job task : Nat) : Except Abort ResolverSet :=
  if (r.waiters.lookup job).all fun waiter => waiter.task = task then
    .ok { r with waiters := r.waiters.erase job }
  else
    .error .panicked

end ResolverSet

end Rphp.Scheduler
