import Rphp.Scheduler.Channel
import Rphp.Scheduler.IoSet

namespace Rphp.Scheduler
set_option autoImplicit true

structure CoroutineScheduler (V A : Type) where
  nextId : Nat := 1
  active : Option Nat := none
  contexts : List CoroutineContext := []
  channels : ChannelSet V := .empty
  readiness : Readiness := {}
  io : IoSet A := {}
  resolver : Option ResolverSet := none

/-- How a scheduler call ends without a value. The two consistency checks on a waiting task
stand apart from every other error. -/
inductive Halt where
  | abort (a : Abort)
  | inconsistentReadiness (task : Nat)
  | inconsistentTransition (task : Nat)
deriving DecidableEq, Repr

def Halt.fatal (message : String) : Halt := .abort (.error (.fatal message))

/-- The error the caller receives; a panic is none. -/
def Halt.error? : Halt → Option VmError
  | .abort (.error e) => some e
  | .abort .panicked => none
  | .inconsistentReadiness task =>
    some (.fatal s!"coroutine {task} has inconsistent readiness state")
  | .inconsistentTransition task =>
    some (.fatal s!"coroutine {task} has inconsistent wait transition")

/-- What the operating system and the resolver workers answer during one readiness pass. -/
structure IoAnswers (A : Type) where
  poll : PollAnswer
  probe : Nat → ConnectProbe
  start : Nat → A → List A → ConnectStart
  drainFailure : Option String
  completions : List (Nat × Except String (List A))

/-- The time limit of a connect: none, a deadline, or one beyond the clock. -/
inductive Timeout where
  | unlimited
  | before (deadline : Nat)
  | tooLarge
deriving DecidableEq, Repr

/-- What one pass through the scheduling loop comes to. -/
inductive Turn where
  | runnable (task : Nat)
  | again
  | idle
deriving DecidableEq, Repr

inductive SuspendKind where
  | manual
  | waiting
deriving DecidableEq, Repr

namespace CoroutineScheduler

def context? (s : CoroutineScheduler V A) (id : Nat) : Option CoroutineContext :=
  if id = 0 then none else s.contexts[id - 1]?

def setContext (s : CoroutineScheduler V A) (id : Nat) (c : CoroutineContext) :
    CoroutineScheduler V A :=
  { s with contexts := s.contexts.set (id - 1) c }

def onIo (x : EStateM Abort (IoSet A) α) : EStateM Halt (CoroutineScheduler V A) α := fun s =>
  match x s.io with
  | .ok a io => .ok a { s with io := io }
  | .error e io => .error (.abort e) { s with io := io }

def fatal (message : String) : EStateM Halt (CoroutineScheduler V A) α := throw (.fatal message)

def unknownCoroutine (id : Nat) : Halt := .fatal s!"unknown coroutine {id}"

def contextPtr (id : Nat) : EStateM Halt (CoroutineScheduler V A) CoroutineContext := fun s =>
  match s.context? id with
  | none => .error (unknownCoroutine id) s
  | some c => .ok c s

def spawn : EStateM Halt (CoroutineScheduler V A) Nat := fun s =>
  if (s.nextId : Int) > i64Max then
    .error (.fatal "coroutine identifier space exhausted") s
  else
    .ok s.nextId { s with
      nextId := s.nextId + 1
      contexts := s.contexts ++ [{}]
      readiness := s.readiness.enqueue s.nextId }

def activeTask (operation : String) : EStateM Halt (CoroutineScheduler V A) Nat := fun s =>
  match s.active with
  | some task => .ok task s
  | none => .error (.fatal s!"{operation} can only be called by a running child") s

def blockTask (task : Nat) (reason : WaitReason) : EStateM Halt (CoroutineScheduler V A) Unit :=
  fun s =>
    match s.context? task with
    | none => .error (unknownCoroutine task) s
    | some c =>
      if c.status ≠ .running ∨ c.waitReason.isSome then
        .error (.fatal s!"coroutine {task} cannot enter wait state from {c.status.text}") s
      else
        .ok () (s.setContext task { c with waitReason := some reason })

def blockActive (reason : WaitReason) : EStateM Halt (CoroutineScheduler V A) Unit := do
  let task ← activeTask "coroutine wait"
  blockTask task reason

def wakeTask (task : Nat) (expected : WaitReason) : EStateM Halt (CoroutineScheduler V A) Unit :=
  fun s =>
    match s.context? task with
    | none => .error (unknownCoroutine task) s
    | some c =>
      if c.status ≠ .waiting ∨ c.waitReason ≠ some expected then
        .error (.inconsistentReadiness task) s
      else
        .ok () { s.setContext task ⟨.ready, none⟩ with readiness := s.readiness.enqueue task }

def replaceWaitReason (task : Nat) (expected replacement : WaitReason) :
    EStateM Halt (CoroutineScheduler V A) Unit := fun s =>
  match s.context? task with
  | none => .error (unknownCoroutine task) s
  | some c =>
    if c.status ≠ .waiting ∨ c.waitReason ≠ some expected then
      .error (.inconsistentTransition task) s
    else
      .ok () (s.setContext task { c with waitReason := some replacement })

def scheduleTimer (task deadline : Nat) : EStateM Halt (CoroutineScheduler V A) Unit := fun s =>
  match s.readiness.scheduleTimer task deadline with
  | .ok readiness => .ok () { s with readiness := readiness }
  | .error e => .error (.abort e) s

def cancelTimer (task : Nat) : EStateM Halt (CoroutineScheduler V A) Unit :=
  modify fun s => { s with readiness := s.readiness.cancelTimer task }

/-- The tail of a resumption whose child asked to be suspended. -/
def suspendActive (kind : SuspendKind) : EStateM Halt (CoroutineScheduler V A) Unit := fun s =>
  match s.active.bind fun task => (s.context? task).map fun c => (task, c) with
  | none => .error (.fatal "coroutine_suspend can only be called by a running child") s
  | some (task, c) =>
    let s := { s with active := none }
    match kind with
    | .manual =>
      if c.waitReason.isSome then .error (.abort .panicked) s
      else .ok () (s.setContext task { c with status := .suspended })
    | .waiting =>
      if c.waitReason.isSome then .ok () (s.setContext task { c with status := .waiting })
      else .error (.abort .panicked) s

/-- The tail of a resumption whose child returned, with or without an exception. -/
def completeActive (failed : Bool) : EStateM Halt (CoroutineScheduler V A) Unit := fun s =>
  match s.active.bind fun task => (s.context? task).map fun c => (task, c) with
  | none => .ok () s
  | some (task, c) =>
    .ok () ({ s with active := none }.setContext task
      { c with status := if failed then .failed else .completed })

def createChannel (capacity : Nat) : EStateM Halt (CoroutineScheduler V A) Nat := fun s =>
  match s.channels.create capacity with
  | .ok (id, channels) => .ok id { s with channels := channels }
  | .error e => .error (.abort (.error e)) s

/-- A sender that finds the buffer full is suspended by the calling function. -/
def send (channel : Nat) (value : V) : EStateM Halt (CoroutineScheduler V A) Unit := do
  let task ← activeTask "coroutine_send"
  let s ← get
  match s.channels.send channel task value with
  | .error e => throw (.abort (.error e))
  | .ok (outcome, channels) =>
    set { s with channels := channels }
    match outcome with
    | .complete => pure ()
    | .blocked => do
      blockTask task (.channelSend channel)
      suspendActive .waiting
    | .wakeReceiver waiter _ => wakeTask waiter.task (.channelReceive channel)

def receive (channel frame returnValue : Nat) : EStateM Halt (CoroutineScheduler V A) Unit := do
  let task ← activeTask "coroutine_receive"
  let s ← get
  match s.channels.receive channel ⟨task, frame, returnValue⟩ with
  | .error e => throw (.abort (.error e))
  | .ok (outcome, channels) =>
    set { s with channels := channels }
    match outcome with
    | .ready _ (some sender) => wakeTask sender (.channelSend channel)
    | .ready _ none => pure ()
    | .blocked => do
      blockTask task (.channelReceive channel)
      suspendActive .waiting

/-- `deadline` is the clock plus the duration, where the clock can represent it. -/
def sleep (deadline : Option Nat) : EStateM Halt (CoroutineScheduler V A) Unit := do
  let task ← activeTask "coroutine_sleep"
  match deadline with
  | none => fatal "coroutine_sleep duration is too large"
  | some deadline =>
    blockActive .timer
    scheduleTimer task deadline
    suspendActive .waiting

def waitDescriptor (descriptor : Nat) (direction : IoDirection) :
    EStateM Halt (CoroutineScheduler V A) Unit := do
  let task ← activeTask (match direction with
    | .readable => "coroutine_wait_readable"
    | .writable => "coroutine_wait_writable")
  onIo (IoSet.ensureWaitable descriptor direction)
  blockActive (.ofDirection descriptor direction)
  onIo (IoSet.enqueueWaiter descriptor task direction)
  suspendActive .waiting

/-- The deadline of a timed wait is scheduled once the task is registered. -/
def scheduleTimeout (task : Nat) : Timeout → EStateM Halt (CoroutineScheduler V A) Unit
  | .before deadline => scheduleTimer task deadline
  | _ => pure ()

def checkTimeout (timeout : Timeout) : EStateM Halt (CoroutineScheduler V A) Unit :=
  if timeout = .tooLarge then fatal "coroutine TCP connect timeout is too large" else pure ()

def connectTcp (timeout : Timeout) (start : ConnectStart) (frame returnValue : Nat) :
    EStateM Halt (CoroutineScheduler V A) Unit := do
  let task ← activeTask "coroutine_tcp_connect"
  checkTimeout timeout
  match ← onIo (IoSet.createTcpConnection start) with
  | .connected _ => pure ()
  | .inProgress stream => do
    blockActive (.tcpConnect stream)
    onIo (IoSet.enqueueTcpConnectWaiter stream ⟨task, frame, returnValue, []⟩)
    scheduleTimeout task timeout
    suspendActive .waiting

/-- The resolver is set up by its first user; `refused` is why its wake stream failed to open. -/
def ensureResolver (refused : Option VmError) :
    EStateM Halt (CoroutineScheduler V A) ResolverSet := do
  let s ← get
  match s.resolver with
  | some r => return r
  | none =>
    match refused with
    | some e => throw (.abort (.error e))
    | none =>
      let wakeDescriptor ← onIo IoSet.registerResolverWake
      modify fun s => { s with resolver := some { wakeDescriptor } }
      return { wakeDescriptor }

/-- A task that cannot wait takes its request back. -/
def blockResolve (job task : Nat) : EStateM Halt (CoroutineScheduler V A) Unit := fun s =>
  match blockActive (.dnsResolve job) s with
  | .ok a t => .ok a t
  | .error e t =>
    match t.resolver with
    | none => .error (.abort .panicked) t
    | some r =>
      match r.cancel job task with
      | .ok r => .error e { t with resolver := some r }
      | .error a => .error (.abort a) t

def resolveAndConnectTcp (timeout : Timeout) (noResolver refused : Option VmError)
    (frame returnValue : Nat) : EStateM Halt (CoroutineScheduler V A) Unit := do
  let task ← activeTask "coroutine_tcp_connect"
  checkTimeout timeout
  let r ← ensureResolver noResolver
  match r.submit ⟨task, frame, returnValue⟩ refused with
  | .error e => throw (.abort e)
  | .ok (job, r) =>
    modify fun s => { s with resolver := some r }
    blockResolve job task
    onIo (IoSet.armResolverWake r.wakeDescriptor)
    scheduleTimeout task timeout
    suspendActive .waiting

def cancelDnsResolve (job task : Nat) : EStateM Halt (CoroutineScheduler V A) Unit := do
  let s ← get
  match s.resolver with
  | none => pure ()
  | some r =>
    match r.cancel job task with
    | .error e => throw (.abort e)
    | .ok r =>
      set { s with resolver := some r }
      if r.hasWaiters then pure () else onIo (IoSet.disarmResolverWake r.wakeDescriptor)

/-- Try the remaining addresses of a host in turn. -/
def startConnectCandidates (start : A → List A → ConnectStart) (task frame returnValue : Nat)
    (expected : WaitReason) : List A → Option VmError → EStateM Halt (CoroutineScheduler V A) Unit
  | [], lastError => do
    cancelTimer task
    throw (.abort (.error
      (lastError.getD (.fatal "coroutine TCP host resolved to no addresses"))))
  | address :: remaining, _ => fun s =>
    match IoSet.createTcpConnection (start address remaining) s.io with
    | .ok (.connected _) io =>
      (do
        cancelTimer task
        wakeTask task expected) { s with io := io }
    | .ok (.inProgress descriptor) io =>
      (do
        replaceWaitReason task expected (.tcpConnect descriptor)
        onIo (IoSet.enqueueTcpConnectWaiter descriptor
          ⟨task, frame, returnValue, remaining⟩)) { s with io := io }
    | .error (.error e) io =>
      startConnectCandidates start task frame returnValue expected remaining (some e)
        { s with io := io }
    | .error .panicked io => .error (.abort .panicked) { s with io := io }

def promoteTcpConnect (answers : IoAnswers A) (descriptor task : Nat) :
    EStateM Halt (CoroutineScheduler V A) Unit := do
  match ← onIo (IoSet.completeTcpConnect descriptor task (answers.probe descriptor)) with
  | .connected _ => do
    cancelTimer task
    wakeTask task (.tcpConnect descriptor)
  | .pending => pure ()
  | .failed waiter e =>
    startConnectCandidates (answers.start waiter.task) waiter.task waiter.frame
      waiter.returnValue (.tcpConnect descriptor) waiter.remaining (some e)

def takeWaiter (job : Nat) : EStateM Halt (CoroutineScheduler V A) (Option ResolveWaiter) :=
  fun s =>
    match s.resolver with
    | none => .error (.abort .panicked) s
    | some r => .ok (r.takeWaiter job).1 { s with resolver := some (r.takeWaiter job).2 }

def promoteCompletions (answers : IoAnswers A) :
    List (Nat × Except String (List A)) → EStateM Halt (CoroutineScheduler V A) Unit
  | [] => pure ()
  | (job, result) :: rest => do
    match ← takeWaiter job with
    | none => promoteCompletions answers rest
    | some waiter =>
      match result with
      | .ok addresses => do
        startConnectCandidates (answers.start waiter.task) waiter.task waiter.frame
          waiter.returnValue (.dnsResolve job) addresses none
        promoteCompletions answers rest
      | .error e => do
        cancelTimer waiter.task
        fatal s!"failed to resolve coroutine TCP host: {e}"

/-- Arm the wake descriptor again while some task still waits for the resolver. -/
def rearmResolver (descriptor : Nat) : EStateM Halt (CoroutineScheduler V A) Unit := do
  let s ← get
  match s.resolver with
  | none => throw (.abort .panicked)
  | some r =>
    if r.hasWaiters then onIo (IoSet.armResolverWake descriptor) else pure ()

def promoteResolver (answers : IoAnswers A) (descriptor : Nat) :
    EStateM Halt (CoroutineScheduler V A) Unit := do
  let s ← get
  match s.resolver with
  | none => throw (.abort .panicked)
  | some r =>
    if descriptor = r.wakeDescriptor then
      onIo (IoSet.acknowledgeReady resolverWakeTask)
      onIo (IoSet.drainResolverWake descriptor answers.drainFailure)
      promoteCompletions answers answers.completions
      rearmResolver descriptor
    else
      fatal "coroutine resolver signalled an inconsistent wake descriptor"

def promoteEvent (answers : IoAnswers A) (event : IoReady) :
    EStateM Halt (CoroutineScheduler V A) Unit := do
  let s ← get
  if event.task = resolverWakeTask then
    promoteResolver answers event.descriptor
  else if event.direction = .writable ∧
      (s.context? event.task).bind (·.waitReason) = some (.tcpConnect event.descriptor) then
    promoteTcpConnect answers event.descriptor event.task
  else
    wakeTask event.task (.ofDirection event.descriptor event.direction)

def promoteEvents (answers : IoAnswers A) :
    List IoReady → EStateM Halt (CoroutineScheduler V A) Unit
  | [] => pure ()
  | event :: rest => do
    promoteEvent answers event
    promoteEvents answers rest

def promoteIo (answers : IoAnswers A) : EStateM Halt (CoroutineScheduler V A) Unit := do
  let events ← onIo (IoSet.pollReady answers.poll)
  promoteEvents answers events

def timedOut : String := "failed to connect coroutine TCP stream: timed out"

def promoteDueTask (task : Nat) : EStateM Halt (CoroutineScheduler V A) Unit := do
  let s ← get
  match (s.context? task).bind fun c => if c.status = .waiting then c.waitReason else none with
  | some .timer => wakeTask task .timer
  | some (.tcpConnect descriptor) => do
    onIo (IoSet.cancelTcpConnect descriptor task)
    fatal timedOut
  | some (.dnsResolve job) => do
    cancelDnsResolve job task
    fatal timedOut
  | _ => pure ()

def promoteDue : List Nat → EStateM Halt (CoroutineScheduler V A) Unit
  | [] => pure ()
  | task :: rest => do
    promoteDueTask task
    promoteDue rest

def promoteDueTimers (now : Nat) : EStateM Halt (CoroutineScheduler V A) Unit := fun s =>
  promoteDue (s.readiness.drainDue now).1 { s with readiness := (s.readiness.drainDue now).2 }

def isRunnable (s : CoroutineScheduler V A) (task : Nat) : Bool :=
  (s.context? task).any fun c => c.status.runnable

/-- Entries that are no longer runnable are dropped on the way. -/
def popRunnable : EStateM Halt (CoroutineScheduler V A) (Option Nat) := fun s =>
  match s.readiness.ready.dropWhile fun task => !s.isRunnable task with
  | [] => .ok none { s with readiness := { s.readiness with ready := [] } }
  | task :: rest => .ok (some task) { s with readiness := { s.readiness with ready := rest } }

/-- One pass: the clock reading, the first poll, and the poll that waits. -/
structure Round (A : Type) where
  now : Nat
  first : IoAnswers A
  second : IoAnswers A

def nextTurn (round : Round A) : EStateM Halt (CoroutineScheduler V A) Turn := do
  promoteDueTimers round.now
  promoteIo round.first
  match ← popRunnable with
  | some task => return .runnable task
  | none =>
    let s ← get
    if s.io.hasWaiters then
      promoteIo round.second
      return .again
    else
      return if s.readiness.nextDeadline.isSome then .again else .idle

/-- The scheduling loop over the passes it is given; `again` if they are used up. -/
def nextRunnable : List (Round A) → EStateM Halt (CoroutineScheduler V A) Turn
  | [] => return .again
  | round :: rounds => do
    match ← nextTurn round with
    | .again => nextRunnable rounds
    | turn => return turn

def leaveReady (id : Nat) (c : CoroutineContext) : EStateM Halt (CoroutineScheduler V A) Unit :=
  if c.status.runnable then
    modify fun s => { s with readiness := s.readiness.removeReady id }
  else
    pure ()

def acknowledgeWake (id : Nat) (c : CoroutineContext) :
    EStateM Halt (CoroutineScheduler V A) Unit :=
  if c.status = .ready then onIo (IoSet.acknowledgeReady id) else pure ()

/-- A task that leaves the ready queue acknowledges the event that woke it. -/
def enterChild (id : Nat) (c : CoroutineContext) : EStateM Halt (CoroutineScheduler V A) Unit := do
  leaveReady id c
  acknowledgeWake id c
  modify fun s => { s.setContext id { c with status := .running } with active := some id }

/-- Enter the child; its own calls are the following steps. -/
def resume (id : Nat) : EStateM Halt (CoroutineScheduler V A) Unit := do
  let s ← get
  if s.active.isSome then
    fatal "coroutine resume and join are only allowed from the scope root"
  else
    let c ← contextPtr id
    match c.status with
    | .created | .ready | .suspended => enterChild id c
    | .waiting | .completed | .failed | .joined => pure ()
    | .running | .cancelled =>
      fatal s!"coroutine {id} cannot be resumed from {c.status.text}"

/-- One pass through the loop of a join. -/
def joinTurn (id : Nat) (round : Round A) : EStateM Halt (CoroutineScheduler V A) Unit := do
  let c ← contextPtr id
  match c.status with
  | .created | .ready | .suspended => resume id
  | .waiting => do
    match ← nextTurn round with
    | .runnable task => resume task
    | .again => pure ()
    | .idle => fatal s!"coroutine deadlock while joining task {id}"
  | .completed | .failed => modify fun s => s.setContext id { c with status := .joined }
  | .joined => fatal s!"coroutine {id} has already been joined"
  | .cancelled => fatal s!"coroutine {id} was cancelled"
  | .running => fatal s!"coroutine {id} is already running"

end CoroutineScheduler

end Rphp.Scheduler
