import Rphp.Scheduler.Scheduler
import Rphp.Scheduler.IoSetQueues

namespace Rphp.Scheduler
open Lib
set_option autoImplicit true

/-- The structures in which a task can be registered. -/
inductive Place where
  | ready
  | sender (channel : Nat)
  | receiver (channel : Nat)
  | timer
  | reader (descriptor : Nat)
  | writer (descriptor : Nat)
  | connect (descriptor : Nat)
  | resolver (job : Nat)
deriving DecidableEq, Repr

def Place.ofDirection (descriptor : Nat) : IoDirection → Place
  | .readable => .reader descriptor
  | .writable => .writer descriptor

namespace WaitReason

/-- The structure that a wait reason names. -/
def place : WaitReason → Place
  | channelSend channel => .sender channel
  | channelReceive channel => .receiver channel
  | timer => .timer
  | ioRead descriptor => .reader descriptor
  | ioWrite descriptor => .writer descriptor
  | tcpConnect descriptor => .connect descriptor
  | dnsResolve job => .resolver job

/-- How often a waiting task may be found in a place. A connecting task also waits for its
socket to become writable, and a connect or a resolve may carry a timer. -/
def Expects (r : WaitReason) (p : Place) (n : Nat) : Prop :=
  if p = r.place then n = 1
  else
    match r, p with
    | tcpConnect d, .writer d' => n = if d' = d then 1 else 0
    | tcpConnect _, .timer => n ≤ 1
    | dnsResolve _, .timer => n ≤ 1
    | _, _ => n = 0

end WaitReason

/-- How often a task in a given state may be found in a place. -/
def Expected (p : Place) (n : Nat) : Option CoroutineContext → Prop
  | none => n = 0
  | some c =>
    if c.status.runnable then n = if p = .ready then 1 else 0
    else
      match c.waitReason with
      | none => n = 0
      | some r => r.Expects p n

def ChannelSet.senderTasks (set : ChannelSet V) (channel : Nat) : List Nat :=
  match set.channel? channel with
  | some c => c.senders.map SendWaiter.task
  | none => []

def ChannelSet.receiverTasks (set : ChannelSet V) (channel : Nat) : List Nat :=
  match set.channel? channel with
  | some c => c.receivers.map ReceiveWaiter.task
  | none => []

def CoroutineScheduler.resolveTask (s : CoroutineScheduler V A) (job : Nat) : Option Nat :=
  s.resolver.bind fun r => (r.waiters.lookup job).map ResolveWaiter.task

namespace CoroutineScheduler

/-- How often a task is registered in a place. In the middle of a step a timer that is due and
an event that was collected still count for the structure they were taken from. -/
def occurrences (s : CoroutineScheduler V A) (due : List Nat) (events : List IoReady)
    (task : Nat) : Place → Nat
  | .ready => s.readiness.ready.count task
  | .sender channel => (s.channels.senderTasks channel).count task
  | .receiver channel => (s.channels.receiverTasks channel).count task
  | .timer => (s.readiness.timers.map Timer.task).count task + due.count task
  | .reader descriptor =>
    (s.io.queue descriptor .readable).count task + events.count ⟨task, descriptor, .readable⟩
  | .writer descriptor =>
    (s.io.queue descriptor .writable).count task + events.count ⟨task, descriptor, .writable⟩
  | .connect descriptor => if s.io.connectTask descriptor = some task then 1 else 0
  | .resolver job => if s.resolveTask job = some task then 1 else 0

/-- The wake entry of the resolver is no registration of a task. -/
def Exempt (task : Nat) (p : Place) : Prop := task = resolverWakeTask ∧ ∃ d, p = .reader d

/-- Every task but the one in the hole is registered as its state asks. -/
structure Tasks (hole : Option Nat) (due : List Nat) (events : List IoReady)
    (s : CoroutineScheduler V A) : Prop where
  ids : s.nextId = s.contexts.length + 1
  small : (s.contexts.length : Int) ≤ i64Max
  active : ∀ t, s.active = some t ↔ ∃ c, s.context? t = some c ∧ c.status = .running
  waiting : ∀ t c, hole ≠ some t → s.context? t = some c →
    (c.status = .waiting ↔ c.waitReason.isSome)
  settled : ∀ t p, hole ≠ some t → ¬Exempt t p →
    Expected p (s.occurrences due events t p) (s.context? t)

/-- Descriptors and the resolver; `failing` are the connections about to fail. -/
structure Grounded (failing : Nat → Prop) (events : List IoReady) (s : CoroutineScheduler V A) :
    Prop where
  placed : s.io.Placed
  apart : ∀ r, s.resolver = some r →
    r.wakeDescriptor < s.io.nextId ∧ s.io.connectTask r.wakeDescriptor = none
  alone : ∀ d dir t t', failing d → s.io.connectTask d = some t → t' ∈ s.io.queue d dir → t' = t
  awake : ∀ p, s.io.inFlight.lookup resolverWakeTask = some p →
    ∃ e ∈ events, e.task = resolverWakeTask

/-- While a task waits for the resolver, the wake entry is queued or about to be handled. -/
structure Wired (failing : Nat → Prop) (events : List IoReady) (s : CoroutineScheduler V A) :
    Prop extends Grounded failing events s where
  armed : ∀ r job, s.resolver = some r → (s.resolveTask job).isSome →
    resolverWakeTask ∈ s.io.queue r.wakeDescriptor .readable ∨
      ∃ e ∈ events, e.task = resolverWakeTask

theorem context?_lt {s : CoroutineScheduler V A} (h : s.context? t = some c) :
    0 < t ∧ t ≤ s.contexts.length := by
  unfold context? at h
  split at h
  · cases h
  · have := (List.getElem?_eq_some_iff.1 h).1
    omega

theorem Tasks.not_wake {s : CoroutineScheduler V A} (h : s.Tasks hole due events)
    (hc : s.context? t = some c) : t ≠ resolverWakeTask := by
  have hlt := (context?_lt hc).2
  have hsmall := h.small
  unfold i64Max at hsmall
  unfold resolverWakeTask
  omega

theorem Tasks.open {s : CoroutineScheduler V A} (h : s.Tasks none due events) (t : Nat) :
    s.Tasks (some t) due events :=
  ⟨h.ids, h.small, h.active, fun u c _ => h.waiting u c nofun, fun u p _ => h.settled u p nofun⟩

/-- A task outside the hole keeps its place when its state and its registrations stay. -/
theorem Tasks.frame {s s' : CoroutineScheduler V A} (h : s.Tasks hole due events)
    (hnext : s'.nextId = s.nextId) (hlen : s'.contexts.length = s.contexts.length)
    (hctx : ∀ u, hole ≠ some u → s'.context? u = s.context? u)
    (hactive : ∀ u, s'.active = some u ↔ ∃ c, s'.context? u = some c ∧ c.status = .running)
    (hocc : ∀ u p, hole ≠ some u → ¬Exempt u p →
      s'.occurrences due' events' u p = s.occurrences due events u p) :
    s'.Tasks hole due' events' where
  ids := by rw [hnext, hlen, h.ids]
  small := hlen ▸ h.small
  active := hactive
  waiting u c hu hc := h.waiting u c hu (hctx u hu ▸ hc)
  settled u p hu hex := by
    rw [hctx u hu, hocc u p hu hex]
    exact h.settled u p hu hex

/-- A change outside of the contexts matters only through the registrations. -/
theorem Tasks.of_occurrences {s s' : CoroutineScheduler V A} (h : s.Tasks hole due events)
    (hnext : s'.nextId = s.nextId) (hctx : s'.contexts = s.contexts)
    (hactive : s'.active = s.active)
    (hocc : ∀ u p, hole ≠ some u → ¬Exempt u p →
      s'.occurrences due' events' u p = s.occurrences due events u p) :
    s'.Tasks hole due' events' := by
  have hcontext : ∀ u, s'.context? u = s.context? u := by
    intro u
    simp only [context?, hctx]
  refine h.frame hnext (by rw [hctx]) (fun u _ => hcontext u) (fun u => ?_) hocc
  rw [hactive, hcontext]
  exact h.active u

/-- Close the hole once its task is registered as its state asks. -/
theorem Tasks.close {s : CoroutineScheduler V A} (h : s.Tasks (some t) due events)
    (hc : s.context? t = some c) (hw : c.status = .waiting ↔ c.waitReason.isSome)
    (hocc : ∀ p, Expected p (s.occurrences due events t p) (some c)) :
    s.Tasks none due events where
  ids := h.ids
  small := h.small
  active := h.active
  waiting u c' _ hc' := by
    by_cases hu : u = t
    · subst hu
      cases hc.symm.trans hc'
      exact hw
    · exact h.waiting u c' (fun he => hu (Option.some.inj he).symm) hc'
  settled u p _ hex := by
    by_cases hu : u = t
    · subst hu
      rw [hc]
      exact hocc p
    · exact h.settled u p (fun he => hu (Option.some.inj he).symm) hex

theorem context?_setContext {s : CoroutineScheduler V A} (hc : s.context? t = some c)
    (c' : CoroutineContext) :
    (s.setContext t c').context? u = if u = t then some c' else s.context? u := by
  obtain ⟨hpos, hle⟩ := context?_lt hc
  unfold context? setContext
  by_cases hu : u = t
  · subst hu
    have hne : u ≠ 0 := by omega
    simp only [hne, if_false, if_true]
    rw [List.getElem?_set_self (by omega)]
  · by_cases hz : u = 0
    · simp [hz, show ¬0 = t by omega]
    · simp only [hz, hu, if_false]
      rw [List.getElem?_set_ne (by omega)]

@[simp] theorem setContext_length (s : CoroutineScheduler V A) (t : Nat) (c : CoroutineContext) :
    (s.setContext t c).contexts.length = s.contexts.length := by
  simp [setContext]

@[simp] theorem setContext_occurrences (s : CoroutineScheduler V A) (c : CoroutineContext) :
    (s.setContext t c).occurrences due events u p = s.occurrences due events u p := by
  cases p <;> rfl

theorem Expects.cases {r : WaitReason} (h : r.Expects q n) (hn : 0 < n) :
    q = r.place ∨ (∃ d, r = .tcpConnect d ∧ q = .writer d) ∨
      q = .timer ∧ ((∃ d, r = .tcpConnect d) ∨ ∃ job, r = .dnsResolve job) := by
  unfold WaitReason.Expects at h
  split at h
  · exact .inl ‹_›
  · split at h
    · rename_i d d' _
      split at h
      · rename_i he
        exact .inr (.inl ⟨d, rfl, he ▸ rfl⟩)
      · omega
    · exact .inr (.inr ⟨rfl, .inl ⟨_, rfl⟩⟩)
    · exact .inr (.inr ⟨rfl, .inr ⟨_, rfl⟩⟩)
    · omega

/-- A task found outside of the ready queue waits, and is registered for its reason. -/
theorem Tasks.reason {s : CoroutineScheduler V A} (h : s.Tasks hole due events)
    (hu : hole ≠ some t) (hex : ¬Exempt t q) (hq : q ≠ .ready)
    (hpos : 0 < s.occurrences due events t q) :
    ∃ r, s.context? t = some ⟨.waiting, some r⟩ ∧
      ∀ p, r.Expects p (s.occurrences due events t p) := by
  have hset := h.settled t q hu hex
  cases hc : s.context? t with
  | none =>
    rw [hc] at hset
    exact absurd hset (by simp only [Expected]; omega)
  | some c =>
    have hexp : ∀ p, Expected p (s.occurrences due events t p) (some c) := by
      intro p
      rw [← hc]
      exact h.settled t p hu fun he => h.not_wake hc he.1
    have hrun : c.status.runnable = false := by
      by_contra hrun
      have := hexp q
      simp_all [Expected]
    cases hr : c.waitReason with
    | none =>
      have := hexp q
      simp_all [Expected]
    | some r =>
      have hw : c.status = .waiting := (h.waiting t c hu hc).2 (by simp [hr])
      refine ⟨r, ?_, fun p => ?_⟩
      · rw [← hw, ← hr]
      · have := hexp p
        simpa only [Expected, hrun, hr, Bool.false_eq_true, if_false] using this

theorem Tasks.running {s : CoroutineScheduler V A} (h : s.Tasks none due events)
    (ha : s.active = some t) :
    s.context? t = some ⟨.running, none⟩ ∧ ∀ p, s.occurrences due events t p = 0 := by
  obtain ⟨c, hc, hst⟩ := (h.active t).1 ha
  have hr : c.waitReason = none := by
    have := h.waiting t c nofun hc
    simpa [hst] using this
  have hceq : c = ⟨.running, none⟩ := by
    cases c
    simp_all
  refine ⟨hceq ▸ hc, fun p => ?_⟩
  have := h.settled t p nofun fun he => h.not_wake hc he.1
  rw [hc, hceq] at this
  exact this

/-- The task is back in the ready queue. -/
def woken (s : CoroutineScheduler V A) (t : Nat) : CoroutineScheduler V A :=
  { s.setContext t ⟨.ready, none⟩ with readiness := s.readiness.enqueue t }

theorem wakeTask_eq {s : CoroutineScheduler V A}
    (hc : s.context? t = some ⟨.waiting, some r⟩) : wakeTask t r s = .ok () (s.woken t) := by
  simp only [wakeTask, hc, ne_eq, not_true, or_self, if_false]
  rfl

theorem woken_occurrences (s : CoroutineScheduler V A) (t u : Nat) (p : Place) :
    (s.woken t).occurrences due events u p =
      s.occurrences due events u p + if u = t ∧ p = .ready then 1 else 0 := by
  cases p with
  | ready =>
    by_cases hu : u = t
    · simp [occurrences, woken, Readiness.enqueue, hu]
    · have hu' : t ≠ u := fun he => hu he.symm
      simp [occurrences, woken, Readiness.enqueue, hu, hu']
  | _ => simp only [reduceCtorEq, and_false, if_false, Nat.add_zero]; rfl

theorem Tasks.wake {s : CoroutineScheduler V A} (h : s.Tasks (some t) due events)
    (hc : s.context? t = some c) (hst : c.status = .waiting)
    (hz : ∀ p, s.occurrences due events t p = 0) : (s.woken t).Tasks none due events := by
  have hctx : ∀ u, (s.woken t).context? u = if u = t then some ⟨.ready, none⟩ else s.context? u :=
    fun u => context?_setContext hc _
  have hframe : (s.woken t).Tasks (some t) due events := by
    refine h.frame rfl (by simp [woken]) (fun u hu => ?_) (fun u => ?_) fun u p hu _ => ?_
    · rw [hctx, if_neg fun he : u = t => hu (he ▸ rfl)]
    · have hact := h.active u
      rw [hctx]
      by_cases hu : u = t
      · subst hu
        simp only [hc, Option.some.injEq, exists_eq_left', hst] at hact
        simpa [woken, setContext] using hact
      · rw [if_neg hu]
        exact hact
    · have hu : u ≠ t := fun he => hu (he ▸ rfl)
      simp [woken_occurrences, hu]
  refine hframe.close (by rw [hctx, if_pos rfl]) (by simp) fun p => ?_
  rw [woken_occurrences, hz]
  simp [Expected, CoroutineStatus.runnable]

theorem Wired.woken {s : CoroutineScheduler V A} (h : s.Wired failing events) (t : Nat) :
    (s.woken t).Wired failing events :=
  ⟨⟨h.placed, h.apart, h.alone, h.awake⟩, h.armed⟩

theorem blockTask_eq {s : CoroutineScheduler V A} (hc : s.context? t = some ⟨.running, none⟩) :
    blockTask t r s = .ok () (s.setContext t ⟨.running, some r⟩) := by
  simp [blockTask, hc]

theorem blockActive_eq {s : CoroutineScheduler V A} (ha : s.active = some t)
    (hc : s.context? t = some ⟨.running, none⟩) :
    blockActive r s = .ok () (s.setContext t ⟨.running, some r⟩) := by
  simp only [blockActive, bind, EStateM.bind, activeTask, ha]
  exact blockTask_eq hc

/-- The running task waits. -/
def parked (s : CoroutineScheduler V A) (t : Nat) (r : WaitReason) : CoroutineScheduler V A :=
  { s with active := none }.setContext t ⟨.waiting, some r⟩

theorem suspendActive_eq {s : CoroutineScheduler V A} (ha : s.active = some t)
    (hc : s.context? t = some ⟨.running, some r⟩) :
    suspendActive .waiting s = .ok () (s.parked t r) := by
  simp only [suspendActive, ha, Option.bind_some, hc, Option.map_some, Option.isSome_some, if_true]
  rfl

theorem Tasks.park {s : CoroutineScheduler V A} (h : s.Tasks (some t) due events)
    (ha : s.active = some t) (hc : s.context? t = some c)
    (hocc : ∀ p, r.Expects p (s.occurrences due events t p)) :
    (s.parked t r).Tasks none due events := by
  have hctx : ∀ u, (s.parked t r).context? u =
      if u = t then some ⟨.waiting, some r⟩ else s.context? u := by
    intro u
    have hc' : ({ s with active := none } : CoroutineScheduler V A).context? t = some c := hc
    exact context?_setContext hc' _
  have hframe : (s.parked t r).Tasks (some t) due events := by
    refine h.frame rfl (by simp [parked]) (fun u hu => ?_) (fun u => ?_) fun u p _ _ => ?_
    · rw [hctx, if_neg fun he : u = t => hu (he ▸ rfl)]
    · refine ⟨nofun, fun hrun => ?_⟩
      rw [hctx] at hrun
      by_cases hu : u = t
      · simp [hu] at hrun
      · rw [if_neg hu, ← h.active u, ha] at hrun
        exact absurd (Option.some.inj hrun).symm hu
    · cases p <;> rfl
  refine hframe.close (by rw [hctx, if_pos rfl]) ⟨fun _ => rfl, fun _ => rfl⟩ fun p => ?_
  have hp := hocc p
  simp only [Expected, CoroutineStatus.runnable]
  cases p <;> exact hp

theorem Wired.parked {s : CoroutineScheduler V A} (h : s.Wired failing events) (t : Nat)
    (r : WaitReason) : (s.parked t r).Wired failing events :=
  ⟨⟨h.placed, h.apart, h.alone, h.awake⟩, h.armed⟩

end CoroutineScheduler

end Rphp.Scheduler
