import Mathlib.Data.List.TakeWhile
import Rphp.Scheduler.RegistrationRun
import Rphp.Scheduler.Timers

namespace Rphp.Scheduler
open Lib CoroutineScheduler
set_option autoImplicit true

/-- The tasks that the timers due at a clock reading make ready, in order. -/
def CoroutineScheduler.madeReady (s : CoroutineScheduler V A) (now : Nat) : List Nat :=
  match promoteDueTimers now s with
  | .ok _ t => t.readiness.ready.drop s.readiness.ready.length
  | .error _ _ => []

def Timeout.deadline? : Timeout → Option Nat
  | .before deadline => some deadline
  | _ => none

namespace Timeline

/-- The active task begins a wait, with or without a deadline. -/
def ask (g : Timeline) (s : CoroutineScheduler V A) (limit : Option Nat) : Timeline :=
  match s.active with
  | some t => { g with limit := Function.update g.limit t limit }
  | none => g

def sleep (g : Timeline) (s : CoroutineScheduler V A) (deadline : Option Nat) : Timeline :=
  match s.active, deadline with
  | some t, some d => { g.ask s (some d) with slept := g.slept ++ [(d, t)] }
  | _, _ => g

def wake (g : Timeline) (tasks : List Nat) : Timeline :=
  { g with woken := g.woken ++ tasks.filterMap fun t => (g.limit t).map fun d => (d, t) }

/-- What a call adds to the record. -/
def after (g : Timeline) (s : CoroutineScheduler V A) : SchedulerCall V A → Timeline
  | .sleep deadline => g.sleep s deadline
  | .send _ _ => g.ask s none
  | .receive _ _ _ => g.ask s none
  | .wait _ _ => g.ask s none
  | .connectTcp timeout _ _ _ => g.ask s timeout.deadline?
  | .resolveAndConnectTcp timeout _ _ _ _ => g.ask s timeout.deadline?
  | .join task round =>
    if (s.context? task).any fun c => c.status = .waiting then g.wake (s.madeReady round.now) else g
  | _ => g

end Timeline

/-- One call beside the record of the run. -/
def SchedulerCall.timedStep (s : CoroutineScheduler V A × Timeline) (call : SchedulerCall V A) :
    Option (CoroutineScheduler V A × Timeline) :=
  (call.step s.1).map fun t => (t, s.2.after s.1 call)

namespace CoroutineScheduler

abbrev Clocked (g : Timeline) (s : CoroutineScheduler V A) : Prop :=
  Scheduler.Clocked g s.context? s.active s.readiness.nextTimerSequence s.readiness.timers

/-- A call that ends the run is not looked at. -/
abbrev Ends (_ : Halt) (_ : CoroutineScheduler V A) : Prop := True

/-- Nothing that bears on the timers changes. -/
structure Steady (s s' : CoroutineScheduler V A) : Prop where
  contexts : s'.contexts = s.contexts
  active : s'.active = s.active
  timers : s'.readiness.timers = s.readiness.timers
  next : s'.readiness.nextTimerSequence = s.readiness.nextTimerSequence

variable {s s' : CoroutineScheduler V A} {g : Timeline}

theorem Steady.context? (h : Steady s s') : s'.context? = s.context? := by
  funext t
  simp only [CoroutineScheduler.context?, h.contexts]

theorem Steady.clocked (h : Steady s s') (hs : s.Clocked g) : s'.Clocked g := by
  unfold Clocked
  rw [h.context?, h.active, h.timers, h.next]
  exact hs

theorem onIo_steady (s : CoroutineScheduler V A) (x : EStateM Abort (IoSet A) α) :
    Post (fun _ s' => Steady s s') Ends (onIo x s) := by
  unfold onIo
  split
  · exact ⟨rfl, rfl, rfl, rfl⟩
  · trivial

theorem onIo_clocked (h : s.Clocked g) (x : EStateM Abort (IoSet A) α) :
    Post (fun _ s' => s'.Clocked g) Ends (onIo x s) :=
  (onIo_steady s x).mono (fun _ _ hs => hs.clocked h) fun _ _ => id

theorem context?_setContext_eq (hc : s.context? t = some c) (c' : CoroutineContext) :
    (s.setContext t c').context? = Function.update s.context? t (some c') := by
  funext u
  rw [context?_setContext hc, Function.update_apply]

/-- A task without a timer changes its state. -/
theorem Clocked.setContext (h : s.Clocked g) (hc : s.context? t = some c)
    (hfree : t ∉ s.readiness.timers.map Timer.task) (hst : c.status ≠ .running)
    (c' : CoroutineContext) (hc' : c' ≠ ⟨.waiting, some .timer⟩) : (s.setContext t c').Clocked g := by
  unfold Clocked
  rw [context?_setContext_eq hc]
  exact h.update hfree _ (by simpa using hc') (h.running_update hc hst _)

theorem wakeTask_clocked (h : s.Clocked g) (hfree : ¬ r.HasTimer ∨
    t ∉ s.readiness.timers.map Timer.task) : Post (fun _ s' => s'.Clocked g) Ends (wakeTask t r s) := by
  unfold wakeTask
  split
  · trivial
  · rename_i c hc
    split
    · trivial
    · rename_i hwait
      rw [not_or, not_not, not_not] at hwait
      obtain ⟨status, reason⟩ := c
      obtain ⟨rfl, rfl⟩ := hwait
      have hnone : t ∉ s.readiness.timers.map Timer.task := by
        obtain hr | hnone := hfree
        · apply h.free
          intro r' hr'
          rw [hc] at hr'
          cases hr'
          exact hr
        · exact hnone
      exact Steady.clocked ⟨rfl, rfl, rfl, rfl⟩
        (h.setContext hc hnone (by simp) ⟨.ready, none⟩ (by simp))

/-- The timer is cancelled before the task is woken from a connect or a resolve. -/
theorem cancelTimer_wakeTask_clocked (h : s.Clocked g) (hr : r ≠ .timer) :
    Post (fun _ s' => s'.Clocked g) Ends ((cancelTimer t >>= fun _ => wakeTask t r) s) := by
  refine Post.modify_bind ?_
  by_cases hsleeps : Sleeps s.context? t
  · have hc : s.context? t = some ⟨.waiting, some .timer⟩ := hsleeps
    have hwoken : ({ s with readiness := s.readiness.cancelTimer t } :
        CoroutineScheduler V A).context? t = some ⟨.waiting, some .timer⟩ := hc
    rw [wakeTask, hwoken]
    simp only [ne_eq, not_true_eq_false, Option.some.injEq, hr.symm, not_false_eq_true, or_true,
      ↓reduceIte]
    trivial
  · exact wakeTask_clocked (s := { s with readiness := s.readiness.cancelTimer t })
      (h.cancel hsleeps) (.inr Clocked.not_mem_filter)

theorem replaceWaitReason_clocked (h : s.Clocked g) (hr : r ≠ .timer) (d : Nat) :
    Post (fun _ s' => s'.Clocked g) Ends (replaceWaitReason t r (.tcpConnect d) s) := by
  unfold replaceWaitReason
  split
  · trivial
  · rename_i c hc
    split
    · trivial
    · rename_i hwait
      rw [not_or, not_not, not_not] at hwait
      obtain ⟨status, reason⟩ := c
      obtain ⟨rfl, rfl⟩ := hwait
      rw [post_ok, Clocked, context?_setContext_eq hc]
      exact h.replace hc hr nofun fun _ => trivial

/-! The running task begins to wait. -/

/-- The running task has named its reason and is about to leave. -/
structure Parks (g : Timeline) (t : Nat) (r : WaitReason) (s : CoroutineScheduler V A) : Prop where
  clocked : s.Clocked g
  active : s.active = some t
  context : s.context? t = some ⟨.running, some r⟩

theorem Parks.steady (h : s.Parks g t r) (hs : Steady s s') : s'.Parks g t r :=
  ⟨hs.clocked h.clocked, hs.active.trans h.active, by rw [hs.context?]; exact h.context⟩

theorem Clocked.free_of_active (h : s.Clocked g) (ha : s.active = some t) :
    t ∉ s.readiness.timers.map Timer.task := by
  obtain ⟨c, hc, hrun⟩ := h.running t ha
  exact h.free_of_status hc (by simp [hrun])

/-- The deadline that the active task gives. -/
theorem Clocked.ask (h : s.Clocked g) (limit : Option Nat) : s.Clocked (g.ask s limit) := by
  unfold Timeline.ask
  split
  · rename_i t ha
    exact h.setLimit (h.free_of_active ha) limit
  · exact h

theorem blockTask_parks (h : s.Clocked g) (ha : s.active = some t) (r : WaitReason) :
    Post (fun _ s' => s'.Parks g t r) Ends (blockTask t r s) := by
  unfold blockTask
  split
  · trivial
  · rename_i c hc
    split
    · trivial
    · rename_i hrun
      rw [not_or, not_not] at hrun
      obtain ⟨status, reason⟩ := c
      obtain ⟨rfl, -⟩ := hrun
      have hctx := context?_setContext_eq hc ⟨.running, some r⟩
      refine ⟨?_, ha, by rw [hctx, Function.update_self]⟩
      unfold Clocked
      rw [hctx]
      refine h.update (h.free_of_active ha) _ (by simp) fun u hu => ?_
      obtain rfl := Option.some.inj (ha.symm.trans hu)
      exact ⟨_, Function.update_self .., rfl⟩

theorem blockActive_parks (h : s.Clocked g) (ha : s.active = some t) (r : WaitReason) :
    Post (fun _ s' => s'.Parks g t r) Ends (blockActive r s) := by
  have hactive : activeTask "coroutine wait" s = .ok t s := by simp only [activeTask, ha]
  exact Post.bind_ok hactive (blockTask_parks h ha r)

theorem Parks.suspend (h : s.Parks g t r) (hr : r ≠ .timer) :
    Post (fun _ s' => s'.Clocked g) Ends (suspendActive .waiting s) := by
  rw [suspendActive_eq h.active h.context, post_ok, parked, Clocked]
  have hc : ({ s with active := none } : CoroutineScheduler V A).context? t =
    some ⟨.running, some r⟩ := h.context
  rw [context?_setContext_eq hc]
  exact h.clocked.update (h.clocked.free_of_active h.active) _ (by simpa using hr)
    fun _ hother => by cases hother

theorem Parks.schedule (h : s.Parks g t r) (hr : r.HasTimer) (hlimit : g.limit t = some d) :
    Post (fun _ s' => s'.Clocked { g with slept := g.slept ++ if r = .timer then [(d, t)] else [] })
      Ends ((scheduleTimer t d >>= fun _ => suspendActive .waiting) s) := by
  cases htimer : s.readiness.scheduleTimer t d with
  | error e =>
    have herror : scheduleTimer t d s = .error (.abort e) s := by simp only [scheduleTimer, htimer]
    simp only [bind, EStateM.bind, herror]
    trivial
  | ok readiness =>
    have hok : scheduleTimer t d s = .ok () { s with readiness := readiness } := by
      simp only [scheduleTimer, htimer]
    refine Post.bind_ok hok ?_
    have hsuspend := suspendActive_eq (s := { s with readiness := readiness }) h.active h.context
    have hc : ({ s with readiness := readiness, active := none } :
      CoroutineScheduler V A).context? t = some ⟨.running, some r⟩ := h.context
    rw [hsuspend, post_ok, parked, Clocked, context?_setContext_eq hc]
    unfold Readiness.scheduleTimer at htimer
    split at htimer
    · cases htimer
      exact h.clocked.schedule (h.clocked.free_of_active h.active) hr hlimit
    · cases htimer

/-- A call of the active task; without one it ends the run. -/
theorem byActive {f : Nat → EStateM Halt (CoroutineScheduler V A) α} (operation : String)
    (hf : ∀ t, s.active = some t → Post Q Ends (f t s)) :
    Post Q Ends ((activeTask operation >>= f) s) := by
  cases ha : s.active with
  | none =>
    simp only [bind, EStateM.bind, activeTask, ha]
    trivial
  | some t =>
    have hactive : activeTask operation s = .ok t s := by simp only [activeTask, ha]
    exact Post.bind_ok hactive (hf t ha)

theorem sleep_clocked (h : s.Clocked g) (deadline : Option Nat) :
    Post (fun _ s' => s'.Clocked (g.sleep s deadline)) Ends (sleep deadline s) := by
  refine byActive _ fun t ha => ?_
  cases deadline with
  | none => trivial
  | some d =>
    have hask := h.ask (some d)
    have hlimit : (g.ask s (some d)).limit t = some d := by simp [Timeline.ask, ha]
    have hslept : (g.ask s (some d)).slept = g.slept := by simp [Timeline.ask, ha]
    refine (blockActive_parks hask ha .timer).bind fun _ s₁ _ hs₁ => ?_
    refine (hs₁.schedule trivial hlimit).mono (fun _ s₂ hs₂ => ?_) fun _ _ => id
    simpa only [Timeline.sleep, ha, hslept, if_true] using hs₂

theorem send_clocked (h : s.Clocked g) (channel : Nat) (value : V) :
    Post (fun _ s' => s'.Clocked (g.ask s none)) Ends (send channel value s) := by
  have hask := h.ask none
  refine byActive _ fun t ha => Post.get_bind ?_
  cases hsend : s.channels.send channel t value with
  | error e =>
    trivial
  | ok result =>
    obtain ⟨outcome, channels⟩ := result
    have hset : ({ s with channels := channels } : CoroutineScheduler V A).Clocked (g.ask s none) :=
      hask
    refine Post.set_bind ?_
    cases outcome with
    | complete => exact hset
    | blocked =>
      refine (blockTask_parks hset ha (.channelSend channel)).bind fun _ s₁ _ hs₁ => ?_
      exact hs₁.suspend nofun
    | wakeReceiver waiter _ => exact wakeTask_clocked hset (.inl id)

theorem receive_clocked (h : s.Clocked g) (channel frame returnValue : Nat) :
    Post (fun _ s' => s'.Clocked (g.ask s none)) Ends (receive channel frame returnValue s) := by
  have hask := h.ask none
  refine byActive _ fun t ha => Post.get_bind ?_
  cases hreceive : s.channels.receive channel ⟨t, frame, returnValue⟩ with
  | error e =>
    trivial
  | ok result =>
    obtain ⟨outcome, channels⟩ := result
    have hset : ({ s with channels := channels } : CoroutineScheduler V A).Clocked (g.ask s none) :=
      hask
    refine Post.set_bind ?_
    cases outcome with
    | ready value sender =>
      cases sender with
      | none => exact hset
      | some sender => exact wakeTask_clocked hset (.inl id)
    | blocked =>
      refine (blockTask_parks hset ha (.channelReceive channel)).bind fun _ s₁ _ hs₁ => ?_
      exact hs₁.suspend nofun

theorem onIo_parks (h : s.Parks g t r) (x : EStateM Abort (IoSet A) α) :
    Post (fun _ s' => s'.Parks g t r) Ends (onIo x s) :=
  (onIo_steady s x).mono (fun _ _ hs => h.steady hs) fun _ _ => id

theorem waitDescriptor_clocked (h : s.Clocked g) (descriptor : Nat) (direction : IoDirection) :
    Post (fun _ s' => s'.Clocked (g.ask s none)) Ends (waitDescriptor descriptor direction s) := by
  refine byActive _ fun t ha => ?_
  refine (onIo_steady s _).bind fun _ s₁ _ hs₁ => ?_
  refine (blockActive_parks (hs₁.clocked (h.ask none)) (hs₁.active.trans ha) _).bind
    fun _ s₂ _ hs₂ => ?_
  refine (onIo_parks hs₂ _).bind fun _ s₃ _ hs₃ => hs₃.suspend ?_
  cases direction <;> simp [WaitReason.ofDirection]

/-- A connect or a resolve waits on its descriptor, and on its deadline if it has one. -/
theorem Parks.timeout {s₀ : CoroutineScheduler V A} {timeout : Timeout}
    (h : s.Parks (g.ask s₀ timeout.deadline?) t r) (ha : s₀.active = some t)
    (hr : r.HasTimer) (hne : r ≠ .timer) :
    Post (fun _ s' => s'.Clocked (g.ask s₀ timeout.deadline?)) Ends
      ((scheduleTimeout t timeout >>= fun _ => suspendActive .waiting) s) := by
  cases timeout with
  | unlimited => exact h.suspend hne
  | tooLarge => exact h.suspend hne
  | before d =>
    have hlimit : (g.ask s₀ (some d)).limit t = some d := by simp [Timeline.ask, ha]
    have hend := h.schedule hr hlimit
    rw [if_neg hne, List.append_nil] at hend
    exact hend

theorem checkTimeout_same (s : CoroutineScheduler V A) (timeout : Timeout) :
    Post (fun _ s' => s' = s) Ends (checkTimeout timeout s) := by
  unfold checkTimeout
  split
  · trivial
  · rfl

theorem connectTcp_clocked (h : s.Clocked g) (timeout : Timeout) (start : ConnectStart)
    (frame returnValue : Nat) :
    Post (fun _ s' => s'.Clocked (g.ask s timeout.deadline?)) Ends
      (connectTcp timeout start frame returnValue s) := by
  have hask := h.ask timeout.deadline?
  refine byActive _ fun t ha => ?_
  refine (checkTimeout_same s timeout).bind fun _ s₀ _ hs₀ => ?_
  obtain rfl := hs₀
  refine (onIo_steady _ _).bind fun outcome s₁ _ hs₁ => ?_
  cases outcome with
  | connected descriptor => exact hs₁.clocked hask
  | inProgress stream =>
    refine (blockActive_parks (hs₁.clocked hask) (hs₁.active.trans ha) _).bind fun _ s₂ _ hs₂ => ?_
    refine (onIo_parks hs₂ _).bind fun _ s₃ _ hs₃ => ?_
    exact hs₃.timeout ha trivial nofun

theorem ensureResolver_steady (s : CoroutineScheduler V A) (refused : Option VmError) :
    Post (fun _ s' => Steady s s') Ends (ensureResolver refused s) := by
  refine Post.get_bind ?_
  cases hr : s.resolver with
  | some r => exact ⟨rfl, rfl, rfl, rfl⟩
  | none =>
    cases refused with
    | some e => trivial
    | none => exact (onIo_steady s _).bind fun d s' _ hs' => ⟨hs'.1, hs'.2, hs'.3, hs'.4⟩

theorem blockResolve_parks (h : s.Clocked g) (ha : s.active = some t) (job : Nat) :
    Post (fun _ s' => s'.Parks g t (.dnsResolve job)) Ends (blockResolve job t s) := by
  have hblock := blockActive_parks h ha (.dnsResolve job)
  unfold blockResolve
  cases hb : blockActive (.dnsResolve job) s with
  | ok a s' =>
    rw [hb] at hblock
    exact hblock
  | error e s' =>
    dsimp only
    split
    · trivial
    · split <;> trivial

theorem resolveAndConnectTcp_clocked (h : s.Clocked g) (timeout : Timeout)
    (noResolver refused : Option VmError) (frame returnValue : Nat) :
    Post (fun _ s' => s'.Clocked (g.ask s timeout.deadline?)) Ends
      (resolveAndConnectTcp timeout noResolver refused frame returnValue s) := by
  have hask := h.ask timeout.deadline?
  refine byActive _ fun t ha => ?_
  refine (checkTimeout_same s timeout).bind fun _ s₀ _ hs₀ => ?_
  obtain rfl := hs₀
  refine (ensureResolver_steady _ noResolver).bind fun resolver s₁ _ hs₁ => ?_
  cases hsubmit : resolver.submit ⟨t, frame, returnValue⟩ refused with
  | error e =>
    trivial
  | ok result =>
    obtain ⟨job, resolver⟩ := result
    refine Post.modify_bind ?_
    have hset : Steady s₀ { s₁ with resolver := some resolver } := ⟨hs₁.1, hs₁.2, hs₁.3, hs₁.4⟩
    refine (blockResolve_parks (hset.clocked hask) (hset.active.trans ha) job).bind
      fun _ s₂ _ hs₂ => ?_
    refine (onIo_parks hs₂ _).bind fun _ s₃ _ hs₃ => ?_
    exact hs₃.timeout ha trivial nofun

/-! Tasks come, go and are resumed. -/

theorem spawn_clocked (h : s.Clocked g) : Post (fun _ s' => s'.Clocked g) Ends (spawn s) := by
  unfold spawn
  split
  · trivial
  · have hnew : s.context? (s.contexts.length + 1) = none := by simp [context?]
    have hctx : ({ s with
        nextId := s.nextId + 1
        contexts := s.contexts ++ [{}]
        readiness := s.readiness.enqueue s.nextId } : CoroutineScheduler V A).context? =
          Function.update s.context? (s.contexts.length + 1) (some {}) := by
      funext u
      by_cases hu : u = s.contexts.length + 1
      · simp [context?, hu]
      · rw [Function.update_of_ne hu]
        unfold context?
        split
        · rfl
        · rename_i hz
          simp only [List.getElem?_append]
          split
          · rfl
          · rename_i hlt
            rw [List.getElem?_eq_none (by simp; omega), List.getElem?_eq_none (by omega)]
    rw [post_ok, Clocked, hctx]
    refine h.update (h.free fun r hr => by simp [hnew] at hr) _ (by simp) fun u hu => ?_
    obtain ⟨c, hc, hrun⟩ := h.running u hu
    have hne : u ≠ s.contexts.length + 1 := by
      rintro rfl
      rw [hnew] at hc
      cases hc
    exact ⟨c, by rw [Function.update_of_ne hne, hc], hrun⟩

theorem createChannel_clocked (h : s.Clocked g) (capacity : Nat) :
    Post (fun _ s' => s'.Clocked g) Ends (createChannel capacity s) := by
  unfold createChannel
  split
  · exact h
  · trivial

/-- The running task leaves without waiting. -/
theorem Clocked.leave (h : s.Clocked g) (ha : s.active = some t) (hc : s.context? t = some c)
    (c' : CoroutineContext) (hst : c'.status ≠ .waiting) :
    ({ s with active := none }.setContext t c').Clocked g := by
  have hc' : ({ s with active := none } : CoroutineScheduler V A).context? t = some c := hc
  unfold Clocked
  rw [context?_setContext_eq hc']
  refine h.update (h.free_of_active ha) _ (fun he => hst ?_) nofun
  rw [Option.some.inj he]

theorem suspendActive_manual_clocked (h : s.Clocked g) :
    Post (fun _ s' => s'.Clocked g) Ends (suspendActive .manual s) := by
  cases ha : s.active with
  | none =>
    simp only [suspendActive, ha, Option.bind_none]
    trivial
  | some t =>
    cases hc : s.context? t with
    | none =>
      simp only [suspendActive, ha, Option.bind_some, hc, Option.map_none]
      trivial
    | some c =>
      simp only [suspendActive, ha, Option.bind_some, hc, Option.map_some]
      split
      · trivial
      · exact h.leave ha hc _ (by simp)

theorem completeActive_clocked (h : s.Clocked g) (failed : Bool) :
    Post (fun _ s' => s'.Clocked g) Ends (completeActive failed s) := by
  cases ha : s.active with
  | none => simpa [completeActive, ha] using h
  | some t =>
    cases hc : s.context? t with
    | none => simpa [completeActive, ha, hc] using h
    | some c =>
      simp only [completeActive, ha, Option.bind_some, hc, Option.map_some]
      refine h.leave ha hc _ ?_
      cases failed <;> simp

theorem leaveReady_steady (s : CoroutineScheduler V A) (t : Nat) (c : CoroutineContext) :
    Post (fun _ s' => Steady s s') Ends (leaveReady t c s) := by
  unfold leaveReady
  split <;> exact ⟨rfl, rfl, rfl, rfl⟩

theorem acknowledgeWake_steady (s : CoroutineScheduler V A) (t : Nat) (c : CoroutineContext) :
    Post (fun _ s' => Steady s s') Ends (acknowledgeWake t c s) := by
  unfold acknowledgeWake
  split
  · exact onIo_steady s _
  · exact ⟨rfl, rfl, rfl, rfl⟩

theorem enterChild_clocked (h : s.Clocked g) (hc : s.context? t = some c)
    (hst : c.status ≠ .waiting) : Post (fun _ s' => s'.Clocked g) Ends (enterChild t c s) := by
  refine (leaveReady_steady s t c).bind fun _ s₁ _ hs₁ => ?_
  refine (acknowledgeWake_steady s₁ t c).bind fun _ s₂ _ hs₂ => ?_
  have h₂ := hs₂.clocked (hs₁.clocked h)
  have hc₂ : s₂.context? t = some c := by rw [hs₂.context?, hs₁.context?, hc]
  have hctx := context?_setContext_eq hc₂ { c with status := .running }
  change Scheduler.Clocked g (s₂.setContext t _).context? (some t) _ _
  rw [hctx]
  refine h₂.update (h₂.free_of_status hc₂ hst) _ (by simp) fun u hu => ?_
  obtain rfl := Option.some.inj hu
  exact ⟨_, Function.update_self .., rfl⟩

theorem resume_clocked (h : s.Clocked g) (t : Nat) :
    Post (fun _ s' => s'.Clocked g) Ends (resume t s) := by
  refine Post.get_bind ?_
  split
  · trivial
  · cases hc : s.context? t with
    | none =>
      simp only [bind, EStateM.bind, contextPtr, hc]
      trivial
    | some c =>
      have hptr : contextPtr t s = .ok c s := by simp only [contextPtr, hc]
      refine Post.bind_ok hptr ?_
      cases hst : c.status with
      | created => exact enterChild_clocked h hc (by simp [hst])
      | ready => exact enterChild_clocked h hc (by simp [hst])
      | suspended => exact enterChild_clocked h hc (by simp [hst])
      | waiting => exact h
      | completed => exact h
      | failed => exact h
      | joined => exact h
      | running => trivial
      | cancelled => trivial

/-! Readiness of descriptors and of the resolver. -/

theorem startConnectCandidates_clocked (start : A → List A → ConnectStart)
    (task frame returnValue : Nat) (expected : WaitReason) (hr : expected ≠ .timer) (addresses : List A)
    (lastError : Option VmError) (h : s.Clocked g) :
    Post (fun _ s' => s'.Clocked g) Ends
      (startConnectCandidates start task frame returnValue expected addresses lastError s) := by
  induction addresses generalizing s lastError with
  | nil => trivial
  | cons address remaining ih =>
    unfold startConnectCandidates
    have hio (io : IoSet A) : ({ s with io := io } : CoroutineScheduler V A).Clocked g := h
    split
    · exact cancelTimer_wakeTask_clocked (hio _) hr
    · exact (replaceWaitReason_clocked (hio _) hr _).bind fun _ s₁ _ hs₁ => onIo_clocked hs₁ _
    · exact ih _ (hio _)
    · trivial

theorem promoteTcpConnect_clocked (h : s.Clocked g) (answers : IoAnswers A)
    (descriptor task : Nat) :
    Post (fun _ s' => s'.Clocked g) Ends (promoteTcpConnect answers descriptor task s) := by
  refine (onIo_clocked h _).bind fun completion s₁ _ hs₁ => ?_
  cases completion with
  | connected waiter => exact cancelTimer_wakeTask_clocked hs₁ nofun
  | pending => exact hs₁
  | failed waiter e =>
    exact startConnectCandidates_clocked _ _ _ _ (.tcpConnect descriptor) nofun _ _ hs₁

theorem takeWaiter_steady (s : CoroutineScheduler V A) (job : Nat) :
    Post (fun _ s' => Steady s s') Ends (takeWaiter job s) := by
  unfold takeWaiter
  split
  · trivial
  · exact ⟨rfl, rfl, rfl, rfl⟩

theorem promoteCompletions_clocked (answers : IoAnswers A)
    (completions : List (Nat × Except String (List A))) (h : s.Clocked g) :
    Post (fun _ s' => s'.Clocked g) Ends (promoteCompletions answers completions s) := by
  induction completions generalizing s with
  | nil => exact h
  | cons completion rest ih =>
    obtain ⟨job, result⟩ := completion
    refine (takeWaiter_steady s job).bind fun waiter s₁ _ hs₁ => ?_
    have h₁ := hs₁.clocked h
    cases waiter with
    | none => exact ih h₁
    | some waiter =>
      cases result with
      | ok addresses =>
        exact (startConnectCandidates_clocked _ _ _ _ (.dnsResolve job) nofun _ _
          h₁).bind fun _ s₂ _ hs₂ => ih hs₂
      | error e => trivial

theorem promoteResolver_clocked (h : s.Clocked g) (answers : IoAnswers A) (descriptor : Nat) :
    Post (fun _ s' => s'.Clocked g) Ends (promoteResolver answers descriptor s) := by
  refine Post.get_bind ?_
  cases hr : s.resolver with
  | none => trivial
  | some r =>
    dsimp only
    split
    · refine (onIo_clocked h _).bind fun _ s₁ _ hs₁ => ?_
      refine (onIo_clocked hs₁ _).bind fun _ s₂ _ hs₂ => ?_
      refine (promoteCompletions_clocked answers _ hs₂).bind fun _ s₃ _ hs₃ => ?_
      refine Post.get_bind ?_
      cases s₃.resolver with
      | none => trivial
      | some r =>
        dsimp only
        split
        · exact onIo_clocked hs₃ _
        · exact hs₃
    · trivial

theorem promoteEvents_clocked (answers : IoAnswers A) (events : List IoReady) (h : s.Clocked g) :
    Post (fun _ s' => s'.Clocked g) Ends (promoteEvents answers events s) := by
  induction events generalizing s with
  | nil => exact h
  | cons event rest ih =>
    refine Post.bind (R := fun _ s' => s'.Clocked g) ?_ fun _ s₁ _ hs₁ => ih hs₁
    refine Post.get_bind ?_
    split
    · exact promoteResolver_clocked h answers _
    · split
      · exact promoteTcpConnect_clocked h answers _ _
      · refine wakeTask_clocked h (.inl ?_)
        cases event.direction <;> exact id

theorem promoteIo_clocked (h : s.Clocked g) (answers : IoAnswers A) :
    Post (fun _ s' => s'.Clocked g) Ends (promoteIo answers s) :=
  (onIo_clocked h _).bind fun events _ _ hs₁ => promoteEvents_clocked answers events hs₁

/-! Due timers. -/

/-- What the due timers leave: their tasks are ready, in order, and nothing else has changed. -/
structure Promoted (g : Timeline) (due : List Timer) (s s' : CoroutineScheduler V A) : Prop where
  clocked : s'.Clocked
    { g with woken := g.woken ++ due.map fun timer => (timer.deadline, timer.task) }
  ready : s'.readiness.ready = s.readiness.ready ++ due.map Timer.task

theorem promoteDueTask_expires {x : EStateM Halt (CoroutineScheduler V A) Unit} :
    Post Q Ends ((x >>= fun _ => fatal timedOut) s) := by
  simp only [bind, EStateM.bind]
  cases x s <;> trivial

theorem promoteDue_promoted (due : List Timer)
    (h : Scheduler.Clocked g s.context? s.active s.readiness.nextTimerSequence
      (due ++ s.readiness.timers)) :
    Post (fun _ s' => Promoted g due s s') Ends (promoteDue (due.map Timer.task) s) := by
  induction due generalizing s g with
  | nil => exact ⟨by simpa using h, by simp⟩
  | cons timer due ih =>
    obtain ⟨r, hc, hr, hlimit⟩ := h.owner timer List.mem_cons_self
    rw [List.map_cons, promoteDue]
    by_cases hsleep : r = .timer
    · subst hsleep
      have hwake : promoteDueTask timer.task s = .ok () (s.woken timer.task) := by
        rw [promoteDueTask, get_bind_apply]
        simp only [hc, Option.bind_some, if_true]
        exact wakeTask_eq hc
      refine Post.bind_ok hwake ?_
      have hctx : (s.woken timer.task).context? =
          Function.update s.context? timer.task (some ⟨.ready, none⟩) :=
        context?_setContext_eq hc _
      have hpop := h.pop hc
      rw [← hctx] at hpop
      refine (ih hpop).mono (fun _ s' hs' => ⟨?_, ?_⟩) fun _ _ => id
      · simpa using hs'.clocked
      · rw [hs'.ready]
        simp [woken, Readiness.enqueue]
    · apply Post.bind (R := fun _ _ => False)
      · rw [promoteDueTask, get_bind_apply]
        simp only [hc, Option.bind_some, if_true]
        cases r with
        | timer => exact absurd rfl hsleep
        | tcpConnect descriptor => exact promoteDueTask_expires
        | dnsResolve job => exact promoteDueTask_expires
        | channelSend | channelReceive | ioRead | ioWrite => exact hr.elim
      · intro _ _ _ hfalse
        exact hfalse.elim

/-- The timers that are due at a clock reading. -/
def dueTimers (s : CoroutineScheduler V A) (now : Nat) : List Timer :=
  s.readiness.timers.takeWhile fun timer => timer.deadline ≤ now

theorem promoteDueTimers_promoted (h : s.Clocked g) (now : Nat) :
    Post (fun _ s' => Promoted g (s.dueTimers now) s s') Ends (promoteDueTimers now s) := by
  have hsplit := List.takeWhile_append_dropWhile (p := fun timer : Timer => timer.deadline ≤ now)
    (l := s.readiness.timers)
  have hdue : Scheduler.Clocked g s.context? s.active s.readiness.nextTimerSequence
      (s.dueTimers now ++ s.readiness.timers.dropWhile fun timer => timer.deadline ≤ now) := by
    rw [dueTimers, hsplit]
    exact h
  have hpromoted := promoteDue_promoted (s := { s with readiness := (s.readiness.drainDue now).2 })
    (s.dueTimers now) hdue
  exact hpromoted.mono (fun _ s' hs' => ⟨hs'.clocked, hs'.ready⟩) fun _ _ => id

/-- The record of the woken tasks is that of the due timers. -/
theorem Clocked.wake_madeReady (h : s.Clocked g) (hpromote : promoteDueTimers now s = .ok () s')
    (hs' : Promoted g (s.dueTimers now) s s') :
    s.madeReady now = (s.dueTimers now).map Timer.task ∧
      g.wake (s.madeReady now) = { g with
        woken := g.woken ++ (s.dueTimers now).map fun timer => (timer.deadline, timer.task) } := by
  have hready : s.madeReady now = (s.dueTimers now).map Timer.task := by
    simp only [madeReady, hpromote, hs'.ready, List.drop_left]
  refine ⟨hready, ?_⟩
  rw [hready, Timeline.wake, List.filterMap_map]
  congr 2
  rw [← List.filterMap_eq_map]
  refine List.filterMap_congr fun timer hmem => ?_
  obtain ⟨r, -, -, hlimit⟩ := h.owner timer ((List.takeWhile_sublist _).subset hmem)
  simp [hlimit]

theorem nextTurn_clocked (h : s.Clocked g) (round : Round A) :
    Post (fun _ s' => s'.Clocked (g.wake (s.madeReady round.now))) Ends (nextTurn round s) := by
  refine (promoteDueTimers_promoted h round.now).bind fun _ s₁ hpromote hs₁ => ?_
  have hclocked := hs₁.clocked
  rw [← (h.wake_madeReady hpromote hs₁).2] at hclocked
  refine (promoteIo_clocked hclocked round.first).bind fun _ s₂ _ hs₂ => ?_
  refine Post.bind (R := fun _ s' => s'.Clocked (g.wake (s.madeReady round.now))) ?_
    fun next s₃ _ hs₃ => ?_
  · unfold popRunnable
    split <;> exact hs₂
  · cases next with
    | some task => exact hs₃
    | none =>
      refine Post.get_bind ?_
      split
      · exact (promoteIo_clocked hs₃ round.second).bind fun _ s₄ _ hs₄ => hs₄
      · exact hs₃

theorem joinTurn_clocked (h : s.Clocked g) (t : Nat) (round : Round A) :
    Post (fun _ s' => s'.Clocked (g.after s (.join t round))) Ends (joinTurn t round s) := by
  cases hc : s.context? t with
  | none =>
    simp only [joinTurn, bind, EStateM.bind, contextPtr, hc]
    trivial
  | some c =>
    have hptr : contextPtr t s = .ok c s := by simp only [contextPtr, hc]
    refine Post.bind_ok hptr ?_
    simp only [Timeline.after, hc, Option.any_some]
    cases hst : c.status with
    | waiting =>
      refine (nextTurn_clocked h round).bind fun turn s₁ _ hs₁ => ?_
      cases turn with
      | runnable task => exact resume_clocked hs₁ task
      | again => exact hs₁
      | idle => trivial
    | created => exact resume_clocked h t
    | ready => exact resume_clocked h t
    | suspended => exact resume_clocked h t
    | completed =>
      exact h.setContext hc (h.free_of_status hc (by simp [hst])) (by simp [hst]) _ (by simp)
    | failed =>
      exact h.setContext hc (h.free_of_status hc (by simp [hst])) (by simp [hst]) _ (by simp)
    | joined => trivial
    | cancelled => trivial
    | running => trivial

end CoroutineScheduler

namespace SchedulerCall

variable {s s' : CoroutineScheduler V A} {g : Timeline}

theorem apply_clocked (h : s.Clocked g) (call : SchedulerCall V A) :
    Post (fun _ s' => s'.Clocked (g.after s call)) Ends (call.apply s) := by
  cases call with
  | spawn => exact (spawn_clocked h).bind fun _ _ _ hs => hs
  | resume task => exact resume_clocked h task
  | join task round => exact joinTurn_clocked h task round
  | suspend => exact suspendActive_manual_clocked h
  | complete failed => exact completeActive_clocked h failed
  | createChannel capacity => exact (createChannel_clocked h capacity).bind fun _ _ _ hs => hs
  | send channel value => exact send_clocked h channel value
  | receive channel frame returnValue => exact receive_clocked h channel frame returnValue
  | sleep deadline => exact sleep_clocked h deadline
  | createStreamPair => exact (onIo_clocked h _).bind fun _ _ _ hs => hs
  | createTcpListener => exact (onIo_clocked h _).bind fun _ _ _ hs => hs
  | createUdpSocket => exact (onIo_clocked h _).bind fun _ _ _ hs => hs
  | acceptTcp listener present => exact (onIo_clocked h _).bind fun _ _ _ hs => hs
  | wait descriptor direction => exact waitDescriptor_clocked h descriptor direction
  | connectTcp timeout start frame returnValue =>
    exact connectTcp_clocked h timeout start frame returnValue
  | resolveAndConnectTcp timeout noResolver refused frame returnValue =>
    exact resolveAndConnectTcp_clocked h timeout noResolver refused frame returnValue

theorem step_clocked (h : s.Clocked g) {call : SchedulerCall V A} (hstep : call.step s = some s') :
    s'.Clocked (g.after s call) := by
  have happ := apply_clocked h call
  unfold step at hstep
  split at hstep
  · rename_i heq
    cases hstep
    rw [heq] at happ
    exact happ
  · cases hstep

/-- The scheduler beside its record. -/
def InTime (x : CoroutineScheduler V A × Timeline) : Prop := x.1.Clocked x.2

theorem InTime.empty : InTime (({}, {}) : CoroutineScheduler V A × Timeline) := by
  have hnone : ({} : CoroutineScheduler V A).context? = fun _ => none := by
    funext t
    simp [context?]
  unfold InTime CoroutineScheduler.Clocked
  rw [hnone]
  exact ⟨.nil, fun _ ht => (by cases ht), .nil, fun _ ht => (by cases ht), fun _ ht => (by cases ht),
    fun _ ht => (by cases ht), fun _ => rfl⟩

theorem run_clocked (calls : List (SchedulerCall V A))
    (hrun : run timedStep ({}, {}) calls = some (s, g)) : s.Clocked g := by
  have hstep : ∀ x call y, InTime (V := V) (A := A) x → True → timedStep x call = some y →
      InTime y := by
    intro x call y hx _ hy
    obtain ⟨t, ht, rfl⟩ := Option.map_eq_some_iff.1 hy
    exact step_clocked hx ht
  have hinv : InTime (s, g) :=
    run_invariant hstep InTime.empty (meets_of_forall (fun _ _ => trivial) _ _) hrun
  exact hinv

theorem ask_woken (g : Timeline) (s : CoroutineScheduler V A) (limit : Option Nat) :
    (g.ask s limit).woken = g.woken := by
  unfold Timeline.ask
  split <;> rfl

/-- Only timers that are due end a sleep. -/
theorem tasksAt_wake (h : s.Clocked g) (hd : now < d) :
    tasksAt d (g.wake (s.madeReady now)).woken = tasksAt d g.woken := by
  cases hpromote : promoteDueTimers now s with
  | error e s' => simp [madeReady, hpromote, Timeline.wake]
  | ok a s' =>
    have hs' := promoteDueTimers_promoted h now
    rw [hpromote] at hs'
    rw [(h.wake_madeReady hpromote hs').2, tasksAt, List.filter_append, List.map_append]
    have hnil : ((s.dueTimers now).map fun timer => (timer.deadline, timer.task)).filter
        (fun entry => entry.1 = d) = [] := by
      rw [List.filter_eq_nil_iff]
      intro entry hmem
      obtain ⟨timer, htimer, rfl⟩ := List.mem_map.1 hmem
      have hdue := List.mem_takeWhile_imp (p := fun timer : Timer => timer.deadline ≤ now) htimer
      have hle : timer.deadline ≤ now := of_decide_eq_true hdue
      simp only [decide_eq_true_eq]
      omega
    rw [hnil, List.map_nil, List.append_nil]
    rfl

/-- A call that is no join with a late enough clock reading ends no sleep of the deadline. -/
theorem tasksAt_woken (h : s.Clocked g) (call : SchedulerCall V A)
    (hcall : ∀ t round, call = .join t round → round.now < d) :
    tasksAt d (g.after s call).woken = tasksAt d g.woken := by
  cases call with
  | join t round =>
    simp only [Timeline.after]
    split
    · exact tasksAt_wake h (hcall t round rfl)
    · rfl
  | sleep deadline =>
    simp only [Timeline.after, Timeline.sleep]
    split
    · rw [ask_woken]
    · rfl
  | send | receive | wait | connectTcp | resolveAndConnectTcp =>
    simp only [Timeline.after, ask_woken]
  | _ => rfl

theorem tasksAt_slept (g : Timeline) (s : CoroutineScheduler V A) (call : SchedulerCall V A)
    (d : Nat) : tasksAt d g.slept <+: tasksAt d (g.after s call).slept := by
  have hask (limit : Option Nat) : (g.ask s limit).slept = g.slept := by
    unfold Timeline.ask
    split <;> rfl
  cases call with
  | join t round =>
    simp only [Timeline.after]
    split <;> exact List.prefix_rfl
  | sleep deadline =>
    simp only [Timeline.after, Timeline.sleep]
    split
    · simp only [tasksAt, List.filter_append, List.map_append]
      exact List.prefix_append _ _
    · exact List.prefix_rfl
  | send | receive | wait | connectTcp | resolveAndConnectTcp =>
    simp only [Timeline.after, hask]
    exact List.prefix_rfl
  | _ => exact List.prefix_rfl

/-- A task that stops sleeping in a step does so in a join that has read its deadline or later. -/
theorem wake_not_early (h : s.Clocked g) {call : SchedulerCall V A}
    (hstep : call.step s = some s') (hs : Sleeps s.context? t) (hs' : ¬ Sleeps s'.context? t) :
    ∃ u round d, call = .join u round ∧ g.limit t = some d ∧ d ≤ round.now := by
  obtain ⟨timer, hmem, rfl⟩ := List.mem_map.1 (h.asleep t hs)
  obtain ⟨r, -, -, hlimit⟩ := h.owner timer hmem
  by_contra hnot
  have hearly : ∀ u round, call = .join u round → round.now < timer.deadline := by
    intro u round hcall
    by_contra hlate
    exact hnot ⟨u, round, _, hcall, hlimit, Nat.not_lt.1 hlate⟩
  have hafter := (step_clocked h hstep).fifo timer.deadline
  obtain ⟨begun, hbegun⟩ := tasksAt_slept g s call timer.deadline
  rw [tasksAt_woken h call hearly, ← hbegun, h.fifo, List.append_assoc,
    List.append_cancel_left_eq] at hafter
  have hsleeper : timer.task ∈ sleepersAt s.context? timer.deadline s.readiness.timers :=
    List.mem_map_of_mem (List.mem_filter.2 ⟨hmem, decide_eq_true ⟨rfl, hs⟩⟩)
  have hstays : timer.task ∈ sleepersAt s'.context? timer.deadline s'.readiness.timers := by
    rw [← hafter]
    exact List.mem_append_left _ hsleeper
  obtain ⟨other, hother, htask⟩ := List.mem_map.1 hstays
  have hsleeps := (of_decide_eq_true (List.mem_filter.1 hother).2).2
  rw [htask] at hsleeps
  exact hs' hsleeps

/-- In every run a task owns at most one timer, only while it sleeps or waits for a connect or a
resolve, and for the deadline that it gave this wait; a sleep ends only in a join that has read its
deadline or later; and the sleeps of one deadline that have ended are the first of those begun, in
the order in which they were begun. -/
theorem run_timers (calls : List (SchedulerCall V A))
    (hrun : run timedStep ({}, {}) calls = some (s, g)) :
    (∀ t, (s.readiness.timers.map Timer.task).count t ≤ 1) ∧
    (∀ timer ∈ s.readiness.timers, ∃ r, s.context? timer.task = some ⟨.waiting, some r⟩ ∧
      r.HasTimer ∧ g.limit timer.task = some timer.deadline) ∧
    (∀ (call : SchedulerCall V A) s', call.step s = some s' → ∀ t, Sleeps s.context? t →
      ¬ Sleeps s'.context? t →
        ∃ u round d, call = .join u round ∧ g.limit t = some d ∧ d ≤ round.now) ∧
    ∀ d, tasksAt d g.slept = tasksAt d g.woken ++ sleepersAt s.context? d s.readiness.timers := by
  have h := run_clocked calls hrun
  exact ⟨fun t => List.nodup_iff_count_le_one.1 h.single t, h.owner,
    fun call s' hstep t hs hs' => wake_not_early h hstep hs hs', h.fifo⟩

/-- Three tasks sleep, two of them to one deadline, and a join at that deadline wakes the two. -/
theorem run_timers_equal_deadlines :
    let quiet : IoAnswers Nat := {
      poll := .reported fun _ => {}
      probe := fun _ => .pending
      start := fun _ _ _ => .inProgress
      drainFailure := none
      completions := [] }
    let calls : List (SchedulerCall Unit Nat) :=
      [.spawn, .spawn, .spawn, .resume 2, .sleep (some 5), .resume 3, .sleep (some 9), .resume 1,
        .sleep (some 5), .join 3 ⟨6, quiet, quiet⟩]
    (run timedStep ({}, {}) calls).map (fun x => (tasksAt 5 x.2.slept, tasksAt 5 x.2.woken)) =
        some ([2, 1], [2, 1]) ∧
      ∀ s g, run timedStep ({}, {}) calls = some (s, g) →
        tasksAt 9 g.slept = tasksAt 9 g.woken ++ sleepersAt s.context? 9 s.readiness.timers :=
  ⟨by decide +kernel, fun _ _ hrun => (run_timers _ hrun).2.2.2 9⟩

end SchedulerCall

end Rphp.Scheduler
