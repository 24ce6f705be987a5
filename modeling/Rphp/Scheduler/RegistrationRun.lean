import Rphp.Scheduler.RegistrationEvents
import Rphp.Lib.Run

namespace Rphp.Scheduler
open Lib
set_option autoImplicit true

namespace CoroutineScheduler

theorem Expects.not_ready {r : WaitReason} (h : r.Expects .ready n) : n = 0 := by
  cases r <;> simpa [WaitReason.Expects, WaitReason.place] using h

/-- The ready queue holds exactly the runnable tasks. -/
theorem Tasks.mem_ready {s : CoroutineScheduler V A} (h : s.Tasks none [] []) :
    t ∈ s.readiness.ready ↔ ∃ c, s.context? t = some c ∧ c.status.runnable := by
  have hset := h.settled t .ready nofun (not_exempt nofun)
  constructor
  · intro ht
    have hpos : 0 < s.occurrences [] [] t .ready := List.count_pos_iff.2 ht
    cases hc : s.context? t with
    | none =>
      rw [hc] at hset
      exact absurd hset hpos.ne'
    | some c =>
      rw [hc] at hset
      refine ⟨c, rfl, ?_⟩
      by_contra hrun
      simp only [Expected, hrun, if_false] at hset
      split at hset
      · omega
      · exact absurd (Expects.not_ready hset) hpos.ne'
  · rintro ⟨c, hc, hrun⟩
    rw [hc] at hset
    simp only [Expected, hrun, if_true] at hset
    have hone : s.readiness.ready.count t = 1 := hset
    exact List.count_pos_iff.1 (by omega)

/-- A task that was taken out of the ready queue and has not been resumed yet. -/
structure Popped (t : Nat) (s : CoroutineScheduler V A) : Prop where
  count : s.readiness.ready.count t = 0
  entering : ∃ c, s.context? t = some c ∧ c.status.runnable ∧ (s.active = none → s.Entering t c)

theorem popRunnable_eq {s : CoroutineScheduler V A} (h : s.Tasks none [] []) :
    popRunnable s = match s.readiness.ready with
      | [] => .ok none s
      | t :: rest => .ok (some t) { s with readiness := { s.readiness with ready := rest } } := by
  unfold popRunnable
  cases hready : s.readiness.ready with
  | nil =>
    simp only [List.dropWhile_nil]
    rw [← hready]
  | cons t rest =>
    have hrun : s.isRunnable t = true := by
      obtain ⟨c, hc, hrun⟩ := h.mem_ready.1 (hready ▸ List.mem_cons_self : t ∈ s.readiness.ready)
      simp [isRunnable, hc, hrun]
    rw [List.dropWhile_cons_of_neg (by simp [hrun])]

theorem Popped.of_head {s : CoroutineScheduler V A} (h : s.Tasks none [] [])
    (hw : s.Wired (fun _ => False) []) (hready : s.readiness.ready = t :: rest) :
    Popped t { s with readiness := { s.readiness with ready := rest } } := by
  obtain ⟨c, hc, hrun⟩ := h.mem_ready.1 (hready ▸ List.mem_cons_self : t ∈ s.readiness.ready)
  have hexp : ∀ p, s.occurrences [] [] t p = if p = .ready then 1 else 0 := by
    intro p
    have := h.settled t p nofun fun he => h.not_wake hc he.1
    rw [hc] at this
    simpa only [Expected, hrun, if_true] using this
  have hcount : rest.count t = 0 := by
    have := hexp .ready
    simpa [occurrences, hready] using this
  refine ⟨hcount, c, hc, hrun, fun hidle => ⟨?_, hw.setReadiness _, hidle, hc, ?_, fun p hp => ?_⟩⟩
  · refine (h.open t).of_occurrences rfl rfl rfl fun u p hu _ => ?_
    cases p with
    | ready =>
      have hu : t ≠ u := fun he => hu (he ▸ rfl)
      simp [occurrences, hready, hu]
    | _ => rfl
  · have := h.waiting t c nofun hc
    cases hst : c.status <;> simp_all [CoroutineStatus.runnable]
  · have := hexp p
    rw [if_neg hp] at this
    cases p with
    | ready => exact absurd rfl hp
    | _ => exact this

/-- Nothing is left that could wake a task. -/
structure Idle (s : CoroutineScheduler V A) : Prop where
  ready : s.readiness.ready = []
  timers : s.readiness.timers = []
  queues : ∀ d dir, s.io.queue d dir = []

theorem queue_eq_nil {io : IoSet A} (h : io.hasWaiters = false) (d : Nat) (dir : IoDirection) :
    io.queue d dir = [] := by
  unfold IoSet.queue
  split
  · rename_i state hd
    have hmem : (⟨d, state⟩ : (_ : Nat) × DescriptorState) ∈ io.descriptors.entries :=
      AList.mem_lookup_iff.1 hd
    have := List.any_eq_false.1 h _ hmem
    cases dir <;> simp_all [DescriptorState.queue]
  · rfl

/-- The tasks that still wait in an idle scheduler wait for each other. -/
theorem Idle.waiting {s : CoroutineScheduler V A} (h : s.Idle) (htasks : s.Tasks none [] [])
    (hw : s.Wired failing []) (hc : s.context? t = some c) :
    c.status.runnable = false ∧ ∀ r, c.waitReason = some r →
      ∃ channel, r = .channelSend channel ∨ r = .channelReceive channel := by
  have hrun : c.status.runnable = false := by
    by_contra hrun
    have := htasks.mem_ready.2 ⟨c, hc, by simpa using hrun⟩
    rw [h.ready] at this
    cases this
  refine ⟨hrun, fun r hr => ?_⟩
  have hexp : ∀ p, r.Expects p (s.occurrences [] [] t p) := by
    intro p
    have := htasks.settled t p nofun fun he => htasks.not_wake hc he.1
    rw [hc] at this
    simpa only [Expected, hrun, hr, Bool.false_eq_true, if_false] using this
  have hqueue : ∀ d dir, s.occurrences [] [] t (.ofDirection d dir) = 0 := by
    intro d dir
    simp [occurrences_ofDirection, h.queues]
  cases r with
  | channelSend channel => exact ⟨channel, .inl rfl⟩
  | channelReceive channel => exact ⟨channel, .inr rfl⟩
  | timer =>
    have := hexp .timer
    simp [WaitReason.Expects, WaitReason.place, occurrences, h.timers] at this
  | ioRead d =>
    have := hexp (.ofDirection d .readable)
    rw [hqueue] at this
    simp [WaitReason.Expects, WaitReason.place, Place.ofDirection] at this
  | ioWrite d =>
    have := hexp (.ofDirection d .writable)
    rw [hqueue] at this
    simp [WaitReason.Expects, WaitReason.place, Place.ofDirection] at this
  | tcpConnect d =>
    have := hexp (.ofDirection d .writable)
    rw [hqueue] at this
    simp [WaitReason.Expects, WaitReason.place, Place.ofDirection] at this
  | dnsResolve job =>
    have hjob := hexp (.resolver job)
    simp only [WaitReason.Expects, WaitReason.place, if_true, occurrences] at hjob
    have htask : s.resolveTask job = some t := by
      by_contra hne
      rw [if_neg hne] at hjob
      cases hjob
    obtain ⟨r, hr, -⟩ := Option.bind_eq_some_iff.1 htask
    rcases hw.armed r job hr (by rw [htask]; rfl) with ha | ⟨e, he, -⟩
    · rw [h.queues] at ha
      cases ha
    · cases he

theorem Wired.weaken {s : CoroutineScheduler V A} (h : s.Wired failing events)
    (hf : ∀ d, failing' d → failing d) : s.Wired failing' events :=
  ⟨⟨h.placed, h.apart, fun d dir t t' hd => h.alone d dir t t' (hf d hd), h.awake⟩, h.armed⟩

/-- What one pass leaves behind. -/
def Turned (failing : Nat → Prop) (s : CoroutineScheduler V A) : Turn → Prop
  | .runnable t => s.Popped t
  | .again => s.Tasks none [] [] ∧ s.Wired failing []
  | .idle => s.Tasks none [] [] ∧ s.Wired failing [] ∧ s.Idle

theorem nextTurn_turned {s : CoroutineScheduler V A} {round : Round A} (h : s.Tasks none [] [])
    (hw : s.Wired failing []) (hfirst : ∀ d, (round.first.probe d).fails → failing d)
    (hsecond : ∀ d, (round.second.probe d).fails → failing d) :
    Post (fun turn s' => s'.Turned failing turn) Aborts (nextTurn round s) := by
  refine (promoteDueTimers_sound h hw round.now).bind fun _ s _ hs => ?_
  refine (promoteIo_sound hs.1 hs.2 hfirst).bind fun _ s _ hs => ?_
  obtain ⟨h, hw⟩ := hs
  have hpop := popRunnable_eq h
  cases hready : s.readiness.ready with
  | cons t rest =>
    rw [hready] at hpop
    exact Post.bind_ok hpop (Popped.of_head h (hw.weaken nofun) hready)
  | nil =>
    rw [hready] at hpop
    refine Post.bind_ok hpop (Post.get_bind ?_)
    cases hio : s.io.hasWaiters with
    | true => exact (promoteIo_sound h hw hsecond).bind fun _ _ _ hs => hs
    | false =>
      cases htimers : s.readiness.timers with
      | cons timer timers =>
        simp only [Readiness.nextDeadline, htimers]
        exact ⟨h, hw⟩
      | nil =>
        simp only [Readiness.nextDeadline, htimers]
        exact ⟨h, hw, hready, htimers, queue_eq_nil hio⟩

theorem nextRunnable_turned {s : CoroutineScheduler V A} {rounds : List (Round A)}
    (h : s.Tasks none [] []) (hw : s.Wired failing [])
    (hfail : ∀ round ∈ rounds, ∀ d,
      (round.first.probe d).fails ∨ (round.second.probe d).fails → failing d) :
    Post (fun turn s' => s'.Turned failing turn) Aborts (nextRunnable rounds s) := by
  induction rounds generalizing s with
  | nil => exact ⟨h, hw⟩
  | cons round rounds ih =>
    have hround := hfail round List.mem_cons_self
    refine (nextTurn_turned h hw (fun d hd => hround d (.inl hd))
      fun d hd => hround d (.inr hd)).bind fun turn s' _ hs' => ?_
    cases turn with
    | again => exact ih hs'.1 hs'.2 fun r hr => hfail r (List.mem_cons_of_mem _ hr)
    | runnable t => exact hs'
    | idle => exact hs'

theorem Popped.resume {s : CoroutineScheduler V A} (h : s.Popped t) :
    Post (fun _ s' => s'.Sound) Aborts (resume t s) := by
  obtain ⟨hcount, c, hc, hrun, hentering⟩ := h
  refine resume_entering hc ?_ hentering (hcount.trans_le (Nat.zero_le _))
  cases hst : c.status <;> simp_all [CoroutineStatus.runnable]

/-- A finished task is joined. -/
theorem Sound.joined {s : CoroutineScheduler V A} (h : s.Sound) (hc : s.context? t = some c)
    (hst : c.status = .completed ∨ c.status = .failed) :
    (s.setContext t { c with status := .joined }).Sound := by
  have hexp : ∀ p, Expected p (s.occurrences [] [] t p) (some c) := by
    intro p
    rw [← hc]
    exact h.tasks.settled t p nofun fun he => h.tasks.not_wake hc he.1
  have hnone : c.waitReason = none := by
    have := h.tasks.waiting t c nofun hc
    rcases hst with hst | hst <;> simpa [hst] using this
  have hopen : (s.setContext t { c with status := .joined }).Tasks (some t) [] [] := by
    refine (h.tasks.open t).setHole hc ?_
    rcases hst with hst | hst <;> simp [hst]
  refine ⟨hopen.close ((context?_setContext hc _).trans (if_pos rfl)) ?_ fun p => ?_,
    h.wired.setContext t _⟩
  · simp [hnone]
  · rw [setContext_occurrences]
    have := hexp p
    rcases hst with hst | hst <;> simpa [Expected, CoroutineStatus.runnable, hst, hnone] using this

theorem joinTurn_sound {s : CoroutineScheduler V A} {round : Round A} (h : s.Sound) (t : Nat)
    (hw : s.Wired (fun d => (round.first.probe d).fails ∨ (round.second.probe d).fails) []) :
    Post (fun _ s' => s'.Sound) Aborts (joinTurn t round s) := by
  refine (contextPtr_post s t).bind fun c s' _ hs' => ?_
  obtain ⟨rfl, hc⟩ := hs'
  cases hst : c.status with
  | created => exact resume_sound h t
  | ready => exact resume_sound h t
  | suspended => exact resume_sound h t
  | waiting =>
    refine (nextTurn_turned h.tasks hw (fun _ => .inl) fun _ => .inr).bind fun turn s _ hs => ?_
    cases turn with
    | runnable u => exact Popped.resume hs
    | again => exact ⟨hs.1, hs.2.weaken nofun⟩
    | idle => exact ⟨_, rfl⟩
  | completed => exact h.joined hc (.inl hst)
  | failed => exact h.joined hc (.inr hst)
  | joined => exact ⟨_, rfl⟩
  | cancelled => exact ⟨_, rfl⟩
  | running => exact ⟨_, rfl⟩

theorem Sound.empty : ({} : CoroutineScheduler V A).Sound where
  tasks := by
    refine ⟨rfl, Int.le_of_lt (by decide : (0 : Int) < i64Max), fun t => ⟨nofun, ?_⟩, fun t c _ hc => ?_, fun t p _ _ => ?_⟩
    · rintro ⟨c, hc, -⟩
      simp [context?] at hc
    · simp [context?] at hc
    · have hnone : ({} : CoroutineScheduler V A).context? t = none := by simp [context?]
      rw [hnone]
      have hchannel : ∀ k, (ChannelSet.empty : ChannelSet V).channel? k = none := by
        simp [ChannelSet.channel?, ChannelSet.empty]
      cases p with
      | sender k => simp [Expected, occurrences, ChannelSet.senderTasks, hchannel]
      | receiver k => simp [Expected, occurrences, ChannelSet.receiverTasks, hchannel]
      | _ => rfl
  wired := ⟨⟨⟨nofun, nofun⟩, nofun, fun _ _ _ _ hf => hf.elim, nofun⟩, nofun⟩

/-- A connection fails in this pass only while no other task is queued on its descriptor. -/
def Round.FailsAlone (round : Round A) (s : CoroutineScheduler V A) : Prop :=
  ∀ d ∈ s.io.connectWaiters.keys, (round.first.probe d).fails ∨ (round.second.probe d).fails →
    ∀ t ∈ s.io.queue d .readable ++ s.io.queue d .writable, s.io.connectTask d = some t

instance (round : Round A) (s : CoroutineScheduler V A) : Decidable (round.FailsAlone s) :=
  inferInstanceAs (Decidable (∀ d ∈ s.io.connectWaiters.keys,
    (round.first.probe d).fails ∨ (round.second.probe d).fails →
      ∀ t ∈ s.io.queue d .readable ++ s.io.queue d .writable, s.io.connectTask d = some t))

end CoroutineScheduler

open CoroutineScheduler

/-- The calls of a program and of the scope around it. -/
inductive SchedulerCall (V A : Type) where
  | spawn
  | resume (task : Nat)
  | join (task : Nat) (round : Round A)
  | suspend
  | complete (failed : Bool)
  | createChannel (capacity : Nat)
  | send (channel : Nat) (value : V)
  | receive (channel frame returnValue : Nat)
  | sleep (deadline : Option Nat)
  | createStreamPair
  | createTcpListener
  | createUdpSocket
  | acceptTcp (listener : Nat) (present : Bool)
  | wait (descriptor : Nat) (direction : IoDirection)
  | connectTcp (timeout : Timeout) (start : ConnectStart) (frame returnValue : Nat)
  | resolveAndConnectTcp (timeout : Timeout) (noResolver refused : Option VmError)
      (frame returnValue : Nat)

namespace SchedulerCall

def apply : SchedulerCall V A → EStateM Halt (CoroutineScheduler V A) Unit
  | spawn => do let _ ← CoroutineScheduler.spawn
  | resume task => CoroutineScheduler.resume task
  | join task round => joinTurn task round
  | suspend => suspendActive .manual
  | complete failed => completeActive failed
  | createChannel capacity => do let _ ← CoroutineScheduler.createChannel capacity
  | send channel value => CoroutineScheduler.send channel value
  | receive channel frame returnValue => CoroutineScheduler.receive channel frame returnValue
  | sleep deadline => CoroutineScheduler.sleep deadline
  | createStreamPair => do let _ ← onIo IoSet.createPair
  | createTcpListener => do let _ ← onIo IoSet.createTcpListener
  | createUdpSocket => do let _ ← onIo IoSet.createUdpSocket
  | acceptTcp listener present => do let _ ← onIo (IoSet.accept listener present)
  | wait descriptor direction => waitDescriptor descriptor direction
  | connectTcp timeout start frame returnValue =>
    CoroutineScheduler.connectTcp timeout start frame returnValue
  | resolveAndConnectTcp timeout noResolver refused frame returnValue =>
    CoroutineScheduler.resolveAndConnectTcp timeout noResolver refused frame returnValue

/-- Every error is fatal and ends the run. -/
def step (s : CoroutineScheduler V A) (call : SchedulerCall V A) : Option (CoroutineScheduler V A) :=
  match call.apply s with
  | .ok _ t => some t
  | .error _ _ => none

def ConnectFailsAlone (s : CoroutineScheduler V A) : SchedulerCall V A → Prop
  | join _ round => round.FailsAlone s
  | _ => True

instance (s : CoroutineScheduler V A) (call : SchedulerCall V A) :
    Decidable (call.ConnectFailsAlone s) :=
  match call with
  | join _ round => inferInstanceAs (Decidable (round.FailsAlone s))
  | spawn | resume _ | suspend | complete _ | createChannel _ | send _ _ | receive _ _ _ | sleep _
  | createStreamPair | createTcpListener | createUdpSocket | acceptTcp _ _ | wait _ _
  | connectTcp _ _ _ _ | resolveAndConnectTcp _ _ _ _ _ => .isTrue trivial

theorem alone_of_failsAlone {s : CoroutineScheduler V A} {rounds : List (Round A)}
    (h : s.Wired (fun _ => False) []) (hok : ∀ round ∈ rounds, round.FailsAlone s) :
    s.Wired (fun d => ∃ round ∈ rounds,
      (round.first.probe d).fails ∨ (round.second.probe d).fails) [] := by
  refine ⟨⟨h.placed, h.apart, fun d dir t t' hd ht ht' => ?_, h.awake⟩, h.armed⟩
  obtain ⟨round, hround, hd⟩ := hd
  have hmem : d ∈ s.io.connectWaiters.keys := by
    obtain ⟨waiter, hw, -⟩ := Option.map_eq_some_iff.1 ht
    exact AList.mem_keys.1 (AList.lookup_isSome.1 (hw ▸ rfl))
  have hin : t' ∈ s.io.queue d .readable ++ s.io.queue d .writable := by
    cases dir with
    | readable => exact List.mem_append_left _ ht'
    | writable => exact List.mem_append_right _ ht'
  have hsame := hok round hround d hmem hd t' hin
  exact Option.some.inj (hsame.symm.trans ht)

theorem apply_sound {s : CoroutineScheduler V A} {call : SchedulerCall V A} (h : s.Sound)
    (hok : call.ConnectFailsAlone s) :
    Post (fun _ t => t.Sound) Aborts (call.apply s) := by
  have hplaced := h.wired.placed
  cases call with
  | spawn => exact (spawn_sound h).bind fun _ _ _ ht => ht
  | resume task => exact resume_sound h task
  | join task round =>
    have halone : ∀ r ∈ [round], r.FailsAlone s := by
      intro r hr
      rw [List.mem_singleton.1 hr]
      exact hok
    exact joinTurn_sound h task ((alone_of_failsAlone h.wired halone).weaken fun d hd =>
      ⟨round, List.mem_singleton_self _, hd⟩)
  | suspend => exact suspendActive_manual_sound h
  | complete failed => exact completeActive_sound h failed
  | createChannel capacity => exact (createChannel_sound h capacity).bind fun _ _ _ ht => ht
  | send channel value => exact send_sound h channel value
  | receive channel frame returnValue => exact receive_sound h channel frame returnValue
  | sleep deadline => exact sleep_sound h deadline
  | createStreamPair => exact (onIo_sound h (IoSet.createPair_quiet hplaced)).bind fun _ _ _ ht => ht
  | createTcpListener =>
    exact (onIo_sound h (IoSet.register_quiet hplaced .listener)).bind fun _ _ _ ht => ht
  | createUdpSocket =>
    exact (onIo_sound h (IoSet.register_quiet hplaced .datagram)).bind fun _ _ _ ht => ht
  | acceptTcp listener present =>
    exact (onIo_sound h (IoSet.accept_quiet hplaced listener present)).bind fun _ _ _ ht => ht
  | wait descriptor direction => exact waitDescriptor_sound h descriptor direction
  | connectTcp timeout start frame returnValue =>
    exact connectTcp_sound h timeout start frame returnValue
  | resolveAndConnectTcp timeout noResolver refused frame returnValue =>
    exact resolveAndConnectTcp_sound h timeout noResolver refused frame returnValue

theorem step_sound {s t : CoroutineScheduler V A} {call : SchedulerCall V A} (h : s.Sound)
    (hok : call.ConnectFailsAlone s) (hstep : call.step s = some t) : t.Sound := by
  have happ := apply_sound h hok
  unfold step at hstep
  split at hstep
  · rename_i heq
    cases hstep
    rw [heq] at happ
    exact happ
  · cases hstep

/-- Every task is registered exactly where its state asks, no call finds a waiting task in an
inconsistent state, and nothing runnable is reported only when nothing is left to wait for. -/
theorem run_registered {s : CoroutineScheduler V A} (calls : List (SchedulerCall V A))
    (hok : Meets step ConnectFailsAlone {} calls) (hrun : run step {} calls = some s) :
    (∀ t c, s.context? t = some c →
      (c.status.runnable → ∀ p, s.occurrences [] [] t p = if p = .ready then 1 else 0) ∧
      (c.status = .waiting →
        ∃ r, c.waitReason = some r ∧ ∀ p, r.Expects p (s.occurrences [] [] t p)) ∧
      (c.status.runnable = false → c.status ≠ .waiting →
        c.waitReason = none ∧ ∀ p, s.occurrences [] [] t p = 0)) ∧
    (∀ (call : SchedulerCall V A) e s', call.ConnectFailsAlone s → call.apply s = .error e s' →
      ∀ t, e ≠ .inconsistentReadiness t ∧ e ≠ .inconsistentTransition t) ∧
    ∀ (rounds : List (Round A)) s', (∀ round ∈ rounds, round.FailsAlone s) →
      nextRunnable rounds s = .ok .idle s' →
      s'.readiness.timers = [] ∧ (∀ d dir, s'.io.queue d dir = []) ∧
        ∀ t c, s'.context? t = some c → c.status.runnable = false ∧
          ∀ r, c.waitReason = some r →
            ∃ channel, r = .channelSend channel ∨ r = .channelReceive channel := by
  have h : s.Sound :=
    run_invariant (fun _ _ _ hs hc ht => step_sound hs hc ht) Sound.empty hok hrun
  refine ⟨fun t c hc => ?_, fun call e s' hcall herr t => ?_, fun rounds s' hrounds hidle => ?_⟩
  · have hexp : ∀ p, Expected p (s.occurrences [] [] t p) (some c) := by
      intro p
      rw [← hc]
      exact h.tasks.settled t p (by simp) fun he => h.tasks.not_wake hc he.1
    have hwait := h.tasks.waiting t c (by simp) hc
    refine ⟨fun hrun p => ?_, fun hst => ?_, fun hrun hst => ?_⟩
    · have := hexp p
      simpa only [Expected, hrun, if_true] using this
    · obtain ⟨r, hr⟩ := Option.isSome_iff_exists.1 (hwait.1 hst)
      refine ⟨r, hr, fun p => ?_⟩
      have := hexp p
      simpa [Expected, CoroutineStatus.runnable, hst, hr] using this
    · have hr : c.waitReason = none := by simpa [hst] using hwait
      refine ⟨hr, fun p => ?_⟩
      have := hexp p
      simpa only [Expected, hrun, hr, Bool.false_eq_true, if_false] using this
  · have happ := apply_sound h hcall
    rw [herr] at happ
    obtain ⟨a, rfl⟩ := happ
    exact ⟨fun heq => (by cases heq), fun heq => by cases heq⟩
  · have hturn := nextRunnable_turned h.tasks (alone_of_failsAlone h.wired hrounds)
      fun round hround d hd => ⟨round, hround, hd⟩
    rw [hidle] at hturn
    obtain ⟨htasks, hw, hidle⟩ := hturn
    exact ⟨hidle.timers, hidle.queues, fun t c hc => hidle.waiting htasks hw hc⟩

/-- A host is resolved to three addresses; the first refuses and the second is tried. -/
theorem run_registered_second_address :
    let answers : IoAnswers Nat := {
      poll := .reported fun _ => { readable := true, writable := true }
      probe := fun _ => .failed "connect coroutine TCP stream" "refused"
      start := fun _ _ _ => .inProgress
      drainFailure := none
      completions := [(1, .ok [1, 2, 3])] }
    let calls : List (SchedulerCall Unit Nat) :=
      [.spawn, .resume 1, .resolveAndConnectTcp (.before 5) none none 0 0,
        .join 1 ⟨0, answers, answers⟩]
    (run step {} calls).isSome ∧ ∀ s, run step {} calls = some s →
      ∀ t c, s.context? t = some c → c.status = .waiting →
        ∃ r, c.waitReason = some r ∧ ∀ p, r.Expects p (s.occurrences [] [] t p) :=
  ⟨by decide +kernel, fun _ hs t c hc =>
    ((run_registered _ (by decide +kernel) hs).1 t c hc).2.1⟩

/-- A task that connects with a time limit is registered in three places. -/
theorem connecting_task_registered_thrice :
    ∃ s, run step ({} : CoroutineScheduler Unit Unit)
        [.spawn, .resume 1, .connectTcp (.before 5) .inProgress 0 0] = some s ∧
      s.context? 1 = some ⟨.waiting, some (.tcpConnect 1)⟩ ∧
      s.occurrences [] [] 1 (.connect 1) = 1 ∧ s.occurrences [] [] 1 (.writer 1) = 1 ∧
      s.occurrences [] [] 1 .timer = 1 :=
  ⟨_, rfl, by decide +kernel, by decide +kernel, by decide +kernel, by decide +kernel⟩

end SchedulerCall

end Rphp.Scheduler
