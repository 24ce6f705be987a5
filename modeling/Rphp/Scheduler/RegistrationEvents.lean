import Rphp.Scheduler.RegistrationSteps

namespace Rphp.Scheduler
open Lib
set_option autoImplicit true

namespace CoroutineScheduler

/-- A task about to run: outside of the ready queue it has no registration. -/
structure Entering (t : Nat) (c : CoroutineContext) (s : CoroutineScheduler V A) : Prop where
  tasks : s.Tasks (some t) [] []
  wired : s.Wired (fun _ => False) []
  idle : s.active = none
  context : s.context? t = some c
  reason : c.waitReason = none
  zero : ∀ p, p ≠ .ready → s.occurrences [] [] t p = 0

theorem Entering.removeReady {s : CoroutineScheduler V A} (h : s.Entering t c)
    (hle : s.readiness.ready.count t ≤ 1) :
    Entering t c { s with readiness := s.readiness.removeReady t } ∧
      (s.readiness.removeReady t).ready.count t = 0 := by
  have hz : ∀ u, (s.readiness.removeReady t).ready.count u =
      if u = t then 0 else s.readiness.ready.count u := by
    intro u
    by_cases hu : u = t
    · subst hu
      simp only [Readiness.removeReady, List.count_erase_self, if_true]
      omega
    · simp only [Readiness.removeReady, List.count_erase_of_ne hu, if_neg hu]
  have hocc : ∀ u p, u ≠ t → occurrences { s with readiness := s.readiness.removeReady t } [] [] u p
      = s.occurrences [] [] u p := by
    intro u p hu
    cases p with
    | ready => exact (hz u).trans (if_neg hu)
    | _ => rfl
  refine ⟨⟨h.tasks.of_occurrences rfl rfl rfl fun u p hu _ => ?_, h.wired.setReadiness _, h.idle,
    h.context, h.reason, fun p hp => ?_⟩, (hz t).trans (if_pos rfl)⟩
  · exact hocc u p fun he => hu (he ▸ rfl)
  · have := h.zero p hp
    cases p with
    | ready => exact absurd rfl hp
    | _ => exact this

theorem Entering.quiet {s : CoroutineScheduler V A} {io : IoSet A} (h : s.Entering t c)
    (hq : IoSet.Quiet s.io io) : Entering t c { s with io := io } :=
  ⟨h.tasks.of_occurrences rfl rfl rfl fun u p _ _ => quiet_occurrences hq u p, h.wired.quiet hq,
    h.idle, h.context, h.reason, fun p hp => (quiet_occurrences hq t p).trans (h.zero p hp)⟩

theorem Entering.run {s : CoroutineScheduler V A} (h : s.Entering t c)
    (hz : s.readiness.ready.count t = 0) :
    Sound { s.setContext t { c with status := .running } with active := some t } := by
  have hctx : ∀ u, CoroutineScheduler.context?
      { s.setContext t { c with status := .running } with active := some t } u =
      if u = t then some { c with status := .running } else s.context? u :=
    fun u => context?_setContext h.context _
  refine ⟨Tasks.close (t := t) (c := { c with status := .running }) ?_ (by rw [hctx, if_pos rfl])
    ?_ fun p => ?_, ⟨h.wired.placed, h.wired.apart, h.wired.alone, h.wired.awake⟩, h.wired.armed⟩
  · refine h.tasks.frame rfl (by simp) (fun u hu => ?_) (fun u => ?_) fun u p _ _ => ?_
    · rw [hctx, if_neg fun he : u = t => hu (he ▸ rfl)]
    · rw [hctx]
      by_cases hu : u = t
      · simp [hu]
      · have hact := h.tasks.active u
        rw [h.idle] at hact
        rw [if_neg hu, ← hact]
        exact ⟨fun he => absurd (Option.some.inj he).symm hu, nofun⟩
    · cases p <;> rfl
  · simp [h.reason]
  · have : s.occurrences [] [] t p = 0 := by
      by_cases hp : p = .ready
      · subst hp
        exact hz
      · exact h.zero p hp
    simp only [Expected, CoroutineStatus.runnable, h.reason]
    cases p <;> exact this

theorem enterChild_sound {s : CoroutineScheduler V A} (h : s.Entering t c)
    (honce : s.readiness.ready.count t ≤ if c.status.runnable then 1 else 0) :
    Post (fun _ s' => s'.Sound) Aborts (enterChild t c s) := by
  refine Post.bind (R := fun _ (s' : CoroutineScheduler V A) =>
    s'.Entering t c ∧ s'.readiness.ready.count t = 0) ?_ fun _ s' _ hs' => ?_
  · unfold leaveReady
    split
    · rename_i hrun
      exact h.removeReady (by simpa [hrun] using honce)
    · rename_i hrun
      exact ⟨h, by simpa [hrun] using honce⟩
  · refine Post.bind (R := fun _ (s' : CoroutineScheduler V A) =>
      s'.Entering t c ∧ s'.readiness.ready.count t = 0) ?_ fun _ s'' _ hs'' => ?_
    · unfold acknowledgeWake
      split
      · exact onIo_post (IoSet.acknowledgeReady_quiet s'.io t) fun _ _ hio =>
          ⟨hs'.1.quiet hio.1, hs'.2⟩
      · exact hs'
    · exact hs''.1.run hs''.2

theorem contextPtr_post (s : CoroutineScheduler V A) (t : Nat) :
    Post (fun c s' => s' = s ∧ s.context? t = some c) Aborts (contextPtr t s) := by
  unfold contextPtr
  split
  · exact ⟨_, rfl⟩
  · exact ⟨rfl, by assumption⟩

/-- Resume a task that the ready queue may still hold. -/
theorem resume_entering {s : CoroutineScheduler V A} (hc : s.context? t = some c)
    (hrun : c.status = .created ∨ c.status = .ready ∨ c.status = .suspended)
    (h : s.active = none → s.Entering t c)
    (honce : s.readiness.ready.count t ≤ if c.status.runnable then 1 else 0) :
    Post (fun _ s' => s'.Sound) Aborts (resume t s) := by
  unfold resume
  refine Post.get_bind ?_
  split
  · exact ⟨_, rfl⟩
  · rename_i ha
    have hptr : contextPtr t s = .ok c s := by simp [contextPtr, hc]
    refine Post.bind_ok hptr ?_
    have henter := enterChild_sound (h (by simpa using ha)) honce
    rcases hrun with hst | hst | hst <;> (simp only [hst]; exact henter)

theorem resume_sound {s : CoroutineScheduler V A} (h : s.Sound) (t : Nat) :
    Post (fun _ s' => s'.Sound) Aborts (resume t s) := by
  cases hc : s.context? t with
  | none =>
    unfold resume
    refine Post.get_bind ?_
    split
    · exact ⟨_, rfl⟩
    · refine (contextPtr_post s t).bind fun c s' _ hs' => ?_
      rw [hc] at hs'
      cases hs'.2
  | some c =>
    by_cases hrun : c.status = .created ∨ c.status = .ready ∨ c.status = .suspended
    · have hexp : ∀ p, Expected p (s.occurrences [] [] t p) (some c) := by
        intro p
        rw [← hc]
        exact h.tasks.settled t p nofun fun he => h.tasks.not_wake hc he.1
      have hreason : c.waitReason = none := by
        have hw := h.tasks.waiting t c nofun hc
        rcases hrun with hst | hst | hst <;> simpa [hst] using hw
      refine resume_entering hc hrun (fun ha => ⟨h.tasks.open t, h.wired, ha, hc, hreason,
        fun p hp => ?_⟩) ?_
      · have := hexp p
        simp only [Expected, hreason, if_neg hp, ite_self] at this
        exact this
      · have := hexp .ready
        simp only [Expected, hreason, if_true, occurrences] at this
        split at this <;> simp_all
    · unfold resume
      refine Post.get_bind ?_
      split
      · exact ⟨_, rfl⟩
      · have hptr : contextPtr t s = .ok c s := by simp [contextPtr, hc]
        refine Post.bind_ok hptr ?_
        cases hst : c.status <;> simp_all <;> first | exact h | exact ⟨_, rfl⟩

theorem onIo_aborts (s : CoroutineScheduler V A) (x : EStateM Abort (IoSet A) α) :
    Post (fun _ _ => True) Aborts (onIo x s) := by
  unfold onIo
  split
  · trivial
  · exact ⟨_, rfl⟩

theorem cancelDnsResolve_aborts (s : CoroutineScheduler V A) (job task : Nat) :
    Post (fun _ _ => True) Aborts (cancelDnsResolve job task s) := by
  unfold cancelDnsResolve
  refine Post.get_bind ?_
  cases hr : s.resolver with
  | none => trivial
  | some r =>
    cases hcancel : r.cancel job task with
    | error e => simpa only [hcancel] using ⟨_, rfl⟩
    | ok r' =>
      simp only [hcancel]
      refine Post.set_bind ?_
      split
      · trivial
      · exact onIo_aborts _ _

theorem promoteDueTask_sound {s : CoroutineScheduler V A} (h : s.Tasks none (t :: due) [])
    (hw : s.Wired failing []) :
    Post (fun _ s' => s'.Tasks none due [] ∧ s'.Wired failing []) Aborts (promoteDueTask t s) := by
  have hpos : 0 < s.occurrences (t :: due) [] t .timer := by
    simp only [occurrences, List.count_cons_self]
    omega
  obtain ⟨r, hc, hexp⟩ := h.reason (q := .timer) (fun heq => by cases heq)
    (not_exempt fun _ heq => by cases heq) (fun heq => by cases heq) hpos
  refine Post.get_bind ?_
  simp only [hc, Option.bind_some, if_true]
  rcases Expects.cases (hexp .timer) hpos with hp | ⟨d, -, hp⟩ | ⟨-, ⟨d, rfl⟩ | ⟨job, rfl⟩⟩
  · have hr : r = .timer := by cases r <;> first | rfl | cases hp
    subst hr
    refine wakeTask_taken (r := .timer) h hw rfl rfl rfl (not_exempt fun _ heq => by cases heq) trivial ?_ ?_
    · intro r' n hc' _
      rw [hc] at hc'
      cases hc'
      rfl
    · intro u p _
      cases p with
      | timer =>
        by_cases hu : u = t
        · simp [occurrences, WaitReason.place, hu]
          omega
        · have hu' : t ≠ u := fun he => hu he.symm
          simp [occurrences, WaitReason.place, hu, hu']
      | _ => simp only [WaitReason.place, reduceCtorEq, and_false, if_false, Nat.add_zero]; rfl
  · cases hp
  · exact (onIo_aborts s _).bind fun _ _ _ _ => ⟨_, rfl⟩
  · exact (cancelDnsResolve_aborts s job t).bind fun _ _ _ _ => ⟨_, rfl⟩

theorem promoteDue_sound {s : CoroutineScheduler V A} (h : s.Tasks none due [])
    (hw : s.Wired failing []) :
    Post (fun _ s' => s'.Tasks none [] [] ∧ s'.Wired failing []) Aborts (promoteDue due s) := by
  induction due generalizing s with
  | nil => exact ⟨h, hw⟩
  | cons t due ih =>
    exact (promoteDueTask_sound h hw).bind fun _ s' _ hs' => ih hs'.1 hs'.2

theorem promoteDueTimers_sound {s : CoroutineScheduler V A} (h : s.Tasks none [] [])
    (hw : s.Wired failing []) (now : Nat) :
    Post (fun _ s' => s'.Tasks none [] [] ∧ s'.Wired failing []) Aborts
      (promoteDueTimers now s) := by
  refine promoteDue_sound ?_ (hw.setReadiness _)
  refine h.of_occurrences rfl rfl rfl fun u p _ _ => ?_
  cases p with
  | timer =>
    have hsplit := List.takeWhile_append_dropWhile (p := fun timer : Timer => timer.deadline ≤ now)
      (l := s.readiness.timers)
    simp only [occurrences, Readiness.drainDue, List.count_nil, Nat.add_zero]
    conv_rhs => rw [← hsplit, List.map_append, List.count_append]
    omega
  | _ => rfl

end CoroutineScheduler

def ConnectProbe.fails : ConnectProbe → Bool
  | .failed _ _ => true
  | _ => false

namespace CoroutineScheduler

theorem polled_occurrences {s : CoroutineScheduler V A} {io : IoSet A}
    (h : IoSet.Polled events s.io io) (u : Nat) (p : Place) :
    occurrences { s with io := io } due events u p = s.occurrences due [] u p := by
  by_cases hp : ∃ d dir, p = .ofDirection d dir
  · obtain ⟨d, dir, rfl⟩ := hp
    rw [occurrences_ofDirection, occurrences_ofDirection, h.queue]
    rfl
  · exact occurrences_setIo (fun d => by simp only [IoSet.connectTask, h.connects])
      (fun d dir he => hp ⟨d, dir, he⟩) u

theorem Wired.polled {s : CoroutineScheduler V A} {io : IoSet A} (h : s.Wired failing [])
    (hp : IoSet.Polled events s.io io) : Wired failing events { s with io := io } where
  placed := hp.placed h.placed
  apart r hr := by
    simpa only [IoSet.connectTask, hp.connects, hp.next] using h.apart r hr
  alone d dir t t' hd ht ht' := by
    refine h.alone d dir t t' hd ?_ (hp.mem ht')
    simpa only [IoSet.connectTask, hp.connects] using ht
  awake p hw := by
    rcases hp.wake p hw with hw | hw
    · obtain ⟨e, he, -⟩ := h.awake p hw
      cases he
    · exact hw
  armed r job hr hj := by
    rcases h.armed r job hr hj with hq | ⟨e, he, -⟩
    · have hcount := hp.queue r.wakeDescriptor .readable resolverWakeTask
      have hpos := List.count_pos_iff.2 hq
      by_cases hin : resolverWakeTask ∈ io.queue r.wakeDescriptor .readable
      · exact .inl hin
      · rw [List.count_eq_zero_of_not_mem hin] at hcount
        exact .inr ⟨_, List.count_pos_iff.1 (by omega : 0 < events.count
          ⟨resolverWakeTask, r.wakeDescriptor, .readable⟩), rfl⟩
    · cases he

theorem cancelTimer_occurrences (s : CoroutineScheduler V A) (t u : Nat) (p : Place) :
    occurrences { s with readiness := s.readiness.cancelTimer t } [] events u p =
      if u = t ∧ p = .timer then 0 else s.occurrences [] events u p := by
  cases p with
  | timer =>
    simp only [occurrences, Readiness.cancelTimer, List.count_nil, Nat.add_zero, and_true]
    rw [List.count_eq_countP, List.countP_map, List.countP_filter, List.count_eq_countP,
      List.countP_map]
    by_cases hu : u = t
    · rw [if_pos hu, List.countP_eq_zero]
      intro timer _
      simp [hu]
    · rw [if_neg hu]
      refine List.countP_congr fun timer _ => ?_
      simp only [Function.comp_apply, beq_iff_eq, Bool.and_eq_true, decide_eq_true_eq]
      exact ⟨fun he => he.1, fun he => ⟨he, fun h => hu (he ▸ h)⟩⟩
  | _ => simp only [reduceCtorEq, and_false, if_false]; rfl

/-- A task between two connection attempts: at most its timer is registered. -/
structure Seeking (t : Nat) (expected : WaitReason) (events : List IoReady)
    (s : CoroutineScheduler V A) : Prop where
  tasks : s.Tasks (some t) [] events
  context : s.context? t = some ⟨.waiting, some expected⟩
  zero : ∀ p, p ≠ .timer → s.occurrences [] events t p = 0
  once : s.occurrences [] events t .timer ≤ 1

theorem Seeking.quiet {s : CoroutineScheduler V A} {io : IoSet A}
    (h : s.Seeking t expected events) (hq : IoSet.Quiet s.io io) :
    Seeking t expected events { s with io := io } :=
  ⟨h.tasks.of_occurrences rfl rfl rfl fun u p _ _ => quiet_occurrences hq u p, h.context,
    fun p hp => (quiet_occurrences hq t p).trans (h.zero p hp),
    (quiet_occurrences hq t .timer).trans_le h.once⟩

/-- Nothing that concerns the resolver is taken away. -/
structure Extends (s s' : CoroutineScheduler V A) : Prop where
  resolver : s'.resolver = s.resolver
  queue : ∀ d dir u, u ∈ s.io.queue d dir → u ∈ s'.io.queue d dir

theorem Wired.extend {s s' : CoroutineScheduler V A} (h : s.Wired failing events)
    (hg : s'.Grounded failing events) (he : Extends s s') : s'.Wired failing events where
  toGrounded := hg
  armed r job hr hj := by
    rcases h.armed r job (he.resolver ▸ hr) (by simpa only [resolveTask, he.resolver] using hj)
      with ha | ha
    · exact .inl (he.queue _ _ _ ha)
    · exact .inr ha

/-- The task gives up its timer and becomes runnable. -/
theorem Seeking.wake {s : CoroutineScheduler V A} (h : s.Seeking t expected events) :
    ∃ s', (do
      cancelTimer t
      wakeTask t expected : EStateM Halt (CoroutineScheduler V A) Unit) s = .ok () s' ∧
      s'.Tasks none [] events ∧ s'.io = s.io ∧ s'.resolver = s.resolver := by
  let s₁ : CoroutineScheduler V A := { s with readiness := s.readiness.cancelTimer t }
  have hopen : s₁.Tasks (some t) [] events := by
    refine h.tasks.of_occurrences rfl rfl rfl fun u p hu _ => ?_
    rw [cancelTimer_occurrences, if_neg fun he : u = t ∧ p = .timer => hu (he.1 ▸ rfl)]
  refine ⟨s₁.woken t, ?_, hopen.wake h.context rfl fun p => ?_, rfl, rfl⟩
  · exact wakeTask_eq (s := s₁) h.context
  · rw [cancelTimer_occurrences]
    split
    · rfl
    · rename_i hp
      exact h.zero p fun he => hp ⟨rfl, he⟩

theorem Extends.trans {s s' s'' : CoroutineScheduler V A} (h : Extends s s')
    (h' : Extends s' s'') : Extends s s'' :=
  ⟨h'.resolver.trans h.resolver, fun d dir u hu => h'.queue d dir u (h.queue d dir u hu)⟩

theorem Extends.of_queue {s : CoroutineScheduler V A} {io : IoSet A}
    (h : ∀ d dir, io.queue d dir = s.io.queue d dir) : Extends s { s with io := io } :=
  ⟨rfl, fun d dir _ hu => (h d dir).symm ▸ hu⟩

theorem Extends.enqueued {s : CoroutineScheduler V A} {io : IoSet A}
    (h : IoSet.Enqueued d t dir s.io io) : Extends s { s with io := io } := by
  refine ⟨rfl, fun d' dir' u hu => ?_⟩
  rw [h.queue]
  exact List.mem_append_left _ hu

/-- What handling one event leaves for the events after it. -/
structure Handled (failing : Nat → Prop) (events : List IoReady) (s s' : CoroutineScheduler V A) :
    Prop where
  tasks : s'.Tasks none [] events
  grounded : s'.Grounded failing events
  extend : Extends s s'

theorem Handled.after {s s' s'' : CoroutineScheduler V A} (h : Handled failing events s' s'')
    (h' : Extends s s') : Handled failing events s s'' :=
  ⟨h.tasks, h.grounded, h'.trans h.extend⟩

theorem Grounded.of_io {s s' : CoroutineScheduler V A} (h : s.Grounded failing events)
    (hio : s'.io = s.io) (hr : s'.resolver = s.resolver) : s'.Grounded failing events where
  placed := hio ▸ h.placed
  apart r hs := by
    rw [hio]
    exact h.apart r (hr ▸ hs)
  alone := hio ▸ h.alone
  awake := hio ▸ h.awake

theorem Seeking.wake_handled {s : CoroutineScheduler V A} (h : s.Seeking t expected events)
    (hg : s.Grounded failing events) :
    Post (fun _ s' => Handled failing events s s') Aborts ((do
      cancelTimer t
      wakeTask t expected : EStateM Halt (CoroutineScheduler V A) Unit) s) := by
  obtain ⟨s', hs', htasks, hio, hr⟩ := h.wake
  rw [hs']
  exact ⟨htasks, hg.of_io hio hr, hr, fun d dir u hu => hio ▸ hu⟩

/-- The task waits for a connection that was just opened. -/
theorem Seeking.connect {s : CoroutineScheduler V A} (h : s.Seeking t expected events)
    (hg : s.Grounded failing events)
    (hd : s.io.descriptors.lookup d = some (.new (.stream .tcp)))
    (hwake : ∀ r, s.resolver = some r → r.wakeDescriptor ≠ d) (waiter : ConnectWaiter A)
    (ht : waiter.task = t) :
    Post (fun _ s' => Handled failing events s s') Aborts ((do
      replaceWaitReason t expected (.tcpConnect d)
      onIo (IoSet.enqueueTcpConnectWaiter d waiter) :
        EStateM Halt (CoroutineScheduler V A) Unit) s) := by
  subst ht
  have hreplace : replaceWaitReason waiter.task expected (.tcpConnect d) s =
      .ok () (s.setContext waiter.task ⟨.waiting, some (.tcpConnect d)⟩) := by
    simp [replaceWaitReason, h.context]
  refine Post.bind_ok hreplace ?_
  refine onIo_post (IoSet.enqueueTcpConnectWaiter_enqueued _ d waiter) fun _ io hio => ?_
  obtain ⟨hnone, hio⟩ := hio
  let s₁ := s.setContext waiter.task ⟨.waiting, some (.tcpConnect d)⟩
  let s₂ : CoroutineScheduler V A := { s₁ with io := s.io.withConnect d waiter }
  have hocc : ∀ u p, occurrences { s₂ with io := io } [] events u p =
      s.occurrences [] events u p + (if u = waiter.task ∧ p = .connect d then 1 else 0) +
        if u = waiter.task ∧ p = .writer d then 1 else 0 := by
    intro u p
    have hconn : s₂.occurrences [] events u p = _ :=
      withConnect_occurrences (s := s₁) hnone waiter u p
    rw [enqueued_occurrences (s := s₂) hio, hconn, setContext_occurrences]
    rfl
  have hset : s₁.Tasks (some waiter.task) [] events := h.tasks.setHole h.context Iff.rfl
  have hopen : Tasks (some waiter.task) [] events { s₂ with io := io } := by
    refine hset.of_occurrences rfl rfl rfl fun u p hu _ => ?_
    have hu : u ≠ waiter.task := fun he => hu (he ▸ rfl)
    rw [hocc, setContext_occurrences, if_neg fun he => hu he.1, if_neg fun he => hu he.1,
      Nat.add_zero]
  have hground : s₂.Grounded failing events := by
    refine (hg.setContext waiter.task _).withConnect hd rfl hwake waiter fun _ dir t' ht' => ?_
    rw [IoSet.queue_eq (s := s₁.io) hd, DescriptorState.new_queue] at ht'
    cases ht'
  refine ⟨hopen.close (c := ⟨.waiting, some (.tcpConnect d)⟩) ?_ (by simp) fun p => ?_,
    hground.enqueued hio fun t' _ ht' => ?_, rfl, fun d' dir' u hu => ?_⟩
  · exact (context?_setContext h.context _).trans (if_pos rfl)
  · rw [hocc]
    have honce := h.once
    have hzero := h.zero p
    cases p <;> simp_all [Expected, CoroutineStatus.runnable, WaitReason.Expects, WaitReason.place]
  · rw [IoSet.withConnect_connectTask, if_pos rfl] at ht'
    exact Option.some.inj ht'
  · exact (Extends.enqueued (s := s₂) hio).queue d' dir' u hu

theorem startConnectCandidates_handled {s : CoroutineScheduler V A}
    (h : s.Seeking t expected events) (hg : s.Grounded failing events)
    (start : A → List A → ConnectStart) (addresses : List A) (lastError : Option VmError) :
    Post (fun _ s' => Handled failing events s s') Aborts
      (startConnectCandidates start t frame returnValue expected addresses lastError s) := by
  induction addresses generalizing lastError with
  | nil => exact ⟨_, rfl⟩
  | cons address remaining ih =>
    have hspec := IoSet.createTcpConnection_spec s.io (start address remaining)
    unfold startConnectCandidates
    cases hcreate : IoSet.createTcpConnection (start address remaining) s.io with
    | error e io =>
      rw [hcreate] at hspec
      obtain ⟨hne, rfl⟩ := hspec
      cases e with
      | panicked => exact absurd rfl hne
      | error e => exact ih (some e)
    | ok outcome io =>
      rw [hcreate] at hspec
      obtain ⟨hout, rfl⟩ := hspec
      have hq := IoSet.addNew_quiet hg.placed (.stream .tcp)
      have hseek := h.quiet hq
      have hground := hg.quiet hq
      cases outcome with
      | connected d =>
        exact (hseek.wake_handled hground).mono (fun _ _ hs => hs.after (Extends.of_queue hq.queue))
          fun _ _ => id
      | inProgress d =>
        have hd : d = s.io.nextId := by simpa using hout
        subst hd
        refine (hseek.connect hground (AList.lookup_insert _) (fun r hr => ?_)
          ⟨t, frame, returnValue, remaining⟩ rfl).mono (fun _ _ hs => hs.after (Extends.of_queue hq.queue))
          fun _ _ => id
        exact (hg.apart r hr).1.ne

/-- An event of a task is no sign of the resolver. -/
theorem Grounded.drop {s : CoroutineScheduler V A} (h : s.Grounded failing (e :: events))
    (he : e.task ≠ resolverWakeTask) : s.Grounded failing events where
  placed := h.placed
  apart := h.apart
  alone := h.alone
  awake p hp := by
    obtain ⟨e', hmem, ht⟩ := h.awake p hp
    rcases List.mem_cons.1 hmem with rfl | hmem
    · exact absurd ht he
    · exact ⟨e', hmem, ht⟩

theorem Wired.drop {s : CoroutineScheduler V A} (h : s.Wired failing (e :: events))
    (he : e.task ≠ resolverWakeTask) : s.Wired failing events where
  toGrounded := h.toGrounded.drop he
  armed r job hr hj := by
    rcases h.armed r job hr hj with ha | ⟨e', hmem, ht⟩
    · exact .inl ha
    · rcases List.mem_cons.1 hmem with rfl | hmem
      · exact absurd ht he
      · exact .inr ⟨e', hmem, ht⟩

theorem occurrences_event (s : CoroutineScheduler V A) (e : IoReady) (u : Nat) (p : Place) :
    s.occurrences due (e :: events) u p = s.occurrences due events u p +
      if u = e.task ∧ p = .ofDirection e.descriptor e.direction then 1 else 0 := by
  obtain ⟨t, d, dir⟩ := e
  by_cases hp : ∃ d' dir', p = .ofDirection d' dir'
  · obtain ⟨d', dir', rfl⟩ := hp
    rw [occurrences_ofDirection, occurrences_ofDirection, List.count_cons, ← Nat.add_assoc]
    congr 1
    by_cases hu : u = t
    · subst hu
      by_cases hd : d' = d ∧ dir' = dir
      · simp [hd]
      · have hne : Place.ofDirection d' dir' ≠ .ofDirection d dir := by
          intro he
          apply hd
          cases dir <;> cases dir' <;> simp_all [Place.ofDirection]
        have hne' : ¬(d = d' ∧ dir = dir') := fun he => hd ⟨he.1.symm, he.2.symm⟩
        simp [hne, hne']
    · have hu' : t ≠ u := fun he => hu he.symm
      simp [hu, hu']
  · have hp : ∀ d' dir', p ≠ .ofDirection d' dir' := fun d' dir' he => hp ⟨d', dir', he⟩
    rw [if_neg fun he => hp d dir he.2, Nat.add_zero]
    exact occurrences_setIo (fun _ => rfl) hp u

/-- A pending connection ends and takes nobody out of a queue. -/
theorem ended_occurrences {s : CoroutineScheduler V A} {io : IoSet A}
    (hconn : s.io.connectTask d = some t) (he : IoSet.Ended d s.io io)
    (hq : ∀ d dir, io.queue d dir = s.io.queue d dir) (u : Nat) (p : Place) :
    s.occurrences due events u p = occurrences { s with io := io } due events u p +
      if u = t ∧ p = .connect d then 1 else 0 := by
  cases p with
  | reader d' => simp [occurrences, hq]
  | writer d' => simp [occurrences, hq]
  | connect d' =>
    simp only [occurrences, he.connects, Place.connect.injEq]
    by_cases hd : d' = d
    · subst hd
      simp [hconn, eq_comm]
    · simp [hd]
  | _ => simp only [reduceCtorEq, and_false, if_false, Nat.add_zero]; rfl

theorem Grounded.ended {s : CoroutineScheduler V A} {io : IoSet A}
    (h : s.Grounded failing events) (he : IoSet.Ended d s.io io)
    (hq : ∀ d dir, io.queue d dir = s.io.queue d dir) :
    Grounded failing events { s with io := io } where
  placed := he.placed h.placed
  apart r hr := by
    refine ⟨he.next ▸ (h.apart r hr).1, ?_⟩
    rw [he.connects, (h.apart r hr).2, ite_self]
  alone d' dir t t' hd ht ht' := by
    rw [he.connects] at ht
    split at ht
    · cases ht
    · exact h.alone d' dir t t' hd ht (hq d' dir ▸ ht')
  awake p hp := h.awake p (he.wake p hp)

/-- The socket of a connecting task became writable. -/
structure Connecting (t d : Nat) (events : List IoReady) (s : CoroutineScheduler V A) :
    Prop where
  tasks : s.Tasks (some t) [] events
  context : s.context? t = some ⟨.waiting, some (.tcpConnect d)⟩
  count : ∀ p, (WaitReason.tcpConnect d).Expects p
    (s.occurrences [] events t p + if p = .writer d then 1 else 0)

theorem Connecting.of_event {s : CoroutineScheduler V A}
    (h : s.Tasks none [] (⟨t, d, .writable⟩ :: events)) (ht : t ≠ resolverWakeTask)
    (hr : (s.context? t).bind (·.waitReason) = some (.tcpConnect d)) :
    s.Connecting t d events := by
  obtain ⟨hopen, r, hc, hexp⟩ := h.take (q := .writer d) rfl rfl rfl (fun he => ht he.1) nofun
    fun u p _ => occurrences_event s ⟨t, d, .writable⟩ u p
  have hreason : r = .tcpConnect d := by simpa [hc] using hr
  subst hreason
  exact ⟨hopen, hc, hexp⟩

theorem Connecting.ended {s : CoroutineScheduler V A} {io : IoSet A} (h : s.Connecting t d events)
    (hconn : s.io.connectTask d = some t) (he : IoSet.Ended d s.io io)
    (hq : ∀ d dir, io.queue d dir = s.io.queue d dir) :
    Seeking t (.tcpConnect d) events { s with io := io } := by
  have hocc : ∀ u p, s.occurrences [] events u p =
      occurrences { s with io := io } [] events u p + if u = t ∧ p = .connect d then 1 else 0 :=
    ended_occurrences hconn he hq
  have hcount : ∀ p, (WaitReason.tcpConnect d).Expects p
      (occurrences { s with io := io } [] events t p + (if p = .connect d then 1 else 0) +
        if p = .writer d then 1 else 0) := by
    intro p
    have := h.count p
    rw [hocc t p] at this
    simpa using this
  refine ⟨h.tasks.of_occurrences rfl rfl rfl fun u p hu _ => ?_, h.context, fun p hp => ?_, ?_⟩
  · rw [hocc u p, if_neg fun hx : u = t ∧ p = .connect d => hu (hx.1 ▸ rfl), Nat.add_zero]
  · have hexpects := hcount p
    clear h hocc hcount hconn he hq
    cases p <;> simp_all [WaitReason.Expects, WaitReason.place]
    all_goals split at hexpects <;> simp_all
  · have := hcount .timer
    simpa [WaitReason.Expects, WaitReason.place] using this

/-- Nobody is left in the queues of a connection that failed. -/
theorem Connecting.queue_eq_nil {s : CoroutineScheduler V A} (h : s.Connecting t d events)
    (halone : ∀ dir, ∀ t' ∈ s.io.queue d dir, t' = t) (dir : IoDirection) :
    s.io.queue d dir = [] := by
  rw [List.eq_nil_iff_forall_not_mem]
  intro t' ht'
  have hpos : 0 < (s.io.queue d dir).count t := by
    rw [← halone dir t' ht']
    exact List.count_pos_iff.2 ht'
  have := h.count (.ofDirection d dir)
  rw [occurrences_ofDirection] at this
  cases dir <;> simp [WaitReason.Expects, WaitReason.place, Place.ofDirection] at this <;> omega

theorem promoteTcpConnect_handled {s : CoroutineScheduler V A} {answers : IoAnswers A}
    (h : s.Tasks none [] (⟨t, d, .writable⟩ :: events)) (hg : s.Grounded failing events)
    (ht : t ≠ resolverWakeTask) (hr : (s.context? t).bind (·.waitReason) = some (.tcpConnect d))
    (hfail : ∀ d, (answers.probe d).fails → failing d) :
    Post (fun _ s' => Handled failing events s s') Aborts (promoteTcpConnect answers d t s) := by
  have hconn := Connecting.of_event h ht hr
  refine Post.bind (R := fun completion s' => ∃ io, s' = { s with io := io } ∧
      s.io.connectTask d = some t ∧ IoSet.Completes d t (answers.probe d) s.io io completion)
    ?_ fun completion s' _ hs' => ?_
  · exact onIo_post (IoSet.completeTcpConnect_completes hg.placed d t (answers.probe d))
      fun _ io hio => ⟨io, rfl, hio⟩
  obtain ⟨io, rfl, htask, hio⟩ := hs'
  cases completion with
  | connected waiter =>
    obtain ⟨hend, hq⟩ := hio
    have hq : ∀ d dir, io.queue d dir = s.io.queue d dir := fun d dir => by rw [hq]
    exact ((hconn.ended htask hend hq).wake_handled (hg.ended hend hq)).mono
      (fun _ _ hs => hs.after (Extends.of_queue hq)) fun _ _ => id
  | pending =>
    obtain ⟨mid, hquiet, henq⟩ := hio
    have hocc : ∀ u p, occurrences { s with io := io } [] events u p =
        s.occurrences [] (⟨t, d, .writable⟩ :: events) u p := by
      intro u p
      rw [enqueued_occurrences (s := { s with io := mid }) henq, quiet_occurrences hquiet,
        occurrences_event]
    refine ⟨h.of_occurrences rfl rfl rfl fun u p _ _ => hocc u p,
      (hg.quiet hquiet).enqueued henq fun t' _ ht' => ?_,
      (Extends.of_queue hquiet.queue).trans (Extends.enqueued henq)⟩
    rw [hquiet.connects, htask] at ht'
    exact Option.some.inj ht'
  | failed waiter e =>
    obtain ⟨hwaiter, ⟨operation, error, hprobe⟩, hend, hq⟩ := hio
    have hempty := hconn.queue_eq_nil fun dir t' ht' =>
      hg.alone d dir t t' (hfail d (by rw [hprobe]; rfl)) htask ht'
    have hq : ∀ d dir, io.queue d dir = s.io.queue d dir := by
      intro d' dir
      rw [hq]
      split
      · rename_i hd
        rw [hd, hempty]
      · rfl
    subst hwaiter
    exact (startConnectCandidates_handled (hconn.ended htask hend hq) (hg.ended hend hq) _ _ _).mono
      (fun _ _ hs => hs.after (Extends.of_queue hq)) fun _ _ => id

theorem takeWaiter_occurrences {s : CoroutineScheduler V A} {r : ResolverSet}
    (hr : s.resolver = some r) (hw : r.waiters.lookup job = some waiter) (u : Nat) (p : Place) :
    s.occurrences due events u p =
      occurrences { s with resolver := some (r.takeWaiter job).2 } due events u p +
        if u = waiter.task ∧ p = .resolver job then 1 else 0 := by
  cases p with
  | resolver k =>
    simp only [occurrences, resolveTask, hr, Option.bind_some, ResolverSet.takeWaiter,
      lookup_erase_eq, Place.resolver.injEq]
    by_cases hk : k = job
    · subst hk
      simp [hw, eq_comm]
    · simp [hk]
  | _ => simp only [reduceCtorEq, and_false, if_false, Nat.add_zero]; rfl

theorem takeWaiter_unknown {s : CoroutineScheduler V A} {r : ResolverSet}
    (hr : s.resolver = some r) (hw : r.waiters.lookup job = none) (u : Nat) (p : Place) :
    occurrences { s with resolver := some (r.takeWaiter job).2 } due events u p =
      s.occurrences due events u p := by
  cases p with
  | resolver k =>
    simp only [occurrences, resolveTask, hr, Option.bind_some, ResolverSet.takeWaiter,
      lookup_erase_eq]
    by_cases hk : k = job
    · subst hk
      simp [hw]
    · simp [hk]
  | _ => rfl

/-- A resolver that keeps its wake descriptor. -/
def WakesOn (d : Nat) (s : CoroutineScheduler V A) : Prop :=
  ∃ r, s.resolver = some r ∧ r.wakeDescriptor = d

theorem Grounded.setResolver {s : CoroutineScheduler V A} {r t : ResolverSet}
    (h : s.Grounded failing events) (hr : s.resolver = some r)
    (hd : t.wakeDescriptor = r.wakeDescriptor) :
    Grounded failing events { s with resolver := some t } where
  placed := h.placed
  apart r'' hr'' := by
    cases hr''
    rw [hd]
    exact h.apart r hr
  alone := h.alone
  awake := h.awake

theorem Seeking.of_resolve {s : CoroutineScheduler V A} {r : ResolverSet}
    (h : s.Tasks none [] events) (hr : s.resolver = some r)
    (hw : r.waiters.lookup job = some waiter) :
    Seeking waiter.task (.dnsResolve job) events
      { s with resolver := some (r.takeWaiter job).2 } := by
  obtain ⟨hopen, reason, hc, hexp⟩ := h.take (q := .resolver job)
    (w := { s with resolver := some (r.takeWaiter job).2 }) rfl rfl rfl (not_exempt nofun) nofun
    fun u p _ => takeWaiter_occurrences hr hw u p
  have hreason : reason = .dnsResolve job := by
    have := Expects.cases (hexp (.resolver job)) (by simp)
    cases reason <;> simp_all [WaitReason.place]
  subst hreason
  refine ⟨hopen, hc, fun p hp => ?_, ?_⟩
  · have := hexp p
    cases p <;> simp_all [WaitReason.Expects, WaitReason.place]
    all_goals split at this <;> simp_all
  · have := hexp .timer
    simpa [WaitReason.Expects, WaitReason.place] using this

theorem promoteCompletions_post {s : CoroutineScheduler V A} (answers : IoAnswers A)
    (completions : List (Nat × Except String (List A))) (h : s.Tasks none [] events)
    (hg : s.Grounded failing events) (hd : s.WakesOn d) :
    Post (fun _ s' => s'.Tasks none [] events ∧ s'.Grounded failing events ∧ s'.WakesOn d) Aborts
      (promoteCompletions answers completions s) := by
  induction completions generalizing s with
  | nil => exact ⟨h, hg, hd⟩
  | cons completion rest ih =>
    obtain ⟨job, result⟩ := completion
    obtain ⟨r, hr, hwake⟩ := hd
    have htake : takeWaiter job s =
        .ok (r.waiters.lookup job) { s with resolver := some (r.takeWaiter job).2 } := by
      simp only [takeWaiter, hr]
      rfl
    refine Post.bind_ok htake ?_
    have hg' := hg.setResolver hr (t := (r.takeWaiter job).2) rfl
    cases hw : r.waiters.lookup job with
    | none =>
      exact ih (h.of_occurrences rfl rfl rfl fun u p _ _ => takeWaiter_unknown hr hw u p) hg'
        ⟨_, rfl, hwake⟩
    | some waiter =>
      cases result with
      | error e => exact ⟨_, rfl⟩
      | ok addresses =>
        refine (startConnectCandidates_handled (Seeking.of_resolve h hr hw) hg' _ _ _).bind
          fun _ s' _ hs' => ih hs'.tasks hs'.grounded ⟨_, hs'.extend.resolver, hwake⟩

theorem rearmResolver_post {s : CoroutineScheduler V A} (h : s.Tasks none [] events)
    (hg : s.Grounded failing events) (hd : s.WakesOn d) :
    Post (fun _ s' => s'.Tasks none [] events ∧ s'.Wired failing events) Aborts
      (rearmResolver d s) := by
  obtain ⟨r, hr, rfl⟩ := hd
  refine Post.get_bind ?_
  simp only [hr]
  split
  · refine (armResolverWake_post hg hr).mono (fun _ s' hs' => ?_) fun _ _ => id
    obtain ⟨io, rfl, hw, hocc⟩ := hs'
    exact ⟨h.of_occurrences rfl rfl rfl fun u p _ hex => hocc [] u p hex, hw⟩
  · rename_i hnone
    refine ⟨h, hg, fun r' job hr' hj => ?_⟩
    have hkeys : r.waiters.keys = [] := by simpa [ResolverSet.hasWaiters] using hnone
    have hlookup : r.waiters.lookup job = none := by
      rw [AList.lookup_eq_none, AList.mem_keys, hkeys]
      exact List.not_mem_nil
    simp [resolveTask, hr, hlookup] at hj

/-- The wake entry of the resolver is no registration, so its event can be dropped. -/
theorem Tasks.drop {s : CoroutineScheduler V A} (h : s.Tasks none [] (e :: events))
    (he : e.task = resolverWakeTask) : s.Tasks none [] events := by
  refine h.of_occurrences rfl rfl rfl fun u p _ hex => ?_
  rw [occurrences_event, if_neg, Nat.add_zero]
  rintro ⟨hu, hp⟩
  have hpos : 0 < s.occurrences [] (e :: events) u p := by
    rw [occurrences_event, if_pos ⟨hu, hp⟩]
    omega
  have hready : p ≠ .ready := by
    rw [hp]
    cases e.direction <;> nofun
  obtain ⟨r, hc, -⟩ := h.reason nofun hex hready hpos
  exact h.not_wake hc (hu.trans he)

theorem promoteResolver_sound {s : CoroutineScheduler V A} (answers : IoAnswers A)
    (h : s.Tasks none [] events) (hg : s.Grounded failing (e :: events)) (d : Nat) :
    Post (fun _ s' => s'.Tasks none [] events ∧ s'.Wired failing events) Aborts
      (promoteResolver answers d s) := by
  refine Post.get_bind ?_
  cases hr : s.resolver with
  | none => exact ⟨_, rfl⟩
  | some r =>
    by_cases hd : d = r.wakeDescriptor
    · simp only [hd, if_true]
      refine Post.bind (R := fun _ s' => s'.Tasks none [] events ∧ s'.Grounded failing events ∧
        s'.WakesOn r.wakeDescriptor) ?_ fun _ s' _ hs' => ?_
      · refine onIo_post (IoSet.acknowledgeReady_quiet s.io resolverWakeTask) fun _ io hio => ?_
        obtain ⟨hq, hnone, -⟩ := hio
        have hgq := hg.quiet hq
        refine ⟨h.of_occurrences rfl rfl rfl fun u p _ _ => quiet_occurrences hq u p,
          ⟨hgq.placed, hgq.apart, hgq.alone, fun p hp => ?_⟩, r, hr, rfl⟩
        cases hnone.symm.trans hp
      · obtain ⟨htasks, hground, hwake⟩ := hs'
        refine Post.bind (R := fun _ s'' => s'' = s') ?_ fun _ s'' _ hs'' => ?_
        · refine onIo_post (R := fun _ io => io = s'.io) ?_ fun _ io hio => by rw [hio]
          unfold IoSet.drainResolverWake
          split
          · trivial
          · split
            · split <;> trivial
            · trivial
        · subst hs''
          exact (promoteCompletions_post answers _ htasks hground hwake).bind fun _ _ _ hs =>
            rearmResolver_post hs.1 hs.2.1 hs.2.2
    · simp only [hd, if_false]
      exact ⟨_, rfl⟩

theorem promoteEvent_sound {s : CoroutineScheduler V A} {answers : IoAnswers A}
    (h : s.Tasks none [] (e :: events)) (hw : s.Wired failing (e :: events))
    (hfail : ∀ d, (answers.probe d).fails → failing d) :
    Post (fun _ s' => s'.Tasks none [] events ∧ s'.Wired failing events) Aborts
      (promoteEvent answers e s) := by
  obtain ⟨t, d, dir⟩ := e
  refine Post.get_bind ?_
  by_cases ht : t = resolverWakeTask
  · rw [if_pos ht]
    exact promoteResolver_sound answers (h.drop ht) hw.toGrounded d
  · rw [if_neg ht]
    have hdrop := hw.drop ht
    split
    · rename_i hconn
      obtain ⟨rfl, hreason⟩ := hconn
      exact (promoteTcpConnect_handled h hdrop.toGrounded ht hreason hfail).mono
        (fun _ _ hs => ⟨hs.tasks, hdrop.extend hs.grounded hs.extend⟩) fun _ _ => id
    · rename_i hconn
      have hplace : (WaitReason.ofDirection d dir).place = .ofDirection d dir := by
        cases dir <;> rfl
      refine wakeTask_taken (r := .ofDirection d dir) h hdrop rfl rfl rfl (fun he => ht he.1)
        (by cases dir <;> trivial) (fun r' n hc hr => ?_) fun u p _ => ?_
      · rw [hplace] at hr
        rcases Expects.cases hr (Nat.succ_pos n) with hp | ⟨d', rfl, hp⟩ | ⟨hp, -⟩
        · cases dir <;> cases r' <;> simp_all [WaitReason.place, Place.ofDirection,
            WaitReason.ofDirection]
        · refine absurd ⟨?_, ?_⟩ hconn
          · cases dir <;> simp_all [Place.ofDirection]
          · cases dir <;> simp_all [Place.ofDirection]
        · cases dir <;> cases hp
      · rw [hplace]
        exact occurrences_event s ⟨t, d, dir⟩ u p

theorem promoteEvents_sound {s : CoroutineScheduler V A} {answers : IoAnswers A}
    (h : s.Tasks none [] events) (hw : s.Wired failing events)
    (hfail : ∀ d, (answers.probe d).fails → failing d) :
    Post (fun _ s' => s'.Tasks none [] [] ∧ s'.Wired failing []) Aborts
      (promoteEvents answers events s) := by
  induction events generalizing s with
  | nil => exact ⟨h, hw⟩
  | cons e events ih =>
    exact (promoteEvent_sound h hw hfail).bind fun _ s' _ hs' => ih hs'.1 hs'.2

theorem promoteIo_sound {s : CoroutineScheduler V A} {answers : IoAnswers A}
    (h : s.Tasks none [] []) (hw : s.Wired failing [])
    (hfail : ∀ d, (answers.probe d).fails → failing d) :
    Post (fun _ s' => s'.Tasks none [] [] ∧ s'.Wired failing []) Aborts (promoteIo answers s) := by
  refine Post.bind (R := fun events s' => s'.Tasks none [] events ∧ s'.Wired failing events)
    ?_ fun events s' _ hs' => promoteEvents_sound hs'.1 hs'.2 hfail
  refine onIo_post (IoSet.pollReady_polled s.io answers.poll) fun events io hio => ?_
  exact ⟨h.of_occurrences rfl rfl rfl fun u p _ _ => polled_occurrences hio u p, hw.polled hio⟩

end CoroutineScheduler

end Rphp.Scheduler
