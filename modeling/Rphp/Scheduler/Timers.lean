import Mathlib.Data.List.Sort
import Rphp.Scheduler.IoSet

namespace Rphp.Scheduler
set_option autoImplicit true

/-- The waits that a timer can end: a sleep, and a connect or a resolve with a time limit. -/
def WaitReason.HasTimer : WaitReason → Prop
  | .timer => True
  | .tcpConnect _ => True
  | .dnsResolve _ => True
  | _ => False

/-- What a run has been asked for and what it did: the deadline that the last wait of each task
was given, and the sleeps begun and ended by a timer, each with its deadline, in order. -/
structure Timeline where
  limit : Nat → Option Nat := fun _ => none
  slept : List (Nat × Nat) := []
  woken : List (Nat × Nat) := []

/-- The tasks of the entries with one deadline. -/
def tasksAt (deadline : Nat) (entries : List (Nat × Nat)) : List Nat :=
  (entries.filter fun entry => entry.1 = deadline).map Prod.snd

abbrev Contexts := Nat → Option CoroutineContext

def Sleeps (ctx : Contexts) (t : Nat) : Prop := ctx t = some ⟨.waiting, some .timer⟩

instance (ctx : Contexts) (t : Nat) : Decidable (Sleeps ctx t) :=
  inferInstanceAs (Decidable (ctx t = some ⟨.waiting, some .timer⟩))

/-- The sleeping tasks with one deadline, in the order of their timers. -/
def sleepersAt (ctx : Contexts) (deadline : Nat) (timers : List Timer) : List Nat :=
  (timers.filter fun timer => timer.deadline = deadline ∧ Sleeps ctx timer.task).map Timer.task

/-- Every timer belongs to a task that waits with the deadline it was given, no task has two, every
sleeping task has one, and the sleeps of one deadline end in the order in which they began. -/
structure Clocked (g : Timeline) (ctx : Contexts) (active : Option Nat) (next : Nat)
    (timers : List Timer) : Prop where
  sorted : timers.Pairwise Timer.Before
  fresh : ∀ timer ∈ timers, timer.sequence < next
  single : (timers.map Timer.task).Nodup
  owner : ∀ timer ∈ timers, ∃ r, ctx timer.task = some ⟨.waiting, some r⟩ ∧ r.HasTimer ∧
    g.limit timer.task = some timer.deadline
  asleep : ∀ t, Sleeps ctx t → t ∈ timers.map Timer.task
  running : ∀ t, active = some t → ∃ c, ctx t = some c ∧ c.status = .running
  fifo : ∀ d, tasksAt d g.slept = tasksAt d g.woken ++ sleepersAt ctx d timers

/-! An insertion behind all equals is stable. -/

section

variable {r : α → α → Prop} [DecidableRel r] {p : α → Bool} {a : α} {l : List α}

theorem filter_orderedInsert [IsTrans α r] (hl : l.Pairwise r) (ha : p a = true)
    (hlast : ∀ b ∈ l, p b = true → ¬ r a b) :
    (l.orderedInsert r a).filter p = l.filter p ++ [a] := by
  induction l with
  | nil => simp [ha]
  | cons b l ih =>
    obtain ⟨hb, hl⟩ := List.pairwise_cons.1 hl
    rw [List.orderedInsert_cons]
    split
    · rename_i hab
      have hnil : (b :: l).filter p = [] := by
        rw [List.filter_eq_nil_iff]
        intro c hc hp
        obtain rfl | hc := List.mem_cons.1 hc
        · exact hlast _ List.mem_cons_self hp hab
        · exact hlast c (List.mem_cons_of_mem _ hc) hp (IsTrans.trans _ _ _ hab (hb c hc))
      rw [List.filter_cons_of_pos ha, hnil, List.nil_append]
    · have hrest := ih hl fun c hc => hlast c (List.mem_cons_of_mem _ hc)
      simp only [List.filter_cons, hrest]
      split <;> rfl

theorem filter_orderedInsert_of_not (ha : p a = false) :
    (l.orderedInsert r a).filter p = l.filter p := by
  induction l with
  | nil => simp [ha]
  | cons b l ih =>
    rw [List.orderedInsert_cons]
    split
    · rw [List.filter_cons_of_neg (by simp [ha])]
    · simp only [List.filter_cons, ih]

end

namespace Timer

theorem Before.trans {a b c : Timer} (hab : a.Before b) (hbc : b.Before c) : a.Before c := by
  unfold Before at *
  omega

theorem Before.total (a b : Timer) : a.Before b ∨ b.Before a := by
  unfold Before
  omega

end Timer

instance : IsTrans Timer Timer.Before := ⟨fun _ _ _ => Timer.Before.trans⟩

instance : Std.Total Timer.Before := ⟨Timer.Before.total⟩

/-! What the steps of a task do to the timers. -/

namespace Clocked

variable {g : Timeline} {ctx : Contexts} {active : Option Nat} {next : Nat} {timers : List Timer}

theorem sleepersAt_update (hfree : t ∉ timers.map Timer.task) (c : Option CoroutineContext)
    (d : Nat) : sleepersAt (Function.update ctx t c) d timers = sleepersAt ctx d timers := by
  refine congrArg (List.map Timer.task) (List.filter_congr fun timer hmem => ?_)
  have hne : timer.task ≠ t := fun he => hfree (List.mem_map.2 ⟨timer, hmem, he⟩)
  rw [decide_eq_decide, Sleeps, Sleeps, Function.update_of_ne hne]

/-- A task that waits for nothing a timer can end has no timer. -/
theorem free (h : Clocked g ctx active next timers)
    (hc : ∀ r, ctx t = some ⟨.waiting, some r⟩ → ¬ r.HasTimer) : t ∉ timers.map Timer.task := by
  intro hmem
  obtain ⟨timer, htimer, rfl⟩ := List.mem_map.1 hmem
  obtain ⟨r, hr, htimed, -⟩ := h.owner timer htimer
  exact hc r hr htimed

theorem free_of_status (h : Clocked g ctx active next timers) (hc : ctx t = some c)
    (hst : c.status ≠ .waiting) : t ∉ timers.map Timer.task := by
  apply h.free
  intro r hr
  rw [hc] at hr
  cases hr
  exact absurd rfl hst

/-- A task without a timer changes its state; it does not fall asleep. -/
theorem update (h : Clocked g ctx active next timers) (hfree : t ∉ timers.map Timer.task)
    (c : Option CoroutineContext) (hc : c ≠ some ⟨.waiting, some .timer⟩)
    (hactive : ∀ u, active' = some u →
      ∃ c', Function.update ctx t c u = some c' ∧ c'.status = .running) :
    Clocked g (Function.update ctx t c) active' next timers where
  sorted := h.sorted
  fresh := h.fresh
  single := h.single
  owner timer hmem := by
    have hne : timer.task ≠ t := fun he => hfree (List.mem_map.2 ⟨timer, hmem, he⟩)
    rw [Function.update_of_ne hne]
    exact h.owner timer hmem
  asleep u hu := by
    unfold Sleeps at hu
    by_cases he : u = t
    · subst he
      rw [Function.update_self] at hu
      exact absurd hu hc
    · rw [Function.update_of_ne he] at hu
      exact h.asleep u hu
  running := hactive
  fifo d := by rw [sleepersAt_update hfree, h.fifo d]

/-- The active task is another one. -/
theorem running_update (h : Clocked g ctx active next timers) (hc : ctx t = some c')
    (hst : c'.status ≠ .running) (c : Option CoroutineContext) :
    ∀ u, active = some u → ∃ c', Function.update ctx t c u = some c' ∧ c'.status = .running := by
  intro u hu
  obtain ⟨c'', hc'', hrun⟩ := h.running u hu
  have hne : u ≠ t := by
    rintro rfl
    rw [hc] at hc''
    cases hc''
    exact hst hrun
  exact ⟨c'', by rw [Function.update_of_ne hne, hc''], hrun⟩

/-- A connect takes the place of a resolve or of another connect. -/
theorem replace (h : Clocked g ctx active next timers)
    (hc : ctx t = some ⟨.waiting, some r⟩) (hr : r ≠ .timer) (hr' : r' ≠ .timer)
    (hkeeps : r.HasTimer → r'.HasTimer) :
    Clocked g (Function.update ctx t (some ⟨.waiting, some r'⟩)) active next timers where
  sorted := h.sorted
  fresh := h.fresh
  single := h.single
  owner timer hmem := by
    obtain ⟨q, hq, htimed, hlimit⟩ := h.owner timer hmem
    by_cases he : timer.task = t
    · rw [he, hc] at hq
      cases hq
      rw [he, Function.update_self]
      exact ⟨r', rfl, hkeeps htimed, he ▸ hlimit⟩
    · rw [Function.update_of_ne he]
      exact ⟨q, hq, htimed, hlimit⟩
  asleep u hu := by
    unfold Sleeps at hu
    by_cases he : u = t
    · subst he
      rw [Function.update_self] at hu
      cases hu
      exact absurd rfl hr'
    · rw [Function.update_of_ne he] at hu
      exact h.asleep u hu
  running := h.running_update hc (by simp) _
  fifo d := by
    rw [h.fifo d]
    refine congrArg _ (congrArg (List.map Timer.task) (List.filter_congr fun timer hmem => ?_))
    by_cases he : timer.task = t
    · simp [Sleeps, he, hc, hr, hr']
    · rw [decide_eq_decide, Sleeps, Sleeps, Function.update_of_ne he]

/-- The timer of a task that does not sleep is cancelled. -/
theorem cancel (h : Clocked g ctx active next timers) (hc : ¬ Sleeps ctx t) :
    Clocked g ctx active next (timers.filter fun timer => timer.task ≠ t) where
  sorted := h.sorted.filter _
  fresh timer hmem := h.fresh timer (List.mem_filter.1 hmem).1
  single := h.single.sublist (List.filter_sublist.map _)
  owner timer hmem := h.owner timer (List.mem_filter.1 hmem).1
  asleep u hu := by
    obtain ⟨timer, hmem, rfl⟩ := List.mem_map.1 (h.asleep u hu)
    refine List.mem_map_of_mem (List.mem_filter.2 ⟨hmem, decide_eq_true ?_⟩)
    rintro rfl
    exact hc hu
  running := h.running
  fifo d := by
    rw [h.fifo d]
    unfold sleepersAt
    rw [List.filter_filter]
    refine congrArg _ (congrArg (List.map Timer.task) (List.filter_congr fun timer hmem => ?_))
    by_cases he : timer.task = t
    · simp [he, hc]
    · simp [he]

theorem not_mem_filter : t ∉ (timers.filter fun timer => timer.task ≠ t).map Timer.task := by
  intro hmem
  obtain ⟨timer, htimer, rfl⟩ := List.mem_map.1 hmem
  have := (List.mem_filter.1 htimer).2
  simp at this

/-- The deadline that a task without a timer gives matters to no timer. -/
theorem setLimit (h : Clocked g ctx active next timers) (hfree : t ∉ timers.map Timer.task)
    (limit : Option Nat) :
    Clocked { g with limit := Function.update g.limit t limit } ctx active next timers :=
  { h with
    owner := fun timer hmem => by
      obtain ⟨r, hr, htimed, hlimit⟩ := h.owner timer hmem
      have hne : timer.task ≠ t := fun he => hfree (List.mem_map.2 ⟨timer, hmem, he⟩)
      exact ⟨r, hr, htimed, (Function.update_of_ne hne _ _).trans hlimit⟩ }

theorem not_before_of_fresh (h : Clocked g ctx active next timers) (hmem : timer ∈ timers)
    (hd : timer.deadline = d) : ¬ Timer.Before ⟨d, next, t⟩ timer := by
  have := h.fresh timer hmem
  unfold Timer.Before
  dsimp only
  omega

/-- The sleepers of each deadline after one more timer. -/
theorem sleepersAt_insert (h : Clocked g ctx active next timers)
    (hfree : t ∉ timers.map Timer.task) (d d' : Nat) (r : WaitReason) :
    sleepersAt (Function.update ctx t (some ⟨.waiting, some r⟩)) d'
        (timers.orderedInsert Timer.Before ⟨d, next, t⟩) =
      sleepersAt ctx d' timers ++ if d = d' ∧ r = .timer then [t] else [] := by
  rw [← sleepersAt_update hfree (some ⟨.waiting, some r⟩)]
  unfold sleepersAt
  split
  · rename_i hsleep
    obtain ⟨rfl, rfl⟩ := hsleep
    rw [filter_orderedInsert h.sorted, List.map_append]
    · rfl
    · simp [Sleeps]
    · intro timer hmem hp
      exact h.not_before_of_fresh hmem (of_decide_eq_true hp).1
  · rename_i hsleep
    rw [filter_orderedInsert_of_not, List.append_nil]
    simpa [Sleeps] using hsleep

/-- The running task waits with a deadline. -/
theorem schedule (h : Clocked g ctx active next timers) (hfree : t ∉ timers.map Timer.task)
    (hr : r.HasTimer) (hlimit : g.limit t = some d) :
    Clocked { g with slept := g.slept ++ if r = .timer then [(d, t)] else [] }
      (Function.update ctx t (some ⟨.waiting, some r⟩)) none (next + 1)
      (timers.orderedInsert Timer.Before ⟨d, next, t⟩) where
  sorted := h.sorted.orderedInsert _ _
  fresh timer hmem := by
    obtain rfl | hmem := (List.mem_orderedInsert _).1 hmem
    · exact Nat.lt_succ_self _
    · exact Nat.lt_succ_of_lt (h.fresh timer hmem)
  single := by
    have hperm := (List.perm_orderedInsert Timer.Before ⟨d, next, t⟩ timers).map Timer.task
    rw [hperm.nodup_iff, List.map_cons, List.nodup_cons]
    exact ⟨hfree, h.single⟩
  owner timer hmem := by
    obtain rfl | hmem := (List.mem_orderedInsert _).1 hmem
    · exact ⟨r, Function.update_self .., hr, hlimit⟩
    · have hne : timer.task ≠ t := fun he => hfree (List.mem_map.2 ⟨timer, hmem, he⟩)
      rw [Function.update_of_ne hne]
      exact h.owner timer hmem
  asleep u hu := by
    have hperm := (List.perm_orderedInsert Timer.Before ⟨d, next, t⟩ timers).map Timer.task
    rw [hperm.mem_iff, List.map_cons, List.mem_cons]
    by_cases he : u = t
    · exact .inl he
    · unfold Sleeps at hu
      rw [Function.update_of_ne he] at hu
      exact .inr (h.asleep u hu)
  running := nofun
  fifo d' := by
    rw [h.sleepersAt_insert hfree, ← List.append_assoc, ← h.fifo d']
    by_cases hsleep : r = .timer <;> by_cases hd : d = d' <;> simp [tasksAt, hsleep, hd]

/-- The first timer is due and its task sleeps. -/
theorem pop (h : Clocked g ctx active next (timer :: timers)) (hsleeps : Sleeps ctx timer.task) :
    Clocked { g with woken := g.woken ++ [(timer.deadline, timer.task)] }
      (Function.update ctx timer.task (some ⟨.ready, none⟩)) active next timers := by
  have hnodup := List.nodup_cons.1 (List.map_cons ▸ h.single)
  have hfree := hnodup.1
  exact {
    sorted := (List.pairwise_cons.1 h.sorted).2
    fresh := fun other hmem => h.fresh other (List.mem_cons_of_mem _ hmem)
    single := hnodup.2
    owner := fun other hmem => by
      have hne : other.task ≠ timer.task := fun he => hfree (List.mem_map.2 ⟨other, hmem, he⟩)
      rw [Function.update_of_ne hne]
      exact h.owner other (List.mem_cons_of_mem _ hmem)
    asleep := fun u hu => by
      unfold Sleeps at hu
      by_cases he : u = timer.task
      · rw [he, Function.update_self] at hu
        cases hu
      · rw [Function.update_of_ne he] at hu
        exact (List.mem_cons.1 (h.asleep u hu)).resolve_left he
    running := h.running_update hsleeps (by simp) _
    fifo := fun d => by
      rw [sleepersAt_update hfree, h.fifo d]
      unfold sleepersAt tasksAt
      by_cases hd : timer.deadline = d <;> simp [hsleeps, hd] }

end Clocked

end Rphp.Scheduler
