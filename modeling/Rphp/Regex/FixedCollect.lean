import Mathlib.Algebra.GroupWithZero.Nat
import Rphp.Regex.FixedRounds

set_option autoImplicit true

namespace Rphp.Regex

open Rphp.Lib

variable {env : Env} {E : Engine} {named : GroupName → Option Nat} {indexed : Nat → Option Nat}
  {flags : RegexFlags} {inner : Node} {rest : List Node}

section SinglePath

theorem singlePathLoop_settles (hR : Repeatable env named indexed E inner) {n : Nat}
    (greedy : Bool) {steps repetitions : Nat} (hreps : repetitions ≤ n)
    (hsteps : n < repetitions + steps) (current : BacktrackState) :
    Settles flags (singlePathLoop E inner n (some n) greedy steps repetitions current [])
      fun states => Lists (Rounds env flags inner (n - repetitions) current.end)
        (states.map BacktrackState.end) := by
  induction steps generalizing repetitions current with
  | zero => omega
  | succ steps ih =>
    rw [singlePathLoop, reachedLimit_some]
    by_cases hn : n ≤ repetitions
    · simp only [hn, if_true, decide_true]
      refine .pure (lists_singleton fun final => ?_)
      rw [Nat.sub_eq_zero_of_le hn]
      exact rounds_zero
    · simp only [hn, if_false, decide_false, Bool.false_eq_true]
      obtain ⟨left, hleft⟩ : ∃ left, n - repetitions = left + 1 :=
        ⟨n - repetitions - 1, by omega⟩
      rw [hleft]
      refine Settles.retainQuantifierContinuation.bind ?_
      rintro _ rfl
      refine (hR.engine.collected hR.fixed hR.fuel current).bind fun states hstates => ?_
      obtain ⟨-, hends⟩ := hstates
      cases hlast : states.getLast? with
      | none =>
        obtain rfl := List.getLast?_eq_none_iff.mp hlast
        refine .pure (lists_nil fun final => rounds_succ_none fun k hk => ?_)
        simpa using (hends k).mpr hk
      | some next =>
        have hreads : env.Reads flags inner current.end next.end :=
          (hends next.end).mp ⟨next, List.mem_of_getLast? hlast, rfl⟩
        by_cases hstay : next.end = current.end
        · have hlisted := lists_stay hR.fixed (hstay ▸ hreads) hleft greedy
          simp only [hstay, if_true]
          split
          · rw [if_pos ‹_›] at hlisted
            exact .pure (by simpa [hstay] using hlisted)
          · rw [if_neg ‹_›] at hlisted
            exact .pure hlisted
        · simp only [hstay, if_false]
          refine (ih (by omega) (by omega) next).post fun states h => ?_
          rw [show n - (repetitions + 1) = left by omega] at h
          exact h.congr fun final => (rounds_succ_advance hR.fixed hreads hstay).symm

theorem collectSinglePathQuantifierStates_settles (hR : Repeatable env named indexed E inner)
    {n : Nat} (hfuel : n < E.fuel) (greedy possessive : Bool) (state : BacktrackState) :
    Settles flags
      (collectSinglePathQuantifierStates E inner n (some n) greedy possessive state)
      (Collects env flags (.quantifier inner n (some n) greedy possessive) state.end) := by
  refine (singlePathLoop_settles hR greedy (Nat.zero_le n) (by omega) state).bind
    fun states hstates => .pure ?_
  obtain ⟨hlength, hends⟩ := hstates
  rw [List.length_map] at hlength
  have hordered : (if possessive = true then (if greedy = true then states else states.reverse).take 1
      else if greedy = true then states else states.reverse) = states := by
    cases states with
    | nil => simp
    | cons state states =>
      obtain rfl : states = [] := by simpa using hlength
      simp
  simp only [hordered]
  refine ⟨hlength.trans repetitionTree_pos, fun final => ?_⟩
  rw [reads_quantifier, ← Nat.sub_zero n, ← hends final, List.mem_map]

end SinglePath

section Branching

/-- The work that the pending repetitions can still cause. -/
def pendingWork (outcomes n : Nat) (pending : List PendingRepetition) : Nat :=
  (pending.map fun x => repetitionTree outcomes (n - x.1)).sum

/-- What the worklist of repetitions keeps; `hand` holds the item under expansion. -/
structure BranchingProgress.Keeps (env : Env) (flags : RegexFlags) (inner : Node) (n : Nat)
    (start : BacktrackState) (hand : List PendingRepetition) (p : BranchingProgress) : Prop where
  published : ∀ x ∈ p.repetitions, Rounds env flags inner n start.end x.2.end
  queued : ∀ x ∈ p.pending, x.1 ≤ n ∧ ∀ final, Rounds env flags inner n start.end final ↔
    Rounds env flags inner (n - x.1) x.2.1.end final
  seen : ∀ x ∈ p.seen, x.1 ≤ n
  closed : (∃ final, Rounds env flags inner n start.end final) → p.repetitions ≠ [] ∨
    ∀ x, (x = (0, start, none) ∨ x ∈ p.seen) →
      x ∈ hand ∨ x ∈ p.pending ∨ ∃ y ∈ p.seen, y.1 = x.1 + 1

/-- A repetition has been published or queued one level below the given one. -/
def BranchingProgress.Deepened (env : Env) (flags : RegexFlags) (inner : Node) (n : Nat)
    (start : BacktrackState) (repetitions : Nat) (p : BranchingProgress) : Prop :=
  (∃ final, Rounds env flags inner n start.end final) →
    p.repetitions ≠ [] ∨ ∃ y ∈ p.seen, y.1 = repetitions + 1

variable {n left repetitions currentEnd outcomes : Nat} {start : BacktrackState}
  {hand : List PendingRepetition} {p : BranchingProgress} {next : BacktrackState × Option Nat}
  {greedy : Bool}

theorem rounds_unique (hinner : inner.IsFixed named indexed)
    (hj : Rounds env flags inner n i j) (hk : Rounds env flags inner n i k) : j = k := by
  obtain ⟨-, m, hm⟩ := hinner
  have hstep : ∀ i j, env.Reads flags inner i j → j = i + m := fun _ _ => spans_length inner hm
  rw [hj.1.length hstep, hk.1.length hstep]

theorem publish_stay (hstay : next.1.end = currentEnd) :
    p.publish n (some n) greedy repetitions currentEnd next =
      if n ≤ repetitions + 1 && (greedy || repetitions + 1 = n) then
        { p with repetitions := p.repetitions ++ [(repetitions + 1, next.1)] }
      else p := by
  simp [BranchingProgress.publish, hstay]

theorem publish_advance (hadvance : next.1.end ≠ currentEnd) :
    p.publish n (some n) greedy repetitions currentEnd next =
      if (repetitions + 1, next.1, next.2) ∈ p.seen then p
      else
        { p with
          seen := (repetitions + 1, next.1, next.2) :: p.seen
          pending := (repetitions + 1, next.1, next.2) :: p.pending } := by
  simp [BranchingProgress.publish, hadvance]

theorem publish_keeps (greedy : Bool) (hinner : inner.IsFixed named indexed) (hleft : n - repetitions = left + 1)
    (hreached : ∀ final, Rounds env flags inner n start.end final ↔
      Rounds env flags inner (left + 1) currentEnd final)
    (hnext : env.Reads flags inner currentEnd next.1.end)
    (h : p.Keeps env flags inner n start hand) :
    (p.publish n (some n) greedy repetitions currentEnd next).Keeps env flags inner n start hand ∧
      (p.publish n (some n) greedy repetitions currentEnd next).Deepened env flags inner n start
        repetitions := by
  by_cases hstay : next.1.end = currentEnd
  · have hrounds : ∀ final, Rounds env flags inner n start.end final ↔
        left = 0 ∧ currentEnd = final := fun final =>
      (hreached final).trans (rounds_succ_stay hinner (hstay ▸ hnext))
    rw [publish_stay hstay]
    split
    · rename_i hlast
      have hlast : left = 0 := by
        simp only [Bool.and_eq_true, decide_eq_true_eq] at hlast
        omega
      refine ⟨⟨?_, h.queued, h.seen, fun _ => .inl (by simp)⟩, fun _ => .inl (by simp)⟩
      refine List.forall_mem_append.mpr ⟨h.published, List.forall_mem_singleton.mpr ?_⟩
      exact (hrounds _).mpr ⟨hlast, hstay.symm⟩
    · rename_i hlast
      refine ⟨h, ?_⟩
      rintro ⟨final, hfinal⟩
      obtain ⟨rfl, -⟩ := (hrounds final).mp hfinal
      have hn : repetitions + 1 = n := by omega
      simp [hn] at hlast
  · have hrounds : ∀ final, Rounds env flags inner n start.end final ↔
        Rounds env flags inner left next.1.end final := fun final =>
      (hreached final).trans (rounds_succ_advance hinner hnext hstay)
    rw [publish_advance hstay]
    split
    · rename_i hseen
      exact ⟨h, fun _ => .inr ⟨_, hseen, rfl⟩⟩
    · refine ⟨⟨h.published, ?_, ?_, ?_⟩, fun _ => .inr ⟨_, List.mem_cons_self, rfl⟩⟩
      · refine List.forall_mem_cons.mpr ⟨⟨by show repetitions + 1 ≤ n; omega, ?_⟩, h.queued⟩
        show ∀ final, _ ↔ Rounds env flags inner (n - (repetitions + 1)) _ final
        rwa [show n - (repetitions + 1) = left by omega]
      · exact List.forall_mem_cons.mpr ⟨by show repetitions + 1 ≤ n; omega, h.seen⟩
      · intro hfinal
        refine (h.closed hfinal).imp_right fun hclosed x hx => ?_
        have hdeeper : ∀ x, (∃ y ∈ p.seen, y.1 = x + 1) →
            ∃ y ∈ (repetitions + 1, next.1, next.2) :: p.seen, y.1 = x + 1 := by
          rintro x ⟨y, hy, hyx⟩
          exact ⟨y, List.mem_cons_of_mem _ hy, hyx⟩
        have hold : x = (0, start, none) ∨ x ∈ p.seen →
            x ∈ hand ∨ x ∈ (repetitions + 1, next.1, next.2) :: p.pending ∨
              ∃ y ∈ (repetitions + 1, next.1, next.2) :: p.seen, y.1 = x.1 + 1 := fun hx =>
          (hclosed x hx).imp_right (Or.imp (List.mem_cons_of_mem _) (hdeeper _))
        rcases hx with hx | hx
        · exact hold (.inl hx)
        · rcases List.mem_cons.mp hx with rfl | hx
          · exact .inr (.inl List.mem_cons_self)
          · exact hold (.inr hx)

theorem publish_size (p : BranchingProgress) (next : BacktrackState × Option Nat)
    (greedy : Bool) (outcomes currentEnd : Nat) (hleft : n - repetitions = left + 1) :
    let q := p.publish n (some n) greedy repetitions currentEnd next
    p.repetitions.length ≤ q.repetitions.length ∧
      q.repetitions.length + pendingWork outcomes n q.pending ≤
        p.repetitions.length + pendingWork outcomes n p.pending +
          repetitionTree outcomes left := by
  have hpos : 0 < repetitionTree outcomes left := repetitionTree_pos
  by_cases hstay : next.1.end = currentEnd
  · rw [publish_stay hstay]
    split
    · simp only [List.length_append, List.length_singleton]
      omega
    · dsimp only
      omega
  · rw [publish_advance hstay]
    split
    · dsimp only
      omega
    · simp only [pendingWork, List.map_cons, List.sum_cons]
      rw [show n - (repetitions + 1) = left by omega]
      omega

/-- One level of the worklist: all outcomes of one more repetition. -/
theorem foldl_publish_keeps (greedy : Bool) (outcomes : Nat) (hinner : inner.IsFixed named indexed)
    (hleft : n - repetitions = left + 1)
    (hreached : ∀ final, Rounds env flags inner n start.end final ↔
      Rounds env flags inner (left + 1) currentEnd final)
    {nexts : List (BacktrackState × Option Nat)}
    (hnexts : ∀ next ∈ nexts, env.Reads flags inner currentEnd next.1.end)
    (h : p.Keeps env flags inner n start hand) :
    let q := nexts.foldl (BranchingProgress.publish n (some n) greedy repetitions currentEnd) p
    q.Keeps env flags inner n start hand ∧
      (nexts ≠ [] ∨ p.Deepened env flags inner n start repetitions →
        q.Deepened env flags inner n start repetitions) ∧
      p.repetitions.length ≤ q.repetitions.length ∧
      q.repetitions.length + pendingWork outcomes n q.pending ≤
        p.repetitions.length + pendingWork outcomes n p.pending +
          nexts.length * repetitionTree outcomes left := by
  induction nexts generalizing p with
  | nil => exact ⟨h, fun hd => hd.resolve_left (by simp), le_rfl, by simp⟩
  | cons next nexts ih =>
    obtain ⟨hkeeps, hdeepened⟩ := publish_keeps greedy hinner hleft hreached
      (hnexts next List.mem_cons_self) h
    obtain ⟨hall, hdeeper, hgrown, hsize⟩ :=
      ih (fun x hx => hnexts x (List.mem_cons_of_mem _ hx)) hkeeps
    obtain ⟨hstep, hwork⟩ := publish_size p next greedy outcomes currentEnd hleft
    refine ⟨hall, fun _ => hdeeper (.inr hdeepened), hstep.trans hgrown, hsize.trans ?_⟩
    rw [List.length_cons, Nat.succ_mul]
    omega

theorem collectRepetition_settles (hR : Repeatable env named indexed E inner)
    (state : BacktrackState) (blocked : Option Nat) :
    Settles flags (collectRepetition env E inner false state blocked) fun nexts =>
      nexts.length ≤ inner.breadth ∧ ∀ final, (∃ next ∈ nexts, next.1.end = final) ↔
        env.Reads flags inner state.end final := by
  have hsingle : collectRepetition env E inner false state blocked =
      (E.collectMatchStatesFrom inner state >>= fun next =>
        pure (next.map fun s => (s, (none : Option Nat)))) := by
    cases inner <;> rfl
  rw [hsingle]
  refine (hR.engine.collected hR.fixed hR.fuel state).bind fun states hstates => .pure ?_
  obtain ⟨hlength, hends⟩ := hstates
  refine ⟨by simpa using hlength, fun final => ?_⟩
  rw [← hends final]
  simp

/-- A worklist that has nothing left has found every outcome. -/
theorem BranchingProgress.Keeps.finished {repetitions : List (Nat × BacktrackState)}
    {seen : List PendingRepetition}
    (hinner : inner.IsFixed named indexed)
    (h : BranchingProgress.Keeps env flags inner n start [] ⟨repetitions, [], seen⟩) (final : Nat) :
    (∃ x ∈ repetitions, x.2.end = final) ↔ Rounds env flags inner n start.end final := by
  constructor
  · rintro ⟨x, hx, rfl⟩
    exact h.published x hx
  · intro hfinal
    rcases h.closed ⟨final, hfinal⟩ with hne | hclosed
    · obtain ⟨x, hx⟩ := List.exists_mem_of_ne_nil repetitions hne
      exact ⟨x, hx, rounds_unique hinner (h.published x hx) hfinal⟩
    · have hchain : ∀ k, ∃ x, (x = (0, start, none) ∨ x ∈ seen) ∧ x.1 = k := by
        intro k
        induction k with
        | zero => exact ⟨_, .inl rfl, rfl⟩
        | succ k ih =>
          obtain ⟨x, hx, rfl⟩ := ih
          obtain hhand | hpending | ⟨y, hy, hyx⟩ := hclosed x hx
          · cases hhand
          · cases hpending
          · exact ⟨y, .inr hy, hyx⟩
      obtain ⟨x, rfl | hx, hxn⟩ := hchain (n + 1)
      · cases hxn
      · have := h.seen x hx
        omega

theorem branchingLoop_settles (hR : Repeatable env named indexed E inner) (greedy : Bool)
    {steps : Nat} {p : BranchingProgress} (h : p.Keeps env flags inner n start [])
    (hsteps : pendingWork inner.breadth n p.pending ≤ steps) :
    Settles flags (branchingLoop env E inner n (some n) greedy steps p) fun repetitions =>
      repetitions.length ≤ p.repetitions.length + pendingWork inner.breadth n p.pending ∧
        ∀ final, (∃ x ∈ repetitions, x.2.end = final) ↔
          Rounds env flags inner n start.end final := by
  induction steps generalizing p with
  | zero =>
    obtain ⟨repetitions, pending, seen⟩ := p
    cases pending with
    | nil =>
      rw [branchingLoop]
      exact .pure ⟨Nat.le_add_right _ _, h.finished hR.fixed⟩
    | cons x pending =>
      have : 0 < repetitionTree inner.breadth (n - x.1) := repetitionTree_pos
      simp only [pendingWork, List.map_cons, List.sum_cons] at hsteps
      omega
  | succ steps ih =>
    obtain ⟨repetitions, pending, seen⟩ := p
    cases pending with
    | nil =>
      rw [branchingLoop]
      exact .pure ⟨Nat.le_add_right _ _, h.finished hR.fixed⟩
    | cons x pending =>
      obtain ⟨currentReps, state, blocked⟩ := x
      obtain ⟨⟨hreps, hqueued⟩, hpending⟩ := List.forall_mem_cons.mp h.queued
      have hreached : ∀ final, Rounds env flags inner n start.end final ↔
          Rounds env flags inner (n - currentReps) state.end final := hqueued
      have hwork : pendingWork inner.breadth n ((currentReps, state, blocked) :: pending) =
          repetitionTree inner.breadth (n - currentReps) + pendingWork inner.breadth n pending := by
        simp only [pendingWork, List.map_cons, List.sum_cons]
      simp only [hwork] at hsteps ⊢
      rw [branchingLoop, reachedLimit_some]
      by_cases hn : n ≤ currentReps
      · obtain rfl : n = currentReps := Nat.le_antisymm hn hreps
        simp only [le_refl, if_true, decide_true, Nat.sub_self] at hsteps hreached ⊢
        have hone : repetitionTree inner.breadth 0 = 1 := rfl
        have hlast : Rounds env flags inner n start.end state.end :=
          (hreached _).mpr (rounds_zero.mpr rfl)
        have hkeeps : BranchingProgress.Keeps env flags inner n start []
            ⟨repetitions ++ [(n, state)], pending, seen⟩ :=
          ⟨List.forall_mem_append.mpr ⟨h.published, List.forall_mem_singleton.mpr hlast⟩,
            hpending, h.seen, fun _ => .inl (by simp)⟩
        refine (ih hkeeps (by show pendingWork _ _ pending ≤ steps; omega)).post fun result hr => ?_
        refine ⟨hr.1.trans ?_, hr.2⟩
        simp only [List.length_append, List.length_singleton]
        omega
      · simp only [hn, if_false, decide_false, Bool.false_eq_true]
        obtain ⟨left, hleft⟩ : ∃ left, n - currentReps = left + 1 :=
          ⟨n - currentReps - 1, by omega⟩
        refine Settles.retainQuantifierContinuation.bind ?_
        rintro _ rfl
        simp only [Option.isNone_some, Bool.false_and]
        refine (collectRepetition_settles hR state blocked).bind fun nexts hnexts => ?_
        obtain ⟨hlength, hends⟩ := hnexts
        rw [hleft] at hreached hsteps ⊢
        have hnexts : ∀ next ∈ nexts.reverse, env.Reads flags inner state.end next.1.end :=
          fun next hnext => (hends _).mp ⟨next, List.mem_reverse.mp hnext, rfl⟩
        have hkeeps : BranchingProgress.Keeps env flags inner n start
            [(currentReps, state, blocked)] ⟨repetitions, pending, seen⟩ := by
          refine ⟨h.published, hpending, h.seen, fun hfinal => ?_⟩
          refine (h.closed hfinal).imp_right fun hclosed x hx => ?_
          obtain hhand | hx | hdeeper := hclosed x hx
          · cases hhand
          · rcases List.mem_cons.mp hx with rfl | hx
            · exact .inl List.mem_cons_self
            · exact .inr (.inl hx)
          · exact .inr (.inr hdeeper)
        obtain ⟨hall, hdeeper, hgrown, hsize⟩ := foldl_publish_keeps greedy inner.breadth hR.fixed
          hleft hreached hnexts hkeeps
        dsimp only at hgrown hsize
        have hfinished : BranchingProgress.Keeps env flags inner n start []
            (nexts.reverse.foldl
              (BranchingProgress.publish n (some n) greedy currentReps state.end)
              ⟨repetitions, pending, seen⟩) := by
          refine ⟨hall.published, hall.queued, hall.seen, fun hfinal => ?_⟩
          have hne : nexts.reverse ≠ [] := by
            obtain ⟨final, hfinal⟩ := hfinal
            obtain ⟨⟨k, hk, -⟩, -⟩ := (hreached final).mp hfinal
            obtain ⟨next, hnext, -⟩ := (hends k).mpr hk
            exact List.ne_nil_of_mem (List.mem_reverse.mpr hnext)
          rcases hdeeper (.inl hne) hfinal with hpublished | hdeepened
          · exact .inl hpublished
          · refine (hall.closed hfinal).imp_right fun hclosed x hx => ?_
            obtain hhand | hx := hclosed x hx
            · obtain rfl := List.mem_singleton.mp hhand
              exact .inr (.inr hdeepened)
            · exact .inr hx
        have hbound : nexts.length * repetitionTree inner.breadth left ≤
            inner.breadth * repetitionTree inner.breadth left := Nat.mul_le_mul_right _ hlength
        have htree : repetitionTree inner.breadth (left + 1) =
            1 + inner.breadth * repetitionTree inner.breadth left := rfl
        rw [List.length_reverse] at hsize
        refine (ih hfinished (by omega)).post fun result hr => ⟨hr.1.trans ?_, hr.2⟩
        show _ ≤ repetitions.length + _
        omega

end Branching

end Rphp.Regex
