import Rphp.Regex.Confined

set_option autoImplicit true

namespace Rphp.Regex

open Rphp.Lib

namespace Engine.IsConfined

section Helpers

variable {env : Env} {E : Engine} (h : E.IsConfined env)

include h

omit h in
theorem orElseUncontrolled {preferred other : Matcher (Option Nat)}
    (hpreferred : Confined preferred (Between lo env.chars.length))
    (hother : Confined other (Between lo env.chars.length)) :
    Confined (orElseUncontrolled preferred other) (Between lo env.chars.length) := by
  refine .bind hpreferred fun result hresult => ?_
  cases result with
  | some final => exact .pure hresult
  | none => exact .bind .view fun _ _ => .ite (fun _ => .pure between_none) fun _ => hother

theorem matchControlQuantifier (inner : Node) (min : Nat) (max : Option Nat) (greedy : Bool)
    (rest : List Node) (hpos : pos ≤ env.chars.length) :
    Confined (matchControlQuantifier E inner min max greedy rest pos)
      (Between pos env.chars.length) := by
  have hrepetition := h.matchSeqFrom inner (controlContinuation inner min max greedy rest) hpos
  have hrest := h.matchRest rest hpos
  exact .inRecursion between_none (.ite
    (fun _ => .ite (fun _ => hrest) fun _ => .pure between_none) fun _ =>
      .ite (fun _ => hrepetition) fun _ => .ite (fun _ => orElseUncontrolled hrepetition hrest)
        fun _ => orElseUncontrolled hrest hrepetition)

theorem tryUniversalEndpoints (possessive : Bool) (rest : List Node) (initial : MatchState)
    (hendpoints : ∀ endpoint ∈ endpoints, lo ≤ endpoint ∧ endpoint ≤ env.chars.length) :
    Confined (tryUniversalEndpoints E possessive rest initial endpoints)
      (Between lo env.chars.length) := by
  induction endpoints with
  | nil => exact .keptThen (fun _ => ⟨rfl, rfl⟩) (.pure between_none)
  | cons endpoint endpoints ih =>
    obtain ⟨⟨hlo, hhi⟩, hrest⟩ := List.forall_mem_cons.mp hendpoints
    refine .bind (.bind (.budgeted _) fun _ _ => .ite (fun _ => .pure between_none) fun _ =>
      .keptThen (fun _ => ⟨rfl, rfl⟩) (h.matchRestFrom rest hlo hhi)) fun result hresult => ?_
    cases result with
    | some final => exact .pure hresult
    | none =>
      exact .bind .view fun _ _ => .ite (fun _ => .pure between_none) fun _ =>
        .ite (fun _ => .keptThen (fun _ => ⟨rfl, rfl⟩) (.pure between_none)) fun _ => ih hrest

theorem matchUniversalQuantifier (greedy possessive : Bool) (rest : List Node) (pos : Nat) :
    Confined (matchUniversalQuantifier env E greedy possessive rest pos)
      (Between pos env.chars.length) := by
  refine .bind .view fun initial _ => h.tryUniversalEndpoints possessive rest initial ?_
  intro endpoint hendpoint
  have hmem : endpoint ∈ List.range' pos (env.chars.length + 1 - pos) := by
    split at hendpoint
    · exact List.mem_reverse.mp hendpoint
    · exact hendpoint
  rw [List.mem_range'_1] at hmem
  omega

omit h in
theorem mem_balancedEndpoints {reachable : List Bool} {chars : List Char}
    (hmem : endpoint ∈ balancedEndpoints opening closing maxDepth plainAllowsOpen reachable current
      chars) : current < endpoint ∧ endpoint ≤ current + chars.length := by
  induction chars generalizing reachable current with
  | nil => cases hmem
  | cons candidate chars ih =>
    simp only [balancedEndpoints] at hmem
    rw [List.length_cons]
    split at hmem
    · split at hmem
      · rcases List.mem_cons.mp hmem with rfl | hmem
        · omega
        · have := ih hmem
          omega
      · have := ih hmem
        omega
    · cases hmem

theorem tryBalancedEndpoints (rest : List Node) (initial : MatchState)
    (hendpoints : ∀ endpoint ∈ endpoints, lo ≤ endpoint ∧ endpoint ≤ env.chars.length) :
    Confined (tryBalancedEndpoints E rest initial endpoints) (Between lo env.chars.length) := by
  induction endpoints with
  | nil => exact .keptThen (fun _ => ⟨rfl, rfl⟩) (.pure between_none)
  | cons endpoint endpoints ih =>
    obtain ⟨⟨hlo, hhi⟩, hrest⟩ := List.forall_mem_cons.mp hendpoints
    exact .bind (.budgeted _) fun _ _ => .ite
      (fun _ => .keptThen (fun _ => ⟨rfl, rfl⟩) (.pure between_none)) fun _ =>
        .keptThen (fun _ => ⟨rfl, rfl⟩) (h.matchRestOrElse rest hlo hhi
          (.bind .view fun _ _ => .ite (fun _ => .pure between_none) fun _ => ih hrest))

theorem matchBalancedDelimiterQuantifier (opening closing : Char) (maxDepth : Nat)
    (plainAllowsOpen greedy possessive : Bool) (rest : List Node)
    (hpos : pos ≤ env.chars.length) :
    Confined (matchBalancedDelimiterQuantifier env E opening closing maxDepth plainAllowsOpen greedy
      possessive rest pos) (Between pos env.chars.length) := by
  refine .bind .view fun initial _ => h.tryBalancedEndpoints rest initial ?_
  have hall : ∀ endpoint ∈ pos :: balancedEndpoints opening closing maxDepth plainAllowsOpen
      ((List.range (maxDepth + 1)).map (· == 0)) pos (env.chars.drop pos),
      pos ≤ endpoint ∧ endpoint ≤ env.chars.length := by
    intro endpoint hmem
    rcases List.mem_cons.mp hmem with rfl | hmem
    · exact ⟨Nat.le_refl _, hpos⟩
    · have hbounds := mem_balancedEndpoints hmem
      rw [List.length_drop] at hbounds
      omega
  intro endpoint hendpoint
  apply hall
  have hordered : ∀ ordered : List Nat,
      endpoint ∈ (if possessive then ordered.take 1 else ordered) → endpoint ∈ ordered := by
    intro ordered hmem
    split at hmem
    · exact List.mem_of_mem_take hmem
    · exact hmem
  have hmem := hordered _ hendpoint
  split at hmem
  · exact List.mem_reverse.mp hmem
  · exact hmem

omit h in
theorem terminalFinish (min : Nat) (tracks : Bool) (initial : MatchState) (repetitions : Nat)
    (hlo : lo ≤ currentPos) (hhi : currentPos ≤ env.chars.length) :
    Confined (terminalFinish min tracks initial repetitions currentPos)
      (Between lo env.chars.length) :=
  .ite
    (fun _ => .bind (.budgeted _) fun _ _ => .ite (fun _ => .pure between_none) fun _ =>
      .pure (between_some hlo hhi))
    fun _ => .keptThen (fun _ => ⟨rfl, rfl⟩) (.pure between_none)

theorem terminalLoop (inner : Node) (min : Nat) (max : Option Nat) (greedy tracks : Bool)
    (initial : MatchState) (steps repetitions : Nat) (hlo : lo ≤ currentPos)
    (hhi : currentPos ≤ env.chars.length) :
    Confined (terminalLoop E inner min max greedy tracks initial steps repetitions currentPos)
      (Between lo env.chars.length) := by
  induction steps generalizing repetitions currentPos with
  | zero => exact .exhausted
  | succ steps ih =>
    refine .ite (fun _ => terminalFinish _ _ _ _ hlo hhi) fun _ => .bind .view fun saved _ =>
      .bind (h.matchSeqFrom inner [] hhi) fun result hresult => ?_
    cases result with
    | some nextPos =>
      obtain ⟨hnext, hend⟩ := hresult.of_some
      have hlo' := Nat.le_trans hlo hnext
      refine .bind .view fun s _ => .ite (fun _ => .pure (between_some hlo' hend)) fun _ =>
        .ite (fun _ => ?_) fun _ => .ite (fun _ => .pure (between_some hlo' hend)) fun _ => ?_
      · exact .keptThen (fun _ => ⟨rfl, rfl⟩) (terminalFinish _ _ _ _ hlo hhi)
      · exact ih _ hlo' hend
    | none =>
      exact .bind .view fun s _ => .ite (fun _ => .pure between_none) fun _ =>
        .keptThen (fun _ => ⟨rfl, rfl⟩) (terminalFinish _ _ _ _ hlo hhi)

theorem matchTerminalQuantifier (inner : Node) (min : Nat) (max : Option Nat) (greedy : Bool)
    (hpos : pos ≤ env.chars.length) :
    Confined (matchTerminalQuantifier E inner min max greedy pos)
      (Between pos env.chars.length) :=
  .bind .view fun _ _ => .ite (fun _ => .pure (between_some (Nat.le_refl _) hpos)) fun _ =>
    h.terminalLoop inner min max greedy _ _ _ _ (Nat.le_refl _) hpos

omit h in
/-- How a loop over repetitions may end: in a position of the range, or with states that are
all in it. -/
def ExitBetween (lo hi : Nat) : LoopExit (List (Nat × MatchState)) → Prop
  | .return result => Between lo hi result
  | .break states => ∀ state ∈ states, lo ≤ state.1 ∧ state.1 ≤ hi

theorem preferredAttempt (min : Nat) (greedy tracks : Bool) (rest : List Node)
    (initial : MatchState) (repetitions : Nat) (hlo : lo ≤ currentPos)
    (hhi : currentPos ≤ env.chars.length) :
    Confined (preferredAttempt E min greedy tracks rest initial repetitions currentPos)
      fun exit => ∀ result, exit = .return result → Between lo env.chars.length result := by
  have hnone : ∀ result, (LoopExit.return none : LoopExit Unit) = .return result →
      Between lo env.chars.length result := by
    rintro _ ⟨⟩
    exact between_none
  refine .ite (fun _ => .bind .view fun saved _ => .bind (.budgeted _) fun _ _ =>
    .ite (fun _ => .keptThen (fun _ => ⟨rfl, rfl⟩) (.pure hnone)) fun _ =>
      .bind (h.matchRestFrom rest hlo hhi) fun result hresult => ?_) fun _ => .pure nofun
  cases result with
  | some final =>
    refine .pure ?_
    rintro _ ⟨⟩
    exact hresult
  | none =>
    exact .bind .view fun s _ => .ite (fun _ => .pure hnone) fun _ =>
      .keptThen (fun _ => ⟨rfl, rfl⟩) (.pure nofun)

omit h in
theorem exitBetween_break {states : List (Nat × MatchState)}
    (hstates : ∀ state ∈ states, lo ≤ state.1 ∧ state.1 ≤ hi) :
    ExitBetween lo hi (.break states) := hstates

omit h in
theorem between_cons {states : List (Nat × MatchState)}
    (hstates : ∀ state ∈ states, lo ≤ state.1 ∧ state.1 ≤ hi) (hlo : lo ≤ pos) (hhi : pos ≤ hi)
    (s : MatchState) : ∀ state ∈ (pos, s) :: states, lo ≤ state.1 ∧ state.1 ≤ hi :=
  List.forall_mem_cons.mpr ⟨⟨hlo, hhi⟩, hstates⟩

omit h in
theorem between_published {states : List (Nat × MatchState)}
    (hstates : ∀ state ∈ states, lo ≤ state.1 ∧ state.1 ≤ hi) (hlo : lo ≤ pos) (hhi : pos ≤ hi)
    (s : MatchState) (c : Prop) [Decidable c] :
    ∀ state ∈ (if c then (pos, s) :: states else states), lo ≤ state.1 ∧ state.1 ≤ hi := by
  split
  · exact between_cons hstates hlo hhi s
  · exact hstates

theorem preferredLoop (inner : Node) (min : Nat) (max : Option Nat) (greedy tracks : Bool)
    (rest : List Node) (initial : MatchState) (steps repetitions : Nat) (hlo : lo ≤ currentPos)
    (hhi : currentPos ≤ env.chars.length) {states : List (Nat × MatchState)}
    (hstates : ∀ state ∈ states, lo ≤ state.1 ∧ state.1 ≤ env.chars.length) :
    Confined (preferredLoop E inner min max greedy tracks rest initial steps repetitions currentPos
      states) (ExitBetween lo env.chars.length) := by
  induction steps generalizing repetitions currentPos states with
  | zero => exact .exhausted
  | succ steps ih =>
    refine .bind (h.preferredAttempt _ _ _ rest _ _ hlo hhi) fun exit hexit => ?_
    cases exit with
    | «return» result => exact .pure (hexit result rfl)
    | «break» _ =>
      refine .bind .view fun here _ => ?_
      have hhere := between_published hstates hlo hhi here (min ≤ repetitions)
      refine .ite (fun _ => .pure (exitBetween_break hhere)) fun _ => .bind (.budgeted _) fun _ _ =>
        .ite (fun _ => .pure (exitBetween_break hhere)) fun _ => .bind .view fun saved _ =>
          .bind (h.matchSeqFrom inner [] hhi) fun result hresult => ?_
      cases result with
      | some nextPos =>
        obtain ⟨hnext, hend⟩ := hresult.of_some
        have hlo' := Nat.le_trans hlo hnext
        exact .bind .view fun s _ => .ite (fun _ => .pure (between_some hlo' hend)) fun _ =>
          .ite (fun _ => .ite (fun _ => .pure (exitBetween_break (between_cons hhere hlo hhi s)))
            fun _ => .pure (exitBetween_break hhere)) fun _ => ih _ hlo' hend hhere
      | none =>
        exact .bind .view fun s _ => .ite (fun _ => .pure between_none) fun _ =>
          .keptThen (fun _ => ⟨rfl, rfl⟩) (.pure (exitBetween_break hhere))

theorem tryPreferredStates (tracks : Bool) (rest : List Node) (initial : MatchState)
    {states : List (Nat × MatchState)}
    (hstates : ∀ state ∈ states, lo ≤ state.1 ∧ state.1 ≤ env.chars.length) :
    Confined (tryPreferredStates E tracks rest initial states)
      (Between lo env.chars.length) := by
  induction states with
  | nil => exact .keptThen (fun _ => ⟨rfl, rfl⟩) (.pure between_none)
  | cons state states ih =>
    obtain ⟨⟨hlo, hhi⟩, hrest⟩ := List.forall_mem_cons.mp hstates
    exact .bind (.budgeted _) fun _ _ => .ite
      (fun _ => .keptThen (fun _ => ⟨rfl, rfl⟩) (.pure between_none)) fun _ =>
        .keptThen (fun _ => ⟨rfl, rfl⟩) (h.matchRestOrElse rest hlo hhi
          (.bind .view fun _ _ => .ite (fun _ => .pure between_none) fun _ => ih hrest))

theorem matchQuantifierPreferredPath (inner : Node) (min : Nat) (max : Option Nat)
    (greedy possessive : Bool) (rest : List Node) (hpos : pos ≤ env.chars.length) :
    Confined (matchQuantifierPreferredPath E inner min max greedy possessive rest pos)
      (Between pos env.chars.length) := by
  refine .bind .view fun initial _ =>
    .bind (h.preferredLoop _ _ _ _ _ rest _ _ _ (Nat.le_refl _) hpos (List.forall_mem_nil _))
      fun exit hexit => ?_
  cases exit with
  | «return» result => exact .pure hexit
  | «break» states =>
    refine .ite (fun _ => h.tryPreferredStates _ rest initial ?_) fun _ =>
      .keptThen (fun _ => ⟨rfl, rfl⟩) (.pure between_none)
    split
    · exact fun state hmem => hexit state (List.mem_of_mem_take hmem)
    · exact hexit

theorem repetitionLoop (inner : Node) (min : Nat) (max : Option Nat) (greedy tracks : Bool)
    (steps currentReps : Nat) (hlo : lo ≤ currentPos) (hhi : currentPos ≤ env.chars.length)
    {states : List (Nat × MatchState)}
    (hstates : ∀ state ∈ states, lo ≤ state.1 ∧ state.1 ≤ env.chars.length) :
    Confined (repetitionLoop E inner min max greedy tracks steps currentReps currentPos states)
      (ExitBetween lo env.chars.length) := by
  induction steps generalizing currentReps currentPos states with
  | zero => exact .exhausted
  | succ steps ih =>
    refine .bind .view fun here _ => ?_
    have hhere := between_published hstates hlo hhi here (min ≤ currentReps)
    refine .ite (fun _ => .pure (exitBetween_break hhere)) fun _ => .bind (.budgeted _) fun _ _ =>
      .ite (fun _ => .pure (exitBetween_break hhere)) fun _ => .bind .view fun saved _ =>
        .bind (h.matchSeqFrom inner [] hhi) fun result hresult => ?_
    cases result with
    | some nextPos =>
      obtain ⟨hnext, hend⟩ := hresult.of_some
      have hlo' := Nat.le_trans hlo hnext
      exact .bind .view fun s _ => .ite (fun _ => .pure (between_some hlo' hend)) fun _ =>
        .ite (fun _ => .ite (fun _ => .pure (exitBetween_break (between_cons hhere hlo hhi s)))
          fun _ => .pure (exitBetween_break hhere)) fun _ => ih _ hlo' hend hhere
    | none =>
      exact .bind .view fun s _ => .ite (fun _ => .pure between_none) fun _ =>
        .keptThen (fun _ => ⟨rfl, rfl⟩) (.pure (exitBetween_break hhere))

theorem tryRepetitionStates (tracks : Bool) (rest : List Node) {states : List (Nat × MatchState)}
    (hstates : ∀ state ∈ states, lo ≤ state.1 ∧ state.1 ≤ env.chars.length) :
    Confined (tryRepetitionStates E tracks rest states) (Between lo env.chars.length) := by
  induction states with
  | nil => exact .pure between_none
  | cons state states ih =>
    obtain ⟨⟨hlo, hhi⟩, hrest⟩ := List.forall_mem_cons.mp hstates
    exact .bind (.budgeted _) fun _ _ => .ite (fun _ => .pure between_none) fun _ =>
      .keptThen (fun _ => ⟨rfl, rfl⟩) (h.matchRestOrElse rest hlo hhi
        (.bind .view fun _ _ => .ite (fun _ => .pure between_none) fun _ => ih hrest))

theorem matchSingleOutcomeQuantifier (inner : Node) (min : Nat) (max : Option Nat)
    (greedy possessive : Bool) (rest : List Node) (hpos : pos ≤ env.chars.length) :
    Confined (matchSingleOutcomeQuantifier E inner min max greedy possessive rest pos)
      (Between pos env.chars.length) := by
  refine .bind .view fun initial _ => .bind (.budgeted _) fun _ _ =>
    .ite (fun _ => .pure between_none) fun _ =>
      .bind (h.repetitionLoop _ _ _ _ _ _ _ (Nat.le_refl _) hpos (List.forall_mem_nil _))
        fun exit hexit => ?_
  cases exit with
  | «return» result => exact .pure hexit
  | «break» states =>
    refine .bind (.budgeted _) fun _ _ => .ite (fun _ => .pure between_none) fun _ =>
      .ite (fun _ => ?_) fun _ => h.tryRepetitionStates _ rest ?_
    · cases states with
      | nil => exact .pure between_none
      | cons state states =>
        obtain ⟨⟨hlo, hhi⟩, -⟩ := List.forall_mem_cons.mp hexit
        exact .keptThen (fun _ => ⟨rfl, rfl⟩) (h.matchRestFrom rest hlo hhi)
    · split
      · exact hexit
      · exact fun state hmem => hexit state (List.mem_reverse.mp hmem)

theorem singlePathLoop (inner : Node) (min : Nat) (max : Option Nat) (greedy : Bool)
    (steps currentReps : Nat) {current : BacktrackState} (hlo : lo ≤ current.end)
    (hhi : current.end ≤ env.chars.length) {repetitions : List BacktrackState}
    (hrepetitions : EndsBetween lo env.chars.length repetitions) :
    Confined (singlePathLoop E inner min max greedy steps currentReps current repetitions)
      (EndsBetween lo env.chars.length) := by
  induction steps generalizing currentReps current repetitions with
  | zero => exact .exhausted
  | succ steps ih =>
    have hhere : EndsBetween lo env.chars.length
        (if min ≤ currentReps then current :: repetitions else repetitions) := by
      split
      · exact List.forall_mem_cons.mpr ⟨⟨hlo, hhi⟩, hrepetitions⟩
      · exact hrepetitions
    refine .ite (fun _ => .pure hhere) fun _ => .bind (.budgeted _) fun _ _ =>
      .ite (fun _ => .pure hhere) fun _ => .bind (h.collect inner hhi) fun next hnext => ?_
    cases hlast : next.getLast? with
    | none => exact .pure hhere
    | some last =>
      obtain ⟨hstep, hend⟩ := hnext last (List.mem_of_getLast? hlast)
      have hlo' := Nat.le_trans hlo hstep
      exact .ite
        (fun _ => .ite (fun _ => .pure (List.forall_mem_cons.mpr ⟨⟨hlo', hend⟩, hhere⟩)) fun _ =>
          .pure hhere)
        fun _ => ih _ hlo' hend hhere

omit h in
theorem endsBetween_ordered (hstates : EndsBetween lo hi states) (greedy possessive : Bool) :
    EndsBetween lo hi
      (if possessive then (if greedy then states else states.reverse).take 1
        else if greedy then states else states.reverse) := by
  have hordered : EndsBetween lo hi (if greedy then states else states.reverse) := by
    split
    · exact hstates
    · exact fun state hmem => hstates state (List.mem_reverse.mp hmem)
  split
  · exact hordered.sublist (List.take_sublist 1 _)
  · exact hordered

theorem collectSinglePathQuantifierStates (inner : Node) (min : Nat) (max : Option Nat)
    (greedy possessive : Bool) {state : BacktrackState} (hstate : state.end ≤ env.chars.length) :
    Confined (collectSinglePathQuantifierStates E inner min max greedy possessive state)
      (EndsBetween state.end env.chars.length) :=
  .bind (h.singlePathLoop inner min max greedy _ _ (Nat.le_refl _) hstate endsBetween_nil)
    fun _ hrepetitions => .pure (endsBetween_ordered hrepetitions greedy possessive)

theorem collectSelections {state : BacktrackState} (hstate : state.end ≤ env.chars.length)
    (blocked : Option Nat) (index : Nat) (branches : List Node) :
    Confined (collectSelections env E state blocked index branches)
      fun next => EndsBetween state.end env.chars.length (next.map Prod.fst) := by
  induction branches generalizing index with
  | nil => exact .pure endsBetween_nil
  | cons branch branches ih =>
    refine .bind .view fun _ _ => .ite (fun _ => ih _) fun _ => .ite (fun _ => ih _) fun _ =>
      .bind (.consumeAlternative _) fun _ _ => .ite (fun _ => .pure endsBetween_nil) fun _ =>
        .bind (h.collect branch hstate) fun next hnext => .bind (ih _) fun later hlater => .pure ?_
    rw [List.map_append, List.map_map]
    refine EndsBetween.append ?_ hlater
    simpa [Function.comp_def] using hnext

theorem collectRepetition (inner : Node) (collapse : Bool) {state : BacktrackState}
    (hstate : state.end ≤ env.chars.length) (blocked : Option Nat) :
    Confined (collectRepetition env E inner collapse state blocked)
      fun next => EndsBetween state.end env.chars.length (next.map Prod.fst) := by
  unfold Regex.collectRepetition
  split
  · exact h.collectSelections hstate blocked 0 _
  · refine .bind (h.collect _ hstate) fun next hnext => .pure ?_
    simpa [Function.comp_def] using hnext

omit h in
/-- The progress of a branching loop whose states all end in a range. -/
structure ProgressBetween (lo hi : Nat) (p : BranchingProgress) : Prop where
  repetitions : ∀ item ∈ p.repetitions, lo ≤ item.2.end ∧ item.2.end ≤ hi
  pending : ∀ item ∈ p.pending, lo ≤ item.2.1.end ∧ item.2.1.end ≤ hi

omit h in
theorem ProgressBetween.publish (hp : ProgressBetween lo hi p) (min : Nat) (max : Option Nat)
    (greedy : Bool) (currentReps currentEnd : Nat)
    (hnext : lo ≤ next.1.end ∧ next.1.end ≤ hi) :
    ProgressBetween lo hi
      (BranchingProgress.publish min max greedy currentReps currentEnd p next) := by
  have hqueued : ∀ key,
      ProgressBetween lo hi
        (if key ∈ p.seen then p
          else { p with
            seen := key :: p.seen
            pending := (currentReps + 1, next.1, next.2) :: p.pending }) := by
    intro key
    split
    · exact hp
    · exact ⟨hp.repetitions, List.forall_mem_cons.mpr ⟨hnext, hp.pending⟩⟩
  unfold BranchingProgress.publish
  dsimp only
  split
  · split
    · exact ⟨List.forall_mem_append.mpr ⟨hp.repetitions, List.forall_mem_singleton.mpr hnext⟩,
        hp.pending⟩
    · exact hp
  · exact hqueued _

omit h in
theorem ProgressBetween.publishAll (hp : ProgressBetween lo hi p) (min : Nat) (max : Option Nat)
    (greedy : Bool) (currentReps currentEnd : Nat) {next : List (BacktrackState × Option Nat)}
    (hnext : ∀ item ∈ next, lo ≤ item.1.end ∧ item.1.end ≤ hi) :
    ProgressBetween lo hi
      (next.foldl (BranchingProgress.publish min max greedy currentReps currentEnd) p) := by
  induction next generalizing p with
  | nil => exact hp
  | cons item next ih =>
    obtain ⟨hitem, hrest⟩ := List.forall_mem_cons.mp hnext
    exact ih (hp.publish min max greedy currentReps currentEnd hitem) hrest

theorem branchingLoop (inner : Node) (min : Nat) (max : Option Nat) (greedy : Bool) (steps : Nat)
    (hp : ProgressBetween lo env.chars.length p) :
    Confined (branchingLoop env E inner min max greedy steps p)
      fun repetitions => EndsBetween lo env.chars.length (repetitions.map Prod.snd) := by
  have hdone : ∀ {repetitions : List (Nat × BacktrackState)},
      (∀ item ∈ repetitions, lo ≤ item.2.end ∧ item.2.end ≤ env.chars.length) →
        EndsBetween lo env.chars.length (repetitions.map Prod.snd) :=
    fun hitems => List.forall_mem_map.mpr hitems
  induction steps generalizing p with
  | zero =>
    obtain ⟨repetitions, pending, seen⟩ := p
    cases pending with
    | nil =>
      unfold Regex.branchingLoop
      exact .pure (hdone hp.repetitions)
    | cons item pending => exact .exhausted
  | succ steps ih =>
    obtain ⟨repetitions, pending, seen⟩ := p
    cases pending with
    | nil =>
      unfold Regex.branchingLoop
      exact .pure (hdone hp.repetitions)
    | cons item pending =>
      obtain ⟨currentReps, state, blocked⟩ := item
      obtain ⟨⟨hlo, hhi⟩, hpending⟩ := List.forall_mem_cons.mp hp.pending
      have hhere : ∀ item ∈ (if min ≤ currentReps then repetitions ++ [(currentReps, state)]
          else repetitions), lo ≤ item.2.end ∧ item.2.end ≤ env.chars.length := by
        split
        · exact List.forall_mem_append.mpr
            ⟨hp.repetitions, List.forall_mem_singleton.mpr ⟨hlo, hhi⟩⟩
        · exact hp.repetitions
      refine .ite (fun _ => ih ⟨hhere, hpending⟩) fun _ => .bind (.budgeted _) fun _ _ =>
        .ite (fun _ => .pure (hdone hhere)) fun _ =>
          .bind (h.collectRepetition inner _ hhi blocked) fun next hnext => ih ?_
      refine ProgressBetween.publishAll ⟨hhere, hpending⟩ min max greedy currentReps _ ?_
      intro item hitem
      have hmem := hnext item.1 (List.mem_map_of_mem (List.mem_reverse.mp hitem))
      exact ⟨Nat.le_trans hlo hmem.1, hmem.2⟩

theorem collectBranchingQuantifierStates (inner : Node) (min : Nat) (max : Option Nat)
    (greedy possessive : Bool) {state : BacktrackState} (hstate : state.end ≤ env.chars.length) :
    Confined (collectBranchingQuantifierStates env E inner min max greedy possessive state)
      (EndsBetween state.end env.chars.length) := by
  have hstart : ProgressBetween state.end env.chars.length ⟨[], [(0, state, none)], []⟩ :=
    ⟨List.forall_mem_nil _, List.forall_mem_singleton.mpr ⟨Nat.le_refl _, hstate⟩⟩
  refine .bind (h.branchingLoop inner min max greedy _ hstart) fun repetitions hrepetitions =>
    .pure ?_
  rw [EndsBetween, List.forall_mem_map]
  intro item hitem
  have hsorted : item ∈ repetitions.insertionSort (fun a b => repetitionLe greedy a b = true) := by
    split at hitem
    · exact List.mem_of_mem_take hitem
    · exact hitem
  rw [List.mem_insertionSort] at hsorted
  exact hrepetitions item.2 (List.mem_map_of_mem hsorted)

theorem tryCollectedStates (rest : List Node) (initial : BacktrackState)
    (hstates : EndsBetween lo env.chars.length states) :
    Confined (tryCollectedStates E rest initial states) (Between lo env.chars.length) := by
  induction states with
  | nil => exact restored initial
  | cons state states ih =>
    obtain ⟨⟨hlo, hhi⟩, hrest⟩ := List.forall_mem_cons.mp hstates
    exact .bind (.install _) fun _ _ => h.matchRestOrElse rest hlo hhi
      (.bind .view fun _ _ => .ite (fun _ => .pure between_none) fun _ => ih hrest)

theorem matchBranchingQuantifier (inner : Node) (min : Nat) (max : Option Nat)
    (greedy possessive : Bool) (rest : List Node) (hpos : pos ≤ env.chars.length) :
    Confined (matchBranchingQuantifier env E inner min max greedy possessive rest pos)
      (Between pos env.chars.length) := by
  refine .bind (h.matchQuantifierPreferredPath inner min max greedy possessive rest hpos)
    fun result hresult => ?_
  cases result with
  | some final => exact .pure hresult
  | none =>
    refine .ite (fun _ => .pure between_none) fun _ => .bind (.budgeted _) fun _ _ =>
      .ite (fun _ => .pure between_none) fun _ => .bind (.take pos) fun initial hinitial => ?_
    subst hinitial
    exact .bind (h.collectBranchingQuantifierStates inner min max greedy possessive hpos)
      fun states hstates => h.tryCollectedStates rest initial hstates

theorem matchPossibleQuantifier (inner : Node) (min : Nat) (max : Option Nat)
    (greedy possessive : Bool) (rest : List Node) (hpos : pos ≤ env.chars.length) :
    Confined (matchPossibleQuantifier env E inner min max greedy possessive rest pos)
      (Between pos env.chars.length) := by
  refine .ite (fun _ => h.matchControlQuantifier inner min max greedy rest hpos) fun _ =>
    .ite (fun _ => h.matchUniversalQuantifier greedy possessive rest pos) fun _ => ?_
  cases (if min = 0 && max.isNone && !rest.isEmpty then balancedDelimiterSpec inner else none) with
  | some spec => exact h.matchBalancedDelimiterQuantifier _ _ _ _ greedy possessive rest hpos
  | none =>
    exact .ite (fun _ => h.matchTerminalQuantifier inner min max greedy hpos) fun _ =>
      .ite (fun _ => h.matchBranchingQuantifier inner min max greedy possessive rest hpos) fun _ =>
        h.matchSingleOutcomeQuantifier inner min max greedy possessive rest hpos

theorem matchQuantifier (inner : Node) (min : Nat) (max : Option Nat) (greedy possessive : Bool)
    (rest : List Node) (hpos : pos ≤ env.chars.length) :
    Confined (matchQuantifier env E inner min max greedy possessive rest pos)
      (Between pos env.chars.length) := by
  refine .inRecursion between_none (.bind .view fun s _ => ?_)
  cases partitionCost? env s.flags inner min max greedy possessive rest pos with
  | some cost => exact .bind (.budgeted _) fun _ _ => .pure between_none
  | none => exact h.matchPossibleQuantifier inner min max greedy possessive rest hpos

omit h in
theorem lt_of_any {chars : List Char} {p : Char → Bool} (hany : chars[pos]?.any p = true) :
    pos + 1 ≤ chars.length := by
  obtain ⟨c, hc, -⟩ := (Option.any_eq_true _ _).mp hany
  exact (List.getElem?_eq_some_iff.mp hc).1

omit h in
theorem graphemeClusterLen_le {T : CharTables} {chars : List Char}
    (hlength : graphemeClusterLen T chars pos = some length) : pos + length ≤ chars.length := by
  unfold graphemeClusterLen at hlength
  split at hlength
  · cases hlength
    have hsub := (List.takeWhile_sublist (T.joinsGrapheme chars pos)
      (l := List.range' (pos + 1) (chars.length - (pos + 1)))).length_le
    rw [List.length_range'] at hsub
    omega
  · cases hlength

omit h in
theorem linebreakLen_le {chars : List Char} {flags : RegexFlags}
    (hlength : linebreakLen chars pos flags = some length) : pos + length ≤ chars.length := by
  unfold linebreakLen at hlength
  split at hlength
  · cases hlength
  · rename_i first hfirst
    have hpos := (List.getElem?_eq_some_iff.mp hfirst).1
    split at hlength
    · rename_i hboth
      cases hlength
      rw [Bool.and_eq_true, beq_iff_eq, beq_iff_eq] at hboth
      exact (List.getElem?_eq_some_iff.mp hboth.2).1
    · split at hlength
      · cases hlength
        omega
      · cases hlength

theorem matchSeqFromStep (node : Node) (rest : List Node) (hpos : pos ≤ env.chars.length) :
    Confined (matchSeqFromStep env E node rest pos) (Between pos env.chars.length) := by
  refine .bind (.budgeted _) fun _ _ => .ite (fun _ => .pure between_none) fun _ =>
    .bind .view fun s _ => ?_
  have hone : pos ≤ pos + 1 := Nat.le_succ pos
  cases node with
  | sequence nodes =>
    cases nodes with
    | nil => exact h.matchRest rest hpos
    | cons first nodes => exact h.matchSeqFrom first _ hpos
  | graphemeCluster =>
    cases hlength : graphemeClusterLen env.tables env.chars pos with
    | none => exact .pure between_none
    | some length =>
      exact h.matchRestFrom rest (Nat.le_add_right _ _) (graphemeClusterLen_le hlength)
  | linebreak =>
    cases hlength : linebreakLen env.chars pos s.flags with
    | none => exact .pure between_none
    | some length => exact h.matchRestFrom rest (Nat.le_add_right _ _) (linebreakLen_le hlength)
  | literal c => exact h.advanceIf rest hone lt_of_any
  | anyChar =>
    refine h.advanceIf rest hone fun hok => ?_
    rw [anyCharMatches, Bool.and_eq_true, decide_eq_true_eq] at hok
    exact hok.1
  | byteUnit =>
    refine h.advanceIf rest hone fun hok => ?_
    rw [Option.isSome_iff_exists] at hok
    obtain ⟨c, hc⟩ := hok
    exact (List.getElem?_eq_some_iff.mp hc).1
  | notNewline =>
    refine h.advanceIf rest hone fun hok => ?_
    rw [notNewlineMatches, Bool.and_eq_true, decide_eq_true_eq] at hok
    exact hok.1
  | anchor a => exact h.advanceIf rest (Nat.le_refl _) fun _ => hpos
  | wordBoundary positive => exact h.advanceIf rest (Nat.le_refl _) fun _ => hpos
  | charClass negated items => exact h.advanceIf rest hone lt_of_any
  | shorthand sh => exact h.advanceIf rest hone lt_of_any
  | localFlags flags inner => exact h.matchLocalFlags flags inner rest hpos
  | alternation branches => exact h.matchAlternation rest hpos true branches
  | group index inner => exact h.matchGroup index inner rest hpos
  | quantifier inner min max greedy possessive =>
    exact h.matchQuantifier inner min max greedy possessive rest hpos
  | backreference n => exact h.matchBackrefByIndex n rest hpos
  | namedBackreference n => exact h.matchNamedBackreference n rest hpos
  | lookahead positive atomic inner => exact h.matchLookahead positive atomic inner rest hpos
  | lookbehind positive atomic inner => exact h.matchLookbehind positive atomic inner rest hpos
  | atomic inner => exact h.matchAtomic inner rest hpos
  | scriptRun inner atomic => exact h.matchScriptRun inner atomic rest hpos
  | mark n => exact h.matchMark n rest hpos
  | control verb n => exact h.matchControl verb n rest hpos
  | resetStart => exact h.matchResetStart rest hpos
  | subroutine target => exact h.matchSubroutine target rest hpos
  | conditional condition yes no => exact h.matchConditional condition yes no rest hpos
  | captureEnd index start => exact h.matchCaptureEnd index start rest hpos
  | captureRestore groups => exact h.matchCaptureRestore groups rest hpos

theorem collectAfterEach (node : Node) (hstates : EndsBetween lo env.chars.length states) :
    Confined (collectAfterEach E node states) (EndsBetween lo env.chars.length) := by
  induction states with
  | nil => exact .pure endsBetween_nil
  | cons state states ih =>
    obtain ⟨⟨hlo, hhi⟩, hrest⟩ := List.forall_mem_cons.mp hstates
    exact .bind (h.collect node hhi) fun _ hnext => .bind (ih hrest) fun _ hlater =>
      .pure ((hnext.mono hlo).append hlater)

theorem collectSequence (nodes : List Node) (hstates : EndsBetween lo env.chars.length states) :
    Confined (collectSequence E nodes states) (EndsBetween lo env.chars.length) := by
  induction nodes generalizing states with
  | nil => exact .pure hstates
  | cons node nodes ih =>
    exact .bind (h.collectAfterEach node hstates) fun _ hnext => .bind .view fun _ _ =>
      .ite (fun _ => .pure hnext) fun _ => ih hnext

theorem collectAlternation {state : BacktrackState} (hstate : state.end ≤ env.chars.length)
    (first : Bool) (branches : List Node) :
    Confined (collectAlternation E state first branches)
      (EndsBetween state.end env.chars.length) := by
  induction branches generalizing first with
  | nil => exact .pure endsBetween_nil
  | cons branch branches ih =>
    exact .bind (.consumeAlternative first) fun _ _ => .ite (fun _ => .pure endsBetween_nil) fun _ =>
      .bind (h.collect branch hstate) fun _ hnext => .bind (ih false) fun _ hlater =>
        .pure (hnext.append hlater)

theorem collectQuantifier (inner : Node) (min : Nat) (max : Option Nat) (greedy possessive : Bool)
    {state : BacktrackState} (hstate : state.end ≤ env.chars.length) :
    Confined (collectQuantifier env E inner min max greedy possessive state)
      (EndsBetween state.end env.chars.length) :=
  .inRecursion endsBetween_nil (.ite
    (fun _ => h.collectBranchingQuantifierStates inner min max greedy possessive hstate) fun _ =>
      h.collectSinglePathQuantifierStates inner min max greedy possessive hstate)

omit h in
theorem endsBetween_publishGroup (hstates : EndsBetween lo hi states) (tracked : Option Nat)
    (startOffset : Nat) : EndsBetween lo hi (publishGroup env tracked startOffset states) := by
  cases tracked with
  | none => exact hstates
  | some index => exact List.forall_mem_map.mpr hstates

theorem collectGroup (index : Option Nat) (inner : Node) {state : BacktrackState}
    (hstate : state.end ≤ env.chars.length) :
    Confined (collectGroup env E index inner state) (EndsBetween state.end env.chars.length) :=
  .inRecursion endsBetween_nil (.bind (h.collect inner hstate) fun _ hstates =>
    .pure (endsBetween_publishGroup hstates _ _))

theorem collectSubroutineStates (target : SubroutineTarget) {state : BacktrackState}
    (hstate : state.end ≤ env.chars.length) :
    Confined (collectSubroutineStates env E target state)
      (EndsBetween state.end env.chars.length) := by
  have htarget : Confined (collectTarget E state (resolveSubroutine env target))
      (EndsBetween state.end env.chars.length) := by
    cases resolveSubroutine env target with
    | none => exact .pure endsBetween_nil
    | some node => exact h.collect node hstate
  refine .bind .view fun _ _ => .ite (fun _ => .pure endsBetween_nil) fun _ =>
    .inRecursion endsBetween_nil ?_
  have hcall : Confined
      (do
        let states ← (do
          pushSubroutineCall target state.end
          let states ← collectTarget E state (resolveSubroutine env target)
          popSubroutineCall
          pure states)
        pure (states.map fun next => { next with groups := state.groups }))
      (EndsBetween state.end env.chars.length) :=
    .bind (htarget.inCall target state.end) fun states hstates => .pure (by
      rw [EndsBetween, List.forall_mem_map]
      exact hstates)
  simpa only [bind_assoc, pure_bind] using hcall

theorem collectConditionalStates (condition : CaptureCondition) (yes : Node) (no : Option Node)
    {state : BacktrackState} (hstate : state.end ≤ env.chars.length) :
    Confined (collectConditionalStates env E condition yes no state)
      (EndsBetween state.end env.chars.length) := by
  refine .bind (.install _) fun _ _ => .bind (h.captureConditionMatches condition hstate)
    fun holds _ => .bind (.take _) fun taken htaken => ?_
  rw [← htaken] at hstate ⊢
  cases if holds then some yes else no with
  | none => exact .pure (List.forall_mem_singleton.mpr ⟨Nat.le_refl _, hstate⟩)
  | some node => exact h.collect node hstate

theorem collectSimple (node : Node) {state : BacktrackState}
    (hstate : state.end ≤ env.chars.length) :
    Confined
      (do
        state.install
        match ← E.matchSeqFrom node [] state.end with
        | some final => do
          let next ← BacktrackState.take final
          pure [next]
        | none => pure []) (EndsBetween state.end env.chars.length) := by
  refine .bind (.install _) fun _ _ => .bind (h.matchSeqFrom node [] hstate) fun result hresult => ?_
  cases result with
  | none => exact .pure endsBetween_nil
  | some final =>
    refine .bind (.take final) fun next hnext => .pure (List.forall_mem_singleton.mpr ?_)
    rw [hnext]
    exact hresult.of_some

theorem collectMatchStatesFromStep (node : Node) {state : BacktrackState}
    (hstate : state.end ≤ env.chars.length) :
    Confined (collectMatchStatesFromStep env E node state)
      (EndsBetween state.end env.chars.length) := by
  refine .bind (.budgeted _) fun _ _ => .ite (fun _ => .pure endsBetween_nil) fun _ => ?_
  cases node with
  | sequence nodes =>
    exact h.collectSequence nodes (List.forall_mem_singleton.mpr ⟨Nat.le_refl _, hstate⟩)
  | alternation branches => exact h.collectAlternation hstate true branches
  | quantifier inner min max greedy possessive =>
    exact h.collectQuantifier inner min max greedy possessive hstate
  | group index inner => exact h.collectGroup index inner hstate
  | subroutine target => exact h.collectSubroutineStates target hstate
  | conditional condition yes no => exact h.collectConditionalStates condition yes no hstate
  | _ => exact h.collectSimple _ hstate

end Helpers

end Engine.IsConfined

/-- Every run of the engine stays inside the subject and keeps its flags and calls. -/
theorem engine_isConfined (env : Env) (fuel : Nat) : (engine env fuel).IsConfined env := by
  induction fuel with
  | zero => exact ⟨fun _ _ _ _ => .exhausted, fun _ _ _ => .exhausted⟩
  | succ fuel ih => exact ⟨fun node rest _ => ih.matchSeqFromStep node rest, fun node _ => ih.collectMatchStatesFromStep node⟩

end Rphp.Regex
