import Rphp.Regex.FixedMatch

set_option autoImplicit true

namespace Rphp.Regex

open Rphp.Lib

variable {env : Env} {E : Engine} {named : GroupName → Option Nat} {indexed : Nat → Option Nat}
  {flags : RegexFlags} {inner : Node} {rest : List Node}

section Rounds

/-- A number of repetitions in the advancing language. -/
def Rounds (env : Env) (flags : RegexFlags) (inner : Node) (n i j : Nat) : Prop :=
  Repeats (env.Reads flags inner) n i j ∧ (2 ≤ n → i ≠ j)

theorem reads_quantifier {n : Nat} :
    env.Reads flags (.quantifier inner n (some n) greedy possessive) i j ↔
      Rounds env flags inner n i j := by
  constructor
  · rintro ⟨k, hmin, hmax, hadvance, hrep⟩
    obtain rfl : k = n := Nat.le_antisymm (hmax n rfl) hmin
    exact ⟨hrep, hadvance rfl⟩
  · rintro ⟨hrep, hadvance⟩
    exact ⟨n, le_rfl, fun m hm => by cases hm; rfl, fun _ => hadvance, hrep⟩

theorem rounds_zero : Rounds env flags inner 0 i j ↔ i = j := by
  simp [Rounds, Repeats]

theorem rounds_succ_none (h : ∀ k, ¬env.Reads flags inner i k) :
    ¬Rounds env flags inner (n + 1) i j := by
  rintro ⟨⟨k, hk, -⟩, -⟩
  exact h k hk

/-- Nothing but one repetition is left after one that consumes nothing. -/
theorem rounds_succ_stay (hinner : inner.IsFixed named indexed)
    (h : env.Reads flags inner i i) :
    Rounds env flags inner (n + 1) i j ↔ n = 0 ∧ i = j := by
  obtain ⟨-, m, hm⟩ := id hinner
  obtain rfl : m = 0 := by
    have := spans_length inner hm h
    omega
  have hlength : ∀ k j, Repeats (env.Reads flags inner) k i j → j = i := by
    intro k j hrep
    simpa using hrep.length fun i j hs => spans_length inner hm hs
  constructor
  · rintro ⟨hrep, hadvance⟩
    have hj := hlength _ _ hrep
    exact ⟨by omega, hj.symm⟩
  · rintro ⟨rfl, rfl⟩
    exact ⟨⟨i, h, rfl⟩, by omega⟩

theorem rounds_succ_advance (hinner : inner.IsFixed named indexed)
    (h : env.Reads flags inner i k) (hk : k ≠ i) :
    Rounds env flags inner (n + 1) i j ↔ Rounds env flags inner n k j := by
  obtain ⟨-, m, hm⟩ := id hinner
  have hstep := spans_length inner hm h
  have hlength : ∀ n i j, Repeats (env.Reads flags inner) n i j → j = i + m * n :=
    fun n i j hrep => hrep.length fun i j hs => spans_length inner hm hs
  constructor
  · rintro ⟨⟨k', hk', hrep⟩, -⟩
    obtain rfl := hinner.unique h hk'
    refine ⟨hrep, fun hn => ?_⟩
    have hj := hlength _ _ _ hrep
    have : 0 < m * n := Nat.mul_pos (by omega) (by omega)
    omega
  · rintro ⟨hrep, -⟩
    refine ⟨⟨k, h, hrep⟩, fun _ => ?_⟩
    have hj := hlength _ _ _ hrep
    omega

theorem reachedLimit_some : reachedLimit (some n) repetitions = decide (n ≤ repetitions) := by
  simp [reachedLimit]

/-- What the loops need of the repeated body. -/
structure Repeatable (env : Env) (named : GroupName → Option Nat) (indexed : Nat → Option Nat)
    (E : Engine) (inner : Node) : Prop where
  engine : E.ReadsFixed env named indexed
  fixed : inner.IsFixed named indexed
  fuel : inner.weight < E.fuel

theorem Repeatable.matched (h : Repeatable env named indexed E inner) (pos : Nat) :
    Settles flags (E.matchSeqFrom inner [] pos) (Decides (env.Reads flags inner pos)) := by
  refine (h.engine.matched (AllFixed.cons h.fixed (List.forall_mem_nil _)) ?_ pos).post
    fun result hresult => hresult.congr fun final => spansAll_singleton
  simpa only [weights, Nat.add_zero] using h.fuel.le

section Terminal

theorem terminalFinish_settles {n repetitions : Nat} (tracks : Bool) (initial : MatchState)
    (currentPos : Nat) :
    Settles flags (terminalFinish n tracks initial repetitions currentPos)
      (· = if n ≤ repetitions then some currentPos else none) := by
  unfold terminalFinish
  split
  · refine Settles.hasError.bind ?_
    rintro _ rfl
    exact .pure rfl
  · exact (Settles.restoreTracked tracks initial).bind fun _ _ => .pure rfl

theorem terminalLoop_settles (hR : Repeatable env named indexed E inner) {n : Nat} (greedy tracks : Bool)
    (initial : MatchState) {steps repetitions : Nat} (hreps : repetitions ≤ n)
    (hsteps : n < repetitions + steps) (currentPos : Nat) :
    Settles flags (terminalLoop E inner n (some n) greedy tracks initial steps repetitions currentPos)
      (Decides (Rounds env flags inner (n - repetitions) currentPos)) := by
  induction steps generalizing repetitions currentPos with
  | zero => omega
  | succ steps ih =>
    rw [terminalLoop, reachedLimit_some]
    by_cases hn : n ≤ repetitions
    · obtain rfl : n = repetitions := Nat.le_antisymm hn hreps
      rw [if_pos (by simp)]
      refine (terminalFinish_settles tracks initial currentPos).post ?_
      rintro _ rfl
      simp [Decides, rounds_zero]
    · rw [if_neg (by simpa using hn)]
      obtain ⟨left, hleft⟩ : ∃ left, n - repetitions = left + 1 := ⟨n - repetitions - 1, by omega⟩
      rw [hleft]
      refine Settles.view.bind fun saved _ => (hR.matched currentPos).bind fun result hresult => ?_
      cases result with
      | none =>
        refine Settles.view.bind ?_
        rintro s ⟨hcontrol, -⟩
        simp only [hcontrol, Option.isSome_none, Bool.false_eq_true, if_false]
        refine (Settles.restoreTracked tracks saved).bind fun _ _ => ?_
        refine (terminalFinish_settles tracks initial currentPos).post ?_
        rintro _ rfl
        rw [if_neg hn]
        exact fun final => rounds_succ_none hresult
      | some nextPos =>
        refine Settles.view.bind ?_
        rintro s ⟨hcontrol, -⟩
        rw [if_neg (by simp [hcontrol])]
        have hreads : env.Reads flags inner currentPos nextPos := hresult
        by_cases hstay : nextPos = currentPos
        · subst hstay
          rw [if_pos rfl]
          refine (Settles.restoreTracked _ saved).bind fun _ _ => ?_
          refine (terminalFinish_settles tracks initial nextPos).post ?_
          rintro _ rfl
          refine Decides.congr (fun final => (rounds_succ_stay hR.fixed hreads).symm) ?_
          split
          · exact ⟨by omega, rfl⟩
          · rintro final ⟨rfl, -⟩
            omega
        · rw [if_neg hstay]
          have hrounds : ∀ final, Rounds env flags inner left nextPos final ↔
              Rounds env flags inner (left + 1) currentPos final := fun final =>
            (rounds_succ_advance hR.fixed hreads hstay).symm
          split
          · rename_i hlast
            obtain rfl : left = 0 := by
              simp only [Bool.and_eq_true, decide_eq_true_eq] at hlast
              omega
            exact .pure ((hrounds nextPos).mp (rounds_zero.mpr rfl))
          · refine (ih (by omega) (by omega) nextPos).post fun result h => ?_
            rw [show n - (repetitions + 1) = left by omega] at h
            exact h.congr hrounds

theorem matchTerminalQuantifier_settles (hR : Repeatable env named indexed E inner) {n : Nat}
    (hfuel : n < E.fuel) (greedy : Bool) (pos : Nat) :
    Settles flags (matchTerminalQuantifier E inner n (some n) greedy pos)
      (Decides (Rounds env flags inner n pos)) := by
  refine Settles.view.bind fun initial _ => ?_
  split
  · rename_i hlazy
    obtain rfl : n = 0 := by simpa using (Bool.and_eq_true_iff.mp hlazy).2
    exact .pure (rounds_zero.mpr rfl)
  · exact terminalLoop_settles hR greedy _ initial (Nat.zero_le n) (by omega) pos

end Terminal

section Listed

/-- At most one position, and it is the one that is reached. -/
def Lists (reached : Nat → Prop) (ends : List Nat) : Prop :=
  ends.length ≤ 1 ∧ ∀ final, final ∈ ends ↔ reached final

theorem Lists.congr {reached reached' : Nat → Prop} (h : ∀ final, reached final ↔ reached' final)
    (hl : Lists reached ends) : Lists reached' ends :=
  ⟨hl.1, fun final => (hl.2 final).trans (h final)⟩

theorem lists_nil {reached : Nat → Prop} (h : ∀ final, ¬reached final) : Lists reached [] :=
  ⟨Nat.zero_le 1, fun final => ⟨nofun, fun hf => (h final hf).elim⟩⟩

theorem lists_singleton {reached : Nat → Prop} (h : ∀ final, reached final ↔ pos = final) :
    Lists reached [pos] :=
  ⟨le_rfl, fun final => by simp [h, eq_comm]⟩

/-- What a loop lists that meets an empty repetition and had published nothing before. -/
theorem lists_stay (hinner : inner.IsFixed named indexed) (hstay : env.Reads flags inner pos pos)
    {n repetitions : Nat} (hleft : n - repetitions = left + 1) (greedy : Bool) :
    Lists (Rounds env flags inner (left + 1) pos)
      (if n ≤ repetitions + 1 && (greedy || repetitions + 1 = n) then [pos] else []) := by
  refine Lists.congr (fun final => (rounds_succ_stay hinner hstay).symm) ?_
  by_cases hlast : left = 0
  · have hn : repetitions + 1 = n := by omega
    rw [if_pos (by simp [hn])]
    exact lists_singleton fun final => by simp [hlast]
  · rw [if_neg (by simp only [Bool.and_eq_true, decide_eq_true_eq]; omega)]
    exact lists_nil fun final h => hlast h.1

end Listed

section Preferred

/-- How a loop over fixed repetitions may end. -/
def LoopExit.Follows (reached : Nat → Prop) (after : Nat → Nat → Prop) :
    LoopExit (List (Nat × MatchState)) → Prop
  | .return result => ∃ mid final, result = some final ∧ reached mid ∧ after mid final
  | .break states => Lists reached (states.map Prod.fst)

theorem LoopExit.Follows.congr {reached reached' : Nat → Prop}
    (h : ∀ final, reached final ↔ reached' final) {exit : LoopExit (List (Nat × MatchState))}
    (hf : exit.Follows reached after) : exit.Follows reached' after := by
  cases exit with
  | «return» result =>
    obtain ⟨mid, final, hresult, hmid, hafter⟩ := hf
    exact ⟨mid, final, hresult, (h mid).mp hmid, hafter⟩
  | «break» states => exact Lists.congr h hf

theorem preferredAttempt_settles (hE : E.ReadsFixed env named indexed)
    (hrest : AllFixed named indexed rest) (hfuel : weights rest ≤ E.fuel) (n : Nat)
    (greedy tracks : Bool) (initial : MatchState) (repetitions currentPos : Nat) :
    Settles flags (preferredAttempt E n greedy tracks rest initial repetitions currentPos) fun exit =>
      ∀ result, exit = .return result →
        n ≤ repetitions ∧ ∃ final, result = some final ∧ env.ReadsAll flags rest currentPos final := by
  unfold preferredAttempt
  split
  · rename_i hready
    refine Settles.view.bind fun saved _ => Settles.consumeBacktrack.bind ?_
    rintro _ rfl
    refine (matchRest_settles hE hrest hfuel currentPos).bind fun result hresult => ?_
    cases result with
    | some final =>
      refine .pure ?_
      rintro _ ⟨⟩
      exact ⟨by simpa using (Bool.and_eq_true_iff.mp hready).1, final, rfl, hresult⟩
    | none =>
      refine Settles.view.bind ?_
      rintro s ⟨hcontrol, -⟩
      simp only [hcontrol, Option.isSome_none, Bool.false_eq_true, if_false]
      exact (Settles.restoreTracked tracks saved).bind fun _ _ => .pure nofun
  · exact .pure nofun

theorem preferredLoop_settles (hR : Repeatable env named indexed E inner)
    (hrest : AllFixed named indexed rest) (hfuel : weights rest ≤ E.fuel) {n : Nat}
    (greedy tracks : Bool) (initial : MatchState) {steps repetitions : Nat}
    (hreps : repetitions ≤ n) (hsteps : n < repetitions + steps) (currentPos : Nat) :
    Settles flags
      (preferredLoop E inner n (some n) greedy tracks rest initial steps repetitions currentPos [])
      (LoopExit.Follows (Rounds env flags inner (n - repetitions) currentPos)
        (env.ReadsAll flags rest)) := by
  induction steps generalizing repetitions currentPos with
  | zero => omega
  | succ steps ih =>
    rw [preferredLoop]
    refine (preferredAttempt_settles hR.engine hrest hfuel n greedy tracks initial repetitions
      currentPos).bind fun exit hexit => ?_
    cases exit with
    | «return» result =>
      obtain ⟨hn, final, rfl, hfinal⟩ := hexit result rfl
      refine .pure ⟨currentPos, final, rfl, ?_, hfinal⟩
      rw [Nat.sub_eq_zero_of_le hn]
      exact rounds_zero.mpr rfl
    | «break» =>
      refine Settles.view.bind fun here _ => ?_
      rw [reachedLimit_some]
      by_cases hn : n ≤ repetitions
      · simp only [hn, if_true, decide_true]
        refine .pure (lists_singleton fun final => ?_)
        rw [Nat.sub_eq_zero_of_le hn]
        exact rounds_zero
      · simp only [hn, if_false, decide_false, Bool.false_eq_true]
        obtain ⟨left, hleft⟩ : ∃ left, n - repetitions = left + 1 :=
          ⟨n - repetitions - 1, by omega⟩
        rw [hleft]
        refine Settles.retainQuantifierContinuation.bind ?_
        rintro _ rfl
        refine Settles.view.bind fun saved _ => (hR.matched currentPos).bind fun result hresult => ?_
        cases result with
        | none =>
          refine Settles.view.bind ?_
          rintro s ⟨hcontrol, -⟩
          simp only [hcontrol, Option.isSome_none, Bool.false_eq_true, if_false]
          refine (Settles.restoreTracked tracks saved).bind fun _ _ => .pure ?_
          exact lists_nil fun final => rounds_succ_none hresult
        | some nextPos =>
          refine Settles.view.bind ?_
          rintro s ⟨hcontrol, -⟩
          rw [if_neg (by simp [hcontrol])]
          have hreads : env.Reads flags inner currentPos nextPos := hresult
          by_cases hstay : nextPos = currentPos
          · subst hstay
            rw [if_pos rfl]
            have hlisted := lists_stay hR.fixed hreads hleft greedy
            split
            · rw [if_pos ‹_›] at hlisted
              exact .pure hlisted
            · rw [if_neg ‹_›] at hlisted
              exact .pure hlisted
          · rw [if_neg hstay]
            refine (ih (by omega) (by omega) nextPos).post fun exit h => ?_
            rw [show n - (repetitions + 1) = left by omega] at h
            exact h.congr fun final => (rounds_succ_advance hR.fixed hreads hstay).symm

theorem tryPreferredStates_settles (hE : E.ReadsFixed env named indexed)
    (hrest : AllFixed named indexed rest) (hfuel : weights rest ≤ E.fuel) (tracks : Bool)
    (initial : MatchState) (states : List (Nat × MatchState)) :
    Settles flags (tryPreferredStates E tracks rest initial states)
      (Decides fun final => ∃ mid ∈ states.map Prod.fst, env.ReadsAll flags rest mid final) := by
  induction states with
  | nil =>
    refine (Settles.restoreCaptures initial).bind fun _ _ => .pure ?_
    simp [Decides]
  | cons state states ih =>
    refine Settles.consumeBacktrack.bind ?_
    rintro _ rfl
    refine (Settles.restoreTracked tracks state.2).bind fun _ _ => ?_
    refine (matchRest_settles hE hrest hfuel state.1).bind fun result hresult => ?_
    cases result with
    | some final => exact .pure ⟨state.1, List.mem_cons_self, hresult⟩
    | none =>
      refine Settles.view.bind ?_
      rintro s ⟨hcontrol, -⟩
      simp only [hcontrol, Option.isSome_none, Bool.false_eq_true, if_false]
      refine ih.post fun result h => h.congr fun final => ?_
      simp [hresult final]

/-- What follows the listed states is what follows the repetitions. -/
theorem readsAll_of_lists {n : Nat} (h : Lists (Rounds env flags inner n pos) ends) (final : Nat) :
    (∃ mid ∈ ends, env.ReadsAll flags rest mid final) ↔
      env.ReadsAll flags (.quantifier inner n (some n) greedy possessive :: rest) pos final := by
  simp only [readsAll_cons, reads_quantifier, h.2]

theorem matchQuantifierPreferredPath_settles (hR : Repeatable env named indexed E inner)
    (hrest : AllFixed named indexed rest) {n : Nat} (hfuel : n + weights rest < E.fuel)
    (greedy possessive : Bool) (pos : Nat) :
    Settles flags (matchQuantifierPreferredPath E inner n (some n) greedy possessive rest pos)
      fun result => (result = none → greedy = true) →
        Decides (env.ReadsAll flags (.quantifier inner n (some n) greedy possessive :: rest) pos)
          result := by
  refine Settles.view.bind fun initial _ => ?_
  refine (preferredLoop_settles hR hrest (by omega) greedy _ initial (Nat.zero_le n)
    (by omega) pos).bind fun exit hexit => ?_
  cases exit with
  | «return» result =>
    obtain ⟨mid, final, rfl, hmid, hfinal⟩ := hexit
    exact .pure fun _ => ⟨mid, reads_quantifier.mpr hmid, hfinal⟩
  | «break» states =>
    have hlists : Lists (Rounds env flags inner n pos) (states.map Prod.fst) := hexit
    cases greedy with
    | false => exact (Settles.restoreCaptures initial).bind fun _ _ => .pure (by simp)
    | true =>
      have htake : (if possessive = true then states.take 1 else states) = states := by
        have hlength := hlists.1
        rw [List.length_map] at hlength
        simp [List.take_of_length_le hlength]
      simp only [if_true, htake]
      exact (tryPreferredStates_settles hR.engine hrest (by omega) _ initial states).post
        fun result h _ => h.congr (readsAll_of_lists hlists)

end Preferred

section SingleOutcome

theorem repetitionLoop_settles (hR : Repeatable env named indexed E inner) {n : Nat}
    (greedy tracks : Bool) {steps repetitions : Nat} (hreps : repetitions ≤ n)
    (hsteps : n < repetitions + steps) (currentPos : Nat) :
    Settles flags (repetitionLoop E inner n (some n) greedy tracks steps repetitions currentPos [])
      (LoopExit.Follows (Rounds env flags inner (n - repetitions) currentPos) fun _ _ => False) := by
  induction steps generalizing repetitions currentPos with
  | zero => omega
  | succ steps ih =>
    rw [repetitionLoop, reachedLimit_some]
    refine Settles.view.bind fun here _ => ?_
    by_cases hn : n ≤ repetitions
    · simp only [hn, if_true, decide_true]
      refine .pure (lists_singleton fun final => ?_)
      rw [Nat.sub_eq_zero_of_le hn]
      exact rounds_zero
    · simp only [hn, if_false, decide_false, Bool.false_eq_true]
      obtain ⟨left, hleft⟩ : ∃ left, n - repetitions = left + 1 :=
        ⟨n - repetitions - 1, by omega⟩
      rw [hleft]
      refine Settles.retainQuantifierContinuation.bind ?_
      rintro _ rfl
      refine Settles.view.bind fun saved _ => (hR.matched currentPos).bind fun result hresult => ?_
      cases result with
      | none =>
        refine Settles.view.bind ?_
        rintro s ⟨hcontrol, -⟩
        simp only [hcontrol, Option.isSome_none, Bool.false_eq_true, if_false]
        refine (Settles.restoreTracked tracks saved).bind fun _ _ => .pure ?_
        exact lists_nil fun final => rounds_succ_none hresult
      | some nextPos =>
        refine Settles.view.bind ?_
        rintro s ⟨hcontrol, -⟩
        rw [if_neg (by simp [hcontrol])]
        have hreads : env.Reads flags inner currentPos nextPos := hresult
        by_cases hstay : nextPos = currentPos
        · subst hstay
          rw [if_pos rfl]
          have hlisted := lists_stay hR.fixed hreads hleft greedy
          split
          · rw [if_pos ‹_›] at hlisted
            exact .pure hlisted
          · rw [if_neg ‹_›] at hlisted
            exact .pure hlisted
        · rw [if_neg hstay]
          refine (ih (by omega) (by omega) nextPos).post fun exit h => ?_
          rw [show n - (repetitions + 1) = left by omega] at h
          exact h.congr fun final => (rounds_succ_advance hR.fixed hreads hstay).symm

theorem tryRepetitionStates_settles (hE : E.ReadsFixed env named indexed)
    (hrest : AllFixed named indexed rest) (hfuel : weights rest ≤ E.fuel) (tracks : Bool)
    (states : List (Nat × MatchState)) :
    Settles flags (tryRepetitionStates E tracks rest states)
      (Decides fun final => ∃ mid ∈ states.map Prod.fst, env.ReadsAll flags rest mid final) := by
  induction states with
  | nil => exact .pure (by simp [Decides])
  | cons state states ih =>
    refine Settles.consumeBacktrack.bind ?_
    rintro _ rfl
    refine (Settles.restoreTracked tracks state.2).bind fun _ _ => ?_
    refine (matchRest_settles hE hrest hfuel state.1).bind fun result hresult => ?_
    cases result with
    | some final => exact .pure ⟨state.1, List.mem_cons_self, hresult⟩
    | none =>
      refine Settles.view.bind ?_
      rintro s ⟨hcontrol, -⟩
      simp only [hcontrol, Option.isSome_none, Bool.false_eq_true, if_false]
      refine ih.post fun result h => h.congr fun final => ?_
      simp [hresult final]

theorem matchSingleOutcomeQuantifier_settles (hR : Repeatable env named indexed E inner)
    (hrest : AllFixed named indexed rest) {n : Nat} (hfuel : n + weights rest < E.fuel)
    (greedy possessive : Bool) (pos : Nat) :
    Settles flags (matchSingleOutcomeQuantifier E inner n (some n) greedy possessive rest pos)
      (Decides (env.ReadsAll flags (.quantifier inner n (some n) greedy possessive :: rest)
        pos)) := by
  refine Settles.view.bind fun initial _ => Settles.consumeBacktrack.bind ?_
  rintro _ rfl
  refine (repetitionLoop_settles hR greedy _ (Nat.zero_le n) (by omega) pos).bind
    fun exit hexit => ?_
  cases exit with
  | «return» result =>
    obtain ⟨-, -, -, -, hfalse⟩ := hexit
    exact hfalse.elim
  | «break» states =>
    have hlists : Lists (Rounds env flags inner n pos) (states.map Prod.fst) := hexit
    refine Settles.hasError.bind ?_
    rintro _ rfl
    simp only [Bool.false_eq_true, if_false]
    obtain ⟨hlength, hreached⟩ := id hlists
    rw [List.length_map] at hlength
    cases possessive with
    | true =>
      simp only [if_true]
      cases states with
      | nil =>
        refine .pure (Decides.congr (readsAll_of_lists hlists) ?_)
        simp [Decides]
      | cons state states =>
        obtain ⟨mid, saved⟩ := state
        obtain rfl : states = [] := by simpa using hlength
        refine (Settles.restoreTracked _ saved).bind fun _ _ => ?_
        refine (matchRest_settles hR.engine hrest (by omega) mid).post fun result h => ?_
        have hmid : Decides (fun final => ∃ stop ∈ List.map Prod.fst [(mid, saved)],
            env.ReadsAll flags rest stop final) result := h.congr fun final => by simp
        exact hmid.congr (readsAll_of_lists hlists)
    | false =>
      simp only [Bool.false_eq_true, if_false]
      have hreverse : states.reverse = states := by
        cases states with
        | nil => rfl
        | cons state states =>
          obtain rfl : states = [] := by simpa using hlength
          rfl
      simp only [hreverse, ite_self]
      exact (tryRepetitionStates_settles hR.engine hrest (by omega) _ states).post
        fun result h => h.congr (readsAll_of_lists hlists)

end SingleOutcome

end Rounds

end Rphp.Regex
