import Rphp.Regex.FixedCollect

set_option autoImplicit true

namespace Rphp.Regex

open Rphp.Lib

variable {env : Env} {E : Engine} {named : GroupName → Option Nat} {indexed : Nat → Option Nat}
  {flags : RegexFlags} {node inner : Node} {rest : List Node}

section Quantifier

theorem collectBranchingQuantifierStates_settles (hR : Repeatable env named indexed E inner)
    {n : Nat} (hfuel : repetitionTree inner.breadth n ≤ E.fuel) (greedy possessive : Bool)
    (state : BacktrackState) :
    Settles flags
      (collectBranchingQuantifierStates env E inner n (some n) greedy possessive state)
      (Collects env flags (.quantifier inner n (some n) greedy possessive) state.end) := by
  have hwork : pendingWork inner.breadth n [(0, state, none)] = repetitionTree inner.breadth n := by
    simp [pendingWork]
  have hkeeps : BranchingProgress.Keeps env flags inner n state []
      ⟨[], [(0, state, none)], []⟩ := by
    refine ⟨fun _ hx => (by cases hx), ?_, fun _ hx => (by cases hx), fun _ => .inr ?_⟩
    · exact List.forall_mem_singleton.mpr ⟨Nat.zero_le n, fun _ => Iff.rfl⟩
    · rintro x (rfl | hx)
      · exact .inr (.inl List.mem_cons_self)
      · cases hx
  refine (branchingLoop_settles hR greedy hkeeps (hwork.le.trans hfuel)).bind
    fun repetitions hrepetitions => .pure ?_
  obtain ⟨hlength, hends⟩ := hrepetitions
  simp only [hwork, List.length_nil, Nat.zero_add] at hlength
  have hmem : ∀ x, x ∈ repetitions.insertionSort (fun a b => repetitionLe greedy a b = true) ↔
      x ∈ repetitions := fun x => List.mem_insertionSort _
  have hsorted := List.length_insertionSort (fun a b => repetitionLe greedy a b = true) repetitions
  generalize repetitions.insertionSort (fun a b => repetitionLe greedy a b = true) = sorted
    at hmem hsorted
  have hreads : ∀ final, (∃ x ∈ sorted, x.2.end = final) ↔
      env.Reads flags (.quantifier inner n (some n) greedy possessive) state.end final := by
    intro final
    rw [reads_quantifier, ← hends final]
    simp only [hmem]
  cases possessive with
  | false =>
    simp only [Bool.false_eq_true, if_false]
    refine ⟨?_, fun final => ?_⟩
    · rw [List.length_map, hsorted]
      exact hlength
    · rw [← hreads final]
      simp only [List.mem_map]
      grind
  | true =>
    simp only [if_true]
    refine ⟨?_, fun final => ?_⟩
    · rw [List.length_map, List.length_take]
      exact (Nat.min_le_left _ _).trans repetitionTree_pos
    · rw [← hreads final]
      cases sorted with
      | nil => simp
      | cons x sorted =>
        have hx : Rounds env flags inner n state.end x.2.end :=
          reads_quantifier.mp ((hreads _).mp ⟨x, List.mem_cons_self, rfl⟩)
        constructor
        · rintro ⟨s, hs, rfl⟩
          simp only [List.take_succ_cons, List.take_zero, List.map_cons, List.map_nil,
            List.mem_singleton] at hs
          exact ⟨x, List.mem_cons_self, by rw [hs]⟩
        · rintro ⟨y, hy, rfl⟩
          have hy : Rounds env flags inner n state.end y.2.end :=
            reads_quantifier.mp ((hreads _).mp ⟨y, hy, rfl⟩)
          exact ⟨x.2, by simp, rounds_unique hR.fixed hx hy⟩

theorem tryCollectedStates_settles (hE : E.ReadsFixed env named indexed)
    (hrest : AllFixed named indexed rest) (hfuel : weights rest ≤ E.fuel)
    (initial : BacktrackState) (states : List BacktrackState) :
    Settles flags (tryCollectedStates E rest initial states)
      (Decides fun final => ∃ state ∈ states, env.ReadsAll flags rest state.end final) := by
  induction states with
  | nil =>
    refine (Settles.install initial).bind fun _ _ => .pure ?_
    simp [Decides]
  | cons state states ih =>
    refine (Settles.install state).bind fun _ _ => ?_
    refine (matchRest_settles hE hrest hfuel state.end).bind fun result hresult => ?_
    cases result with
    | some final => exact .pure ⟨state, List.mem_cons_self, hresult⟩
    | none =>
      refine Settles.view.bind ?_
      rintro s ⟨hcontrol, -⟩
      simp only [hcontrol, Option.isSome_none, Bool.false_eq_true, if_false]
      refine ih.post fun result h => h.congr fun final => ?_
      simp [hresult final]

theorem matchBranchingQuantifier_settles (hR : Repeatable env named indexed E inner)
    (hrest : AllFixed named indexed rest) {n : Nat}
    (hfuel : repetitionTree inner.breadth n + n + weights rest < E.fuel) (greedy possessive : Bool)
    (hmode : possessive = true → greedy = true) (pos : Nat) :
    Settles flags (matchBranchingQuantifier env E inner n (some n) greedy possessive rest pos)
      (Decides (env.ReadsAll flags (.quantifier inner n (some n) greedy possessive :: rest)
        pos)) := by
  refine (matchQuantifierPreferredPath_settles hR hrest (by omega) greedy possessive pos).bind
    fun result hresult => ?_
  cases result with
  | some final => exact .pure (hresult nofun)
  | none =>
    cases possessive with
    | true => exact .pure (hresult fun _ => hmode rfl)
    | false =>
      simp only [Bool.false_eq_true, if_false]
      refine Settles.hasError.bind ?_
      rintro _ rfl
      simp only [Bool.false_eq_true, if_false]
      refine (Settles.take pos).bind ?_
      rintro initial rfl
      refine (collectBranchingQuantifierStates_settles hR (by omega) greedy false initial).bind
        fun states hstates => ?_
      obtain ⟨-, hends⟩ := hstates
      refine (tryCollectedStates_settles hR.engine hrest (by omega) initial states).post
        fun result h => h.congr fun final => ?_
      simp only [readsAll_cons, ← hends]
      grind

theorem matchQuantifier_settles (hR : Repeatable env named indexed E inner)
    (hrest : AllFixed named indexed rest) {n : Nat}
    (hfuel : repetitionTree inner.breadth n + n + weights rest < E.fuel) (greedy possessive : Bool)
    (hmode : possessive = true → greedy = true) (pos : Nat) :
    Settles flags (matchQuantifier env E inner n (some n) greedy possessive rest pos)
      (Decides (env.ReadsAll flags (.quantifier inner n (some n) greedy possessive :: rest)
        pos)) := by
  have hcontrol : containsControlVerb inner = false :=
    containsControlVerb_of_isPlain inner hR.fixed.1
  refine Settles.inRecursion (Settles.view.bind fun s _ => ?_)
  simp only [partitionCost?, matchPossibleQuantifier, Option.isNone_some, Bool.and_false,
    Bool.false_and, Bool.false_eq_true, if_false, hcontrol]
  cases rest with
  | nil =>
    simp only [List.isEmpty_nil, if_true]
    refine (matchTerminalQuantifier_settles hR (by omega) greedy pos).post fun result h =>
      h.congr fun final => ?_
    rw [← reads_quantifier]
    exact spansAll_singleton.symm
  | cons node rest =>
    simp only [List.isEmpty_cons, Bool.false_eq_true, if_false]
    exact .ite (matchBranchingQuantifier_settles hR hrest hfuel greedy possessive hmode pos)
      (matchSingleOutcomeQuantifier_settles hR hrest (by omega) greedy possessive pos)

end Quantifier

section Collecting

theorem collectAfterEach_settles (hE : E.ReadsFixed env named indexed)
    (hnode : node.IsFixed named indexed) (hfuel : node.weight < E.fuel)
    (states : List BacktrackState) :
    Settles flags (collectAfterEach E node states) fun later =>
      later.length ≤ states.length * node.breadth ∧ ∀ final, (∃ s ∈ later, s.end = final) ↔
        ∃ s ∈ states, env.Reads flags node s.end final := by
  induction states with
  | nil => exact .pure (by simp)
  | cons state states ih =>
    refine (hE.collected hnode hfuel state).bind fun next hnext => ih.bind fun later hlater => ?_
    obtain ⟨hlength, hends⟩ := hnext
    refine .pure ⟨?_, fun final => ?_⟩
    · rw [List.length_append, List.length_cons, Nat.succ_mul]
      omega
    · simp only [List.mem_append, List.mem_cons, or_and_right, exists_or, hends, hlater.2,
        exists_eq_left]

theorem collectSequence_settles (hE : E.ReadsFixed env named indexed) {nodes : List Node}
    (hnodes : AllFixed named indexed nodes) (hfuel : weights nodes < E.fuel)
    (states : List BacktrackState) :
    Settles flags (collectSequence E nodes states) fun later =>
      later.length ≤ states.length * breadthOfAll nodes ∧ ∀ final, (∃ s ∈ later, s.end = final) ↔
        ∃ s ∈ states, env.ReadsAll flags nodes s.end final := by
  induction nodes generalizing states with
  | nil =>
    refine .pure ⟨by simp [breadthOfAll], fun final => ?_⟩
    simp [Env.ReadsAll, SpansAll]
  | cons node nodes ih =>
    have hweights : weights (node :: nodes) = node.weight + weights nodes := rfl
    have hbreadth : breadthOfAll (node :: nodes) = node.breadth * breadthOfAll nodes := rfl
    refine (collectAfterEach_settles hE hnodes.head (by omega) states).bind fun next hnext => ?_
    obtain ⟨hlength, hends⟩ := hnext
    have hreads : ∀ final, (∃ s ∈ states, env.ReadsAll flags (node :: nodes) s.end final) ↔
        ∃ s ∈ next, env.ReadsAll flags nodes s.end final := by
      intro final
      constructor
      · rintro ⟨s, hs, k, hk, hrest⟩
        obtain ⟨t, ht, rfl⟩ := (hends k).mpr ⟨s, hs, hk⟩
        exact ⟨t, ht, hrest⟩
      · rintro ⟨t, ht, hrest⟩
        obtain ⟨s, hs, hk⟩ := (hends _).mp ⟨t, ht, rfl⟩
        exact ⟨s, hs, _, hk, hrest⟩
    refine Settles.view.bind ?_
    rintro s ⟨hcontrol, -⟩
    cases next with
    | nil =>
      rw [if_pos (by simp)]
      refine .pure ⟨Nat.zero_le _, fun final => ?_⟩
      rw [hreads]
      simp
    | cons state next =>
      rw [if_neg (by simp [hcontrol])]
      refine (ih hnodes.tail (by omega) (state :: next)).post fun later hlater => ?_
      refine ⟨hlater.1.trans ?_, fun final => (hlater.2 final).trans (hreads final).symm⟩
      rw [hbreadth, ← Nat.mul_assoc]
      exact Nat.mul_le_mul_right _ hlength

theorem collectAlternation_settles (hE : E.ReadsFixed env named indexed) {branches : List Node}
    (hbranches : AllFixed named indexed branches) (hfuel : weights branches < E.fuel)
    (state : BacktrackState) (first : Bool) :
    Settles flags (collectAlternation E state first branches) fun states =>
      states.length ≤ breadthOfAny branches ∧ ∀ final, (∃ s ∈ states, s.end = final) ↔
        ∃ branch ∈ branches, env.Reads flags branch state.end final := by
  induction branches generalizing first with
  | nil => exact .pure (by simp [breadthOfAny])
  | cons branch branches ih =>
    have hweights : weights (branch :: branches) = branch.weight + weights branches := rfl
    have hbreadth : breadthOfAny (branch :: branches) = branch.breadth + breadthOfAny branches :=
      rfl
    refine (Settles.consumeAlternative first).bind ?_
    rintro _ rfl
    refine (hE.collected hbranches.head (by omega) state).bind fun next hnext => ?_
    refine (ih hbranches.tail (by omega) false).bind fun later hlater => .pure ⟨?_, fun final => ?_⟩
    · have := hnext.1
      have := hlater.1
      rw [List.length_append]
      omega
    · simp only [List.mem_append, List.mem_cons, or_and_right, exists_or, hnext.2, hlater.2,
        exists_eq_left]

theorem publishGroup_ends (tracked : Option Nat) (startOffset : Nat)
    (states : List BacktrackState) :
    (publishGroup env tracked startOffset states).map BacktrackState.end =
      states.map BacktrackState.end := by
  cases tracked with
  | none => rfl
  | some index => simp [publishGroup, Function.comp_def]

theorem collects_iff :
    Collects env flags node pos states ↔
      (states.map BacktrackState.end).length ≤ node.breadth ∧
        ∀ final, final ∈ states.map BacktrackState.end ↔ env.Reads flags node pos final := by
  simp [Collects]

theorem collectGroup_settles (hE : E.ReadsFixed env named indexed)
    (hinner : inner.IsFixed named indexed) (hfuel : inner.weight < E.fuel) (index : Option Nat)
    (state : BacktrackState) :
    Settles flags (collectGroup env E index inner state)
      (Collects env flags inner state.end) := by
  refine Settles.inRecursion ?_
  refine (hE.collected hinner hfuel state).bind fun states hstates => .pure ?_
  rw [collects_iff] at hstates ⊢
  rwa [publishGroup_ends]

/-- A node with one outcome is collected through the matcher. -/
theorem collectMatched_settles (hE : E.ReadsFixed env named indexed)
    (hnode : node.IsFixed named indexed) (hfuel : node.weight ≤ E.fuel)
    (hbreadth : node.breadth = 1) (state : BacktrackState) :
    Settles flags
      (do
        state.install
        match ← E.matchSeqFrom node [] state.end with
        | some final => do
          let next ← BacktrackState.take final
          pure [next]
        | none => pure [])
      (Collects env flags node state.end) := by
  refine (Settles.install state).bind fun _ _ => ?_
  refine (hE.matched (AllFixed.cons hnode (List.forall_mem_nil _))
    (by simpa only [weights, Nat.add_zero] using hfuel) state.end).bind fun result hresult => ?_
  cases result with
  | some final =>
    have hreads : env.Reads flags node state.end final := spansAll_singleton.mp hresult
    refine (Settles.take final).bind ?_
    rintro next rfl
    refine .pure ⟨hbreadth.ge, fun final => ?_⟩
    simp only [List.mem_singleton, exists_eq_left]
    constructor
    · rintro rfl
      exact hreads
    · exact fun hfinal => hnode.unique hreads hfinal
  | none =>
    have hnone : ∀ final, ¬env.Reads flags node state.end final := fun final hf =>
      hresult final (spansAll_singleton.mpr hf)
    refine .pure ⟨Nat.zero_le _, fun final => ?_⟩
    simp [hnone final]

end Collecting

section Engines

theorem matchSeqFromStep_settles (hE : E.ReadsFixed env named indexed)
    (hfixed : AllFixed named indexed (node :: rest)) (hfuel : weights (node :: rest) ≤ E.fuel + 1)
    (pos : Nat) :
    Settles flags (matchSeqFromStep env E node rest pos)
      (Decides (env.ReadsAll flags (node :: rest) pos)) := by
  have hweights : weights (node :: rest) = node.weight + weights rest := rfl
  have hnode := hfixed.head
  have hrest := hfixed.tail
  refine Settles.hasError.bind ?_
  rintro _ rfl
  refine Settles.view.bind ?_
  rintro s ⟨-, rfl⟩
  cases node with
  | literal c =>
    exact advanceIf_settles hE hfixed (by simp only [Node.weight] at hweights; omega)
      fun j => Iff.rfl
  | anyChar =>
    exact advanceIf_settles hE hfixed (by simp only [Node.weight] at hweights; omega)
      fun j => Iff.rfl
  | byteUnit =>
    exact advanceIf_settles hE hfixed (by simp only [Node.weight] at hweights; omega)
      fun j => Iff.rfl
  | notNewline =>
    exact advanceIf_settles hE hfixed (by simp only [Node.weight] at hweights; omega)
      fun j => Iff.rfl
  | charClass negated items =>
    exact advanceIf_settles hE hfixed (by simp only [Node.weight] at hweights; omega)
      fun j => Iff.rfl
  | shorthand sh =>
    exact advanceIf_settles hE hfixed (by simp only [Node.weight] at hweights; omega)
      fun j => Iff.rfl
  | sequence nodes =>
    simp only [Node.weight] at hweights
    cases nodes with
    | nil =>
      exact (matchRest_settles hE hrest (by omega) pos).post fun result h =>
        decides_cons hnode rfl h
    | cons first nodes =>
      have hall : AllFixed named indexed (first :: (nodes ++ rest)) := hnode.sequence.append hrest
      have hnodes : weights (first :: (nodes ++ rest)) =
          weights (first :: nodes) + weights rest := by
        rw [← List.cons_append, weights_append]
      refine (hE.matched hall (by omega) pos).post fun result h => h.congr fun final => ?_
      rw [Env.ReadsAll, ← List.cons_append]
      exact spansAll_append
  | alternation branches =>
    simp only [Node.weight] at hweights
    exact (matchAlternation_settles hE hrest hnode.alternation (by omega) pos true).post
      fun result h => decides_of_prefers h
  | group index inner =>
    have hinner : inner.IsFixed named indexed := hnode
    simp only [Node.weight] at hweights
    exact matchGroup_settles hE hinner hrest (by omega) index pos
  | atomic inner =>
    have hinner : inner.IsFixed named indexed := hnode
    simp only [Node.weight] at hweights
    exact matchAtomic_settles hE hinner hrest (by omega) pos
  | localFlags l inner =>
    have hinner : inner.IsFixed named indexed := hnode
    simp only [Node.weight] at hweights
    exact matchLocalFlags_settles hE hinner hrest (by omega) l pos
  | quantifier inner min max greedy possessive =>
    simp only [Node.weight] at hweights
    obtain ⟨hinner, rfl, hmode⟩ := hnode.quantifier
    have hpos : 0 < repetitionTree inner.breadth min := repetitionTree_pos
    exact matchQuantifier_settles ⟨hE, hinner, by omega⟩ hrest (by omega) greedy possessive hmode
      pos
  | captureEnd index start =>
    exact matchCaptureEnd_settles hE hrest (by simp only [Node.weight] at hweights; omega) index
      start pos
  | _ => exact absurd hnode.1 (by simp [Node.isPlain])

theorem collectMatchStatesFromStep_settles (hE : E.ReadsFixed env named indexed)
    (hnode : node.IsFixed named indexed) (hfuel : node.weight ≤ E.fuel) (state : BacktrackState) :
    Settles flags (collectMatchStatesFromStep env E node state)
      (Collects env flags node state.end) := by
  refine Settles.hasError.bind ?_
  rintro _ rfl
  simp only [Bool.false_eq_true, if_false]
  cases node with
  | sequence nodes =>
    simp only [Node.weight] at hfuel
    refine (collectSequence_settles hE hnode.sequence (by omega) [state]).post
      fun states hstates => ⟨?_, fun final => ?_⟩
    · have hlength := hstates.1
      rw [List.length_singleton, Nat.one_mul] at hlength
      exact hlength
    · rw [hstates.2]
      simp only [List.mem_singleton, exists_eq_left]
      exact Iff.rfl
  | alternation branches =>
    simp only [Node.weight] at hfuel
    refine (collectAlternation_settles hE hnode.alternation (by omega) state true).post
      fun states hstates => ⟨hstates.1, fun final => (hstates.2 final).trans ?_⟩
    exact spansAny_iff.symm
  | quantifier inner min max greedy possessive =>
    simp only [Node.weight] at hfuel
    obtain ⟨hinner, rfl, -⟩ := hnode.quantifier
    have hR : Repeatable env named indexed E inner := ⟨hE, hinner, by omega⟩
    exact Settles.inRecursion (.ite
      (collectBranchingQuantifierStates_settles hR (by omega) greedy possessive state)
      (collectSinglePathQuantifierStates_settles hR (by omega) greedy possessive state))
  | group index inner =>
    simp only [Node.weight] at hfuel
    have hinner : inner.IsFixed named indexed := hnode
    exact collectGroup_settles hE hinner (by omega) index state
  | literal c => exact collectMatched_settles hE hnode hfuel rfl state
  | anyChar => exact collectMatched_settles hE hnode hfuel rfl state
  | byteUnit => exact collectMatched_settles hE hnode hfuel rfl state
  | notNewline => exact collectMatched_settles hE hnode hfuel rfl state
  | charClass negated items => exact collectMatched_settles hE hnode hfuel rfl state
  | shorthand sh => exact collectMatched_settles hE hnode hfuel rfl state
  | atomic inner => exact collectMatched_settles hE hnode hfuel rfl state
  | localFlags l inner => exact collectMatched_settles hE hnode hfuel rfl state
  | captureEnd index start => exact collectMatched_settles hE hnode hfuel rfl state
  | _ => exact absurd hnode.1 (by simp [Node.isPlain])

end Engines

end Rphp.Regex
