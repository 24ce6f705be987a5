import Rphp.Lib.Outcome
import Rphp.Regex.Lookbehind

namespace Rphp.Regex
open Rphp.Lib
set_option autoImplicit true

section Fragment

mutual

/-- A pattern of literals, classes, groups and repetitions as the parser builds them: a
possessive repetition is greedy. -/
def Node.isPlain : Node → Bool
  | .literal _ | .anyChar | .byteUnit | .notNewline | .charClass .. | .shorthand _
  | .captureEnd .. => true
  | .sequence nodes | .alternation nodes => allPlain nodes
  | .group _ inner | .atomic inner | .localFlags _ inner => inner.isPlain
  | .quantifier inner _ _ greedy possessive => inner.isPlain && (greedy || !possessive)
  | _ => false

def allPlain : List Node → Bool
  | [] => true
  | node :: nodes => node.isPlain && allPlain nodes

end

theorem allPlain_iff : allPlain nodes = true ↔ ∀ node ∈ nodes, node.isPlain = true := by
  induction nodes with
  | nil => simp [allPlain]
  | cons node nodes ih => simp [allPlain, ih]

mutual

theorem containsControlVerb_of_isPlain : ∀ (node : Node), node.isPlain = true →
    containsControlVerb node = false
  | .literal _, _ | .anyChar, _ | .byteUnit, _ | .notNewline, _ | .charClass .., _
  | .shorthand _, _ | .captureEnd .., _ => rfl
  | .sequence nodes, h | .alternation nodes, h => anyControlVerb_of_allPlain nodes h
  | .group _ inner, h | .atomic inner, h | .localFlags _ inner, h =>
    containsControlVerb_of_isPlain inner h
  | .quantifier inner _ _ _ _, h =>
    containsControlVerb_of_isPlain inner (Bool.and_eq_true_iff.mp h).1

theorem anyControlVerb_of_allPlain : ∀ (nodes : List Node), allPlain nodes = true →
    anyControlVerb nodes = false
  | [], _ => rfl
  | node :: nodes, h => by
    obtain ⟨hnode, hnodes⟩ := Bool.and_eq_true_iff.mp h
    simp [anyControlVerb, containsControlVerb_of_isPlain node hnode,
      anyControlVerb_of_allPlain nodes hnodes]

end

/-- The number of repetitions a search visits when each has a number of outcomes. -/
def repetitionTree (outcomes : Nat) : Nat → Nat
  | 0 => 1
  | n + 1 => 1 + outcomes * repetitionTree outcomes n

theorem repetitionTree_pos : 0 < repetitionTree outcomes n := by
  cases n with
  | zero => exact Nat.one_pos
  | succ n =>
    rw [repetitionTree]
    omega

mutual

/-- A bound on the number of continuations a node publishes. -/
def Node.breadth : Node → Nat
  | .sequence nodes => breadthOfAll nodes
  | .alternation branches => breadthOfAny branches
  | .group _ inner => inner.breadth
  | .quantifier inner min _ _ _ => repetitionTree inner.breadth min
  | _ => 1

def breadthOfAll : List Node → Nat
  | [] => 1
  | node :: nodes => node.breadth * breadthOfAll nodes

def breadthOfAny : List Node → Nat
  | [] => 0
  | node :: nodes => node.breadth + breadthOfAny nodes

end

mutual

/-- Enough fuel to match a node. -/
def Node.weight : Node → Nat
  | .sequence nodes | .alternation nodes => weights nodes + 1
  | .group _ inner => inner.weight + 2
  | .atomic inner | .localFlags _ inner => inner.weight + 1
  | .quantifier inner min _ _ _ => inner.weight + repetitionTree inner.breadth min + min + 2
  | _ => 1

def weights : List Node → Nat
  | [] => 0
  | node :: nodes => node.weight + weights nodes

end

@[simp] theorem weights_append : weights (nodes ++ nodes') = weights nodes + weights nodes' := by
  induction nodes with
  | nil => simp [weights]
  | cons node nodes ih =>
    simp only [List.cons_append, weights, ih]
    omega

variable (named : GroupName → Option Nat) (indexed : Nat → Option Nat)

/-- A plain pattern that the validator gives a length. -/
def Node.IsFixed (node : Node) : Prop :=
  node.isPlain = true ∧ ∃ n, fixedLengthWith named indexed node = some n

def AllFixed (nodes : List Node) : Prop :=
  ∀ node ∈ nodes, node.IsFixed named indexed

variable {named indexed}

theorem mem_lengths_of_sumLengths :
    sumLengths acc (fixedLengthsWith named indexed nodes) = some total → node ∈ nodes →
      ∃ n, fixedLengthWith named indexed node = some n := by
  induction nodes generalizing acc with
  | nil => simp
  | cons other nodes ih =>
    intro h hnode
    obtain ⟨n, hn, -, hrest⟩ := sumLengths_cons.mp h
    rcases List.mem_cons.mp hnode with rfl | hnode
    · exact ⟨n, hn⟩
    · exact ih hrest hnode

theorem mem_lengths_of_commonLength (hacc : acc = none ∨ acc = some total) :
    commonLength acc (fixedLengthsWith named indexed nodes) = some total → node ∈ nodes →
      ∃ n, fixedLengthWith named indexed node = some n := by
  induction nodes generalizing acc with
  | nil => simp
  | cons other nodes ih =>
    intro h hnode
    obtain ⟨hn, hrest⟩ := commonLength_cons hacc h
    rcases List.mem_cons.mp hnode with rfl | hnode
    · exact ⟨total, hn⟩
    · exact ih (.inr rfl) hrest hnode

namespace Node.IsFixed

theorem sequence (h : (Node.sequence nodes).IsFixed named indexed) :
    AllFixed named indexed nodes := by
  obtain ⟨hplain, n, hn⟩ := h
  exact fun node hnode =>
    ⟨allPlain_iff.mp hplain node hnode, mem_lengths_of_sumLengths hn hnode⟩

theorem alternation (h : (Node.alternation branches).IsFixed named indexed) :
    AllFixed named indexed branches := by
  obtain ⟨hplain, n, hn⟩ := h
  exact fun branch hbranch =>
    ⟨allPlain_iff.mp hplain branch hbranch, mem_lengths_of_commonLength (.inl rfl) hn hbranch⟩

theorem quantifier {inner : Node} {min : Nat} {max : Option Nat}
    (h : (Node.quantifier inner min max greedy possessive).IsFixed named indexed) :
    inner.IsFixed named indexed ∧ max = some min ∧ (possessive = true → greedy = true) := by
  obtain ⟨hplain, n, hn⟩ := h
  obtain ⟨hinner, hmode⟩ := Bool.and_eq_true_iff.mp hplain
  obtain ⟨hmax, m, hm, -⟩ := fixedLengthWith_quantifier hn
  refine ⟨⟨hinner, m, hm⟩, hmax, ?_⟩
  rintro rfl
  simpa using hmode

/-- A node of fixed length has one outcome from a position. -/
theorem unique {node : Node} (h : node.IsFixed named indexed)
    (hj : node.Spans T chars advancing flags i j) (hk : node.Spans T chars advancing flags i k) :
    j = k := by
  obtain ⟨-, n, hn⟩ := h
  rw [spans_length node hn hj, spans_length node hn hk]

end Node.IsFixed

theorem AllFixed.head (h : AllFixed named indexed (node :: nodes)) :
    node.IsFixed named indexed :=
  h node List.mem_cons_self

theorem AllFixed.tail (h : AllFixed named indexed (node :: nodes)) :
    AllFixed named indexed nodes :=
  fun n hn => h n (List.mem_cons_of_mem _ hn)

theorem AllFixed.cons (hnode : node.IsFixed named indexed) (h : AllFixed named indexed nodes) :
    AllFixed named indexed (node :: nodes) :=
  List.forall_mem_cons.mpr ⟨hnode, h⟩

theorem AllFixed.append (h : AllFixed named indexed nodes)
    (h' : AllFixed named indexed nodes') : AllFixed named indexed (nodes ++ nodes') :=
  List.forall_mem_append.mpr ⟨h, h'⟩

end Fragment

section Settling

/-- A budget that no operation of the engine runs out of. -/
structure MatchBudget.Unlimited (b : MatchBudget) : Prop where
  error : b.error = none
  backtracks : b.backtracksRemaining = .unlimited
  recursion : b.recursionLimit = .unlimited
  heapFrames : b.heapFramesRemaining = .unlimited
  jit : b.jit = false

namespace MatchBudget.Unlimited

variable {b : MatchBudget}

theorem hasError (h : b.Unlimited) :
    b.hasError.1 = false ∧ b.hasError.2.Unlimited :=
  ⟨by simp [MatchBudget.hasError, h.error], h⟩

theorem enterRecursion (h : b.Unlimited) :
    b.enterRecursion.1 = true ∧ b.enterRecursion.2.Unlimited := by
  have : b.enterRecursion = (true, { b with recursionDepth := b.recursionDepth + 1 }) := by
    simp [MatchBudget.enterRecursion, h.error, h.recursion, Allowance.covers]
  rw [this]
  exact ⟨rfl, h.error, h.backtracks, h.recursion, h.heapFrames, h.jit⟩

theorem leaveRecursion (h : b.Unlimited) : b.leaveRecursion.2.Unlimited :=
  ⟨h.error, h.backtracks, h.recursion, h.heapFrames, h.jit⟩

theorem consumeBacktrack (h : b.Unlimited) :
    b.consumeBacktrack.1 = true ∧ b.consumeBacktrack.2.Unlimited := by
  have : b.consumeBacktrack = (true, { b with backtracksRemaining := .unlimited }) := by
    simp [MatchBudget.consumeBacktrack, h.error, h.backtracks, Allowance.spend]
  rw [this]
  exact ⟨rfl, h.error, rfl, h.recursion, h.heapFrames, h.jit⟩

theorem retainQuantifierContinuation (h : b.Unlimited) :
    b.retainQuantifierContinuation.1 = true ∧ b.retainQuantifierContinuation.2.Unlimited := by
  have : b.retainQuantifierContinuation = (true, { b with heapFramesRemaining := .unlimited }) := by
    simp [MatchBudget.retainQuantifierContinuation, h.error, h.heapFrames, h.jit, Allowance.spend]
  rw [this]
  exact ⟨rfl, h.error, h.backtracks, h.recursion, rfl, h.jit⟩

end MatchBudget.Unlimited

/-- No control is pending, and nothing limits the attempt. -/
structure MatchCtx.Quiet (flags : RegexFlags) (ctx : MatchCtx) : Prop where
  control : ctx.state.control = none
  flags : ctx.state.flags = flags
  unlimited : ctx.budget.Unlimited

/-- A step that finishes from every quiet context with a quiet one and such a value. -/
def Settles (flags : RegexFlags) (m : Matcher α) (P : α → Prop) : Prop :=
  Finishes (MatchCtx.Quiet flags) m fun a ctx => P a ∧ ctx.Quiet flags

namespace Settles

theorem pure {P : α → Prop} (h : P a) : Settles flags (Pure.pure a) P :=
  Finishes.pure fun _ hs => ⟨h, hs⟩

theorem bind {m : Matcher α} {f : α → Matcher β} (hm : Settles flags m P)
    (hf : ∀ a, P a → Settles flags (f a) Q) : Settles flags (m >>= f) Q :=
  Finishes.bind hm fun a => Finishes.of_fact (hf a)

theorem post {m : Matcher α} (h : Settles flags m P) (hPQ : ∀ a, P a → Q a) :
    Settles flags m Q :=
  Finishes.post h fun _ _ hp => ⟨hPQ _ hp.1, hp.2⟩

theorem ite {c : Prop} [Decidable c] {m m' : Matcher α} (h : Settles flags m P)
    (h' : Settles flags m' P) : Settles flags (if c then m else m') P := by
  split
  · exact h
  · exact h'

theorem view : Settles flags view fun s => s.control = none ∧ s.flags = flags :=
  fun ctx h => ⟨ctx.state, ctx, rfl, ⟨h.control, h.flags⟩, h⟩

theorem update {f : MatchState → MatchState}
    (hf : ∀ s, (f s).flags = s.flags ∧ ((f s).control = s.control ∨ (f s).control = none)) :
    Settles flags (update f) fun _ => True := by
  refine fun ctx h => ⟨(), _, rfl, trivial, ?_, ?_, h.unlimited⟩
  · rcases (hf ctx.state).2 with hc | hc
    · exact hc.trans h.control
    · exact hc
  · exact (hf ctx.state).1.trans h.flags

theorem budgeted {op : MatchBudget → α × MatchBudget} {P : α → Prop}
    (hop : ∀ b : MatchBudget, b.Unlimited → P (op b).1 ∧ (op b).2.Unlimited) :
    Settles flags (budgeted op) P :=
  fun ctx h => ⟨_, _, rfl, (hop ctx.budget h.unlimited).1,
    ⟨h.control, h.flags, (hop ctx.budget h.unlimited).2⟩⟩

theorem hasError : Settles flags (Regex.budgeted MatchBudget.hasError) (· = false) :=
  budgeted fun _ h => h.hasError

theorem enterRecursion : Settles flags (Regex.budgeted MatchBudget.enterRecursion) (· = true) :=
  budgeted fun _ h => h.enterRecursion

theorem leaveRecursion :
    Settles flags (Regex.budgeted MatchBudget.leaveRecursion) fun _ => True :=
  budgeted fun _ h => ⟨trivial, h.leaveRecursion⟩

theorem consumeBacktrack :
    Settles flags (Regex.budgeted MatchBudget.consumeBacktrack) (· = true) :=
  budgeted fun _ h => h.consumeBacktrack

theorem retainQuantifierContinuation :
    Settles flags (Regex.budgeted MatchBudget.retainQuantifierContinuation) (· = true) :=
  budgeted fun _ h => h.retainQuantifierContinuation

theorem install (b : BacktrackState) : Settles flags b.install fun _ => True :=
  update fun _ => ⟨rfl, .inl rfl⟩

theorem restoreCaptures (saved : MatchState) :
    Settles flags (Regex.restoreCaptures saved) fun _ => True :=
  update fun _ => ⟨rfl, .inl rfl⟩

theorem restoreTracked (tracks : Bool) (saved : MatchState) :
    Settles flags (Regex.restoreTracked tracks saved) fun _ => True :=
  update fun _ => ⟨rfl, .inl rfl⟩

theorem setGroup (index : Nat) (m : Option Match) :
    Settles flags (Regex.setGroup index m) fun _ => True :=
  update fun _ => ⟨rfl, .inl rfl⟩

theorem take (pos : Nat) : Settles flags (BacktrackState.take pos) fun b => b.end = pos :=
  bind view fun _ _ => bind (update fun _ => ⟨rfl, .inl rfl⟩) fun _ _ => pure rfl

theorem takeAccepted : Settles flags Regex.takeAccepted (· = false) :=
  bind view fun _ hs => bind (update fun _ => ⟨rfl, .inr rfl⟩) fun _ _ => pure (by simp [hs.1])

theorem consumeAlternative (first : Bool) :
    Settles flags (Regex.consumeAlternative first) (· = true) := by
  cases first with
  | true => exact pure rfl
  | false => exact consumeBacktrack

theorem inRecursion {step : Matcher α} (h : Settles flags step P) :
    Settles flags (Regex.inRecursion refused step) P := by
  refine enterRecursion.bind ?_
  rintro _ rfl
  exact h.bind fun a ha => leaveRecursion.bind fun _ _ => pure ha

end Settles

end Settling

/-- An answer that says whether a relation reaches a position, and one it reaches. -/
def Decides (reached : Nat → Prop) : Option Nat → Prop
  | some final => reached final
  | none => ∀ final, ¬reached final

theorem Decides.congr {reached reached' : Nat → Prop} (h : ∀ final, reached final ↔ reached' final)
    (hr : Decides reached result) : Decides reached' result := by
  cases result with
  | none => exact fun final hf => hr final ((h final).mpr hf)
  | some final => exact (h final).mp hr

section Reading

variable (env : Env) (flags : RegexFlags)

/-- The advancing language of a node, between two positions of the subject. -/
def Env.Reads (node : Node) (i j : Nat) : Prop :=
  node.Spans env.tables env.chars true flags i j

def Env.ReadsAll (nodes : List Node) (i j : Nat) : Prop :=
  SpansAll env.tables env.chars true flags nodes i j

/-- The ends of the collected continuations are the positions the node reaches. -/
def Collects (node : Node) (pos : Nat) (states : List BacktrackState) : Prop :=
  states.length ≤ node.breadth ∧
    ∀ final, (∃ state ∈ states, state.end = final) ↔ env.Reads flags node pos final

/-- An engine that decides the advancing language of fixed patterns within its fuel. -/
structure Engine.ReadsFixed (named : GroupName → Option Nat) (indexed : Nat → Option Nat)
    (E : Engine) : Prop where
  matched : ∀ {flags node rest}, AllFixed named indexed (node :: rest) →
    weights (node :: rest) ≤ E.fuel → ∀ pos,
      Settles flags (E.matchSeqFrom node rest pos) (Decides (env.ReadsAll flags (node :: rest) pos))
  collected : ∀ {flags node}, node.IsFixed named indexed → node.weight < E.fuel → ∀ state,
    Settles flags (E.collectMatchStatesFrom node state) (Collects env flags node state.end)

end Reading

section Steps

variable {env : Env} {E : Engine} {named : GroupName → Option Nat} {indexed : Nat → Option Nat}
  {flags : RegexFlags} {node inner : Node} {rest : List Node}

theorem readsAll_cons :
    env.ReadsAll flags (node :: rest) i j ↔
      ∃ k, env.Reads flags node i k ∧ env.ReadsAll flags rest k j :=
  Iff.rfl

theorem decides_cons (hfixed : node.IsFixed named indexed) (hnode : env.Reads flags node i k)
    (h : Decides (env.ReadsAll flags rest k) result) :
    Decides (env.ReadsAll flags (node :: rest) i) result := by
  refine h.congr fun final => ⟨fun hrest => ⟨k, hnode, hrest⟩, ?_⟩
  rintro ⟨k', hnode', hrest⟩
  rwa [hfixed.unique hnode hnode']

theorem decides_cons_none (hnode : ∀ k, ¬env.Reads flags node i k) :
    Decides (env.ReadsAll flags (node :: rest) i) none := by
  rintro final ⟨k, hk, -⟩
  exact hnode k hk

theorem matchRest_settles (hE : E.ReadsFixed env named indexed)
    (hrest : AllFixed named indexed rest) (hfuel : weights rest ≤ E.fuel) (pos : Nat) :
    Settles flags (matchRest E rest pos) (Decides (env.ReadsAll flags rest pos)) := by
  refine Settles.view.bind ?_
  rintro s ⟨hcontrol, -⟩
  rw [if_neg (by simp [hcontrol])]
  cases rest with
  | nil => exact .pure rfl
  | cons node rest => exact hE.matched hrest hfuel pos

theorem advanceIf_settles (hE : E.ReadsFixed env named indexed)
    (hfixed : AllFixed named indexed (node :: rest)) (hfuel : weights rest ≤ E.fuel)
    (hnode : ∀ j, env.Reads flags node pos j ↔ ok = true ∧ j = next) :
    Settles flags (advanceIf E ok rest next)
      (Decides (env.ReadsAll flags (node :: rest) pos)) := by
  cases ok with
  | true =>
    exact (matchRest_settles hE hfixed.tail hfuel next).post fun _ h =>
      decides_cons hfixed.head ((hnode next).mpr ⟨rfl, rfl⟩) h
  | false =>
    exact .pure (decides_cons_none fun k hk => by simpa using ((hnode k).mp hk).1)

section Alternatives

/-- The answer of the first branch that has one. -/
def Prefers (env : Env) (flags : RegexFlags) (rest : List Node) (pos : Nat) :
    List Node → Option Nat → Prop
  | [], result => result = none
  | branch :: branches, result =>
    (result.isSome ∧ Decides (env.ReadsAll flags (branch :: rest) pos) result) ∨
      (Decides (env.ReadsAll flags (branch :: rest) pos) none ∧
        Prefers env flags rest pos branches result)

theorem matchAlternation_settles (hE : E.ReadsFixed env named indexed)
    (hrest : AllFixed named indexed rest) {branches : List Node}
    (hbranches : AllFixed named indexed branches)
    (hfuel : weights branches + weights rest ≤ E.fuel) (pos : Nat) (first : Bool) :
    Settles flags (matchAlternation E rest pos first branches)
      (Prefers env flags rest pos branches) := by
  induction branches generalizing first with
  | nil => exact .pure rfl
  | cons branch branches ih =>
    have hweights : weights (branch :: branches) = branch.weight + weights branches := rfl
    have hbranch : weights (branch :: rest) = branch.weight + weights rest := rfl
    refine (Settles.consumeAlternative first).bind ?_
    rintro _ rfl
    refine Settles.view.bind fun saved _ => ?_
    refine (hE.matched (hrest.cons hbranches.head) (by omega) pos).bind fun result hresult => ?_
    cases result with
    | some final => exact .pure (.inl ⟨rfl, hresult⟩)
    | none =>
      refine Settles.view.bind ?_
      rintro s ⟨hcontrol, -⟩
      rw [if_neg (by simp [hcontrol]), if_neg (by simp [hcontrol])]
      refine (Settles.restoreCaptures saved).bind fun _ _ => ?_
      exact (ih hbranches.tail (by omega) false).post fun _ h => .inr ⟨hresult, h⟩

theorem decides_of_prefers (h : Prefers env flags rest pos branches result) :
    Decides (env.ReadsAll flags (.alternation branches :: rest) pos) result := by
  have hbranches : ∀ final, env.ReadsAll flags (.alternation branches :: rest) pos final ↔
      ∃ branch ∈ branches, env.ReadsAll flags (branch :: rest) pos final := by
    intro final
    simp only [readsAll_cons, Env.Reads, Node.Spans, spansAny_iff]
    grind
  refine Decides.congr (fun final => (hbranches final).symm) ?_
  induction branches with
  | nil =>
    cases h
    simp [Decides]
  | cons branch branches ih =>
    rcases h with ⟨hsome, h⟩ | ⟨hnone, h⟩
    · cases result with
      | none => cases hsome
      | some final => exact ⟨branch, List.mem_cons_self, h⟩
    · have hrest : Decides (fun final => ∃ branch ∈ branches,
          env.ReadsAll flags (branch :: rest) pos final) result := ih h fun final => by
        simp only [readsAll_cons, Env.Reads, Node.Spans, spansAny_iff]
        grind
      refine hrest.congr fun final => ?_
      simp [hnone final]

end Alternatives

section Groups

theorem tryCaptureStates_settles (hE : E.ReadsFixed env named indexed)
    (hrest : AllFixed named indexed rest) (hfuel : weights rest ≤ E.fuel)
    (index startOffset : Nat) (initial : BacktrackState) (states : List BacktrackState) :
    Settles flags (tryCaptureStates env E index startOffset rest initial states)
      (Decides fun final => ∃ state ∈ states, env.ReadsAll flags rest state.end final) := by
  induction states with
  | nil =>
    refine (Settles.install initial).bind fun _ _ => .pure ?_
    simp [Decides]
  | cons state states ih =>
    refine (Settles.install state).bind fun _ _ => ?_
    refine (Settles.setGroup _ _).bind fun _ _ => ?_
    refine (matchRest_settles hE hrest hfuel state.end).bind fun result hresult => ?_
    cases result with
    | some final => exact .pure ⟨state, List.mem_cons_self, hresult⟩
    | none =>
      refine ih.post fun result h => h.congr fun final => ?_
      simp [hresult final]

theorem collectMatchStates_settles (hE : E.ReadsFixed env named indexed)
    (hnode : node.IsFixed named indexed) (hfuel : node.weight < E.fuel) (pos : Nat) :
    Settles flags (collectMatchStates E node pos) fun states =>
      Collects env flags node pos states.2 := by
  refine (Settles.take pos).bind fun initial hinitial => ?_
  refine (hE.collected hnode hfuel initial).bind fun states hstates => .pure ?_
  rwa [hinitial] at hstates

theorem captureEnd_isFixed (index start : Nat) :
    (Node.captureEnd index start).IsFixed named indexed :=
  ⟨rfl, 0, rfl⟩

theorem matchSeqFromWithGroup_settles (hE : E.ReadsFixed env named indexed)
    (hinner : inner.IsFixed named indexed) (hrest : AllFixed named indexed rest)
    (hfuel : inner.weight + 1 + weights rest ≤ E.fuel) (pos : Nat) (groupIdx : Option Nat)
    (startOffset : Nat) :
    Settles flags (matchSeqFromWithGroup env E inner rest pos groupIdx startOffset)
      (Decides (env.ReadsAll flags (inner :: rest) pos)) := by
  have hweight : ∀ nodes, weights (inner :: nodes) = inner.weight + weights nodes := fun _ => rfl
  unfold matchSeqFromWithGroup
  split
  · refine (hE.matched (hrest.cons hinner) (by rw [hweight]; omega) pos).bind
      fun result hresult => ?_
    cases result with
    | none => exact .pure hresult
    | some final =>
      cases groupIdx with
      | none => exact .pure hresult
      | some index => exact (Settles.setGroup _ _).bind fun _ _ => .pure hresult
  · exact hE.matched (hrest.cons hinner) (by rw [hweight]; omega) pos
  · rename_i index _
    split
    · refine (hE.matched ((hrest.cons (captureEnd_isFixed index startOffset)).cons hinner)
        (by simp only [weights, Node.weight]; omega) pos).post fun result h => h.congr fun final => ?_
      simp only [readsAll_cons, Env.Reads, Node.Spans]
      grind
    · refine (collectMatchStates_settles hE hinner (by omega) pos).bind
        fun collected hcollected => ?_
      obtain ⟨-, hends⟩ := hcollected
      refine (tryCaptureStates_settles hE hrest (by omega) index startOffset collected.1
        collected.2).post fun result h => h.congr fun final => ?_
      simp only [readsAll_cons, ← hends]
      grind

theorem matchGroup_settles (hE : E.ReadsFixed env named indexed)
    (hinner : inner.IsFixed named indexed) (hrest : AllFixed named indexed rest)
    (hfuel : inner.weight + 1 + weights rest ≤ E.fuel) (index : Option Nat) (pos : Nat) :
    Settles flags (matchGroup env E index inner rest pos)
      (Decides (env.ReadsAll flags (inner :: rest) pos)) := by
  refine Settles.inRecursion (Settles.view.bind fun s _ => ?_)
  refine (matchSeqFromWithGroup_settles hE hinner hrest hfuel pos _ _).bind fun result hresult => ?_
  refine Settles.view.bind ?_
  rintro t ⟨hcontrol, -⟩
  rw [hcontrol]
  exact .pure hresult

theorem matchCaptureEnd_settles (hE : E.ReadsFixed env named indexed)
    (hrest : AllFixed named indexed rest) (hfuel : weights rest ≤ E.fuel) (index start pos : Nat) :
    Settles flags (matchCaptureEnd env E index start rest pos)
      (Decides (env.ReadsAll flags (.captureEnd index start :: rest) pos)) := by
  refine Settles.view.bind fun s _ => (Settles.setGroup _ _).bind fun _ _ => ?_
  refine (matchRest_settles hE hrest hfuel pos).bind fun result hresult => ?_
  have hfixed : (Node.captureEnd index start).IsFixed named indexed :=
    captureEnd_isFixed index start
  have hdecides := decides_cons hfixed
    (show env.Reads flags (.captureEnd index start) pos pos from rfl) hresult
  cases result with
  | some final => exact .pure hdecides
  | none => exact (Settles.setGroup _ _).bind fun _ _ => .pure hdecides

theorem matchAtomic_settles (hE : E.ReadsFixed env named indexed)
    (hinner : inner.IsFixed named indexed) (hrest : AllFixed named indexed rest)
    (hfuel : inner.weight + weights rest ≤ E.fuel) (pos : Nat) :
    Settles flags (matchAtomic E inner rest pos)
      (Decides (env.ReadsAll flags (inner :: rest) pos)) := by
  refine Settles.inRecursion ?_
  refine (hE.matched (AllFixed.cons hinner (List.forall_mem_nil _))
    (by simp only [weights]; omega) pos).bind fun result hresult => ?_
  cases result with
  | some final =>
    have hreads : env.Reads flags inner pos final := spansAll_singleton.mp hresult
    exact (matchRest_settles hE hrest (by omega) final).post fun _ h =>
      decides_cons hinner hreads h
  | none =>
    exact .pure (decides_cons_none fun k hk => hresult k (spansAll_singleton.mpr hk))

theorem Settles.withFlags {m : Matcher α} {k : α → Matcher β} {f g : MatchState → MatchState}
    (hf : ∀ s, s.flags = flags → (f s).flags = flags' ∧ (f s).control = s.control)
    (hg : ∀ s, (g s).flags = flags ∧ (g s).control = s.control) (hm : Settles flags' m P)
    (hk : ∀ a, P a → Settles flags (k a) Q) :
    Settles flags (Regex.update f >>= fun _ => m >>= fun a => Regex.update g >>= fun _ => k a)
      Q := by
  have hinside : Finishes (MatchCtx.Quiet flags) (Regex.update f)
      fun _ ctx => ctx.Quiet flags' := fun ctx h => by
    obtain ⟨hflags, hcontrol⟩ := hf ctx.state h.flags
    exact ⟨(), _, rfl, hcontrol.trans h.control, hflags, h.unlimited⟩
  have houtside : Finishes (MatchCtx.Quiet flags') (Regex.update g)
      fun _ ctx => ctx.Quiet flags := fun ctx h => by
    obtain ⟨hflags, hcontrol⟩ := hg ctx.state
    exact ⟨(), _, rfl, hcontrol.trans h.control, hflags, h.unlimited⟩
  refine Finishes.bind hinside fun _ => Finishes.bind hm fun a => Finishes.of_fact fun ha => ?_
  exact Finishes.bind houtside fun _ => hk a ha

theorem matchLocalFlags_settles (hE : E.ReadsFixed env named indexed)
    (hinner : inner.IsFixed named indexed) (hrest : AllFixed named indexed rest)
    (hfuel : inner.weight + weights rest ≤ E.fuel) (l : LocalMatchFlags) (pos : Nat) :
    Settles flags (matchLocalFlags E l inner rest pos)
      (Decides (env.ReadsAll flags (.localFlags l inner :: rest) pos)) := by
  have hfixed : (Node.localFlags l inner).IsFixed named indexed := hinner
  have hrun : Settles (flags.withLocal l) (E.matchSeqFrom inner [] pos)
      (Decides (env.ReadsAll (flags.withLocal l) [inner] pos)) :=
    hE.matched (AllFixed.cons hinner (List.forall_mem_nil _)) (by simp only [weights]; omega) pos
  refine Settles.view.bind ?_
  rintro saved ⟨-, hsaved⟩
  refine Settles.withFlags ?_ ?_ hrun fun result hresult => ?_
  · rintro s rfl
    exact ⟨rfl, rfl⟩
  · exact fun s => ⟨hsaved, rfl⟩
  · cases result with
    | some final =>
      have hreads : env.Reads flags (.localFlags l inner) pos final :=
        spansAll_singleton.mp hresult
      exact (matchRest_settles hE hrest (by omega) final).post fun _ h =>
        decides_cons hfixed hreads h
    | none =>
      have hnone : ∀ k, ¬env.Reads flags (.localFlags l inner) pos k :=
        fun k hk => hresult k (spansAll_singleton.mpr hk)
      exact .pure (decides_cons_none hnone)

end Groups

end Steps

end Rphp.Regex
