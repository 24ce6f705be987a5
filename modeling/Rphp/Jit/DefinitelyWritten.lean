import Rphp.Jit.Straight

namespace Rphp.Jit
open Rphp.Lib NativeStraightLongLoopConfig
set_option autoImplicit true

/-- The arrays of the analysis: what it reports, and what has arrived at each operation so far. -/
structure ForwardFacts where
  before : Nat → Mask
  incoming : Nat → Mask
  reachable : Nat → Bool

def mergeForwardFact (facts : ForwardFacts) (target : Nat) (fact : Mask) : ForwardFacts :=
  if facts.reachable target then
    { facts with
      incoming := Function.update facts.incoming target (facts.incoming target &&& fact) }
  else
    { facts with
      incoming := Function.update facts.incoming target fact
      reachable := Function.update facts.reachable target true }

def definitelyWrittenStep (config : NativeStraightLongLoopConfig) (facts : ForwardFacts)
    (index : Nat) : ForwardFacts :=
  if facts.reachable index then
    let after := facts.incoming index ||| config.outputMask index
    let facts :=
      { facts with before := Function.update facts.before index (facts.incoming index) }
    match config.operations[index]? with
    | some (.branchUnless _ _ _ falseTarget) =>
      mergeForwardFact (mergeForwardFact facts (index + 1) after) falseTarget after
    | some (.jump target) => mergeForwardFact facts target after
    | _ => mergeForwardFact facts (index + 1) after
  else
    facts

def definitelyWrittenFacts (config : NativeStraightLongLoopConfig) (n : Nat) : ForwardFacts :=
  (List.range n).foldl (definitelyWrittenStep config)
    { before := fun _ => 0
      incoming := fun _ => 0
      reachable := Function.update (fun _ => false) 0 true }

/-- The slots definitely written before each operation and before the loop tail. -/
def straightLongStructuredDefinitelyWritten (config : NativeStraightLongLoopConfig) :
    (Nat → Mask) × Mask :=
  let facts := definitelyWrittenFacts config config.operationCount
  (facts.before,
    if facts.reachable config.operationCount then facts.incoming config.operationCount else 0)

/-- The mask holds the slots that every control path to the operation writes, and it is empty
where no path leads. -/
def IsMeetOverPaths (config : NativeStraightLongLoopConfig) (written : Nat → Mask) (mask : Mask)
    (index : Nat) : Prop :=
  ∀ slot, slot ∈ mask ↔ (∃ nodes, config.Path 0 nodes index) ∧
    ∀ nodes, config.Path 0 nodes index → ∃ node ∈ nodes, slot ∈ written node

/-! The pass computes what one meet-over-edges pass of a forward graph computes. -/

/-- The fact of an operation, none if no predecessor has reached it yet. -/
def ForwardFacts.known (facts : ForwardFacts) (index : Nat) : Option Mask :=
  if facts.reachable index then some (facts.incoming index) else none

/-- The library's pass over the body. -/
def writtenPass (config : NativeStraightLongLoopConfig) (n : Nat) : Nat → Option Mask :=
  forwardPass config.successors (· &&& ·) (fun i fact => fact ||| config.outputMask i) 0 n

theorem known_mergeForwardFact (facts : ForwardFacts) (target : Nat) (fact : Mask) :
    (mergeForwardFact facts target fact).known = mergeFact (· &&& ·) facts.known target fact := by
  funext index
  by_cases hi : index = target
  · subst hi
    cases hr : facts.reachable index <;>
      simp [mergeForwardFact, mergeFact, ForwardFacts.known, hr]
  · cases hr : facts.reachable target <;>
      simp [mergeForwardFact, mergeFact, ForwardFacts.known, hr, Function.update_of_ne hi]

theorem before_mergeForwardFact (facts : ForwardFacts) (target : Nat) (fact : Mask) :
    (mergeForwardFact facts target fact).before = facts.before := by
  unfold mergeForwardFact
  split <;> rfl

theorem known_definitelyWrittenStep {config : NativeStraightLongLoopConfig}
    (h : index < config.operationCount) (facts : ForwardFacts) :
    (definitelyWrittenStep config facts index).known =
      visit config.successors (· &&& ·) (fun i fact => fact ||| config.outputMask i)
        facts.known index := by
  unfold definitelyWrittenStep visit
  cases hr : facts.reachable index with
  | false => simp [ForwardFacts.known, hr]
  | true =>
    have hknown : facts.known index = some (facts.incoming index) := by
      simp [ForwardFacts.known, hr]
    simp only [hknown, ↓reduceIte]
    obtain ⟨operation, ho⟩ : ∃ operation, config.operations[index]? = some operation :=
      ⟨_, List.getElem?_eq_getElem h⟩
    cases operation <;>
      simp [successors, ho, known_mergeForwardFact] <;> rfl

theorem before_definitelyWrittenStep {config : NativeStraightLongLoopConfig} (facts : ForwardFacts)
    (index : Nat) :
    (definitelyWrittenStep config facts index).before =
      if facts.reachable index then
        Function.update facts.before index (facts.incoming index)
      else facts.before := by
  unfold definitelyWrittenStep
  split
  · dsimp only
    split <;> simp only [before_mergeForwardFact]
  · rfl

theorem definitelyWrittenFacts_succ (config : NativeStraightLongLoopConfig) (n : Nat) :
    definitelyWrittenFacts config (n + 1) =
      definitelyWrittenStep config (definitelyWrittenFacts config n) n := by
  simp only [definitelyWrittenFacts, List.range_succ, List.foldl_append, List.foldl_cons,
    List.foldl_nil]

theorem known_definitelyWrittenFacts {config : NativeStraightLongLoopConfig}
    (h : n ≤ config.operationCount) :
    (definitelyWrittenFacts config n).known = writtenPass config n := by
  induction n with
  | zero =>
    funext index
    by_cases hi : index = 0
    · subst hi
      simp [definitelyWrittenFacts, ForwardFacts.known, writtenPass, forwardPass]
    · simp [definitelyWrittenFacts, ForwardFacts.known, writtenPass, forwardPass,
        Function.update_of_ne hi]
  | succ n ih =>
    rw [definitelyWrittenFacts_succ, known_definitelyWrittenStep h, ih (Nat.le_of_succ_le h)]
    exact (forwardPass_succ n).symm

/-- The reported mask of an operation is the fact it has when the pass comes to it. -/
theorem before_definitelyWrittenFacts {config : NativeStraightLongLoopConfig}
    (h : n ≤ config.operationCount) (index : Nat) :
    (definitelyWrittenFacts config n).before index =
      if index < n then (writtenPass config index index).getD 0 else 0 := by
  induction n with
  | zero => rfl
  | succ n ih =>
    have hknown := congrFun (known_definitelyWrittenFacts (Nat.le_of_succ_le h)) n
    rw [definitelyWrittenFacts_succ, before_definitelyWrittenStep]
    by_cases hi : index = n
    · subst hi
      rw [← hknown, if_pos (Nat.lt_succ_self _)]
      unfold ForwardFacts.known
      split
      · simp
      · rw [ih (Nat.le_of_succ_le h), if_neg (Nat.lt_irrefl _)]
        rfl
    · have hlt : index < n + 1 ↔ index < n := by omega
      rw [if_congr hlt rfl rfl, ← ih (Nat.le_of_succ_le h)]
      split
      · rw [Function.update_of_ne hi]
      · rfl

theorem writtenPass_isMeet {config : NativeStraightLongLoopConfig} (hf : config.ForwardOnly)
    (index : Nat) :
    IsMeetOverPaths config config.outputMask ((writtenPass config index index).getD 0) index := by
  intro slot
  have hbelow (nodes : List Nat) (h : config.Path 0 nodes index) : ∀ x ∈ nodes, x < index :=
    fun x hx => h.lt_of_mem hf.forward hx
  have hreached : (writtenPass config index index).isSome ↔ ∃ nodes, config.Path 0 nodes index := by
    rw [writtenPass, forwardPass_isSome hf.forward]
    exact ⟨fun ⟨nodes, h, _⟩ => ⟨nodes, h⟩, fun ⟨nodes, h⟩ => ⟨nodes, h, hbelow nodes h⟩⟩
  have hholds : HoldsOf (slot ∈ ·) (writtenPass config index index) ↔
      ∀ nodes, config.Path 0 nodes index → (∀ x ∈ nodes, x < index) →
        ∃ x ∈ nodes, slot ∈ config.outputMask x :=
    forwardPass_holds (P := fun mask : Mask => slot ∈ mask) hf.forward (fun _ _ => mem_and)
      (fun i _ => mem_or (b := config.outputMask i)) not_mem_zero index index
  rw [← hreached]
  cases hfact : writtenPass config index index with
  | none => simp
  | some fact =>
    rw [hfact] at hholds
    simp only [HoldsOf, Option.some.injEq, forall_eq'] at hholds
    simp only [Option.getD_some, Option.isSome_some, true_and]
    rw [hholds]
    exact ⟨fun h nodes hp => h nodes hp (hbelow nodes hp), fun h nodes hp _ => h nodes hp⟩

/-- The analysis reports the meet over all control paths of the slots that receive a Long result,
for every operation and for the loop tail. -/
theorem structuredDefinitelyWritten_isMeet (config : NativeStraightLongLoopConfig)
    (hf : config.ForwardOnly) :
    (∀ index < config.operationCount, IsMeetOverPaths config config.outputMask
      ((straightLongStructuredDefinitelyWritten config).1 index) index) ∧
      IsMeetOverPaths config config.outputMask
        (straightLongStructuredDefinitelyWritten config).2 config.operationCount := by
  constructor
  · intro index hi
    have hmeet := writtenPass_isMeet hf index
    have hbefore := before_definitelyWrittenFacts (Nat.le_refl config.operationCount) index
    rw [if_pos hi] at hbefore
    rwa [← hbefore] at hmeet
  · have hmeet := writtenPass_isMeet hf config.operationCount
    rw [← known_definitelyWrittenFacts (Nat.le_refl _), ForwardFacts.known] at hmeet
    rw [straightLongStructuredDefinitelyWritten]
    split at hmeet <;> rename_i hr <;> simpa [hr] using hmeet

/-- One arm writes slots 5 and 6, the other slot 6 alone. -/
def oneArmBody : NativeStraightLongLoopConfig where
  inductionSlot := 0
  bound := .const 10
  operations := [
    .branchUnless .lessThan (.source (.slot 0)) (.source (.const 5)) 3,
    .binaryAssign .add (.slot 0) (.const 1) 5 6,
    .jump 4,
    .move (.const 7) 6]
  postResult := none

theorem structuredDefinitelyWritten_isMeet_oneArm :
    oneArmBody.ForwardOnly ∧ (straightLongStructuredDefinitelyWritten oneArmBody).2 = bit 6 ∧
      IsMeetOverPaths oneArmBody oneArmBody.outputMask
        (straightLongStructuredDefinitelyWritten oneArmBody).2 4 :=
  ⟨by decide +kernel, by decide +kernel,
    (structuredDefinitelyWritten_isMeet oneArmBody (by decide +kernel)).2⟩

/-- A body whose first operation stores a String token in slot 5. -/
def tokenBody : NativeStraightLongLoopConfig where
  inductionSlot := 0
  bound := .const 10
  operations := [.stringToken 1 5, .move (.const 7) 6]
  postResult := none

/-- A token is stored in the shadow on every path, and the analysis does not report its slot. -/
theorem definitelyWritten_misses_token :
    tokenBody.ForwardOnly ∧ ¬ IsMeetOverPaths tokenBody tokenBody.shadowOutputMask
      ((straightLongStructuredDefinitelyWritten tokenBody).1 1) 1 := by
  have hf : tokenBody.ForwardOnly := by decide +kernel
  refine ⟨hf, fun h => ?_⟩
  have hmem : (5 : Slot) ∈ (straightLongStructuredDefinitelyWritten tokenBody).1 1 := by
    refine (h 5).2 ⟨⟨[0], .snoc .nil (by decide +kernel)⟩, ?_⟩
    intro nodes hp
    cases hp with
    | @snoc _ v _ hp hv =>
      obtain rfl : v = 0 := Nat.lt_one_iff.1 (hf.bounds hv).1
      exact ⟨0, by simp, by decide +kernel⟩
  exact absurd hmem (by decide +kernel)

end Rphp.Jit
