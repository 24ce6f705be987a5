import Rphp.Jit.StraightMachine

namespace Rphp.Jit.StraightMachine
open NativeStraightLongLoopConfig
set_option autoImplicit true

/-- A loop that stores every result beside one that leaves out stores: they differ in stale slots
of the shadow only, and a forwarded slot has its value in the register. -/
structure Agrees (stale : Slot → Prop) (m m' : StraightMachine W) : Prop where
  index : m'.index = m.index
  exit : m'.exit = m.exit
  induction : m'.induction = m.induction
  world : m'.world = m.world
  results : m'.results = m.results
  log : m'.log = m.log
  unforwarded : m.forwarded = 0
  register : ∀ slot ∈ m'.forwarded, m'.register = m.shadow slot
  shadow : ∀ slot, ¬ stale slot → m'.shadow slot = m.shadow slot

/-- The slots that are stale after an operation: those it writes without storing them, and those
that were stale before and that it does not write. -/
def staleAfter (e : Emission) (index : Nat) (outputs : Mask) (stale : Slot → Prop) (slot : Slot) :
    Prop :=
  if slot ∈ outputs then slot ∉ e.keep index else stale slot

section

variable {config : NativeStraightLongLoopConfig} {e : Emission}
variable {m m' : StraightMachine W} {stale : Slot → Prop}

theorem Agrees.refl (h : m.forwarded = 0) : Agrees stale m m where
  index := rfl
  exit := rfl
  induction := rfl
  world := rfl
  results := rfl
  log := rfl
  unforwarded := h
  register := by simp [h]
  shadow _ _ := rfl

theorem Agrees.mono (h : Agrees stale m m') (hsub : ∀ slot, stale slot → stale' slot) :
    Agrees stale' m m' :=
  { h with shadow := fun slot hs => h.shadow slot fun hstale => hs (hsub slot hstale) }

theorem Agrees.read_eq (h : Agrees stale m m')
    (hread : ∀ slot ∈ straightLongOperationInputMask operation,
      slot ∈ m'.forwarded ∨ ¬ stale slot) :
    ∀ o ∈ operation.operands, m'.read config o = m.read config o := by
  intro o ho
  cases o with
  | const value => rfl
  | slot slot =>
    have hslot := hread slot ((NativeStraightLongOperation.mem_inputMask _).2 ho)
    simp only [read, h.induction, h.unforwarded, BitVec.ofNat_eq_ofNat, not_mem_zero, ↓reduceIte]
    split
    · rfl
    · split
      · rename_i hmem
        exact h.register slot hmem
      · rename_i hmem
        exact h.shadow slot (hslot.resolve_left hmem)

/-- Control moves on without a value. -/
theorem Agrees.goto (h : Agrees stale m m') (index : Nat) (world : W) (log : List Event) :
    Agrees stale { m with index := index, forwarded := 0, world := world, log := log }
      { m' with index := index, forwarded := 0, world := world, log := log } :=
  { h with
    index := rfl
    world := rfl
    log := rfl
    unforwarded := rfl
    register := by simp }

/-- The body is left. -/
theorem Agrees.leave (h : Agrees stale m m') (exit : Option NativeExit) (world : W)
    (log : List Event) :
    Agrees stale { m with exit := exit, world := world, log := log }
      { m' with exit := exit, world := world, log := log } :=
  { h with
    exit := rfl
    world := rfl
    log := rfl }

theorem staleAfter_zero (e : Emission) (index : Nat) (stale : Slot → Prop) :
    staleAfter e index 0 stale = stale := by
  funext slot
  simp [staleAfter]

/-- A value is stored in full on the one side, and as the emission says on the other. -/
theorem Agrees.store (h : Agrees stale m m') (operands : List Int64) (value : Int64) (world : W) :
    Agrees (staleAfter e m.index outputs stale)
      (advance .canonical outputs operands m (.next (some value) world))
      (advance e outputs operands m' (.next (some value) world)) where
  index := by simp [advance, h.index]
  exit := h.exit
  induction := h.induction
  world := rfl
  results := by simp [advance, h.index, h.results]
  log := by simp [advance, h.index, h.log]
  unforwarded := rfl
  register := by
    intro slot hmem
    have hout : slot ∈ outputs := by
      simp only [advance] at hmem
      split at hmem
      · exact hmem
      · exact absurd hmem not_mem_zero
    simp only [advance, Emission.canonical, mem_and, hout, mem_allOnes, and_self, ↓reduceIte]
  shadow := by
    intro slot hs
    unfold staleAfter at hs
    simp only [advance, Emission.canonical, h.index, mem_and, mem_allOnes, and_true]
    split at hs
    · rename_i hout
      simp [hout, not_not.1 hs]
    · rename_i hout
      simp [hout, h.shadow slot hs]

/-- The same effect leaves agreeing machines in agreement. -/
theorem Agrees.advance (h : Agrees stale m m') (he : m.exit = none) (operands : List Int64)
    {effect : Effect W} (hfits : effect.Fits config m.index outputs) :
    let n := advance .canonical outputs operands m effect
    let n' := advance e outputs operands m' effect
    (n.exit = none → Agrees (staleAfter e m.index outputs stale) n n' ∧
      n'.forwarded = if e.forward m.index then outputs else 0) ∧
    (n.exit ≠ none → Agrees stale n n') := by
  cases effect with
  | next value world =>
    cases value with
    | none =>
      obtain ⟨-, rfl⟩ := hfits
      refine ⟨fun _ => ⟨?_, by simp [StraightMachine.advance]⟩, fun hn => absurd he hn⟩
      rw [staleAfter_zero]
      simp only [StraightMachine.advance, h.index, h.log]
      exact h.goto _ _ _
    | some value =>
      refine ⟨fun _ => ⟨h.store operands value world, ?_⟩, fun hn => absurd he hn⟩
      simp only [StraightMachine.advance, h.index]
  | branch holds target =>
    obtain ⟨-, rfl⟩ := hfits
    refine ⟨fun _ => ⟨?_, by simp [StraightMachine.advance]⟩, fun hn => absurd he hn⟩
    rw [staleAfter_zero]
    have hgoto := h.goto (if holds then m.index + 1 else target) m.world
      (m.log ++ [⟨m.index, operands, some holds⟩])
    simpa only [StraightMachine.advance, h.index, h.log, h.world] using hgoto
  | jump target =>
    obtain ⟨-, rfl⟩ := hfits
    refine ⟨fun _ => ⟨?_, by simp [StraightMachine.advance]⟩, fun hn => absurd he hn⟩
    rw [staleAfter_zero]
    have hgoto := h.goto target m.world (m.log ++ [⟨m.index, operands, none⟩])
    simpa only [StraightMachine.advance, h.index, h.log, h.world] using hgoto
  | sideExit world =>
    refine ⟨fun hn => absurd hn (by simp [StraightMachine.advance]), fun _ => ?_⟩
    have hleave := h.leave (some (.operationSideExit m.index)) world
      (m.log ++ [⟨m.index, operands, none⟩])
    simpa only [StraightMachine.advance, h.index, h.log] using hleave
  | fault =>
    refine ⟨fun hn => absurd hn (by simp [StraightMachine.advance]), fun _ => ?_⟩
    have hleave := h.leave (some (.fault m.index)) m.world (m.log ++ [⟨m.index, operands, none⟩])
    simpa only [StraightMachine.advance, h.index, h.log, h.world] using hleave

/-- An operation all of whose operands are fresh keeps two loops in agreement. -/
theorem Agrees.step (h : Agrees stale m m') (ctx : NativeContext W) (checked : Bool)
    (hearly : e.early = none) (he : m.exit = none)
    (ho : config.operations[m.index]? = some operation)
    (hread : ∀ slot ∈ straightLongOperationInputMask operation,
      slot ∈ m'.forwarded ∨ ¬ stale slot) :
    let n := step ctx checked config .canonical m
    let n' := step ctx checked config e m'
    (n.exit = none → Agrees (staleAfter e m.index operation.shadowOutputMask stale) n n' ∧
      n'.forwarded = if e.forward m.index then operation.shadowOutputMask else 0) ∧
    (n.exit ≠ none → Agrees stale n n') := by
  have hbegin : beginOperation .canonical m = m := by simp [beginOperation, Emission.canonical]
  have hbegin' : beginOperation e m' = m' := by simp [beginOperation, hearly]
  have ho' : config.operations[m'.index]? = some operation := by rw [h.index, ho]
  have hreads := @Agrees.read_eq _ config _ _ _ _ h hread
  rw [step_of_some he ho, step_of_some (h.exit.trans he) ho', hbegin, hbegin',
    NativeStraightLongOperation.eval_congr hreads, List.map_congr_left hreads, h.world]
  exact h.advance he _ (eval_fits ctx checked _ _ ho)

theorem Agrees.tail (h : Agrees stale m m') (config : NativeStraightLongLoopConfig)
    (hearly : e.early = none) :
    Agrees stale (tail config .canonical m) (tail config e m') := by
  unfold StraightMachine.tail
  rw [h.index, h.exit]
  split
  · refine { h with
      index := rfl
      exit := rfl
      induction := by simp [Emission.canonical, h.induction]
      unforwarded := rfl
      register := by simp
      shadow := ?_ }
    intro slot hs
    cases config.postResult with
    | none => exact h.shadow slot hs
    | some result =>
      by_cases hr : slot = result
      · subst hr
        simp [h.induction]
      · simp [Function.update_of_ne hr, h.shadow slot hs]
  · exact h

end

end Rphp.Jit.StraightMachine
