import Rphp.Value.CycleRoots

namespace Rphp.Value
open Rphp.Lib
set_option autoImplicit true

/-- A taken admission and the request boundaries that had passed by then. -/
structure AutomaticCycleAdmission where
  epoch : Nat
  incoming : List CycleCandidate
deriving DecidableEq, Repr

/-- The root buffer with the admissions and the collection guards its users hold. -/
structure CycleWorld where
  roots : CycleRootState := {}
  admissions : List AutomaticCycleAdmission := []
  guards : List Nat := []
  epoch : Nat := 0

inductive CycleOp where
  | register (candidate : CycleCandidate)
  | pruneDeadCandidates
  | pruneDeadCycleRootStorage
  | takeAdmission
  | completeAdmission (index collected : Nat)
  | dropAdmission (index : Nat)
  | beginCollection
  | dropCollection (index : Nat) (completed : Bool)
  | retireCallbackRoot (identity : Nat)
  | recordCallbackRoots
  | dropCallbackGuard (saved : Bool)
  | suppressSnapshotRoots
  | dropSnapshotGuard
  | setEnabled (enabled : Bool)
  | initializeCollection (enabled : Bool)
  | beginRequest
  | endRequest
deriving DecidableEq, Repr

namespace CycleWorld
open CycleRootState

/-- One call, with the strong counts of all owners at that moment. -/
def step (w : CycleWorld) : (Nat → Nat) × CycleOp → Option CycleWorld
  | (strong, .register candidate) =>
    some { w with roots := w.roots.registerCycleCandidate strong candidate }
  | (strong, .pruneDeadCandidates) =>
    some { w with roots := w.roots.pruneDeadCandidates strong }
  | (strong, .pruneDeadCycleRootStorage) =>
    some { w with roots := w.roots.pruneDeadCycleRootStorage strong }
  | (_, .takeAdmission) =>
    w.roots.takeAutomaticCycleAdmission.map fun r =>
      { w with
        roots := r.2
        admissions := w.admissions ++ (r.1.map fun incoming => ⟨w.epoch, incoming⟩).toList }
  | (strong, .completeAdmission index collected) =>
    w.admissions[index]?.map fun a =>
      { w with
        roots := w.roots.completeAdmission strong a.incoming collected
        admissions := w.admissions.set index { a with incoming := [] } }
  | (strong, .dropAdmission index) =>
    w.admissions[index]?.map fun a =>
      { w with
        roots := w.roots.restoreIncoming strong a.incoming
        admissions := w.admissions.eraseIdx index }
  | (_, .beginCollection) =>
    some
      (match w.roots.beginCycleCollection with
      | some roots => { w with roots := roots, guards := w.guards ++ [w.epoch] }
      | none => w)
  | (strong, .dropCollection index completed) =>
    w.guards[index]?.map fun _ =>
      { w with
        roots := w.roots.dropCycleCollection strong completed
        guards := w.guards.eraseIdx index }
  | (_, .retireCallbackRoot identity) =>
    some { w with roots := w.roots.retireVisitedCallbackRoot identity }
  | (_, .recordCallbackRoots) => some { w with roots := w.roots.recordCycleCallbackRoots }
  | (_, .dropCallbackGuard saved) => some { w with roots := w.roots.dropCycleCallbackGuard saved }
  | (_, .suppressSnapshotRoots) => some { w with roots := w.roots.suppressCycleSnapshotRoots }
  | (_, .dropSnapshotGuard) => some { w with roots := w.roots.dropCycleSnapshotGuard }
  | (_, .setEnabled enabled) =>
    some { w with roots := w.roots.setAutomaticCycleCollectionEnabled enabled }
  | (_, .initializeCollection enabled) =>
    some { w with roots := w.roots.initializeCycleCollection enabled }
  | (_, .beginRequest) =>
    some { w with roots := w.roots.beginObjectHandleRequest, epoch := w.epoch + 1 }
  | (_, .endRequest) =>
    some { w with roots := w.roots.endObjectHandleRequest, epoch := w.epoch + 1 }

/-- The root is in the buffer or held by an admission of the current request. -/
def Tracked (w : CycleWorld) (identity : Nat) : Prop :=
  identity ∈ w.roots.identities ∨
    ∃ a ∈ w.admissions, a.epoch = w.epoch ∧ ∃ c ∈ a.incoming, c.identity = identity

/-- The steps at which the buffer lets go of live roots. -/
def Retires : CycleOp → Prop
  | .dropCollection _ completed => completed = true
  | .beginRequest | .endRequest => True
  | _ => False

/-- An admission of the current request ends while registrations are taken in, and a collection
guard is dropped in the request that began the collection. -/
def Scoped (w : CycleWorld) : (Nat → Nat) × CycleOp → Prop
  | (_, .completeAdmission index _) | (_, .dropAdmission index) =>
    ∀ a ∈ w.admissions[index]?, a.epoch = w.epoch →
      w.roots.accepts = true ∧ w.roots.admission.initialized = true
  | (_, .dropCollection index _) => w.guards[index]? = some w.epoch
  | _ => True

/-- The part that holds in every state. -/
structure Sound (w : CycleWorld) : Prop where
  indexed : w.roots.Indexed
  flagged : w.roots.Flagged

/-- The part that needs scoped admissions and guards. -/
structure Settled (w : CycleWorld) : Prop where
  bounded : w.roots.Bounded
  idle : w.roots.Idle
  epochs : ∀ epoch ∈ w.guards, epoch ≤ w.epoch
  guarded : w.guards.count w.epoch = if w.roots.collecting then 1 else 0

theorem Sound.init : Sound {} := ⟨.nil, rfl⟩

theorem Settled.init : Settled {} := by
  refine ⟨?_, ?_, ?_, rfl⟩
  · intro first hf
    cases hf
  · intro hc
    cases hc
  · intro epoch he
    cases he

/-- A change of the buffer alone that keeps its structure. -/
theorem step_of_keeps {w : CycleWorld} {roots : CycleRootState} (hk : Keeps strong w.roots roots) :
    (w.Sound → Sound { w with roots := roots }) ∧
      (w.Settled → Settled { w with roots := roots }) ∧
      ∀ identity, w.Tracked identity → strong identity ≠ 0 →
        Tracked { w with roots := roots } identity := by
  refine ⟨fun h => ⟨hk.indexed, hk.flagged h.flagged⟩, fun h => ?_, ?_⟩
  · exact ⟨hk.bounded h.bounded, hk.idle h.idle, h.epochs, by rw [hk.collecting]; exact h.guarded⟩
  · rintro identity (hm | hm) hl
    · exact .inl (hk.kept identity hm hl)
    · exact .inr hm

/-- The admissions that stay keep their roots; the one that ends hands its roots back. -/
theorem tracked_of_admission_ends {w w' : CycleWorld} {a : AutomaticCycleAdmission} {index : Nat}
    {strong : Nat → Nat} (ht : w.Tracked identity) (hl : strong identity ≠ 0)
    (he : w'.epoch = w.epoch)
    (ha : w.admissions[index]? = some a)
    (hrest : ∀ j b, j ≠ index → w.admissions[j]? = some b → b ∈ w'.admissions)
    (hkept : ∀ identity ∈ w.roots.identities, strong identity ≠ 0 →
      identity ∈ w'.roots.identities)
    (hback : a.epoch = w.epoch → ∀ c ∈ a.incoming, strong c.identity ≠ 0 →
      c.identity ∈ w'.roots.identities) : w'.Tracked identity := by
  rcases ht with hm | ⟨b, hb, hbe, c, hc, rfl⟩
  · exact .inl (hkept identity hm hl)
  · obtain ⟨j, hj⟩ := List.getElem?_of_mem hb
    by_cases hji : j = index
    · subst hji
      obtain rfl := Option.some.inj (ha.symm.trans hj)
      exact .inl (hback hbe c hc hl)
    · exact .inr ⟨b, hrest j b hji hj, hbe.trans he.symm, c, hc, rfl⟩

theorem Sound.step {w w' : CycleWorld} (h : w.Sound) (hs : w.step (strong, op) = some w') :
    w'.Sound := by
  obtain ⟨hi, hf⟩ := h
  cases op with
  | register candidate =>
    cases hs
    exact (step_of_keeps (register_keeps strong hi candidate true).1.toKeeps).1 ⟨hi, hf⟩
  | pruneDeadCandidates =>
    cases hs
    exact (step_of_keeps (pruneDeadCandidates_keeps strong hi).toKeeps).1 ⟨hi, hf⟩
  | pruneDeadCycleRootStorage =>
    cases hs
    exact (step_of_keeps (pruneDeadCycleRootStorage_keeps strong hi)).1 ⟨hi, hf⟩
  | takeAdmission =>
    obtain ⟨⟨r, roots⟩, ht, rfl⟩ := Option.map_eq_some_iff.1 hs
    rcases takeAutomaticCycleAdmission_eq_some ht with ⟨_, rfl⟩ | ⟨first, _, hc, hx, hp, ha, _⟩
    · exact ⟨hi, hf⟩
    · refine ⟨?_, by simp only [Flagged, hp, ha, Option.isSome_none]⟩
      simp only [Indexed, hx]
      refine isIndexOf_indexOf (hi.nodup.sublist ?_)
      simp only [identities, hc]
      exact (List.take_sublist _ _).map _
  | completeAdmission index collected =>
    obtain ⟨a, _, rfl⟩ := Option.map_eq_some_iff.1 hs
    have hk := (completeAdmission_keeps strong hi a.incoming collected).1
    exact ⟨hk.indexed, hk.flagged hf⟩
  | dropAdmission index =>
    obtain ⟨a, _, rfl⟩ := Option.map_eq_some_iff.1 hs
    have hk := (restoreIncoming_keeps strong hi a.incoming).1
    exact ⟨hk.indexed, hk.flagged hf⟩
  | beginCollection =>
    cases hs
    unfold beginCycleCollection
    split
    · rename_i roots hb
      split at hb
      · cases hb
      · cases hb
        exact ⟨hi, rfl⟩
    · exact ⟨hi, hf⟩
  | dropCollection index completed =>
    obtain ⟨_, _, rfl⟩ := Option.map_eq_some_iff.1 hs
    cases completed with
    | false => exact ⟨hi, hf⟩
    | true =>
      refine ⟨indexed_reindex (hi.nodup.sublist ?_), hf⟩
      exact identities_filter_sublist w.roots _
  | retireCallbackRoot identity => cases hs; exact ⟨hi, hf⟩
  | recordCallbackRoots => cases hs; exact ⟨hi, hf⟩
  | dropCallbackGuard saved => cases hs; exact ⟨hi, hf⟩
  | suppressSnapshotRoots => cases hs; exact ⟨hi, hf⟩
  | dropSnapshotGuard => cases hs; exact ⟨hi, hf⟩
  | setEnabled enabled =>
    cases hs
    exact (step_of_keeps (setAutomaticCycleCollectionEnabled_keeps strong hi enabled)).1 ⟨hi, hf⟩
  | initializeCollection enabled =>
    cases hs
    exact (step_of_keeps (initializeCycleCollection_keeps strong hi enabled)).1 ⟨hi, hf⟩
  | beginRequest => cases hs; exact ⟨.nil, rfl⟩
  | endRequest => cases hs; exact ⟨.nil, rfl⟩

end CycleWorld

namespace CycleWorld
open CycleRootState

theorem Settled.resetRequest {w : CycleWorld} (h : w.Settled) (active : Bool) :
    Settled { w with roots := .resetRequest active, epoch := w.epoch + 1 } := by
  refine ⟨fun first hf => ?_, fun hc => ?_, fun epoch he => ?_, ?_⟩
  · cases hf
  · cases hc
  · exact Nat.le_succ_of_le (h.epochs epoch he)
  · refine List.count_eq_zero.2 fun hm => ?_
    have hle := h.epochs _ hm
    exact absurd hle (Nat.not_succ_le_self _)

theorem count_eraseIdx {l : List Nat} (h : l[i]? = some a) :
    (l.eraseIdx i).count a + 1 = l.count a := by
  obtain ⟨hlt, he⟩ := List.getElem?_eq_some_iff.1 h
  have hp := List.getElem_cons_eraseIdx_perm hlt
  rw [← hp.count_eq, he, List.count_cons_self]

theorem Settled.step {w w' : CycleWorld} (h : w.Settled) (hd : w.Sound)
    (ho : w.Scoped (strong, op)) (hs : w.step (strong, op) = some w') : w'.Settled := by
  have hi := hd.indexed
  cases op with
  | register candidate =>
    cases hs
    exact (step_of_keeps (register_keeps strong hi candidate true).1.toKeeps).2.1 h
  | pruneDeadCandidates =>
    cases hs
    exact (step_of_keeps (pruneDeadCandidates_keeps strong hi).toKeeps).2.1 h
  | pruneDeadCycleRootStorage =>
    cases hs
    exact (step_of_keeps (pruneDeadCycleRootStorage_keeps strong hi)).2.1 h
  | takeAdmission =>
    obtain ⟨⟨r, roots⟩, ht, rfl⟩ := Option.map_eq_some_iff.1 hs
    rcases takeAutomaticCycleAdmission_eq_some ht with ⟨_, rfl⟩ | ⟨first, _, _, _, hp, _, hcol⟩
    · exact ⟨h.bounded, h.idle, h.epochs, h.guarded⟩
    · refine ⟨fun first hf => ?_, fun _ => hp, h.epochs, by simp only [hcol]; exact h.guarded⟩
      simp only [hp] at hf
      cases hf
  | completeAdmission index collected =>
    obtain ⟨a, _, rfl⟩ := Option.map_eq_some_iff.1 hs
    have hk := (completeAdmission_keeps strong hi a.incoming collected).1
    exact ⟨hk.bounded h.bounded, hk.idle h.idle, h.epochs, by
      simp only [hk.collecting]; exact h.guarded⟩
  | dropAdmission index =>
    obtain ⟨a, _, rfl⟩ := Option.map_eq_some_iff.1 hs
    have hk := (restoreIncoming_keeps strong hi a.incoming).1
    exact ⟨hk.bounded h.bounded, hk.idle h.idle, h.epochs, by
      simp only [hk.collecting]; exact h.guarded⟩
  | beginCollection =>
    cases hs
    unfold beginCycleCollection
    split
    · rename_i roots hb
      split at hb
      · cases hb
      · rename_i hcol
        cases hb
        simp only [Bool.or_eq_true, Bool.not_eq_true', not_or, Bool.not_eq_true] at hcol
        have hg := h.guarded
        simp only [hcol.1, Bool.false_eq_true, ↓reduceIte] at hg
        refine ⟨fun first hf => ?_, fun _ => rfl, fun epoch he => ?_, ?_⟩
        · cases hf
        · rcases List.mem_append.1 he with he | he
          · exact h.epochs epoch he
          · exact (List.mem_singleton.1 he).le
        · simp [List.count_append, hg]
    · exact h
  | dropCollection index completed =>
    obtain ⟨_, _, rfl⟩ := Option.map_eq_some_iff.1 hs
    have hcount := count_eraseIdx (show w.guards[index]? = some w.epoch from ho)
    have hcol : w.roots.collecting = true := by
      by_contra hn
      have hg := h.guarded
      rw [if_neg hn] at hg
      omega
    have hnone := h.idle hcol
    have hg := h.guarded
    rw [if_pos hcol] at hg
    have hlast : (w.guards.eraseIdx index).count w.epoch = 0 := by omega
    have hep : ∀ epoch ∈ w.guards.eraseIdx index, epoch ≤ w.epoch := fun epoch he =>
      h.epochs epoch (List.mem_of_mem_eraseIdx he)
    cases completed with
    | false =>
      refine ⟨h.bounded, fun hc => ?_, hep, hlast⟩
      cases hc
    | true =>
      refine ⟨fun first hf => ?_, fun hc => ?_, hep, hlast⟩
      · exact absurd (hnone.symm.trans hf) (by simp)
      · cases hc
  | retireCallbackRoot identity => cases hs; exact ⟨h.bounded, h.idle, h.epochs, h.guarded⟩
  | recordCallbackRoots => cases hs; exact ⟨h.bounded, h.idle, h.epochs, h.guarded⟩
  | dropCallbackGuard saved => cases hs; exact ⟨h.bounded, h.idle, h.epochs, h.guarded⟩
  | suppressSnapshotRoots => cases hs; exact ⟨h.bounded, h.idle, h.epochs, h.guarded⟩
  | dropSnapshotGuard => cases hs; exact ⟨h.bounded, h.idle, h.epochs, h.guarded⟩
  | setEnabled enabled =>
    cases hs
    exact (step_of_keeps (setAutomaticCycleCollectionEnabled_keeps strong hi enabled)).2.1 h
  | initializeCollection enabled =>
    cases hs
    exact (step_of_keeps (initializeCycleCollection_keeps strong hi enabled)).2.1 h
  | beginRequest => cases hs; exact h.resetRequest true
  | endRequest => cases hs; exact h.resetRequest false

/-- Outside of completed passes and request boundaries no live root is lost. -/
theorem Tracked.step {w w' : CycleWorld} {strong : Nat → Nat} (hd : w.Sound)
    (ho : w.Scoped (strong, op)) (hr : ¬ Retires op) (hs : w.step (strong, op) = some w')
    (ht : w.Tracked identity) (hl : strong identity ≠ 0) : w'.Tracked identity := by
  have hi := hd.indexed
  cases op with
  | register candidate =>
    cases hs
    exact (step_of_keeps (register_keeps strong hi candidate true).1.toKeeps).2.2 _ ht hl
  | pruneDeadCandidates =>
    cases hs
    exact (step_of_keeps (pruneDeadCandidates_keeps strong hi).toKeeps).2.2 _ ht hl
  | pruneDeadCycleRootStorage =>
    cases hs
    exact (step_of_keeps (pruneDeadCycleRootStorage_keeps strong hi)).2.2 _ ht hl
  | takeAdmission =>
    obtain ⟨⟨r, roots⟩, hta, rfl⟩ := Option.map_eq_some_iff.1 hs
    rcases takeAutomaticCycleAdmission_eq_some hta with ⟨rfl, rfl⟩ | ⟨first, rfl, hc, _⟩
    · simpa [Tracked] using ht
    · rcases ht with hm | ⟨a, ha, hae, hin⟩
      · obtain ⟨c, hmem, rfl⟩ := List.mem_map.1 hm
        rw [← List.take_append_drop first w.roots.candidates] at hmem
        rcases List.mem_append.1 hmem with hmem | hmem
        · refine .inl ?_
          simp only [identities, hc]
          exact List.mem_map_of_mem hmem
        · exact .inr ⟨⟨w.epoch, w.roots.candidates.drop first⟩, by simp, rfl, c, hmem, rfl⟩
      · exact .inr ⟨a, List.mem_append_left _ ha, hae, hin⟩
  | completeAdmission index collected =>
    obtain ⟨a, ha, rfl⟩ := Option.map_eq_some_iff.1 hs
    obtain ⟨hk, hback⟩ := completeAdmission_keeps strong hi a.incoming collected
    refine tracked_of_admission_ends ht hl rfl ha (fun j b hj hb => ?_) hk.kept fun he => ?_
    · refine List.mem_of_getElem? (i := j) ?_
      rw [List.getElem?_set_ne (Ne.symm hj), hb]
    · obtain ⟨hacc, hini⟩ := ho a ha he
      exact hback hacc hini
  | dropAdmission index =>
    obtain ⟨a, ha, rfl⟩ := Option.map_eq_some_iff.1 hs
    obtain ⟨hk, hback⟩ := restoreIncoming_keeps strong hi a.incoming
    refine tracked_of_admission_ends ht hl rfl ha (fun j b hj hb => ?_) hk.kept fun he => ?_
    · exact List.mem_eraseIdx_iff_getElem?.2 ⟨j, hj, hb⟩
    · obtain ⟨hacc, hini⟩ := ho a ha he
      exact hback hacc hini
  | beginCollection =>
    cases hs
    unfold beginCycleCollection
    split
    · rename_i roots hb
      split at hb
      · cases hb
      · cases hb
        exact ht
    · exact ht
  | dropCollection index completed =>
    obtain ⟨_, _, rfl⟩ := Option.map_eq_some_iff.1 hs
    cases completed with
    | false => exact ht
    | true => exact absurd rfl hr
  | retireCallbackRoot identity => cases hs; exact ht
  | recordCallbackRoots => cases hs; exact ht
  | dropCallbackGuard saved => cases hs; exact ht
  | suppressSnapshotRoots => cases hs; exact ht
  | dropSnapshotGuard => cases hs; exact ht
  | setEnabled enabled =>
    cases hs
    exact (step_of_keeps (setAutomaticCycleCollectionEnabled_keeps strong hi enabled)).2.2 _ ht hl
  | initializeCollection enabled =>
    cases hs
    exact (step_of_keeps (initializeCycleCollection_keeps strong hi enabled)).2.2 _ ht hl
  | beginRequest => exact absurd trivial hr
  | endRequest => exact absurd trivial hr

/-- In every run the buffer is indexed and flagged. When admissions and guards are scoped, the
pending start also lies in the buffer and a live root leaves it only through a completed pass or
a request boundary. -/
theorem cycle_roots_run (inputs : List ((Nat → Nat) × CycleOp)) (w : CycleWorld)
    (hr : run step {} inputs = some w) :
    (w.roots.identities.Nodup ∧ IsIndexOf w.roots.indices w.roots.identities ∧
        (w.roots.automaticCyclePending = true ↔ w.roots.admission.pendingStart.isSome)) ∧
      (Meets step Scoped {} inputs →
        (∀ first, w.roots.admission.pendingStart = some first →
          first ≤ w.roots.candidates.length) ∧
        ∀ strong op w', w.Scoped (strong, op) → ¬ Retires op →
          w.step (strong, op) = some w' → ∀ identity, w.Tracked identity → strong identity ≠ 0 →
            w'.Tracked identity) := by
  have hd : w.Sound := run_invariant (fun _ _ _ h _ hs => Sound.step h hs) Sound.init
    (meets_of_forall (fun _ _ => trivial) _ _) hr
  refine ⟨⟨hd.indexed.nodup, hd.indexed, by rw [hd.flagged]⟩, fun hm => ?_⟩
  have hstep : ∀ s i s', Sound s ∧ Settled s → Scoped s i → step s i = some s' →
      Sound s' ∧ Settled s' := fun _ _ _ h ho hs => ⟨h.1.step hs, h.2.step h.1 ho hs⟩
  have hw := run_invariant hstep ⟨Sound.init, Settled.init⟩ hm hr
  exact ⟨hw.2.bounded, fun strong op w' ho hn hs identity ht hl =>
    Tracked.step hd ho hn hs ht hl⟩

/-- A live root registered in a request is still tracked after the dead ones are pruned. -/
theorem cycle_roots_run_prune :
    ∃ inputs w w', run step {} inputs = some w ∧ Meets step Scoped {} inputs ∧
      w.step (fun k => if k = 5 then 1 else 0, .pruneDeadCandidates) = some w' ∧
      w.roots.identities = [7, 5] ∧ w'.Tracked 5 := by
  have hm : Meets step Scoped {} [(fun _ => 1, .beginRequest), (fun _ => 1, .register (.object 7)),
      (fun _ => 1, .register (.array 5))] :=
    ⟨trivial, trivial, trivial, trivial⟩
  refine ⟨_, _, _, rfl, hm, rfl, by decide, ?_⟩
  exact ((cycle_roots_run _ _ rfl).2 hm).2 (fun k => if k = 5 then 1 else 0) .pruneDeadCandidates
    _ trivial id rfl 5 (.inl (by decide)) (by decide)

/-- An active buffer with the arrays at addresses below `n`. -/
def filled (n : Nat) : CycleRootState :=
  { active := true, candidates := (List.range n).map .array, indices := indexOf (List.range n) }

theorem filled_identities (n : Nat) : (filled n).identities = List.range n := by
  have : CycleCandidate.identity ∘ CycleCandidate.array = id := rfl
  simp [identities, filled, this]

theorem filled_push (n : Nat) : (filled n).push (.array n) = filled (n + 1) := by
  simp [push, filled, List.range_succ, indexOf, indexFrom_append, indexFrom,
    CycleCandidate.identity]

theorem filled_prune (n : Nat) : (filled n).pruneDeadCandidates (fun _ => 1) = filled n := by
  have h : (filled n).identities = List.range n := filled_identities n
  simp only [identities, filled] at h
  simp [pruneDeadCandidates, reindex, identities, filled, h]

theorem filled_indexed (n : Nat) : (filled n).Indexed := by
  simp only [Indexed, filled_identities]
  exact isIndexOf_indexOf List.nodup_range

/-- A root with a new address goes through to the admission test. -/
theorem register_filled (n : Nat) :
    (filled n).registerCycleCandidate (fun _ => 1) (.array n) =
      ((filled n).requestAutomatic (fun _ => 1) true).push (.array n) := by
  have hnot : n ∉ (filled n).identities := by simp [filled_identities]
  have hnone := (filled_indexed n).lookup_eq_none.2 hnot
  have hlast : (filled n).candidates.getLast?.any (·.identity = n) = false := by
    rw [Option.any_eq_false]
    rintro last hl
    have hmem : last.identity ∈ (filled n).identities :=
      List.mem_map_of_mem (List.mem_of_getLast? hl)
    exact decide_eq_false fun he => hnot (he ▸ hmem)
  have hkept : (filled n).admitIdentity n = filled n := rfl
  have haccepts : (filled n).accepts = true := rfl
  have hinit : (filled n).admission.initialized = true := rfl
  have hid : (CycleCandidate.array n).identity = n := rfl
  unfold registerCycleCandidate registerCycleCandidateWithAdmission
  simp only [hid, hkept, haccepts, hinit, hlast, Bool.not_true, Bool.false_eq_true, ↓reduceIte]
  rw [hid, hnone]

theorem register_filled_below (h : n < 10000) :
    (filled n).registerCycleCandidate (fun _ => 1) (.array n) = filled (n + 1) := by
  have hfull : (filled n).bufferFull = false := by
    have : saturatingAdd n 1 < 10001 := by
      unfold saturatingAdd
      omega
    simpa [bufferFull, filled] using this
  rw [register_filled, requestAutomatic, hfull]
  simpa using filled_push n

/-- A buffer whose last root is pending. -/
def pendingRoots (n : Nat) : CycleRootState :=
  { filled (n + 1) with
    admission := { pendingStart := some n }
    automaticCyclePending := true }

theorem register_filled_full (h : n = 10000) :
    (filled n).registerCycleCandidate (fun _ => 1) (.array n) = pendingRoots n := by
  have hlen : (filled n).candidates.length = n := by simp [filled]
  have hfull : (filled n).bufferFull = true := by
    unfold bufferFull
    rw [hlen, h]
    decide
  rw [register_filled, requestAutomatic, filled_prune, hfull]
  simp only [hfull, hlen, ↓reduceIte]
  unfold pendingRoots
  rw [← filled_push n]
  rfl

/-- The registrations that fill a buffer. -/
def fill (n : Nat) : List ((Nat → Nat) × CycleOp) :=
  (List.range n).map fun k => (fun _ => 1, .register (.array k))

theorem fill_succ (n : Nat) : fill (n + 1) = fill n ++ [(fun _ => 1, .register (.array n))] := by
  simp [fill, List.range_succ]

theorem run_fill {w : CycleWorld} (hw : w.roots = filled 0) (h : n ≤ 10000) :
    run step w (fill n) = some { w with roots := filled n } := by
  induction n with
  | zero => simp [fill, ← hw]
  | succ n ih =>
    rw [fill_succ, run_append, ih (by omega)]
    simp only [Option.bind_some, run, step, register_filled_below (show n < 10000 by omega)]

theorem run_fill_full {w : CycleWorld} (hw : w.roots = filled 0) (h : n = 10000) :
    run step w (fill (n + 1)) = some { w with roots := pendingRoots n } := by
  rw [fill_succ, run_append, run_fill hw h.le]
  simp only [Option.bind_some, run, step, register_filled_full h]

/-- The pending suffix is the one root registered last. -/
theorem pendingRoots_take (n : Nat) :
    (pendingRoots n).takeAutomaticCycleAdmission = some (some [.array n], filled n) := by
  have hsplit : (pendingRoots n).candidates = (filled n).candidates ++ [.array n] := by
    simp [pendingRoots, filled, List.range_succ]
  have hn : (filled n).candidates.length = n := by simp [filled]
  have hpend : (pendingRoots n).admission.pendingStart = some n := rfl
  have hready : ((pendingRoots n).collecting || !(pendingRoots n).active) = false := rfl
  have hreindex : indexOf (filled n).identities = indexOf (List.range n) := by
    rw [filled_identities]
  have hle : n ≤ ((filled n).candidates ++ [CycleCandidate.array n]).length := by simp [hn]
  unfold takeAutomaticCycleAdmission
  simp only [hready, hpend, hsplit, List.drop_left' hn, List.take_left' hn, hle,
    Bool.false_eq_true, ↓reduceIte]
  unfold reindex
  exact congrArg (fun m => some (some [CycleCandidate.array n], { filled n with indices := m }))
    hreindex

/-- An admission dropped inside a collection loses its live incoming root, and a guard that
outlives its request leaves the pending start of the next one behind the end of the buffer. -/
theorem cycle_roots_run_unscoped :
    (¬ ∀ inputs w strong op w', run step {} inputs = some w → ¬ Retires op →
      w.step (strong, op) = some w' → ∀ identity, w.Tracked identity → strong identity ≠ 0 →
        w'.Tracked identity) ∧
    ¬ ∀ inputs w, run step {} inputs = some w → w.roots.Bounded := by
  obtain ⟨n, hn⟩ : ∃ n, n = 10000 := ⟨_, rfl⟩
  constructor
  · intro h
    have hr : run step {} ([(fun _ => 1, .beginRequest)] ++ fill (n + 1) ++
        [(fun _ => 1, .takeAdmission), (fun _ => 1, .beginCollection)]) =
        some
          { roots := { filled n with collecting := true }
            admissions := [⟨1, [.array n]⟩]
            guards := [1]
            epoch := 1 } := by
      rw [List.append_assoc, run_append]
      have hb : run step {} [(fun _ => 1, .beginRequest)] =
        some { roots := filled 0, epoch := 1 } := rfl
      rw [hb, Option.bind_some, run_append, run_fill_full rfl hn, Option.bind_some]
      simp only [run, step, pendingRoots_take]
      rfl
    have ht := h _ _ (fun _ => 1) (.dropAdmission 0) _ hr id rfl n
      (.inr ⟨⟨1, [.array n]⟩, by simp, rfl, .array n, by simp, rfl⟩) Nat.one_ne_zero
    rcases ht with hm | ⟨a, ha, _⟩
    · have hids : n ∈ (filled n).identities := hm
      simp [filled_identities] at hids
    · cases ha
  · intro h
    have hr : run step {} ([(fun _ => 1, .beginCollection), (fun _ => 1, .endRequest),
        (fun _ => 1, .beginRequest)] ++ fill (n + 1) ++ [(fun _ => 1, .dropCollection 0 true)]) =
        some { roots := (pendingRoots n).dropCycleCollection (fun _ => 1) true, epoch := 2 } := by
      have hb : run step {} [(fun _ => 1, .beginCollection), (fun _ => 1, .endRequest),
        (fun _ => 1, .beginRequest)] = some { roots := filled 0, guards := [0], epoch := 2 } := rfl
      rw [List.append_assoc, run_append, hb, Option.bind_some, run_append, run_fill_full rfl hn]
      rfl
    have hbound := h _ _ hr n rfl
    have hempty : ((pendingRoots n).dropCycleCollection (fun _ => 1) true).candidates = [] := by
      simp [dropCycleCollection, reindex, pendingRoots, filled]
    rw [hempty, List.length_nil, hn] at hbound
    omega

end CycleWorld

end Rphp.Value
