import Mathlib.Data.Finset.Basic
import Rphp.Lib.Assoc
import Rphp.Lib.Run
import Rphp.Machine

namespace Rphp.Value
open Rphp.Lib
set_option autoImplicit true

/-- A weak record of a possible cycle root. While the record exists its address is not reused. -/
inductive CycleCandidate where
  | array (owner : Nat)
  | object (owner : Nat)
  | reference (owner : Nat)
  | closure (owner : Nat)
deriving DecidableEq, Repr

def CycleCandidate.identity : CycleCandidate → Nat
  | .array owner | .object owner | .reference owner | .closure owner => owner

structure CycleAdmissionState where
  enabled : Bool := true
  initialized : Bool := true
  threshold : Nat := 10001
  pendingStart : Option Nat := none
deriving DecidableEq, Repr

/-- The possible-root buffer of a thread, with the flag the interpreter polls. -/
structure CycleRootState where
  active : Bool := false
  collecting : Bool := false
  recordingCallbackRoots : Bool := false
  snapshotDepth : Nat := 0
  callbackRoots : Finset Nat := ∅
  candidates : List CycleCandidate := []
  indices : AList (fun _ : Nat => Nat) := ∅
  unadmitted : Option (AList (fun _ : Nat => CycleCandidate)) := none
  admission : CycleAdmissionState := {}
  automaticCyclePending : Bool := false

namespace CycleRootState

def identities (s : CycleRootState) : List Nat := s.candidates.map CycleCandidate.identity

def reindex (s : CycleRootState) : CycleRootState :=
  { s with indices := indexOf s.identities }

/-- Drop the candidates without an owner. The start of the pending suffix moves along. -/
def pruneDeadCandidates (strong : Nat → Nat) (s : CycleRootState) : CycleRootState :=
  let keep (c : CycleCandidate) : Bool := strong c.identity != 0
  reindex
    { s with
      candidates := s.candidates.filter keep
      admission :=
        { s.admission with
          pendingStart := s.admission.pendingStart.map fun boundary =>
            ((s.candidates.take boundary).filter keep).length } }

/-- Registrations are taken in: not between requests, in a snapshot walk or inside a collection,
except while its callbacks run. -/
def accepts (s : CycleRootState) : Bool :=
  s.active && s.snapshotDepth == 0 && !(s.collecting && !s.recordingCallbackRoots)

def replaceDead (strong : Nat → Nat) (s : CycleRootState) (index : Nat)
    (candidate : CycleCandidate) : CycleRootState :=
  match s.candidates[index]? with
  | some old =>
    if strong old.identity = 0 then { s with candidates := s.candidates.set index candidate }
    else s
  | none => s

def bufferFull (s : CycleRootState) : Bool :=
  s.admission.threshold ≤ saturatingAdd s.candidates.length 1

/-- A full buffer asks the interpreter for a collection; the incoming root starts the next one. -/
def requestAutomatic (strong : Nat → Nat) (s : CycleRootState) (allowAutomatic : Bool) :
    CycleRootState :=
  if allowAutomatic && !s.collecting && s.admission.enabled && s.admission.pendingStart.isNone &&
      s.bufferFull then
    let s := s.pruneDeadCandidates strong
    if s.bufferFull then
      { s with
        admission := { s.admission with pendingStart := some s.candidates.length }
        automaticCyclePending := true }
    else s
  else s

def push (s : CycleRootState) (candidate : CycleCandidate) : CycleRootState :=
  { s with
    indices := s.indices.insert candidate.identity s.candidates.length
    candidates := s.candidates ++ [candidate] }

/-- The bookkeeping of an accepted release before the buffer is looked at. -/
def admitIdentity (s : CycleRootState) (identity : Nat) : CycleRootState :=
  { s with
    unadmitted := s.unadmitted.map (AList.erase identity)
    callbackRoots := if s.collecting then insert identity s.callbackRoots else s.callbackRoots }

def registerCycleCandidateWithAdmission (strong : Nat → Nat) (s : CycleRootState)
    (candidate : CycleCandidate) (allowAutomatic : Bool) : CycleRootState :=
  let identity := candidate.identity
  if !s.accepts then s
  else if !s.admission.initialized then
    { s with unadmitted := some ((s.unadmitted.getD ∅).insert identity candidate) }
  else
    let s := s.admitIdentity identity
    if s.candidates.getLast?.any (·.identity = identity) then
      s.replaceDead strong (s.candidates.length - 1) candidate
    else
      match s.indices.lookup identity with
      | some index => s.replaceDead strong index candidate
      | none => (s.requestAutomatic strong allowAutomatic).push candidate

def registerCycleCandidate (strong : Nat → Nat) (s : CycleRootState)
    (candidate : CycleCandidate) : CycleRootState :=
  s.registerCycleCandidateWithAdmission strong candidate true

def setAutomaticCycleCollectionEnabled (s : CycleRootState) (enabled : Bool) : CycleRootState :=
  { s with
    admission :=
      { s.admission with
        enabled := enabled
        initialized := s.admission.initialized || enabled
        pendingStart := if enabled then s.admission.pendingStart else none }
    automaticCyclePending := enabled && s.automaticCyclePending }

def initializeCycleCollection (s : CycleRootState) (enabled : Bool) : CycleRootState :=
  let s := s.setAutomaticCycleCollectionEnabled enabled
  { s with admission := { s.admission with initialized := enabled } }

/-- Register the incoming roots again, those that still have an owner. -/
def restoreIncoming (strong : Nat → Nat) (s : CycleRootState) (incoming : List CycleCandidate) :
    CycleRootState :=
  incoming.foldl (fun s candidate =>
    if strong candidate.identity ≠ 0 then
      s.registerCycleCandidateWithAdmission strong candidate false
    else s) s

/-- The new threshold, then the incoming roots. -/
def completeAdmission (strong : Nat → Nat) (s : CycleRootState) (incoming : List CycleCandidate)
    (collected : Nat) : CycleRootState :=
  let threshold :=
    if collected < 100 ∨ s.admission.threshold ≤ s.candidates.length then
      saturatingAdd s.admission.threshold 10000
    else
      max (s.admission.threshold - 10000) 10001
  restoreIncoming strong { s with admission := { s.admission with threshold := threshold } }
    incoming

/-- The pending suffix leaves the buffer. A start behind the end of the buffer panics. -/
def takeAutomaticCycleAdmission (s : CycleRootState) :
    Option (Option (List CycleCandidate) × CycleRootState) :=
  if s.collecting || !s.active then some (none, s)
  else
    match s.admission.pendingStart with
    | none => some (none, s)
    | some first =>
      if first ≤ s.candidates.length then
        some (some (s.candidates.drop first), reindex
          { s with
            candidates := s.candidates.take first
            admission := { s.admission with pendingStart := none }
            automaticCyclePending := false })
      else none

def beginCycleCollection (s : CycleRootState) : Option CycleRootState :=
  if s.collecting || !s.admission.initialized then none
  else
    some
      { s with
        collecting := true
        admission := { s.admission with pendingStart := none }
        automaticCyclePending := false
        callbackRoots := ∅ }

/-- A completed pass keeps only the live roots its callbacks published. -/
def dropCycleCollection (strong : Nat → Nat) (s : CycleRootState) (completed : Bool) :
    CycleRootState :=
  let s := { s with collecting := false, recordingCallbackRoots := false }
  if completed then
    reindex
      { s with
        candidates := s.candidates.filter fun c =>
          c.identity ∈ s.callbackRoots && strong c.identity != 0
        callbackRoots := ∅ }
  else s

def pruneDeadCycleRootStorage (strong : Nat → Nat) (s : CycleRootState) : CycleRootState :=
  if s.collecting then s
  else
    let s := s.pruneDeadCandidates strong
    if s.candidates = [] then { s with indices := ∅ } else s.reindex

def retireVisitedCallbackRoot (s : CycleRootState) (identity : Nat) : CycleRootState :=
  { s with callbackRoots := s.callbackRoots.erase identity }

def recordCycleCallbackRoots (s : CycleRootState) : CycleRootState :=
  { s with recordingCallbackRoots := true }

/-- A dropped callback guard puts back what it found. -/
def dropCycleCallbackGuard (s : CycleRootState) (saved : Bool) : CycleRootState :=
  { s with recordingCallbackRoots := saved }

/-- The depth is a machine word: at either end it wraps. -/
def suppressCycleSnapshotRoots (s : CycleRootState) : CycleRootState :=
  { s with snapshotDepth := if s.snapshotDepth = usizeMax then 0 else s.snapshotDepth + 1 }

def dropCycleSnapshotGuard (s : CycleRootState) : CycleRootState :=
  { s with snapshotDepth := if s.snapshotDepth = 0 then usizeMax else s.snapshotDepth - 1 }

/-- Both request boundaries reset the buffer; they differ in whether it is active afterwards. -/
def resetRequest (active : Bool) : CycleRootState := { active := active }

def beginObjectHandleRequest (_ : CycleRootState) : CycleRootState := resetRequest true

def endObjectHandleRequest (_ : CycleRootState) : CycleRootState := resetRequest false

end CycleRootState

namespace CycleRootState

/-- Identities are distinct and the index table has exactly their positions. -/
def Indexed (s : CycleRootState) : Prop := IsIndexOf s.indices s.identities

/-- The polled flag says whether a suffix of the buffer is pending. -/
def Flagged (s : CycleRootState) : Prop :=
  s.automaticCyclePending = s.admission.pendingStart.isSome

def Bounded (s : CycleRootState) : Prop :=
  ∀ first, s.admission.pendingStart = some first → first ≤ s.candidates.length

/-- Nothing is pending while a collection runs. -/
def Idle (s : CycleRootState) : Prop := s.collecting = true → s.admission.pendingStart = none

/-- What a step between collections preserves: the structure of the buffer and every root with
an owner. -/
structure Keeps (strong : Nat → Nat) (s s' : CycleRootState) : Prop where
  indexed : s'.Indexed
  flagged : s.Flagged → s'.Flagged
  bounded : s.Bounded → s'.Bounded
  idle : s.Idle → s'.Idle
  kept : ∀ identity ∈ s.identities, strong identity ≠ 0 → identity ∈ s'.identities
  collecting : s'.collecting = s.collecting

/-- Registering and pruning also leave whether registrations are taken in. -/
structure KeepsMode (strong : Nat → Nat) (s s' : CycleRootState) : Prop
    extends Keeps strong s s' where
  accepts : s'.accepts = s.accepts
  initialized : s'.admission.initialized = s.admission.initialized

theorem KeepsMode.refl (h : Indexed s) : KeepsMode strong s s :=
  ⟨⟨h, id, id, id, fun _ h _ => h, rfl⟩, rfl, rfl⟩

theorem Keeps.trans (h : Keeps strong s t) (h' : Keeps strong t u) : Keeps strong s u where
  indexed := h'.indexed
  flagged hs := h'.flagged (h.flagged hs)
  bounded hs := h'.bounded (h.bounded hs)
  idle hs := h'.idle (h.idle hs)
  kept identity hi hl := h'.kept identity (h.kept identity hi hl) hl
  collecting := h'.collecting.trans h.collecting

theorem KeepsMode.trans (h : KeepsMode strong s t) (h' : KeepsMode strong t u) :
    KeepsMode strong s u :=
  ⟨h.toKeeps.trans h'.toKeeps, h'.accepts.trans h.accepts, h'.initialized.trans h.initialized⟩

theorem indexed_reindex (h : s.identities.Nodup) : (reindex s).Indexed := isIndexOf_indexOf h

theorem identities_filter_sublist (s : CycleRootState) (p : CycleCandidate → Bool) :
    ((s.candidates.filter p).map CycleCandidate.identity).Sublist s.identities :=
  List.filter_sublist.map _

theorem pruneDeadCandidates_keeps (strong : Nat → Nat) (h : s.Indexed) :
    KeepsMode strong s (s.pruneDeadCandidates strong) where
  indexed := indexed_reindex (h.nodup.sublist (identities_filter_sublist s _))
  flagged hs := by
    simp only [Flagged, pruneDeadCandidates, reindex, Option.isSome_map] at hs ⊢
    exact hs
  bounded _ first hf := by
    obtain ⟨boundary, _, rfl⟩ := Option.map_eq_some_iff.1 hf
    exact ((List.take_sublist _ _).filter _).length_le
  idle hs hc := by
    simp only [pruneDeadCandidates, reindex, hs hc, Option.map_none]
  kept identity hi hl := by
    obtain ⟨c, hc, rfl⟩ := List.mem_map.1 hi
    exact List.mem_map.2 ⟨c, List.mem_filter.2 ⟨hc, by simpa using hl⟩, rfl⟩
  collecting := rfl
  accepts := rfl
  initialized := rfl

theorem admitIdentity_keeps (strong : Nat → Nat) (h : s.Indexed) (identity : Nat) :
    KeepsMode strong s (s.admitIdentity identity) :=
  ⟨⟨h, id, id, id, fun _ h _ => h, rfl⟩, rfl, rfl⟩

theorem requestAutomatic_keeps (strong : Nat → Nat) (h : s.Indexed) (allowAutomatic : Bool) :
    KeepsMode strong s (s.requestAutomatic strong allowAutomatic) := by
  have hp := pruneDeadCandidates_keeps strong h
  unfold requestAutomatic
  split
  · rename_i hcond
    simp only [Bool.and_eq_true, Bool.not_eq_true'] at hcond
    simp only
    split
    · refine ⟨⟨hp.indexed, fun _ => rfl, fun _ first hf => ?_, fun _ hc => ?_, hp.kept, rfl⟩, rfl,
        rfl⟩
      · exact (Option.some.inj hf).ge
      · have hc' : s.collecting = true := hc
        rw [hcond.1.1.1.2] at hc'
        cases hc'
    · exact hp
  · exact .refl h

theorem push_keeps (strong : Nat → Nat) (h : s.Indexed)
    (hnot : candidate.identity ∉ s.identities) : KeepsMode strong s (s.push candidate) where
  indexed := by
    simpa [Indexed, push, identities] using IsIndexOf.push h hnot
  flagged := id
  bounded hs first hf := by
    simp only [push, List.length_append]
    exact Nat.le_add_right_of_le (hs first hf)
  idle := id
  kept identity hi _ := by
    simp only [identities, push, List.map_append, List.mem_append]
    exact .inl hi
  collecting := rfl
  accepts := rfl
  initialized := rfl

theorem replaceDead_identities {s : CycleRootState} (strong : Nat → Nat)
    (hi : s.identities[index]? = some (CycleCandidate.identity candidate)) :
    (s.replaceDead strong index candidate).identities = s.identities := by
  unfold replaceDead
  split
  · split
    · simp only [identities, List.map_set]
      obtain ⟨hlt, he⟩ := List.getElem?_eq_some_iff.1 hi
      rw [← he]
      exact List.set_getElem_self hlt
    · rfl
  · rfl

theorem replaceDead_keeps (strong : Nat → Nat) (h : s.Indexed)
    (hi : s.identities[index]? = some candidate.identity) :
    KeepsMode strong s (s.replaceDead strong index candidate) := by
  have hid := replaceDead_identities strong hi
  have hlen : (s.replaceDead strong index candidate).candidates.length = s.candidates.length := by
    simpa only [identities, List.length_map] using congrArg List.length hid
  have hrest : (s.replaceDead strong index candidate).indices = s.indices ∧
      (s.replaceDead strong index candidate).admission = s.admission ∧
      (s.replaceDead strong index candidate).automaticCyclePending = s.automaticCyclePending ∧
      (s.replaceDead strong index candidate).collecting = s.collecting ∧
      (s.replaceDead strong index candidate).accepts = s.accepts := by
    unfold replaceDead
    split
    · split <;> exact ⟨rfl, rfl, rfl, rfl, rfl⟩
    · exact ⟨rfl, rfl, rfl, rfl, rfl⟩
  obtain ⟨hind, hadm, hpend, hcol, hacc⟩ := hrest
  refine ⟨⟨?_, ?_, ?_, ?_, ?_, hcol⟩, hacc, by rw [hadm]⟩
  · simpa only [Indexed, hind, hid] using h
  · simp only [Flagged, hpend, hadm, imp_self]
  · simp only [Bounded, hadm, hlen, imp_self]
  · simp only [Idle, hcol, hadm, imp_self]
  · simp only [hid]
    exact fun _ hm _ => hm

/-- A registration that is taken in leaves its root in the buffer. -/
theorem register_keeps (strong : Nat → Nat) (h : Indexed s) (candidate : CycleCandidate)
    (allowAutomatic : Bool) :
    KeepsMode strong s (s.registerCycleCandidateWithAdmission strong candidate allowAutomatic) ∧
      (s.accepts = true → s.admission.initialized = true → candidate.identity ∈
        (s.registerCycleCandidateWithAdmission strong candidate allowAutomatic).identities) := by
  unfold registerCycleCandidateWithAdmission
  simp only
  split
  · rename_i ha
    refine ⟨.refl h, fun ha' => ?_⟩
    simp [ha'] at ha
  · split
    · rename_i hn
      refine ⟨⟨⟨h, id, id, id, fun _ h _ => h, rfl⟩, rfl, rfl⟩, fun _ hi => ?_⟩
      simp [hi] at hn
    · have hkept := admitIdentity_keeps strong h candidate.identity
      have hident : (s.admitIdentity candidate.identity).identities = s.identities := rfl
      split
      · rename_i hlast
        have hget : (s.admitIdentity candidate.identity).identities[
            (s.admitIdentity candidate.identity).candidates.length - 1]? = some candidate.identity := by
          obtain ⟨last, hl, he⟩ := (Option.any_eq_true _ _).1 hlast
          have := List.getLast?_eq_getElem? ▸ hl
          simp only [identities, List.getElem?_map, this, Option.map_some, Option.some.injEq]
          simpa using he
        refine ⟨hkept.trans (replaceDead_keeps strong hkept.indexed hget), fun _ _ => ?_⟩
        rw [replaceDead_identities strong hget]
        exact List.mem_of_getElem? hget
      · split
        · rename_i index hidx
          have hget := (hkept.indexed _ _).1 hidx
          refine ⟨hkept.trans (replaceDead_keeps strong hkept.indexed hget), fun _ _ => ?_⟩
          rw [replaceDead_identities strong hget]
          exact List.mem_of_getElem? hget
        · rename_i hnone
          have hnot : candidate.identity ∉ (s.admitIdentity candidate.identity).identities :=
            hkept.indexed.lookup_eq_none.1 hnone
          have hreq := requestAutomatic_keeps strong hkept.indexed allowAutomatic
          have hnot' : candidate.identity ∉ ((s.admitIdentity candidate.identity).requestAutomatic strong
              allowAutomatic).identities := by
            intro hm
            apply hnot
            revert hm
            unfold requestAutomatic
            split
            · simp only
              split <;> exact fun hm => (identities_filter_sublist _ _).subset hm
            · exact id
          refine ⟨hkept.trans (hreq.trans (push_keeps strong hreq.indexed hnot')), fun _ _ => ?_⟩
          simp [identities, push]

theorem restoreIncoming_keeps (strong : Nat → Nat) (h : Indexed s)
    (incoming : List CycleCandidate) :
    KeepsMode strong s (s.restoreIncoming strong incoming) ∧
      (s.accepts = true → s.admission.initialized = true → ∀ c ∈ incoming,
        strong c.identity ≠ 0 → c.identity ∈ (s.restoreIncoming strong incoming).identities) := by
  induction incoming generalizing s with
  | nil => exact ⟨.refl h, fun _ _ c hc => by cases hc⟩
  | cons candidate incoming ih =>
    unfold restoreIncoming
    rw [List.foldl_cons]
    by_cases hl : strong candidate.identity ≠ 0
    · rw [if_pos hl]
      obtain ⟨hk, hin⟩ := register_keeps strong h candidate false
      obtain ⟨hks, hins⟩ := ih hk.indexed
      refine ⟨hk.trans hks, fun ha hi c hc hlive => ?_⟩
      rcases List.mem_cons.1 hc with rfl | hc
      · exact hks.kept _ (hin ha hi) hlive
      · exact hins (hk.accepts.trans ha) (hk.initialized.trans hi) c hc hlive
    · rw [if_neg hl]
      obtain ⟨hks, hins⟩ := ih h
      refine ⟨hks, fun ha hi c hc hlive => ?_⟩
      rcases List.mem_cons.1 hc with rfl | hc
      · exact absurd hlive hl
      · exact hins ha hi c hc hlive

/-- A change that touches neither the buffer nor what is pending. -/
theorem Keeps.of_same {s s' : CycleRootState} (h : s.Indexed)
    (hc : s'.candidates = s.candidates) (hi : s'.indices = s.indices)
    (hp : s'.admission.pendingStart = s.admission.pendingStart)
    (ha : s'.automaticCyclePending = s.automaticCyclePending)
    (hcol : s'.collecting = s.collecting) : Keeps strong s s' where
  indexed := by simpa only [Indexed, identities, hc, hi] using h
  flagged := by simp only [Flagged, hp, ha, imp_self]
  bounded := by simp only [Bounded, hp, hc, imp_self]
  idle := by simp only [Idle, hcol, hp, imp_self]
  kept _ hm _ := by simpa only [identities, hc] using hm
  collecting := hcol

theorem completeAdmission_keeps (strong : Nat → Nat) (h : Indexed s)
    (incoming : List CycleCandidate) (collected : Nat) :
    Keeps strong s (s.completeAdmission strong incoming collected) ∧
      (s.accepts = true → s.admission.initialized = true → ∀ c ∈ incoming,
        strong c.identity ≠ 0 →
          c.identity ∈ (s.completeAdmission strong incoming collected).identities) := by
  unfold completeAdmission
  simp only
  generalize (if collected < 100 ∨ s.admission.threshold ≤ s.candidates.length then
    saturatingAdd s.admission.threshold 10000 else max (s.admission.threshold - 10000) 10001) =
    threshold
  have hs : Keeps strong s { s with admission := { s.admission with threshold := threshold } } :=
    .of_same h rfl rfl rfl rfl rfl
  obtain ⟨hk, hin⟩ := restoreIncoming_keeps strong hs.indexed incoming
  exact ⟨hs.trans hk.toKeeps, hin⟩

theorem pruneDeadCycleRootStorage_keeps (strong : Nat → Nat) (h : Indexed s) :
    Keeps strong s (s.pruneDeadCycleRootStorage strong) := by
  have hp := (pruneDeadCandidates_keeps strong h).toKeeps
  unfold pruneDeadCycleRootStorage
  split
  · exact (KeepsMode.refl h).toKeeps
  · simp only
    split
    · rename_i he
      refine ⟨?_, hp.flagged, hp.bounded, hp.idle, hp.kept, hp.collecting⟩
      simp only [Indexed, identities, he, List.map_nil]
      exact .nil
    · exact ⟨indexed_reindex hp.indexed.nodup, hp.flagged, hp.bounded, hp.idle, hp.kept,
        hp.collecting⟩

theorem setAutomaticCycleCollectionEnabled_keeps (strong : Nat → Nat) (h : Indexed s)
    (enabled : Bool) : Keeps strong s (s.setAutomaticCycleCollectionEnabled enabled) := by
  cases enabled with
  | true => exact .of_same h rfl rfl rfl (Bool.true_and _) rfl
  | false =>
    refine ⟨h, fun _ => rfl, fun _ first hf => ?_, fun _ _ => rfl, fun _ hm _ => hm, rfl⟩
    cases hf

theorem initializeCycleCollection_keeps (strong : Nat → Nat) (h : Indexed s) (enabled : Bool) :
    Keeps strong s (s.initializeCycleCollection enabled) := by
  have hs := setAutomaticCycleCollectionEnabled_keeps strong h enabled
  exact hs.trans (.of_same hs.indexed rfl rfl rfl rfl rfl)

/-- Taking an admission splits the buffer: its suffix becomes the incoming roots. -/
theorem takeAutomaticCycleAdmission_eq_some {s s' : CycleRootState}
    (h : s.takeAutomaticCycleAdmission = some (r, s')) :
    r = none ∧ s' = s ∨
      ∃ first, r = some (s.candidates.drop first) ∧ s'.candidates = s.candidates.take first ∧
        s'.indices = indexOf s'.identities ∧ s'.admission.pendingStart = none ∧
        s'.automaticCyclePending = false ∧ s'.collecting = s.collecting := by
  unfold takeAutomaticCycleAdmission at h
  split at h
  · cases h
    exact .inl ⟨rfl, rfl⟩
  · split at h
    · cases h
      exact .inl ⟨rfl, rfl⟩
    · split at h
      · cases h
        exact .inr ⟨_, rfl, rfl, rfl, rfl, rfl, rfl⟩
      · cases h

end CycleRootState

end Rphp.Value
