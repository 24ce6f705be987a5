import Rphp.Lib.FinishOrder

namespace Rphp.Lib
open Relation
set_option autoImplicit true

/-- Put the unassigned nodes of a list into a component and on the stack. -/
def claim (id : Nat) : List Nat → List (Option Nat) → List Nat → List (Option Nat) × List Nat
  | [], component, stack => (component, stack)
  | source :: sources, component, stack =>
    if component[source]? = some none then
      claim id sources (component.set source (some id)) (source :: stack)
    else claim id sources component stack

theorem count_set_some {component : List (Option Nat)} (id : Nat)
    (h : component[i]? = some none) :
    (component.set i (some id)).count none + 1 = component.count none := by
  induction component generalizing i with
  | nil => simp at h
  | cons b component ih =>
    cases i with
    | zero =>
      simp only [List.getElem?_cons_zero, Option.some.injEq] at h
      subst b
      simp
    | succ i =>
      simp only [List.getElem?_cons_succ] at h
      have := ih h
      simp only [List.set_cons_succ, List.count_cons]
      omega

theorem claim_count (id : Nat) (sources : List Nat) (component : List (Option Nat))
    (stack : List Nat) :
    (claim id sources component stack).1.count none + (claim id sources component stack).2.length =
      component.count none + stack.length := by
  induction sources generalizing component stack with
  | nil => rfl
  | cons source sources ih =>
    unfold claim
    split
    · rename_i h
      have := ih (component.set source (some id)) (source :: stack)
      have := count_set_some id h
      simp only [List.length_cons] at *
      omega
    · exact ih component stack

/-- The nodes that reach the stack against the edges, over unassigned nodes only. -/
def collectLoop (reverse : List (List Nat)) (id : Nat) (component : List (Option Nat))
    (members : List Nat) : List Nat → List (Option Nat) × List Nat
  | [] => (component, members)
  | node :: stack =>
    let claimed := claim id (reverse.getD node []) component stack
    collectLoop reverse id claimed.1 (members ++ [node]) claimed.2
termination_by stack => component.count none + stack.length
decreasing_by
  have := claim_count id (reverse.getD node []) component stack
  simp only [List.length_cons]
  omega

/-- One component for each start that no earlier component holds. -/
def components (reverse : List (List Nat)) :
    List Nat → List (Option Nat) → List (List Nat) → List (List Nat)
  | [], _, found => found
  | start :: starts, component, found =>
    if component[start]? = some none then
      let r := collectLoop reverse found.length (component.set start (some found.length)) [] [start]
      components reverse starts r.1 (found ++ [r.2])
    else components reverse starts component found

def hasCycle (adjacency : List (List Nat)) (members : List Nat) : Bool :=
  1 < members.length ||
    members.head?.any fun node => (adjacency.getD node []).any fun target => target == node

/-- The nodes that some component holds. -/
def assigned (component : List (Option Nat)) : Set Nat :=
  {i | ∃ id, component[i]? = some (some id)}

theorem mem_assigned_set {component : List (Option Nat)} (h : i < component.length) (id k : Nat) :
    k ∈ assigned (component.set i (some id)) ↔ k = i ∨ k ∈ assigned component := by
  simp only [assigned, Set.mem_ofPred_eq, List.getElem?_set]
  by_cases hk : i = k
  · subst hk
    simp [h]
  · simp [hk, Ne.symm hk]

theorem not_mem_assigned {component : List (Option Nat)} (h : component[i]? = some none) :
    i ∉ assigned component := by
  simp [assigned, h]

theorem unassigned_of_lt {component : List (Option Nat)} (hlt : i < component.length)
    (h : i ∉ assigned component) : component[i]? = some none := by
  rw [List.getElem?_eq_getElem hlt] at *
  cases hc : component[i] with
  | none => rfl
  | some id => exact absurd ⟨id, by rw [List.getElem?_eq_getElem hlt, hc]⟩ h

/-- What claiming adds: each unassigned source once, on top of the stack. -/
theorem claim_spec (id : Nat) {sources : List Nat} {component : List (Option Nat)}
    (hlt : ∀ k ∈ sources, k < component.length) (stack : List Nat) :
    (claim id sources component stack).1.length = component.length ∧
      (∀ k, k ∈ assigned (claim id sources component stack).1 ↔
        k ∈ assigned component ∨ k ∈ sources) ∧
      ∃ claimed, (claim id sources component stack).2 = claimed ++ stack ∧ claimed.Nodup ∧
        ∀ k, k ∈ claimed ↔ k ∈ sources ∧ k ∉ assigned component := by
  induction sources generalizing component stack with
  | nil => exact ⟨rfl, by simp [claim], [], by simp [claim]⟩
  | cons source sources ih =>
    obtain ⟨hsource, hlt⟩ := List.forall_mem_cons.1 hlt
    unfold claim
    split
    · rename_i hnone
      have hset := mem_assigned_set hsource id
      obtain ⟨hlen, hassigned, claimed, hstack, hnd, hclaimed⟩ :=
        @ih (component.set source (some id)) (by simpa using hlt) (source :: stack)
      have hfresh := not_mem_assigned hnone
      refine ⟨by simpa using hlen, fun k => ?_, claimed ++ [source], by simpa using hstack, ?_,
        fun k => ?_⟩
      · rw [hassigned, hset, List.mem_cons]
        tauto
      · rw [List.nodup_append]
        refine ⟨hnd, by simp, ?_⟩
        rintro k hk _ hs rfl
        obtain rfl : k = source := by simpa using hs
        exact ((hclaimed k).1 hk).2 ((hset k).2 (.inl rfl))
      · rw [List.mem_append, hclaimed, hset, List.mem_singleton, List.mem_cons]
        by_cases hk : k = source
        · subst hk
          simp [hfresh]
        · simp [hk]
    · rename_i hsome
      obtain ⟨hlen, hassigned, claimed, hstack, hnd, hclaimed⟩ := ih hlt stack
      have hold : source ∈ assigned component := by
        by_contra hnot
        exact hsome (unassigned_of_lt hsource hnot)
      refine ⟨hlen, fun k => ?_, claimed, hstack, hnd, fun k => ?_⟩
      · rw [hassigned, List.mem_cons]
        refine ⟨fun h => h.imp_right .inr, ?_⟩
        rintro (hk | rfl | hk)
        · exact .inl hk
        · exact .inl hold
        · exact .inr hk
      · rw [hclaimed, List.mem_cons]
        refine ⟨fun h => ⟨.inr h.1, h.2⟩, ?_⟩
        rintro ⟨rfl | hk, hnot⟩
        · exact absurd hold hnot
        · exact ⟨hk, hnot⟩

section Collect

variable {reverse : List (List Nat)}

/-- The state of a collection: the nodes gathered since it began. -/
structure Gathering (reverse : List (List Nat)) (start : Nat) (before component : List (Option Nat))
    (members stack : List Nat) : Prop where
  bounded : ∀ node, ∀ source ∈ reverse.getD node [], source < component.length
  length : component.length = before.length
  assigned_iff : ∀ k, k ∈ assigned component ↔ k ∈ assigned before ∨ k ∈ members ++ stack
  fresh : ∀ k ∈ members ++ stack, k ∉ assigned before
  nodup : (members ++ stack).Nodup
  holds : start ∈ members ++ stack
  reaches : ∀ k ∈ members ++ stack, ReflTransGen (fun u v => u ∈ reverse.getD v []) k start
  expanded : ∀ node ∈ members, ∀ source ∈ reverse.getD node [], source ∈ assigned component

theorem Gathering.step (h : Gathering reverse start before component members (node :: stack))
    (id : Nat) :
    Gathering reverse start before (claim id (reverse.getD node []) component stack).1
      (members ++ [node]) (claim id (reverse.getD node []) component stack).2 := by
  obtain ⟨hlen, hassigned, claimed, hstack, hnd, hclaimed⟩ := claim_spec id (h.bounded node) stack
  have hmem (k : Nat) : k ∈ members ++ [node] ++ (claimed ++ stack) ↔
      k ∈ members ++ node :: stack ∨ k ∈ claimed := by
    simp only [List.mem_append, List.mem_cons, List.not_mem_nil, or_false]
    tauto
  have hnew (k : Nat) (hk : k ∈ claimed) : k ∉ assigned before ∧ k ∉ members ++ node :: stack := by
    have hnot := ((hclaimed k).1 hk).2
    rw [h.assigned_iff] at hnot
    exact not_or.1 hnot
  rw [hstack]
  refine ⟨by rw [hlen]; exact h.bounded, hlen.trans h.length, fun k => ?_, fun k hk => ?_, ?_,
    (hmem _).2 (.inl h.holds), fun k hk => ?_, fun n hn source hs => ?_⟩
  · rw [hassigned, hmem, h.assigned_iff]
    refine ⟨?_, ?_⟩
    · rintro ((hk | hk) | hk)
      · exact .inl hk
      · exact .inr (.inl hk)
      · by_cases hold : k ∈ assigned component
        · exact ((h.assigned_iff k).1 hold).imp_right .inl
        · exact .inr (.inr ((hclaimed k).2 ⟨hk, hold⟩))
    · rintro (hk | hk | hk)
      · exact .inl (.inl hk)
      · exact .inl (.inr hk)
      · exact .inr ((hclaimed k).1 hk).1
  · rcases (hmem k).1 hk with hk | hk
    · exact h.fresh k hk
    · exact (hnew k hk).1
  · have hperm : (members ++ [node] ++ (claimed ++ stack)).Perm
        (claimed ++ (members ++ node :: stack)) := by
      have hswap : (members ++ [node] ++ (claimed ++ stack)).Perm
          (claimed ++ (members ++ [node]) ++ stack) := by
        rw [← List.append_assoc]
        exact (List.perm_append_comm).append_right stack
      simpa using hswap
    rw [hperm.nodup_iff, List.nodup_append]
    refine ⟨hnd, h.nodup, ?_⟩
    rintro k hk _ hk' rfl
    exact (hnew k hk).2 hk'
  · rcases (hmem k).1 hk with hk | hk
    · exact h.reaches k hk
    · exact .head ((hclaimed k).1 hk).1 (h.reaches node (by simp))
  · rw [hassigned]
    rcases List.mem_append.1 hn with hn | hn
    · exact .inl (h.expanded n hn source hs)
    · obtain rfl : n = node := by simpa using hn
      exact .inr hs

theorem collectLoop_gathering (id : Nat)
    (h : Gathering reverse start before component members stack) :
    Gathering reverse start before (collectLoop reverse id component members stack).1
      (collectLoop reverse id component members stack).2 [] := by
  induction component, members, stack using collectLoop.induct reverse id with
  | case1 component members =>
    rw [collectLoop]
    exact h
  | case2 component members node stack claimed ih =>
    rw [collectLoop]
    exact ih (h.step id)

end Collect

section Components

variable {adjacency reverse : List (List Nat)} {n : Nat} {starts processed : List Nat}

/-- The classes found so far are those of the processed nodes. -/
structure Partitioned (adjacency : List (List Nat)) (n : Nat) (processed : List Nat)
    (component : List (Option Nat)) (found : List (List Nat)) : Prop where
  length : component.length = n
  assigned_iff : ∀ k, k ∈ assigned component ↔ ∃ x ∈ processed, Mutual (Edge adjacency) k x
  classes : ∀ members ∈ found, members.Nodup ∧
    ∃ x, ∀ k, k ∈ members ↔ Mutual (Edge adjacency) k x
  covered : ∀ x ∈ processed, ∃ members ∈ found, x ∈ members

/-- The two tables hold the same edges between the nodes below a bound, all from admitted ones. -/
structure Converse (adjacency reverse : List (List Nat)) (admitted : Nat → Bool) (n : Nat) :
    Prop where
  converse : ∀ u v, u ∈ reverse.getD v [] ↔ Edge adjacency u v
  source : ∀ u v, Edge adjacency u v → u < n ∧ admitted u = true
  target : ∀ u v, Edge adjacency u v → v < n

theorem Converse.mem_order (h : Converse adjacency reverse admitted n)
    (hf : Finished adjacency admitted n order) (hx : x ∈ order)
    (hr : ReflTransGen (Edge adjacency) k x) : k ∈ order := by
  rcases hr.cases_head with rfl | ⟨v, he, -⟩
  · exact hx
  · exact hf.admitted k (h.source k v he).1 (h.source k v he).2

/-- The nodes gathered from an unassigned start are those on a cycle with it. -/
theorem mem_gathered (hc : Converse adjacency reverse admitted n)
    (hf : Finished adjacency admitted n (starts.reverse ++ start :: processed))
    (hp : Partitioned adjacency n processed before found) (hstart : start ∉ assigned before)
    (h : Gathering reverse start before component members []) (k : Nat) :
    k ∈ members ↔ Mutual (Edge adjacency) k start := by
  have hrel : (fun u v => u ∈ reverse.getD v []) = Edge adjacency := by
    funext u v
    exact propext (hc.converse u v)
  constructor
  · intro hk
    have hreach : ReflTransGen (Edge adjacency) k start :=
      hrel ▸ h.reaches k (List.mem_append_left _ hk)
    have hfresh : k ∉ assigned before := h.fresh k (List.mem_append_left _ hk)
    have hunprocessed : k ∉ processed := fun hmem =>
      hfresh ((hp.assigned_iff k).2 ⟨k, hmem, Mutual.refl _ k⟩)
    have horder : k ∈ starts.reverse ++ start :: processed := hc.mem_order hf (by simp) hreach
    rcases List.mem_append.1 horder with hlater | hmem
    · obtain ⟨y, hy, hm⟩ := hf.sorted _ start processed rfl k hlater hreach
      rcases List.mem_cons.1 hy with rfl | hy
      · exact hm.symm
      · exact absurd ((hp.assigned_iff k).2 ⟨y, hy, hm.symm⟩) hfresh
    · rcases List.mem_cons.1 hmem with rfl | hmem
      · exact Mutual.refl _ k
      · exact absurd hmem hunprocessed
  · rintro ⟨hto, hfrom⟩
    induction hto using ReflTransGen.head_induction_on with
    | refl => simpa using h.holds
    | head he hr ih =>
      rename_i u v
      have hv : v ∈ members := ih (hfrom.tail he)
      have hassigned := h.expanded v hv u ((hc.converse u v).2 he)
      rcases (h.assigned_iff u).1 hassigned with hold | hnew
      · obtain ⟨x, hx, hm⟩ := (hp.assigned_iff u).1 hold
        have hstart' : Mutual (Edge adjacency) start u := ⟨hfrom, .head he hr⟩
        exact absurd ((hp.assigned_iff start).2 ⟨x, hx, hstart'.trans hm⟩) hstart
      · simpa using hnew

theorem Partitioned.skip (h : Partitioned adjacency n processed component found)
    (hstart : start ∈ assigned component) :
    Partitioned adjacency n (start :: processed) component found := by
  obtain ⟨x₀, hx₀, hm₀⟩ := (h.assigned_iff start).1 hstart
  refine ⟨h.length, fun k => ?_, h.classes, ?_⟩
  · rw [h.assigned_iff]
    constructor
    · rintro ⟨x, hx, hm⟩
      exact ⟨x, List.mem_cons_of_mem _ hx, hm⟩
    · rintro ⟨x, hx, hm⟩
      rcases List.mem_cons.1 hx with rfl | hx
      · exact ⟨x₀, hx₀, hm.trans hm₀⟩
      · exact ⟨x, hx, hm⟩
  · intro x hx
    rcases List.mem_cons.1 hx with rfl | hx
    · obtain ⟨members, hmem, hx₀'⟩ := h.covered x₀ hx₀
      obtain ⟨-, c, hclass⟩ := h.classes members hmem
      exact ⟨members, hmem, (hclass x).2 (hm₀.trans ((hclass x₀).1 hx₀'))⟩
    · exact h.covered x hx

theorem Partitioned.collect (hc : Converse adjacency reverse admitted n)
    (hf : Finished adjacency admitted n (starts.reverse ++ start :: processed))
    (h : Partitioned adjacency n processed component found)
    (hnone : component[start]? = some none) (id : Nat) :
    Partitioned adjacency n (start :: processed)
      (collectLoop reverse id (component.set start (some id)) [] [start]).1
      (found ++ [(collectLoop reverse id (component.set start (some id)) [] [start]).2]) := by
  have hlt : start < component.length := (List.getElem?_eq_some_iff.1 hnone).1
  have hfresh := not_mem_assigned hnone
  have hbegin : Gathering reverse start component (component.set start (some id)) [] [start] := by
    refine ⟨fun node source hs => ?_, by simp, fun k => ?_, by simpa using hfresh, by simp, by simp,
      by simp [ReflTransGen.refl], by simp⟩
    · rw [List.length_set, h.length]
      exact (hc.source source node ((hc.converse source node).1 hs)).1
    · rw [mem_assigned_set hlt]
      simp [or_comm]
  have hend := collectLoop_gathering id hbegin
  have hclass := mem_gathered hc hf h hfresh hend
  generalize collectLoop reverse id (component.set start (some id)) [] [start] = r at *
  refine ⟨hend.length.trans h.length, fun k => ?_, ?_, ?_⟩
  · rw [hend.assigned_iff, h.assigned_iff, List.append_nil, hclass]
    simp only [List.mem_cons, exists_eq_or_imp]
    exact or_comm
  · intro members hmem
    rcases List.mem_append.1 hmem with hmem | hmem
    · exact h.classes members hmem
    · obtain rfl : members = r.2 := by simpa using hmem
      exact ⟨by simpa using hend.nodup, start, hclass⟩
  · intro x hx
    rcases List.mem_cons.1 hx with rfl | hx
    · exact ⟨r.2, by simp, (hclass x).2 (Mutual.refl _ x)⟩
    · obtain ⟨members, hmem, hx⟩ := h.covered x hx
      exact ⟨members, List.mem_append_left _ hmem, hx⟩

/-- Taken in the reverse of a finishing order, the starts give the classes of the graph. -/
theorem components_partition (hc : Converse adjacency reverse admitted n)
    (hf : Finished adjacency admitted n (starts.reverse ++ processed))
    (h : Partitioned adjacency n processed component found) :
    ∃ final, Partitioned adjacency n (starts.reverse ++ processed) final
      (components reverse starts component found) := by
  induction starts generalizing processed component found with
  | nil => exact ⟨component, h⟩
  | cons start starts ih =>
    have hf' : Finished adjacency admitted n (starts.reverse ++ start :: processed) := by
      simpa using hf
    have hlt : start < component.length := h.length ▸ hf'.lt start (by simp)
    have hassoc : (start :: starts).reverse ++ processed = starts.reverse ++ start :: processed := by
      simp
    rw [hassoc]
    unfold components
    split
    · rename_i hnone
      exact ih hf' (h.collect hc hf' hnone _)
    · rename_i hsome
      refine ih hf' (h.skip ?_)
      by_contra hnot
      exact hsome (unassigned_of_lt hlt hnot)

/-- The classes with more than one member or a loop are those of the nodes on a cycle. -/
theorem mem_hasCycle (h : Partitioned adjacency n order component found)
    (hsource : ∀ u v, Edge adjacency u v → u ∈ order) (k : Nat) :
    (∃ members ∈ found, hasCycle adjacency members = true ∧ k ∈ members) ↔
      TransGen (Edge adjacency) k k := by
  constructor
  · rintro ⟨members, hmem, hcycle, hk⟩
    obtain ⟨hnd, x, hclass⟩ := h.classes members hmem
    by_cases hother : ∃ j ∈ members, j ≠ k
    · obtain ⟨j, hj, hne⟩ := hother
      have hm : Mutual (Edge adjacency) k j := ((hclass k).1 hk).trans ((hclass j).1 hj).symm
      obtain ⟨v, he, hr⟩ := hm.1.cases_head.resolve_left (Ne.symm hne)
      exact TransGen.head' he (hr.trans hm.2)
    · have hall : ∀ j ∈ members, j = k := fun j hj => by_contra fun hne => hother ⟨j, hj, hne⟩
      have hone : members = [k] := by
        rcases members with _ | ⟨a, _ | ⟨b, members⟩⟩
        · simp at hk
        · rw [hall a (by simp)]
        · have hab : a = b := (hall a (by simp)).trans (hall b (by simp)).symm
          simp [hab] at hnd
      subst hone
      exact .single (by simpa [hasCycle, Edge] using hcycle)
  · intro hk
    obtain ⟨v, he, hr⟩ := TransGen.head'_iff.1 hk
    obtain ⟨members, hmem, hkm⟩ := h.covered k (hsource k v he)
    obtain ⟨-, x, hclass⟩ := h.classes members hmem
    refine ⟨members, hmem, ?_, hkm⟩
    unfold hasCycle
    rcases members with _ | ⟨a, _ | ⟨b, members⟩⟩
    · simp at hkm
    · obtain rfl : k = a := by simpa using hkm
      have hv : v ∈ [k] := (hclass v).2 (Mutual.trans ⟨hr, .single he⟩ ((hclass k).1 hkm))
      obtain rfl : v = k := by simpa using hv
      simpa [Edge] using he
    · simp

end Components

end Rphp.Lib
