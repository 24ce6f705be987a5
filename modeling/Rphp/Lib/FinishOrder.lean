import Mathlib.Algebra.GroupWithZero.Nat
import Mathlib.Data.List.Nodup
import Mathlib.Logic.Relation
import Rphp.Lib.Worklist

namespace Rphp.Lib
open Relation
set_option autoImplicit true

/-- The edges of an adjacency table. -/
def Edge (adjacency : List (List Nat)) (source target : Nat) : Prop :=
  target ∈ adjacency.getD source []

def Mutual (E : Nat → Nat → Prop) (a b : Nat) : Prop :=
  ReflTransGen E a b ∧ ReflTransGen E b a

theorem Mutual.refl (E : Nat → Nat → Prop) (a : Nat) : Mutual E a a :=
  ⟨.refl, .refl⟩

theorem Mutual.symm (h : Mutual E a b) : Mutual E b a :=
  ⟨h.2, h.1⟩

theorem Mutual.trans (h : Mutual E a b) (h' : Mutual E b c) : Mutual E a c :=
  ⟨h.1.trans h'.1, h'.2.trans h.2⟩

/-- A depth-first walk with an explicit stack of nodes and next edges; the second result lists
the nodes in the order they are left. -/
def finishLoop (adjacency : List (List Nat)) (seen : List Bool) (order : List Nat) :
    List (Nat × Nat) → List Bool × List Nat
  | [] => (seen, order)
  | (node, edge) :: stack =>
    match h : (adjacency.getD node [])[edge]? with
    | some target =>
      if seen[target]? = some false then
        finishLoop adjacency (seen.set target true) order ((target, 0) :: (node, edge + 1) :: stack)
      else finishLoop adjacency seen order ((node, edge + 1) :: stack)
    | none => finishLoop adjacency seen (order ++ [node]) stack
termination_by stack =>
  (seen.count false, (stack.map fun entry => (adjacency.getD entry.1 []).length - entry.2 + 1).sum)
decreasing_by
  · rename_i hseen
    have := count_set_true hseen
    exact Prod.Lex.left _ _ (by omega)
  · have hlt : edge < (adjacency.getD node []).length := (List.getElem?_eq_some_iff.1 h).1
    refine Prod.Lex.right _ ?_
    simp only [List.map_cons, List.sum_cons]
    omega
  · refine Prod.Lex.right _ ?_
    simp only [List.map_cons, List.sum_cons]
    omega

variable {adjacency : List (List Nat)}

theorem finishLoop_edge (seen : List Bool) (order : List Nat) (stack : List (Nat × Nat))
    (h : (adjacency.getD node [])[edge]? = some target) :
    finishLoop adjacency seen order ((node, edge) :: stack) =
      if seen[target]? = some false then
        finishLoop adjacency (seen.set target true) order ((target, 0) :: (node, edge + 1) :: stack)
      else finishLoop adjacency seen order ((node, edge + 1) :: stack) := by
  rw [finishLoop]
  split
  · rename_i target' h'
    obtain rfl : target = target' := Option.some.inj (h.symm.trans h')
    rfl
  · rename_i h'
    exact absurd (h.symm.trans h') (Option.some_ne_none target)

theorem finishLoop_leave (seen : List Bool) (order : List Nat) (stack : List (Nat × Nat))
    (h : (adjacency.getD node [])[edge]? = none) :
    finishLoop adjacency seen order ((node, edge) :: stack) =
      finishLoop adjacency seen (order ++ [node]) stack := by
  rw [finishLoop]
  split
  · rename_i target h'
    exact absurd (h'.symm.trans h) (Option.some_ne_none target)
  · rfl

/-- The walks from every admitted start that no earlier walk reached. -/
def finishOrder (adjacency : List (List Nat)) (admitted : Nat → Bool) :
    List Nat → List Bool × List Nat → List Bool × List Nat
  | [], walk => walk
  | start :: starts, (seen, order) =>
    if seen[start]? = some false ∧ admitted start = true then
      finishOrder adjacency admitted starts
        (finishLoop adjacency (seen.set start true) order [(start, 0)])
    else finishOrder adjacency admitted starts (seen, order)

section Walk

/-- The invariant of a walk. Left nodes have only seen successors, and one that still reaches the
stack is on a cycle with it. -/
structure Walk (adjacency : List (List Nat)) (seen : List Bool) (order : List Nat)
    (stack : List (Nat × Nat)) : Prop where
  bounded : ∀ u v, Edge adjacency u v → v < seen.length
  seen_iff : ∀ k, k ∈ marked seen ↔ k ∈ order ∨ k ∈ stack.map Prod.fst
  nodup : (order ++ stack.map Prod.fst).Nodup
  path : (stack.map Prod.fst).Pairwise fun upper lower =>
    ReflTransGen (Edge adjacency) lower upper
  left : ∀ u ∈ order, ∀ v, Edge adjacency u v → v ∈ marked seen
  scanned : ∀ entry ∈ stack, ∀ v ∈ (adjacency.getD entry.1 []).take entry.2, v ∈ marked seen
  returns : ∀ u ∈ order, ∀ g ∈ stack.map Prod.fst, ReflTransGen (Edge adjacency) u g →
    ∃ y ∈ stack.map Prod.fst, Mutual (Edge adjacency) y u
  sorted : ∀ earlier x later, order = earlier ++ x :: later → ∀ u ∈ earlier,
    ReflTransGen (Edge adjacency) u x →
      ∃ y ∈ stack.map Prod.fst ++ x :: later, Mutual (Edge adjacency) y u

/-- A path that leaves a set whose edges lead into it or into another set enters the latter. -/
theorem exists_exit {E : Nat → Nat → Prop} {S G : Set Nat}
    (hS : ∀ u ∈ S, ∀ v, E u v → v ∈ S ∨ v ∈ G) (h : ReflTransGen E u w) (hu : u ∈ S)
    (hw : w ∉ S) : ∃ g ∈ G, ReflTransGen E u g := by
  induction h with
  | refl => exact absurd hu hw
  | @tail b c hub hbc ih =>
    by_cases hb : b ∈ S
    · rcases hS b hb c hbc with hc | hc
      · exact absurd hc hw
      · exact ⟨c, hc, hub.tail hbc⟩
    · exact ih hb

namespace Walk

theorem exits (h : Walk adjacency seen order stack) (hu : u ∈ order) (hw : w ∉ order)
    (hr : ReflTransGen (Edge adjacency) u w) :
    ∃ g ∈ stack.map Prod.fst, ReflTransGen (Edge adjacency) u g :=
  exists_exit (S := {k | k ∈ order}) (G := {k | k ∈ stack.map Prod.fst})
    (fun u hu v he => (h.seen_iff v).1 (h.left u hu v he)) hr hu hw

/-- Enter an unseen node from the top of the stack, or as the first one. -/
theorem enter (h : Walk adjacency seen order stack) (hnew : seen[target]? = some false)
    (hreach : ∀ g ∈ stack.map Prod.fst, ReflTransGen (Edge adjacency) g target) :
    Walk adjacency (seen.set target true) order ((target, 0) :: stack) := by
  have hlt : target < seen.length := (List.getElem?_eq_some_iff.1 hnew).1
  have hmarked := fun k => mem_marked_set hlt k
  have hunseen : target ∉ marked seen := by simp [marked, hnew]
  have hfresh : target ∉ order ∧ target ∉ stack.map Prod.fst :=
    not_or.1 fun hmem => hunseen ((h.seen_iff target).2 hmem)
  refine ⟨?_, ?_, ?_, ?_, ?_, ?_, ?_, ?_⟩
  · simpa using h.bounded
  · intro k
    rw [hmarked, h.seen_iff, List.map_cons, List.mem_cons]
    tauto
  · rw [List.map_cons, List.nodup_middle, List.nodup_cons, List.mem_append]
    exact ⟨fun hmem => hmem.elim hfresh.1 hfresh.2, h.nodup⟩
  · exact List.pairwise_cons.2 ⟨hreach, h.path⟩
  · exact fun u hu v he => (hmarked v).2 (.inr (h.left u hu v he))
  · intro entry hentry v hv
    rcases List.mem_cons.1 hentry with rfl | hentry
    · simp at hv
    · exact (hmarked v).2 (.inr (h.scanned entry hentry v hv))
  · intro u hu g hg hr
    have hstack : ∃ g ∈ stack.map Prod.fst, ReflTransGen (Edge adjacency) u g := by
      rcases List.mem_cons.1 hg with rfl | hg
      · exact h.exits hu hfresh.1 hr
      · exact ⟨g, hg, hr⟩
    obtain ⟨g, hg, hr⟩ := hstack
    obtain ⟨y, hy, hm⟩ := h.returns u hu g hg hr
    exact ⟨y, List.mem_cons_of_mem _ hy, hm⟩
  · intro earlier x later he u hu hr
    obtain ⟨y, hy, hm⟩ := h.sorted earlier x later he u hu hr
    exact ⟨y, List.mem_cons_of_mem _ hy, hm⟩

/-- Move a node of the stack to its next edge when the target is seen. -/
theorem advance (upper : List (Nat × Nat))
    (h : Walk adjacency seen order (upper ++ (node, edge) :: stack))
    (he : (adjacency.getD node [])[edge]? = some target) (hseen : target ∈ marked seen) :
    Walk adjacency seen order (upper ++ (node, edge + 1) :: stack) := by
  have hnodes : (upper ++ (node, edge + 1) :: stack).map Prod.fst =
      (upper ++ (node, edge) :: stack).map Prod.fst := by simp
  refine ⟨h.bounded, ?_, ?_, ?_, h.left, ?_, ?_, ?_⟩
  · simpa only [hnodes] using h.seen_iff
  · simpa only [hnodes] using h.nodup
  · simpa only [hnodes] using h.path
  · intro entry hentry v hv
    rcases List.mem_append.1 hentry with hentry | hentry
    · exact h.scanned entry (List.mem_append_left _ hentry) v hv
    rcases List.mem_cons.1 hentry with rfl | hentry
    · rw [List.take_add_one, he] at hv
      rcases List.mem_append.1 hv with hv | hv
      · exact h.scanned (node, edge) (by simp) v hv
      · obtain rfl : v = target := by simpa using hv
        exact hseen
    · exact h.scanned entry (by simp [hentry]) v hv
  · simpa only [hnodes] using h.returns
  · simpa only [hnodes] using h.sorted

/-- Leave the top node after its last edge. -/
theorem leave (h : Walk adjacency seen order ((node, edge) :: stack))
    (hend : (adjacency.getD node [])[edge]? = none) :
    Walk adjacency seen (order ++ [node]) stack := by
  have hbelow : ∀ g ∈ stack.map Prod.fst, ReflTransGen (Edge adjacency) g node :=
    (List.pairwise_cons.1 h.path).1
  refine ⟨h.bounded, ?_, ?_, (List.pairwise_cons.1 h.path).2, ?_, ?_, ?_, ?_⟩
  · intro k
    rw [h.seen_iff, List.map_cons, List.mem_cons, List.mem_append, List.mem_singleton]
    tauto
  · simpa using h.nodup
  · intro u hu v he
    rcases List.mem_append.1 hu with hu | hu
    · exact h.left u hu v he
    · obtain rfl : u = node := by simpa using hu
      refine h.scanned _ List.mem_cons_self v ?_
      rwa [List.take_of_length_le (by simpa using hend)]
  · exact fun entry hentry => h.scanned entry (List.mem_cons_of_mem _ hentry)
  · intro u hu g hg hr
    rcases List.mem_append.1 hu with hu | hu
    · obtain ⟨y, hy, hm⟩ := h.returns u hu g (List.mem_cons_of_mem _ hg) hr
      rcases List.mem_cons.1 hy with rfl | hy
      · exact ⟨g, hg, (hbelow g hg).trans hm.1, hr⟩
      · exact ⟨y, hy, hm⟩
    · obtain rfl : u = node := by simpa using hu
      exact ⟨g, hg, hbelow g hg, hr⟩
  · intro earlier x later he u hu hr
    rcases List.eq_nil_or_concat later with rfl | ⟨later, last, rfl⟩
    · obtain ⟨rfl, hx⟩ := List.append_inj' he rfl
      obtain rfl : node = x := by simpa using hx
      obtain ⟨y, hy, hm⟩ := h.returns u hu node List.mem_cons_self hr
      refine ⟨y, ?_, hm⟩
      rcases List.mem_cons.1 hy with rfl | hy
      · simp
      · exact List.mem_append_left _ hy
    · rw [List.concat_eq_append, ← List.cons_append, ← List.append_assoc] at he
      obtain ⟨horder, hlast⟩ := List.append_inj' he rfl
      obtain rfl : node = last := by simpa using hlast
      obtain ⟨y, hy, hm⟩ := h.sorted earlier x later horder u hu hr
      refine ⟨y, ?_, hm⟩
      simp only [List.map_cons, List.cons_append, List.mem_cons, List.mem_append,
        List.concat_eq_append] at hy ⊢
      tauto

end Walk

/-- A walk runs to an empty stack with its invariant. -/
theorem finishLoop_walk (h : Walk adjacency seen order stack) :
    Walk adjacency (finishLoop adjacency seen order stack).1
      (finishLoop adjacency seen order stack).2 [] ∧
      marked seen ⊆ marked (finishLoop adjacency seen order stack).1 ∧
      (finishLoop adjacency seen order stack).1.length = seen.length := by
  induction seen, order, stack using finishLoop.induct adjacency with
  | case1 seen order =>
    rw [finishLoop]
    exact ⟨h, subset_rfl, rfl⟩
  | case2 seen order node edge stack target he hnew ih =>
    have hlt : target < seen.length := (List.getElem?_eq_some_iff.1 hnew).1
    have hedge : Edge adjacency node target := List.mem_of_getElem? he
    have hreach : ∀ g ∈ ((node, edge) :: stack).map Prod.fst,
        ReflTransGen (Edge adjacency) g target := by
      intro g hg
      rcases List.mem_cons.1 hg with rfl | hg
      · exact .single hedge
      · exact ((List.pairwise_cons.1 h.path).1 g hg).tail hedge
    have hnext := (h.enter hnew hreach).advance [(target, 0)] he
      ((mem_marked_set hlt target).2 (.inl rfl))
    obtain ⟨hwalk, hsub, hlen⟩ := ih hnext
    rw [finishLoop_edge _ _ _ he, if_pos hnew]
    refine ⟨hwalk, fun k hk => hsub ((mem_marked_set hlt k).2 (.inr hk)), ?_⟩
    simpa using hlen
  | case3 seen order node edge stack target he hold ih =>
    have hlt : target < seen.length := h.bounded node target (List.mem_of_getElem? he)
    have hseen : target ∈ marked seen := by
      simp only [marked, Set.mem_ofPred_eq, List.getElem?_eq_getElem hlt, Option.some.injEq] at hold ⊢
      simpa using hold
    rw [finishLoop_edge _ _ _ he, if_neg hold]
    exact ih (h.advance [] he hseen)
  | case4 seen order node edge stack he ih =>
    rw [finishLoop_leave _ _ _ he]
    exact ih (h.leave he)

/-- What the walks from a list of starts leave behind. -/
theorem finishOrder_walk {admitted : Nat → Bool} {starts : List Nat} {walk : List Bool × List Nat}
    (h : Walk adjacency walk.1 walk.2 []) :
    Walk adjacency (finishOrder adjacency admitted starts walk).1
      (finishOrder adjacency admitted starts walk).2 [] ∧
      marked walk.1 ⊆ marked (finishOrder adjacency admitted starts walk).1 ∧
      (finishOrder adjacency admitted starts walk).1.length = walk.1.length ∧
      ∀ start ∈ starts, admitted start = true → start < walk.1.length →
        start ∈ marked (finishOrder adjacency admitted starts walk).1 := by
  induction starts generalizing walk with
  | nil => exact ⟨h, subset_rfl, rfl, by simp⟩
  | cons start starts ih =>
    obtain ⟨seen, order⟩ := walk
    unfold finishOrder
    split
    · rename_i hstart
      obtain ⟨hwalk, hsub, hlen⟩ := finishLoop_walk (h.enter hstart.1 (by simp))
      obtain ⟨hwalk', hsub', hlen', hall⟩ := ih hwalk
      have hlt : start < seen.length := (List.getElem?_eq_some_iff.1 hstart.1).1
      have hset := fun k => mem_marked_set hlt k
      refine ⟨hwalk', fun k hk => hsub' (hsub ((hset k).2 (.inr hk))),
        hlen'.trans (by simpa using hlen), ?_⟩
      intro s hs hadm hlt
      rcases List.mem_cons.1 hs with rfl | hs
      · exact hsub' (hsub ((hset s).2 (.inl rfl)))
      · exact hall s hs hadm (by simpa [hlen] using hlt)
    · rename_i hstart
      obtain ⟨hwalk', hsub', hlen', hall⟩ := ih h
      refine ⟨hwalk', hsub', hlen', ?_⟩
      intro s hs hadm hlt
      rcases List.mem_cons.1 hs with rfl | hs
      · refine hsub' ?_
        simp only [hadm, and_true, List.getElem?_eq_getElem hlt, Option.some.injEq] at hstart
        simpa [marked, List.getElem?_eq_getElem hlt] using hstart
      · exact hall s hs hadm hlt

/-- The finishing order of all admitted nodes, and what it says about reachability. -/
structure Finished (adjacency : List (List Nat)) (admitted : Nat → Bool) (n : Nat)
    (order : List Nat) : Prop where
  nodup : order.Nodup
  lt : ∀ k ∈ order, k < n
  admitted : ∀ k < n, admitted k = true → k ∈ order
  sorted : ∀ earlier x later, order = earlier ++ x :: later → ∀ u ∈ earlier,
    ReflTransGen (Edge adjacency) u x → ∃ y ∈ x :: later, Mutual (Edge adjacency) y u

theorem finishOrder_finished {admitted : Nat → Bool} {n : Nat}
    (hbound : ∀ u v, Edge adjacency u v → v < n) :
    Finished adjacency admitted n
      (finishOrder adjacency admitted (List.range n) (List.replicate n false, [])).2 := by
  have hstart : Walk adjacency (List.replicate n false) [] [] := by
    refine ⟨by simpa using hbound, fun k => ?_, by simp, by simp, by simp, by simp, by simp, by simp⟩
    simp [marked, List.getElem?_replicate]
  obtain ⟨hwalk, -, hlen, hall⟩ :=
    @finishOrder_walk adjacency admitted (List.range n) (List.replicate n false, []) hstart
  simp only [List.length_replicate] at hlen hall
  refine ⟨by simpa using hwalk.nodup, fun k hk => ?_, fun k hk hadm => ?_, ?_⟩
  · have hmark : k ∈ marked _ := (hwalk.seen_iff k).2 (.inl hk)
    rw [← hlen]
    exact (List.getElem?_eq_some_iff.1 hmark).1
  · simpa using (hwalk.seen_iff k).1 (hall k (List.mem_range.2 hk) hadm hk)
  · simpa using hwalk.sorted

end Walk

end Rphp.Lib
