import Rphp.Lib.Slots
import Rphp.Runtime.CycleComponents

namespace Rphp.Runtime
open Rphp.Lib
set_option autoImplicit true

/-- The graph of a pass with the number of possible roots it began with and the identities of the
objects that hold a generator. -/
structure DestructorGraph extends CycleGraph where
  rootCount : Nat
  generators : Finset Nat
  roots_le : rootCount ≤ nodes.length

namespace DestructorGraph

def connectGarbage (g : DestructorGraph) (garbage : Finset Nat) (table : List (List Nat))
    (e : Nat × Nat) : List (List Nat) :=
  match g.indices.lookup e.1, g.indices.lookup e.2 with
  | some source, some target =>
    if g.isGarbage garbage source && g.isGarbage garbage target then
      table.modify source (· ++ [target])
    else table
  | _, _ => table

def garbageAdjacency (g : DestructorGraph) (garbage : Finset Nat) : List (List Nat) :=
  g.ordinaryEdges.foldl (g.connectGarbage garbage) (List.replicate g.nodes.length [])

def isGenerator (g : DestructorGraph) (node : CycleNode) : Bool :=
  node.kind = .object && node.identity ∈ g.generators

/-- The walk from a generator over its saved operands. -/
def visitFrom (adjacency : List (List Nat)) (admitted : Nat → Bool) (visited : List Bool)
    (ordered : List Nat) : List Nat → List Bool × List Nat
  | [] => (visited, ordered)
  | current :: stack =>
    if visited[current]? = some false ∧ admitted current = true then
      visitFrom adjacency admitted (visited.set current true) (ordered ++ [current])
        (adjacency.getD current [] ++ stack)
    else visitFrom adjacency admitted visited ordered stack
termination_by stack => (visited.count false, stack.length)
decreasing_by
  · rename_i h
    have := count_set_true h.1
    exact Prod.Lex.left _ _ (by omega)
  · exact Prod.Lex.right _ (by simp)

/-- The pass over the generators. -/
def visitGenerators (g : DestructorGraph) (garbage : Finset Nat) :
    List Nat → List Bool × List Nat → List Bool × List Nat
  | [], r => r
  | index :: indices, (visited, ordered) =>
    if (g.nodes[index]?).any fun node => g.isGenerator node && node.identity ∈ garbage then
      visitGenerators g garbage indices
        (visitFrom (g.garbageAdjacency garbage) (g.isGarbage garbage) visited ordered [index])
    else visitGenerators g garbage indices (visited, ordered)

/-- The possible roots after live ones are removed from the buffer. -/
def compactRoots (admitted : Nat → Bool) (roots : List Nat) (position : Nat) : List Nat :=
  match h : roots[position]? with
  | some root =>
    if admitted root then compactRoots admitted roots (position + 1)
    else compactRoots admitted (swapRemove roots position) position
  | none => roots
termination_by roots.length - position
decreasing_by
  · have hlt : position < roots.length := (List.getElem?_eq_some_iff.1 h).1
    omega
  · have hlt : position < roots.length := (List.getElem?_eq_some_iff.1 h).1
    have hlen := swapRemove_length roots position
    omega

def destructorOrder (g : DestructorGraph) (garbage : Finset Nat) : List Nat :=
  let n := g.nodes.length
  let (visited, ordered) :=
    g.visitGenerators garbage (List.range n) (List.replicate n false, [])
  let unvisited := fun index => visited[index]? != some true
  ordered ++ (compactRoots (g.isGarbage garbage) (List.range g.rootCount) 0).filter unvisited ++
    ((List.range n).drop g.rootCount).filter fun index =>
      g.isGarbage garbage index && unvisited index

section Dispatch

variable (g : DestructorGraph) (garbage : Finset Nat) (hasDestructor retired : CycleNode → Bool)

/-- The objects of the order that have a destructor. -/
def destructorNodes : Finset Nat :=
  ((g.destructorOrder garbage).filterMap fun index =>
    (g.nodes[index]?).bind fun node =>
      if node.kind = .object && hasDestructor node then some node.identity else none).toFinset

def pendingDestructors : Finset Nat :=
  (g.nodes.filterMap fun node =>
    if node.identity ∈ g.destructorNodes garbage hasDestructor && !retired node then
      some node.identity
    else none).toFinset

/-- The identities whose destructor a pass dispatches, in order. -/
def dispatched : List Nat :=
  (g.destructorOrder garbage).filterMap fun index =>
    (g.nodes[index]?).bind fun node =>
      if node.kind = .object &&
          node.identity ∈ g.pendingDestructors garbage hasDestructor retired then
        some node.identity
      else none

end Dispatch

theorem compactRoots_some {admitted : Nat → Bool} (h : roots[position]? = some root) :
    compactRoots admitted roots position =
      if admitted root then compactRoots admitted roots (position + 1)
      else compactRoots admitted (swapRemove roots position) position := by
  rw [compactRoots]
  split
  · rename_i root' h'
    obtain rfl : root = root' := Option.some.inj (h.symm.trans h')
    rfl
  · rename_i h'
    exact absurd (h.symm.trans h') (Option.some_ne_none root)

theorem compactRoots_none {admitted : Nat → Bool} {roots : List Nat}
    (h : roots[position]? = none) : compactRoots admitted roots position = roots := by
  rw [compactRoots]
  split
  · rename_i root h'
    exact absurd (h'.symm.trans h) (Option.some_ne_none root)
  · rfl

/-- Compaction keeps the admitted roots, in some order. -/
theorem compactRoots_perm (admitted : Nat → Bool) (roots : List Nat) (position : Nat) :
    (compactRoots admitted roots position).Perm
      (roots.take position ++ (roots.drop position).filter admitted) := by
  induction roots, position using compactRoots.induct admitted with
  | case1 roots position root hroot hadm ih =>
    obtain ⟨hlt, hget⟩ := List.getElem?_eq_some_iff.1 hroot
    rw [compactRoots_some hroot, if_pos hadm]
    refine ih.trans (List.Perm.of_eq ?_)
    conv_rhs => rw [List.drop_eq_getElem_cons hlt, hget, List.filter_cons_of_pos hadm]
    simp [List.take_add_one, hroot]
  | case2 roots position root hroot hadm ih =>
    obtain ⟨hlt, hget⟩ := List.getElem?_eq_some_iff.1 hroot
    have hsplit : roots = roots.take position ++ root :: roots.drop (position + 1) := by
      rw [← hget, ← List.drop_eq_getElem_cons hlt, List.take_append_drop]
    have hlen : (roots.take position).length = position := by
      rw [List.length_take, Nat.min_eq_left (Nat.le_of_lt hlt)]
    obtain ⟨rest, hswap, hperm⟩ :=
      swapRemove_append (roots.take position) (roots.drop (position + 1)) root
    rw [← hsplit, hlen] at hswap
    rw [compactRoots_some hroot, if_neg hadm]
    refine ih.trans ?_
    rw [hswap, List.take_left' hlen, List.drop_left' hlen, List.drop_eq_getElem_cons hlt, hget,
      List.filter_cons_of_neg hadm]
    exact (hperm.filter admitted).append_left _
  | case3 roots position hroot =>
    have hle : roots.length ≤ position := by simpa using hroot
    rw [compactRoots_none hroot, List.take_of_length_le hle, List.drop_eq_nil_of_le hle]
    simp

/-- What the walks over the generators have visited. -/
structure Visited (admitted : Nat → Bool) (n : Nat) (visited : List Bool) (ordered : List Nat) :
    Prop where
  length : visited.length = n
  nodup : ordered.Nodup
  mem_iff : ∀ k, k ∈ ordered ↔ k ∈ marked visited
  admitted : ∀ k ∈ ordered, admitted k = true

theorem visitFrom_visited (h : Visited admitted n visited ordered) (adjacency : List (List Nat))
    (stack : List Nat) :
    Visited admitted n (visitFrom adjacency admitted visited ordered stack).1
      (visitFrom adjacency admitted visited ordered stack).2 := by
  induction visited, ordered, stack using visitFrom.induct adjacency admitted with
  | case1 visited ordered =>
    rw [visitFrom]
    exact h
  | case2 visited ordered current stack hnew ih =>
    rw [visitFrom, if_pos hnew]
    have hlt : current < visited.length := (List.getElem?_eq_some_iff.1 hnew.1).1
    have hfresh : current ∉ ordered := by
      rw [h.mem_iff]
      simp [marked, hnew.1]
    refine ih ⟨by simpa using h.length, ?_, fun k => ?_, ?_⟩
    · rw [List.nodup_append]
      refine ⟨h.nodup, by simp, ?_⟩
      rintro k hk _ hk' rfl
      obtain rfl : k = current := by simpa using hk'
      exact hfresh hk
    · rw [List.mem_append, h.mem_iff, mem_marked_set hlt, List.mem_singleton]
      exact or_comm
    · intro k hk
      rcases List.mem_append.1 hk with hk | hk
      · exact h.admitted k hk
      · obtain rfl : k = current := by simpa using hk
        exact hnew.2
  | case3 visited ordered current stack hold ih =>
    rw [visitFrom, if_neg hold]
    exact ih h

theorem visitGenerators_visited {g : DestructorGraph} {garbage : Finset Nat}
    {r : List Bool × List Nat} (indices : List Nat)
    (h : Visited (g.isGarbage garbage) g.nodes.length r.1 r.2) :
    Visited (g.isGarbage garbage) g.nodes.length (g.visitGenerators garbage indices r).1
      (g.visitGenerators garbage indices r).2 := by
  induction indices generalizing r with
  | nil => exact h
  | cons index indices ih =>
    unfold visitGenerators
    split
    · exact ih (visitFrom_visited h _ _)
    · exact ih h

section Order

variable (g : DestructorGraph) (garbage : Finset Nat)

theorem isGarbage_lt {g : CycleGraph} (h : g.isGarbage garbage index = true) :
    index < g.nodes.length := by
  by_contra hlt
  simp [CycleGraph.isGarbage, List.getElem?_eq_none (Nat.le_of_not_lt hlt)] at h

/-- The parts of the order: the generators' walks, then the roots and then the other nodes that
they did not visit. -/
theorem destructorOrder_perm :
    ∃ visited ordered, Visited (g.isGarbage garbage) g.nodes.length visited ordered ∧
      (g.destructorOrder garbage).Perm (ordered ++ (List.range g.nodes.length).filter fun index =>
        g.isGarbage garbage index && visited[index]? != some true) := by
  have hstart : Visited (g.isGarbage garbage) g.nodes.length
      (List.replicate g.nodes.length false) [] := by
    refine ⟨by simp, by simp, fun k => ?_, by simp⟩
    simp [marked, List.getElem?_replicate]
  have hvisited := @visitGenerators_visited g garbage (List.replicate g.nodes.length false, [])
    (List.range g.nodes.length) hstart
  refine ⟨_, _, hvisited, ?_⟩
  simp only [destructorOrder]
  generalize g.visitGenerators garbage (List.range g.nodes.length)
    (List.replicate g.nodes.length false, []) = r
  have hroots := compactRoots_perm (g.isGarbage garbage) (List.range g.rootCount) 0
  simp only [List.take_zero, List.nil_append, List.drop_zero] at hroots
  have hrange : List.range g.nodes.length =
      List.range g.rootCount ++ (List.range g.nodes.length).drop g.rootCount := by
    conv_lhs => rw [← List.take_append_drop g.rootCount (List.range g.nodes.length)]
    rw [List.take_range, Nat.min_eq_left g.roots_le]
  rw [List.append_assoc]
  refine List.Perm.append_left r.2 ?_
  conv_rhs => rw [hrange, List.filter_append]
  refine List.Perm.append_right _ ?_
  refine (hroots.filter _).trans (List.Perm.of_eq ?_)
  rw [List.filter_filter]
  exact List.filter_congr fun index _ => Bool.and_comm _ _

/-- Every garbage node is in the order, once, and nothing else is. -/
theorem destructorOrder_exact :
    (g.destructorOrder garbage).Nodup ∧
      ∀ index, index ∈ g.destructorOrder garbage ↔ g.isGarbage garbage index = true := by
  obtain ⟨visited, ordered, h, hperm⟩ := g.destructorOrder_perm garbage
  have hvisited (k : Nat) : visited[k]? = some true ↔ k ∈ ordered := (h.mem_iff k).symm
  refine ⟨hperm.nodup_iff.2 ?_, fun index => ?_⟩
  · rw [List.nodup_append]
    refine ⟨h.nodup, List.nodup_range.filter _, ?_⟩
    rintro k hk _ hk' rfl
    simp [hvisited, hk] at hk'
  · rw [hperm.mem_iff, List.mem_append, List.mem_filter]
    simp only [List.mem_range, Bool.and_eq_true, bne_iff_ne, ne_eq, hvisited]
    constructor
    · rintro (hk | ⟨-, hk, -⟩)
      · exact h.admitted index hk
      · exact hk
    · intro hk
      by_cases hmem : index ∈ ordered
      · exact .inl hmem
      · exact .inr ⟨isGarbage_lt garbage hk, hk, hmem⟩

variable (hasDestructor retired : CycleNode → Bool)

theorem node_eq_of_identity {g : CycleGraph} (ha : a ∈ g.nodes) (hb : b ∈ g.nodes)
    (h : a.identity = b.identity) : a = b :=
  List.inj_on_of_nodup_map g.indexed.nodup ha hb h

theorem isGarbage_iff {g : CycleGraph} (h : g.nodes[index]? = some node) :
    g.isGarbage garbage index = true ↔ node.identity ∈ garbage := by
  simp [CycleGraph.isGarbage, h]

theorem mem_destructorNodes (identity : Nat) :
    identity ∈ g.destructorNodes garbage hasDestructor ↔
      ∃ node ∈ g.nodes, node.identity = identity ∧ identity ∈ garbage ∧ node.kind = .object ∧
        hasDestructor node = true := by
  simp only [destructorNodes, List.mem_toFinset, List.mem_filterMap, Option.bind_eq_some_iff,
    Option.ite_none_right_eq_some, Bool.and_eq_true, decide_eq_true_eq, Option.some.injEq,
    (g.destructorOrder_exact garbage).2]
  constructor
  · rintro ⟨index, hgarbage, node, hnode, ⟨hkind, hdestructor⟩, rfl⟩
    exact ⟨node, List.mem_of_getElem? hnode, rfl, (isGarbage_iff garbage hnode).1 hgarbage, hkind,
      hdestructor⟩
  · rintro ⟨node, hmem, rfl, hgarbage, hkind, hdestructor⟩
    obtain ⟨index, hnode⟩ := List.getElem?_of_mem hmem
    exact ⟨index, (isGarbage_iff garbage hnode).2 hgarbage, node, hnode, ⟨hkind, hdestructor⟩, rfl⟩

/-- An object of the garbage whose destructor is still to run. -/
def Pending (identity : Nat) : Prop :=
  ∃ node ∈ g.nodes, node.identity = identity ∧ identity ∈ garbage ∧ node.kind = .object ∧
    hasDestructor node = true ∧ retired node = false

theorem mem_pendingDestructors (identity : Nat) :
    identity ∈ g.pendingDestructors garbage hasDestructor retired ↔
      g.Pending garbage hasDestructor retired identity := by
  simp only [pendingDestructors, List.mem_toFinset, List.mem_filterMap,
    Option.ite_none_right_eq_some, Bool.and_eq_true, decide_eq_true_eq, Option.some.injEq,
    Bool.not_eq_true', mem_destructorNodes]
  constructor
  · rintro ⟨node, hmem, ⟨⟨node', hmem', hid, hgarbage, hkind, hdestructor⟩, hretired⟩, rfl⟩
    obtain rfl : node' = node := node_eq_of_identity hmem' hmem hid
    exact ⟨node', hmem, rfl, hgarbage, hkind, hdestructor, hretired⟩
  · rintro ⟨node, hmem, rfl, hgarbage, hkind, hdestructor, hretired⟩
    exact ⟨node, hmem, ⟨⟨node, hmem, rfl, hgarbage, hkind, hdestructor⟩, hretired⟩, rfl⟩

theorem mem_dispatched (identity : Nat) :
    identity ∈ g.dispatched garbage hasDestructor retired ↔
      g.Pending garbage hasDestructor retired identity := by
  simp only [dispatched, List.mem_filterMap, Option.bind_eq_some_iff,
    Option.ite_none_right_eq_some, Bool.and_eq_true, decide_eq_true_eq, Option.some.injEq,
    (g.destructorOrder_exact garbage).2, mem_pendingDestructors]
  constructor
  · rintro ⟨index, -, node, -, ⟨-, hpending⟩, rfl⟩
    exact hpending
  · rintro ⟨node, hmem, rfl, hgarbage, hkind, hrest⟩
    obtain ⟨index, hnode⟩ := List.getElem?_of_mem hmem
    exact ⟨index, (isGarbage_iff garbage hnode).2 hgarbage, node, hnode,
      ⟨hkind, node, hmem, rfl, hgarbage, hkind, hrest⟩, rfl⟩

theorem dispatched_nodup : (g.dispatched garbage hasDestructor retired).Nodup := by
  refine (g.destructorOrder_exact garbage).1.filterMap fun i j identity hi hj => ?_
  simp only [Option.mem_def, Option.bind_eq_some_iff, Option.ite_none_right_eq_some,
    Option.some.injEq] at hi hj
  obtain ⟨a, ha, -, hida⟩ := hi
  obtain ⟨b, hb, -, hidb⟩ := hj
  have hli := (CycleGraph.lookup_eq_some_iff ha).2 hida.symm
  have hlj := (CycleGraph.lookup_eq_some_iff hb).2 hidb.symm
  exact Option.some.inj (hli.symm.trans hlj)

/-- The order holds every garbage index once and no other, so that a pass dispatches every pending
destructor once and forgets none. -/
theorem destructors_ordered_and_dispatched_once :
    (g.destructorOrder garbage).Nodup ∧
      (∀ index, index ∈ g.destructorOrder garbage ↔ g.isGarbage garbage index = true) ∧
      (g.dispatched garbage hasDestructor retired).Nodup ∧
      ∀ identity, identity ∈ g.dispatched garbage hasDestructor retired ↔
        g.Pending garbage hasDestructor retired identity :=
  ⟨(g.destructorOrder_exact garbage).1, (g.destructorOrder_exact garbage).2,
    g.dispatched_nodup garbage hasDestructor retired,
    g.mem_dispatched garbage hasDestructor retired⟩

end Order

end DestructorGraph

end Rphp.Runtime
