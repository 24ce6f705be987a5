import Rphp.Lib.Components
import Rphp.Runtime.CycleLiveness

namespace Rphp.Runtime
open Rphp.Lib Relation
set_option autoImplicit true

namespace CycleGraph

/-- Whether the node at an index is garbage. -/
def isGarbage (g : CycleGraph) (garbage : Finset Nat) (index : Nat) : Bool :=
  (g.nodes[index]?).any fun node => node.identity ∈ garbage

/-- Record an edge between two garbage nodes in both tables. -/
def addGarbageEdge (g : CycleGraph) (garbage : Finset Nat)
    (tables : List (List Nat) × List (List Nat)) (e : Nat × Nat) :
    List (List Nat) × List (List Nat) :=
  match g.indices.lookup e.1, g.indices.lookup e.2 with
  | some source, some target =>
    if g.isGarbage garbage source && g.isGarbage garbage target then
      (tables.1.modify source (· ++ [target]), tables.2.modify target (· ++ [source]))
    else tables
  | _, _ => tables

/-- The edges that count for membership in a cycle; an ephemeron is rooted at its key. -/
def ownershipEdges (g : CycleGraph) : List (Nat × Nat) :=
  g.ordinaryEdges ++ g.ephemerons.map fun e => (e.key, e.value)

def garbageTables (g : CycleGraph) (garbage : Finset Nat) : List (List Nat) × List (List Nat) :=
  g.ownershipEdges.foldl (g.addGarbageEdge garbage)
    (List.replicate g.nodes.length [], List.replicate g.nodes.length [])

/-- The identities of the garbage nodes in components with a cycle. -/
def cyclicIdentities (g : CycleGraph) (garbage : Finset Nat) : Finset Nat :=
  let (adjacency, reverse) := g.garbageTables garbage
  let n := g.nodes.length
  let order := (finishOrder adjacency (g.isGarbage garbage) (List.range n)
    (List.replicate n false, [])).2
  let found := components reverse order.reverse (List.replicate n none) []
  ((found.filter (hasCycle adjacency)).flatten.filterMap fun index =>
    (g.nodes[index]?).map CycleNode.identity).toFinset

/-- An edge of the graph restricted to garbage. -/
structure GarbageEdge (g : CycleGraph) (garbage : Finset Nat) (source target : Nat) : Prop where
  source_node : g.IsNode source
  target_node : g.IsNode target
  source_garbage : source ∈ garbage
  target_garbage : target ∈ garbage
  edge : (source, target) ∈ g.ordinaryEdges ∨
    ∃ e ∈ g.ephemerons, e.key = source ∧ e.value = target

theorem mem_ownershipEdges {g : CycleGraph} :
    (source, target) ∈ g.ownershipEdges ↔ (source, target) ∈ g.ordinaryEdges ∨
      ∃ e ∈ g.ephemerons, e.key = source ∧ e.value = target := by
  simp [ownershipEdges]

theorem mem_getD_modify {table : List (List Nat)} (hlt : i < table.length) (x k j : Nat) :
    x ∈ (table.modify i (· ++ [k])).getD j [] ↔ x ∈ table.getD j [] ∨ i = j ∧ x = k := by
  simp only [List.getD_eq_getElem?_getD, List.getElem?_modify]
  by_cases hij : i = j
  · subst hij
    simp [List.getElem?_eq_getElem hlt]
  · simp [hij]

/-- An edge record that joins two garbage nodes of the table. -/
def Joins (g : CycleGraph) (garbage : Finset Nat) (e : Nat × Nat) (u v : Nat) : Prop :=
  g.indices.lookup e.1 = some u ∧ g.indices.lookup e.2 = some v ∧
    g.isGarbage garbage u = true ∧ g.isGarbage garbage v = true

/-- Both tables have a row for every node. -/
def Sized (g : CycleGraph) (tables : List (List Nat) × List (List Nat)) : Prop :=
  tables.1.length = g.nodes.length ∧ tables.2.length = g.nodes.length

theorem addGarbageEdge_sized {g : CycleGraph} (h : g.Sized tables) (garbage : Finset Nat)
    (e : Nat × Nat) : g.Sized (g.addGarbageEdge garbage tables e) := by
  unfold addGarbageEdge
  split
  · split
    · simpa [Sized] using h
    · exact h
  · exact h

theorem addGarbageEdge_edge {g : CycleGraph} (h : g.Sized tables) (garbage : Finset Nat)
    (e : Nat × Nat) (u v : Nat) :
    (Edge (g.addGarbageEdge garbage tables e).1 u v ↔
      Edge tables.1 u v ∨ g.Joins garbage e u v) ∧
    (Edge (g.addGarbageEdge garbage tables e).2 v u ↔
      Edge tables.2 v u ∨ g.Joins garbage e u v) := by
  unfold addGarbageEdge Joins
  split
  · rename_i source target hs ht
    have hslt : source < tables.1.length := h.1 ▸ lookup_lt hs
    have htlt : target < tables.2.length := h.2 ▸ lookup_lt ht
    simp only [hs, ht, Option.some.injEq]
    split
    · rename_i hgarbage
      simp only [Bool.and_eq_true] at hgarbage
      simp only [Edge, mem_getD_modify hslt, mem_getD_modify htlt]
      constructor
      · refine or_congr_right ⟨?_, ?_⟩
        · rintro ⟨rfl, rfl⟩
          exact ⟨rfl, rfl, hgarbage⟩
        · rintro ⟨rfl, rfl, -⟩
          exact ⟨rfl, rfl⟩
      · refine or_congr_right ⟨?_, ?_⟩
        · rintro ⟨rfl, rfl⟩
          exact ⟨rfl, rfl, hgarbage⟩
        · rintro ⟨rfl, rfl, -⟩
          exact ⟨rfl, rfl⟩
    · rename_i hgarbage
      have hnot : ¬(source = u ∧ target = v ∧ g.isGarbage garbage u = true ∧
          g.isGarbage garbage v = true) := by
        rintro ⟨rfl, rfl, hu, hv⟩
        exact hgarbage (by simp [hu, hv])
      simp [hnot]
  · rename_i hnone
    have hnot : ¬(g.indices.lookup e.1 = some u ∧ g.indices.lookup e.2 = some v ∧
        g.isGarbage garbage u = true ∧ g.isGarbage garbage v = true) :=
      fun hj => hnone u v hj.1 hj.2.1
    simp [hnot]

theorem foldl_addGarbageEdge {g : CycleGraph} (garbage : Finset Nat) (es : List (Nat × Nat))
    (h : g.Sized tables) (u v : Nat) :
    (Edge (es.foldl (g.addGarbageEdge garbage) tables).1 u v ↔
      Edge tables.1 u v ∨ ∃ e ∈ es, g.Joins garbage e u v) ∧
    (Edge (es.foldl (g.addGarbageEdge garbage) tables).2 v u ↔
      Edge tables.2 v u ∨ ∃ e ∈ es, g.Joins garbage e u v) := by
  induction es generalizing tables with
  | nil => simp
  | cons e es ih =>
    have hstep := addGarbageEdge_edge h garbage e u v
    have hlater := ih (addGarbageEdge_sized h garbage e)
    simp only [List.foldl_cons, hlater.1, hlater.2, hstep.1, hstep.2, List.mem_cons,
      exists_eq_or_imp, or_assoc, and_self]

/-- The edges of the tables are those that join garbage nodes. -/
theorem garbageTables_edge (g : CycleGraph) (garbage : Finset Nat) (u v : Nat) :
    (Edge (g.garbageTables garbage).1 u v ↔ ∃ e ∈ g.ownershipEdges, g.Joins garbage e u v) ∧
    (Edge (g.garbageTables garbage).2 v u ↔ ∃ e ∈ g.ownershipEdges, g.Joins garbage e u v) := by
  have hempty (i j : Nat) : ¬Edge (List.replicate g.nodes.length []) i j := by
    simp only [Edge, List.getD_eq_getElem?_getD, List.getElem?_replicate]
    split <;> simp
  have hsized : g.Sized (List.replicate g.nodes.length [], List.replicate g.nodes.length []) := by
    simp [Sized]
  have h := foldl_addGarbageEdge garbage g.ownershipEdges hsized u v
  unfold garbageTables
  simpa only [hempty, false_or] using h

theorem garbageTables_converse (g : CycleGraph) (garbage : Finset Nat) :
    Converse (g.garbageTables garbage).1 (g.garbageTables garbage).2 (g.isGarbage garbage)
      g.nodes.length := by
  refine ⟨fun u v => ?_, fun u v he => ?_, fun u v he => ?_⟩
  · exact (g.garbageTables_edge garbage u v).2.trans (g.garbageTables_edge garbage u v).1.symm
  · obtain ⟨e, -, hs, -, hu, -⟩ := (g.garbageTables_edge garbage u v).1.1 he
    exact ⟨lookup_lt hs, hu⟩
  · obtain ⟨e, -, -, ht, -, -⟩ := (g.garbageTables_edge garbage u v).1.1 he
    exact lookup_lt ht

/-- The index classes that the two passes find are the cyclic ones. -/
theorem mem_cyclic_indices (g : CycleGraph) (garbage : Finset Nat) (k : Nat) :
    k ∈ ((components (g.garbageTables garbage).2
        (finishOrder (g.garbageTables garbage).1 (g.isGarbage garbage) (List.range g.nodes.length)
          (List.replicate g.nodes.length false, [])).2.reverse
        (List.replicate g.nodes.length none) []).filter
          (hasCycle (g.garbageTables garbage).1)).flatten ↔
      TransGen (Edge (g.garbageTables garbage).1) k k := by
  have hc := g.garbageTables_converse garbage
  have hf : Finished (g.garbageTables garbage).1 (g.isGarbage garbage) g.nodes.length
      (finishOrder (g.garbageTables garbage).1 (g.isGarbage garbage) (List.range g.nodes.length)
        (List.replicate g.nodes.length false, [])).2 := finishOrder_finished hc.target
  generalize (finishOrder (g.garbageTables garbage).1 (g.isGarbage garbage)
    (List.range g.nodes.length) (List.replicate g.nodes.length false, [])).2 = order at hf ⊢
  have hstart : Partitioned (g.garbageTables garbage).1 g.nodes.length []
      (List.replicate g.nodes.length none) [] := by
    refine ⟨by simp, fun k => ?_, by simp, by simp⟩
    simp [assigned, List.getElem?_replicate]
  have hf' : Finished (g.garbageTables garbage).1 (g.isGarbage garbage) g.nodes.length
      (order.reverse.reverse ++ []) := by simpa using hf
  obtain ⟨final, hp⟩ := components_partition hc hf' hstart
  have hsource : ∀ u v, Edge (g.garbageTables garbage).1 u v → u ∈ order.reverse.reverse ++ [] := by
    intro u v he
    simpa using hf.admitted u (hc.source u v he).1 (hc.source u v he).2
  rw [← mem_hasCycle hp hsource k]
  simp [List.mem_flatten, List.mem_filter, and_assoc]

section Identities

variable (g : CycleGraph) (garbage : Finset Nat)

theorem isGarbage_of_lookup {g : CycleGraph} (h : g.indices.lookup identity = some index) :
    g.isGarbage garbage index = true ↔ identity ∈ garbage := by
  have hnode := (g.indexed identity index).1 h
  rw [List.getElem?_map, Option.map_eq_some_iff] at hnode
  obtain ⟨node, hnode, rfl⟩ := hnode
  simp [isGarbage, hnode]

theorem lookup_injective {g : CycleGraph} (h : g.indices.lookup a = some index)
    (h' : g.indices.lookup b = some index) : a = b :=
  Option.some.inj (((g.indexed a index).1 h).symm.trans ((g.indexed b index).1 h'))

theorem edge_iff_garbageEdge (hs : g.indices.lookup source = some u)
    (ht : g.indices.lookup target = some v) :
    Edge (g.garbageTables garbage).1 u v ↔ g.GarbageEdge garbage source target := by
  rw [(g.garbageTables_edge garbage u v).1]
  constructor
  · rintro ⟨⟨a, b⟩, he, ha, hb, hu, hv⟩
    obtain rfl : a = source := lookup_injective ha hs
    obtain rfl : b = target := lookup_injective hb ht
    exact ⟨isNode_of_lookup hs, isNode_of_lookup ht, (isGarbage_of_lookup garbage hs).1 hu,
      (isGarbage_of_lookup garbage ht).1 hv, mem_ownershipEdges.1 he⟩
  · intro h
    exact ⟨(source, target), mem_ownershipEdges.2 h.edge, hs, ht,
      (isGarbage_of_lookup garbage hs).2 h.source_garbage,
      (isGarbage_of_lookup garbage ht).2 h.target_garbage⟩

def identityAt (index : Nat) : Nat := ((g.nodes[index]?).map CycleNode.identity).getD 0

def indexOf (identity : Nat) : Nat := (g.indices.lookup identity).getD 0

theorem identityAt_of_lookup {g : CycleGraph} (h : g.indices.lookup identity = some index) :
    g.identityAt index = identity := by
  have hnode := (g.indexed identity index).1 h
  rw [List.getElem?_map] at hnode
  simp [identityAt, hnode]

theorem cycle_of_index_cycle (h : TransGen (Edge (g.garbageTables garbage).1) u v) :
    TransGen (g.GarbageEdge garbage) (g.identityAt u) (g.identityAt v) := by
  refine TransGen.lift g.identityAt (fun a b he => ?_) _ _ h
  obtain ⟨e, -, ha, hb, -, -⟩ := (g.garbageTables_edge garbage a b).1.1 he
  change g.GarbageEdge garbage (g.identityAt a) (g.identityAt b)
  rw [identityAt_of_lookup ha, identityAt_of_lookup hb]
  exact (g.edge_iff_garbageEdge garbage ha hb).1 he

theorem index_cycle_of_cycle (h : TransGen (g.GarbageEdge garbage) source target) :
    TransGen (Edge (g.garbageTables garbage).1) (g.indexOf source) (g.indexOf target) := by
  refine TransGen.lift g.indexOf (fun a b he => ?_) _ _ h
  obtain ⟨u, hu⟩ := exists_lookup he.source_node
  obtain ⟨v, hv⟩ := exists_lookup he.target_node
  change Edge (g.garbageTables garbage).1 (g.indexOf a) (g.indexOf b)
  simp only [indexOf, hu, hv, Option.getD_some]
  exact (g.edge_iff_garbageEdge garbage hu hv).2 he

theorem mem_cyclicIdentities (identity : Nat) :
    identity ∈ g.cyclicIdentities garbage ↔
      ∃ index, TransGen (Edge (g.garbageTables garbage).1) index index ∧
        g.indices.lookup identity = some index := by
  unfold cyclicIdentities
  simp only [List.mem_toFinset, List.mem_filterMap, mem_cyclic_indices]
  refine exists_congr fun index => and_congr_right fun _ => ?_
  rw [g.indexed, List.getElem?_map]

/-- The collector's cyclic identities are the garbage nodes on a directed cycle of garbage. -/
theorem cyclicIdentities_exact (identity : Nat) :
    identity ∈ g.cyclicIdentities garbage ↔
      TransGen (g.GarbageEdge garbage) identity identity := by
  rw [mem_cyclicIdentities]
  constructor
  · rintro ⟨index, hcycle, hlookup⟩
    have h := g.cycle_of_index_cycle garbage hcycle
    rwa [identityAt_of_lookup hlookup] at h
  · intro h
    obtain ⟨next, he, -⟩ := TransGen.head'_iff.1 h
    obtain ⟨index, hlookup⟩ := exists_lookup he.source_node
    refine ⟨index, ?_, hlookup⟩
    simpa [indexOf, hlookup] using g.index_cycle_of_cycle garbage h

end Identities

end CycleGraph

end Rphp.Runtime
