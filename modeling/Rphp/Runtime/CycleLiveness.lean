import Mathlib.Data.Finset.Basic
import Mathlib.Order.Bounds.Basic
import Rphp.Lib.Assoc
import Rphp.Lib.Worklist

namespace Rphp.Runtime
open Rphp.Lib
set_option autoImplicit true

inductive CycleNodeKind where
  | array
  | object
  | reference
  | closure
deriving DecidableEq, Repr

/-- One allocation of the snapshot: its identity, its strong count while the snapshot holds one
handle, and whether native object state keeps it alive. -/
structure CycleNode where
  identity : Nat
  kind : CycleNodeKind
  strongCount : Nat
  nativeStateRetains : Bool
deriving DecidableEq, Repr

structure EphemeronEdge where
  map : Nat
  key : Nat
  value : Nat
deriving DecidableEq, Repr

/-- The ownership graph of one collector pass. The index table lists exactly the nodes. -/
structure CycleGraph where
  nodes : List CycleNode
  indices : AList (fun _ : Nat => Nat)
  unadmitted : Finset Nat
  ordinaryEdges : List (Nat × Nat)
  ephemerons : List EphemeronEdge
  indexed : IsIndexOf indices (nodes.map CycleNode.identity)

namespace CycleGraph

def empty : CycleGraph where
  nodes := []
  indices := ∅
  unadmitted := ∅
  ordinaryEdges := []
  ephemerons := []
  indexed := .nil

/-- Add a node unless its identity is already present. -/
def addNode (g : CycleGraph) (node : CycleNode) : CycleGraph :=
  match h : g.indices.lookup node.identity with
  | some _ => g
  | none =>
    { g with
      nodes := g.nodes ++ [node]
      indices := g.indices.insert node.identity g.nodes.length
      indexed := by
        have hnot := g.indexed.lookup_eq_none.1 h
        simpa using g.indexed.push hnot }

/-- Count one more incoming edge at the node with the given identity. -/
def bump (g : CycleGraph) (counts : List Nat) (target : Nat) : List Nat :=
  match g.indices.lookup target with
  | some index => counts.modify index (· + 1)
  | none => counts

def incoming (g : CycleGraph) : List Nat :=
  let counts := g.ordinaryEdges.foldl (fun counts e => g.bump counts e.2)
    (List.replicate g.nodes.length 0)
  g.ephemerons.foldl (fun counts e => g.bump counts e.value) counts

/-- Record an ordinary edge between two nodes of the table; other edges are dropped. -/
def connect (g : CycleGraph) (table : List (List Nat)) (e : Nat × Nat) : List (List Nat) :=
  match g.indices.lookup e.1, g.indices.lookup e.2 with
  | some source, some target => table.modify source (· ++ [target])
  | _, _ => table

def adjacency (g : CycleGraph) : List (List Nat) :=
  g.ordinaryEdges.foldl g.connect (List.replicate g.nodes.length [])

/-- The test by which the source seeds the traversal. -/
def isSeed (g : CycleGraph) (index : Nat) (node : CycleNode) : Bool :=
  (node.kind = .object && node.nativeStateRetains) || node.identity ∈ g.unadmitted ||
    node.strongCount - (1 + g.incoming.getD index 0) != 0

def seeds (g : CycleGraph) : List Nat :=
  (List.range g.nodes.length).filter fun i => (g.nodes[i]?).any (g.isSeed i)

/-- One sweep over the ephemerons: mark the values whose map and key are live, and return them. -/
def enableEphemerons (g : CycleGraph) : List EphemeronEdge → List Bool → List Bool × List Nat
  | [], live => (live, [])
  | e :: es, live =>
    match g.indices.lookup e.map, g.indices.lookup e.key, g.indices.lookup e.value with
    | some map, some key, some value =>
      if live[map]? = some true ∧ live[key]? = some true ∧ live[value]? = some false then
        let r := enableEphemerons g es (live.set value true)
        (r.1, value :: r.2)
      else
        enableEphemerons g es live
    | _, _, _ => enableEphemerons g es live

/-- Follow ordinary edges from the queue. -/
def propagate (adjacency : List (List Nat)) (live : List Bool) (queue : List Nat) : List Bool :=
  drain adjacency live queue

theorem enableEphemerons_count (g : CycleGraph) (es : List EphemeronEdge) (live : List Bool) :
    (g.enableEphemerons es live).1.count false + (g.enableEphemerons es live).2.length =
      live.count false := by
  induction es generalizing live with
  | nil => rfl
  | cons e es ih =>
    unfold enableEphemerons
    split
    · split
      · rename_i map key value _ _ _ h
        have := count_set_true h.2.2
        have := ih (live.set value true)
        simp only [List.length_cons]
        omega
      · exact ih live
    · exact ih live

/-- Alternate ephemeron sweeps and propagation until a sweep enables nothing. -/
def settle (g : CycleGraph) (live : List Bool) : List Bool :=
  let r := g.enableEphemerons g.ephemerons live
  let live' := propagate g.adjacency r.1 r.2
  if r.2 = [] then live' else settle g live'
termination_by live.count false
decreasing_by
  rename_i h
  have := g.enableEphemerons_count g.ephemerons live
  have := drain_count_le g.adjacency (g.enableEphemerons g.ephemerons live).1
    (g.enableEphemerons g.ephemerons live).2
  have : 0 < (g.enableEphemerons g.ephemerons live).2.length := List.length_pos_of_ne_nil h
  simp only [propagate]
  omega

/-- The marks and the queue before the first traversal. -/
def seeded (g : CycleGraph) : List Bool × List Nat :=
  markAll g.seeds (List.replicate g.nodes.length false)

def liveMarks (g : CycleGraph) : List Bool :=
  g.settle (propagate g.adjacency g.seeded.1 g.seeded.2)

/-- The identities the collector keeps. -/
def liveIdentities (g : CycleGraph) : Finset Nat :=
  ((g.nodes.zip g.liveMarks).filterMap fun p => if p.2 then some p.1.identity else none).toFinset

/-- The nodes a collector pass classifies as garbage. -/
def garbage (g : CycleGraph) : List (Nat × CycleNodeKind) :=
  (g.nodes.filter fun node => node.identity ∉ g.liveIdentities).map fun node =>
    (node.identity, node.kind)

end CycleGraph

namespace CycleGraph

def IsNode (g : CycleGraph) (identity : Nat) : Prop :=
  ∃ node ∈ g.nodes, node.identity = identity

/-- The recorded edges, ordinary and ephemeron, that point at an identity. -/
def incomingEdges (g : CycleGraph) (identity : Nat) : Nat :=
  g.ordinaryEdges.countP (fun e => e.2 = identity) +
    g.ephemerons.countP (fun e => e.value = identity)

/-- A node that something outside the graph keeps alive. -/
def IsRoot (g : CycleGraph) (node : CycleNode) : Prop :=
  1 + g.incomingEdges node.identity < node.strongCount ∨ node.identity ∈ g.unadmitted ∨
    node.kind = .object ∧ node.nativeStateRetains

/-- A set of node identities that holds the roots and is closed under ordinary edges and
under ephemerons with a live map and a live key. -/
structure Closed (g : CycleGraph) (L : Set Nat) : Prop where
  nodes : ∀ identity ∈ L, g.IsNode identity
  roots : ∀ node ∈ g.nodes, g.IsRoot node → node.identity ∈ L
  edges : ∀ e ∈ g.ordinaryEdges, g.IsNode e.2 → e.1 ∈ L → e.2 ∈ L
  ephemerons : ∀ e ∈ g.ephemerons, g.IsNode e.value → e.map ∈ L → e.key ∈ L → e.value ∈ L

/-- What an external owner reaches. -/
inductive Reached (g : CycleGraph) : Nat → Prop where
  | root : node ∈ g.nodes → g.IsRoot node → Reached g node.identity
  | edge : e ∈ g.ordinaryEdges → g.IsNode e.2 → Reached g e.1 → Reached g e.2
  | ephemeron : e ∈ g.ephemerons → g.IsNode e.value → Reached g e.map → Reached g e.key →
      Reached g e.value

theorem lookup_lt {g : CycleGraph} (h : g.indices.lookup identity = some index) :
    index < g.nodes.length := by
  simpa using g.indexed.lt h

theorem lookup_eq_some_iff {g : CycleGraph} (h : g.nodes[index]? = some node) :
    g.indices.lookup identity = some index ↔ identity = node.identity := by
  rw [g.indexed, List.getElem?_map, h]
  simp [eq_comm]

theorem exists_lookup {g : CycleGraph} (h : g.IsNode identity) :
    ∃ index, g.indices.lookup identity = some index := by
  obtain ⟨node, hn, rfl⟩ := h
  obtain ⟨index, hi⟩ := List.getElem?_of_mem hn
  exact ⟨index, (lookup_eq_some_iff hi).2 rfl⟩

theorem isNode_of_lookup {g : CycleGraph} (h : g.indices.lookup identity = some index) :
    g.IsNode identity := by
  have := List.mem_of_getElem? ((g.indexed identity index).1 h)
  simpa [IsNode] using this

theorem foldl_bump_getElem? (g : CycleGraph) (f : α → Nat) (es : List α) (counts : List Nat)
    (i : Nat) :
    (es.foldl (fun counts e => g.bump counts (f e)) counts)[i]? =
      counts[i]?.map (· + es.countP fun e => g.indices.lookup (f e) = some i) := by
  induction es generalizing counts with
  | nil => simp
  | cons e es ih =>
    simp only [List.foldl_cons, ih, List.countP_cons]
    unfold bump
    cases h : g.indices.lookup (f e) with
    | none => simp
    | some index =>
      simp only [List.getElem?_modify, Option.some.injEq, decide_eq_true_eq]
      by_cases hi : index = i
      · subst hi
        cases counts[index]? with
        | none => rfl
        | some count => simp [Nat.add_assoc, Nat.add_comm 1]
      · simp [hi]

/-- The count the source keeps for a node is the number of edges that point at it. -/
theorem incoming_getD {g : CycleGraph} (h : g.nodes[i]? = some node) :
    g.incoming.getD i 0 = g.incomingEdges node.identity := by
  have hlt : i < g.nodes.length := (List.getElem?_eq_some_iff.1 h).1
  unfold incoming incomingEdges
  simp only [List.getD_eq_getElem?_getD, foldl_bump_getElem?, List.getElem?_replicate, hlt,
    ↓reduceIte, Option.map_some, Option.getD_some, lookup_eq_some_iff h, Nat.zero_add]

theorem isSeed_iff {g : CycleGraph} (h : g.nodes[i]? = some node) :
    g.isSeed i node = true ↔ g.IsRoot node := by
  unfold isSeed IsRoot
  rw [incoming_getD h]
  simp only [Bool.or_eq_true, Bool.and_eq_true, decide_eq_true_eq, bne_iff_ne]
  constructor
  · rintro ((hn | hu) | hs)
    · exact .inr (.inr hn)
    · exact .inr (.inl hu)
    · exact .inl (by omega)
  · rintro (hs | hu | hn)
    · exact .inr (by omega)
    · exact .inl (.inr hu)
    · exact .inl (.inl hn)

theorem mem_seeds {g : CycleGraph} :
    i ∈ g.seeds ↔ ∃ node, g.nodes[i]? = some node ∧ g.IsRoot node := by
  unfold seeds
  rw [List.mem_filter, List.mem_range]
  constructor
  · rintro ⟨_, h⟩
    cases hn : g.nodes[i]? with
    | none => simp [hn] at h
    | some node => exact ⟨node, rfl, (isSeed_iff hn).1 (by simpa [hn] using h)⟩
  · rintro ⟨node, hn, hr⟩
    exact ⟨(List.getElem?_eq_some_iff.1 hn).1, by simp [hn, (isSeed_iff hn).2 hr]⟩

@[simp] theorem foldl_connect_length (g : CycleGraph) (es : List (Nat × Nat))
    (table : List (List Nat)) : (es.foldl g.connect table).length = table.length := by
  induction es generalizing table with
  | nil => rfl
  | cons e es ih =>
    rw [List.foldl_cons, ih]
    unfold connect
    split <;> simp

theorem mem_foldl_connect (g : CycleGraph) (es : List (Nat × Nat)) (table : List (List Nat))
    (hs : source < table.length) :
    target ∈ (es.foldl g.connect table).getD source [] ↔
      target ∈ table.getD source [] ∨ ∃ e ∈ es, g.indices.lookup e.1 = some source ∧
        g.indices.lookup e.2 = some target := by
  induction es generalizing table with
  | nil => simp
  | cons e es ih =>
    have hl : (g.connect table e).length = table.length := by
      simpa using foldl_connect_length g [e] table
    rw [List.foldl_cons, ih _ (hl ▸ hs)]
    simp only [List.mem_cons, exists_eq_or_imp, ← or_assoc]
    refine or_congr_left ?_
    unfold connect
    cases h1 : g.indices.lookup e.1 with
    | none => simp
    | some s =>
      cases h2 : g.indices.lookup e.2 with
      | none => simp
      | some t =>
        by_cases he : s = source
        · subst he
          simp [List.getD_eq_getElem?_getD, hs, eq_comm]
        · simp [List.getD_eq_getElem?_getD, he]

theorem mem_adjacency {g : CycleGraph} (hs : source < g.nodes.length) :
    target ∈ g.adjacency.getD source [] ↔ ∃ e ∈ g.ordinaryEdges,
      g.indices.lookup e.1 = some source ∧ g.indices.lookup e.2 = some target := by
  unfold adjacency
  rw [mem_foldl_connect _ _ _ (by simpa using hs)]
  simp [List.getD_eq_getElem?_getD, hs]

/-- Closure under a list of ephemerons, on positions of the node table. -/
def EphemeronClosed (g : CycleGraph) (es : List EphemeronEdge) (S : Set Nat) : Prop :=
  ∀ e ∈ es, ∀ map key value, g.indices.lookup e.map = some map →
    g.indices.lookup e.key = some key → g.indices.lookup e.value = some value →
    map ∈ S → key ∈ S → value ∈ S

@[simp] theorem enableEphemerons_length (g : CycleGraph) (es : List EphemeronEdge)
    (live : List Bool) : (g.enableEphemerons es live).1.length = live.length := by
  induction es generalizing live with
  | nil => rfl
  | cons e es ih =>
    unfold enableEphemerons
    split
    · split
      · simp only [ih, List.length_set]
      · exact ih live
    · exact ih live

theorem mem_marked_enableEphemerons (g : CycleGraph) (es : List EphemeronEdge)
    (live : List Bool) (k : Nat) :
    k ∈ marked (g.enableEphemerons es live).1 ↔
      k ∈ marked live ∨ k ∈ (g.enableEphemerons es live).2 := by
  induction es generalizing live with
  | nil => simp [enableEphemerons]
  | cons e es ih =>
    unfold enableEphemerons
    split
    · split
      · rename_i h
        have hlt := (List.getElem?_eq_some_iff.1 h.2.2).1
        simp only [ih, mem_marked_set hlt, List.mem_cons]
        tauto
      · exact ih live
    · exact ih live

theorem enableEphemerons_subset {g : CycleGraph} {es : List EphemeronEdge} {live : List Bool}
    {S : Set Nat} (hS : g.EphemeronClosed es S) (hm : ∀ k ∈ marked live, k ∈ S) :
    ∀ k ∈ marked (g.enableEphemerons es live).1, k ∈ S := by
  induction es generalizing live with
  | nil => exact hm
  | cons e es ih =>
    have hes : g.EphemeronClosed es S := fun e' he' => hS e' (List.mem_cons_of_mem _ he')
    unfold enableEphemerons
    split
    · rename_i map key value h1 h2 h3
      split
      · rename_i h
        have hlt := (List.getElem?_eq_some_iff.1 h.2.2).1
        refine ih hes fun k hk => ?_
        rcases (mem_marked_set hlt k).1 hk with rfl | hk
        · exact hS e (by simp) map key _ h1 h2 h3 (hm _ h.1) (hm _ h.2.1)
        · exact hm k hk
      · exact ih hes hm
    · exact ih hes hm

/-- A sweep that enables nothing has found the marks closed. -/
theorem ephemeronClosed_of_enableEphemerons {g : CycleGraph} {es : List EphemeronEdge}
    {live : List Bool} (hlen : live.length = g.nodes.length)
    (h : (g.enableEphemerons es live).2 = []) :
    g.EphemeronClosed es (marked live) := by
  induction es with
  | nil => intro e he; cases he
  | cons e es ih =>
    unfold enableEphemerons at h
    intro e' he' map key value h1 h2 h3 hmap hkey
    rcases List.mem_cons.1 he' with rfl | he'
    · simp only [h1, h2, h3] at h
      split at h
      · cases h
      · rename_i hn
        have hlt : value < live.length := hlen ▸ lookup_lt h3
        cases hb : live[value] with
        | true => exact List.getElem?_eq_some_iff.2 ⟨hlt, hb⟩
        | false => exact absurd ⟨hmap, hkey, List.getElem?_eq_some_iff.2 ⟨hlt, hb⟩⟩ hn
    · refine ih ?_ e' he' map key value h1 h2 h3 hmap hkey
      split at h
      · split at h
        · cases h
        · exact h
      · exact h

theorem mem_marked_settle {g : CycleGraph} {live : List Bool} (h : k ∈ marked live) :
    k ∈ marked (g.settle live) := by
  induction live using settle.induct g with
  | case1 live r hr =>
    rw [settle, if_pos hr]
    exact mem_marked_drain _ _ ((mem_marked_enableEphemerons _ _ _ _).2 (.inl h))
  | case2 live r live' hr ih =>
    rw [settle, if_neg hr]
    exact ih (mem_marked_drain _ _ ((mem_marked_enableEphemerons _ _ _ _).2 (.inl h)))

theorem settle_subset {g : CycleGraph} {live : List Bool} {S : Set Nat}
    (hE : EdgeClosed g.adjacency live.length S) (hS : g.EphemeronClosed g.ephemerons S)
    (hm : ∀ k ∈ marked live, k ∈ S) : ∀ k ∈ marked (g.settle live), k ∈ S := by
  have hdrain : ∀ live : List Bool, EdgeClosed g.adjacency live.length S →
      (∀ k ∈ marked live, k ∈ S) → ∀ k ∈ marked (propagate g.adjacency
        (g.enableEphemerons g.ephemerons live).1 (g.enableEphemerons g.ephemerons live).2),
        k ∈ S := by
    intro live hE hm k hk
    have hsub := enableEphemerons_subset hS hm
    refine drain_subset ?_ hsub ?_ hk
    · simpa using hE
    · intro i hi
      exact hsub i ((mem_marked_enableEphemerons _ _ _ _).2 (.inr hi))
  induction live using settle.induct g with
  | case1 live r hr =>
    rw [settle, if_pos hr]
    exact hdrain live hE hm
  | case2 live r live' hr ih =>
    rw [settle, if_neg hr]
    refine ih ?_ (hdrain live hE hm)
    simpa [live', propagate, r] using hE

/-- From marks closed under ordinary edges the loop ends in marks closed under both rules. -/
theorem settle_closed {g : CycleGraph} {live : List Bool} (hlen : live.length = g.nodes.length)
    (hE : EdgeClosed g.adjacency live.length (marked live)) :
    EdgeClosed g.adjacency live.length (marked (g.settle live)) ∧
      g.EphemeronClosed g.ephemerons (marked (g.settle live)) := by
  induction live using settle.induct g with
  | case1 live r hr =>
    have hlive : ∀ k, k ∈ marked r.1 ↔ k ∈ marked live := by
      intro k
      rw [mem_marked_enableEphemerons]
      simp only [r] at hr
      simp [hr]
    have hset : marked (propagate g.adjacency r.1 r.2) = marked live := by
      ext k
      simp only [propagate, hr, drain]
      exact hlive k
    rw [settle, if_pos hr]
    have hc : g.EphemeronClosed g.ephemerons (marked live) :=
      ephemeronClosed_of_enableEphemerons hlen hr
    exact ⟨hset ▸ hE, hset ▸ hc⟩
  | case2 live r live' hr ih =>
    have hl : live'.length = live.length := by simp [live', propagate, r]
    rw [settle, if_neg hr]
    rw [hl] at ih
    refine ih hlen ?_
    have hrl : r.1.length = live.length := enableEphemerons_length _ _ _
    have hd : EdgeClosed g.adjacency r.1.length (marked live') := by
      refine drain_closed fun s hs hsq t ht hlt => ?_
      have hold := ((mem_marked_enableEphemerons _ _ _ _).1 hs).resolve_right hsq
      exact (mem_marked_enableEphemerons _ _ _ _).2 (.inl (hE s hold t ht (hrl ▸ hlt)))
    rwa [hrl] at hd

@[simp] theorem seeded_length (g : CycleGraph) : g.seeded.1.length = g.nodes.length := by
  simp [seeded]

theorem not_mem_marked_replicate (n k : Nat) : k ∉ marked (List.replicate n false) := by
  simp only [marked, Set.mem_ofPred_eq, List.getElem?_replicate]
  split <;> simp

theorem mem_marked_seeded (g : CycleGraph) (k : Nat) :
    k ∈ marked g.seeded.1 ↔ k ∈ g.seeds := by
  unfold seeded
  rw [mem_marked_markAll, List.length_replicate]
  constructor
  · rintro (h | h)
    · exact absurd h (not_mem_marked_replicate _ _)
    · exact h.1
  · intro h
    obtain ⟨node, hn, _⟩ := mem_seeds.1 h
    exact .inr ⟨h, (List.getElem?_eq_some_iff.1 hn).1⟩

theorem mem_seeded_queue (g : CycleGraph) (k : Nat) :
    k ∈ g.seeded.2 ↔ k ∈ marked g.seeded.1 := by
  unfold seeded
  rw [mem_markAll_snd]
  exact ⟨And.left, fun h => ⟨h, not_mem_marked_replicate _ _⟩⟩

theorem propagate_seeded_closed (g : CycleGraph) :
    EdgeClosed g.adjacency g.nodes.length
      (marked (propagate g.adjacency g.seeded.1 g.seeded.2)) := by
  have hd : EdgeClosed g.adjacency g.seeded.1.length
      (marked (propagate g.adjacency g.seeded.1 g.seeded.2)) :=
    drain_closed fun s hs hsq => absurd ((mem_seeded_queue g s).2 hs) hsq
  rwa [seeded_length] at hd

theorem liveMarks_closed (g : CycleGraph) :
    (∀ i ∈ g.seeds, i ∈ marked g.liveMarks) ∧
      EdgeClosed g.adjacency g.nodes.length (marked g.liveMarks) ∧
      g.EphemeronClosed g.ephemerons (marked g.liveMarks) := by
  have hlen : (propagate g.adjacency g.seeded.1 g.seeded.2).length = g.nodes.length := by
    simp [propagate]
  have hs := settle_closed hlen (hlen.symm ▸ g.propagate_seeded_closed)
  rw [hlen] at hs
  refine ⟨fun i hi => ?_, hs⟩
  exact mem_marked_settle (mem_marked_drain _ _ ((mem_marked_seeded g i).2 hi))

theorem liveMarks_subset {g : CycleGraph} {S : Set Nat} (hseed : ∀ i ∈ g.seeds, i ∈ S)
    (hE : EdgeClosed g.adjacency g.nodes.length S) (hS : g.EphemeronClosed g.ephemerons S) :
    ∀ k ∈ marked g.liveMarks, k ∈ S := by
  have hm : ∀ k ∈ marked g.seeded.1, k ∈ S :=
    fun k hk => hseed k ((mem_marked_seeded g k).1 hk)
  refine settle_subset (by simpa [propagate] using hE) hS fun k hk => ?_
  refine drain_subset (by simpa using hE) hm ?_ hk
  intro i hi
  exact hm i ((mem_seeded_queue g i).1 hi)

theorem mem_liveIdentities {g : CycleGraph} :
    identity ∈ g.liveIdentities ↔
      ∃ index, g.indices.lookup identity = some index ∧ index ∈ marked g.liveMarks := by
  unfold liveIdentities
  rw [List.mem_toFinset, List.mem_filterMap]
  constructor
  · rintro ⟨⟨node, live⟩, hmem, hp⟩
    obtain ⟨index, hi⟩ := List.getElem?_of_mem hmem
    obtain ⟨hn, hl⟩ := List.getElem?_zip_eq_some.1 hi
    cases live with
    | false => cases hp
    | true => exact ⟨index, (lookup_eq_some_iff hn).2 (by simpa using hp.symm), hl⟩
  · rintro ⟨index, hi, hm⟩
    have hget := (g.indexed _ _).1 hi
    rw [List.getElem?_map] at hget
    obtain ⟨node, hn, rfl⟩ := Option.map_eq_some_iff.1 hget
    refine ⟨(node, true), ?_, rfl⟩
    exact List.mem_of_getElem? (List.getElem?_zip_eq_some.2 ⟨hn, hm⟩)

theorem mem_garbage {g : CycleGraph} :
    (identity, kind) ∈ g.garbage ↔
      ∃ node ∈ g.nodes, node.identity = identity ∧ node.kind = kind ∧
        identity ∉ g.liveIdentities := by
  simp only [garbage, List.mem_map, List.mem_filter, decide_eq_true_eq, Prod.mk.injEq]
  constructor
  · rintro ⟨node, ⟨hn, hl⟩, rfl, rfl⟩
    exact ⟨node, hn, rfl, rfl, hl⟩
  · rintro ⟨node, hn, rfl, rfl, hl⟩
    exact ⟨node, ⟨hn, hl⟩, rfl, rfl⟩

theorem liveIdentities_closed (g : CycleGraph) : g.Closed {i | i ∈ g.liveIdentities} := by
  obtain ⟨hseed, hE, hS⟩ := g.liveMarks_closed
  constructor
  · intro identity h
    obtain ⟨index, hi, _⟩ := mem_liveIdentities.1 h
    exact isNode_of_lookup hi
  · intro node hn hr
    obtain ⟨index, hi⟩ := List.getElem?_of_mem hn
    exact mem_liveIdentities.2
      ⟨index, (lookup_eq_some_iff hi).2 rfl, hseed index (mem_seeds.2 ⟨node, hi, hr⟩)⟩
  · intro e he hn h
    obtain ⟨source, hs, hm⟩ := mem_liveIdentities.1 h
    obtain ⟨target, ht⟩ := exists_lookup hn
    have hadj := (mem_adjacency (lookup_lt hs)).2 ⟨e, he, hs, ht⟩
    exact mem_liveIdentities.2 ⟨target, ht, hE source hm target hadj (lookup_lt ht)⟩
  · intro e he hn hmap hkey
    obtain ⟨map, hm, hmm⟩ := mem_liveIdentities.1 hmap
    obtain ⟨key, hk, hkm⟩ := mem_liveIdentities.1 hkey
    obtain ⟨value, hv⟩ := exists_lookup hn
    exact mem_liveIdentities.2 ⟨value, hv, hS e he map key value hm hk hv hmm hkm⟩

/-- Every closed set of identities gives a closed set of positions, so it holds the live ones. -/
theorem liveIdentities_subset {g : CycleGraph} {L : Set Nat} (hL : g.Closed L) :
    ∀ identity ∈ g.liveIdentities, identity ∈ L := by
  have hof : ∀ {identity index}, g.indices.lookup identity = some index →
      (index ∈ {i | ∃ k ∈ L, g.indices.lookup k = some i} ↔ identity ∈ L) := by
    intro identity index hi
    constructor
    · rintro ⟨k, hk, hki⟩
      have h1 := (g.indexed _ _).1 hi
      rw [(g.indexed _ _).1 hki] at h1
      exact Option.some.inj h1 ▸ hk
    · exact fun h => ⟨identity, h, hi⟩
  intro identity h
  obtain ⟨index, hi, hm⟩ := mem_liveIdentities.1 h
  refine (hof hi).1 (liveMarks_subset ?_ ?_ ?_ index hm)
  · intro i hseed
    obtain ⟨node, hn, hr⟩ := mem_seeds.1 hseed
    exact ⟨node.identity, hL.roots node (List.mem_of_getElem? hn) hr,
      (lookup_eq_some_iff hn).2 rfl⟩
  · rintro source ⟨k, hk, hks⟩ target ht _
    obtain ⟨e, he, hs, ht⟩ := (mem_adjacency (lookup_lt hks)).1 ht
    have hsrc : e.1 ∈ L := (hof hs).1 ⟨k, hk, hks⟩
    exact ⟨e.2, hL.edges e he (isNode_of_lookup ht) hsrc, ht⟩
  · intro e he map key value h1 h2 h3 hmap hkey
    exact ⟨e.value, hL.ephemerons e he (isNode_of_lookup h3) ((hof h1).1 hmap) ((hof h2).1 hkey),
      h3⟩

theorem reached_closed (g : CycleGraph) : g.Closed {i | g.Reached i} where
  nodes := by
    intro identity h
    cases h with
    | root hn _ => exact ⟨_, hn, rfl⟩
    | edge _ hn _ => exact hn
    | ephemeron _ hn _ _ => exact hn
  roots _ hn hr := .root hn hr
  edges _ he hn h := .edge he hn h
  ephemerons _ he hn hm hk := .ephemeron he hn hm hk

theorem Reached.mem_of_closed {g : CycleGraph} (h : g.Reached identity) (hL : g.Closed L) :
    identity ∈ L := by
  induction h with
  | root hn hr => exact hL.roots _ hn hr
  | edge he hn _ ih => exact hL.edges _ he hn ih
  | ephemeron he hn _ _ ihm ihk => exact hL.ephemerons _ he hn ihm ihk

/-- The collector keeps the least closed set of identities, which is what the external owners
reach, and classifies every other node as garbage. -/
theorem liveIdentities_isLeast (g : CycleGraph) :
    IsLeast {L | g.Closed L} {i | i ∈ g.liveIdentities} ∧
      (∀ identity, identity ∈ g.liveIdentities ↔ g.Reached identity) ∧
      ∀ node ∈ g.nodes, (node.identity, node.kind) ∈ g.garbage ↔ ¬ g.Reached node.identity := by
  have hlive : ∀ identity, identity ∈ g.liveIdentities ↔ g.Reached identity := fun identity =>
    ⟨fun h => liveIdentities_subset g.reached_closed identity h,
      fun h => h.mem_of_closed g.liveIdentities_closed⟩
  refine ⟨⟨g.liveIdentities_closed, fun L hL identity h => liveIdentities_subset hL identity h⟩,
    hlive, fun node hn => ?_⟩
  rw [mem_garbage, hlive]
  exact ⟨fun ⟨_, _, _, _, h⟩ => h, fun h => ⟨node, hn, rfl, rfl, h⟩⟩

end CycleGraph

end Rphp.Runtime
