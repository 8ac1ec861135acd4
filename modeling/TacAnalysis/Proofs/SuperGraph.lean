import Mathlib.Algebra.GroupWithZero.Nat
import TacAnalysis.Proofs.Program.Accepted
import TacAnalysis.SuperGraph

/-!
# The graph of a whole program

The graphs of the methods are put side by side, so the nodes of each of them come after its
first node and before the first node of the next one. Every edge, inside a method or between
two of them, leads from node to node.

Main statements: `getElem?_locals`, `origin_of_build`, `wellFormed_of_build` and `exists_build`.
-/

namespace TacAnalysis.SuperGraph

/-- Edges stay among the nodes. -/
structure WellFormed (g : SuperGraph) : Prop where
  /-- Control comes from a node. -/
  source_lt : ∀ e ∈ g.edges, e.source < g.nodeCount
  /-- Control goes to a node. -/
  target_lt : ∀ e ∈ g.edges, e.target < g.nodeCount

variable {g : SuperGraph}

/-- A successor is the target of an edge from the node. -/
theorem mem_successors {n m : Nat} :
    m ∈ g.successors n ↔ ∃ e ∈ g.edges, e.source = n ∧ e.target = m := by
  simp [successors, and_assoc]

/-! ## Nodes -/

/-- There are as many nodes as in all the graphs together. -/
theorem nodeCount_eq_sum : g.nodeCount = (g.graphs.map FlowGraph.nodeCount).sum := by
  rw [nodeCount, locals, List.length_flatMap]
  congr 1
  exact List.map_congr_left fun h _ => by simp [FlowGraph.nodes]

/-- The nodes of a graph come before the end of the numbering. -/
theorem add_nodeCount_le {base start : Nat} {graphs : List FlowGraph} {h : FlowGraph}
    (hmem : (base, h) ∈ withBases start graphs) :
    base + h.nodeCount ≤ start + (graphs.map FlowGraph.nodeCount).sum := by
  induction graphs generalizing start with
  | nil => cases hmem
  | cons first rest ih =>
    rw [List.map_cons, List.sum_cons, ← Nat.add_assoc]
    rcases List.mem_cons.1 hmem with hfirst | hmem
    · obtain ⟨rfl, rfl⟩ := Prod.mk.inj hfirst
      exact Nat.le_add_right _ _
    · exact ih hmem

/-- Only the graphs themselves are numbered. -/
theorem mem_of_mem_withBases {base start : Nat} {graphs : List FlowGraph} {h : FlowGraph}
    (hmem : (base, h) ∈ withBases start graphs) : h ∈ graphs := by
  induction graphs generalizing start with
  | nil => cases hmem
  | cons first rest ih =>
    rcases List.mem_cons.1 hmem with hfirst | hmem
    · exact (Prod.mk.inj hfirst).2 ▸ List.mem_cons_self
    · exact List.mem_cons_of_mem first (ih hmem)

/-- A node of a method is a node of the whole. -/
theorem add_lt_nodeCount {base n : Nat} {h : FlowGraph} (hmem : (base, h) ∈ withBases 0 g.graphs)
    (hn : n < h.nodeCount) : base + n < g.nodeCount := by
  have hle := add_nodeCount_le hmem
  rw [← nodeCount_eq_sum, Nat.zero_add] at hle
  omega

theorem mem_withBases_of_find? {graphs : List FlowGraph} {m : MethodId} {base : Nat}
    {h : FlowGraph} (hfind : find? graphs m = some (base, h)) : (base, h) ∈ withBases 0 graphs :=
  List.mem_of_find?_eq_some hfind

/-- What is found is the graph of the method. -/
theorem id_of_find? {graphs : List FlowGraph} {m : MethodId} {base : Nat} {h : FlowGraph}
    (hfind : find? graphs m = some (base, h)) : h.method.id = m := by
  simpa using List.find?_some hfind

/-- The nodes of a graph follow each other from its first node on. -/
theorem getElem?_flatMap_nodes {base start n : Nat} {graphs : List FlowGraph} {h : FlowGraph}
    (hmem : (base, h) ∈ withBases start graphs) (hn : n < h.nodeCount) :
    ∃ offset, base = start + offset ∧
      (graphs.flatMap fun h => h.nodes.map (h, ·))[offset + n]? = some (h, n) := by
  induction graphs generalizing start with
  | nil => cases hmem
  | cons first rest ih =>
    have hlength : (first.nodes.map (first, ·)).length = first.nodeCount := by
      simp [FlowGraph.nodes]
    rcases List.mem_cons.1 hmem with hfirst | hmem
    · obtain ⟨rfl, rfl⟩ := Prod.mk.inj hfirst
      refine ⟨0, rfl, ?_⟩
      rw [List.flatMap_cons, Nat.zero_add, List.getElem?_append_left (hlength ▸ hn)]
      simp [FlowGraph.nodes, hn]
    · obtain ⟨offset, hbase, hget⟩ := ih hmem
      refine ⟨first.nodeCount + offset, by omega, ?_⟩
      rw [List.flatMap_cons, List.getElem?_append_right (by omega), hlength]
      have hindex : first.nodeCount + offset + n - first.nodeCount = offset + n := by omega
      rw [hindex, hget]

/-- A node of a method is found at its place. -/
theorem getElem?_locals {base n : Nat} {h : FlowGraph} (hmem : (base, h) ∈ withBases 0 g.graphs)
    (hn : n < h.nodeCount) : g.locals[base + n]? = some (h, n) := by
  obtain ⟨offset, hbase, hget⟩ := getElem?_flatMap_nodes hmem hn
  rw [hbase, Nat.zero_add]
  exact hget

/-- A node of a method has the statement that it has there. -/
theorem stmt?_add {base n : Nat} {h : FlowGraph} (hmem : (base, h) ∈ withBases 0 g.graphs)
    (hn : n < h.nodeCount) : g.stmt? (base + n) = h.stmt? n := by
  rw [stmt?, getElem?_locals hmem hn, Option.bind_some]

/-- A node of a method belongs to the method. -/
theorem methodOf?_add {base n : Nat} {h : FlowGraph} (hmem : (base, h) ∈ withBases 0 g.graphs)
    (hn : n < h.nodeCount) : g.methodOf? (base + n) = some h.method.id := by
  rw [methodOf?, getElem?_locals hmem hn, Option.map_some]

/-- The entry of a method is the first node of its graph. -/
theorem exists_of_entryOf? {m : MethodId} {n : Nat} (hentry : g.entryOf? m = some n) :
    ∃ h, (n, h) ∈ withBases 0 g.graphs ∧ h.method.id = m := by
  obtain ⟨f, -, hnode⟩ := Option.bind_eq_some_iff.1 hentry
  obtain ⟨⟨base, h⟩, hfind, hnode⟩ := Option.bind_eq_some_iff.1 hnode
  have hm := id_of_find? hfind
  dsimp only at hnode
  split at hnode
  · obtain rfl : base = n := Option.some.inj hnode
    exact ⟨h, mem_withBases_of_find? hfind, hm⟩
  · cases hnode

/-- What is found as a node of a method is a node. -/
theorem node?_lt {m : MethodId} {localNode n : Nat} (h : g.node? m localNode = some n) :
    n < g.nodeCount := by
  obtain ⟨⟨base, f⟩, hfind, hnode⟩ := Option.bind_eq_some_iff.1 h
  change (if localNode < f.nodeCount then some (base + localNode) else none) = some n at hnode
  split at hnode
  · rename_i hlt
    exact Option.some.inj hnode ▸ add_lt_nodeCount (mem_withBases_of_find? hfind) hlt
  · cases hnode

/-- The entry of a method is a node. -/
theorem entryOf?_lt {m : MethodId} {n : Nat} (h : g.entryOf? m = some n) : n < g.nodeCount := by
  obtain ⟨f, -, hnode⟩ := Option.bind_eq_some_iff.1 h
  exact node?_lt hnode

/-! ## Edges -/

/-- A step inside a method leads from node to node. -/
theorem ends_lt {base : Nat} {h : FlowGraph} (hh : h.WellFormed)
    (hmem : (base, h) ∈ withBases 0 g.graphs) {d : FlowEdge} (hd : d ∈ h.edges) :
    base + d.source < g.nodeCount ∧ base + d.target < g.nodeCount :=
  ⟨add_lt_nodeCount hmem (Nat.lt_succ_of_lt (hh.source_lt d hd)),
    add_lt_nodeCount hmem (Nat.lt_succ_of_le (hh.target_le d hd))⟩

theorem of_mem_localEdges {base : Nat} {h : FlowGraph} (hh : h.WellFormed)
    (hmem : (base, h) ∈ withBases 0 g.graphs) {e : SuperEdge} (he : e ∈ localEdges base h) :
    e.source < g.nodeCount ∧ e.target < g.nodeCount := by
  obtain ⟨d, hd, rfl⟩ := List.mem_map.1 he
  exact ends_lt hh hmem hd

/-- The graphs of the methods are well formed, and the edges are theirs and those of their
calls. -/
theorem edges_of_build {p : Program} {calls : CallGraph} (hbuild : build p calls = .ok g) :
    (∀ h ∈ g.graphs, h.WellFormed) ∧ g.edges = (withBases 0 g.graphs).flatMap fun e =>
      localEdges e.1 e.2 ++ callEdges g.graphs calls e.1 e.2 := by
  simp only [build, bind_eq_ok_iff, pure, Except.pure, Except.ok.injEq] at hbuild
  obtain ⟨graphs, hgraphs, rfl⟩ := hbuild
  refine ⟨fun h hh => ?_, rfl⟩
  obtain ⟨m, -, hm⟩ := (mem_of_mapM_eq_ok hgraphs).1 hh
  exact (FlowGraph.wellFormed_of_ofProgram hm).1

/-- How an edge comes about in the graph that is built for a call graph. -/
inductive Origin (g : SuperGraph) (calls : CallGraph) : SuperEdge → Prop
  /-- Inside a method a step does not leave a call. -/
  | inside {base : Nat} {h : FlowGraph} {d : FlowEdge} (hmem : (base, h) ∈ withBases 0 g.graphs)
    (hd : d ∈ h.edges) : Origin g calls ⟨base + d.source, base + d.target, .normal d.kind⟩
  /-- Inside a method a step leaves a call. -/
  | bypass {base : Nat} {h : FlowGraph} {d : FlowEdge} {site : Site}
    (hmem : (base, h) ∈ withBases 0 g.graphs) (hd : d ∈ h.edges)
    (hsite : callSite? h d.source = some site) :
    Origin g calls ⟨base + d.source, base + d.target, .callToReturn site⟩
  /-- A call leads to the entry of a callee. -/
  | call {base calleeBase : Nat} {h f : FlowGraph} {n : NodeId} {site : Site} {callee : MethodId}
    (hmem : (base, h) ∈ withBases 0 g.graphs) (hn : n < h.nodeCount)
    (hsite : callSite? h n = some site) (hcallee : callee ∈ calls.calleesOf site)
    (hfind : find? g.graphs callee = some (calleeBase, f)) :
    Origin g calls ⟨base + n, calleeBase + f.entry, .call site callee⟩
  /-- The exit of a callee leads to where control goes on from the call. -/
  | ret {base calleeBase : Nat} {h f : FlowGraph} {n next : NodeId} {site : Site} {callee : MethodId}
    (hmem : (base, h) ∈ withBases 0 g.graphs) (hnext : next ∈ h.successors n)
    (hsite : callSite? h n = some site) (hcallee : callee ∈ calls.calleesOf site)
    (hfind : find? g.graphs callee = some (calleeBase, f)) :
    Origin g calls ⟨calleeBase + f.exit, base + next, .ret site callee⟩

/-- No edge comes about in another way. -/
theorem origin_of_build {p : Program} {calls : CallGraph} (hbuild : build p calls = .ok g)
    {e : SuperEdge} (he : e ∈ g.edges) : g.Origin calls e := by
  rw [(edges_of_build hbuild).2] at he
  obtain ⟨⟨base, h⟩, hmem, he⟩ := List.mem_flatMap.1 he
  rcases List.mem_append.1 he with he | he
  · obtain ⟨d, hd, rfl⟩ := List.mem_map.1 he
    dsimp only
    cases hsite : callSite? h d.source with
    | none => exact .inside hmem hd
    | some site => exact .bypass hmem hd hsite
  · obtain ⟨n, hn, he⟩ := List.mem_flatMap.1 he
    cases hsite : callSite? h n with
    | none => simp [hsite] at he
    | some site =>
      simp only [hsite] at he
      obtain ⟨callee, hcallee, he⟩ := List.mem_flatMap.1 he
      unfold calleeEdges at he
      rcases hfind : find? g.graphs callee with _ | ⟨calleeBase, f⟩
      · simp [hfind] at he
      · simp only [hfind] at he
        rcases List.mem_cons.1 he with rfl | he
        · exact .call hmem (FlowGraph.mem_nodes.1 hn) hsite hcallee hfind
        · obtain ⟨next, hnext, rfl⟩ := List.mem_map.1 he
          exact .ret hmem hnext hsite hcallee hfind

/-- The graph of a whole program is well formed. -/
theorem wellFormed_of_build {p : Program} {calls : CallGraph} (hbuild : build p calls = .ok g) :
    g.WellFormed := by
  have hgraphs : ∀ {base h}, (base, h) ∈ withBases 0 g.graphs → h.WellFormed := fun hmem =>
    (edges_of_build hbuild).1 _ (mem_of_mem_withBases hmem)
  have hends : ∀ e ∈ g.edges, e.source < g.nodeCount ∧ e.target < g.nodeCount := by
    intro e he
    cases origin_of_build hbuild he with
    | inside hmem hd => exact ends_lt (hgraphs hmem) hmem hd
    | bypass hmem hd => exact ends_lt (hgraphs hmem) hmem hd
    | call hmem hn _ _ hfind =>
      exact ⟨add_lt_nodeCount hmem hn,
        add_lt_nodeCount (mem_withBases_of_find? hfind) (Nat.succ_pos _)⟩
    | ret hmem hnext _ _ hfind =>
      obtain ⟨d, hd, -, rfl⟩ := FlowGraph.mem_successors.1 hnext
      exact ⟨add_lt_nodeCount (mem_withBases_of_find? hfind) (Nat.lt_succ_self _),
        (ends_lt (hgraphs hmem) hmem hd).2⟩
  exact ⟨fun e he => (hends e he).1, fun e he => (hends e he).2⟩

/-- The graph of a whole program is built if the methods that are reached are declared. -/
theorem exists_build {p : Program} (hp : p.WellFormed) {calls : CallGraph}
    (hlt : ∀ m ∈ calls.reachable, m < p.methods.length) : ∃ g, build p calls = .ok g := by
  have hmethods : ∀ m ∈ calls.reachable.filter (!p.isAbstract ·),
      ∃ h, FlowGraph.ofProgram p m = .ok h := by
    intro m hm
    have hm : m < p.methods.length := hlt m (List.mem_filter.1 hm).1
    have hmethod : p.method? m = some p.methods[m] := List.getElem?_eq_getElem hm
    obtain ⟨h, hh, -⟩ := hp.exists_flowGraph hmethod
    exact ⟨h, hh⟩
  obtain ⟨graphs, hgraphs⟩ := exists_mapM_eq_ok hmethods
  exact ⟨_, bind_eq_ok_iff.2 ⟨graphs, hgraphs, rfl⟩⟩

end TacAnalysis.SuperGraph
