import TacAnalysis.Proofs.ControlFlow.Statements
import TacAnalysis.Proofs.Strict.Flow

/-!
# What the graph of a method consists of

A body need not have been checked before its graph is built. If some jump leaves the body there is
no graph, and the first such jump in the order of the program is reported. Otherwise the graph has
the edges that the statements prescribe, one after the other, and nothing else; bodies without
statements and bodies that run out behind their last statement lead to the exit.

The edges are read off per node in two ways, by the node that they leave and by the node that they
enter. Two cases of a switch may be alike, and then so are their edges; what tells them apart is
their place among all edges. By their places both ways list every edge exactly once. So do the rows
of the tables that are filled edge by edge, of places and of the nodes at the other ends.

Main statement: `ofMethod_exact`.
-/

namespace TacAnalysis.FlowGraph

section Edges

variable (g : FlowGraph)

/-- The edge with which every run of the method begins. -/
def firstEdge : FlowEdge := ⟨g.entry, g.nodeFrom 0, .entry⟩

/-- The edges that have a node at one end are listed, each by its own place among all edges, and in
the order of these places. -/
def ListsOnce (endOf : FlowEdge → NodeId) (n : NodeId) (listed : List FlowEdge) : Prop :=
  ∃ places, Strict.Tells g.edges endOf n places listed

/-- The tables of a graph, with a row for each node. -/
structure Adjacency where
  /-- The places of the edges that leave the node, among all edges. -/
  outPlaces : List (List Nat)
  /-- The places of the edges that enter the node, among all edges. -/
  inPlaces : List (List Nat)
  /-- The nodes that follow. -/
  successors : List (List NodeId)
  /-- The nodes that come before. -/
  predecessors : List (List NodeId)

/-- The tables are filled edge by edge. -/
def adjacency? : Option Adjacency := do
  let outPlaces ← Strict.placeRows? g.nodeCount FlowEdge.source g.edges
  let inPlaces ← Strict.placeRows? g.nodeCount FlowEdge.target g.edges
  let successors ← Strict.rows? g.nodeCount (g.edges.map fun e => (e.source, e.target))
  let predecessors ← Strict.rows? g.nodeCount (g.edges.map fun e => (e.target, e.source))
  return ⟨outPlaces, inPlaces, successors, predecessors⟩

/-- The rows of a node tell its edges and the other ends of these edges. -/
structure Adjacency.TellsNode (a : Adjacency) (n : NodeId) : Prop where
  /-- The places are those of the edges that leave the node. -/
  outPlaces : ∃ places, a.outPlaces[n]? = some places ∧
    Strict.Tells g.edges (·.source) n places (g.outEdges n)
  /-- The places are those of the edges that enter the node. -/
  inPlaces : ∃ places, a.inPlaces[n]? = some places ∧
    Strict.Tells g.edges (·.target) n places (g.inEdges n)
  /-- To these nodes lead the edges that leave the node. -/
  successors : a.successors[n]? = some ((g.outEdges n).map (·.target))
  /-- From these nodes come the edges that enter the node. -/
  predecessors : a.predecessors[n]? = some ((g.inEdges n).map (·.source))

/-- The graph is the one that the body of the method prescribes. -/
structure Exact (m : Method) : Prop where
  /-- It is a graph of this method. -/
  method_eq : g.method = m
  /-- Edges lead from nodes to nodes. -/
  ends_lt : ∀ e ∈ g.edges, e.source < g.nodeCount ∧ e.target < g.nodeCount
  /-- Control never comes back to the entry. -/
  target_ne_entry : ∀ e ∈ g.edges, e.target ≠ g.entry
  /-- Control never leaves the exit. -/
  source_ne_exit : ∀ e ∈ g.edges, e.source ≠ g.exit
  /-- Control gets stuck at no other node. -/
  outEdges_ne_nil : ∀ n < g.nodeCount, n ≠ g.exit → g.outEdges n ≠ []
  /-- There are the edges that are prescribed, in the order of the program, and no more. -/
  edges_eq : g.edges = g.firstEdge :: m.stmts.zipIdx.flatMap fun e => g.prescribed e.2 e.1
  /-- One edge leaves the entry. -/
  outEdges_entry : g.outEdges g.entry = [g.firstEdge]
  /-- Those edges leave a statement that its kind prescribes, in that order. -/
  outEdges_stmt : ∀ index stmt, m.stmts[index]? = some stmt →
    g.outEdges (nodeOf index) = g.prescribed index stmt
  /-- Each edge leaves one node, once. -/
  outEdges_once : ∀ n, g.ListsOnce (·.source) n (g.outEdges n)
  /-- Each edge enters one node, once. -/
  inEdges_once : ∀ n, g.ListsOnce (·.target) n (g.inEdges n)
  /-- The tables with a row for each node can be filled, and have these rows. -/
  exists_rows : ∃ rows, Strict.flowRows? g = some rows ∧ ∀ n < g.nodeCount,
    rows.outEdges[n]? = some (g.outEdges n) ∧ rows.inEdges[n]? = some (g.inEdges n)
  /-- The tables of places and of other ends can be filled as well, and tell the same edges. -/
  exists_adjacency : ∃ a, g.adjacency? = some a ∧ ∀ n < g.nodeCount, a.TellsNode g n
  /-- Successors are looked up in their table. -/
  successors_eq : ∀ a, g.adjacency? = some a → ∀ n < g.nodeCount,
    a.successors[n]? = some (g.successors n)
  /-- Predecessors are looked up in their table. -/
  predecessors_eq : ∀ a, g.adjacency? = some a → ∀ n < g.nodeCount,
    a.predecessors[n]? = some (g.predecessors n)
  /-- A node is as often a successor of another as that one is its predecessor. -/
  count_successors : ∀ n n', (g.successors n).count n' = (g.predecessors n').count n

end Edges

variable {m : Method} {g : FlowGraph}

/-- The tables of a well-formed graph can be filled, and tell the edges of each node. -/
theorem exists_adjacency? (hg : g.WellFormed) :
    ∃ a, g.adjacency? = some a ∧ ∀ n < g.nodeCount, a.TellsNode g n := by
  have hsource : ∀ e ∈ g.edges, e.source < g.nodeCount := fun e he =>
    Nat.lt_succ_of_lt (hg.source_lt e he)
  have htarget : ∀ e ∈ g.edges, e.target < g.nodeCount := fun e he =>
    Nat.lt_succ_of_le (hg.target_le e he)
  obtain ⟨outPlaces, hout, hleave⟩ := Strict.exists_placeRows? hsource
  obtain ⟨inPlaces, hin, henter⟩ := Strict.exists_placeRows? htarget
  obtain ⟨successors, hsuccessors, hnext⟩ := Strict.exists_rows?_map hsource FlowEdge.target
  obtain ⟨predecessors, hpredecessors, hprevious⟩ :=
    Strict.exists_rows?_map htarget FlowEdge.source
  refine ⟨⟨outPlaces, inPlaces, successors, predecessors⟩, ?_, fun n hn =>
    ⟨hleave n hn, henter n hn, hnext n hn, hprevious n hn⟩⟩
  rw [adjacency?, hout, hin, hsuccessors, hpredecessors]
  rfl

/-- There is one way to fill the tables. -/
theorem tellsNode_of_adjacency? (hg : g.WellFormed) {a : Adjacency} (ha : g.adjacency? = some a)
    {n : NodeId} (hn : n < g.nodeCount) : a.TellsNode g n := by
  obtain ⟨filled, hfilled, htells⟩ := exists_adjacency? hg
  obtain rfl : filled = a := Option.some.inj (hfilled.symm.trans ha)
  exact htells n hn

/-- Successors and predecessors tell the same edges, as often. -/
theorem count_successors_eq (n n' : NodeId) :
    (g.successors n).count n' = (g.predecessors n').count n := by
  simp only [successors, predecessors, outEdges, inEdges, List.count, List.countP_map,
    List.countP_filter, Function.comp_def]
  refine List.countP_congr fun e _ => ?_
  simp [and_comm]

/-- The edge from the entry leads to the first statement, or to the exit of an empty body. -/
theorem entryEdge_eq (hg : g.method = m) : entryEdge m = g.firstEdge := by
  subst hg
  cases hstmts : g.method.stmts <;>
    simp [entryEdge, firstEdge, nodeFrom, nodeOf, entry, exit, hstmts]

/-- Every statement prescribes an edge. -/
theorem prescribed_ne_nil (index : Nat) (stmt : Stmt) : g.prescribed index stmt ≠ [] := by
  cases stmt <;> simp [prescribed]

/-- Only the edge from the entry leaves the entry. -/
theorem outEdges_entry_eq (h : ofMethod m = .ok g) : g.outEdges g.entry = [g.firstEdge] := by
  have hlater : ∀ e ∈ m.stmts.zipIdx.flatMap fun e => g.prescribed e.2 e.1, e.source ≠ g.entry := by
    intro e he
    obtain ⟨⟨stmt, index⟩, -, he⟩ := List.mem_flatMap.1 he
    rw [(of_mem_prescribed he).1]
    exact Nat.succ_ne_zero index
  rw [outEdges, edges_ofMethod h, entryEdge_eq (method_ofMethod h),
    List.filter_cons_of_pos (by simp [firstEdge]), List.filter_eq_nil_iff.2 (by simpa using hlater)]

/-- Every node but the exit is the entry or that of a statement. -/
theorem eq_entry_or_nodeOf (hg : g.method = m) {n : NodeId} (hn : n < g.nodeCount)
    (hexit : n ≠ g.exit) : n = g.entry ∨ ∃ index < m.stmts.length, n = nodeOf index := by
  subst hg
  cases n with
  | zero => exact .inl rfl
  | succ index =>
    refine .inr ⟨index, ?_, rfl⟩
    simp only [nodeCount, exit, NodeId] at hn hexit
    omega

/-- Control gets stuck at the exit only. -/
theorem outEdges_ne_nil_of_ne_exit (h : ofMethod m = .ok g) {n : NodeId} (hn : n < g.nodeCount)
    (hexit : n ≠ g.exit) : g.outEdges n ≠ [] := by
  rcases eq_entry_or_nodeOf (method_ofMethod h) hn hexit with rfl | ⟨index, hindex, rfl⟩
  · rw [outEdges_entry_eq h]
    exact List.cons_ne_nil _ _
  · rw [outEdges_eq_prescribed h (List.getElem?_eq_getElem hindex)]
    exact prescribed_ne_nil index _

/-- The graph that is built for a method is the one that its body prescribes. -/
theorem exact_of_ofMethod (h : ofMethod m = .ok g) : g.Exact m where
  method_eq := method_ofMethod h
  ends_lt e he :=
    have hg := wellFormed_of_ofMethod h
    ⟨Nat.lt_succ_of_lt (hg.source_lt e he), Nat.lt_succ_of_le (hg.target_le e he)⟩
  target_ne_entry e he := Nat.ne_of_gt ((wellFormed_of_ofMethod h).target_pos e he)
  source_ne_exit e he := Nat.ne_of_lt ((wellFormed_of_ofMethod h).source_lt e he)
  outEdges_ne_nil _ hn hexit := outEdges_ne_nil_of_ne_exit h hn hexit
  edges_eq := entryEdge_eq (method_ofMethod h) ▸ edges_ofMethod h
  outEdges_entry := outEdges_entry_eq h
  outEdges_stmt _ _ hstmt := outEdges_eq_prescribed h hstmt
  outEdges_once n := ⟨_, Strict.tells_filter g.edges (·.source) n⟩
  inEdges_once n := ⟨_, Strict.tells_filter g.edges (·.target) n⟩
  exists_rows := Strict.exists_flowRows? (wellFormed_of_ofMethod h)
  exists_adjacency := exists_adjacency? (wellFormed_of_ofMethod h)
  successors_eq _ ha _ hn := (tellsNode_of_adjacency? (wellFormed_of_ofMethod h) ha hn).successors
  predecessors_eq _ ha _ hn :=
    (tellsNode_of_adjacency? (wellFormed_of_ofMethod h) ha hn).predecessors
  count_successors := count_successors_eq

/-- Behind a statement control goes where the edges lead that its kind prescribes. -/
theorem Exact.successors_stmt (h : g.Exact m) (index : Nat) (stmt : Stmt)
    (hstmt : m.stmts[index]? = some stmt) :
    g.successors (nodeOf index) = (g.prescribed index stmt).map (·.target) := by
  rw [successors, h.outEdges_stmt index stmt hstmt]

/-- A method has no graph exactly if a jump of one of its statements leaves the body, and then the
first such jump is reported, where the cases of a switch come before its default. A graph of a
method is the one that its body prescribes. -/
theorem ofMethod_exact (m : Method) :
    ((∃ error, ofMethod m = .error error) ↔
      ∃ stmt ∈ m.stmts, ∃ t ∈ stmt.jumpTargets, m.stmts.length ≤ t) ∧
    (∀ error, ofMethod m = .error error ↔
      ∃ t, (jumpTargets m).find? (m.stmts.length ≤ ·) = some t ∧
        error = .jumpOutOfRange m.subsignature t m.stmts.length) ∧
    ∀ g, ofMethod m = .ok g → g.Exact m := by
  have hfailure : ∀ error, ofMethod m = .error error ↔
      ∃ t, (jumpTargets m).find? (m.stmts.length ≤ ·) = some t ∧ error = leaves m t := by
    intro error
    rw [← failure?_eq_some_iff, failure?_ofMethod, Option.map_eq_some_iff]
    simp only [eq_comm]
  refine ⟨⟨?_, ?_⟩, hfailure, fun _ => exact_of_ofMethod⟩
  · rintro ⟨error, herror⟩
    obtain ⟨t, hfirst, -⟩ := (hfailure error).1 herror
    obtain ⟨stmt, hstmt, ht⟩ := List.mem_flatMap.1 (List.mem_of_find?_eq_some hfirst)
    exact ⟨stmt, hstmt, t, ht, by simpa using List.find?_some hfirst⟩
  · rintro ⟨stmt, hstmt, t, ht, hle⟩
    have hsome : ((jumpTargets m).find? (m.stmts.length ≤ ·)).isSome :=
      List.find?_isSome.2 ⟨t, List.mem_flatMap.2 ⟨stmt, hstmt, ht⟩, by simpa using hle⟩
    obtain ⟨first, hfirst⟩ := Option.isSome_iff_exists.1 hsome
    exact ⟨_, (hfailure _).2 ⟨first, hfirst, rfl⟩⟩

/-! ## Cases that are alike, and a jump just behind the body -/

/-- A static method with the given body. -/
def methodOf (stmts : List Stmt) : Method :=
  ⟨0, "m", 0, "void m(int)", true, false, [0], none, stmts, []⟩

/-- Two cases of the switch jump to the same place, and the last statement is a condition. -/
def twinCases : Method :=
  methodOf [.switch 0 [(1, 2), (1, 2)] 0, .ret none, .branch ⟨.lt, 0, 0⟩ 0]

/-- The second case jumps to the position behind the body, and the default further. -/
def leaping : Method := methodOf [.switch 0 [(1, 0), (2, 1)] 5]

/-- Both cases have an edge of their own at either end, the condition leads to the exit, and of two
jumps that leave a body the one in the case is reported. -/
theorem exact_twinCases :
    (∃ g, ofMethod twinCases = .ok g ∧ g.Exact twinCases ∧
      (∃ a, g.adjacency? = some a ∧ a.successors[1]? = some [3, 3, 1]) ∧
      g.successors 1 = [3, 3, 1] ∧ (g.predecessors 3).count 1 = 2 ∧ g.successors 3 = [1, g.exit]) ∧
    ofMethod leaping = .error (.jumpOutOfRange "void m(int)" 1 1) := by
  refine ⟨?_, ((ofMethod_exact leaping).2.1 _).2 ⟨1, by decide, rfl⟩⟩
  obtain ⟨g, hg⟩ : ∃ g, ofMethod twinCases = .ok g := exists_ofMethod (by decide)
  have hexact := (ofMethod_exact twinCases).2.2 g hg
  have hsuccessors : g.successors 1 = [3, 3, 1] := hexact.successors_stmt 0 _ rfl
  have hlt : 1 < g.nodeCount := by
    rw [nodeCount, hexact.method_eq]
    decide
  obtain ⟨a, ha, -⟩ := hexact.exists_adjacency
  have hrow := hexact.successors_eq a ha 1 hlt
  rw [hsuccessors] at hrow
  refine ⟨g, hg, hexact, ⟨a, ha, hrow⟩, hsuccessors, ?_, ?_⟩
  · rw [← hexact.count_successors, hsuccessors]
    decide
  · refine (hexact.successors_stmt 2 _ rfl).trans ?_
    simp only [prescribed, nodeFrom, hexact.method_eq]
    rfl

end TacAnalysis.FlowGraph
