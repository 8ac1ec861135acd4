import Mathlib.Data.List.Perm.Basic
import TacAnalysis.Proofs.CallGraph.Grounded
import TacAnalysis.Proofs.ControlFlow.Statements
import TacAnalysis.Proofs.Strict.Tables
import TacAnalysis.Proofs.SuperGraph

/-!
# What the graph of a whole program consists of

A node of the graph of a whole program is a node of one of its methods, and it has one number.
Its edges are known without those numbers: the edges of the methods, where those that leave a
call pass it by, and for every call that the call graph lists a step into the called method and
the steps back. No call is left out, as a call graph reaches all methods that it calls, and all
of them have bodies. The tables that tell the edges of each node are filled edge by edge.

Main statements: `connects_of_build` and `exists_layout`.
-/

namespace TacAnalysis

/-- What has one of the keys in a list is what has the first key, the second one, and so on. -/
theorem flatMap_filter_perm {α κ : Type} [DecidableEq κ] {keys : List κ} (hkeys : keys.Nodup)
    (key : α → κ) (xs : List α) :
    (keys.flatMap fun k => xs.filter (key · = k)).Perm (xs.filter (key · ∈ keys)) := by
  induction keys with
  | nil => simp
  | cons k keys ih =>
    obtain ⟨hk, hkeys⟩ := List.nodup_cons.1 hkeys
    have hsplit := List.filter_append_perm (key · = k) (xs.filter (key · ∈ k :: keys))
    have hfirst : (xs.filter (key · ∈ k :: keys)).filter (key · = k) = xs.filter (key · = k) := by
      rw [List.filter_filter]
      refine List.filter_congr fun x _ => ?_
      by_cases hx : key x = k
      · simp [hx]
      · simp [hx]
    have hrest : (xs.filter (key · ∈ k :: keys)).filter (fun x => !decide (key x = k)) =
        xs.filter (key · ∈ keys) := by
      rw [List.filter_filter]
      refine List.filter_congr fun x _ => ?_
      by_cases hx : key x = k
      · simp [hx, hk]
      · simp [hx]
    rw [hfirst, hrest] at hsplit
    rw [List.flatMap_cons]
    exact ((ih hkeys).append_left _).trans hsplit

/-- The rows of the edges of a whole program. -/
def Strict.superRows? (g : SuperGraph) : Option (EdgeRows SuperEdge) :=
  edgeRows? g.nodeCount SuperEdge.source SuperEdge.target g.edges

/-- Whether the edge leads from one method into another one. -/
def SuperEdgeKind.crosses : SuperEdgeKind → Bool
  | .call _ _ => true
  | .ret _ _ => true
  | _ => false

/-- Edges of this kind lead from nodes of the one method to nodes of the other. -/
def SuperEdgeKind.Connects : SuperEdgeKind → MethodId → MethodId → Prop
  | .normal _, m, n => m = n
  | .callToReturn site, m, n => m = site.method ∧ n = site.method
  | .call site callee, m, n => m = site.method ∧ n = callee
  | .ret site callee, m, n => m = callee ∧ n = site.method

namespace SuperGraph

/-! ## The edges, whatever the numbers of the nodes are -/

/-- Why control goes along an edge of a method: to pass a call by, or as in the method. -/
def kindWithin (h : FlowGraph) (e : FlowEdge) : SuperEdgeKind :=
  if (h.stmt? e.source).any Stmt.isCall then .callToReturn ⟨h.method.id, e.source - 1⟩
  else .normal e.kind

/-- The edges of a method whose nodes have the given numbers. -/
def edgesWithin (node : NodeId → Nat) (h : FlowGraph) : List SuperEdge :=
  h.edges.map fun e => ⟨node e.source, node e.target, kindWithin h e⟩

/-- The edges of a call: into the called method, and back from its exit to each node to which
control goes on from the call. -/
def edgesOfCall (graph : MethodId → FlowGraph) (node : MethodId → NodeId → Nat) (e : CallEdge) :
    List SuperEdge :=
  ⟨node e.site.method (FlowGraph.nodeOf e.site.index), node e.callee (graph e.callee).entry,
      .call e.site e.callee⟩ ::
    ((graph e.site.method).successors (FlowGraph.nodeOf e.site.index)).map fun next =>
      ⟨node e.callee (graph e.callee).exit, node e.site.method next, .ret e.site e.callee⟩

/-- The graph of a whole program consists of the given graphs of its methods, whose nodes have
the given numbers. -/
structure IsLayout (p : Program) (calls : CallGraph) (g : SuperGraph)
    (graph : MethodId → FlowGraph) (node : MethodId → NodeId → Nat) : Prop where
  /-- The methods are those that are reached and have bodies. -/
  methods_eq : g.methods = calls.reachable.filter (!p.isAbstract ·)
  /-- No method is listed twice. -/
  nodup_methods : g.methods.Nodup
  /-- Each method comes with its graph. -/
  ofProgram_eq : ∀ m ∈ g.methods, FlowGraph.ofProgram p m = .ok (graph m)
  /-- Exactly the nodes of the methods have numbers. -/
  node?_eq : ∀ m l, g.node? m l =
    if m ∈ g.methods ∧ l < (graph m).nodeCount then some (node m l) else none
  /-- A number tells a node, and the node its number. -/
  exists_place : ∀ n < g.nodeCount, ∃ m ∈ g.methods, ∃ l < (graph m).nodeCount,
    g.methodOf? n = some m ∧ g.local? n = some l ∧ g.node? m l = some n
  /-- No two numbers tell the same node. -/
  existsUnique : ∀ m ∈ g.methods, ∀ l < (graph m).nodeCount,
    ∃! n, n < g.nodeCount ∧ g.methodOf? n = some m ∧ g.local? n = some l
  /-- Called methods have graphs. -/
  callee_mem : ∀ e ∈ calls.edges, e.callee ∈ g.methods
  /-- The edges are those of the methods and those of the calls that they make. -/
  edges_perm : g.edges.Perm ((g.methods.flatMap fun m => edgesWithin (node m) (graph m)) ++
    (calls.edges.filter (·.site.method ∈ g.methods)).flatMap (edgesOfCall graph node))
  /-- No step into a method or back is listed twice. -/
  nodup_crossing : (g.edges.filter (·.kind.crosses)).Nodup
  /-- What leaves a node are the edges from it. -/
  mem_outEdges : ∀ n e, e ∈ g.outEdges n ↔ e ∈ g.edges ∧ e.source = n
  /-- What enters a node are the edges to it. -/
  mem_inEdges : ∀ n e, e ∈ g.inEdges n ↔ e ∈ g.edges ∧ e.target = n
  /-- Each edge leaves one node, once. -/
  outEdges_perm : (g.nodes.flatMap g.outEdges).Perm g.edges
  /-- Each edge enters one node, once. -/
  inEdges_perm : (g.nodes.flatMap g.inEdges).Perm g.edges
  /-- The tables with a row for each node can be filled, and have these rows. -/
  exists_rows : ∃ rows, Strict.superRows? g = some rows ∧ ∀ n < g.nodeCount,
    rows.outEdges[n]? = some (g.outEdges n) ∧ rows.inEdges[n]? = some (g.inEdges n)
  /-- So can the table of the places of the edges that leave a node, among all edges. -/
  exists_outPlaces : ∃ rows, Strict.placeRows? g.nodeCount SuperEdge.source g.edges = some rows ∧
    ∀ n < g.nodeCount, ∃ places, rows[n]? = some places ∧
      Strict.Tells g.edges SuperEdge.source n places (g.outEdges n)
  /-- So can the table of the places of the edges that enter a node. -/
  exists_inPlaces : ∃ rows, Strict.placeRows? g.nodeCount SuperEdge.target g.edges = some rows ∧
    ∀ n < g.nodeCount, ∃ places, rows[n]? = some places ∧
      Strict.Tells g.edges SuperEdge.target n places (g.inEdges n)

variable {p : Program} {calls : CallGraph} {g : SuperGraph} {graphs : List FlowGraph}

/-! ## Methods and nodes -/

/-- The methods of the graph are those that are reached and have bodies. -/
theorem methods_of_build (hp : p.WellFormed) (hbuild : build p calls = .ok g) :
    g.methods = calls.reachable.filter (!p.isAbstract ·) := by
  simp only [build, bind_eq_ok_iff, pure, Except.pure, Except.ok.injEq] at hbuild
  obtain ⟨graphs, hgraphs, rfl⟩ := hbuild
  exact map_of_mapM_eq_ok hgraphs fun m h hh => hp.id_eq (FlowGraph.wellFormed_of_ofProgram hh).2

/-- Each method comes with its graph. -/
theorem ofProgram_of_mem_graphs (hp : p.WellFormed) (hbuild : build p calls = .ok g)
    {h : FlowGraph} (hh : h ∈ g.graphs) : FlowGraph.ofProgram p h.method.id = .ok h := by
  simp only [build, bind_eq_ok_iff, pure, Except.pure, Except.ok.injEq] at hbuild
  obtain ⟨graphs, hgraphs, rfl⟩ := hbuild
  obtain ⟨m, -, hm⟩ := (mem_of_mapM_eq_ok hgraphs).1 hh
  rwa [hp.id_eq (FlowGraph.wellFormed_of_ofProgram hm).2]

/-- Each graph is that of a declared method. -/
theorem method?_of_mem_graphs (hp : p.WellFormed) (hbuild : build p calls = .ok g)
    {h : FlowGraph} (hh : h ∈ g.graphs) : p.method? h.method.id = some h.method :=
  (FlowGraph.wellFormed_of_ofProgram (ofProgram_of_mem_graphs hp hbuild hh)).2

/-- Numbering keeps the graphs in order. -/
theorem map_snd_withBases (start : Nat) (graphs : List FlowGraph) :
    (withBases start graphs).map (·.2) = graphs := by
  induction graphs generalizing start with
  | nil => rfl
  | cons h rest ih => rw [withBases, List.map_cons, ih]

/-- What is said of each graph can be said of each graph with its first node. -/
theorem flatMap_withBases {β : Type} (f : FlowGraph → List β) :
    ((withBases 0 graphs).flatMap fun e => f e.2) = graphs.flatMap f := by
  rw [← List.flatMap_map, map_snd_withBases]

/-- A method that is listed once is found with its first node. -/
theorem find?_of_mem_withBases (hnodup : (graphs.map (·.method.id)).Nodup) {base : Nat}
    {h : FlowGraph} (hmem : (base, h) ∈ withBases 0 graphs) :
    find? graphs h.method.id = some (base, h) := by
  have hids : (withBases 0 graphs).Pairwise (·.2.method.id ≠ ·.2.method.id) := by
    rwa [← map_snd_withBases 0 graphs, List.map_map, List.Nodup, List.pairwise_map]
      at hnodup
  unfold find?
  generalize withBases 0 graphs = numbered at hmem hids
  induction numbered with
  | nil => cases hmem
  | cons first rest ih =>
    obtain ⟨hfirst, hids⟩ := List.pairwise_cons.1 hids
    rcases List.mem_cons.1 hmem with rfl | hmem
    · simp
    · rw [List.find?_cons_of_neg (by simpa using hfirst _ hmem)]
      exact ih hmem hids

/-- Every number of a node is that of a node of a method. -/
theorem exists_mem_withBases {start n : Nat} (hstart : start ≤ n)
    (hn : n < start + (graphs.map FlowGraph.nodeCount).sum) :
    ∃ base h, (base, h) ∈ withBases start graphs ∧ ∃ l < h.nodeCount, n = base + l := by
  induction graphs generalizing start with
  | nil => simp at hn; omega
  | cons h rest ih =>
    rw [List.map_cons, List.sum_cons] at hn
    by_cases hlt : n < start + h.nodeCount
    · exact ⟨start, h, List.mem_cons_self, n - start, by omega, by omega⟩
    · obtain ⟨base, f, hmem, hl⟩ := ih (Nat.le_of_not_lt hlt) (by omega)
      exact ⟨base, f, List.mem_cons_of_mem _ hmem, hl⟩

/-- Every node is a node of a method. -/
theorem exists_place_of_lt {n : Nat} (hn : n < g.nodeCount) :
    ∃ base h, (base, h) ∈ withBases 0 g.graphs ∧ ∃ l < h.nodeCount, n = base + l :=
  exists_mem_withBases (Nat.zero_le n) (by rwa [Nat.zero_add, ← nodeCount_eq_sum])

/-- The graph of a method, if there is one. -/
def graphOf (g : SuperGraph) (m : MethodId) : FlowGraph := (g.graph? m).getD ⟨default, []⟩

/-- The number of a node of a method, if there is one. -/
def numberOf (g : SuperGraph) (m : MethodId) (l : NodeId) : Nat :=
  ((find? g.graphs m).map (·.1)).getD 0 + l

section Places

variable (hnodup : g.methods.Nodup) {base : Nat} {h : FlowGraph}
  (hmem : (base, h) ∈ withBases 0 g.graphs)
include hnodup hmem

theorem graphOf_eq : g.graphOf h.method.id = h := by
  rw [graphOf, graph?, find?_of_mem_withBases hnodup hmem]
  rfl

theorem numberOf_eq (l : NodeId) : g.numberOf h.method.id l = base + l := by
  rw [numberOf, find?_of_mem_withBases hnodup hmem]
  rfl

end Places

/-- A listed method has a graph among the numbered ones. -/
theorem exists_of_mem_methods {m : MethodId} (hm : m ∈ g.methods) :
    ∃ base h, (base, h) ∈ withBases 0 g.graphs ∧ h.method.id = m := by
  obtain ⟨h, hh, rfl⟩ := List.mem_map.1 hm
  rw [← map_snd_withBases 0 g.graphs] at hh
  obtain ⟨⟨base, h⟩, hmem, rfl⟩ := List.mem_map.1 hh
  exact ⟨base, h, hmem, rfl⟩

theorem mem_methods_of_mem_withBases {base : Nat} {h : FlowGraph}
    (hmem : (base, h) ∈ withBases 0 g.graphs) : h.method.id ∈ g.methods :=
  List.mem_map_of_mem (mem_of_mem_withBases hmem)

/-- Exactly the nodes of the methods have numbers. -/
theorem node?_eq_ite (hnodup : g.methods.Nodup) (m : MethodId) (l : NodeId) :
    g.node? m l =
      if m ∈ g.methods ∧ l < (g.graphOf m).nodeCount then some (g.numberOf m l) else none := by
  by_cases hm : m ∈ g.methods
  · obtain ⟨base, h, hmem, rfl⟩ := exists_of_mem_methods hm
    rw [node?, find?_of_mem_withBases hnodup hmem, graphOf_eq hnodup hmem, numberOf_eq hnodup hmem]
    simp [hm]
  · have hfind : find? g.graphs m = none := by
      rw [find?, List.find?_eq_none]
      rintro ⟨base, h⟩ hmem hid
      obtain rfl : h.method.id = m := by simpa using hid
      exact hm (mem_methods_of_mem_withBases hmem)
    rw [node?, hfind]
    simp [hm]

/-! ## Calls -/

/-- The call sites are the nodes of calls. -/
theorem callSite?_eq_some_iff {h : FlowGraph} {n : NodeId} {site : Site} :
    callSite? h n = some site ↔ n = FlowGraph.nodeOf site.index ∧ site.method = h.method.id ∧
      ∃ call, h.method.stmts[site.index]? = some (.invoke call) := by
  unfold callSite?
  constructor
  · intro hsite
    split at hsite
    · rename_i call index hstmt hindex
      obtain rfl := Option.some.inj hsite
      obtain ⟨other, hother, hstmt'⟩ := FlowGraph.stmt?_eq_some_iff.1 hstmt
      obtain rfl := FlowGraph.eq_of_stmtIndex? hindex
      obtain rfl : index = other := Nat.succ.inj hother
      exact ⟨rfl, rfl, call, hstmt'⟩
    · cases hsite
  · rintro ⟨rfl, hmethod, call, hstmt⟩
    rw [FlowGraph.stmt?_eq_some_iff.2 ⟨site.index, rfl, hstmt⟩,
      FlowGraph.stmtIndex?_nodeOf (List.getElem?_eq_some_iff.1 hstmt).1, ← hmethod]

/-- A call site is that of a call statement of the method. -/
theorem exists_of_callSite? {h : FlowGraph} (hmethod : p.method? h.method.id = some h.method)
    {n : NodeId} {site : Site} (hsite : callSite? h n = some site) :
    site.method = h.method.id ∧
      ∃ call, h.stmt? n = some (.invoke call) ∧ p.stmt? site = some (.invoke call) := by
  obtain ⟨hnode, hid, call, hcall⟩ := callSite?_eq_some_iff.1 hsite
  refine ⟨hid, call, FlowGraph.stmt?_eq_some_iff.2 ⟨site.index, hnode, hcall⟩, ?_⟩
  rw [Program.stmt?, hid, hmethod]
  exact hcall

/-- Only call statements are calls. -/
theorem exists_of_isCall {stmt : Stmt} (h : stmt.isCall = true) : ∃ call, stmt = .invoke call := by
  cases stmt with
  | invoke call => exact ⟨call, rfl⟩
  | _ => cases h

/-- An edge of a method gets the kind that its statement prescribes. -/
theorem kindWithin_eq (h : FlowGraph) (e : FlowEdge) :
    kindWithin h e = ((callSite? h e.source).map .callToReturn).getD (.normal e.kind) := by
  unfold kindWithin
  rcases hsite : callSite? h e.source with _ | site
  · have hcall : ¬ (h.stmt? e.source).any Stmt.isCall = true := by
      intro hcall
      obtain ⟨stmt, hstmt, hcall⟩ := (Option.any_eq_true _ _).1 hcall
      obtain ⟨call, rfl⟩ := exists_of_isCall hcall
      obtain ⟨index, hsource, hindex⟩ := FlowGraph.stmt?_eq_some_iff.1 hstmt
      have hsome : callSite? h e.source = some ⟨h.method.id, index⟩ :=
        callSite?_eq_some_iff.2 ⟨hsource, rfl, call, hindex⟩
      rw [hsite] at hsome
      cases hsome
    rw [if_neg hcall]
    rfl
  · obtain ⟨hsource, hmethod, call, hstmt⟩ := callSite?_eq_some_iff.1 hsite
    have hcall : (h.stmt? e.source).any Stmt.isCall = true := by
      rw [FlowGraph.stmt?_eq_some_iff.2 ⟨_, hsource, hstmt⟩]
      rfl
    rw [if_pos hcall, hsource, ← hmethod]
    rfl

/-- The calls of a method. -/
def sitesOf (h : FlowGraph) : List Site := h.nodes.filterMap (callSite? h)

theorem mem_sitesOf {h : FlowGraph} {site : Site} : site ∈ sitesOf h ↔
    site.method = h.method.id ∧ ∃ call, h.method.stmts[site.index]? = some (.invoke call) := by
  rw [sitesOf, List.mem_filterMap]
  constructor
  · rintro ⟨n, hn, hsite⟩
    exact (callSite?_eq_some_iff.1 hsite).2
  · rintro ⟨hmethod, call, hstmt⟩
    exact ⟨_, FlowGraph.mem_nodes.2 (FlowGraph.nodeOf_lt hstmt),
      callSite?_eq_some_iff.2 ⟨rfl, hmethod, call, hstmt⟩⟩

/-- A method makes each of its calls at one node. -/
theorem nodup_sitesOf (h : FlowGraph) : (sitesOf h).Nodup := by
  refine List.Nodup.filterMap (fun n m site hn hm => ?_) List.nodup_range
  exact (callSite?_eq_some_iff.1 hn).1.trans (callSite?_eq_some_iff.1 hm).1.symm

/-- No two methods make the same call. -/
theorem nodup_flatMap_sitesOf (hnodup : g.methods.Nodup) : (g.graphs.flatMap sitesOf).Nodup := by
  rw [List.nodup_flatMap]
  refine ⟨fun h _ => nodup_sitesOf h, ?_⟩
  rw [methods, List.Nodup, List.pairwise_map] at hnodup
  refine hnodup.imp fun {h f} hne => ?_
  intro site hsite hsite'
  exact hne ((mem_sitesOf.1 hsite).1.symm.trans (mem_sitesOf.1 hsite').1)

/-! ## Edges -/

/-- The edges of a method, with the numbers of its nodes. -/
theorem localEdges_eq (hnodup : g.methods.Nodup) {base : Nat} {h : FlowGraph}
    (hmem : (base, h) ∈ withBases 0 g.graphs) :
    localEdges base h = edgesWithin (g.numberOf h.method.id) (g.graphOf h.method.id) := by
  rw [graphOf_eq hnodup hmem]
  refine List.map_congr_left fun e he => ?_
  rw [numberOf_eq hnodup hmem, numberOf_eq hnodup hmem, kindWithin_eq]
  cases callSite? h e.source <;> rfl

/-- The edges of a call of a method, with the numbers of the nodes of both methods. -/
theorem calleeEdges_eq (hnodup : g.methods.Nodup) {base : Nat} {h : FlowGraph}
    (hmem : (base, h) ∈ withBases 0 g.graphs) {e : CallEdge} (hsite : e.site.method = h.method.id)
    (hcallee : e.callee ∈ g.methods) :
    calleeEdges g.graphs base h (FlowGraph.nodeOf e.site.index) e.site e.callee =
      edgesOfCall g.graphOf g.numberOf e := by
  obtain ⟨calleeBase, f, hf, hid⟩ := exists_of_mem_methods hcallee
  rw [edgesOfCall, hsite, ← hid, graphOf_eq hnodup hf, graphOf_eq hnodup hmem, calleeEdges,
    find?_of_mem_withBases hnodup hf]
  simp only [numberOf_eq hnodup hf, numberOf_eq hnodup hmem]

/-- The edges of the calls of a method, call by call. -/
theorem callEdges_eq (hnodup : g.methods.Nodup) (hcallee : ∀ e ∈ calls.edges, e.callee ∈ g.methods)
    {base : Nat} {h : FlowGraph} (hmem : (base, h) ∈ withBases 0 g.graphs) :
    callEdges g.graphs calls base h = (sitesOf h).flatMap fun site =>
      (calls.edges.filter (·.site = site)).flatMap (edgesOfCall g.graphOf g.numberOf) := by
  rw [sitesOf, List.filterMap_eq_flatMap_toList, List.flatMap_assoc]
  refine List.flatMap_congr fun n hn => ?_
  rcases hsite : callSite? h n with _ | site
  · rfl
  obtain ⟨rfl, hmethod, -⟩ := callSite?_eq_some_iff.1 hsite
  rw [Option.toList_some, List.flatMap_singleton]
  refine (List.flatMap_map ..).trans (List.flatMap_congr fun e he => ?_)
  obtain ⟨hedge, hesite⟩ := List.mem_filter.1 he
  obtain rfl : e.site = site := by simpa using hesite
  exact calleeEdges_eq hnodup hmem hmethod (hcallee e hedge)

/-- The edges are those of the methods and those of the calls that they make. -/
theorem edges_perm (hp : p.WellFormed) (hcalls : calls.Grounded p) (hbuild : build p calls = .ok g)
    (hnodup : g.methods.Nodup) (hcallee : ∀ e ∈ calls.edges, e.callee ∈ g.methods) :
    g.edges.Perm ((g.methods.flatMap fun m => edgesWithin (g.numberOf m) (g.graphOf m)) ++
      (calls.edges.filter (·.site.method ∈ g.methods)).flatMap
        (edgesOfCall g.graphOf g.numberOf)) := by
  have hlocal : ((withBases 0 g.graphs).flatMap fun e => localEdges e.1 e.2) =
      g.methods.flatMap fun m => edgesWithin (g.numberOf m) (g.graphOf m) := by
    rw [methods, List.flatMap_map, ← flatMap_withBases]
    exact List.flatMap_congr fun e he => localEdges_eq hnodup he
  have hcall : ((withBases 0 g.graphs).flatMap fun e => callEdges g.graphs calls e.1 e.2) =
      ((g.graphs.flatMap sitesOf).flatMap fun site => calls.edges.filter (·.site = site)).flatMap
        (edgesOfCall g.graphOf g.numberOf) := by
    rw [List.flatMap_assoc, List.flatMap_assoc, ← flatMap_withBases]
    exact List.flatMap_congr fun e he => callEdges_eq hnodup hcallee he
  -- a call that is listed is made by a statement, so its site is among those of its method
  have hsites : calls.edges.filter (·.site ∈ g.graphs.flatMap sitesOf) =
      calls.edges.filter (·.site.method ∈ g.methods) := by
    refine List.filter_congr fun e he => ?_
    rw [decide_eq_decide, List.mem_flatMap]
    constructor
    · rintro ⟨h, hh, hsite⟩
      rw [(mem_sitesOf.1 hsite).1]
      exact List.mem_map_of_mem hh
    · intro hm
      obtain ⟨h, hh, hid⟩ := List.mem_map.1 hm
      obtain ⟨call, hstmt, -⟩ := hcalls.isCall he
      obtain ⟨method, hmethod, hstmt⟩ := Option.bind_eq_some_iff.1 hstmt
      have hof := method?_of_mem_graphs hp hbuild hh
      obtain rfl : h.method = method := by
        rw [hid] at hof
        exact Option.some.inj (hof.symm.trans hmethod)
      exact ⟨h, hh, mem_sitesOf.2 ⟨hid.symm, call, hstmt⟩⟩
  rw [(edges_of_build hbuild).2]
  refine (List.flatMap_append_perm ..).symm.trans ?_
  rw [hlocal, hcall]
  refine List.Perm.append_left _ (List.Perm.flatMap_right _ ?_)
  rw [← hsites]
  exact flatMap_filter_perm (nodup_flatMap_sitesOf hnodup) _ _

/-! ## Which methods an edge connects -/

/-- Control goes between the methods that the kind of an edge tells. -/
theorem connects_of_build (hbuild : build p calls = .ok g) {e : SuperEdge} (he : e ∈ g.edges) :
    ∃ m n, g.methodOf? e.source = some m ∧ g.methodOf? e.target = some n ∧ e.kind.Connects m n := by
  have hgraphs : ∀ {base h}, (base, h) ∈ withBases 0 g.graphs → h.WellFormed := fun hmem =>
    (edges_of_build hbuild).1 _ (mem_of_mem_withBases hmem)
  have hsource : ∀ {base h d}, (base, h) ∈ withBases 0 g.graphs → d ∈ h.edges →
      g.methodOf? (base + d.source) = some h.method.id := fun hmem hd =>
    methodOf?_add hmem (Nat.lt_succ_of_lt ((hgraphs hmem).source_lt _ hd))
  have htarget : ∀ {base h d}, (base, h) ∈ withBases 0 g.graphs → d ∈ h.edges →
      g.methodOf? (base + d.target) = some h.method.id := fun hmem hd =>
    methodOf?_add hmem (Nat.lt_succ_of_le ((hgraphs hmem).target_le _ hd))
  have hid : ∀ {h n site}, callSite? h n = some site → h.method.id = site.method := fun hsite =>
    (callSite?_eq_some_iff.1 hsite).2.1.symm
  cases origin_of_build hbuild he with
  | inside hmem hd => exact ⟨_, _, hsource hmem hd, htarget hmem hd, rfl⟩
  | bypass hmem hd hsite => exact ⟨_, _, hsource hmem hd, htarget hmem hd, hid hsite, hid hsite⟩
  | call hmem hn hsite _ hfind =>
    have hentry := methodOf?_add (mem_withBases_of_find? hfind) (Nat.succ_pos _)
    exact ⟨_, _, methodOf?_add hmem hn, hentry, hid hsite, id_of_find? hfind⟩
  | ret hmem hnext hsite _ hfind =>
    obtain ⟨d, hd, -, rfl⟩ := FlowGraph.mem_successors.1 hnext
    have hexit := methodOf?_add (mem_withBases_of_find? hfind) (Nat.lt_succ_self _)
    exact ⟨_, _, hexit, htarget hmem hd, id_of_find? hfind, hid hsite⟩

/-! ## No step is listed twice -/

/-- Steps into a method and back tell the call that they belong to. -/
theorem kind_of_mem_edgesOfCall {graph : MethodId → FlowGraph} {node : MethodId → NodeId → Nat}
    {e : CallEdge} {d : SuperEdge} (hd : d ∈ edgesOfCall graph node e) :
    d.kind = .call e.site e.callee ∨ d.kind = .ret e.site e.callee := by
  rcases List.mem_cons.1 hd with rfl | hd
  · exact .inl rfl
  · obtain ⟨next, -, rfl⟩ := List.mem_map.1 hd
    exact .inr rfl

/-- Steps inside a method do not lead into another one. -/
theorem not_crosses_of_mem_edgesWithin {node : NodeId → Nat} {h : FlowGraph} {d : SuperEdge}
    (hd : d ∈ edgesWithin node h) : d.kind.crosses = false := by
  obtain ⟨e, -, rfl⟩ := List.mem_map.1 hd
  simp only [kindWithin]
  split <;> rfl

/-- A call is listed once for its site and the method that it calls. -/
theorem eq_of_site_callee (hcalls : calls.Grounded p) {e d : CallEdge} (he : e ∈ calls.edges)
    (hd : d ∈ calls.edges) (hsite : e.site = d.site) (hcallee : e.callee = d.callee) : e = d := by
  obtain ⟨call, hstmt, hkind⟩ := hcalls.isCall he
  obtain ⟨call', hstmt', hkind'⟩ := hcalls.isCall hd
  obtain rfl : call = call' := by
    rw [hsite, hstmt'] at hstmt
    exact (Stmt.invoke.inj (Option.some.inj hstmt)).symm
  cases e
  cases d
  simp_all

/-- A call has one step into the called method and one step back. -/
theorem nodup_edgesOfCall (hcalls : calls.Grounded p) {graph : MethodId → FlowGraph}
    {node : MethodId → NodeId → Nat} {e : CallEdge} (he : e ∈ calls.edges)
    (hof : FlowGraph.ofProgram p e.site.method = .ok (graph e.site.method)) :
    (edgesOfCall graph node e).Nodup := by
  obtain ⟨call, hstmt, -⟩ := hcalls.isCall he
  obtain ⟨method, hmethod, hstmt⟩ := Option.bind_eq_some_iff.1 hstmt
  rw [FlowGraph.ofProgram, hmethod] at hof
  rw [edgesOfCall, FlowGraph.successors_of_invoke hof hstmt]
  simp

/-- No step into a method or back is listed twice. -/
theorem nodup_crossing (hcalls : calls.Grounded p) {graph : MethodId → FlowGraph}
    {node : MethodId → NodeId → Nat}
    (hof : ∀ m ∈ g.methods, FlowGraph.ofProgram p m = .ok (graph m))
    (hperm : g.edges.Perm ((g.methods.flatMap fun m => edgesWithin (node m) (graph m)) ++
      (calls.edges.filter (·.site.method ∈ g.methods)).flatMap (edgesOfCall graph node))) :
    (g.edges.filter (·.kind.crosses)).Nodup := by
  rw [(hperm.filter _).nodup_iff, List.filter_append]
  have hwithin : (g.methods.flatMap fun m => edgesWithin (node m) (graph m)).filter
      (·.kind.crosses) = [] := by
    rw [List.filter_eq_nil_iff]
    intro d hd
    obtain ⟨m, -, hd⟩ := List.mem_flatMap.1 hd
    simp [not_crosses_of_mem_edgesWithin hd]
  have hcall : ((calls.edges.filter (·.site.method ∈ g.methods)).flatMap
      (edgesOfCall graph node)).filter (·.kind.crosses) =
      (calls.edges.filter (·.site.method ∈ g.methods)).flatMap (edgesOfCall graph node) := by
    rw [List.filter_eq_self]
    intro d hd
    obtain ⟨e, -, hd⟩ := List.mem_flatMap.1 hd
    rcases kind_of_mem_edgesOfCall hd with hkind | hkind <;> rw [hkind] <;> rfl
  rw [hwithin, List.nil_append, hcall, List.nodup_flatMap]
  constructor
  · intro e he
    obtain ⟨he, hm⟩ := List.mem_filter.1 he
    exact nodup_edgesOfCall hcalls he (hof _ (by simpa using hm))
  · refine (hcalls.nodup_edges.filter _).imp_of_mem fun {e d} he hd hne => ?_
    have he := (List.mem_filter.1 he).1
    have hd := (List.mem_filter.1 hd).1
    intro x hxe hxd
    refine hne ?_
    have hsame : e.site = d.site ∧ e.callee = d.callee := by
      rcases kind_of_mem_edgesOfCall hxe with hkind | hkind
      · rcases kind_of_mem_edgesOfCall hxd with hkind' | hkind'
        · simpa [hkind] using hkind'
        · simp [hkind] at hkind'
      · rcases kind_of_mem_edgesOfCall hxd with hkind' | hkind'
        · simp [hkind] at hkind'
        · simpa [hkind] using hkind'
    exact eq_of_site_callee hcalls he hd hsame.1 hsame.2

/-! ## The whole graph -/

/-- A number tells a node, and the node its number. -/
theorem exists_place (hnodup : g.methods.Nodup) {n : Nat} (hn : n < g.nodeCount) :
    ∃ m ∈ g.methods, ∃ l < (g.graphOf m).nodeCount,
      g.methodOf? n = some m ∧ g.local? n = some l ∧ n = g.numberOf m l := by
  obtain ⟨base, h, hmem, l, hl, rfl⟩ := exists_place_of_lt hn
  refine ⟨h.method.id, mem_methods_of_mem_withBases hmem, l, ?_, methodOf?_add hmem hl, ?_,
    (numberOf_eq hnodup hmem l).symm⟩
  · rwa [graphOf_eq hnodup hmem]
  · rw [local?, getElem?_locals hmem hl, Option.map_some]

/-- No two numbers tell the same node. -/
theorem existsUnique_place (hnodup : g.methods.Nodup) {m : MethodId} (hm : m ∈ g.methods)
    {l : NodeId} (hl : l < (g.graphOf m).nodeCount) :
    ∃! n, n < g.nodeCount ∧ g.methodOf? n = some m ∧ g.local? n = some l := by
  refine ⟨g.numberOf m l, ?_, ?_⟩
  · obtain ⟨base, h, hmem, rfl⟩ := exists_of_mem_methods hm
    rw [graphOf_eq hnodup hmem] at hl
    rw [numberOf_eq hnodup hmem]
    exact ⟨add_lt_nodeCount hmem hl, methodOf?_add hmem hl,
      by rw [local?, getElem?_locals hmem hl, Option.map_some]⟩
  · rintro n ⟨hn, hmethod, hlocal⟩
    obtain ⟨m', -, l', -, hmethod', hlocal', rfl⟩ := exists_place hnodup hn
    obtain rfl : m' = m := Option.some.inj (hmethod'.symm.trans hmethod)
    obtain rfl : l' = l := Option.some.inj (hlocal'.symm.trans hlocal)
    rfl

/-- A list is what has each of the keys below a bound, if all keys are below it. -/
theorem flatMap_range_perm {α : Type} {count : Nat} {key : α → Nat} {xs : List α}
    (h : ∀ x ∈ xs, key x < count) :
    ((List.range count).flatMap fun n => xs.filter (key · = n)).Perm xs := by
  have hall : xs.filter (key · ∈ List.range count) = xs :=
    List.filter_eq_self.2 fun x hx => by simpa using h x hx
  have hperm := flatMap_filter_perm (List.nodup_range (n := count)) key xs
  rwa [hall] at hperm

/-- The rows of a graph that is built hold its edges. -/
theorem exists_superRows? (hg : g.WellFormed) : ∃ rows, Strict.superRows? g = some rows ∧
    ∀ n < g.nodeCount,
      rows.outEdges[n]? = some (g.outEdges n) ∧ rows.inEdges[n]? = some (g.inEdges n) :=
  Strict.exists_edgeRows? hg.source_lt hg.target_lt

/-- For every accepted program and every call graph that is built for it there is a graph of the
whole program. It is made up of the graphs of the methods that are reached and have bodies: their
nodes have one number each, the edges are those of the methods and those of all calls, and each
of them leaves its source and enters its target, also in the tables that are filled. -/
theorem exists_layout (hp : p.Accepted) (hcalls : calls.BuiltFor p) :
    ∃ g graph node, build p calls = .ok g ∧ g.IsLayout p calls graph node := by
  have hwell := hp.wellFormed
  have hgrounded := hcalls.grounded hwell
  obtain ⟨g, hbuild⟩ := exists_build hwell fun m hm => hgrounded.lt hwell hm
  have hmethods := methods_of_build hwell hbuild
  have hnodup : g.methods.Nodup := hmethods ▸ hgrounded.nodup_reachable.filter _
  have hcallee : ∀ e ∈ calls.edges, e.callee ∈ g.methods := by
    intro e he
    obtain ⟨method, hmethod, hbody⟩ := hgrounded.hasBody he
    rw [hmethods, List.mem_filter]
    exact ⟨hgrounded.callee_mem he, by simp [Program.isAbstract, hmethod, hbody]⟩
  have hof : ∀ m ∈ g.methods, FlowGraph.ofProgram p m = .ok (g.graphOf m) := by
    intro m hm
    obtain ⟨base, h, hmem, rfl⟩ := exists_of_mem_methods hm
    rw [graphOf_eq hnodup hmem]
    exact ofProgram_of_mem_graphs hwell hbuild (mem_of_mem_withBases hmem)
  have hperm := edges_perm hwell hgrounded hbuild hnodup hcallee
  have hinside := wellFormed_of_build hbuild
  exact ⟨g, g.graphOf, g.numberOf, hbuild, {
    methods_eq := hmethods
    nodup_methods := hnodup
    ofProgram_eq := hof
    node?_eq := node?_eq_ite hnodup
    exists_place := fun n hn => by
      obtain ⟨m, hm, l, hl, hmethod, hlocal, rfl⟩ := exists_place hnodup hn
      exact ⟨m, hm, l, hl, hmethod, hlocal, by rw [node?_eq_ite hnodup, if_pos ⟨hm, hl⟩]⟩
    existsUnique := fun m hm l hl => existsUnique_place hnodup hm hl
    callee_mem := hcallee
    edges_perm := hperm
    nodup_crossing := nodup_crossing hgrounded hof hperm
    mem_outEdges := fun n e => mem_outEdges
    mem_inEdges := fun n e => mem_inEdges
    outEdges_perm := flatMap_range_perm hinside.source_lt
    inEdges_perm := flatMap_range_perm hinside.target_lt
    exists_rows := exists_superRows? hinside
    exists_outPlaces := Strict.exists_placeRows? hinside.source_lt
    exists_inPlaces := Strict.exists_placeRows? hinside.target_lt }⟩

/-! ## A call that comes back to itself -/

/-- `main` ends with a call of `run` that two methods may answer, and one of them ends with the
same call on itself; the declaration of `run` is abstract. -/
def bouncingCommands : List Command := [
  .addAbstractClass "S" none [], .addClass "A" (some 0) [], .addClass "B" (some 0) [],
  .addAbstractMethod 0 "void run()", .addMethod 1 "void run()" false,
  .addMethod 2 "void run()" false, .addMethod 1 "void main()" true,
  .addVar 3 "s" (.object 0),
  .pushStmts 1 [.invoke ⟨.virtual, ⟨0, "void run()"⟩, some 1, [], none⟩],
  .pushStmts 3 [
    .assign 3 (.new (.object 1)),
    .invoke ⟨.virtual, ⟨0, "void run()"⟩, some 3, [], none⟩],
  .setEntry 3]

/-- The program of these declarations. -/
def bouncing : Program := (Program.ofCommands? bouncingCommands).get (by decide +kernel)

theorem accepted_bouncing : bouncing.Accepted :=
  Program.accepted_of_ofCommands? (Option.some_get _).symm

/-- The steps between the methods: the calls are the last statements, so control comes back to
the exits. -/
def bouncingCrossings : List SuperEdge := [
  ⟨2, 4, .call ⟨3, 1⟩ 1⟩, ⟨6, 3, .ret ⟨3, 1⟩ 1⟩, ⟨2, 7, .call ⟨3, 1⟩ 2⟩, ⟨8, 3, .ret ⟨3, 1⟩ 2⟩,
  ⟨5, 4, .call ⟨1, 0⟩ 1⟩, ⟨6, 6, .ret ⟨1, 0⟩ 1⟩, ⟨5, 7, .call ⟨1, 0⟩ 2⟩, ⟨8, 6, .ret ⟨1, 0⟩ 2⟩]

/-- The abstract method is left out, and there are four steps into methods and four back. -/
theorem layout_bouncing :
    bouncing.Accepted ∧ (CallGraph.ofHierarchy bouncing).BuiltFor bouncing ∧
      ∃ g graph node, build bouncing (.ofHierarchy bouncing) = .ok g ∧
        g.IsLayout bouncing (.ofHierarchy bouncing) graph node ∧ g.methods = [3, 1, 2] ∧
        g.edges.filter (·.kind.crosses) = bouncingCrossings := by
  obtain ⟨g, graph, node, hbuild, hlayout⟩ := exists_layout accepted_bouncing .byHierarchy
  have hparts : ((build bouncing (.ofHierarchy bouncing)).toOption.map fun g =>
      (g.methods, g.edges.filter (·.kind.crosses))) = some ([3, 1, 2], bouncingCrossings) := by
    decide +kernel
  rw [hbuild] at hparts
  obtain ⟨hmethods, hedges⟩ := Prod.mk.inj (Option.some.inj hparts)
  exact ⟨accepted_bouncing, .byHierarchy, g, graph, node, hbuild, hlayout, hmethods, hedges⟩

end SuperGraph

end TacAnalysis
