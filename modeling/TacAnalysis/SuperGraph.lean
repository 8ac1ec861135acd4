import TacAnalysis.CallGraph.Basic
import TacAnalysis.ControlFlow.Build

/-!
# The control flow of a whole program

The graphs of all reachable methods that have a body are put side by side. The edges
that leave a call statement bypass the call; for each method that the site may call
there are an edge to its entry and edges from its exit to where the call returns.
-/

namespace TacAnalysis

/-- Why control goes from one node to another. -/
inductive SuperEdgeKind where
  /-- A step inside a method that does not leave a call. -/
  | normal (kind : EdgeKind)
  /-- A step past a call. -/
  | callToReturn (site : Site)
  /-- The step into a called method. -/
  | call (site : Site) (callee : MethodId)
  /-- The step back from a called method. -/
  | ret (site : Site) (callee : MethodId)
  deriving DecidableEq, Inhabited

/-- A step of control in the whole program. -/
structure SuperEdge where
  /-- The node that control leaves. -/
  source : Nat
  /-- The node that control enters. -/
  target : Nat
  /-- Why control goes along the edge. -/
  kind : SuperEdgeKind
  deriving DecidableEq, Inhabited

/-- The control flow of a whole program. Nodes are numbered graph by graph. -/
structure SuperGraph where
  /-- The program whose methods are put side by side. -/
  program : Program
  /-- The graphs of the methods, in the order of the call graph. -/
  graphs : List FlowGraph
  /-- The edges, graph by graph; those of a graph before those of its calls. -/
  edges : List SuperEdge

namespace SuperGraph

/-- For each graph its first node in the common numbering. -/
def withBases (base : Nat) : List FlowGraph → List (Nat × FlowGraph)
  | [] => []
  | g :: rest => (base, g) :: withBases (base + g.nodeCount) rest

/-- The graph of a method with its first node. -/
def find? (graphs : List FlowGraph) (m : MethodId) : Option (Nat × FlowGraph) :=
  (withBases 0 graphs).find? (·.2.method.id = m)

/-- The site of the call at a local node, if there is a call. -/
def callSite? (g : FlowGraph) (n : NodeId) : Option Site :=
  match g.stmt? n, g.stmtIndex? n with
  | some (.invoke _), some index => some ⟨g.method.id, index⟩
  | _, _ => none

/-- The edges of one method. -/
def localEdges (base : Nat) (g : FlowGraph) : List SuperEdge :=
  g.edges.map fun e => ⟨base + e.source, base + e.target,
    match callSite? g e.source with
    | some site => .callToReturn site
    | none => .normal e.kind⟩

/-- The edges into and out of one called method. -/
def calleeEdges (graphs : List FlowGraph) (base : Nat) (g : FlowGraph) (n : NodeId) (site : Site)
    (callee : MethodId) : List SuperEdge :=
  match find? graphs callee with
  | none => []
  | some (calleeBase, h) =>
    ⟨base + n, calleeBase + h.entry, .call site callee⟩ ::
      (g.successors n).map fun s => ⟨calleeBase + h.exit, base + s, .ret site callee⟩

/-- The edges of the calls of one method. -/
def callEdges (graphs : List FlowGraph) (calls : CallGraph) (base : Nat) (g : FlowGraph) :
    List SuperEdge :=
  g.nodes.flatMap fun n =>
    match callSite? g n with
    | none => []
    | some site => (calls.calleesOf site).flatMap (calleeEdges graphs base g n site)

/-- The control flow of the methods that a call graph reaches. -/
def build (p : Program) (calls : CallGraph) : Except ProgramError SuperGraph := do
  let graphs ← (calls.reachable.filter (!p.isAbstract ·)).mapM (FlowGraph.ofProgram p)
  let edges := (withBases 0 graphs).flatMap fun e =>
    localEdges e.1 e.2 ++ callEdges graphs calls e.1 e.2
  return ⟨p, graphs, edges⟩

variable (g : SuperGraph)

/-- The methods, in the order of the call graph. -/
def methods : List MethodId := g.graphs.map (·.method.id)

/-- For each node its graph and its number in there. -/
def locals : List (FlowGraph × NodeId) := g.graphs.flatMap fun h => h.nodes.map (h, ·)

/-- How many nodes there are. -/
def nodeCount : Nat := g.locals.length

/-- The nodes in order. -/
def nodes : List Nat := List.range g.nodeCount

/-- The graph of a method. -/
def graph? (m : MethodId) : Option FlowGraph := (find? g.graphs m).map (·.2)

/-- The node of a local node of a method. -/
def node? (m : MethodId) (localNode : NodeId) : Option Nat := do
  let (base, h) ← find? g.graphs m
  if localNode < h.nodeCount then some (base + localNode) else none

/-- The node of a statement. -/
def stmtNode? (s : Site) : Option Nat := g.node? s.method (FlowGraph.nodeOf s.index)

/-- The node before the first statement of a method. -/
def entryOf? (m : MethodId) : Option Nat := do g.node? m (← g.graph? m).entry

/-- The node behind every return of a method. -/
def exitOf? (m : MethodId) : Option Nat := do g.node? m (← g.graph? m).exit

/-- The method to which a node belongs. -/
def methodOf? (n : Nat) : Option MethodId := g.locals[n]?.map (·.1.method.id)

/-- The number of a node in the graph of its method. -/
def local? (n : Nat) : Option NodeId := g.locals[n]?.map (·.2)

/-- The statement at a node. -/
def stmt? (n : Nat) : Option Stmt := g.locals[n]?.bind fun l => l.1.stmt? l.2

/-- Whether a node is a call. -/
def isCall (n : Nat) : Bool := (g.stmt? n).any Stmt.isCall

/-- The edges that leave a node. -/
def outEdges (n : Nat) : List SuperEdge := g.edges.filter (·.source = n)

/-- The edges that enter a node. -/
def inEdges (n : Nat) : List SuperEdge := g.edges.filter (·.target = n)

/-- The nodes to which control may go from a node, once for each edge. -/
def successors (n : Nat) : List Nat := (g.outEdges n).map (·.target)

/-- The nodes from which control may come to a node, once for each edge. -/
def predecessors (n : Nat) : List Nat := (g.inEdges n).map (·.source)

variable {g}

@[simp] theorem mem_nodes {n : Nat} : n ∈ g.nodes ↔ n < g.nodeCount := List.mem_range

@[simp] theorem mem_outEdges {n : Nat} {e : SuperEdge} :
    e ∈ g.outEdges n ↔ e ∈ g.edges ∧ e.source = n := by
  simp [outEdges]

@[simp] theorem mem_inEdges {n : Nat} {e : SuperEdge} :
    e ∈ g.inEdges n ↔ e ∈ g.edges ∧ e.target = n := by
  simp [inEdges]

end SuperGraph

end TacAnalysis
