import TacAnalysis.Program.Basic

/-!
# Control-flow graphs

The graph of a method has a node for each statement, between an entry node and an exit
node: node 0 is the entry, the statement at position `i` is node `i + 1`, and the exit
is the last node. Edges are kept in one list; what leaves or enters a node is read off
that list, so its order is the order of the edges.
-/

namespace TacAnalysis

/-- The number of a node in the graph of one method. -/
abbrev NodeId := Nat

/-- What a node stands for. -/
inductive NodeKind where
  | entry
  | stmt (index : Nat)
  | exit
  deriving DecidableEq, Inhabited

/-- When control takes an edge. -/
inductive EdgeKind where
  | entry
  | fallThrough
  | goto
  | ifTrue
  | ifFalse
  | switchCase (value : Int32)
  | switchDefault
  | ret
  deriving DecidableEq, Inhabited

/-- The text that a drawing puts on the edge. -/
def EdgeKind.label : EdgeKind → String
  | entry => "entry"
  | fallThrough => ""
  | goto => "goto"
  | ifTrue => "true"
  | ifFalse => "false"
  | switchCase value => "case " ++ toString value.toInt
  | switchDefault => "default"
  | ret => "return"

/-- A step of control from one node to another. -/
structure FlowEdge where
  /-- The node that control leaves. -/
  source : NodeId
  /-- The node that control enters. -/
  target : NodeId
  /-- When control takes the edge. -/
  kind : EdgeKind
  deriving DecidableEq, Inhabited

/-- The control-flow graph of a method. -/
structure FlowGraph where
  /-- The method whose statements are the inner nodes. -/
  method : Method
  /-- The edges, by position of the statement that they leave. -/
  edges : List FlowEdge

namespace FlowGraph

variable (g : FlowGraph)

/-- How many nodes there are. -/
def nodeCount : Nat := g.method.stmts.length + 2

/-- The node before the first statement. -/
def entry (_ : FlowGraph) : NodeId := 0

/-- The node behind every return. -/
def exit : NodeId := g.method.stmts.length + 1

/-- The nodes in order. -/
def nodes : List NodeId := List.range g.nodeCount

/-- The node of the statement at a position. -/
def nodeOf (index : Nat) : NodeId := index + 1

/-- What a node stands for. -/
def kind (n : NodeId) : NodeKind :=
  if n = g.entry then .entry else if n = g.exit then .exit else .stmt (n - 1)

/-- The position of the statement at a node. -/
def stmtIndex? (n : NodeId) : Option Nat :=
  match g.kind n with
  | .stmt index => some index
  | _ => none

/-- The statement at a node. -/
def stmt? (n : NodeId) : Option Stmt := (g.stmtIndex? n).bind (g.method.stmts[·]?)

/-- The edges that leave a node. -/
def outEdges (n : NodeId) : List FlowEdge := g.edges.filter (·.source = n)

/-- The edges that enter a node. -/
def inEdges (n : NodeId) : List FlowEdge := g.edges.filter (·.target = n)

/-- The nodes to which control may go from a node, once for each edge. -/
def successors (n : NodeId) : List NodeId := (g.outEdges n).map (·.target)

/-- The nodes from which control may come to a node, once for each edge. -/
def predecessors (n : NodeId) : List NodeId := (g.inEdges n).map (·.source)

variable {g}

@[simp] theorem mem_nodes {n : NodeId} : n ∈ g.nodes ↔ n < g.nodeCount := List.mem_range

@[simp] theorem mem_outEdges {n : NodeId} {e : FlowEdge} :
    e ∈ g.outEdges n ↔ e ∈ g.edges ∧ e.source = n := by
  simp [outEdges]

@[simp] theorem mem_inEdges {n : NodeId} {e : FlowEdge} :
    e ∈ g.inEdges n ↔ e ∈ g.edges ∧ e.target = n := by
  simp [inEdges]

/-- A successor is the target of an edge from the node. -/
theorem mem_successors {n m : NodeId} :
    m ∈ g.successors n ↔ ∃ e ∈ g.edges, e.source = n ∧ e.target = m := by
  simp [successors, and_assoc]

/-- A predecessor is the source of an edge into the node. -/
theorem mem_predecessors {n m : NodeId} :
    m ∈ g.predecessors n ↔ ∃ e ∈ g.edges, e.target = n ∧ e.source = m := by
  simp [predecessors, and_assoc]

/-- Successors and predecessors tell the same edges. -/
theorem mem_successors_iff_mem_predecessors {n m : NodeId} :
    m ∈ g.successors n ↔ n ∈ g.predecessors m := by
  simp only [mem_successors, mem_predecessors, and_comm]

end FlowGraph

end TacAnalysis
