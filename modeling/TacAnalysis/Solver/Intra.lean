import TacAnalysis.ControlFlow.Graph
import TacAnalysis.Solver.Basic

/-!
# Solving the equations of one method

An analysis of a control-flow graph is given by what holds at the boundary, how facts
are joined where paths meet, and how a node transforms a fact. The solver takes nodes
from a worklist: it joins what flows into the node, applies the transfer and, if that
reports a change, puts the nodes that depend on it back. A backward analysis is the same
on the reversed graph. Nothing is assumed of the analysis, so the run may not end.
-/

namespace TacAnalysis

/-- The direction in which facts flow. -/
inductive Direction where
  | forward
  | backward
  deriving DecidableEq, Inhabited

/-- An analysis of one control-flow graph. -/
structure FlowAnalysis (F : Type) where
  /-- Where facts flow to. -/
  direction : Direction
  /-- The fact at the boundary node, on both of its sides. -/
  boundary : F
  /-- The fact that all other nodes start with, and with which a join begins. -/
  initial : F
  /-- `meet fact target` joins a fact into a target. -/
  meet : F → F → F
  /-- `transfer n input output` gives the new output of the node and tells whether it
  counts as a change of the old one. -/
  transfer : NodeId → F → F → Bool × F

namespace FlowAnalysis

variable {F : Type} (a : FlowAnalysis F) (g : FlowGraph)

/-- The node that keeps the boundary fact. -/
def boundaryNode : NodeId :=
  match a.direction with
  | .forward => g.entry
  | .backward => g.exit

/-- The nodes from which facts flow into a node. -/
def sources (n : NodeId) : List NodeId :=
  match a.direction with
  | .forward => g.predecessors n
  | .backward => g.successors n

/-- The nodes into which facts flow from a node. -/
def dependents (n : NodeId) : List NodeId :=
  match a.direction with
  | .forward => g.successors n
  | .backward => g.predecessors n

/-- The state before the first turn: all nodes wait, except the boundary node. -/
def start (order : WorklistOrder) : SolverState F :=
  .start g.nodeCount (a.boundaryNode g) a.boundary a.initial order
    (g.nodes.filter (· ≠ a.boundaryNode g))

/-- What flows into a node, given the outputs of all nodes. -/
def joined (output : List F) (n : NodeId) : F :=
  (a.sources g n).foldl (fun target m => a.meet (output[m]?.getD a.initial) target) a.initial

/-- One turn of the solver; none if no node is waiting. -/
def step (s : SolverState F) : Option (SolverState F) := do
  let (n, worklist) ← s.worklist.pop?
  let input := a.joined g s.output n
  let (changed, output) := a.transfer n input (s.output[n]?.getD a.initial)
  return s.record worklist n input output changed (a.dependents g n)

/-- The facts of a state: inputs stand before the nodes if facts flow forward, and
behind them otherwise. -/
def result (s : SolverState F) : FlowResult F :=
  match a.direction with
  | .forward => .ofLists s.input s.output s.turns
  | .backward => .ofLists s.output s.input s.turns

/-- The final state of the solver, if it takes at most `budget` turns. -/
def run? (order : WorklistOrder) (budget : Nat) : Option (SolverState F) :=
  iterate? (a.step g) budget (a.start g order)

/-- The facts that the solver computes, if it takes at most `budget` turns. -/
def solve? (order : WorklistOrder) (budget : Nat) : Option (FlowResult F) :=
  (a.run? g order budget).map a.result

end FlowAnalysis

end TacAnalysis
