import TacAnalysis.Solver.Basic
import TacAnalysis.SuperGraph

/-!
# Solving the equations of a whole program

Facts flow forward over the control flow of a whole program, and each edge may change
them on the way. What has flowed into a node stays there: a turn joins what its incoming
edges carry into the fact that the node holds already.
-/

namespace TacAnalysis

/-- An analysis of the control flow of a whole program. -/
structure SuperAnalysis (F : Type) where
  /-- The fact at the entry of the program, on both of its sides. -/
  boundary : F
  /-- The fact that all other nodes start with. -/
  initial : F
  /-- `meet fact target` joins a fact into a target. -/
  meet : F → F → F
  /-- `transfer n input output` gives the new output of the node and tells whether it
  counts as a change of the old one. -/
  transfer : Nat → F → F → Bool × F
  /-- What an edge carries, given the output of its source. -/
  along : SuperEdge → F → F

namespace SuperAnalysis

variable {F : Type} (a : SuperAnalysis F) (g : SuperGraph)

/-- The node with which a run of the program begins. -/
def entryNode? : Option Nat := g.program.entry.bind g.entryOf?

/-- The state before the first turn: all nodes wait. -/
def start (entry : Nat) (order : WorklistOrder) : SolverState F :=
  .start g.nodeCount entry a.boundary a.initial order g.nodes

/-- What a node holds after its incoming edges have been joined in. -/
def joined (s : SolverState F) (n : Nat) : F :=
  (g.inEdges n).foldl
    (fun target e => a.meet (a.along e (s.output[e.source]?.getD a.initial)) target)
    (s.input[n]?.getD a.initial)

/-- One turn of the solver; none if no node is waiting. -/
def step (s : SolverState F) : Option (SolverState F) := do
  let (n, worklist) ← s.worklist.pop?
  let input := a.joined g s n
  let (changed, output) := a.transfer n input (s.output[n]?.getD a.initial)
  return s.record worklist n input output changed (g.successors n)

/-- The facts of a state. -/
def result (s : SolverState F) : FlowResult F := .ofLists s.input s.output s.turns

/-- The final state of the solver, if it takes at most `budget` turns. -/
def run? (entry : Nat) (order : WorklistOrder) (budget : Nat) : Option (SolverState F) :=
  iterate? (a.step g) budget (a.start g entry order)

/-- The facts that the solver computes, if it takes at most `budget` turns. Without an
entry node nothing is computed. -/
def solve? (order : WorklistOrder) (budget : Nat) : Option (FlowResult F) :=
  match entryNode? g with
  | none => some .empty
  | some entry => (a.run? g entry order budget).map result

end SuperAnalysis

end TacAnalysis
