import TacAnalysis.IdMap
import TacAnalysis.Iterate
import TacAnalysis.Worklist

/-!
# Facts at the nodes of a graph

What solvers compute, a fact on either side of each node, and the state that they
pass through.
-/

namespace TacAnalysis

/-- The facts before and after each node. -/
structure FlowResult (F : Type) where
  /-- The facts before the nodes. -/
  inFacts : IdMap F
  /-- The facts after the nodes. -/
  outFacts : IdMap F
  /-- How many nodes the solver took from its worklist. -/
  iterations : Nat

namespace FlowResult

variable {F : Type}

/-- No fact is recorded. -/
def empty : FlowResult F := ⟨∅, ∅, 0⟩

/-- The facts of nodes numbered from zero. -/
def ofLists (inFacts outFacts : List F) (iterations : Nat) : FlowResult F :=
  let table (facts : List F) := IdMap.ofList (facts.zipIdx.map fun e => (e.2, e.1))
  ⟨table inFacts, table outFacts, iterations⟩

variable (r : FlowResult F)

/-- The fact before a node. -/
def inFact? (n : Nat) : Option F := r.inFacts.get? n

/-- The fact after a node. -/
def outFact? (n : Nat) : Option F := r.outFacts.get? n

/-- Records the fact before a node. -/
def setIn (n : Nat) (fact : F) : FlowResult F := { r with inFacts := r.inFacts.insert n fact }

/-- Records the fact after a node. -/
def setOut (n : Nat) (fact : F) : FlowResult F := { r with outFacts := r.outFacts.insert n fact }

@[simp] theorem inFact?_setIn (n m : Nat) (fact : F) :
    (r.setIn n fact).inFact? m = if m = n then some fact else r.inFact? m :=
  IdMap.get?_insert r.inFacts n m fact

@[simp] theorem outFact?_setOut (n m : Nat) (fact : F) :
    (r.setOut n fact).outFact? m = if m = n then some fact else r.outFact? m :=
  IdMap.get?_insert r.outFacts n m fact

/-- How many nodes have a fact before them. -/
def size : Nat := r.inFacts.size

/-- Whether no fact is recorded at all. -/
def isEmpty : Bool := r.inFacts.isEmpty && r.outFacts.isEmpty

/-- Whether two results hold the same facts, however they were reached. -/
def sameFacts [DecidableEq F] (other : FlowResult F) : Bool :=
  decide (r.inFacts = other.inFacts) && decide (r.outFacts = other.outFacts)

end FlowResult

/-- A turn of a solver: the node, and whether its transfer reported a change. -/
structure Visit where
  /-- The node whose turn it was. -/
  node : Nat
  /-- Whether its transfer reported a change. -/
  changed : Bool
  deriving DecidableEq, Inhabited

/-- The state of a solver. Facts flow into a node on one side, its *input*, and leave it
on the other, its *output*. -/
structure SolverState (F : Type) where
  /-- For each node the fact that flows into it. -/
  input : List F
  /-- For each node the fact that leaves it. -/
  output : List F
  /-- The nodes that have to be looked at again. -/
  worklist : NodeWorklist
  /-- The turns so far, the last one first. -/
  history : List Visit
  deriving DecidableEq

namespace SolverState

variable {F : Type}

/-- Every node but `boundary` holds `initial` on both sides, `boundary` holds
`boundaryFact`, and the given nodes are waiting. -/
def start (nodeCount boundary : Nat) (boundaryFact initial : F) (order : WorklistOrder)
    (waiting : List Nat) : SolverState F :=
  let facts := (List.range nodeCount).map fun n => if n = boundary then boundaryFact else initial
  ⟨facts, facts, (NodeWorklist.empty order).pushAll waiting, []⟩

/-- Records a turn: both facts of the node and, after a change, the nodes that depend
on it. -/
def record (s : SolverState F) (worklist : NodeWorklist) (n : Nat) (input output : F)
    (changed : Bool) (dependents : List Nat) : SolverState F where
  input := s.input.set n input
  output := s.output.set n output
  worklist := if changed then worklist.pushAll dependents else worklist
  history := ⟨n, changed⟩ :: s.history

/-- The turns so far, in order. -/
def visits (s : SolverState F) : List Visit := s.history.reverse

@[simp] theorem visits_record (s : SolverState F) (worklist : NodeWorklist) (n : Nat)
    (input output : F) (changed : Bool) (dependents : List Nat) :
    (s.record worklist n input output changed dependents).visits =
      s.visits ++ [⟨n, changed⟩] := by
  simp [visits, record]

/-- How many turns there have been. -/
def turns (s : SolverState F) : Nat := s.history.length

@[simp] theorem turns_record (s : SolverState F) (worklist : NodeWorklist) (n : Nat)
    (input output : F) (changed : Bool) (dependents : List Nat) :
    (s.record worklist n input output changed dependents).turns = s.turns + 1 := rfl

end SolverState

end TacAnalysis
