import TacAnalysis.Constants.Propagation
import TacAnalysis.Liveness
import TacAnalysis.ControlFlow.Build
import TacAnalysis.Search

/-!
# Dead code

Two kinds of statements of a method are dead: those that no path reaches on which every
branch is feasible for the constants found, and assignments without effect to variables
that are not live behind them.
-/

namespace TacAnalysis

/-- The dead statements of a method, by position. -/
structure DeadCodeReport where
  /-- The subsignature of the method. -/
  method : String
  /-- All dead statements. -/
  dead : List Nat
  /-- The statements that no feasible path reaches. -/
  unreachable : List Nat
  /-- The assignments without effect whose target is never read. -/
  deadAssignments : List Nat
  deriving DecidableEq, Inhabited

/-- Whether `x` stands in an ascending list, found by halving: `size` elements from
position `base` on are left. -/
def bisect (xs : List Nat) (x : Nat) (base size : Nat) : Bool :=
  if size ≤ 1 then xs[base]? == some x
  else
    let half := size / 2
    let middle := base + half
    if (xs[middle]?).any (x < ·) then bisect xs x base (size - half)
    else bisect xs x middle (size - half)
termination_by size

namespace DeadCodeReport

variable (r : DeadCodeReport)

/-- Whether no statement is dead. -/
def isEmpty : Bool := r.dead.isEmpty

/-- Whether the statement at a position is dead. -/
def contains (index : Nat) : Bool := bisect r.dead index 0 r.dead.length

end DeadCodeReport

namespace DeadCode

variable (g : FlowGraph)

/-- Whether a branch on `v` can go where only the values of `allowed` go. -/
def admits (v : Value) (allowed : Int32 → Bool) : Bool :=
  match v with
  | .constant c => allowed c
  | _ => true

/-- Whether control can take an edge when `f` holds before its source. -/
def isFeasible (f : ConstFact) (e : FlowEdge) : Bool :=
  match g.stmt? e.source, e.kind with
  | some (.branch condition _), .ifTrue => admits (evaluateBinary condition f) (· = 1)
  | some (.branch condition _), .ifFalse => admits (evaluateBinary condition f) (· = 0)
  | some (.switch selector _ _), .switchCase value => admits (f.get selector) (· = value)
  | some (.switch selector cases _), .switchDefault =>
    admits (f.get selector) fun c => cases.all (·.1 ≠ c)
  | _, _ => true

/-- The edges that control can take from a node. -/
def feasibleEdges (constants : FlowResult ConstFact) (n : NodeId) : List FlowEdge :=
  (g.outEdges n).filter (isFeasible g ((constants.inFact? n).getD ∅))

/-- The nodes that feasible paths from the entry reach. -/
def reached (constants : FlowResult ConstFact) : List NodeId :=
  Search.breadthFirst (fun n => (feasibleEdges g constants n).map (·.target)) g.nodeCount [g.entry]

/-- The statements that no feasible path reaches. -/
def unreachable (constants : FlowResult ConstFact) : IdSet :=
  let reached := reached g constants
  .ofList ((g.nodes.filter (· ∉ reached)).filterMap g.stmtIndex?)

/-- Whether the node assigns a value without effect to a variable that is not live
behind it. A node without a recorded fact is not judged. -/
def isDeadAssignment (live : FlowResult IdSet) (n : NodeId) : Bool :=
  match g.stmt? n, live.outFact? n with
  | some (.assign lhs rhs), some liveOut => decide (¬ lhs ∈ liveOut) && rhs.isPure
  | _, _ => false

/-- The assignments that have no effect. -/
def deadAssignments (live : FlowResult IdSet) : IdSet :=
  .ofList ((g.nodes.filter (isDeadAssignment g live)).filterMap g.stmtIndex?)

/-- The dead statements of a method, given its constants and its live variables. -/
def detect (constants : FlowResult ConstFact) (live : FlowResult IdSet) : DeadCodeReport :=
  let unreachable := unreachable g constants
  let assignments := deadAssignments g live
  { method := g.method.subsignature
    dead := (unreachable.union assignments).toList
    unreachable := unreachable.toList
    deadAssignments := assignments.toList }

/-- The dead statements of a method of a program, if the solvers take at most `budget`
turns each. -/
def ofProgram? (p : Program) (m : MethodId) (order : WorklistOrder) (budget : Nat) :
    Except ProgramError (Option DeadCodeReport) := do
  let g ← FlowGraph.ofProgram p m
  return do
    let constants ← Constants.solve? p g order budget
    let live ← Liveness.solve? g order budget
    return detect g constants live

end DeadCode

end TacAnalysis
