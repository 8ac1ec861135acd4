import TacAnalysis.Solver.Intra

/-!
# Live variables

A variable is live where some path reads its present value. Facts flow backward from
the exit, where nothing is live, and are united where paths part.
-/

namespace TacAnalysis.Liveness

/-- The variables that are live before a statement, given those live behind it. -/
def applyStmt (stmt : Stmt) (live : IdSet) : IdSet :=
  let live := match stmt.assigned? with
    | some v => live.erase v
    | none => live
  live.insertAll stmt.uses

/-- A variable is live before a statement that reads it, and before one that does not
write it if it is live behind. -/
theorem mem_applyStmt {stmt : Stmt} {live : IdSet} {v : VarId} :
    v ∈ applyStmt stmt live ↔ v ∈ stmt.uses ∨ (v ∈ live ∧ stmt.assigned? ≠ some v) := by
  unfold applyStmt
  cases h : stmt.assigned? with
  | none => simp [or_comm]
  | some w => simp only [SortedSet.mem_insertAll, SortedSet.mem_erase]; grind

/-- The variables that are live before a node; nodes without a statement change nothing. -/
def applyNode (stmt : Option Stmt) (live : IdSet) : IdSet :=
  match stmt with
  | some stmt => applyStmt stmt live
  | none => live

/-- The transfer of a node: its new output, and whether it differs from the old one. -/
def transfer (stmt : Option Stmt) (input output : IdSet) : Bool × IdSet :=
  let live := applyNode stmt input
  if live = output then (false, output) else (true, live)

/-- Liveness on the graph of a method. -/
def analysis (g : FlowGraph) : FlowAnalysis IdSet where
  direction := .backward
  boundary := ∅
  initial := ∅
  meet fact target := target.union fact
  transfer n := transfer (g.stmt? n)

/-- The live variables of a method, if the solver takes at most `budget` turns. -/
def solve? (g : FlowGraph) (order : WorklistOrder) (budget : Nat) : Option (FlowResult IdSet) :=
  (analysis g).solve? g order budget

end TacAnalysis.Liveness
