import TacAnalysis.Proofs.Constants.Transfer

/-!
# Runs of constant propagation

The facts that a run has found before and behind each node after so many turns. All of
them bind variables of the method only, and where the run ends they satisfy the equations
of the analysis.

Main statements: `usual_of_run` and `solution_of_solve?`.
-/

namespace TacAnalysis.Constants

variable (p : Program) (g : FlowGraph) (order : WorklistOrder)

/-- What holds before a node after `k` turns of constant propagation. -/
def before (k : Nat) (n : NodeId) : ConstFact :=
  (analysis p g).inputs ((analysis p g).stateAt g order k) n

/-- What holds behind a node after `k` turns of constant propagation. -/
def behind (k : Nat) (n : NodeId) : ConstFact :=
  (analysis p g).outputs ((analysis p g).stateAt g order k) n

variable {p g order}

/-- The statement at a node is one of the method. -/
theorem mem_stmts_of_stmt? {n : NodeId} {stmt : Stmt} (h : g.stmt? n = some stmt) :
    stmt ∈ g.method.stmts := by
  obtain ⟨index, -, hindex⟩ := Option.bind_eq_some_iff.1 h
  exact List.mem_of_getElem? hindex

/-- All facts of a run bind variables of the method only, and none to "undefined". -/
theorem usual_of_run (p : Program) (hg : g.WellFormed) (order : WorklistOrder) (k : Nat)
    (n : NodeId) :
    Usual g.method (before p g order k n) ∧ Usual g.method (behind p g order k n) :=
  FlowAnalysis.facts_induction (computes p g) hg usual_boundary Usual.empty
    (fun _ _ hx hy => hx.meetInto hy)
    (fun _ _ hx => hx.applyNode fun _ hstmt => mem_stmts_of_stmt? hstmt) k n

/-- A result holds the facts of the last turn, and they satisfy the equations. -/
theorem solution_of_solve? (hg : g.WellFormed) {budget : Nat} {r : FlowResult ConstFact}
    (h : solve? p g order budget = some r) :
    (analysis p g).IsSolution g (fun n => applyNode p (g.stmt? n)) (before p g order budget)
        (behind p g order budget) ∧
      (∀ n, r.inFact? n = if n < g.nodeCount then some (before p g order budget n) else none) ∧
      ∀ n, r.outFact? n = if n < g.nodeCount then some (behind p g order budget n) else none := by
  obtain ⟨s, hs, hin, hout⟩ := FlowAnalysis.solve?_eq_some (computes p g) hg rfl h
  obtain ⟨rfl, -⟩ := FlowAnalysis.run?_eq_some_iff.1 hs
  exact ⟨FlowAnalysis.isSolution_of_run? (computes p g) hg hs, hin, hout⟩

end TacAnalysis.Constants
