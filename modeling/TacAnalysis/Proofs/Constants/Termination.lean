import TacAnalysis.Proofs.Constants.Runs
import TacAnalysis.Proofs.ControlFlow.Loops
import TacAnalysis.Proofs.Program.Accepted

/-!
# When constant propagation ends

A turn recomputes the fact before a node from scratch, so facts need not rise: when the
divisor of a value that is not constant turns out to be zero, the quotient falls from "not
a constant" to "undefined". On a loop such a fall can come round again and again.

Facts have finite height, so a run ends exactly when from some turn on no fact behind a
node on a loop falls any more. This is the case if no quotient is ever dropped on or
before a loop, and in particular if there is no division there.

Main statements: `exists_solve?_iff_stops_falling` and `not_exists_solve?_endless`.
-/

namespace TacAnalysis.Constants

variable {p : Program} {g : FlowGraph} {order : WorklistOrder}

/-- A node behind which facts no longer fall settles. -/
theorem settles_of_rising (hg : g.WellFormed) {N : Nat} {n : NodeId}
    (h : ∀ k ≥ N, behind p g order k n ≤ behind p g order (k + 1) n) :
    FlowAnalysis.Settles fun k => behind p g order k n := by
  refine FlowAnalysis.settles_of_rank (N := N)
    (fun k => ConstFact.rank_le (boundVars g.method) (behind p g order k n)) fun k hk => ?_
  have hnow := (usual_of_run p hg order k n).2
  have hnext := (usual_of_run p hg order (k + 1) n).2
  exact (ConstFact.eq_or_rank_lt hnow.proper hnext.proper hnow.within hnext.within (h k hk)).imp
    Eq.symm id

/-- A run ends as soon as facts behind nodes on loops no longer fall. -/
theorem exists_solve?_of_rising (hg : g.WellFormed) {N : Nat}
    (h : ∀ k ≥ N, ∀ n, g.OnLoop n → behind p g order k n ≤ behind p g order (k + 1) n) :
    ∃ budget r, solve? p g order budget = some r := by
  have hsettles : ∀ n < g.nodeCount, FlowAnalysis.Settles fun k => behind p g order k n :=
    fun n hn => FlowGraph.induction_behind_loops hg
      (fun n hloop => settles_of_rising hg fun k hk => h k hk n hloop)
      (fun n _ hsources => FlowAnalysis.settles_of_sources (computes p g) hg hsources) hn
  obtain ⟨budget, s, hs⟩ := (FlowAnalysis.exists_run?_iff_settles (computes p g) hg).2 hsettles
  obtain ⟨r, hr⟩ := FlowAnalysis.exists_solve?_iff.2 ⟨s, hs⟩
  exact ⟨budget, r, hr⟩

/-- While no quotient is dropped on or before a loop, facts there only rise. -/
theorem behind_le_succ (hg : g.WellFormed)
    (h : ∀ k n, g.BeforeLoop n → ¬ DropsQuotient p (g.stmt? n) (before p g order k n))
    (k : Nat) {n : NodeId} (hn : g.BeforeLoop n) :
    behind p g order k n ≤ behind p g order (k + 1) n :=
  FlowAnalysis.outputs_le_succ (computes p g) hg (isJoin p g)
    (fun _ hn _ hm => hn.predecessor hm) (fun n _ => applyAbove_mono p (g.stmt? n))
    (fun k n hn => applyNode_eq_applyAbove (h k n hn)) k hn

/-- Every method of an accepted program has a graph, and constant propagation on it ends,
in either order, exactly when from some turn on no fact behind a node on a loop falls. It
ends if no quotient is ever dropped on or before a loop. -/
theorem exists_solve?_iff_stops_falling (hp : p.Accepted) {m : MethodId} {method : Method}
    (hm : p.method? m = some method) :
    ∃ g, FlowGraph.ofProgram p m = .ok g ∧ ∀ order,
      ((∃ budget r, solve? p g order budget = some r) ↔
        ∃ N, ∀ k ≥ N, ∀ n, g.OnLoop n → behind p g order k n ≤ behind p g order (k + 1) n) ∧
      ((∀ k n, g.BeforeLoop n → ¬ DropsQuotient p (g.stmt? n) (before p g order k n)) →
        ∃ budget r, solve? p g order budget = some r) := by
  obtain ⟨g, hof, hg, -⟩ := hp.wellFormed.exists_flowGraph hm
  refine ⟨g, hof, fun order => ⟨⟨?_, fun ⟨N, hN⟩ => exists_solve?_of_rising hg hN⟩, fun h => ?_⟩⟩
  · rintro ⟨budget, r, hr⟩
    obtain ⟨s, hs⟩ := FlowAnalysis.exists_solve?_iff.1 ⟨r, hr⟩
    refine ⟨budget, fun k hk n _ => ?_⟩
    unfold behind
    rw [FlowAnalysis.stateAt_of_run? hs hk, FlowAnalysis.stateAt_of_run? hs (by omega)]
  · exact exists_solve?_of_rising hg fun k (_ : k ≥ 0) n hn => behind_le_succ hg h k hn.beforeLoop

/-! ## A run that never ends -/

/-- A parameter `v0` is divided by `v1` on a loop that also copies the quotient, by way of
`v3` and `v2`, to `v1`. Before the loop `v3` is zero. -/
def endlessCommands : List Command := [
  .addClass "C" none [], .addMethod 0 "void m()" true,
  .addParam 0 "p" .int, .addVar 0 "a" .int, .addVar 0 "b" .int, .addVar 0 "c" .int,
  .pushStmts 0 [
    .assign 3 (.intLiteral 0),
    .branch ⟨.lt, 0, 0⟩ 0,
    .assign 2 (.var 3),
    .assign 3 (.binary ⟨.div, 0, 1⟩),
    .assign 1 (.var 2),
    .goto 2]]

/-- The program of these declarations. -/
def endless : Program := (Program.ofCommands? endlessCommands).get (by decide +kernel)

/-- The graph of its only method. -/
def endlessGraph : FlowGraph where
  method := endless.methods.head (by decide +kernel)
  edges := [⟨0, 1, .entry⟩, ⟨1, 2, .fallThrough⟩, ⟨2, 1, .ifTrue⟩, ⟨2, 3, .ifFalse⟩,
    ⟨3, 4, .fallThrough⟩, ⟨4, 5, .fallThrough⟩, ⟨5, 6, .fallThrough⟩, ⟨6, 3, .goto⟩]

theorem accepted_endless : endless.Accepted :=
  Program.accepted_of_ofCommands? (Option.some_get _).symm

theorem ofProgram_endless : FlowGraph.ofProgram endless 0 = .ok endlessGraph := by
  rfl

/-- Falling quotients chase each other round the loop of the program for ever. -/
theorem endless_comes_back (order : WorklistOrder) (budget : Nat) :
    solve? endless endlessGraph order budget = none := by
  cases order with
  | fifo =>
    refine FlowAnalysis.solve?_eq_none_of_period (n := 11) (p := 8) (by decide) ?_ ?_ budget
    · decide +kernel
    · decide +kernel
  | lifo =>
    refine FlowAnalysis.solve?_eq_none_of_period (n := 15) (p := 8) (by decide) ?_ ?_ budget
    · decide +kernel
    · decide +kernel

/-- On an accepted program constant propagation need not end, in either order. -/
theorem not_exists_solve?_endless :
    endless.Accepted ∧ FlowGraph.ofProgram endless 0 = .ok endlessGraph ∧
      ∀ order, ¬ ∃ budget r, solve? endless endlessGraph order budget = some r := by
  refine ⟨accepted_endless, ofProgram_endless, fun order ⟨budget, r, hr⟩ => ?_⟩
  rw [endless_comes_back order budget] at hr
  cases hr

/-- So facts on its loop keep falling. -/
theorem endless_keeps_falling :
    endless.Accepted ∧ endless.method? 0 = some endlessGraph.method ∧
      ∀ order N, ∃ k ≥ N, ∃ n, endlessGraph.OnLoop n ∧
        ¬ behind endless endlessGraph order k n ≤ behind endless endlessGraph order (k + 1) n := by
  have hmethod : endless.method? 0 = some endlessGraph.method :=
    (FlowGraph.wellFormed_of_ofProgram ofProgram_endless).2
  refine ⟨accepted_endless, hmethod, fun order N => ?_⟩
  obtain ⟨g, hg, hends⟩ := exists_solve?_iff_stops_falling accepted_endless hmethod
  obtain rfl : endlessGraph = g := Except.ok.inj (ofProgram_endless.symm.trans hg)
  by_contra hrises
  push Not at hrises
  obtain ⟨budget, r, hr⟩ := (hends order).1.2 ⟨N, hrises⟩
  rw [endless_comes_back order budget] at hr
  cases hr

end TacAnalysis.Constants
