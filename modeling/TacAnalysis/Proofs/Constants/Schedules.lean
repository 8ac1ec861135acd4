import TacAnalysis.Proofs.Constants.Transfer
import TacAnalysis.Proofs.Constants.Runs
import TacAnalysis.Proofs.ControlFlow.Loops
import TacAnalysis.Proofs.Program.Accepted

/-!
# Constant propagation under different schedules

Two runs in different orders both end in solutions of the same equations. Away from loops
the equations determine a fact from those before it, so two solutions agree everywhere as
soon as they agree behind the nodes on loops. On loops they may differ: a run that visits a
division early may keep a quotient that another run drops.

If no quotient is dropped on or before a loop, both results solve the monotone equations
there too. Each run stays below the other's result, so the results agree.

Main statements: `sameFacts_iff_agree_on_loops` and `not_sameFacts_parting`.
-/

namespace TacAnalysis

namespace FlowAnalysis

variable {F : Type} {a : FlowAnalysis F} {g : FlowGraph} {f : NodeId → F → F}
  {input output input' output' : NodeId → F}

/-- Two solutions of a forward analysis that agree behind nodes on loops agree behind all
nodes. -/
theorem IsSolution.output_eq_of_loops (hg : g.WellFormed) (hd : a.direction = .forward)
    (h : a.IsSolution g f input output) (h' : a.IsSolution g f input' output')
    (hloop : ∀ n, g.OnLoop n → output n = output' n) {n : NodeId} (hn : n < g.nodeCount) :
    output n = output' n := by
  refine FlowGraph.induction_behind_loops hg hloop (fun m hm hsources => ?_) hn
  by_cases hb : m = a.boundaryNode g
  · rw [hb, h.output_boundary, h'.output_boundary]
  · have hgather : a.gather g output m = a.gather g output' m := by
      refine gather_congr fun k hk => hsources k ?_
      simpa only [sources, hd] using hk
    rw [h.output_eq m hm hb, h'.output_eq m hm hb, h.input_eq m hm hb, h'.input_eq m hm hb, hgather]

/-- Solutions with the same outputs have the same inputs. -/
theorem IsSolution.input_eq_of_output_eq (hg : g.WellFormed) (h : a.IsSolution g f input output)
    (h' : a.IsSolution g f input' output') (hsame : ∀ n < g.nodeCount, output n = output' n)
    {n : NodeId} (hn : n < g.nodeCount) : input n = input' n := by
  by_cases hb : n = a.boundaryNode g
  · rw [hb, h.input_boundary, h'.input_boundary]
  · rw [h.input_eq n hn hb, h'.input_eq n hn hb]
    exact gather_congr fun m hm => hsame m (sources_lt hg hm)

end FlowAnalysis

namespace Constants

variable {p : Program} {g : FlowGraph} {order order' : WorklistOrder} {budget budget' : Nat}
  {r r' : FlowResult ConstFact}

/-- Two results hold the same facts exactly when they hold the same facts at the nodes. -/
theorem sameFacts_iff_forall (hg : g.WellFormed) (h : solve? p g order budget = some r)
    (h' : solve? p g order' budget' = some r') :
    r.sameFacts r' = true ↔ ∀ n < g.nodeCount,
      before p g order budget n = before p g order' budget' n ∧
        behind p g order budget n = behind p g order' budget' n := by
  obtain ⟨-, hin, hout⟩ := solution_of_solve? hg h
  obtain ⟨-, hin', hout'⟩ := solution_of_solve? hg h'
  rw [FlowResult.sameFacts_iff]
  refine ⟨fun hsame n hn => ?_, fun hsame n => ?_⟩
  · have hn' := hsame n
    rw [hin, hin', hout, hout'] at hn'
    simpa only [if_pos hn, Option.some.injEq] using hn'
  · rw [hin, hin', hout, hout']
    by_cases hn : n < g.nodeCount
    · simp only [if_pos hn, (hsame n hn).1, (hsame n hn).2, and_self]
    · simp only [if_neg hn, and_self]

/-- A run stays below a result in which no quotient is dropped on or before a loop. -/
theorem behind_le_of_result (hg : g.WellFormed) (h' : solve? p g order' budget' = some r')
    (hkeeps : ∀ n, g.BeforeLoop n → ¬ DropsQuotient p (g.stmt? n) ((r'.inFact? n).getD ∅))
    (k : Nat) {n : NodeId} (hn : g.BeforeLoop n) :
    behind p g order k n ≤ behind p g order' budget' n := by
  obtain ⟨hsolution, hin, -⟩ := solution_of_solve? hg h'
  refine FlowAnalysis.outputs_le_of_solution (computes p g) hg (isJoin p g)
    (fun _ hn _ hm => hn.predecessor hm) (fun n _ => applyAbove_mono p (g.stmt? n))
    (fun n f => applyNode_le_applyAbove (g.stmt? n) f) hsolution.output_boundary.ge
    (fun n hlt hn hb => ?_) k hn
  have hdrop := hkeeps n hn
  rw [hin, if_pos hlt, Option.getD_some] at hdrop
  have hvalue := hsolution.output_eq n hlt hb
  rw [applyNode_eq_applyAbove hdrop, hsolution.input_eq n hlt hb] at hvalue
  exact hvalue.ge

/-- Every method of an accepted program has a graph on which two results in whatever
orders hold the same facts exactly when they agree behind the nodes on loops. They do if
neither of them drops a quotient on or before a loop. -/
theorem sameFacts_iff_agree_on_loops (hp : p.Accepted) {m : MethodId} {method : Method}
    (hm : p.method? m = some method) :
    ∃ g, FlowGraph.ofProgram p m = .ok g ∧
      ∀ order order' budget budget' r r', solve? p g order budget = some r →
        solve? p g order' budget' = some r' →
        (r.sameFacts r' = true ↔ ∀ n, g.OnLoop n → r.outFact? n = r'.outFact? n) ∧
        ((∀ n, g.BeforeLoop n → ¬ DropsQuotient p (g.stmt? n) ((r.inFact? n).getD ∅) ∧
            ¬ DropsQuotient p (g.stmt? n) ((r'.inFact? n).getD ∅)) →
          r.sameFacts r' = true) := by
  obtain ⟨g, hof, hg, -⟩ := hp.wellFormed.exists_flowGraph hm
  refine ⟨g, hof, fun order order' budget budget' r r' h h' => ?_⟩
  obtain ⟨hsolution, -, hout⟩ := solution_of_solve? hg h
  obtain ⟨hsolution', -, hout'⟩ := solution_of_solve? hg h'
  have hsame : (∀ n, g.OnLoop n → behind p g order budget n = behind p g order' budget' n) →
      r.sameFacts r' = true := by
    intro hloop
    have hbehind : ∀ n < g.nodeCount, behind p g order budget n = behind p g order' budget' n :=
      fun n hn => hsolution.output_eq_of_loops hg rfl hsolution' hloop hn
    exact (sameFacts_iff_forall hg h h').2 fun n hn =>
      ⟨hsolution.input_eq_of_output_eq hg hsolution' hbehind hn, hbehind n hn⟩
  refine ⟨⟨fun hfacts n _ => (FlowResult.sameFacts_iff.1 hfacts n).2, fun hloop => ?_⟩,
    fun hkeeps => ?_⟩
  · refine hsame fun n hn => ?_
    have hlt := hn.lt_nodeCount hg
    have hn' := hloop n hn
    rwa [hout, hout', if_pos hlt, if_pos hlt, Option.some.injEq] at hn'
  · refine hsame fun n hn => ?_
    have hbefore := hn.beforeLoop
    exact (usual_of_run p hg order budget n).2.proper.antisymm (usual_of_run p hg order' budget' n).2.proper
      (behind_le_of_result hg h' (fun n hn => (hkeeps n hn).2) budget hbefore)
      (behind_le_of_result hg h (fun n hn => (hkeeps n hn).1) budget' hbefore)

/-! ## Two orders with different results -/

/-- A parameter `v0` is cast to `v2`, divided by the zero in `v1`, and a loop follows. -/
def partingCommands : List Command := [
  .addClass "C" none [], .addMethod 0 "void m()" true,
  .addParam 0 "p" .int, .addVar 0 "z" .int, .addVar 0 "a" .int, .addVar 0 "q" .int,
  .pushStmts 0 [
    .assign 1 (.intLiteral 0),
    .assign 2 (.cast .int 0),
    .assign 3 (.binary ⟨.div, 2, 1⟩),
    .branch ⟨.lt, 0, 0⟩ 3,
    .ret none]]

/-- The program of these declarations. -/
def parting : Program := (Program.ofCommands? partingCommands).get (by decide +kernel)

/-- The graph of its only method. -/
def partingGraph : FlowGraph where
  method := parting.methods.head (by decide +kernel)
  edges := [⟨0, 1, .entry⟩, ⟨1, 2, .fallThrough⟩, ⟨2, 3, .fallThrough⟩, ⟨3, 4, .fallThrough⟩,
    ⟨4, 4, .ifTrue⟩, ⟨4, 5, .ifFalse⟩, ⟨5, 6, .ret⟩]

theorem accepted_parting : parting.Accepted :=
  Program.accepted_of_ofCommands? (Option.some_get _).symm

theorem ofProgram_parting : FlowGraph.ofProgram parting 0 = .ok partingGraph := by
  rfl

/-- What is found about the program in an order. -/
def partingResult (order : WorklistOrder) : FlowResult ConstFact :=
  (solve? parting partingGraph order 20).get (by cases order <;> decide +kernel)

theorem solve?_parting (order : WorklistOrder) :
    solve? parting partingGraph order 20 = some (partingResult order) :=
  (Option.some_get _).symm

theorem sameFacts_partingResult :
    (partingResult .fifo).sameFacts (partingResult .lifo) = false := by
  decide +kernel

/-- On an accepted program both orders can end with different facts. -/
theorem not_sameFacts_parting :
    parting.Accepted ∧ FlowGraph.ofProgram parting 0 = .ok partingGraph ∧
      ∃ budget r r', solve? parting partingGraph .fifo budget = some r ∧
        solve? parting partingGraph .lifo budget = some r' ∧ r.sameFacts r' = false :=
  ⟨accepted_parting, ofProgram_parting, 20, partingResult .fifo, partingResult .lifo,
    solve?_parting .fifo, solve?_parting .lifo, sameFacts_partingResult⟩

/-- The two results disagree behind a node on the loop. -/
theorem parting_disagrees_on_loop :
    parting.Accepted ∧ parting.method? 0 = some partingGraph.method ∧
      ∃ n, partingGraph.OnLoop n ∧
        (partingResult .fifo).outFact? n ≠ (partingResult .lifo).outFact? n := by
  have hmethod : parting.method? 0 = some partingGraph.method :=
    (FlowGraph.wellFormed_of_ofProgram ofProgram_parting).2
  refine ⟨accepted_parting, hmethod, ?_⟩
  obtain ⟨g, hg, hsame⟩ := sameFacts_iff_agree_on_loops accepted_parting hmethod
  obtain rfl : partingGraph = g := Except.ok.inj (ofProgram_parting.symm.trans hg)
  have hiff := (hsame .fifo .lifo 20 20 _ _ (solve?_parting .fifo) (solve?_parting .lifo)).1
  by_contra hagree
  push Not at hagree
  have hfacts := hiff.2 hagree
  rw [sameFacts_partingResult] at hfacts
  cases hfacts

end Constants

end TacAnalysis
