import TacAnalysis.Proofs.Constants.Program

/-!
# Constant propagation over a whole program under different schedules

What has flowed into a node stays there, so a run never comes back below a fact that it has met
on the way. Where no quotient is dropped at the end, none of the facts met on the way was higher
than the last one: behind such a node a run keeps nothing that another result does not have. A
dropped quotient may have been passed on before its divisor was found to be zero, depending on
which node had its turn first. So two results agree as soon as they agree behind the nodes that
drop a quotient in one of them.

Main statements: `sameFacts_iff_agree_behind_drops` and `not_sameFacts_transient`.
-/

namespace TacAnalysis.Constants

variable {p : Program} {g : SuperGraph} {calls : CallGraph} {entry : Nat}
  {order order' : WorklistOrder} {budget budget' : Nat} {r r' : FlowResult ConstFact}
  {s s' : SolverState ConstFact}

/-- In the result the node divides a value that is not constant by a known zero. -/
def DropsAt (p : Program) (g : SuperGraph) (r : FlowResult ConstFact) (n : Nat) : Prop :=
  DropsQuotient p (g.stmt? n) ((r.inFact? n).getD ∅)

/-- Solving over a call graph is building the graph of the whole program and solving there. -/
theorem solveProgram?_eq_ok_iff : solveProgram? p calls order budget = .ok (g, some r) ↔
    SuperGraph.build p calls = .ok g ∧ (superAnalysis p g).solve? g order budget = some r := by
  unfold solveProgram?
  rw [bind_eq_ok_iff]
  constructor
  · rintro ⟨h, hbuild, hresult⟩
    obtain ⟨rfl, hsolve⟩ := Prod.mk.inj (Except.ok.inj hresult)
    exact ⟨hbuild, hsolve⟩
  · rintro ⟨hbuild, hsolve⟩
    exact ⟨g, hbuild, by rw [hsolve]; rfl⟩

/-- What holds before the nodes when the solver is done. -/
abbrev lastInputs (p : Program) (g : SuperGraph) (s : SolverState ConstFact) (n : Nat) : ConstFact :=
  s.inputs (superAnalysis p g).initial n

/-- A run has kept nothing that another result does not have, if it has not behind the nodes that
drop a quotient in the other result. -/
theorem inputs_le_of_run? (hg : g.WellFormed) (hentry : SuperAnalysis.entryNode? g = some entry)
    (hrun : (superAnalysis p g).run? g entry order budget = some s)
    (hrun' : (superAnalysis p g).run? g entry order' budget' = some s')
    (hdrops : ∀ e ∈ g.edges, DropsQuotient p (g.stmt? e.source) (lastInputs p g s' e.source) →
      lastInputs p g s e.target ≤ lastInputs p g s' e.target) {n : Nat} (hn : n < g.nodeCount) :
    lastInputs p g s n ≤ lastInputs p g s' n := by
  have hlt := SuperAnalysis.entryNode?_lt hentry
  have hsolution := SuperAnalysis.isSolution_of_run? hg (isJoin_superAnalysis p g)
    (computes_superAnalysis p g) hlt hrun'
  refine SuperAnalysis.inputs_le_of_isSolution hg (isJoin_superAnalysis p g)
    (computes_superAnalysis p g) hlt superApply_le_superAbove (superAbove_mono p g)
    (superAbove_entryNode hentry _).ge hrun (fun e _ => along_mono p g e) hsolution
    (fun e he => ?_) hn
  by_cases hdrop : DropsQuotient p (g.stmt? e.source) (lastInputs p g s' e.source)
  · exact .inr (hdrops e he hdrop)
  · exact .inl (superApply_eq_superAbove hdrop)

/-- Results with the same facts before the nodes have the same facts behind them. -/
theorem sameFacts_of_inFact?_eq (hg : g.WellFormed) (hentry : SuperAnalysis.entryNode? g = some entry)
    (hr : (superAnalysis p g).solve? g order budget = some r)
    (hr' : (superAnalysis p g).solve? g order' budget' = some r')
    (hin : ∀ n, r.inFact? n = r'.inFact? n) : r.sameFacts r' = true := by
  have hj := isJoin_superAnalysis p g
  have hf := computes_superAnalysis p g
  have hlt := SuperAnalysis.entryNode?_lt hentry
  obtain ⟨s, hrun, hinput, houtput⟩ := SuperAnalysis.facts_of_solve? hg hj hf hentry hr
  obtain ⟨s', hrun', hinput', houtput'⟩ := SuperAnalysis.facts_of_solve? hg hj hf hentry hr'
  refine FlowResult.sameFacts_iff.2 fun n => ⟨hin n, ?_⟩
  rw [houtput, houtput']
  by_cases hn : n < g.nodeCount
  · have hsame := (FlowResult.HoldsBefore.inFact?_eq_iff hinput hinput' hn).1 (hin n)
    have hvalue := (SuperAnalysis.isSolution_of_run? hg hj hf hlt hrun).output_eq n hn
    have hvalue' := (SuperAnalysis.isSolution_of_run? hg hj hf hlt hrun').output_eq n hn
    rw [if_pos hn, if_pos hn, hvalue, hvalue', hsame]
  · rw [if_neg hn, if_neg hn]

/-- Two results that agree behind the nodes that drop a quotient in one of them agree before all
nodes. -/
theorem inFact?_eq_of_agree (hg : g.WellFormed) (hentry : SuperAnalysis.entryNode? g = some entry)
    (hr : (superAnalysis p g).solve? g order budget = some r)
    (hr' : (superAnalysis p g).solve? g order' budget' = some r')
    (hagree : ∀ e ∈ g.edges, DropsAt p g r e.source ∨ DropsAt p g r' e.source →
      r.inFact? e.target = r'.inFact? e.target) (n : Nat) : r.inFact? n = r'.inFact? n := by
  have hj := isJoin_superAnalysis p g
  have hf := computes_superAnalysis p g
  have hlt := SuperAnalysis.entryNode?_lt hentry
  obtain ⟨s, hrun, hinput, -⟩ := SuperAnalysis.facts_of_solve? hg hj hf hentry hr
  obtain ⟨s', hrun', hinput', -⟩ := SuperAnalysis.facts_of_solve? hg hj hf hentry hr'
  have hholds : r.HoldsBefore g.nodeCount (lastInputs p g s) := hinput
  have hholds' : r'.HoldsBefore g.nodeCount (lastInputs p g s') := hinput'
  have htargets : ∀ e ∈ g.edges, DropsQuotient p (g.stmt? e.source) (lastInputs p g s e.source) ∨
      DropsQuotient p (g.stmt? e.source) (lastInputs p g s' e.source) →
      lastInputs p g s e.target = lastInputs p g s' e.target := by
    intro e he hdrops
    rw [← hholds.getD_inFact? (hg.source_lt e he) ∅,
      ← hholds'.getD_inFact? (hg.source_lt e he) ∅] at hdrops
    exact (hholds.inFact?_eq_iff hholds' (hg.target_lt e he)).1 (hagree e he hdrops)
  refine (hholds.forall_inFact?_eq_iff hholds').2 (fun n hn => ?_) n
  have hall := (keeps_tracked p g entry).allHold_of_run? hg hj hf hlt hrun n
  have hall' := (keeps_tracked p g entry).allHold_of_run? hg hj hf hlt hrun' n
  have hle : lastInputs p g s n ≤ lastInputs p g s' n := inputs_le_of_run? hg hentry hrun hrun'
    (fun e he hdrop => htargets e he (.inr hdrop) ▸ le_rfl) hn
  have hge : lastInputs p g s' n ≤ lastInputs p g s n := inputs_le_of_run? hg hentry hrun' hrun
    (fun e he hdrop => htargets e he (.inl hdrop) ▸ le_rfl) hn
  exact hall.1.proper.antisymm hall'.1.proper hle hge

/-- Without an entry nothing is computed. -/
theorem solve?_of_no_entry {F : Type} {a : SuperAnalysis F} (hentry : SuperAnalysis.entryNode? g = none) :
    a.solve? g order budget = some .empty := by
  rw [SuperAnalysis.solve?, hentry]

/-- Over every call graph that is built for an accepted program, constant propagation ends in
either order, and two results in whatever orders hold the same facts exactly when they agree on
what flows into the targets of edges that leave a node which drops a quotient in one of them. They
do if no node does. -/
theorem sameFacts_iff_agree_behind_drops (hp : p.Accepted) (hcalls : calls.BuiltFor p) :
    ∃ g, SuperGraph.build p calls = .ok g ∧
      (∀ order, ∃ budget r, solveProgram? p calls order budget = .ok (g, some r)) ∧
      ∀ order order' budget budget' r r', solveProgram? p calls order budget = .ok (g, some r) →
        solveProgram? p calls order' budget' = .ok (g, some r') →
        (r.sameFacts r' = true ↔ ∀ e ∈ g.edges, DropsAt p g r e.source ∨ DropsAt p g r' e.source →
          r.inFact? e.target = r'.inFact? e.target) ∧
        ((∀ n, ¬ DropsAt p g r n ∧ ¬ DropsAt p g r' n) → r.sameFacts r' = true) := by
  have hgrounded := hcalls.grounded hp.wellFormed
  obtain ⟨g, hbuild⟩ := SuperGraph.exists_build hp.wellFormed fun m hm => hgrounded.lt hp.wellFormed hm
  have hg := SuperGraph.wellFormed_of_build hbuild
  have hends : ∀ order, ∃ budget r, (superAnalysis p g).solve? g order budget = some r := by
    intro order
    cases hentry : SuperAnalysis.entryNode? g with
    | none => exact ⟨0, _, solve?_of_no_entry hentry⟩
    | some entry =>
      obtain ⟨budget, s, hs⟩ := exists_run?_superAnalysis p hg (SuperAnalysis.entryNode?_lt hentry) order
      exact ⟨budget, _, by rw [SuperAnalysis.solve?_eq_map hentry, hs, Option.map_some]⟩
  have hsame : ∀ {order order' budget budget' r r'}, (superAnalysis p g).solve? g order budget = some r →
      (superAnalysis p g).solve? g order' budget' = some r' →
      (∀ e ∈ g.edges, DropsAt p g r e.source ∨ DropsAt p g r' e.source →
        r.inFact? e.target = r'.inFact? e.target) → r.sameFacts r' = true := by
    intro order order' budget budget' r r' hr hr' hagree
    cases hentry : SuperAnalysis.entryNode? g with
    | none =>
      rw [solve?_of_no_entry hentry] at hr hr'
      obtain rfl := Option.some.inj hr
      obtain rfl := Option.some.inj hr'
      exact FlowResult.sameFacts_iff.2 fun n => ⟨rfl, rfl⟩
    | some entry =>
      exact sameFacts_of_inFact?_eq hg hentry hr hr' (inFact?_eq_of_agree hg hentry hr hr' hagree)
  refine ⟨g, hbuild, fun order => ?_, fun order order' budget budget' r r' hr hr' => ?_⟩
  · obtain ⟨budget, r, hr⟩ := hends order
    exact ⟨budget, r, solveProgram?_eq_ok_iff.2 ⟨hbuild, hr⟩⟩
  · have hr := (solveProgram?_eq_ok_iff.1 hr).2
    have hr' := (solveProgram?_eq_ok_iff.1 hr').2
    refine ⟨⟨fun hfacts e _ _ => (FlowResult.sameFacts_iff.1 hfacts e.target).1, hsame hr hr'⟩,
      fun hkeeps => hsame hr hr' fun e _ hdrops => ?_⟩
    rcases hdrops with hdrop | hdrop
    · exact absurd hdrop (hkeeps e.source).1
    · exact absurd hdrop (hkeeps e.source).2

/-! ## A quotient that is kept in one order only -/

/-- The entry method divides its parameter, cast to `v2`, by the zero in `v1`. -/
def transientCommands : List Command := [
  .addClass "C" none [], .addMethod 0 "void main(int)" true,
  .addParam 0 "p" .int, .addVar 0 "z" .int, .addVar 0 "a" .int, .addVar 0 "q" .int,
  .pushStmts 0 [
    .assign 1 (.intLiteral 0),
    .assign 2 (.cast .int 0),
    .assign 3 (.binary ⟨.div, 2, 1⟩),
    .ret none],
  .setEntry 0]

/-- The program of these declarations. -/
def transient : Program := (Program.ofCommands? transientCommands).get (by decide +kernel)

theorem accepted_transient : transient.Accepted :=
  Program.accepted_of_ofCommands? (Option.some_get _).symm

/-- The graph of its only method. -/
def transientGraph : FlowGraph where
  method := transient.methods.head (by decide +kernel)
  edges := [⟨0, 1, .entry⟩, ⟨1, 2, .fallThrough⟩, ⟨2, 3, .fallThrough⟩, ⟨3, 4, .fallThrough⟩,
    ⟨4, 5, .ret⟩]

/-- The graph of the whole program: nothing is called. -/
def transientSuperGraph : SuperGraph where
  program := transient
  graphs := [transientGraph]
  edges := [⟨0, 1, .normal .entry⟩, ⟨1, 2, .normal .fallThrough⟩, ⟨2, 3, .normal .fallThrough⟩,
    ⟨3, 4, .normal .fallThrough⟩, ⟨4, 5, .normal .ret⟩]

theorem build_transient :
    SuperGraph.build transient (CallGraph.ofHierarchy transient) = .ok transientSuperGraph := by
  rfl

/-- What is found about the whole program in an order. -/
def transientResult (order : WorklistOrder) : FlowResult ConstFact :=
  ((superAnalysis transient transientSuperGraph).solve? transientSuperGraph order 20).get
    (by cases order <;> decide +kernel)

theorem solveProgram?_transient (order : WorklistOrder) :
    solveProgram? transient (CallGraph.ofHierarchy transient) order 20 =
      .ok (transientSuperGraph, some (transientResult order)) :=
  solveProgram?_eq_ok_iff.2 ⟨build_transient, (Option.some_get _).symm⟩

theorem sameFacts_transientResult :
    (transientResult .fifo).sameFacts (transientResult .lifo) = false := by
  decide +kernel

/-- Over a call graph that is built for an accepted program both orders can end with different
facts. -/
theorem not_sameFacts_transient :
    transient.Accepted ∧ (CallGraph.ofHierarchy transient).BuiltFor transient ∧ ∃ g budget r r',
      solveProgram? transient (CallGraph.ofHierarchy transient) .fifo budget = .ok (g, some r) ∧
        solveProgram? transient (CallGraph.ofHierarchy transient) .lifo budget = .ok (g, some r') ∧
        r.sameFacts r' = false :=
  ⟨accepted_transient, .byHierarchy, transientSuperGraph, 20, _, _, solveProgram?_transient .fifo,
    solveProgram?_transient .lifo, sameFacts_transientResult⟩

/-- The two results disagree behind a node that drops a quotient. -/
theorem transient_disagrees_behind_drop :
    transient.Accepted ∧ (CallGraph.ofHierarchy transient).BuiltFor transient ∧
      ∃ e ∈ transientSuperGraph.edges,
        (DropsAt transient transientSuperGraph (transientResult .fifo) e.source ∨
          DropsAt transient transientSuperGraph (transientResult .lifo) e.source) ∧
        (transientResult .fifo).inFact? e.target ≠ (transientResult .lifo).inFact? e.target := by
  obtain ⟨g, hbuild, -, hsame⟩ := sameFacts_iff_agree_behind_drops accepted_transient .byHierarchy
  obtain rfl : transientSuperGraph = g := Except.ok.inj (build_transient.symm.trans hbuild)
  have hiff := (hsame .fifo .lifo 20 20 _ _ (solveProgram?_transient .fifo)
    (solveProgram?_transient .lifo)).1
  refine ⟨accepted_transient, .byHierarchy, ?_⟩
  by_contra hagree
  push Not at hagree
  have hfacts := hiff.2 hagree
  rw [sameFacts_transientResult] at hfacts
  cases hfacts

end TacAnalysis.Constants
