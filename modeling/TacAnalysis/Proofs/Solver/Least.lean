import Mathlib.Order.OrderIsoNat
import TacAnalysis.Proofs.Solver.Order

/-!
# Least solutions

If the join is a least upper bound, the transfer is monotone and no sequence of facts rises
for ever, the facts of a run rise from turn to turn and so settle: the run ends. It ends in a
solution of the equations, and as facts stay below every solution all along, in the least one.
There is only one least solution, so it does not depend on the order in which nodes are taken.

Facts rise only finitely often in particular if all chains of facts are of bounded length.

Main statement: `exists_least_solution`.
-/

namespace TacAnalysis.FlowAnalysis

variable {F : Type} [PartialOrder F] {a : FlowAnalysis F} {g : FlowGraph} {f : NodeId → F → F}
  {order : WorklistOrder} {input output input' output' : NodeId → F}

/-- A solution that is below every other one. -/
structure IsLeastSolution (a : FlowAnalysis F) (g : FlowGraph) (f : NodeId → F → F)
    (input output : NodeId → F) : Prop extends a.IsSolution g f input output where
  /-- What flows into a node is below what every solution has there. -/
  input_le : ∀ {input' output' : NodeId → F}, a.IsSolution g f input' output' →
    ∀ n < g.nodeCount, input n ≤ input' n
  /-- What leaves a node is below what every solution has there. -/
  output_le : ∀ {input' output' : NodeId → F}, a.IsSolution g f input' output' →
    ∀ n < g.nodeCount, output n ≤ output' n

/-- At the nodes there is only one least solution. -/
theorem IsLeastSolution.unique (h : a.IsLeastSolution g f input output)
    (h' : a.IsLeastSolution g f input' output') {n : NodeId} (hn : n < g.nodeCount) :
    input n = input' n ∧ output n = output' n :=
  ⟨le_antisymm (h.input_le h'.toIsSolution n hn) (h'.input_le h.toIsSolution n hn),
    le_antisymm (h.output_le h'.toIsSolution n hn) (h'.output_le h.toIsSolution n hn)⟩

/-- A sequence that never falls settles, if facts cannot rise for ever. -/
theorem settles_of_monotone [WellFoundedGT F] {x : Nat → F} (h : ∀ k, x k ≤ x (k + 1)) :
    Settles x := by
  obtain ⟨N, hN⟩ := WellFoundedGT.monotone_chain_condition ⟨x, monotone_nat_of_le_succ h⟩
  exact ⟨N, fun k hk => (hN k hk).symm⟩

/-- With a monotone transfer a run ends. -/
theorem exists_run?_of_monotone [WellFoundedGT F] (hg : g.WellFormed) (hj : a.IsJoin)
    (hf : a.Computes f) (hmono : ∀ n, Monotone (f n)) (order : WorklistOrder) :
    ∃ budget s, a.run? g order budget = some s := by
  have hinside : ∀ n, n < g.nodeCount → ∀ m ∈ a.sources g n, m < g.nodeCount :=
    fun _ _ _ hm => sources_lt hg hm
  refine (exists_run?_iff_settles hf hg).2 fun n hn => settles_of_monotone fun k => ?_
  exact outputs_le_succ hf hg hj hinside (fun n _ => hmono n) (fun _ _ _ => rfl) k hn

/-- With a monotone transfer a run stays below every solution. -/
theorem outputs_le_of_isSolution (hg : g.WellFormed) (hj : a.IsJoin) (hf : a.Computes f)
    (hmono : ∀ n, Monotone (f n)) (h : a.IsSolution g f input output) (k : Nat) (n : NodeId)
    (hn : n < g.nodeCount) : a.outputs (a.stateAt g order k) n ≤ output n := by
  have hinside : ∀ n, n < g.nodeCount → ∀ m ∈ a.sources g n, m < g.nodeCount :=
    fun _ _ _ hm => sources_lt hg hm
  refine outputs_le_of_solution hf hg hj hinside (fun n _ => hmono n) (fun _ _ => le_rfl)
    h.output_boundary.ge (fun m hm _ hb => ?_) k hn
  rw [← h.input_eq m hm hb, ← h.output_eq m hm hb]

/-- With a monotone transfer a run ends in the least solution. -/
theorem isLeastSolution_of_run? (hg : g.WellFormed) (hj : a.IsJoin) (hf : a.Computes f)
    (hmono : ∀ n, Monotone (f n)) {budget : Nat} {s : SolverState F}
    (h : a.run? g order budget = some s) : a.IsLeastSolution g f (a.inputs s) (a.outputs s) := by
  have hsolution := isSolution_of_run? hf hg h
  obtain ⟨rfl, -⟩ := run?_eq_some_iff.1 h
  have houtput : ∀ {input' output' : NodeId → F}, a.IsSolution g f input' output' →
      ∀ n < g.nodeCount, a.outputs (a.stateAt g order budget) n ≤ output' n :=
    fun h' n hn => outputs_le_of_isSolution hg hj hf hmono h' budget n hn
  refine ⟨hsolution, fun {input' output'} h' n hn => ?_, houtput⟩
  by_cases hb : n = a.boundaryNode g
  · rw [hb, hsolution.input_boundary, h'.input_boundary]
  · rw [hsolution.input_eq n hn hb, h'.input_eq n hn hb]
    exact hj.gather_mono fun m hm => houtput h' m (sources_lt hg hm)

/-- On every graph of a method, in either direction and either order, the solver ends with
the least solution of a monotone analysis. So its results agree in both orders. -/
theorem exists_least_solution [WellFoundedGT F] {m : Method} (hg : FlowGraph.ofMethod m = .ok g)
    (hj : a.IsJoin) (hf : a.Computes f) (hmono : ∀ n, Monotone (f n)) :
    ∃ input output, a.IsLeastSolution g f input output ∧
      (∀ order, ∃ budget r, a.solve? g order budget = some r) ∧
      (∀ order budget r, a.solve? g order budget = some r → ∀ n,
        a.entering? r n = (if n < g.nodeCount then some (input n) else none) ∧
        a.leaving? r n = (if n < g.nodeCount then some (output n) else none)) ∧
      ∀ order order' budget budget' r r', a.solve? g order budget = some r →
        a.solve? g order' budget' = some r' →
        r.inFacts = r'.inFacts ∧ r.outFacts = r'.outFacts := by
  have hwf := FlowGraph.wellFormed_of_ofMethod hg
  obtain ⟨budget, s, hs⟩ := exists_run?_of_monotone hwf hj hf hmono .fifo
  have hleast := isLeastSolution_of_run? hwf hj hf hmono hs
  have hfacts : ∀ order budget r, a.solve? g order budget = some r → ∀ n,
      a.entering? r n = (if n < g.nodeCount then some (a.inputs s n) else none) ∧
      a.leaving? r n = (if n < g.nodeCount then some (a.outputs s n) else none) := by
    intro order budget r hr n
    obtain ⟨t, ht, hin, hout⟩ := facts_of_solve? hf hwf hr
    rw [hin, hout]
    by_cases hn : n < g.nodeCount
    · obtain ⟨hinput, houtput⟩ := (isLeastSolution_of_run? hwf hj hf hmono ht).unique hleast hn
      simp only [if_pos hn, hinput, houtput, and_self]
    · simp only [if_neg hn, and_self]
  refine ⟨a.inputs s, a.outputs s, hleast, fun order => ?_, hfacts, ?_⟩
  · obtain ⟨budget, t, ht⟩ := exists_run?_of_monotone hwf hj hf hmono order
    obtain ⟨r, hr⟩ := exists_solve?_iff.2 ⟨t, ht⟩
    exact ⟨budget, r, hr⟩
  · intro order order' budget budget' r r' hr hr'
    have hentering : ∀ n, a.entering? r n = a.entering? r' n := fun n =>
      (hfacts order budget r hr n).1.trans (hfacts order' budget' r' hr' n).1.symm
    have hleaving : ∀ n, a.leaving? r n = a.leaving? r' n := fun n =>
      (hfacts order budget r hr n).2.trans (hfacts order' budget' r' hr' n).2.symm
    unfold entering? at hentering
    unfold leaving? at hleaving
    cases hd : a.direction with
    | forward =>
      simp only [hd] at hentering hleaving
      exact ⟨IdMap.ext hentering, IdMap.ext hleaving⟩
    | backward =>
      simp only [hd] at hentering hleaving
      exact ⟨IdMap.ext hleaving, IdMap.ext hentering⟩

/-! ## Counting statements -/

/-- Nothing has been counted. -/
def noCount : Fin 11 := 0

/-- One more, up to ten. -/
def oneMore (count : Fin 11) : Fin 11 := ⟨min (count + 1) 10, by omega⟩

theorem oneMore_mono : ∀ {x y : Fin 11}, x ≤ y → oneMore x ≤ oneMore y := by
  decide

/-- A node with a statement adds one to the count. -/
def countNode (g : FlowGraph) (n : NodeId) (count : Fin 11) : Fin 11 :=
  if (g.stmt? n).isSome then oneMore count else count

/-- The longest way to a node, in statements and up to ten. -/
def longestWay (g : FlowGraph) : FlowAnalysis (Fin 11) where
  direction := .forward
  boundary := noCount
  initial := noCount
  meet := max
  transfer n input output := (decide (countNode g n input ≠ output), countNode g n input)

theorem isJoin_longestWay (g : FlowGraph) : (longestWay g).IsJoin where
  initial_le := Fin.zero_le
  meet_le_iff _ _ _ := max_le_iff

theorem computes_longestWay (g : FlowGraph) : (longestWay g).Computes (countNode g) where
  output_eq _ _ _ := rfl
  changed_iff _ _ _ := decide_eq_true_iff

theorem countNode_mono (g : FlowGraph) (n : NodeId) : Monotone (countNode g n) := by
  intro x y hxy
  unfold countNode
  split
  · exact oneMore_mono hxy
  · exact hxy

/-- A method that may go back to its first statement. -/
def loopMethod : Method where
  id := 0
  name := "m"
  owner := 0
  subsignature := "void m(int)"
  isStatic := true
  isAbstract := false
  params := [0]
  thisVar := none
  stmts := [.nop, .branch ⟨.lt, 0, 0⟩ 0, .ret none]
  returnVars := []

/-- The graph of the method. -/
def loopGraph : FlowGraph where
  method := loopMethod
  edges := [⟨0, 1, .entry⟩, ⟨1, 2, .fallThrough⟩, ⟨2, 1, .ifTrue⟩, ⟨2, 3, .ifFalse⟩, ⟨3, 4, .ret⟩]

theorem ofMethod_loop : FlowGraph.ofMethod loopMethod = .ok loopGraph := by
  rfl

/-- Going round the loop again and again, the count reaches ten in either order, and no
solution has less at the exit. -/
theorem longestWay_loop :
    FlowGraph.ofMethod loopMethod = .ok loopGraph ∧ (longestWay loopGraph).IsJoin ∧
      (longestWay loopGraph).Computes (countNode loopGraph) ∧
      (∀ n, Monotone (countNode loopGraph n)) ∧
      (∀ order, ((longestWay loopGraph).solve? loopGraph order 60).map
        (·.outFact? loopGraph.exit) = some (some 10)) ∧
      ∀ input output,
        (longestWay loopGraph).IsSolution loopGraph (countNode loopGraph) input output →
        10 ≤ output loopGraph.exit := by
  have hten : ∀ order, ((longestWay loopGraph).solve? loopGraph order 60).map
      (·.outFact? loopGraph.exit) = some (some 10) := by
    intro order
    cases order <;> decide +kernel
  refine ⟨ofMethod_loop, isJoin_longestWay _, computes_longestWay _, countNode_mono _, hten,
    fun input' output' hsolution => ?_⟩
  obtain ⟨input, output, hleast, -, hfacts, -⟩ := exists_least_solution ofMethod_loop
    (isJoin_longestWay _) (computes_longestWay _) (countNode_mono _)
  obtain ⟨r, hr, hexit⟩ := Option.map_eq_some_iff.1 (hten .fifo)
  have hlt : loopGraph.exit < loopGraph.nodeCount := by decide
  have hleaving := (hfacts .fifo 60 r hr loopGraph.exit).2
  rw [if_pos hlt] at hleaving
  have houtput : output loopGraph.exit = 10 := Option.some.inj (hleaving.symm.trans hexit)
  exact houtput ▸ hleast.output_le hsolution _ hlt

end TacAnalysis.FlowAnalysis
