import TacAnalysis.Proofs.Solver.Least

/-!
# Where a run ends, the equations hold

Nothing is assumed here of the order of facts, of the join or of the transfer, and a run need
not end. But a node leaves the worklist only in its own turn, which makes its equations hold, and
they can fail again only by a change of a source, which puts the node back. So when no node is
left in the worklist all equations hold exactly, with the facts of the sources joined in the
order of the edges.

Main statement: `equations_of_solve?`.
-/

namespace TacAnalysis.FlowAnalysis

variable {F : Type} {a : FlowAnalysis F} {g : FlowGraph} {f : NodeId → F → F}

/-- The join of facts, one after the other, into the initial fact. -/
def joinAll (a : FlowAnalysis F) (facts : List F) : F :=
  facts.foldl (fun target fact => a.meet fact target) a.initial

/-- What flows into a node is the join of what leaves its sources. -/
theorem gather_eq_joinAll (x : NodeId → F) (n : NodeId) :
    a.gather g x n = a.joinAll ((a.sources g n).map x) := by
  rw [gather, joinAll, List.foldl_map]

/-- A result has a fact for every source of a node. -/
theorem mapM_leaving?_sources (hg : g.WellFormed) {r : FlowResult F} {output : NodeId → F}
    (hout : ∀ n, a.leaving? r n = if n < g.nodeCount then some (output n) else none) (n : NodeId) :
    (a.sources g n).mapM (a.leaving? r) = some ((a.sources g n).map output) :=
  mapM_eq_some_map fun m hm => by rw [hout, if_pos (sources_lt hg hm)]

/-- On every graph of a method, in either direction and either order: if the solver returns, the
boundary node holds the boundary fact on both sides, and at every other node the join of what
leaves its sources, in the order of the edges, flows in, and the transfer of that leaves. -/
theorem equations_of_solve? {m : Method} (hg : FlowGraph.ofMethod m = .ok g) (hf : a.Computes f)
    {order : WorklistOrder} {budget : Nat} {r : FlowResult F}
    (h : a.solve? g order budget = some r) :
    a.entering? r (a.boundaryNode g) = some a.boundary ∧
      a.leaving? r (a.boundaryNode g) = some a.boundary ∧
      (∀ n < g.nodeCount, n ≠ a.boundaryNode g →
        ∃ facts, (a.sources g n).mapM (a.leaving? r) = some facts ∧
          a.entering? r n = some (a.joinAll facts) ∧
          a.leaving? r n = some (f n (a.joinAll facts))) ∧
      ∀ n, g.nodeCount ≤ n → a.entering? r n = none ∧ a.leaving? r n = none := by
  have hwf := FlowGraph.wellFormed_of_ofMethod hg
  obtain ⟨s, hs, hin, hout⟩ := facts_of_solve? hf hwf h
  have hsolution := isSolution_of_run? hf hwf hs
  refine ⟨?_, ?_, fun n hn hb => ?_, fun n hn => ?_⟩
  · rw [hin, if_pos boundary_lt, hsolution.input_boundary]
  · rw [hout, if_pos boundary_lt, hsolution.output_boundary]
  · refine ⟨_, mapM_leaving?_sources hwf hout n, ?_, ?_⟩
    · rw [hin, if_pos hn, hsolution.input_eq n hn hb, gather_eq_joinAll]
    · rw [hout, if_pos hn, hsolution.output_eq n hn hb, hsolution.input_eq n hn hb,
        gather_eq_joinAll]
  · have hnone := Nat.not_lt.2 hn
    exact ⟨by rw [hin, if_neg hnone], by rw [hout, if_neg hnone]⟩

/-! ## An analysis that no order makes monotone -/

/-- What is missing to ten. -/
def missing (_ : NodeId) (count : Nat) : Nat := 10 - count

/-- Facts are weighted by their place in the join, and more becomes less at every node. -/
def seesaw (direction : Direction) : FlowAnalysis Nat where
  direction := direction
  boundary := 5
  initial := 0
  meet fact target := 2 * target + fact
  transfer n input output := (decide (missing n input ≠ output), missing n input)

theorem computes_seesaw (direction : Direction) : (seesaw direction).Computes missing where
  output_eq _ _ _ := rfl
  changed_iff _ _ _ := decide_eq_true_iff

/-- The node of the loop where two edges meet. -/
def meetingNode : Direction → NodeId
  | .forward => 1
  | .backward => 2

/-- What its two sources contribute, in the order of their edges. -/
def meetingFacts : Direction → List Nat
  | .forward => [5, 10]
  | .backward => [10, 5]

/-- The loop settles in both directions and both orders, and where two edges meet the first one
counts twice. -/
theorem seesaw_loop :
    FlowGraph.ofMethod loopMethod = .ok loopGraph ∧
      (∀ direction, (seesaw direction).Computes missing) ∧
      ∀ direction order, ∃ r, (seesaw direction).solve? loopGraph order 30 = some r ∧
        ((seesaw direction).sources loopGraph (meetingNode direction)).mapM
          ((seesaw direction).leaving? r) = some (meetingFacts direction) ∧
        (seesaw direction).entering? r (meetingNode direction) =
          some ((seesaw direction).joinAll (meetingFacts direction)) ∧
        (seesaw direction).leaving? r (meetingNode direction) = some 0 := by
  refine ⟨ofMethod_loop, computes_seesaw, fun direction order => ?_⟩
  have hends : ((seesaw direction).solve? loopGraph order 30).map (fun r =>
      ((seesaw direction).sources loopGraph (meetingNode direction)).mapM
        ((seesaw direction).leaving? r)) = some (some (meetingFacts direction)) := by
    cases direction <;> cases order <;> decide +kernel
  obtain ⟨r, hr, hfacts⟩ := Option.map_eq_some_iff.1 hends
  have hnode : meetingNode direction < loopGraph.nodeCount ∧
      meetingNode direction ≠ (seesaw direction).boundaryNode loopGraph := by
    cases direction <;> decide
  have hzero : missing (meetingNode direction)
      ((seesaw direction).joinAll (meetingFacts direction)) = 0 := by
    cases direction <;> rfl
  obtain ⟨-, -, hequations, -⟩ := equations_of_solve? ofMethod_loop (computes_seesaw direction) hr
  obtain ⟨facts, hjoined, hin, hout⟩ := hequations _ hnode.1 hnode.2
  obtain rfl : facts = meetingFacts direction := Option.some.inj (hjoined.symm.trans hfacts)
  exact ⟨r, hr, hfacts, hin, hzero ▸ hout⟩

end TacAnalysis.FlowAnalysis
