import TacAnalysis.Proofs.Liveness
import TacAnalysis.Proofs.Program.Accepted

/-!
# Liveness is what paths say

A variable is live where control may come to a node that reads it without leaving, on the way, a
node that writes it. The solver knows nothing of paths. It adds a variable before a node only if the
node reads it or passes it on from behind, so whatever a run ever holds has a path, however far the
run has come. In the other direction the equations at the end of a run carry a read back along its
path, one edge at a time, through loops as well as through nodes that control never comes to.

Main statement: `facts_iff_readAhead`.
-/

namespace TacAnalysis

open Relation

namespace FlowGraph

variable (g : FlowGraph)

/-- The statement at the node reads the variable. -/
def Reads (v : VarId) (n : NodeId) : Prop := ∃ stmt, g.stmt? n = some stmt ∧ v ∈ stmt.uses

/-- The statement at the node writes the variable. -/
def Writes (v : VarId) (n : NodeId) : Prop :=
  ∃ stmt, g.stmt? n = some stmt ∧ stmt.assigned? = some v

/-- Control may go from one node to the other, and the one that it leaves does not write the
variable. -/
def Carries (v : VarId) (n next : NodeId) : Prop := next ∈ g.successors n ∧ ¬ g.Writes v n

/-- Some path leads to a node that reads the variable, and no node before it writes the
variable. The node that reads may write the variable as well, as it reads first. -/
def ReadAhead (v : VarId) (n : NodeId) : Prop :=
  ∃ reader, ReflTransGen (g.Carries v) n reader ∧ g.Reads v reader

variable {g} {v : VarId} {n next : NodeId}

theorem ReadAhead.of_reads (h : g.Reads v n) : g.ReadAhead v n := ⟨n, .refl, h⟩

theorem ReadAhead.of_carries (hstep : g.Carries v n next) (h : g.ReadAhead v next) :
    g.ReadAhead v n := by
  obtain ⟨reader, hpath, hreads⟩ := h
  exact ⟨reader, .head hstep hpath, hreads⟩

/-- A node writes what its statement assigns. -/
theorem writes_iff : g.Writes v n ↔ (g.stmt? n).bind Stmt.assigned? = some v :=
  Option.bind_eq_some_iff.symm

end FlowGraph

namespace Liveness

open FlowGraph

variable {p : Program} {g : FlowGraph} {order : WorklistOrder} {budget : Nat}
  {r : FlowResult IdSet} {n : NodeId} {v : VarId}

/-! ## What a run holds has a path -/

/-- Before its first turn a run holds no variable live. -/
theorem before_zero (hg : g.WellFormed) (n : NodeId) : before g order 0 n = ∅ := by
  by_cases hexit : n = (analysis g).boundaryNode g
  · rw [hexit]
    exact (FlowAnalysis.consistent_stateAt (computes g) hg order 0).output_boundary
  · apply le_antisymm
    · exact (isJoin g).outputs_start_le hexit ∅
    · exact SortedSet.empty_le _

/-- Whatever is live after any number of turns is read ahead. -/
theorem readAhead_of_mem_before (hg : g.WellFormed) (k : Nat) (hv : v ∈ before g order k n) :
    g.ReadAhead v n := by
  induction k generalizing n with
  | zero =>
    rw [before_zero hg] at hv
    exact absurd hv (SortedSet.not_mem_empty v)
  | succ k ih =>
    rcases FlowAnalysis.outputs_succ_eq_or (computes g) hg order k n with hsame | hturn
    · apply ih
      rw [before, ← hsame]
      exact hv
    · rw [before, hturn.output_eq, mem_applyNode, mem_gather] at hv
      rcases hv with hread | ⟨⟨e, he, rfl, hnext⟩, hkept⟩
      · exact .of_reads hread
      · have hsuccessor : e.target ∈ g.successors e.source := mem_successors.2 ⟨e, he, rfl, rfl⟩
        exact .of_carries ⟨hsuccessor, fun hwrites => hkept (writes_iff.1 hwrites)⟩ (ih hnext)

/-! ## What a path reads is live -/

/-- Where a run has ended, a read ahead makes the variable live. -/
theorem mem_before_of_readAhead (hg : g.WellFormed) (hr : solve? g order budget = some r)
    (hn : n < g.nodeCount) (h : g.ReadAhead v n) : v ∈ before g order budget n := by
  obtain ⟨reader, hpath, hreads⟩ := h
  -- along the path, from its end
  induction hpath using ReflTransGen.head_induction_on with
  | refl => exact (mem_before_iff hg hr hn).2 (.inl hreads)
  | head hstep _ ih =>
    obtain ⟨hsuccessor, hkept⟩ := hstep
    obtain ⟨e, he, hsource, rfl⟩ := mem_successors.1 hsuccessor
    have htarget : e.target < g.nodeCount := Nat.lt_succ_of_le (hg.target_le e he)
    apply (mem_before_iff hg hr hn).2
    right
    constructor
    · exact (mem_behind_iff hg hr hn).2 ⟨e, he, hsource, ih htarget⟩
    · exact fun hassigned => hkept (writes_iff.2 hassigned)

/-- For every method of an accepted program and in either order liveness ends. In its result a
variable is live before a node exactly if a path from there reads it before writing it, and live
behind a node exactly if it is live before one that control goes to from there. -/
theorem facts_iff_readAhead (hp : p.Accepted) {m : MethodId} {method : Method}
    (hm : p.method? m = some method) :
    ∃ g, FlowGraph.ofProgram p m = .ok g ∧ ∀ order,
      (∃ budget r, solve? g order budget = some r) ∧
      ∀ budget r, solve? g order budget = some r → ∀ n < g.nodeCount,
        ∃ live behind, r.inFact? n = some live ∧ r.outFact? n = some behind ∧
          (∀ v, v ∈ live ↔ g.ReadAhead v n) ∧
          ∀ v, v ∈ behind ↔
            ∃ next ∈ g.successors n, ∃ facts, r.inFact? next = some facts ∧ v ∈ facts := by
  obtain ⟨g, hof, hg, -⟩ := hp.wellFormed.exists_flowGraph hm
  refine ⟨g, hof, fun order => ⟨exists_solve? hg order, fun budget r hr n hn => ?_⟩⟩
  obtain ⟨-, hbefore, hbehind⟩ := solution_of_solve? hg hr
  refine ⟨before g order budget n, behind g order budget n, ?_, ?_, fun v => ?_, fun v => ?_⟩
  · rw [hbefore, if_pos hn]
  · rw [hbehind, if_pos hn]
  · exact ⟨readAhead_of_mem_before hg budget, mem_before_of_readAhead hg hr hn⟩
  · rw [mem_behind_iff hg hr hn]
    constructor
    · rintro ⟨e, he, hsource, hv⟩
      have htarget : e.target < g.nodeCount := Nat.lt_succ_of_le (hg.target_le e he)
      refine ⟨e.target, mem_successors.2 ⟨e, he, hsource, rfl⟩, _, ?_, hv⟩
      rw [hbefore, if_pos htarget]
    · rintro ⟨next, hnext, facts, hfacts, hv⟩
      obtain ⟨e, he, hsource, rfl⟩ := mem_successors.1 hnext
      have htarget : e.target < g.nodeCount := Nat.lt_succ_of_le (hg.target_le e he)
      rw [hbefore, if_pos htarget] at hfacts
      exact ⟨e, he, hsource, Option.some.inj hfacts ▸ hv⟩

/-! ## A loop, a call and a return that control never comes to -/

/-- The loop subtracts `v0` from `v1` until `v1` is small, and then control stays at one node. The
return of `v3`, which a call on the loop writes, is never executed. -/
def restlessCommands : List Command := [
  .addClass "C" none [], .addMethod 0 "int m(int)" true,
  .addParam 0 "p" .int, .addVar 0 "a" .int, .addVar 0 "b" .int, .addVar 0 "q" .int,
  .pushStmts 0 [
    .assign 1 (.var 2),
    .assign 1 (.binary ⟨.sub, 1, 0⟩),
    .invoke ⟨.static, ⟨0, "int m(int)"⟩, none, [1], some 3⟩,
    .branch ⟨.lt, 0, 1⟩ 1,
    .goto 4,
    .ret (some 3)]]

/-- The program of these declarations. -/
def restless : Program := (Program.ofCommands? restlessCommands).get (by decide +kernel)

/-- The graph of its only method. -/
def restlessGraph : FlowGraph where
  method := restless.methods.head (by decide +kernel)
  edges := [⟨0, 1, .entry⟩, ⟨1, 2, .fallThrough⟩, ⟨2, 3, .fallThrough⟩, ⟨3, 4, .fallThrough⟩,
    ⟨4, 2, .ifTrue⟩, ⟨4, 5, .ifFalse⟩, ⟨5, 5, .goto⟩, ⟨6, 7, .ret⟩]

theorem accepted_restless : restless.Accepted :=
  Program.accepted_of_ofCommands? (Option.some_get _).symm

theorem ofProgram_restless : FlowGraph.ofProgram restless 0 = .ok restlessGraph := by
  rfl

/-- What is live before the nodes of the method. -/
def restlessLive : List (List VarId) := [[0, 2], [0, 2], [0, 1], [0, 1], [0, 1], [], [3], []]

/-- In either order `v1` is read ahead of the loop's subtraction, which writes it, and `v3` is
before the return, but not before the call. -/
theorem restless_readAhead :
    restless.Accepted ∧ restless.method? 0 = some restlessGraph.method ∧
      (∀ order, (solve? restlessGraph order 40).map (fun r =>
        restlessGraph.nodes.map fun n => (r.inFact? n).map SortedSet.toList) =
          some (restlessLive.map some)) ∧
      restlessGraph.ReadAhead 1 2 ∧ ¬ restlessGraph.ReadAhead 1 1 ∧
      restlessGraph.ReadAhead 3 6 ∧ ¬ restlessGraph.ReadAhead 3 3 := by
  have hmethod : restless.method? 0 = some restlessGraph.method :=
    (FlowGraph.wellFormed_of_ofProgram ofProgram_restless).2
  have hlive : ∀ order, (solve? restlessGraph order 40).map (fun r =>
      restlessGraph.nodes.map fun n => (r.inFact? n).map SortedSet.toList) =
        some (restlessLive.map some) := by
    intro order
    cases order <;> decide +kernel
  obtain ⟨g, hof, hfacts⟩ := facts_iff_readAhead accepted_restless hmethod
  obtain rfl : restlessGraph = g := Except.ok.inj (ofProgram_restless.symm.trans hof)
  obtain ⟨r, hr, hlists⟩ := Option.map_eq_some_iff.1 (hlive .fifo)
  have hahead : ∀ n v, n < restlessGraph.nodeCount →
      (restlessGraph.ReadAhead v n ↔ v ∈ (restlessLive[n]?).getD []) := by
    intro n v hn
    obtain ⟨live, -, hin, -, hmem, -⟩ := (hfacts .fifo).2 40 r hr n hn
    have hlist := congrArg (·[n]?) hlists
    simp only [List.getElem?_map, FlowGraph.nodes, List.getElem?_range hn, Option.map_some,
      hin] at hlist
    obtain ⟨list, hlive, hsame⟩ := Option.map_eq_some_iff.1 hlist.symm
    rw [hlive, Option.getD_some, Option.some.inj hsame, ← hmem]
    exact Iff.rfl
  refine ⟨accepted_restless, hmethod, hlive, ?_, ?_, ?_, ?_⟩
  · exact (hahead 2 1 (by decide)).2 (by decide)
  · exact fun h => absurd ((hahead 1 1 (by decide)).1 h) (by decide)
  · exact (hahead 6 3 (by decide)).2 (by decide)
  · exact fun h => absurd ((hahead 3 3 (by decide)).1 h) (by decide)

end Liveness

end TacAnalysis
