import TacAnalysis.Proofs.ControlFlow.WellFormed
import TacAnalysis.Proofs.Solver.State
import TacAnalysis.Solver.Intra

/-!
# One turn of the solver

A turn takes one node from the worklist, recomputes both of its facts from the facts of
its sources, and puts the nodes that depend on it back if its output has changed. Read
that way, the facts that leave the nodes are a function on nodes which a turn updates in
one place.

The invariant of the solver is that every node outside the worklist satisfies its
equations. Nothing is assumed of the order of facts, of the join or of the transfer, except
that a transfer is a function of the node and its input and tells whether its output
has changed.

Main statements: `exists_turn`, what a step does, and `Consistent.step`, every step keeps
the invariant.
-/

namespace TacAnalysis.FlowAnalysis

variable {F : Type} (a : FlowAnalysis F) (g : FlowGraph)

/-- The facts that flow into the nodes in a state. -/
def inputs (s : SolverState F) (n : NodeId) : F := s.input[n]?.getD a.initial

/-- The facts that leave the nodes in a state. -/
def outputs (s : SolverState F) (n : NodeId) : F := s.output[n]?.getD a.initial

/-- What flows into a node when `x m` leaves each node `m`. -/
def gather (x : NodeId → F) (n : NodeId) : F :=
  (a.sources g n).foldl (fun target m => a.meet (x m) target) a.initial

/-- The transfer sets the output to `f` of the node and its input, and reports a change
exactly when the output has changed. -/
structure Computes (f : NodeId → F → F) : Prop where
  /-- The new output depends on the node and its input only. -/
  output_eq : ∀ n input output, (a.transfer n input output).2 = f n input
  /-- A change is reported exactly when the output has changed. -/
  changed_iff : ∀ n input output, (a.transfer n input output).1 = true ↔ f n input ≠ output

/-- Facts before and behind the nodes that satisfy the equations of the analysis: the
boundary node holds the boundary fact on both sides, every other node joins what leaves
its sources and transfers it. -/
structure IsSolution (f : NodeId → F → F) (input output : NodeId → F) : Prop where
  /-- The boundary fact flows into the boundary node. -/
  input_boundary : input (a.boundaryNode g) = a.boundary
  /-- The boundary fact leaves the boundary node. -/
  output_boundary : output (a.boundaryNode g) = a.boundary
  /-- What flows into another node is joined from its sources. -/
  input_eq : ∀ n < g.nodeCount, n ≠ a.boundaryNode g → input n = a.gather g output n
  /-- What leaves another node is the transfer of what flows into it. -/
  output_eq : ∀ n < g.nodeCount, n ≠ a.boundaryNode g → output n = f n (input n)

/-- The invariant of the solver: the facts have their places, the boundary node keeps its
fact, and every node that is not waiting satisfies its equations. -/
structure Consistent (f : NodeId → F → F) (s : SolverState F) : Prop where
  /-- Every node has a fact before it. -/
  input_length : s.input.length = g.nodeCount
  /-- Every node has a fact behind it. -/
  output_length : s.output.length = g.nodeCount
  /-- The marks of the worklist are right. -/
  worklist_valid : s.worklist.Valid
  /-- Only nodes are waiting. -/
  waiting_lt : ∀ n ∈ s.worklist.waiting, n < g.nodeCount
  /-- The boundary node never waits. -/
  boundary_idle : a.boundaryNode g ∉ s.worklist.waiting
  /-- The boundary fact flows into the boundary node. -/
  input_boundary : a.inputs s (a.boundaryNode g) = a.boundary
  /-- The boundary fact leaves the boundary node. -/
  output_boundary : a.outputs s (a.boundaryNode g) = a.boundary
  /-- A node that is not waiting has joined what leaves its sources. -/
  input_eq : ∀ n < g.nodeCount, n ≠ a.boundaryNode g → n ∉ s.worklist.waiting →
    a.inputs s n = a.gather g (a.outputs s) n
  /-- A node that is not waiting has transferred what flows into it. -/
  output_eq : ∀ n < g.nodeCount, n ≠ a.boundaryNode g → n ∉ s.worklist.waiting →
    a.outputs s n = f n (a.inputs s n)

/-- In the turn of the node `n` the solver goes from the state `s` to the state `t`. -/
structure Turn (f : NodeId → F → F) (s : SolverState F) (n : NodeId) (t : SolverState F) :
    Prop where
  /-- The node was waiting. -/
  waiting : n ∈ s.worklist.waiting
  /-- Its new input is joined from its sources, and no other input changes. -/
  inputs_eq : a.inputs t = Function.update (a.inputs s) n (a.gather g (a.outputs s) n)
  /-- Its new output is the transfer of that, and no other output changes. -/
  outputs_eq : a.outputs t =
    Function.update (a.outputs s) n (f n (a.gather g (a.outputs s) n))
  /-- It no longer waits, and after a change all nodes that depend on it do. -/
  mem_waiting_iff : ∀ m, m ∈ t.worklist.waiting ↔
    (m ∈ s.worklist.waiting ∧ m ≠ n) ∨ (a.outputs t n ≠ a.outputs s n ∧ m ∈ a.dependents g n)
  /-- Without a change the worklist gets shorter. -/
  length_of_unchanged : a.outputs t n = a.outputs s n →
    t.worklist.waiting.length + 1 = s.worklist.waiting.length
  /-- The marks of the worklist stay right. -/
  worklist_valid : t.worklist.Valid
  /-- No place for an input comes or goes. -/
  input_length : t.input.length = s.input.length
  /-- No place for an output comes or goes. -/
  output_length : t.output.length = s.output.length

variable {a g}

/-! ## Sources and dependents -/

/-- Dependents and sources tell the same edges. -/
theorem mem_dependents_iff {n m : NodeId} : m ∈ a.dependents g n ↔ n ∈ a.sources g m := by
  unfold dependents sources
  cases a.direction with
  | forward => exact FlowGraph.mem_successors_iff_mem_predecessors
  | backward => exact FlowGraph.mem_successors_iff_mem_predecessors.symm

theorem dependents_lt (hg : g.WellFormed) {n m : NodeId} (h : m ∈ a.dependents g n) :
    m < g.nodeCount := by
  unfold dependents at h
  cases hd : a.direction with
  | forward =>
    simp only [hd, FlowGraph.mem_successors] at h
    obtain ⟨e, he, -, rfl⟩ := h
    exact Nat.lt_succ_of_le (hg.target_le e he)
  | backward =>
    simp only [hd, FlowGraph.mem_predecessors] at h
    obtain ⟨e, he, -, rfl⟩ := h
    exact Nat.lt_succ_of_lt (hg.source_lt e he)

theorem sources_lt (hg : g.WellFormed) {n m : NodeId} (h : m ∈ a.sources g n) :
    m < g.nodeCount := by
  unfold sources at h
  cases hd : a.direction with
  | forward =>
    simp only [hd, FlowGraph.mem_predecessors] at h
    obtain ⟨e, he, -, rfl⟩ := h
    exact Nat.lt_succ_of_lt (hg.source_lt e he)
  | backward =>
    simp only [hd, FlowGraph.mem_successors] at h
    obtain ⟨e, he, -, rfl⟩ := h
    exact Nat.lt_succ_of_le (hg.target_le e he)

/-- The boundary node depends on no node. -/
theorem boundary_not_dependent (hg : g.WellFormed) (n : NodeId) :
    a.boundaryNode g ∉ a.dependents g n := by
  intro h
  unfold dependents boundaryNode at h
  cases hd : a.direction with
  | forward =>
    simp only [hd, FlowGraph.mem_successors] at h
    obtain ⟨e, he, -, htarget⟩ := h
    exact Nat.lt_irrefl _ (htarget ▸ hg.target_pos e he)
  | backward =>
    simp only [hd, FlowGraph.mem_predecessors] at h
    obtain ⟨e, he, -, hsource⟩ := h
    exact Nat.lt_irrefl _ (hsource ▸ hg.source_lt e he)

theorem boundary_lt : a.boundaryNode g < g.nodeCount := by
  unfold boundaryNode
  cases a.direction with
  | forward => exact Nat.succ_pos _
  | backward => exact Nat.lt_succ_self _

/-! ## Joining what leaves the sources -/

/-- What flows into a node depends on its sources only. -/
theorem gather_congr {x y : NodeId → F} {n : NodeId} (h : ∀ m ∈ a.sources g n, x m = y m) :
    a.gather g x n = a.gather g y n := by
  unfold gather
  generalize a.initial = start
  generalize a.sources g n = ms at h
  induction ms generalizing start with
  | nil => rfl
  | cons m ms ih =>
    rw [List.foldl_cons, List.foldl_cons, h m List.mem_cons_self]
    exact ih _ fun k hk => h k (List.mem_cons_of_mem m hk)

/-- A node does not notice what happens to a node that is no source of it. -/
theorem gather_update {x : NodeId → F} {n m : NodeId} {fact : F} (h : m ∉ a.sources g n) :
    a.gather g (Function.update x m fact) n = a.gather g x n := by
  refine gather_congr fun k hk => Function.update_of_ne ?_ _ _
  rintro rfl
  exact h hk

/-! ## Steps -/

variable {f : NodeId → F → F} {s t : SolverState F}

/-- A turn joins what leaves the sources of its node. -/
theorem Turn.input_eq {n : NodeId} (ht : a.Turn g f s n t) :
    a.inputs t n = a.gather g (a.outputs s) n := by
  rw [ht.inputs_eq, Function.update_self]

/-- A turn transfers what it has joined. -/
theorem Turn.output_eq {n : NodeId} (ht : a.Turn g f s n t) :
    a.outputs t n = f n (a.gather g (a.outputs s) n) := by
  rw [ht.outputs_eq, Function.update_self]

/-- No step is left exactly when no node is waiting. -/
theorem step_eq_none_iff : a.step g s = none ↔ s.worklist.waiting = [] := by
  rw [← NodeWorklist.pop?_eq_none_iff]
  unfold step
  cases s.worklist.pop? <;> simp

/-- A step records what the transfer of the node taken from the worklist gives. -/
theorem step_of_pop? {n : Nat} {rest : NodeWorklist} {changed : Bool} {output : F}
    (hpop : s.worklist.pop? = some (n, rest))
    (htransfer : a.transfer n (a.joined g s.output n) (s.output[n]?.getD a.initial) =
      (changed, output)) :
    a.step g s = some (s.record rest n (a.joined g s.output n) output changed
      (a.dependents g n)) := by
  unfold step
  rw [hpop]
  change some (s.record rest n (a.joined g s.output n)
    (a.transfer n (a.joined g s.output n) (s.output[n]?.getD a.initial)).2
    (a.transfer n (a.joined g s.output n) (s.output[n]?.getD a.initial)).1
    (a.dependents g n)) = _
  rw [htransfer]

/-- A step is the turn of a waiting node. -/
theorem exists_turn (hf : a.Computes f) (hs : a.Consistent g f s) (h : a.step g s = some t) :
    ∃ n, a.Turn g f s n t := by
  rcases hpop : s.worklist.pop? with _ | ⟨n, rest⟩
  · simp [step_eq_none_iff.2 (NodeWorklist.pop?_eq_none_iff.1 hpop)] at h
  obtain ⟨-, hn, -, -⟩ := hs.worklist_valid.pop hpop
  have hlt := hs.waiting_lt n hn
  set input := a.joined g s.output n
  rcases htransfer : a.transfer n input (s.output[n]?.getD a.initial) with ⟨changed, output⟩
  have houtput := hf.output_eq n input (s.output[n]?.getD a.initial)
  have hchanged := hf.changed_iff n input (s.output[n]?.getD a.initial)
  rw [htransfer] at houtput hchanged
  obtain rfl : output = f n input := houtput
  have hrecord := Option.some.inj ((step_of_pop? hpop htransfer).symm.trans h)
  have hturns : s.Turns a.initial (a.dependents g) n input (f n input) t := by
    rw [← hrecord]
    exact SolverState.turns_of_pop? hs.worklist_valid hpop (hs.input_length ▸ hlt)
      (hs.output_length ▸ hlt) hchanged
  have hnew : a.outputs t n = f n input :=
    (congrFun hturns.outputs_eq n).trans (Function.update_self ..)
  exact ⟨n, hn, hturns.inputs_eq, hturns.outputs_eq, hnew ▸ hturns.mem_waiting_iff,
    hnew ▸ hturns.length_of_unchanged, hturns.worklist_valid, hturns.input_length,
    hturns.output_length⟩

/-- After a turn a node that is not waiting joins the same facts as before it. -/
theorem Turn.gather_eq {n m : NodeId} (ht : a.Turn g f s n t) (hm : m ∉ t.worklist.waiting) :
    a.gather g (a.outputs t) m = a.gather g (a.outputs s) m := by
  by_cases hunchanged : a.outputs t n = a.outputs s n
  · have hself := ht.outputs_eq
    rw [← ht.output_eq, hunchanged, Function.update_eq_self] at hself
    rw [hself]
  · have hsource : n ∉ a.sources g m := fun h =>
      hm ((ht.mem_waiting_iff m).2 (.inr ⟨hunchanged, mem_dependents_iff.2 h⟩))
    rw [ht.outputs_eq, gather_update hsource]

/-- A turn keeps the invariant of the solver. -/
theorem Turn.consistent (hg : g.WellFormed) (hs : a.Consistent g f s) {n : NodeId}
    (ht : a.Turn g f s n t) : a.Consistent g f t := by
  have hn : a.boundaryNode g ≠ n := fun h => hs.boundary_idle (h ▸ ht.waiting)
  have hidle : ∀ m ≠ n, m ∉ t.worklist.waiting → m ∉ s.worklist.waiting := fun m hmn hm h =>
    hm ((ht.mem_waiting_iff m).2 (.inl ⟨h, hmn⟩))
  refine {
    input_length := ht.input_length.trans hs.input_length
    output_length := ht.output_length.trans hs.output_length
    worklist_valid := ht.worklist_valid
    waiting_lt := fun m hm => ?_
    boundary_idle := fun h => ?_
    input_boundary := ?_
    output_boundary := ?_
    input_eq := fun m hlt hb hm => ?_
    output_eq := fun m hlt hb hm => ?_ }
  · rcases (ht.mem_waiting_iff m).1 hm with ⟨hm, -⟩ | ⟨-, hm⟩
    · exact hs.waiting_lt m hm
    · exact dependents_lt hg hm
  · rcases (ht.mem_waiting_iff _).1 h with ⟨h, -⟩ | ⟨-, h⟩
    · exact hs.boundary_idle h
    · exact boundary_not_dependent hg n h
  · rw [ht.inputs_eq, Function.update_of_ne hn, hs.input_boundary]
  · rw [ht.outputs_eq, Function.update_of_ne hn, hs.output_boundary]
  · rw [ht.gather_eq hm, ht.inputs_eq]
    by_cases hmn : m = n
    · rw [hmn, Function.update_self]
    · rw [Function.update_of_ne hmn, hs.input_eq m hlt hb (hidle m hmn hm)]
  · rw [ht.inputs_eq, ht.outputs_eq]
    by_cases hmn : m = n
    · rw [hmn, Function.update_self, Function.update_self]
    · rw [Function.update_of_ne hmn, Function.update_of_ne hmn,
        hs.output_eq m hlt hb (hidle m hmn hm)]

/-- Every step keeps the invariant of the solver. -/
theorem Consistent.step (hf : a.Computes f) (hg : g.WellFormed) (hs : a.Consistent g f s)
    (h : a.step g s = some t) : a.Consistent g f t := by
  obtain ⟨n, ht⟩ := exists_turn hf hs h
  exact ht.consistent hg hs

/-- At first all nodes wait except the boundary node. -/
theorem consistent_start (order : WorklistOrder) :
    a.Consistent g f (a.start g order) := by
  have hmem : ∀ n, n ∈ (a.start g order).worklist.waiting ↔
      n < g.nodeCount ∧ n ≠ a.boundaryNode g := by
    intro n
    rw [start, SolverState.start, NodeWorklist.mem_pushAll (NodeWorklist.valid_empty order)]
    simp [NodeWorklist.empty]
  have hfacts : ((List.range g.nodeCount).map fun n =>
      if n = a.boundaryNode g then a.boundary else a.initial)[a.boundaryNode g]?.getD a.initial =
      a.boundary := by
    simp [boundary_lt]
  exact {
    input_length := by simp [start, SolverState.start]
    output_length := by simp [start, SolverState.start]
    worklist_valid := (NodeWorklist.valid_empty order).pushAll _
    waiting_lt := fun n hn => ((hmem n).1 hn).1
    boundary_idle := fun h => ((hmem _).1 h).2 rfl
    input_boundary := hfacts
    output_boundary := hfacts
    input_eq := fun n hn hb hw => absurd ((hmem n).2 ⟨hn, hb⟩) hw
    output_eq := fun n hn hb hw => absurd ((hmem n).2 ⟨hn, hb⟩) hw }

end TacAnalysis.FlowAnalysis
