import TacAnalysis.Liveness
import TacAnalysis.Proofs.Solver.Order
import TacAnalysis.Proofs.SortedSet

/-!
# Runs of liveness

The transfer of liveness is monotone and adds variables that some statement reads only. So the
facts of a run rise, finitely often, and the run ends. Where it ends, a variable is live before
a node if the node reads it, or if it is live behind the node and the node does not write it; it
is live behind a node if it is live before one that comes next.

Main statements: `exists_solve?`, `mem_before_iff` and `mem_behind_iff`.
-/

namespace TacAnalysis.Liveness

variable {g : FlowGraph} {order : WorklistOrder} {budget k : Nat} {r : FlowResult IdSet}
  {n : NodeId} {v : VarId}

/-! ## The analysis -/

theorem isJoin (g : FlowGraph) : (analysis g).IsJoin where
  initial_le := SortedSet.empty_le
  meet_le_iff _ _ _ := SortedSet.union_le_iff.trans and_comm

/-- The transfer of a node gives what is live before its statement. -/
theorem computes (g : FlowGraph) : (analysis g).Computes fun n => applyNode (g.stmt? n) where
  output_eq n input output := by
    change (if applyNode (g.stmt? n) input = output then (false, output)
      else (true, applyNode (g.stmt? n) input)).2 = _
    split
    · rename_i hsame
      exact hsame.symm
    · rfl
  changed_iff n input output := by
    change (if applyNode (g.stmt? n) input = output then (false, output)
      else (true, applyNode (g.stmt? n) input)).1 = true ↔ _
    split
    · rename_i hsame
      exact iff_of_false Bool.false_ne_true (not_not_intro hsame)
    · rename_i hchanged
      exact iff_of_true rfl hchanged

/-- If more is live behind a node, more is live before it. -/
theorem applyNode_mono (stmt : Option Stmt) : Monotone (applyNode stmt) := by
  intro x y hxy v hv
  cases stmt with
  | none => exact hxy v hv
  | some stmt =>
    rcases mem_applyStmt.1 hv with huse | ⟨hlive, hkept⟩
    · exact mem_applyStmt.2 (.inl huse)
    · exact mem_applyStmt.2 (.inr ⟨hxy v hlive, hkept⟩)

/-- What is live before a node is read there, or is live behind it and not written there. -/
theorem mem_applyNode {stmt : Option Stmt} {live : IdSet} :
    v ∈ applyNode stmt live ↔
      (∃ s, stmt = some s ∧ v ∈ s.uses) ∨ (v ∈ live ∧ stmt.bind Stmt.assigned? ≠ some v) := by
  cases stmt with
  | none => simp [applyNode]
  | some stmt => simp [applyNode, mem_applyStmt]

/-- A join has the members of all its parts. -/
theorem mem_gather {x : NodeId → IdSet} :
    v ∈ (analysis g).gather g x n ↔ ∃ e ∈ g.edges, e.source = n ∧ v ∈ x e.target := by
  have hfold : ∀ (ms : List NodeId) (start : IdSet),
      v ∈ ms.foldl (fun target m => target.union (x m)) start ↔ v ∈ start ∨ ∃ m ∈ ms, v ∈ x m := by
    intro ms
    induction ms with
    | nil => simp
    | cons m ms ih =>
      intro start
      rw [List.foldl_cons, ih, SortedSet.mem_union, or_assoc]
      simp only [List.mem_cons, or_and_right, exists_or, exists_eq_left]
  have hsuccessors := hfold (g.successors n) ∅
  have hnothing : ¬ v ∈ (∅ : IdSet) := SortedSet.not_mem_empty v
  refine hsuccessors.trans ?_
  simp only [hnothing, false_or, FlowGraph.mem_successors]
  constructor
  · rintro ⟨m, ⟨e, he, hsource, rfl⟩, hv⟩
    exact ⟨e, he, hsource, hv⟩
  · rintro ⟨e, he, hsource, hv⟩
    exact ⟨e.target, ⟨e, he, hsource, rfl⟩, hv⟩

/-! ## Runs -/

variable (g order)

/-- The variables that are live before a node after `k` turns. -/
def before (k : Nat) (n : NodeId) : IdSet := (analysis g).outputs ((analysis g).stateAt g order k) n

/-- The variables that are live behind a node after `k` turns. -/
def behind (k : Nat) (n : NodeId) : IdSet := (analysis g).inputs ((analysis g).stateAt g order k) n

variable {g order}

/-- Only variables that some statement reads are ever live. -/
theorem mem_uses_of_mem_before (hg : g.WellFormed) (hv : v ∈ before g order k n) :
    v ∈ g.method.stmts.flatMap Stmt.uses := by
  let fromUses (live : IdSet) : Prop := ∀ v, v ∈ live → v ∈ g.method.stmts.flatMap Stmt.uses
  have hnothing : fromUses ∅ := fun v hv => absurd hv (SortedSet.not_mem_empty v)
  have hmeet : ∀ x y, fromUses x → fromUses y → fromUses ((analysis g).meet x y) :=
    fun x y hx hy v hv => (SortedSet.mem_union.1 hv).elim (hy v) (hx v)
  have hnode : ∀ n x, fromUses x → fromUses (applyNode (g.stmt? n) x) := by
    intro n x hx v hv
    rcases mem_applyNode.1 hv with ⟨stmt, hstmt, huse⟩ | ⟨hlive, -⟩
    · obtain ⟨index, -, hindex⟩ := Option.bind_eq_some_iff.1 hstmt
      exact List.mem_flatMap.2 ⟨stmt, List.mem_of_getElem? hindex, huse⟩
    · exact hx v hlive
  exact (FlowAnalysis.facts_induction (computes g) hg hnothing hnothing hmeet hnode k n).2 v hv

/-- Liveness ends on every graph, in either order. -/
theorem exists_solve? (hg : g.WellFormed) (order : WorklistOrder) :
    ∃ budget r, solve? g order budget = some r := by
  have hsettles : ∀ n < g.nodeCount, FlowAnalysis.Settles fun k => before g order k n := by
    intro n hn
    have hinside : ∀ n, n < g.nodeCount → ∀ m ∈ (analysis g).sources g n, m < g.nodeCount :=
      fun _ _ _ hm => FlowAnalysis.sources_lt hg hm
    have hbound : ∀ k, (before g order k n).size ≤ (g.method.stmts.flatMap Stmt.uses).length :=
      fun k => SortedSet.size_le_length fun v hv => mem_uses_of_mem_before hg hv
    refine FlowAnalysis.settles_of_rank hbound fun k (_ : k ≥ 0) => ?_
    have hrise : before g order k n ≤ before g order (k + 1) n :=
      FlowAnalysis.outputs_le_succ (computes g) hg (isJoin g) hinside
        (fun n _ => applyNode_mono (g.stmt? n)) (fun _ _ _ => rfl) k hn
    exact (SortedSet.eq_or_size_lt hrise).imp Eq.symm id
  obtain ⟨budget, s, hs⟩ := (FlowAnalysis.exists_run?_iff_settles (computes g) hg).2 hsettles
  obtain ⟨r, hr⟩ := FlowAnalysis.exists_solve?_iff.2 ⟨s, hs⟩
  exact ⟨budget, r, hr⟩

/-! ## Results -/

/-- A result holds the facts of the last turn, and they satisfy the equations. -/
theorem solution_of_solve? (hg : g.WellFormed) (hr : solve? g order budget = some r) :
    (analysis g).IsSolution g (fun n => applyNode (g.stmt? n)) (behind g order budget)
        (before g order budget) ∧
      (∀ n, r.inFact? n = if n < g.nodeCount then some (before g order budget n) else none) ∧
      ∀ n, r.outFact? n = if n < g.nodeCount then some (behind g order budget n) else none := by
  obtain ⟨s, hs, hbehind, hbefore⟩ := FlowAnalysis.facts_of_solve? (computes g) hg hr
  obtain ⟨rfl, -⟩ := FlowAnalysis.run?_eq_some_iff.1 hs
  exact ⟨FlowAnalysis.isSolution_of_run? (computes g) hg hs, hbefore, hbehind⟩

/-- At the exit there is no statement. -/
theorem stmt?_exit (g : FlowGraph) : g.stmt? g.exit = none := by
  have hinner : g.exit ≠ g.entry := Nat.succ_ne_zero _
  have hkind : g.kind g.exit = .exit := by rw [FlowGraph.kind, if_neg hinner, if_pos rfl]
  rw [FlowGraph.stmt?, FlowGraph.stmtIndex?, hkind]
  rfl

/-- In a result a variable is live before a node if the node reads it, or if it is live behind the
node and the node does not write it. -/
theorem mem_before_iff (hg : g.WellFormed) (hr : solve? g order budget = some r)
    (hn : n < g.nodeCount) : v ∈ before g order budget n ↔
      (∃ s, g.stmt? n = some s ∧ v ∈ s.uses) ∨
        (v ∈ behind g order budget n ∧ (g.stmt? n).bind Stmt.assigned? ≠ some v) := by
  obtain ⟨hsolution, -, -⟩ := solution_of_solve? hg hr
  by_cases hexit : n = g.exit
  · have hboth : before g order budget g.exit = behind g order budget g.exit :=
      hsolution.output_boundary.trans hsolution.input_boundary.symm
    rw [hexit, hboth, stmt?_exit]
    simp
  · rw [hsolution.output_eq n hn hexit]
    exact mem_applyNode

/-- In a result a variable is live behind a node if it is live before one that comes next. -/
theorem mem_behind_iff (hg : g.WellFormed) (hr : solve? g order budget = some r)
    (hn : n < g.nodeCount) : v ∈ behind g order budget n ↔
      ∃ e ∈ g.edges, e.source = n ∧ v ∈ before g order budget e.target := by
  obtain ⟨hsolution, -, -⟩ := solution_of_solve? hg hr
  by_cases hexit : n = g.exit
  · have hnothing : behind g order budget g.exit = ∅ := hsolution.input_boundary
    rw [hexit, hnothing]
    constructor
    · exact fun hv => absurd hv (SortedSet.not_mem_empty v)
    · rintro ⟨e, he, hsource, -⟩
      exact absurd hsource (hg.source_lt e he).ne
  · rw [hsolution.input_eq n hn hexit]
    exact mem_gather

end TacAnalysis.Liveness
