import TacAnalysis.Proofs.DeadCode.Unreachable
import TacAnalysis.Proofs.Liveness

/-!
# Dead assignments can be removed

A method is run here under any deterministic meaning of its statements, as long as a statement
depends on the variables that it reads and on the heap only, and writes no variable but the one
that it assigns. The method is compared with the one where all dead assignments are replaced by
`nop`. Both runs pass the same nodes with the same heaps, and differ in variables that are not live
only: a statement reads live variables, so it does the same in both, and what a dead assignment
would have written is not live behind it.

Main statement: `runs_agree_without_deadAssignments`.
-/

namespace TacAnalysis

/-! ## Replaced statements -/

/-- The method with the statements at some positions replaced by `nop`. -/
def Method.blank (m : Method) (positions : List Nat) : Method :=
  { m with stmts := m.stmts.mapIdx fun index stmt => if index ∈ positions then .nop else stmt }

namespace FlowGraph

/-- The graph with the statements at some positions replaced by `nop`. -/
def blank (g : FlowGraph) (positions : List Nat) : FlowGraph :=
  { g with method := g.method.blank positions }

/-- The statement at a node; a node without one does what `nop` does. -/
def stmtAt (g : FlowGraph) (n : NodeId) : Stmt := (g.stmt? n).getD .nop

variable {m : Method} {g : FlowGraph} {positions : List Nat}

theorem length_blank : (m.blank positions).stmts.length = m.stmts.length := List.length_mapIdx

/-- Control goes on from `nop` as it does from an assignment, so replacing assignments changes no
edges. -/
theorem stmtEdges_blank {stmt : Stmt} {index : Nat}
    (hassign : index ∈ positions → ∃ lhs rhs, stmt = .assign lhs rhs) :
    stmtEdges (m.blank positions) (if index ∈ positions then .nop else stmt) index =
      stmtEdges m stmt index := by
  by_cases hmem : index ∈ positions
  · obtain ⟨lhs, rhs, rfl⟩ := hassign hmem
    rw [if_pos hmem]
    simp only [stmtEdges, length_blank]
  · rw [if_neg hmem]
    have htarget : target (m.blank positions) = target m := by
      funext t
      rw [target, target, length_blank]
      rfl
    cases stmt <;> simp only [stmtEdges, length_blank, htarget]

/-- The graph of a method keeps its edges if assignments are replaced by `nop`. -/
theorem ofMethod_blank (hof : ofMethod m = .ok g)
    (hassign : ∀ index ∈ positions, ∃ lhs rhs, m.stmts[index]? = some (.assign lhs rhs)) :
    ofMethod (m.blank positions) = .ok (g.blank positions) := by
  let replaced (e : Stmt × Nat) : Stmt × Nat := (if e.2 ∈ positions then .nop else e.1, e.2)
  have hnumbered : (m.blank positions).stmts.zipIdx = m.stmts.zipIdx.map replaced := by
    refine List.ext_getElem? fun i => ?_
    cases hi : m.stmts[i]? <;> simp [Method.blank, replaced, hi]
  have hedges : (m.blank positions).stmts.zipIdx.mapM
      (fun e => stmtEdges (m.blank positions) e.1 e.2) =
      m.stmts.zipIdx.mapM fun e => stmtEdges m e.1 e.2 := by
    rw [hnumbered, List.mapM_map]
    refine mapM_congr fun e he => stmtEdges_blank fun hmem => ?_
    obtain ⟨lhs, rhs, hstmt⟩ := hassign e.2 hmem
    have hsame : m.stmts[e.2]? = some e.1 := List.mem_zipIdx_iff_getElem?.1 he
    exact ⟨lhs, rhs, Option.some.inj (hsame.symm.trans hstmt)⟩
  have hentry : entryEdge (m.blank positions) = entryEdge m := by
    simp only [entryEdge, List.isEmpty_iff_length_eq_zero, length_blank]
  unfold ofMethod at hof ⊢
  obtain ⟨lists, hlists, hg⟩ := bind_eq_ok_iff.1 hof
  refine bind_eq_ok_iff.2 ⟨lists, hedges.trans hlists, ?_⟩
  obtain rfl := Except.ok.inj hg
  rw [hentry]
  rfl

/-- Nodes keep what they stand for. -/
theorem stmtIndex?_blank (n : NodeId) : (g.blank positions).stmtIndex? n = g.stmtIndex? n := by
  have hexit : (g.blank positions).exit = g.exit := by
    simp only [exit, blank, length_blank]
  simp only [stmtIndex?, kind, hexit]
  rfl

/-- A node whose statement is replaced does what `nop` does, and every other node what it did. -/
theorem stmtAt_blank (n : NodeId) : (g.blank positions).stmtAt n =
    if ∃ index ∈ positions, g.stmtIndex? n = some index then .nop else g.stmtAt n := by
  unfold stmtAt stmt?
  rw [stmtIndex?_blank]
  cases hindex : g.stmtIndex? n with
  | none => simp
  | some index =>
    have hstmt : (g.blank positions).method.stmts[index]? =
        g.method.stmts[index]?.map fun stmt => if index ∈ positions then .nop else stmt :=
      List.getElem?_mapIdx
    rw [Option.bind_some, Option.bind_some, hstmt]
    cases g.method.stmts[index]? <;> simp

end FlowGraph

/-! ## Runs -/

/-- What a statement has done. -/
structure Outcome (V H : Type) where
  /-- The value for the variable that the statement assigns. -/
  value : V
  /-- The heap afterwards. -/
  heap : H
  /-- Which of the edges that leave the statement is taken, counted from zero. -/
  edge : Nat

/-- A deterministic meaning of statements, over some values and heaps. A statement depends on the
values of the variables that it reads, listed as `Stmt.uses` does, and on the heap. What goes on
does so by the first edge if, like `nop` and assignments, it is left by one edge only. -/
structure Semantics (V H : Type) where
  /-- What a statement does; none if it fails. -/
  outcome? : Stmt → List V → H → Option (Outcome V H)
  /-- `nop` cannot fail and keeps the heap. -/
  outcome?_nop : ∀ heap, ∃ value, outcome? .nop [] heap = some ⟨value, heap, 0⟩
  /-- An assignment of a pure expression cannot fail and keeps the heap. -/
  outcome?_pure : ∀ lhs rhs values heap, rhs.isPure = true → values.length = rhs.uses.length →
    ∃ value, outcome? (.assign lhs rhs) values heap = some ⟨value, heap, 0⟩

/-- How far a run has come. -/
structure Snapshot (V H : Type) where
  /-- The node that comes next. -/
  node : NodeId
  /-- The values of the variables. -/
  env : VarId → V
  /-- The heap. -/
  heap : H

variable {V H : Type}

/-- The values of the variables behind a statement that writes `value`, if it writes anything. -/
def Stmt.written (stmt : Stmt) (value : V) (env : VarId → V) : VarId → V :=
  match stmt.assigned? with
  | some v => Function.update env v value
  | none => env

/-- No variable is written but the one that the statement assigns. -/
theorem Stmt.written_apply (stmt : Stmt) (value : V) (env : VarId → V) (v : VarId) :
    stmt.written value env v = if stmt.assigned? = some v then value else env v := by
  unfold Stmt.written
  cases stmt.assigned? with
  | none => simp
  | some w => simp [Function.update_apply, eq_comm]

namespace Semantics

variable (S : Semantics V H) (g : FlowGraph)

/-- One step of a run; none if the statement fails or no edge leaves its node. -/
def step? (c : Snapshot V H) : Option (Snapshot V H) := do
  let stmt := g.stmtAt c.node
  let outcome ← S.outcome? stmt (stmt.uses.map c.env) c.heap
  (g.outEdges c.node)[outcome.edge]?.map fun e =>
    ⟨e.target, stmt.written outcome.value c.env, outcome.heap⟩

variable {S g}

theorem step?_of_outcome? {c : Snapshot V H} {outcome : Outcome V H}
    (h : S.outcome? (g.stmtAt c.node) ((g.stmtAt c.node).uses.map c.env) c.heap = some outcome) :
    S.step? g c = (g.outEdges c.node)[outcome.edge]?.map fun e =>
      ⟨e.target, (g.stmtAt c.node).written outcome.value c.env, outcome.heap⟩ := by
  rw [step?, h]
  rfl

theorem step?_of_failure {c : Snapshot V H}
    (h : S.outcome? (g.stmtAt c.node) ((g.stmtAt c.node).uses.map c.env) c.heap = none) :
    S.step? g c = none := by
  rw [step?, h]
  rfl

variable (S g)

/-- Where a run is after some steps, if it gets that far. -/
def after? (c : Snapshot V H) : Nat → Option (Snapshot V H)
  | 0 => some c
  | k + 1 => (after? c k).bind (S.step? g)

end Semantics

namespace DeadCode

variable {p : Program} {g : FlowGraph} {order : WorklistOrder} {budget : Nat}
  {live : FlowResult IdSet} {constants : FlowResult ConstFact}

/-! ## Dead assignments -/

/-- A dead assignment has a pure right-hand side, and its target is not live behind it. -/
theorem exists_of_isDeadAssignment {n : NodeId} (h : isDeadAssignment g live n = true) :
    ∃ lhs rhs liveOut, g.stmt? n = some (.assign lhs rhs) ∧ live.outFact? n = some liveOut ∧
      ¬ lhs ∈ liveOut ∧ rhs.isPure = true := by
  unfold isDeadAssignment at h
  split at h
  · rename_i lhs rhs liveOut hstmt hlive
    rw [Bool.and_eq_true, decide_eq_true_eq] at h
    exact ⟨lhs, rhs, liveOut, hstmt, hlive, h.1, h.2⟩
  · cases h

/-- The report lists the positions of the dead assignments. -/
theorem mem_deadAssignments_iff {index : Nat} :
    index ∈ (detect g constants live).deadAssignments ↔
      ∃ n < g.nodeCount, isDeadAssignment g live n = true ∧ g.stmtIndex? n = some index := by
  change index ∈ deadAssignments g live ↔ _
  simp only [deadAssignments, SortedSet.mem_ofList, List.mem_filterMap, List.mem_filter,
    FlowGraph.mem_nodes, and_assoc]

/-- The statements that the report lists are assignments. -/
theorem exists_assign_of_mem_deadAssignments {index : Nat}
    (h : index ∈ (detect g constants live).deadAssignments) :
    ∃ lhs rhs, g.method.stmts[index]? = some (.assign lhs rhs) := by
  obtain ⟨n, -, hdead, hindex⟩ := mem_deadAssignments_iff.1 h
  obtain ⟨lhs, rhs, -, hstmt, -⟩ := exists_of_isDeadAssignment hdead
  rw [FlowGraph.stmt?, hindex, Option.bind_some] at hstmt
  exact ⟨lhs, rhs, hstmt⟩

/-- Without the dead assignments of a report their nodes do what `nop` does. -/
theorem stmtAt_blank_deadAssignments {n : NodeId} (hn : n < g.nodeCount) :
    (g.blank (detect g constants live).deadAssignments).stmtAt n =
      if isDeadAssignment g live n = true then .nop else g.stmtAt n := by
  rw [FlowGraph.stmtAt_blank]
  refine if_congr ⟨?_, fun hdead => ?_⟩ rfl rfl
  · rintro ⟨index, hmem, hindex⟩
    obtain ⟨k, -, hdead, hk⟩ := mem_deadAssignments_iff.1 hmem
    rwa [FlowGraph.eq_of_stmtIndex? hindex, ← FlowGraph.eq_of_stmtIndex? hk]
  · obtain ⟨lhs, rhs, -, hstmt, -⟩ := exists_of_isDeadAssignment hdead
    obtain ⟨index, hindex, -⟩ := Option.bind_eq_some_iff.1 hstmt
    exact ⟨index, mem_deadAssignments_iff.2 ⟨n, hn, hdead, hindex⟩, hindex⟩

/-! ## Runs with and without dead assignments -/

/-- Two runs are at the same node with the same heap, and agree on all variables that are live
before that node. -/
structure Agrees (live : FlowResult IdSet) (c d : Snapshot V H) : Prop where
  /-- The same node comes next. -/
  node_eq : d.node = c.node
  /-- The heaps are the same. -/
  heap_eq : d.heap = c.heap
  /-- So are the values of live variables. -/
  env_eq : ∃ facts, live.inFact? c.node = some facts ∧ ∀ v, v ∈ facts → d.env v = c.env v

/-- Related computations go on to related ones. -/
theorem rel_bind {α β : Type} {R : α → α → Prop} {T : β → β → Prop} {x y : Option α}
    {f f' : α → Option β} (hxy : Option.Rel R x y) (hf : ∀ a b, R a b → Option.Rel T (f a) (f' b)) :
    Option.Rel T (x.bind f) (y.bind f') := by
  cases hxy with
  | none => exact .none
  | some h => exact hf _ _ h

variable (hg : g.WellFormed) (hr : Liveness.solve? g order budget = some live)

include hg hr in
/-- Runs agree if they have the same values in what the last turn has found live before
their node. -/
theorem agrees_iff {c d : Snapshot V H} : Agrees live c d ↔ d.node = c.node ∧ d.heap = c.heap ∧
    c.node < g.nodeCount ∧ ∀ v, v ∈ Liveness.before g order budget c.node → d.env v = c.env v := by
  obtain ⟨-, hbefore, -⟩ := Liveness.solution_of_solve? hg hr
  constructor
  · rintro ⟨hnode, hheap, facts, hfacts, henv⟩
    rw [hbefore] at hfacts
    split at hfacts
    · rename_i hn
      obtain rfl := Option.some.inj hfacts
      exact ⟨hnode, hheap, hn, henv⟩
    · cases hfacts
  · rintro ⟨hnode, hheap, hn, henv⟩
    exact ⟨hnode, hheap, _, by rw [hbefore, if_pos hn], henv⟩

include hg hr in
/-- Along the same edge both runs come to agree, if they have the same values in the variables that
are live behind its source. -/
theorem agrees_of_edge {c : Snapshot V H} {env env' : VarId → V} {heap : H} (hn : c.node < g.nodeCount)
    {place : Nat} (henv : ∀ v, v ∈ Liveness.behind g order budget c.node → env' v = env v) :
    Option.Rel (Agrees live)
      ((g.outEdges c.node)[place]?.map fun e => ⟨e.target, env, heap⟩)
      ((g.outEdges c.node)[place]?.map fun e => ⟨e.target, env', heap⟩) := by
  cases hedge : (g.outEdges c.node)[place]? with
  | none => exact .none
  | some e =>
    obtain ⟨he, hsource⟩ := FlowGraph.mem_outEdges.1 (List.mem_of_getElem? hedge)
    refine .some ((agrees_iff hg hr).2 ⟨rfl, rfl, Nat.lt_succ_of_le (hg.target_le e he), fun v hv => ?_⟩)
    exact henv v ((Liveness.mem_behind_iff hg hr hn).2 ⟨e, he, hsource, hv⟩)

include hg hr in
/-- What is live before a node, by what is executed there. -/
theorem mem_before_stmtAt_iff {n : NodeId} (hn : n < g.nodeCount) {v : VarId} :
    v ∈ Liveness.before g order budget n ↔ v ∈ (g.stmtAt n).uses ∨
      (v ∈ Liveness.behind g order budget n ∧ (g.stmtAt n).assigned? ≠ some v) := by
  rw [Liveness.mem_before_iff hg hr hn, FlowGraph.stmtAt]
  cases g.stmt? n with
  | none => simp [Stmt.uses, Stmt.assigned?]
  | some stmt => simp

include hg hr in
/-- A run that executes a dead assignment and one that executes `nop` instead go on to agree. -/
theorem step?_agrees_of_dead (S : Semantics V H) {c d : Snapshot V H} {g' : FlowGraph}
    (hcd : Agrees live c d) (hdead : isDeadAssignment g live c.node = true)
    (hedges : g'.outEdges c.node = g.outEdges c.node) (hnop : g'.stmtAt c.node = .nop) :
    Option.Rel (Agrees live) (S.step? g c) (S.step? g' d) := by
  obtain ⟨hnode, hheap, hn, henv⟩ := (agrees_iff hg hr).1 hcd
  obtain ⟨-, -, hbehind⟩ := Liveness.solution_of_solve? hg hr
  obtain ⟨lhs, rhs, liveOut, hstmt, hliveOut, hlhs, hpure⟩ := exists_of_isDeadAssignment hdead
  rw [hbehind, if_pos hn] at hliveOut
  obtain rfl := Option.some.inj hliveOut
  have hassign : g.stmtAt c.node = .assign lhs rhs := by rw [FlowGraph.stmtAt, hstmt, Option.getD_some]
  obtain ⟨value, hvalue⟩ :=
    S.outcome?_pure lhs rhs (rhs.uses.map c.env) c.heap hpure (List.length_map c.env)
  obtain ⟨unused, hunused⟩ := S.outcome?_nop c.heap
  have hdone : S.outcome? (g.stmtAt c.node) ((g.stmtAt c.node).uses.map c.env) c.heap =
      some ⟨value, c.heap, 0⟩ := by
    rw [hassign]
    exact hvalue
  have hdone' : S.outcome? (g'.stmtAt d.node) ((g'.stmtAt d.node).uses.map d.env) d.heap =
      some ⟨unused, c.heap, 0⟩ := by
    rw [hnode, hnop, hheap]
    exact hunused
  have hstep : S.step? g c = (g.outEdges c.node)[0]?.map fun e =>
      ⟨e.target, (Stmt.assign lhs rhs).written value c.env, c.heap⟩ := by
    rw [Semantics.step?_of_outcome? hdone, hassign]
  have hstep' : S.step? g' d = (g.outEdges c.node)[0]?.map fun e =>
      ⟨e.target, d.env, c.heap⟩ := by
    rw [Semantics.step?_of_outcome? hdone', hnode, hnop, hedges]
    rfl
  rw [hstep, hstep']
  refine agrees_of_edge hg hr hn fun v hv => ?_
  have hne : (Stmt.assign lhs rhs).assigned? ≠ some v := by
    intro hassigned
    obtain rfl := Option.some.inj hassigned
    exact hlhs hv
  rw [Stmt.written_apply, if_neg hne]
  exact henv v ((mem_before_stmtAt_iff hg hr hn).2 (.inr ⟨hv, hassign ▸ hne⟩))

include hg hr in
/-- Runs that execute the same statement go on to agree: they read the same values. -/
theorem step?_agrees_of_same (S : Semantics V H) {c d : Snapshot V H} {g' : FlowGraph}
    (hcd : Agrees live c d) (hedges : g'.outEdges c.node = g.outEdges c.node)
    (hstmt : g'.stmtAt c.node = g.stmtAt c.node) :
    Option.Rel (Agrees live) (S.step? g c) (S.step? g' d) := by
  obtain ⟨hnode, hheap, hn, henv⟩ := (agrees_iff hg hr).1 hcd
  have hread : (g.stmtAt c.node).uses.map d.env = (g.stmtAt c.node).uses.map c.env :=
    List.map_congr_left fun v hv => henv v ((mem_before_stmtAt_iff hg hr hn).2 (.inl hv))
  have hsame : S.outcome? (g'.stmtAt d.node) ((g'.stmtAt d.node).uses.map d.env) d.heap =
      S.outcome? (g.stmtAt c.node) ((g.stmtAt c.node).uses.map c.env) c.heap := by
    rw [hnode, hstmt, hread, hheap]
  cases houtcome : S.outcome? (g.stmtAt c.node) ((g.stmtAt c.node).uses.map c.env) c.heap with
  | none =>
    rw [Semantics.step?_of_failure houtcome, Semantics.step?_of_failure (hsame.trans houtcome)]
    exact .none
  | some outcome =>
    rw [Semantics.step?_of_outcome? houtcome, Semantics.step?_of_outcome? (hsame.trans houtcome),
      hnode, hedges, hstmt]
    refine agrees_of_edge hg hr hn fun v hv => ?_
    rw [Stmt.written_apply, Stmt.written_apply]
    by_cases hassigned : (g.stmtAt c.node).assigned? = some v
    · rw [if_pos hassigned, if_pos hassigned]
    · rw [if_neg hassigned, if_neg hassigned]
      exact henv v ((mem_before_stmtAt_iff hg hr hn).2 (.inr ⟨hv, hassigned⟩))

include hg hr in
/-- Runs with and without the dead assignments of a report agree after each step, and neither of
them goes further than the other. -/
theorem after?_agrees (S : Semantics V H) {c d : Snapshot V H} (hcd : Agrees live c d) (k : Nat) :
    Option.Rel (Agrees live) (S.after? g c k)
      (S.after? (g.blank (detect g constants live).deadAssignments) d k) := by
  induction k with
  | zero => exact .some hcd
  | succ k ih =>
    refine rel_bind ih fun c d hcd => ?_
    obtain ⟨-, -, hn, -⟩ := (agrees_iff hg hr).1 hcd
    have hstmt : (g.blank (detect g constants live).deadAssignments).stmtAt c.node =
        if isDeadAssignment g live c.node = true then .nop else g.stmtAt c.node :=
      stmtAt_blank_deadAssignments hn
    by_cases hdead : isDeadAssignment g live c.node = true
    · rw [if_pos hdead] at hstmt
      exact step?_agrees_of_dead hg hr S hcd hdead rfl hstmt
    · rw [if_neg hdead] at hstmt
      exact step?_agrees_of_same hg hr S hcd rfl hstmt

/-- For every method of an accepted program liveness ends, in either order. If all assignments that
are reported as dead are replaced by `nop`, the edges of the graph stay, and from the same values
and the same heap the runs of both methods pass the same nodes with the same heaps, under every
deterministic meaning of statements. At each node they agree on the variables that are live there. -/
theorem runs_agree_without_deadAssignments (hp : p.Accepted) {m : MethodId} {method : Method}
    (hm : p.method? m = some method) :
    ∃ g, FlowGraph.ofProgram p m = .ok g ∧ ∀ order,
      (∃ budget live, Liveness.solve? g order budget = some live) ∧
      ∀ budget live constants, Liveness.solve? g order budget = some live →
        ∃ g', FlowGraph.ofMethod (method.blank (detect g constants live).deadAssignments) = .ok g' ∧
          g'.edges = g.edges ∧
          ∀ {V H : Type} (S : Semantics V H) (env : VarId → V) (heap : H) (k : Nat),
            Option.Rel (Agrees live) (S.after? g ⟨g.entry, env, heap⟩ k)
              (S.after? g' ⟨g'.entry, env, heap⟩ k) := by
  obtain ⟨g, hof, hg, rfl⟩ := hp.wellFormed.exists_flowGraph hm
  refine ⟨g, hof, fun order => ⟨Liveness.exists_solve? hg order, fun budget live constants hr => ?_⟩⟩
  have hmethod : FlowGraph.ofMethod g.method = .ok g := by
    rwa [FlowGraph.ofProgram, hm] at hof
  refine ⟨_, FlowGraph.ofMethod_blank hmethod fun index h => exists_assign_of_mem_deadAssignments h,
    rfl, fun S env heap k => after?_agrees hg hr S ?_ k⟩
  exact (agrees_iff hg hr).2 ⟨rfl, rfl, Nat.succ_pos _, fun _ _ => rfl⟩

/-! ## A loop that computes what it never reads -/

/-- On each turn of the loop `v1` is computed anew, and it is never read. -/
def wastefulCommands : List Command := [
  .addClass "C" none [], .addMethod 0 "int m(int)" true,
  .addParam 0 "p" .int, .addVar 0 "d" .int,
  .pushStmts 0 [
    .assign 1 (.binary ⟨.add, 0, 0⟩),
    .branch ⟨.lt, 0, 0⟩ 0,
    .ret (some 0)]]

/-- The program of these declarations. -/
def wasteful : Program := (Program.ofCommands? wastefulCommands).get (by decide +kernel)

/-- The graph of its only method. -/
def wastefulGraph : FlowGraph where
  method := wasteful.methods.head (by decide +kernel)
  edges := [⟨0, 1, .entry⟩, ⟨1, 2, .fallThrough⟩, ⟨2, 1, .ifTrue⟩, ⟨2, 3, .ifFalse⟩, ⟨3, 4, .ret⟩]

theorem accepted_wasteful : wasteful.Accepted :=
  Program.accepted_of_ofCommands? (Option.some_get _).symm

theorem ofProgram_wasteful : FlowGraph.ofProgram wasteful 0 = .ok wastefulGraph := by
  rfl

/-- The variables that are live in the method. -/
def wastefulLive : FlowResult IdSet :=
  (Liveness.solve? wastefulGraph .fifo 20).get (by decide +kernel)

/-- The heap counts branches, and the first three of them are taken. Every statement gives the sum
of what it reads. -/
def counting : Semantics Int Nat where
  outcome? stmt values heap := match stmt with
    | .branch _ _ => some ⟨0, heap + 1, if heap < 3 then 0 else 1⟩
    | _ => some ⟨values.sum, heap, 0⟩
  outcome?_nop _ := ⟨0, rfl⟩
  outcome?_pure _ _ values _ _ _ := ⟨values.sum, rfl⟩

/-- The method runs as it does without the assignment. -/
theorem wasteful_runs_agree :
    wasteful.Accepted ∧ wasteful.method? 0 = some wastefulGraph.method ∧
      (detect wastefulGraph .empty wastefulLive).deadAssignments = [0] ∧
      ∀ env heap k, Option.Rel (Agrees wastefulLive)
        (counting.after? wastefulGraph ⟨0, env, heap⟩ k)
        (counting.after? (wastefulGraph.blank [0]) ⟨0, env, heap⟩ k) := by
  have hmethod : wasteful.method? 0 = some wastefulGraph.method :=
    (FlowGraph.wellFormed_of_ofProgram ofProgram_wasteful).2
  have hdead : (detect wastefulGraph .empty wastefulLive).deadAssignments = [0] := by decide +kernel
  have hblank : FlowGraph.ofMethod (wastefulGraph.method.blank [0]) = .ok (wastefulGraph.blank [0]) := by
    rfl
  obtain ⟨g, hof, hruns⟩ := runs_agree_without_deadAssignments accepted_wasteful hmethod
  obtain rfl : wastefulGraph = g := Except.ok.inj (ofProgram_wasteful.symm.trans hof)
  obtain ⟨g', hof', -, hagree⟩ := (hruns .fifo).2 20 wastefulLive .empty (Option.some_get _).symm
  rw [hdead] at hof'
  obtain rfl : wastefulGraph.blank [0] = g' := Except.ok.inj (hblank.symm.trans hof')
  exact ⟨accepted_wasteful, hmethod, hdead, fun env heap k => hagree counting env heap k⟩

end DeadCode

end TacAnalysis
