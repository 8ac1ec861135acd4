import TacAnalysis.ControlFlow.Build
import TacAnalysis.Proofs.Checks

/-!
# The graph of a method body

Every edge leads from the entry or a statement to a statement or the exit. So control
never comes back to the entry and never leaves the exit, and the edges that leave a
statement are the ones that its kind prescribes. All jumps are checked on the way, in the
order of the program, and the first one that leaves the body is the only reason why a
method has no graph.

Main statements: `wellFormed_of_ofMethod`, `failure?_ofMethod`, and `exists_ofMethod`, a
body whose jumps stay inside has a graph.
-/

namespace TacAnalysis.FlowGraph

/-- Edges stay among the nodes, no edge enters the entry and no edge leaves the exit. -/
structure WellFormed (g : FlowGraph) : Prop where
  /-- Control never leaves the exit. -/
  source_lt : ∀ e ∈ g.edges, e.source < g.exit
  /-- Control never comes back to the entry. -/
  target_pos : ∀ e ∈ g.edges, g.entry < e.target
  /-- Control stays among the nodes. -/
  target_le : ∀ e ∈ g.edges, e.target ≤ g.exit

section Prescribed

variable (g : FlowGraph)

/-- The node of the statement at a position, or the exit if the body ends before it. -/
def nodeFrom (index : Nat) : NodeId :=
  if index < g.method.stmts.length then nodeOf index else g.exit

/-- The edges that a statement prescribes at a position: a jump leads to its target, a return to
the exit, and control goes on behind all other statements and behind a condition that fails. -/
def prescribed (index : Nat) : Stmt → List FlowEdge
  | .goto t => [⟨nodeOf index, nodeOf t, .goto⟩]
  | .branch _ t =>
    [⟨nodeOf index, nodeOf t, .ifTrue⟩, ⟨nodeOf index, g.nodeFrom (index + 1), .ifFalse⟩]
  | .switch _ cases default =>
    cases.map (fun c => ⟨nodeOf index, nodeOf c.2, .switchCase c.1⟩) ++
      [⟨nodeOf index, nodeOf default, .switchDefault⟩]
  | .ret _ => [⟨nodeOf index, g.exit, .ret⟩]
  | _ => [⟨nodeOf index, g.nodeFrom (index + 1), .fallThrough⟩]

end Prescribed

variable {m : Method} {g : FlowGraph}

/-! ## The edges of a statement -/

/-- The node from which control goes on is one of a statement or the exit. -/
theorem nodeFrom_le (index : Nat) : 0 < g.nodeFrom index ∧ g.nodeFrom index ≤ g.exit := by
  unfold nodeFrom
  split
  · exact ⟨Nat.succ_pos _, Nat.succ_le_succ (Nat.le_of_lt ‹_›)⟩
  · exact ⟨Nat.succ_pos _, Nat.le_refl _⟩

/-- Prescribed edges leave the statement, and lead where it may jump, to the exit or onwards. -/
theorem of_mem_prescribed {stmt : Stmt} {index : Nat} {e : FlowEdge}
    (he : e ∈ g.prescribed index stmt) : e.source = nodeOf index ∧
      ((∃ t ∈ stmt.jumpTargets, e.target = nodeOf t) ∨ e.target = g.exit ∨
        e.target = g.nodeFrom (index + 1)) := by
  cases stmt with
  | switch selector cases default =>
    rcases List.mem_append.1 he with he | he
    · obtain ⟨c, hc, rfl⟩ := List.mem_map.1 he
      exact ⟨rfl, .inl ⟨c.2, List.mem_append_left _ (List.mem_map_of_mem hc), rfl⟩⟩
    · obtain rfl := List.mem_singleton.1 he
      exact ⟨rfl, .inl ⟨default, List.mem_append_right _ List.mem_cons_self, rfl⟩⟩
  | branch condition t =>
    rcases List.mem_cons.1 he with rfl | he
    · exact ⟨rfl, .inl ⟨t, List.mem_cons_self, rfl⟩⟩
    · obtain rfl := List.mem_singleton.1 he
      exact ⟨rfl, .inr (.inr rfl)⟩
  | goto t =>
    obtain rfl := List.mem_singleton.1 he
    exact ⟨rfl, .inl ⟨t, List.mem_cons_self, rfl⟩⟩
  | ret value =>
    obtain rfl := List.mem_singleton.1 he
    exact ⟨rfl, .inr (.inl rfl)⟩
  | _ =>
    obtain rfl := List.mem_singleton.1 he
    exact ⟨rfl, .inr (.inr rfl)⟩

/-- A jump target that is accepted is the node of a statement. -/
theorem target_eq_ok_iff {index : Nat} {n : NodeId} :
    target m index = .ok n ↔ index < m.stmts.length ∧ n = index + 1 := by
  unfold target
  split <;> simp [*, eq_comm]

/-- A statement whose edges are made has the ones that it prescribes, and its jumps stay inside
the body. -/
theorem eq_prescribed_of_stmtEdges (hg : g.method = m) {stmt : Stmt} {index : Nat}
    {edges : List FlowEdge} (h : stmtEdges m stmt index = .ok edges) :
    (∀ t ∈ stmt.jumpTargets, t < m.stmts.length) ∧ edges = g.prescribed index stmt := by
  subst hg
  -- every kind of statement but a switch lists its edges one by one
  cases stmt with
  | switch selector cases default =>
    simp only [stmtEdges, bind_eq_ok_iff, target_eq_ok_iff, pure, Except.pure,
      Except.ok.injEq] at h
    obtain ⟨caseEdges, hcases, n, ⟨hdefault, rfl⟩, rfl⟩ := h
    have hcase : ∀ (c : Int32 × Nat) e, (target g.method c.2 >>= fun n =>
        .ok ⟨index + 1, n, .switchCase c.1⟩ : Except ProgramError FlowEdge) = .ok e →
        c.2 < g.method.stmts.length ∧ e = ⟨nodeOf index, nodeOf c.2, .switchCase c.1⟩ := by
      intro c e he
      obtain ⟨n, hn, he⟩ := bind_eq_ok_iff.1 he
      obtain ⟨hlt, rfl⟩ := target_eq_ok_iff.1 hn
      exact ⟨hlt, (Except.ok.inj he).symm⟩
    constructor
    · intro t ht
      rcases List.mem_append.1 ht with ht | ht
      · obtain ⟨c, hc, rfl⟩ := List.mem_map.1 ht
        obtain ⟨e, he⟩ := exists_of_mapM_eq_ok hcases hc
        exact (hcase c e he).1
      · obtain rfl := List.mem_singleton.1 ht
        exact hdefault
    · have hmap : caseEdges.map id =
          cases.map fun c => ⟨nodeOf index, nodeOf c.2, .switchCase c.1⟩ :=
        map_eq_map_of_mapM_eq_ok hcases fun c e hc => (hcase c e hc).2
      rw [← List.map_id caseEdges, hmap]
      rfl
  | branch condition t =>
    obtain ⟨n, hn, h⟩ := bind_eq_ok_iff.1 h
    obtain ⟨hlt, rfl⟩ := target_eq_ok_iff.1 hn
    exact ⟨by simpa [Stmt.jumpTargets] using hlt, (Except.ok.inj h).symm⟩
  | goto t =>
    obtain ⟨n, hn, h⟩ := bind_eq_ok_iff.1 h
    obtain ⟨hlt, rfl⟩ := target_eq_ok_iff.1 hn
    exact ⟨by simpa [Stmt.jumpTargets] using hlt, (Except.ok.inj h).symm⟩
  | _ => exact ⟨by simp [Stmt.jumpTargets], (Except.ok.inj h).symm⟩

/-- The edges of a statement leave its node and lead to a statement or the exit. -/
theorem of_mem_stmtEdges {stmt : Stmt} {index : Nat} {edges : List FlowEdge}
    (h : stmtEdges m stmt index = .ok edges) {e : FlowEdge} (he : e ∈ edges) :
    e.source = index + 1 ∧ 0 < e.target ∧ e.target ≤ m.stmts.length + 1 := by
  obtain ⟨hjumps, rfl⟩ := eq_prescribed_of_stmtEdges (g := ⟨m, []⟩) rfl h
  obtain ⟨hsource, ⟨t, ht, htarget⟩ | htarget | htarget⟩ := of_mem_prescribed he
  · have hle : nodeOf t ≤ m.stmts.length + 1 := Nat.succ_le_succ (Nat.le_of_lt (hjumps t ht))
    exact ⟨hsource, htarget ▸ Nat.succ_pos t, htarget ▸ hle⟩
  · exact ⟨hsource, htarget ▸ Nat.succ_pos _, Nat.le_of_eq htarget⟩
  · exact ⟨hsource, htarget ▸ nodeFrom_le _⟩

/-! ## The edges of a graph -/

/-- A graph has the edge from the entry and the edges of its statements. -/
theorem mem_edges_ofMethod (h : ofMethod m = .ok g) {e : FlowEdge} :
    e ∈ g.edges ↔ e = entryEdge m ∨
      ∃ index stmt edges, m.stmts[index]? = some stmt ∧ stmtEdges m stmt index = .ok edges ∧
        e ∈ edges := by
  simp only [ofMethod, bind_eq_ok_iff, pure, Except.pure, Except.ok.injEq] at h
  obtain ⟨lists, hlists, rfl⟩ := h
  rw [List.mem_cons, List.mem_flatten]
  refine or_congr Iff.rfl ⟨?_, ?_⟩
  · rintro ⟨edges, hedges, he⟩
    obtain ⟨⟨stmt, index⟩, hstmt, hok⟩ := (mem_of_mapM_eq_ok hlists).1 hedges
    exact ⟨index, stmt, edges, List.mem_zipIdx_iff_getElem?.1 hstmt, hok, he⟩
  · rintro ⟨index, stmt, edges, hstmt, hok, he⟩
    exact ⟨edges, (mem_of_mapM_eq_ok hlists).2
      ⟨(stmt, index), List.mem_zipIdx_iff_getElem?.2 hstmt, hok⟩, he⟩

/-- The edges of a graph are the edge from the entry and the prescribed ones, in order. -/
theorem edges_ofMethod (h : ofMethod m = .ok g) :
    g.edges = entryEdge m :: m.stmts.zipIdx.flatMap fun e => g.prescribed e.2 e.1 := by
  simp only [ofMethod, bind_eq_ok_iff, pure, Except.pure, Except.ok.injEq] at h
  obtain ⟨lists, hlists, rfl⟩ := h
  have hmap : lists.map id = m.stmts.zipIdx.map fun e => prescribed ⟨m, []⟩ e.2 e.1 :=
    map_eq_map_of_mapM_eq_ok hlists fun _ _ h => (eq_prescribed_of_stmtEdges rfl h).2
  rw [List.map_id] at hmap
  rw [hmap]
  rfl

/-- A graph knows the method that it was built for. -/
theorem method_ofMethod (h : ofMethod m = .ok g) : g.method = m := by
  simp only [ofMethod, bind_eq_ok_iff, pure, Except.pure, Except.ok.injEq] at h
  obtain ⟨_, _, rfl⟩ := h
  rfl

/-- The graph of a method body is well formed. -/
theorem wellFormed_of_ofMethod (h : ofMethod m = .ok g) : g.WellFormed := by
  have hmethod := method_ofMethod h
  have hedge : ∀ e ∈ g.edges, e.source < m.stmts.length + 1 ∧ 0 < e.target ∧
      e.target ≤ m.stmts.length + 1 := by
    intro e he
    rcases (mem_edges_ofMethod h).1 he with rfl | ⟨index, stmt, edges, hstmt, hok, he⟩
    · simp only [entryEdge]
      split <;> simp
    · have hlt := (List.getElem?_eq_some_iff.1 hstmt).1
      obtain ⟨hsource, htarget⟩ := of_mem_stmtEdges hok he
      exact ⟨by rw [hsource]; exact Nat.succ_lt_succ hlt, htarget⟩
  have hexit : g.exit = m.stmts.length + 1 := by rw [FlowGraph.exit, hmethod]
  exact ⟨fun e he => hexit ▸ (hedge e he).1, fun e he => (hedge e he).2.1,
    fun e he => hexit ▸ (hedge e he).2.2⟩

/-! ## Jumps that leave the body -/

/-- The report of a jump that leaves the body. -/
def leaves (m : Method) (t : Nat) : ProgramError := .jumpOutOfRange m.subsignature t m.stmts.length

/-- A jump fails if its target is behind the body. -/
theorem failure?_target (t : Nat) :
    failure? (target m t) = if m.stmts.length ≤ t then some (leaves m t) else none := by
  unfold target leaves
  by_cases ht : t < m.stmts.length
  · rw [if_pos ht, if_neg (Nat.not_le.2 ht)]
    rfl
  · rw [if_neg ht, if_pos (Nat.not_lt.1 ht)]
    rfl

/-- A list of jumps fails as the first one that leaves the body. -/
theorem findSome?_failure?_target (targets : List Nat) :
    (targets.findSome? fun t => failure? (target m t)) =
      (targets.find? (m.stmts.length ≤ ·)).map (leaves m) := by
  induction targets with
  | nil => rfl
  | cons t targets ih =>
    rw [List.findSome?_cons, failure?_target]
    by_cases ht : m.stmts.length ≤ t
    · rw [if_pos ht, List.find?_cons_of_pos (by simpa using ht)]
      rfl
    · rw [if_neg ht, List.find?_cons_of_neg (by simpa using ht)]
      exact ih

/-- A statement fails as the first of its jumps that leaves the body. -/
theorem failure?_stmtEdges (stmt : Stmt) (index : Nat) :
    failure? (stmtEdges m stmt index) =
      (stmt.jumpTargets.find? (m.stmts.length ≤ ·)).map (leaves m) := by
  rw [← findSome?_failure?_target]
  cases stmt with
  | switch selector cases default =>
    have hcases : ∀ caseEdges : List FlowEdge,
        failure? (do return caseEdges ++ [⟨index + 1, ← target m default, .switchDefault⟩]) =
          failure? (target m default) := fun _ => failure?_bind_pure
    rw [stmtEdges, failure?_bind fun caseEdges _ => hcases caseEdges, failure?_mapM,
      Stmt.jumpTargets, List.findSome?_append, List.findSome?_map]
    simp only [failure?_bind_pure, List.findSome?_cons, List.findSome?_nil, Function.comp_def]
    cases failure? (target m default) <;> rfl
  | branch condition t =>
    rw [stmtEdges, failure?_bind_pure, Stmt.jumpTargets, List.findSome?_cons, List.findSome?_nil]
    cases failure? (target m t) <;> rfl
  | goto t =>
    rw [stmtEdges, failure?_bind_pure, Stmt.jumpTargets, List.findSome?_cons, List.findSome?_nil]
    cases failure? (target m t) <;> rfl
  | _ => rfl

/-- The jump targets of a body in the order of the program. -/
def jumpTargets (m : Method) : List Nat := m.stmts.flatMap Stmt.jumpTargets

/-- A method fails as the first of its jumps that leaves the body. -/
theorem failure?_ofMethod (m : Method) :
    failure? (ofMethod m) = ((jumpTargets m).find? (m.stmts.length ≤ ·)).map (leaves m) := by
  let first (stmt : Stmt) : Option Nat := stmt.jumpTargets.find? (m.stmts.length ≤ ·)
  calc failure? (ofMethod m)
      = m.stmts.zipIdx.findSome? ((Option.map (leaves m) ∘ first) ∘ Prod.fst) := by
        rw [ofMethod, failure?_bind_pure, failure?_mapM]
        simp only [failure?_stmtEdges]
        rfl
    _ = (m.stmts.zipIdx.map Prod.fst).findSome? (Option.map (leaves m) ∘ first) :=
        List.findSome?_map.symm
    _ = (m.stmts.findSome? first).map (leaves m) := by
        rw [List.zipIdx_map_fst, List.map_findSome?]
    _ = ((jumpTargets m).find? (m.stmts.length ≤ ·)).map (leaves m) := by
        rw [jumpTargets, List.find?_flatMap]

/-- A body whose jumps stay inside has a graph. -/
theorem exists_ofMethod
    (h : ∀ stmt ∈ m.stmts, ∀ t ∈ stmt.jumpTargets, t < m.stmts.length) :
    ∃ g, ofMethod m = .ok g := by
  have hnone : (jumpTargets m).find? (m.stmts.length ≤ ·) = none := by
    rw [List.find?_eq_none]
    intro t ht
    obtain ⟨stmt, hstmt, ht⟩ := List.mem_flatMap.1 ht
    simpa using h stmt hstmt t ht
  rw [← failure?_eq_none_iff, failure?_ofMethod, hnone]
  rfl

end TacAnalysis.FlowGraph
