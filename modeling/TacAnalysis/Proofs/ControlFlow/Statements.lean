import TacAnalysis.Proofs.ControlFlow.WellFormed

/-!
# The edges of one statement

The nodes between entry and exit are those of the statements, and what leaves such a node is
exactly what the kind of its statement prescribes, in that order.

Main statements: `outEdges_nodeOf` and `kinds_outEdges`.
-/

namespace TacAnalysis.FlowGraph

variable {g : FlowGraph} {m : Method}

/-- The node of a statement is the one behind its position. -/
theorem eq_of_stmtIndex? {n : NodeId} {index : Nat} (h : g.stmtIndex? n = some index) :
    n = nodeOf index := by
  unfold stmtIndex? kind entry at h
  by_cases hentry : n = 0
  · simp [hentry] at h
  · by_cases hexit : n = g.exit
    · rw [if_neg hentry, if_pos hexit] at h
      cases h
    · rw [if_neg hentry, if_neg hexit] at h
      have hindex : n - 1 = index := Option.some.inj h
      rw [← hindex]
      exact (Nat.succ_pred_eq_of_ne_zero hentry).symm

/-- The positions of the body have nodes. -/
theorem stmtIndex?_nodeOf {index : Nat} (h : index < g.method.stmts.length) :
    g.stmtIndex? (nodeOf index) = some index := by
  have hentry : nodeOf index ≠ g.entry := Nat.succ_ne_zero index
  have hexit : nodeOf index ≠ g.exit := fun heq => Nat.ne_of_lt h (Nat.succ.inj heq)
  rw [stmtIndex?, kind, if_neg hentry, if_neg hexit]
  rfl

/-- Only positions of the body have nodes. -/
theorem lt_of_stmtIndex? {n : NodeId} {index : Nat} (hn : n < g.nodeCount)
    (h : g.stmtIndex? n = some index) : index < g.method.stmts.length := by
  obtain rfl := eq_of_stmtIndex? h
  have hle : index ≤ g.method.stmts.length := Nat.le_of_lt_succ (Nat.lt_of_succ_lt_succ hn)
  have hne : index ≠ g.method.stmts.length := by
    rintro rfl
    simp [stmtIndex?, kind, nodeOf, exit, entry] at h
  omega

/-- A node has the statement at its position, if it has one. -/
theorem stmt?_eq_some_iff {n : NodeId} {stmt : Stmt} :
    g.stmt? n = some stmt ↔ ∃ index, n = nodeOf index ∧ g.method.stmts[index]? = some stmt := by
  constructor
  · intro h
    obtain ⟨index, hindex, hstmt⟩ := Option.bind_eq_some_iff.1 h
    exact ⟨index, eq_of_stmtIndex? hindex, hstmt⟩
  · rintro ⟨index, rfl, hstmt⟩
    rw [stmt?, stmtIndex?_nodeOf (List.getElem?_eq_some_iff.1 hstmt).1, Option.bind_some, hstmt]

/-- The nodes of statements are nodes. -/
theorem nodeOf_lt {index : Nat} {stmt : Stmt} (h : g.method.stmts[index]? = some stmt) :
    nodeOf index < g.nodeCount :=
  Nat.succ_lt_succ (Nat.lt_succ_of_lt (List.getElem?_eq_some_iff.1 h).1)

/-- If the elements of each list carry its place, the list is what carries that place. -/
theorem filter_flatten {α : Type} {place : α → Nat} {lists : List (List α)} {start : Nat}
    (h : ∀ i list, lists[i]? = some list → ∀ a ∈ list, place a = start + i) {i : Nat}
    {list : List α} (hi : lists[i]? = some list) :
    lists.flatten.filter (place · = start + i) = list := by
  induction lists generalizing start i with
  | nil => simp at hi
  | cons first rest ih =>
    have hfirst : ∀ a ∈ first, place a = start := h 0 first rfl
    have hrest : ∀ i list, rest[i]? = some list → ∀ a ∈ list, place a = start + 1 + i := by
      intro i list hlist a ha
      rw [h (i + 1) list (by simpa using hlist) a ha]
      omega
    rw [List.flatten_cons, List.filter_append]
    cases i with
    | zero =>
      obtain rfl : first = list := by simpa using hi
      have hlater : rest.flatten.filter (place · = start + 0) = [] := by
        rw [List.filter_eq_nil_iff]
        intro a ha
        obtain ⟨list, hlist, ha⟩ := List.mem_flatten.1 ha
        obtain ⟨i, hi⟩ := List.mem_iff_getElem?.1 hlist
        have := hrest i list hi a ha
        simp only [decide_eq_true_eq]
        omega
      have hall : first.filter (place · = start + 0) = first :=
        List.filter_eq_self.2 fun a ha => decide_eq_true (hfirst a ha)
      rw [hall, hlater, List.append_nil]
    | succ i =>
      have hnone : first.filter (place · = start + (i + 1)) = [] := by
        rw [List.filter_eq_nil_iff]
        intro a ha
        have := hfirst a ha
        simp only [decide_eq_true_eq]
        omega
      have hshift : start + (i + 1) = start + 1 + i := by omega
      rw [hnone, List.nil_append, hshift]
      exact ih hrest (by simpa using hi)

/-- What leaves the node of a statement is what its kind prescribes. -/
theorem outEdges_nodeOf (h : ofMethod m = .ok g) {index : Nat} {stmt : Stmt}
    (hstmt : m.stmts[index]? = some stmt) {edges : List FlowEdge}
    (hedges : stmtEdges m stmt index = .ok edges) : g.outEdges (nodeOf index) = edges := by
  simp only [ofMethod, bind_eq_ok_iff, pure, Except.pure, Except.ok.injEq] at h
  obtain ⟨lists, hlists, rfl⟩ := h
  have hsources : ∀ i list, lists[i]? = some list → ∀ e ∈ list, e.source = 1 + i := by
    intro i list hlist e he
    obtain ⟨⟨stmt, j⟩, hstmt, hok⟩ := (getElem?_of_mapM_eq_ok hlists i list).1 hlist
    obtain rfl : i = j := by
      simp only [List.getElem?_zipIdx, Nat.zero_add, Option.map_eq_some_iff, Prod.mk.injEq] at hstmt
      obtain ⟨-, -, -, hj⟩ := hstmt
      exact hj
    rw [(of_mem_stmtEdges hok he).1, Nat.add_comm]
  have hlist : lists[index]? = some edges :=
    (getElem?_of_mapM_eq_ok hlists index edges).2 ⟨(stmt, index), by simp [hstmt], hedges⟩
  have hentry : (entryEdge m).source ≠ nodeOf index := by
    simp [entryEdge, nodeOf]
  rw [outEdges, List.filter_cons_of_neg (by simpa using hentry), nodeOf, Nat.add_comm index 1]
  exact filter_flatten hsources hlist

/-- The kinds of the edges that leave a statement, in order. -/
def exitKinds : Stmt → List EdgeKind
  | .goto _ => [.goto]
  | .branch _ _ => [.ifTrue, .ifFalse]
  | .switch _ cases _ => cases.map (.switchCase ·.1) ++ [.switchDefault]
  | .ret _ => [.ret]
  | _ => [.fallThrough]

/-- Prescribed edges have the kinds that the statement prescribes. -/
theorem kinds_prescribed {stmt : Stmt} {index : Nat} :
    (g.prescribed index stmt).map (·.kind) = exitKinds stmt := by
  cases stmt with
  | switch selector cases default =>
    rw [prescribed, List.map_append, List.map_map]
    rfl
  | _ => rfl

/-- In every graph the edges that leave a statement are the prescribed ones. -/
theorem outEdges_eq_prescribed (h : ofMethod m = .ok g) {index : Nat} {stmt : Stmt}
    (hstmt : m.stmts[index]? = some stmt) : g.outEdges (nodeOf index) = g.prescribed index stmt := by
  obtain ⟨lists, hlists, -⟩ := bind_eq_ok_iff.1 h
  obtain ⟨edges, hedges⟩ :=
    exists_of_mapM_eq_ok hlists (x := (stmt, index)) (List.mem_zipIdx_iff_getElem?.2 hstmt)
  rw [outEdges_nodeOf h hstmt hedges]
  exact (eq_prescribed_of_stmtEdges (method_ofMethod h) hedges).2

/-- The edges that leave a node have the kinds that its statement prescribes. -/
theorem kinds_outEdges (h : ofMethod m = .ok g) {n : NodeId} {stmt : Stmt}
    (hstmt : g.stmt? n = some stmt) : (g.outEdges n).map (·.kind) = exitKinds stmt := by
  obtain ⟨index, rfl, hindex⟩ := stmt?_eq_some_iff.1 hstmt
  rw [method_ofMethod h] at hindex
  rw [outEdges_eq_prescribed h hindex, kinds_prescribed]

/-- Control goes on from a call to the next statement, or to the exit behind the last one. -/
theorem successors_of_invoke (h : ofMethod m = .ok g) {index : Nat} {call : Invoke}
    (hstmt : m.stmts[index]? = some (.invoke call)) :
    g.successors (nodeOf index) = [nextNode m.stmts.length index] := by
  rw [successors, outEdges_nodeOf h hstmt rfl]
  rfl

end TacAnalysis.FlowGraph
