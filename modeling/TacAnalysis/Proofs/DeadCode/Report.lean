import TacAnalysis.Proofs.DeadCode.Branches
import TacAnalysis.Proofs.DeadCode.Removal

/-!
# What a report says

A report is read off a graph, the facts about constants and the facts about live variables,
wherever these facts come from. The search for reachable statements follows exactly the paths of
feasible edges, so the graph and the facts decide what each list holds; and since the lists are
ascending, halving the list of all dead statements finds what it holds.

Main statements: `bisect_iff` and `detect_exact`.
-/

namespace TacAnalysis

/-! ## Halving an ascending list -/

section Bisect

variable {xs : List Nat} {x base size : Nat}

/-- What is found is in the list. -/
theorem mem_of_bisect (h : bisect xs x base size = true) : x ∈ xs := by
  fun_induction bisect xs x base size with
  | case1 base size hsize => exact List.mem_of_getElem? (eq_of_beq h)
  | case2 base size hsize half middle hleft ih => exact ih h
  | case3 base size hsize half middle hright ih => exact ih h

/-- Two members of an ascending list stand in their order. -/
theorem getElem?_lt_iff (hxs : xs.Pairwise (· < ·)) {i j a b : Nat} (hi : xs[i]? = some a)
    (hj : xs[j]? = some b) : a < b ↔ i < j := by
  obtain ⟨hilt, rfl⟩ := List.getElem?_eq_some_iff.1 hi
  obtain ⟨hjlt, rfl⟩ := List.getElem?_eq_some_iff.1 hj
  constructor
  · intro hlt
    by_contra hle
    rcases Nat.lt_or_eq_of_le (Nat.not_lt.1 hle) with hji | rfl
    · have hgt : xs[j] < xs[i] := List.pairwise_iff_getElem.1 hxs j i hjlt hilt hji
      omega
    · omega
  · exact List.pairwise_iff_getElem.1 hxs i j hilt hjlt

/-- What stands among the elements that are left is found. -/
theorem bisect_of_getElem? (hxs : xs.Pairwise (· < ·)) {k : Nat} (hk : xs[k]? = some x)
    (hbase : base ≤ k) (hlt : k < base + size) (hsize : base + size ≤ xs.length) :
    bisect xs x base size = true := by
  fun_induction bisect xs x base size with
  | case1 base size hone =>
    obtain rfl : k = base := by omega
    exact beq_iff_eq.2 hk
  | case2 base size hone half middle hany ih =>
    -- the middle is above the element, so the element stands before it
    obtain ⟨y, hy, hxy⟩ := (Option.any_eq_true _ _).1 hany
    have hbefore : k < middle := (getElem?_lt_iff hxs hk hy).1 (of_decide_eq_true hxy)
    exact ih hbase (by omega) (by omega)
  | case3 base size hone half middle hany ih =>
    have hmiddle : middle < xs.length := by omega
    have hbehind : middle ≤ k := by
      by_contra hbefore
      have hlt : x < xs[middle] :=
        (getElem?_lt_iff hxs hk (List.getElem?_eq_getElem hmiddle)).2 (Nat.lt_of_not_le hbefore)
      exact hany (by simpa [List.getElem?_eq_getElem hmiddle] using hlt)
    exact ih hbehind (by omega) (by omega)

/-- In an ascending list exactly its members are found. -/
theorem bisect_iff (hxs : xs.Pairwise (· < ·)) : bisect xs x 0 xs.length = true ↔ x ∈ xs := by
  refine ⟨mem_of_bisect, fun hx => ?_⟩
  obtain ⟨k, hk⟩ := List.mem_iff_getElem?.1 hx
  have hlt : k < xs.length := (List.getElem?_eq_some_iff.1 hk).1
  exact bisect_of_getElem? hxs hk (Nat.zero_le k) (by omega) (by omega)

end Bisect

namespace DeadCode

open Relation

variable {m : Method} {g : FlowGraph} {constants : FlowResult ConstFact} {live : FlowResult IdSet}

/-! ## Paths and recorded facts -/

/-- Control can go from a node to another by an edge that is feasible for the fact before the
first. -/
def Continues (g : FlowGraph) (constants : FlowResult ConstFact) (n k : NodeId) : Prop :=
  ∃ e ∈ g.edges, e.source = n ∧ e.target = k ∧ isFeasible g (factBefore constants n) e = true

/-- How the search for reachable statements goes on from a node. -/
def searchNext (g : FlowGraph) (constants : FlowResult ConstFact) (n : NodeId) : List NodeId :=
  (feasibleEdges g constants n).map (·.target)

/-- Of two edges between the same nodes one that is feasible suffices. -/
theorem mem_searchNext {n k : NodeId} : k ∈ searchNext g constants n ↔ Continues g constants n k := by
  simp only [searchNext, feasibleEdges, List.mem_map, List.mem_filter, FlowGraph.mem_outEdges]
  constructor
  · rintro ⟨e, ⟨⟨he, hsource⟩, hfeasible⟩, htarget⟩
    exact ⟨e, he, hsource, htarget, hfeasible⟩
  · rintro ⟨e, he, hsource, htarget, hfeasible⟩
    exact ⟨e, ⟨⟨he, hsource⟩, hfeasible⟩, htarget⟩

/-- The search reaches the ends of the feasible paths. -/
theorem mem_reached_iff (hg : g.WellFormed) {n : NodeId} :
    n ∈ reached g constants ↔ ReflTransGen (Continues g constants) g.entry n := by
  have hleads : Search.Leads (searchNext g constants) = Continues g constants := by
    funext n k
    exact propext mem_searchNext
  rw [← hleads]
  exact mem_reached hg

/-- The search has an empty queue in the end. -/
theorem search_ends (hg : g.WellFormed) : ∃ turns,
    Search.visitWithin? (searchNext g constants) (fun new old => old ++ new) turns [] [g.entry] =
      some (reached g constants) := by
  refine ⟨_, Search.visitWithin?_start Search.arranges_breadthFirst
    (fun _ _ _ hm => feasible_lt hg hm) fun n hn => ?_⟩
  rw [List.mem_singleton.1 hn]
  exact Nat.succ_pos _

/-- The report lists the positions of assignments without effect whose target is recorded as not
live. -/
theorem mem_deadAssignments {index : Nat} :
    index ∈ (detect g constants live).deadAssignments ↔ ∃ lhs rhs liveOut,
      g.method.stmts[index]? = some (.assign lhs rhs) ∧
        live.outFact? (FlowGraph.nodeOf index) = some liveOut ∧ ¬ lhs ∈ liveOut ∧
        rhs.isPure = true := by
  rw [mem_deadAssignments_iff]
  constructor
  · rintro ⟨n, -, hdead, hindex⟩
    obtain ⟨lhs, rhs, liveOut, hstmt, hlive, hlhs, hpure⟩ := exists_of_isDeadAssignment hdead
    rw [FlowGraph.stmt?, hindex, Option.bind_some] at hstmt
    rw [FlowGraph.eq_of_stmtIndex? hindex] at hlive
    exact ⟨lhs, rhs, liveOut, hstmt, hlive, hlhs, hpure⟩
  · rintro ⟨lhs, rhs, liveOut, hstmt, hlive, hlhs, hpure⟩
    have hnode : g.stmt? (FlowGraph.nodeOf index) = some (.assign lhs rhs) :=
      FlowGraph.stmt?_eq_some_iff.2 ⟨index, rfl, hstmt⟩
    refine ⟨_, FlowGraph.nodeOf_lt hstmt, ?_,
      FlowGraph.stmtIndex?_nodeOf (List.getElem?_eq_some_iff.1 hstmt).1⟩
    simp only [isDeadAssignment, hnode, hlive, hpure, decide_eq_true hlhs, Bool.and_self]

/-! ## Exact reports -/

/-- A report says of the method of a graph what the facts about its constants and about its live
variables say. -/
structure Exact (g : FlowGraph) (constants : FlowResult ConstFact) (live : FlowResult IdSet)
    (report : DeadCodeReport) : Prop where
  /-- The report is about the method. -/
  method_eq : report.method = g.method.subsignature
  /-- A statement is unreachable if no feasible path from the entry ends at its node. -/
  unreachable_iff : ∀ index, index ∈ report.unreachable ↔ index < g.method.stmts.length ∧
    ¬ ReflTransGen (Continues g constants) g.entry (FlowGraph.nodeOf index)
  /-- An assignment is dead if it has no effect and its target is recorded as not live behind it. -/
  deadAssignments_iff : ∀ index, index ∈ report.deadAssignments ↔ ∃ lhs rhs liveOut,
    g.method.stmts[index]? = some (.assign lhs rhs) ∧
      live.outFact? (FlowGraph.nodeOf index) = some liveOut ∧ ¬ lhs ∈ liveOut ∧ rhs.isPure = true
  /-- Nothing else is dead. -/
  dead_iff : ∀ index, index ∈ report.dead ↔
    index ∈ report.unreachable ∨ index ∈ report.deadAssignments
  /-- Each list is ascending. -/
  ascending : ∀ list ∈ [report.dead, report.unreachable, report.deadAssignments],
    list.Pairwise (· < ·)

/-- An exact report contains a position if one of the two partitions does. -/
theorem Exact.contains_iff {report : DeadCodeReport} (h : Exact g constants live report)
    {index : Nat} : report.contains index = true ↔
      index ∈ report.unreachable ∨ index ∈ report.deadAssignments := by
  rw [DeadCodeReport.contains, bisect_iff (h.ascending _ (by simp)), h.dead_iff]

/-- There is one exact report. -/
theorem Exact.unique {r s : DeadCodeReport} (hr : Exact g constants live r)
    (hs : Exact g constants live s) : r = s := by
  have hunreachable : r.unreachable = s.unreachable :=
    SortedSet.eq_of_ascending (hr.ascending _ (by simp)) (hs.ascending _ (by simp)) fun index =>
      (hr.unreachable_iff index).trans (hs.unreachable_iff index).symm
  have hassignments : r.deadAssignments = s.deadAssignments :=
    SortedSet.eq_of_ascending (hr.ascending _ (by simp)) (hs.ascending _ (by simp)) fun index =>
      (hr.deadAssignments_iff index).trans (hs.deadAssignments_iff index).symm
  have hdead : r.dead = s.dead := by
    refine SortedSet.eq_of_ascending (hr.ascending _ (by simp)) (hs.ascending _ (by simp))
      fun index => ?_
    rw [hr.dead_iff, hs.dead_iff, hunreachable, hassignments]
  have hmethod : r.method = s.method := hr.method_eq.trans hs.method_eq.symm
  cases r
  cases s
  rw [DeadCodeReport.mk.injEq]
  exact ⟨hmethod, hdead, hunreachable, hassignments⟩

theorem exact_detect (hg : g.WellFormed) : Exact g constants live (detect g constants live) where
  method_eq := rfl
  unreachable_iff index := by
    rw [← mem_reached_iff hg]
    exact mem_unreachable
  deadAssignments_iff _ := mem_deadAssignments
  dead_iff _ := SortedSet.mem_union
  ascending list hlist := by
    rcases List.mem_cons.1 hlist with rfl | hlist
    · exact SortedSet.ascending _
    · rcases List.mem_cons.1 hlist with rfl | hlist
      · exact SortedSet.ascending _
      · rw [List.mem_singleton.1 hlist]
        exact SortedSet.ascending _

/-- On the graph of any method, whatever the facts about constants and about live variables, the
search ends, what is reported is the one exact report, and it contains the positions of both
partitions and no other. -/
theorem detect_exact (h : FlowGraph.ofMethod m = .ok g) (constants : FlowResult ConstFact)
    (live : FlowResult IdSet) :
    (∃ turns, Search.visitWithin? (searchNext g constants) (fun new old => old ++ new) turns []
        [g.entry] = some (reached g constants)) ∧
      (∀ report, report = detect g constants live ↔ Exact g constants live report) ∧
      ∀ index, (detect g constants live).contains index = true ↔
        index ∈ (detect g constants live).unreachable ∨
          index ∈ (detect g constants live).deadAssignments := by
  have hg : g.WellFormed := FlowGraph.wellFormed_of_ofMethod h
  have hexact : Exact g constants live (detect g constants live) := exact_detect hg
  refine ⟨search_ends hg, fun report => ⟨?_, fun hreport => hreport.unique hexact⟩, fun index => ?_⟩
  · rintro rfl
    exact hexact
  · exact hexact.contains_iff

/-! ## An assignment that is dead and unreachable -/

/-- The condition is known, and both branches assign what is never read. -/
def doubledCommands : List Command := [
  .addClass "C" none [], .addMethod 0 "void m()" true,
  .addVar 0 "zero" .int, .addVar 0 "x" .int, .addVar 0 "y" .int,
  .pushStmts 0 [
    .assign 0 (.intLiteral 0),
    .branch ⟨.ne, 0, 0⟩ 4,
    .assign 1 (.var 0),
    .ret none,
    .assign 2 (.var 0),
    .ret none]]

/-- The program of these declarations. -/
def doubled : Program := (Program.ofCommands? doubledCommands).get (by decide +kernel)

/-- The graph of its only method. -/
def doubledGraph : FlowGraph where
  method := doubled.methods.head (by decide +kernel)
  edges := [⟨0, 1, .entry⟩, ⟨1, 2, .fallThrough⟩, ⟨2, 5, .ifTrue⟩, ⟨2, 3, .ifFalse⟩,
    ⟨3, 4, .fallThrough⟩, ⟨4, 7, .ret⟩, ⟨5, 6, .fallThrough⟩, ⟨6, 7, .ret⟩]

/-- What is found about its constants. -/
def doubledConstants : FlowResult ConstFact :=
  (Constants.solve? doubled doubledGraph .fifo 40).get (by decide +kernel)

/-- What is found about its live variables. -/
def doubledLive : FlowResult IdSet :=
  (Liveness.solve? doubledGraph .fifo 40).get (by decide +kernel)

/-- The unreachable assignment is reported once. -/
theorem doubled_report :
    FlowGraph.ofMethod doubledGraph.method = .ok doubledGraph ∧
      Exact doubledGraph doubledConstants doubledLive ⟨"void m()", [2, 4, 5], [4, 5], [2, 4]⟩ := by
  have hof : FlowGraph.ofMethod doubledGraph.method = .ok doubledGraph := by
    rfl
  have hreport : ⟨"void m()", [2, 4, 5], [4, 5], [2, 4]⟩ =
      detect doubledGraph doubledConstants doubledLive := by
    decide +kernel
  obtain ⟨-, hexact, -⟩ := detect_exact hof doubledConstants doubledLive
  exact ⟨hof, (hexact _).1 hreport⟩

end DeadCode

end TacAnalysis
