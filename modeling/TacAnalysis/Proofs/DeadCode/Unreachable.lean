import TacAnalysis.DeadCode
import TacAnalysis.Proofs.Constants.Soundness
import TacAnalysis.Proofs.ControlFlow.Statements
import TacAnalysis.Proofs.Program.Accepted
import TacAnalysis.Proofs.Search

/-!
# Statements that no run reaches

A run takes a branch by the values that it knows, the search for reachable statements by the
values of the facts. As long as the facts cover the stores of a run, every edge that it takes
is feasible, so the search reaches all that it reaches. A run comes to a statement that is
called unreachable only by an edge that is called infeasible, and it takes such an edge only
behind a statement that has lost an operand.

Main statements: `unreachable_avoided_iff` and `not_unreachable_avoided_misjudged`.
-/

namespace TacAnalysis.DeadCode

open Relation Constants

variable {p : Program} {g : FlowGraph}

/-! ## Feasible edges -/

/-- A value that is allowed is admitted by every value above it. -/
theorem admits_of_le {v : Value} {c : Int32} {allowed : Int32 → Bool} (hv : .constant c ≤ v)
    (hc : allowed c = true) : admits v allowed = true := by
  rcases Value.le_iff.1 hv with h | rfl | rfl
  · cases h
  · exact hc
  · rfl

/-- What is undefined or not constant admits everything. -/
theorem admits_of_ne_constant {v : Value} (hv : ∀ c, v ≠ .constant c) (allowed : Int32 → Bool) :
    admits v allowed = true := by
  cases v with
  | constant c => exact absurd rfl (hv c)
  | undefined | nac => rfl

/-- A constant result is what a machine computes from constant operands. -/
theorem exists_of_foldValues_eq_constant {op : BinaryOp} {a b : Value} {c : Int32}
    (h : foldValues op a b = .constant c) :
    ∃ x y, a = .constant x ∧ b = .constant y ∧ op.result? x y = some c := by
  cases a with
  | undefined => cases b <;> cases h
  | nac =>
    cases b with
    | undefined | nac => cases h
    | constant y =>
      simp only [foldValues] at h
      split at h <;> cases h
  | constant x =>
    cases b with
    | undefined | nac => cases h
    | constant y =>
      have hfold : fold op x y = .constant c := h
      rw [fold_eq] at hfold
      cases hresult : op.result? x y with
      | none =>
        rw [hresult] at hfold
        cases hfold
      | some d =>
        rw [hresult] at hfold
        exact ⟨x, y, rfl, rfl, hresult.trans (congrArg some (Value.constant.inj hfold))⟩

/-- Without a value for an operand there is no constant result. -/
theorem foldValues_ne_constant {op : BinaryOp} {a b : Value} (h : a = .undefined ∨ b = .undefined)
    (c : Int32) : foldValues op a b ≠ .constant c := by
  intro hfold
  obtain ⟨x, y, rfl, rfl, -⟩ := exists_of_foldValues_eq_constant hfold
  rcases h with h | h <;> cases h

/-- A comparison gives a truth value. -/
theorem exists_truth_of_isComparison {op : BinaryOp} (hop : op.isComparison = true) {a b c : Int32}
    (hresult : op.result? a b = some c) : ∃ t, c = truth t := by
  cases op <;> cases hop <;> exact ⟨_, (Option.some.inj hresult).symm⟩

/-- The values of a run decide a comparison no other way than the fact that covers them. -/
theorem admits_of_decides {f : ConstFact} {s : Store} (hf : Tracked p f) (hs : Covers p f s)
    {condition : BinaryExp} (hop : condition.op.isComparison = true) {taken : Bool}
    (h : Decides p s condition taken) :
    admits (evaluateBinary condition f) (· = truth taken) = true := by
  by_cases hint : p.holdsInt condition.lhs = true ∧ p.holdsInt condition.rhs = true
  · obtain ⟨a, b, c, ha, hb, hresult, htaken⟩ := h hint.1 hint.2
    obtain ⟨t, rfl⟩ := exists_truth_of_isComparison hop hresult
    have ht : t = taken := by
      cases t <;> cases taken <;> simp_all [truth]
    refine admits_of_le (constant_le_foldValues (hs _ a hint.1 ha) (hs _ b hint.2 hb) hresult) ?_
    simp [ht]
  · refine admits_of_ne_constant (foldValues_ne_constant ?_) _
    have huntracked : ∀ v, p.holdsInt v ≠ true → f.get v = .undefined := fun v hv =>
      Decidable.byContradiction fun hne => hv (hf v hne)
    rcases not_and_or.1 hint with hlhs | hrhs
    · exact .inl (huntracked _ hlhs)
    · exact .inr (huntracked _ hrhs)

/-- The value of a run selects no case that the fact that covers it rules out. -/
theorem admits_of_selected {f : ConstFact} {s : Store} (hf : Tracked p f) (hs : Covers p f s)
    {selector : VarId} {allowed : Int32 → Bool}
    (h : p.holdsInt selector = true → ∃ c, s selector = some c ∧ allowed c = true) :
    admits (f.get selector) allowed = true := by
  by_cases hint : p.holdsInt selector = true
  · obtain ⟨c, hc, hallowed⟩ := h hint
    exact admits_of_le (hs selector c hint hc) hallowed
  · have hundefined : f.get selector = .undefined :=
      Decidable.byContradiction fun hne => hint (hf selector hne)
    rw [hundefined]
    rfl

/-- The conditions of branches are comparisons. -/
def ComparesOnly (m : Method) : Prop :=
  ∀ condition target, .branch condition target ∈ m.stmts → condition.op.isComparison = true

/-- An edge that a run can take is feasible for a fact that covers its store. -/
theorem isFeasible_of_selects {f : ConstFact} {s : Store} (hf : Tracked p f) (hs : Covers p f s)
    (hcompares : ComparesOnly g.method) {e : FlowEdge} (h : Selects p g s e) :
    isFeasible g f e = true := by
  unfold isFeasible
  split
  · rename_i condition target hstmt hkind
    rw [Selects, hstmt, hkind] at h
    exact admits_of_decides hf hs (hcompares condition target (mem_stmts_of_stmt? hstmt)) h
  · rename_i condition target hstmt hkind
    rw [Selects, hstmt, hkind] at h
    exact admits_of_decides hf hs (hcompares condition target (mem_stmts_of_stmt? hstmt)) h
  · rename_i selector cases default value hstmt hkind
    rw [Selects, hstmt, hkind] at h
    exact admits_of_selected hf hs fun hint => ⟨value, h hint, by simp⟩
  · rename_i selector cases default hstmt hkind
    rw [Selects, hstmt, hkind] at h
    refine admits_of_selected hf hs fun hint => ?_
    obtain ⟨c, hc, hne⟩ := h hint
    exact ⟨c, hc, by simpa using hne⟩
  · rfl

/-! ## The search -/

section Reached

variable {constants : FlowResult ConstFact}

/-- Feasible edges lead to nodes. -/
theorem feasible_lt (hg : g.WellFormed) {n m : NodeId}
    (hm : m ∈ (feasibleEdges g constants n).map (·.target)) : m < g.nodeCount := by
  obtain ⟨e, he, rfl⟩ := List.mem_map.1 hm
  have hmem := (FlowGraph.mem_outEdges.1 (List.mem_of_mem_filter he)).1
  exact Nat.lt_succ_of_le (hg.target_le e hmem)

/-- The search reaches what feasible edges connect with the entry. -/
theorem mem_reached (hg : g.WellFormed) {n : NodeId} :
    n ∈ reached g constants ↔
      ReflTransGen (Search.Leads fun n => (feasibleEdges g constants n).map (·.target)) g.entry n := by
  have hentry : ∀ n ∈ [g.entry], n < g.nodeCount := by
    intro n hn
    rw [List.mem_singleton.1 hn]
    exact Nat.succ_pos _
  rw [reached, Search.mem_breadthFirst (fun _ _ m hm => feasible_lt hg hm) hentry]
  simp

theorem entry_mem_reached (hg : g.WellFormed) : g.entry ∈ reached g constants :=
  (mem_reached hg).2 .refl

/-- A feasible edge leads from a node that is reached to another one. -/
theorem target_mem_reached (hg : g.WellFormed) {e : FlowEdge} (he : e ∈ g.edges)
    (hsource : e.source ∈ reached g constants)
    (hfeasible : isFeasible g ((constants.inFact? e.source).getD ∅) e = true) :
    e.target ∈ reached g constants := by
  refine (mem_reached hg).2 (((mem_reached hg).1 hsource).tail (List.mem_map.2 ⟨e, ?_, rfl⟩))
  exact List.mem_filter.2 ⟨FlowGraph.mem_outEdges.2 ⟨he, rfl⟩, hfeasible⟩

/-- The nodes between entry and exit have statements. -/
theorem exists_stmtIndex? {n : NodeId} (hentry : n ≠ g.entry) (hexit : n ≠ g.exit) :
    ∃ index, g.stmtIndex? n = some index := by
  refine ⟨n - 1, ?_⟩
  rw [FlowGraph.stmtIndex?, FlowGraph.kind, if_neg hentry, if_neg hexit]

/-- The positions that are called unreachable are those whose nodes the search does not reach. -/
theorem mem_unreachable {index : Nat} : index ∈ (unreachable g constants).toList ↔
    index < g.method.stmts.length ∧ FlowGraph.nodeOf index ∉ reached g constants := by
  have hmem : index ∈ (unreachable g constants).toList ↔
      ∃ n, (n < g.nodeCount ∧ n ∉ reached g constants) ∧ g.stmtIndex? n = some index := by
    change index ∈ unreachable g constants ↔ _
    simp only [unreachable, SortedSet.mem_ofList, List.mem_filterMap, List.mem_filter,
      FlowGraph.mem_nodes, decide_eq_true_eq]
  rw [hmem]
  constructor
  · rintro ⟨n, ⟨hn, hnot⟩, hindex⟩
    exact ⟨FlowGraph.lt_of_stmtIndex? hn hindex, FlowGraph.eq_of_stmtIndex? hindex ▸ hnot⟩
  · rintro ⟨hlt, hnot⟩
    have hn : FlowGraph.nodeOf index < g.nodeCount := FlowGraph.nodeOf_lt (List.getElem?_eq_getElem hlt)
    exact ⟨_, ⟨hn, hnot⟩, FlowGraph.stmtIndex?_nodeOf hlt⟩

/-- A statement is called unreachable exactly if the search does not reach its node. -/
theorem mem_unreachable_iff {n : NodeId} {index : Nat} (hn : n < g.nodeCount)
    (hindex : g.stmtIndex? n = some index) :
    index ∈ (unreachable g constants).toList ↔ n ∉ reached g constants := by
  rw [mem_unreachable, FlowGraph.eq_of_stmtIndex? hindex]
  exact and_iff_right (FlowGraph.lt_of_stmtIndex? hn hindex)

end Reached

/-! ## Runs -/

section Runs

variable {order : WorklistOrder} {budget : Nat} {constants : FlowResult ConstFact}

/-- A run that has lost no operand takes feasible edges only. -/
theorem isFeasible_of_moves (hg : g.WellFormed) (hcompares : ComparesOnly g.method)
    (hr : solve? p g order budget = some constants) {past : List NodeId} {c d : RunState}
    {e : FlowEdge} (harrives : Arrives p g (Selects p g) past c) (moves : Moves p g e c d)
    (hselects : Selects p g c.store e)
    (hkeeps : ∀ n ∈ past, ¬ LosesOperand p (g.stmt? n) ((constants.inFact? n).getD ∅)) :
    isFeasible g ((constants.inFact? e.source).getD ∅) e = true := by
  have hfact := getD_inFact? hg hr (node_lt_of_arrives hg harrives)
  have hcovers : Covers p (before p g order budget c.node) c.store := by
    refine covers_of_arrives hg hr harrives fun n hn => ?_
    rw [← getD_inFact? hg hr (lt_of_mem_past hg harrives n hn)]
    exact hkeeps n hn
  rw [moves.source_eq, hfact]
  exact isFeasible_of_selects (tracked_of_run p hg order budget c.node) hcovers hcompares hselects

/-- A run that has lost no operand comes to nodes that the search reaches only. -/
theorem mem_reached_of_arrives (hg : g.WellFormed) (hcompares : ComparesOnly g.method)
    (hr : solve? p g order budget = some constants) {past : List NodeId} {c : RunState}
    (harrives : Arrives p g (Selects p g) past c)
    (hkeeps : ∀ n ∈ past, ¬ LosesOperand p (g.stmt? n) ((constants.inFact? n).getD ∅)) :
    c.node ∈ reached g constants := by
  induction harrives with
  | entry => exact entry_mem_reached hg
  | @move past c d e hbefore moves hselects ih =>
    have hpast := fun n hn => hkeeps n (List.mem_cons_of_mem _ hn)
    rw [← moves.target_eq]
    refine target_mem_reached hg moves.mem_edges (moves.source_eq ▸ ih hpast) ?_
    exact isFeasible_of_moves hg hcompares hr hbefore moves hselects hpast

end Runs

/-- No run arrives at one of the statements. -/
def Avoided (p : Program) (g : FlowGraph) (indices : List Nat) : Prop :=
  ∀ past c, Arrives p g (Selects p g) past c → ∀ index ∈ indices, g.stmtIndex? c.node ≠ some index

/-- Some run takes the edge, although it is infeasible for the constants. -/
def Surprises (p : Program) (g : FlowGraph) (constants : FlowResult ConstFact) (e : FlowEdge) :
    Prop :=
  ∃ past c d, Arrives p g (Selects p g) past c ∧ Moves p g e c d ∧ Selects p g c.store e ∧
    isFeasible g ((constants.inFact? e.source).getD ∅) e = false

/-- A run comes to a node that the search does not reach only through an edge that is not
feasible and leads to such a node. -/
theorem exists_surprise_of_arrives (hg : g.WellFormed) {constants : FlowResult ConstFact}
    {past : List NodeId} {c : RunState} (harrives : Arrives p g (Selects p g) past c) {index : Nat}
    (hindex : g.stmtIndex? c.node = some index) (hnot : c.node ∉ reached g constants) :
    ∃ e target, Surprises p g constants e ∧ g.stmtIndex? e.target = some target ∧
      e.target ∉ reached g constants := by
  induction harrives generalizing index with
  | entry => exact absurd (entry_mem_reached hg) hnot
  | @move past c d e hbefore moves hselects ih =>
    rw [← moves.target_eq] at hindex hnot
    by_cases hreached : c.node ∈ reached g constants
    · refine ⟨e, index, ⟨past, c, d, hbefore, moves, hselects, ?_⟩, hindex, hnot⟩
      rw [← Bool.not_eq_true]
      intro hfeasible
      exact hnot (target_mem_reached hg moves.mem_edges (moves.source_eq ▸ hreached) hfeasible)
    · -- the run has come to such a node before
      have hexit : c.node ≠ g.exit := fun h =>
        Nat.lt_irrefl _ ((moves.source_eq.trans h) ▸ hg.source_lt e moves.mem_edges)
      have hentry : c.node ≠ g.entry := fun h => hreached (h ▸ entry_mem_reached hg)
      obtain ⟨index, hindex⟩ := exists_stmtIndex? hentry hexit
      exact ih hindex hreached

/-- What a report lists is what its constants make unreachable. -/
theorem exists_constants_of_ofProgram? {m : MethodId} (hof : FlowGraph.ofProgram p m = .ok g)
    {order : WorklistOrder} {budget : Nat} {report : DeadCodeReport}
    (h : ofProgram? p m order budget = .ok (some report)) :
    ∃ constants, solve? p g order budget = some constants ∧
      report.unreachable = (unreachable g constants).toList := by
  rw [ofProgram?, hof] at h
  obtain ⟨constants, hconstants, h⟩ := Option.bind_eq_some_iff.1 (Except.ok.inj h)
  obtain ⟨live, -, h⟩ := Option.bind_eq_some_iff.1 h
  exact ⟨constants, hconstants, by rw [← Option.some.inj h]; rfl⟩

/-- Every method of an accepted program whose conditions are comparisons has a graph on
which runs avoid the statements that a report calls unreachable exactly if no run takes an
infeasible edge to one of them. A run that does arrive at one has lost an operand. -/
theorem unreachable_avoided_iff (hp : p.Accepted) {m : MethodId} {method : Method}
    (hm : p.method? m = some method) (hcompares : ComparesOnly method) :
    ∃ g, FlowGraph.ofProgram p m = .ok g ∧
      ∀ order budget report, ofProgram? p m order budget = .ok (some report) →
        ∃ constants, solve? p g order budget = some constants ∧
          (Avoided p g report.unreachable ↔ ∀ e, Surprises p g constants e →
            ∀ index ∈ report.unreachable, g.stmtIndex? e.target ≠ some index) ∧
          ∀ past c, Arrives p g (Selects p g) past c →
            ∀ index ∈ report.unreachable, g.stmtIndex? c.node = some index →
              ∃ n ∈ past, LosesOperand p (g.stmt? n) ((constants.inFact? n).getD ∅) := by
  obtain ⟨g, hof, hg, rfl⟩ := hp.wellFormed.exists_flowGraph hm
  refine ⟨g, hof, fun order budget report hreport => ?_⟩
  obtain ⟨constants, hr, hlist⟩ := exists_constants_of_ofProgram? hof hreport
  refine ⟨constants, hr, ⟨?_, ?_⟩, ?_⟩
  · rintro havoided e ⟨past, c, d, harrives, moves, hselects, -⟩ index hindex
    rw [moves.target_eq]
    exact havoided _ d (harrives.move moves hselects) index hindex
  · intro hnone past c harrives index hindex hstmt
    rw [hlist, mem_unreachable_iff (node_lt_of_arrives hg harrives) hstmt] at hindex
    obtain ⟨e, target, hsurprise, htarget, hnot⟩ := exists_surprise_of_arrives hg harrives hstmt hindex
    obtain ⟨past, c, d, -, moves, -⟩ := id hsurprise
    have hlt : e.target < g.nodeCount := Nat.lt_succ_of_le (hg.target_le e moves.mem_edges)
    refine hnone e hsurprise target ?_ htarget
    rw [hlist]
    exact (mem_unreachable_iff hlt htarget).2 hnot
  · intro past c harrives index hindex hstmt
    rw [hlist, mem_unreachable_iff (node_lt_of_arrives hg harrives) hstmt] at hindex
    by_contra hkeeps
    push Not at hkeeps
    exact hindex (mem_reached_of_arrives hg hcompares hr harrives hkeeps)

/-! ## A branch judged by a value that was lost -/

/-- The statements of `misjudged`: `v4` is 1 on one path, and on the other the result of a
comparison of `v2` with itself, which is not an integer variable. -/
def misjudgedStmts : List Stmt := [
  .assign 3 (.intLiteral 1),
  .assign 4 (.intLiteral 1),
  .branch ⟨.lt, 0, 1⟩ 4,
  .assign 4 (.binary ⟨.lt, 2, 2⟩),
  .branch ⟨.eq, 4, 3⟩ 6,
  .ret none,
  .ret none]

/-- A method with integer parameters `v0` and `v1` and a parameter `v2` of another type. -/
def misjudgedCommands : List Command := [
  .addClass "C" none [], .addMethod 0 "void m()" true,
  .addParam 0 "p" .int, .addParam 0 "q" .int, .addParam 0 "l" .long,
  .addVar 0 "one" .int, .addVar 0 "c" .int,
  .pushStmts 0 misjudgedStmts]

/-- The program of these declarations. -/
def misjudged : Program := (Program.ofCommands? misjudgedCommands).get (by decide +kernel)

/-- The graph of its only method. -/
def misjudgedGraph : FlowGraph where
  method := misjudged.methods.head (by decide +kernel)
  edges := [⟨0, 1, .entry⟩, ⟨1, 2, .fallThrough⟩, ⟨2, 3, .fallThrough⟩, ⟨3, 5, .ifTrue⟩,
    ⟨3, 4, .ifFalse⟩, ⟨4, 5, .fallThrough⟩, ⟨5, 7, .ifTrue⟩, ⟨5, 6, .ifFalse⟩, ⟨6, 8, .ret⟩,
    ⟨7, 8, .ret⟩]

theorem accepted_misjudged : misjudged.Accepted :=
  Program.accepted_of_ofCommands? (Option.some_get _).symm

theorem ofProgram_misjudged : FlowGraph.ofProgram misjudged 0 = .ok misjudgedGraph := by
  rfl

/-- The report about it calls the statement at position 5 unreachable. -/
def misjudgedReport : DeadCodeReport := ⟨"void m()", [5], [5], []⟩

theorem ofProgram?_misjudged (order : WorklistOrder) :
    ofProgram? misjudged 0 order 40 = .ok (some misjudgedReport) := by
  cases order <;> decide +kernel

/-- The statements of the graph are those that were declared. -/
theorem stmt?_misjudgedGraph (index : Nat) (h : index < 7) :
    misjudgedGraph.stmt? (index + 1) = misjudgedStmts[index]? := by
  revert index
  decide +kernel

/-- The integer parameters when the run begins. -/
def misjudgedStart : Store := fun v => if v = 0 then some 1 else if v = 1 then some 0 else none

/-- What the run knows after `v3` and `v4` have been assigned. -/
def misjudgedStore (one c : Int32) : Store :=
  Function.update (Function.update misjudgedStart 3 (some one)) 4 (some c)

/-- Of the variables of the method, all but the third parameter hold integers. -/
theorem holdsInt_misjudged : ∀ v ∈ [0, 1, 3, 4], misjudged.holdsInt v = true := by
  decide +kernel

theorem holdsInt_misjudged_two : misjudged.holdsInt 2 = false := by
  decide +kernel

/-- A run can begin with these parameters. -/
theorem arrives_misjudgedStart :
    Arrives misjudged misjudgedGraph (Selects misjudged misjudgedGraph) []
      ⟨0, misjudgedStart⟩ := by
  have hparams : misjudgedGraph.method.params = [0, 1, 2] := by decide +kernel
  refine .entry misjudgedStart fun v => ?_
  rw [hparams]
  unfold misjudgedStart
  by_cases h0 : v = 0
  · simp [h0, holdsInt_misjudged 0]
  · by_cases h1 : v = 1
    · simp [h1, holdsInt_misjudged 1]
    · simp only [if_neg h0, if_neg h1]
      simp only [ne_eq, not_true_eq_false, false_iff, not_and]
      intro hv
      obtain rfl : v = 2 := by simpa [h0, h1] using hv
      simp [holdsInt_misjudged_two]

/-- It can take neither jump and come to the statement behind the second one. -/
theorem arrives_misjudged :
    Arrives misjudged misjudgedGraph (Selects misjudged misjudgedGraph) [5, 4, 3, 2, 1, 0]
      ⟨6, misjudgedStore 1 0⟩ := by
  have hnone : misjudgedGraph.stmt? 0 = none := by decide +kernel
  have hone : misjudged.holdsInt 3 = true := holdsInt_misjudged 3 (by decide)
  have hc : misjudged.holdsInt 4 = true := holdsInt_misjudged 4 (by decide)
  have hentered := arrives_misjudgedStart.move (d := ⟨1, misjudgedStart⟩) (e := ⟨0, 1, .entry⟩)
    ⟨by decide, rfl, rfl, by simp [hnone], by simp only [hnone]; rfl⟩ (by simp [Selects, hnone])
  -- the literals are assigned to `v3` and `v4`
  have hassignOne : Effect misjudged misjudgedStart (some (.assign 3 (.intLiteral 1)))
      (Function.update misjudgedStart 3 (some 1)) := by
    rw [Effect, if_pos hone]
    exact ⟨1, rfl, rfl⟩
  have hassigned := hentered.move (e := ⟨1, 2, .fallThrough⟩)
    (Moves.of_stmt? (d := ⟨2, _⟩) (by decide) rfl rfl (stmt?_misjudgedGraph 0 (by decide))
      (by decide) hassignOne) (by simp [Selects])
  have hassignC : Effect misjudged (Function.update misjudgedStart 3 (some 1))
      (some (.assign 4 (.intLiteral 1))) (misjudgedStore 1 1) := by
    rw [Effect, if_pos hc]
    exact ⟨1, rfl, rfl⟩
  have hready := hassigned.move (e := ⟨2, 3, .fallThrough⟩)
    (Moves.of_stmt? (d := ⟨3, _⟩) (by decide) rfl rfl (stmt?_misjudgedGraph 1 (by decide))
      (by decide) hassignC) (by simp [Selects])
  -- the first jump is not taken, since 1 is not less than 0
  have hfirst : Selects misjudged misjudgedGraph (misjudgedStore 1 1) ⟨3, 4, .ifFalse⟩ := by
    rw [Selects, stmt?_misjudgedGraph 2 (by decide)]
    exact fun _ _ => ⟨1, 0, 0, by decide, by decide, by decide, by decide⟩
  have hcompare := hready.move (e := ⟨3, 4, .ifFalse⟩)
    (Moves.of_stmt? (d := ⟨4, misjudgedStore 1 1⟩) (by decide) rfl rfl
      (stmt?_misjudgedGraph 2 (by decide)) (by decide) rfl) hfirst
  -- the comparison of operands of another type gives 0
  have hassignLost : Effect misjudged (misjudgedStore 1 1) (some (.assign 4 (.binary ⟨.lt, 2, 2⟩)))
      (misjudgedStore 1 0) := by
    rw [Effect, if_pos hc]
    refine ⟨0, ?_, (Function.update_idem _ _ _).symm⟩
    rw [Yields, if_neg (by simp [holdsInt_misjudged_two])]
    exact fun _ => ⟨false, rfl⟩
  have hlost := hcompare.move (e := ⟨4, 5, .fallThrough⟩)
    (Moves.of_stmt? (d := ⟨5, _⟩) (by decide) rfl rfl (stmt?_misjudgedGraph 3 (by decide))
      (by simp [Stmt.uses, Exp.uses, holdsInt_misjudged_two]) hassignLost) (by simp [Selects])
  -- so the second jump is not taken either, since 0 is not 1
  have hsecond : Selects misjudged misjudgedGraph (misjudgedStore 1 0) ⟨5, 6, .ifFalse⟩ := by
    rw [Selects, stmt?_misjudgedGraph 4 (by decide)]
    exact fun _ _ => ⟨0, 1, 0, by decide, by decide, by decide, by decide⟩
  exact hlost.move (e := ⟨5, 6, .ifFalse⟩)
    (Moves.of_stmt? (by decide) rfl rfl (stmt?_misjudgedGraph 4 (by decide)) (by decide) rfl)
    hsecond

theorem comparesOnly_misjudged : ComparesOnly misjudgedGraph.method := by
  have hstmts : misjudgedGraph.method.stmts = misjudgedStmts := by decide +kernel
  intro condition target hmem
  rw [hstmts] at hmem
  simp only [misjudgedStmts, List.mem_cons, Stmt.branch.injEq, reduceCtorEq, false_or,
    List.not_mem_nil, or_false] at hmem
  rcases hmem with ⟨rfl, -⟩ | ⟨rfl, -⟩ <;> rfl

/-- In either order a run of an accepted program can come to a statement that is called
unreachable. -/
theorem not_unreachable_avoided_misjudged :
    misjudged.Accepted ∧ FlowGraph.ofProgram misjudged 0 = .ok misjudgedGraph ∧
      ComparesOnly misjudgedGraph.method ∧
      ∀ order, ∃ budget report, ofProgram? misjudged 0 order budget = .ok (some report) ∧
        ¬ Avoided misjudged misjudgedGraph report.unreachable := by
  refine ⟨accepted_misjudged, ofProgram_misjudged, comparesOnly_misjudged, fun order => ?_⟩
  refine ⟨40, misjudgedReport, ofProgram?_misjudged order, fun havoided => ?_⟩
  exact havoided _ _ arrives_misjudged 5 (by decide) (by decide +kernel)

/-- That run has lost an operand before. -/
theorem misjudged_loses_operand :
    misjudged.Accepted ∧ misjudged.method? 0 = some misjudgedGraph.method ∧
      ComparesOnly misjudgedGraph.method ∧
      ∀ order, ∃ constants, solve? misjudged misjudgedGraph order 40 = some constants ∧
        ∃ n ∈ [5, 4, 3, 2, 1, 0],
          LosesOperand misjudged (misjudgedGraph.stmt? n) ((constants.inFact? n).getD ∅) := by
  have hmethod : misjudged.method? 0 = some misjudgedGraph.method :=
    (FlowGraph.wellFormed_of_ofProgram ofProgram_misjudged).2
  refine ⟨accepted_misjudged, hmethod, comparesOnly_misjudged, fun order => ?_⟩
  obtain ⟨g, hg, havoided⟩ :=
    unreachable_avoided_iff accepted_misjudged hmethod comparesOnly_misjudged
  obtain rfl : misjudgedGraph = g := Except.ok.inj (ofProgram_misjudged.symm.trans hg)
  obtain ⟨constants, hr, -, hlost⟩ := havoided order 40 misjudgedReport (ofProgram?_misjudged order)
  exact ⟨constants, hr, hlost _ _ arrives_misjudged 5 (by decide) (by decide +kernel)⟩

end TacAnalysis.DeadCode
