import TacAnalysis.Proofs.DeadCode.Unreachable

/-!
# The outcomes of a branch

Whether control can take an edge is decided for each edge by itself. What is known of a condition
or of a selector decides all edges of its statement together: if the value is not known, all of
them are left, and if it is known, only edges of one kind are. A known selector always selects a
case or the default. A known condition decides a branch only if it is 0 or 1. Comparisons give
nothing else, but a branch may have any operator, and with another value no edge is left.

Main statements: `outcomes_branch`, `outcomes_switch`, `branches_go_on_iff` and
`not_branches_go_on_blocked`.
-/

namespace TacAnalysis.DeadCode

open Constants

variable {m : Method} {g : FlowGraph} {constants : FlowResult ConstFact} {n : NodeId}

/-- The fact before a node; nothing is known where none is recorded. -/
def factBefore (constants : FlowResult ConstFact) (n : NodeId) : ConstFact :=
  (constants.inFact? n).getD ∅

/-- The kinds of the edges that control can take from a node. -/
def outcomes (g : FlowGraph) (constants : FlowResult ConstFact) (n : NodeId) : List EdgeKind :=
  (feasibleEdges g constants n).map (·.kind)

/-! ## One kind of edge after the other -/

/-- Of an edge that leaves a node only the kind matters. -/
theorem isFeasible_eq_of_source {f : ConstFact} {e : FlowEdge} (h : e.source = n) :
    isFeasible g f e = isFeasible g f ⟨n, g.exit, e.kind⟩ := by
  subst h
  rfl

/-- What is left of the kinds that the statement prescribes. -/
theorem outcomes_eq_filter (h : FlowGraph.ofMethod m = .ok g) {stmt : Stmt}
    (hstmt : g.stmt? n = some stmt) :
    outcomes g constants n = (FlowGraph.exitKinds stmt).filter fun kind =>
      isFeasible g (factBefore constants n) ⟨n, g.exit, kind⟩ := by
  have hkind : ∀ e ∈ g.outEdges n, isFeasible g (factBefore constants n) e =
      isFeasible g (factBefore constants n) ⟨n, g.exit, e.kind⟩ :=
    fun e he => isFeasible_eq_of_source (FlowGraph.mem_outEdges.1 he).2
  rw [← FlowGraph.kinds_outEdges h hstmt, List.filter_map, outcomes, feasibleEdges]
  exact congrArg _ (List.filter_congr hkind)

/-- A branch goes both ways unless its condition is known, and then it goes one way for 1, the
other for 0 and nowhere for all else. -/
theorem outcomes_branch (h : FlowGraph.ofMethod m = .ok g) {condition : BinaryExp} {target : Nat}
    (hstmt : g.stmt? n = some (.branch condition target)) :
    outcomes g constants n =
      match evaluateBinary condition (factBefore constants n) with
      | .constant c => if c = 1 then [.ifTrue] else if c = 0 then [.ifFalse] else []
      | _ => [.ifTrue, .ifFalse] := by
  have htrue : isFeasible g (factBefore constants n) ⟨n, g.exit, .ifTrue⟩ =
      admits (evaluateBinary condition (factBefore constants n)) (· = 1) := by
    simp only [isFeasible, hstmt]
  have hfalse : isFeasible g (factBefore constants n) ⟨n, g.exit, .ifFalse⟩ =
      admits (evaluateBinary condition (factBefore constants n)) (· = 0) := by
    simp only [isFeasible, hstmt]
  rw [outcomes_eq_filter h hstmt, FlowGraph.exitKinds]
  simp only [List.filter_cons, htrue, hfalse, List.filter_nil]
  cases evaluateBinary condition (factBefore constants n) with
  | constant c =>
    simp only [admits, decide_eq_true_eq]
    by_cases hone : c = 1
    · simp [hone]
    · simp [hone]
  | undefined => rfl
  | nac => rfl

/-- A switch goes everywhere unless its selector is known, and then it goes to the cases with the
known value, or to the default if there are none. -/
theorem outcomes_switch (h : FlowGraph.ofMethod m = .ok g) {selector : VarId}
    {cases : List (Int32 × Nat)} {default : Nat}
    (hstmt : g.stmt? n = some (.switch selector cases default)) :
    outcomes g constants n =
      match (factBefore constants n).get selector with
      | .constant c =>
        ((cases.filter (·.1 = c)).map fun _ => .switchCase c) ++
          if cases.all (·.1 ≠ c) then [.switchDefault] else []
      | _ => cases.map (.switchCase ·.1) ++ [.switchDefault] := by
  have hcase : ∀ value, isFeasible g (factBefore constants n) ⟨n, g.exit, .switchCase value⟩ =
      admits ((factBefore constants n).get selector) (· = value) := by
    intro value
    simp only [isFeasible, hstmt]
  have hdefault : isFeasible g (factBefore constants n) ⟨n, g.exit, .switchDefault⟩ =
      admits ((factBefore constants n).get selector) fun c => cases.all (·.1 ≠ c) := by
    simp only [isFeasible, hstmt]
  rw [outcomes_eq_filter h hstmt, FlowGraph.exitKinds, List.filter_append, List.filter_map]
  simp only [Function.comp_def, hcase, List.filter_cons, hdefault, List.filter_nil]
  cases (factBefore constants n).get selector with
  | constant c =>
    have hkinds : (cases.filter fun case => admits (.constant c) (· = case.1)).map
        (fun case => EdgeKind.switchCase case.1) =
          (cases.filter (·.1 = c)).map fun _ => .switchCase c := by
      have hfilter : (fun case : Int32 × Nat => admits (.constant c) (· = case.1)) =
          fun case => decide (case.1 = c) := by
        funext case
        simp only [admits, eq_comm]
      rw [hfilter]
      refine List.map_congr_left fun case hmem => ?_
      rw [of_decide_eq_true (List.mem_filter.1 hmem).2]
    rw [hkinds]
    rfl
  | undefined => simp [admits]
  | nac => simp [admits]

/-! ## Comparisons -/

/-- A comparison with a known result gives a truth value. -/
theorem exists_truth_of_foldValues {op : BinaryOp} (hop : op.isComparison = true) {a b : Value}
    {c : Int32} (h : foldValues op a b = .constant c) : ∃ t, c = truth t := by
  obtain ⟨x, y, rfl, rfl, hresult⟩ := exists_of_foldValues_eq_constant h
  exact exists_truth_of_isComparison hop hresult

theorem truth_eq (t : Bool) : truth t = 0 ∨ truth t = 1 := by
  cases t
  · exact .inl rfl
  · exact .inr rfl

/-! ## Control goes on -/

/-- All edges that control can take from the node are of one kind. -/
def GoesOnlyBy (g : FlowGraph) (constants : FlowResult ConstFact) (n : NodeId) (kind : EdgeKind) :
    Prop :=
  ∀ e ∈ feasibleEdges g constants n, e.kind = kind

theorem goesOnlyBy_iff {kind : EdgeKind} :
    GoesOnlyBy g constants n kind ↔ ∀ k ∈ outcomes g constants n, k = kind := by
  simp [GoesOnlyBy, outcomes]

theorem feasibleEdges_eq_nil_iff : feasibleEdges g constants n = [] ↔ outcomes g constants n = [] :=
  List.map_eq_nil_iff.symm

/-- A branch goes on exactly unless its condition is known to be neither 0 nor 1. -/
theorem branch_goes_on_iff (h : FlowGraph.ofMethod m = .ok g) {condition : BinaryExp} {target : Nat}
    (hstmt : g.stmt? n = some (.branch condition target)) :
    feasibleEdges g constants n ≠ [] ↔
      ∀ c, evaluateBinary condition (factBefore constants n) = .constant c → c = 0 ∨ c = 1 := by
  rw [ne_eq, feasibleEdges_eq_nil_iff, outcomes_branch h hstmt]
  cases evaluateBinary condition (factBefore constants n) with
  | constant c =>
    simp only [Value.constant.injEq, forall_eq']
    by_cases hone : c = 1
    · simp [hone]
    · by_cases hzero : c = 0
      · simp [hzero]
      · simp [hone, hzero]
  | undefined => simp
  | nac => simp

/-- A switch goes on. -/
theorem switch_goes_on (h : FlowGraph.ofMethod m = .ok g) {selector : VarId}
    {cases : List (Int32 × Nat)} {default : Nat}
    (hstmt : g.stmt? n = some (.switch selector cases default)) :
    feasibleEdges g constants n ≠ [] := by
  rw [ne_eq, feasibleEdges_eq_nil_iff, outcomes_switch h hstmt]
  cases (factBefore constants n).get selector with
  | constant c =>
    by_cases hall : cases.all (·.1 ≠ c) = true
    · simp only [if_pos hall]
      exact List.append_ne_nil_of_right_ne_nil _ (List.cons_ne_nil _ _)
    · simp only [if_neg hall, List.append_nil, List.map_eq_nil_iff, List.filter_eq_nil_iff]
      intro hnone
      refine hall (List.all_eq_true.2 fun case hcase => ?_)
      simpa using hnone case hcase
  | undefined => simp
  | nac => simp

/-- A known condition leaves one way. -/
theorem branch_goesOnlyBy (h : FlowGraph.ofMethod m = .ok g) {condition : BinaryExp} {target : Nat}
    (hstmt : g.stmt? n = some (.branch condition target)) {c : Int32}
    (hc : evaluateBinary condition (factBefore constants n) = .constant c) :
    GoesOnlyBy g constants n (if c = 1 then .ifTrue else .ifFalse) := by
  rw [goesOnlyBy_iff, outcomes_branch h hstmt, hc]
  by_cases hone : c = 1
  · simp [hone]
  · simp only [if_neg hone]
    split <;> simp

/-- A known selector leaves its own cases, or the default if there are none. -/
theorem switch_goesOnlyBy (h : FlowGraph.ofMethod m = .ok g) {selector : VarId}
    {cases : List (Int32 × Nat)} {default : Nat}
    (hstmt : g.stmt? n = some (.switch selector cases default)) {c : Int32}
    (hc : (factBefore constants n).get selector = .constant c) :
    GoesOnlyBy g constants n (if ∃ case ∈ cases, case.1 = c then .switchCase c else .switchDefault) := by
  rw [goesOnlyBy_iff, outcomes_switch h hstmt, hc]
  intro kind hkind
  rcases List.mem_append.1 hkind with hmem | hmem
  · obtain ⟨case, hcase, rfl⟩ := List.mem_map.1 hmem
    obtain ⟨hcase, hvalue⟩ := List.mem_filter.1 hcase
    rw [if_pos ⟨case, hcase, of_decide_eq_true hvalue⟩]
  · split at hmem
    · rename_i hall
      rw [if_neg, List.mem_singleton.1 hmem]
      rintro ⟨case, hcase, hvalue⟩
      exact of_decide_eq_true (List.all_eq_true.1 hall case hcase) hvalue
    · cases hmem

/-- Every method of an accepted program has a graph on which, whatever is found about its
constants, a switch goes on, and a branch goes on exactly unless its condition is known to be
neither 0 nor 1, so always if it is a comparison. What is known of a condition or of a selector
leaves edges of one kind only: the true edge for 1 and else the false edge, the cases of the known
value, or the default if there are none. -/
theorem branches_go_on_iff {p : Program} (hp : p.Accepted) {id : MethodId}
    (hm : p.method? id = some m) :
    ∃ g, FlowGraph.ofProgram p id = .ok g ∧ ∀ (constants : FlowResult ConstFact) (n : NodeId),
      (∀ condition target, g.stmt? n = some (.branch condition target) →
        (feasibleEdges g constants n ≠ [] ↔
          ∀ c, evaluateBinary condition (factBefore constants n) = .constant c → c = 0 ∨ c = 1) ∧
        (condition.op.isComparison = true → feasibleEdges g constants n ≠ []) ∧
        ∀ c, evaluateBinary condition (factBefore constants n) = .constant c →
          GoesOnlyBy g constants n (if c = 1 then .ifTrue else .ifFalse)) ∧
      ∀ selector cases default, g.stmt? n = some (.switch selector cases default) →
        feasibleEdges g constants n ≠ [] ∧
        ∀ c, (factBefore constants n).get selector = .constant c →
          GoesOnlyBy g constants n
            (if ∃ case ∈ cases, case.1 = c then .switchCase c else .switchDefault) := by
  obtain ⟨g, hof, -, -⟩ := hp.wellFormed.exists_flowGraph hm
  have h : FlowGraph.ofMethod m = .ok g := by
    simpa only [FlowGraph.ofProgram, hm] using hof
  refine ⟨g, hof, fun constants n => ⟨fun condition target hstmt => ?_, ?_⟩⟩
  · refine ⟨branch_goes_on_iff h hstmt, fun hop => ?_, fun c hc => branch_goesOnlyBy h hstmt hc⟩
    refine (branch_goes_on_iff h hstmt).2 fun c hc => ?_
    obtain ⟨t, rfl⟩ := exists_truth_of_foldValues hop hc
    exact truth_eq t
  · exact fun selector cases default hstmt =>
      ⟨switch_goes_on h hstmt, fun c hc => switch_goesOnlyBy h hstmt hc⟩

/-! ## A branch that goes nowhere -/

/-- The condition of the branch is the sum of 1 and 1, and both of its edges lead to the next
statement. -/
def blockedCommands : List Command := [
  .addClass "C" none [], .addMethod 0 "void m()" true, .addVar 0 "a" .int,
  .pushStmts 0 [.assign 0 (.intLiteral 1), .branch ⟨.add, 0, 0⟩ 2, .ret none]]

/-- The program of these declarations. -/
def blocked : Program := (Program.ofCommands? blockedCommands).get (by decide +kernel)

/-- The graph of its only method. -/
def blockedGraph : FlowGraph where
  method := blocked.methods.head (by decide +kernel)
  edges := [⟨0, 1, .entry⟩, ⟨1, 2, .fallThrough⟩, ⟨2, 3, .ifTrue⟩, ⟨2, 3, .ifFalse⟩, ⟨3, 4, .ret⟩]

theorem accepted_blocked : blocked.Accepted :=
  Program.accepted_of_ofCommands? (Option.some_get _).symm

theorem ofProgram_blocked : FlowGraph.ofProgram blocked 0 = .ok blockedGraph := by
  rfl

/-- What is found about the program in an order. -/
def blockedResult (order : WorklistOrder) : FlowResult ConstFact :=
  (solve? blocked blockedGraph order 20).get (by cases order <;> decide +kernel)

/-- In either order the search comes to the branch and takes no edge from it. -/
theorem feasibleEdges_blocked (order : WorklistOrder) :
    2 ∈ reached blockedGraph (blockedResult order) ∧
      feasibleEdges blockedGraph (blockedResult order) 2 = [] ∧
      (unreachable blockedGraph (blockedResult order)).toList = [2] := by
  cases order <;> decide +kernel

theorem stmt?_blockedGraph : blockedGraph.stmt? 2 = some (.branch ⟨.add, 0, 0⟩ 2) := by
  decide +kernel

/-- In either order the search for reachable statements of an accepted program can come to a branch
that it does not leave, so that the statement behind both of its edges is called unreachable. -/
theorem not_branches_go_on_blocked :
    blocked.Accepted ∧ FlowGraph.ofProgram blocked 0 = .ok blockedGraph ∧
      blockedGraph.stmt? 2 = some (.branch ⟨.add, 0, 0⟩ 2) ∧
      ∀ order, ∃ budget constants, solve? blocked blockedGraph order budget = some constants ∧
        2 ∈ reached blockedGraph constants ∧ feasibleEdges blockedGraph constants 2 = [] ∧
        (unreachable blockedGraph constants).toList = [2] :=
  ⟨accepted_blocked, ofProgram_blocked, stmt?_blockedGraph, fun order =>
    ⟨20, blockedResult order, (Option.some_get _).symm, feasibleEdges_blocked order⟩⟩

/-- The condition of that branch is known to be neither 0 nor 1. -/
theorem blocked_knows_condition :
    blocked.Accepted ∧ blocked.method? 0 = some blockedGraph.method ∧
      ∀ order, ∃ c, evaluateBinary ⟨.add, 0, 0⟩ (factBefore (blockedResult order) 2) = .constant c ∧
        c ≠ 0 ∧ c ≠ 1 := by
  have hmethod : blocked.method? 0 = some blockedGraph.method :=
    (FlowGraph.wellFormed_of_ofProgram ofProgram_blocked).2
  refine ⟨accepted_blocked, hmethod, fun order => ?_⟩
  obtain ⟨g, hof, hgoesOn⟩ := branches_go_on_iff accepted_blocked hmethod
  obtain rfl : blockedGraph = g := Except.ok.inj (ofProgram_blocked.symm.trans hof)
  obtain ⟨hiff, -⟩ := (hgoesOn (blockedResult order) 2).1 _ _ stmt?_blockedGraph
  have hnone : ¬ feasibleEdges blockedGraph (blockedResult order) 2 ≠ [] :=
    not_not.2 (feasibleEdges_blocked order).2.1
  rw [hiff] at hnone
  push Not at hnone
  exact hnone

end TacAnalysis.DeadCode
