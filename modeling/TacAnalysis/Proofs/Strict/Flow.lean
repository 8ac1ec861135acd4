import TacAnalysis.Proofs.DeadCode.Unreachable
import TacAnalysis.Proofs.Solver.Turn
import TacAnalysis.Proofs.Strict.Solver

/-!
# Strict analyses of one method

Constant propagation, liveness and the detection of dead code with strict lookups: of the statements
of a body, of the edges in tables with a row for each node, of the facts of nodes and of the
variables whose types decide what is tracked.

On a well-formed graph each analysis looks up what is there, whatever the facts are. The entry and
the exit have no statement, so every node that has one has it at a position of the body; and the
variables of a statement are declared by its method.

Main statements: `exists_flowRows?`, `constants_agrees`, `liveness_agrees`,
`Analysis.Agrees.solve?_eq_some` and `detect?_eq_some`.
-/

namespace TacAnalysis.Strict

/-! ## Lookups in a graph -/

/-- The rows of the edges of a method. -/
def flowRows? (g : FlowGraph) : Option (EdgeRows FlowEdge) :=
  edgeRows? g.nodeCount FlowEdge.source FlowEdge.target g.edges

/-- The statement at a node, if it stands for one; that is looked up in the body. -/
def stmtAt? (g : FlowGraph) (n : NodeId) : Option (Option Stmt) :=
  match g.stmtIndex? n with
  | none => some none
  | some index => do
    let stmt ← g.method.stmts[index]?
    return some stmt

/-- Whether the variable holds a 32-bit integer; its type is looked up. -/
def holdsInt? (p : Program) (v : VarId) : Option Bool := do
  let decl ← p.var? v
  return decl.ty.holdsInt

/-! ## Analyses -/

/-- An analysis of one method whose boundary fact and transfer are strict. -/
structure Analysis (F : Type) where
  /-- Where facts flow to. -/
  direction : Direction
  /-- The fact at the boundary node. -/
  boundary? : Option F
  /-- The fact of all other nodes. -/
  initial : F
  /-- Joins a fact into a target. -/
  meet : F → F → F
  /-- The new output of a node, and whether it counts as a change. -/
  transfer? : NodeId → F → F → Option (Bool × F)

namespace Analysis

variable {F : Type} (a : Analysis F) (g : FlowGraph) (rows : EdgeRows FlowEdge)

/-- The node that keeps the boundary fact. -/
def boundaryNode : NodeId :=
  match a.direction with
  | .forward => g.entry
  | .backward => g.exit

/-- The nodes behind the edges that leave a node. -/
def successors? (n : NodeId) : Option (List NodeId) := do
  let edges ← rows.outEdges[n]?
  return edges.map (·.target)

/-- The nodes before the edges that enter a node. -/
def predecessors? (n : NodeId) : Option (List NodeId) := do
  let edges ← rows.inEdges[n]?
  return edges.map (·.source)

/-- The nodes from which facts flow into a node. -/
def sources? (n : NodeId) : Option (List NodeId) :=
  match a.direction with
  | .forward => predecessors? rows n
  | .backward => successors? rows n

/-- The nodes into which facts flow from a node. -/
def dependents? (n : NodeId) : Option (List NodeId) :=
  match a.direction with
  | .forward => successors? rows n
  | .backward => predecessors? rows n

/-- What flows into a node, joined from the outputs of its sources. -/
def joined? (s : SolverState F) (n : NodeId) : Option F := do
  (← a.sources? rows n).foldlM (fun target m => return a.meet (← s.output[m]?) target) a.initial

/-- What the solver does in a turn. -/
def turning : Turning F := ⟨a.joined? rows, a.transfer?, a.dependents? rows⟩

/-- The state of the solver after so many turns. -/
def solve? (order : WorklistOrder) (turns : Nat) : Option (SolverState F) := do
  let rows ← flowRows? g
  let s ← start? g.nodeCount (a.boundaryNode g) a.boundary? a.initial order
    (g.nodes.filter (· ≠ a.boundaryNode g))
  after? ((a.turning rows).turn? g.nodeCount) turns s

/-- The strict analysis has the boundary fact and the transfers of a total one. -/
structure Agrees (a : Analysis F) (b : FlowAnalysis F) (g : FlowGraph) : Prop where
  /-- Facts flow the same way. -/
  direction_eq : a.direction = b.direction
  /-- The boundary fact is the same. -/
  boundary_eq : a.boundary? = some b.boundary
  /-- The initial fact is the same. -/
  initial_eq : a.initial = b.initial
  /-- Facts are joined in the same way. -/
  meet_eq : a.meet = b.meet
  /-- The transfers of nodes are the same. -/
  transfer_eq : ∀ n < g.nodeCount, ∀ input output,
    a.transfer? n input output = some (b.transfer n input output)

end Analysis

/-! ## Constants -/

section Constants

variable (p : Program)

/-- The fact at the entry of a method: the types of its parameters are looked up. -/
def constantsBoundary? (m : Method) : Option ConstFact :=
  m.params.foldlM (fun f v => return if ← holdsInt? p v then f.update v .nac else f) ∅

/-- What holds behind a statement: the type of what it assigns is looked up. -/
def constantsStmt? (stmt : Stmt) (f : ConstFact) : Option ConstFact :=
  match stmt with
  | .assign lhs rhs => do return if ← holdsInt? p lhs then f.update lhs (evaluate rhs f) else f
  | .invoke call =>
    match call.result with
    | some result => do return if ← holdsInt? p result then f.update result .nac else f
    | none => some f
  | _ => some f

/-- The transfer of a statement, or of a node without one. -/
def constantsTransfer? (stmt : Option Stmt) (input output : ConstFact) : Option (Bool × ConstFact) :=
  match stmt with
  | some stmt => do return output.copyFrom (← constantsStmt? p stmt input)
  | none => some (output.copyFrom input)

/-- Constant propagation on the graph of a method. -/
def constants (g : FlowGraph) : Analysis ConstFact where
  direction := .forward
  boundary? := constantsBoundary? p g.method
  initial := ∅
  meet := ConstFact.meetInto
  transfer? n input output := do constantsTransfer? p (← stmtAt? g n) input output

end Constants

/-- Liveness on the graph of a method. -/
def liveness (g : FlowGraph) : Analysis IdSet where
  direction := .backward
  boundary? := some ∅
  initial := ∅
  meet fact target := target.union fact
  transfer? n input output := do return Liveness.transfer (← stmtAt? g n) input output

/-! ## Dead code -/

section DeadCode

variable (g : FlowGraph) (rows : EdgeRows FlowEdge)

/-- Whether control can take an edge of a kind from a statement when `f` holds before it. -/
def admitsEdge (stmt : Option Stmt) (kind : EdgeKind) (f : ConstFact) : Bool :=
  match stmt, kind with
  | some (.branch condition _), .ifTrue => DeadCode.admits (evaluateBinary condition f) (· = 1)
  | some (.branch condition _), .ifFalse => DeadCode.admits (evaluateBinary condition f) (· = 0)
  | some (.switch selector _ _), .switchCase value => DeadCode.admits (f.get selector) (· = value)
  | some (.switch selector cases _), .switchDefault =>
    DeadCode.admits (f.get selector) fun c => cases.all (·.1 ≠ c)
  | _, _ => true

/-- The nodes to which control can go from a node; there have to be marks for them. -/
def feasible? (constants : FlowResult ConstFact) (n : NodeId) : Option (List NodeId) := do
  let edges ← rows.outEdges[n]?
  let stmt ← stmtAt? g n
  let fact := (constants.inFact? n).getD ∅
  let targets := (edges.filter fun e => admitsEdge stmt e.kind fact).map (·.target)
  if targets.all (· < g.nodeCount) then return targets else none

/-- The nodes that feasible paths from the entry reach. -/
def reached? (constants : FlowResult ConstFact) : Option (List NodeId) :=
  let next (n : NodeId) : List NodeId := (DeadCode.feasibleEdges g constants n).map (·.target)
  visit? (feasible? g rows constants) (fun new old => old ++ new)
    (Search.turnBound next g.nodeCount [g.entry]) [] [g.entry]

/-- Whether the statement assigns a value without effect to a variable that is not live behind
it. -/
def assignsDead (stmt : Option Stmt) (live : Option IdSet) : Bool :=
  match stmt, live with
  | some (.assign lhs rhs), some liveOut => decide (¬ lhs ∈ liveOut) && rhs.isPure
  | _, _ => false

/-- The assignments that have no effect. -/
def deadAssignments? (live : FlowResult IdSet) : Option IdSet := do
  let stmts ← g.nodes.mapM fun n => return (n, ← stmtAt? g n)
  return .ofList ((stmts.filter fun e => assignsDead e.2 (live.outFact? e.1)).filterMap
    (g.stmtIndex? ·.1))

/-- The dead statements of a method, given its constants and its live variables. -/
def detect? (constants : FlowResult ConstFact) (live : FlowResult IdSet) : Option DeadCodeReport := do
  let rows ← flowRows? g
  let reached ← reached? g rows constants
  let unreachable : IdSet := .ofList ((g.nodes.filter (· ∉ reached)).filterMap g.stmtIndex?)
  let assignments ← deadAssignments? g live
  return { method := g.method.subsignature
           dead := (unreachable.union assignments).toList
           unreachable := unreachable.toList
           deadAssignments := assignments.toList }

end DeadCode

/-! ## What is looked up is there -/

variable {g : FlowGraph} {n : NodeId}

/-- The rows of a well-formed graph hold its edges. -/
theorem exists_flowRows? (hg : g.WellFormed) : ∃ rows, flowRows? g = some rows ∧
    ∀ n < g.nodeCount, rows.outEdges[n]? = some (g.outEdges n) ∧ rows.inEdges[n]? = some (g.inEdges n) :=
  exists_edgeRows? (fun e he => Nat.lt_succ_of_lt (hg.source_lt e he))
    fun e he => Nat.lt_succ_of_le (hg.target_le e he)

/-- A node that stands for a statement has it in the body. -/
theorem stmtAt?_eq_some (hn : n < g.nodeCount) : stmtAt? g n = some (g.stmt? n) := by
  unfold stmtAt? FlowGraph.stmt?
  cases hindex : g.stmtIndex? n with
  | none => rfl
  | some index =>
    have hexit : n ≠ g.exit := by
      rintro rfl
      simp [FlowGraph.stmtIndex?, FlowGraph.kind, FlowGraph.exit, FlowGraph.entry] at hindex
    obtain rfl := FlowGraph.eq_of_stmtIndex? hindex
    have hlt : index < g.method.stmts.length := by
      have hle : index + 1 ≤ g.method.stmts.length + 1 := Nat.le_of_lt_succ hn
      have hne : index + 1 ≠ g.method.stmts.length + 1 := hexit
      omega
    simp only [List.getElem?_eq_getElem hlt, Option.bind_eq_bind, Option.bind_some]
    rfl

variable {p : Program}

/-- A declared variable has a type. -/
theorem holdsInt?_eq_some {v : VarId} (hv : v < p.vars.length) :
    holdsInt? p v = some (p.holdsInt v) := by
  have hdecl : p.var? v = some p.vars[v] := List.getElem?_eq_getElem hv
  rw [holdsInt?, Program.holdsInt, hdecl]
  rfl

/-- What a statement of a program assigns is declared. -/
theorem assigned_lt (hp : p.WellFormed) {site : Site} {stmt : Stmt}
    (hstmt : p.stmt? site = some stmt) {v : VarId} (hv : stmt.assigned? = some v) :
    v < p.vars.length :=
  (hp.owns_of_stmt? hstmt (List.mem_append_right _ (Option.mem_toList.2 hv))).lt

/-- The parameters of a method are declared. -/
theorem param_lt (hp : p.WellFormed) {m : MethodId} {method : Method}
    (hmethod : p.method? m = some method) {v : VarId} (hv : v ∈ method.params) : v < p.vars.length :=
  (hp.owns_of_method? hmethod (List.mem_append_left _ hv)).lt

/-! ## Solving -/

namespace Analysis.Agrees

variable {F : Type} {a : Analysis F} {b : FlowAnalysis F}

theorem boundaryNode_eq (h : a.Agrees b g) : a.boundaryNode g = b.boundaryNode g := by
  unfold boundaryNode FlowAnalysis.boundaryNode
  cases hdirection : b.direction <;> simp only [h.direction_eq, hdirection]

/-- Sources and dependents are in the rows. -/
theorem ends_eq (h : a.Agrees b g) {rows : EdgeRows FlowEdge}
    (hrows : rows.outEdges[n]? = some (g.outEdges n) ∧ rows.inEdges[n]? = some (g.inEdges n)) :
    a.sources? rows n = some (b.sources g n) ∧ a.dependents? rows n = some (b.dependents g n) := by
  have hsuccessors : successors? rows n = some (g.successors n) := by
    rw [successors?, hrows.1]
    rfl
  have hpredecessors : predecessors? rows n = some (g.predecessors n) := by
    rw [predecessors?, hrows.2]
    rfl
  rw [sources?, FlowAnalysis.sources, dependents?, FlowAnalysis.dependents, h.direction_eq]
  cases b.direction with
  | forward => exact ⟨hpredecessors, hsuccessors⟩
  | backward => exact ⟨hsuccessors, hpredecessors⟩

/-- What a turn looks up is there. -/
theorem turning_agrees (h : a.Agrees b g) (hg : g.WellFormed) {rows : EdgeRows FlowEdge}
    (hrows : ∀ n < g.nodeCount,
      rows.outEdges[n]? = some (g.outEdges n) ∧ rows.inEdges[n]? = some (g.inEdges n)) :
    (a.turning rows).Agrees g.nodeCount (fun s n => b.joined g s.output n) b.transfer
      (b.dependents g) where
  joined_eq s n hs hn := by
    have hjoined : a.joined? rows s n = some (b.joined g s.output n) := by
      rw [joined?, (h.ends_eq (hrows n hn)).1, Option.bind_eq_bind, Option.bind_some,
        FlowAnalysis.joined, h.initial_eq, h.meet_eq]
      refine foldlM_eq_some_of_forall (fun m hm target => ?_) _
      have hlt : m < s.output.length := hs.output_length.symm ▸ FlowAnalysis.sources_lt hg hm
      simp only [List.getElem?_eq_getElem hlt, Option.bind_eq_bind, Option.bind_some, Option.getD_some]
      rfl
    exact hjoined
  transfer_eq n input output hn := h.transfer_eq n hn input output
  dependents_eq n hn := (h.ends_eq (hrows n hn)).2
  dependent_lt n _ m hm := FlowAnalysis.dependents_lt hg hm

/-- However many turns the solver takes, it looks up nothing that is not there. -/
theorem solve?_eq_some (h : a.Agrees b g) (hg : g.WellFormed) (order : WorklistOrder) (turns : Nat) :
    a.solve? g order turns = some (stateAfter (b.step g) turns (b.start g order)) := by
  obtain ⟨rows, hrows, hget⟩ := exists_flowRows? hg
  have hwaiting : ∀ n ∈ g.nodes.filter (· ≠ b.boundaryNode g), n < g.nodeCount := fun n hn =>
    FlowGraph.mem_nodes.1 (List.mem_filter.1 hn).1
  obtain ⟨hstart, hfits⟩ := start?_eq_some (b.boundaryNode g) b.boundary b.initial order hwaiting
  rw [solve?, hrows, h.boundaryNode_eq, h.boundary_eq, h.initial_eq]
  simp only [Option.bind_eq_bind, Option.bind_some, hstart]
  exact (h.turning_agrees hg hget).after?_eq_some hfits turns

end Analysis.Agrees

/-! ## Constants and liveness -/

theorem constantsBoundary?_eq_some {m : Method} (hparams : ∀ v ∈ m.params, v < p.vars.length) :
    constantsBoundary? p m = some (Constants.boundary p m) := by
  rw [constantsBoundary?, Constants.boundary, List.foldl_filter]
  refine foldlM_eq_some_of_forall (fun v hv f => ?_) _
  rw [holdsInt?_eq_some (hparams v hv)]
  rfl

theorem constantsStmt?_eq_some {stmt : Stmt} (h : ∀ v, stmt.assigned? = some v → v < p.vars.length)
    (f : ConstFact) : constantsStmt? p stmt f = some (Constants.applyStmt p stmt f) := by
  unfold constantsStmt? Constants.applyStmt
  match stmt with
  | .assign lhs rhs =>
    dsimp only
    rw [holdsInt?_eq_some (h lhs rfl)]
    rfl
  | .invoke call =>
    dsimp only
    cases hresult : call.result with
    | none => rfl
    | some result =>
      dsimp only
      rw [holdsInt?_eq_some (h result hresult)]
      rfl
  | .nop | .storeField .. | .storeArray .. | .branch .. | .goto _ | .switch .. | .ret _ => rfl

theorem constantsTransfer?_eq_some {stmt : Option Stmt}
    (h : ∀ s v, stmt = some s → s.assigned? = some v → v < p.vars.length) :
    constantsTransfer? p stmt = fun input output => some (Constants.transfer p stmt input output) := by
  funext input output
  cases stmt with
  | none => rfl
  | some stmt =>
    rw [constantsTransfer?, constantsStmt?_eq_some fun v hv => h stmt v rfl hv]
    rfl

/-- The node of a statement in the graph of a method is a site of the program. -/
theorem exists_stmt?_of_node {m : MethodId} (hmethod : p.method? m = some g.method) {stmt : Stmt}
    (hstmt : g.stmt? n = some stmt) : ∃ index, p.stmt? ⟨m, index⟩ = some stmt := by
  obtain ⟨index, -, hindex⟩ := FlowGraph.stmt?_eq_some_iff.1 hstmt
  refine ⟨index, ?_⟩
  rw [Program.stmt?, hmethod, Option.bind_some]
  exact hindex

/-- Constant propagation on the graph of a method of a well-formed program looks up what is
there. -/
theorem constants_agrees (hp : p.WellFormed) {m : MethodId} (hmethod : p.method? m = some g.method) :
    (constants p g).Agrees (Constants.analysis p g) g where
  direction_eq := rfl
  boundary_eq := constantsBoundary?_eq_some fun _ hv => param_lt hp hmethod hv
  initial_eq := rfl
  meet_eq := rfl
  transfer_eq n hn input output := by
    have hassigned : ∀ stmt v, g.stmt? n = some stmt → stmt.assigned? = some v → v < p.vars.length := by
      intro stmt v hstmt hv
      obtain ⟨index, hsite⟩ := exists_stmt?_of_node hmethod hstmt
      exact assigned_lt hp hsite hv
    simp only [constants, stmtAt?_eq_some hn, Option.bind_eq_bind, Option.bind_some,
      constantsTransfer?_eq_some hassigned]
    rfl

/-- Liveness looks up what is there. -/
theorem liveness_agrees (g : FlowGraph) : (liveness g).Agrees (Liveness.analysis g) g where
  direction_eq := rfl
  boundary_eq := rfl
  initial_eq := rfl
  meet_eq := rfl
  transfer_eq n hn input output := by
    simp only [liveness, stmtAt?_eq_some hn, Option.bind_eq_bind, Option.bind_some]
    rfl

/-! ## Dead code -/

/-- The feasible edges of a node are in its row, and lead to nodes. -/
theorem feasible?_eq_some (hg : g.WellFormed) {rows : EdgeRows FlowEdge}
    (hrow : rows.outEdges[n]? = some (g.outEdges n)) (hn : n < g.nodeCount)
    (constants : FlowResult ConstFact) :
    feasible? g rows constants n = some ((DeadCode.feasibleEdges g constants n).map (·.target)) := by
  have hsame : (g.outEdges n).filter (fun e =>
      admitsEdge (g.stmt? n) e.kind ((constants.inFact? n).getD ∅)) =
        DeadCode.feasibleEdges g constants n := by
    refine List.filter_congr fun e he => ?_
    obtain ⟨-, rfl⟩ := FlowGraph.mem_outEdges.1 he
    rfl
  have hall : ((DeadCode.feasibleEdges g constants n).map (·.target)).all (· < g.nodeCount) :=
    List.all_eq_true.2 fun m hm => decide_eq_true (DeadCode.feasible_lt hg hm)
  simp only [feasible?, hrow, stmtAt?_eq_some hn, Option.bind_eq_bind, Option.bind_some, hsame, hall]
  rfl

/-- Finding dead code looks up what is there, whatever facts it is given. -/
theorem detect?_eq_some (hg : g.WellFormed) (constants : FlowResult ConstFact)
    (live : FlowResult IdSet) : detect? g constants live = some (DeadCode.detect g constants live) := by
  obtain ⟨rows, hrows, hget⟩ := exists_flowRows? hg
  have hreached : reached? g rows constants = some (DeadCode.reached g constants) :=
    visit?_start Search.arranges_breadthFirst
      (fun n hn => feasible?_eq_some hg (hget n hn).1 hn constants)
      (fun _ _ m hm => DeadCode.feasible_lt hg hm) (by simp [FlowGraph.entry, FlowGraph.nodeCount])
  have hstmts : (g.nodes.mapM fun n => do return (n, ← stmtAt? g n)) =
      some (g.nodes.map fun n => (n, g.stmt? n)) := by
    refine mapM_eq_some_map fun n hn => ?_
    rw [stmtAt?_eq_some (FlowGraph.mem_nodes.1 hn)]
    rfl
  have hassignments : deadAssignments? g live = some (DeadCode.deadAssignments g live) := by
    rw [deadAssignments?, hstmts, Option.bind_eq_bind, Option.bind_some, List.filter_map,
      List.filterMap_map]
    rfl
  simp only [detect?, hrows, hreached, hassignments, Option.bind_eq_bind, Option.bind_some]
  rfl

end TacAnalysis.Strict
