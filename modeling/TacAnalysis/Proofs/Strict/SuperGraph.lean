import TacAnalysis.Constants.Program
import TacAnalysis.Proofs.Solver.Inter
import TacAnalysis.Proofs.Strict.Flow
import TacAnalysis.Proofs.SuperGraph.Exact

/-!
# Strict analysis of a whole program

Putting the graphs of methods side by side and propagating constants over them, with strict lookups:
of the methods that a call graph reaches, of the statements of call sites, of the edges of nodes, and
of what call and return edges carry values between.

The edges of a graph that is built name call statements of the program and methods that have graphs,
so whatever an edge carries is looked up where it is.

Main statements: `build?_eq_some`, `named_of_build`, `along?_eq_some` and `solveProgram?_eq_some`.
-/

namespace TacAnalysis.Strict

open SuperGraph (withBases find?)

/-! ## Building the graph -/

/-- The site of the call at a node of a method, if there is a call. -/
def callSiteAt? (g : FlowGraph) (n : NodeId) : Option (Option Site) := do
  match ← stmtAt? g n, g.stmtIndex? n with
  | some (.invoke _), some index => return some ⟨g.method.id, index⟩
  | _, _ => return none

/-- An edge of one method. -/
def localEdge? (base : Nat) (g : FlowGraph) (e : FlowEdge) : Option SuperEdge := do
  match ← callSiteAt? g e.source with
  | some site => return ⟨base + e.source, base + e.target, .callToReturn site⟩
  | none => return ⟨base + e.source, base + e.target, .normal e.kind⟩

/-- The edges into and out of one called method: the nodes to which the call returns are looked
up. -/
def calleeEdges? (graphs : List FlowGraph) (base : Nat) (rows : EdgeRows FlowEdge) (n : NodeId)
    (site : Site) (callee : MethodId) : Option (List SuperEdge) :=
  match find? graphs callee with
  | none => some []
  | some (calleeBase, h) => do
    let edges ← rows.outEdges[n]?
    return ⟨base + n, calleeBase + h.entry, .call site callee⟩ ::
      edges.map fun e => ⟨calleeBase + h.exit, base + e.target, .ret site callee⟩

/-- The edges of the call at a node, if there is a call. -/
def nodeEdges? (graphs : List FlowGraph) (calls : CallGraph) (base : Nat) (g : FlowGraph)
    (rows : EdgeRows FlowEdge) (n : NodeId) : Option (List SuperEdge) := do
  match ← callSiteAt? g n with
  | none => return []
  | some site =>
    let edges ← (calls.calleesOf site).mapM (calleeEdges? graphs base rows n site)
    return edges.flatten

/-- The edges of a method and those of its calls. -/
def methodEdges? (graphs : List FlowGraph) (calls : CallGraph) (e : Nat × FlowGraph) :
    Option (List SuperEdge) := do
  let rows ← flowRows? e.2
  let inside ← e.2.edges.mapM (localEdge? e.1 e.2)
  let crossing ← e.2.nodes.mapM (nodeEdges? graphs calls e.1 e.2 rows)
  return inside ++ crossing.flatten

/-- The control flow of the methods that a call graph reaches; each of them is looked up. -/
def build? (p : Program) (calls : CallGraph) : Option (Except ProgramError SuperGraph) := do
  let methods ← calls.reachable.mapM fun m => return (m, (← p.method? m).isAbstract)
  match ((methods.filter (!·.2)).map (·.1)).mapM (FlowGraph.ofProgram p) with
  | .error e => return .error e
  | .ok graphs =>
    let edges ← (withBases 0 graphs).mapM (methodEdges? graphs calls)
    return .ok ⟨p, graphs, edges.flatten⟩

/-! ## Constants -/

section Constants

variable (p : Program) (g : SuperGraph) (rows : EdgeRows SuperEdge)

/-- The statement at a node: the node is looked up, and then its statement. -/
def superStmt? (n : Nat) : Option (Option Stmt) := do
  let (h, l) ← g.locals[n]?
  stmtAt? h l

/-- What a call edge carries into a method. -/
def passArguments? (site : Site) (callee : MethodId) (f : ConstFact) : Option ConstFact := do
  match (← p.stmt? site).call? with
  | none => return ∅
  | some call =>
    let method ← p.method? callee
    (call.args.zip method.params).foldlM
      (fun g b => return if ← holdsInt? p b.2 then g.update b.2 (f.get b.1) else g) ∅

/-- What a return edge carries back to a call. -/
def passResult? (site : Site) (callee : MethodId) (f : ConstFact) : Option ConstFact := do
  match (← p.stmt? site).assigned? with
  | none => return ∅
  | some result =>
    if ← holdsInt? p result then
      let method ← p.method? callee
      let value := method.returnVars.foldl (fun v r => v.meet (f.get r)) .undefined
      return ConstFact.empty.update result value
    else return ∅

/-- What the step past the call at a node carries. -/
def bypass? (n : Nat) (site : Site) (f : ConstFact) : Option ConstFact := do
  match (← p.stmt? site).assigned? with
  | none => return f
  | some result =>
    let edges ← rows.outEdges[n]?
    let resolved := edges.any fun e => match e.kind with
      | .call _ _ => true
      | _ => false
    let holds ← holdsInt? p result
    return if resolved || !holds then f.remove result else f.update result .nac

/-- What an edge carries, given the fact behind its source. -/
def along? (e : SuperEdge) (f : ConstFact) : Option ConstFact :=
  match e.kind with
  | .normal _ => some f
  | .callToReturn site => bypass? p rows e.source site f
  | .call site callee => passArguments? p site callee f
  | .ret site callee => passResult? p site callee f

/-- The transfer of a node. -/
def superTransfer? (n : Nat) (input output : ConstFact) : Option (Bool × ConstFact) := do
  let stmt ← superStmt? g n
  if stmt.any Stmt.isCall then return output.copyFrom input
  else constantsTransfer? p stmt input output

/-- The fact at the entry of the program. -/
def superBoundary? (entry : Nat) : Option ConstFact := do
  let (h, _) ← g.locals[entry]?
  let method ← p.method? h.method.id
  constantsBoundary? p method

/-- What a node holds after its incoming edges have been joined in. -/
def superJoined? (s : SolverState ConstFact) (n : Nat) : Option ConstFact := do
  let edges ← rows.inEdges[n]?
  let held ← s.input[n]?
  edges.foldlM (fun target e => do
    let carried ← along? p rows e (← s.output[e.source]?)
    return ConstFact.meetInto carried target) held

/-- What the solver does in a turn. -/
def superTurning : Turning ConstFact where
  joined? := superJoined? p rows
  transfer? := superTransfer? p g
  dependents? n := do
    let edges ← rows.outEdges[n]?
    return edges.map (·.target)

/-- The state of the solver after so many turns; none if the program has no entry. -/
def solveProgram? (order : WorklistOrder) (turns : Nat) :
    Option (Option (SolverState ConstFact)) := do
  let rows ← superRows? g
  match SuperAnalysis.entryNode? g with
  | none => return none
  | some entry =>
    let s ← start? g.nodeCount entry (superBoundary? p g entry) ∅ order g.nodes
    let t ← after? ((superTurning p g rows).turn? g.nodeCount) turns s
    return some t

end Constants

variable {p : Program} {calls : CallGraph} {g : SuperGraph}

/-! ## The graph is built -/

section Build

variable {graphs : List FlowGraph} {base : Nat} {h : FlowGraph} {n : NodeId}

theorem callSiteAt?_eq_some (hn : n < h.nodeCount) :
    callSiteAt? h n = some (SuperGraph.callSite? h n) := by
  unfold callSiteAt? SuperGraph.callSite?
  rw [stmtAt?_eq_some hn, Option.bind_eq_bind, Option.bind_some]
  rcases h.stmt? n with _ | stmt
  · rfl
  · rcases h.stmtIndex? n with _ | index <;> cases stmt <;> rfl

theorem localEdges_mapM (hh : h.WellFormed) :
    h.edges.mapM (localEdge? base h) = some (SuperGraph.localEdges base h) := by
  refine mapM_eq_some_map fun e he => ?_
  rw [localEdge?, callSiteAt?_eq_some (Nat.lt_succ_of_lt (hh.source_lt e he)), Option.bind_eq_bind,
    Option.bind_some]
  cases SuperGraph.callSite? h e.source <;> rfl

theorem calleeEdges?_eq_some {rows : EdgeRows FlowEdge}
    (hrow : rows.outEdges[n]? = some (h.outEdges n)) (site : Site) (callee : MethodId) :
    calleeEdges? graphs base rows n site callee =
      some (SuperGraph.calleeEdges graphs base h n site callee) := by
  unfold calleeEdges? SuperGraph.calleeEdges
  rcases find? graphs callee with _ | ⟨calleeBase, f⟩
  · rfl
  · simp only [hrow, Option.bind_eq_bind, Option.bind_some, FlowGraph.successors, List.map_map]
    rfl

theorem nodeEdges?_mapM (graphs : List FlowGraph) (calls : CallGraph) (base : Nat)
    {rows : EdgeRows FlowEdge}
    (hrows : ∀ n < h.nodeCount, rows.outEdges[n]? = some (h.outEdges n)) :
    ∃ lists, h.nodes.mapM (nodeEdges? graphs calls base h rows) = some lists ∧
      lists.flatten = SuperGraph.callEdges graphs calls base h := by
  refine ⟨_, mapM_eq_some_map (fun n hn => ?_), List.flatMap_def.symm⟩
  have hlt := FlowGraph.mem_nodes.1 hn
  rw [nodeEdges?, callSiteAt?_eq_some hlt, Option.bind_eq_bind, Option.bind_some]
  cases SuperGraph.callSite? h n with
  | none => rfl
  | some site =>
    have hcallees : (calls.calleesOf site).mapM (calleeEdges? graphs base rows n site) =
        some ((calls.calleesOf site).map (SuperGraph.calleeEdges graphs base h n site)) :=
      mapM_eq_some_map fun callee _ => calleeEdges?_eq_some (hrows n hlt) site callee
    simp only [hcallees]
    exact congrArg some List.flatMap_def.symm

theorem methodEdges?_eq_some (hh : h.WellFormed) : methodEdges? graphs calls (base, h) =
    some (SuperGraph.localEdges base h ++ SuperGraph.callEdges graphs calls base h) := by
  obtain ⟨rows, hrows, hget⟩ := exists_flowRows? hh
  obtain ⟨lists, hlists, hflatten⟩ := nodeEdges?_mapM graphs calls base fun n hn => (hget n hn).1
  rw [methodEdges?, hrows]
  simp only [Option.bind_eq_bind, Option.bind_some, localEdges_mapM hh, hlists, hflatten]
  rfl

/-- The graph of a whole program is built without a lookup outside the program, if the methods that
are reached are declared. -/
theorem build?_eq_some (hlt : ∀ m ∈ calls.reachable, m < p.methods.length) :
    build? p calls = some (SuperGraph.build p calls) := by
  have hmethods : (calls.reachable.mapM fun m => do return (m, (← p.method? m).isAbstract)) =
      some (calls.reachable.map fun m => (m, p.isAbstract m)) := by
    refine mapM_eq_some_map fun m hm => ?_
    have hlt := hlt m hm
    have hmethod : p.method? m = some p.methods[m] := List.getElem?_eq_getElem hlt
    rw [Program.isAbstract, hmethod]
    rfl
  have hbodies : ((calls.reachable.map fun m => (m, p.isAbstract m)).filter (!·.2)).map (·.1) =
      calls.reachable.filter (!p.isAbstract ·) := by
    rw [List.filter_map, List.map_map]
    exact List.map_id _
  rw [build?, hmethods, Option.bind_eq_bind, Option.bind_some, hbodies, SuperGraph.build]
  cases hgraphs : (calls.reachable.filter (!p.isAbstract ·)).mapM (FlowGraph.ofProgram p) with
  | error e => rfl
  | ok graphs =>
    have hedges : (withBases 0 graphs).mapM (methodEdges? graphs calls) =
        some ((withBases 0 graphs).map fun e =>
          SuperGraph.localEdges e.1 e.2 ++ SuperGraph.callEdges graphs calls e.1 e.2) := by
      refine mapM_eq_some_map fun e he => methodEdges?_eq_some ?_
      obtain ⟨m, -, hm⟩ := (mem_of_mapM_eq_ok hgraphs).1 (SuperGraph.mem_of_mem_withBases he)
      exact (FlowGraph.wellFormed_of_ofProgram hm).1
    simp only [hedges, List.flatMap_def]
    rfl

end Build

/-! ## What edges name -/

/-- What the kind of an edge names is in the program: the site of a call, and a declared method. -/
def Named (p : Program) : SuperEdgeKind → Prop
  | .normal _ => True
  | .callToReturn site => ∃ stmt, p.stmt? site = some stmt
  | .call site callee => (∃ stmt, p.stmt? site = some stmt) ∧ callee < p.methods.length
  | .ret site callee => (∃ stmt, p.stmt? site = some stmt) ∧ callee < p.methods.length

section Edges

variable (hp : p.WellFormed) (hbuild : SuperGraph.build p calls = .ok g)
include hp hbuild

/-- The edges of a graph that is built name what is in the program. -/
theorem named_of_build {e : SuperEdge} (he : e ∈ g.edges) : Named p e.kind := by
  have hmethod : ∀ {base h}, (base, h) ∈ withBases 0 g.graphs →
      p.method? h.method.id = some h.method := fun hmem =>
    SuperGraph.method?_of_mem_graphs hp hbuild (SuperGraph.mem_of_mem_withBases hmem)
  have hstmt : ∀ {base h n site}, (base, h) ∈ withBases 0 g.graphs →
      SuperGraph.callSite? h n = some site → ∃ stmt, p.stmt? site = some stmt := by
    intro base h n site hmem hsite
    obtain ⟨-, call, -, hstmt⟩ := SuperGraph.exists_of_callSite? (hmethod hmem) hsite
    exact ⟨_, hstmt⟩
  -- a method into which an edge leads has a graph
  have hcallee : ∀ {callee found}, find? g.graphs callee = some found →
      callee < p.methods.length := by
    rintro callee ⟨calleeBase, f⟩ hfind
    obtain rfl := SuperGraph.id_of_find? hfind
    exact (List.getElem?_eq_some_iff.1 (hmethod (SuperGraph.mem_withBases_of_find? hfind))).1
  cases SuperGraph.origin_of_build hbuild he with
  | inside => trivial
  | bypass hmem _ hsite => exact hstmt hmem hsite
  | call hmem _ hsite _ hfind => exact ⟨hstmt hmem hsite, hcallee hfind⟩
  | ret hmem _ hsite _ hfind => exact ⟨hstmt hmem hsite, hcallee hfind⟩

/-- A node is a node of a method of the program. -/
theorem exists_locals {n : Nat} (hn : n < g.nodeCount) :
    ∃ h l, g.locals[n]? = some (h, l) ∧ l < h.nodeCount ∧ p.method? h.method.id = some h.method := by
  obtain ⟨base, h, hmem, l, hl, rfl⟩ := SuperGraph.exists_place_of_lt hn
  exact ⟨h, l, SuperGraph.getElem?_locals hmem hl, hl,
    SuperGraph.method?_of_mem_graphs hp hbuild (SuperGraph.mem_of_mem_withBases hmem)⟩

end Edges

/-! ## Edges carry values between declared variables -/

section Along

variable {site : Site} {stmt : Stmt}

theorem passArguments?_eq_some (hp : p.WellFormed) (hstmt : p.stmt? site = some stmt)
    {callee : MethodId} (hcallee : callee < p.methods.length) (f : ConstFact) :
    passArguments? p site callee f = some (Constants.passArguments p site callee f) := by
  have hmethod : p.method? callee = some p.methods[callee] := List.getElem?_eq_getElem hcallee
  rw [passArguments?, Constants.passArguments, hstmt, hmethod, Option.bind_eq_bind, Option.bind_some,
    Option.bind_some]
  cases stmt.call? with
  | none => rfl
  | some call =>
    refine foldlM_eq_some_of_forall (fun b hb carried => ?_) _
    rw [holdsInt?_eq_some (param_lt hp hmethod (List.of_mem_zip hb).2)]
    rfl

theorem passResult?_eq_some (hp : p.WellFormed) (hstmt : p.stmt? site = some stmt)
    {callee : MethodId} (hcallee : callee < p.methods.length) (f : ConstFact) :
    passResult? p site callee f = some (Constants.passResult p site callee f) := by
  have hmethod : p.method? callee = some p.methods[callee] := List.getElem?_eq_getElem hcallee
  rw [passResult?, Constants.passResult, Constants.returnedValue, hstmt, hmethod, Option.bind_eq_bind,
    Option.bind_some, Option.bind_some]
  cases hresult : stmt.assigned? with
  | none => rfl
  | some result =>
    dsimp only
    rw [holdsInt?_eq_some (assigned_lt hp hstmt hresult), Option.bind_eq_bind, Option.bind_some]
    cases p.holdsInt result <;> rfl

theorem bypass?_eq_some (hp : p.WellFormed) (hstmt : p.stmt? site = some stmt) {n : Nat}
    {rows : EdgeRows SuperEdge} (hrow : rows.outEdges[n]? = some (g.outEdges n)) (f : ConstFact) :
    bypass? p rows n site f = some (Constants.bypass p site (Constants.isResolved g n) f) := by
  rw [bypass?, Constants.bypass, hstmt, hrow, Option.bind_eq_bind, Option.bind_some, Option.bind_some]
  cases hresult : stmt.assigned? with
  | none => rfl
  | some result =>
    dsimp only
    rw [holdsInt?_eq_some (assigned_lt hp hstmt hresult)]
    rfl

/-- An edge that names what is in the program carries values between declared variables. -/
theorem along?_eq_some (hp : p.WellFormed) {e : SuperEdge} (hnamed : Named p e.kind)
    {rows : EdgeRows SuperEdge} (hrow : rows.outEdges[e.source]? = some (g.outEdges e.source))
    (f : ConstFact) : along? p rows e f = some (Constants.along p g e f) := by
  unfold along? Constants.along
  cases hkind : e.kind with
  | normal kind => rfl
  | callToReturn site =>
    rw [hkind] at hnamed
    obtain ⟨stmt, hstmt⟩ := hnamed
    exact bypass?_eq_some hp hstmt hrow f
  | call site callee =>
    rw [hkind] at hnamed
    obtain ⟨⟨stmt, hstmt⟩, hcallee⟩ := hnamed
    exact passArguments?_eq_some hp hstmt hcallee f
  | ret site callee =>
    rw [hkind] at hnamed
    obtain ⟨⟨stmt, hstmt⟩, hcallee⟩ := hnamed
    exact passResult?_eq_some hp hstmt hcallee f

end Along

/-! ## Solving -/

section Solving

variable (hp : p.WellFormed) (hbuild : SuperGraph.build p calls = .ok g)
include hp hbuild

theorem superTransfer?_eq_some {n : Nat} (hn : n < g.nodeCount) (input output : ConstFact) :
    superTransfer? p g n input output = some (Constants.superTransfer p g n input output) := by
  obtain ⟨h, l, hlocal, hl, hmethod⟩ := exists_locals hp hbuild hn
  have hstmt : g.stmt? n = h.stmt? l := by
    rw [SuperGraph.stmt?, hlocal, Option.bind_some]
  have hassigned : ∀ stmt v, h.stmt? l = some stmt → stmt.assigned? = some v → v < p.vars.length := by
    intro stmt v hat hv
    obtain ⟨index, hsite⟩ := exists_stmt?_of_node hmethod hat
    exact assigned_lt hp hsite hv
  have hfound : superStmt? g n = some (h.stmt? l) := by
    rw [superStmt?, hlocal]
    exact stmtAt?_eq_some hl
  rw [superTransfer?, Constants.superTransfer, SuperGraph.isCall, hfound, hstmt, Option.bind_eq_bind,
    Option.bind_some, constantsTransfer?_eq_some hassigned]
  split <;> rfl

theorem superBoundary?_eq_some {entry : Nat} (hentry : SuperAnalysis.entryNode? g = some entry) :
    superBoundary? p g entry = some (Constants.superBoundary p g) := by
  obtain ⟨h, l, hlocal, -, hmethod⟩ :=
    exists_locals hp hbuild (SuperAnalysis.entryNode?_lt hentry)
  have hof : g.methodOf? entry = some h.method.id := by
    rw [SuperGraph.methodOf?, hlocal, Option.map_some]
  rw [superBoundary?, Constants.superBoundary, hentry, Option.bind_some, hof, hlocal]
  simp only [hmethod, Option.bind_eq_bind, Option.bind_some, Option.map_some, Option.getD_some]
  exact constantsBoundary?_eq_some fun _ hv => param_lt hp hmethod hv

/-- What a node holds and what its incoming edges carry is looked up where it is. -/
theorem superJoined?_eq_some {rows : EdgeRows SuperEdge} (hrows : ∀ n < g.nodeCount,
    rows.outEdges[n]? = some (g.outEdges n) ∧ rows.inEdges[n]? = some (g.inEdges n))
    {s : SolverState ConstFact} {n : Nat} (hs : Fits g.nodeCount s) (hn : n < g.nodeCount) :
    superJoined? p rows s n = some ((Constants.superAnalysis p g).joined g s n) := by
  have hinput : n < s.input.length := hs.input_length.symm ▸ hn
  rw [superJoined?, (hrows n hn).2, List.getElem?_eq_getElem hinput]
  simp only [Option.bind_eq_bind, Option.bind_some, SuperAnalysis.joined,
    List.getElem?_eq_getElem hinput, Option.getD_some]
  refine foldlM_eq_some_of_forall (fun e he target => ?_) _
  obtain ⟨hmem, -⟩ := SuperGraph.mem_inEdges.1 he
  have hsource := (SuperGraph.wellFormed_of_build hbuild).source_lt e hmem
  have houtput : e.source < s.output.length := hs.output_length.symm ▸ hsource
  simp only [List.getElem?_eq_getElem houtput, Option.bind_some,
    along?_eq_some hp (named_of_build hp hbuild hmem) (hrows _ hsource).1, Option.getD_some]
  rfl

/-- What a turn looks up is there. -/
theorem superTurning_agrees {rows : EdgeRows SuperEdge} (hrows : ∀ n < g.nodeCount,
    rows.outEdges[n]? = some (g.outEdges n) ∧ rows.inEdges[n]? = some (g.inEdges n)) :
    (superTurning p g rows).Agrees g.nodeCount ((Constants.superAnalysis p g).joined g)
      (Constants.superAnalysis p g).transfer g.successors where
  joined_eq _ _ hs hn := superJoined?_eq_some hp hbuild hrows hs hn
  transfer_eq _ input output hn := superTransfer?_eq_some hp hbuild hn input output
  dependents_eq n hn := by
    have hfound : (superTurning p g rows).dependents? n =
        (rows.outEdges[n]?).bind fun edges => some (edges.map (·.target)) := rfl
    rw [hfound, (hrows n hn).1]
    rfl
  dependent_lt n _ m hm := by
    obtain ⟨e, he, -, rfl⟩ := SuperGraph.mem_successors.1 hm
    exact (SuperGraph.wellFormed_of_build hbuild).target_lt e he

/-- However many turns the solver takes on a graph that is built, it looks up nothing that is not
there. -/
theorem solveProgram?_eq_some (order : WorklistOrder) (turns : Nat) :
    solveProgram? p g order turns = some ((SuperAnalysis.entryNode? g).map fun entry =>
      stateAfter ((Constants.superAnalysis p g).step g) turns
        ((Constants.superAnalysis p g).start g entry order)) := by
  have hg := SuperGraph.wellFormed_of_build hbuild
  obtain ⟨rows, hrows, hget⟩ := SuperGraph.exists_superRows? hg
  rw [solveProgram?, hrows, Option.bind_eq_bind, Option.bind_some]
  cases hentry : SuperAnalysis.entryNode? g with
  | none => rfl
  | some entry =>
    obtain ⟨hstart, hfits⟩ := start?_eq_some entry (Constants.superBoundary p g) ∅ order
      fun n hn => SuperGraph.mem_nodes.1 hn
    have hruns : after? ((superTurning p g rows).turn? g.nodeCount) turns
        (.start g.nodeCount entry (Constants.superBoundary p g) ∅ order g.nodes) =
          some (stateAfter ((Constants.superAnalysis p g).step g) turns
            ((Constants.superAnalysis p g).start g entry order)) :=
      (superTurning_agrees hp hbuild hget).after?_eq_some hfits turns
    simp only [superBoundary?_eq_some hp hbuild hentry, hstart, Option.bind_eq_bind, Option.bind_some,
      hruns]
    rfl

end Solving

end TacAnalysis.Strict
