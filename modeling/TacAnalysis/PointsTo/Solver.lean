import TacAnalysis.CallGraph.Basic
import TacAnalysis.Iterate
import TacAnalysis.PointsTo.Pending
import TacAnalysis.Program.Resolution

/-!
# Pointer analysis

Which objects each pointer may point to, and which methods are reached, found together:
calls are resolved against the objects that arrive at their receiver.

The statements of a method are read once, when it becomes reachable. Copies, accesses to
static fields and static calls become edges at once, and allocations send their object
to its variable. Accesses through a variable, and calls on it, wait for the objects that
arrive there.
-/

namespace TacAnalysis

/-- What a pointer analysis is about. -/
structure PointsToProblem where
  /-- The program whose pointers are analysed. -/
  program : Program
  /-- Which object stands for which allocation. -/
  heap : HeapModel
  /-- The order in which pending flow is handled. -/
  order : WorklistOrder

/-- The state of a pointer analysis. -/
structure PointsToState where
  /-- The pointers mentioned so far, their edges and their objects. -/
  graph : PointerGraph
  /-- The methods reached and the calls resolved so far. -/
  calls : CallGraph
  /-- The objects that have not arrived yet. -/
  pending : Pending
  /-- Whether the entry method has been made reachable. -/
  started : Bool

namespace PointsToState

variable (s : PointsToState)

/-- Sends objects to a pointer. -/
def send (target : Pointer) (objects : IdSet) : PointsToState :=
  let (graph, id) := s.graph.intern target
  { s with graph, pending := s.pending.add id objects }

/-- Adds an edge; what its source points to is sent along a new one. -/
def connect (source target : Pointer) : PointsToState :=
  let (graph, i) := s.graph.intern source
  let (graph, j) := graph.intern target
  if graph.hasEdge i j then { s with graph }
  else
    let objects := graph.objects i
    let pending := if objects.isEmpty then s.pending else s.pending.add j objects
    { s with graph := graph.addEdge i j, pending }

/-- Adds the objects that a pointer does not have yet, and sends them on to its
successors. The new objects are returned. -/
def propagate (id : PointerId) (objects : IdSet) : PointsToState × IdSet :=
  let new := objects.diff (s.graph.objects id)
  if new.isEmpty then (s, new)
  else
    let pending := s.pending.addAll (s.graph.successors id) new
    ({ s with graph := s.graph.addObjects id new, pending }, new)

/-- Connects the arguments of a call to the parameters of a callee, as many as there are
of both, and the returned variables to the result. -/
def connectCall (call : Invoke) (callee : Method) : PointsToState :=
  let s := (call.args.zip callee.params).foldl
    (fun s e => s.connect (.var e.1) (.var e.2)) s
  match call.result with
  | none => s
  | some result => callee.returnVars.foldl (fun s v => s.connect (.var v) (.var result)) s

/-- The state after `connectCall`, for a method given by its number. -/
def connectCallee (p : Program) (call : Invoke) (callee : MethodId) : PointsToState :=
  match p.method? callee with
  | some method => s.connectCall call method
  | none => s

end PointsToState

namespace PointsToProblem

variable (c : PointsToProblem)

/-- The state before the analysis begins. -/
def initial : PointsToState := ⟨.empty, .empty, .empty c.order, false⟩

/-- Reads a statement of a method that has just become reachable. `reach?` makes the
callee of a static call reachable. -/
def readStmt? (reach? : MethodId → PointsToState → Option PointsToState) (s : PointsToState)
    (e : Site × Stmt) : Option PointsToState :=
  match e.2 with
  | .assign lhs (.var source) => some (s.connect (.var source) (.var lhs))
  | .assign lhs (.cast _ source) => some (s.connect (.var source) (.var lhs))
  | .assign lhs (.new _) =>
    match c.heap.objAt? e.1 with
    | some o => some (s.send (.var lhs) (.singleton o))
    | none => some s
  | .assign lhs (.staticField f) => some (s.connect (.staticField f) (.var lhs))
  | .storeField none f value => some (s.connect (.var value) (.staticField f))
  | .invoke call =>
    if call.kind = .static then
      match c.program.resolveCallee none call with
      | none => some s
      | some callee =>
        let edge : CallEdge := ⟨.static, e.1, callee⟩
        if s.calls.hasEdge edge then some s
        else do
          let s ← reach? callee { s with calls := s.calls.addEdge edge }
          return s.connectCallee c.program call callee
    else some s
  | _ => some s

/-- The statements of a method with their sites. -/
def sitesOf (m : MethodId) : List (Site × Stmt) :=
  match c.program.method? m with
  | some method => method.stmts.zipIdx.map fun e => (⟨m, e.2⟩, e.1)
  | none => []

/-- Makes a method reachable and reads its statements, if static calls are nested less
than `depth` deep. -/
def reachWithin? : Nat → MethodId → PointsToState → Option PointsToState
  | 0, _, _ => none
  | depth + 1, m, s =>
    if s.calls.contains m then some s
    else
      (c.sitesOf m).foldlM (c.readStmt? (reachWithin? depth))
        { s with calls := s.calls.addReachable m }

/-- Makes a method reachable and reads its statements. Each nested static call that is
followed makes another method reachable, so there are never more than all methods. -/
def reach (m : MethodId) (s : PointsToState) : PointsToState :=
  (c.reachWithin? (c.program.methods.length + 1) m s).getD s

/-- Begins the analysis at the entry method; does nothing if it has begun. -/
def begin (s : PointsToState) : PointsToState :=
  if s.started then s
  else
    let s := { s with started := true }
    match c.program.entry with
    | none => s
    | some entry => c.reach entry { s with calls := s.calls.addEntry entry }

/-- The sites of a list that are in reachable methods. -/
def reachableSites (s : PointsToState) (sites : List Site) : List Site :=
  sites.filter fun site => s.calls.contains site.method

/-- Connects an access to memory through a variable with the memory of an object that
has arrived there. -/
def connectAccess (o : ObjId) (s : PointsToState) (site : Site) : PointsToState :=
  match c.program.stmt? site with
  | some (.storeField _ f value) => s.connect (.var value) (.instanceField o f)
  | some (.assign lhs (.instanceField _ f)) => s.connect (.instanceField o f) (.var lhs)
  | some (.storeArray _ _ value) => s.connect (.var value) (.arrayIndex o)
  | some (.assign lhs (.arrayAccess _ _)) => s.connect (.arrayIndex o) (.var lhs)
  | _ => s

/-- Connects all reachable accesses through a variable: field stores, field loads, array
stores, array loads. -/
def connectAccesses (v : VarId) (o : ObjId) (s : PointsToState) : PointsToState :=
  let related := c.program.relatedTo v
  let sites := related.storeFields ++ related.loadFields ++ related.storeArrays ++ related.loadArrays
  (reachableSites s sites).foldl (c.connectAccess o) s

/-- Resolves a call for an object that has arrived at its receiver: the object is sent
to the variable `this` of the callee, and a new call is connected. Callees of new calls
are collected. -/
def resolveCall (o : ObjId) (acc : PointsToState × List MethodId) (site : Site) :
    PointsToState × List MethodId :=
  let (s, discovered) := acc
  match (c.program.stmt? site).bind Stmt.call? with
  | none => acc
  | some call =>
    match c.program.resolveCallee (c.heap.ty? o) call with
    | none => acc
    | some callee =>
      let s := match (c.program.method? callee).bind (·.thisVar) with
        | some self => s.send (.var self) (.singleton o)
        | none => s
      let edge : CallEdge := ⟨call.kind, site, callee⟩
      if s.calls.hasEdge edge then (s, discovered)
      else
        let s := { s with calls := s.calls.addEdge edge }
        (s.connectCallee c.program call callee, discovered ++ [callee])

/-- Resolves all reachable calls on a variable for an object that has arrived there, and
then makes the new callees reachable. -/
def resolveCalls (v : VarId) (o : ObjId) (s : PointsToState) : PointsToState :=
  let sites := reachableSites s (c.program.relatedTo v).invokes
  let (s, discovered) := sites.foldl (c.resolveCall o) (s, [])
  discovered.foldl (fun s callee => c.reach callee s) s

/-- Handles the arrival of an object at a variable. -/
def arrive (v : VarId) (s : PointsToState) (o : ObjId) : PointsToState :=
  c.resolveCalls v o (c.connectAccesses v o s)

/-- Handles one pending entry; none if nothing is on its way. -/
def step (s : PointsToState) : Option PointsToState := do
  let s := c.begin s
  let ((id, objects), pending) ← s.pending.pop?
  let (s, new) := { s with pending }.propagate id objects
  match s.graph.pointer? id with
  | some (.var v) => return new.toList.foldl (c.arrive v) s
  | _ => return s

/-- The final state, if at most `budget` pending entries are handled. -/
def run? (budget : Nat) : Option PointsToState := iterate? c.step budget (c.begin c.initial)

end PointsToProblem

/-- What a pointer analysis has found. -/
structure PointsToResult where
  /-- The pointers, their edges and their objects. -/
  graph : PointerGraph
  /-- The methods reached and the calls resolved. -/
  calls : CallGraph
  /-- The objects of the heap model. -/
  objects : List Obj

namespace PointsToResult

variable (r : PointsToResult)

/-- The objects that a pointer may point to, if it was ever mentioned. -/
def pointsTo? (x : Pointer) : Option IdSet := r.graph.pointsTo? x

/-- The objects that a variable may point to. -/
def ofVar (v : VarId) : IdSet := (r.pointsTo? (.var v)).getD ∅

/-- Whether two variables may refer to the same object. -/
def mayAlias (v w : VarId) : Bool := (r.ofVar v).toList.any fun o => decide (o ∈ r.ofVar w)

end PointsToResult

/-- What has been found in a state. -/
def PointsToProblem.result (c : PointsToProblem) (s : PointsToState) : PointsToResult :=
  ⟨s.graph, s.calls, c.heap.objects⟩

/-- The pointer analysis of a program with one object for each allocation, if at most
`budget` pending entries are handled. -/
def Program.pointsTo? (p : Program) (order : WorklistOrder) (budget : Nat) :
    Option PointsToResult :=
  let c : PointsToProblem := ⟨p, .bySite p, order⟩
  (c.run? budget).map c.result

end TacAnalysis
