import TacAnalysis.Proofs.PointsTo.Termination
import TacAnalysis.Proofs.Strict.Program

/-!
# Strict pointer analysis

Pointer analysis with strict lookups: of the pointers in the graph, of the methods that become
reachable or are called, of the statements at indexed sites, of the index itself and of the objects
of the heap model. The recursion into static calls is strict as well: nested too deep it gives
nothing.

In an accepted program whose superclass links form no cycle, every step from a state that a run
comes to looks up what is there: pointers have numbers because edges and pending entries are made
with interned ones, methods are declared because resolved calls run bodies, and objects are
allocated because nothing else ever flows.

Main statements: `begin?_eq_some`, `step?_eq_some` and `pointsTo?_eq_some`.
-/

namespace TacAnalysis.Strict

/-! ## Edges -/

/-- Adds an edge; the node of its source is looked up. -/
def connect? (s : PointsToState) (source target : Pointer) : Option PointsToState := do
  let (graph, i) := s.graph.intern source
  let (graph, j) := graph.intern target
  let node ← graph.nodes[i]?
  if j ∈ node.successors then return { s with graph }
  else
    let pending := if node.objects.isEmpty then s.pending else s.pending.add j node.objects
    return { s with graph := graph.addEdge i j, pending }

/-- Adds the objects that a pointer does not have yet; its node is looked up. -/
def propagate? (s : PointsToState) (id : PointerId) (objects : IdSet) :
    Option (PointsToState × IdSet) := do
  let node ← s.graph.nodes[id]?
  let new := objects.diff node.objects
  if new.isEmpty then return (s, new)
  else
    let pending := s.pending.addAll node.successors new
    return ({ s with graph := s.graph.addObjects id new, pending }, new)

/-- Connects the arguments of a call to the parameters of a callee, and the returned variables to
the result. -/
def connectCall? (s : PointsToState) (call : Invoke) (callee : Method) : Option PointsToState := do
  let s ← (call.args.zip callee.params).foldlM (fun s e => connect? s (.var e.1) (.var e.2)) s
  match call.result with
  | none => return s
  | some result => callee.returnVars.foldlM (fun s v => connect? s (.var v) (.var result)) s

/-- The same for a callee that is looked up. -/
def connectCallee? (p : Program) (s : PointsToState) (call : Invoke) (callee : MethodId) :
    Option PointsToState := do
  let method ← p.method? callee
  connectCall? s call method

variable (c : PointsToProblem)

/-! ## Reachable methods -/

/-- Reads a statement of a method that has just become reachable. -/
def readStmt? (reach? : MethodId → PointsToState → Option PointsToState) (s : PointsToState)
    (e : Site × Stmt) : Option PointsToState :=
  match e.2 with
  | .assign lhs (.var source) => connect? s (.var source) (.var lhs)
  | .assign lhs (.cast _ source) => connect? s (.var source) (.var lhs)
  | .assign lhs (.new _) =>
    match c.heap.objAt? e.1 with
    | some o => some (s.send (.var lhs) (.singleton o))
    | none => some s
  | .assign lhs (.staticField f) => connect? s (.staticField f) (.var lhs)
  | .storeField none f value => connect? s (.var value) (.staticField f)
  | .invoke call =>
    if call.kind = .static then do
      match ← resolveCallee? c.program none call with
      | none => return s
      | some callee =>
        let edge : CallEdge := ⟨.static, e.1, callee⟩
        if s.calls.hasEdge edge then return s
        else
          let s ← reach? callee { s with calls := s.calls.addEdge edge }
          connectCallee? c.program s call callee
    else some s
  | _ => some s

/-- The statements of a method with their sites. -/
def sitesOf? (m : MethodId) : Option (List (Site × Stmt)) := do
  let method ← c.program.method? m
  return method.stmts.zipIdx.map fun e => (⟨m, e.2⟩, e.1)

/-- Makes a method reachable and reads its statements, if static calls are nested less than
`depth` deep. -/
def reach? : Nat → MethodId → PointsToState → Option PointsToState
  | 0, _, _ => none
  | depth + 1, m, s =>
    if s.calls.contains m then some s
    else do
      (← sitesOf? c m).foldlM (readStmt? c (reach? depth)) { s with calls := s.calls.addReachable m }

/-- Begins the analysis at the entry method. -/
def begin? (s : PointsToState) : Option PointsToState :=
  if s.started then some s
  else
    let s := { s with started := true }
    match c.program.entry with
    | none => some s
    | some entry => reach? c c.levels entry { s with calls := s.calls.addEntry entry }

/-! ## Objects that arrive -/

/-- Connects an access to memory, which is looked up, with the memory of an object. -/
def connectAccess? (o : ObjId) (s : PointsToState) (site : Site) : Option PointsToState := do
  match ← c.program.stmt? site with
  | .storeField _ f value => connect? s (.var value) (.instanceField o f)
  | .assign lhs (.instanceField _ f) => connect? s (.instanceField o f) (.var lhs)
  | .storeArray _ _ value => connect? s (.var value) (.arrayIndex o)
  | .assign lhs (.arrayAccess _ _) => connect? s (.arrayIndex o) (.var lhs)
  | _ => return s

/-- Connects all reachable accesses through a variable. -/
def connectAccesses? (v : VarId) (o : ObjId) (s : PointsToState) : Option PointsToState := do
  let related ← c.program.related[v]?
  let sites := related.storeFields ++ related.loadFields ++ related.storeArrays ++ related.loadArrays
  (PointsToProblem.reachableSites s sites).foldlM (connectAccess? c o) s

/-- Resolves a call for an object: statement, object and callee are looked up. -/
def resolveCall? (o : ObjId) (acc : PointsToState × List MethodId) (site : Site) :
    Option (PointsToState × List MethodId) := do
  let (s, discovered) := acc
  match (← c.program.stmt? site).call? with
  | none => return acc
  | some call =>
    let obj ← c.heap.objects[o]?
    match ← resolveCallee? c.program (some obj.ty) call with
    | none => return acc
    | some callee =>
      let method ← c.program.method? callee
      let s := match method.thisVar with
        | some self => s.send (.var self) (.singleton o)
        | none => s
      let edge : CallEdge := ⟨call.kind, site, callee⟩
      if s.calls.hasEdge edge then return (s, discovered)
      else
        let s ← connectCallee? c.program { s with calls := s.calls.addEdge edge } call callee
        return (s, discovered ++ [callee])

/-- Resolves all reachable calls on a variable, and then makes the new callees reachable. -/
def resolveCalls? (v : VarId) (o : ObjId) (s : PointsToState) : Option PointsToState := do
  let related ← c.program.related[v]?
  let sites := PointsToProblem.reachableSites s related.invokes
  let (s, discovered) ← sites.foldlM (resolveCall? c o) (s, [])
  discovered.foldlM (fun s callee => reach? c c.levels callee s) s

/-- Handles the arrival of an object at a variable. -/
def arrive? (v : VarId) (s : PointsToState) (o : ObjId) : Option PointsToState := do
  resolveCalls? c v o (← connectAccesses? c v o s)

/-- Handles one pending entry: nothing if a lookup fails, otherwise the next state or that nothing
is on its way. -/
def step? (s : PointsToState) : Option (Option PointsToState) := do
  let s ← begin? c s
  match s.pending.pop? with
  | none => return none
  | some ((id, objects), pending) =>
    let (s, new) ← propagate? { s with pending } id objects
    match ← s.graph.pointer? id with
    | .var v => return some (← new.toList.foldlM (arrive? c v) s)
    | _ => return some s

/-- The state of a pointer analysis after so many entries. -/
def pointsTo? (steps : Nat) : Option PointsToState := do
  let s ← begin? c c.initial
  after? (step? c) steps s

variable {c} {s : PointsToState}

/-! ## Interned pointers have numbers -/

theorem intern_lt (g : PointerGraph) (x : Pointer) : (g.intern x).2 < (g.intern x).1.nodes.length := by
  unfold PointerGraph.intern
  cases hlookup : g.lookup? x with
  | none => simp
  | some i => exact (List.findIdx?_eq_some_iff_findIdx_eq.1 hlookup).1

theorem length_le_intern (g : PointerGraph) (x : Pointer) :
    g.nodes.length ≤ (g.intern x).1.nodes.length := by
  unfold PointerGraph.intern
  cases g.lookup? x <;> simp

/-- Adding an edge looks up a pointer that has a number. -/
theorem connect?_eq_some (s : PointsToState) (x y : Pointer) : connect? s x y = some (s.connect x y) := by
  have hsource := Nat.lt_of_lt_of_le (intern_lt s.graph x) (length_le_intern (s.graph.intern x).1 y)
  unfold connect? PointsToState.connect PointerGraph.hasEdge PointerGraph.successors
    PointerGraph.successors? PointerGraph.objects
  simp only [List.getElem?_eq_getElem hsource, Option.bind_eq_bind, Option.bind_some, Option.map_some,
    Option.getD_some, decide_eq_true_eq]
  split <;> rfl

theorem connectCall?_eq_some (s : PointsToState) (call : Invoke) (callee : Method) :
    connectCall? s call callee = some (s.connectCall call callee) := by
  have hall : ∀ {α : Type} (xs : List α) (source target : α → Pointer) (s : PointsToState),
      xs.foldlM (fun s e => connect? s (source e) (target e)) s =
        some (xs.foldl (fun s e => s.connect (source e) (target e)) s) := fun xs source target s =>
    foldlM_eq_some_of_forall (fun e _ t => connect?_eq_some t (source e) (target e)) s
  unfold connectCall? PointsToState.connectCall
  rw [hall, Option.bind_eq_bind, Option.bind_some]
  cases call.result with
  | none => rfl
  | some result => exact hall callee.returnVars (fun v => .var v) (fun _ => .var result) _

/-- Connecting a declared callee looks it up. -/
theorem connectCallee?_eq_some {p : Program} {call : Invoke} {callee : MethodId}
    (hcallee : callee < p.methods.length) (s : PointsToState) :
    connectCallee? p s call callee = some (s.connectCallee p call callee) := by
  have hmethod : p.method? callee = some p.methods[callee] := List.getElem?_eq_getElem hcallee
  rw [connectCallee?, PointsToState.connectCallee, hmethod]
  exact connectCall?_eq_some s call _

/-- What is sent to a pointer that has a number is propagated. -/
theorem propagate?_eq_some {id : PointerId} (hid : id < s.graph.nodes.length) (objects : IdSet) :
    propagate? s id objects = some (s.propagate id objects) := by
  unfold propagate? PointsToState.propagate PointerGraph.objects PointerGraph.successors
    PointerGraph.successors?
  simp only [List.getElem?_eq_getElem hid, Option.bind_eq_bind, Option.bind_some, Option.map_some,
    Option.getD_some]
  split <;> rfl

/-! ## Methods are declared -/

section Reach

variable (hp : c.program.Accepted) (hacyclic : c.program.Acyclic)

include hp hacyclic

/-- Reading a statement of the program makes declared methods reachable and looks up nothing that
is not there. -/
theorem readStmt?_eq {look reach : MethodId → PointsToState → Option PointsToState}
    (hreach : ∀ m < c.program.methods.length, ∀ s, look m s = reach m s) {e : Site × Stmt}
    (hstmt : c.program.stmt? e.1 = some e.2) (s : PointsToState) :
    readStmt? c look s e = c.readStmt? reach s e := by
  obtain ⟨site, stmt⟩ := e
  match stmt with
  | .assign lhs (.var source) => exact connect?_eq_some s _ _
  | .assign lhs (.cast ty source) => exact connect?_eq_some s _ _
  | .assign lhs (.staticField f) => exact connect?_eq_some s _ _
  | .storeField none f value => exact connect?_eq_some s _ _
  | .invoke call =>
    by_cases hkind : call.kind = .static
    · have hresolved : resolveCallee? c.program none call = some (c.program.resolveCallee none call) :=
        resolveCallee?_eq_some hp hacyclic (hp.target_lt hstmt) (by simp)
      simp only [readStmt?, PointsToProblem.readStmt?, if_pos hkind, hresolved, Option.bind_eq_bind,
        Option.bind_some]
      cases hcallee : c.program.resolveCallee none call with
      | none => rfl
      | some callee =>
        have hlt := (Program.HasBody.of_resolveCallee hp.wellFormed hcallee).lt
        simp only [hreach callee hlt, connectCallee?_eq_some hlt]
        rfl
    · simp only [readStmt?, PointsToProblem.readStmt?, if_neg hkind]
  | .assign _ (.new _) | .assign _ (.intLiteral _) | .assign _ .nullLiteral
  | .assign _ (.stringLiteral _) | .assign _ (.binary _) | .assign _ (.instanceField ..)
  | .assign _ (.arrayAccess ..) | .assign _ (.arrayLength _) | .nop | .storeField (some _) ..
  | .storeArray .. | .branch .. | .goto _ | .switch .. | .ret _ => rfl

/-- Making a declared method reachable looks up nothing that is not there. -/
theorem reach?_eq {depth : Nat} {m : MethodId} (hm : m < c.program.methods.length)
    (s : PointsToState) : reach? c depth m s = c.reachWithin? depth m s := by
  induction depth generalizing m s with
  | zero => rfl
  | succ depth ih =>
    have hsites : sitesOf? c m = some (c.sitesOf m) := by
      have hmethod : c.program.method? m = some c.program.methods[m] := List.getElem?_eq_getElem hm
      rw [sitesOf?, PointsToProblem.sitesOf, hmethod]
      rfl
    rw [reach?, PointsToProblem.reachWithin?, hsites, Option.bind_eq_bind, Option.bind_some]
    split
    · rfl
    · exact foldlM_congr (fun e he t =>
        readStmt?_eq hp hacyclic (fun n hn u => ih hn u) (PointsToProblem.mem_sitesOf.1 he).2 t) _

/-- The analysis begins without a lookup outside the program. -/
theorem begin?_eq_some : begin? c c.initial = some (c.begin c.initial) := by
  rw [← PointsToProblem.beginWithin?_levels hp.wellFormed]
  unfold begin? PointsToProblem.beginWithin?
  cases hentry : c.program.entry with
  | none => rfl
  | some entry =>
    dsimp only
    rw [reach?_eq hp hacyclic (hp.wellFormed.entry_lt entry hentry)]

end Reach

/-! ## Objects are allocated -/

/-- The objects that stand for the allocations of a program are listed, and instances are of
declared classes. -/
def ListsObjects (heap : HeapModel) (p : Program) : Prop :=
  ∀ site o, heap.objAt? site = some o →
    ∃ obj, heap.objects[o]? = some obj ∧ ∀ c, obj.ty = .object c → c < p.classes.length

/-- One object for each allocation is listed, and has the allocated type. -/
theorem listsObjects_bySite {p : Program} (hp : p.Accepted) : ListsObjects (.bySite p) p := by
  intro site o hobj
  obtain ⟨ho, -⟩ := List.findIdx?_eq_some_iff_findIdx_eq.1 hobj
  refine ⟨⟨o, p.allocations[o].1, p.allocations[o].2⟩, by simp [HeapModel.bySite, ho], fun c hc => ?_⟩
  obtain ⟨⟨at', stmt⟩, hsite, hallocated⟩ := List.mem_filterMap.1 (List.getElem_mem ho)
  obtain ⟨ty, hty, heq⟩ := Option.map_eq_some_iff.1 hallocated
  rw [← heq] at hc
  obtain rfl : ty = .object c := hc
  match stmt, hty with
  | .assign lhs (.new _), rfl => exact hp.allocated_lt (hp.wellFormed.mem_sites.1 hsite)

/-! ## What arrives is looked up -/

section Arrive

variable {v : VarId} {o : ObjId}

/-- An access that is there is connected. -/
theorem connectAccess?_eq_some {site : Site} {stmt : Stmt} (hstmt : c.program.stmt? site = some stmt)
    (s : PointsToState) : connectAccess? c o s site = some (c.connectAccess o s site) := by
  unfold connectAccess? PointsToProblem.connectAccess
  rw [hstmt, Option.bind_eq_bind, Option.bind_some]
  match stmt with
  | .storeField _ f value => exact connect?_eq_some s _ _
  | .assign lhs (.instanceField _ f) => exact connect?_eq_some s _ _
  | .storeArray _ _ value => exact connect?_eq_some s _ _
  | .assign lhs (.arrayAccess ..) => exact connect?_eq_some s _ _
  | .assign _ (.var _) | .assign _ (.cast ..) | .assign _ (.staticField _) | .assign _ (.new _)
  | .assign _ (.intLiteral _) | .assign _ .nullLiteral | .assign _ (.stringLiteral _)
  | .assign _ (.binary _) | .assign _ (.arrayLength _) | .nop | .invoke _ | .branch .. | .goto _
  | .switch .. | .ret _ => rfl

/-- The accesses through a variable are where the index says. -/
theorem connectAccesses?_eq_some (hp : c.program.Accepted) (hv : v < c.program.vars.length)
    (s : PointsToState) : connectAccesses? c v o s = some (c.connectAccesses v o s) := by
  rw [connectAccesses?, hp.related_eq_some hv]
  refine foldlM_eq_some_of_forall (fun site hsite => ?_) s
  have hrelated := (PointsToProblem.mem_reachableSites.1 hsite).1
  obtain ⟨access, -, haccess⟩ := PointsToProblem.mem_accessSites.1 hrelated
  obtain ⟨stmt, hstmt, -⟩ := hp.wellFormed.mem_relatedTo.1 haccess
  exact connectAccess?_eq_some hstmt

/-- Methods that the rules reach are declared. -/
theorem lt_of_derives_reached (hp : c.program.WellFormed) {m : MethodId}
    (h : c.Derives (.reached m)) : m < c.program.methods.length := by
  cases h with
  | entry hentry => exact hp.entry_lt m hentry
  | callee hcalled => exact (CallGraph.tracedBy_of_derived hp hcalled).2.1.lt

variable (hp : c.program.Accepted) (hacyclic : c.program.Acyclic)

include hp hacyclic

/-- A call is resolved for an object that is listed. -/
theorem resolveCall?_eq_some {obj : Obj} (hobj : c.heap.objects[o]? = some obj)
    (hclass : ∀ d, obj.ty = .object d → d < c.program.classes.length) {site : Site} {call : Invoke}
    (hstmt : c.program.stmt? site = some (.invoke call)) (acc : PointsToState × List MethodId) :
    resolveCall? c o acc site = some (c.resolveCall o acc site) := by
  obtain ⟨s, found⟩ := acc
  have hty : c.heap.ty? o = some obj.ty := by rw [HeapModel.ty?, hobj, Option.map_some]
  have hresolved : resolveCallee? c.program (some obj.ty) call =
      some (c.program.resolveCallee (some obj.ty) call) :=
    resolveCallee?_eq_some hp hacyclic (hp.target_lt hstmt) fun d hd =>
      hclass d (Option.some.inj hd)
  simp only [resolveCall?, PointsToProblem.resolveCall, hstmt, hobj, hty, hresolved, Stmt.call?,
    Option.bind_eq_bind, Option.bind_some]
  cases hcallee : c.program.resolveCallee (some obj.ty) call with
  | none => rfl
  | some callee =>
    have hbody := Program.HasBody.of_resolveCallee hp.wellFormed hcallee
    have hconnected : ∀ s, connectCallee? c.program s call callee =
        some (s.connectCallee c.program call callee) := connectCallee?_eq_some hbody.lt
    obtain ⟨method, hmethod, -⟩ := hbody
    simp only [hmethod, Option.bind_some, hconnected]
    cases method.thisVar with
    | none => dsimp only; split <;> rfl
    | some self => dsimp only; split <;> rfl

variable (hheap : ListsObjects c.heap c.program)

include hheap

/-- Resolving the calls on a variable looks up nothing that is not there. -/
theorem resolveCalls?_eq (hs : c.Valid s) (hholds : c.Derives (.holds (.var v) o)) :
    resolveCalls? c v o s = c.resolveCallsWithin? c.levels v o s := by
  obtain ⟨hv, ho⟩ := PointsToProblem.inBounds_of_derived hp.wellFormed hholds
  obtain ⟨⟨at', stmt⟩, -, hallocated⟩ := List.mem_filterMap.1 ho
  obtain ⟨obj, hobj, hclass⟩ := hheap at' o hallocated
  have hsites : ∀ site ∈ PointsToProblem.reachableSites s (c.program.relatedTo v).invokes,
      s.Reached site.method ∧
        ∃ call, c.program.stmt? site = some (.invoke call) ∧ call.receiver = some v := fun site hsite =>
    ⟨(PointsToProblem.mem_reachableSites.1 hsite).2,
      (PointsToProblem.mem_invokes_iff hp.wellFormed).1 (PointsToProblem.mem_reachableSites.1 hsite).1⟩
  have hresolves := (PointsToProblem.resolves_foldl_resolveCall hp.wellFormed hs hholds hsites).1
  have hcalls : (PointsToProblem.reachableSites s (c.program.relatedTo v).invokes).foldlM
      (resolveCall? c o) (s, []) = some
        ((PointsToProblem.reachableSites s (c.program.relatedTo v).invokes).foldl (c.resolveCall o)
          (s, [])) := by
    refine foldlM_eq_some_of_forall (fun site hsite => ?_) _
    obtain ⟨-, call, hstmt, -⟩ := hsites site hsite
    exact resolveCall?_eq_some hp hacyclic hobj hclass hstmt
  unfold resolveCalls? PointsToProblem.resolveCallsWithin?
  rw [hp.related_eq_some hv]
  simp only [Option.bind_eq_bind, Option.bind_some, hcalls]
  refine foldlM_congr (fun m hm t => reach?_eq hp hacyclic ?_ t) _
  exact lt_of_derives_reached hp.wellFormed
    ((hresolves.derives_collected m hm).resolve_left List.not_mem_nil)

/-- Handling an object that arrives at a variable looks up nothing that is not there. -/
theorem arrive?_eq (hs : c.Valid s) (hholds : c.Derives (.holds (.var v) o))
    (howner : ∀ m, c.program.Owns m v → s.Reached m) :
    arrive? c v s o = c.arriveWithin? c.levels v s o := by
  have hv := (PointsToProblem.inBounds_of_derived hp.wellFormed hholds).1
  have hextends := (PointsToProblem.extends_connectAccesses hp.wellFormed hs hholds howner).1
  rw [arrive?, connectAccesses?_eq_some hp hv]
  exact resolveCalls?_eq hp hacyclic hheap hextends.valid hholds

/-- A step from a closed state looks up nothing that is not there. -/
theorem step?_eq_some (hs : c.Closed s) : step? c s = some (c.step s) := by
  have hbegun : begin? c s = some s := by rw [begin?, if_pos hs.started_eq]
  unfold step? PointsToProblem.step
  rw [hbegun, hs.begin_eq]
  rcases hpop : s.pending.pop? with _ | ⟨⟨id, objects⟩, rest⟩
  · simp [hpop]
  obtain ⟨⟨y, hy⟩, -⟩ := hs.valid.wellFormed.of_pop? hpop
  obtain ⟨x, u, new, hpropagate, hx, -, hvalid, hnew⟩ := hs.exists_absorbs hpop
  have hlooked : propagate? { s with pending := rest } id objects = some (u, new) :=
    hpropagate ▸ propagate?_eq_some (s := { s with pending := rest }) (PointerGraph.lt_of_pointer? hy)
      objects
  simp only [Option.bind_eq_bind, Option.bind_some, hpop, hpropagate, hlooked, hx]
  cases x with
  | var v =>
    have hhandled : new.toList.foldlM (arrive? c v) u = some (new.toList.foldl (c.arrive v) u) := by
      have hself : c.Expands u u := .refl hvalid
      refine foldlM_eq_some_foldl hself fun o ho t ht => ?_
      obtain ⟨hholds, howner⟩ := hnew v rfl o ho
      have hreached : ∀ m, c.program.Owns m v → t.Reached m := fun m hm =>
        ht.grows.reached (howner m hm)
      rw [arrive?_eq hp hacyclic hheap ht.valid hholds hreached]
      exact ⟨PointsToProblem.arriveWithin?_levels hp.wellFormed ht.valid hholds hreached,
        ht.trans (PointsToProblem.expands_arrive hp.wellFormed ht.valid hholds hreached).1⟩
    simp only [hhandled, Option.bind_some]
    rfl
  | staticField | instanceField | arrayIndex => rfl

/-- However long a pointer analysis runs, it looks up nothing that is not there. -/
theorem pointsTo?_eq_some (steps : Nat) :
    pointsTo? c steps = some (stateAfter c.step steps (c.begin c.initial)) := by
  rw [pointsTo?, begin?_eq_some hp hacyclic, Option.bind_eq_bind, Option.bind_some]
  exact after?_eq_some (fun s => step?_eq_some hp hacyclic hheap) (fun s t hs h => hs.step hp.wellFormed h)
    (PointsToProblem.closed_begin hp.wellFormed) steps

end Arrive

end TacAnalysis.Strict
