import TacAnalysis.Proofs.CallGraph.Grounded
import TacAnalysis.Proofs.Program.Queries
import TacAnalysis.Proofs.Strict.Tables

/-!
# Strict queries of a program

The queries of the class hierarchy and the call graph that is built from them, with strict
lookups: a class, method or row of subtypes that is not there leaves the query without an answer,
and so does a climb that has not ended within the bound of lookups. In an accepted program whose
superclass links form no cycle every query about what the program names has its answer.

Main statements: `dispatch?_eq_some`, `resolveCallee?_eq_some`, `resolveByHierarchy?_eq_some` and
`ofHierarchy?_eq_some`.
-/

namespace TacAnalysis.Strict

variable (p : Program)

/-! ## Climbs -/

/-- A climb from a class, which looks up each class that it comes to. -/
def climb? (find : Class → Option (Option MethodId)) : Nat → ClassId → Option (Option MethodId)
  | 0, _ => none
  | steps + 1, c => do
    let decl ← p.class? c
    match ← find decl with
    | some m => return some m
    | none =>
      match decl.superclass with
      | none => return none
      | some parent => climb? find steps parent

/-- The method with a body that the class declares; a declared method is looked up. -/
def body? (subsignature : String) (decl : Class) : Option (Option MethodId) :=
  match decl.declared? subsignature with
  | none => some none
  | some m => do
    let method ← p.method? m
    return if method.isAbstract then none else some m

/-- The method with a body that an instance of `c` runs. -/
def dispatch? (c : ClassId) (subsignature : String) : Option (Option MethodId) :=
  climb? p (body? p subsignature) p.climbBound c

/-- The interfaces of a class, the last one listed first. -/
def interfaces? (c : ClassId) : Option (List ClassId) := do
  let decl ← p.class? c
  return decl.interfaces.reverse

/-- The interfaces reachable from those that a class lists. -/
def allInterfaces? (c : ClassId) : Option (List ClassId) := do
  let listed ← interfaces? p c
  visit? (interfaces? p) (fun new old => new ++ old)
    (Search.turnBound (fun d => (p.interfaces d).reverse) p.classes.length listed) [] listed

/-- The declaration that a method reference names. -/
def resolveRef? (ref : MethodRef) : Option (Option MethodId) := do
  match ← climb? p (fun decl => some (decl.declared? ref.subsignature)) p.climbBound ref.owner with
  | some m => return some m
  | none =>
    let decls ← (← allInterfaces? p ref.owner).mapM p.class?
    return decls.findSome? (·.declared? ref.subsignature)

/-- The method with a body that a method reference names; the method is looked up. -/
def named? (ref : MethodRef) : Option (Option MethodId) := do
  match ← resolveRef? p ref with
  | none => return none
  | some m =>
    let method ← p.method? m
    return if method.isAbstract then none else some m

/-- The method that a call runs, given the type of the object it is made on. -/
def resolveCallee? (receiver : Option Ty) (call : Invoke) : Option (Option MethodId) :=
  match call.kind with
  | .static => named? p call.target
  | .special => named? p call.target
  | .virtual => dispatchOn? receiver
  | .interface => dispatchOn? receiver
  | .dynamic => some none
where
  /-- Dispatch on the class of the receiver. -/
  dispatchOn? : Option Ty → Option (Option MethodId)
    | some (.object c) => dispatch? p c call.target.subsignature
    | _ => some none

/-! ## Subtypes -/

/-- The tables of direct subtypes, with a row for each class. -/
structure Subtypes where
  /-- The classes that extend a class. -/
  subclasses : List (List ClassId)
  /-- The classes that implement an interface. -/
  implementors : List (List ClassId)
  /-- The interfaces that extend an interface. -/
  subinterfaces : List (List ClassId)

/-- The entries that superclasses make. -/
def extensions : List (ClassId × ClassId) :=
  p.classes.filterMap fun d => d.superclass.map (·, d.id)

/-- The entries that the listed interfaces make, of interfaces or of other classes. -/
def listings (ofInterfaces : Bool) : List (ClassId × ClassId) :=
  (p.classes.filter (·.isInterface = ofInterfaces)).flatMap fun d => d.interfaces.map (·, d.id)

/-- The tables, filled class by class. -/
def subtypes? : Option Subtypes := do
  let subclasses ← rows? p.classes.length (extensions p)
  let implementors ← rows? p.classes.length (listings p false)
  let subinterfaces ← rows? p.classes.length (listings p true)
  return ⟨subclasses, implementors, subinterfaces⟩

/-- The direct subtypes of a class, from its rows. -/
def Subtypes.direct? (t : Subtypes) (c : ClassId) : Option (List ClassId) := do
  let subinterfaces ← t.subinterfaces[c]?
  let implementors ← t.implementors[c]?
  let subclasses ← t.subclasses[c]?
  return subinterfaces ++ implementors ++ subclasses

/-- All subtypes of a class. -/
def allSubtypes? (c : ClassId) : Option (List ClassId) := do
  let tables ← subtypes? p
  visit? tables.direct? (fun new old => new ++ old)
    (Search.turnBound p.directSubtypes p.classes.length [c]) [] [c]

/-- Adds the method that instances of exactly the class run, if there are such instances. -/
def addTarget? (subsignature : String) (targets : List MethodId) (c : ClassId) :
    Option (List MethodId) := do
  let decl ← p.class? c
  if !decl.isInterface && !decl.isAbstract then
    match ← dispatch? p c subsignature with
    | none => return targets
    | some m => return if m ∈ targets then targets else targets ++ [m]
  else return targets

/-- The methods that instances of subtypes of `c` run for a subsignature. -/
def dispatchTargets? (c : ClassId) (subsignature : String) : Option (List MethodId) := do
  (← allSubtypes? p c).foldlM (addTarget? p subsignature) []

/-- The methods that a call may run, judged by the declared class alone. -/
def resolveByHierarchy? (call : Invoke) : Option (List MethodId) :=
  match call.kind with
  | .static => (resolveCallee? p none call).map Option.toList
  | .special => (dispatch? p call.target.owner call.target.subsignature).map Option.toList
  | .virtual => dispatchTargets? p call.target.owner call.target.subsignature
  | .interface => dispatchTargets? p call.target.owner call.target.subsignature
  | .dynamic => some []

/-! ## The call graph of the hierarchy -/

/-- The edges of a call of a method. -/
def callEdges? (m : MethodId) (e : Site × Invoke) : Option (List CallEdge) := do
  let callees ← resolveByHierarchy? p e.2
  return callees.map fun callee => ⟨e.2.kind, ⟨m, e.1.index⟩, callee⟩

/-- The calls of a method, resolved by the class hierarchy. -/
def hierarchyCalls? (m : MethodId) : Option (List CallEdge) := do
  let method ← p.method? m
  let edges ← method.calls.mapM (callEdges? p m)
  return edges.flatten

/-- The methods that runs from `entry` can reach. -/
def hierarchyReachable? (entry : MethodId) : Option (List MethodId) :=
  visit? (fun m => return (← hierarchyCalls? p m).map (·.callee)) (fun new old => old ++ new)
    (Search.turnBound (fun m => (p.hierarchyCalls m).map (·.callee)) p.methods.length [entry]) [] [entry]

/-- The call graph of a program by its class hierarchy. -/
def ofHierarchy? : Option CallGraph :=
  match p.entry with
  | none => some .empty
  | some entry => do
    let reachable ← hierarchyReachable? p entry
    let edges ← reachable.mapM (hierarchyCalls? p)
    return edges.flatten.foldl CallGraph.addEdge ⟨[entry], reachable, []⟩

variable {p} {c : ClassId} {s : String}

/-! ## Climbs stay among the classes -/

theorem exists_class? (hc : c < p.classes.length) : ∃ decl, p.class? c = some decl :=
  ⟨_, List.getElem?_eq_getElem hc⟩

/-- A climb from a declared class comes to declared classes only. -/
theorem climb?_eq (hp : p.Accepted) {look : Class → Option (Option MethodId)}
    {find : ClassId → Option MethodId}
    (hlook : ∀ c decl, p.class? c = some decl → look decl = some (find c)) (steps : Nat)
    (hc : c < p.classes.length) : climb? p look steps c = p.climbWithin? find steps c := by
  induction steps generalizing c with
  | zero => rfl
  | succ steps ih =>
    obtain ⟨decl, hdecl⟩ := exists_class? hc
    simp only [climb?, Program.climbWithin?, Program.superclass?, hdecl, hlook c decl hdecl,
      Option.bind_eq_bind, Option.bind_some]
    cases find c with
    | some m => rfl
    | none =>
      cases hparent : decl.superclass with
      | none => rfl
      | some parent => exact ih (hp.parent_lt (List.mem_of_getElem? hdecl) (by simp [hparent]))

/-- What a class declares is found. -/
theorem declared?_eq {decl : Class} (hdecl : p.class? c = some decl) :
    decl.declared? s = p.declared? c s := by
  rw [Program.declared?, hdecl, Option.bind_some]

/-- A declared method without a body is passed over. -/
theorem filter_isAbstract {m : MethodId} {method : Method} (hmethod : p.method? m = some method) :
    (some m).filter (!p.isAbstract ·) = if method.isAbstract then none else some m := by
  cases habstract : method.isAbstract <;>
    simp [Option.filter, Program.isAbstract, hmethod, habstract]

theorem body?_eq_some (hp : p.WellFormed) {decl : Class} (hdecl : p.class? c = some decl) :
    body? p s decl = some (p.body? c s) := by
  rw [body?, Program.body?, declared?_eq hdecl]
  cases hdeclared : p.declared? c s with
  | none => rfl
  | some m =>
    obtain ⟨method, hmethod⟩ := hp.exists_method?_of_declared? hdeclared
    rw [filter_isAbstract hmethod]
    simp only [hmethod, Option.bind_eq_bind, Option.bind_some]
    rfl

/-- Dispatch on a declared class has its answer. -/
theorem dispatch?_eq_some (hp : p.Accepted) (hacyclic : p.Acyclic) (hc : c < p.classes.length) :
    dispatch? p c s = some (p.dispatch c s) := by
  rw [dispatch?, climb?_eq hp (fun c decl => body?_eq_some hp.wellFormed) _ hc]
  exact hacyclic.dispatchWithin?_eq le_rfl

/-! ## Method references -/

theorem interfaces?_eq_some (hc : c < p.classes.length) :
    interfaces? p c = some (p.interfaces c).reverse := by
  obtain ⟨decl, hdecl⟩ := exists_class? hc
  rw [interfaces?, Program.interfaces, hdecl]
  rfl

theorem allInterfaces?_eq_some (hp : p.Accepted) (hc : c < p.classes.length) :
    allInterfaces? p c = some (p.allInterfaces c) := by
  have hlt : ∀ d, ∀ i ∈ (p.interfaces d).reverse, i < p.classes.length := fun d i hi =>
    hp.interface_lt (List.mem_reverse.1 hi)
  rw [allInterfaces?, interfaces?_eq_some hc, Option.bind_eq_bind, Option.bind_some]
  exact visit?_start Search.arranges_depthFirst (fun d hd => interfaces?_eq_some hd)
    (fun d _ => hlt d) (hlt c)

/-- The classes of a search are looked up, and the first that declares the method is the one. -/
theorem mapM_class?_findSome? {found : List ClassId} (hfound : ∀ c ∈ found, c < p.classes.length) :
    ∃ decls, found.mapM p.class? = some decls ∧
      decls.findSome? (·.declared? s) = found.findSome? (p.declared? · s) := by
  induction found with
  | nil => exact ⟨[], rfl, rfl⟩
  | cons c found ih =>
    obtain ⟨hc, hrest⟩ := List.forall_mem_cons.1 hfound
    obtain ⟨decl, hdecl⟩ := exists_class? hc
    obtain ⟨decls, hdecls, hsame⟩ := ih hrest
    refine ⟨decl :: decls, ?_, ?_⟩
    · rw [List.mapM_cons, hdecl, hdecls]
      rfl
    · rw [List.findSome?_cons, List.findSome?_cons, declared?_eq hdecl, hsame]

/-- A method reference to a declared class has its answer. -/
theorem resolveRef?_eq_some (hp : p.Accepted) (hacyclic : p.Acyclic) {ref : MethodRef}
    (hc : ref.owner < p.classes.length) : resolveRef? p ref = some (p.resolveRef ref) := by
  obtain ⟨found, hfound⟩ := hacyclic.exists_climbWithin? (p.declared? · ref.subsignature) ref.owner
  have hsuper : p.superDeclaration ref.owner ref.subsignature = found := by
    rw [Program.superDeclaration, Program.declarationWithin?, hfound, Option.getD_some]
  have hclimb : climb? p (fun decl => some (decl.declared? ref.subsignature)) p.climbBound ref.owner =
      some found := by
    rw [← hfound]
    exact climb?_eq hp (fun c decl hdecl => congrArg some (declared?_eq hdecl)) _ hc
  have hlt : ∀ i ∈ p.allInterfaces ref.owner, i < p.classes.length := by
    intro i hi
    obtain ⟨j, hj, hpath⟩ := hp.mem_allInterfaces.1 hi
    rcases Relation.ReflTransGen.cases_tail hpath with rfl | ⟨d, -, hlast⟩
    · exact hp.interface_lt hj
    · exact hp.interface_lt hlast
  obtain ⟨decls, hdecls, hsame⟩ := mapM_class?_findSome? (s := ref.subsignature) hlt
  rw [resolveRef?, hclimb, Program.resolveRef, hsuper]
  cases found with
  | some m => rfl
  | none =>
    simp only [Option.bind_eq_bind, Option.bind_some, allInterfaces?_eq_some hp hc, hdecls, hsame]
    rfl

theorem named?_eq_some (hp : p.Accepted) (hacyclic : p.Acyclic) {ref : MethodRef}
    (hc : ref.owner < p.classes.length) :
    named? p ref = some ((p.resolveRef ref).filter (!p.isAbstract ·)) := by
  rw [named?, resolveRef?_eq_some hp hacyclic hc]
  cases href : p.resolveRef ref with
  | none => rfl
  | some m =>
    obtain ⟨d, hd⟩ := Program.exists_declared?_of_resolveRef href
    obtain ⟨method, hmethod⟩ := hp.wellFormed.exists_method?_of_declared? hd
    rw [filter_isAbstract hmethod]
    simp only [Option.bind_eq_bind, Option.bind_some, hmethod]
    rfl

/-- Resolving a call that names a declared class, for an object of a declared class, has its
answer. -/
theorem resolveCallee?_eq_some (hp : p.Accepted) (hacyclic : p.Acyclic) {receiver : Option Ty}
    {call : Invoke} (htarget : call.target.owner < p.classes.length)
    (hreceiver : ∀ c, receiver = some (.object c) → c < p.classes.length) :
    resolveCallee? p receiver call = some (p.resolveCallee receiver call) := by
  have hdispatch : resolveCallee?.dispatchOn? p call receiver =
      some (Program.resolveCallee.dispatchOn p call receiver) := by
    rcases receiver with _ | ty
    · rfl
    · cases ty with
      | object c => exact dispatch?_eq_some hp hacyclic (hreceiver c rfl)
      | _ => rfl
  unfold resolveCallee? Program.resolveCallee
  cases call.kind with
  | static => exact named?_eq_some hp hacyclic htarget
  | special => exact named?_eq_some hp hacyclic htarget
  | virtual => exact hdispatch
  | interface => exact hdispatch
  | dynamic => rfl

/-! ## Subtypes -/

/-- The entries for a class are its subclasses. -/
theorem row_extensions : row (extensions p) c = p.subclasses c := by
  unfold row extensions Program.subclasses
  induction p.classes with
  | nil => rfl
  | cons d classes ih =>
    cases hparent : d.superclass with
    | none => simp_all
    | some parent => by_cases h : parent = c <;> simp_all

/-- The entries for an interface are those that list it. -/
theorem row_listings (ofInterfaces : Bool) : row (listings p ofInterfaces) c =
    (p.classes.filter (·.isInterface = ofInterfaces)).flatMap (Program.listing c) := by
  unfold row listings Program.listing
  rw [List.filter_flatMap, List.map_flatMap]
  refine List.flatMap_congr fun d _ => ?_
  rw [List.filter_map, List.map_map]
  rfl

/-- The tables of subtypes can be filled, and hold the direct subtypes of each class. -/
theorem exists_subtypes? (hp : p.Accepted) : ∃ t, subtypes? p = some t ∧
    ∀ c < p.classes.length, t.direct? c = some (p.directSubtypes c) := by
  have hextension : ∀ e ∈ extensions p, e.1 < p.classes.length := by
    intro e he
    obtain ⟨d, hd, hlink⟩ := List.mem_filterMap.1 he
    obtain ⟨parent, hparent, rfl⟩ := Option.map_eq_some_iff.1 hlink
    exact hp.parent_lt hd (by simp [hparent])
  have hlisting : ∀ b, ∀ e ∈ listings p b, e.1 < p.classes.length := by
    intro b e he
    obtain ⟨d, hd, hlisted⟩ := List.mem_flatMap.1 he
    obtain ⟨i, hi, rfl⟩ := List.mem_map.1 hlisted
    exact hp.parent_lt (List.mem_filter.1 hd).1 (List.mem_append_right _ hi)
  obtain ⟨subclasses, hsubclasses, hextends⟩ := exists_rows? hextension
  obtain ⟨implementors, himplementors, himplements⟩ := exists_rows? (hlisting false)
  obtain ⟨subinterfaces, hsubinterfaces, hlists⟩ := exists_rows? (hlisting true)
  refine ⟨⟨subclasses, implementors, subinterfaces⟩, ?_, fun c hc => ?_⟩
  · rw [subtypes?, hsubclasses, himplementors, hsubinterfaces]
    rfl
  · simp only [Subtypes.direct?, hextends c hc, himplements c hc, hlists c hc, row_extensions,
      row_listings, Option.bind_eq_bind, Option.bind_some, Program.directSubtypes,
      Program.subinterfaces, Program.implementors, Bool.decide_eq_true, Bool.decide_eq_false]
    rfl

theorem allSubtypes?_eq_some (hp : p.Accepted) (hc : c < p.classes.length) :
    allSubtypes? p c = some (p.subtypes c) := by
  obtain ⟨t, ht, hdirect⟩ := exists_subtypes? hp
  rw [allSubtypes?, ht, Option.bind_eq_bind, Option.bind_some]
  exact visit?_start Search.arranges_depthFirst hdirect
    (fun _ _ _ hd => hp.wellFormed.directSubtype_lt hd) (by simpa using hc)

/-- Subtypes of a declared class are declared. -/
theorem subtype_lt (hp : p.WellFormed) (hc : c < p.classes.length) {d : ClassId}
    (hd : d ∈ p.subtypes c) : d < p.classes.length := by
  obtain ⟨k, hk, hpath⟩ := (Search.mem_depthFirst (fun _ _ _ hm => hp.directSubtype_lt hm)
    (by simpa using hc)).1 hd
  rcases Relation.ReflTransGen.cases_tail hpath with rfl | ⟨e, -, hlast⟩
  · obtain rfl := List.mem_singleton.1 hk
    exact hc
  · exact hp.directSubtype_lt hlast

/-- What a class adds to the targets of a call. -/
def addTarget (p : Program) (s : String) (targets : List MethodId) (c : ClassId) : List MethodId :=
  if p.isInstantiable c then
    match p.dispatch c s with
    | none => targets
    | some m => if m ∈ targets then targets else targets ++ [m]
  else targets

theorem addTarget?_eq_some (hp : p.Accepted) (hacyclic : p.Acyclic) (hc : c < p.classes.length)
    (targets : List MethodId) : addTarget? p s targets c = some (addTarget p s targets c) := by
  obtain ⟨decl, hdecl⟩ := exists_class? hc
  simp only [addTarget?, addTarget, Program.isInstantiable, hdecl, Option.bind_eq_bind,
    Option.bind_some, Option.any_some, dispatch?_eq_some hp hacyclic hc]
  split
  · cases p.dispatch c s <;> rfl
  · rfl

/-- Adding the targets of classes one by one gives all of them. -/
theorem foldl_addTarget (found : List ClassId) (targets : List MethodId) :
    found.foldl (addTarget p s) targets =
      ((found.filter p.isInstantiable).filterMap (p.dispatch · s)).foldl
        (fun targets m => if m ∈ targets then targets else targets ++ [m]) targets := by
  induction found generalizing targets with
  | nil => rfl
  | cons c found ih =>
    rw [List.foldl_cons, ih, addTarget]
    by_cases hc : p.isInstantiable c
    · cases hdispatch : p.dispatch c s <;> simp [hc, hdispatch]
    · simp [hc]

theorem dispatchTargets?_eq_some (hp : p.Accepted) (hacyclic : p.Acyclic) (hc : c < p.classes.length) :
    dispatchTargets? p c s = some (p.dispatchTargets c s) := by
  rw [dispatchTargets?, allSubtypes?_eq_some hp hc, Option.bind_eq_bind, Option.bind_some,
    Program.dispatchTargets, ← foldl_addTarget]
  exact foldlM_eq_some_of_forall
    (fun d hd => addTarget?_eq_some hp hacyclic (subtype_lt hp.wellFormed hc hd)) []

/-- Resolving a call that names a declared class by the hierarchy has its answer. -/
theorem resolveByHierarchy?_eq_some (hp : p.Accepted) (hacyclic : p.Acyclic) {call : Invoke}
    (htarget : call.target.owner < p.classes.length) :
    resolveByHierarchy? p call = some (p.resolveByHierarchy call) := by
  unfold resolveByHierarchy? Program.resolveByHierarchy
  cases call.kind with
  | static =>
    have hnone : resolveCallee? p none call = some (p.resolveCallee none call) :=
      resolveCallee?_eq_some hp hacyclic htarget (by simp)
    simp only [hnone, Option.map_some]
  | special => simp only [dispatch?_eq_some hp hacyclic htarget, Option.map_some]
  | virtual => exact dispatchTargets?_eq_some hp hacyclic htarget
  | interface => exact dispatchTargets?_eq_some hp hacyclic htarget
  | dynamic => rfl

/-! ## The call graph of the hierarchy -/

/-- The calls of a method are statements at its sites. -/
theorem stmt?_of_mem_calls {m : MethodId} {method : Method} (hmethod : p.method? m = some method)
    {e : Site × Invoke} (he : e ∈ method.calls) : p.stmt? ⟨m, e.1.index⟩ = some (.invoke e.2) := by
  obtain ⟨⟨site, stmt⟩, hsite, hentry⟩ := List.mem_filterMap.1 he
  obtain ⟨call, hcall, rfl⟩ := Option.map_eq_some_iff.1 hentry
  obtain rfl : stmt = .invoke call := Stmt.call?_eq_some_iff.1 hcall
  obtain ⟨⟨stmt, index⟩, hindex, heq⟩ := List.mem_map.1 hsite
  cases heq
  rw [Program.stmt?, hmethod, Option.bind_some]
  exact List.mem_zipIdx_iff_getElem?.1 hindex

/-- The calls of a declared method can all be resolved. -/
theorem hierarchyCalls?_eq_some (hp : p.Accepted) (hacyclic : p.Acyclic) {m : MethodId}
    (hm : m < p.methods.length) : hierarchyCalls? p m = some (p.hierarchyCalls m) := by
  obtain ⟨method, hmethod⟩ : ∃ method, p.method? m = some method := ⟨_, List.getElem?_eq_getElem hm⟩
  have hcalls : method.calls.mapM (callEdges? p m) =
      some (method.calls.map fun e => (p.resolveByHierarchy e.2).map fun callee =>
        ⟨e.2.kind, ⟨m, e.1.index⟩, callee⟩) := by
    refine mapM_eq_some_map fun e he => ?_
    rw [callEdges?, resolveByHierarchy?_eq_some hp hacyclic
      (hp.target_lt (stmt?_of_mem_calls hmethod he))]
    rfl
  rw [hierarchyCalls?, Program.hierarchyCalls, hmethod, Option.bind_eq_bind, Option.bind_some, hcalls]
  exact congrArg some List.flatMap_def.symm

theorem hierarchyReachable?_eq_some (hp : p.Accepted) (hacyclic : p.Acyclic) {entry : MethodId}
    (hentry : p.entry = some entry) :
    hierarchyReachable? p entry = some (p.hierarchyReachable entry) := by
  refine visit?_start Search.arranges_breadthFirst (fun m hm => ?_)
    (fun m _ n hn => CallGraph.callee_lt_of_mem_hierarchyCalls hp.wellFormed hn) ?_
  · rw [hierarchyCalls?_eq_some hp hacyclic hm]
    rfl
  · simpa using hp.wellFormed.entry_lt entry hentry

/-- The call graph of the hierarchy is built without a lookup outside the program. -/
theorem ofHierarchy?_eq_some (hp : p.Accepted) (hacyclic : p.Acyclic) :
    ofHierarchy? p = some (.ofHierarchy p) := by
  unfold ofHierarchy? CallGraph.ofHierarchy
  cases hentry : p.entry with
  | none => rfl
  | some entry =>
    have hreached : ∀ m ∈ p.hierarchyReachable entry, m < p.methods.length := fun m hm =>
      (CallGraph.grounded_ofHierarchy hp.wellFormed).lt hp.wellFormed
        (CallGraph.reachable_ofHierarchy hentry ▸ hm)
    have hcalls : (p.hierarchyReachable entry).mapM (hierarchyCalls? p) =
        some ((p.hierarchyReachable entry).map p.hierarchyCalls) :=
      mapM_eq_some_map fun m hm => hierarchyCalls?_eq_some hp hacyclic (hreached m hm)
    simp only [hierarchyReachable?_eq_some hp hacyclic hentry, hcalls, Option.bind_eq_bind,
      Option.bind_some, List.flatMap_def]
    rfl

/-- Of a program that is not accepted a strict query may tell nothing: this one begins with a method
that it does not declare. -/
example : ofHierarchy? ⟨[], [], [], [], some 0, []⟩ = none := rfl

end TacAnalysis.Strict
