import TacAnalysis.Proofs.PointsTo.Reach

/-!
# Objects arrive at variables

When an object arrives at a variable, all accesses to memory through the variable are
connected with the object's memory, and all calls on it are resolved for the object. They
are all found, because the method of the variable is reachable by then. The callees of new
calls become reachable only when all calls have been resolved, and after that everything
that has been added is read and settled again.

Main statement: `expands_arrive`.
-/

namespace TacAnalysis.PointsToProblem

variable {c : PointsToProblem} {s t u : PointsToState} {v : VarId} {o : ObjId}

/-! ## Accesses to memory -/

/-- A statement goes through the variable through which it makes objects flow. -/
theorem access?_of_linksThrough {stmt : Stmt} {x y : Pointer} (h : stmt.LinksThrough v o x y) :
    ∃ access, access ≠ .call ∧ stmt.access? = some (v, access) := by
  cases h with
  | storeField => exact ⟨.storeField, by decide, rfl⟩
  | loadField => exact ⟨.loadField, by decide, rfl⟩
  | storeArray => exact ⟨.storeArray, by decide, rfl⟩
  | loadArray => exact ⟨.loadArray, by decide, rfl⟩

/-- An access to memory through a variable is connected with the memory of an object. -/
theorem extends_connectAccess (hp : c.program.WellFormed) (hs : c.Valid s)
    (hholds : c.Derives (.holds (.var v) o)) {site : Site} {stmt : Stmt}
    (hm : s.Reached site.method) (hstmt : c.program.stmt? site = some stmt) {access : Access}
    (haccess : stmt.access? = some (v, access)) :
    c.Extends s (c.connectAccess o s site) ∧
      ∀ {x y}, stmt.LinksThrough v o x y → (c.connectAccess o s site).Flows x y := by
  have hopen : ∀ {w}, w ∈ stmt.assigned? → c.Open s (.var w) := fun hw =>
    open_var (hp.owns_of_stmt? hstmt (List.mem_append_right _ (Option.mem_toList.2 hw))) (.inl hm)
  unfold connectAccess
  rw [hstmt]
  match stmt, haccess with
  | .storeField (some base) f value, rfl =>
    obtain ⟨hextends, hflows⟩ := Extends.connect hs (.linkThrough hholds hstmt (.storeField f value))
      (open_of_ne (by simp))
    exact ⟨hextends, fun h => by cases h; exact hflows⟩
  | .assign lhs (.instanceField base f), rfl =>
    obtain ⟨hextends, hflows⟩ := Extends.connect hs (.linkThrough hholds hstmt (.loadField lhs f))
      (hopen rfl)
    exact ⟨hextends, fun h => by cases h; exact hflows⟩
  | .storeArray base index value, rfl =>
    obtain ⟨hextends, hflows⟩ := Extends.connect hs
      (.linkThrough hholds hstmt (.storeArray index value)) (open_of_ne (by simp))
    exact ⟨hextends, fun h => by cases h; exact hflows⟩
  | .assign lhs (.arrayAccess base index), rfl =>
    obtain ⟨hextends, hflows⟩ := Extends.connect hs
      (.linkThrough hholds hstmt (.loadArray lhs index)) (hopen rfl)
    exact ⟨hextends, fun h => by cases h; exact hflows⟩
  | .invoke call, _ => exact ⟨.refl hs, fun h => by cases h⟩

/-- The sites of a list that are in reachable methods. -/
theorem mem_reachableSites {sites : List Site} {site : Site} :
    site ∈ reachableSites s sites ↔ site ∈ sites ∧ s.Reached site.method := by
  unfold reachableSites CallGraph.contains
  rw [List.mem_filter, decide_eq_true_eq]
  rfl

/-- Statements that go through a variable are in its method. -/
theorem reached_of_access? (hp : c.program.WellFormed)
    (howner : ∀ m, c.program.Owns m v → s.Reached m) {site : Site} {stmt : Stmt}
    (hstmt : c.program.stmt? site = some stmt) {access : Access}
    (haccess : stmt.access? = some (v, access)) : s.Reached site.method :=
  howner _ (hp.owns_of_stmt? hstmt (List.mem_append_left _ (Stmt.mem_uses_of_access? haccess)))

/-- The sites at which memory is accessed through a variable. -/
theorem mem_accessSites {r : RelatedStmts} {site : Site} :
    site ∈ r.storeFields ++ r.loadFields ++ r.storeArrays ++ r.loadArrays ↔
      ∃ access, access ≠ .call ∧ site ∈ r.at access := by
  simp only [List.mem_append]
  constructor
  · rintro (((h | h) | h) | h)
    · exact ⟨.storeField, by decide, h⟩
    · exact ⟨.loadField, by decide, h⟩
    · exact ⟨.storeArray, by decide, h⟩
    · exact ⟨.loadArray, by decide, h⟩
  · rintro ⟨access, hne, h⟩
    cases access with
    | storeField => exact .inl (.inl (.inl h))
    | loadField => exact .inl (.inl (.inr h))
    | storeArray => exact .inl (.inr h)
    | loadArray => exact .inr h
    | call => exact absurd rfl hne

/-- All accesses to memory through a variable are connected with the memory of an object. -/
theorem extends_connectAccesses (hp : c.program.WellFormed) (hs : c.Valid s)
    (hholds : c.Derives (.holds (.var v) o)) (howner : ∀ m, c.program.Owns m v → s.Reached m) :
    c.Extends s (c.connectAccesses v o s) ∧
      ∀ site stmt x y, c.program.stmt? site = some stmt → stmt.LinksThrough v o x y →
        (c.connectAccesses v o s).Flows x y := by
  obtain ⟨hextends, hdone⟩ := foldl_related (R := c.Extends) (c.connectAccess o)
    (fun site t => ∀ stmt x y, c.program.stmt? site = some stmt → stmt.LinksThrough v o x y →
      t.Flows x y)
    (fun ht => .refl ht.valid) .trans (.refl hs)
    (fun ht h stmt x y hstmt hlink => ht.grows.flows (h stmt x y hstmt hlink))
    fun site hsite t ht => by
      obtain ⟨hsite, hm⟩ := mem_reachableSites.1 hsite
      obtain ⟨access, -, hrelated⟩ := mem_accessSites.1 hsite
      obtain ⟨stmt, hstmt, haccess⟩ := hp.mem_relatedTo.1 hrelated
      obtain ⟨hextends, hflows⟩ :=
        extends_connectAccess hp ht.valid hholds (ht.grows.reached hm) hstmt haccess
      refine ⟨hextends, fun stmt' x y hstmt' hlink => ?_⟩
      cases hstmt.symm.trans hstmt'
      exact hflows hlink
  refine ⟨hextends, fun site stmt x y hstmt hlink => ?_⟩
  obtain ⟨access, hne, haccess⟩ := access?_of_linksThrough hlink
  have hrelated := hp.mem_relatedTo.2 ⟨stmt, hstmt, haccess⟩
  have hm := reached_of_access? hp howner hstmt haccess
  have hsite := mem_reachableSites.2 ⟨mem_accessSites.2 ⟨access, hne, hrelated⟩, hm⟩
  exact hdone site hsite stmt x y hstmt hlink

/-! ## Calls -/

/-- A valid state that has grown, with the same reachable methods and no object more at any
place. The calls that have been added are connected, and their callees are collected. -/
structure Resolves (c : PointsToProblem) (acc acc' : PointsToState × List MethodId) : Prop where
  /-- The new state is valid. -/
  valid : c.Valid acc'.1
  /-- Nothing is lost. -/
  grows : acc.1.Grows acc'.1
  /-- The analysis has begun or not as before. -/
  started_eq : acc'.1.started = acc.1.started
  /-- No object has arrived. -/
  points_iff : ∀ {x : Pointer} {o : ObjId}, acc'.1.Points x o ↔ acc.1.Points x o
  /-- No method has become reachable. -/
  reachable_eq : acc'.1.calls.reachable = acc.1.calls.reachable
  /-- Collected methods stay collected. -/
  collected : ∀ m ∈ acc.2, m ∈ acc'.2
  /-- What is collected is the callee of a call. -/
  derives_collected : ∀ m ∈ acc'.2, m ∈ acc.2 ∨ c.Derives (.reached m)
  /-- New calls are connected to a callee that is collected. -/
  passed : ∀ {e : CallEdge}, acc'.1.Called e → acc.1.Called e ∨ c.Passed acc'.1 e ∧ e.callee ∈ acc'.2

variable {acc acc' acc'' : PointsToState × List MethodId}

theorem Extends.resolves {found : List MethodId} (h : c.Extends s t) :
    c.Resolves (s, found) (t, found) where
  valid := h.valid
  grows := h.grows
  started_eq := h.started_eq
  points_iff := h.points_iff
  reachable_eq := by rw [h.calls_eq]
  collected _ := id
  derives_collected _ := .inl
  passed he := .inl (by rwa [PointsToState.Called, h.calls_eq] at he)

theorem Resolves.refl (hs : c.Valid acc.1) : c.Resolves acc acc := (Extends.refl hs).resolves

theorem Resolves.trans (h : c.Resolves acc acc') (h' : c.Resolves acc' acc'') :
    c.Resolves acc acc'' where
  valid := h'.valid
  grows := h.grows.trans h'.grows
  started_eq := h'.started_eq.trans h.started_eq
  points_iff := h'.points_iff.trans h.points_iff
  reachable_eq := h'.reachable_eq.trans h.reachable_eq
  collected m hm := h'.collected m (h.collected m hm)
  derives_collected m hm := by
    rcases h'.derives_collected m hm with hm | hm
    · exact h.derives_collected m hm
    · exact .inr hm
  passed he := by
    rcases h'.passed he with he | he
    · exact (h.passed he).imp_right fun h => ⟨h.1.mono h'.grows, h'.collected _ h.2⟩
    · exact .inr he

/-- The object is sent to the variable `this` of a callee. -/
def sendSelf (c : PointsToProblem) (o : ObjId) (callee : MethodId) (s : PointsToState) :
    PointsToState :=
  match (c.program.method? callee).bind (·.thisVar) with
  | some self => s.send (.var self) (.singleton o)
  | none => s

/-- It makes no difference whether a call is added before or after that. -/
theorem addEdge_sendSelf (callee : MethodId) (e : CallEdge) :
    ({ c.sendSelf o callee s with calls := (c.sendSelf o callee s).calls.addEdge e } : PointsToState) =
      c.sendSelf o callee { s with calls := s.calls.addEdge e } := by
  unfold sendSelf
  split <;> rfl

theorem calls_sendSelf (callee : MethodId) : (c.sendSelf o callee s).calls = s.calls := by
  unfold sendSelf
  split <;> rfl

/-- The object of a receiver is sent to the callee of a call that is known. -/
theorem extends_sendSelf (hp : c.program.WellFormed) (hs : c.Valid s)
    (hholds : c.Derives (.holds (.var v) o)) {site : Site} {call : Invoke} {callee : MethodId}
    (hstmt : c.program.stmt? site = some (.invoke call)) (hreceiver : call.receiver = some v)
    (hcallee : c.program.resolveCallee (c.heap.ty? o) call = some callee)
    (hcalled : s.Called ⟨call.kind, site, callee⟩) :
    c.Extends s (c.sendSelf o callee s) ∧ ∀ method self, c.program.method? callee = some method →
      method.thisVar = some self → (c.sendSelf o callee s).Has (.var self) o := by
  unfold sendSelf
  cases hself : (c.program.method? callee).bind (·.thisVar) with
  | none =>
    refine ⟨.refl hs, fun method self hmethod hthis => ?_⟩
    rw [hmethod, Option.bind_some, hthis] at hself
    cases hself
  | some self =>
    obtain ⟨method, hmethod, hthis⟩ := Option.bind_eq_some_iff.1 hself
    have howns := hp.owns_of_method? hmethod
      (List.mem_append_right _ (Option.mem_toList.2 hthis))
    obtain ⟨hextends, hhas⟩ := Extends.send hs
      (.self hholds hstmt hreceiver hcallee hmethod hthis) (open_var howns (.inr ⟨_, hcalled, rfl⟩))
    refine ⟨hextends, fun method' self' hmethod' hthis' => ?_⟩
    cases hmethod.symm.trans hmethod'
    cases hthis.symm.trans hthis'
    exact hhas

/-- The call at a site is resolved for an object, if it can be. -/
def Resolved (c : PointsToProblem) (o : ObjId) (site : Site) (s : PointsToState) : Prop :=
  ∀ call callee, c.program.stmt? site = some (.invoke call) →
    c.program.resolveCallee (c.heap.ty? o) call = some callee →
      s.Called ⟨call.kind, site, callee⟩ ∧
        ∀ method self, c.program.method? callee = some method → method.thisVar = some self →
          s.Has (.var self) o

/-- A site makes only one call, which has only one callee for an object. -/
theorem resolved_of_called {site : Site} {call : Invoke} {callee : MethodId}
    (hstmt : c.program.stmt? site = some (.invoke call))
    (hcallee : c.program.resolveCallee (c.heap.ty? o) call = some callee)
    (hcalled : s.Called ⟨call.kind, site, callee⟩)
    (hself : ∀ method self, c.program.method? callee = some method → method.thisVar = some self →
      s.Has (.var self) o) : c.Resolved o site s := by
  intro call' callee' hstmt' hcallee'
  cases hstmt.symm.trans hstmt'
  cases hcallee.symm.trans hcallee'
  exact ⟨hcalled, hself⟩

theorem Resolved.mono {site : Site} (h : c.Resolved o site s) (hgrows : s.Grows t) :
    c.Resolved o site t := fun call callee hstmt hcallee =>
  ⟨hgrows.called (h call callee hstmt hcallee).1, fun method self hmethod hself =>
    hgrows.has ((h call callee hstmt hcallee).2 method self hmethod hself)⟩

/-- A call that is not known is added and connected, and its callee is collected. -/
theorem resolves_newCall (hp : c.program.WellFormed) {found : List MethodId} (hs : c.Valid s)
    (hholds : c.Derives (.holds (.var v) o)) {site : Site} {call : Invoke} {callee : MethodId}
    (hm : s.Reached site.method) (hstmt : c.program.stmt? site = some (.invoke call))
    (hreceiver : call.receiver = some v)
    (hcallee : c.program.resolveCallee (c.heap.ty? o) call = some callee) :
    c.Resolves (s, found)
        ((c.sendSelf o callee
            { s with calls := s.calls.addEdge ⟨call.kind, site, callee⟩ }).connectCallee
          c.program call callee, found ++ [callee]) ∧
      c.Resolved o site ((c.sendSelf o callee
        { s with calls := s.calls.addEdge ⟨call.kind, site, callee⟩ }).connectCallee
          c.program call callee) := by
  have hderives := Derived.instanceCall hholds hstmt hreceiver hcallee
  have hadded := hs.addEdge hderives
  have hgrows := grows_addEdge s ⟨call.kind, site, callee⟩
  obtain ⟨hsent, hself⟩ := extends_sendSelf hp hadded hholds hstmt hreceiver hcallee
    (CallGraph.mem_addOnce.2 (.inl rfl))
  have hcalled := hsent.grows.called (CallGraph.mem_addOnce.2 (.inl rfl))
  obtain ⟨hconnected, hpassed⟩ := extends_connectCallee hp hsent.valid hcalled
    (hsent.grows.reached (hgrows.reached hm)) hstmt
  have hall := hsent.trans hconnected
  refine ⟨?_, resolved_of_called hstmt hcallee (hconnected.grows.called hcalled)
    fun method self hmethod hthis => hconnected.grows.has (hself method self hmethod hthis)⟩
  exact {
    valid := hall.valid
    grows := hgrows.trans hall.grows
    started_eq := hall.started_eq
    points_iff := hall.points_iff
    reachable_eq := by
      have heq := congrArg CallGraph.reachable hall.calls_eq
      exact heq
    collected := fun m hm => List.mem_append_left _ hm
    derives_collected := fun m hm => by
      rcases List.mem_append.1 hm with hm | hm
      · exact .inl hm
      · exact .inr (List.mem_singleton.1 hm ▸ .callee hderives)
    passed := fun {e} he => by
      rw [PointsToState.Called, hall.calls_eq] at he
      rcases CallGraph.mem_addOnce.1 he with rfl | he
      · exact .inr ⟨hpassed, List.mem_append_right _ (List.mem_singleton_self _)⟩
      · exact .inl he }

/-- A call without a callee for the object is passed over. -/
theorem resolveCall_of_none {found : List MethodId} {site : Site} {call : Invoke}
    (hstmt : c.program.stmt? site = some (.invoke call))
    (hcallee : c.program.resolveCallee (c.heap.ty? o) call = none) :
    c.resolveCall o (s, found) site = (s, found) := by
  simp only [resolveCall, hstmt, Option.bind_some, Stmt.call?, hcallee]

/-- The object is sent to the callee, and a call that is not known is added and connected. -/
theorem resolveCall_of_some {found : List MethodId} {site : Site} {call : Invoke}
    {callee : MethodId} (hstmt : c.program.stmt? site = some (.invoke call))
    (hcallee : c.program.resolveCallee (c.heap.ty? o) call = some callee) :
    c.resolveCall o (s, found) site =
      if s.calls.hasEdge ⟨call.kind, site, callee⟩ then (c.sendSelf o callee s, found)
      else ((c.sendSelf o callee
        { s with calls := s.calls.addEdge ⟨call.kind, site, callee⟩ }).connectCallee
          c.program call callee, found ++ [callee]) := by
  have hcall : c.resolveCall o (s, found) site =
      if (c.sendSelf o callee s).calls.hasEdge ⟨call.kind, site, callee⟩ then
        (c.sendSelf o callee s, found)
      else (({ c.sendSelf o callee s with
          calls := (c.sendSelf o callee s).calls.addEdge ⟨call.kind, site, callee⟩ }).connectCallee
        c.program call callee, found ++ [callee]) := by
    simp only [resolveCall, hstmt, Option.bind_some, Stmt.call?, hcallee]
    rfl
  rw [hcall, addEdge_sendSelf, calls_sendSelf]

/-- A call on a variable is resolved for an object that has arrived there. -/
theorem resolves_resolveCall (hp : c.program.WellFormed) {found : List MethodId} (hs : c.Valid s)
    (hholds : c.Derives (.holds (.var v) o)) {site : Site} {call : Invoke}
    (hm : s.Reached site.method) (hstmt : c.program.stmt? site = some (.invoke call))
    (hreceiver : call.receiver = some v) :
    c.Resolves (s, found) (c.resolveCall o (s, found) site) ∧
      c.Resolved o site (c.resolveCall o (s, found) site).1 := by
  cases hcallee : c.program.resolveCallee (c.heap.ty? o) call with
  | none =>
    rw [resolveCall_of_none hstmt hcallee]
    refine ⟨.refl hs, fun call' callee hstmt' hcallee' => ?_⟩
    cases hstmt.symm.trans hstmt'
    cases hcallee.symm.trans hcallee'
  | some callee =>
    rw [resolveCall_of_some hstmt hcallee]
    split
    · rename_i hhas
      have hknown : ⟨call.kind, site, callee⟩ ∈ s.calls.edges := of_decide_eq_true hhas
      obtain ⟨hextends, hself⟩ := extends_sendSelf hp hs hholds hstmt hreceiver hcallee hknown
      have hcalled := hextends.grows.called hknown
      exact ⟨hextends.resolves, resolved_of_called hstmt hcallee hcalled hself⟩
    · exact resolves_newCall hp hs hholds hm hstmt hreceiver hcallee

/-- The statements that call on a variable are the calls with that receiver. -/
theorem access?_eq_call_iff {stmt : Stmt} :
    stmt.access? = some (v, .call) ↔ ∃ call, stmt = .invoke call ∧ call.receiver = some v := by
  constructor
  · intro h
    match stmt with
    | .invoke call =>
      obtain ⟨receiver, hreceiver, heq⟩ := Option.map_eq_some_iff.1 h
      cases heq
      exact ⟨call, rfl, hreceiver⟩
  · rintro ⟨call, rfl, hreceiver⟩
    rw [Stmt.access?, hreceiver]
    rfl

/-- The index of a variable lists the calls on it. -/
theorem mem_invokes_iff (hp : c.program.WellFormed) {site : Site} :
    site ∈ (c.program.relatedTo v).invokes ↔
      ∃ call, c.program.stmt? site = some (.invoke call) ∧ call.receiver = some v := by
  change site ∈ (c.program.relatedTo v).at .call ↔ _
  rw [hp.mem_relatedTo]
  constructor
  · rintro ⟨stmt, hstmt, haccess⟩
    obtain ⟨call, rfl, hreceiver⟩ := access?_eq_call_iff.1 haccess
    exact ⟨call, hstmt, hreceiver⟩
  · rintro ⟨call, hstmt, hreceiver⟩
    exact ⟨_, hstmt, access?_eq_call_iff.2 ⟨call, rfl, hreceiver⟩⟩

/-- Calls on a variable are resolved one after the other. -/
theorem resolves_foldl_resolveCall (hp : c.program.WellFormed) (hs : c.Valid s)
    (hholds : c.Derives (.holds (.var v) o)) {sites : List Site}
    (hsites : ∀ site ∈ sites, s.Reached site.method ∧
      ∃ call, c.program.stmt? site = some (.invoke call) ∧ call.receiver = some v) :
    c.Resolves (s, []) (sites.foldl (c.resolveCall o) (s, [])) ∧
      ∀ site ∈ sites, c.Resolved o site (sites.foldl (c.resolveCall o) (s, [])).1 := by
  refine foldl_related (R := c.Resolves) (c.resolveCall o) (fun site acc => c.Resolved o site acc.1)
    (fun h => .refl h.valid) .trans (.refl hs) (fun h hdone => hdone.mono h.grows)
    fun site hsite acc hacc => ?_
  obtain ⟨hm, call, hstmt, hreceiver⟩ := hsites site hsite
  exact resolves_resolveCall hp hacc.valid hholds (hacc.grows.reached hm) hstmt hreceiver

/-- Methods become reachable one after the other. -/
theorem expands_foldl_reach (hp : c.program.WellFormed) (hs : c.Valid s) {found : List MethodId}
    (hfound : ∀ m ∈ found, c.Derives (.reached m)) :
    c.Expands s (found.foldl (fun s callee => c.reach callee s) s) ∧
      ∀ m ∈ found, (found.foldl (fun s callee => c.reach callee s) s).Reached m := by
  refine foldl_related (R := c.Expands) (fun s callee => c.reach callee s) (fun m t => t.Reached m)
    (fun h => .refl h.valid) .trans (.refl hs) (fun h hm => h.grows.reached hm) fun m hm t ht => ?_
  exact expands_reach hp ht.valid (hfound m hm)

/-- All calls on a variable are resolved for an object, and their callees are reached. -/
theorem expands_resolveCalls (hp : c.program.WellFormed) (hs : c.Valid s)
    (hholds : c.Derives (.holds (.var v) o)) (howner : ∀ m, c.program.Owns m v → s.Reached m) :
    c.Expands s (c.resolveCalls v o s) ∧ ∀ site call, c.program.stmt? site = some (.invoke call) →
      call.receiver = some v → c.Resolved o site (c.resolveCalls v o s) := by
  have hcalls := resolves_foldl_resolveCall hp hs hholds fun site hsite =>
    ⟨(mem_reachableSites.1 hsite).2, (mem_invokes_iff hp).1 (mem_reachableSites.1 hsite).1⟩
  unfold resolveCalls
  dsimp only
  generalize (reachableSites s (c.program.relatedTo v).invokes).foldl (c.resolveCall o) (s, []) = acc
    at hcalls ⊢
  obtain ⟨t, found⟩ := acc
  obtain ⟨hresolves, hdone⟩ := hcalls
  -- now the callees that have been collected become reachable
  obtain ⟨hexpands, hreached⟩ := expands_foldl_reach hp hresolves.valid fun m hm =>
    (hresolves.derives_collected m hm).resolve_left List.not_mem_nil
  have hresolved : ∀ site call, c.program.stmt? site = some (.invoke call) →
      call.receiver = some v → c.Resolved o site t := fun site call hstmt hreceiver => by
    have haccess := access?_eq_call_iff.2 ⟨call, rfl, hreceiver⟩
    exact hdone site (mem_reachableSites.2
      ⟨(mem_invokes_iff hp).2 ⟨call, hstmt, hreceiver⟩,
        reached_of_access? hp howner hstmt haccess⟩)
  refine ⟨?_, fun site call hstmt hreceiver =>
    (hresolved site call hstmt hreceiver).mono hexpands.grows⟩
  exact {
    valid := hexpands.valid
    grows := hresolves.grows.trans hexpands.grows
    started_eq := hexpands.started_eq.trans hresolves.started_eq
    points_iff := hexpands.points_iff.trans hresolves.points_iff
    read := fun {m} hm => (hexpands.read hm).imp_left fun hm => by
      rwa [PointsToState.Reached, hresolves.reachable_eq] at hm
    settled := fun {e} he => by
      rcases hexpands.settled he with he | he
      · refine (hresolves.passed he).imp_right fun h => ⟨h.1.mono hexpands.grows, ?_⟩
        exact hreached e.callee h.2
      · exact .inr he }

/-! ## Arrival -/

/-- The statements that go through a variable have had their effect for an object. -/
structure Wired (c : PointsToProblem) (s : PointsToState) (v : VarId) (o : ObjId) : Prop where
  /-- Accesses to memory are connected with the object's memory. -/
  link : ∀ site stmt x y, c.program.stmt? site = some stmt → stmt.LinksThrough v o x y → s.Flows x y
  /-- Calls are resolved for the object. -/
  resolved : ∀ site call, c.program.stmt? site = some (.invoke call) → call.receiver = some v →
    c.Resolved o site s

theorem Wired.mono (h : c.Wired s v o) (hgrows : s.Grows t) : c.Wired t v o where
  link site stmt x y hstmt hlink := hgrows.flows (h.link site stmt x y hstmt hlink)
  resolved site call hstmt hreceiver := (h.resolved site call hstmt hreceiver).mono hgrows

/-- An object that arrives at a variable of a reachable method is handled. -/
theorem expands_arrive (hp : c.program.WellFormed) (hs : c.Valid s)
    (hholds : c.Derives (.holds (.var v) o)) (howner : ∀ m, c.program.Owns m v → s.Reached m) :
    c.Expands s (c.arrive v s o) ∧ c.Wired (c.arrive v s o) v o := by
  obtain ⟨hextends, hflows⟩ := extends_connectAccesses hp hs hholds howner
  obtain ⟨hexpands, hresolved⟩ := expands_resolveCalls hp hextends.valid hholds
    fun m hm => hextends.grows.reached (howner m hm)
  exact ⟨hextends.expands.trans hexpands, fun site stmt x y hstmt hlink =>
    hexpands.grows.flows (hflows site stmt x y hstmt hlink), hresolved⟩

end TacAnalysis.PointsToProblem
