import TacAnalysis.Proofs.PointsTo.Invariant

/-!
# Methods become reachable

A method that becomes reachable is read: its copies, casts and accesses to static fields
become edges, its allocations send objects, and its static calls make further methods
reachable, which are read in turn. Each of these methods was not reachable before, so no
more than all methods can be nested, and afterwards every method that has become reachable
is read and every call that has been added is connected to its callee.

Main statements: `exists_reachWithin?` and `expands_reach`.
-/

namespace TacAnalysis.PointsToProblem

variable {c : PointsToProblem} {s t u : PointsToState}

/-! ## Changes of the call graph -/

theorem Valid.calls (hs : c.Valid s) {g : CallGraph} (hgrows : s.Grows { s with calls := g })
    (hreached : ∀ m ∈ g.reachable, c.Derives (.reached m))
    (hcalled : ∀ e ∈ g.edges, c.Derives (.called e)) : c.Valid { s with calls := g } where
  wellFormed := ⟨hs.wellFormed.graph, hs.wellFormed.pending_lt⟩
  derives_reached hm := hreached _ hm
  derives_called he := hcalled _ he
  derives_flows := hs.derives_flows
  derives_has := hs.derives_has
  carried := hs.carried
  open_of_flows hxy := (hs.open_of_flows hxy).mono hgrows
  open_of_pends hx := (hs.open_of_pends hx).mono hgrows

theorem grows_addReachable (s : PointsToState) (m : MethodId) :
    s.Grows { s with calls := s.calls.addReachable m } where
  reached hm := CallGraph.mem_addOnce.2 (.inr hm)
  called := id
  flows := id
  has := id

theorem Valid.addReachable (hs : c.Valid s) {m : MethodId} (hm : c.Derives (.reached m)) :
    c.Valid { s with calls := s.calls.addReachable m } := by
  refine hs.calls (grows_addReachable s m) (fun n hn => ?_) fun e he => hs.derives_called he
  rcases CallGraph.mem_addOnce.1 hn with rfl | hn
  · exact hm
  · exact hs.derives_reached hn

theorem grows_addEdge (s : PointsToState) (e : CallEdge) :
    s.Grows { s with calls := s.calls.addEdge e } where
  reached := id
  called he := CallGraph.mem_addOnce.2 (.inr he)
  flows := id
  has := id

theorem Valid.addEdge (hs : c.Valid s) {e : CallEdge} (he : c.Derives (.called e)) :
    c.Valid { s with calls := s.calls.addEdge e } := by
  refine hs.calls (grows_addEdge s e) (fun m hm => hs.derives_reached hm) fun e' he' => ?_
  rcases CallGraph.mem_addOnce.1 he' with rfl | he'
  · exact he
  · exact hs.derives_called he'

/-! ## Calls -/

variable (c)

/-- Arguments and results flow between the site of a call and its callee. -/
def Passed (s : PointsToState) (e : CallEdge) : Prop :=
  ∀ call method x y, c.program.stmt? e.site = some (.invoke call) →
    c.program.method? e.callee = some method → call.Passes method x y → s.Flows x y

variable {c}

theorem Passed.mono {e : CallEdge} (h : c.Passed s e) (hgrows : s.Grows t) : c.Passed t e :=
  fun call method x y hstmt hmethod hpass => hgrows.flows (h call method x y hstmt hmethod hpass)

/-- A call that is known is connected to its callee. -/
theorem extends_connectCallee (hp : c.program.WellFormed) (hs : c.Valid s) {e : CallEdge}
    {call : Invoke} (he : s.Called e) (hreached : s.Reached e.site.method)
    (hstmt : c.program.stmt? e.site = some (.invoke call)) :
    c.Extends s (s.connectCallee c.program call e.callee) ∧
      c.Passed (s.connectCallee c.program call e.callee) e := by
  have hcalled := hs.derives_called he
  unfold PointsToState.connectCallee
  cases hmethod : c.program.method? e.callee with
  | none =>
    refine ⟨.refl hs, fun _ _ _ _ _ h => ?_⟩
    rw [hmethod] at h
    cases h
  | some method =>
    dsimp only
    unfold PointsToState.connectCall
    have hderives : ∀ {x y}, call.Passes method x y → c.Derives (.flows x y) := fun hpass =>
      .pass hcalled hstmt hmethod hpass
    -- the arguments come first, then the results
    obtain ⟨hargs, hargsFlow⟩ := extends_connectAll (call.args.zip method.params)
      (fun a => .var a.1) (fun a => .var a.2) hs (fun a ha => hderives (.argument ha)) fun a ha => by
        have howns := hp.owns_of_method? hmethod (List.mem_append_left _ (List.of_mem_zip ha).2)
        exact open_var howns (.inr ⟨e, he, rfl⟩)
    have hpassed : ∀ {t : PointsToState},
        (∀ a ∈ call.args.zip method.params, t.Flows (.var a.1) (.var a.2)) →
        (∀ v ∈ method.returnVars, ∀ result, call.result = some result →
          t.Flows (.var v) (.var result)) → c.Passed t e := by
      intro t hargs hresults call' method' x y hstmt' hmethod' hpass
      cases hstmt.symm.trans hstmt'
      cases hmethod.symm.trans hmethod'
      cases hpass with
      | argument ha => exact hargs _ ha
      | result hv hresult => exact hresults _ ((hp.mem_returnVars hmethod).2 hv) _ hresult
    cases hresult : call.result with
    | none => exact ⟨hargs, hpassed hargsFlow fun v _ r hr => by rw [hresult] at hr; cases hr⟩
    | some result =>
      dsimp only
      have howns := hp.owns_of_stmt? hstmt (List.mem_append_right _ (Option.mem_toList.2 hresult))
      obtain ⟨hresults, hresultsFlow⟩ := extends_connectAll method.returnVars
        (fun v => .var v) (fun _ => .var result) hargs.valid
        (fun v hv => hderives (.result ((hp.mem_returnVars hmethod).1 hv) hresult))
        fun v _ => open_var howns (.inl (hargs.grows.reached hreached))
      refine ⟨hargs.trans hresults, hpassed (fun a ha => hresults.grows.flows (hargsFlow a ha)) ?_⟩
      intro v hv r hr
      cases hresult.symm.trans hr
      exact hresultsFlow v hv

/-! ## Reading statements -/

variable (c)

/-- The statement has had its effect as far as it waits for no object. -/
structure Read (s : PointsToState) (site : Site) (stmt : Stmt) : Prop where
  /-- Its edges are there. -/
  link : ∀ {x y : Pointer}, stmt.Links x y → s.Flows x y
  /-- The object that it allocates is there or on its way. -/
  alloc : ∀ {lhs : VarId} {ty : Ty} {o : ObjId}, stmt = .assign lhs (.new ty) →
    c.heap.objAt? site = some o → s.Has (.var lhs) o
  /-- The static call that it makes is known. -/
  call : ∀ {call : Invoke} {callee : MethodId}, stmt = .invoke call → call.kind = .static →
    c.program.resolveCallee none call = some callee → s.Called ⟨.static, site, callee⟩

/-- All statements of the method are read. -/
def ReadAll (s : PointsToState) (m : MethodId) : Prop :=
  ∀ site stmt, site.method = m → c.program.stmt? site = some stmt → c.Read s site stmt

/-- The call is connected to its callee, which is reached. -/
def Settled (s : PointsToState) (e : CallEdge) : Prop := c.Passed s e ∧ s.Reached e.callee

/-- A valid state that has grown, with no object more at any place, in which what has become
reachable is read and the calls that have been added are settled. -/
structure Expands (s t : PointsToState) : Prop where
  /-- The new state is valid. -/
  valid : c.Valid t
  /-- Nothing is lost. -/
  grows : s.Grows t
  /-- The analysis has begun or not as before. -/
  started_eq : t.started = s.started
  /-- No object has arrived. -/
  points_iff : ∀ {x : Pointer} {o : ObjId}, t.Points x o ↔ s.Points x o
  /-- New methods are read. -/
  read : ∀ {m : MethodId}, t.Reached m → s.Reached m ∨ c.ReadAll t m
  /-- New calls are settled. -/
  settled : ∀ {e : CallEdge}, t.Called e → s.Called e ∨ c.Settled t e

variable {c}

theorem Read.mono {site : Site} {stmt : Stmt} (h : c.Read s site stmt) (hgrows : s.Grows t) :
    c.Read t site stmt where
  link hlink := hgrows.flows (h.link hlink)
  alloc hstmt hobj := hgrows.has (h.alloc hstmt hobj)
  call hstmt hkind hcallee := hgrows.called (h.call hstmt hkind hcallee)

theorem ReadAll.mono {m : MethodId} (h : c.ReadAll s m) (hgrows : s.Grows t) : c.ReadAll t m :=
  fun site stmt hsite hstmt => (h site stmt hsite hstmt).mono hgrows

theorem Settled.mono {e : CallEdge} (h : c.Settled s e) (hgrows : s.Grows t) : c.Settled t e :=
  ⟨h.1.mono hgrows, hgrows.reached h.2⟩

theorem Extends.expands (h : c.Extends s t) : c.Expands s t where
  valid := h.valid
  grows := h.grows
  started_eq := h.started_eq
  points_iff := h.points_iff
  read hm := .inl (by rwa [PointsToState.Reached, h.calls_eq] at hm)
  settled he := .inl (by rwa [PointsToState.Called, h.calls_eq] at he)

theorem Expands.trans (h : c.Expands s t) (h' : c.Expands t u) : c.Expands s u where
  valid := h'.valid
  grows := h.grows.trans h'.grows
  started_eq := h'.started_eq.trans h.started_eq
  points_iff := h'.points_iff.trans h.points_iff
  read hm := by
    rcases h'.read hm with hm | hm
    · exact (h.read hm).imp_right fun hread => hread.mono h'.grows
    · exact .inr hm
  settled he := by
    rcases h'.settled he with he | he
    · exact (h.settled he).imp_right fun hsettled => hsettled.mono h'.grows
    · exact .inr he

theorem Expands.refl (hs : c.Valid s) : c.Expands s s := (Extends.refl hs).expands

/-- A call that has been added and settled leaves nothing to be done. -/
theorem Expands.of_addEdge {e : CallEdge} (h : c.Expands { s with calls := s.calls.addEdge e } t)
    (hsettled : c.Settled t e) : c.Expands s t where
  valid := h.valid
  grows := (grows_addEdge s e).trans h.grows
  started_eq := h.started_eq
  points_iff := h.points_iff
  read := h.read
  settled he := by
    rcases h.settled he with he | he
    · rcases CallGraph.mem_addOnce.1 he with rfl | he
      · exact .inr hsettled
      · exact .inl he
    · exact .inr he

/-- A method that has become reachable and has been read leaves nothing to be done. -/
theorem Expands.of_addReachable {m : MethodId}
    (h : c.Expands { s with calls := s.calls.addReachable m } t) (hread : c.ReadAll t m) :
    c.Expands s t where
  valid := h.valid
  grows := (grows_addReachable s m).trans h.grows
  started_eq := h.started_eq
  points_iff := h.points_iff
  read hn := by
    rcases h.read hn with hn | hn
    · rcases CallGraph.mem_addOnce.1 hn with rfl | hn
      · exact .inr hread
      · exact .inl hn
    · exact .inr hn
  settled := h.settled

/-- A statement that makes objects flow is read by adding its edge. -/
theorem reads_connect (hs : c.Valid s) {site : Site} {stmt : Stmt} (hm : s.Reached site.method)
    (hstmt : c.program.stmt? site = some stmt) {x y : Pointer} (hlink : stmt.Links x y)
    (hopen : c.Open s y) : c.Expands s (s.connect x y) ∧ c.Read (s.connect x y) site stmt := by
  obtain ⟨hextends, hflows⟩ :=
    Extends.connect hs (.link (hs.derives_reached hm) hstmt hlink) hopen
  refine ⟨hextends.expands, fun {z w} hother => ?_, fun halloc _ => ?_, fun hcall _ _ => ?_⟩
  · obtain ⟨rfl, rfl⟩ := hlink.unique hother
    exact hflows
  · rw [halloc] at hlink
    cases hlink
  · rw [hcall] at hlink
    cases hlink

/-- A statement without an edge, an allocation or a static call need not be read. -/
theorem reads_nothing (hs : c.Valid s) {site : Site} {stmt : Stmt}
    (hlink : ∀ {x y}, ¬ stmt.Links x y) (halloc : ∀ lhs ty, stmt ≠ .assign lhs (.new ty))
    (hcall : ∀ call, stmt = .invoke call → call.kind ≠ .static) :
    c.Expands s s ∧ c.Read s site stmt :=
  ⟨.refl hs, fun h => absurd h hlink, fun h => absurd h (halloc _ _), fun h hkind =>
    absurd hkind (hcall _ h)⟩

variable (c)

/-- How many methods are not reachable. -/
def unreached (s : PointsToState) : Nat :=
  ((List.range c.program.methods.length).filter (· ∉ s.calls.reachable)).length

variable {c}

theorem unreached_le (hgrows : s.Grows t) : c.unreached t ≤ c.unreached s := by
  unfold unreached
  refine List.Sublist.length_le (List.monotone_filter_right _ fun m hm => ?_)
  simp only [decide_eq_true_eq] at hm ⊢
  exact fun h => hm (hgrows.reached h)

theorem unreached_lt (s : PointsToState) : c.unreached s < c.program.methods.length + 1 :=
  Nat.lt_succ_of_le (Nat.le_trans (List.length_filter_le _ _) (Nat.le_of_eq List.length_range))

/-- A static call in a method that is reachable makes its callee reachable and is settled. -/
theorem exists_readCall? (hp : c.program.WellFormed)
    {reach? : MethodId → PointsToState → Option PointsToState} {bound : Nat}
    (hreach : ∀ m t, c.Valid t → c.Derives (.reached m) → c.unreached t < bound →
      ∃ u, reach? m t = some u ∧ c.Expands t u ∧ u.Reached m)
    (hs : c.Valid s) (hbound : c.unreached s < bound) {site : Site} {call : Invoke}
    {callee : MethodId} (hm : s.Reached site.method)
    (hstmt : c.program.stmt? site = some (.invoke call)) (hkind : call.kind = .static)
    (hcallee : c.program.resolveCallee none call = some callee) :
    ∃ t, c.readStmt? reach? s (site, .invoke call) = some t ∧ c.Expands s t ∧
      t.Called ⟨.static, site, callee⟩ := by
  have hderives := Derived.staticCall (hs.derives_reached hm) hstmt hkind hcallee
  simp only [readStmt?, if_pos hkind, hcallee]
  split
  · rename_i hhas
    have hknown : ⟨.static, site, callee⟩ ∈ s.calls.edges := of_decide_eq_true hhas
    exact ⟨s, rfl, .refl hs, hknown⟩
  · have hadded := hs.addEdge hderives
    have hgrows := grows_addEdge s ⟨.static, site, callee⟩
    obtain ⟨u, hu, hexpands, hreached⟩ := hreach callee _ hadded (.callee hderives)
      (Nat.lt_of_le_of_lt (unreached_le hgrows) hbound)
    have hcalled : u.Called ⟨.static, site, callee⟩ :=
      hexpands.grows.called (CallGraph.mem_addOnce.2 (.inl rfl))
    obtain ⟨hextends, hpassed⟩ := extends_connectCallee hp hexpands.valid hcalled
      (hexpands.grows.reached (hgrows.reached hm)) hstmt
    have hsettled : c.Settled (u.connectCallee c.program call callee) ⟨.static, site, callee⟩ :=
      ⟨hpassed, hextends.grows.reached hreached⟩
    have hall := (hexpands.trans hextends.expands).of_addEdge hsettled
    exact ⟨_, by rw [hu]; rfl, hall, hextends.grows.called hcalled⟩

/-- A statement of a method that is reachable can be read. -/
theorem exists_readStmt? (hp : c.program.WellFormed)
    {reach? : MethodId → PointsToState → Option PointsToState} {bound : Nat}
    (hreach : ∀ m t, c.Valid t → c.Derives (.reached m) → c.unreached t < bound →
      ∃ u, reach? m t = some u ∧ c.Expands t u ∧ u.Reached m)
    (hs : c.Valid s) (hbound : c.unreached s < bound) {site : Site} {stmt : Stmt}
    (hm : s.Reached site.method) (hstmt : c.program.stmt? site = some stmt) :
    ∃ t, c.readStmt? reach? s (site, stmt) = some t ∧ c.Expands s t ∧ c.Read t site stmt := by
  have hopen : ∀ {v}, v ∈ stmt.assigned? → c.Open s (.var v) := fun hv =>
    open_var (hp.owns_of_stmt? hstmt (List.mem_append_right _ (Option.mem_toList.2 hv))) (.inl hm)
  match stmt with
  | .assign lhs (.var source) =>
    exact ⟨_, rfl, reads_connect hs hm hstmt (.copy lhs source) (hopen rfl)⟩
  | .assign lhs (.cast ty source) =>
    exact ⟨_, rfl, reads_connect hs hm hstmt (.cast lhs source ty) (hopen rfl)⟩
  | .assign lhs (.staticField f) =>
    exact ⟨_, rfl, reads_connect hs hm hstmt (.loadStatic lhs f) (hopen rfl)⟩
  | .storeField none f value =>
    exact ⟨_, rfl, reads_connect hs hm hstmt (.storeStatic f value) (open_of_ne (by simp))⟩
  | .assign lhs (.new ty) =>
    cases hobj : c.heap.objAt? site with
    | none =>
      refine ⟨s, by simp only [readStmt?, hobj], .refl hs, fun h => (by cases h), fun _ h => ?_,
        fun h => (by cases h)⟩
      rw [hobj] at h
      cases h
    | some o =>
      obtain ⟨hextends, hhas⟩ :=
        Extends.send hs (.alloc (hs.derives_reached hm) hstmt hobj) (hopen rfl)
      refine ⟨_, by simp only [readStmt?, hobj], hextends.expands, fun h => (by cases h),
        fun heq h => ?_, fun h => (by cases h)⟩
      cases heq
      cases hobj.symm.trans h
      exact hhas
  | .invoke call =>
    by_cases hkind : call.kind = .static
    · cases hcallee : c.program.resolveCallee none call with
      | none =>
        refine ⟨s, by simp only [readStmt?, if_pos hkind, hcallee], .refl hs, fun h => (by cases h),
          fun h => (by cases h), fun heq _ h => ?_⟩
        cases heq
        cases hcallee.symm.trans h
      | some callee =>
        obtain ⟨t, ht, hexpands, hcalled⟩ :=
          exists_readCall? hp hreach hs hbound hm hstmt hkind hcallee
        refine ⟨t, ht, hexpands, fun h => (by cases h), fun h => (by cases h), fun heq _ h => ?_⟩
        cases heq
        cases hcallee.symm.trans h
        exact hcalled
    · refine ⟨s, by simp only [readStmt?, if_neg hkind], reads_nothing hs (fun h => by cases h)
        (fun _ _ h => by cases h) fun call' h => ?_⟩
      cases h
      exact hkind
  | .assign _ (.intLiteral _) | .assign _ .nullLiteral | .assign _ (.stringLiteral _)
  | .assign _ (.binary _) | .assign _ (.instanceField ..) | .assign _ (.arrayAccess ..)
  | .assign _ (.arrayLength _) | .nop | .storeField (some _) .. | .storeArray .. | .branch ..
  | .goto _ | .switch .. | .ret _ =>
    exact ⟨s, rfl, reads_nothing hs (fun h => by cases h) (fun _ _ h => by cases h)
      fun _ h => by cases h⟩

/-- The statements of a method with their sites. -/
theorem mem_sitesOf {m : MethodId} {e : Site × Stmt} :
    e ∈ c.sitesOf m ↔ e.1.method = m ∧ c.program.stmt? e.1 = some e.2 := by
  obtain ⟨⟨method, index⟩, stmt⟩ := e
  unfold sitesOf Program.stmt?
  constructor
  · intro h
    cases hmethod : c.program.method? m with
    | none => simp [hmethod] at h
    | some found =>
      rw [hmethod] at h
      obtain ⟨⟨other, i⟩, hi, heq⟩ := List.mem_map.1 h
      cases heq
      exact ⟨rfl, by rw [hmethod]; exact List.mem_zipIdx_iff_getElem?.1 hi⟩
  · rintro ⟨rfl, h⟩
    obtain ⟨found, hfound, hindex⟩ := Option.bind_eq_some_iff.1 h
    rw [hfound]
    exact List.mem_map.2 ⟨(stmt, index), List.mem_zipIdx_iff_getElem?.2 hindex, rfl⟩

/-- One method less is unreached when a declared method becomes reachable. -/
theorem unreached_addReachable_lt {m : MethodId} (hm : m < c.program.methods.length)
    (hnew : ¬ s.Reached m) :
    c.unreached { s with calls := s.calls.addReachable m } < c.unreached s := by
  have hgrows := grows_addReachable s m
  unfold unreached
  apply Nat.lt_of_le_of_ne (unreached_le hgrows)
  intro heq
  have hsublist := List.monotone_filter_right (List.range c.program.methods.length)
    (p := fun n => decide (n ∉ (s.calls.addReachable m).reachable))
    (q := fun n => decide (n ∉ s.calls.reachable)) fun n hn => by
      simp only [decide_eq_true_eq] at hn ⊢
      exact fun h => hn (hgrows.reached h)
  have hsame := hsublist.eq_of_length heq
  have hmem : m ∈ (List.range c.program.methods.length).filter (· ∉ s.calls.reachable) :=
    List.mem_filter.2 ⟨List.mem_range.2 hm, decide_eq_true hnew⟩
  rw [← hsame] at hmem
  have hnot := of_decide_eq_true (List.mem_filter.1 hmem).2
  exact hnot (CallGraph.mem_addOnce.2 (.inl rfl))

/-- A method can be made reachable if there is a level for each method that is not yet. -/
theorem exists_reachWithin? (hp : c.program.WellFormed) {depth : Nat} {m : MethodId}
    (hs : c.Valid s) (hm : c.Derives (.reached m)) (hdepth : c.unreached s < depth) :
    ∃ t, c.reachWithin? depth m s = some t ∧ c.Expands s t ∧ t.Reached m := by
  induction depth generalizing m s with
  | zero => exact absurd hdepth (Nat.not_lt_zero _)
  | succ depth ih =>
    rw [reachWithin?]
    split
    · rename_i hold
      have hreached : m ∈ s.calls.reachable := of_decide_eq_true hold
      exact ⟨s, rfl, .refl hs, hreached⟩
    · rename_i hnot
      have hnew : ¬ s.Reached m := fun h => hnot (decide_eq_true h)
      have hadded := hs.addReachable hm
      have hself : ({ s with calls := s.calls.addReachable m } : PointsToState).Reached m :=
        CallGraph.mem_addOnce.2 (.inl rfl)
      have hstep : ∀ e ∈ c.sitesOf m, ∀ t, c.Expands { s with calls := s.calls.addReachable m } t →
          ∃ u, c.readStmt? (c.reachWithin? depth) t e = some u ∧ c.Expands t u ∧
            c.Read u e.1 e.2 := by
        intro e he t ht
        obtain ⟨rfl, hstmt⟩ := mem_sitesOf.1 he
        obtain ⟨method, hmethod, -⟩ := Option.bind_eq_some_iff.1 hstmt
        have hlt := unreached_addReachable_lt (List.getElem?_eq_some_iff.1 hmethod).1 hnew
        have hbound : c.unreached t < depth :=
          calc c.unreached t
            _ ≤ c.unreached { s with calls := s.calls.addReachable e.1.method } := unreached_le ht.grows
            _ < c.unreached s := hlt
            _ ≤ depth := Nat.le_of_lt_succ hdepth
        exact exists_readStmt? hp (fun n t ht hn hlt => ih ht hn hlt) ht.valid hbound
          (ht.grows.reached hself) hstmt
      obtain ⟨u, hu, hexpands, hread⟩ := exists_foldlM_eq_some (R := c.Expands)
        (c.readStmt? (c.reachWithin? depth)) (fun e t => c.Read t e.1 e.2)
        (fun ht => .refl ht.valid) .trans (.refl hadded) (fun ht h => h.mono ht.grows) hstep
      have hall : c.ReadAll u m := by
        intro site stmt hsite hstmt
        exact hread (site, stmt) (mem_sitesOf.2 ⟨hsite, hstmt⟩)
      exact ⟨u, hu, hexpands.of_addReachable hall, hexpands.grows.reached hself⟩

/-- No more than all methods can be nested, so every derived method can be made reachable. -/
theorem expands_reach (hp : c.program.WellFormed) {m : MethodId} (hs : c.Valid s)
    (hm : c.Derives (.reached m)) : c.Expands s (c.reach m s) ∧ (c.reach m s).Reached m := by
  obtain ⟨t, ht, hresult⟩ := exists_reachWithin? hp hs hm (unreached_lt s)
  rw [reach, ht]
  exact hresult

end TacAnalysis.PointsToProblem
