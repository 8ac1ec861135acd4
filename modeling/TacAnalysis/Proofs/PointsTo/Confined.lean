import TacAnalysis.Proofs.PointsTo.Growth
import TacAnalysis.Proofs.PointsTo.Least

/-!
# Pointer analysis stays in known code

Objects only flow between, are only on their way to, and are only found at variables of methods
that are reached or called. In the middle of a step a callee is often only called: the object of
the receiver, the arguments and the results are connected before the callee is reached, and a
static call is followed while its caller is being read. So every move is allowed for methods that
are reached or called, and callers are always reached.

Main statements: `Confined.arrive` and `Confined.step`.
-/

namespace TacAnalysis

/-- What every step keeps holds behind a row of steps that succeed. -/
theorem foldlM_invariant {α σ : Type} {f : σ → α → Option σ} {motive : σ → Prop} {xs : List α}
    {s t : σ} (hs : motive s) (hstep : ∀ a ∈ xs, ∀ u v, motive u → f u a = some v → motive v)
    (h : xs.foldlM f s = some t) : motive t := by
  induction xs generalizing s with
  | nil =>
    obtain rfl : s = t := Option.some.inj h
    exact hs
  | cons a xs ih =>
    rw [List.foldlM_cons] at h
    obtain ⟨u, hu, hrest⟩ := Option.bind_eq_some_iff.1 h
    have hfirst := hstep a List.mem_cons_self s u hs hu
    exact ih hfirst (fun b hb => hstep b (List.mem_cons_of_mem a hb)) hrest

/-- A method declares the variables that it returns. -/
theorem Program.WellFormed.owns_of_returnVars {p : Program} (hp : p.WellFormed) {m : MethodId}
    {method : Method} (h : p.method? m = some method) {v : VarId} (hv : v ∈ method.returnVars) :
    p.Owns m v := by
  have hret := (hp.mem_returnVars h).1 hv
  have hused : v ∈ (Stmt.ret (some v)).uses := List.mem_singleton_self v
  have howns := hp.owns_use method (List.mem_of_getElem? h) _ hret v (List.mem_append_left _ hused)
  rwa [hp.id_eq h] at howns

namespace PointsToState

variable {s t u : PointsToState} {x y z : Pointer} {objects : IdSet}

/-! ## Pointers that wait for objects -/

/-- An entry is pending for the pointer. -/
def Awaits (s : PointsToState) (x : Pointer) : Prop :=
  ∃ e ∈ s.pending.entries, s.graph.pointer? e.1 = some x

/-- The place takes part: an entry is pending for it, it has an object, or objects flow from it or
to it. -/
def Involves (s : PointsToState) (x : Pointer) : Prop :=
  s.Awaits x ∨ (∃ o, s.Points x o) ∨ ∃ y, s.Flows x y ∨ s.Flows y x

/-- If every new entry is for one of certain pointers, no others wait in addition. -/
theorem awaits_of_entries (sent : Pointer → Prop) (hs : s.WellFormed)
    (hgraph : s.graph.Continues t.graph)
    (hentries : ∀ e ∈ t.pending.entries, e ∈ s.pending.entries ∨
      ∃ x, t.graph.pointer? e.1 = some x ∧ sent x) (hz : t.Awaits z) : s.Awaits z ∨ sent z := by
  obtain ⟨e, he, hez⟩ := hz
  rcases hentries e he with hold | ⟨x, hx, hsent⟩
  · rw [hgraph.pointer?_eq (hs.pending_lt e hold)] at hez
    exact .inl ⟨e, hold, hez⟩
  · obtain rfl : x = z := Option.some.inj (hx.symm.trans hez)
    exact .inr hsent

theorem awaits_send (hs : s.WellFormed) (hz : (s.send x objects).Awaits z) :
    s.Awaits z ∨ z = x := by
  have hcontinues := composes_continues.send s x objects
  refine awaits_of_entries (· = x) hs hcontinues.graph (fun e he => ?_) hz
  rcases List.mem_append.1 he with hold | hnew
  · exact .inl hold
  · rw [List.mem_singleton.1 hnew]
    exact .inr ⟨x, (hs.graph.interns x).pointer?_eq, rfl⟩

theorem awaits_connect (hs : s.WellFormed) (hz : (s.connect x y).Awaits z) :
    s.Awaits z ∨ z = y := by
  have hcontinues := composes_continues.connect s x y
  have htarget := (hs.graph.interns x).wellFormed.interns y
  refine awaits_of_entries (· = y) hs hcontinues.graph (fun e he => ?_) hz
  unfold connect at he ⊢
  dsimp only at he ⊢
  split at he
  · exact .inl he
  · rename_i hnew
    rw [if_neg hnew]
    split at he
    · exact .inl he
    · rcases List.mem_append.1 he with hold | hsent
      · exact .inl hold
      · rw [List.mem_singleton.1 hsent]
        exact .inr ⟨y, PointerGraph.pointer?_addEdge.trans htarget.pointer?_eq, rfl⟩

theorem awaits_propagate (hs : s.WellFormed) {id : PointerId} (hx : s.graph.pointer? id = some x)
    (hz : (s.propagate id objects).1.Awaits z) : s.Awaits z ∨ s.Flows x z := by
  have hcontinues := composes_continues.propagate s id objects
  refine awaits_of_entries (s.Flows x ·) hs hcontinues.graph (fun e he => ?_) hz
  unfold propagate at he ⊢
  dsimp only at he ⊢
  split at he
  · exact .inl he
  · rename_i hsome
    rw [if_neg hsome]
    rcases List.mem_append.1 he with hold | hsent
    · exact .inl hold
    · obtain ⟨j, hj, rfl⟩ := List.mem_map.1 hsent
      obtain ⟨y, hy⟩ := PointerGraph.exists_pointer? (hs.graph.successor_lt hj)
      exact .inr ⟨y, PointerGraph.pointer?_addObjects.trans hy, id, j, hx, hy, hj⟩

/-- An entry that is taken was pending, and those that are left were too. -/
theorem awaits_of_pop? {id : PointerId} {rest : Pending}
    (h : s.pending.pop? = some ((id, objects), rest)) :
    (∀ x, s.graph.pointer? id = some x → s.Awaits x) ∧
      ∀ z, ({ s with pending := rest } : PointsToState).Awaits z → s.Awaits z := by
  obtain ⟨⟨e, left⟩, htake, heq⟩ := Option.map_eq_some_iff.1 h
  cases heq
  obtain ⟨earlier, later, hentries, hleft⟩ := WorklistOrder.exists_of_take? htake
  constructor
  · intro x hx
    exact ⟨(id, objects), by rw [hentries]; simp, hx⟩
  · rintro z ⟨e, he, hz⟩
    change e ∈ left at he
    refine ⟨e, ?_, hz⟩
    rw [hleft] at he
    rw [hentries]
    rcases List.mem_append.1 he with he | he
    · exact List.mem_append_left _ he
    · exact List.mem_append_right _ (List.mem_cons_of_mem _ he)

/-- Methods that are reached or called stay so. -/
theorem Continues.touched (h : s.Continues t) {m : MethodId} (hm : s.Touched m) : t.Touched m := by
  rcases hm with hm | ⟨e, he, rfl⟩
  · exact .inl (h.reachable.subset hm)
  · exact .inr ⟨e, h.edges.subset he, rfl⟩

theorem Continues.reached (h : s.Continues t) {m : MethodId} (hm : s.Reached m) : t.Reached m :=
  h.reachable.subset hm

end PointsToState

namespace PointsToProblem

variable {c : PointsToProblem} {s t u : PointsToState} {x y : Pointer} {v : VarId} {o : ObjId}

/-- The place is not a variable, or it is one of a method that is reached or called. -/
def Within (c : PointsToProblem) (s : PointsToState) (x : Pointer) : Prop :=
  ∀ v, x = .var v → ∃ m, c.program.Owns m v ∧ s.Touched m

theorem Within.mono (h : c.Within s x) (hcontinues : s.Continues t) : c.Within t x := by
  intro v hx
  obtain ⟨m, howns, hm⟩ := h v hx
  exact ⟨m, howns, hcontinues.touched hm⟩

theorem within_var {m : MethodId} (howns : c.program.Owns m v) (hm : s.Touched m) :
    c.Within s (.var v) := by
  rintro w ⟨⟩
  exact ⟨m, howns, hm⟩

theorem within_of_ne (h : ∀ v, x ≠ .var v) : c.Within s x := fun v hx => absurd hx (h v)

/-- Variables of statements of a reached method. -/
theorem within_of_stmt? (hp : c.program.WellFormed) {site : Site} {stmt : Stmt}
    (hstmt : c.program.stmt? site = some stmt) (hm : s.Reached site.method)
    (hv : v ∈ stmt.uses ∨ v ∈ stmt.assigned?) : c.Within s (.var v) := by
  apply within_var (hp.owns_of_stmt? hstmt _) (.inl hm)
  rcases hv with hv | hv
  · exact List.mem_append_left _ hv
  · exact List.mem_append_right _ (Option.mem_toList.2 hv)

/-- Objects only flow between, are only at, and are only on their way to places of methods that are
reached or called, and calls are only made from reached methods. -/
structure Confined (c : PointsToProblem) (s : PointsToState) : Prop where
  /-- The parts of the state fit together. -/
  wellFormed : s.WellFormed
  /-- Calls are made from reached methods. -/
  site_reached : ∀ {e : CallEdge}, s.Called e → s.Reached e.site.method
  /-- Objects flow from such places. -/
  source_within : ∀ {x y : Pointer}, s.Flows x y → c.Within s x
  /-- Objects flow to such places. -/
  target_within : ∀ {x y : Pointer}, s.Flows x y → c.Within s y
  /-- Objects are at such places. -/
  points_within : ∀ {x : Pointer} {o : ObjId}, s.Points x o → c.Within s x
  /-- Such places wait for objects. -/
  awaits_within : ∀ {x : Pointer}, s.Awaits x → c.Within s x

/-! ## Moves -/

/-- Flows between such places and objects on their way there may be added. -/
theorem Confined.adds {flows : Pointer → Pointer → Prop} {pends : Pointer → ObjId → Prop}
    (hs : c.Confined s) (h : s.Adds t flows pends) (hcontinues : s.Continues t)
    (hflows : ∀ x y, flows x y → c.Within s x ∧ c.Within s y)
    (hawaits : ∀ z, t.Awaits z → s.Awaits z ∨ c.Within s z) : c.Confined t where
  wellFormed := h.wellFormed
  site_reached he := by
    rw [PointsToState.Called, h.calls_eq] at he
    exact hcontinues.reached (hs.site_reached he)
  source_within hxy := by
    rcases (h.flows_iff _ _).1 hxy with hold | hnew
    · exact (hs.source_within hold).mono hcontinues
    · exact (hflows _ _ hnew).1.mono hcontinues
  target_within hxy := by
    rcases (h.flows_iff _ _).1 hxy with hold | hnew
    · exact (hs.target_within hold).mono hcontinues
    · exact (hflows _ _ hnew).2.mono hcontinues
  points_within hx := (hs.points_within ((h.points_iff _ _).1 hx)).mono hcontinues
  awaits_within hz := by
    rcases hawaits _ hz with hold | hnew
    · exact (hs.awaits_within hold).mono hcontinues
    · exact hnew.mono hcontinues

theorem Confined.connect (hs : c.Confined s) (hx : c.Within s x) (hy : c.Within s y) :
    c.Confined (s.connect x y) := by
  refine hs.adds (PointsToState.adds_connect hs.wellFormed x y)
    (PointsToState.composes_continues.connect s x y) ?_ fun z hz => ?_
  · rintro a b ⟨rfl, rfl⟩
    exact ⟨hx, hy⟩
  · rcases PointsToState.awaits_connect hs.wellFormed hz with hold | rfl
    · exact .inl hold
    · exact .inr hy

theorem Confined.send (hs : c.Confined s) (hx : c.Within s x) (objects : IdSet) :
    c.Confined (s.send x objects) := by
  refine hs.adds (PointsToState.adds_send hs.wellFormed x objects)
    (PointsToState.composes_continues.send s x objects) (fun _ _ h => h.elim) fun z hz => ?_
  rcases PointsToState.awaits_send hs.wellFormed hz with hold | rfl
  · exact .inl hold
  · exact .inr hx

/-- Pairs of such places are connected one after the other. -/
theorem Confined.connectAll {α : Type} {xs : List α} {source target : α → Pointer}
    (hs : c.Confined s) (hxs : ∀ a ∈ xs, c.Within s (source a) ∧ c.Within s (target a)) :
    c.Confined (xs.foldl (fun s a => s.connect (source a) (target a)) s) := by
  suffices h : s.Continues (xs.foldl (fun s a => s.connect (source a) (target a)) s) ∧
      c.Confined (xs.foldl (fun s a => s.connect (source a) (target a)) s) from h.2
  refine List.foldlRecOn xs _ (motive := fun t => s.Continues t ∧ c.Confined t) ⟨.refl s, hs⟩ ?_
  rintro t ⟨hcontinues, ht⟩ a ha
  obtain ⟨hsource, htarget⟩ := hxs a ha
  exact ⟨hcontinues.trans (PointsToState.composes_continues.connect t _ _),
    ht.connect (hsource.mono hcontinues) (htarget.mono hcontinues)⟩

/-- The call graph may take in methods, and calls from reached methods. -/
theorem Confined.calls (hs : c.Confined s) {g : CallGraph}
    (hcontinues : s.Continues { s with calls := g })
    (hsites : ∀ e ∈ g.edges, e.site.method ∈ g.reachable) :
    c.Confined { s with calls := g } where
  wellFormed := ⟨hs.wellFormed.graph, hs.wellFormed.pending_lt⟩
  site_reached he := hsites _ he
  source_within hxy := (hs.source_within hxy).mono hcontinues
  target_within hxy := (hs.target_within hxy).mono hcontinues
  points_within hx := (hs.points_within hx).mono hcontinues
  awaits_within hz := (hs.awaits_within hz).mono hcontinues

theorem Confined.addReachable (hs : c.Confined s) (m : MethodId) :
    c.Confined { s with calls := s.calls.addReachable m } := by
  apply hs.calls (PointsToState.composes_continues.addReachable s m)
  intro e he
  exact CallGraph.mem_addOnce.2 (.inr (hs.site_reached he))

theorem Confined.addEdge (hs : c.Confined s) {e : CallEdge} (he : s.Reached e.site.method) :
    c.Confined { s with calls := s.calls.addEdge e } := by
  apply hs.calls (PointsToState.composes_continues.addEdge s e)
  intro e' he'
  rcases CallGraph.mem_addOnce.1 he' with rfl | hold
  · exact he
  · exact hs.site_reached hold

/-- A known call connects variables of its two methods. -/
theorem Confined.connectCallee (hp : c.program.WellFormed) (hs : c.Confined s) {e : CallEdge}
    (he : s.Called e) {call : Invoke} (hstmt : c.program.stmt? e.site = some (.invoke call)) :
    c.Confined (s.connectCallee c.program call e.callee) := by
  have hsite := hs.site_reached he
  have hcallee : s.Touched e.callee := .inr ⟨e, he, rfl⟩
  unfold PointsToState.connectCallee
  cases hmethod : c.program.method? e.callee with
  | none => exact hs
  | some method =>
    dsimp only
    unfold PointsToState.connectCall
    have harguments : c.Confined ((call.args.zip method.params).foldl
        (fun s e => s.connect (.var e.1) (.var e.2)) s) := by
      apply hs.connectAll
      rintro ⟨arg, param⟩ hmem
      obtain ⟨harg, hparam⟩ := List.of_mem_zip hmem
      have hused : arg ∈ (Stmt.invoke call).uses := List.mem_append_right _ harg
      exact ⟨within_of_stmt? hp hstmt hsite (.inl hused),
        within_var (hp.owns_of_method? hmethod (List.mem_append_left _ hparam)) hcallee⟩
    have hcontinues := PointsToState.composes_continues.foldl
      (f := fun (s : PointsToState) (e : VarId × VarId) => s.connect (.var e.1) (.var e.2))
      (fun t e => PointsToState.composes_continues.connect t _ _) (call.args.zip method.params) s
    cases hresult : call.result with
    | none => exact harguments
    | some result =>
      have hassigned : result ∈ (Stmt.invoke call).assigned? := hresult
      apply harguments.connectAll
      intro v hv
      exact ⟨within_var (hp.owns_of_returnVars hmethod hv) (hcontinues.touched hcallee),
        within_of_stmt? hp hstmt (hcontinues.reached hsite) (.inr hassigned)⟩

/-! ## Reading statements -/

/-- Reading a statement of a reached method keeps the state confined if making methods reachable
does. -/
theorem Confined.readStmt? (hp : c.program.WellFormed)
    {reach? : MethodId → PointsToState → Option PointsToState}
    (hreach : ∀ m s t, reach? m s = some t → s.Continues t ∧ (c.Confined s → c.Confined t))
    (hs : c.Confined s) {site : Site} {stmt : Stmt} (hstmt : c.program.stmt? site = some stmt)
    (hm : s.Reached site.method) (h : c.readStmt? reach? s (site, stmt) = some t) :
    c.Confined t := by
  have hused : ∀ {v}, v ∈ stmt.uses → c.Within s (.var v) := fun hv =>
    within_of_stmt? hp hstmt hm (.inl hv)
  have hassigned : ∀ {v}, v ∈ stmt.assigned? → c.Within s (.var v) := fun hv =>
    within_of_stmt? hp hstmt hm (.inr hv)
  unfold PointsToProblem.readStmt? at h
  split at h
  · rename_i heq
    subst heq
    exact Option.some.inj h ▸ hs.connect (hused (List.mem_singleton_self _)) (hassigned rfl)
  · rename_i heq
    subst heq
    exact Option.some.inj h ▸ hs.connect (hused (List.mem_singleton_self _)) (hassigned rfl)
  · rename_i heq
    subst heq
    split at h
    · exact Option.some.inj h ▸ hs.send (hassigned rfl) _
    · exact Option.some.inj h ▸ hs
  · rename_i heq
    subst heq
    exact Option.some.inj h ▸ hs.connect (within_of_ne (by simp)) (hassigned rfl)
  · rename_i heq
    subst heq
    exact Option.some.inj h ▸
      hs.connect (hused (List.mem_singleton_self _)) (within_of_ne (by simp))
  · rename_i call heq
    subst heq
    split at h
    · split at h
      · exact Option.some.inj h ▸ hs
      · rename_i callee hcallee
        dsimp only at h
        split at h
        · exact Option.some.inj h ▸ hs
        · -- the call is known before its callee is reached, and is connected after that
          obtain ⟨u, hu, hconnected⟩ := Option.bind_eq_some_iff.1 h
          obtain ⟨hcontinues, hconfined⟩ := hreach _ _ _ hu
          have hcalled : u.Called ⟨.static, site, callee⟩ :=
            hcontinues.edges.subset (CallGraph.mem_addOnce.2 (.inl rfl))
          rw [← Option.some.inj hconnected]
          exact (hconfined (hs.addEdge hm)).connectCallee hp hcalled hstmt
    · exact Option.some.inj h ▸ hs
  · exact Option.some.inj h ▸ hs

theorem Confined.reachWithin? (hp : c.program.WellFormed) (hs : c.Confined s) {depth : Nat}
    {m : MethodId} (h : c.reachWithin? depth m s = some t) : c.Confined t := by
  induction depth generalizing m s t with
  | zero => cases h
  | succ depth ih =>
    unfold PointsToProblem.reachWithin? at h
    split at h
    · exact Option.some.inj h ▸ hs
    · have hreach : ∀ n u w, c.reachWithin? depth n u = some w →
          u.Continues w ∧ (c.Confined u → c.Confined w) := fun n u w hw =>
        ⟨PointsToState.composes_continues.reachWithin? hw, fun hu => ih hu hw⟩
      have hreached : ({ s with calls := s.calls.addReachable m } : PointsToState).Reached m :=
        CallGraph.mem_addOnce.2 (.inl rfl)
      -- the method stays reached while its statements are read
      refine (foldlM_invariant (motive := fun t => t.Reached m ∧ c.Confined t)
        ⟨hreached, hs.addReachable m⟩ (fun e he u w hu hw => ?_) h).2
      obtain ⟨rfl, hstmt⟩ := mem_sitesOf.1 he
      have hcontinues := PointsToState.composes_continues.readStmt?
        (fun n u w hw => (hreach n u w hw).1) hw
      exact ⟨hcontinues.reached hu.1, hu.2.readStmt? hp hreach hstmt hu.1 hw⟩

theorem Confined.reach (hp : c.program.WellFormed) (hs : c.Confined s) (m : MethodId) :
    c.Confined (c.reach m s) := by
  unfold PointsToProblem.reach
  cases h : c.reachWithin? (c.program.methods.length + 1) m s with
  | none => exact hs
  | some t => exact hs.reachWithin? hp h

/-- Without flows, objects and calls everything is confined. -/
theorem Blank.confined (hs : Blank s) : c.Confined s := by
  have hpointer : ∀ i x, s.graph.pointer? i ≠ some x := fun i x h => by
    rw [hs.graph_eq] at h
    cases h
  have hflows : ∀ x y, ¬ s.Flows x y := fun x y ⟨i, _, hx, _⟩ => hpointer i x hx
  have hpoints : ∀ x o, ¬ s.Points x o := fun x o ⟨i, hx, _⟩ => hpointer i x hx
  have hawaits : ∀ x, ¬ s.Awaits x := fun x ⟨e, _, hx⟩ => hpointer e.1 x hx
  have hcalled : ∀ e, ¬ s.Called e := fun e he => by
    rw [PointsToState.Called, hs.edges_eq] at he
    cases he
  have hvalid : c.Valid s := hs.valid
  exact {
    wellFormed := hvalid.wellFormed
    site_reached := fun he => absurd he (hcalled _)
    source_within := fun hxy => absurd hxy (hflows _ _)
    target_within := fun hxy => absurd hxy (hflows _ _)
    points_within := fun hx => absurd hx (hpoints _ _)
    awaits_within := fun hz => absurd hz (hawaits _) }

/-- When the analysis has begun everything is confined. -/
theorem confined_begin (hp : c.program.WellFormed) : c.Confined (c.begin c.initial) := by
  unfold begin initial
  cases c.program.entry with
  | none =>
    have hblank : Blank ⟨.empty, .empty, .empty c.order, true⟩ := ⟨rfl, rfl, rfl, rfl⟩
    exact hblank.confined
  | some entry =>
    have hblank : Blank ⟨.empty, CallGraph.empty.addEntry entry, .empty c.order, true⟩ :=
      ⟨rfl, rfl, rfl, rfl⟩
    exact hblank.confined.reach hp entry

/-! ## Arrival -/

/-- An access in a reached method is connected with the memory of an object. -/
theorem Confined.connectAccess (hp : c.program.WellFormed) (hs : c.Confined s) {site : Site}
    (hm : s.Reached site.method) (o : ObjId) : c.Confined (c.connectAccess o s site) := by
  unfold PointsToProblem.connectAccess
  cases hstmt : c.program.stmt? site with
  | none => exact hs
  | some stmt =>
    have hused : ∀ {v}, v ∈ stmt.uses → c.Within s (.var v) := fun hv =>
      within_of_stmt? hp hstmt hm (.inl hv)
    have hassigned : ∀ {v}, v ∈ stmt.assigned? → c.Within s (.var v) := fun hv =>
      within_of_stmt? hp hstmt hm (.inr hv)
    split
    · rename_i base f value heq
      cases heq
      exact hs.connect (hused (by simp [Stmt.uses])) (within_of_ne (by simp))
    · rename_i lhs base f heq
      cases heq
      exact hs.connect (within_of_ne (by simp)) (hassigned rfl)
    · rename_i base index value heq
      cases heq
      exact hs.connect (hused (by simp [Stmt.uses])) (within_of_ne (by simp))
    · rename_i lhs base index heq
      cases heq
      exact hs.connect (within_of_ne (by simp)) (hassigned rfl)
    · exact hs

/-- Accesses that are not in reached methods are passed over. -/
theorem Confined.connectAccesses (hp : c.program.WellFormed) (hs : c.Confined s) (v : VarId)
    (o : ObjId) : c.Confined (c.connectAccesses v o s) := by
  unfold PointsToProblem.connectAccesses
  dsimp only
  refine (List.foldlRecOn (motive := fun t => s.Continues t ∧ c.Confined t) _ _
    ⟨.refl s, hs⟩ ?_).2
  rintro t ⟨hcontinues, ht⟩ site hsite
  have hm := (mem_reachableSites.1 hsite).2
  exact ⟨hcontinues.trans (PointsToState.composes_continues.connectAccess o t site),
    ht.connectAccess hp (hcontinues.reached hm) o⟩

/-- The variable `this` of a method that is called may get an object. -/
theorem Confined.sendSelf (hp : c.program.WellFormed) (hs : c.Confined s) {callee : MethodId}
    (hcallee : s.Touched callee) (o : ObjId) : c.Confined (c.sendSelf o callee s) := by
  unfold PointsToProblem.sendSelf
  cases hself : (c.program.method? callee).bind (·.thisVar) with
  | none => exact hs
  | some self =>
    obtain ⟨method, hmethod, hthis⟩ := Option.bind_eq_some_iff.1 hself
    have howns := hp.owns_of_method? hmethod
      (List.mem_append_right _ (Option.mem_toList.2 hthis))
    exact hs.send (within_var howns hcallee) _

/-- Resolving a call in a reached method keeps the state confined, also before the callee is
reached. -/
theorem Confined.resolveCall (hp : c.program.WellFormed) {found : List MethodId}
    (hs : c.Confined s) {site : Site} (hm : s.Reached site.method) (o : ObjId) :
    c.Confined (c.resolveCall o (s, found) site).1 := by
  cases hcall : (c.program.stmt? site).bind Stmt.call? with
  | none =>
    simp only [PointsToProblem.resolveCall, hcall]
    exact hs
  | some call =>
    obtain ⟨stmt, hstmt, heq⟩ := Option.bind_eq_some_iff.1 hcall
    rw [Stmt.call?_eq_some_iff.1 heq] at hstmt
    cases hcallee : c.program.resolveCallee (c.heap.ty? o) call with
    | none =>
      rw [resolveCall_of_none hstmt hcallee]
      exact hs
    | some callee =>
      rw [resolveCall_of_some hstmt hcallee]
      split
      · rename_i hhas
        have hknown : ⟨call.kind, site, callee⟩ ∈ s.calls.edges := of_decide_eq_true hhas
        exact hs.sendSelf hp (.inr ⟨_, hknown, rfl⟩) o
      · have hadded := hs.addEdge (e := ⟨call.kind, site, callee⟩) hm
        have hnew : ({ s with calls := s.calls.addEdge ⟨call.kind, site, callee⟩ } :
            PointsToState).Called ⟨call.kind, site, callee⟩ := CallGraph.mem_addOnce.2 (.inl rfl)
        have hsent := hadded.sendSelf hp (.inr ⟨_, hnew, rfl⟩) o
        refine hsent.connectCallee hp (e := ⟨call.kind, site, callee⟩) ?_ hstmt
        rwa [PointsToState.Called, calls_sendSelf]

theorem Confined.resolveCalls (hp : c.program.WellFormed) (hs : c.Confined s) (v : VarId)
    (o : ObjId) : c.Confined (c.resolveCalls v o s) := by
  have hresolved : s.Continues ((reachableSites s (c.program.relatedTo v).invokes).foldl
      (c.resolveCall o) (s, [])).1 ∧ c.Confined ((reachableSites s
        (c.program.relatedTo v).invokes).foldl (c.resolveCall o) (s, [])).1 := by
    refine List.foldlRecOn (motive := fun acc : PointsToState × List MethodId =>
        s.Continues acc.1 ∧ c.Confined acc.1) _ _ ⟨.refl s, hs⟩ ?_
    rintro ⟨t, found⟩ ⟨hcontinues, ht⟩ site hsite
    have hm := (mem_reachableSites.1 hsite).2
    exact ⟨hcontinues.trans (PointsToState.composes_continues.resolveCall o (t, found) site),
      ht.resolveCall hp (hcontinues.reached hm) o⟩
  exact List.foldlRecOn _ _ hresolved.2 fun t ht m _ => ht.reach hp m

theorem Confined.arrive (hp : c.program.WellFormed) (hs : c.Confined s) (v : VarId) (o : ObjId) :
    c.Confined (c.arrive v s o) :=
  (hs.connectAccesses hp v o).resolveCalls hp v o

/-! ## Steps -/

/-- A pending entry is taken, and what is new is sent on. -/
theorem Confined.absorb (hs : c.Confined s) {id : PointerId} {objects : IdSet} {rest : Pending}
    (hpop : s.pending.pop? = some ((id, objects), rest)) :
    c.Confined (({ s with pending := rest } : PointsToState).propagate id objects).1 := by
  obtain ⟨⟨x, hx⟩, hrest⟩ := hs.wellFormed.of_pop? hpop
  obtain ⟨y, hy, habsorbs⟩ := PointsToState.absorbs_of_pop? hs.wellFormed hpop
  obtain ⟨hfirst, hleft⟩ := PointsToState.awaits_of_pop? hpop
  have hcontinues :
      s.Continues (({ s with pending := rest } : PointsToState).propagate id objects).1 :=
    PointsToState.composes_continues.trans (PointsToState.composes_continues.take s rest)
      (PointsToState.composes_continues.propagate _ id objects)
  obtain rfl : x = y := by
    rw [hcontinues.graph.pointer?_eq (PointerGraph.lt_of_pointer? hx)] at hy
    exact Option.some.inj (hx.symm.trans hy)
  exact {
    wellFormed := habsorbs.wellFormed
    site_reached := fun {e} he => by
      rw [PointsToState.Called, habsorbs.calls_eq] at he
      exact hcontinues.reached (hs.site_reached he)
    source_within := fun {a b} hab =>
      (hs.source_within ((habsorbs.flows_iff a b).1 hab)).mono hcontinues
    target_within := fun {a b} hab =>
      (hs.target_within ((habsorbs.flows_iff a b).1 hab)).mono hcontinues
    points_within := fun {a o} ha => by
      rcases (habsorbs.points_iff a o).1 ha with hold | ⟨rfl, -⟩
      · exact (hs.points_within hold).mono hcontinues
      · exact (hs.awaits_within (hfirst a hx)).mono hcontinues
    awaits_within := fun {z} hz => by
      rcases PointsToState.awaits_propagate hrest hx hz with hold | hflows
      · exact (hs.awaits_within (hleft z hold)).mono hcontinues
      · exact (hs.target_within hflows).mono hcontinues }

/-- A step leads from a confined state to a confined state. -/
theorem Confined.step (hp : c.program.WellFormed) (hs : c.Confined s)
    (hstarted : s.started = true) (h : c.step s = some t) : c.Confined t := by
  unfold PointsToProblem.step at h
  rw [PointsToProblem.begin, if_pos hstarted] at h
  obtain ⟨⟨⟨id, objects⟩, rest⟩, hpop, h⟩ := Option.bind_eq_some_iff.1 h
  dsimp only at h
  have habsorbed := hs.absorb hpop
  split at h
  · rw [← Option.some.inj h]
    exact List.foldlRecOn _ _ habsorbed fun t ht o _ => ht.arrive hp _ o
  · rw [← Option.some.inj h]
    exact habsorbed

end PointsToProblem

end TacAnalysis
