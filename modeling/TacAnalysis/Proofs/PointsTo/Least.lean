import TacAnalysis.Proofs.PointsTo.Arrive

/-!
# Pointer analysis finds the least solution

Between two steps, what has been found is closed under the rules, up to objects that are on
their way. When nothing is on its way any more it is closed under the rules, and so contains
all that they derive. Nothing else is ever found, so the result is the least solution of the
rules, for every heap model and in whatever order pending entries are handled.

Main statement: `result_iff_derived`.
-/

namespace TacAnalysis.PointsToProblem

variable {c : PointsToProblem} {s t u : PointsToState}

/-- What holds between two steps. -/
structure Closed (c : PointsToProblem) (s : PointsToState) : Prop where
  /-- The state is valid. -/
  valid : c.Valid s
  /-- The analysis has begun. -/
  started_eq : s.started = true
  /-- The entry method is reached. -/
  reached_entry : ∀ {m : MethodId}, c.program.entry = some m → s.Reached m
  /-- Reached methods are read. -/
  read : ∀ {m : MethodId}, s.Reached m → c.ReadAll s m
  /-- Known calls are settled. -/
  settled : ∀ {e : CallEdge}, s.Called e → c.Settled s e
  /-- Objects that have arrived at a variable are handled. -/
  wired : ∀ {v : VarId} {o : ObjId}, s.Points (.var v) o → c.Wired s v o

/-- Between two steps no callee is left behind. -/
theorem Closed.reached_of_touched (hs : c.Closed s) {m : MethodId} (hm : s.Touched m) :
    s.Reached m := by
  rcases hm with hm | ⟨e, he, rfl⟩
  · exact hm
  · exact (hs.settled he).2

/-! ## The beginning -/

/-- Nothing has been found. -/
structure Blank (s : PointsToState) : Prop where
  /-- No pointer has been mentioned. -/
  graph_eq : s.graph = .empty
  /-- No method is reached. -/
  reachable_eq : s.calls.reachable = []
  /-- No call is known. -/
  edges_eq : s.calls.edges = []
  /-- Nothing is on its way. -/
  entries_eq : s.pending.entries = []

theorem Blank.valid (hs : Blank s) : c.Valid s := by
  have hreached : ∀ m, ¬ s.Reached m := fun m hm => by
    rw [PointsToState.Reached, hs.reachable_eq] at hm
    cases hm
  have hcalled : ∀ e, ¬ s.Called e := fun e he => by
    rw [PointsToState.Called, hs.edges_eq] at he
    cases he
  have hpointer : ∀ i x, s.graph.pointer? i ≠ some x := fun i x h => by
    rw [hs.graph_eq] at h
    cases h
  have hflows : ∀ x y, ¬ s.Flows x y := by
    rintro x y ⟨i, j, hx, -, -⟩
    exact hpointer i x hx
  have hpoints : ∀ x o, ¬ s.Points x o := by
    rintro x o ⟨i, hx, -⟩
    exact hpointer i x hx
  have hpends : ∀ x o, ¬ s.Pends x o := by
    rintro x o ⟨e, -, hx, -⟩
    exact hpointer e.1 x hx
  exact {
    wellFormed := ⟨hs.graph_eq ▸ PointerGraph.wellFormed_empty, by rw [hs.entries_eq]; simp⟩
    derives_reached := fun hm => absurd hm (hreached _)
    derives_called := fun he => absurd he (hcalled _)
    derives_flows := fun hxy => absurd hxy (hflows _ _)
    derives_has := fun hx => hx.elim (fun h => absurd h (hpoints _ _)) fun h => absurd h (hpends _ _)
    carried := fun hxy => absurd hxy (hflows _ _)
    open_of_flows := fun hxy => absurd hxy (hflows _ _)
    open_of_pends := fun hx => absurd hx (hpends _ _) }

/-- A state that has grown from a blank one by reaching the entry method is closed. -/
theorem Blank.closed (hs : Blank s) (h : c.Expands s t) (hstarted : t.started = true)
    (hentry : ∀ {m}, c.program.entry = some m → t.Reached m) : c.Closed t where
  valid := h.valid
  started_eq := hstarted
  reached_entry := hentry
  read hm := (h.read hm).resolve_left fun hold => by
    rw [PointsToState.Reached, hs.reachable_eq] at hold
    cases hold
  settled he := (h.settled he).resolve_left fun hold => by
    rw [PointsToState.Called, hs.edges_eq] at hold
    cases hold
  wired hpoints := by
    obtain ⟨i, hi, -⟩ := h.points_iff.1 hpoints
    rw [hs.graph_eq] at hi
    cases hi

/-- When the analysis has begun everything is closed. -/
theorem closed_begin (hp : c.program.WellFormed) : c.Closed (c.begin c.initial) := by
  unfold begin initial
  cases hentry : c.program.entry with
  | none =>
    have hblank : Blank ⟨.empty, .empty, .empty c.order, true⟩ := ⟨rfl, rfl, rfl, rfl⟩
    exact hblank.closed (.refl hblank.valid) rfl fun h => by rw [hentry] at h; cases h
  | some entry =>
    have hblank : Blank ⟨.empty, CallGraph.empty.addEntry entry, .empty c.order, true⟩ :=
      ⟨rfl, rfl, rfl, rfl⟩
    obtain ⟨hexpands, hreached⟩ := expands_reach hp hblank.valid (.entry hentry)
    refine hblank.closed hexpands hexpands.started_eq fun h => ?_
    cases hentry.symm.trans h
    exact hreached

/-- The analysis begins only once. -/
theorem Closed.begin_eq (hs : c.Closed s) : c.begin s = s := by
  rw [begin, if_pos hs.started_eq]

/-! ## Steps -/

variable {x : Pointer} {arrived : ObjId → Prop} {new : IdSet}

/-- Handling a pending entry keeps a state valid. -/
theorem Valid.absorb (hs : c.Valid s) (h : s.Absorbs t x arrived new) : c.Valid t where
  wellFormed := h.wellFormed
  derives_reached hm := hs.derives_reached (by rwa [PointsToState.Reached, h.calls_eq] at hm)
  derives_called he := hs.derives_called (by rwa [PointsToState.Called, h.calls_eq] at he)
  derives_flows hxy := hs.derives_flows ((h.flows_iff _ _).1 hxy)
  derives_has hx := by
    have harrived : ∀ {o}, arrived o → c.Derives (.holds x o) := fun ho =>
      hs.derives_has (.inr (h.pends_of_arrived _ ho))
    rcases hx with hx | hx
    · rcases (h.points_iff _ _).1 hx with hx | ⟨rfl, ho⟩
      · exact hs.derives_has (.inl hx)
      · exact harrived ho
    · rcases h.pends_of_pends _ _ hx with hx | ⟨hflows, ho⟩
      · exact hs.derives_has (.inr hx)
      · exact .flow (hs.derives_flows hflows) (harrived ((h.mem_new_iff _).1 ho).1)
  carried {y z o} hflows hpoints := by
    have hold := (h.flows_iff _ _).1 hflows
    by_cases hy : s.Points y o
    · exact h.has_of_has _ _ (hs.carried hold hy)
    · rcases (h.points_iff _ _).1 hpoints with hy' | ⟨rfl, ho⟩
      · exact absurd hy' hy
      · exact .inr (h.pends_of_new _ _ hold ((h.mem_new_iff o).2 ⟨ho, hy⟩))
  open_of_flows hxy := (hs.open_of_flows ((h.flows_iff _ _).1 hxy)).mono h.grows
  open_of_pends hx := by
    rcases h.pends_of_pends _ _ hx with hx | ⟨hflows, -⟩
    · exact (hs.open_of_pends hx).mono h.grows
    · exact (hs.open_of_flows hflows).mono h.grows

/-- A state is closed again when new objects that have arrived at a variable are handled. -/
theorem Closed.expand (hs : c.Closed s) (h : s.Absorbs t x arrived new) (hexpands : c.Expands t u)
    (hwired : ∀ v, x = .var v → ∀ o ∈ new, c.Wired u v o) : c.Closed u where
  valid := hexpands.valid
  started_eq := hexpands.started_eq.trans (h.started_eq.trans hs.started_eq)
  reached_entry hm := hexpands.grows.reached (h.grows.reached (hs.reached_entry hm))
  read hm := by
    rcases hexpands.read hm with hm | hm
    · rw [PointsToState.Reached, h.calls_eq] at hm
      exact (hs.read hm).mono (h.grows.trans hexpands.grows)
    · exact hm
  settled he := by
    rcases hexpands.settled he with he | he
    · rw [PointsToState.Called, h.calls_eq] at he
      exact (hs.settled he).mono (h.grows.trans hexpands.grows)
    · exact he
  wired {v o} hpoints := by
    by_cases hold : s.Points (.var v) o
    · exact (hs.wired hold).mono (h.grows.trans hexpands.grows)
    · rcases (h.points_iff _ _).1 (hexpands.points_iff.1 hpoints) with hpoints | ⟨rfl, ho⟩
      · exact absurd hpoints hold
      · exact hwired v rfl o ((h.mem_new_iff o).2 ⟨ho, hold⟩)

/-- New objects that have arrived at a variable are handled one after the other. -/
theorem expands_foldl_arrive (hp : c.program.WellFormed) (hs : c.Valid s) {v : VarId}
    {objects : List ObjId} (hobjects : ∀ o ∈ objects, c.Derives (.holds (.var v) o) ∧
      ∀ m, c.program.Owns m v → s.Reached m) :
    c.Expands s (objects.foldl (c.arrive v) s) ∧
      ∀ o ∈ objects, c.Wired (objects.foldl (c.arrive v) s) v o := by
  refine foldl_related (R := c.Expands) (c.arrive v) (fun o t => c.Wired t v o)
    (fun h => .refl h.valid) .trans (.refl hs) (fun h hdone => hdone.mono h.grows) fun o ho t ht => ?_
  obtain ⟨hholds, howner⟩ := hobjects o ho
  exact expands_arrive hp ht.valid hholds fun m hm => ht.grows.reached (howner m hm)

/-- The objects of the next pending entry arrive at a place. If it is a variable, its method is
reachable, for otherwise nothing would be on its way there. -/
theorem Closed.exists_absorbs (hs : c.Closed s) {id : PointerId} {objects : IdSet} {rest : Pending}
    (hpop : s.pending.pop? = some ((id, objects), rest)) :
    ∃ x u new, ({ s with pending := rest } : PointsToState).propagate id objects = (u, new) ∧
      u.graph.pointer? id = some x ∧ s.Absorbs u x (· ∈ objects) new ∧ c.Valid u ∧
      ∀ v, x = .var v → ∀ o ∈ new.toList, c.Derives (.holds (.var v) o) ∧
        ∀ m, c.program.Owns m v → u.Reached m := by
  obtain ⟨x, hx, habsorbs⟩ := PointsToState.absorbs_of_pop? hs.valid.wellFormed hpop
  refine ⟨x, _, _, rfl, hx, habsorbs, hs.valid.absorb habsorbs, ?_⟩
  rintro v rfl o ho
  have hpends := habsorbs.pends_of_arrived o ((habsorbs.mem_new_iff o).1 ho).1
  refine ⟨hs.valid.derives_has (.inr hpends), fun m hm => habsorbs.grows.reached ?_⟩
  exact hs.reached_of_touched (hs.valid.open_of_pends hpends v m rfl hm)

/-- In a step objects arrive, and new ones at a variable are handled. If none is new, an entry
less is pending. -/
theorem Closed.exists_expands (hp : c.program.WellFormed) (hs : c.Closed s)
    (h : c.step s = some t) :
    ∃ x arrived new u, s.Absorbs u x arrived new ∧ c.Expands u t ∧
      (∀ v, x = .var v → ∀ o ∈ new, c.Wired t v o) ∧
      ((∀ o, o ∉ new) → t.pending.entries.length + 1 = s.pending.entries.length) := by
  unfold PointsToProblem.step at h
  rw [hs.begin_eq] at h
  obtain ⟨⟨⟨id, objects⟩, rest⟩, hpop, h⟩ := Option.bind_eq_some_iff.1 h
  obtain ⟨x, u, new, hpropagate, hx, habsorbs, hvalid, hnew⟩ := hs.exists_absorbs hpop
  have hshorter : (∀ o, o ∉ new) → u.pending.entries.length + 1 = s.pending.entries.length :=
    fun hnone => PointsToState.length_of_propagate hpop hpropagate (SortedSet.isEmpty_iff.2 hnone)
  simp only [hpropagate, hx] at h
  cases x with
  | var v =>
    obtain ⟨hexpands, hwired⟩ := expands_foldl_arrive hp hvalid (hnew v rfl)
    obtain rfl := Option.some.inj h
    refine ⟨.var v, _, new, u, habsorbs, hexpands, fun w hw o ho => ?_, fun hnone => ?_⟩
    · cases hw
      exact hwired o ho
    · have hnil : new.toList = [] := List.eq_nil_iff_forall_not_mem.2 hnone
      rw [hnil]
      exact hshorter hnone
  | staticField | instanceField | arrayIndex =>
    obtain rfl := Option.some.inj h
    exact ⟨_, _, new, u, habsorbs, .refl hvalid, fun w hw => (by cases hw), hshorter⟩

/-- A step leads from a closed state to a closed state. -/
theorem Closed.step (hp : c.program.WellFormed) (hs : c.Closed s) (h : c.step s = some t) :
    c.Closed t := by
  obtain ⟨x, arrived, new, u, habsorbs, hexpands, hwired, -⟩ := hs.exists_expands hp h
  exact hs.expand habsorbs hexpands hwired

/-- Every state of a run that has begun is closed. -/
theorem closed_stateAfter (hp : c.program.WellFormed) (k : Nat) :
    c.Closed (stateAfter c.step k (c.begin c.initial)) :=
  stateAfter_invariant (closed_begin hp) (fun _ _ hs h => hs.step hp h) k

/-! ## The end -/

/-- When nothing is on its way, all that the rules derive has been found. -/
theorem Closed.found (hs : c.Closed s) (hended : s.pending.entries = []) {fact : PointsToFact}
    (h : c.Derives fact) : s.Found fact := by
  have hpoints : ∀ {x o}, s.Has x o → s.Points x o := fun hx =>
    hx.resolve_right fun ⟨e, he, _⟩ => by
      rw [hended] at he
      cases he
  induction h with
  | entry hentry => exact hs.reached_entry hentry
  | link _ hstmt hlink reached => exact (hs.read reached _ _ rfl hstmt).link hlink
  | alloc _ hstmt hobj reached => exact hpoints ((hs.read reached _ _ rfl hstmt).alloc rfl hobj)
  | staticCall _ hstmt hkind hcallee reached =>
    exact (hs.read reached _ _ rfl hstmt).call rfl hkind hcallee
  | linkThrough _ hstmt hlink holds => exact (hs.wired holds).link _ _ _ _ hstmt hlink
  | instanceCall _ hstmt hreceiver hcallee holds =>
    exact ((hs.wired holds).resolved _ _ hstmt hreceiver _ _ hstmt hcallee).1
  | self _ hstmt hreceiver hcallee hmethod hself holds =>
    exact hpoints (((hs.wired holds).resolved _ _ hstmt hreceiver _ _ hstmt hcallee).2 _ _ hmethod hself)
  | callee _ called => exact (hs.settled called).2
  | pass _ hstmt hmethod hpass called => exact (hs.settled called).1 _ _ _ _ hstmt hmethod hpass
  | flow _ _ flows holds => exact hpoints (hs.valid.carried flows holds)

/-- Nothing is found that the rules do not derive. -/
theorem Valid.derives_of_found (hs : c.Valid s) {fact : PointsToFact} (h : s.Found fact) :
    c.Derives fact := by
  cases fact with
  | reached m => exact hs.derives_reached h
  | called e => exact hs.derives_called h
  | flows x y => exact hs.derives_flows h
  | holds x o => exact hs.derives_has (.inl h)

/-- Steps end when nothing is on its way. -/
theorem entries_eq_nil_of_step (hs : c.Closed s) (h : c.step s = none) : s.pending.entries = [] := by
  unfold PointsToProblem.step at h
  rw [hs.begin_eq] at h
  cases hpop : s.pending.pop? with
  | none => exact WorklistOrder.take?_eq_none_iff.1 (Option.map_eq_none_iff.1 hpop)
  | some e =>
    obtain ⟨⟨id, objects⟩, rest⟩ := e
    have hsome := Option.bind_eq_none_iff.1 h _ hpop
    dsimp only at hsome
    split at hsome <;> cases hsome

/-- A run ends in a closed state in which nothing is on its way. -/
theorem closed_of_run? (hp : c.program.WellFormed) {budget : Nat} (h : c.run? budget = some s) :
    c.Closed s ∧ s.pending.entries = [] := by
  obtain ⟨rfl, hended⟩ := iterate?_eq_some_iff.1 h
  have hclosed := closed_stateAfter hp budget
  exact ⟨hclosed, entries_eq_nil_of_step hclosed hended⟩

/-- For every accepted program, heap model and order of pending entries, the reached methods,
calls, flows and objects in a result are exactly those that the rules derive. -/
theorem result_iff_derived (hp : c.program.Accepted) {budget : Nat} (h : c.run? budget = some s) :
    (∀ m, (c.result s).calls.contains m = true ↔ Derived c.program c.heap (.reached m)) ∧
      (∀ e, (c.result s).calls.hasEdge e = true ↔ Derived c.program c.heap (.called e)) ∧
      (∀ x y, (c.result s).graph.Flows x y ↔ Derived c.program c.heap (.flows x y)) ∧
      ∀ x o, o ∈ ((c.result s).pointsTo? x).getD ∅ ↔ Derived c.program c.heap (.holds x o) := by
  obtain ⟨hclosed, hended⟩ := closed_of_run? hp.wellFormed h
  have hfound : ∀ fact, s.Found fact ↔ c.Derives fact := fun fact =>
    ⟨hclosed.valid.derives_of_found, hclosed.found hended⟩
  refine ⟨fun m => ?_, fun e => ?_, fun x y => hfound (.flows x y), fun x o => ?_⟩
  · exact decide_eq_true_iff.trans (hfound (.reached m))
  · exact decide_eq_true_iff.trans (hfound (.called e))
  · exact hclosed.valid.wellFormed.graph.points_iff_pointsTo?.symm.trans (hfound (.holds x o))

/-! ## A call that returns its argument -/

/-- A method allocates `v2` and `v3` and assigns `v4` what a call on `v2` makes of `v3`. -/
def returningCommands : List Command := [
  .addClass "A" none [], .addMethod 0 "void main()" true, .addMethod 0 "A id(A)" false,
  .addParam 1 "x" (.object 0),
  .addVar 0 "a" (.object 0), .addVar 0 "b" (.object 0), .addVar 0 "r" (.object 0),
  .pushStmts 0 [
    .assign 2 (.new (.object 0)),
    .assign 3 (.new (.object 0)),
    .invoke ⟨.virtual, ⟨0, "A id(A)"⟩, some 2, [3], some 4⟩,
    .ret none],
  .pushStmts 1 [.ret (some 1)],
  .setEntry 0]

/-- The program of these declarations. -/
def returning : Program := (Program.ofCommands? returningCommands).get (by decide +kernel)

theorem accepted_returning : returning.Accepted :=
  Program.accepted_of_ofCommands? (Option.some_get _).symm

/-- The analysis of the program with one object for each allocation. -/
def ofReturning (order : WorklistOrder) : PointsToProblem := ⟨returning, .bySite returning, order⟩

/-- In either order the object that is passed is found at `v4`, and the other one is not, so
this is what the rules say. -/
theorem returning_derives_argument :
    returning.Accepted ∧ ∀ order, ∃ s, (ofReturning order).run? 20 = some s ∧
      Derived returning (.bySite returning) (.holds (.var 4) 1) ∧
        ¬ Derived returning (.bySite returning) (.holds (.var 4) 0) := by
  refine ⟨accepted_returning, fun order => ?_⟩
  have hrun : ((ofReturning order).run? 20).map (fun s =>
      (((ofReturning order).result s).pointsTo? (.var 4)).getD ∅) = some (.singleton 1) := by
    cases order <;> decide +kernel
  obtain ⟨s, hs, hobjects⟩ := Option.map_eq_some_iff.1 hrun
  obtain ⟨-, -, -, hholds⟩ := result_iff_derived (c := ofReturning order) accepted_returning hs
  refine ⟨s, hs, (hholds (.var 4) 1).1 ?_, fun h => ?_⟩
  · rw [hobjects]
    decide
  · have hmem := (hholds (.var 4) 0).2 h
    rw [hobjects] at hmem
    revert hmem
    decide

end TacAnalysis.PointsToProblem
