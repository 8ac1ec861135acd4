import TacAnalysis.Proofs.PointsTo.Rules
import TacAnalysis.Proofs.PointsTo.State
import TacAnalysis.Proofs.Program.Accepted

/-!
# The invariant of pointer analysis

In every state of an analysis, also in the middle of a step, what has been found is derived
by the rules, an object at the source of an edge has arrived at its target or is on its way
there, and objects flow only to variables of methods that are reached or called.

States grow: nothing that has been found is ever lost. So what the rules ask for, a flow, a
call or an object on its way, need only be brought about once.

Main statements: `Extends.connect` and `Extends.send`.
-/

namespace TacAnalysis

section Folds

variable {α σ : Type} {xs : List α} {s : σ} {R : σ → σ → Prop}

/-- Elements of a list are handled one after the other. Each step succeeds, leads on along a
relation, and gets something done that the relation keeps. -/
theorem exists_foldlM_eq_some (f : σ → α → Option σ) (done : α → σ → Prop)
    (hrefl : ∀ {t}, R s t → R t t) (htrans : ∀ {t u w}, R t u → R u w → R t w) (hs : R s s)
    (hmono : ∀ {a t u}, R t u → done a t → done a u)
    (hstep : ∀ a ∈ xs, ∀ t, R s t → ∃ u, f t a = some u ∧ R t u ∧ done a u) :
    ∃ u, xs.foldlM f s = some u ∧ R s u ∧ ∀ a ∈ xs, done a u := by
  suffices h : ∀ t, R s t → ∃ u, xs.foldlM f t = some u ∧ R t u ∧ ∀ a ∈ xs, done a u from h s hs
  induction xs with
  | nil => exact fun t ht => ⟨t, rfl, hrefl ht, by simp⟩
  | cons a xs ih =>
    intro t ht
    obtain ⟨u, hu, hfirst, hdone⟩ := hstep a List.mem_cons_self t ht
    obtain ⟨w, hw, hrest, hothers⟩ :=
      ih (fun b hb => hstep b (List.mem_cons_of_mem a hb)) u (htrans ht hfirst)
    refine ⟨w, by rw [List.foldlM_cons, hu]; exact hw, htrans hfirst hrest, fun b hb => ?_⟩
    rcases List.mem_cons.1 hb with rfl | hb
    · exact hmono hrest hdone
    · exact hothers b hb

/-- The same for steps that cannot fail. -/
theorem foldl_related (f : σ → α → σ) (done : α → σ → Prop) (hrefl : ∀ {t}, R s t → R t t)
    (htrans : ∀ {t u w}, R t u → R u w → R t w) (hs : R s s)
    (hmono : ∀ {a t u}, R t u → done a t → done a u)
    (hstep : ∀ a ∈ xs, ∀ t, R s t → R t (f t a) ∧ done a (f t a)) :
    R s (xs.foldl f s) ∧ ∀ a ∈ xs, done a (xs.foldl f s) := by
  obtain ⟨u, hu, hresult⟩ := exists_foldlM_eq_some (fun t a => some (f t a)) done hrefl htrans hs
    hmono fun a ha t ht => ⟨f t a, rfl, hstep a ha t ht⟩
  obtain rfl : xs.foldl f s = u := by
    have hfold : xs.foldlM (fun t a => some (f t a)) s = some (xs.foldl f s) := List.foldlM_pure
    exact Option.some.inj (hfold.symm.trans hu)
  exact hresult

end Folds

namespace PointsToState

/-- The method is reached. -/
def Reached (s : PointsToState) (m : MethodId) : Prop := m ∈ s.calls.reachable

/-- The call is known. -/
def Called (s : PointsToState) (e : CallEdge) : Prop := e ∈ s.calls.edges

/-- The method is reached, or will be because a call of it is known. -/
def Touched (s : PointsToState) (m : MethodId) : Prop := s.Reached m ∨ ∃ e, s.Called e ∧ e.callee = m

/-- What has been found in a state. -/
def Found (s : PointsToState) : PointsToFact → Prop
  | .reached m => s.Reached m
  | .called e => s.Called e
  | .flows x y => s.Flows x y
  | .holds x o => s.Points x o

/-- All that has been found in one state has been found in another one. -/
structure Grows (s t : PointsToState) : Prop where
  /-- Reached methods stay reached. -/
  reached : ∀ {m : MethodId}, s.Reached m → t.Reached m
  /-- Calls stay known. -/
  called : ∀ {e : CallEdge}, s.Called e → t.Called e
  /-- Flows stay. -/
  flows : ∀ {x y : Pointer}, s.Flows x y → t.Flows x y
  /-- No object gets lost. -/
  has : ∀ {x : Pointer} {o : ObjId}, s.Has x o → t.Has x o

variable {s t u : PointsToState}

theorem Grows.refl (s : PointsToState) : s.Grows s := ⟨id, id, id, id⟩

theorem Grows.trans (h : s.Grows t) (h' : t.Grows u) : s.Grows u where
  reached hm := h'.reached (h.reached hm)
  called he := h'.called (h.called he)
  flows hxy := h'.flows (h.flows hxy)
  has hx := h'.has (h.has hx)

theorem Grows.touched (h : s.Grows t) {m : MethodId} (hm : s.Touched m) : t.Touched m :=
  hm.imp h.reached fun ⟨e, he, hcallee⟩ => ⟨e, h.called he, hcallee⟩

theorem Adds.has_iff {flows : Pointer → Pointer → Prop} {pends : Pointer → ObjId → Prop}
    (h : s.Adds t flows pends) {x : Pointer} {o : ObjId} : t.Has x o ↔ s.Has x o ∨ pends x o := by
  rw [Has, Has, h.points_iff, h.pends_iff, or_assoc]

theorem Adds.grows {flows : Pointer → Pointer → Prop} {pends : Pointer → ObjId → Prop}
    (h : s.Adds t flows pends) : s.Grows t where
  reached hm := by rwa [Reached, h.calls_eq]
  called he := by rwa [Called, h.calls_eq]
  flows hxy := (h.flows_iff _ _).2 (.inl hxy)
  has hx := h.has_iff.2 (.inl hx)

theorem Absorbs.grows {x : Pointer} {arrived : ObjId → Prop} {new : IdSet}
    (h : s.Absorbs t x arrived new) : s.Grows t where
  reached hm := by rwa [Reached, h.calls_eq]
  called he := by rwa [Called, h.calls_eq]
  flows hxy := (h.flows_iff _ _).2 hxy
  has hx := h.has_of_has _ _ hx

end PointsToState

namespace PointsToProblem

variable (c : PointsToProblem)

/-- The rules derive the fact for the program and the heap model of the problem. -/
abbrev Derives (fact : PointsToFact) : Prop := Derived c.program c.heap fact

/-- Objects may flow to the place: if it is a variable, its method is reached or called. -/
def Open (s : PointsToState) (x : Pointer) : Prop :=
  ∀ v m, x = .var v → c.program.Owns m v → s.Touched m

/-- What holds in every state of the analysis. -/
structure Valid (s : PointsToState) : Prop where
  /-- The parts of the state fit together. -/
  wellFormed : s.WellFormed
  /-- Reached methods are derived. -/
  derives_reached : ∀ {m : MethodId}, s.Reached m → c.Derives (.reached m)
  /-- Known calls are derived. -/
  derives_called : ∀ {e : CallEdge}, s.Called e → c.Derives (.called e)
  /-- Flows are derived. -/
  derives_flows : ∀ {x y : Pointer}, s.Flows x y → c.Derives (.flows x y)
  /-- What a place has or is sent is derived. -/
  derives_has : ∀ {x : Pointer} {o : ObjId}, s.Has x o → c.Derives (.holds x o)
  /-- Objects have been sent along every edge. -/
  carried : ∀ {x y : Pointer} {o : ObjId}, s.Flows x y → s.Points x o → s.Has y o
  /-- Edges lead to open places. -/
  open_of_flows : ∀ {x y : Pointer}, s.Flows x y → c.Open s y
  /-- Objects are on their way to open places. -/
  open_of_pends : ∀ {x : Pointer} {o : ObjId}, s.Pends x o → c.Open s x

variable {c} {s t u : PointsToState} {x y : Pointer} {o : ObjId}

theorem Open.mono (h : c.Open s x) (hgrows : s.Grows t) : c.Open t x :=
  fun v m hx howns => hgrows.touched (h v m hx howns)

/-- A variable of a method that is reached or called is open. -/
theorem open_var {m : MethodId} {v : VarId} (howns : c.program.Owns m v) (hm : s.Touched m) :
    c.Open s (.var v) := by
  intro w n heq hw
  cases heq
  rwa [hw.unique howns]

/-- Places that are no variables are open. -/
theorem open_of_ne (h : ∀ v, x ≠ .var v) : c.Open s x := fun v _ hx _ => absurd hx (h v)

/-- Additions that are derived and go to open places keep a state valid. -/
theorem Valid.adds {flows : Pointer → Pointer → Prop} {pends : Pointer → ObjId → Prop}
    (hs : c.Valid s) (h : s.Adds t flows pends)
    (hflows : ∀ x y, flows x y → c.Derives (.flows x y) ∧ c.Open s y)
    (hpends : ∀ x o, pends x o → c.Derives (.holds x o) ∧ c.Open s x)
    (hcarried : ∀ x y o, flows x y → s.Points x o → t.Has y o) : c.Valid t where
  wellFormed := h.wellFormed
  derives_reached hm := hs.derives_reached (by rwa [PointsToState.Reached, h.calls_eq] at hm)
  derives_called he := hs.derives_called (by rwa [PointsToState.Called, h.calls_eq] at he)
  derives_flows hxy := ((h.flows_iff _ _).1 hxy).elim hs.derives_flows fun hxy => (hflows _ _ hxy).1
  derives_has hx := (h.has_iff.1 hx).elim hs.derives_has fun hx => (hpends _ _ hx).1
  carried hxy ho := by
    rw [h.points_iff] at ho
    rcases (h.flows_iff _ _).1 hxy with hxy | hxy
    · exact h.grows.has (hs.carried hxy ho)
    · exact hcarried _ _ _ hxy ho
  open_of_flows hxy := by
    rcases (h.flows_iff _ _).1 hxy with hxy | hxy
    · exact (hs.open_of_flows hxy).mono h.grows
    · exact (hflows _ _ hxy).2.mono h.grows
  open_of_pends hx := by
    rcases (h.pends_iff _ _).1 hx with hx | hx
    · exact (hs.open_of_pends hx).mono h.grows
    · exact (hpends _ _ hx).2.mono h.grows

/-! ## Extending a state -/

/-- A valid state that has grown, with the same call graph and no object more at any place. -/
structure Extends (c : PointsToProblem) (s t : PointsToState) : Prop where
  /-- The new state is valid. -/
  valid : c.Valid t
  /-- Nothing is lost. -/
  grows : s.Grows t
  /-- The call graph stays as it is. -/
  calls_eq : t.calls = s.calls
  /-- The analysis has begun or not as before. -/
  started_eq : t.started = s.started
  /-- No object has arrived. -/
  points_iff : ∀ {x : Pointer} {o : ObjId}, t.Points x o ↔ s.Points x o

theorem Extends.refl (hs : c.Valid s) : c.Extends s s := ⟨hs, .refl s, rfl, rfl, Iff.rfl⟩

theorem Extends.trans (h : c.Extends s t) (h' : c.Extends t u) : c.Extends s u where
  valid := h'.valid
  grows := h.grows.trans h'.grows
  calls_eq := h'.calls_eq.trans h.calls_eq
  started_eq := h'.started_eq.trans h.started_eq
  points_iff := h'.points_iff.trans h.points_iff

/-- A derived edge is added that leads to an open place. -/
theorem Extends.connect (hs : c.Valid s) (hflow : c.Derives (.flows x y)) (hy : c.Open s y) :
    c.Extends s (s.connect x y) ∧ (s.connect x y).Flows x y := by
  have hadds := PointsToState.adds_connect hs.wellFormed x y
  refine ⟨⟨?_, hadds.grows, hadds.calls_eq, hadds.started_eq, hadds.points_iff _ _⟩,
    (hadds.flows_iff x y).2 (.inr ⟨rfl, rfl⟩)⟩
  refine hs.adds hadds ?_ ?_ ?_
  · rintro a b ⟨rfl, rfl⟩
    exact ⟨hflow, hy⟩
  · rintro b o ⟨rfl, -, ho⟩
    exact ⟨.flow hflow (hs.derives_has (.inl ho)), hy⟩
  · rintro a b o ⟨rfl, rfl⟩ ho
    by_cases hold : s.Flows a b
    · exact hadds.grows.has (hs.carried hold ho)
    · exact hadds.has_iff.2 (.inr ⟨rfl, hold, ho⟩)

/-- A derived object is sent to an open place. -/
theorem Extends.send (hs : c.Valid s) (hholds : c.Derives (.holds x o)) (hx : c.Open s x) :
    c.Extends s (s.send x (.singleton o)) ∧ (s.send x (.singleton o)).Has x o := by
  have hadds := PointsToState.adds_send hs.wellFormed x (.singleton o)
  refine ⟨⟨?_, hadds.grows, hadds.calls_eq, hadds.started_eq, hadds.points_iff _ _⟩,
    hadds.has_iff.2 (.inr ⟨rfl, SortedSet.mem_singleton.2 rfl⟩)⟩
  refine hs.adds hadds (fun _ _ h => h.elim) ?_ (fun _ _ _ h => h.elim)
  rintro y o' ⟨rfl, ho⟩
  rw [SortedSet.mem_singleton.1 ho]
  exact ⟨hholds, hx⟩

/-- Edges are added one after the other. -/
theorem extends_connectAll {α : Type} (xs : List α) (source target : α → Pointer) (hs : c.Valid s)
    (hflow : ∀ a ∈ xs, c.Derives (.flows (source a) (target a)))
    (hopen : ∀ a ∈ xs, c.Open s (target a)) :
    c.Extends s (xs.foldl (fun s a => s.connect (source a) (target a)) s) ∧
      ∀ a ∈ xs, (xs.foldl (fun s a => s.connect (source a) (target a)) s).Flows (source a)
        (target a) := by
  refine foldl_related (R := c.Extends) (fun s a => s.connect (source a) (target a))
    (fun a t => t.Flows (source a) (target a)) (fun ht => .refl ht.valid) .trans (.refl hs)
    (fun ht h => ht.grows.flows h) fun a ha t ht => ?_
  exact Extends.connect ht.valid (hflow a ha) ((hopen a ha).mono ht.grows)

end PointsToProblem

end TacAnalysis
