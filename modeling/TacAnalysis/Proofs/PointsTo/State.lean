import TacAnalysis.PointsTo.Solver
import TacAnalysis.Proofs.PointsTo.Graph
import TacAnalysis.Proofs.Worklist

/-!
# What changes in a pointer analysis

A state says which objects flow where, which objects a pointer has, and which are on their
way to it. Sending objects and adding edges only add to this. Taking a pending entry moves
objects from their way to their pointer, and sends the new ones on along its edges.

Main statements: `adds_send`, `adds_connect` and `absorbs_of_pop?`.
-/

namespace TacAnalysis.PointsToState

variable {s t u : PointsToState} {x y z : Pointer} {o : ObjId}

/-- The graph is well formed, and pending entries are for its pointers. -/
structure WellFormed (s : PointsToState) : Prop where
  /-- The graph is well formed. -/
  graph : s.graph.WellFormed
  /-- Pending entries are for pointers of the graph. -/
  pending_lt : ∀ e ∈ s.pending.entries, e.1 < s.graph.nodes.length

/-- Objects flow from one pointer to another. -/
abbrev Flows (s : PointsToState) (x y : Pointer) : Prop := s.graph.Flows x y

/-- The object has arrived at the pointer. -/
abbrev Points (s : PointsToState) (x : Pointer) (o : ObjId) : Prop := s.graph.Points x o

/-- The object is on its way to the pointer. -/
def Pends (s : PointsToState) (x : Pointer) (o : ObjId) : Prop :=
  ∃ e ∈ s.pending.entries, s.graph.pointer? e.1 = some x ∧ o ∈ e.2

/-- The object has arrived at the pointer or is on its way there. -/
def Has (s : PointsToState) (x : Pointer) (o : ObjId) : Prop := s.Points x o ∨ s.Pends x o

/-- One state says what another one does, and in addition some flows and some objects on
their way. -/
structure Adds (s t : PointsToState) (flows : Pointer → Pointer → Prop)
    (pends : Pointer → ObjId → Prop) : Prop where
  /-- The new state is well formed. -/
  wellFormed : t.WellFormed
  /-- The call graph stays as it is. -/
  calls_eq : t.calls = s.calls
  /-- The analysis has begun or not as before. -/
  started_eq : t.started = s.started
  /-- Some flows are added. -/
  flows_iff : ∀ x y, t.Flows x y ↔ s.Flows x y ∨ flows x y
  /-- No object has arrived. -/
  points_iff : ∀ x o, t.Points x o ↔ s.Points x o
  /-- Some objects have been sent. -/
  pends_iff : ∀ x o, t.Pends x o ↔ s.Pends x o ∨ pends x o

theorem adds_refl (hs : s.WellFormed) : s.Adds s (fun _ _ => False) (fun _ _ => False) where
  wellFormed := hs
  calls_eq := rfl
  started_eq := rfl
  flows_iff _ _ := by simp
  points_iff _ _ := Iff.rfl
  pends_iff _ _ := by simp

/-- Giving numbers to pointers does not change what a state says. -/
theorem adds_of_interns (hs : s.WellFormed) {g : PointerGraph} {i : PointerId}
    (hg : s.graph.Interns g x i) :
    s.Adds { s with graph := g } (fun _ _ => False) (fun _ _ => False) where
  wellFormed := ⟨hg.wellFormed, fun e he => Nat.lt_of_lt_of_le (hs.pending_lt e he) hg.length_le⟩
  calls_eq := rfl
  started_eq := rfl
  flows_iff _ _ := by simp [hg.flows_iff]
  points_iff _ _ := hg.points_iff
  pends_iff y o := by
    rw [or_false]
    refine exists_congr fun e => and_congr_right fun he => ?_
    rw [hg.pointer?_old (hs.pending_lt e he)]

/-- An entry is added to the pending ones. -/
theorem adds_pending (hs : s.WellFormed) {i : PointerId} (hi : s.graph.pointer? i = some x)
    (objects : IdSet) :
    s.Adds { s with pending := s.pending.add i objects } (fun _ _ => False)
      (fun y o => y = x ∧ o ∈ objects) where
  wellFormed := by
    refine ⟨hs.graph, fun e he => ?_⟩
    rcases List.mem_append.1 he with he | he
    · exact hs.pending_lt e he
    · rw [List.mem_singleton.1 he]
      exact PointerGraph.lt_of_pointer? hi
  calls_eq := rfl
  started_eq := rfl
  flows_iff _ _ := by simp
  points_iff _ _ := Iff.rfl
  pends_iff y o := by
    unfold Pends Pending.add
    simp only [List.mem_append, List.mem_singleton, or_and_right, exists_or, exists_eq_left, hi,
      Option.some.injEq]
    rw [eq_comm]

/-- An edge is added between two pointers. -/
theorem adds_addEdge (hs : s.WellFormed) {i j : PointerId} (hi : s.graph.pointer? i = some x)
    (hj : s.graph.pointer? j = some y) :
    s.Adds { s with graph := s.graph.addEdge i j } (fun a b => a = x ∧ b = y)
      (fun _ _ => False) where
  wellFormed := by
    refine ⟨hs.graph.addEdge (PointerGraph.lt_of_pointer? hi) (PointerGraph.lt_of_pointer? hj), ?_⟩
    simpa using hs.pending_lt
  calls_eq := rfl
  started_eq := rfl
  flows_iff _ _ := PointerGraph.flows_addEdge hi hj
  points_iff _ _ := PointerGraph.points_addEdge
  pends_iff _ _ := by simp [Pends]

/-- Additions one after the other. -/
theorem Adds.trans {flows flows' : Pointer → Pointer → Prop} {pends pends' : Pointer → ObjId → Prop}
    (h : s.Adds t flows pends) (h' : t.Adds u flows' pends') :
    s.Adds u (fun x y => flows x y ∨ flows' x y) (fun x o => pends x o ∨ pends' x o) where
  wellFormed := h'.wellFormed
  calls_eq := h'.calls_eq.trans h.calls_eq
  started_eq := h'.started_eq.trans h.started_eq
  flows_iff x y := by rw [h'.flows_iff, h.flows_iff, or_assoc]
  points_iff x o := by rw [h'.points_iff, h.points_iff]
  pends_iff x o := by rw [h'.pends_iff, h.pends_iff, or_assoc]

/-- What is added may be said in other words. -/
theorem Adds.congr {flows flows' : Pointer → Pointer → Prop} {pends pends' : Pointer → ObjId → Prop}
    (h : s.Adds t flows pends) (hflows : ∀ x y, s.Flows x y ∨ flows x y ↔ s.Flows x y ∨ flows' x y)
    (hpends : ∀ x o, pends x o ↔ pends' x o) : s.Adds t flows' pends' where
  wellFormed := h.wellFormed
  calls_eq := h.calls_eq
  started_eq := h.started_eq
  flows_iff x y := by rw [h.flows_iff, hflows]
  points_iff := h.points_iff
  pends_iff x o := by rw [h.pends_iff, hpends]

/-- Objects that are sent to a pointer are on their way there. -/
theorem adds_send (hs : s.WellFormed) (x : Pointer) (objects : IdSet) :
    s.Adds (s.send x objects) (fun _ _ => False) (fun y o => y = x ∧ o ∈ objects) := by
  have hintern := hs.graph.interns x
  have hadds := adds_of_interns hs hintern
  refine (hadds.trans (adds_pending hadds.wellFormed hintern.pointer?_eq objects)).congr ?_ ?_
  · simp
  · simp

/-- `connect` for pointers that have numbers. -/
def link (s : PointsToState) (i j : PointerId) : PointsToState :=
  if s.graph.hasEdge i j then s
  else
    let objects := s.graph.objects i
    let pending := if objects.isEmpty then s.pending else s.pending.add j objects
    { s with graph := s.graph.addEdge i j, pending }

/-- A new edge sends on what its source points to. -/
theorem adds_link (hs : s.WellFormed) {i j : PointerId} (hi : s.graph.pointer? i = some x)
    (hj : s.graph.pointer? j = some y) :
    s.Adds (s.link i j) (fun a b => a = x ∧ b = y)
      (fun b o => b = y ∧ ¬ s.Flows x y ∧ s.Points x o) := by
  have hflows : s.Flows x y ↔ j ∈ s.graph.successors i := hs.graph.flows_iff hi hj
  have hpoints : ∀ o, s.Points x o ↔ o ∈ s.graph.objects i := fun o => hs.graph.points_iff hi
  have hedge := adds_addEdge hs hi hj
  unfold link
  split
  · rename_i hhas
    have hold : s.Flows x y := hflows.2 (of_decide_eq_true hhas)
    refine (adds_refl hs).congr (fun a b => ?_) (fun a o => by simp [hold])
    rw [or_false, iff_comm, or_iff_left_iff_imp]
    rintro ⟨rfl, rfl⟩
    exact hold
  · rename_i hnot
    have hnew : ¬ s.Flows x y := fun h => hnot (decide_eq_true (hflows.1 h))
    dsimp only
    split
    · rename_i hempty
      refine hedge.congr (fun a b => Iff.rfl) (fun a o => ?_)
      have hnone := SortedSet.isEmpty_iff.1 hempty o
      simp [hpoints, hnone]
    · refine (hedge.trans (adds_pending hedge.wellFormed (by simpa using hj) _)).congr
        (fun a b => by simp) (fun a o => ?_)
      simp [hpoints, hnew]

/-- A new edge between two pointers sends on what its source points to. -/
theorem adds_connect (hs : s.WellFormed) (x y : Pointer) :
    s.Adds (s.connect x y) (fun a b => a = x ∧ b = y)
      (fun b o => b = y ∧ ¬ s.Flows x y ∧ s.Points x o) := by
  have hsource := hs.graph.interns x
  have htarget := hsource.wellFormed.interns y
  have hnamed := (adds_of_interns hs hsource).trans
    (adds_of_interns (adds_of_interns hs hsource).wellFormed htarget)
  have hlink := adds_link hnamed.wellFormed (htarget.pointer?_of hsource.pointer?_eq)
    htarget.pointer?_eq
  refine (hnamed.trans hlink).congr (fun a b => by simp) (fun b o => ?_)
  rw [hnamed.points_iff, hnamed.flows_iff]
  simp

/-- What handling a pending entry does: its objects arrive at a pointer, and those that the
pointer did not have are sent on along its edges. -/
structure Absorbs (s t : PointsToState) (x : Pointer) (arrived : ObjId → Prop) (new : IdSet) :
    Prop where
  /-- The new state is well formed. -/
  wellFormed : t.WellFormed
  /-- The call graph stays as it is. -/
  calls_eq : t.calls = s.calls
  /-- The analysis has begun or not as before. -/
  started_eq : t.started = s.started
  /-- No flow is added. -/
  flows_iff : ∀ x y, t.Flows x y ↔ s.Flows x y
  /-- The objects were on their way to the pointer. -/
  pends_of_arrived : ∀ o, arrived o → s.Pends x o
  /-- The objects have arrived. -/
  points_iff : ∀ y o, t.Points y o ↔ s.Points y o ∨ y = x ∧ arrived o
  /-- The new ones are those that the pointer did not have. -/
  mem_new_iff : ∀ o, o ∈ new ↔ arrived o ∧ ¬ s.Points x o
  /-- New objects are sent on. -/
  pends_of_new : ∀ y o, s.Flows x y → o ∈ new → t.Pends y o
  /-- No other objects are sent. -/
  pends_of_pends : ∀ y o, t.Pends y o → s.Pends y o ∨ s.Flows x y ∧ o ∈ new
  /-- Nothing gets lost on its way. -/
  has_of_has : ∀ y o, s.Has y o → t.Has y o

/-- Taking an entry leaves the others on their way. -/
theorem pends_iff_of_pop? {id : PointerId} {objects : IdSet} {rest : Pending}
    (h : s.pending.pop? = some ((id, objects), rest)) (hx : s.graph.pointer? id = some x) :
    s.Pends y o ↔ ({ s with pending := rest }).Pends y o ∨ y = x ∧ o ∈ objects := by
  obtain ⟨⟨e, left⟩, htake, heq⟩ := Option.map_eq_some_iff.1 h
  cases heq
  obtain ⟨earlier, later, hentries, hleft⟩ := WorklistOrder.exists_of_take? htake
  unfold Pends
  rw [hentries, hleft]
  simp only [List.mem_append, List.mem_cons, or_and_right, exists_or, exists_eq_left, hx,
    Option.some.injEq]
  rw [or_comm (a := x = y ∧ o ∈ objects), ← or_assoc, eq_comm (a := x)]

/-- Objects are sent along all edges that leave a pointer. -/
def forward (s : PointsToState) (id : PointerId) (objects : IdSet) : PointsToState :=
  { s with pending := s.pending.addAll (s.graph.successors id) objects }

theorem WellFormed.forward (hs : s.WellFormed) {id : PointerId} {objects : IdSet} :
    (s.forward id objects).WellFormed where
  graph := hs.graph
  pending_lt e he := by
    rcases List.mem_append.1 he with he | he
    · exact hs.pending_lt e he
    · obtain ⟨j, hj, rfl⟩ := List.mem_map.1 he
      exact hs.graph.successor_lt hj

theorem pends_forward (hs : s.WellFormed) {id : PointerId} (hx : s.graph.pointer? id = some x)
    {objects : IdSet} :
    (s.forward id objects).Pends y o ↔ s.Pends y o ∨ s.Flows x y ∧ o ∈ objects := by
  have hsent : (∃ j ∈ s.graph.successors id, s.graph.pointer? j = some y) ↔ s.Flows x y := by
    refine ⟨fun ⟨j, hj, hy⟩ => ⟨id, j, hx, hy, hj⟩, fun ⟨i, j, hi, hy, hj⟩ => ?_⟩
    exact ⟨j, hs.graph.unique hi hx ▸ hj, hy⟩
  rw [← hsent]
  unfold Pends PointsToState.forward Pending.addAll
  simp only [List.mem_append, List.mem_map, or_and_right, exists_or]
  refine or_congr_right ⟨?_, ?_⟩
  · rintro ⟨_, ⟨j, hj, rfl⟩, hy, ho⟩
    exact ⟨⟨j, hj, hy⟩, ho⟩
  · rintro ⟨⟨j, hj, hy⟩, ho⟩
    exact ⟨_, ⟨j, hj, rfl⟩, hy, ho⟩

/-- Objects arrive at a pointer. -/
def store (s : PointsToState) (id : PointerId) (objects : IdSet) : PointsToState :=
  { s with graph := s.graph.addObjects id objects }

@[simp] theorem pends_store {id : PointerId} {objects : IdSet} :
    (s.store id objects).Pends x o ↔ s.Pends x o := by
  simp [store, Pends]

@[simp] theorem flows_store {id : PointerId} {objects : IdSet} :
    (s.store id objects).Flows x y ↔ s.Flows x y :=
  PointerGraph.flows_addObjects

theorem points_store {id : PointerId} {objects : IdSet} (hx : s.graph.pointer? id = some x) :
    (s.store id objects).Points y o ↔ s.Points y o ∨ y = x ∧ o ∈ objects :=
  PointerGraph.points_addObjects hx

theorem WellFormed.store (hs : s.WellFormed) {id : PointerId} {objects : IdSet} :
    (s.store id objects).WellFormed where
  graph := hs.graph.addObjects
  pending_lt := by simpa [PointsToState.store] using hs.pending_lt

/-- The entry that is taken is for a pointer, and those that are left are too. -/
theorem WellFormed.of_pop? (hs : s.WellFormed) {id : PointerId} {objects : IdSet} {rest : Pending}
    (h : s.pending.pop? = some ((id, objects), rest)) :
    (∃ x, s.graph.pointer? id = some x) ∧ ({ s with pending := rest }).WellFormed := by
  obtain ⟨⟨e, left⟩, htake, heq⟩ := Option.map_eq_some_iff.1 h
  cases heq
  obtain ⟨earlier, later, hentries, hleft⟩ := WorklistOrder.exists_of_take? htake
  have hlt := hs.pending_lt
  rw [hentries] at hlt
  refine ⟨PointerGraph.exists_pointer? (hlt (id, objects) (by simp)), hs.graph, fun e he => hlt e ?_⟩
  change e ∈ left at he
  rw [hleft] at he
  rcases List.mem_append.1 he with he | he
  · exact List.mem_append_left _ he
  · exact List.mem_append_right _ (List.mem_cons_of_mem _ he)

section Taken

variable {id : PointerId} {objects new : IdSet} {rest : Pending}

/-- A pending entry is taken whose objects have all arrived before. -/
theorem absorbs_nothing (hs : s.WellFormed) (h : s.pending.pop? = some ((id, objects), rest))
    (hx : s.graph.pointer? id = some x) (hnew : ∀ o, o ∈ new ↔ o ∈ objects ∧ ¬ s.Points x o)
    (hold : ∀ o ∈ objects, s.Points x o) :
    s.Absorbs { s with pending := rest } x (· ∈ objects) new where
  wellFormed := (hs.of_pop? h).2
  calls_eq := rfl
  started_eq := rfl
  flows_iff _ _ := Iff.rfl
  pends_of_arrived o ho := (pends_iff_of_pop? h hx).2 (.inr ⟨rfl, ho⟩)
  points_iff y o := by
    symm
    apply or_iff_left_of_imp
    rintro ⟨rfl, ho⟩
    exact hold o ho
  mem_new_iff := hnew
  pends_of_new y o _ ho := by
    obtain ⟨hmem, hnot⟩ := (hnew o).1 ho
    exact absurd (hold o hmem) hnot
  pends_of_pends y o hy := .inl ((pends_iff_of_pop? h hx).2 (.inl hy))
  has_of_has y o hy := by
    rcases hy with hy | hy
    · exact .inl hy
    · rcases (pends_iff_of_pop? h hx).1 hy with hy | ⟨rfl, ho⟩
      · exact .inr hy
      · exact .inl (hold o ho)

/-- A pending entry is taken, and its new objects are sent on and arrive. -/
theorem absorbs_forward (hs : s.WellFormed) (h : s.pending.pop? = some ((id, objects), rest))
    (hx : s.graph.pointer? id = some x) (hnew : ∀ o, o ∈ new ↔ o ∈ objects ∧ ¬ s.Points x o) :
    s.Absorbs ((({ s with pending := rest }).forward id new).store id new) x (· ∈ objects) new := by
  have hrest : ({ s with pending := rest } : PointsToState).WellFormed := (hs.of_pop? h).2
  have hpends : ∀ {y o}, s.Pends y o ↔ ({ s with pending := rest }).Pends y o ∨ y = x ∧ o ∈ objects :=
    pends_iff_of_pop? h hx
  have hsent : ∀ {y o}, (({ s with pending := rest }).forward id new).Pends y o ↔
      ({ s with pending := rest }).Pends y o ∨ s.Flows x y ∧ o ∈ new := pends_forward hrest hx
  have harrived : ∀ {y o}, ((({ s with pending := rest }).forward id new).store id new).Points y o ↔
      s.Points y o ∨ y = x ∧ o ∈ new := points_store hx
  have hpoints : ∀ {o}, o ∈ objects →
      ((({ s with pending := rest }).forward id new).store id new).Points x o := by
    intro o ho
    rw [harrived]
    by_cases hold : s.Points x o
    · exact .inl hold
    · exact .inr ⟨rfl, (hnew o).2 ⟨ho, hold⟩⟩
  exact {
    wellFormed := hrest.forward.store
    calls_eq := rfl
    started_eq := rfl
    flows_iff := fun _ _ => flows_store
    pends_of_arrived := fun o ho => hpends.2 (.inr ⟨rfl, ho⟩)
    points_iff := fun y o => by
      constructor
      · intro hy
        rcases harrived.1 hy with hy | ⟨rfl, ho⟩
        · exact .inl hy
        · exact .inr ⟨rfl, ((hnew o).1 ho).1⟩
      · rintro (hy | ⟨rfl, ho⟩)
        · exact harrived.2 (.inl hy)
        · exact hpoints ho
    mem_new_iff := hnew
    pends_of_new := fun y o hflows ho => pends_store.2 (hsent.2 (.inr ⟨hflows, ho⟩))
    pends_of_pends := fun y o hy => by
      rcases hsent.1 (pends_store.1 hy) with hy | hsent
      · exact .inl (hpends.2 (.inl hy))
      · exact .inr hsent
    has_of_has := fun y o hy => by
      rcases hy with hy | hy
      · exact .inl (harrived.2 (.inl hy))
      · rcases hpends.1 hy with hy | ⟨rfl, ho⟩
        · exact .inr (pends_store.2 (hsent.2 (.inl hy)))
        · exact .inl (hpoints ho) }

/-- A pending entry is taken and handled. -/
theorem absorbs_of_pop? (hs : s.WellFormed) (h : s.pending.pop? = some ((id, objects), rest)) :
    ∃ x, (({ s with pending := rest }).propagate id objects).1.graph.pointer? id = some x ∧
      s.Absorbs (({ s with pending := rest }).propagate id objects).1 x (· ∈ objects)
        (({ s with pending := rest }).propagate id objects).2 := by
  obtain ⟨⟨x, hx⟩, -⟩ := hs.of_pop? h
  have hnew : ∀ o, o ∈ objects.diff (s.graph.objects id) ↔ o ∈ objects ∧ ¬ s.Points x o := by
    intro o
    rw [SortedSet.mem_diff, ← hs.graph.points_iff hx]
  unfold propagate
  dsimp only
  split
  · rename_i hempty
    have hold : ∀ o ∈ objects, s.Points x o := by
      intro o ho
      by_contra hnot
      exact SortedSet.isEmpty_iff.1 hempty o ((hnew o).2 ⟨ho, hnot⟩)
    exact ⟨x, hx, absorbs_nothing hs h hx hnew hold⟩
  · exact ⟨x, PointerGraph.pointer?_addObjects.trans hx, absorbs_forward hs h hx hnew⟩

/-- Without new objects, taking an entry leaves one less pending. -/
theorem length_of_propagate {e : PointerId × IdSet} (h : s.pending.pop? = some (e, rest))
    (hpropagate : ({ s with pending := rest } : PointsToState).propagate id objects = (u, new))
    (hnone : new.isEmpty = true) : u.pending.entries.length + 1 = s.pending.entries.length := by
  obtain ⟨⟨e, left⟩, htake, heq⟩ := Option.map_eq_some_iff.1 h
  cases heq
  obtain ⟨earlier, later, hentries, rfl⟩ := WorklistOrder.exists_of_take? htake
  unfold propagate at hpropagate
  dsimp only at hpropagate
  split at hpropagate
  · obtain ⟨rfl, -⟩ := Prod.mk.inj hpropagate
    rw [hentries]
    simp only [List.length_append, List.length_cons]
    omega
  · rename_i hsome
    obtain ⟨-, rfl⟩ := Prod.mk.inj hpropagate
    exact absurd hnone hsome

end Taken

end TacAnalysis.PointsToState
