import TacAnalysis.PointsTo.Graph

/-!
# What pointer graphs say

A pointer graph is read by its pointers, and not by their numbers: objects flow from one
pointer to another, and a pointer holds objects. This is what each operation on a graph
changes. Numbers only have to be unique, and edges must not lead to numbers that nobody
has.

Main statements: `flows_addEdge`, `points_addObjects`, and that `intern` changes neither.
-/

namespace TacAnalysis.PointerGraph

variable {g : PointerGraph} {i j k : PointerId} {x y z : Pointer} {o : ObjId}

/-- Each pointer has one number, and edges lead to numbers of pointers. -/
structure WellFormed (g : PointerGraph) : Prop where
  /-- No pointer has two numbers. -/
  unique : ∀ {i j : PointerId} {x : Pointer}, g.pointer? i = some x → g.pointer? j = some x → i = j
  /-- Edges lead to pointers. -/
  successor_lt : ∀ {i j : PointerId}, j ∈ g.successors i → j < g.nodes.length

/-- There is an edge from one pointer to another. -/
def Flows (g : PointerGraph) (x y : Pointer) : Prop :=
  ∃ i j, g.pointer? i = some x ∧ g.pointer? j = some y ∧ j ∈ g.successors i

/-- The pointer points to the object. -/
def Points (g : PointerGraph) (x : Pointer) (o : ObjId) : Prop :=
  ∃ i, g.pointer? i = some x ∧ o ∈ g.objects i

theorem wellFormed_empty : empty.WellFormed where
  unique h := by simp [empty, pointer?] at h
  successor_lt h := by simp [empty, successors, successors?] at h

theorem lt_of_pointer? (h : g.pointer? i = some x) : i < g.nodes.length := by
  obtain ⟨n, hn, -⟩ := Option.map_eq_some_iff.1 h
  exact (List.getElem?_eq_some_iff.1 hn).1

theorem exists_pointer? (h : i < g.nodes.length) : ∃ x, g.pointer? i = some x :=
  ⟨(g.nodes[i]).pointer, by simp [pointer?, h]⟩

/-- Only pointers have edges. -/
theorem lt_of_mem_successors (h : j ∈ g.successors i) : i < g.nodes.length := by
  refine Nat.lt_of_not_le fun hi => ?_
  have hnone : g.nodes[i]? = none := List.getElem?_eq_none hi
  simp [successors, successors?, hnone] at h

/-- Only pointers have objects. -/
theorem lt_of_mem_objects (h : o ∈ g.objects i) : i < g.nodes.length := by
  refine Nat.lt_of_not_le fun hi => ?_
  have hnone : g.nodes[i]? = none := List.getElem?_eq_none hi
  simp [objects, hnone] at h

/-- In a well-formed graph an edge between pointers is one between their numbers. -/
theorem WellFormed.flows_iff (hg : g.WellFormed) (hx : g.pointer? i = some x)
    (hy : g.pointer? j = some y) : g.Flows x y ↔ j ∈ g.successors i := by
  refine ⟨?_, fun h => ⟨i, j, hx, hy, h⟩⟩
  rintro ⟨i', j', hx', hy', h⟩
  rwa [hg.unique hx hx', hg.unique hy hy']

/-- In a well-formed graph a pointer has the objects of its number. -/
theorem WellFormed.points_iff (hg : g.WellFormed) (hx : g.pointer? i = some x) :
    g.Points x o ↔ o ∈ g.objects i := by
  refine ⟨?_, fun h => ⟨i, hx, h⟩⟩
  rintro ⟨i', hx', h⟩
  rwa [hg.unique hx hx']

/-- A pointer that has a number is looked up by it. -/
theorem WellFormed.lookup?_eq_some_iff (hg : g.WellFormed) :
    g.lookup? x = some i ↔ g.pointer? i = some x := by
  have hfind : ∀ {k}, g.lookup? x = some k → g.pointer? k = some x := by
    intro k hk
    obtain ⟨hlt, hpointer, -⟩ := List.findIdx?_eq_some_iff_getElem.1 hk
    simpa [pointer?, hlt] using hpointer
  refine ⟨hfind, fun h => ?_⟩
  cases hlookup : g.lookup? x with
  | none =>
    obtain ⟨n, hn, hx⟩ := Option.map_eq_some_iff.1 h
    have hnone := List.findIdx?_eq_none_iff.1 hlookup n (List.mem_of_getElem? hn)
    simp [hx] at hnone
  | some k => rw [hg.unique (hfind hlookup) h]

/-- What a pointer points to is looked up under its number. -/
theorem WellFormed.points_iff_pointsTo? (hg : g.WellFormed) :
    g.Points x o ↔ o ∈ (g.pointsTo? x).getD ∅ := by
  unfold pointsTo?
  cases hlookup : g.lookup? x with
  | none =>
    refine iff_of_false ?_ (by simp)
    rintro ⟨i, hi, -⟩
    rw [hg.lookup?_eq_some_iff.2 hi] at hlookup
    cases hlookup
  | some i => exact hg.points_iff (hg.lookup?_eq_some_iff.1 hlookup)

/-! ## Interning -/

/-- A pointer that is new gets the next number, without edges and objects. -/
def appended (g : PointerGraph) (x : Pointer) : PointerGraph := ⟨g.nodes ++ [⟨x, [], ∅⟩]⟩

theorem pointer?_appended : (g.appended x).pointer? i = some y ↔
    g.pointer? i = some y ∨ i = g.nodes.length ∧ y = x := by
  unfold pointer? appended
  rcases Nat.lt_trichotomy i g.nodes.length with h | rfl | h
  · rw [List.getElem?_append_left h]
    have hne : i ≠ g.nodes.length := Nat.ne_of_lt h
    simp [hne]
  · simp [eq_comm]
  · have hle : g.nodes.length ≤ i := Nat.le_of_lt h
    have hnone : (g.nodes ++ [(⟨x, [], ∅⟩ : PointerNode)])[i]? = none :=
      List.getElem?_eq_none (by rw [List.length_append]; exact h)
    have hne : i ≠ g.nodes.length := Nat.ne_of_gt h
    simp [hnone, hne, List.getElem?_eq_none hle]

@[simp] theorem successors_appended : (g.appended x).successors i = g.successors i := by
  unfold successors successors? appended
  rcases Nat.lt_trichotomy i g.nodes.length with h | rfl | h
  · rw [List.getElem?_append_left h]
  · simp
  · have hle : g.nodes.length ≤ i := Nat.le_of_lt h
    rw [List.getElem?_eq_none hle, List.getElem?_eq_none (by rw [List.length_append]; exact h)]

@[simp] theorem objects_appended : (g.appended x).objects i = g.objects i := by
  unfold objects appended
  rcases Nat.lt_trichotomy i g.nodes.length with h | rfl | h
  · rw [List.getElem?_append_left h]
  · simp
  · have hle : g.nodes.length ≤ i := Nat.le_of_lt h
    rw [List.getElem?_eq_none hle, List.getElem?_eq_none (by rw [List.length_append]; exact h)]

theorem length_appended : (g.appended x).nodes.length = g.nodes.length + 1 := by
  simp [appended]

/-- Old numbers keep their pointers. -/
theorem pointer?_appended_of_lt (hi : i < g.nodes.length) :
    (g.appended x).pointer? i = g.pointer? i := by
  apply Option.ext
  intro y
  rw [pointer?_appended]
  constructor
  · rintro (h | ⟨rfl, -⟩)
    · exact h
    · exact absurd hi (Nat.lt_irrefl _)
  · exact Or.inl

/-- A pointer that had no number has just the new one. -/
theorem WellFormed.appended (hg : g.WellFormed) (hnew : ∀ i, g.pointer? i ≠ some x) :
    (g.appended x).WellFormed where
  unique {i j y} hi hj := by
    rcases pointer?_appended.1 hi with hold | ⟨rfl, rfl⟩
    · rcases pointer?_appended.1 hj with hold' | ⟨rfl, rfl⟩
      · exact hg.unique hold hold'
      · exact absurd hold (hnew i)
    · rcases pointer?_appended.1 hj with hold' | ⟨rfl, -⟩
      · exact absurd hold' (hnew j)
      · rfl
  successor_lt {i j} hj := by
    rw [successors_appended] at hj
    rw [length_appended]
    exact Nat.lt_succ_of_lt (hg.successor_lt hj)

theorem WellFormed.flows_appended (hg : g.WellFormed) : (g.appended x).Flows y z ↔ g.Flows y z := by
  simp only [Flows, successors_appended]
  constructor
  · rintro ⟨i, j, hy, hz, hj⟩
    rw [pointer?_appended_of_lt (lt_of_mem_successors hj)] at hy
    rw [pointer?_appended_of_lt (hg.successor_lt hj)] at hz
    exact ⟨i, j, hy, hz, hj⟩
  · rintro ⟨i, j, hy, hz, hj⟩
    exact ⟨i, j, pointer?_appended.2 (.inl hy), pointer?_appended.2 (.inl hz), hj⟩

theorem points_appended : (g.appended x).Points y o ↔ g.Points y o := by
  simp only [Points, objects_appended]
  constructor
  · rintro ⟨i, hy, ho⟩
    rw [pointer?_appended_of_lt (lt_of_mem_objects ho)] at hy
    exact ⟨i, hy, ho⟩
  · rintro ⟨i, hy, ho⟩
    exact ⟨i, pointer?_appended.2 (.inl hy), ho⟩

/-- What `intern` does: it gives the number of the pointer, which may be a new one, and
changes nothing else that the graph says. -/
structure Interns (g g' : PointerGraph) (x : Pointer) (i : PointerId) : Prop where
  /-- The new graph is well formed. -/
  wellFormed : g'.WellFormed
  /-- The pointer has the number. -/
  pointer?_eq : g'.pointer? i = some x
  /-- Numbers stay in use. -/
  length_le : g.nodes.length ≤ g'.nodes.length
  /-- Old numbers keep their pointers. -/
  pointer?_old : ∀ {k : PointerId}, k < g.nodes.length → g'.pointer? k = g.pointer? k
  /-- No edge is added. -/
  flows_iff : ∀ {y z : Pointer}, g'.Flows y z ↔ g.Flows y z
  /-- No object is added. -/
  points_iff : ∀ {y : Pointer} {o : ObjId}, g'.Points y o ↔ g.Points y o

/-- The other pointers keep their numbers. -/
theorem Interns.pointer?_of {g' : PointerGraph} (h : g.Interns g' x i) (hk : g.pointer? k = some y) :
    g'.pointer? k = some y := by
  rw [h.pointer?_old (lt_of_pointer? hk)]
  exact hk

theorem WellFormed.interns (hg : g.WellFormed) (x : Pointer) :
    g.Interns (g.intern x).1 x (g.intern x).2 := by
  unfold intern
  cases hlookup : g.lookup? x with
  | some i =>
    have hi := hg.lookup?_eq_some_iff.1 hlookup
    exact ⟨hg, hi, Nat.le_refl _, fun _ => rfl, Iff.rfl, Iff.rfl⟩
  | none =>
    have hnew : ∀ i, g.pointer? i ≠ some x := by
      intro i hi
      rw [hg.lookup?_eq_some_iff.2 hi] at hlookup
      cases hlookup
    have hlength : g.nodes.length ≤ (g.appended x).nodes.length := by
      rw [length_appended]
      exact Nat.le_succ _
    have hnumber : (g.appended x).pointer? g.nodes.length = some x :=
      pointer?_appended.2 (.inr ⟨rfl, rfl⟩)
    exact ⟨hg.appended hnew, hnumber, hlength, pointer?_appended_of_lt, hg.flows_appended,
      points_appended⟩

/-! ## Edges and objects -/

@[simp] theorem length_addEdge : (g.addEdge i j).nodes.length = g.nodes.length := by
  unfold addEdge
  split <;> simp

@[simp] theorem pointer?_addEdge : (g.addEdge i j).pointer? k = g.pointer? k := by
  unfold addEdge pointer?
  split
  · rfl
  · dsimp only
    rw [List.getElem?_modify]
    cases g.nodes[k]? with
    | none => rfl
    | some n => by_cases hk : i = k <;> simp [hk]

@[simp] theorem objects_addEdge : (g.addEdge i j).objects k = g.objects k := by
  unfold addEdge objects
  split
  · rfl
  · dsimp only
    rw [List.getElem?_modify]
    cases g.nodes[k]? with
    | none => rfl
    | some n => by_cases hk : i = k <;> simp [hk]

theorem mem_successors_addEdge (hi : i < g.nodes.length) {l : PointerId} :
    l ∈ (g.addEdge i j).successors k ↔ l ∈ g.successors k ∨ k = i ∧ l = j := by
  unfold addEdge
  split
  · rename_i hhas
    refine ⟨.inl, fun h => h.elim id ?_⟩
    rintro ⟨rfl, rfl⟩
    exact of_decide_eq_true hhas
  · unfold successors successors?
    rw [List.getElem?_modify]
    by_cases hk : i = k
    · subst hk
      simp [hi]
    · have hne : k ≠ i := fun h => hk h.symm
      simp [hk, hne]

theorem WellFormed.addEdge (hg : g.WellFormed) (hi : i < g.nodes.length) (hj : j < g.nodes.length) :
    (g.addEdge i j).WellFormed where
  unique hx hy := hg.unique (by simpa using hx) (by simpa using hy)
  successor_lt h := by
    rw [length_addEdge]
    rcases (mem_successors_addEdge hi).1 h with h | ⟨-, rfl⟩
    · exact hg.successor_lt h
    · exact hj

theorem flows_addEdge (hx : g.pointer? i = some x) (hy : g.pointer? j = some y)
    {z w : Pointer} : (g.addEdge i j).Flows z w ↔ g.Flows z w ∨ z = x ∧ w = y := by
  simp only [Flows, pointer?_addEdge, mem_successors_addEdge (lt_of_pointer? hx)]
  constructor
  · rintro ⟨k, l, hz, hw, h | ⟨rfl, rfl⟩⟩
    · exact .inl ⟨k, l, hz, hw, h⟩
    · exact .inr ⟨Option.some.inj (hz.symm.trans hx), Option.some.inj (hw.symm.trans hy)⟩
  · rintro (⟨k, l, hz, hw, h⟩ | ⟨rfl, rfl⟩)
    · exact ⟨k, l, hz, hw, .inl h⟩
    · exact ⟨i, j, hx, hy, .inr ⟨rfl, rfl⟩⟩

@[simp] theorem points_addEdge : (g.addEdge i j).Points x o ↔ g.Points x o := by
  simp only [Points, pointer?_addEdge, objects_addEdge]

variable {objects : IdSet}

@[simp] theorem length_addObjects : (g.addObjects i objects).nodes.length = g.nodes.length := by
  simp [addObjects]

@[simp] theorem pointer?_addObjects : (g.addObjects i objects).pointer? k = g.pointer? k := by
  unfold addObjects pointer?
  rw [List.getElem?_modify]
  cases g.nodes[k]? with
  | none => rfl
  | some n => by_cases hk : i = k <;> simp [hk]

@[simp] theorem successors_addObjects : (g.addObjects i objects).successors k = g.successors k := by
  unfold addObjects successors successors?
  rw [List.getElem?_modify]
  cases g.nodes[k]? with
  | none => rfl
  | some n => by_cases hk : i = k <;> simp [hk]

theorem mem_objects_addObjects (hi : i < g.nodes.length) :
    o ∈ (g.addObjects i objects).objects k ↔ o ∈ g.objects k ∨ k = i ∧ o ∈ objects := by
  unfold addObjects PointerGraph.objects
  rw [List.getElem?_modify]
  by_cases hk : i = k
  · subst hk
    simp [hi]
  · have hne : k ≠ i := fun h => hk h.symm
    simp [hk, hne]

theorem WellFormed.addObjects (hg : g.WellFormed) : (g.addObjects i objects).WellFormed where
  unique hx hy := hg.unique (by simpa using hx) (by simpa using hy)
  successor_lt h := by
    rw [length_addObjects]
    exact hg.successor_lt (by simpa using h)

@[simp] theorem flows_addObjects : (g.addObjects i objects).Flows x y ↔ g.Flows x y := by
  simp only [Flows, pointer?_addObjects, successors_addObjects]

theorem points_addObjects (hx : g.pointer? i = some x) :
    (g.addObjects i objects).Points y o ↔ g.Points y o ∨ y = x ∧ o ∈ objects := by
  simp only [Points, pointer?_addObjects, mem_objects_addObjects (lt_of_pointer? hx)]
  constructor
  · rintro ⟨k, hy, h | ⟨rfl, ho⟩⟩
    · exact .inl ⟨k, hy, h⟩
    · exact .inr ⟨Option.some.inj (hy.symm.trans hx), ho⟩
  · rintro (⟨k, hy, h⟩ | ⟨rfl, ho⟩)
    · exact ⟨k, hy, .inl h⟩
    · exact ⟨i, hx, .inr ⟨rfl, ho⟩⟩

end TacAnalysis.PointerGraph
