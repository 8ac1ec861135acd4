import Mathlib.Algebra.BigOperators.Group.List.Basic
import Mathlib.Data.Finset.Card
import Mathlib.Data.List.AList
import TacAnalysis.Proofs.PointsTo.Growth

/-!
# Pointer graphs in tables

A pointer graph can be kept so that no question searches it: the pointers in the order of their
numbers, the numbers entered under the pointers, the targets of edges under their sources, the set
of all edges, and the objects of each pointer. However pointers are mentioned and edges and objects
are added, these five tables have to tell the same story, and they do: a pointer is found under the
number that is found under it, the targets that stand under a source are those to which it has an
edge, each once, and all of them together are as many as there are edges.

Main statement: `PointerTables.Built.tables_agree`.
-/

namespace TacAnalysis

/-- A pointer graph in tables. -/
structure PointerTables where
  /-- The pointers, each at the position of its number. -/
  pointers : List Pointer
  /-- The numbers of the pointers. -/
  index : AList fun _ : Pointer => PointerId
  /-- The targets of the edges that leave a pointer, at the position of its number. -/
  successors : List (List PointerId)
  /-- All edges. -/
  edgeSet : Finset (PointerId × PointerId)
  /-- The objects of each pointer, at the position of its number. -/
  objects : List IdSet

namespace PointerTables

/-- No pointer has been mentioned. -/
def empty : PointerTables := ⟨[], ∅, [], ∅, []⟩

variable (t : PointerTables)

/-- The number of a pointer that has been mentioned. -/
def lookup? (x : Pointer) : Option PointerId := t.index.lookup x

/-- The pointer of a number. -/
def pointer? (id : PointerId) : Option Pointer := t.pointers[id]?

/-- The targets of the edges that leave a pointer, none if it has no number. -/
def successorsOf (id : PointerId) : List PointerId := t.successors[id]?.getD []

/-- The objects that a pointer points to, none if it has no number. -/
def objectsOf (id : PointerId) : IdSet := t.objects[id]?.getD ∅

/-- Whether there is an edge. -/
def hasEdge (source target : PointerId) : Bool := decide ((source, target) ∈ t.edgeSet)

/-- How many pointers there are. -/
def pointerCount : Nat := t.pointers.length

/-- How many edges there are. -/
def edgeCount : Nat := t.edgeSet.card

/-- A new pointer gets the next number, without edges and objects. -/
def append (x : Pointer) : PointerTables :=
  { t with
    pointers := t.pointers ++ [x]
    index := t.index.insert x t.pointers.length
    successors := t.successors ++ [[]]
    objects := t.objects ++ [∅] }

/-- The tables in which a pointer has a number, and that number. -/
def intern (x : Pointer) : PointerTables × PointerId :=
  match t.lookup? x with
  | some id => (t, id)
  | none => (t.append x, t.pointers.length)

/-- Adds an edge, and says whether it was not there. -/
def addEdge (source target : PointerId) : PointerTables × Bool :=
  if (source, target) ∈ t.edgeSet then (t, false)
  else ({ t with
    successors := t.successors.modify source (· ++ [target])
    edgeSet := insert (source, target) t.edgeSet }, true)

/-- Adds objects to those that a pointer points to. -/
def addObjects (id : PointerId) (objects : IdSet) : PointerTables :=
  { t with objects := t.objects.modify id (·.union objects) }

/-- Tables and a graph in which the same pointers have been mentioned and the same edges and objects
have been added, only for numbers that pointers have. -/
inductive Built : PointerTables → PointerGraph → Prop
  | empty : Built empty .empty
  | intern {t : PointerTables} {g : PointerGraph} (h : Built t g) (x : Pointer) :
      Built (t.intern x).1 (g.intern x).1
  | addEdge {t : PointerTables} {g : PointerGraph} (h : Built t g) {i j : PointerId}
      (hi : i < t.pointerCount) (hj : j < t.pointerCount) : Built (t.addEdge i j).1 (g.addEdge i j)
  | addObjects {t : PointerTables} {g : PointerGraph} (h : Built t g) {i : PointerId}
      (hi : i < t.pointerCount) (objects : IdSet) :
      Built (t.addObjects i objects) (g.addObjects i objects)

end PointerTables

/-! ## One element is changed -/

/-- What is read off a list in which one element has been changed. -/
theorem map_modify {α β : Type} {f : α → α} {f' : β → β} {p : α → β} (hf : ∀ a, p (f a) = f' (p a))
    (xs : List α) (i : Nat) : (xs.modify i f).map p = (xs.map p).modify i f' := by
  apply List.ext_getElem?
  intro k
  simp only [List.getElem?_map, List.getElem?_modify]
  cases xs[k]? with
  | none => rfl
  | some a =>
    by_cases hk : i = k
    · simp [hk, hf]
    · simp [hk]

theorem map_modify_same {α β : Type} {f : α → α} {p : α → β} (hf : ∀ a, p (f a) = p a)
    (xs : List α) (i : Nat) : (xs.modify i f).map p = xs.map p := by
  have hmodify : (xs.modify i f).map p = (xs.map p).modify i id := by
    apply map_modify
    exact hf
  rw [hmodify, List.modify_id]

/-- One list of several has one element more. -/
theorem sum_length_modify {α : Type} {ls : List (List α)} {i : Nat} {a : α} (hi : i < ls.length) :
    ((ls.modify i (· ++ [a])).map List.length).sum = (ls.map List.length).sum + 1 := by
  induction ls generalizing i with
  | nil => exact absurd hi (Nat.not_lt_zero i)
  | cons l ls ih =>
    cases i with
    | zero => simp [Nat.add_right_comm]
    | succ i =>
      have hrest := ih (Nat.lt_of_succ_lt_succ hi)
      simp only [List.modify_succ_cons, List.map_cons, List.sum_cons, hrest]
      omega

/-! ## Graphs whose edges are listed once -/

namespace PointerGraph

variable {g : PointerGraph} {i j k : PointerId} {x : Pointer}

theorem edgeCount_eq_sum : g.edgeCount = ((g.nodes.map (·.successors)).map List.length).sum := by
  have hfold : ∀ (nodes : List PointerNode) (n : Nat),
      nodes.foldl (fun count node => count + node.successors.length) n =
        n + ((nodes.map (·.successors)).map List.length).sum := by
    intro nodes
    induction nodes with
    | nil => exact fun n => rfl
    | cons node nodes ih =>
      intro n
      rw [List.foldl_cons, ih]
      simp only [List.map_cons, List.sum_cons]
      omega
  rw [edgeCount, hfold, Nat.zero_add]

theorem addEdge_of_mem (hold : j ∈ g.successors i) : g.addEdge i j = g := by
  have hhas : g.hasEdge i j = true := decide_eq_true hold
  rw [addEdge, if_pos hhas]

theorem addEdge_of_notMem (hnew : j ∉ g.successors i) : g.addEdge i j =
    ⟨g.nodes.modify i fun n => { n with successors := n.successors ++ [j] }⟩ := by
  have hhas : ¬ g.hasEdge i j = true := fun h => hnew (of_decide_eq_true h)
  rw [addEdge, if_neg hhas]

theorem map_successors_addEdge_of_notMem (hnew : j ∉ g.successors i) :
    (g.addEdge i j).nodes.map (·.successors) =
      (g.nodes.map (·.successors)).modify i (· ++ [j]) := by
  rw [addEdge_of_notMem hnew]
  apply map_modify
  exact fun _ => rfl

theorem map_objects_addEdge : (g.addEdge i j).nodes.map (·.objects) = g.nodes.map (·.objects) := by
  by_cases hold : j ∈ g.successors i
  · rw [addEdge_of_mem hold]
  · rw [addEdge_of_notMem hold]
    apply map_modify_same
    exact fun _ => rfl

theorem map_successors_addObjects {objects : IdSet} :
    (g.addObjects i objects).nodes.map (·.successors) = g.nodes.map (·.successors) := by
  apply map_modify_same
  exact fun _ => rfl

theorem map_objects_addObjects {objects : IdSet} :
    (g.addObjects i objects).nodes.map (·.objects) =
      (g.nodes.map (·.objects)).modify i (·.union objects) := by
  apply map_modify
  exact fun _ => rfl

theorem nodup_successors_addEdge (hi : i < g.nodes.length) (h : ∀ k, (g.successors k).Nodup)
    (k : PointerId) : ((g.addEdge i j).successors k).Nodup := by
  by_cases hold : j ∈ g.successors i
  · rw [addEdge_of_mem hold]
    exact h k
  · rw [successors_addEdge_of_new hi hold]
    split
    · rw [List.nodup_append]
      refine ⟨h i, List.nodup_singleton j, ?_⟩
      rintro a ha b hb rfl
      exact hold (List.mem_singleton.1 hb ▸ ha)
    · exact h k

/-- A new pointer is found under the next number, the others as before. -/
theorem lookup?_appended {y : Pointer} (hnew : g.lookup? x = none) :
    (g.appended x).lookup? y = if y = x then some g.nodes.length else g.lookup? y := by
  have hpointers : (g.appended x).pointers = g.pointers ++ [x] := by
    simp [pointers, appended]
  rw [lookup?_eq_findIdx?] at hnew
  rw [lookup?_eq_findIdx?, lookup?_eq_findIdx?, hpointers, List.findIdx?_append]
  by_cases hy : y = x
  · subst hy
    rw [hnew, if_pos rfl]
    simp
  · have hne : x ≠ y := Ne.symm hy
    rw [if_neg hy]
    simp [hne]

end PointerGraph

namespace PointerTables

variable {t : PointerTables} {g : PointerGraph} {i j : PointerId} {x : Pointer}

/-! ## What tables stand for -/

/-- The tables answer every question as a graph does, in which pointers have one number and edges
are listed once. -/
structure Represents (t : PointerTables) (g : PointerGraph) : Prop where
  /-- Numbers are unique, and edges lead to numbers of pointers. -/
  wellFormed : g.WellFormed
  /-- No edge is listed twice. -/
  nodup_successors : ∀ i, (g.successors i).Nodup
  /-- The same pointers have been mentioned. -/
  pointers_eq : t.pointers = g.pointers
  /-- They are found under the same numbers. -/
  lookup?_eq : ∀ x, t.lookup? x = g.lookup? x
  /-- Edges lead to the same pointers. -/
  successors_eq : t.successors = g.nodes.map (·.successors)
  /-- They are the elements of their set. -/
  mem_edgeSet : ∀ i j, (i, j) ∈ t.edgeSet ↔ j ∈ g.successors i
  /-- The set has no others. -/
  card_edgeSet : t.edgeSet.card = g.edgeCount
  /-- The pointers have the same objects. -/
  objects_eq : t.objects = g.nodes.map (·.objects)

theorem Represents.length_eq (h : t.Represents g) : t.pointers.length = g.nodes.length := by
  rw [h.pointers_eq, PointerGraph.length_pointers]

theorem represents_empty : empty.Represents .empty where
  wellFormed := PointerGraph.wellFormed_empty
  nodup_successors _ := List.nodup_nil
  pointers_eq := rfl
  lookup?_eq _ := rfl
  successors_eq := rfl
  mem_edgeSet i j := by
    simp [empty, PointerGraph.empty, PointerGraph.successors, PointerGraph.successors?]
  card_edgeSet := rfl
  objects_eq := rfl

theorem lookup?_append {y : Pointer} :
    (t.append x).lookup? y = if y = x then some t.pointers.length else t.lookup? y := by
  unfold lookup? append
  by_cases hy : y = x
  · subst hy
    rw [AList.lookup_insert, if_pos rfl]
  · rw [AList.lookup_insert_ne hy, if_neg hy]

/-- A pointer that has not been mentioned is entered in four tables. -/
theorem Represents.append (h : t.Represents g) (hnew : g.lookup? x = none) :
    (t.append x).Represents (g.appended x) where
  wellFormed := by
    apply h.wellFormed.appended
    intro i hi
    rw [h.wellFormed.lookup?_eq_some_iff.2 hi] at hnew
    cases hnew
  nodup_successors i := by
    rw [PointerGraph.successors_appended]
    exact h.nodup_successors i
  pointers_eq := by
    simp [PointerTables.append, h.pointers_eq, PointerGraph.pointers, PointerGraph.appended]
  lookup?_eq y := by
    rw [lookup?_append, PointerGraph.lookup?_appended hnew, h.length_eq, h.lookup?_eq]
  successors_eq := by simp [PointerTables.append, h.successors_eq, PointerGraph.appended]
  mem_edgeSet i j := by
    rw [PointerGraph.successors_appended]
    exact h.mem_edgeSet i j
  card_edgeSet := by
    have hcount : (g.appended x).edgeCount = g.edgeCount := by
      simp [PointerGraph.edgeCount_eq_sum, PointerGraph.appended]
    rw [hcount]
    exact h.card_edgeSet
  objects_eq := by simp [PointerTables.append, h.objects_eq, PointerGraph.appended]

/-- A pointer gets the same number in the tables and in the graph. -/
theorem Represents.intern (h : t.Represents g) (x : Pointer) :
    (t.intern x).1.Represents (g.intern x).1 ∧ (t.intern x).2 = (g.intern x).2 := by
  unfold PointerTables.intern PointerGraph.intern
  rw [h.lookup?_eq]
  cases hlookup : g.lookup? x with
  | some i => exact ⟨h, rfl⟩
  | none => exact ⟨h.append hlookup, h.length_eq⟩

/-- A new edge is entered in both tables for edges. -/
theorem Represents.addEdge (h : t.Represents g) (hi : i < t.pointerCount)
    (hj : j < t.pointerCount) : (t.addEdge i j).1.Represents (g.addEdge i j) := by
  by_cases hold : j ∈ g.successors i
  · rw [PointerTables.addEdge, if_pos ((h.mem_edgeSet i j).2 hold),
      PointerGraph.addEdge_of_mem hold]
    exact h
  · rw [pointerCount, h.length_eq] at hi hj
    have hset : (i, j) ∉ t.edgeSet := fun hmem => hold ((h.mem_edgeSet i j).1 hmem)
    have hsuccessors := PointerGraph.map_successors_addEdge_of_notMem hold
    rw [PointerTables.addEdge, if_neg hset]
    exact {
      wellFormed := h.wellFormed.addEdge hi hj
      nodup_successors := PointerGraph.nodup_successors_addEdge hi h.nodup_successors
      pointers_eq := by
        rw [PointerGraph.pointers_addEdge]
        exact h.pointers_eq
      lookup?_eq := fun x => by
        rw [PointerGraph.lookup?_congr PointerGraph.pointers_addEdge]
        exact h.lookup?_eq x
      successors_eq := by
        rw [hsuccessors, ← h.successors_eq]
      mem_edgeSet := fun k l => by
        rw [PointerGraph.mem_successors_addEdge hi, ← h.mem_edgeSet, Finset.mem_insert,
          Prod.mk.injEq, or_comm]
      card_edgeSet := by
        rw [PointerGraph.edgeCount_eq_sum, hsuccessors, sum_length_modify (by simpa using hi),
          ← PointerGraph.edgeCount_eq_sum, Finset.card_insert_of_notMem hset, h.card_edgeSet]
      objects_eq := by
        rw [PointerGraph.map_objects_addEdge]
        exact h.objects_eq }

theorem Represents.addObjects (h : t.Represents g) (i : PointerId) (objects : IdSet) :
    (t.addObjects i objects).Represents (g.addObjects i objects) where
  wellFormed := h.wellFormed.addObjects
  nodup_successors k := by
    rw [PointerGraph.successors_addObjects]
    exact h.nodup_successors k
  pointers_eq := by
    rw [PointerGraph.pointers_addObjects]
    exact h.pointers_eq
  lookup?_eq x := by
    rw [PointerGraph.lookup?_congr PointerGraph.pointers_addObjects]
    exact h.lookup?_eq x
  successors_eq := by
    rw [PointerGraph.map_successors_addObjects]
    exact h.successors_eq
  mem_edgeSet k l := by
    rw [PointerGraph.successors_addObjects]
    exact h.mem_edgeSet k l
  card_edgeSet := by
    rw [PointerGraph.edgeCount_eq_sum, PointerGraph.map_successors_addObjects,
      ← PointerGraph.edgeCount_eq_sum]
    exact h.card_edgeSet
  objects_eq := by
    rw [PointerGraph.map_objects_addObjects, ← h.objects_eq]
    rfl

/-- Tables stay in step with a graph to which the same is done. -/
theorem Built.represents (h : Built t g) : t.Represents g := by
  induction h with
  | empty => exact represents_empty
  | intern _ x ih => exact (ih.intern x).1
  | addEdge _ hi hj ih => exact ih.addEdge hi hj
  | addObjects _ _ objects ih => exact ih.addObjects _ objects

/-! ## What tables agree on -/

/-- All that a pointer changes that has not been mentioned before. -/
structure Appends (t t' : PointerTables) (x : Pointer) : Prop where
  /-- There is one pointer more. -/
  pointerCount_eq : t'.pointerCount = t.pointerCount + 1
  /-- The pointer has the next number, the others keep theirs. -/
  pointer?_eq : ∀ i, t'.pointer? i = if i = t.pointerCount then some x else t.pointer? i
  /-- It is found under its number, the others as before. -/
  lookup?_eq : ∀ y, t'.lookup? y = if y = x then some t.pointerCount else t.lookup? y
  /-- No edge is added to those that leave a pointer. -/
  successorsOf_eq : ∀ i, t'.successorsOf i = t.successorsOf i
  /-- No edge is added. -/
  hasEdge_eq : ∀ i j, t'.hasEdge i j = t.hasEdge i j
  /-- There are as many edges as before. -/
  edgeCount_eq : t'.edgeCount = t.edgeCount
  /-- No object is added. -/
  objectsOf_eq : ∀ i, t'.objectsOf i = t.objectsOf i

/-- The tables agree with each other. -/
structure Agree (t : PointerTables) : Prop where
  /-- Every number below their count is that of a pointer, which is found under it. -/
  exists_pointer? : ∀ i < t.pointerCount, ∃ x, t.pointer? i = some x ∧ t.lookup? x = some i
  /-- A pointer that is found has the number. -/
  pointer?_of_lookup? : ∀ x i, t.lookup? x = some i → i < t.pointerCount ∧ t.pointer? i = some x
  /-- A pointer that has been mentioned keeps its number, and nothing changes. -/
  intern_known : ∀ x i, t.lookup? x = some i → t.intern x = (t, i)
  /-- Any other pointer gets the next number, and nothing else changes. -/
  intern_new : ∀ x, t.lookup? x = none →
    (t.intern x).2 = t.pointerCount ∧ t.Appends (t.intern x).1 x
  /-- No edge is listed twice. -/
  nodup_successorsOf : ∀ i, (t.successorsOf i).Nodup
  /-- The edges that are found are those that are listed. -/
  mem_successorsOf_iff : ∀ i j, j ∈ t.successorsOf i ↔ t.hasEdge i j = true
  /-- The edges are counted. -/
  edgeCount_eq : t.edgeCount =
    ((List.range t.pointerCount).map fun i => (t.successorsOf i).length).sum
  /-- An edge is new if it is not there, and if it is there nothing changes. -/
  addEdge_iff : ∀ i j, ((t.addEdge i j).2 = true ↔ t.hasEdge i j = false) ∧
    ((t.addEdge i j).2 = false → (t.addEdge i j).1 = t)
  /-- It is there afterwards, and no other one is added. -/
  hasEdge_addEdge_iff : ∀ i j k l,
    (t.addEdge i j).1.hasEdge k l = true ↔ t.hasEdge k l = true ∨ k = i ∧ l = j

/-- An element that stands for nothing may be appended. -/
theorem getD_concat {α : Type} (xs : List α) (d : α) (i : Nat) :
    (xs ++ [d])[i]?.getD d = xs[i]?.getD d := by
  rcases Nat.lt_trichotomy i xs.length with h | rfl | h
  · rw [List.getElem?_append_left h]
  · simp
  · have hle : xs.length ≤ i := Nat.le_of_lt h
    have hlonger : (xs ++ [d]).length ≤ i := by
      rw [List.length_append]
      exact h
    rw [List.getElem?_eq_none hlonger, List.getElem?_eq_none hle]

theorem appends_append (t : PointerTables) (x : Pointer) : t.Appends (t.append x) x where
  pointerCount_eq := by simp [pointerCount, append]
  pointer?_eq i := by
    unfold pointer? append pointerCount
    dsimp only
    by_cases hi : i = t.pointers.length
    · subst hi
      simp
    · rw [if_neg hi]
      rcases Nat.lt_or_gt_of_ne hi with hlt | hgt
      · exact List.getElem?_append_left hlt
      · simp [Nat.le_of_lt hgt, hgt]
  lookup?_eq _ := lookup?_append
  successorsOf_eq i := getD_concat t.successors [] i
  hasEdge_eq _ _ := rfl
  edgeCount_eq := rfl
  objectsOf_eq i := getD_concat t.objects ∅ i

theorem addEdge_eq (t : PointerTables) (i j : PointerId) :
    ((t.addEdge i j).2 = true ↔ t.hasEdge i j = false) ∧
      ((t.addEdge i j).2 = false → (t.addEdge i j).1 = t) := by
  unfold addEdge hasEdge
  split
  · rename_i hold
    simp [hold]
  · rename_i hnew
    simp [hnew]

theorem hasEdge_addEdge {k l : PointerId} :
    (t.addEdge i j).1.hasEdge k l = true ↔ t.hasEdge k l = true ∨ k = i ∧ l = j := by
  unfold hasEdge addEdge
  rw [decide_eq_true_iff, decide_eq_true_iff]
  split
  · rename_i hold
    constructor
    · exact Or.inl
    · rintro (h | ⟨rfl, rfl⟩)
      · exact h
      · exact hold
  · rw [Finset.mem_insert, Prod.mk.injEq, or_comm]

theorem Represents.successorsOf_eq (h : t.Represents g) (i : PointerId) :
    t.successorsOf i = g.successors i := by
  rw [successorsOf, h.successors_eq, List.getElem?_map]
  rfl

theorem Represents.pointer?_eq (h : t.Represents g) (i : PointerId) :
    t.pointer? i = g.pointer? i := by
  rw [pointer?, h.pointers_eq, PointerGraph.pointer?_eq_getElem?]

/-- Lists at the positions of a list, one after the other. -/
theorem map_range_getD {α : Type} (ls : List (List α)) :
    (List.range ls.length).map (fun i => (ls[i]?.getD []).length) = ls.map List.length := by
  apply List.ext_getElem
  · simp
  · intro i hi hi'
    have hlt : i < ls.length := by simpa using hi'
    simp [hlt]

theorem Represents.agree (h : t.Represents g) : t.Agree where
  exists_pointer? i hi := by
    rw [pointerCount, h.length_eq] at hi
    obtain ⟨x, hx⟩ := PointerGraph.exists_pointer? hi
    refine ⟨x, (h.pointer?_eq i).trans hx, ?_⟩
    rw [h.lookup?_eq]
    exact h.wellFormed.lookup?_eq_some_iff.2 hx
  pointer?_of_lookup? x i hi := by
    rw [h.lookup?_eq, h.wellFormed.lookup?_eq_some_iff] at hi
    rw [pointerCount, h.length_eq, h.pointer?_eq]
    exact ⟨PointerGraph.lt_of_pointer? hi, hi⟩
  intern_known x i hi := by simp only [PointerTables.intern, hi]
  intern_new x hx := by
    simp only [PointerTables.intern, hx]
    exact ⟨rfl, appends_append t x⟩
  nodup_successorsOf i := by
    rw [h.successorsOf_eq]
    exact h.nodup_successors i
  mem_successorsOf_iff i j := by
    rw [h.successorsOf_eq, hasEdge, decide_eq_true_iff, h.mem_edgeSet]
  edgeCount_eq := by
    have hlength : t.pointerCount = t.successors.length := by
      rw [pointerCount, h.length_eq, h.successors_eq, List.length_map]
    unfold successorsOf
    rw [hlength, map_range_getD, edgeCount, h.card_edgeSet, PointerGraph.edgeCount_eq_sum,
      h.successors_eq]
  addEdge_iff := addEdge_eq t
  hasEdge_addEdge_iff _ _ _ _ := hasEdge_addEdge

/-- However pointers are mentioned and edges and objects are added for numbers that pointers have,
the tables answer as the graph does to which the same is done, they give the same number to a pointer
that is mentioned next and know in the same way whether an edge is new, and they agree with each
other. -/
theorem Built.tables_agree (h : Built t g) :
    t.Represents g ∧ (∀ x, (t.intern x).2 = (g.intern x).2) ∧
      (∀ i j, (t.addEdge i j).2 = !g.hasEdge i j) ∧ t.Agree := by
  have hrepresents := h.represents
  refine ⟨hrepresents, fun x => (hrepresents.intern x).2, fun i j => ?_, hrepresents.agree⟩
  have hsame : t.hasEdge i j = g.hasEdge i j :=
    decide_eq_decide.2 (hrepresents.mem_edgeSet i j)
  rw [← hsame, Bool.eq_iff_iff, (addEdge_eq t i j).1, Bool.not_eq_true']

/-- Two variables are mentioned, the first one again, and an edge between them is added. -/
theorem tables_agree_twoVars :
    ((((empty.intern (.var 0)).1.intern (.var 1)).1.intern (.var 0)).1.addEdge 0 1).1.Agree ∧
      ((((empty.intern (.var 0)).1.intern (.var 1)).1.intern (.var 0)).1.addEdge 0 1).1.edgeCount =
        1 := by
  have hnamed : Built (((empty.intern (.var 0)).1.intern (.var 1)).1.intern (.var 0)).1
      (((PointerGraph.empty.intern (.var 0)).1.intern (.var 1)).1.intern (.var 0)).1 :=
    ((Built.empty.intern (.var 0)).intern (.var 1)).intern (.var 0)
  have hbuilt := hnamed.addEdge (i := 0) (j := 1) (by decide +kernel) (by decide +kernel)
  exact ⟨hbuilt.tables_agree.2.2.2, by decide +kernel⟩

end PointerTables

end TacAnalysis
