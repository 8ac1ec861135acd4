/-!
# Finite sets in ascending order

A set over a linearly ordered type is kept as the strictly ascending list of its members.
Two sets with the same members are therefore equal as values, listing a set in order costs
nothing, and two sets are united in one pass over both lists.

Variables, abstract objects and graph nodes are all numbered densely, so sets of
identifiers serve as liveness facts and as points-to sets; gen/kill facts are sets of
integers.
-/

namespace TacAnalysis

open Std (IsLinearOrder LawfulOrderLT)

/-- A finite set over an ordered type, represented by its strictly ascending members. -/
structure SortedSet (α : Type) [LT α] where
  /-- The members in ascending order. -/
  elems : List α
  /-- Every member occurs once and before all larger ones. -/
  ascending : elems.Pairwise (· < ·)

/-- A finite set of identifiers. -/
abbrev IdSet := SortedSet Nat

namespace SortedSet

/-! ## Members -/

section Members

variable {α : Type} [LT α]

/-- Two sets are equal when their member lists are. -/
theorem ext_elems {s t : SortedSet α} (h : s.elems = t.elems) : s = t := by
  cases s; cases t; cases h; rfl

instance : Membership α (SortedSet α) := ⟨fun s x => x ∈ s.elems⟩

/-- Membership is membership in the list of members. -/
theorem mem_iff_mem_elems {x : α} {s : SortedSet α} : x ∈ s ↔ x ∈ s.elems := Iff.rfl

/-- The members in ascending order. -/
def toList (s : SortedSet α) : List α := s.elems

/-- How many members there are. -/
def size (s : SortedSet α) : Nat := s.elems.length

/-- Whether there are no members. -/
def isEmpty (s : SortedSet α) : Bool := s.elems.isEmpty

theorem isEmpty_iff {s : SortedSet α} : s.isEmpty = true ↔ ∀ x, ¬ x ∈ s := by
  simp [isEmpty, mem_iff_mem_elems, List.eq_nil_iff_forall_not_mem]

/-- The set without members. -/
def empty : SortedSet α := ⟨[], .nil⟩

instance : EmptyCollection (SortedSet α) := ⟨empty⟩

instance : Inhabited (SortedSet α) := ⟨empty⟩

@[simp] theorem not_mem_empty (x : α) : ¬ x ∈ (∅ : SortedSet α) := by
  simp [mem_iff_mem_elems, EmptyCollection.emptyCollection, empty]

/-- The set whose only member is `x`. -/
def singleton (x : α) : SortedSet α := ⟨[x], by simp⟩

@[simp] theorem mem_singleton {x y : α} : y ∈ singleton x ↔ y = x := by
  simp [mem_iff_mem_elems, singleton]

/-- The members that satisfy `p`. -/
def filter (p : α → Bool) (s : SortedSet α) : SortedSet α :=
  ⟨s.elems.filter p, s.ascending.filter p⟩

@[simp] theorem mem_filter {p : α → Bool} {x : α} {s : SortedSet α} :
    x ∈ s.filter p ↔ x ∈ s ∧ p x = true :=
  List.mem_filter

variable [DecidableEq α]

instance : DecidableEq (SortedSet α) := fun s t =>
  if h : s.elems = t.elems then isTrue (ext_elems h)
  else isFalse fun e => h (congrArg elems e)

instance (x : α) (s : SortedSet α) : Decidable (x ∈ s) :=
  inferInstanceAs (Decidable (x ∈ s.elems))

/-- The set without `x`. -/
def erase (x : α) (s : SortedSet α) : SortedSet α := s.filter (· ≠ x)

@[simp] theorem mem_erase {x y : α} {s : SortedSet α} : y ∈ s.erase x ↔ y ∈ s ∧ y ≠ x := by
  simp [erase]

/-- The members of `s` that are not in `t`. -/
def diff (s t : SortedSet α) : SortedSet α := s.filter (fun x => !decide (x ∈ t))

@[simp] theorem mem_diff {x : α} {s t : SortedSet α} : x ∈ s.diff t ↔ x ∈ s ∧ ¬ x ∈ t := by
  simp [diff]

/-- The members that both sets share. -/
def inter (s t : SortedSet α) : SortedSet α := s.filter (fun x => decide (x ∈ t))

@[simp] theorem mem_inter {x : α} {s t : SortedSet α} : x ∈ s.inter t ↔ x ∈ s ∧ x ∈ t := by
  simp [inter]

end Members

/-! ## Insertion into ascending lists, and their merging -/

section Lists

variable {α : Type} [LT α] [DecidableEq α] [DecidableLT α]

/-- Puts `x` at its place in an ascending list, unless it is already there. -/
def insertInto (x : α) : List α → List α
  | [] => [x]
  | y :: ys => if x < y then x :: y :: ys else if x = y then y :: ys else y :: insertInto x ys

@[simp] theorem mem_insertInto {x z : α} {ys : List α} :
    z ∈ insertInto x ys ↔ z = x ∨ z ∈ ys := by
  induction ys <;> grind [insertInto]

/-- What an ascending list holds below `x`, then `x`, then what `rest` makes of the
members above `x`. -/
def mergeHead (x : α) (rest : List α → List α) : List α → List α
  | [] => x :: rest []
  | y :: ys =>
    if x < y then x :: rest (y :: ys)
    else if x = y then x :: rest ys
    else y :: mergeHead x rest ys

/-- Merges two ascending lists; what both hold is kept once. -/
def merge : List α → List α → List α
  | [], ys => ys
  | x :: xs, ys => mergeHead x (merge xs) ys

theorem mem_mergeHead {x z : α} {xs ys : List α} {rest : List α → List α}
    (h : ∀ zs, z ∈ rest zs ↔ z ∈ xs ∨ z ∈ zs) :
    z ∈ mergeHead x rest ys ↔ z = x ∨ z ∈ xs ∨ z ∈ ys := by
  induction ys <;> grind [mergeHead]

@[simp] theorem mem_merge {z : α} {xs ys : List α} : z ∈ merge xs ys ↔ z ∈ xs ∨ z ∈ ys := by
  induction xs generalizing ys with
  | nil => simp [merge]
  | cons x xs ih => rw [merge, mem_mergeHead fun _ => ih, List.mem_cons, or_assoc]

end Lists

/-! ## Sets over a linear order -/

section Linear

variable {α : Type} [LT α] [LE α] [IsLinearOrder α] [LawfulOrderLT α]

/-- Strictly ascending lists with the same members are equal. -/
theorem eq_of_ascending : ∀ {xs ys : List α}, xs.Pairwise (· < ·) → ys.Pairwise (· < ·) →
    (∀ x, x ∈ xs ↔ x ∈ ys) → xs = ys
  | [], [], _, _, _ => rfl
  | [], y :: ys, _, _, h => absurd ((h y).2 (by simp)) (by simp)
  | x :: xs, [], _, _, h => absurd ((h x).1 (by simp)) (by simp)
  | x :: xs, y :: ys, hx, hy, h => by
    rw [List.pairwise_cons] at hx hy
    have hxy : x = y := by
      have h1 : x = y ∨ x ∈ ys := by simpa using (h x).1 (by simp)
      have h2 : y = x ∨ y ∈ xs := by simpa using (h y).2 (by simp)
      grind
    subst hxy
    refine congrArg (x :: ·) (eq_of_ascending hx.2 hy.2 fun z => ?_)
    have hz : z = x ∨ z ∈ xs ↔ z = x ∨ z ∈ ys := by simpa using h z
    grind

/-- Sets with the same members are equal. -/
@[ext] theorem ext {s t : SortedSet α} (h : ∀ x, x ∈ s ↔ x ∈ t) : s = t :=
  ext_elems (eq_of_ascending s.ascending t.ascending h)

variable [DecidableEq α] [DecidableLT α]

theorem insertInto_ascending {x : α} {ys : List α} (h : ys.Pairwise (· < ·)) :
    (insertInto x ys).Pairwise (· < ·) := by
  induction ys <;> grind [insertInto, mem_insertInto, List.pairwise_cons]

theorem mergeHead_ascending {x : α} {xs ys : List α} {rest : List α → List α}
    (hx : ∀ z ∈ xs, x < z) (hmem : ∀ {zs z}, z ∈ rest zs ↔ z ∈ xs ∨ z ∈ zs)
    (hrest : ∀ {zs}, zs.Pairwise (· < ·) → (rest zs).Pairwise (· < ·))
    (h : ys.Pairwise (· < ·)) : (mergeHead x rest ys).Pairwise (· < ·) := by
  induction ys with
  | nil => grind [mergeHead, List.pairwise_cons]
  | cons y ys ih =>
    have : ∀ z, z ∈ mergeHead x rest ys ↔ z = x ∨ z ∈ xs ∨ z ∈ ys :=
      fun _ => mem_mergeHead fun _ => hmem
    grind [mergeHead, List.pairwise_cons]

theorem merge_ascending {xs ys : List α} (hx : xs.Pairwise (· < ·)) (hy : ys.Pairwise (· < ·)) :
    (merge xs ys).Pairwise (· < ·) := by
  induction xs generalizing ys with
  | nil => exact hy
  | cons x xs ih =>
    rw [List.pairwise_cons] at hx
    exact mergeHead_ascending hx.1 mem_merge (ih hx.2) hy

/-- The set with `x` added. -/
def insert (x : α) (s : SortedSet α) : SortedSet α :=
  ⟨insertInto x s.elems, insertInto_ascending s.ascending⟩

@[simp] theorem mem_insert {x y : α} {s : SortedSet α} : y ∈ s.insert x ↔ y = x ∨ y ∈ s :=
  mem_insertInto

/-- The set with every value of a list added. -/
def insertAll (s : SortedSet α) (xs : List α) : SortedSet α := xs.foldl (fun s x => s.insert x) s

@[simp] theorem mem_insertAll {x : α} {s : SortedSet α} {xs : List α} :
    x ∈ s.insertAll xs ↔ x ∈ s ∨ x ∈ xs := by
  induction xs generalizing s with
  | nil => simp [insertAll]
  | cons y ys ih =>
    have : s.insertAll (y :: ys) = (s.insert y).insertAll ys := rfl
    rw [this, ih]
    simp only [mem_insert, List.mem_cons]
    grind

/-- The values of a list, in any order and with repetitions. -/
def ofList (xs : List α) : SortedSet α := empty.insertAll xs

@[simp] theorem mem_ofList {x : α} {xs : List α} : x ∈ ofList xs ↔ x ∈ xs := by
  have : ¬ x ∈ (empty : SortedSet α) := not_mem_empty x
  simp [ofList, this]

/-- The members of either set. -/
def union (s t : SortedSet α) : SortedSet α :=
  ⟨merge s.elems t.elems, merge_ascending s.ascending t.ascending⟩

@[simp] theorem mem_union {x : α} {s t : SortedSet α} : x ∈ s.union t ↔ x ∈ s ∨ x ∈ t :=
  mem_merge

end Linear

end SortedSet

end TacAnalysis
