import TacAnalysis.SortedSet

/-!
# Worklists

Waiting elements stand in a list, new ones at its end. The order of a worklist says
from which end the next one is taken. A worklist of nodes holds each node at most once;
a set of marks tells which nodes are waiting without a search through the list.
-/

namespace TacAnalysis

/-- Which waiting element comes next: the one that waits longest, or the newest. -/
inductive WorklistOrder where
  | fifo
  | lifo
  deriving DecidableEq, Inhabited

/-- Takes the next element from a list of waiting ones. -/
def WorklistOrder.take? {α : Type} (order : WorklistOrder) (waiting : List α) :
    Option (α × List α) :=
  match order, waiting with
  | _, [] => none
  | .fifo, x :: rest => some (x, rest)
  | .lifo, x :: rest => some ((x :: rest).getLast (by simp), (x :: rest).dropLast)

/-- There is a next element unless nothing is waiting. -/
@[simp] theorem WorklistOrder.take?_eq_none_iff {α : Type} {order : WorklistOrder}
    {waiting : List α} : order.take? waiting = none ↔ waiting = [] := by
  cases waiting <;> cases order <;> simp [take?]

/-- Taking the longest waiting element removes the head. -/
theorem WorklistOrder.take?_fifo {α : Type} {waiting rest : List α} {x : α} :
    fifo.take? waiting = some (x, rest) ↔ waiting = x :: rest := by
  cases waiting <;> simp [take?]

/-- Taking the newest element removes the last one. -/
theorem WorklistOrder.take?_lifo {α : Type} {waiting rest : List α} {x : α} :
    lifo.take? waiting = some (x, rest) ↔ waiting = rest ++ [x] := by
  cases waiting with
  | nil => simp [take?]
  | cons y ys =>
    simp only [take?, Option.some.injEq, Prod.mk.injEq]
    constructor
    · rintro ⟨rfl, rfl⟩
      exact (List.dropLast_concat_getLast (by simp)).symm
    · intro h
      simp [h]

/-- A worklist of nodes. -/
structure NodeWorklist where
  /-- The end from which nodes are taken. -/
  order : WorklistOrder
  /-- The waiting nodes. -/
  waiting : List Nat
  /-- A mark for each waiting node. -/
  marks : IdSet
  deriving DecidableEq

namespace NodeWorklist

/-- No node is waiting. -/
def empty (order : WorklistOrder) : NodeWorklist := ⟨order, [], ∅⟩

/-- Adds a node, unless it is waiting already. -/
def push (w : NodeWorklist) (n : Nat) : NodeWorklist :=
  if n ∈ w.marks then w else { w with waiting := w.waiting ++ [n], marks := w.marks.insert n }

/-- Adds nodes one after the other. -/
def pushAll (w : NodeWorklist) (ns : List Nat) : NodeWorklist := ns.foldl push w

/-- Takes the next node. -/
def pop? (w : NodeWorklist) : Option (Nat × NodeWorklist) :=
  (w.order.take? w.waiting).map fun (n, rest) =>
    (n, { w with waiting := rest, marks := w.marks.erase n })

end NodeWorklist

end TacAnalysis
