import TacAnalysis.PointsTo.Graph
import TacAnalysis.Worklist

/-!
# Pending flow

Objects on their way to a pointer. Entries are not merged: the same pointer may wait
more than once, each time with the objects that caused it.
-/

namespace TacAnalysis

/-- Objects on their way to pointers. -/
structure Pending where
  /-- The end from which entries are taken. -/
  order : WorklistOrder
  /-- The waiting entries. -/
  entries : List (PointerId × IdSet)

namespace Pending

/-- Nothing is on its way. -/
def empty (order : WorklistOrder) : Pending := ⟨order, []⟩

variable (w : Pending)

/-- Sends objects on their way. -/
def add (target : PointerId) (objects : IdSet) : Pending :=
  { w with entries := w.entries ++ [(target, objects)] }

/-- Sends the same objects on their way to each of several pointers. -/
def addAll (targets : List PointerId) (objects : IdSet) : Pending :=
  { w with entries := w.entries ++ targets.map (·, objects) }

/-- Takes the next entry. -/
def pop? : Option ((PointerId × IdSet) × Pending) :=
  (w.order.take? w.entries).map fun (e, rest) => (e, { w with entries := rest })

/-- How many entries are waiting. -/
def size : Nat := w.entries.length

/-- Whether nothing is on its way. -/
def isEmpty : Bool := w.entries.isEmpty

end Pending

end TacAnalysis
