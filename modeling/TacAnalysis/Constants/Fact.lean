import TacAnalysis.Constants.Value
import TacAnalysis.IdMap

/-!
# Facts about constants

A fact says for each variable what is known about its value. Variables without a binding
are undefined, and binding a variable to "undefined" drops its binding.

Main statement: `get_update`, a lookup sees the new value and, elsewhere, the old fact.
-/

namespace TacAnalysis

/-- What is known about each variable at a point of the program. -/
structure ConstFact where
  /-- The bindings; a variable without one is undefined. -/
  values : IdMap Value
  deriving DecidableEq

namespace ConstFact

/-- Nothing is known of any variable. -/
def empty : ConstFact := ⟨∅⟩

instance : EmptyCollection ConstFact := ⟨empty⟩

instance : Inhabited ConstFact := ⟨empty⟩

variable (f : ConstFact)

/-- What is known about a variable. -/
def get (v : VarId) : Value := (f.values.get? v).getD .undefined

/-- Forgets a variable. -/
def remove (v : VarId) : ConstFact := ⟨f.values.erase v⟩

/-- Whether forgetting a variable changes the fact. -/
def removeChanges (v : VarId) : Bool := (f.values.get? v).isSome

/-- Binds a variable. -/
def update (v : VarId) : Value → ConstFact
  | .undefined => f.remove v
  | value => ⟨f.values.insert v value⟩

@[simp] theorem get_empty (v : VarId) : (∅ : ConstFact).get v = .undefined := rfl

/-- A forgotten variable is undefined, and all others are as before. -/
@[simp] theorem get_remove (v w : VarId) :
    (f.remove v).get w = if w = v then .undefined else f.get w := by
  simp only [get, remove, IdMap.get?_erase]
  split <;> rfl

/-- A bound variable has its new value, and all others are as before. -/
@[simp] theorem get_update (v w : VarId) (x : Value) :
    (f.update v x).get w = if w = v then x else f.get w := by
  cases x with
  | undefined => exact f.get_remove v w
  | constant c => simp only [get, update, IdMap.get?_insert]; split <;> rfl
  | nac => simp only [get, update, IdMap.get?_insert]; split <;> rfl

/-- Whether binding a variable changes the fact. -/
def updateChanges (v : VarId) : Value → Bool
  | .undefined => f.removeChanges v
  | value => decide (f.values.get? v ≠ some value)

/-- Replaces the fact by another, and tells whether they differ. -/
def copyFrom (other : ConstFact) : Bool × ConstFact :=
  if f = other then (false, f) else (true, other)

/-- The bindings in the order of variables. -/
def toList : List (VarId × Value) := f.values.toList

/-- How many variables are bound. -/
def size : Nat := f.values.size

/-- Whether no variable is bound. -/
def isEmpty : Bool := f.values.isEmpty

/-- The fact that bindings give when they are made in order. -/
def ofUpdates (bindings : List (VarId × Value)) : ConstFact :=
  bindings.foldl (fun f b => f.update b.1 b.2) ∅

/-- Joins a fact into `target`, variable by variable. -/
def meetInto (fact target : ConstFact) : ConstFact :=
  fact.toList.foldl (fun t b => t.update b.1 (b.2.meet (t.get b.1))) target

/-- The text of a fact: the bindings between braces, in the order of variables. -/
def text : String :=
  "\x7b" ++ ", ".intercalate (f.toList.map fun b => s!"v{b.1}=" ++ b.2.text) ++ "\x7d"

end ConstFact

end TacAnalysis
