import TacAnalysis.Program.Basic

/-!
# Abstract objects

The pointer analysis represents all objects that an allocation creates by one abstract
object. Which one, a heap model says.
-/

namespace TacAnalysis

/-- The number of an abstract object. -/
abbrev ObjId := Nat

/-- An abstract object. -/
structure Obj where
  /-- The object's number. -/
  id : ObjId
  /-- The allocation. -/
  site : Site
  /-- The allocated type, on whose class calls are dispatched. -/
  ty : Ty
  deriving DecidableEq, Inhabited

/-- The abstract objects of a program. -/
structure HeapModel where
  /-- All objects, each at the position of its number. -/
  objects : List Obj
  /-- The object that a statement allocates. -/
  objAt? : Site → Option ObjId

/-- The type of an object. -/
def HeapModel.ty? (h : HeapModel) (o : ObjId) : Option Ty := h.objects[o]?.map (·.ty)

/-- The type that a statement allocates. -/
def Stmt.allocated? : Stmt → Option Ty
  | .assign _ (.new ty) => some ty
  | _ => none

/-- The allocations of a program with their types, in program order. -/
def Program.allocations (p : Program) : List (Site × Ty) :=
  p.sites.filterMap fun e => e.2.allocated?.map (e.1, ·)

/-- The model with one object for each allocation, numbered in program order. -/
def HeapModel.bySite (p : Program) : HeapModel where
  objects := p.allocations.zipIdx.map fun e => ⟨e.2, e.1.1, e.1.2⟩
  objAt? site := p.allocations.findIdx? (·.1 = site)

end TacAnalysis
