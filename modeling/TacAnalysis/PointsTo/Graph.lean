import TacAnalysis.SortedSet
import TacAnalysis.PointsTo.Heap

/-!
# Pointer flow

The places that hold references: variables, static fields, and per abstract object its
fields and the elements of an array, taken together. An edge of the pointer flow graph
says that whatever its source points to, its target may point to as well. Pointers are
numbered in the order in which they are first mentioned.
-/

namespace TacAnalysis

/-- A place that holds a reference. -/
inductive Pointer where
  | var (v : VarId)
  | staticField (f : FieldId)
  | instanceField (o : ObjId) (f : FieldId)
  /-- All elements of an array. -/
  | arrayIndex (o : ObjId)
  deriving DecidableEq, Inhabited

/-- The number of a pointer. -/
abbrev PointerId := Nat

/-- A numbered pointer, with the edges that leave it and the objects it points to. -/
structure PointerNode where
  /-- The pointer that has the number. -/
  pointer : Pointer
  /-- The targets of its edges, each once, in the order of their first mention. -/
  successors : List PointerId
  /-- The objects that it may point to. -/
  objects : IdSet

/-- The pointer flow graph. -/
structure PointerGraph where
  /-- The pointers, each at the position of its number. -/
  nodes : List PointerNode

namespace PointerGraph

/-- No pointer has been mentioned. -/
def empty : PointerGraph := ⟨[]⟩

variable (g : PointerGraph)

/-- The number of a pointer that has been mentioned. -/
def lookup? (x : Pointer) : Option PointerId := g.nodes.findIdx? (·.pointer = x)

/-- The graph in which a pointer has a number, and that number. -/
def intern (x : Pointer) : PointerGraph × PointerId :=
  match g.lookup? x with
  | some id => (g, id)
  | none => (⟨g.nodes ++ [⟨x, [], ∅⟩]⟩, g.nodes.length)

/-- The pointer of a number. -/
def pointer? (id : PointerId) : Option Pointer := g.nodes[id]?.map (·.pointer)

/-- The targets of the edges that leave a pointer. -/
def successors? (id : PointerId) : Option (List PointerId) := g.nodes[id]?.map (·.successors)

/-- The targets of the edges that leave a pointer, none if it has no number. -/
def successors (id : PointerId) : List PointerId := (g.successors? id).getD []

/-- The objects that a pointer points to, none if it has no number. -/
def objects (id : PointerId) : IdSet := (g.nodes[id]?.map (·.objects)).getD ∅

/-- Whether there is an edge. -/
def hasEdge (source target : PointerId) : Bool := decide (target ∈ g.successors source)

/-- Adds an edge, unless it is there already. -/
def addEdge (source target : PointerId) : PointerGraph :=
  if g.hasEdge source target then g
  else ⟨g.nodes.modify source fun n => { n with successors := n.successors ++ [target] }⟩

/-- Adds objects to those that a pointer points to. -/
def addObjects (id : PointerId) (objects : IdSet) : PointerGraph :=
  ⟨g.nodes.modify id fun n => { n with objects := n.objects.union objects }⟩

/-- How many pointers there are. -/
def pointerCount : Nat := g.nodes.length

/-- How many edges there are. -/
def edgeCount : Nat := g.nodes.foldl (fun count n => count + n.successors.length) 0

/-- The objects that a pointer points to, if it has been mentioned. -/
def pointsTo? (x : Pointer) : Option IdSet := (g.lookup? x).map g.objects

end PointerGraph

end TacAnalysis
