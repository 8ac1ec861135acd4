import TacAnalysis.Program.Basic
import TacAnalysis.Search

/-!
# The class hierarchy

Direct subtypes of a class or interface, and all of its subtypes.
-/

namespace TacAnalysis.Program

variable (p : Program)

/-- The classes that name `c` as their superclass. -/
def subclasses (c : ClassId) : List ClassId :=
  (p.classes.filter (·.superclass = some c)).map (·.id)

/-- A class or interface once for every time that it lists `c` among its interfaces. -/
def listing (c : ClassId) (d : Class) : List ClassId := (d.interfaces.filter (· = c)).map fun _ => d.id

/-- The classes that implement `c` directly. -/
def implementors (c : ClassId) : List ClassId :=
  (p.classes.filter (!·.isInterface)).flatMap (listing c)

/-- The interfaces that extend `c` directly. -/
def subinterfaces (c : ClassId) : List ClassId :=
  (p.classes.filter (·.isInterface)).flatMap (listing c)

/-- The direct subtypes, in the order in which the search for subtypes takes them. -/
def directSubtypes (c : ClassId) : List ClassId :=
  p.subinterfaces c ++ p.implementors c ++ p.subclasses c

/-- All subtypes of `c` in order of discovery, with `c` itself first. -/
def subtypes (c : ClassId) : List ClassId :=
  Search.depthFirst p.directSubtypes p.classes.length [c]

end TacAnalysis.Program
