import TacAnalysis.Iterate
import TacAnalysis.Program.Hierarchy

/-!
# Finding the method that a call runs

Dispatch looks for a body from the class of the receiver upwards. A method reference is
looked up in its class, then in the superclasses, then in the interfaces of its class.
Both walk along superclass links. Nothing forbids a cycle of such links, and a walk on a
cycle that finds nothing never ends; `dispatchWithin?` and `declarationWithin?` say how
far the walk has come after a number of classes. `dispatch` and `superDeclaration` go on for
longer than any walk that ends, and on a cycle for longer than anyone waits.
-/

namespace TacAnalysis

/-- The method that the class declares with a subsignature. -/
def Class.declared? (c : Class) (subsignature : String) : Option MethodId :=
  (c.methods.find? (·.1 = subsignature)).map (·.2)

namespace Program

variable (p : Program)

/-- The superclass of a class. -/
def superclass? (c : ClassId) : Option ClassId := (p.class? c).bind (·.superclass)

/-- The interfaces that a class lists. -/
def interfaces (c : ClassId) : List ClassId := ((p.class? c).map (·.interfaces)).getD []

/-- The method with a subsignature that a class declares. -/
def declared? (c : ClassId) (subsignature : String) : Option MethodId :=
  (p.class? c).bind (·.declared? subsignature)

/-- The method with a body that a class declares. -/
def body? (c : ClassId) (subsignature : String) : Option MethodId :=
  (p.declared? c subsignature).filter (!p.isAbstract ·)

/-- Follows superclass links from `c` until `find` answers, over at most `steps`
classes; `none` if the walk has not ended by then. -/
def climbWithin? (find : ClassId → Option MethodId) : Nat → ClassId → Option (Option MethodId)
  | 0, _ => none
  | steps + 1, c =>
    match find c with
    | some m => some (some m)
    | none =>
      match p.superclass? c with
      | none => some none
      | some parent => climbWithin? find steps parent

/-- A number of classes that is enough for every walk that ends, and that no walk comes to in
practice. -/
def climbBound : Nat := ampleBudget + p.classes.length

/-- The search for a body, over at most `steps` classes. -/
def dispatchWithin? (steps : Nat) (c : ClassId) (subsignature : String) :
    Option (Option MethodId) :=
  p.climbWithin? (p.body? · subsignature) steps c

/-- The method with a body that an instance of `c` runs for a subsignature. -/
def dispatch (c : ClassId) (subsignature : String) : Option MethodId :=
  (p.dispatchWithin? p.climbBound c subsignature).getD none

/-- The search for a declaration along superclasses, over at most `steps` classes. -/
def declarationWithin? (steps : Nat) (c : ClassId) (subsignature : String) :
    Option (Option MethodId) :=
  p.climbWithin? (p.declared? · subsignature) steps c

/-- The declaration in the nearest class on the chain of superclasses. -/
def superDeclaration (c : ClassId) (subsignature : String) : Option MethodId :=
  (p.declarationWithin? p.climbBound c subsignature).getD none

/-- The interfaces reachable from those that `c` lists, in the order of the search:
the last one listed comes first. -/
def allInterfaces (c : ClassId) : List ClassId :=
  Search.depthFirst (fun d => (p.interfaces d).reverse) p.classes.length (p.interfaces c).reverse

/-- The declaration that a method reference names, with or without a body. -/
def resolveRef (ref : MethodRef) : Option MethodId :=
  match p.superDeclaration ref.owner ref.subsignature with
  | some m => some m
  | none => (p.allInterfaces ref.owner).findSome? (p.declared? · ref.subsignature)

/-- The method that a call runs, given the type of the object it is made on. Static
and special calls run what they name; virtual and interface calls dispatch on the class
of the object, and arrays have none. A dynamic call is not resolved. -/
def resolveCallee (receiver : Option Ty) (call : Invoke) : Option MethodId :=
  match call.kind with
  | .static => (p.resolveRef call.target).filter (!p.isAbstract ·)
  | .special => (p.resolveRef call.target).filter (!p.isAbstract ·)
  | .virtual => dispatchOn receiver
  | .interface => dispatchOn receiver
  | .dynamic => none
where
  /-- Dispatch on the class of the receiver. -/
  dispatchOn : Option Ty → Option MethodId
    | some (.object c) => p.dispatch c call.target.subsignature
    | _ => none

/-- Whether instances of exactly this class can exist. -/
def isInstantiable (c : ClassId) : Bool :=
  (p.class? c).any fun decl => !decl.isInterface && !decl.isAbstract

/-- The methods that instances of subtypes of `c` run for a subsignature, each once. -/
def dispatchTargets (c : ClassId) (subsignature : String) : List MethodId :=
  let found := ((p.subtypes c).filter p.isInstantiable).filterMap (p.dispatch · subsignature)
  found.foldl (fun targets m => if m ∈ targets then targets else targets ++ [m]) []

/-- The methods that a call may run, judged by the declared class alone. -/
def resolveByHierarchy (call : Invoke) : List MethodId :=
  match call.kind with
  | .static => (p.resolveCallee none call).toList
  | .special => (p.dispatch call.target.owner call.target.subsignature).toList
  | .virtual => p.dispatchTargets call.target.owner call.target.subsignature
  | .interface => p.dispatchTargets call.target.owner call.target.subsignature
  | .dynamic => []

end Program

end TacAnalysis
