import TacAnalysis.Program.Syntax

/-!
# Programs

A program is the closed world that every analysis reads: the declared classes, methods,
variables and fields, the entry method, and for each variable an index of the
statements that access memory or make a call through it.
-/

namespace TacAnalysis

/-- A local variable; parameters and the receiver `this` are variables too. -/
structure Var where
  /-- The variable's number. -/
  id : VarId
  /-- The variable's name; names need not differ. -/
  name : String
  /-- The declared type. -/
  ty : Ty
  /-- The only method that may use the variable. -/
  method : MethodId
  deriving DecidableEq, Inhabited

/-- A field of a class. -/
structure Field where
  /-- The field's number. -/
  id : FieldId
  /-- The field's name. -/
  name : String
  /-- The class that declares the field. -/
  owner : ClassId
  /-- The declared type. -/
  ty : Ty
  /-- Whether the class has the field, and not each of its instances. -/
  isStatic : Bool
  deriving DecidableEq, Inhabited

/-- A class or interface. -/
structure Class where
  /-- The class's number. -/
  id : ClassId
  /-- The class's name. -/
  name : String
  /-- The class that this one extends. -/
  superclass : Option ClassId
  /-- The implemented interfaces; of an interface, those that it extends. -/
  interfaces : List ClassId
  /-- Whether this is an interface. -/
  isInterface : Bool
  /-- Whether no instance is of exactly this class. -/
  isAbstract : Bool
  /-- The declared methods by subsignature, in declaration order. -/
  methods : List (String × MethodId)
  deriving DecidableEq, Inhabited

/-- A method with its body. -/
structure Method where
  /-- The method's number. -/
  id : MethodId
  /-- The simple name. -/
  name : String
  /-- The class that declares the method. -/
  owner : ClassId
  /-- Return type, name and parameter types; the key of dynamic dispatch. -/
  subsignature : String
  /-- Whether the method is called without a receiver. -/
  isStatic : Bool
  /-- Whether the method is declared without a body. -/
  isAbstract : Bool
  /-- The parameters, in order. -/
  params : List VarId
  /-- The variable that holds the receiver; static methods have none. -/
  thisVar : Option VarId
  /-- The body. -/
  stmts : List Stmt
  /-- The variables of the `return` statements, in body order. -/
  returnVars : List VarId
  deriving DecidableEq, Inhabited

/-- The statements that go through one variable, each list in program order. -/
structure RelatedStmts where
  /-- Loads of a field of the variable. -/
  loadFields : List Site
  /-- Stores to a field of the variable. -/
  storeFields : List Site
  /-- Loads of an element of the variable. -/
  loadArrays : List Site
  /-- Stores to an element of the variable. -/
  storeArrays : List Site
  /-- Calls on the variable. -/
  invokes : List Site
  deriving DecidableEq, Inhabited

namespace RelatedStmts

/-- No statement goes through the variable. -/
def none : RelatedStmts := ⟨[], [], [], [], []⟩

end RelatedStmts

/-- Each statement of a body with its site. -/
def Method.sites (m : Method) : List (Site × Stmt) :=
  m.stmts.zipIdx.map fun e => (⟨m.id, e.2⟩, e.1)

/-- The calls of a body with their sites. -/
def Method.calls (m : Method) : List (Site × Invoke) :=
  m.sites.filterMap fun e => e.2.call?.map (e.1, ·)

/-- A program. Every entity stands at the position that its identifier names. -/
structure Program where
  /-- The classes and interfaces. -/
  classes : List Class
  /-- The methods. -/
  methods : List Method
  /-- The variables of all methods. -/
  vars : List Var
  /-- The fields of all classes. -/
  fields : List Field
  /-- The method with which a run begins. -/
  entry : Option MethodId
  /-- For each variable, the statements that go through it. -/
  related : List RelatedStmts

namespace Program

variable (p : Program)

/-- The class of a number. -/
def class? (c : ClassId) : Option Class := p.classes[c]?

/-- The method of a number. -/
def method? (m : MethodId) : Option Method := p.methods[m]?

/-- The variable of a number. -/
def var? (v : VarId) : Option Var := p.vars[v]?

/-- The field of a number. -/
def field? (f : FieldId) : Option Field := p.fields[f]?

/-- The statement at a site. -/
def stmt? (s : Site) : Option Stmt := (p.method? s.method).bind (·.stmts[s.index]?)

/-- The statements that go through a variable. -/
def relatedTo (v : VarId) : RelatedStmts := p.related[v]?.getD .none

/-- Whether the variable is declared with a type of 32-bit integers. -/
def holdsInt (v : VarId) : Bool := (p.var? v).any (·.ty.holdsInt)

/-- Whether the method is declared without a body. -/
def isAbstract (m : MethodId) : Bool := (p.method? m).any (·.isAbstract)

/-- All statements, ordered by method and position. -/
def sites : List (Site × Stmt) := p.methods.flatMap Method.sites

/-- The first method with the given simple name in a class of the given name. -/
def findMethod (className methodName : String) : Option MethodId :=
  (p.methods.find? fun m =>
    m.name = methodName ∧ (p.class? m.owner).any (·.name = className)).map (·.id)

/-- The first variable of a method with the given name. -/
def findVar (method : MethodId) (name : String) : Option VarId :=
  (p.vars.find? fun v => v.method = method ∧ v.name = name).map (·.id)

end Program

end TacAnalysis
