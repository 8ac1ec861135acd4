import TacAnalysis.Program.Basic
import TacAnalysis.Text.Blank

/-!
# Declaring a program

A program is declared entity by entity. Every declaration gets the next number of its
kind, and references may be made before their target is declared; only
`Builder.build` checks them. The declarations are also reified as `Command`, so that
a whole construction is a list of commands.
-/

namespace TacAnalysis

/-- The simple name in a subsignature: the last word before the parameter list. -/
def simpleName (subsignature : String) : String :=
  let head := subsignature.toList.takeWhile (· ≠ '(')
  let word := (head.reverse.takeWhile (· ≠ ' ')).reverse
  String.ofList (Text.trim word)

/-- The declarations made so far. -/
structure Builder where
  /-- The classes and interfaces, in declaration order; their methods are not entered yet. -/
  classes : List Class
  /-- The methods, in declaration order; their returned variables are not entered yet. -/
  methods : List Method
  /-- The variables, in declaration order. -/
  vars : List Var
  /-- The fields, in declaration order. -/
  fields : List Field
  /-- The method chosen last as the one with which a run begins. -/
  entry : Option MethodId

namespace Builder

/-- Nothing is declared yet. -/
def empty : Builder := ⟨[], [], [], [], none⟩

/-- Declares a class or interface. -/
def addClass (b : Builder) (name : String) (superclass : Option ClassId)
    (interfaces : List ClassId) (isInterface isAbstract : Bool) : Builder × ClassId :=
  let id := b.classes.length
  ({ b with classes := b.classes ++ [⟨id, name, superclass, interfaces, isInterface, isAbstract, []⟩] },
    id)

/-- Declares a field. -/
def addField (b : Builder) (owner : ClassId) (name : String) (ty : Ty) (isStatic : Bool) :
    Builder × FieldId :=
  let id := b.fields.length
  ({ b with fields := b.fields ++ [⟨id, name, owner, ty, isStatic⟩] }, id)

/-- Declares a variable of a method, which need not be declared yet. -/
def addVar (b : Builder) (method : MethodId) (name : String) (ty : Ty) : Builder × VarId :=
  let id := b.vars.length
  ({ b with vars := b.vars ++ [⟨id, name, ty, method⟩] }, id)

/-- Changes the declaration of a method. -/
def modifyMethod (b : Builder) (method : MethodId) (f : Method → Method) : Builder :=
  { b with methods := b.methods.modify method f }

/-- Declares a method with an empty body. One that is not static gets the variable
`this`, whose type is the declaring class. -/
def addMethod (b : Builder) (owner : ClassId) (subsignature : String)
    (isStatic isAbstract : Bool) : Builder × MethodId :=
  let id := b.methods.length
  let method : Method :=
    { id, name := simpleName subsignature, owner, subsignature, isStatic, isAbstract,
      params := [], thisVar := none, stmts := [], returnVars := [] }
  let b := { b with methods := b.methods ++ [method] }
  if isStatic then (b, id)
  else
    let (b, self) := b.addVar id "this" (.object owner)
    (b.modifyMethod id ({ · with thisVar := some self }), id)

/-- Declares the next parameter of a declared method. -/
def addParam? (b : Builder) (method : MethodId) (name : String) (ty : Ty) :
    Option (Builder × VarId) :=
  if method < b.methods.length then
    let (b, var) := b.addVar method name ty
    some (b.modifyMethod method (fun m => { m with params := m.params ++ [var] }), var)
  else none

/-- The variable `this` of a method. -/
def thisVar (b : Builder) (method : MethodId) : Option VarId :=
  b.methods[method]?.bind (·.thisVar)

/-- The position that the next statement of a declared method will have. -/
def nextIndex? (b : Builder) (method : MethodId) : Option Nat :=
  b.methods[method]?.map (·.stmts.length)

/-- Appends a statement to the body of a declared method. -/
def pushStmt? (b : Builder) (method : MethodId) (stmt : Stmt) : Option (Builder × Nat) := do
  let index ← b.nextIndex? method
  return (b.modifyMethod method (fun m => { m with stmts := m.stmts ++ [stmt] }), index)

/-- Replaces a statement that is already there. -/
def setStmt? (b : Builder) (method : MethodId) (index : Nat) (stmt : Stmt) : Option Builder := do
  let next ← b.nextIndex? method
  if index < next then
    return b.modifyMethod method (fun m => { m with stmts := m.stmts.set index stmt })
  else none

/-- Appends statements one after the other. -/
def pushStmts? (b : Builder) (method : MethodId) : List Stmt → Option (Builder × List Nat)
  | [] => some (b, [])
  | stmt :: rest => do
    let (b, index) ← b.pushStmt? method stmt
    let (b, indices) ← b.pushStmts? method rest
    return (b, index :: indices)

/-- Chooses the method with which a run begins. -/
def setEntry (b : Builder) (method : MethodId) : Builder := { b with entry := some method }

end Builder

/-- One step in the construction of a program. -/
inductive Command where
  | addClass (name : String) (superclass : Option ClassId) (interfaces : List ClassId)
  | addAbstractClass (name : String) (superclass : Option ClassId) (interfaces : List ClassId)
  | addInterface (name : String) (interfaces : List ClassId)
  | addField (owner : ClassId) (name : String) (ty : Ty) (isStatic : Bool)
  | addMethod (owner : ClassId) (subsignature : String) (isStatic : Bool)
  | addAbstractMethod (owner : ClassId) (subsignature : String)
  | addVar (method : MethodId) (name : String) (ty : Ty)
  | addParam (method : MethodId) (name : String) (ty : Ty)
  | thisVar (method : MethodId)
  | pushStmt (method : MethodId) (stmt : Stmt)
  | pushStmts (method : MethodId) (stmts : List Stmt)
  | nextIndex (method : MethodId)
  | setStmt (method : MethodId) (index : Nat) (stmt : Stmt)
  | setEntry (method : MethodId)

/-- What a command answers. -/
inductive Reply where
  /-- The number of a new entity, or a position in a body. -/
  | number (n : Nat)
  /-- The variable `this`, if there is one. -/
  | optional (v : Option VarId)
  /-- The positions of new statements. -/
  | numbers (ns : List Nat)
  /-- Nothing. -/
  | done
  deriving DecidableEq

namespace Builder

/-- Obeys a command; `none` if it names a method or position that is not there. -/
def apply (b : Builder) : Command → Option (Builder × Reply)
  | .addClass name superclass interfaces =>
    some ((b.addClass name superclass interfaces false false).map id .number)
  | .addAbstractClass name superclass interfaces =>
    some ((b.addClass name superclass interfaces false true).map id .number)
  | .addInterface name interfaces =>
    some ((b.addClass name none interfaces true true).map id .number)
  | .addField owner name ty isStatic => some ((b.addField owner name ty isStatic).map id .number)
  | .addMethod owner subsignature isStatic =>
    some ((b.addMethod owner subsignature isStatic false).map id .number)
  | .addAbstractMethod owner subsignature =>
    some ((b.addMethod owner subsignature false true).map id .number)
  | .addVar method name ty => some ((b.addVar method name ty).map id .number)
  | .addParam method name ty => (b.addParam? method name ty).map (·.map id .number)
  | .thisVar method => some (b, .optional (b.thisVar method))
  | .pushStmt method stmt => (b.pushStmt? method stmt).map (·.map id .number)
  | .pushStmts method stmts => (b.pushStmts? method stmts).map (·.map id .numbers)
  | .nextIndex method => (b.nextIndex? method).map (b, .number ·)
  | .setStmt method index stmt => (b.setStmt? method index stmt).map (·, .done)
  | .setEntry method => some (b.setEntry method, .done)

/-- Obeys commands in order, as long as they can be obeyed: the replies, and the
builder at the end if all of them could. -/
def run (b : Builder) : List Command → List Reply × Option Builder
  | [] => ([], some b)
  | c :: rest =>
    match b.apply c with
    | none => ([], none)
    | some (b, reply) =>
      let (replies, last) := b.run rest
      (reply :: replies, last)

end Builder

end TacAnalysis
