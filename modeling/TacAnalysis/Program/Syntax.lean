/-!
# Three-address code

Statements read variables, compute one operation and write at most one variable. A
method body is a list of statements; jump targets are positions in that list. Classes,
methods, variables and fields are named by dense identifiers.
-/

namespace TacAnalysis

/-- The number of a class or interface. -/
abbrev ClassId := Nat

/-- The number of a method. -/
abbrev MethodId := Nat

/-- The number of a variable; numbers are global, but each variable has one method. -/
abbrev VarId := Nat

/-- The number of a field. -/
abbrev FieldId := Nat

/-- A statement, by its method and its position in the body. -/
structure Site where
  /-- The method whose body holds the statement. -/
  method : MethodId
  /-- The position in that body. -/
  index : Nat
  deriving DecidableEq, Inhabited

/-- The type of a variable, field or allocation. -/
inductive Ty where
  | boolean
  | byte
  | short
  | char
  | int
  | long
  | float
  | double
  | void
  | null
  /-- Instances of a class or interface. -/
  | object (id : ClassId)
  | array (element : Ty)
  deriving DecidableEq, Inhabited

namespace Ty

/-- Whether values of the type are 32-bit integers. -/
def holdsInt : Ty → Bool
  | boolean => true
  | byte => true
  | short => true
  | char => true
  | int => true
  | _ => false

/-- Whether values of the type are references. -/
def isReference : Ty → Bool
  | .object _ => true
  | .array _ => true
  | .null => true
  | _ => false

/-- The type that is left when all array constructors are taken away. -/
def innermost : Ty → Ty
  | .array element => element.innermost
  | ty => ty

end Ty

/-- A binary operator. -/
inductive BinaryOp where
  | add | sub | mul | div | rem
  | eq | ne | lt | gt | le | ge
  | shl | shr | ushr
  | and | or | xor
  deriving DecidableEq, Inhabited

namespace BinaryOp

/-- Whether the operator fails on a zero right operand. -/
def isDivision : BinaryOp → Bool
  | div => true
  | rem => true
  | _ => false

/-- Whether the operator is a comparison. -/
def isComparison : BinaryOp → Bool
  | eq => true
  | ne => true
  | lt => true
  | gt => true
  | le => true
  | ge => true
  | _ => false

/-- The operator's sign. -/
def symbol : BinaryOp → String
  | add => "+"
  | sub => "-"
  | mul => "*"
  | div => "/"
  | rem => "%"
  | eq => "=="
  | ne => "!="
  | lt => "<"
  | gt => ">"
  | le => "<="
  | ge => ">="
  | shl => "<<"
  | shr => ">>"
  | ushr => ">>>"
  | and => "&"
  | or => "|"
  | xor => "^"

end BinaryOp

/-- An operator applied to two variables. -/
structure BinaryExp where
  /-- The operator. -/
  op : BinaryOp
  /-- The left operand. -/
  lhs : VarId
  /-- The right operand. -/
  rhs : VarId
  deriving DecidableEq, Inhabited

/-- The right-hand side of an assignment. -/
inductive Exp where
  | var (source : VarId)
  | intLiteral (value : Int32)
  | nullLiteral
  | stringLiteral (value : String)
  | binary (exp : BinaryExp)
  /-- An allocation; each occurrence is an allocation site of its own. -/
  | new (ty : Ty)
  | cast (ty : Ty) (operand : VarId)
  | instanceField (base : VarId) (field : FieldId)
  | staticField (field : FieldId)
  | arrayAccess (base : VarId) (index : VarId)
  | arrayLength (base : VarId)
  deriving DecidableEq, Inhabited

namespace Exp

/-- The variables that evaluation reads. -/
def uses : Exp → List VarId
  | var source => [source]
  | binary exp => [exp.lhs, exp.rhs]
  | cast _ operand => [operand]
  | instanceField base _ => [base]
  | arrayAccess base index => [base, index]
  | arrayLength base => [base]
  | _ => []

/-- Whether evaluation neither touches the heap nor can fail. Allocations touch the
heap; casts, field and array accesses may fail, and so may division and remainder. -/
def isPure : Exp → Bool
  | var _ => true
  | intLiteral _ => true
  | nullLiteral => true
  | stringLiteral _ => true
  | binary exp => !exp.op.isDivision
  | _ => false

end Exp

/-- How a call site selects its callee. -/
inductive CallKind where
  | static | special | virtual | interface | dynamic
  deriving DecidableEq, Inhabited

namespace CallKind

/-- Whether a call of this kind must have a receiver; `none` if it may have one. -/
def needsReceiver : CallKind → Option Bool
  | static => some false
  | special => some true
  | virtual => some true
  | interface => some true
  | dynamic => none

/-- The kind's name in messages. -/
def title : CallKind → String
  | static => "Static"
  | special => "Special"
  | virtual => "Virtual"
  | interface => "Interface"
  | dynamic => "Dynamic"

/-- The place of the kind in listings. -/
def rank : CallKind → Nat
  | static => 0
  | special => 1
  | virtual => 2
  | interface => 3
  | dynamic => 4

end CallKind

/-- A method named by a class and a subsignature, such as `int get(int)`. -/
structure MethodRef where
  /-- The class in which the search for the declaration begins. -/
  owner : ClassId
  /-- Return type, name and parameter types. -/
  subsignature : String
  deriving DecidableEq, Inhabited

/-- A call. -/
structure Invoke where
  /-- How the callee is selected. -/
  kind : CallKind
  /-- The method that the call names. -/
  target : MethodRef
  /-- The object on which the method is called. -/
  receiver : Option VarId
  /-- The arguments, in order. -/
  args : List VarId
  /-- The variable that takes the returned value. -/
  result : Option VarId
  deriving DecidableEq, Inhabited

/-- A statement. -/
inductive Stmt where
  | nop
  | assign (lhs : VarId) (rhs : Exp)
  /-- A store to a field of `base`, or to a static field if there is none. -/
  | storeField (base : Option VarId) (field : FieldId) (value : VarId)
  | storeArray (base : VarId) (index : VarId) (value : VarId)
  | invoke (call : Invoke)
  /-- Jumps if the condition holds and goes on with the next statement otherwise. -/
  | branch (condition : BinaryExp) (target : Nat)
  | goto (target : Nat)
  | switch (selector : VarId) (cases : List (Int32 × Nat)) (default : Nat)
  | ret (value : Option VarId)
  deriving DecidableEq, Inhabited

namespace Stmt

/-- The variable that the statement writes. -/
def assigned? : Stmt → Option VarId
  | assign lhs _ => some lhs
  | invoke call => call.result
  | _ => none

/-- The variables that the statement reads, in order and with repetitions. -/
def uses : Stmt → List VarId
  | assign _ rhs => rhs.uses
  | storeField base _ value => base.toList ++ [value]
  | storeArray base index value => [base, index, value]
  | invoke call => call.receiver.toList ++ call.args
  | branch condition _ => [condition.lhs, condition.rhs]
  | switch selector _ _ => [selector]
  | ret value => value.toList
  | _ => []

/-- The positions to which the statement may jump. -/
def jumpTargets : Stmt → List Nat
  | branch _ target => [target]
  | goto target => [target]
  | switch _ cases default => cases.map (·.2) ++ [default]
  | _ => []

/-- The call, if the statement is one. -/
def call? : Stmt → Option Invoke
  | invoke call => some call
  | _ => none

@[simp] theorem call?_eq_some_iff {stmt : Stmt} {call : Invoke} :
    stmt.call? = some call ↔ stmt = .invoke call := by
  cases stmt <;> simp [call?]

/-- The variable whose value the statement returns. -/
def returned? : Stmt → Option VarId
  | ret value => value
  | _ => none

/-- Whether the statement is a call. -/
def isCall (s : Stmt) : Bool := s.call?.isSome

end Stmt

end TacAnalysis
