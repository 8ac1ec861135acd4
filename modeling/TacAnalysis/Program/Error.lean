import TacAnalysis.Program.Syntax

/-!
# Ill-formed programs

What can be wrong with a program, and how it is reported.
-/

namespace TacAnalysis

/-- A reason to refuse a program or a method. -/
inductive ProgramError where
  /-- A jump in `method` leaves its body of `length` statements. -/
  | jumpOutOfRange (method : String) (target : Nat) (length : Nat)
  | unknownVar (var : VarId)
  | unknownField (field : FieldId)
  | unknownClass (id : ClassId)
  | unknownMethod (method : MethodId)
  /-- A class declares one subsignature twice. -/
  | duplicateMethod (className : String) (subsignature : String)
  /-- A statement or signature of `method` names a variable of `owner`. -/
  | foreignVar (var : VarId) (owner : MethodId) (method : MethodId)
  /-- A call has a receiver and must not, or has none and must. -/
  | receiverMismatch (method : String) (index : Nat) (kind : CallKind)
  deriving DecidableEq

namespace ProgramError

/-- The name of the kind of error. -/
def kind : ProgramError → String
  | jumpOutOfRange .. => "JumpOutOfRange"
  | unknownVar _ => "UnknownVar"
  | unknownField _ => "UnknownField"
  | unknownClass _ => "UnknownClass"
  | unknownMethod _ => "UnknownMethod"
  | duplicateMethod .. => "DuplicateMethod"
  | foreignVar .. => "ForeignVar"
  | receiverMismatch .. => "ReceiverMismatch"

/-- The report. -/
def message : ProgramError → String
  | jumpOutOfRange method target length =>
    s!"Jump target {target} out of range in method {method} ({length} statements)"
  | unknownVar var => s!"Unknown variable VarId({var})"
  | unknownField field => s!"Unknown field FieldId({field})"
  | unknownClass cls => s!"Unknown class ClassId({cls})"
  | unknownMethod method => s!"Unknown method MethodId({method})"
  | duplicateMethod cls subsignature => s!"Duplicate method {subsignature} in class {cls}"
  | foreignVar var owner method =>
    s!"Variable VarId({var}) belongs to MethodId({owner}) but is used in MethodId({method})"
  | receiverMismatch method index kind =>
    s!"{kind.title} call at {method}:{index} has a mismatched receiver"

end ProgramError

end TacAnalysis
