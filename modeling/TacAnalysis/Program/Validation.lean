import TacAnalysis.Program.Builder
import TacAnalysis.Program.Error

/-!
# Accepting a program

`Builder.build` checks every reference of the declarations and then freezes them. The
checks run in a fixed order and the first violation is reported: the entry method, the
classes of methods and their subsignatures, superclasses and interfaces, and then each
method by itself. Of a frozen program the returned variables of each method and the
statements that go through each variable are computed once.
-/

namespace TacAnalysis

/-- How a statement goes through a variable. -/
inductive Access where
  | loadField | storeField | loadArray | storeArray | call
  deriving DecidableEq

/-- The variable that the statement goes through. -/
def Stmt.access? : Stmt → Option (VarId × Access)
  | .assign _ (.instanceField base _) => some (base, .loadField)
  | .assign _ (.arrayAccess base _) => some (base, .loadArray)
  | .storeField (some base) _ _ => some (base, .storeField)
  | .storeArray base _ _ => some (base, .storeArray)
  | .invoke call => call.receiver.map (·, .call)
  | _ => none

/-- Adds a statement to the list for its kind of access. -/
def RelatedStmts.add (r : RelatedStmts) (site : Site) : Access → RelatedStmts
  | .loadField => { r with loadFields := r.loadFields ++ [site] }
  | .storeField => { r with storeFields := r.storeFields ++ [site] }
  | .loadArray => { r with loadArrays := r.loadArrays ++ [site] }
  | .storeArray => { r with storeArrays := r.storeArrays ++ [site] }
  | .call => { r with invokes := r.invokes ++ [site] }

/-- Enters a statement into the index of statements by variable. -/
def addRelated (index : List RelatedStmts) (e : Site × Stmt) : List RelatedStmts :=
  match e.2.access? with
  | none => index
  | some (v, access) => index.modify v (·.add e.1 access)

namespace Builder

variable (b : Builder)

/-- The entry method has to be declared. -/
def checkEntry : Except ProgramError Unit :=
  match b.entry with
  | none => .ok ()
  | some m => if m < b.methods.length then .ok () else .error (.unknownMethod m)

/-- The class of every method has to be declared and to declare its subsignature once. -/
def checkDeclarations (earlier : List Method) : List Method → Except ProgramError Unit
  | [] => .ok ()
  | m :: rest =>
    match b.classes[m.owner]? with
    | none => .error (.unknownClass m.owner)
    | some c =>
      if earlier.any (fun e => e.owner = m.owner ∧ e.subsignature = m.subsignature) then
        .error (.duplicateMethod c.name m.subsignature)
      else checkDeclarations (earlier ++ [m]) rest

/-- The class has to be declared. -/
def checkClass (c : ClassId) : Except ProgramError Unit :=
  if c < b.classes.length then .ok () else .error (.unknownClass c)

/-- The superclass and the interfaces have to be declared. -/
def checkParents (c : Class) : Except ProgramError Unit :=
  (c.superclass.toList ++ c.interfaces).forM b.checkClass

/-- The variable has to be declared, and by the method that uses it. -/
def checkVar (method : MethodId) (v : VarId) : Except ProgramError Unit :=
  match b.vars[v]? with
  | none => .error (.unknownVar v)
  | some decl =>
    if decl.method = method then .ok () else .error (.foreignVar v decl.method method)

/-- The field has to be declared. -/
def checkField (f : FieldId) : Except ProgramError Unit :=
  if f < b.fields.length then .ok () else .error (.unknownField f)

/-- A class at the bottom of the type has to be declared. -/
def checkTy (ty : Ty) : Except ProgramError Unit :=
  match ty.innermost with
  | .object c => b.checkClass c
  | _ => .ok ()

/-- A jump has to stay in the body. -/
def checkTarget (m : Method) (target : Nat) : Except ProgramError Unit :=
  if target < m.stmts.length then .ok ()
  else .error (.jumpOutOfRange m.subsignature target m.stmts.length)

/-- A receiver has to be there exactly if the kind of call asks for one. -/
def checkReceiver (m : Method) (index : Nat) (call : Invoke) : Except ProgramError Unit :=
  match call.kind.needsReceiver with
  | none => .ok ()
  | some needed =>
    if needed = call.receiver.isSome then .ok ()
    else .error (.receiverMismatch m.subsignature index call.kind)

/-- Fields and classes that the statement names have to be declared. -/
def checkNames (m : Method) (index : Nat) : Stmt → Except ProgramError Unit
  | .assign _ (.instanceField _ f) => b.checkField f
  | .assign _ (.staticField f) => b.checkField f
  | .assign _ (.new ty) => b.checkTy ty
  | .assign _ (.cast ty _) => b.checkTy ty
  | .storeField _ f _ => b.checkField f
  | .invoke call => do
    b.checkClass call.target.owner
    checkReceiver m index call
  | _ => .ok ()

/-- Checks the statement at a position: variables, then jumps, then names. -/
def checkStmt (m : Method) (e : Stmt × Nat) : Except ProgramError Unit := do
  (e.1.uses ++ e.1.assigned?.toList).forM (b.checkVar m.id)
  e.1.jumpTargets.forM (checkTarget m)
  b.checkNames m e.2 e.1

/-- Checks the parameters and the body of a method. -/
def checkMethod (m : Method) : Except ProgramError Unit := do
  (m.params ++ m.thisVar.toList).forM (b.checkVar m.id)
  m.stmts.zipIdx.forM (b.checkStmt m)

/-- Checks all declarations. -/
def check : Except ProgramError Unit := do
  b.checkEntry
  b.checkDeclarations [] b.methods
  b.classes.forM b.checkParents
  b.methods.forM b.checkMethod

/-- The class with its declared methods filled in. -/
def closeClass (c : Class) : Class :=
  { c with methods := (b.methods.filter (·.owner = c.id)).map fun m => (m.subsignature, m.id) }

/-- The method with its returned variables filled in. -/
def closeMethod (m : Method) : Method := { m with returnVars := m.stmts.filterMap Stmt.returned? }

/-- The program that the declarations make up. -/
def freeze : Program where
  classes := b.classes.map b.closeClass
  methods := b.methods.map closeMethod
  vars := b.vars
  fields := b.fields
  entry := b.entry
  related := (b.methods.flatMap Method.sites).foldl addRelated
    (List.replicate b.vars.length RelatedStmts.none)

/-- The declared program, or the first reason to refuse it. -/
def build : Except ProgramError Program := do
  b.check
  return b.freeze

end Builder

end TacAnalysis
