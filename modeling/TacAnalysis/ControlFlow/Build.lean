import TacAnalysis.ControlFlow.Graph
import TacAnalysis.Program.Error

/-!
# Control flow of a method

Each kind of statement prescribes its edges. A body need not have been checked before:
the first jump that leaves it, in program order, is reported.
-/

namespace TacAnalysis.FlowGraph

/-- The node of a jump target, if it is in a body of `length` statements. -/
def target (m : Method) (index : Nat) : Except ProgramError NodeId :=
  if index < m.stmts.length then .ok (index + 1)
  else .error (.jumpOutOfRange m.subsignature index m.stmts.length)

/-- The node behind the statement at a position: the next statement, or the exit. -/
def nextNode (length index : Nat) : NodeId :=
  if index + 1 < length then index + 2 else length + 1

/-- The edges that leave the statement at a position. -/
def stmtEdges (m : Method) (stmt : Stmt) (index : Nat) : Except ProgramError (List FlowEdge) :=
  let source := index + 1
  let next := nextNode m.stmts.length index
  match stmt with
  | .goto t => do return [⟨source, ← target m t, .goto⟩]
  | .branch _ t => do return [⟨source, ← target m t, .ifTrue⟩, ⟨source, next, .ifFalse⟩]
  | .switch _ cases default => do
    let caseEdges ← cases.mapM fun c => do return ⟨source, ← target m c.2, .switchCase c.1⟩
    return caseEdges ++ [⟨source, ← target m default, .switchDefault⟩]
  | .ret _ => .ok [⟨source, m.stmts.length + 1, .ret⟩]
  | _ => .ok [⟨source, next, .fallThrough⟩]

/-- The edge from the entry to the first statement, or to the exit of an empty body. -/
def entryEdge (m : Method) : FlowEdge := ⟨0, if m.stmts.isEmpty then m.stmts.length + 1 else 1, .entry⟩

/-- The graph of a method. -/
def ofMethod (m : Method) : Except ProgramError FlowGraph := do
  let edges ← m.stmts.zipIdx.mapM fun e => stmtEdges m e.1 e.2
  return ⟨m, entryEdge m :: edges.flatten⟩

/-- The graph of a method of a program. -/
def ofProgram (p : Program) (m : MethodId) : Except ProgramError FlowGraph :=
  match p.method? m with
  | none => .error (.unknownMethod m)
  | some method => ofMethod method

end TacAnalysis.FlowGraph
