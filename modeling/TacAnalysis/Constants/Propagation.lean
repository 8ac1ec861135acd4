import TacAnalysis.Constants.Fact
import TacAnalysis.Solver.Intra

/-!
# Constant propagation in one method

Only variables whose type holds 32-bit integers are tracked. Parameters can have any
value. An assignment binds its target to the value of its right-hand side; a call makes
its result not constant.
-/

namespace TacAnalysis

/-- The abstract value of a binary expression. -/
def evaluateBinary (e : BinaryExp) (f : ConstFact) : Value :=
  foldValues e.op (f.get e.lhs) (f.get e.rhs)

/-- The abstract value of a right-hand side. Whatever is read from memory or made by a
cast or an allocation is not constant. -/
def evaluate (exp : Exp) (f : ConstFact) : Value :=
  match exp with
  | .var source => f.get source
  | .intLiteral value => .constant value
  | .binary e => evaluateBinary e f
  | _ => .nac

namespace Constants

variable (p : Program)

/-- The fact at the entry of a method. -/
def boundary (m : Method) : ConstFact :=
  (m.params.filter p.holdsInt).foldl (fun f v => f.update v .nac) ∅

/-- What holds behind a statement, given what holds before it. -/
def applyStmt (stmt : Stmt) (f : ConstFact) : ConstFact :=
  match stmt with
  | .assign lhs rhs => if p.holdsInt lhs then f.update lhs (evaluate rhs f) else f
  | .invoke call =>
    match call.result with
    | some result => if p.holdsInt result then f.update result .nac else f
    | none => f
  | _ => f

/-- What holds behind a node; nodes without a statement change nothing. -/
def applyNode (stmt : Option Stmt) (f : ConstFact) : ConstFact :=
  match stmt with
  | some stmt => applyStmt p stmt f
  | none => f

/-- The transfer of a node: its new output, and whether it differs from the old one. -/
def transfer (stmt : Option Stmt) (input output : ConstFact) : Bool × ConstFact :=
  output.copyFrom (applyNode p stmt input)

/-- Constant propagation on the graph of a method. -/
def analysis (g : FlowGraph) : FlowAnalysis ConstFact where
  direction := .forward
  boundary := boundary p g.method
  initial := ∅
  meet := ConstFact.meetInto
  transfer n := transfer p (g.stmt? n)

/-- The constants of a method, if the solver takes at most `budget` turns. -/
def solve? (g : FlowGraph) (order : WorklistOrder) (budget : Nat) : Option (FlowResult ConstFact) :=
  (analysis p g).solve? g order budget

end Constants

end TacAnalysis
