import TacAnalysis.Constants.Propagation
import TacAnalysis.Solver.Inter

/-!
# Constant propagation in a whole program

Values pass from method to method along call and return edges only. A call edge binds
the parameters to the arguments, and a return edge binds the result of the call to what
the returned variables have in common. The step past a call forgets the result, because
the return edge defines it; if nothing is known to be called, the result can be anything.
-/

namespace TacAnalysis.Constants

variable (p : Program)

/-- What a call edge carries into a method. -/
def passArguments (site : Site) (callee : MethodId) (f : ConstFact) : ConstFact :=
  match (p.stmt? site).bind Stmt.call?, p.method? callee with
  | some call, some method =>
    (call.args.zip method.params).foldl
      (fun g b => if p.holdsInt b.2 then g.update b.2 (f.get b.1) else g) ∅
  | _, _ => ∅

/-- What is known about the value that a method returns. -/
def returnedValue (callee : MethodId) (f : ConstFact) : Value :=
  (((p.method? callee).map (·.returnVars)).getD []).foldl (fun v r => v.meet (f.get r)) .undefined

/-- What a return edge carries back to a call. -/
def passResult (site : Site) (callee : MethodId) (f : ConstFact) : ConstFact :=
  match (p.stmt? site).bind Stmt.assigned? with
  | some result =>
    if p.holdsInt result then ConstFact.empty.update result (returnedValue p callee f) else ∅
  | none => ∅

/-- What the step past a call carries; `resolved` tells whether a callee is known. -/
def bypass (site : Site) (resolved : Bool) (f : ConstFact) : ConstFact :=
  match (p.stmt? site).bind Stmt.assigned? with
  | some result =>
    if resolved || !p.holdsInt result then f.remove result else f.update result .nac
  | none => f

/-- Whether a callee is known for the call at a node. -/
def isResolved (g : SuperGraph) (n : Nat) : Bool :=
  (g.outEdges n).any fun e => match e.kind with
    | .call _ _ => true
    | _ => false

/-- What an edge carries, given the fact behind its source. -/
def along (g : SuperGraph) (e : SuperEdge) (f : ConstFact) : ConstFact :=
  match e.kind with
  | .normal _ => f
  | .callToReturn site => bypass p site (isResolved g e.source) f
  | .call site callee => passArguments p site callee f
  | .ret site callee => passResult p site callee f

/-- The transfer of a node; calls change nothing themselves. -/
def superTransfer (g : SuperGraph) (n : Nat) (input output : ConstFact) : Bool × ConstFact :=
  if g.isCall n then output.copyFrom input else transfer p (g.stmt? n) input output

/-- The fact at the entry of the program. -/
def superBoundary (g : SuperGraph) : ConstFact :=
  match (SuperAnalysis.entryNode? g).bind g.methodOf? with
  | some m => ((p.method? m).map (boundary p)).getD ∅
  | none => ∅

/-- Constant propagation on the control flow of a whole program. -/
def superAnalysis (g : SuperGraph) : SuperAnalysis ConstFact where
  boundary := superBoundary p g
  initial := ∅
  meet := ConstFact.meetInto
  transfer := superTransfer p g
  along := along p g

/-- The constants of a whole program over a call graph, if the solver takes at most
`budget` turns. -/
def solveProgram? (calls : CallGraph) (order : WorklistOrder) (budget : Nat) :
    Except ProgramError (SuperGraph × Option (FlowResult ConstFact)) := do
  let g ← SuperGraph.build p calls
  return (g, (superAnalysis p g).solve? g order budget)

end TacAnalysis.Constants
