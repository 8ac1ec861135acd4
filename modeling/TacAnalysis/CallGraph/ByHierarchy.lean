import TacAnalysis.CallGraph.Basic
import TacAnalysis.Program.Resolution

/-!
# The call graph of the class hierarchy

From the entry method on, every call of a reachable method may run whatever the class
hierarchy allows. Methods are discovered breadth first.
-/

namespace TacAnalysis

namespace Program

variable (p : Program)

/-- The calls of a method, resolved by the class hierarchy. -/
def hierarchyCalls (m : MethodId) : List CallEdge :=
  match p.method? m with
  | none => []
  | some method => method.calls.flatMap fun e =>
    (p.resolveByHierarchy e.2).map fun callee => ⟨e.2.kind, ⟨m, e.1.index⟩, callee⟩

/-- The methods that runs from `entry` can reach. -/
def hierarchyReachable (entry : MethodId) : List MethodId :=
  Search.breadthFirst (fun m => (p.hierarchyCalls m).map (·.callee)) p.methods.length [entry]

end Program

/-- The call graph of a program by its class hierarchy; empty if there is no entry. -/
def CallGraph.ofHierarchy (p : Program) : CallGraph :=
  match p.entry with
  | none => .empty
  | some entry =>
    let reachable := p.hierarchyReachable entry
    (reachable.flatMap p.hierarchyCalls).foldl CallGraph.addEdge ⟨[entry], reachable, []⟩

end TacAnalysis
