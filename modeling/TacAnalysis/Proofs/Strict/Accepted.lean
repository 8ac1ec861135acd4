import TacAnalysis.Proofs.CallGraph.Grounded
import TacAnalysis.Proofs.PointsTo.Termination
import TacAnalysis.Proofs.Strict.PointsTo
import TacAnalysis.Proofs.Strict.SuperGraph

/-!
# Accepted programs never make an analysis fail

If declarations are accepted and superclass links form no cycle, all analyses of the program are
strict: each of them, made of lookups that fail outside their tables, gives what the analysis with
total lookups gives, however many turns a solver has taken. So nothing is ever looked up that is
not declared.

Main statement: `neverFails_of_accepted`.
-/

namespace TacAnalysis.Strict

/-- A method has a graph, and its analyses look up what is there. -/
structure MethodNeverFails (p : Program) (m : MethodId) (g : FlowGraph) : Prop where
  /-- The graph is built. -/
  ofProgram_eq : FlowGraph.ofProgram p m = .ok g
  /-- Constant propagation looks up what is there. -/
  constants_eq : ∀ order turns, (constants p g).solve? g order turns =
    some (stateAfter ((Constants.analysis p g).step g) turns
      ((Constants.analysis p g).start g order))
  /-- Liveness looks up what is there. -/
  liveness_eq : ∀ order turns, (liveness g).solve? g order turns =
    some (stateAfter ((Liveness.analysis g).step g) turns
      ((Liveness.analysis g).start g order))
  /-- Finding dead code looks up what is there, whatever facts it is given. -/
  detect_eq : ∀ constants live, detect? g constants live = some (DeadCode.detect g constants live)

/-- The control flow of the whole program is put together over a call graph, and its analysis looks
up what is there. -/
structure SuperNeverFails (p : Program) (calls : CallGraph) (g : SuperGraph) : Prop where
  /-- The graph is built. -/
  build_eq : SuperGraph.build p calls = .ok g
  /-- Building it looks up what is there. -/
  build?_eq : build? p calls = some (.ok g)
  /-- Constant propagation looks up what is there. -/
  constants_eq : ∀ order turns, solveProgram? p g order turns =
    some ((SuperAnalysis.entryNode? g).map fun entry =>
      stateAfter ((Constants.superAnalysis p g).step g) turns
        ((Constants.superAnalysis p g).start g entry order))

/-- No analysis of the program looks up what is not there. -/
structure NeverFails (p : Program) : Prop where
  /-- The analyses of single methods look up what is there. -/
  methods : ∀ m < p.methods.length, ∃ g, MethodNeverFails p m g
  /-- Class hierarchy analysis looks up what is there. -/
  hierarchy_eq : ofHierarchy? p = some (.ofHierarchy p)
  /-- Pointer analysis looks up what is there. -/
  pointsTo_eq : ∀ order steps, pointsTo? ⟨p, .bySite p, order⟩ steps =
    some (stateAfter (PointsToProblem.step ⟨p, .bySite p, order⟩) steps
      (PointsToProblem.begin ⟨p, .bySite p, order⟩ (PointsToProblem.initial ⟨p, .bySite p, order⟩)))
  /-- Pointer analysis ends. -/
  pointsTo_ends : ∀ order, ∃ budget s,
    PointsToProblem.run? ⟨p, .bySite p, order⟩ budget = some s
  /-- The analysis of the whole program looks up what is there, over each of its call graphs. -/
  supers : ∀ calls, CallGraph.BuiltFor p calls → ∃ g, SuperNeverFails p calls g

variable {p : Program}

/-- The analyses of a declared method look up what is there. -/
theorem exists_methodNeverFails (hp : p.WellFormed) {m : MethodId} (hm : m < p.methods.length) :
    ∃ g, MethodNeverFails p m g := by
  have hmethod : p.method? m = some p.methods[m] := List.getElem?_eq_getElem hm
  obtain ⟨g, hgraph, -⟩ := hp.exists_flowGraph hmethod
  obtain ⟨hg, hof⟩ := FlowGraph.wellFormed_of_ofProgram hgraph
  exact ⟨g, {
    ofProgram_eq := hgraph
    constants_eq := (constants_agrees hp hof).solve?_eq_some hg
    liveness_eq := (liveness_agrees g).solve?_eq_some hg
    detect_eq := detect?_eq_some hg }⟩

/-- The analysis of the whole program looks up what is there if the methods of the call graph are
declared. -/
theorem exists_superNeverFails (hp : p.WellFormed) {calls : CallGraph}
    (hlt : ∀ m ∈ calls.reachable, m < p.methods.length) : ∃ g, SuperNeverFails p calls g := by
  obtain ⟨g, hbuild⟩ := SuperGraph.exists_build hp hlt
  exact ⟨g, {
    build_eq := hbuild
    build?_eq := (build?_eq_some hlt).trans (congrArg some hbuild)
    constants_eq := solveProgram?_eq_some hp hbuild }⟩

/-- Accepted programs whose superclass links form no cycle never make an analysis fail. -/
theorem neverFails_of_accepted (hp : p.Accepted) (hacyclic : p.Acyclic) : NeverFails p where
  methods _ hm := exists_methodNeverFails hp.wellFormed hm
  hierarchy_eq := ofHierarchy?_eq_some hp hacyclic
  pointsTo_eq _ steps := pointsTo?_eq_some hp hacyclic (listsObjects_bySite hp) steps
  pointsTo_ends _ := PointsToProblem.exists_run? hp.wellFormed
  supers _ hcalls := exists_superNeverFails hp.wellFormed fun _ hm =>
    (hcalls.grounded hp.wellFormed).lt hp.wellFormed hm

/-- No analysis fails on methods that call each other. -/
theorem neverFails_echoing : PointsToProblem.echoing.Accepted ∧ PointsToProblem.echoing.Acyclic ∧
    NeverFails PointsToProblem.echoing :=
  ⟨PointsToProblem.accepted_echoing, PointsToProblem.acyclic_echoing,
    neverFails_of_accepted PointsToProblem.accepted_echoing PointsToProblem.acyclic_echoing⟩

end TacAnalysis.Strict
