import Mathlib.Order.Bounds.Defs
import TacAnalysis.Proofs.Program.Queries

/-!
# Discovering what calls reach

The call graph of the class hierarchy is made while methods are discovered: each turn takes a
pending method, and the calls of a method that is new are entered and their callees become pending,
whether they are known or not. Between two turns the graph holds the methods that have been taken
and exactly their calls. So the discovery is the search for what calls reach, with the calls noted
on the way, and it ends with the least set of methods that is closed under calls.

Main statements: `iterate?_of_visitWithin?` and `ofHierarchy_exact`.
-/

namespace TacAnalysis

open Relation

/-- A call graph in the making. -/
structure Discovery where
  /-- What has been entered. -/
  graph : CallGraph
  /-- The methods that wait for their turn, the next one first. -/
  pending : List MethodId

namespace Discovery

variable {p : Program} {entry : MethodId}

/-- Only the entry method is known, and it is pending. -/
def start (entry : MethodId) : Discovery := ⟨CallGraph.empty.addEntry entry, [entry]⟩

/-- Enters a call, and its callee waits behind all others. -/
def record (s : Discovery) (e : CallEdge) : Discovery := ⟨s.graph.addEdge e, s.pending ++ [e.callee]⟩

/-- One turn: a method that is new is entered with all its calls. -/
def turn? (p : Program) (s : Discovery) : Option Discovery :=
  match s.pending with
  | [] => none
  | m :: pending =>
    if s.graph.contains m then some ⟨s.graph, pending⟩
    else some ((p.hierarchyCalls m).foldl record ⟨s.graph.addReachable m, pending⟩)

/-! ## One turn -/

/-- The methods that a method calls, once for each call and callee. -/
def callees (p : Program) (m : MethodId) : List MethodId := (p.hierarchyCalls m).map (·.callee)

/-- The graph between two turns: the methods that have been taken and their calls. -/
def graphOf (p : Program) (entry : MethodId) (taken : List MethodId) : CallGraph :=
  (taken.flatMap p.hierarchyCalls).foldl CallGraph.addEdge ⟨[entry], taken, []⟩

theorem reachable_graphOf (taken : List MethodId) : (graphOf p entry taken).reachable = taken := by
  rw [graphOf, CallGraph.foldl_addEdge_eq]

/-- Calls are entered and their callees become pending. -/
theorem foldl_record (es : List CallEdge) (s : Discovery) : es.foldl record s =
    ⟨es.foldl CallGraph.addEdge s.graph, s.pending ++ es.map (·.callee)⟩ := by
  induction es generalizing s with
  | nil => simp
  | cons e es ih =>
    rw [List.foldl_cons, ih]
    simp [record]

/-- Methods and calls are entered in separate lists. -/
theorem addReachable_foldl_addEdge (es : List CallEdge) (g : CallGraph) (m : MethodId) :
    (es.foldl CallGraph.addEdge g).addReachable m =
      es.foldl CallGraph.addEdge (g.addReachable m) := by
  rw [CallGraph.foldl_addEdge_eq, CallGraph.foldl_addEdge_eq]
  rfl

/-- A method that has been taken is skipped. -/
theorem turn?_of_mem {taken pending : List MethodId} {m : MethodId} (hm : m ∈ taken) :
    turn? p ⟨graphOf p entry taken, m :: pending⟩ = some ⟨graphOf p entry taken, pending⟩ := by
  have hcontains : (graphOf p entry taken).contains m = true := by
    rwa [CallGraph.contains, decide_eq_true_eq, reachable_graphOf]
  simp only [turn?, if_pos hcontains]

/-- A method that has not been taken is entered with its calls. -/
theorem turn?_of_not_mem {taken pending : List MethodId} {m : MethodId} (hm : m ∉ taken) :
    turn? p ⟨graphOf p entry taken, m :: pending⟩ =
      some ⟨graphOf p entry (taken ++ [m]), pending ++ callees p m⟩ := by
  have hcontains : ¬ (graphOf p entry taken).contains m = true := by
    rwa [CallGraph.contains, decide_eq_true_eq, reachable_graphOf]
  have hentered : (graphOf p entry taken).addReachable m =
      (taken.flatMap p.hierarchyCalls).foldl CallGraph.addEdge ⟨[entry], taken ++ [m], []⟩ := by
    rw [graphOf, addReachable_foldl_addEdge, CallGraph.addReachable, CallGraph.addOnce, if_neg hm]
  simp only [turn?, if_neg hcontains, foldl_record, hentered]
  rw [graphOf, List.flatMap_append, List.foldl_append, List.flatMap_singleton]
  rfl

/-! ## A whole discovery -/

/-- A discovery takes the methods that a breadth-first search visits, in its order. -/
theorem iterate?_of_visitWithin? {turns : Nat} {taken pending found : List MethodId}
    (h : Search.visitWithin? (callees p) (fun new old => old ++ new) turns taken pending = some found) :
    iterate? (turn? p) turns ⟨graphOf p entry taken, pending⟩ = some ⟨graphOf p entry found, []⟩ := by
  induction turns generalizing taken pending with
  | zero =>
    cases pending with
    | nil =>
      obtain rfl := Option.some.inj h
      rfl
    | cons m pending => cases h
  | succ turns ih =>
    cases pending with
    | nil =>
      obtain rfl := Option.some.inj h
      rfl
    | cons m pending =>
      rw [Search.visitWithin?] at h
      by_cases hm : m ∈ taken
      · rw [if_pos hm] at h
        simp only [iterate?, turn?_of_mem hm]
        exact ih h
      · rw [if_neg hm] at h
        simp only [iterate?, turn?_of_not_mem hm]
        exact ih h

/-- A discovery ends with the call graph of the class hierarchy. -/
theorem exists_iterate?_start (hp : p.Accepted) (hacyclic : p.Acyclic)
    (hentry : p.entry = some entry) :
    ∃ turns, iterate? (turn? p) turns (start entry) = some ⟨.ofHierarchy p, []⟩ := by
  obtain ⟨turns, hturns⟩ := (hacyclic.callGraphsEnd hp).discovers entry hentry
  refine ⟨turns, ?_⟩
  rw [CallGraph.ofHierarchy_eq_foldl hentry]
  exact iterate?_of_visitWithin? hturns

end Discovery

namespace CallGraph

variable {p : Program} {entry : MethodId}

/-- The entry method is in the set, and with each method what its calls may run. -/
def ClosedByHierarchy (p : Program) (entry : MethodId) (methods : Set MethodId) : Prop :=
  entry ∈ methods ∧ ∀ site call callee, site.method ∈ methods →
    p.stmt? site = some (.invoke call) → callee ∈ p.resolveByHierarchy call → callee ∈ methods

/-- The call graph holds what the class hierarchy allows from an entry method on, and nothing
else. -/
structure ExactByHierarchy (p : Program) (entry : MethodId) (g : CallGraph) : Prop where
  /-- Runs begin with the entry method. -/
  entries_eq : g.entries = [entry]
  /-- The reachable methods are the least set that is closed under calls. -/
  isLeast_reachable : IsLeast {methods | ClosedByHierarchy p entry methods} {m | m ∈ g.reachable}
  /-- No method is listed twice. -/
  nodup_reachable : g.reachable.Nodup
  /-- The calls are those of statements of reachable methods, with all their callees. -/
  mem_edges_iff : ∀ e, e ∈ g.edges ↔ e.site.method ∈ g.reachable ∧
    ∃ call, p.stmt? e.site = some (.invoke call) ∧ e.kind = call.kind ∧
      e.callee ∈ p.resolveByHierarchy call
  /-- No call is listed twice. -/
  nodup_edges : g.edges.Nodup
  /-- Called methods are reachable. -/
  callee_mem : ∀ e ∈ g.edges, e.callee ∈ g.reachable
  /-- Called methods are not abstract. -/
  hasBody : ∀ e ∈ g.edges, p.HasBody e.callee

/-- What the search reaches is the least set that is closed under calls. -/
theorem isLeast_hierarchyReachable (hp : p.WellFormed) (hentry : p.entry = some entry) :
    IsLeast {methods | ClosedByHierarchy p entry methods} {m | m ∈ p.hierarchyReachable entry} := by
  obtain ⟨-, hreached⟩ := hierarchyReachable_spec hentry hp
  refine ⟨⟨hreached.2 .refl, ?_⟩, ?_⟩
  · intro site call callee hsite hstmt hcallee
    have hcall : ⟨call.kind, site, callee⟩ ∈ p.hierarchyCalls site.method :=
      (mem_hierarchyCalls hp).2 ⟨rfl, call, hstmt, rfl, hcallee⟩
    exact hreached.2 ((hreached.1 hsite).tail (List.mem_map_of_mem hcall))
  · intro methods hclosed m hm
    have hpath := hreached.1 hm
    clear hm
    induction hpath with
    | refl => exact hclosed.1
    | tail _ hlast ih =>
      obtain ⟨e, he, rfl⟩ := List.mem_map.1 hlast
      obtain ⟨rfl, call, hstmt, -, hcallee⟩ := (mem_hierarchyCalls hp).1 he
      exact hclosed.2 e.site call e.callee ih hstmt hcallee

theorem exactByHierarchy_ofHierarchy (hp : p.WellFormed) (hentry : p.entry = some entry) :
    ExactByHierarchy p entry (ofHierarchy p) := by
  have hgrounded : (ofHierarchy p).Grounded p := grounded_ofHierarchy hp
  have hreachable : (ofHierarchy p).reachable = p.hierarchyReachable entry :=
    reachable_ofHierarchy hentry
  refine {
    entries_eq := ?_
    isLeast_reachable := hreachable ▸ isLeast_hierarchyReachable hp hentry
    nodup_reachable := hgrounded.nodup_reachable
    mem_edges_iff := fun e => ?_
    nodup_edges := hgrounded.nodup_edges
    callee_mem := fun _ he => hgrounded.callee_mem he
    hasBody := fun _ he => hgrounded.hasBody he }
  · rw [ofHierarchy_eq_foldl hentry, foldl_addEdge_eq]
  · rw [mem_edges_ofHierarchy hentry hp, hreachable, mem_hierarchyCalls hp]
    simp

/-- In an accepted program with an entry method and without a cycle of superclasses every call is
resolved in the end, the discovery from the entry method ends with the call graph of the class
hierarchy, and that graph is exact. -/
theorem ofHierarchy_exact (hp : p.Accepted) (hacyclic : p.Acyclic) (hentry : p.entry = some entry) :
    (∀ site call, p.stmt? site = some (.invoke call) →
      ∃ steps, p.resolveByHierarchyWithin? steps call = some (p.resolveByHierarchy call)) ∧
    (∃ turns, iterate? (Discovery.turn? p) turns (Discovery.start entry) =
      some ⟨ofHierarchy p, []⟩) ∧
    ExactByHierarchy p entry (ofHierarchy p) :=
  ⟨(hacyclic.callGraphsEnd hp).resolves, Discovery.exists_iterate?_start hp hacyclic hentry,
    exactByHierarchy_ofHierarchy hp.wellFormed hentry⟩

/-! ## A call that may come back -/

/-- The entry method calls `run` on a `Base`. The class has no body for it, its subclasses `Left`
and `Right` have one each, and that of `Left` calls the entry method. -/
def dispatchingCommands : List Command := [
  .addAbstractClass "Base" none [], .addClass "Left" (some 0) [], .addClass "Right" (some 0) [],
  .addAbstractMethod 0 "void run()", .addMethod 1 "void run()" false,
  .addMethod 2 "void run()" false, .addMethod 0 "void main()" true,
  .addMethod 0 "void unused()" true, .addVar 3 "b" (.object 0),
  .pushStmts 3 [.invoke ⟨.virtual, ⟨0, "void run()"⟩, some 3, [], none⟩, .ret none],
  .pushStmts 1 [.invoke ⟨.static, ⟨0, "void main()"⟩, none, [], none⟩, .ret none],
  .setEntry 3]

/-- The program of these declarations. -/
def dispatching : Program := (Program.ofCommands? dispatchingCommands).get (by decide +kernel)

theorem accepted_dispatching : dispatching.Accepted :=
  Program.accepted_of_ofCommands? (Option.some_get _).symm

theorem acyclic_dispatching : dispatching.Acyclic :=
  Program.acyclic_of_superclass_lt (by decide +kernel)

/-- The entry method and both bodies are the least set that is closed under calls. -/
theorem dispatching_reaches :
    dispatching.Accepted ∧ dispatching.Acyclic ∧ dispatching.entry = some 3 ∧
      IsLeast {methods | ClosedByHierarchy dispatching 3 methods} {m | m ∈ [3, 1, 2]} ∧
      dispatching.HasBody 2 := by
  have hentry : dispatching.entry = some 3 := by decide +kernel
  have hgraph : (ofHierarchy dispatching).reachable = [3, 1, 2] := by decide +kernel
  have hedge : ⟨.virtual, ⟨3, 0⟩, 2⟩ ∈ (ofHierarchy dispatching).edges := by decide +kernel
  obtain ⟨-, -, hexact⟩ := ofHierarchy_exact accepted_dispatching acyclic_dispatching hentry
  have hleast := hexact.isLeast_reachable
  rw [hgraph] at hleast
  exact ⟨accepted_dispatching, acyclic_dispatching, hentry, hleast, hexact.hasBody _ hedge⟩

end CallGraph

end TacAnalysis
