import TacAnalysis.Proofs.Constants.Program
import TacAnalysis.Proofs.SuperGraph.Exact

/-!
# Facts stay in their methods

The fact at a node of a method binds variables of that method only. Inside a method a transfer
binds what its statement assigns. A call edge starts from the empty fact and binds parameters of
the callee, a return edge starts from the empty fact and binds the result of the call, and the step
past a call changes the result only. So no edge carries a binding into another method, however
deep calls are nested, and also if a method calls itself.

Main statement: `facts_local`.
-/

namespace TacAnalysis

/-- The statement at a node is one of the method to which the node belongs. -/
theorem SuperGraph.mem_stmts_of_methodOf? {p : Program} (hp : p.WellFormed) {calls : CallGraph}
    {g : SuperGraph} (hbuild : build p calls = .ok g) {n : Nat} {m : MethodId} {method : Method}
    (hm : g.methodOf? n = some m) (hmethod : p.method? m = some method) {stmt : Stmt}
    (hstmt : g.stmt? n = some stmt) : stmt ∈ method.stmts := by
  have hn : n < g.nodeCount := by
    obtain ⟨place, hplace, -⟩ := Option.map_eq_some_iff.1 hm
    exact (List.getElem?_eq_some_iff.1 hplace).1
  obtain ⟨base, h, hmem, l, hl, rfl⟩ := exists_place_of_lt hn
  rw [methodOf?_add hmem hl, Option.some.injEq] at hm
  rw [← hm, method?_of_mem_graphs hp hbuild (mem_of_mem_withBases hmem), Option.some.injEq] at hmethod
  rw [stmt?_add hmem hl] at hstmt
  exact hmethod ▸ Constants.mem_stmts_of_stmt? hstmt

/-- In the state the fact stands before or behind the node. -/
def SolverState.Holds {F : Type} (s : SolverState F) (n : Nat) (x : F) : Prop :=
  s.input[n]? = some x ∨ s.output[n]? = some x

namespace Constants

variable {p : Program} {m : MethodId} {method : Method} {f : ConstFact}

/-- The fact binds only variables that the method declares and that can hold integers, and it binds
none of them to "undefined". -/
def LocalTo (p : Program) (m : MethodId) (f : ConstFact) : Prop :=
  ∀ v x, f.values.get? v = some x → p.Owns m v ∧ p.holdsInt v = true ∧ x ≠ .undefined

/-! ## Variables of a method -/

/-- A method declares the variables that it binds. -/
theorem owns_of_mem_boundVars (hp : p.WellFormed) (hmethod : p.method? m = some method) {v : VarId}
    (hv : v ∈ boundVars method) : p.Owns m v := by
  rcases List.mem_append.1 hv with hv | hv
  · exact hp.owns_of_method? hmethod (List.mem_append_left _ hv)
  · obtain ⟨stmt, hstmt, hassigned⟩ := List.mem_filterMap.1 hv
    have howns := hp.owns_use method (List.mem_of_getElem? hmethod) stmt hstmt v
      (List.mem_append_right _ (Option.mem_toList.2 hassigned))
    rwa [hp.id_eq hmethod] at howns

/-- A fact that binds integer variables of a method is local to it. -/
theorem Usual.localTo (hp : p.WellFormed) (hmethod : p.method? m = some method)
    (hf : Usual method f) (htracked : Tracked p f) : LocalTo p m f := by
  intro v x hv
  have hx : x ≠ .undefined := by
    rintro rfl
    exact hf.proper v hv
  have hget : f.get v ≠ .undefined := by rwa [ConstFact.get, hv, Option.getD_some]
  exact ⟨owns_of_mem_boundVars hp hmethod (hf.within v hget), htracked v hget, hx⟩

/-! ## One method -/

/-- All facts of a run of one method are local to it. -/
theorem localTo_of_run (hp : p.WellFormed) {g : FlowGraph} (hof : FlowGraph.ofProgram p m = .ok g)
    (order : WorklistOrder) (k : Nat) (n : NodeId) :
    LocalTo p m (before p g order k n) ∧ LocalTo p m (behind p g order k n) := by
  obtain ⟨hg, hmethod⟩ := FlowGraph.wellFormed_of_ofProgram hof
  have husual := usual_of_run p hg order k n
  have htracked := tracked_facts_of_run p hg order k n
  exact ⟨husual.1.localTo hp hmethod htracked.1, husual.2.localTo hp hmethod htracked.2⟩

/-! ## Edges between methods -/

theorem Usual.remove (hf : Usual method f) (v : VarId) : Usual method (f.remove v) := by
  refine ⟨hf.proper.remove v, fun w hw => ?_⟩
  rw [ConstFact.get_remove] at hw
  split at hw
  · exact absurd rfl hw
  · exact hf.within w hw

/-- The result of a call is bound in the method of the call. -/
theorem mem_boundVars_of_site {site : Site} (hmethod : p.method? site.method = some method)
    {result : VarId} (hresult : (p.stmt? site).bind Stmt.assigned? = some result) :
    result ∈ boundVars method := by
  obtain ⟨stmt, hstmt, hassigned⟩ := Option.bind_eq_some_iff.1 hresult
  rw [Program.stmt?, hmethod, Option.bind_some] at hstmt
  exact List.mem_append_right _ (List.mem_filterMap.2 ⟨stmt, List.mem_of_getElem? hstmt, hassigned⟩)

/-- A call edge binds parameters of the callee only, whatever the fact behind the call is. -/
theorem usual_passArguments {callee : MethodId} (hmethod : p.method? callee = some method)
    (site : Site) (f : ConstFact) : Usual method (passArguments p site callee f) := by
  unfold passArguments
  rw [hmethod]
  split
  · rename_i call method' _ hmethod'
    obtain rfl := Option.some.inj hmethod'
    -- values are read from the fact at the call, but what they are bound to are parameters
    have hfold : ∀ (bindings : List (VarId × VarId)) (x : ConstFact), Usual method x →
        (∀ b ∈ bindings, b.2 ∈ method.params) → Usual method (bindings.foldl
          (fun x b => if p.holdsInt b.2 then x.update b.2 (f.get b.1) else x) x) := by
      intro bindings
      induction bindings with
      | nil => exact fun x hx _ => hx
      | cons b bindings ih =>
        intro x hx hparams
        obtain ⟨hb, hparams⟩ := List.forall_mem_cons.1 hparams
        refine ih _ ?_ hparams
        dsimp only
        split
        · exact hx.update (List.mem_append_left _ hb) _
        · exact hx
    exact hfold _ ∅ .empty fun b hb => (List.of_mem_zip hb).2
  · exact .empty

/-- A return edge binds the result of the call only, whatever the fact at the exit is. -/
theorem usual_passResult {site : Site} (hmethod : p.method? site.method = some method)
    (callee : MethodId) (f : ConstFact) : Usual method (passResult p site callee f) := by
  unfold passResult
  split
  · rename_i result hresult
    split
    · exact Usual.empty.update (mem_boundVars_of_site hmethod hresult) _
    · exact .empty
  · exact .empty

/-- The step past a call keeps the fact but for the result of the call. -/
theorem Usual.bypass {site : Site} (hmethod : p.method? site.method = some method)
    (hf : Usual method f) (resolved : Bool) : Usual method (bypass p site resolved f) := by
  unfold Constants.bypass
  split
  · rename_i result hresult
    split
    · exact hf.remove result
    · exact hf.update (mem_boundVars_of_site hmethod hresult) _
  · exact hf

/-! ## The whole program -/

/-- At each node joins, transfers and edges keep facts that bind variables of its method only. -/
theorem keeps_usual (hp : p.WellFormed) {calls : CallGraph} {g : SuperGraph}
    (hbuild : SuperGraph.build p calls = .ok g) {entry : Nat}
    (hentry : SuperAnalysis.entryNode? g = some entry) :
    (superAnalysis p g).Keeps g entry (superApply p g) fun n f =>
      ∀ m method, g.methodOf? n = some m → p.method? m = some method → Usual method f where
  boundary m method hm hmethod := by
    change Usual method (superBoundary p g)
    simp only [superBoundary, hentry, Option.bind_some, hm, hmethod, Option.map_some, Option.getD_some]
    exact usual_boundary
  initial _ _ _ _ _ := .empty
  meet _ _ _ hx hy m method hm hmethod := (hx m method hm hmethod).meetInto (hy m method hm hmethod)
  transfer n x hx m method hm hmethod := by
    unfold superApply
    split
    · exact hx m method hm hmethod
    · exact (hx m method hm hmethod).applyNode fun _ hstmt =>
        SuperGraph.mem_stmts_of_methodOf? hp hbuild hm hmethod hstmt
  along e he x hx n method hn hmethod := by
    obtain ⟨source, target, hsource, htarget, hconnects⟩ := SuperGraph.connects_of_build hbuild he
    obtain rfl := Option.some.inj (htarget.symm.trans hn)
    obtain ⟨_, _, kind⟩ := e
    -- only steps inside a method carry on what the fact at the source binds
    cases kind with
    | normal kind =>
      obtain rfl : source = target := hconnects
      exact hx source method hsource hmethod
    | callToReturn site =>
      obtain ⟨rfl, rfl⟩ := hconnects
      exact (hx _ method hsource hmethod).bypass hmethod _
    | call site callee =>
      obtain ⟨-, rfl⟩ := hconnects
      exact usual_passArguments hmethod site x
    | ret site callee =>
      obtain ⟨-, rfl⟩ := hconnects
      exact usual_passResult hmethod callee x

/-- All facts of a run over the whole program are local to the methods of their nodes. -/
theorem localTo_of_superRun (hp : p.WellFormed) {calls : CallGraph} {g : SuperGraph}
    (hbuild : SuperGraph.build p calls = .ok g) {entry : Nat}
    (hentry : SuperAnalysis.entryNode? g = some entry) (order : WorklistOrder) (k : Nat) {n : Nat}
    (hn : n < g.nodeCount) : ∃ m, g.methodOf? n = some m ∧
      LocalTo p m (((superAnalysis p g).stateAt g entry order k).inputs ∅ n) ∧
      LocalTo p m (((superAnalysis p g).stateAt g entry order k).outputs ∅ n) := by
  have hholds : ∀ {holds : Nat → ConstFact → Prop},
      (superAnalysis p g).Keeps g entry (superApply p g) holds →
      (superAnalysis p g).AllHold holds ((superAnalysis p g).stateAt g entry order k) := fun hk =>
    hk.allHold_stateAt (SuperGraph.wellFormed_of_build hbuild) (isJoin_superAnalysis p g)
      (computes_superAnalysis p g) (SuperAnalysis.entryNode?_lt hentry) order k
  obtain ⟨base, h, hmem, l, hl, rfl⟩ := SuperGraph.exists_place_of_lt hn
  have hm := SuperGraph.methodOf?_add hmem hl
  have hmethod := SuperGraph.method?_of_mem_graphs hp hbuild (SuperGraph.mem_of_mem_withBases hmem)
  have husual := hholds (keeps_usual hp hbuild hentry) (base + l)
  have htracked := hholds (keeps_tracked p g entry) (base + l)
  exact ⟨_, hm, (husual.1 _ _ hm hmethod).localTo hp hmethod htracked.1.tracked,
    (husual.2 _ _ hm hmethod).localTo hp hmethod htracked.2.tracked⟩

/-- In every accepted program no fact leaks into another method. After any number of turns, in
either order, the facts that a run of one method holds bind only integer variables of that method,
and the facts that a run over a call graph of the program holds at a node only those of the method
of the node; none of them is bound to "undefined". -/
theorem facts_local (hp : p.Accepted) :
    (∀ m method, p.method? m = some method → ∃ g, FlowGraph.ofProgram p m = .ok g ∧
      ∀ order k n f, ((analysis p g).stateAt g order k).Holds n f → LocalTo p m f) ∧
    ∀ calls : CallGraph, calls.BuiltFor p → ∃ g, SuperGraph.build p calls = .ok g ∧
      ∀ entry, SuperAnalysis.entryNode? g = some entry →
        ∀ order k n f, ((superAnalysis p g).stateAt g entry order k).Holds n f →
          ∃ m, g.methodOf? n = some m ∧ LocalTo p m f := by
  have hwf := hp.wellFormed
  constructor
  · intro m method hmethod
    obtain ⟨g, hof, -⟩ := hwf.exists_flowGraph hmethod
    refine ⟨g, hof, fun order k n f hholds => ?_⟩
    obtain ⟨hbefore, hbehind⟩ := localTo_of_run hwf hof order k n
    rcases hholds with hin | hout
    · rwa [before, FlowAnalysis.inputs, hin] at hbefore
    · rwa [behind, FlowAnalysis.outputs, hout] at hbehind
  · intro calls hcalls
    obtain ⟨g, hbuild⟩ := SuperGraph.exists_build hwf fun m hm => (hcalls.grounded hwf).lt hwf hm
    refine ⟨g, hbuild, fun entry hentry order k n f hholds => ?_⟩
    have hs := SuperAnalysis.consistent_stateAt (SuperGraph.wellFormed_of_build hbuild)
      (isJoin_superAnalysis p g) (computes_superAnalysis p g) (SuperAnalysis.entryNode?_lt hentry)
      order k
    have hn : n < g.nodeCount := by
      rcases hholds with hin | hout
      · exact hs.input_length ▸ (List.getElem?_eq_some_iff.1 hin).1
      · exact hs.output_length ▸ (List.getElem?_eq_some_iff.1 hout).1
    obtain ⟨m, hm, hbefore, hbehind⟩ := localTo_of_superRun hwf hbuild hentry order k hn
    refine ⟨m, hm, ?_⟩
    rcases hholds with hin | hout
    · rwa [SolverState.inputs, hin] at hbefore
    · rwa [SolverState.outputs, hout] at hbehind

/-! ## A method that calls itself -/

/-- The main method calls a method with a known argument, and this one calls itself. -/
def delegatingCommands : List Command := [
  .addClass "C" none [], .addMethod 0 "void main()" true, .addMethod 0 "int f(int)" true,
  .addVar 0 "a" .int, .addVar 0 "r" .int, .addParam 1 "n" .int, .addVar 1 "s" .int,
  .pushStmts 0 [
    .assign 0 (.intLiteral 5),
    .invoke ⟨.static, ⟨0, "int f(int)"⟩, none, [0], some 1⟩,
    .ret none],
  .pushStmts 1 [.invoke ⟨.static, ⟨0, "int f(int)"⟩, none, [2], some 3⟩, .ret (some 2)],
  .setEntry 0]

/-- The program of these declarations. -/
def delegating : Program := (Program.ofCommands? delegatingCommands).get (by decide +kernel)

theorem accepted_delegating : delegating.Accepted :=
  Program.accepted_of_ofCommands? (Option.some_get _).symm

/-- The argument reaches the called method as its parameter and comes back as the result of both
calls; all else stays where it is declared. -/
theorem facts_local_delegating :
    delegating.Accepted ∧ (CallGraph.ofHierarchy delegating).BuiltFor delegating ∧
      ∃ g, SuperGraph.build delegating (.ofHierarchy delegating) = .ok g ∧
        SuperAnalysis.entryNode? g = some 0 ∧
        ∀ order, ((superAnalysis delegating g).stateAt g 0 order 30).Holds 3
            (.ofUpdates [(0, .constant 5), (1, .constant 5)]) ∧
          ((superAnalysis delegating g).stateAt g 0 order 30).Holds 7
            (.ofUpdates [(2, .constant 5), (3, .constant 5)]) ∧
          ∀ k n f, ((superAnalysis delegating g).stateAt g 0 order k).Holds n f →
            ∃ m, g.methodOf? n = some m ∧ LocalTo delegating m f := by
  obtain ⟨g, hbuild, hlocal⟩ := (facts_local accepted_delegating).2 _ .byHierarchy
  refine ⟨accepted_delegating, .byHierarchy, g, hbuild, ?_⟩
  have hfacts : ∀ order, ((SuperGraph.build delegating (.ofHierarchy delegating)).toOption.map fun g =>
      (SuperAnalysis.entryNode? g, ((superAnalysis delegating g).stateAt g 0 order 30).input[3]?,
        ((superAnalysis delegating g).stateAt g 0 order 30).input[7]?)) =
      some (some 0, some (.ofUpdates [(0, .constant 5), (1, .constant 5)]),
        some (.ofUpdates [(2, .constant 5), (3, .constant 5)])) := by
    intro order
    cases order <;> decide +kernel
  simp only [hbuild, Except.toOption, Option.map_some, Option.some.injEq, Prod.mk.injEq] at hfacts
  have hentry := (hfacts .fifo).1
  exact ⟨hentry, fun order => ⟨.inl (hfacts order).2.1, .inl (hfacts order).2.2, hlocal 0 hentry order⟩⟩

end Constants

end TacAnalysis
