import TacAnalysis.Proofs.Constants.Soundness
import TacAnalysis.Proofs.Program.Accepted

/-!
# Where constants miss the values of runs

A result knows a run that arrives at a node if the fact there has the value of every integer
variable that the run knows, or calls it "not a constant". The only values that can be missed
are those computed from a lost operand: a variable that is not tracked makes the result
undefined, and where paths meet, "undefined" gives way to the constant of another path.

So a result knows all runs exactly if no run carries a value computed from a lost operand to
a node where it is missed. In particular it knows every run that has lost no operand.

Main statements: `knows_all_iff` and `not_knows_overlooked`.
-/

namespace TacAnalysis.Constants

variable {p : Program} {g : FlowGraph} {order : WorklistOrder} {budget : Nat}
  {r : FlowResult ConstFact}

/-- Before the node that comes next, every integer variable whose value the run knows is that
constant or not constant. -/
def Knows (p : Program) (r : FlowResult ConstFact) (c : RunState) : Prop :=
  ∃ f, r.inFact? c.node = some f ∧
    ∀ v x, p.holdsInt v = true → c.store v = some x → f.get v = .nac ∨ f.get v = .constant x

/-- A run, whatever branches it takes, computes an integer variable from a lost operand and
moves on to a node where the fact of the result is not above the value. -/
def MissesValue (p : Program) (g : FlowGraph) (r : FlowResult ConstFact) : Prop :=
  ∃ past c d e lhs rhs x, Arrives p g (fun _ _ => True) past c ∧ Moves p g e c d ∧
    g.stmt? c.node = some (.assign lhs rhs) ∧
    LosesOperand p (g.stmt? c.node) ((r.inFact? c.node).getD ∅) ∧ d.store lhs = some x ∧
    ¬ .constant x ≤ ((r.inFact? d.node).getD ∅).get lhs

/-- Only the constant itself and "not a constant" are above a constant. -/
theorem constant_le_iff {x : Int32} {v : Value} : .constant x ≤ v ↔ v = .nac ∨ v = .constant x := by
  rw [Value.le_iff]
  constructor
  · rintro (h | rfl | rfl)
    · cases h
    · exact .inr rfl
    · exact .inl rfl
  · rintro (rfl | rfl)
    · exact .inr (.inr rfl)
    · exact .inr (.inl rfl)

/-- A result knows a run exactly if the fact before the node covers its store. -/
theorem knows_iff_covers (hg : g.WellFormed) (hr : solve? p g order budget = some r) {c : RunState}
    (hc : c.node < g.nodeCount) :
    Knows p r c ↔ Covers p (before p g order budget c.node) c.store := by
  unfold Knows Covers
  simp only [inFact?_of_solve? hg hr hc, Option.some.injEq, exists_eq_left', constant_le_iff]

/-- A move misses no value but that of a variable computed from a lost operand. -/
theorem Covers.get_of_move (hg : g.WellFormed) (hr : solve? p g order budget = some r) {e : FlowEdge}
    {c d : RunState} (moves : Moves p g e c d)
    (hc : Covers p (before p g order budget c.node) c.store) {v : VarId} {x : Int32}
    (hv : p.holdsInt v = true) (hx : d.store v = some x) :
    .constant x ≤ (before p g order budget d.node).get v ∨
      (∃ rhs, g.stmt? c.node = some (.assign v rhs)) ∧
        LosesOperand p (g.stmt? c.node) (before p g order budget c.node) := by
  by_cases hloses : LosesOperand p (g.stmt? c.node) (before p g order budget c.node)
  · obtain ⟨lhs, rhs, hstmt, hlhs, -, -⟩ := id hloses
    by_cases hvl : v = lhs
    · exact .inr ⟨⟨rhs, hvl ▸ hstmt⟩, hloses⟩
    · -- another variable keeps its value and its place in the fact
      have heffect := moves.effect
      rw [hstmt, Effect, if_pos hlhs] at heffect
      obtain ⟨y, -, hstore⟩ := heffect
      rw [hstore, Function.update_of_ne hvl] at hx
      have habove := applyNode_le_before hg hr moves v
      rw [hstmt, Constants.applyNode, applyStmt, if_pos hlhs, ConstFact.get_update, if_neg hvl] at habove
      exact .inl ((hc v x hv hx).trans habove)
  · exact .inl (hc.move hg hr moves hloses v x hv hx)

/-- As long as no value is missed, facts cover the stores of runs. -/
theorem covers_of_not_missesValue (hg : g.WellFormed) (hr : solve? p g order budget = some r)
    (hmisses : ¬ MissesValue p g r) {past : List NodeId} {c : RunState}
    (harrives : Arrives p g (fun _ _ => True) past c) :
    Covers p (before p g order budget c.node) c.store := by
  induction harrives with
  | entry s known =>
    have hentered : Arrives p g (fun _ _ => True) [] ⟨g.entry, s⟩ := .entry s known
    exact covers_of_arrives hg hr hentered (by simp)
  | @move past c d e hbefore moves hmay ih =>
    intro v x hv hx
    rcases ih.get_of_move hg hr moves hv hx with h | ⟨⟨rhs, hstmt⟩, hloses⟩
    · exact h
    · by_contra hnot
      refine hmisses ⟨past, c, d, e, v, rhs, x, hbefore, moves, hstmt, ?_, hx, ?_⟩
      · rwa [getD_inFact? hg hr (node_lt_of_arrives hg hbefore)]
      · rwa [getD_inFact? hg hr (node_lt_of_arrives hg (hbefore.move moves hmay))]

/-- A run whose value is missed is not known any more. -/
theorem not_knows_of_missesValue (hg : g.WellFormed) (hr : solve? p g order budget = some r)
    (hmisses : MissesValue p g r) :
    ∃ past d, Arrives p g (fun _ _ => True) past d ∧ ¬ Knows p r d := by
  obtain ⟨past, c, d, e, lhs, rhs, x, hbefore, moves, hstmt, ⟨lhs', rhs', heq, hlhs, -⟩, hx, hnot⟩ :=
    hmisses
  cases hstmt.symm.trans heq
  have harrives := hbefore.move moves trivial
  have hd := node_lt_of_arrives hg harrives
  refine ⟨_, d, harrives, fun hknows => hnot ?_⟩
  rw [getD_inFact? hg hr hd]
  exact (knows_iff_covers hg hr hd).1 hknows lhs x hlhs hx

/-- Every method of an accepted program has a graph on which each result, in either order,
knows all runs exactly if it misses no value computed from a lost operand. It knows every
run that has lost no operand. -/
theorem knows_all_iff (hp : p.Accepted) {m : MethodId} {method : Method}
    (hm : p.method? m = some method) :
    ∃ g, FlowGraph.ofProgram p m = .ok g ∧
      ∀ order budget r, solve? p g order budget = some r →
        ((∀ past c, Arrives p g (fun _ _ => True) past c → Knows p r c) ↔ ¬ MissesValue p g r) ∧
        ∀ past c, Arrives p g (fun _ _ => True) past c →
          (∀ n ∈ past, ¬ LosesOperand p (g.stmt? n) ((r.inFact? n).getD ∅)) → Knows p r c := by
  obtain ⟨g, hof, hg, -⟩ := hp.wellFormed.exists_flowGraph hm
  refine ⟨g, hof, fun order budget r hr => ⟨⟨?_, ?_⟩, ?_⟩⟩
  · intro hknows hmisses
    obtain ⟨past, d, harrives, hnot⟩ := not_knows_of_missesValue hg hr hmisses
    exact hnot (hknows past d harrives)
  · intro hmisses past c harrives
    exact (knows_iff_covers hg hr (node_lt_of_arrives hg harrives)).2
      (covers_of_not_missesValue hg hr hmisses harrives)
  · intro past c harrives hkeeps
    refine (knows_iff_covers hg hr (node_lt_of_arrives hg harrives)).2 ?_
    refine covers_of_arrives hg hr harrives fun n hn => ?_
    rw [← getD_inFact? hg hr (lt_of_mem_past hg harrives n hn)]
    exact hkeeps n hn

/-! ## A value that a run has and no fact knows -/

/-- The statements of `overlooked`: `v2` is 1 on one path, and on the other the result of a
comparison of `v1` with itself, which is not an integer variable. -/
def overlookedStmts : List Stmt := [
  .assign 2 (.intLiteral 1),
  .branch ⟨.lt, 0, 0⟩ 3,
  .assign 2 (.binary ⟨.lt, 1, 1⟩),
  .ret none]

/-- A method with an integer parameter `v0` and a parameter `v1` of another type. -/
def overlookedCommands : List Command := [
  .addClass "C" none [], .addMethod 0 "void m()" true,
  .addParam 0 "p" .int, .addParam 0 "l" .long, .addVar 0 "c" .int,
  .pushStmts 0 overlookedStmts]

/-- The program of these declarations. -/
def overlooked : Program := (Program.ofCommands? overlookedCommands).get (by decide +kernel)

/-- The graph of its only method. -/
def overlookedGraph : FlowGraph where
  method := overlooked.methods.head (by decide +kernel)
  edges := [⟨0, 1, .entry⟩, ⟨1, 2, .fallThrough⟩, ⟨2, 4, .ifTrue⟩, ⟨2, 3, .ifFalse⟩,
    ⟨3, 4, .fallThrough⟩, ⟨4, 5, .ret⟩]

theorem accepted_overlooked : overlooked.Accepted :=
  Program.accepted_of_ofCommands? (Option.some_get _).symm

theorem ofProgram_overlooked : FlowGraph.ofProgram overlooked 0 = .ok overlookedGraph := by
  rfl

/-- What is found about the program in an order. -/
def overlookedResult (order : WorklistOrder) : FlowResult ConstFact :=
  (solve? overlooked overlookedGraph order 20).get (by cases order <;> decide +kernel)

theorem solve?_overlooked (order : WorklistOrder) :
    solve? overlooked overlookedGraph order 20 = some (overlookedResult order) :=
  (Option.some_get _).symm

/-- In either order `v2` is called 1 where the paths meet. -/
theorem inFact?_overlooked (order : WorklistOrder) :
    ((overlookedResult order).inFact? 4).map (·.get 2) = some (.constant 1) := by
  cases order <;> decide +kernel

/-- The statements of the graph are those that were declared. -/
theorem stmt?_overlookedGraph (index : Nat) (h : index < 4) :
    overlookedGraph.stmt? (index + 1) = overlookedStmts[index]? := by
  revert index
  decide +kernel

/-- What a run knows that begins with 0 in `v0`. -/
def overlookedStart : Store := fun v => if v = 0 then some 0 else none

/-- Of the variables of the method, all but the second parameter hold integers. -/
theorem holdsInt_overlooked : ∀ v < 3, overlooked.holdsInt v = true ↔ v ≠ 1 := by
  decide +kernel

/-- A run can begin with this parameter. -/
theorem arrives_overlookedStart :
    Arrives overlooked overlookedGraph (fun _ _ => True) [] ⟨0, overlookedStart⟩ := by
  have hparams : overlookedGraph.method.params = [0, 1] := by decide +kernel
  refine .entry overlookedStart fun v => ?_
  rw [hparams]
  unfold overlookedStart
  by_cases h0 : v = 0
  · simp [h0, holdsInt_overlooked]
  · by_cases h1 : v = 1
    · simp [h1, holdsInt_overlooked]
    · simp [h0, h1]

/-- It can come to the comparison, and 1 is in `v2` then. -/
theorem arrives_comparison :
    Arrives overlooked overlookedGraph (fun _ _ => True) [2, 1, 0]
      ⟨3, Function.update overlookedStart 2 (some 1)⟩ := by
  have hnone : overlookedGraph.stmt? 0 = none := by decide +kernel
  have hint : overlooked.holdsInt 2 = true := (holdsInt_overlooked 2 (by decide)).2 (by decide)
  have hentered := arrives_overlookedStart.move (d := ⟨1, overlookedStart⟩) (e := ⟨0, 1, .entry⟩)
    ⟨by decide, rfl, rfl, by simp [hnone], by simp only [hnone]; rfl⟩ trivial
  have hliteral : Effect overlooked overlookedStart (some (.assign 2 (.intLiteral 1)))
      (Function.update overlookedStart 2 (some 1)) := by
    rw [Effect, if_pos hint]
    exact ⟨1, rfl, rfl⟩
  have hassigned := hentered.move (e := ⟨1, 2, .fallThrough⟩)
    (.of_stmt? (d := ⟨2, _⟩) (by decide) rfl rfl (stmt?_overlookedGraph 0 (by decide)) (by decide)
      hliteral) trivial
  exact hassigned.move (e := ⟨2, 3, .ifFalse⟩)
    (.of_stmt? (by decide) rfl rfl (stmt?_overlookedGraph 1 (by decide)) (by decide) rfl) trivial

/-- The comparison gives 0, and the run goes on with that. -/
theorem moves_comparison :
    Moves overlooked overlookedGraph ⟨3, 4, .fallThrough⟩
      ⟨3, Function.update overlookedStart 2 (some 1)⟩
      ⟨4, Function.update overlookedStart 2 (some 0)⟩ := by
  have hint : overlooked.holdsInt 2 = true := (holdsInt_overlooked 2 (by decide)).2 (by decide)
  have huntracked : overlooked.holdsInt 1 ≠ true := fun h =>
    (holdsInt_overlooked 1 (by decide)).1 h rfl
  have hcomparison : Effect overlooked (Function.update overlookedStart 2 (some 1))
      (some (.assign 2 (.binary ⟨.lt, 1, 1⟩))) (Function.update overlookedStart 2 (some 0)) := by
    rw [Effect, if_pos hint]
    refine ⟨0, ?_, (Function.update_idem _ _ _).symm⟩
    rw [Yields, if_neg (by simp [huntracked])]
    exact fun _ => ⟨false, rfl⟩
  refine .of_stmt? (by decide) rfl rfl (stmt?_overlookedGraph 2 (by decide)) ?_ hcomparison
  simp [Stmt.uses, Exp.uses, huntracked]

/-- A fact with the constant 1 does not know a run with the value 0. -/
theorem not_knows_of_constant {order : WorklistOrder} :
    ¬ Knows overlooked (overlookedResult order) ⟨4, Function.update overlookedStart 2 (some 0)⟩ := by
  rintro ⟨f, hf, hget⟩
  have hfact := inFact?_overlooked order
  rw [hf, Option.map_some, Option.some.injEq] at hfact
  rcases hget 2 0 ((holdsInt_overlooked 2 (by decide)).2 (by decide)) rfl with h | h
  · rw [hfact] at h
    cases h
  · rw [hfact] at h
    exact absurd h (by decide)

/-- In either order a result about an accepted program can miss the value of a run. -/
theorem not_knows_overlooked :
    overlooked.Accepted ∧ FlowGraph.ofProgram overlooked 0 = .ok overlookedGraph ∧
      ∀ order, ∃ budget r, solve? overlooked overlookedGraph order budget = some r ∧
        ∃ past c, Arrives overlooked overlookedGraph (fun _ _ => True) past c ∧
          ¬ Knows overlooked r c :=
  ⟨accepted_overlooked, ofProgram_overlooked, fun order => ⟨20, overlookedResult order,
    solve?_overlooked order, _, _, arrives_comparison.move moves_comparison trivial,
    not_knows_of_constant⟩⟩

/-- The value that it misses has been computed from a lost operand. -/
theorem overlooked_missesValue :
    overlooked.Accepted ∧ overlooked.method? 0 = some overlookedGraph.method ∧
      ∀ order, solve? overlooked overlookedGraph order 20 = some (overlookedResult order) ∧
        MissesValue overlooked overlookedGraph (overlookedResult order) := by
  have hmethod : overlooked.method? 0 = some overlookedGraph.method :=
    (FlowGraph.wellFormed_of_ofProgram ofProgram_overlooked).2
  refine ⟨accepted_overlooked, hmethod, fun order => ⟨solve?_overlooked order, ?_⟩⟩
  obtain ⟨g, hg, hknows⟩ := knows_all_iff accepted_overlooked hmethod
  obtain rfl : overlookedGraph = g := Except.ok.inj (ofProgram_overlooked.symm.trans hg)
  by_contra hmisses
  have hall := (hknows order 20 _ (solve?_overlooked order)).1.2 hmisses
  exact not_knows_of_constant (hall _ _ (arrives_comparison.move moves_comparison trivial))

end TacAnalysis.Constants
