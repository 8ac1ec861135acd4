import Mathlib.Data.DFinsupp.WellFounded
import Mathlib.Data.Finset.Card
import TacAnalysis.Proofs.Solver.Runs
import TacAnalysis.Proofs.SuperGraph
import TacAnalysis.Solver.Inter

/-!
# Solving over a whole program

What has flowed into a node stays there, so the facts that flow in only rise, whatever the
transfers do. They rise finitely often; in between, a turn whose output is new brings one
more node up to date, and any other turn shortens the worklist. So every run ends, also if
the fact behind a node falls on the way.

The invariant of the solver is that every node outside the worklist has transferred what has
flowed into it, and has taken in what its edges carry.

Main statements: `Consistent.step`, `Keeps.turns`, `exists_run?_of_height` and `isSolution_of_run?`.
-/

namespace TacAnalysis.SuperAnalysis

variable {F : Type}

/-- The transfer sets the output to `f` of the node and its input, and reports a change
exactly when the output has changed. -/
structure Computes (a : SuperAnalysis F) (f : Nat → F → F) : Prop where
  /-- The new output depends on the node and its input only. -/
  output_eq : ∀ n input output, (a.transfer n input output).2 = f n input
  /-- A change is reported exactly when the output has changed. -/
  changed_iff : ∀ n input output, (a.transfer n input output).1 = true ↔ f n input ≠ output

/-- The join is a least upper bound, and the initial fact is below all facts. -/
structure IsJoin [Preorder F] (a : SuperAnalysis F) : Prop where
  /-- The initial fact is below all facts. -/
  initial_le : ∀ x, a.initial ≤ x
  /-- A fact is above a join exactly when it is above both of its parts. -/
  meet_le_iff : ∀ x y z, a.meet x y ≤ z ↔ x ≤ z ∧ y ≤ z

/-- Facts before and behind the nodes that satisfy the equations of the analysis: what flows
into a node is above all that its edges carry, and at the entry above the boundary fact; what
leaves it is the transfer of that. -/
structure IsSolution [LE F] (a : SuperAnalysis F) (g : SuperGraph) (entry : Nat) (f : Nat → F → F)
    (input output : Nat → F) : Prop where
  /-- The boundary fact flows into the entry. -/
  boundary_le : a.boundary ≤ input entry
  /-- What an edge carries flows into its target. -/
  along_le : ∀ e ∈ g.edges, a.along e (output e.source) ≤ input e.target
  /-- What leaves a node is the transfer of what flows into it. -/
  output_eq : ∀ n < g.nodeCount, output n = f n (input n)

/-- The invariant of the solver: the facts have their places, the entry holds at least the
boundary fact, and every node that is not waiting satisfies its equations. -/
structure Consistent [LE F] (a : SuperAnalysis F) (g : SuperGraph) (entry : Nat) (f : Nat → F → F)
    (s : SolverState F) : Prop where
  /-- Every node has a fact before it. -/
  input_length : s.input.length = g.nodeCount
  /-- Every node has a fact behind it. -/
  output_length : s.output.length = g.nodeCount
  /-- The marks of the worklist are right. -/
  worklist_valid : s.worklist.Valid
  /-- Only nodes are waiting. -/
  waiting_lt : ∀ n ∈ s.worklist.waiting, n < g.nodeCount
  /-- The boundary fact has flowed into the entry. -/
  boundary_le : a.boundary ≤ s.inputs a.initial entry
  /-- A node that is not waiting has taken in what its edges carry. -/
  along_le : ∀ e ∈ g.edges, e.target ∉ s.worklist.waiting →
    a.along e (s.outputs a.initial e.source) ≤ s.inputs a.initial e.target
  /-- A node that is not waiting has transferred what has flowed into it. -/
  output_eq : ∀ n < g.nodeCount, n ∉ s.worklist.waiting →
    s.outputs a.initial n = f n (s.inputs a.initial n)

/-! ## Turns -/

section Turns

variable {a : SuperAnalysis F} {g : SuperGraph} {entry n : Nat} {f : Nat → F → F}
  {s t : SolverState F}

/-- No step is left exactly when no node is waiting. -/
theorem step_eq_none_iff : a.step g s = none ↔ s.worklist.waiting = [] := by
  rw [← NodeWorklist.pop?_eq_none_iff]
  unfold step
  cases s.worklist.pop? <;> simp

/-- A step records what the transfer of the node taken from the worklist gives. -/
theorem step_of_pop? {rest : NodeWorklist} (hpop : s.worklist.pop? = some (n, rest)) :
    a.step g s = some (s.record rest n (a.joined g s n)
      (a.transfer n (a.joined g s n) (s.outputs a.initial n)).2
      (a.transfer n (a.joined g s n) (s.outputs a.initial n)).1 (g.successors n)) := by
  unfold step
  rw [hpop]
  rfl

/-- After a turn the edges into a node that is not waiting carry the same facts as before. -/
theorem outputs_source_eq {input output : F}
    (ht : s.Turns a.initial g.successors n input output t) {e : SuperEdge} (he : e ∈ g.edges)
    (hidle : e.target ∉ t.worklist.waiting) :
    t.outputs a.initial e.source = s.outputs a.initial e.source := by
  rw [ht.outputs_eq, Function.update_apply]
  split
  · rename_i hsource
    have hmem : e.target ∈ g.successors n := SuperGraph.mem_successors.2 ⟨e, he, hsource, rfl⟩
    rw [hsource]
    by_contra hchanged
    exact hidle ((ht.mem_waiting_iff e.target).2 (.inr ⟨hchanged, hmem⟩))
  · rfl

/-- At first the entry holds the boundary fact, and every other node the initial one. -/
theorem start_eq_ite {order : WorklistOrder} (hn : n < g.nodeCount) :
    (a.start g entry order).inputs a.initial n = (if n = entry then a.boundary else a.initial) ∧
      (a.start g entry order).outputs a.initial n =
        if n = entry then a.boundary else a.initial := by
  simp [SolverState.inputs, SolverState.outputs, start, SolverState.start, hn]

/-- The entry of a whole program is a node. -/
theorem entryNode?_lt (h : entryNode? g = some entry) : entry < g.nodeCount := by
  obtain ⟨m, -, hm⟩ := Option.bind_eq_some_iff.1 h
  exact SuperGraph.entryOf?_lt hm

/-- With an entry the solver runs from there. -/
theorem solve?_eq_map {order : WorklistOrder} {budget : Nat} (h : entryNode? g = some entry) :
    a.solve? g order budget = (a.run? g entry order budget).map result := by
  rw [solve?, h]

variable [Preorder F]

/-- What a node holds after its turn is the least fact above what it held and what its edges
carry. -/
theorem joined_le_iff (hj : a.IsJoin) {z : F} :
    a.joined g s n ≤ z ↔ s.inputs a.initial n ≤ z ∧
      ∀ e ∈ g.edges, e.target = n → a.along e (s.outputs a.initial e.source) ≤ z := by
  have hedges : ∀ P : SuperEdge → Prop,
      (∀ e ∈ g.inEdges n, P e) ↔ ∀ e ∈ g.edges, e.target = n → P e := by
    simp [SuperGraph.mem_inEdges]
  rw [joined, foldl_meet_le_iff hj.meet_le_iff, hedges]
  rfl

/-- What has flowed into a node stays there. -/
theorem inputs_le_of_turns (hj : a.IsJoin) {output : F}
    (ht : s.Turns a.initial g.successors n (a.joined g s n) output t) (m : Nat) :
    s.inputs a.initial m ≤ t.inputs a.initial m := by
  rw [ht.inputs_eq, Function.update_apply]
  split
  · rename_i hm
    exact hm ▸ ((joined_le_iff hj).1 le_rfl).1
  · exact le_rfl

/-- A step is the turn of a waiting node. -/
theorem exists_turns (hf : a.Computes f) (hs : a.Consistent g entry f s)
    (h : a.step g s = some t) :
    ∃ n, s.Turns a.initial g.successors n (a.joined g s n) (f n (a.joined g s n)) t := by
  rcases hpop : s.worklist.pop? with _ | ⟨n, rest⟩
  · simp [step_eq_none_iff.2 (NodeWorklist.pop?_eq_none_iff.1 hpop)] at h
  obtain ⟨-, hn, -, -⟩ := hs.worklist_valid.pop hpop
  have hlt := hs.waiting_lt n hn
  have hrecord := Option.some.inj ((step_of_pop? hpop).symm.trans h)
  rw [hf.output_eq] at hrecord
  refine ⟨n, hrecord ▸ ?_⟩
  exact SolverState.turns_of_pop? hs.worklist_valid hpop (hs.input_length ▸ hlt)
    (hs.output_length ▸ hlt) (hf.changed_iff n _ _)

/-- A turn keeps the invariant of the solver. -/
theorem Consistent.turns (hg : g.WellFormed) (hj : a.IsJoin) (hs : a.Consistent g entry f s)
    (ht : s.Turns a.initial g.successors n (a.joined g s n) (f n (a.joined g s n)) t) :
    a.Consistent g entry f t := by
  have hidle : ∀ m ≠ n, m ∉ t.worklist.waiting → m ∉ s.worklist.waiting := fun m hmn hm h =>
    hm ((ht.mem_waiting_iff m).2 (.inl ⟨h, hmn⟩))
  refine {
    input_length := ht.input_length.trans hs.input_length
    output_length := ht.output_length.trans hs.output_length
    worklist_valid := ht.worklist_valid
    waiting_lt := fun m hm => ?_
    boundary_le := hs.boundary_le.trans (inputs_le_of_turns hj ht entry)
    along_le := fun e he hm => ?_
    output_eq := fun m hlt hm => ?_ }
  · rcases (ht.mem_waiting_iff m).1 hm with ⟨hm, -⟩ | ⟨-, hm⟩
    · exact hs.waiting_lt m hm
    · obtain ⟨e, he, -, rfl⟩ := SuperGraph.mem_successors.1 hm
      exact hg.target_lt e he
  · rw [outputs_source_eq ht he hm]
    by_cases htarget : e.target = n
    · rw [ht.inputs_eq, htarget, Function.update_self]
      exact ((joined_le_iff hj).1 le_rfl).2 e he htarget
    · exact (hs.along_le e he (hidle _ htarget hm)).trans (inputs_le_of_turns hj ht e.target)
  · rw [ht.inputs_eq, ht.outputs_eq]
    by_cases hmn : m = n
    · rw [hmn, Function.update_self, Function.update_self]
    · rw [Function.update_of_ne hmn, Function.update_of_ne hmn,
        hs.output_eq m hlt (hidle m hmn hm)]

/-- Every step keeps the invariant of the solver. -/
theorem Consistent.step (hg : g.WellFormed) (hj : a.IsJoin) (hf : a.Computes f)
    (hs : a.Consistent g entry f s) (h : a.step g s = some t) : a.Consistent g entry f t := by
  obtain ⟨n, ht⟩ := exists_turns hf hs h
  exact hs.turns hg hj ht

/-- At first all nodes wait. -/
theorem consistent_start (hg : g.WellFormed) (hentry : entry < g.nodeCount)
    (order : WorklistOrder) : a.Consistent g entry f (a.start g entry order) := by
  have hmem : ∀ n, n ∈ (a.start g entry order).worklist.waiting ↔ n < g.nodeCount := by
    intro n
    rw [start, SolverState.start, NodeWorklist.mem_pushAll (NodeWorklist.valid_empty order)]
    simp [NodeWorklist.empty]
  exact {
    input_length := by simp [start, SolverState.start]
    output_length := by simp [start, SolverState.start]
    worklist_valid := (NodeWorklist.valid_empty order).pushAll _
    waiting_lt := fun n hn => (hmem n).1 hn
    boundary_le := by rw [(start_eq_ite hentry).1, if_pos rfl]
    along_le := fun e he hidle => absurd ((hmem _).2 (hg.target_lt e he)) hidle
    output_eq := fun n hn hidle => absurd ((hmem n).2 hn) hidle }

end Turns

/-! ## Nodes that are not up to date -/

open Classical in
/-- The nodes where the output is not the transfer of the input. -/
noncomputable def stale (g : SuperGraph) (f : Nat → F → F) (input output : Nat → F) : Finset Nat :=
  {n ∈ Finset.range g.nodeCount | output n ≠ f n (input n)}

/-- A node that is brought up to date is the only one that is. -/
theorem stale_update {g : SuperGraph} {f : Nat → F → F} {input output : Nat → F} {n : Nat} :
    stale g f input (Function.update output n (f n (input n))) = (stale g f input output).erase n := by
  ext m
  simp only [stale, Finset.mem_filter, Finset.mem_erase]
  by_cases hmn : m = n
  · subst hmn
    simp
  · simp [hmn]

/-! ## Facts of a run -/

/-- What may be said of the facts at each node holds at first and is kept by joins, transfers and
edges. -/
structure Keeps (a : SuperAnalysis F) (g : SuperGraph) (entry : Nat) (f : Nat → F → F)
    (holds : Nat → F → Prop) : Prop where
  /-- It holds of the boundary fact at the entry. -/
  boundary : holds entry a.boundary
  /-- It holds of the initial fact everywhere. -/
  initial : ∀ n, holds n a.initial
  /-- It holds of what two facts of a node are joined to. -/
  meet : ∀ n x y, holds n x → holds n y → holds n (a.meet x y)
  /-- It holds behind a node if it holds before it. -/
  transfer : ∀ n x, holds n x → holds n (f n x)
  /-- It holds of what an edge carries to its target if it holds behind its source. -/
  along : ∀ e ∈ g.edges, ∀ x, holds e.source x → holds e.target (a.along e x)

section Facts

variable {a : SuperAnalysis F} {g : SuperGraph} {entry n : Nat} {f : Nat → F → F}
  {s t : SolverState F} {holds : Nat → F → Prop}

/-- It holds of all facts of a state. -/
def AllHold (a : SuperAnalysis F) (holds : Nat → F → Prop) (s : SolverState F) : Prop :=
  ∀ n, holds n (s.inputs a.initial n) ∧ holds n (s.outputs a.initial n)

/-- What is joined into a node has the properties of its facts. -/
theorem Keeps.joined (hk : a.Keeps g entry f holds) (hs : a.AllHold holds s) (n : Nat) :
    holds n (a.joined g s n) := by
  have hfold : ∀ (es : List SuperEdge) (x : F),
      (∀ e ∈ es, e ∈ g.edges ∧ e.target = n) → holds n x →
      holds n (es.foldl
        (fun target e => a.meet (a.along e (s.outputs a.initial e.source)) target) x) := by
    intro es
    induction es with
    | nil => exact fun x _ hx => hx
    | cons e es ih =>
      intro x hes hx
      obtain ⟨⟨he, htarget⟩, hrest⟩ := List.forall_mem_cons.1 hes
      have hcarried := hk.along e he _ (hs e.source).2
      exact ih _ hrest (hk.meet n _ _ (htarget ▸ hcarried) hx)
  exact hfold (g.inEdges n) _ (fun e he => SuperGraph.mem_inEdges.1 he) (hs n).1

/-- A turn keeps the properties of facts. -/
theorem Keeps.turns (hk : a.Keeps g entry f holds) (hs : a.AllHold holds s)
    (ht : s.Turns a.initial g.successors n (a.joined g s n) (f n (a.joined g s n)) t) :
    a.AllHold holds t := by
  intro m
  have hjoined := hk.joined hs n
  rw [ht.inputs_eq, ht.outputs_eq]
  by_cases hmn : m = n
  · rw [hmn, Function.update_self, Function.update_self]
    exact ⟨hjoined, hk.transfer n _ hjoined⟩
  · rw [Function.update_of_ne hmn, Function.update_of_ne hmn]
    exact hs m

/-- At first the facts have their properties. -/
theorem Keeps.start (hk : a.Keeps g entry f holds) (order : WorklistOrder) :
    a.AllHold holds (a.start g entry order) := by
  intro n
  by_cases hn : n < g.nodeCount
  · rw [(start_eq_ite hn).1, (start_eq_ite hn).2]
    by_cases hentry : n = entry
    · rw [if_pos hentry]
      exact ⟨hentry ▸ hk.boundary, hentry ▸ hk.boundary⟩
    · rw [if_neg hentry]
      exact ⟨hk.initial n, hk.initial n⟩
  · have hnone : ((List.range g.nodeCount).map fun n =>
        if n = entry then a.boundary else a.initial)[n]? = none := by
      simpa using Nat.le_of_not_lt hn
    have hinput : (a.start g entry order).inputs a.initial n = a.initial := by
      simp only [SolverState.inputs, SuperAnalysis.start, SolverState.start, hnone, Option.getD_none]
    have houtput : (a.start g entry order).outputs a.initial n = a.initial := by
      simp only [SolverState.outputs, SuperAnalysis.start, SolverState.start, hnone, Option.getD_none]
    rw [hinput, houtput]
    exact ⟨hk.initial n, hk.initial n⟩

end Facts

/-! ## Runs end -/

section Termination

variable {α : Type} [PartialOrder α] {a : SuperAnalysis F} {g : SuperGraph} {entry n : Nat}
  {f : Nat → F → F} {s t : SolverState F}

/-- What a run can still do: let facts rise in height, then bring nodes up to date, then empty the
worklist. -/
noncomputable def remaining (a : SuperAnalysis F) (g : SuperGraph) (f : Nat → F → F) (height : F → α)
    (s : SolverState F) : (Fin g.nodeCount → αᵒᵈ) ×ₗ Nat ×ₗ Nat :=
  toLex (fun n => OrderDual.toDual (height (s.inputs a.initial n)),
    toLex ((stale g f (s.inputs a.initial) (s.outputs a.initial)).card, s.worklist.waiting.length))

/-- A turn leaves less to do if a fact that changes gets higher. -/
theorem remaining_lt_of_turns {height : F → α} (hn : n < g.nodeCount)
    (hrise : a.joined g s n = s.inputs a.initial n ∨
      height (s.inputs a.initial n) < height (a.joined g s n))
    (ht : s.Turns a.initial g.successors n (a.joined g s n) (f n (a.joined g s n)) t) :
    remaining a g f height t < remaining a g f height s := by
  rw [remaining, remaining, Prod.Lex.toLex_lt_toLex]
  rcases hrise with hsame | hlt
  · -- nothing new flows in, so the output is new only if it was not up to date
    have hinputs : t.inputs a.initial = s.inputs a.initial := by
      rw [ht.inputs_eq, hsame, Function.update_eq_self]
    refine .inr ⟨by rw [hinputs], ?_⟩
    rw [Prod.Lex.toLex_lt_toLex, hinputs]
    by_cases hchanged : f n (a.joined g s n) = s.outputs a.initial n
    · have houtputs : t.outputs a.initial = s.outputs a.initial := by
        rw [ht.outputs_eq, hchanged, Function.update_eq_self]
      have hlength := ht.length_of_unchanged hchanged
      exact .inr ⟨by rw [houtputs], Nat.lt_of_succ_le hlength.le⟩
    · have hstale : n ∈ stale g f (s.inputs a.initial) (s.outputs a.initial) := by
        simp only [stale, Finset.mem_filter, Finset.mem_range]
        exact ⟨hn, hsame ▸ Ne.symm hchanged⟩
      rw [ht.outputs_eq, hsame, stale_update]
      exact .inl (Finset.card_lt_card (Finset.erase_ssubset hstale))
  · refine .inl (Pi.lt_def.2 ⟨fun m => ?_, ⟨n, hn⟩, ?_⟩)
    · rw [OrderDual.toDual_le_toDual, ht.inputs_eq, Function.update_apply]
      split
      · rename_i hm
        rw [hm]
        exact hlt.le
      · exact le_rfl
    · rw [OrderDual.toDual_lt_toDual, ht.inputs_eq, Function.update_self]
      exact hlt

/-- Every run ends if facts that rise get higher, and heights are bounded. -/
theorem exists_run?_of_height [WellFoundedGT α] [Preorder F] (hg : g.WellFormed) (hj : a.IsJoin)
    (hf : a.Computes f) (hentry : entry < g.nodeCount) {holds : Nat → F → Prop}
    (hk : a.Keeps g entry f holds) (height : F → α)
    (hheight : ∀ n x y, holds n x → holds n y → x ≤ y → y = x ∨ height x < height y)
    (order : WorklistOrder) : ∃ budget s, a.run? g entry order budget = some s := by
  let kept (s : SolverState F) : Prop := a.Consistent g entry f s ∧ a.AllHold holds s
  have hstart : kept (a.start g entry order) := ⟨consistent_start hg hentry order, hk.start order⟩
  refine exists_iterate?_of_rank wellFounded_lt (remaining a g f height) (fun s t hs h => ?_) hstart
  obtain ⟨n, ht⟩ := exists_turns hf hs.1 h
  have hrise := hheight n _ _ (hs.2 n).1 (hk.joined hs.2 n) ((joined_le_iff hj).1 le_rfl).1
  exact ⟨⟨hs.1.turns hg hj ht, hk.turns hs.2 ht⟩,
    remaining_lt_of_turns (hs.1.waiting_lt n ht.waiting) hrise ht⟩

/-- Every run ends, whether the transfers are monotone or not. -/
theorem exists_run? [PartialOrder F] [WellFoundedGT F] (hg : g.WellFormed) (hj : a.IsJoin)
    (hf : a.Computes f) (hentry : entry < g.nodeCount) (order : WorklistOrder) :
    ∃ budget s, a.run? g entry order budget = some s := by
  have hk : a.Keeps g entry f fun _ _ => True :=
    ⟨trivial, fun _ => trivial, fun _ _ _ _ _ => trivial, fun _ _ _ => trivial,
      fun _ _ _ _ => trivial⟩
  refine exists_run?_of_height hg hj hf hentry hk id (fun _ x y _ _ hxy => ?_) order
  exact (eq_or_lt_of_le hxy).imp Eq.symm id

end Termination

/-! ## Where runs end -/

section Results

variable [Preorder F] {a : SuperAnalysis F} {g : SuperGraph} {entry : Nat} {f : Nat → F → F}
  {s t : SolverState F} {input output : Nat → F} {order : WorklistOrder} {budget : Nat}

/-- A run keeps what holds at first and is kept by the steps of states in which the invariant
holds, and it ends when no node is waiting. -/
theorem of_run? (hg : g.WellFormed) (hj : a.IsJoin) (hf : a.Computes f)
    (hentry : entry < g.nodeCount) {holds : SolverState F → Prop}
    (hstart : holds (a.start g entry order))
    (hstep : ∀ s t, a.Consistent g entry f s → holds s → a.step g s = some t → holds t)
    (h : a.run? g entry order budget = some s) :
    a.Consistent g entry f s ∧ holds s ∧ s.worklist.waiting = [] := by
  obtain ⟨rfl, hended⟩ := iterate?_eq_some_iff.1 h
  have hboth := @stateAfter_invariant _ (a.step g) (fun s => a.Consistent g entry f s ∧ holds s)
    (a.start g entry order) ⟨consistent_start hg hentry order, hstart⟩
    (fun s t hs h => ⟨hs.1.step hg hj hf h, hstep s t hs.1 hs.2 h⟩) budget
  exact ⟨hboth.1, hboth.2, step_eq_none_iff.1 hended⟩

/-- A run ends in a solution. -/
theorem isSolution_of_run? (hg : g.WellFormed) (hj : a.IsJoin) (hf : a.Computes f)
    (hentry : entry < g.nodeCount) (h : a.run? g entry order budget = some s) :
    a.IsSolution g entry f (s.inputs a.initial) (s.outputs a.initial) := by
  obtain ⟨hs, -, hended⟩ := of_run? hg hj hf hentry trivial (fun _ _ _ _ _ => trivial) h
  have hidle : ∀ n, n ∉ s.worklist.waiting := by simp [hended]
  exact ⟨hs.boundary_le, fun e he => hs.along_le e he (hidle _),
    fun n hn => hs.output_eq n hn (hidle n)⟩

/-- All facts of the last state of a run have what joins, transfers and edges keep. -/
theorem Keeps.allHold_of_run? (hg : g.WellFormed) (hj : a.IsJoin) (hf : a.Computes f)
    (hentry : entry < g.nodeCount) {holds : Nat → F → Prop} (hk : a.Keeps g entry f holds)
    (h : a.run? g entry order budget = some s) : a.AllHold holds s := by
  refine (of_run? hg hj hf hentry (hk.start order) (fun t u ht hkept hstep => ?_) h).2.1
  obtain ⟨n, hturns⟩ := exists_turns hf ht hstep
  exact hk.turns hkept hturns

/-- The result of a run holds the facts of its last state. -/
theorem facts_of_solve? (hg : g.WellFormed) (hj : a.IsJoin) (hf : a.Computes f)
    (hentry : entryNode? g = some entry) {r : FlowResult F}
    (h : a.solve? g order budget = some r) :
    ∃ s, a.run? g entry order budget = some s ∧
      (∀ n, r.inFact? n = if n < g.nodeCount then some (s.inputs a.initial n) else none) ∧
      ∀ n, r.outFact? n = if n < g.nodeCount then some (s.outputs a.initial n) else none := by
  rw [solve?_eq_map hentry] at h
  obtain ⟨s, hrun, rfl⟩ := Option.map_eq_some_iff.1 h
  obtain ⟨hs, -, -⟩ := of_run? hg hj hf (entryNode?_lt hentry) trivial
    (fun _ _ _ _ _ => trivial) hrun
  refine ⟨s, hrun, fun n => ?_, fun n => ?_⟩
  · rw [result, FlowResult.inFact?_ofLists]
    exact SolverState.getElem?_eq_ite hs.input_length a.initial n
  · rw [result, FlowResult.outFact?_ofLists]
    exact SolverState.getElem?_eq_ite hs.output_length a.initial n

end Results

end TacAnalysis.SuperAnalysis
