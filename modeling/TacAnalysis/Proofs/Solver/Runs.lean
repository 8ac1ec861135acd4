import Mathlib.Data.List.Induction
import Mathlib.Order.Lattice
import TacAnalysis.Proofs.Solver.Turn

/-!
# Runs of the solver

A run takes one turn after the other until no node is waiting. Each turn changes what
leaves one node, so a run is over soon after the facts that leave the nodes have stopped
changing: from then on every turn only shortens the worklist. Where a run is over, the
facts satisfy the equations of the analysis.

Main statements: `exists_run?_iff_settles`, a run ends exactly when all facts settle,
`settles_of_sources`, a node settles after its sources, and `isSolution_of_run?`.
-/

namespace TacAnalysis

/-! ## Facts by node -/

namespace FlowResult

variable {F : Type}

/-- The table of a list binds each position to the element there. -/
theorem get?_ofList_zipIdx (facts : List F) (n : Nat) :
    (IdMap.ofList (facts.zipIdx.map fun e => (e.2, e.1))).get? n = facts[n]? := by
  induction facts using List.reverseRecOn with
  | nil => rfl
  | append_singleton facts fact ih =>
    have hlast : IdMap.ofList ((facts ++ [fact]).zipIdx.map fun e => (e.2, e.1)) =
        (IdMap.ofList (facts.zipIdx.map fun e => (e.2, e.1))).insert facts.length fact := by
      simp [IdMap.ofList, List.zipIdx_append]
    rw [hlast, IdMap.get?_insert, ih]
    grind

@[simp] theorem inFact?_ofLists (inFacts outFacts : List F) (iterations n : Nat) :
    (ofLists inFacts outFacts iterations).inFact? n = inFacts[n]? :=
  get?_ofList_zipIdx inFacts n

@[simp] theorem outFact?_ofLists (inFacts outFacts : List F) (iterations n : Nat) :
    (ofLists inFacts outFacts iterations).outFact? n = outFacts[n]? :=
  get?_ofList_zipIdx outFacts n

/-- Two results hold the same facts exactly when no node tells them apart. -/
theorem sameFacts_iff [DecidableEq F] {r t : FlowResult F} :
    r.sameFacts t = true ↔ ∀ n, r.inFact? n = t.inFact? n ∧ r.outFact? n = t.outFact? n := by
  simp only [sameFacts, Bool.and_eq_true, decide_eq_true_eq, IdMap.ext_iff, forall_and]
  rfl

end FlowResult

namespace FlowAnalysis

variable {F : Type}

/-- The state of the solver after a number of turns. -/
def stateAt (a : FlowAnalysis F) (g : FlowGraph) (order : WorklistOrder) (k : Nat) :
    SolverState F :=
  stateAfter (a.step g) k (a.start g order)

/-- A sequence of facts settles when it is constant from some index on. -/
def Settles (x : Nat → F) : Prop := ∃ N, ∀ k ≥ N, x k = x N

variable {a : FlowAnalysis F} {g : FlowGraph} {f : NodeId → F → F} {order : WorklistOrder}

/-- A sequence that no longer changes from one index to the next settles. -/
theorem settles_of_succ_eq {x : Nat → F} {N : Nat} (h : ∀ k ≥ N, x (k + 1) = x k) : Settles x := by
  refine ⟨N, fun k hk => ?_⟩
  induction k, hk using Nat.le_induction with
  | base => rfl
  | succ k hk ih => rw [h k hk, ih]

/-- Finitely many sequences that settle do so together. -/
theorem exists_settled {x : Nat → NodeId → F} {count : Nat}
    (h : ∀ n < count, Settles fun k => x k n) : ∃ N, ∀ k ≥ N, ∀ n < count, x k n = x N n := by
  induction count with
  | zero => exact ⟨0, fun _ _ n hn => absurd hn (Nat.not_lt_zero n)⟩
  | succ count ih =>
    obtain ⟨N, hN⟩ := ih fun n hn => h n (Nat.lt_succ_of_lt hn)
    obtain ⟨M, hM⟩ := h count (Nat.lt_succ_self count)
    refine ⟨max N M, fun k hk n hn => ?_⟩
    have hkN : N ≤ k := le_trans (le_max_left N M) hk
    have hkM : M ≤ k := le_trans (le_max_right N M) hk
    rcases Nat.lt_succ_iff_lt_or_eq.1 hn with hn | rfl
    · rw [hN k hkN n hn, hN _ (le_max_left N M) n hn]
    · exact (hM k hkM).trans (hM _ (le_max_right N M)).symm

/-! ## What every run keeps -/

/-- The invariant of the solver holds all along a run. -/
theorem consistent_stateAt (hf : a.Computes f) (hg : g.WellFormed) (order : WorklistOrder)
    (k : Nat) :
    a.Consistent g f (a.stateAt g order k) :=
  stateAfter_invariant (consistent_start order) (fun _ _ hs h => hs.step hf hg h) k

/-- From one state to the next a node takes its turn, unless the run is over. -/
theorem stateAt_succ (hf : a.Computes f) (hg : g.WellFormed) (order : WorklistOrder) (k : Nat) :
    (a.stateAt g order (k + 1) = a.stateAt g order k ∧
        (a.stateAt g order k).worklist.waiting = []) ∨
      ∃ n, a.Turn g f (a.stateAt g order k) n (a.stateAt g order (k + 1)) := by
  unfold stateAt
  rw [stateAfter_succ]
  cases h : a.step g (stateAfter (a.step g) k (a.start g order)) with
  | none => exact .inl ⟨rfl, step_eq_none_iff.1 h⟩
  | some t => exact .inr (exists_turn hf (consistent_stateAt hf hg order k) h)

/-- What leaves a node changes in its own turn only. -/
theorem outputs_succ_eq_or (hf : a.Computes f) (hg : g.WellFormed) (order : WorklistOrder)
    (k : Nat) (n : NodeId) :
    a.outputs (a.stateAt g order (k + 1)) n = a.outputs (a.stateAt g order k) n ∨
      a.Turn g f (a.stateAt g order k) n (a.stateAt g order (k + 1)) := by
  rcases stateAt_succ hf hg order k with ⟨h, -⟩ | ⟨m, hm⟩
  · exact .inl (by rw [h])
  · by_cases hnm : n = m
    · exact .inr (hnm ▸ hm)
    · exact .inl (by rw [hm.outputs_eq, Function.update_of_ne hnm])

/-- A place that is not a node holds nothing. -/
theorem outputs_of_le (hf : a.Computes f) (hg : g.WellFormed) (k : Nat) {n : NodeId}
    (hn : g.nodeCount ≤ n) : a.outputs (a.stateAt g order k) n = a.initial := by
  have hlength := (consistent_stateAt hf hg order k).output_length
  unfold outputs
  rw [List.getElem?_eq_none (by rw [hlength]; exact hn), Option.getD_none]

/-- What a join keeps holds of what flows into a node. -/
theorem gather_induction {holds : F → Prop} (hinitial : holds a.initial)
    (hmeet : ∀ x y, holds x → holds y → holds (a.meet x y)) {x : NodeId → F}
    (hx : ∀ n, holds (x n)) (n : NodeId) : holds (a.gather g x n) := by
  have hfold : ∀ (ms : List NodeId) (start : F), holds start →
      holds (ms.foldl (fun target m => a.meet (x m) target) start) := by
    intro ms
    induction ms with
    | nil => exact fun _ h => h
    | cons m ms ih => exact fun start h => ih _ (hmeet (x m) start (hx m) h)
  exact hfold _ _ hinitial

/-- What the boundary fact and the initial fact have in common, and joins and transfers
keep, all facts of a run have in common. -/
theorem facts_induction {holds : F → Prop} (hf : a.Computes f) (hg : g.WellFormed)
    (hboundary : holds a.boundary) (hinitial : holds a.initial)
    (hmeet : ∀ x y, holds x → holds y → holds (a.meet x y))
    (hnode : ∀ n x, holds x → holds (f n x)) (k : Nat) (n : NodeId) :
    holds (a.inputs (a.stateAt g order k) n) ∧ holds (a.outputs (a.stateAt g order k) n) := by
  induction k generalizing n with
  | zero =>
    have hstart : ∀ m : Nat, holds (((List.range g.nodeCount).map fun n =>
        if n = a.boundaryNode g then a.boundary else a.initial)[m]?.getD a.initial) := by
      intro m
      rw [List.getElem?_map]
      cases (List.range g.nodeCount)[m]? with
      | none => exact hinitial
      | some j =>
        simp only [Option.map_some, Option.getD_some]
        split
        · exact hboundary
        · exact hinitial
    exact ⟨hstart n, hstart n⟩
  | succ k ih =>
    rcases stateAt_succ hf hg order k with ⟨h, -⟩ | ⟨m, hm⟩
    · exact h ▸ ih n
    · have hgather := gather_induction (g := g) hinitial hmeet (fun n => (ih n).2) m
      rw [hm.inputs_eq, hm.outputs_eq]
      by_cases hnm : n = m
      · subst hnm
        simpa only [Function.update_self] using ⟨hgather, hnode n _ hgather⟩
      · simpa only [Function.update_of_ne hnm] using ih n

/-- A node settles after its sources: from then on each of its turns gives the same. -/
theorem settles_of_sources (hf : a.Computes f) (hg : g.WellFormed) {n : NodeId}
    (h : ∀ m ∈ a.sources g n, Settles fun k => a.outputs (a.stateAt g order k) m) :
    Settles fun k => a.outputs (a.stateAt g order k) n := by
  classical
  have hsources : ∀ m < g.nodeCount, Settles fun k =>
      if m ∈ a.sources g n then a.outputs (a.stateAt g order k) m else a.initial := by
    intro m _
    by_cases hm : m ∈ a.sources g n
    · simpa only [hm, ↓reduceIte] using h m hm
    · simpa only [hm, ↓reduceIte] using ⟨0, fun _ _ => rfl⟩
  obtain ⟨N, hN⟩ := exists_settled hsources
  have hgather : ∀ k ≥ N, a.gather g (a.outputs (a.stateAt g order k)) n =
      a.gather g (a.outputs (a.stateAt g order N)) n := by
    refine fun k hk => gather_congr fun m hm => ?_
    simpa only [hm, ↓reduceIte] using hN k hk m (sources_lt hg hm)
  -- the first turn after `N`, if there is one, gives the value that all later turns give
  set value := f n (a.gather g (a.outputs (a.stateAt g order N)) n) with hvalue
  by_cases hturn : ∃ k ≥ N, a.outputs (a.stateAt g order (k + 1)) n ≠
      a.outputs (a.stateAt g order k) n
  · obtain ⟨k, hk, hchange⟩ := hturn
    have hlater : ∀ j ≥ k + 1, a.outputs (a.stateAt g order j) n = value := by
      intro j hj
      induction j, hj using Nat.le_induction with
      | base =>
        have ht := (outputs_succ_eq_or hf hg order k n).resolve_left hchange
        rw [ht.output_eq, hgather k hk]
      | succ j hj ih =>
        rcases outputs_succ_eq_or hf hg order j n with hsame | ht
        · rw [hsame, ih]
        · rw [ht.output_eq, hgather j (by omega)]
    exact ⟨k + 1, fun j hj => (hlater j hj).trans (hlater _ le_rfl).symm⟩
  · push Not at hturn
    exact settles_of_succ_eq hturn

/-! ## The end of a run -/

/-- Once no output changes, every turn takes a node from the worklist. -/
theorem exists_waiting_eq_nil (hf : a.Computes f) (hg : g.WellFormed) {N : Nat}
    (h : ∀ k ≥ N, a.outputs (a.stateAt g order (k + 1)) = a.outputs (a.stateAt g order k)) :
    ∃ k ≥ N, (a.stateAt g order k).worklist.waiting = [] := by
  by_contra hnever
  push Not at hnever
  have hlength : ∀ j, (a.stateAt g order (N + j)).worklist.waiting.length + j =
      (a.stateAt g order N).worklist.waiting.length := by
    intro j
    induction j with
    | zero => rfl
    | succ j ih =>
      obtain ⟨n, ht⟩ := (stateAt_succ hf hg order (N + j)).resolve_left fun hover =>
        hnever (N + j) (Nat.le_add_right N j) hover.2
      have := ht.length_of_unchanged (congrFun (h (N + j) (Nat.le_add_right N j)) n)
      rw [← ih, ← this, Nat.add_assoc N j 1]
      omega
  have := hlength ((a.stateAt g order N).worklist.waiting.length + 1)
  omega

theorem run?_eq_some_iff {budget : Nat} {s : SolverState F} :
    a.run? g order budget = some s ↔ a.stateAt g order budget = s ∧ s.worklist.waiting = [] := by
  rw [run?, iterate?_eq_some_iff, step_eq_none_iff, stateAt]

/-- After its end a run stays where it is. -/
theorem stateAt_of_run? {budget k : Nat} {s : SolverState F} (h : a.run? g order budget = some s)
    (hk : budget ≤ k) : a.stateAt g order k = s := by
  obtain ⟨rfl, hover⟩ := run?_eq_some_iff.1 h
  exact stateAfter_of_ended (step_eq_none_iff.2 hover) hk

/-- A run ends exactly when what leaves each node settles. -/
theorem exists_run?_iff_settles (hf : a.Computes f) (hg : g.WellFormed) :
    (∃ budget s, a.run? g order budget = some s) ↔
      ∀ n < g.nodeCount, Settles fun k => a.outputs (a.stateAt g order k) n := by
  constructor
  · rintro ⟨budget, s, hs⟩ n -
    refine ⟨budget, fun k hk => ?_⟩
    dsimp only
    rw [stateAt_of_run? hs hk, stateAt_of_run? hs le_rfl]
  · intro h
    obtain ⟨N, hN⟩ := exists_settled h
    have hconstant : ∀ k ≥ N, a.outputs (a.stateAt g order (k + 1)) =
        a.outputs (a.stateAt g order k) := by
      intro k hk
      funext n
      rcases Nat.lt_or_ge n g.nodeCount with hn | hn
      · rw [hN k hk n hn, hN (k + 1) (by omega) n hn]
      · rw [outputs_of_le hf hg _ hn, outputs_of_le hf hg _ hn]
    obtain ⟨k, -, hover⟩ := exists_waiting_eq_nil hf hg hconstant
    exact ⟨k, _, run?_eq_some_iff.2 ⟨rfl, hover⟩⟩

/-- Where a run ends, the facts satisfy the equations. -/
theorem isSolution_of_run? (hf : a.Computes f) (hg : g.WellFormed) {budget : Nat}
    {s : SolverState F} (h : a.run? g order budget = some s) :
    a.IsSolution g f (a.inputs s) (a.outputs s) := by
  obtain ⟨rfl, hover⟩ := run?_eq_some_iff.1 h
  have hs := consistent_stateAt hf hg order budget
  have hidle : ∀ n, n ∉ (a.stateAt g order budget).worklist.waiting := by simp [hover]
  exact ⟨hs.input_boundary, hs.output_boundary,
    fun n hn hb => hs.input_eq n hn hb (hidle n), fun n hn hb => hs.output_eq n hn hb (hidle n)⟩

/-! ## Results -/

theorem exists_solve?_iff {budget : Nat} :
    (∃ r, a.solve? g order budget = some r) ↔ ∃ s, a.run? g order budget = some s := by
  simp [solve?]

/-- What a result says to flow into a node: the fact before the node if facts flow forward,
and the one behind it otherwise. -/
def entering? (a : FlowAnalysis F) (r : FlowResult F) (n : NodeId) : Option F :=
  match a.direction with
  | .forward => r.inFact? n
  | .backward => r.outFact? n

/-- What a result says to leave a node: the fact on the other side. -/
def leaving? (a : FlowAnalysis F) (r : FlowResult F) (n : NodeId) : Option F :=
  match a.direction with
  | .forward => r.outFact? n
  | .backward => r.inFact? n

/-- A result holds the facts of the last state, on the sides that the direction says. -/
theorem facts_of_solve? (hf : a.Computes f) (hg : g.WellFormed) {budget : Nat} {r : FlowResult F}
    (h : a.solve? g order budget = some r) :
    ∃ s, a.run? g order budget = some s ∧
      (∀ n, a.entering? r n = if n < g.nodeCount then some (a.inputs s n) else none) ∧
      ∀ n, a.leaving? r n = if n < g.nodeCount then some (a.outputs s n) else none := by
  obtain ⟨s, hs, rfl⟩ := Option.map_eq_some_iff.1 h
  obtain ⟨rfl, -⟩ := run?_eq_some_iff.1 hs
  have hfacts := consistent_stateAt hf hg order budget
  have hinput : ∀ n, (a.stateAt g order budget).input[n]? =
      if n < g.nodeCount then some (a.inputs (a.stateAt g order budget) n) else none :=
    SolverState.getElem?_eq_ite hfacts.input_length a.initial
  have houtput : ∀ n, (a.stateAt g order budget).output[n]? =
      if n < g.nodeCount then some (a.outputs (a.stateAt g order budget) n) else none :=
    SolverState.getElem?_eq_ite hfacts.output_length a.initial
  refine ⟨_, hs, fun n => ?_, fun n => ?_⟩
  · rw [← hinput, entering?, result]
    cases a.direction with
    | forward => exact FlowResult.inFact?_ofLists _ _ _ n
    | backward => exact FlowResult.outFact?_ofLists _ _ _ n
  · rw [← houtput, leaving?, result]
    cases a.direction with
    | forward => exact FlowResult.outFact?_ofLists _ _ _ n
    | backward => exact FlowResult.inFact?_ofLists _ _ _ n

/-- The result of a forward analysis holds the facts of the last state. -/
theorem solve?_eq_some (hf : a.Computes f) (hg : g.WellFormed) (hd : a.direction = .forward)
    {budget : Nat} {r : FlowResult F} (h : a.solve? g order budget = some r) :
    ∃ s, a.run? g order budget = some s ∧
      (∀ n, r.inFact? n = if n < g.nodeCount then some (a.inputs s n) else none) ∧
      ∀ n, r.outFact? n = if n < g.nodeCount then some (a.outputs s n) else none := by
  have hfacts := facts_of_solve? hf hg h
  simpa only [entering?, leaving?, hd] using hfacts

/-! ## Runs that come back -/

/-- The state without the turns that led to it. -/
def forget (s : SolverState F) : SolverState F := { s with history := [] }

/-- The next state without the turns that led to it, which no turn depends on. -/
def forgetfulStep (a : FlowAnalysis F) (g : FlowGraph) (s : SolverState F) :
    Option (SolverState F) :=
  (a.step g s).map forget

/-- A turn depends on earlier turns through facts and worklist only. -/
theorem forgetfulStep_forget (s : SolverState F) :
    a.forgetfulStep g (forget s) = (a.step g s).map forget := by
  unfold forgetfulStep step forget
  cases s.worklist.pop? <;> rfl

/-- A run that comes back to the same facts and the same worklist never ends. -/
theorem solve?_eq_none_of_period {n p : Nat} (hp : 0 < p)
    (hback : stateAfter (a.forgetfulStep g) p
        (stateAfter (a.forgetfulStep g) n (a.start g order)) =
      stateAfter (a.forgetfulStep g) n (a.start g order))
    (hwaiting : (stateAfter (a.forgetfulStep g) n (a.start g order)).worklist.waiting ≠ [])
    (budget : Nat) : a.solve? g order budget = none := by
  rw [Option.eq_none_iff_forall_ne_some]
  intro r hr
  obtain ⟨s, hs⟩ := exists_solve?_iff.1 ⟨r, hr⟩
  obtain ⟨rfl, hover⟩ := run?_eq_some_iff.1 hs
  have hview : forget (a.stateAt g order budget) =
      stateAfter (a.forgetfulStep g) budget (a.start g order) :=
    stateAfter_view forgetfulStep_forget budget _
  have hstep : a.forgetfulStep g (stateAfter (a.forgetfulStep g) n (a.start g order)) ≠ none :=
    fun h => hwaiting (step_eq_none_iff.1 (Option.map_eq_none_iff.1 h))
  refine step_ne_none_of_period hp hback hstep budget ?_
  rw [← hview, forgetfulStep_forget, step_eq_none_iff.2 hover, Option.map_none]

end FlowAnalysis

end TacAnalysis
