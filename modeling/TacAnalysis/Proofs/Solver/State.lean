import Mathlib.Logic.Function.Basic
import Mathlib.Order.Defs.PartialOrder
import TacAnalysis.Proofs.Worklist
import TacAnalysis.Solver.Basic

/-!
# States of solvers

The facts of a state are read as functions on nodes, which a turn updates in one place. A turn
also takes its node from the worklist, and after a change it puts back the nodes that depend
on it. This is the same for every solver; what a solver adds is the fact that flows into the
node, which it joins from several ones.

Main statements: `foldl_meet_le_iff`, `FlowResult.HoldsBefore.forall_inFact?_eq_iff` and
`SolverState.turns_of_pop?`.
-/

namespace TacAnalysis

/-- What facts are joined to is below all that they and the start are below. -/
theorem foldl_meet_le_iff {F α : Type} [Preorder F] {meet : F → F → F}
    (hmeet : ∀ x y z, meet x y ≤ z ↔ x ≤ z ∧ y ≤ z) {x : α → F} {places : List α} {start z : F} :
    places.foldl (fun target k => meet (x k) target) start ≤ z ↔
      start ≤ z ∧ ∀ k ∈ places, x k ≤ z := by
  induction places generalizing start with
  | nil => simp
  | cons k places ih =>
    rw [List.foldl_cons, ih, hmeet, List.forall_mem_cons]
    tauto

namespace FlowResult

variable {F : Type} {r r' : FlowResult F} {count n : Nat} {x y : Nat → F}

/-- Before the first `count` nodes, and nowhere else, the result holds the facts of a function. -/
def HoldsBefore (r : FlowResult F) (count : Nat) (x : Nat → F) : Prop :=
  ∀ n, r.inFact? n = if n < count then some (x n) else none

theorem HoldsBefore.inFact?_eq (h : r.HoldsBefore count x) (hn : n < count) :
    r.inFact? n = some (x n) := by
  rw [h n, if_pos hn]

theorem HoldsBefore.getD_inFact? (h : r.HoldsBefore count x) (hn : n < count) (default : F) :
    (r.inFact? n).getD default = x n := by
  rw [h.inFact?_eq hn, Option.getD_some]

/-- Before a node two results hold the same if the functions have the same value there. -/
theorem HoldsBefore.inFact?_eq_iff (h : r.HoldsBefore count x) (h' : r'.HoldsBefore count y)
    (hn : n < count) : r.inFact? n = r'.inFact? n ↔ x n = y n := by
  rw [h.inFact?_eq hn, h'.inFact?_eq hn, Option.some.injEq]

/-- Before all nodes two results hold the same if the functions agree on the nodes. -/
theorem HoldsBefore.forall_inFact?_eq_iff (h : r.HoldsBefore count x) (h' : r'.HoldsBefore count y) :
    (∀ n, r.inFact? n = r'.inFact? n) ↔ ∀ n < count, x n = y n := by
  constructor
  · exact fun hsame n hn => (h.inFact?_eq_iff h' hn).1 (hsame n)
  · intro hsame n
    by_cases hn : n < count
    · exact (h.inFact?_eq_iff h' hn).2 (hsame n hn)
    · rw [h n, h' n, if_neg hn, if_neg hn]

end FlowResult

namespace SolverState

variable {F : Type}

/-- The facts that flow into the nodes; a place that is no node has a default. -/
def inputs (s : SolverState F) (default : F) (n : Nat) : F := s.input[n]?.getD default

/-- The facts that leave the nodes; a place that is no node has a default. -/
def outputs (s : SolverState F) (default : F) (n : Nat) : F := s.output[n]?.getD default

/-- From `s` to `t` the node `n` takes its turn: `input` flows into it, `output` leaves it. -/
structure Turns (default : F) (dependents : Nat → List Nat) (s : SolverState F) (n : Nat)
    (input output : F) (t : SolverState F) : Prop where
  /-- The node was waiting. -/
  waiting : n ∈ s.worklist.waiting
  /-- Its input is new, and no other input changes. -/
  inputs_eq : t.inputs default = Function.update (s.inputs default) n input
  /-- Its output is new, and no other output changes. -/
  outputs_eq : t.outputs default = Function.update (s.outputs default) n output
  /-- It no longer waits, and after a change all nodes that depend on it do. -/
  mem_waiting_iff : ∀ m, m ∈ t.worklist.waiting ↔
    (m ∈ s.worklist.waiting ∧ m ≠ n) ∨ (output ≠ s.outputs default n ∧ m ∈ dependents n)
  /-- Without a change the worklist gets shorter. -/
  length_of_unchanged : output = s.outputs default n →
    t.worklist.waiting.length + 1 = s.worklist.waiting.length
  /-- The marks of the worklist stay right. -/
  worklist_valid : t.worklist.Valid
  /-- No place for an input comes or goes. -/
  input_length : t.input.length = s.input.length
  /-- No place for an output comes or goes. -/
  output_length : t.output.length = s.output.length

private theorem getD_set {xs : List F} {n m : Nat} {x d : F} (hn : n < xs.length) :
    (xs.set n x)[m]?.getD d = Function.update (fun k => xs[k]?.getD d) n x m := by
  rw [List.getElem?_set, Function.update_apply]
  by_cases hnm : n = m
  · subst hnm
    simp [hn]
  · simp [hnm, Ne.symm hnm]

/-- What is recorded for a node taken from the worklist is its turn, if changes are reported
truly. -/
theorem turns_of_pop? {default input output : F} {dependents : Nat → List Nat} {s : SolverState F}
    {n : Nat} {rest : NodeWorklist} {changed : Bool} (hvalid : s.worklist.Valid)
    (hpop : s.worklist.pop? = some (n, rest)) (hinput : n < s.input.length)
    (houtput : n < s.output.length) (hchanged : changed = true ↔ output ≠ s.outputs default n) :
    s.Turns default dependents n input output
      (s.record rest n input output changed (dependents n)) := by
  obtain ⟨hrest, hn, hmem, hlength⟩ := hvalid.pop hpop
  refine {
    waiting := hn
    inputs_eq := funext fun m => getD_set hinput
    outputs_eq := funext fun m => getD_set houtput
    mem_waiting_iff := fun m => ?_
    length_of_unchanged := fun hsame => ?_
    worklist_valid := ?_
    input_length := List.length_set
    output_length := List.length_set }
  · rw [← hchanged]
    cases changed with
    | true => simp [record, NodeWorklist.mem_pushAll hrest, hmem, or_comm]
    | false => simp [record, hmem]
  · have hfalse : changed = false := by
      rw [← Bool.not_eq_true, hchanged]
      exact not_not_intro hsame
    simpa [record, hfalse] using hlength
  · cases changed with
    | true => exact hrest.pushAll _
    | false => exact hrest

/-- The facts of a list are those at its places. -/
theorem getElem?_eq_ite {xs : List F} {count : Nat} (h : xs.length = count) (default : F) (n : Nat) :
    xs[n]? = if n < count then some (xs[n]?.getD default) else none := by
  by_cases hn : n < count
  · have hlt : n < xs.length := h ▸ hn
    rw [if_pos hn, List.getElem?_eq_getElem hlt, Option.getD_some]
  · have hle : xs.length ≤ n := h ▸ Nat.le_of_not_lt hn
    rw [if_neg hn, List.getElem?_eq_none hle]

end SolverState

end TacAnalysis
