import TacAnalysis.Proofs.Strict.Tables
import TacAnalysis.Proofs.Worklist
import TacAnalysis.Solver.Basic

/-!
# Strict solvers

A solver keeps the facts of its nodes in two tables and marks the waiting nodes in a third, all of
the same size. Here its turns are strict: the marks and facts of the node, what it joins, its
transfer and the nodes that depend on it are looked up.

A state fits if its tables have their size and only numbers below it wait, each of them once. Turns
keep this, whatever the facts are, so no turn looks outside the tables if what it is made of does not.

Main statements: `Fits.turn?_eq_some` and `Turning.Agrees.after?_eq_some`.
-/

namespace TacAnalysis.Strict

variable {F : Type}

/-- Adds a node to a worklist, unless it is waiting already; there have to be marks for it. -/
def push? (size : Nat) (w : NodeWorklist) (n : Nat) : Option NodeWorklist :=
  if n ∈ w.marks then some w
  else if n < size then some (w.push n) else none

/-- The state before the first turn. -/
def start? (size boundary : Nat) (boundaryFact? : Option F) (initial : F) (order : WorklistOrder)
    (waiting : List Nat) : Option (SolverState F) := do
  let facts ← (List.range size).mapM fun n => if n = boundary then boundaryFact? else some initial
  let worklist ← waiting.foldlM (push? size) (.empty order)
  return ⟨facts, facts, worklist, []⟩

/-- What a solver does in a turn: what it joins, how it transfers that, and which nodes depend on
the node. -/
structure Turning (F : Type) where
  /-- The facts that flow into a node in a state, joined. -/
  joined? : SolverState F → Nat → Option F
  /-- The new output of a node, and whether it counts as a change. -/
  transfer? : Nat → F → F → Option (Bool × F)
  /-- The nodes to look at again after a change. -/
  dependents? : Nat → Option (List Nat)

/-- A turn: nothing if a lookup fails, otherwise the next state or that no node is waiting. -/
def Turning.turn? (d : Turning F) (size : Nat) (s : SolverState F) :
    Option (Option (SolverState F)) := do
  match s.worklist.pop? with
  | none => return none
  | some (n, worklist) =>
    if n < size ∧ n < s.input.length then
      let input ← d.joined? s n
      let old ← s.output[n]?
      let (changed, output) ← d.transfer? n input old
      let dependents ← if changed then d.dependents? n else some []
      let worklist ← dependents.foldlM (push? size) worklist
      return some ⟨s.input.set n input, s.output.set n output, worklist, ⟨n, changed⟩ :: s.history⟩
    else none

/-- The turn of a solver that is total. -/
def turn (initial : F) (joined : SolverState F → Nat → F) (transfer : Nat → F → F → Bool × F)
    (dependents : Nat → List Nat) (s : SolverState F) : Option (SolverState F) := do
  let (n, worklist) ← s.worklist.pop?
  let input := joined s n
  let (changed, output) := transfer n input (s.output[n]?.getD initial)
  return s.record worklist n input output changed (dependents n)

/-- Nodes below `size` have their facts, and only such nodes wait. -/
structure Fits (size : Nat) (s : SolverState F) : Prop where
  /-- Every node has an input. -/
  input_length : s.input.length = size
  /-- Every node has an output. -/
  output_length : s.output.length = size
  /-- Waiting nodes are marked, and wait once. -/
  valid : s.worklist.Valid
  /-- Only nodes wait. -/
  waiting_lt : ∀ n ∈ s.worklist.waiting, n < size

variable {size : Nat}

/-! ## Worklists -/

theorem push?_eq_some {w : NodeWorklist} {n : Nat} (hn : n < size) :
    push? size w n = some (w.push n) := by
  rw [push?, if_pos hn, NodeWorklist.push]
  split <;> rfl

/-- Nodes that have marks can be pushed. -/
theorem foldlM_push? {w : NodeWorklist} {ns : List Nat} (hns : ∀ n ∈ ns, n < size) :
    ns.foldlM (push? size) w = some (w.pushAll ns) :=
  foldlM_eq_some_of_forall (fun n hn _ => push?_eq_some (hns n hn)) w

/-! ## Runs -/

/-- The state before the first turn fits. -/
theorem start?_eq_some (boundary : Nat) (boundaryFact initial : F) (order : WorklistOrder)
    {waiting : List Nat} (hwaiting : ∀ n ∈ waiting, n < size) :
    start? size boundary (some boundaryFact) initial order waiting =
        some (.start size boundary boundaryFact initial order waiting) ∧
      Fits size (SolverState.start size boundary boundaryFact initial order waiting) := by
  have hfacts : (List.range size).mapM
      (fun n => if n = boundary then some boundaryFact else some initial) =
        some ((List.range size).map fun n => if n = boundary then boundaryFact else initial) :=
    mapM_eq_some_map fun n _ => by split <;> rfl
  have hempty := NodeWorklist.valid_empty order
  refine ⟨?_, by simp [SolverState.start], by simp [SolverState.start], hempty.pushAll waiting,
    fun n hn => ?_⟩
  · rw [start?, hfacts, foldlM_push? hwaiting]
    rfl
  · rcases (NodeWorklist.mem_pushAll hempty).1 hn with hn | hn
    · exact hwaiting n hn
    · cases hn

/-- The parts of a strict turn do what the parts of a total one do, at nodes below `size` in
states that fit. -/
structure Turning.Agrees (d : Turning F) (size : Nat) (joined : SolverState F → Nat → F)
    (transfer : Nat → F → F → Bool × F) (dependents : Nat → List Nat) : Prop where
  /-- The same is joined. -/
  joined_eq : ∀ s n, Fits size s → n < size → d.joined? s n = some (joined s n)
  /-- Transfers are the same. -/
  transfer_eq : ∀ n input output, n < size → d.transfer? n input output = some (transfer n input output)
  /-- The same nodes depend on a node. -/
  dependents_eq : ∀ n < size, d.dependents? n = some (dependents n)
  /-- Only nodes depend on a node. -/
  dependent_lt : ∀ n < size, ∀ m ∈ dependents n, m < size

variable {d : Turning F} {initial : F} {joined : SolverState F → Nat → F}
  {transfer : Nat → F → F → Bool × F} {dependents : Nat → List Nat} {s : SolverState F}

/-- Recording the turn of a waiting node on which only nodes depend leads to a state that fits. -/
theorem Fits.record (hs : Fits size s) {n : Nat} {rest : NodeWorklist}
    (hpop : s.worklist.pop? = some (n, rest)) {ns : List Nat} (hns : ∀ m ∈ ns, m < size)
    (input output : F) (changed : Bool) : Fits size (s.record rest n input output changed ns) := by
  obtain ⟨hvalid, -, hrest, -⟩ := hs.valid.pop hpop
  have hleft : ∀ m ∈ rest.waiting, m < size := fun m hm => hs.waiting_lt m ((hrest m).1 hm).1
  refine ⟨by simp [SolverState.record, hs.input_length], by simp [SolverState.record, hs.output_length],
    ?_, ?_⟩
  · cases changed with
    | true => exact hvalid.pushAll ns
    | false => exact hvalid
  · cases changed with
    | true => exact fun m hm => ((NodeWorklist.mem_pushAll hvalid).1 hm).elim (hns m) (hleft m)
    | false => exact hleft

/-- A turn from a state that fits looks up nothing outside the tables, and leads to one that
fits. -/
theorem Fits.turn?_eq_some (hs : Fits size s) (hd : d.Agrees size joined transfer dependents) :
    d.turn? size s = some (turn initial joined transfer dependents s) ∧
      ∀ t, turn initial joined transfer dependents s = some t → Fits size t := by
  unfold Turning.turn? turn
  rcases hpop : s.worklist.pop? with _ | ⟨n, rest⟩
  · exact ⟨rfl, fun t ht => by cases ht⟩
  obtain ⟨-, hwaiting, -, -⟩ := hs.valid.pop hpop
  have hn : n < size := hs.waiting_lt n hwaiting
  have hinput : n < s.input.length := hs.input_length.symm ▸ hn
  have houtput : n < s.output.length := hs.output_length.symm ▸ hn
  have hdependents := hd.dependent_lt n hn
  refine ⟨?_, fun t ht => Option.some.inj ht ▸ hs.record hpop hdependents _ _ _⟩
  simp only [Option.bind_eq_bind, Option.bind_some, if_pos (And.intro hn hinput),
    hd.joined_eq s n hs hn, List.getElem?_eq_getElem houtput, Option.getD_some,
    hd.transfer_eq n _ _ hn, SolverState.record]
  cases (transfer n (joined s n) s.output[n]).1 with
  | true =>
    simp only [if_pos, hd.dependents_eq n hn, Option.bind_some, foldlM_push? hdependents]
    rfl
  | false => rfl

/-- However many turns a solver takes from a state that fits, it looks up nothing outside the
tables. -/
theorem Turning.Agrees.after?_eq_some (hd : d.Agrees size joined transfer dependents)
    (hs : Fits size s) (turns : Nat) :
    after? (d.turn? size) turns s =
      some (stateAfter (turn initial joined transfer dependents) turns s) :=
  Strict.after?_eq_some (fun _ hs => (hs.turn?_eq_some hd).1)
    (fun _ t hs => (hs.turn?_eq_some hd).2 t) hs turns

end TacAnalysis.Strict
