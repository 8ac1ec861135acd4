import Mathlib.Order.Monotone.Defs
import TacAnalysis.Proofs.Solver.Runs

/-!
# Solving over ordered facts

When facts are ordered, the join is a least upper bound and a run starts below everything,
a monotone transfer makes facts rise in every turn, and keeps them below every solution.
Both are said here of a set of nodes that takes facts from its own nodes only, and of a
run whose transfer `f` need not be monotone itself: facts rise while `f` does what a monotone
`h` does, and stay below the solutions of `h` while `f` stays below `h`.

Main statements: `outputs_le_succ`, `outputs_le_of_solution` and `settles_of_rank`.
-/

namespace TacAnalysis.FlowAnalysis

variable {F : Type}

/-- A sequence that takes on a higher rank whenever it changes settles, if ranks are bounded. -/
theorem settles_of_rank {x : Nat → F} {rank : F → Nat} {bound N : Nat}
    (hbound : ∀ k, rank (x k) ≤ bound)
    (hrise : ∀ k ≥ N, x (k + 1) = x k ∨ rank (x k) < rank (x (k + 1))) : Settles x := by
  induction hleft : bound - rank (x N) using Nat.strong_induction_on generalizing N with
  | _ left ih =>
    by_cases hchange : ∃ k ≥ N, x (k + 1) ≠ x k
    · obtain ⟨k, hk, hne⟩ := hchange
      have hmono : ∀ j ≥ N, rank (x N) ≤ rank (x j) := by
        intro j hj
        induction j, hj using Nat.le_induction with
        | base => exact le_rfl
        | succ j hj ih =>
          rcases hrise j hj with hsame | hlt
          · exact hsame ▸ ih
          · exact ih.trans hlt.le
      have hlt := (hrise k hk).resolve_left hne
      have hNk := hmono k hk
      have hk1 := hbound (k + 1)
      have hlater : ∀ j ≥ k + 1, x (j + 1) = x j ∨ rank (x j) < rank (x (j + 1)) :=
        fun j hj => hrise j (by omega)
      exact ih (bound - rank (x (k + 1))) (by omega) hlater rfl
    · push Not at hchange
      exact settles_of_succ_eq hchange

variable [Preorder F]

/-- The join is a least upper bound, and the initial fact is below all facts. -/
structure IsJoin (a : FlowAnalysis F) : Prop where
  /-- The initial fact is below all facts. -/
  initial_le : ∀ x, a.initial ≤ x
  /-- A fact is above a join exactly when it is above both of its parts. -/
  meet_le_iff : ∀ x y z, a.meet x y ≤ z ↔ x ≤ z ∧ y ≤ z

variable {a : FlowAnalysis F} {g : FlowGraph} {f h : NodeId → F → F} {order : WorklistOrder}

/-- What flows into a node is the least fact above what leaves its sources. -/
theorem IsJoin.gather_le_iff (hj : a.IsJoin) {x : NodeId → F} {n : NodeId} {z : F} :
    a.gather g x n ≤ z ↔ ∀ m ∈ a.sources g n, x m ≤ z := by
  rw [gather, foldl_meet_le_iff hj.meet_le_iff]
  exact and_iff_right (hj.initial_le z)

/-- Higher facts at the sources flow into a node as a higher fact. -/
theorem IsJoin.gather_mono (hj : a.IsJoin) {x y : NodeId → F} {n : NodeId}
    (hxy : ∀ m ∈ a.sources g n, x m ≤ y m) : a.gather g x n ≤ a.gather g y n :=
  hj.gather_le_iff.2 fun m hm => (hxy m hm).trans (hj.gather_le_iff.1 le_rfl m hm)

/-- At first every node but the boundary node has a fact that is below all others. -/
theorem IsJoin.outputs_start_le (hj : a.IsJoin) {n : NodeId} (hn : n ≠ a.boundaryNode g) (x : F) :
    a.outputs (a.start g order) n ≤ x := by
  have hinitial : a.outputs (a.start g order) n = a.initial := by
    unfold outputs start SolverState.start
    rw [List.getElem?_map]
    by_cases hlt : n < g.nodeCount
    · rw [List.getElem?_range hlt, Option.map_some, if_neg hn, Option.getD_some]
    · rw [List.getElem?_eq_none (by simpa using hlt)]
      rfl
  rw [hinitial]
  exact hj.initial_le x

/-! ## Nodes that take facts from their own kind -/

variable {inside : NodeId → Prop}

/-- Facts rise from turn to turn where the transfer does what a monotone one does. -/
theorem outputs_le_succ (hf : a.Computes f) (hg : g.WellFormed) (hj : a.IsJoin)
    (hsources : ∀ n, inside n → ∀ m ∈ a.sources g n, inside m)
    (hmono : ∀ n, inside n → Monotone (h n))
    (hagree : ∀ k n, inside n → f n (a.inputs (a.stateAt g order k) n) =
      h n (a.inputs (a.stateAt g order k) n)) (k : Nat) {n : NodeId} (hn : inside n) :
    a.outputs (a.stateAt g order k) n ≤ a.outputs (a.stateAt g order (k + 1)) n := by
  -- a turn cannot lower a fact that is below what the turn makes of its sources
  have hrise : ∀ k, (∀ m, inside m → m ≠ a.boundaryNode g →
        a.outputs (a.stateAt g order k) m ≤
          h m (a.gather g (a.outputs (a.stateAt g order k)) m)) →
      ∀ m, inside m →
        a.outputs (a.stateAt g order k) m ≤ a.outputs (a.stateAt g order (k + 1)) m := by
    intro k hbelow m hm
    rcases outputs_succ_eq_or hf hg order k m with hsame | hturn
    · exact hsame.ge
    · have hb : m ≠ a.boundaryNode g := fun hb =>
        (consistent_stateAt hf hg order k).boundary_idle (hb ▸ hturn.waiting)
      rw [hturn.output_eq, ← hturn.input_eq, hagree (k + 1) m hm, hturn.input_eq]
      exact hbelow m hm hb
  have hbelow : ∀ k m, inside m → m ≠ a.boundaryNode g →
      a.outputs (a.stateAt g order k) m ≤
        h m (a.gather g (a.outputs (a.stateAt g order k)) m) := by
    intro k
    induction k with
    | zero => exact fun m _ hb => hj.outputs_start_le hb _
    | succ k ih =>
      intro m hm hb
      have hgather : a.gather g (a.outputs (a.stateAt g order k)) m ≤
          a.gather g (a.outputs (a.stateAt g order (k + 1))) m :=
        hj.gather_mono fun l hl => hrise k ih l (hsources m hm l hl)
      refine le_trans ?_ (hmono m hm hgather)
      rcases outputs_succ_eq_or hf hg order k m with hsame | hturn
      · exact hsame.le.trans (ih m hm hb)
      · rw [hturn.output_eq, ← hturn.input_eq, hagree (k + 1) m hm]
  exact hrise k (hbelow k) n hn

/-- Facts stay below every solution of a monotone transfer that is above the one of the
run. -/
theorem outputs_le_of_solution (hf : a.Computes f) (hg : g.WellFormed) (hj : a.IsJoin)
    (hsources : ∀ n, inside n → ∀ m ∈ a.sources g n, inside m)
    (hmono : ∀ n, inside n → Monotone (h n)) (hle : ∀ n x, f n x ≤ h n x)
    {solution : NodeId → F} (hboundary : a.boundary ≤ solution (a.boundaryNode g))
    (hsolution : ∀ n < g.nodeCount, inside n → n ≠ a.boundaryNode g →
      h n (a.gather g solution n) ≤ solution n) (k : Nat) {n : NodeId} (hn : inside n) :
    a.outputs (a.stateAt g order k) n ≤ solution n := by
  induction k generalizing n with
  | zero =>
    by_cases hb : n = a.boundaryNode g
    · have hstart := (consistent_stateAt hf hg order 0).output_boundary
      rw [hb, hstart]
      exact hboundary
    · exact hj.outputs_start_le hb _
  | succ k ih =>
    rcases outputs_succ_eq_or hf hg order k n with hsame | hturn
    · exact hsame ▸ ih hn
    · have hs := consistent_stateAt hf hg order k
      have hb : n ≠ a.boundaryNode g := fun hb => hs.boundary_idle (hb ▸ hturn.waiting)
      calc a.outputs (a.stateAt g order (k + 1)) n
          = f n (a.gather g (a.outputs (a.stateAt g order k)) n) := hturn.output_eq
        _ ≤ h n (a.gather g (a.outputs (a.stateAt g order k)) n) := hle n _
        _ ≤ h n (a.gather g solution n) :=
          hmono n hn (hj.gather_mono fun m hm => ih (hsources n hn m hm))
        _ ≤ solution n := hsolution n (hs.waiting_lt n hturn.waiting) hn hb

end TacAnalysis.FlowAnalysis
