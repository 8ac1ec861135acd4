import Mathlib.Order.Monotone.Defs
import TacAnalysis.Proofs.Solver.Inter

/-!
# Runs over a whole program below monotone transfers

A run whose transfer `f` need not be monotone is compared here with a monotone `h` that is never
below it. What leaves a node is always below what `h` makes of what has flowed into it, and what
has flowed in only rises. So a fact that flows into a node was below what `h` makes of the last
facts of its sources, and where `f` does what `h` does there, the run has kept nothing at the node
that a solution does not have.

Main statements: `inputs_le_of_carried` and `inputs_le_of_isSolution`.
-/

namespace TacAnalysis.SuperAnalysis

variable {F : Type} {a : SuperAnalysis F} {g : SuperGraph} {entry : Nat}
  {f h : Nat → F → F} {s t : SolverState F} {order : WorklistOrder} {budget k l n : Nat}

/-- The state after so many turns. -/
def stateAt (a : SuperAnalysis F) (g : SuperGraph) (entry : Nat) (order : WorklistOrder) (k : Nat) :
    SolverState F :=
  stateAfter (a.step g) k (a.start g entry order)

/-- A run that ends has reached its last state. -/
theorem stateAt_of_run? (hrun : a.run? g entry order budget = some s) (hk : budget ≤ k) :
    a.stateAt g entry order k = s := by
  obtain ⟨rfl, hended⟩ := iterate?_eq_some_iff.1 hrun
  exact stateAfter_of_ended hended hk

variable [Preorder F]

theorem consistent_stateAt (hg : g.WellFormed) (hj : a.IsJoin) (hf : a.Computes f)
    (hentry : entry < g.nodeCount) (order : WorklistOrder) (k : Nat) :
    a.Consistent g entry f (a.stateAt g entry order k) :=
  stateAfter_invariant (consistent_start hg hentry order) (fun _ _ hs h => hs.step hg hj hf h) k

/-- From one state of a run to the next there is a turn, or nothing happens. -/
theorem stateAt_succ (hg : g.WellFormed) (hj : a.IsJoin) (hf : a.Computes f)
    (hentry : entry < g.nodeCount) (order : WorklistOrder) (k : Nat) :
    a.stateAt g entry order (k + 1) = a.stateAt g entry order k ∨
      ∃ n, (a.stateAt g entry order k).Turns a.initial g.successors n
        (a.joined g (a.stateAt g entry order k) n) (f n (a.joined g (a.stateAt g entry order k) n))
        (a.stateAt g entry order (k + 1)) := by
  have hs := consistent_stateAt (f := f) hg hj hf hentry order k
  have hsucc : a.stateAt g entry order (k + 1) =
      (a.step g (a.stateAt g entry order k)).getD (a.stateAt g entry order k) := stateAfter_succ
  cases hstep : a.step g (a.stateAt g entry order k) with
  | none =>
    rw [hstep, Option.getD_none] at hsucc
    exact .inl hsucc
  | some t =>
    rw [hstep, Option.getD_some] at hsucc
    exact .inr (hsucc ▸ exists_turns hf hs hstep)

/-- All facts of every state of a run have what joins, transfers and edges keep. -/
theorem Keeps.allHold_stateAt (hg : g.WellFormed) (hj : a.IsJoin) (hf : a.Computes f)
    (hentry : entry < g.nodeCount) {holds : Nat → F → Prop} (hk : a.Keeps g entry f holds)
    (order : WorklistOrder) (k : Nat) : a.AllHold holds (a.stateAt g entry order k) := by
  induction k with
  | zero => exact hk.start order
  | succ k ih =>
    rcases stateAt_succ hg hj hf hentry order k with hsame | ⟨n, ht⟩
    · exact hsame ▸ ih
    · exact hk.turns ih ht

/-- What flows into a node only rises. -/
theorem inputs_mono (hg : g.WellFormed) (hj : a.IsJoin) (hf : a.Computes f)
    (hentry : entry < g.nodeCount) (hkl : k ≤ l) (n : Nat) :
    (a.stateAt g entry order k).inputs a.initial n ≤ (a.stateAt g entry order l).inputs a.initial n := by
  induction l, hkl using Nat.le_induction with
  | base => exact le_rfl
  | succ l _ ih =>
    refine ih.trans ?_
    rcases stateAt_succ hg hj hf hentry order l with hsame | ⟨m, ht⟩
    · exact hsame ▸ le_rfl
    · exact inputs_le_of_turns hj ht n

/-- No state of a run has more at a node than the last one. -/
theorem inputs_le_last (hg : g.WellFormed) (hj : a.IsJoin) (hf : a.Computes f)
    (hentry : entry < g.nodeCount) (hrun : a.run? g entry order budget = some s) (k n : Nat) :
    (a.stateAt g entry order k).inputs a.initial n ≤ s.inputs a.initial n := by
  rw [← stateAt_of_run? hrun (le_max_right k budget)]
  exact inputs_mono hg hj hf hentry (le_max_left k budget) n

/-- At first there is at most the boundary fact at the entry, and the initial fact elsewhere. -/
theorem inputs_start_le (hj : a.IsJoin) {x : F} (hx : n = entry → a.boundary ≤ x)
    (hn : n < g.nodeCount) (order : WorklistOrder) :
    (a.stateAt g entry order 0).inputs a.initial n ≤ x := by
  change (a.start g entry order).inputs a.initial n ≤ x
  rw [(start_eq_ite hn).1]
  split
  · rename_i hentry
    exact hx hentry
  · exact hj.initial_le x

variable (hg : g.WellFormed) (hj : a.IsJoin) (hf : a.Computes f) (hentry : entry < g.nodeCount)
  (hle : ∀ n x, f n x ≤ h n x) (hmono : ∀ n, Monotone (h n))
  (hboundary : a.boundary ≤ h entry a.boundary)

include hg hj hf hentry hle hboundary in
/-- What leaves a node is below what `h` makes of what has flowed into it. -/
theorem outputs_le_above (order : WorklistOrder) (k : Nat) (hn : n < g.nodeCount) :
    (a.stateAt g entry order k).outputs a.initial n ≤
      h n ((a.stateAt g entry order k).inputs a.initial n) := by
  induction k generalizing n with
  | zero =>
    change (a.start g entry order).outputs a.initial n ≤ h n ((a.start g entry order).inputs a.initial n)
    rw [(start_eq_ite hn).1, (start_eq_ite hn).2]
    split
    · rename_i hentry
      exact hentry ▸ hboundary
    · exact hj.initial_le _
  | succ k ih =>
    rcases stateAt_succ hg hj hf hentry order k with hsame | ⟨m, ht⟩
    · exact hsame ▸ ih hn
    · rw [ht.inputs_eq, ht.outputs_eq]
      by_cases hnm : n = m
      · rw [hnm, Function.update_self, Function.update_self]
        exact hle m _
      · rw [Function.update_of_ne hnm, Function.update_of_ne hnm]
        exact ih hn

include hg hj hf hentry hle hmono hboundary in
/-- What has flowed into a node is below all that is above the boundary fact at the entry, and
above what edges carry there when `h` transfers the last facts of their sources. -/
theorem inputs_le_of_carried (hrun : a.run? g entry order budget = some s)
    (halong : ∀ e ∈ g.edges, Monotone (a.along e)) (hn : n < g.nodeCount) {x : F}
    (hx : n = entry → a.boundary ≤ x)
    (hcarried : ∀ e ∈ g.edges, e.target = n →
      a.along e (h e.source (s.inputs a.initial e.source)) ≤ x) : s.inputs a.initial n ≤ x := by
  have hall : ∀ k, (a.stateAt g entry order k).inputs a.initial n ≤ x := by
    intro k
    induction k with
    | zero => exact inputs_start_le hj hx hn order
    | succ k ih =>
      rcases stateAt_succ hg hj hf hentry order k with hsame | ⟨m, ht⟩
      · exact hsame ▸ ih
      · rw [ht.inputs_eq, Function.update_apply]
        split
        · rename_i hnm
          subst hnm
          refine (joined_le_iff hj).2 ⟨ih, fun e he htarget => ?_⟩
          have hsource := outputs_le_above hg hj hf hentry hle hboundary order k (hg.source_lt e he)
          have hlast := inputs_le_last hg hj hf hentry hrun k e.source
          exact (halong e he (hsource.trans (hmono e.source hlast))).trans (hcarried e he htarget)
        · exact ih
  exact stateAt_of_run? hrun le_rfl ▸ hall budget

include hg hj hf hentry hle hmono hboundary in
/-- A run stays below a solution at all nodes, if it does at those behind a source at which the
solution does not transfer what `h` would. -/
theorem inputs_le_of_isSolution (hrun : a.run? g entry order budget = some s)
    (halong : ∀ e ∈ g.edges, Monotone (a.along e)) {input output : Nat → F}
    (hsolution : a.IsSolution g entry f input output)
    (hknown : ∀ e ∈ g.edges, f e.source (input e.source) = h e.source (input e.source) ∨
      s.inputs a.initial e.target ≤ input e.target) (hn : n < g.nodeCount) :
    s.inputs a.initial n ≤ input n := by
  have hall : ∀ k, ∀ n < g.nodeCount, (a.stateAt g entry order k).inputs a.initial n ≤ input n := by
    intro k
    induction k with
    | zero =>
      exact fun n hn => inputs_start_le hj (fun hn => hn ▸ hsolution.boundary_le) hn order
    | succ k ih =>
      intro n hn
      rcases stateAt_succ hg hj hf hentry order k with hsame | ⟨m, ht⟩
      · exact hsame ▸ ih n hn
      · by_cases hnm : n = m
        · subst hnm
          have hnew : (a.stateAt g entry order (k + 1)).inputs a.initial n =
              a.joined g (a.stateAt g entry order k) n := by
            rw [ht.inputs_eq, Function.update_self]
          rw [hnew]
          refine (joined_le_iff hj).2 ⟨ih n hn, fun e he htarget => ?_⟩
          rcases hknown e he with hsame | hbelow
          · have hlt := hg.source_lt e he
            have hsource := outputs_le_above hg hj hf hentry hle hboundary order k hlt
            have houtput : output e.source = h e.source (input e.source) :=
              (hsolution.output_eq e.source hlt).trans hsame
            have hcarried := hsolution.along_le e he
            rw [houtput, htarget] at hcarried
            exact (halong e he (hsource.trans (hmono e.source (ih e.source hlt)))).trans hcarried
          · -- what flows in now is below what has flowed in at the end
            rw [htarget] at hbelow
            have hjoined : a.along e ((a.stateAt g entry order k).outputs a.initial e.source) ≤
                a.joined g (a.stateAt g entry order k) n := ((joined_le_iff hj).1 le_rfl).2 e he htarget
            exact (hjoined.trans (hnew ▸ inputs_le_last hg hj hf hentry hrun (k + 1) n)).trans hbelow
        · rw [ht.inputs_eq, Function.update_of_ne hnm]
          exact ih n hn
  exact stateAt_of_run? hrun le_rfl ▸ hall budget n hn

end TacAnalysis.SuperAnalysis
