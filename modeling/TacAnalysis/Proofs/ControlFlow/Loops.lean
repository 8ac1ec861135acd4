import Mathlib.Logic.Relation
import Mathlib.Order.WellFoundedSet
import TacAnalysis.Proofs.ControlFlow.WellFormed

/-!
# Loops

A node lies on a loop when control can come back to it. Away from loops every node comes
after its predecessors, so what holds on all loops, and is passed from the predecessors of
a node to the node, holds everywhere.

Main statement: `induction_behind_loops`.
-/

namespace TacAnalysis.FlowGraph

open Relation

variable (g : FlowGraph)

/-- Control goes from one node to another along an edge. -/
def Follows (n m : NodeId) : Prop := n ∈ g.predecessors m

/-- Control can come back to the node. -/
def OnLoop (n : NodeId) : Prop := TransGen g.Follows n n

/-- Control can come from the node to a loop, or the node lies on one. -/
def BeforeLoop (n : NodeId) : Prop := ∃ m, ReflTransGen g.Follows n m ∧ g.OnLoop m

variable {g}

theorem OnLoop.beforeLoop {n : NodeId} (h : g.OnLoop n) : g.BeforeLoop n := ⟨n, .refl, h⟩

/-- What comes before a node before a loop is before that loop as well. -/
theorem BeforeLoop.predecessor {n m : NodeId} (h : g.BeforeLoop n) (hm : m ∈ g.predecessors n) :
    g.BeforeLoop m := by
  obtain ⟨k, hk, hloop⟩ := h
  exact ⟨k, .head hm hk, hloop⟩

theorem Follows.lt_nodeCount (hg : g.WellFormed) {n m : NodeId} (h : g.Follows n m) :
    n < g.nodeCount := by
  obtain ⟨e, he, -, rfl⟩ := mem_predecessors.1 h
  exact Nat.lt_succ_of_lt (hg.source_lt e he)

theorem OnLoop.lt_nodeCount (hg : g.WellFormed) {n : NodeId} (h : g.OnLoop n) : n < g.nodeCount := by
  obtain ⟨m, hnm, -⟩ := TransGen.head'_iff.1 h
  exact hnm.lt_nodeCount hg

/-- A path without a loop through its first node never comes back, so among finitely
many nodes such paths are well founded. -/
theorem wellFoundedOn_paths :
    {n | n < g.nodeCount}.WellFoundedOn fun n m => TransGen g.Follows n m ∧ ¬ g.OnLoop n := by
  have : IsTrans NodeId fun n m => TransGen g.Follows n m ∧ ¬ g.OnLoop n :=
    ⟨fun _ _ _ hnm hmk => ⟨hnm.1.trans hmk.1, hnm.2⟩⟩
  have : Std.Irrefl fun n m => TransGen g.Follows n m ∧ ¬ g.OnLoop n :=
    ⟨fun _ h => h.2 h.1⟩
  have : IsStrictOrder NodeId fun n m => TransGen g.Follows n m ∧ ¬ g.OnLoop n := {}
  exact (Set.finite_lt_nat g.nodeCount).wellFoundedOn

/-- What holds on all loops, and holds of a node when it holds of its predecessors, holds
of every node. -/
theorem induction_behind_loops (hg : g.WellFormed) {holds : NodeId → Prop}
    (hloop : ∀ n, g.OnLoop n → holds n)
    (hnext : ∀ n < g.nodeCount, (∀ m ∈ g.predecessors n, holds m) → holds n)
    {n : NodeId} (hn : n < g.nodeCount) : holds n := by
  refine wellFoundedOn_paths.induction hn fun m hm ih => hnext m hm fun k hk => ?_
  by_cases hkloop : g.OnLoop k
  · exact hloop k hkloop
  · exact ih k (Follows.lt_nodeCount hg hk) ⟨.single hk, hkloop⟩

end TacAnalysis.FlowGraph
