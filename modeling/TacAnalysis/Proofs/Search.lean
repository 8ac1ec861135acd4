import Mathlib.Data.List.Nodup
import Mathlib.Logic.Relation
import TacAnalysis.Search

/-!
# Searches find what can be reached

A turn of a search takes one pending node. A node that is visited for the first time adds
its successors, and it does so once, so the pending nodes and the successors that are
still to be added bound the turns that are left. Within these turns the search visits
exactly the nodes that can be reached from the pending ones.

Main statements: `mem_depthFirst`, `mem_breadthFirst`, that neither lists a node twice,
`head?_depthFirst`, and `visitWithin?_start`, a search is over after the turns that are set for it.
-/

namespace TacAnalysis.Search

open Relation

variable {next : Nat → List Nat} {arrange : List Nat → List Nat → List Nat} {size : Nat}

/-- A node is a successor of another. -/
def Leads (next : Nat → List Nat) (n m : Nat) : Prop := m ∈ next n

/-- How many successors the nodes below `size` that are not visited have. -/
def unexplored (next : Nat → List Nat) (visited : List Nat) : Nat → Nat
  | 0 => 0
  | size + 1 => unexplored next visited size + if size ∈ visited then 0 else (next size).length

/-- At first the turns suffice for the pending nodes and all successors. -/
theorem turnBound_eq (next : Nat → List Nat) (size : Nat) (pending : List Nat) :
    turnBound next size pending = pending.length + unexplored next [] size := by
  unfold turnBound
  induction size with
  | zero => rfl
  | succ size ih =>
    rw [List.range_succ, List.foldl_append, ih, List.foldl_cons, List.foldl_nil, unexplored,
      if_neg List.not_mem_nil, Nat.add_assoc]

/-- A visit of a node that is not below `size` explores nothing there. -/
theorem unexplored_of_le {visited : List Nat} {n : Nat} (hn : size ≤ n) :
    unexplored next (visited ++ [n]) size = unexplored next visited size := by
  induction size with
  | zero => rfl
  | succ size ih =>
    have hne : size ≠ n := by omega
    simp only [unexplored, ih (by omega), List.mem_append, List.mem_singleton, hne, or_false]

/-- The first visit of a node explores its successors. -/
theorem unexplored_visit {visited : List Nat} {n : Nat} (hn : n < size) (hnew : n ∉ visited) :
    unexplored next (visited ++ [n]) size + (next n).length = unexplored next visited size := by
  induction size with
  | zero => exact absurd hn (Nat.not_lt_zero n)
  | succ size ih =>
    rcases Nat.lt_succ_iff_lt_or_eq.1 hn with hlt | rfl
    · have hne : size ≠ n := by omega
      have := ih hlt
      simp only [unexplored, List.mem_append, List.mem_singleton, hne, or_false]
      omega
    · have hvisited : n ∈ visited ++ [n] := by simp
      rw [unexplored, unexplored, unexplored_of_le (Nat.le_refl n), if_pos hvisited, if_neg hnew]
      omega

/-- What holds between two turns: nodes stay below `size`, the turns suffice, and the
successors of visited nodes are visited or pending. -/
structure Underway (next : Nat → List Nat) (size turns : Nat) (visited pending : List Nat) :
    Prop where
  /-- Pending nodes are below `size`. -/
  pending_lt : ∀ n ∈ pending, n < size
  /-- No node is visited twice. -/
  nodup : visited.Nodup
  /-- There are turns for all nodes that are or will be pending. -/
  enough : pending.length + unexplored next visited size ≤ turns
  /-- Successors of visited nodes are not forgotten. -/
  closed : ∀ n ∈ visited, ∀ m ∈ next n, m ∈ visited ∨ m ∈ pending

/-- How new successors are put among the pending nodes: none is lost and none is added. -/
structure Arranges (arrange : List Nat → List Nat → List Nat) : Prop where
  /-- The new list holds what both lists hold. -/
  mem_iff : ∀ new old n, n ∈ arrange new old ↔ n ∈ new ∨ n ∈ old
  /-- Nothing is repeated. -/
  length_eq : ∀ new old, (arrange new old).length = new.length + old.length

/-- A search has the turns that it needs when it starts. -/
theorem underway_start (next : Nat → List Nat) {pending : List Nat}
    (hpending : ∀ n ∈ pending, n < size) :
    Underway next size (turnBound next size pending) [] pending where
  pending_lt := hpending
  nodup := List.nodup_nil
  enough := Nat.le_of_eq (turnBound_eq next size pending).symm
  closed _ hn := absurd hn List.not_mem_nil

/-- A turn that skips a visited node. -/
theorem Underway.skip {turns n : Nat} {visited pending : List Nat}
    (h : Underway next size (turns + 1) visited (n :: pending)) (hn : n ∈ visited) :
    Underway next size turns visited pending where
  pending_lt m hm := h.pending_lt m (List.mem_cons_of_mem n hm)
  nodup := h.nodup
  enough := by
    have := h.enough
    rw [List.length_cons] at this
    omega
  closed m hm k hk := by
    rcases h.closed m hm k hk with hk | hk
    · exact .inl hk
    · rcases List.mem_cons.1 hk with rfl | hk
      · exact .inl hn
      · exact .inr hk

/-- A turn that visits a node for the first time. -/
theorem Underway.explore {turns n : Nat} {visited pending : List Nat} (ha : Arranges arrange)
    (hnext : ∀ n < size, ∀ m ∈ next n, m < size)
    (h : Underway next size (turns + 1) visited (n :: pending)) (hn : n ∉ visited) :
    Underway next size turns (visited ++ [n]) (arrange (next n) pending) where
  pending_lt m hm := by
    rcases (ha.mem_iff _ _ m).1 hm with hm | hm
    · exact hnext n (h.pending_lt n List.mem_cons_self) m hm
    · exact h.pending_lt m (List.mem_cons_of_mem n hm)
  nodup := by
    rw [List.nodup_append]
    refine ⟨h.nodup, List.nodup_singleton n, fun m hm k hk => ?_⟩
    rintro rfl
    exact hn (List.mem_singleton.1 hk ▸ hm)
  enough := by
    have henough := h.enough
    have hexplored : unexplored next (visited ++ [n]) size + (next n).length =
        unexplored next visited size := unexplored_visit (h.pending_lt n List.mem_cons_self) hn
    rw [List.length_cons] at henough
    rw [ha.length_eq]
    omega
  closed m hm k hk := by
    rcases List.mem_append.1 hm with hm | hm
    · rcases h.closed m hm k hk with hk | hk
      · exact .inl (List.mem_append_left _ hk)
      · rcases List.mem_cons.1 hk with rfl | hk
        · exact .inl (by simp)
        · exact .inr ((ha.mem_iff _ _ k).2 (.inr hk))
    · obtain rfl := List.mem_singleton.1 hm
      exact .inr ((ha.mem_iff _ _ k).2 (.inl hk))

/-- What a search lists in the end: the visited and the pending nodes with all that can be reached
from them, each once, and nothing else. -/
structure Completes (next : Nat → List Nat) (visited pending found : List Nat) : Prop where
  /-- No node is listed twice. -/
  nodup : found.Nodup
  /-- Nothing that was visited or pending is lost. -/
  mem : ∀ n, n ∈ visited ∨ n ∈ pending → n ∈ found
  /-- Successors are listed as well. -/
  closed : ∀ n ∈ found, ∀ m ∈ next n, m ∈ found
  /-- Nothing else is listed. -/
  sound : ∀ n ∈ found, n ∈ visited ∨ ∃ k ∈ pending, ReflTransGen (Leads next) k n

theorem Underway.completes {turns : Nat} {visited : List Nat}
    (h : Underway next size turns visited []) : Completes next visited [] visited where
  nodup := h.nodup
  mem _ hn := hn.resolve_right List.not_mem_nil
  closed n hn m hm := (h.closed n hn m hm).resolve_right List.not_mem_nil
  sound _ hn := .inl hn

/-- A visited node may be skipped. -/
theorem Completes.of_skip {n : Nat} {visited pending found : List Nat} (hn : n ∈ visited)
    (h : Completes next visited pending found) : Completes next visited (n :: pending) found where
  nodup := h.nodup
  mem m hm := by
    refine h.mem m ?_
    rcases hm with hm | hm
    · exact .inl hm
    · rcases List.mem_cons.1 hm with rfl | hm
      · exact .inl hn
      · exact .inr hm
  closed := h.closed
  sound m hm := by
    rcases h.sound m hm with hm | ⟨k, hk, hpath⟩
    · exact .inl hm
    · exact .inr ⟨k, List.mem_cons_of_mem n hk, hpath⟩

/-- A pending node may be visited, if its successors become pending. -/
theorem Completes.of_explore {n : Nat} {visited pending found : List Nat} (ha : Arranges arrange)
    (h : Completes next (visited ++ [n]) (arrange (next n) pending) found) :
    Completes next visited (n :: pending) found where
  nodup := h.nodup
  mem m hm := by
    refine h.mem m ?_
    rcases hm with hm | hm
    · exact .inl (List.mem_append_left _ hm)
    · rcases List.mem_cons.1 hm with rfl | hm
      · exact .inl (by simp)
      · exact .inr ((ha.mem_iff _ _ m).2 (.inr hm))
  closed := h.closed
  sound m hm := by
    rcases h.sound m hm with hm | ⟨k, hk, hpath⟩
    · rcases List.mem_append.1 hm with hm | hm
      · exact .inl hm
      · obtain rfl := List.mem_singleton.1 hm
        exact .inr ⟨m, List.mem_cons_self, .refl⟩
    · rcases (ha.mem_iff _ _ k).1 hk with hk | hk
      · exact .inr ⟨n, List.mem_cons_self, .head hk hpath⟩
      · exact .inr ⟨k, List.mem_cons_of_mem n hk, hpath⟩

/-- A search that has enough turns is complete. -/
theorem completes_visit (ha : Arranges arrange) (hnext : ∀ n < size, ∀ m ∈ next n, m < size)
    {turns : Nat} {visited pending : List Nat} (h : Underway next size turns visited pending) :
    Completes next visited pending (visit next arrange turns visited pending) := by
  induction turns generalizing visited pending with
  | zero =>
    have henough := h.enough
    obtain rfl : pending = [] := List.length_eq_zero_iff.1 (by omega)
    rw [visit]
    exact h.completes
  | succ turns ih =>
    cases pending with
    | nil =>
      rw [visit]
      · exact h.completes
      · omega
    | cons n pending =>
      rw [visit]
      by_cases hn : n ∈ visited
      · rw [if_pos hn]
        exact (ih (h.skip hn)).of_skip hn
      · rw [if_neg hn]
        exact (ih (h.explore ha hnext hn)).of_explore ha

/-- From the start a search lists exactly what can be reached, each node once. -/
theorem visit_start (ha : Arranges arrange) (hnext : ∀ n < size, ∀ m ∈ next n, m < size)
    {pending : List Nat} (hpending : ∀ n ∈ pending, n < size) :
    (visit next arrange (turnBound next size pending) [] pending).Nodup ∧
      ∀ n, n ∈ visit next arrange (turnBound next size pending) [] pending ↔
        ∃ k ∈ pending, ReflTransGen (Leads next) k n := by
  obtain ⟨hnodup, hmem, hclosed, hsound⟩ := completes_visit ha hnext (underway_start next hpending)
  refine ⟨hnodup, fun n => ⟨fun hn => (hsound n hn).resolve_left (by simp), ?_⟩⟩
  rintro ⟨k, hk, hpath⟩
  induction hpath with
  | refl => exact hmem k (.inr hk)
  | tail _ hstep ih => exact hclosed _ ih _ hstep

theorem arranges_depthFirst : Arranges fun new old => new ++ old where
  mem_iff _ _ _ := List.mem_append
  length_eq _ _ := List.length_append

theorem arranges_breadthFirst : Arranges fun new old => old ++ new where
  mem_iff _ _ _ := List.mem_append.trans or_comm
  length_eq _ _ := List.length_append.trans (Nat.add_comm _ _)

variable {pending : List Nat}

/-- A depth-first search visits exactly what can be reached from the pending nodes. -/
theorem mem_depthFirst (hnext : ∀ n < size, ∀ m ∈ next n, m < size)
    (hpending : ∀ n ∈ pending, n < size) {n : Nat} :
    n ∈ depthFirst next size pending ↔ ∃ k ∈ pending, ReflTransGen (Leads next) k n :=
  (visit_start arranges_depthFirst hnext hpending).2 n

theorem nodup_depthFirst (hnext : ∀ n < size, ∀ m ∈ next n, m < size)
    (hpending : ∀ n ∈ pending, n < size) : (depthFirst next size pending).Nodup :=
  (visit_start arranges_depthFirst hnext hpending).1

/-- A breadth-first search visits exactly what can be reached from the pending nodes. -/
theorem mem_breadthFirst (hnext : ∀ n < size, ∀ m ∈ next n, m < size)
    (hpending : ∀ n ∈ pending, n < size) {n : Nat} :
    n ∈ breadthFirst next size pending ↔ ∃ k ∈ pending, ReflTransGen (Leads next) k n :=
  (visit_start arranges_breadthFirst hnext hpending).2 n

theorem nodup_breadthFirst (hnext : ∀ n < size, ∀ m ∈ next n, m < size)
    (hpending : ∀ n ∈ pending, n < size) : (breadthFirst next size pending).Nodup :=
  (visit_start arranges_breadthFirst hnext hpending).1

/-- A search keeps what it has visited in front. -/
theorem prefix_visit (turns : Nat) (visited pending : List Nat) :
    visited <+: visit next arrange turns visited pending := by
  induction turns generalizing visited pending with
  | zero => exact List.prefix_refl visited
  | succ turns ih =>
    cases pending with
    | nil => exact List.prefix_refl visited
    | cons n pending =>
      rw [visit]
      split
      · exact ih visited pending
      · exact (List.prefix_append visited [n]).trans (ih _ _)

/-- A depth-first search lists the first of the pending nodes first. -/
theorem head?_depthFirst (n : Nat) : (depthFirst next size (n :: pending)).head? = some n := by
  obtain ⟨turns, hturns⟩ : ∃ turns, turnBound next size (n :: pending) = turns + 1 :=
    ⟨pending.length + unexplored next [] size, by rw [turnBound_eq, List.length_cons]; omega⟩
  have hfirst : [n] <+: visit next (fun new old => new ++ old) turns [n] (next n ++ pending) :=
    prefix_visit turns [n] (next n ++ pending)
  obtain ⟨rest, hrest⟩ := hfirst
  rw [depthFirst, hturns, visit, if_neg List.not_mem_nil, List.nil_append, ← hrest,
    List.singleton_append, List.head?_cons]

/-! ## Searches end -/

/-- A search that says whether it is over after so many turns: it lists the nodes if no node is
pending any more. -/
def visitWithin? (next : Nat → List Nat) (arrange : List Nat → List Nat → List Nat) :
    Nat → List Nat → List Nat → Option (List Nat)
  | _, visited, [] => some visited
  | 0, _, _ :: _ => none
  | turns + 1, visited, n :: pending =>
    if n ∈ visited then visitWithin? next arrange turns visited pending
    else visitWithin? next arrange turns (visited ++ [n]) (arrange (next n) pending)

/-- More turns do not change what a search lists that is over. -/
theorem visitWithin?_mono {turns more : Nat} (hmore : turns ≤ more) {visited pending found : List Nat}
    (h : visitWithin? next arrange turns visited pending = some found) :
    visitWithin? next arrange more visited pending = some found := by
  induction more generalizing turns visited pending with
  | zero =>
    obtain rfl : turns = 0 := by omega
    exact h
  | succ more ih =>
    cases pending with
    | nil => rwa [visitWithin?] at h ⊢
    | cons n pending =>
      cases turns with
      | zero => simp [visitWithin?] at h
      | succ turns =>
        rw [visitWithin?] at h ⊢
        by_cases hn : n ∈ visited
        · rw [if_pos hn] at h ⊢
          exact ih (by omega) h
        · rw [if_neg hn] at h ⊢
          exact ih (by omega) h

/-- A search with enough turns is over after them. -/
theorem Underway.visitWithin?_eq (ha : Arranges arrange) (hnext : ∀ n < size, ∀ m ∈ next n, m < size)
    {turns : Nat} {visited pending : List Nat} (h : Underway next size turns visited pending) :
    visitWithin? next arrange turns visited pending =
      some (visit next arrange turns visited pending) := by
  induction turns generalizing visited pending with
  | zero =>
    have henough := h.enough
    obtain rfl : pending = [] := List.length_eq_zero_iff.1 (by omega)
    rfl
  | succ turns ih =>
    cases pending with
    | nil => rfl
    | cons n pending =>
      rw [visitWithin?, visit]
      by_cases hn : n ∈ visited
      · rw [if_pos hn, if_pos hn, ih (h.skip hn)]
      · rw [if_neg hn, if_neg hn, ih (h.explore ha hnext hn)]

/-- A search from nodes of a graph is over after the turns that are set for it. -/
theorem visitWithin?_start (ha : Arranges arrange) (hnext : ∀ n < size, ∀ m ∈ next n, m < size)
    (hpending : ∀ n ∈ pending, n < size) :
    visitWithin? next arrange (turnBound next size pending) [] pending =
      some (visit next arrange (turnBound next size pending) [] pending) :=
  (underway_start next hpending).visitWithin?_eq ha hnext

end TacAnalysis.Search
