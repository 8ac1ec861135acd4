import Mathlib.Data.List.Nodup
import TacAnalysis.Worklist

/-!
# Worklists hold each node once

The marks of a worklist tell exactly which nodes are waiting, and no node waits twice.
Every operation keeps this, so what an operation does to a worklist can be said by which
nodes wait afterwards.

Main statements: `NodeWorklist.mem_pushAll` and `NodeWorklist.Valid.pop`.
-/

namespace TacAnalysis

/-- The next element stands somewhere among the waiting ones, and the others keep their
order. -/
theorem WorklistOrder.exists_of_take? {α : Type} {order : WorklistOrder} {waiting rest : List α}
    {x : α} (h : order.take? waiting = some (x, rest)) :
    ∃ before behind, waiting = before ++ x :: behind ∧ rest = before ++ behind := by
  cases order with
  | fifo => exact ⟨[], rest, by simpa using take?_fifo.1 h, rfl⟩
  | lifo => exact ⟨rest, [], by simpa using take?_lifo.1 h, by simp⟩

namespace NodeWorklist

/-- The marks tell which nodes are waiting, and no node waits twice. -/
structure Valid (w : NodeWorklist) : Prop where
  /-- No node waits twice. -/
  nodup : w.waiting.Nodup
  /-- Exactly the waiting nodes are marked. -/
  mem_marks : ∀ n, n ∈ w.marks ↔ n ∈ w.waiting

theorem valid_empty (order : WorklistOrder) : (empty order).Valid where
  nodup := by simp [empty]
  mem_marks n := by simp [empty]

/-- After a push the node waits, and the others wait as before. -/
theorem mem_push {w : NodeWorklist} (h : w.Valid) {n m : Nat} :
    m ∈ (w.push n).waiting ↔ m = n ∨ m ∈ w.waiting := by
  unfold push
  split
  · rename_i hn
    have := (h.mem_marks n).1 hn
    grind
  · simp [or_comm]

theorem Valid.push {w : NodeWorklist} (h : w.Valid) (n : Nat) : (w.push n).Valid := by
  unfold NodeWorklist.push
  split
  · exact h
  · rename_i hn
    have hw : n ∉ w.waiting := fun hmem => hn ((h.mem_marks n).2 hmem)
    constructor
    · rw [List.nodup_append]
      exact ⟨h.nodup, by simp, by grind⟩
    · intro m
      simp only [SortedSet.mem_insert, h.mem_marks, List.mem_append, List.mem_singleton]
      exact or_comm

theorem Valid.pushAll {w : NodeWorklist} (h : w.Valid) (ns : List Nat) : (w.pushAll ns).Valid := by
  induction ns generalizing w with
  | nil => exact h
  | cons n ns ih => exact ih (h.push n)

/-- After several pushes these nodes wait, and the others wait as before. -/
theorem mem_pushAll {w : NodeWorklist} (h : w.Valid) {ns : List Nat} {m : Nat} :
    m ∈ (w.pushAll ns).waiting ↔ m ∈ ns ∨ m ∈ w.waiting := by
  induction ns generalizing w with
  | nil => simp [NodeWorklist.pushAll]
  | cons n ns ih =>
    have hstep : m ∈ ((w.push n).pushAll ns).waiting ↔ m ∈ ns ∨ m ∈ (w.push n).waiting :=
      ih (h.push n)
    rw [mem_push h] at hstep
    rw [List.mem_cons, or_assoc, or_left_comm]
    exact hstep

@[simp] theorem pop?_eq_none_iff {w : NodeWorklist} : w.pop? = none ↔ w.waiting = [] := by
  simp [pop?]

/-- A pop takes one waiting node away and leaves the others. -/
theorem Valid.pop {w rest : NodeWorklist} {n : Nat} (h : w.Valid) (hpop : w.pop? = some (n, rest)) :
    rest.Valid ∧ n ∈ w.waiting ∧ (∀ m, m ∈ rest.waiting ↔ m ∈ w.waiting ∧ m ≠ n) ∧
      rest.waiting.length + 1 = w.waiting.length := by
  obtain ⟨⟨k, left⟩, htake, hpair⟩ := Option.map_eq_some_iff.1 hpop
  obtain ⟨rfl, rfl⟩ := Prod.mk.inj hpair
  obtain ⟨before, behind, hwaiting, rfl⟩ := WorklistOrder.exists_of_take? htake
  have hnodup : (before ++ k :: behind).Nodup := hwaiting ▸ h.nodup
  have hk : k ∉ before ++ behind := by
    have := List.nodup_middle.1 hnodup
    exact (List.nodup_cons.1 this).1
  have hrest : (before ++ behind).Nodup := (List.nodup_cons.1 (List.nodup_middle.1 hnodup)).2
  have hmem : ∀ m, m ∈ before ++ behind ↔ m ∈ w.waiting ∧ m ≠ k := by
    intro m
    rw [hwaiting]
    grind
  refine ⟨⟨hrest, fun m => ?_⟩, by simp [hwaiting], hmem, by simp [hwaiting]; omega⟩
  rw [SortedSet.mem_erase, h.mem_marks, hmem]

end NodeWorklist

end TacAnalysis
