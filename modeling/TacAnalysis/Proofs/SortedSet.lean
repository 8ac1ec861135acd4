import Mathlib.Data.List.Perm.Subperm
import Mathlib.Order.Defs.PartialOrder
import TacAnalysis.SortedSet

/-!
# Sets ordered by inclusion

A set is below another when its members are among those of the other. The union is the least
set above both, and a set that grows gets more members, so sets with members from a list grow
only finitely often.

Main statements: `union_le_iff` and `eq_or_size_lt`.
-/

namespace TacAnalysis.SortedSet

open Std (IsLinearOrder LawfulOrderLT)

variable {α : Type} [LT α] [LE α] [IsLinearOrder α] [LawfulOrderLT α] {s t u : SortedSet α}

instance : PartialOrder (SortedSet α) where
  le s t := ∀ x, x ∈ s → x ∈ t
  le_refl _ _ hx := hx
  le_trans _ _ _ hst htu x hx := htu x (hst x hx)
  le_antisymm _ _ hst hts := ext fun x => ⟨hst x, hts x⟩

theorem le_def : s ≤ t ↔ ∀ x, x ∈ s → x ∈ t := Iff.rfl

theorem empty_le (s : SortedSet α) : ∅ ≤ s := fun x hx => absurd hx (not_mem_empty x)

/-- The union is the least set above both. -/
theorem union_le_iff [DecidableEq α] [DecidableLT α] : s.union t ≤ u ↔ s ≤ u ∧ t ≤ u := by
  simp only [le_def, mem_union, or_imp, forall_and]

omit [Std.IsLinearOrder α] in
/-- No member is listed twice. -/
theorem nodup_elems (s : SortedSet α) : s.elems.Nodup := by
  refine s.ascending.imp fun {x y} hlt heq => ?_
  rw [heq] at hlt
  exact Std.lt_irrefl hlt

omit [Std.IsLinearOrder α] in
/-- A set with members from a list is no longer than the list. -/
theorem size_le_length {xs : List α} (h : ∀ x, x ∈ s → x ∈ xs) : s.size ≤ xs.length :=
  (List.subperm_of_subset s.nodup_elems fun x hx => h x hx).length_le

/-- A set that grows gets more members. -/
theorem eq_or_size_lt (h : s ≤ t) : s = t ∨ s.size < t.size := by
  have hsub : s.elems.Subperm t.elems := List.subperm_of_subset s.nodup_elems fun x hx => h x hx
  by_cases hlt : s.size < t.size
  · exact .inr hlt
  · have hperm : s.elems.Perm t.elems := hsub.perm_of_length_le (Nat.le_of_not_lt hlt)
    exact .inl (ext fun x => hperm.mem_iff)

end TacAnalysis.SortedSet
