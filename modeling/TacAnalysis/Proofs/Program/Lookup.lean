import Mathlib.Data.List.Perm.Subperm
import Mathlib.Logic.Relation
import TacAnalysis.Proofs.Program.Names
import TacAnalysis.Proofs.Search

/-!
# Looking up methods ends

Lookups climb superclass links and search interfaces. Unless superclass links form a cycle, a
climb never comes back to a class, so it passes each class at most once and is over after as
many classes as there are. A search of interfaces lists each interface once, whatever links
there are.

Main statement: `Accepted.lookupsEnd`.
-/

namespace TacAnalysis.Program

open Relation

variable (p : Program)

/-- The class has a superclass, which is the other class. -/
def Extends (c d : ClassId) : Prop := p.superclass? c = some d

/-- No class is its own superclass, over one link or several. -/
def Acyclic : Prop := ∀ c, ¬ TransGen p.Extends c c

/-- The walks of lookups are over within the bounds that lookups set for them. -/
structure LookupsEnd : Prop where
  /-- A climb finds an answer or the end of the superclasses. -/
  climb : ∀ find c, ∃ found, p.climbWithin? find p.climbBound c = some found
  /-- A search lists all interfaces that can be reached. -/
  mem_allInterfaces : ∀ c d, d ∈ p.allInterfaces c ↔
    ∃ i ∈ p.interfaces c, ReflTransGen (Search.Leads p.interfaces) i d

variable {p}

/-- Links that lead to smaller numbers form no cycle. -/
theorem acyclic_of_lt (h : ∀ c d, p.Extends c d → d < c) : p.Acyclic := by
  have hpath : ∀ c d, TransGen p.Extends c d → d < c := by
    intro c d hcd
    induction hcd with
    | single hlink => exact h _ _ hlink
    | tail _ hlink ih => exact Nat.lt_trans (h _ _ hlink) ih
  exact fun c hc => Nat.lt_irrefl c (hpath c c hc)

/-- Only declared classes have superclasses. -/
theorem Extends.lt {c d : ClassId} (h : p.Extends c d) : c < p.classes.length := by
  obtain ⟨decl, hdecl, -⟩ := Option.bind_eq_some_iff.1 h
  exact (List.getElem?_eq_some_iff.1 hdecl).1

/-- Each class can be checked by itself for a link to a smaller number. -/
theorem acyclic_of_superclass_lt
    (h : ∀ c < p.classes.length, (p.superclass? c).all (· < c) = true) : p.Acyclic := by
  refine acyclic_of_lt fun c d hlink => ?_
  have hparent : p.superclass? c = some d := hlink
  have hall := h c hlink.lt
  rw [hparent] at hall
  exact of_decide_eq_true hall

/-- A climb that is not over has passed as many classes as it was given steps. -/
theorem Acyclic.exists_passed (hp : p.Acyclic) {find : ClassId → Option MethodId} {steps : Nat}
    {c : ClassId} (h : p.climbWithin? find steps c = none) :
    ∃ passed : List ClassId, passed.length = steps ∧ passed.Nodup ∧
      ∀ d ∈ passed, d < p.classes.length ∧ ReflTransGen p.Extends c d := by
  induction steps generalizing c with
  | zero => exact ⟨[], rfl, List.nodup_nil, by simp⟩
  | succ steps ih =>
    rw [climbWithin?] at h
    cases hfind : find c with
    | some m => simp [hfind] at h
    | none =>
      cases hparent : p.superclass? c with
      | none => simp [hfind, hparent] at h
      | some parent =>
        simp only [hfind, hparent] at h
        have hlink : p.Extends c parent := hparent
        obtain ⟨passed, hlength, hnodup, hpassed⟩ := ih h
        -- a class above `c` that is `c` again would close a cycle
        have hnew : c ∉ passed := fun hc => hp c (.head' hlink (hpassed c hc).2)
        refine ⟨c :: passed, by rw [List.length_cons, hlength], List.nodup_cons.2 ⟨hnew, hnodup⟩,
          List.forall_mem_cons.2 ⟨⟨hlink.lt, .refl⟩, fun d hd => ?_⟩⟩
        exact ⟨(hpassed d hd).1, .head hlink (hpassed d hd).2⟩

/-- Without a cycle every climb is over after as many classes as there are. -/
theorem Acyclic.exists_climbWithin? (hp : p.Acyclic) (find : ClassId → Option MethodId)
    (c : ClassId) : ∃ found, p.climbWithin? find p.climbBound c = some found := by
  by_contra hnone
  rw [← Option.ne_none_iff_exists', not_not] at hnone
  obtain ⟨passed, hlength, hnodup, hpassed⟩ := hp.exists_passed hnone
  have hsubset : passed ⊆ List.range p.classes.length := fun d hd =>
    List.mem_range.2 (hpassed d hd).1
  have hle := (List.subperm_of_subset hnodup hsubset).length_le
  rw [hlength, List.length_range, climbBound, ampleBudget] at hle
  omega

/-- A search lists the interfaces that can be reached from those that a class lists. -/
theorem Accepted.mem_allInterfaces (hp : p.Accepted) {c d : ClassId} :
    d ∈ p.allInterfaces c ↔ ∃ i ∈ p.interfaces c, ReflTransGen (Search.Leads p.interfaces) i d := by
  have hleads : Search.Leads (fun d => (p.interfaces d).reverse) = Search.Leads p.interfaces := by
    funext c d
    exact propext List.mem_reverse
  have hlt : ∀ c, ∀ i ∈ (p.interfaces c).reverse, i < p.classes.length := fun c i hi =>
    hp.interface_lt (List.mem_reverse.1 hi)
  rw [allInterfaces, Search.mem_depthFirst (fun c _ => hlt c) (hlt c), hleads]
  simp only [List.mem_reverse]

/-- In an accepted program without a cycle of superclasses lookups end. -/
theorem Accepted.lookupsEnd (hp : p.Accepted) (hacyclic : p.Acyclic) : p.LookupsEnd :=
  ⟨hacyclic.exists_climbWithin?, fun _ _ => hp.mem_allInterfaces⟩

end TacAnalysis.Program
