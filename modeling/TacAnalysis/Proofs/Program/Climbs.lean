import Mathlib.Data.Fintype.EquivFin
import Mathlib.Data.Nat.Find
import TacAnalysis.Proofs.Program.Lookup

/-!
# When climbs end

A climb passes from a class to its superclass until it finds an answer or there is no
superclass. It ends exactly if it comes to such a class. A climb that ends never comes back to a
class, whatever cycles there are elsewhere, so it is over within the bound that lookups set.

On a cycle there is always a superclass, so only an answer ends a climb there. For a
subsignature that no class declares there is none. Without cycles a climb finds the answer of the
nearest class that has one.

Main statements: `climb_ends_iff`, `climbWithin?_climbBound`, `not_climb_ends_of_cycle`,
`Acyclic.climb_eq_some_iff` and `Acyclic.climb_eq_none_iff`.
-/

namespace TacAnalysis.Program

open Relation

variable {p : Program} {find : ClassId → Option MethodId} {c d : ClassId} {steps : Nat}
  {found : Option MethodId}

/-- A class that has no answer passes a climb on to its superclass. -/
theorem climbWithin?_succ (hfind : find c = none) (hlink : p.Extends c d) (steps : Nat) :
    p.climbWithin? find (steps + 1) c = p.climbWithin? find steps d := by
  have hparent : p.superclass? c = some d := hlink
  simp only [climbWithin?, hfind, hparent]

/-- A climb that is over stays over. -/
theorem climbWithin?_mono {more : Nat} (hmore : steps ≤ more)
    (h : p.climbWithin? find steps c = some found) : p.climbWithin? find more c = some found := by
  induction more generalizing steps c with
  | zero =>
    obtain rfl : steps = 0 := by omega
    exact h
  | succ more ih =>
    cases steps with
    | zero => simp [climbWithin?] at h
    | succ steps =>
      rw [climbWithin?] at h ⊢
      cases hfind : find c with
      | some m => simpa only [hfind] using h
      | none =>
        cases hparent : p.superclass? c with
        | none => simpa only [hfind, hparent] using h
        | some parent =>
          simp only [hfind, hparent] at h ⊢
          exact ih (by omega) h

/-- A climb ends exactly if it comes to a class that has an answer or has no superclass. -/
theorem climb_ends_iff : (∃ steps found, p.climbWithin? find steps c = some found) ↔
    ∃ d, ReflTransGen p.Extends c d ∧ (find d ≠ none ∨ p.superclass? d = none) := by
  constructor
  · rintro ⟨steps, found, h⟩
    induction steps generalizing c with
    | zero => simp [climbWithin?] at h
    | succ steps ih =>
      cases hfind : find c with
      | some m => exact ⟨c, .refl, .inl (by simp [hfind])⟩
      | none =>
        cases hparent : p.superclass? c with
        | none => exact ⟨c, .refl, .inr hparent⟩
        | some parent =>
          have hlink : p.Extends c parent := hparent
          rw [climbWithin?_succ hfind hlink] at h
          obtain ⟨d, hpath, hend⟩ := ih h
          exact ⟨d, .head hlink hpath, hend⟩
  · rintro ⟨d, hpath, hend⟩
    induction hpath using ReflTransGen.head_induction_on with
    | refl =>
      refine ⟨1, find d, ?_⟩
      rw [climbWithin?]
      rcases hend with hfind | hparent
      · obtain ⟨m, hm⟩ := Option.ne_none_iff_exists'.1 hfind
        simp only [hm]
      · cases hfind : find d with
        | some m => rfl
        | none => simp only [hparent]
    | head hlink _ ih =>
      rename_i c parent _
      cases hfind : find c with
      | some m => exact ⟨1, some m, by simp only [climbWithin?, hfind]⟩
      | none =>
        obtain ⟨steps, found, h⟩ := ih
        exact ⟨steps + 1, found, by rw [climbWithin?_succ hfind hlink, h]⟩

/-- A climb passes one class less than it takes steps, and never the same class again: the
steps that it still needs get fewer. -/
theorem exists_passed_of_ends (h : p.climbWithin? find steps c = some found)
    (hleast : ∀ k < steps, p.climbWithin? find k c = none) :
    ∃ passed : List ClassId, passed.length + 1 = steps ∧ passed.Nodup ∧
      ∀ d ∈ passed, d < p.classes.length ∧ ∃ k ≤ steps, p.climbWithin? find k d ≠ none := by
  induction steps generalizing c with
  | zero => simp [climbWithin?] at h
  | succ steps ih =>
    -- a climb that ends at once has passed nothing
    have hfirst : p.climbWithin? find 1 c ≠ none → steps = 0 := by
      intro hone
      by_contra hsteps
      exact hone (hleast 1 (by omega))
    cases hfind : find c with
    | some m =>
      obtain rfl : steps = 0 := hfirst (by simp [climbWithin?, hfind])
      exact ⟨[], rfl, List.nodup_nil, by simp⟩
    | none =>
      cases hparent : p.superclass? c with
      | none =>
        obtain rfl : steps = 0 := hfirst (by simp [climbWithin?, hfind, hparent])
        exact ⟨[], rfl, List.nodup_nil, by simp⟩
      | some parent =>
        have hlink : p.Extends c parent := hparent
        have hbehind : p.climbWithin? find steps parent = some found := by
          rw [← h, climbWithin?_succ hfind hlink]
        have hleast' : ∀ k < steps, p.climbWithin? find k parent = none := by
          intro k hk
          rw [← hleast (k + 1) (by omega), climbWithin?_succ hfind hlink]
        obtain ⟨passed, hlength, hnodup, hpassed⟩ := ih hbehind hleast'
        have hnew : c ∉ passed := by
          intro hc
          obtain ⟨-, k, hk, hends⟩ := hpassed c hc
          exact hends (hleast k (by omega))
        refine ⟨c :: passed, by rw [List.length_cons, hlength], List.nodup_cons.2 ⟨hnew, hnodup⟩,
          List.forall_mem_cons.2 ⟨⟨hlink.lt, steps + 1, le_rfl, by simp [h]⟩, fun d hd => ?_⟩⟩
        obtain ⟨hlt, k, hk, hends⟩ := hpassed d hd
        exact ⟨hlt, k, by omega, hends⟩

/-- A climb that ends at all is over within the bound of lookups. -/
theorem climbWithin?_climbBound (h : p.climbWithin? find steps c = some found) :
    p.climbWithin? find p.climbBound c = some found := by
  classical
  have hsteps : p.climbWithin? find steps c ≠ none := by simp [h]
  have hends : ∃ k, p.climbWithin? find k c ≠ none := ⟨steps, hsteps⟩
  obtain ⟨least, hleast⟩ := Option.ne_none_iff_exists'.1 (Nat.find_spec hends)
  have hsame : some least = some found := by
    rw [← h, ← climbWithin?_mono (Nat.find_min' hends hsteps) hleast]
  obtain ⟨passed, hlength, hnodup, hpassed⟩ := exists_passed_of_ends hleast
    fun k hk => not_not.1 (Nat.find_min hends hk)
  have hsubset : passed ⊆ List.range p.classes.length := fun d hd =>
    List.mem_range.2 (hpassed d hd).1
  have hle : passed.length ≤ p.classes.length := by
    simpa using (List.subperm_of_subset hnodup hsubset).length_le
  have hbound : Nat.find hends ≤ p.climbBound := by
    unfold climbBound ampleBudget
    omega
  rw [← hsame]
  exact climbWithin?_mono hbound hleast

/-- Superclass links are unique, so from a class on a cycle every class that a climb comes to
leads back. -/
theorem cycle_of_path (hcycle : TransGen p.Extends c c) (hpath : ReflTransGen p.Extends c d) :
    TransGen p.Extends d d := by
  induction hpath with
  | refl => exact hcycle
  | tail _ hlink ih =>
    rename_i d e _
    obtain ⟨next, hnext, hback⟩ := TransGen.head'_iff.1 ih
    obtain rfl : next = e := Option.some.inj (hnext.symm.trans hlink)
    exact .tail' hback hlink

/-- On a cycle a climb that finds no answer never ends. -/
theorem not_climb_ends_of_cycle (hcycle : TransGen p.Extends c c) (hfind : ∀ d, find d = none) :
    ¬ ∃ steps found, p.climbWithin? find steps c = some found := by
  rw [climb_ends_iff]
  rintro ⟨d, hpath, hanswer | hparent⟩
  · exact hanswer (hfind d)
  · obtain ⟨next, hnext, -⟩ := TransGen.head'_iff.1 (cycle_of_path hcycle hpath)
    rw [Extends, hparent] at hnext
    cases hnext

/-- There is a subsignature that no class declares. -/
theorem exists_undeclared (p : Program) : ∃ s, ∀ c, p.declared? c s = none := by
  obtain ⟨s, hs⟩ := Infinite.exists_notMem_finset
    (p.classes.flatMap fun c => c.methods.map (·.1)).toFinset
  rw [List.mem_toFinset, List.mem_flatMap] at hs
  refine ⟨s, fun c => ?_⟩
  by_contra hdeclared
  obtain ⟨m, hm⟩ := Option.ne_none_iff_exists'.1 hdeclared
  obtain ⟨decl, hdecl, hfound⟩ := Option.bind_eq_some_iff.1 hm
  obtain ⟨e, he, -⟩ := Option.map_eq_some_iff.1 hfound
  have hkey : e.1 = s := by simpa using List.find?_some he
  refine hs ⟨decl, List.mem_of_getElem? hdecl, ?_⟩
  exact hkey ▸ List.mem_map_of_mem (List.mem_of_find?_eq_some he)

/-! ## What climbs find without cycles -/

/-- What a climb from `c` finds. -/
def climb (p : Program) (find : ClassId → Option MethodId) (c : ClassId) : Option MethodId :=
  (p.climbWithin? find p.climbBound c).getD none

/-- The class has no answer, and the other class is its superclass. -/
def Passes (p : Program) (find : ClassId → Option MethodId) (c d : ClassId) : Prop :=
  find c = none ∧ p.Extends c d

variable {m : MethodId}

/-- What a climb passes are superclasses. -/
theorem extends_of_passes (h : ReflTransGen (p.Passes find) c d) : ReflTransGen p.Extends c d :=
  ReflTransGen.mono (fun _ _ (hpass : p.Passes find _ _) => hpass.2) c d h

/-- A class that answers ends a climb. -/
theorem climb_of_find (h : find c = some m) : p.climb find c = some m := by
  have hone : p.climbWithin? find 1 c = some (some m) := by simp only [climbWithin?, h]
  rw [climb, climbWithin?_climbBound hone, Option.getD_some]

/-- A climb finds above a class that it passes what it finds from the superclass on. -/
theorem Acyclic.climb_of_passes (hp : p.Acyclic) (h : p.Passes find c d) :
    p.climb find c = p.climb find d := by
  obtain ⟨hfind, hlink⟩ := h
  obtain ⟨found, hfound⟩ := hp.exists_climbWithin? find d
  have hmore : p.climbWithin? find (p.climbBound + 1) c = some found := by
    rw [climbWithin?_succ hfind hlink, hfound]
  rw [climb, climb, climbWithin?_climbBound hmore, hfound]

/-- If a class that a climb may come to has an answer, the climb comes to one that has. -/
theorem exists_nearest (hpath : ReflTransGen p.Extends c d) (hd : find d ≠ none) :
    ∃ e, ReflTransGen (p.Passes find) c e ∧ find e ≠ none := by
  induction hpath using ReflTransGen.head_induction_on with
  | refl => exact ⟨d, .refl, hd⟩
  | @head c next hlink _ ih =>
    by_cases hfind : find c = none
    · obtain ⟨e, hpasses, he⟩ := ih
      exact ⟨e, .head ⟨hfind, hlink⟩ hpasses, he⟩
    · exact ⟨c, .refl, hfind⟩

/-- What a climb finds within some steps is the answer of a class that it comes to. -/
theorem exists_nearest_of_climbWithin? (h : p.climbWithin? find steps c = some (some m)) :
    ∃ d, ReflTransGen (p.Passes find) c d ∧ find d = some m := by
  induction steps generalizing c with
  | zero => cases h
  | succ steps ih =>
    cases hfind : find c with
    | some n =>
      simp only [climbWithin?, hfind, Option.some.injEq] at h
      exact ⟨c, .refl, h ▸ hfind⟩
    | none =>
      cases hparent : p.superclass? c with
      | none => simp [climbWithin?, hfind, hparent] at h
      | some parent =>
        have hlink : p.Extends c parent := hparent
        rw [climbWithin?_succ hfind hlink] at h
        obtain ⟨d, hpasses, hd⟩ := ih h
        exact ⟨d, .head ⟨hfind, hlink⟩ hpasses, hd⟩

/-- A climb finds the answer of the nearest class that has one. -/
theorem Acyclic.climb_eq_some_iff (hp : p.Acyclic) :
    p.climb find c = some m ↔ ∃ d, ReflTransGen (p.Passes find) c d ∧ find d = some m := by
  constructor
  · intro h
    obtain ⟨found, hfound⟩ := hp.exists_climbWithin? find c
    rw [climb, hfound, Option.getD_some] at h
    exact exists_nearest_of_climbWithin? (h ▸ hfound)
  · rintro ⟨d, hpasses, hd⟩
    induction hpasses using ReflTransGen.head_induction_on with
    | refl => exact climb_of_find hd
    | head hpass _ ih => rw [hp.climb_of_passes hpass, ih]

/-- A climb finds nothing exactly if no class that it may come to has an answer. -/
theorem Acyclic.climb_eq_none_iff (hp : p.Acyclic) :
    p.climb find c = none ↔ ∀ d, ReflTransGen p.Extends c d → find d = none := by
  constructor
  · intro h d hpath
    by_contra hd
    obtain ⟨e, hpasses, he⟩ := exists_nearest hpath hd
    obtain ⟨m, hm⟩ := Option.ne_none_iff_exists'.1 he
    rw [hp.climb_eq_some_iff.2 ⟨e, hpasses, hm⟩] at h
    cases h
  · intro h
    rw [Option.eq_none_iff_forall_ne_some]
    intro m hm
    obtain ⟨d, hpasses, hd⟩ := hp.climb_eq_some_iff.1 hm
    rw [h d (extends_of_passes hpasses)] at hd
    cases hd

end TacAnalysis.Program
