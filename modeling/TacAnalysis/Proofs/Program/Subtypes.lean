import TacAnalysis.Proofs.Program.References
import TacAnalysis.Proofs.Strict.Program

/-!
# All subtypes of a class

Every class names the classes above it: its superclass, and the interfaces that it lists. The search
for subtypes goes the other way. It reads three tables that are filled from these links, with a row
for each class: who extends it, which classes list it and which interfaces list it. A class stands
in a row of another exactly if it has a link to it, whatever kinds of classes the two are, and so
the search finds exactly the classes from which links lead up to the one where it begins. It takes
no class twice, and therefore ends on cycles of links as well.

Main statements: `WellFormed.mem_directSubtypes_iff` and `subtypes_exact`.
-/

namespace TacAnalysis.Program

open Relation

variable (p : Program)

/-- The class extends the other one or lists it among its interfaces. -/
def Inherits (c d : ClassId) : Prop := p.Extends c d ∨ p.Lists c d

variable {p} {c d : ClassId}

/-! ## Rows of the tables -/

/-- What a class lists is in its declaration. -/
theorem lists_iff : p.Lists d c ↔ ∃ decl, p.class? d = some decl ∧ c ∈ decl.interfaces := by
  unfold Lists interfaces
  cases p.class? d <;> simp

/-- A class is among the subclasses of the one that it extends. -/
theorem WellFormed.mem_subclasses_iff (hp : p.WellFormed) :
    d ∈ p.subclasses c ↔ p.Extends d c := by
  unfold subclasses Extends superclass?
  simp only [List.mem_map, List.mem_filter, decide_eq_true_eq, Option.bind_eq_some_iff]
  constructor
  · rintro ⟨decl, ⟨hdecl, hparent⟩, rfl⟩
    exact ⟨decl, hp.class_id.getElem?_number hdecl, hparent⟩
  · rintro ⟨decl, hdecl, hparent⟩
    exact ⟨decl, ⟨List.mem_of_getElem? hdecl, hparent⟩, hp.class_id d decl hdecl⟩

/-- Of the classes of one kind those stand in a row that list its class. -/
theorem WellFormed.mem_listings_iff (hp : p.WellFormed) {kept : Class → Bool} :
    d ∈ (p.classes.filter kept).flatMap (listing c) ↔
      ∃ decl, p.class? d = some decl ∧ kept decl = true ∧ c ∈ decl.interfaces := by
  unfold listing
  simp only [List.mem_flatMap, List.mem_filter, List.mem_map, decide_eq_true_eq]
  constructor
  · rintro ⟨decl, ⟨hdecl, hkept⟩, i, ⟨hi, rfl⟩, rfl⟩
    exact ⟨decl, hp.class_id.getElem?_number hdecl, hkept, hi⟩
  · rintro ⟨decl, hdecl, hkept, hc⟩
    exact ⟨decl, ⟨List.mem_of_getElem? hdecl, hkept⟩, c, ⟨hc, rfl⟩, hp.class_id d decl hdecl⟩

/-- Every link stands in one of the three rows, and the rows hold nothing else. -/
theorem WellFormed.mem_directSubtypes_iff (hp : p.WellFormed) :
    d ∈ p.directSubtypes c ↔ p.Inherits d c := by
  rw [directSubtypes, List.mem_append, List.mem_append, subinterfaces, implementors,
    hp.mem_listings_iff, hp.mem_listings_iff, hp.mem_subclasses_iff, Inherits, lists_iff, or_comm]
  refine or_congr Iff.rfl ⟨?_, ?_⟩
  · rintro (⟨decl, hdecl, -, hc⟩ | ⟨decl, hdecl, -, hc⟩)
    · exact ⟨decl, hdecl, hc⟩
    · exact ⟨decl, hdecl, hc⟩
  · rintro ⟨decl, hdecl, hc⟩
    cases hkind : decl.isInterface with
    | true => exact .inl ⟨decl, hdecl, hkind, hc⟩
    | false => exact .inr ⟨decl, hdecl, by rw [hkind]; rfl, hc⟩

/-! ## The search -/

/-- What the search can reach downwards leads up to where the search begins. -/
theorem WellFormed.leads_iff_inherits (hp : p.WellFormed) :
    ReflTransGen (Search.Leads p.directSubtypes) c d ↔ ReflTransGen p.Inherits d c := by
  have hlinks : Search.Leads p.directSubtypes = Function.swap p.Inherits := by
    funext c d
    exact propext hp.mem_directSubtypes_iff
  rw [hlinks, reflTransGen_swap]

/-- In an accepted program the search for the subtypes of a declared class looks up only rows that
its tables have, and it ends. It lists the class first, no class twice, and exactly those classes
from which superclasses and listed interfaces lead up to it. -/
theorem subtypes_exact (hp : p.Accepted) (hc : c < p.classes.length) :
    Strict.allSubtypes? p c = some (p.subtypes c) ∧
      (∃ turns, p.subtypesWithin? turns c = some (p.subtypes c)) ∧
      (p.subtypes c).head? = some c ∧ (p.subtypes c).Nodup ∧
      ∀ d, d ∈ p.subtypes c ↔ ReflTransGen p.Inherits d c := by
  have hnext : ∀ d < p.classes.length, ∀ e ∈ p.directSubtypes d, e < p.classes.length :=
    fun _ _ _ he => hp.wellFormed.directSubtype_lt he
  have hstart : ∀ d ∈ [c], d < p.classes.length := by simpa using hc
  refine ⟨Strict.allSubtypes?_eq_some hp hc, hp.wellFormed.exists_subtypesWithin? hc,
    Search.head?_depthFirst c, Search.nodup_depthFirst hnext hstart, fun d => ?_⟩
  rw [subtypes, Search.mem_depthFirst hnext hstart, ← hp.wellFormed.leads_iff_inherits]
  simp only [List.mem_singleton, exists_eq_left]

/-! ## A cycle and a diamond -/

/-- The classes `A` and `B` extend each other. `A` lists the interfaces `J` and `K`, which both
extend `I`, and is listed by `E` although it is no interface. -/
def tangledCommands : List Command := [
  .addInterface "I" [], .addInterface "J" [0], .addInterface "K" [0],
  .addClass "A" (some 4) [1, 2], .addClass "B" (some 3) [],
  .addAbstractClass "D" (some 4) [1], .addClass "E" none [3], .addClass "F" none []]

/-- The program of these declarations. -/
def tangled : Program := (Program.ofCommands? tangledCommands).get (by decide +kernel)

theorem accepted_tangled : tangled.Accepted :=
  Program.accepted_of_ofCommands? (Option.some_get _).symm

/-- All classes but `F` are subtypes of `I`, and each is listed once. -/
theorem subtypes_tangled :
    tangled.Accepted ∧ 0 < tangled.classes.length ∧ TransGen tangled.Extends 3 3 ∧
      (∃ turns, tangled.subtypesWithin? turns 0 = some [0, 1, 3, 6, 4, 5, 2]) ∧
      ReflTransGen tangled.Inherits 6 0 ∧ ¬ ReflTransGen tangled.Inherits 7 0 := by
  have hlt : 0 < tangled.classes.length := by decide +kernel
  obtain ⟨-, hends, -, -, hmem⟩ := subtypes_exact accepted_tangled hlt
  have hfound : tangled.subtypes 0 = [0, 1, 3, 6, 4, 5, 2] := by decide +kernel
  have hup : tangled.Extends 3 4 ∧ tangled.Extends 4 3 := by
    unfold Extends
    decide +kernel
  rw [hfound] at hends hmem
  refine ⟨accepted_tangled, hlt, .tail (.single hup.1) hup.2, hends, (hmem 6).1 (by simp), ?_⟩
  rw [← hmem 7]
  simp

end TacAnalysis.Program
