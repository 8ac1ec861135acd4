import TacAnalysis.Proofs.Program.Queries

/-!
# What a method reference names

The supertypes of a class are the classes on its chain of superclasses and the interfaces to which
the lists of interfaces lead from any of them. A reference names a method that its class or a
supertype declares; the nearest class on the chain that declares the method comes first.

A lookup climbs the whole chain, but it then searches only the interfaces to which the class of
the reference leads itself. So it is complete unless the method is declared by an interface to
which only a superclass leads.

Main statements: `Accepted.declared?_eq_some_iff`, `resolveRef_complete_iff` and
`not_resolveRef_complete_inherited`.
-/

namespace TacAnalysis

namespace Program

open Relation

variable (p : Program)

/-- The class declares the method under the subsignature. -/
def Declares (c : ClassId) (subsignature : String) (m : MethodId) : Prop :=
  ∃ method, p.method? m = some method ∧ method.owner = c ∧ method.subsignature = subsignature

/-- The class extends the other one and does not declare the subsignature. -/
def PassesOn (subsignature : String) (c d : ClassId) : Prop :=
  p.Extends c d ∧ ∀ m, ¬ p.Declares c subsignature m

/-- The class lists the interface. -/
def Lists (c i : ClassId) : Prop := i ∈ p.interfaces c

/-- The class itself, its superclasses, and the interfaces to which the lists of interfaces lead
from any of these. -/
def Supertype (c d : ClassId) : Prop :=
  ∃ e, ReflTransGen p.Extends c e ∧ ReflTransGen p.Lists e d

/-- The supertypes in which a lookup looks. -/
def Searched (c d : ClassId) : Prop := ReflTransGen p.Extends c d ∨ TransGen p.Lists c d

/-- The method is declared by an interface to which a superclass leads, and by nothing that a
lookup searches. -/
def Overlooks (ref : MethodRef) : Prop :=
  (∃ c i m, TransGen p.Extends ref.owner c ∧ TransGen p.Lists c i ∧
    p.Declares i ref.subsignature m) ∧
  ∀ d m, p.Searched ref.owner d → ¬ p.Declares d ref.subsignature m

variable {p} {c d : ClassId} {s : String} {m n : MethodId} {ref : MethodRef}

/-! ## What classes declare -/

/-- What a frozen program declares was declared to its builder. -/
theorem exists_of_declares_freeze {b : Builder} (h : b.freeze.Declares c s m) :
    ∃ raw, b.methods[m]? = some raw ∧ raw.owner = c ∧ raw.subsignature = s := by
  obtain ⟨method, hmethod, howner, hsubsignature⟩ := h
  rw [method?, Builder.freeze, List.getElem?_map] at hmethod
  obtain ⟨raw, hraw, rfl⟩ := Option.map_eq_some_iff.1 hmethod
  exact ⟨raw, hraw, howner, hsubsignature⟩

/-- A class declares a subsignature once. -/
theorem Accepted.declares_unique (hp : p.Accepted) (hm : p.Declares c s m) (hn : p.Declares c s n) :
    m = n := by
  obtain ⟨commands, replies, b, -, hbuild⟩ := hp
  obtain ⟨hcheck, rfl⟩ := Builder.build_eq_ok_iff.1 hbuild
  have hdistinct :=
    (Builder.checkDeclarations_eq_ok_iff.1 (Builder.check_eq_ok_iff.1 hcheck).2.1).2.2
  -- of two methods the later one would have been refused
  have hle : ∀ {m n}, b.freeze.Declares c s m → b.freeze.Declares c s n → n ≤ m := by
    intro m n hm hn
    obtain ⟨first, hfirst, rfl, rfl⟩ := exists_of_declares_freeze hm
    obtain ⟨second, hsecond, howner, hsubsignature⟩ := exists_of_declares_freeze hn
    by_contra hlt
    obtain ⟨hmlt, rfl⟩ := List.getElem?_eq_some_iff.1 hfirst
    obtain ⟨hnlt, rfl⟩ := List.getElem?_eq_some_iff.1 hsecond
    exact List.pairwise_iff_getElem.1 hdistinct m n hmlt hnlt (Nat.lt_of_not_le hlt)
      ⟨howner.symm, hsubsignature.symm⟩
  exact Nat.le_antisymm (hle hn hm) (hle hm hn)

/-- What the table of a class lists it declares. -/
theorem WellFormed.declares_of_declared? (hp : p.WellFormed) (h : p.declared? c s = some m) :
    p.Declares c s m := by
  obtain ⟨decl, hdecl, hfound⟩ := Option.bind_eq_some_iff.1 h
  obtain ⟨e, he, rfl⟩ := Option.map_eq_some_iff.1 hfound
  have hkey : e.1 = s := by simpa using List.find?_some he
  obtain ⟨method, hmethod, hsubsignature, howner⟩ :=
    hp.declared decl (List.mem_of_getElem? hdecl) e (List.mem_of_find?_eq_some he)
  exact ⟨method, hmethod, howner.trans (hp.class_id c decl hdecl), hsubsignature.trans hkey⟩

/-- The table of a class lists every subsignature that it declares. -/
theorem Accepted.exists_declared? (hp : p.Accepted) (h : p.Declares c s m) :
    ∃ n, p.declared? c s = some n := by
  obtain ⟨method, hmethod, rfl, rfl⟩ := h
  have hlt := hp.owner_lt (List.mem_of_getElem? hmethod)
  have hclass : p.class? method.owner = some p.classes[method.owner] := List.getElem?_eq_getElem hlt
  have hid := hp.wellFormed.class_id _ _ hclass
  obtain ⟨commands, replies, b, -, hbuild⟩ := hp
  obtain ⟨-, rfl⟩ := Builder.build_eq_ok_iff.1 hbuild
  obtain ⟨raw, hraw, rfl⟩ := List.mem_map.1 (List.mem_of_getElem? hmethod)
  obtain ⟨decl, hdecl, heq⟩ := List.mem_map.1 (List.mem_of_getElem? hclass)
  rw [← heq] at hid
  have hentry : (raw.subsignature, raw.id) ∈ (b.closeClass decl).methods :=
    List.mem_map.2 ⟨raw, List.mem_filter.2 ⟨hraw, decide_eq_true hid.symm⟩, rfl⟩
  have hfound : ((b.closeClass decl).methods.find? (·.1 = raw.subsignature)).isSome :=
    List.find?_isSome.2 ⟨_, hentry, by simp⟩
  obtain ⟨e, he⟩ := Option.isSome_iff_exists.1 hfound
  refine ⟨e.2, ?_⟩
  rw [declared?, hclass, Option.bind_some, ← heq]
  exact Option.map_eq_some_iff.2 ⟨e, he, rfl⟩

/-- The table of a class lists exactly what it declares. -/
theorem Accepted.declared?_eq_some_iff (hp : p.Accepted) :
    p.declared? c s = some m ↔ p.Declares c s m := by
  refine ⟨hp.wellFormed.declares_of_declared?, fun h => ?_⟩
  obtain ⟨n, hn⟩ := hp.exists_declared? h
  rw [hn, hp.declares_unique h (hp.wellFormed.declares_of_declared? hn)]

theorem Accepted.declared?_eq_none_iff (hp : p.Accepted) :
    p.declared? c s = none ↔ ∀ m, ¬ p.Declares c s m := by
  rw [Option.eq_none_iff_forall_ne_some]
  exact forall_congr' fun m => not_congr hp.declared?_eq_some_iff

/-- A climb for a declaration passes the classes that do not declare it. -/
theorem Accepted.passes_eq (hp : p.Accepted) : p.Passes (p.declared? · s) = p.PassesOn s := by
  funext c d
  rw [Passes, PassesOn, hp.declared?_eq_none_iff, and_comm]

/-! ## What lookups find -/

theorem Searched.supertype (h : p.Searched c d) : p.Supertype c d := by
  rcases h with hchain | hlists
  · exact ⟨d, hchain, .refl⟩
  · exact ⟨c, .refl, hlists.to_reflTransGen⟩

/-- A supertype that no lookup searches is an interface to which a superclass leads. -/
theorem Supertype.searched_or (h : p.Supertype c d) :
    p.Searched c d ∨ ∃ e, TransGen p.Extends c e ∧ TransGen p.Lists e d := by
  obtain ⟨e, hchain, hlists⟩ := h
  rcases reflTransGen_iff_eq_or_transGen.1 hlists with rfl | hlists
  · exact .inl (.inl hchain)
  · rcases reflTransGen_iff_eq_or_transGen.1 hchain with rfl | hchain
    · exact .inl (.inr hlists)
    · exact .inr ⟨e, hchain, hlists⟩

/-- The interfaces of a class are those to which its lists lead. -/
theorem Accepted.mem_allInterfaces_iff (hp : p.Accepted) :
    d ∈ p.allInterfaces c ↔ TransGen p.Lists c d := by
  rw [hp.mem_allInterfaces, TransGen.head'_iff]
  rfl

/-- A lookup finds a declaration in something that it searches. -/
theorem Accepted.exists_searched_of_resolveRef (hp : p.Accepted) (hacyclic : p.Acyclic)
    (h : p.resolveRef ref = some m) :
    ∃ d, p.Searched ref.owner d ∧ p.Declares d ref.subsignature m := by
  rw [resolveRef] at h
  cases hsuper : p.superDeclaration ref.owner ref.subsignature with
  | some n =>
    rw [hsuper] at h
    obtain rfl : n = m := Option.some.inj h
    have hclimb : p.climb (p.declared? · ref.subsignature) ref.owner = some n := hsuper
    obtain ⟨d, hpasses, hd⟩ := hacyclic.climb_eq_some_iff.1 hclimb
    exact ⟨d, .inl (extends_of_passes hpasses), hp.declared?_eq_some_iff.1 hd⟩
  | none =>
    rw [hsuper] at h
    obtain ⟨d, hmem, hd⟩ := List.exists_of_findSome?_eq_some h
    exact ⟨d, .inr (hp.mem_allInterfaces_iff.1 hmem), hp.declared?_eq_some_iff.1 hd⟩

/-- The nearest class on the chain that declares the method answers a lookup. -/
theorem Accepted.resolveRef_of_nearest (hp : p.Accepted) (hacyclic : p.Acyclic)
    (hchain : ReflTransGen (p.PassesOn ref.subsignature) ref.owner d)
    (hd : p.Declares d ref.subsignature m) : p.resolveRef ref = some m := by
  have hclimb : p.climb (p.declared? · ref.subsignature) ref.owner = some m := by
    refine hacyclic.climb_eq_some_iff.2 ⟨d, ?_, hp.declared?_eq_some_iff.2 hd⟩
    rw [hp.passes_eq]
    exact hchain
  have hsuper : p.superDeclaration ref.owner ref.subsignature = some m := hclimb
  rw [resolveRef, hsuper]

/-- If a class on the chain declares the method, there is a nearest one. -/
theorem Accepted.exists_nearest (hp : p.Accepted) (hchain : ReflTransGen p.Extends c d)
    (hd : p.Declares d s m) :
    ∃ e n, ReflTransGen (p.PassesOn s) c e ∧ p.Declares e s n := by
  have hdeclared : p.declared? d s ≠ none := by
    rw [hp.declared?_eq_some_iff.2 hd]
    exact Option.some_ne_none m
  obtain ⟨e, hpasses, he⟩ := @Program.exists_nearest p (p.declared? · s) c d hchain hdeclared
  obtain ⟨n, hn⟩ := Option.ne_none_iff_exists'.1 he
  rw [hp.passes_eq] at hpasses
  exact ⟨e, n, hpasses, hp.declared?_eq_some_iff.1 hn⟩

/-- A declaration in something that a lookup searches is an answer, if not for this one then for
another one. -/
theorem Accepted.exists_resolveRef_of_searched (hp : p.Accepted) (hacyclic : p.Acyclic)
    (hsearched : p.Searched ref.owner d) (hd : p.Declares d ref.subsignature m) :
    ∃ n, p.resolveRef ref = some n := by
  rcases hsearched with hchain | hlists
  · obtain ⟨e, n, hnearest, he⟩ := hp.exists_nearest hchain hd
    exact ⟨n, hp.resolveRef_of_nearest hacyclic hnearest he⟩
  · rw [resolveRef]
    cases p.superDeclaration ref.owner ref.subsignature with
    | some n => exact ⟨n, rfl⟩
    | none =>
      apply Option.isSome_iff_exists.1
      rw [List.findSome?_isSome_iff]
      refine ⟨d, hp.mem_allInterfaces_iff.2 hlists, ?_⟩
      rw [hp.declared?_eq_some_iff.2 hd]
      rfl

/-- In an accepted program without a cycle of superclasses the lookup of a reference ends. It finds
a method exactly if something that it searches declares one, and what it finds is declared there;
the nearest class on the chain that declares the method answers before all others. So it finds a
method whenever some supertype declares one, unless the only supertypes that do are interfaces to
which superclasses lead. -/
theorem resolveRef_complete_iff (hp : p.Accepted) (hacyclic : p.Acyclic) (ref : MethodRef) :
    (∃ steps, p.resolveRefWithin? steps ref = some (p.resolveRef ref)) ∧
      ((∃ m, p.resolveRef ref = some m) ↔
        ∃ d m, p.Searched ref.owner d ∧ p.Declares d ref.subsignature m) ∧
      (∀ m, p.resolveRef ref = some m →
        ∃ d, p.Searched ref.owner d ∧ p.Declares d ref.subsignature m) ∧
      ((∃ d m, ReflTransGen p.Extends ref.owner d ∧ p.Declares d ref.subsignature m) →
        ∃ d m, ReflTransGen (p.PassesOn ref.subsignature) ref.owner d ∧
          p.Declares d ref.subsignature m ∧ p.resolveRef ref = some m) ∧
      (((∃ m, p.resolveRef ref = some m) ↔
          ∃ d m, p.Supertype ref.owner d ∧ p.Declares d ref.subsignature m) ↔
        ¬ p.Overlooks ref) := by
  have hfinds : (∃ m, p.resolveRef ref = some m) ↔
      ∃ d m, p.Searched ref.owner d ∧ p.Declares d ref.subsignature m := by
    constructor
    · rintro ⟨m, hm⟩
      obtain ⟨d, hd⟩ := hp.exists_searched_of_resolveRef hacyclic hm
      exact ⟨d, m, hd⟩
    · rintro ⟨d, m, hsearched, hd⟩
      exact hp.exists_resolveRef_of_searched hacyclic hsearched hd
  refine ⟨hacyclic.exists_resolveRefWithin? hp ref, hfinds,
    fun m hm => hp.exists_searched_of_resolveRef hacyclic hm, ?_, ?_⟩
  · rintro ⟨d, m, hchain, hd⟩
    obtain ⟨e, n, hnearest, he⟩ := hp.exists_nearest hchain hd
    exact ⟨e, n, hnearest, he, hp.resolveRef_of_nearest hacyclic hnearest he⟩
  · rw [hfinds]
    constructor
    · rintro hcomplete ⟨⟨c, i, m, hchain, hlists, hm⟩, hnone⟩
      obtain ⟨d, n, hsearched, hd⟩ :=
        hcomplete.2 ⟨i, m, ⟨c, hchain.to_reflTransGen, hlists.to_reflTransGen⟩, hm⟩
      exact hnone d n hsearched hd
    · intro hlooks
      refine ⟨fun ⟨d, m, hsearched, hd⟩ => ⟨d, m, hsearched.supertype, hd⟩, ?_⟩
      rintro ⟨d, m, hsuper, hd⟩
      rcases hsuper.searched_or with hsearched | ⟨e, hchain, hlists⟩
      · exact ⟨d, m, hsearched, hd⟩
      · by_contra hnone
        refine hlooks ⟨⟨e, d, m, hchain, hlists, hd⟩, fun d' m' hsearched hd' => ?_⟩
        exact hnone ⟨d', m', hsearched, hd'⟩

/-! ## An interface of a superclass -/

/-- The class `B` extends `A`, which implements `I`, and `I` gives `m` a body. -/
def inheritedCommands : List Command := [
  .addInterface "I" [], .addClass "A" none [0], .addClass "B" (some 1) [],
  .addMethod 0 "void m()" false]

/-- The program of these declarations. -/
def inherited : Program := (Program.ofCommands? inheritedCommands).get (by decide +kernel)

theorem accepted_inherited : inherited.Accepted :=
  Program.accepted_of_ofCommands? (Option.some_get _).symm

theorem acyclic_inherited : inherited.Acyclic :=
  acyclic_of_superclass_lt (by decide +kernel)

/-- The interface is a supertype of `B` and of `A`, and declares the method. -/
theorem supertype_inherited : inherited.Extends 2 1 ∧ inherited.Lists 1 0 ∧
    inherited.Declares 0 "void m()" 0 := by
  refine ⟨?_, ?_, accepted_inherited.declared?_eq_some_iff.1 (by decide +kernel)⟩
  · unfold Extends
    decide +kernel
  · unfold Lists
    decide +kernel

/-- A reference to the method in `B` is looked up to the end and names nothing, although a
supertype declares the method and a reference to it in `A` names it. -/
theorem not_resolveRef_complete_inherited :
    inherited.Accepted ∧ inherited.Acyclic ∧
      (∃ d m, inherited.Supertype 2 d ∧ inherited.Declares d "void m()" m) ∧
      (∃ steps, inherited.resolveRefWithin? steps ⟨2, "void m()"⟩ = some none) ∧
      inherited.resolveRef ⟨1, "void m()"⟩ = some 0 := by
  obtain ⟨hextends, hlists, hdeclares⟩ := supertype_inherited
  obtain ⟨steps, hsteps⟩ :=
    acyclic_inherited.exists_resolveRefWithin? accepted_inherited ⟨2, "void m()"⟩
  have hnone : inherited.resolveRef ⟨2, "void m()"⟩ = none := by decide +kernel
  exact ⟨accepted_inherited, acyclic_inherited,
    ⟨0, 0, ⟨1, .single hextends, .single hlists⟩, hdeclares⟩, ⟨steps, hnone ▸ hsteps⟩,
    by decide +kernel⟩

/-- The lookup in `B` overlooks the interface. -/
theorem overlooks_inherited :
    inherited.Accepted ∧ inherited.Acyclic ∧ inherited.Overlooks ⟨2, "void m()"⟩ := by
  obtain ⟨-, -, -, -, hcomplete⟩ :=
    resolveRef_complete_iff accepted_inherited acyclic_inherited ⟨2, "void m()"⟩
  obtain ⟨hextends, hlists, hdeclares⟩ := supertype_inherited
  have hnone : inherited.resolveRef ⟨2, "void m()"⟩ = none := by decide +kernel
  refine ⟨accepted_inherited, acyclic_inherited, ?_⟩
  by_contra hlooks
  obtain ⟨m, hm⟩ :=
    (hcomplete.2 hlooks).2 ⟨0, 0, ⟨1, .single hextends, .single hlists⟩, hdeclares⟩
  rw [hnone] at hm
  cases hm

end Program

end TacAnalysis
