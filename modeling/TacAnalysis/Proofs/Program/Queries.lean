import Mathlib.Data.List.ReduceOption
import TacAnalysis.Proofs.CallGraph.Grounded
import TacAnalysis.Proofs.PointsTo.Termination
import TacAnalysis.Proofs.Program.Climbs

/-!
# When queries of the class hierarchy end

Queries are made of climbs along superclass links and of searches, of subtypes and of interfaces.
Each is run here so that it gives something only if it is over after so many steps. Searches
remember where they have been and always end. Climbs do not, and nothing keeps an accepted
program from having a cycle of superclasses, so all queries end exactly if there is none; then
the two ways to build a call graph end as well.

Main statements: `queriesEnd_iff_acyclic` and `not_dispatch_ends_selfExtending`.
-/

namespace TacAnalysis.Program

open Relation

variable (p : Program)

/-! ## Queries with a number of steps -/

/-- The search for all subtypes, if it is over after so many turns. -/
def subtypesWithin? (steps : Nat) (c : ClassId) : Option (List ClassId) :=
  Search.visitWithin? p.directSubtypes (fun new old => new ++ old) steps [] [c]

/-- The search for all interfaces of a class, if it is over after so many turns. -/
def interfacesWithin? (steps : Nat) (c : ClassId) : Option (List ClassId) :=
  Search.visitWithin? (fun d => (p.interfaces d).reverse) (fun new old => new ++ old) steps []
    (p.interfaces c).reverse

/-- `resolveRef`, if the climb and the search are over after so many steps. -/
def resolveRefWithin? (steps : Nat) (ref : MethodRef) : Option (Option MethodId) :=
  match p.declarationWithin? steps ref.owner ref.subsignature with
  | none => none
  | some (some m) => some (some m)
  | some none =>
    (p.interfacesWithin? steps ref.owner).map (·.findSome? (p.declared? · ref.subsignature))

/-- `resolveCallee`, if its walks are over after so many steps. -/
def resolveCalleeWithin? (steps : Nat) (receiver : Option Ty) (call : Invoke) :
    Option (Option MethodId) :=
  match call.kind with
  | .static => (p.resolveRefWithin? steps call.target).map (·.filter (!p.isAbstract ·))
  | .special => (p.resolveRefWithin? steps call.target).map (·.filter (!p.isAbstract ·))
  | .virtual => dispatchOnWithin? receiver
  | .interface => dispatchOnWithin? receiver
  | .dynamic => some none
where
  /-- Dispatch on the class of the receiver. -/
  dispatchOnWithin? : Option Ty → Option (Option MethodId)
    | some (.object c) => p.dispatchWithin? steps c call.target.subsignature
    | _ => some none

/-- `dispatchTargets`, if its walks are over after so many steps. -/
def dispatchTargetsWithin? (steps : Nat) (c : ClassId) (subsignature : String) :
    Option (List MethodId) := do
  let subtypes ← p.subtypesWithin? steps c
  let found ← (subtypes.filter p.isInstantiable).mapM (p.dispatchWithin? steps · subsignature)
  return found.reduceOption.foldl (fun targets m => if m ∈ targets then targets else targets ++ [m]) []

/-- `resolveByHierarchy`, if its walks are over after so many steps. -/
def resolveByHierarchyWithin? (steps : Nat) (call : Invoke) : Option (List MethodId) :=
  match call.kind with
  | .static => (p.resolveCalleeWithin? steps none call).map Option.toList
  | .special =>
    (p.dispatchWithin? steps call.target.owner call.target.subsignature).map Option.toList
  | .virtual => p.dispatchTargetsWithin? steps call.target.owner call.target.subsignature
  | .interface => p.dispatchTargetsWithin? steps call.target.owner call.target.subsignature
  | .dynamic => some []

/-- All queries about declared classes end, with the answers that lookups give. -/
structure QueriesEnd : Prop where
  /-- Dispatch ends. -/
  dispatch : ∀ c < p.classes.length, ∀ subsignature,
    ∃ steps, p.dispatchWithin? steps c subsignature = some (p.dispatch c subsignature)
  /-- Looking up a method reference ends. -/
  resolveRef : ∀ ref : MethodRef, ref.owner < p.classes.length →
    ∃ steps, p.resolveRefWithin? steps ref = some (p.resolveRef ref)
  /-- Resolving a call for an object ends. -/
  resolveCallee : ∀ receiver (call : Invoke), call.target.owner < p.classes.length →
    (∀ c, receiver = some (.object c) → c < p.classes.length) →
    ∃ steps, p.resolveCalleeWithin? steps receiver call = some (p.resolveCallee receiver call)
  /-- Resolving a call by the hierarchy ends. -/
  resolveByHierarchy : ∀ call : Invoke, call.target.owner < p.classes.length →
    ∃ steps, p.resolveByHierarchyWithin? steps call = some (p.resolveByHierarchy call)
  /-- Listing subtypes ends. -/
  subtypes : ∀ c < p.classes.length, ∃ steps, p.subtypesWithin? steps c = some (p.subtypes c)

/-- Both ways to build a call graph end. -/
structure CallGraphsEnd : Prop where
  /-- Every call is resolved by the hierarchy. -/
  resolves : ∀ site call, p.stmt? site = some (.invoke call) →
    ∃ steps, p.resolveByHierarchyWithin? steps call = some (p.resolveByHierarchy call)
  /-- The search for methods that can be reached ends. -/
  discovers : ∀ entry, p.entry = some entry → ∃ turns,
    Search.visitWithin? (fun m => (p.hierarchyCalls m).map (·.callee)) (fun new old => old ++ new)
      turns [] [entry] = some (p.hierarchyReachable entry)
  /-- Calls are resolved for whatever object arrives. -/
  resolvesFor : ∀ receiver site call, p.stmt? site = some (.invoke call) →
    ∃ steps, p.resolveCalleeWithin? steps receiver call = some (p.resolveCallee receiver call)
  /-- Under every heap model and order pointer analysis begins, takes each step and ends. -/
  pointers : ∀ heap order,
    let c : PointsToProblem := ⟨p, heap, order⟩
    c.beginWithin? c.levels c.initial = some (c.begin c.initial) ∧
      (∀ k, c.stepWithin? c.levels (stateAfter c.step k (c.begin c.initial)) =
        some (c.step (stateAfter c.step k (c.begin c.initial)))) ∧
      ∃ budget s, c.run? budget = some s

variable {p}

/-! ## Searches end -/

/-- Subtypes are declared. -/
theorem WellFormed.directSubtype_lt (hp : p.WellFormed) {c d : ClassId}
    (hd : d ∈ p.directSubtypes c) : d < p.classes.length := by
  have hlisted : ∀ {decl : Class}, decl ∈ p.classes → decl.id < p.classes.length := by
    intro decl hdecl
    obtain ⟨i, hi⟩ := List.getElem?_of_mem hdecl
    rw [hp.class_id i decl hi]
    exact (List.getElem?_eq_some_iff.1 hi).1
  have hlisting : ∀ {decl : Class}, decl ∈ p.classes → d ∈ listing c decl → d < p.classes.length := by
    intro decl hdecl hmem
    obtain ⟨-, -, rfl⟩ := List.mem_map.1 hmem
    exact hlisted hdecl
  rcases List.mem_append.1 hd with hd | hd
  · rcases List.mem_append.1 hd with hd | hd
    · obtain ⟨decl, hdecl, hmem⟩ := List.mem_flatMap.1 hd
      exact hlisting (List.mem_filter.1 hdecl).1 hmem
    · obtain ⟨decl, hdecl, hmem⟩ := List.mem_flatMap.1 hd
      exact hlisting (List.mem_filter.1 hdecl).1 hmem
  · obtain ⟨decl, hdecl, rfl⟩ := List.mem_map.1 hd
    exact hlisted (List.mem_filter.1 hdecl).1

/-- The search for subtypes ends. -/
theorem WellFormed.exists_subtypesWithin? (hp : p.WellFormed) {c : ClassId}
    (hc : c < p.classes.length) : ∃ steps, p.subtypesWithin? steps c = some (p.subtypes c) :=
  ⟨_, Search.visitWithin?_start Search.arranges_depthFirst (fun _ _ _ hm => hp.directSubtype_lt hm)
    (by simpa using hc)⟩

/-- The search for interfaces ends. -/
theorem Accepted.exists_interfacesWithin? (hp : p.Accepted) (c : ClassId) :
    ∃ steps, p.interfacesWithin? steps c = some (p.allInterfaces c) :=
  ⟨_, Search.visitWithin?_start Search.arranges_depthFirst
    (fun _ _ _ hm => hp.interface_lt (List.mem_reverse.1 hm))
    fun _ hm => hp.interface_lt (List.mem_reverse.1 hm)⟩

/-! ## Climbs end without cycles -/

variable {steps : Nat} {c : ClassId} {subsignature : String}

/-- Dispatch is over within the bound of lookups. -/
theorem Acyclic.dispatchWithin?_eq (hp : p.Acyclic) (hsteps : p.climbBound ≤ steps) :
    p.dispatchWithin? steps c subsignature = some (p.dispatch c subsignature) := by
  obtain ⟨found, hfound⟩ := hp.exists_climbWithin? (p.body? · subsignature) c
  rw [dispatch, dispatchWithin?, dispatchWithin?, hfound, climbWithin?_mono hsteps hfound,
    Option.getD_some]

/-- Looking up a method reference ends. -/
theorem Acyclic.exists_resolveRefWithin? (hp : p.Acyclic) (haccepted : p.Accepted)
    (ref : MethodRef) : ∃ steps, p.resolveRefWithin? steps ref = some (p.resolveRef ref) := by
  obtain ⟨turns, hturns⟩ := haccepted.exists_interfacesWithin? ref.owner
  obtain ⟨found, hfound⟩ := hp.exists_climbWithin? (p.declared? · ref.subsignature) ref.owner
  have hclimb : p.declarationWithin? (max turns p.climbBound) ref.owner ref.subsignature = some found :=
    climbWithin?_mono (le_max_right ..) hfound
  have hsearch : p.interfacesWithin? (max turns p.climbBound) ref.owner =
      some (p.allInterfaces ref.owner) := Search.visitWithin?_mono (le_max_left ..) hturns
  have hsuper : p.superDeclaration ref.owner ref.subsignature = found := by
    rw [superDeclaration, declarationWithin?, hfound, Option.getD_some]
  refine ⟨max turns p.climbBound, ?_⟩
  rw [resolveRefWithin?, hclimb, resolveRef, hsuper]
  cases found with
  | some m => rfl
  | none =>
    simp only [hsearch, Option.map_some]

/-- Resolving a call for an object ends. -/
theorem Acyclic.exists_resolveCalleeWithin? (hp : p.Acyclic) (haccepted : p.Accepted)
    (receiver : Option Ty) (call : Invoke) :
    ∃ steps, p.resolveCalleeWithin? steps receiver call = some (p.resolveCallee receiver call) := by
  obtain ⟨turns, hturns⟩ := hp.exists_resolveRefWithin? haccepted call.target
  have hdispatch : resolveCalleeWithin?.dispatchOnWithin? p p.climbBound call receiver =
      some (resolveCallee.dispatchOn p call receiver) := by
    rcases receiver with _ | ty
    · rfl
    · cases ty with
      | object c => exact hp.dispatchWithin?_eq le_rfl
      | _ => rfl
  unfold resolveCalleeWithin? resolveCallee
  cases call.kind with
  | static => exact ⟨turns, by simp only [hturns, Option.map_some]⟩
  | special => exact ⟨turns, by simp only [hturns, Option.map_some]⟩
  | virtual => exact ⟨p.climbBound, hdispatch⟩
  | interface => exact ⟨p.climbBound, hdispatch⟩
  | dynamic => exact ⟨0, rfl⟩

/-- Finding the targets of a call ends. -/
theorem Acyclic.exists_dispatchTargetsWithin? (hp : p.Acyclic) (hwell : p.WellFormed)
    (hc : c < p.classes.length) : ∃ steps, p.dispatchTargetsWithin? steps c subsignature =
      some (p.dispatchTargets c subsignature) := by
  obtain ⟨turns, hturns⟩ := hwell.exists_subtypesWithin? hc
  have hsearch : p.subtypesWithin? (max turns p.climbBound) c = some (p.subtypes c) :=
    Search.visitWithin?_mono (le_max_left ..) hturns
  have hfound : ((p.subtypes c).filter p.isInstantiable).mapM
      (p.dispatchWithin? (max turns p.climbBound) · subsignature) =
        some (((p.subtypes c).filter p.isInstantiable).map (p.dispatch · subsignature)) := by
    have hdispatch : (p.dispatchWithin? (max turns p.climbBound) · subsignature) =
        fun d => pure (p.dispatch d subsignature) :=
      funext fun d => hp.dispatchWithin?_eq (le_max_right ..)
    rw [hdispatch, List.mapM_pure]
    rfl
  refine ⟨max turns p.climbBound, ?_⟩
  rw [dispatchTargetsWithin?, hsearch, Option.bind_eq_bind, Option.bind_some, hfound,
    Option.bind_eq_bind, Option.bind_some, dispatchTargets, List.reduceOption, List.filterMap_map]
  rfl

/-- Resolving a call by the hierarchy ends. -/
theorem Acyclic.exists_resolveByHierarchyWithin? (hp : p.Acyclic) (haccepted : p.Accepted)
    {call : Invoke} (hc : call.target.owner < p.classes.length) :
    ∃ steps, p.resolveByHierarchyWithin? steps call = some (p.resolveByHierarchy call) := by
  obtain ⟨turns, hturns⟩ := hp.exists_resolveCalleeWithin? haccepted none call
  have htargets : ∃ steps, p.dispatchTargetsWithin? steps call.target.owner call.target.subsignature =
      some (p.dispatchTargets call.target.owner call.target.subsignature) :=
    hp.exists_dispatchTargetsWithin? haccepted.wellFormed hc
  unfold resolveByHierarchyWithin? resolveByHierarchy
  cases call.kind with
  | static => exact ⟨turns, by simp only [hturns, Option.map_some]⟩
  | special => exact ⟨p.climbBound, by simp only [hp.dispatchWithin?_eq le_rfl, Option.map_some]⟩
  | virtual => exact htargets
  | interface => exact htargets
  | dynamic => exact ⟨0, rfl⟩

theorem Acyclic.queriesEnd (hp : p.Acyclic) (haccepted : p.Accepted) : p.QueriesEnd where
  dispatch _ _ _ := ⟨p.climbBound, hp.dispatchWithin?_eq le_rfl⟩
  resolveRef ref _ := hp.exists_resolveRefWithin? haccepted ref
  resolveCallee receiver call _ _ := hp.exists_resolveCalleeWithin? haccepted receiver call
  resolveByHierarchy _ hc := hp.exists_resolveByHierarchyWithin? haccepted hc
  subtypes _ hc := haccepted.wellFormed.exists_subtypesWithin? hc

/-- If dispatch on declared classes ends, there is no cycle: on one, dispatch of a subsignature
that no class declares does not end. -/
theorem acyclic_of_dispatch (h : ∀ c < p.classes.length, ∀ subsignature, ∃ steps found,
    p.dispatchWithin? steps c subsignature = some found) : p.Acyclic := by
  intro c hcycle
  obtain ⟨subsignature, hundeclared⟩ := exists_undeclared p
  have hnone : ∀ d, p.body? d subsignature = none := by
    intro d
    rw [body?, hundeclared d, Option.filter_none]
  have hc : c < p.classes.length := by
    obtain ⟨parent, hlink, -⟩ := TransGen.head'_iff.1 hcycle
    exact hlink.lt
  exact not_climb_ends_of_cycle hcycle hnone (h c hc subsignature)

/-! ## Call graphs -/

/-- Without a cycle of superclasses both ways to build a call graph end. -/
theorem Acyclic.callGraphsEnd (hp : p.Acyclic) (haccepted : p.Accepted) : p.CallGraphsEnd where
  resolves _ _ hstmt := hp.exists_resolveByHierarchyWithin? haccepted (haccepted.target_lt hstmt)
  discovers entry hentry := by
    have hlt : ∀ m ∈ [entry], m < p.methods.length := by
      simpa using haccepted.wellFormed.entry_lt entry hentry
    exact ⟨_, Search.visitWithin?_start Search.arranges_breadthFirst (fun _ _ _ hn =>
      CallGraph.callee_lt_of_mem_hierarchyCalls haccepted.wellFormed hn) hlt⟩
  resolvesFor receiver _ call _ := hp.exists_resolveCalleeWithin? haccepted receiver call
  pointers heap order := by
    intro c
    have hwell : c.program.WellFormed := haccepted.wellFormed
    refine ⟨PointsToProblem.beginWithin?_levels hwell, fun k => ?_, PointsToProblem.exists_run? hwell⟩
    have hclosed : c.Closed (stateAfter c.step k (c.begin c.initial)) :=
      stateAfter_invariant (PointsToProblem.closed_begin hwell) (fun s t hs h => hs.step hwell h) k
    exact hclosed.stepWithin?_levels hwell

/-- The queries of an accepted program end exactly if its superclass links form no cycle, and then
both ways to build a call graph end. Cycle or not, searches of subtypes and of interfaces end, and a
climb ends exactly if it comes to a class that has an answer or has no superclass; then it is over
within the bound of lookups. -/
theorem queriesEnd_iff_acyclic (hp : p.Accepted) :
    (p.QueriesEnd ↔ p.Acyclic) ∧ (p.Acyclic → p.CallGraphsEnd) ∧
      (∀ c < p.classes.length, ∃ steps, p.subtypesWithin? steps c = some (p.subtypes c)) ∧
      (∀ c, ∃ steps, p.interfacesWithin? steps c = some (p.allInterfaces c)) ∧
      (∀ find c, (∃ steps found, p.climbWithin? find steps c = some found) ↔
        ∃ d, ReflTransGen p.Extends c d ∧ (find d ≠ none ∨ p.superclass? d = none)) ∧
      ∀ find c steps found, p.climbWithin? find steps c = some found →
        p.climbWithin? find p.climbBound c = some found := by
  have hacyclic : p.QueriesEnd → p.Acyclic := by
    intro hends
    refine acyclic_of_dispatch fun c hc subsignature => ?_
    obtain ⟨steps, hsteps⟩ := hends.dispatch c hc subsignature
    exact ⟨steps, _, hsteps⟩
  exact ⟨⟨hacyclic, fun h => h.queriesEnd hp⟩, fun h => h.callGraphsEnd hp,
    fun _ hc => hp.wellFormed.exists_subtypesWithin? hc, hp.exists_interfacesWithin?,
    fun _ _ => climb_ends_iff, fun _ _ _ _ => climbWithin?_climbBound⟩

/-! ## A class that extends itself -/

/-- The only class is its own superclass. -/
def selfExtendingCommands : List Command := [.addClass "C" (some 0) []]

/-- The program of this declaration. -/
def selfExtending : Program := (Program.ofCommands? selfExtendingCommands).get (by decide +kernel)

theorem accepted_selfExtending : selfExtending.Accepted :=
  Program.accepted_of_ofCommands? (Option.some_get _).symm

/-- On an accepted program dispatch need not end, nor need looking up a method reference. -/
theorem not_dispatch_ends_selfExtending :
    selfExtending.Accepted ∧ 0 < selfExtending.classes.length ∧
      ∀ steps, selfExtending.dispatchWithin? steps 0 "void m()" = none ∧
        selfExtending.resolveRefWithin? steps ⟨0, "void m()"⟩ = none := by
  have hlength : 0 < selfExtending.classes.length := by decide +kernel
  have hlink : selfExtending.Extends 0 0 := by
    unfold Extends
    decide +kernel
  have hbody : selfExtending.body? 0 "void m()" = none := by decide +kernel
  have hdeclared : selfExtending.declared? 0 "void m()" = none := by decide +kernel
  -- every step of a climb leads back to where it began
  have hclimb : ∀ find : ClassId → Option MethodId, find 0 = none →
      ∀ steps, selfExtending.climbWithin? find steps 0 = none := by
    intro find hfind steps
    induction steps with
    | zero => rfl
    | succ steps ih => rw [climbWithin?_succ hfind hlink, ih]
  refine ⟨accepted_selfExtending, hlength, fun steps => ⟨hclimb _ hbody steps, ?_⟩⟩
  rw [resolveRefWithin?, declarationWithin?, hclimb _ hdeclared steps]

/-- The queries do not all end, but the search for subtypes does. -/
theorem selfExtending_queries :
    selfExtending.Accepted ∧ ¬ selfExtending.QueriesEnd ∧
      ∃ steps, selfExtending.subtypesWithin? steps 0 = some [0] := by
  obtain ⟨hiff, -, hsubtypes, -⟩ := queriesEnd_iff_acyclic accepted_selfExtending
  have hlink : selfExtending.Extends 0 0 := by
    unfold Extends
    decide +kernel
  have hfound : selfExtending.subtypes 0 = [0] := by decide +kernel
  obtain ⟨steps, hsteps⟩ := hsubtypes 0 (by decide +kernel)
  exact ⟨accepted_selfExtending, fun h => hiff.1 h 0 (.single hlink), steps, hfound ▸ hsteps⟩

end TacAnalysis.Program
