import TacAnalysis.CallGraph.Basic
import TacAnalysis.Program.Resolution
import TacAnalysis.Proofs.Program.Accepted

/-!
# What lookups find

A lookup finds what some class declares, so in a well-formed program it finds a method. Dispatch
passes over methods without a body, and so do all ways to resolve a call: a call that is
resolved runs a method that has one.

Main statements: `HasBody.of_resolveCallee` and `HasBody.of_mem_resolveByHierarchy`.
-/

namespace TacAnalysis.Program

variable {p : Program}

/-- The number is one of a method with a body. -/
def HasBody (p : Program) (m : MethodId) : Prop :=
  ∃ method, p.method? m = some method ∧ method.isAbstract = false

/-- A method with a body is declared. -/
theorem HasBody.lt {m : MethodId} (h : p.HasBody m) : m < p.methods.length := by
  obtain ⟨method, hmethod, -⟩ := h
  exact (List.getElem?_eq_some_iff.1 hmethod).1

/-- What a class declares is a method. -/
theorem WellFormed.exists_method?_of_declared? (hp : p.WellFormed) {c : ClassId} {s : String}
    {m : MethodId} (h : p.declared? c s = some m) : ∃ method, p.method? m = some method := by
  obtain ⟨decl, hdecl, hfound⟩ := Option.bind_eq_some_iff.1 h
  obtain ⟨e, he, rfl⟩ := Option.map_eq_some_iff.1 hfound
  obtain ⟨method, hmethod, -⟩ :=
    hp.declared decl (List.mem_of_getElem? hdecl) e (List.mem_of_find?_eq_some he)
  exact ⟨method, hmethod⟩

/-- A declared method that is not abstract has a body. -/
theorem WellFormed.hasBody_of_declared? (hp : p.WellFormed) {c : ClassId} {s : String}
    {m : MethodId} (h : p.declared? c s = some m) (hconcrete : p.isAbstract m = false) :
    p.HasBody m := by
  obtain ⟨method, hmethod⟩ := hp.exists_method?_of_declared? h
  refine ⟨method, hmethod, ?_⟩
  simpa only [isAbstract, hmethod, Option.any_some] using hconcrete

/-- What a climb answers is the answer of some class. -/
theorem exists_find_of_climbWithin? {find : ClassId → Option MethodId} {steps : Nat} {c : ClassId}
    {m : MethodId} (h : (p.climbWithin? find steps c).getD none = some m) :
    ∃ d, find d = some m := by
  induction steps generalizing c with
  | zero => simp [climbWithin?] at h
  | succ steps ih =>
    rw [climbWithin?] at h
    cases hfind : find c with
    | some n =>
      simp only [hfind, Option.getD_some, Option.some.injEq] at h
      exact ⟨c, h ▸ hfind⟩
    | none =>
      cases hparent : p.superclass? c with
      | none => simp [hfind, hparent] at h
      | some parent =>
        simp only [hfind, hparent] at h
        exact ih h

/-- Dispatch finds methods with bodies. -/
theorem HasBody.of_dispatch (hp : p.WellFormed) {c : ClassId} {s : String} {m : MethodId}
    (h : p.dispatch c s = some m) : p.HasBody m := by
  unfold dispatch dispatchWithin? at h
  obtain ⟨d, hd⟩ := exists_find_of_climbWithin? h
  obtain ⟨hdeclared, hconcrete⟩ := Option.filter_eq_some_iff.1 hd
  exact hp.hasBody_of_declared? hdeclared (by simpa using hconcrete)

/-- A method reference names what some class declares. -/
theorem exists_declared?_of_resolveRef {ref : MethodRef} {m : MethodId}
    (h : p.resolveRef ref = some m) : ∃ d, p.declared? d ref.subsignature = some m := by
  unfold resolveRef superDeclaration declarationWithin? at h
  split at h
  · rename_i n hsuper
    obtain rfl : n = m := Option.some.inj h
    exact exists_find_of_climbWithin? hsuper
  · obtain ⟨d, -, hd⟩ := List.exists_of_findSome?_eq_some h
    exact ⟨d, hd⟩

/-- The method that a call runs has a body. -/
theorem HasBody.of_resolveCallee (hp : p.WellFormed) {receiver : Option Ty} {call : Invoke}
    {m : MethodId} (h : p.resolveCallee receiver call = some m) : p.HasBody m := by
  have hnamed : (p.resolveRef call.target).filter (!p.isAbstract ·) = some m → p.HasBody m := by
    intro h
    obtain ⟨href, hconcrete⟩ := Option.filter_eq_some_iff.1 h
    obtain ⟨d, hd⟩ := exists_declared?_of_resolveRef href
    exact hp.hasBody_of_declared? hd (by simpa using hconcrete)
  have hdispatched : resolveCallee.dispatchOn p call receiver = some m → p.HasBody m := by
    intro h
    unfold resolveCallee.dispatchOn at h
    split at h
    · exact of_dispatch hp h
    · cases h
  unfold resolveCallee at h
  cases hkind : call.kind with
  | static =>
    rw [hkind] at h
    exact hnamed h
  | special =>
    rw [hkind] at h
    exact hnamed h
  | virtual =>
    rw [hkind] at h
    exact hdispatched h
  | interface =>
    rw [hkind] at h
    exact hdispatched h
  | dynamic =>
    rw [hkind] at h
    cases h

/-- A list without its repetitions has no other elements. -/
theorem mem_foldl_addMissing {xs found : List MethodId} {m : MethodId} :
    m ∈ xs.foldl (fun found n => if n ∈ found then found else found ++ [n]) found ↔
      m ∈ found ∨ m ∈ xs := by
  induction xs generalizing found with
  | nil => simp
  | cons n xs ih =>
    rw [List.foldl_cons, ih, List.mem_cons]
    by_cases hn : n ∈ found
    · rw [if_pos hn]
      grind
    · rw [if_neg hn, List.mem_append, List.mem_singleton, or_assoc]

/-- A list without its repetitions has none. -/
theorem nodup_foldl_addMissing {xs found : List MethodId} (h : found.Nodup) :
    (xs.foldl (fun found n => if n ∈ found then found else found ++ [n]) found).Nodup := by
  induction xs generalizing found with
  | nil => exact h
  | cons n xs ih =>
    rw [List.foldl_cons]
    apply ih
    exact CallGraph.nodup_addOnce h

/-- The targets of a dispatched call are what instances of subtypes run. -/
theorem mem_dispatchTargets {c : ClassId} {s : String} {m : MethodId} : m ∈ p.dispatchTargets c s ↔
    ∃ d ∈ p.subtypes c, p.isInstantiable d = true ∧ p.dispatch d s = some m := by
  unfold dispatchTargets
  rw [mem_foldl_addMissing]
  simp [and_assoc]

/-- The methods that the hierarchy allows for a call have bodies. -/
theorem HasBody.of_mem_resolveByHierarchy (hp : p.WellFormed) {call : Invoke} {m : MethodId}
    (h : m ∈ p.resolveByHierarchy call) : p.HasBody m := by
  have htargets : ∀ c, m ∈ p.dispatchTargets c call.target.subsignature → p.HasBody m := by
    intro c h
    obtain ⟨d, -, -, hd⟩ := mem_dispatchTargets.1 h
    exact of_dispatch hp hd
  unfold resolveByHierarchy at h
  cases hkind : call.kind with
  | static =>
    rw [hkind] at h
    exact of_resolveCallee hp (Option.mem_toList.1 h)
  | special =>
    rw [hkind] at h
    exact of_dispatch hp (Option.mem_toList.1 h)
  | virtual =>
    rw [hkind] at h
    exact htargets _ h
  | interface =>
    rw [hkind] at h
    exact htargets _ h
  | dynamic =>
    rw [hkind] at h
    cases h

end TacAnalysis.Program
