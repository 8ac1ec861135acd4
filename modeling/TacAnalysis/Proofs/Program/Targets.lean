import TacAnalysis.Proofs.Program.Callees
import TacAnalysis.Proofs.Program.Climbs

/-!
# Two ways to resolve a call

A call can be resolved for the type of one receiver, or by the class hierarchy for all receivers
that its declared class allows. Both ways give the same methods, with an exception for special
calls. For a receiver a special call runs the method that its reference names, and so the
declaration nearest to the class of the reference counts, in a class or else in an interface. The
hierarchy dispatches on that class instead: it passes over declarations without a body, and it
never looks into interfaces.

Main statements: `resolveByHierarchy_agrees_iff` and `not_resolveByHierarchy_agrees_crossed`.
-/

namespace TacAnalysis.Program

open Relation

variable (p : Program)

/-- The types of the receivers that a call allows. Virtual and interface calls allow the subtypes
of the named class of which there are instances, and other calls do not look at their receiver. -/
def receivers (call : Invoke) : List (Option Ty) :=
  match call.kind with
  | .virtual => below call.target.owner
  | .interface => below call.target.owner
  | _ => [none]
where
  /-- The types of the instances of subtypes. -/
  below (c : ClassId) : List (Option Ty) :=
    ((p.subtypes c).filter p.isInstantiable).map fun d => some (.object d)

/-- The declaration nearest to the class of the reference has no body, although some class on the
chain of superclasses gives one. -/
def HidesBody (ref : MethodRef) : Prop :=
  (∃ d m, ReflTransGen (p.Passes (p.declared? · ref.subsignature)) ref.owner d ∧
    p.declared? d ref.subsignature = some m ∧ p.isAbstract m = true) ∧
  ∃ e m, ReflTransGen p.Extends ref.owner e ∧ p.body? e ref.subsignature = some m

/-- No class on the chain of superclasses declares the method, and the interface in which the
reference is found gives it a body. -/
def TakesInterfaceBody (ref : MethodRef) : Prop :=
  (∀ d, ReflTransGen p.Extends ref.owner d → p.declared? d ref.subsignature = none) ∧
    ∃ m, p.resolveRef ref = some m ∧ p.isAbstract m = false

variable {p} {call : Invoke} {ref : MethodRef} {c : ClassId} {s : String} {m : MethodId}

/-! ## Dispatch and references along superclasses -/

/-- A class has a body for what it declares, unless that is abstract. -/
theorem body?_of_declared? (h : p.declared? c s = some m) :
    p.body? c s = if p.isAbstract m then none else some m := by
  cases habstract : p.isAbstract m <;> simp [body?, h, habstract]

theorem body?_of_undeclared (h : p.declared? c s = none) : p.body? c s = none := by
  rw [body?, h, Option.filter_none]

/-- Where the nearest declaration has a body, dispatch finds it. -/
theorem dispatch_of_superDeclaration (hp : p.Acyclic) (h : p.superDeclaration c s = some m)
    (hbody : p.isAbstract m = false) : p.dispatch c s = some m := by
  have hclimb : p.climb (p.declared? · s) c = some m := h
  obtain ⟨d, hpasses, hd⟩ := hp.climb_eq_some_iff.1 hclimb
  have hfound : p.climb (p.body? · s) c = some m := by
    apply hp.climb_eq_some_iff.2
    refine ⟨d, ReflTransGen.mono (fun _ _ hpass => ?_) c d hpasses, ?_⟩
    · exact ⟨body?_of_undeclared hpass.1, hpass.2⟩
    · simp [body?_of_declared? hd, hbody]
  exact hfound

/-- Where no class declares a method, dispatch finds none. -/
theorem dispatch_of_undeclared (hp : p.Acyclic) (h : p.superDeclaration c s = none) :
    p.dispatch c s = none := by
  have hclimb : p.climb (p.declared? · s) c = none := h
  have hnone : p.climb (p.body? · s) c = none :=
    hp.climb_eq_none_iff.2 fun d hpath => body?_of_undeclared (hp.climb_eq_none_iff.1 hclimb d hpath)
  exact hnone

/-- A body is hidden if the reference names an abstract method, and dispatch goes on to another. -/
theorem hidesBody_iff (hp : p.Acyclic) : p.HidesBody ref ↔
    (∃ m, p.superDeclaration ref.owner ref.subsignature = some m ∧ p.isAbstract m = true) ∧
      p.dispatch ref.owner ref.subsignature ≠ none := by
  have hnamed : ∀ m, p.superDeclaration ref.owner ref.subsignature = some m ↔
      ∃ d, ReflTransGen (p.Passes (p.declared? · ref.subsignature)) ref.owner d ∧
        p.declared? d ref.subsignature = some m := fun _ => hp.climb_eq_some_iff
  have hdispatched : p.dispatch ref.owner ref.subsignature = none ↔
      ∀ d, ReflTransGen p.Extends ref.owner d → p.body? d ref.subsignature = none :=
    hp.climb_eq_none_iff
  unfold HidesBody
  apply and_congr
  · constructor
    · rintro ⟨d, m, hpasses, hd, habstract⟩
      exact ⟨m, (hnamed m).2 ⟨d, hpasses, hd⟩, habstract⟩
    · rintro ⟨m, hm, habstract⟩
      obtain ⟨d, hpasses, hd⟩ := (hnamed m).1 hm
      exact ⟨d, m, hpasses, hd, habstract⟩
  · rw [ne_eq, hdispatched]
    push Not
    simp only [Option.ne_none_iff_exists', exists_and_left]

/-- A body is taken from an interface if no class declares the method and the reference names one
that has a body. -/
theorem takesInterfaceBody_iff (hp : p.Acyclic) : p.TakesInterfaceBody ref ↔
    p.superDeclaration ref.owner ref.subsignature = none ∧
      (p.resolveRef ref).filter (!p.isAbstract ·) ≠ none := by
  have hnamed : p.superDeclaration ref.owner ref.subsignature = none ↔
      ∀ d, ReflTransGen p.Extends ref.owner d → p.declared? d ref.subsignature = none :=
    hp.climb_eq_none_iff
  unfold TakesInterfaceBody
  rw [hnamed]
  cases p.resolveRef ref <;> simp

/-! ## Special calls -/

/-- A reference that a class answers names a method to run unless that is abstract. -/
theorem filter_resolveRef (h : p.superDeclaration ref.owner ref.subsignature = some m) :
    (p.resolveRef ref).filter (!p.isAbstract ·) = if p.isAbstract m then none else some m := by
  have href : p.resolveRef ref = some m := by rw [resolveRef, h]
  rw [href, Option.filter_some]
  cases p.isAbstract m <;> rfl

/-- Dispatch on the class of a reference gives the method that the reference names, if it has a
body, with two exceptions. -/
theorem dispatch_eq_resolveRef_iff (hp : p.Acyclic) :
    p.dispatch ref.owner ref.subsignature = (p.resolveRef ref).filter (!p.isAbstract ·) ↔
      ¬ (p.HidesBody ref ∨ p.TakesInterfaceBody ref) := by
  rw [hidesBody_iff hp, takesInterfaceBody_iff hp]
  cases hsuper : p.superDeclaration ref.owner ref.subsignature with
  | none =>
    rw [dispatch_of_undeclared hp hsuper, eq_comm]
    simp only [reduceCtorEq, false_and, exists_false, true_and, false_or, ne_eq, not_not]
  | some m =>
    rw [filter_resolveRef hsuper]
    cases habstract : p.isAbstract m with
    | true => simp [habstract]
    | false => simp [habstract, dispatch_of_superDeclaration hp hsuper habstract]

/-- Dispatch finds the method that a reference names, if it has a body, unless that is the body of
an interface. -/
theorem dispatch_of_resolveRef_iff (hp : p.Acyclic) :
    (∀ m, (p.resolveRef ref).filter (!p.isAbstract ·) = some m →
      p.dispatch ref.owner ref.subsignature = some m) ↔ ¬ p.TakesInterfaceBody ref := by
  rw [takesInterfaceBody_iff hp]
  cases hsuper : p.superDeclaration ref.owner ref.subsignature with
  | none =>
    rw [dispatch_of_undeclared hp hsuper]
    simp only [reduceCtorEq, imp_false, true_and, ne_eq, not_not, Option.eq_none_iff_forall_ne_some]
  | some m =>
    rw [filter_resolveRef hsuper]
    cases habstract : p.isAbstract m with
    | true => simp
    | false => simp [dispatch_of_superDeclaration hp hsuper habstract]

/-! ## All kinds of calls -/

/-- A dispatched call resolves by the hierarchy to what it resolves to for the receivers that it
allows. -/
theorem mem_dispatchTargets_iff_dispatchOn :
    m ∈ p.dispatchTargets call.target.owner call.target.subsignature ↔
      ∃ receiver ∈ receivers.below p call.target.owner,
        resolveCallee.dispatchOn p call receiver = some m := by
  rw [mem_dispatchTargets]
  constructor
  · rintro ⟨d, hd, hinstances, hm⟩
    exact ⟨some (.object d), List.mem_map.2 ⟨d, List.mem_filter.2 ⟨hd, hinstances⟩, rfl⟩, hm⟩
  · rintro ⟨receiver, hreceiver, hm⟩
    obtain ⟨d, hd, rfl⟩ := List.mem_map.1 hreceiver
    obtain ⟨hd, hinstances⟩ := List.mem_filter.1 hd
    exact ⟨d, hd, hinstances, hm⟩

/-- A call resolves by the hierarchy to each method once. -/
theorem nodup_resolveByHierarchy (call : Invoke) : (p.resolveByHierarchy call).Nodup := by
  have htoList : ∀ found : Option MethodId, found.toList.Nodup := by
    intro found
    cases found <;> simp
  have htargets : ∀ c s, (p.dispatchTargets c s).Nodup :=
    fun c s => nodup_foldl_addMissing List.nodup_nil
  unfold resolveByHierarchy
  cases call.kind with
  | static => exact htoList _
  | special => exact htoList _
  | virtual => exact htargets _ _
  | interface => exact htargets _ _
  | dynamic => exact List.nodup_nil

/-- Static and special calls run the same method for every receiver. -/
theorem resolveCallee_eq_of_kind (h : call.kind = .static ∨ call.kind = .special)
    (receiver : Option Ty) :
    p.resolveCallee receiver call = (p.resolveRef call.target).filter (!p.isAbstract ·) := by
  rcases h with h | h <;> simp only [resolveCallee, h]

/-- Unless the call is special, the hierarchy gives what receivers give. -/
theorem mem_resolveByHierarchy_iff (h : call.kind ≠ .special) : m ∈ p.resolveByHierarchy call ↔
    ∃ receiver ∈ p.receivers call, p.resolveCallee receiver call = some m := by
  unfold resolveByHierarchy receivers
  cases hkind : call.kind with
  | static => simp
  | special => exact absurd hkind h
  | virtual =>
    simp only [resolveCallee, hkind]
    exact mem_dispatchTargets_iff_dispatchOn
  | interface =>
    simp only [resolveCallee, hkind]
    exact mem_dispatchTargets_iff_dispatchOn
  | dynamic => simp [resolveCallee, hkind]

/-- A special call resolves by the hierarchy to what dispatch finds. -/
theorem mem_resolveByHierarchy_of_special (h : call.kind = .special) :
    m ∈ p.resolveByHierarchy call ↔
      p.dispatch call.target.owner call.target.subsignature = some m := by
  simp [resolveByHierarchy, h]

/-- A special call resolves for receivers to what its reference names. -/
theorem exists_receiver_of_special (h : call.kind = .special) :
    (∃ receiver ∈ p.receivers call, p.resolveCallee receiver call = some m) ↔
      (p.resolveRef call.target).filter (!p.isAbstract ·) = some m := by
  have hreceivers : p.receivers call = [none] := by simp only [receivers, h]
  simp only [hreceivers, List.mem_singleton, exists_eq_left]
  rw [resolveCallee_eq_of_kind (.inr h)]

/-- In a program without a cycle of superclasses a call resolves by the hierarchy to no method
twice, and exactly to the methods that it resolves to for the receivers that it allows, unless it
is special and a body is hidden from its reference or taken from an interface. Of what the call
resolves to for a receiver the hierarchy misses something exactly if the call is special and the
body is taken from an interface. -/
theorem resolveByHierarchy_agrees_iff (hp : p.Acyclic) (call : Invoke) :
    (p.resolveByHierarchy call).Nodup ∧
      ((∀ m, m ∈ p.resolveByHierarchy call ↔
          ∃ receiver ∈ p.receivers call, p.resolveCallee receiver call = some m) ↔
        ¬ (call.kind = .special ∧ (p.HidesBody call.target ∨ p.TakesInterfaceBody call.target))) ∧
      ((∀ m, (∃ receiver ∈ p.receivers call, p.resolveCallee receiver call = some m) →
          m ∈ p.resolveByHierarchy call) ↔
        ¬ (call.kind = .special ∧ p.TakesInterfaceBody call.target)) ∧
      (call.kind = .static ∨ call.kind = .special →
        ∀ receiver, p.resolveCallee receiver call = p.resolveCallee none call) ∧
      (call.kind = .dynamic → p.resolveByHierarchy call = []) := by
  refine ⟨nodup_resolveByHierarchy call, ?_, ?_, fun h receiver => ?_, fun h => ?_⟩
  · by_cases hspecial : call.kind = .special
    · simp only [mem_resolveByHierarchy_of_special hspecial, exists_receiver_of_special hspecial,
        hspecial, true_and]
      rw [← dispatch_eq_resolveRef_iff hp, Option.ext_iff]
    · apply iff_of_true
      · exact fun m => mem_resolveByHierarchy_iff hspecial
      · exact fun h => hspecial h.1
  · by_cases hspecial : call.kind = .special
    · simp only [mem_resolveByHierarchy_of_special hspecial, exists_receiver_of_special hspecial,
        hspecial, true_and]
      exact dispatch_of_resolveRef_iff hp
    · apply iff_of_true
      · exact fun m => (mem_resolveByHierarchy_iff hspecial).2
      · exact fun h => hspecial h.1
  · exact (resolveCallee_eq_of_kind h receiver).trans (resolveCallee_eq_of_kind h none).symm
  · simp only [resolveByHierarchy, h]

/-! ## Special calls that go different ways -/

/-- The class `C` has the body of `m` from its interface `I` only. The class `B` declares `n`
without a body, and its superclass `A` has one. -/
def crossedCommands : List Command := [
  .addInterface "I" [], .addClass "C" none [0],
  .addClass "A" none [], .addAbstractClass "B" (some 2) [],
  .addMethod 0 "void m()" false, .addMethod 2 "void n()" false,
  .addAbstractMethod 3 "void n()"]

/-- The program of these declarations. -/
def crossed : Program := (Program.ofCommands? crossedCommands).get (by decide +kernel)

theorem accepted_crossed : crossed.Accepted :=
  Program.accepted_of_ofCommands? (Option.some_get _).symm

theorem acyclic_crossed : crossed.Acyclic :=
  acyclic_of_superclass_lt (by decide +kernel)

/-- A special call of a method without arguments. -/
def specialCall (c : ClassId) (subsignature : String) : Invoke :=
  ⟨.special, ⟨c, subsignature⟩, some 0, [], none⟩

/-- For a receiver the call in `C` runs the body of the interface. The hierarchy gives nothing. -/
theorem specialCall_interfaceBody :
    crossed.resolveCallee none (specialCall 1 "void m()") = some 0 ∧
      crossed.resolveByHierarchy (specialCall 1 "void m()") = [] := by
  decide +kernel

/-- For a receiver the call in `B` runs nothing. The hierarchy gives the body of the superclass. -/
theorem specialCall_hiddenBody :
    crossed.resolveCallee none (specialCall 3 "void n()") = none ∧
      crossed.resolveByHierarchy (specialCall 3 "void n()") = [1] := by
  decide +kernel

/-- The hierarchy misses the method of one special call, and gives another one too many. -/
theorem not_resolveByHierarchy_agrees_crossed :
    crossed.Accepted ∧ crossed.Acyclic ∧
      (∀ c s receiver, crossed.resolveCallee receiver (specialCall c s) =
        crossed.resolveCallee none (specialCall c s)) ∧
      (crossed.resolveCallee none (specialCall 1 "void m()") = some 0 ∧
        crossed.resolveByHierarchy (specialCall 1 "void m()") = []) ∧
      (crossed.resolveCallee none (specialCall 3 "void n()") = none ∧
        crossed.resolveByHierarchy (specialCall 3 "void n()") = [1]) :=
  ⟨accepted_crossed, acyclic_crossed, fun _ _ _ => rfl, specialCall_interfaceBody,
    specialCall_hiddenBody⟩

/-- The call in `C` takes its body from the interface. The one in `B` does not, and so a body is
hidden from its reference. -/
theorem takesInterfaceBody_crossed :
    crossed.Acyclic ∧ crossed.TakesInterfaceBody ⟨1, "void m()"⟩ ∧
      crossed.HidesBody ⟨3, "void n()"⟩ ∧ ¬ crossed.TakesInterfaceBody ⟨3, "void n()"⟩ := by
  obtain ⟨-, -, hcoversC, -⟩ :=
    resolveByHierarchy_agrees_iff acyclic_crossed (specialCall 1 "void m()")
  obtain ⟨-, hagreesB, hcoversB, -⟩ :=
    resolveByHierarchy_agrees_iff acyclic_crossed (specialCall 3 "void n()")
  obtain ⟨hcalleeC, htargetsC⟩ := specialCall_interfaceBody
  obtain ⟨hcalleeB, htargetsB⟩ := specialCall_hiddenBody
  have htakesC : crossed.TakesInterfaceBody ⟨1, "void m()"⟩ := by
    by_contra htakes
    have hcovers := hcoversC.2 (fun h => htakes h.2) 0 ⟨none, List.mem_singleton_self _, hcalleeC⟩
    rw [htargetsC] at hcovers
    cases hcovers
  have htakesB : ¬ crossed.TakesInterfaceBody ⟨3, "void n()"⟩ := by
    refine fun htakes => hcoversB.1 ?_ ⟨rfl, htakes⟩
    rintro m ⟨receiver, -, hm⟩
    cases hcalleeB.symm.trans hm
  have hhidesB : crossed.HidesBody ⟨3, "void n()"⟩ := by
    by_contra hhides
    have hagrees := hagreesB.2 fun h => h.2.elim hhides htakesB
    obtain ⟨receiver, -, hm⟩ := (hagrees 1).1 (htargetsB ▸ List.mem_singleton_self 1)
    cases hcalleeB.symm.trans hm
  exact ⟨acyclic_crossed, htakesC, hhidesB, htakesB⟩

end TacAnalysis.Program
