import TacAnalysis.Proofs.Program.Accepted
import TacAnalysis.Program.Resolution

/-!
# What a program names is declared

The builder checks the classes that declarations and statements name. Here the checks are said of
the finished program: superclasses and interfaces, the classes of methods, of method references
and of allocated objects are declared, and the index of statements has an entry for each variable.

Main statements: `Accepted.parent_lt`, `Accepted.owner_lt`, `Accepted.target_lt`,
`Accepted.allocated_lt` and `Accepted.length_related`.
-/

namespace TacAnalysis

theorem Builder.checkClass_eq_ok_iff {b : Builder} {c : ClassId} :
    b.checkClass c = .ok () ↔ c < b.classes.length := by
  unfold checkClass
  split <;> simp [*]

/-- Methods pass the check of declarations if their classes are declared and no class declares a
subsignature twice. -/
theorem Builder.checkDeclarations_eq_ok_iff {b : Builder} {earlier methods : List Method} :
    b.checkDeclarations earlier methods = .ok () ↔
      (∀ m ∈ methods, m.owner < b.classes.length) ∧
        (∀ e ∈ earlier, ∀ m ∈ methods, ¬ (e.owner = m.owner ∧ e.subsignature = m.subsignature)) ∧
        methods.Pairwise fun e m => ¬ (e.owner = m.owner ∧ e.subsignature = m.subsignature) := by
  induction methods generalizing earlier with
  | nil => simp [checkDeclarations]
  | cons m rest ih =>
    unfold checkDeclarations
    cases hclass : b.classes[m.owner]? with
    | none =>
      have hle : ¬ m.owner < b.classes.length := Nat.not_lt.2 (List.getElem?_eq_none_iff.1 hclass)
      simp [hle]
    | some c =>
      have hlt : m.owner < b.classes.length := (List.getElem?_eq_some_iff.1 hclass).1
      simp only [List.any_eq_true, decide_eq_true_eq, List.forall_mem_cons, List.pairwise_cons]
      split
      · rename_i hclash
        obtain ⟨e, he, hsame⟩ := hclash
        simp only [reduceCtorEq, false_iff]
        rintro ⟨-, hearlier, -⟩
        exact (hearlier e he).1 hsame
      · rename_i hnew
        rw [ih]
        simp only [List.mem_append, List.mem_singleton, or_imp, forall_and, forall_eq]
        grind

/-- Entering statements leaves the variables of the index alone. -/
theorem length_foldl_addRelated (entries : List (Site × Stmt)) (index : List RelatedStmts) :
    (entries.foldl addRelated index).length = index.length := by
  induction entries generalizing index with
  | nil => rfl
  | cons e entries ih =>
    rw [List.foldl_cons, ih]
    unfold addRelated
    split
    · rfl
    · rw [List.length_modify]

namespace Program

variable {p : Program}

/-- Superclasses and interfaces are declared. -/
theorem Accepted.parent_lt (hp : p.Accepted) {decl : Class} (hdecl : decl ∈ p.classes) {d : ClassId}
    (hd : d ∈ decl.superclass.toList ++ decl.interfaces) : d < p.classes.length := by
  obtain ⟨commands, replies, b, -, hbuild⟩ := hp
  obtain ⟨hcheck, rfl⟩ := Builder.build_eq_ok_iff.1 hbuild
  obtain ⟨raw, hraw, rfl⟩ := List.mem_map.1 hdecl
  have hchecked := forM_eq_ok_iff.1 ((Builder.check_eq_ok_iff.1 hcheck).2.2.1 raw hraw) d hd
  rw [Builder.freeze, List.length_map]
  exact Builder.checkClass_eq_ok_iff.1 hchecked

/-- The class of a method is declared. -/
theorem Accepted.owner_lt (hp : p.Accepted) {m : Method} (hm : m ∈ p.methods) :
    m.owner < p.classes.length := by
  obtain ⟨commands, replies, b, -, hbuild⟩ := hp
  obtain ⟨hcheck, rfl⟩ := Builder.build_eq_ok_iff.1 hbuild
  obtain ⟨raw, hraw, rfl⟩ := List.mem_map.1 hm
  rw [Builder.freeze, List.length_map]
  have hdeclarations := (Builder.check_eq_ok_iff.1 hcheck).2.1
  exact (Builder.checkDeclarations_eq_ok_iff.1 hdeclarations).1 raw hraw

/-- The interfaces that a class of an accepted program lists are declared. -/
theorem Accepted.interface_lt (hp : p.Accepted) {c i : ClassId} (h : i ∈ p.interfaces c) :
    i < p.classes.length := by
  unfold interfaces at h
  cases hclass : p.class? c with
  | none => simp [hclass] at h
  | some decl =>
    rw [hclass] at h
    exact hp.parent_lt (List.mem_of_getElem? hclass) (List.mem_append_right _ h)

/-- The names in a statement have passed the checks of the builder. -/
theorem Accepted.exists_checkNames (hp : p.Accepted) {m : Method} (hm : m ∈ p.methods) {stmt : Stmt}
    (hstmt : stmt ∈ m.stmts) : ∃ (b : Builder) (raw : Method) (index : Nat),
      b.freeze = p ∧ b.checkNames raw index stmt = .ok () := by
  obtain ⟨commands, replies, b, -, hbuild⟩ := hp
  obtain ⟨hcheck, rfl⟩ := Builder.build_eq_ok_iff.1 hbuild
  obtain ⟨raw, hraw, rfl⟩ := List.mem_map.1 hm
  obtain ⟨index, -, -, hnames⟩ := Builder.checks_of_mem_stmts hcheck hraw hstmt
  exact ⟨b, raw, index, rfl, hnames⟩

/-- A statement stands in a method. -/
theorem exists_method_of_stmt? {site : Site} {stmt : Stmt} (h : p.stmt? site = some stmt) :
    ∃ m ∈ p.methods, stmt ∈ m.stmts := by
  obtain ⟨m, hm, hindex⟩ := Option.bind_eq_some_iff.1 h
  exact ⟨m, List.mem_of_getElem? hm, List.mem_of_getElem? hindex⟩

/-- The class that a call names is declared. -/
theorem Accepted.target_lt (hp : p.Accepted) {site : Site} {call : Invoke}
    (hstmt : p.stmt? site = some (.invoke call)) : call.target.owner < p.classes.length := by
  obtain ⟨m, hm, hmem⟩ := exists_method_of_stmt? hstmt
  obtain ⟨b, raw, index, rfl, hchecked⟩ := hp.exists_checkNames hm hmem
  obtain ⟨hclass, -⟩ := check_bind_eq_ok_iff.1 hchecked
  rw [Builder.freeze, List.length_map]
  exact Builder.checkClass_eq_ok_iff.1 hclass

/-- The class of an allocated object is declared. -/
theorem Accepted.allocated_lt (hp : p.Accepted) {site : Site} {lhs : VarId} {c : ClassId}
    (hstmt : p.stmt? site = some (.assign lhs (.new (.object c)))) : c < p.classes.length := by
  obtain ⟨m, hm, hmem⟩ := exists_method_of_stmt? hstmt
  obtain ⟨b, raw, index, rfl, hchecked⟩ := hp.exists_checkNames hm hmem
  rw [Builder.freeze, List.length_map]
  exact Builder.checkClass_eq_ok_iff.1 hchecked

/-- The index of statements has an entry for each variable. -/
theorem Accepted.length_related (hp : p.Accepted) : p.related.length = p.vars.length := by
  obtain ⟨commands, replies, b, -, hbuild⟩ := hp
  obtain ⟨-, rfl⟩ := Builder.build_eq_ok_iff.1 hbuild
  rw [Builder.freeze, length_foldl_addRelated, List.length_replicate]

/-- A variable has an entry in the index. -/
theorem Accepted.related_eq_some (hp : p.Accepted) {v : VarId} (hv : v < p.vars.length) :
    p.related[v]? = some (p.relatedTo v) := by
  have hlength : v < p.related.length := hp.length_related ▸ hv
  rw [relatedTo, List.getElem?_eq_getElem hlength, Option.getD_some]

end Program

end TacAnalysis
