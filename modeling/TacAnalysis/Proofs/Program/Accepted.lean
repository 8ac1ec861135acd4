import TacAnalysis.ControlFlow.Build
import TacAnalysis.Proofs.ControlFlow.WellFormed
import TacAnalysis.Proofs.Program.Numbering
import TacAnalysis.Proofs.Program.Related

/-!
# Accepted programs

A program is accepted if some declarations build it. The checks of the builder are about
the declarations; here they are said of the finished program, in which every method is at
the position of its number, uses its own variables only and jumps inside its body.

Main statements: `Accepted.wellFormed` and `Accepted.exists_flowGraph`, every method of an
accepted program has a control-flow graph.
-/

namespace TacAnalysis

namespace Program

/-- Some declarations build the program. -/
def Accepted (p : Program) : Prop :=
  ∃ commands replies b, Builder.empty.run commands = (replies, some b) ∧ b.build = .ok p

/-- The variable is declared by the method. -/
def Owns (p : Program) (m : MethodId) (v : VarId) : Prop :=
  ∃ decl, p.var? v = some decl ∧ decl.method = m

/-- What the checks of the builder ensure. -/
structure WellFormed (p : Program) : Prop where
  /-- Every class is at the position of its number. -/
  class_id : InPlace Class.id p.classes
  /-- Every method is at the position of its number. -/
  method_id : InPlace Method.id p.methods
  /-- The entry method is declared. -/
  entry_lt : ∀ m, p.entry = some m → m < p.methods.length
  /-- A method declares its parameters and its receiver. -/
  owns_param : ∀ m ∈ p.methods, ∀ v ∈ m.params ++ m.thisVar.toList, p.Owns m.id v
  /-- A method declares the variables of its statements. -/
  owns_use : ∀ m ∈ p.methods, ∀ stmt ∈ m.stmts, ∀ v ∈ stmt.uses ++ stmt.assigned?.toList,
    p.Owns m.id v
  /-- Jumps stay in the body. -/
  jump_lt : ∀ m ∈ p.methods, ∀ stmt ∈ m.stmts, ∀ t ∈ stmt.jumpTargets, t < m.stmts.length
  /-- The returned variables are those of the return statements. -/
  returnVars_eq : ∀ m ∈ p.methods, m.returnVars = m.stmts.filterMap Stmt.returned?
  /-- A class lists methods that it declares. -/
  declared : ∀ c ∈ p.classes, ∀ e ∈ c.methods,
    ∃ m, p.method? e.2 = some m ∧ m.subsignature = e.1 ∧ m.owner = c.id
  /-- The index lists the statements that go through a variable, in program order. -/
  related_eq : ∀ v access, (p.relatedTo v).at access = sitesThrough v access p.sites

end Program

namespace Builder

variable {b : Builder} {p : Program}

theorem build_eq_ok_iff : b.build = .ok p ↔ b.check = .ok () ∧ b.freeze = p := by
  unfold build
  rw [check_bind_eq_ok_iff]
  exact and_congr_right fun _ => ⟨Except.ok.inj, congrArg Except.ok⟩

/-- Checks that pass one by one. -/
theorem check_eq_ok_iff : b.check = .ok () ↔
    b.checkEntry = .ok () ∧ b.checkDeclarations [] b.methods = .ok () ∧
      (∀ c ∈ b.classes, b.checkParents c = .ok ()) ∧
      ∀ m ∈ b.methods, b.checkMethod m = .ok () := by
  simp only [check, check_bind_eq_ok_iff, forM_eq_ok_iff]

theorem checkVar_eq_ok_iff {m : MethodId} {v : VarId} :
    b.checkVar m v = .ok () ↔ ∃ decl, b.vars[v]? = some decl ∧ decl.method = m := by
  unfold checkVar
  cases b.vars[v]? with
  | none => simp
  | some decl => by_cases h : decl.method = m <;> simp [h]

theorem checkTarget_eq_ok_iff {m : Method} {t : Nat} :
    checkTarget m t = .ok () ↔ t < m.stmts.length := by
  unfold checkTarget
  split <;> simp [*]

/-- A method passes when its own variables, jumps and names do. -/
theorem checkMethod_eq_ok_iff {m : Method} : b.checkMethod m = .ok () ↔
    (∀ v ∈ m.params ++ m.thisVar.toList, b.checkVar m.id v = .ok ()) ∧
      ∀ e ∈ m.stmts.zipIdx, (∀ v ∈ e.1.uses ++ e.1.assigned?.toList, b.checkVar m.id v = .ok ()) ∧
        (∀ t ∈ e.1.jumpTargets, checkTarget m t = .ok ()) ∧ b.checkNames m e.2 e.1 = .ok () := by
  simp only [checkMethod, checkStmt, check_bind_eq_ok_iff, forM_eq_ok_iff]

/-- Where all checks pass, those of each statement do. -/
theorem checks_of_mem_stmts (hcheck : b.check = .ok ()) {m : Method} (hm : m ∈ b.methods)
    {stmt : Stmt} (hstmt : stmt ∈ m.stmts) : ∃ index,
      (∀ v ∈ stmt.uses ++ stmt.assigned?.toList, b.checkVar m.id v = .ok ()) ∧
        (∀ t ∈ stmt.jumpTargets, checkTarget m t = .ok ()) ∧
        b.checkNames m index stmt = .ok () := by
  obtain ⟨index, hindex⟩ := List.getElem?_of_mem hstmt
  have hmethod := (check_eq_ok_iff.1 hcheck).2.2.2 m hm
  exact ⟨index, (checkMethod_eq_ok_iff.1 hmethod).2 (stmt, index)
    (List.mem_zipIdx_iff_getElem?.2 hindex)⟩

/-- Freezing a method leaves its statements alone. -/
theorem sites_freeze : b.freeze.sites = b.methods.flatMap Method.sites := by
  unfold Program.sites freeze
  rw [List.flatMap_map]
  rfl

/-- The variables through which statements go are declared. -/
theorem lt_of_mem_sitesThrough (hcheck : b.check = .ok ()) {v : VarId} {access : Access} {site : Site}
    (h : site ∈ sitesThrough v access (b.methods.flatMap Method.sites)) : v < b.vars.length := by
  obtain ⟨stmt, hmem, haccess⟩ := mem_sitesThrough.1 h
  obtain ⟨m, hm, hsite⟩ := List.mem_flatMap.1 hmem
  obtain ⟨⟨stmt, index⟩, hstmt, heq⟩ := List.mem_map.1 hsite
  cases heq
  have hmem := List.mem_of_getElem? (List.mem_zipIdx_iff_getElem?.1 hstmt)
  obtain ⟨_, huses, -⟩ := checks_of_mem_stmts hcheck hm hmem
  obtain ⟨decl, hdecl, -⟩ := checkVar_eq_ok_iff.1
    (huses v (List.mem_append_left _ (Stmt.mem_uses_of_access? haccess)))
  exact (List.getElem?_eq_some_iff.1 hdecl).1

/-- The index of a frozen program lists its statements by variable. -/
theorem at_relatedTo_freeze (hcheck : b.check = .ok ()) (v : VarId) (access : Access) :
    (b.freeze.relatedTo v).at access = sitesThrough v access b.freeze.sites := by
  have hindex := at_foldl_addRelated (b.methods.flatMap Method.sites)
    (List.replicate b.vars.length .none) v access
  rw [sites_freeze]
  unfold Program.relatedTo freeze
  by_cases hv : v < b.vars.length
  · rw [List.getElem?_replicate_of_lt hv] at hindex
    obtain ⟨r, hr, hat⟩ := Option.map_eq_some_iff.1 hindex
    rw [hr, Option.getD_some, hat]
    simp
  · rw [List.getElem?_replicate, if_neg hv, Option.map_none, Option.map_eq_none_iff] at hindex
    rw [hindex, Option.getD_none, RelatedStmts.at_none]
    refine (List.eq_nil_iff_forall_not_mem.2 fun site hsite => ?_).symm
    exact hv (lt_of_mem_sitesThrough hcheck hsite)

/-- What passes the checks is well formed. -/
theorem wellFormed_of_check (hb : b.Numbered) (hcheck : b.check = .ok ()) :
    b.freeze.WellFormed := by
  obtain ⟨hentry, -, -, hmethods⟩ := check_eq_ok_iff.1 hcheck
  have hmem : ∀ {m}, m ∈ b.freeze.methods → ∃ raw ∈ b.methods, closeMethod raw = m :=
    fun hm => List.mem_map.1 hm
  refine {
    class_id := hb.classes.map fun _ => rfl
    method_id := hb.methods.map fun _ => rfl
    entry_lt := fun m hm => ?_
    owns_param := fun m hm v hv => ?_
    owns_use := fun m hm stmt hstmt v hv => ?_
    jump_lt := fun m hm stmt hstmt t ht => ?_
    returnVars_eq := fun m hm => ?_
    declared := fun c hc e he => ?_
    related_eq := at_relatedTo_freeze hcheck }
  · have hraw : b.entry = some m := hm
    rw [checkEntry, hraw] at hentry
    by_cases hlt : m < b.methods.length
    · simpa only [freeze, List.length_map] using hlt
    · simp [hlt] at hentry
  · obtain ⟨raw, hraw, rfl⟩ := hmem hm
    exact checkVar_eq_ok_iff.1 ((checkMethod_eq_ok_iff.1 (hmethods raw hraw)).1 v hv)
  · obtain ⟨raw, hraw, rfl⟩ := hmem hm
    obtain ⟨_, huses, -⟩ := checks_of_mem_stmts hcheck hraw hstmt
    exact checkVar_eq_ok_iff.1 (huses v hv)
  · obtain ⟨raw, hraw, rfl⟩ := hmem hm
    obtain ⟨_, -, hjumps, -⟩ := checks_of_mem_stmts hcheck hraw hstmt
    exact checkTarget_eq_ok_iff.1 (hjumps t ht)
  · obtain ⟨raw, -, rfl⟩ := hmem hm
    rfl
  · obtain ⟨raw, -, rfl⟩ := List.mem_map.1 hc
    obtain ⟨m, hm, rfl⟩ := List.mem_map.1 he
    obtain ⟨hm, howner⟩ := List.mem_filter.1 hm
    refine ⟨closeMethod m, ?_, rfl, of_decide_eq_true howner⟩
    unfold Program.method? freeze
    rw [List.getElem?_map, hb.methods.getElem?_number hm, Option.map_some]

end Builder

namespace Program

variable {p : Program}

/-- An accepted program is well formed. -/
theorem Accepted.wellFormed (h : p.Accepted) : p.WellFormed := by
  obtain ⟨commands, replies, b, hrun, hbuild⟩ := h
  obtain ⟨hcheck, rfl⟩ := Builder.build_eq_ok_iff.1 hbuild
  exact Builder.wellFormed_of_check (Builder.numbered_empty.run hrun) hcheck

/-- The program that commands declare, if they can be obeyed and it is accepted. -/
def ofCommands? (commands : List Command) : Option Program :=
  (Builder.empty.run commands).2.bind fun b => b.build.toOption

theorem exists_of_ofCommands? {commands : List Command} (h : ofCommands? commands = some p) :
    ∃ b, Builder.empty.run commands = ((Builder.empty.run commands).1, some b) ∧
      b.build = .ok p := by
  obtain ⟨b, hb, hp⟩ := Option.bind_eq_some_iff.1 h
  refine ⟨b, Prod.ext rfl hb, ?_⟩
  cases hbuild : b.build with
  | error e =>
    rw [hbuild] at hp
    cases hp
  | ok q =>
    rw [hbuild] at hp
    exact congrArg Except.ok (Option.some.inj hp)

theorem accepted_of_ofCommands? {commands : List Command} (h : ofCommands? commands = some p) :
    p.Accepted := by
  obtain ⟨b, hrun, hbuild⟩ := exists_of_ofCommands? h
  exact ⟨commands, (Builder.empty.run commands).1, b, hrun, hbuild⟩

/-- A method carries the number under which it is found. -/
theorem WellFormed.id_eq (hp : p.WellFormed) {m : MethodId} {method : Method}
    (h : p.method? m = some method) : method.id = m :=
  hp.method_id m method h

/-- All statements are listed with their sites. -/
theorem WellFormed.mem_sites (hp : p.WellFormed) {site : Site} {stmt : Stmt} :
    (site, stmt) ∈ p.sites ↔ p.stmt? site = some stmt := by
  unfold Program.sites Program.stmt? Method.sites
  simp only [List.mem_flatMap, List.mem_map, Option.bind_eq_some_iff]
  constructor
  · rintro ⟨method, hmem, ⟨other, index⟩, hindex, heq⟩
    cases heq
    exact ⟨method, hp.method_id.getElem?_number hmem, List.mem_zipIdx_iff_getElem?.1 hindex⟩
  · rintro ⟨method, hmethod, hstmt⟩
    refine ⟨method, List.mem_of_getElem? hmethod, (stmt, site.index),
      List.mem_zipIdx_iff_getElem?.2 hstmt, ?_⟩
    rw [hp.id_eq hmethod]

/-- The index of a variable lists the statements that go through it. -/
theorem WellFormed.mem_relatedTo (hp : p.WellFormed) {v : VarId} {access : Access} {site : Site} :
    site ∈ (p.relatedTo v).at access ↔
      ∃ stmt, p.stmt? site = some stmt ∧ stmt.access? = some (v, access) := by
  simp only [hp.related_eq, mem_sitesThrough, hp.mem_sites]

/-- What a method declares as a variable is one. -/
theorem Owns.lt {m : MethodId} {v : VarId} (h : p.Owns m v) : v < p.vars.length := by
  obtain ⟨decl, hdecl, -⟩ := h
  exact (List.getElem?_eq_some_iff.1 hdecl).1

/-- Only one method declares a variable. -/
theorem Owns.unique {m n : MethodId} {v : VarId} (hm : p.Owns m v) (hn : p.Owns n v) : m = n := by
  obtain ⟨decl, hdecl, rfl⟩ := hm
  obtain ⟨other, hother, rfl⟩ := hn
  rw [Option.some.inj (hdecl.symm.trans hother)]

/-- A statement uses and assigns variables of its own method. -/
theorem WellFormed.owns_of_stmt? (hp : p.WellFormed) {site : Site} {stmt : Stmt}
    (h : p.stmt? site = some stmt) {v : VarId} (hv : v ∈ stmt.uses ++ stmt.assigned?.toList) :
    p.Owns site.method v := by
  obtain ⟨method, hmethod, hstmt⟩ := Option.bind_eq_some_iff.1 h
  have howns := hp.owns_use method (List.mem_of_getElem? hmethod) stmt (List.mem_of_getElem? hstmt) v hv
  rwa [hp.id_eq hmethod] at howns

/-- A method declares its parameters and its receiver. -/
theorem WellFormed.owns_of_method? (hp : p.WellFormed) {m : MethodId} {method : Method}
    (h : p.method? m = some method) {v : VarId} (hv : v ∈ method.params ++ method.thisVar.toList) :
    p.Owns m v := by
  have howns := hp.owns_param method (List.mem_of_getElem? h) v hv
  rwa [hp.id_eq h] at howns

/-- The returned variables of a method are those that it returns. -/
theorem WellFormed.mem_returnVars (hp : p.WellFormed) {m : MethodId} {method : Method}
    (h : p.method? m = some method) {v : VarId} :
    v ∈ method.returnVars ↔ .ret (some v) ∈ method.stmts := by
  rw [hp.returnVars_eq method (List.mem_of_getElem? h), List.mem_filterMap]
  refine ⟨?_, fun hmem => ⟨_, hmem, rfl⟩⟩
  rintro ⟨stmt, hmem, hreturned⟩
  cases stmt with
  | ret value =>
    obtain rfl : value = some v := hreturned
    exact hmem
  | _ => cases hreturned

/-- Every method of a well-formed program has a control-flow graph. -/
theorem WellFormed.exists_flowGraph (hp : p.WellFormed) {m : MethodId} {method : Method}
    (h : p.method? m = some method) :
    ∃ g, FlowGraph.ofProgram p m = .ok g ∧ g.WellFormed ∧ g.method = method := by
  obtain ⟨g, hg⟩ := FlowGraph.exists_ofMethod (hp.jump_lt method (List.mem_of_getElem? h))
  refine ⟨g, ?_, FlowGraph.wellFormed_of_ofMethod hg, FlowGraph.method_ofMethod hg⟩
  rw [FlowGraph.ofProgram, h]
  exact hg

end Program

/-- A graph that is built for a method of a program is well formed. -/
theorem FlowGraph.wellFormed_of_ofProgram {p : Program} {m : MethodId} {g : FlowGraph}
    (h : ofProgram p m = .ok g) : g.WellFormed ∧ p.method? m = some g.method := by
  unfold ofProgram at h
  cases hm : p.method? m with
  | none =>
    rw [hm] at h
    cases h
  | some method =>
    rw [hm] at h
    exact ⟨wellFormed_of_ofMethod h, by rw [method_ofMethod h]⟩

end TacAnalysis
