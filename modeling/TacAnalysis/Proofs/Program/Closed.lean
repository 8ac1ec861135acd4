import TacAnalysis.Proofs.Program.Mentions

/-!
# Closed programs

The checks of the builder visit methods and the links of classes. No check visits the declarations
of variables and fields, where commands can name classes and methods that are never declared. So a
program is accepted with such a name in it, and it is closed exactly if all commands that declare
variables and fields name declared classes and methods.

Main statements: `closed_iff_commands` and `not_closed_dangling`.
-/

namespace TacAnalysis

namespace Command

/-- The classes of the methods that a command declares. -/
def newOwners : Command → List ClassId
  | .addMethod owner _ _ => [owner]
  | .addAbstractMethod owner _ => [owner]
  | _ => []

/-- The variables that a command declares, of which a method gets `this` unless it is static. -/
def newVars (b : Builder) : Command → List Var
  | .addMethod owner _ isStatic => if isStatic then [] else [this owner]
  | .addAbstractMethod owner _ => [this owner]
  | .addVar method name ty => [⟨b.vars.length, name, ty, method⟩]
  | .addParam method name ty => [⟨b.vars.length, name, ty, method⟩]
  | _ => []
where
  /-- The receiver of the next method. -/
  this (owner : ClassId) : Var := ⟨b.vars.length, "this", .object owner, b.methods.length⟩

/-- The fields that a command declares. -/
def newFields (b : Builder) : Command → List Field
  | .addField owner name ty isStatic => [⟨b.fields.length, name, owner, ty, isStatic⟩]
  | _ => []

/-- The classes and methods in a command that no check visits. -/
def unchecked : Command → List EntityId
  | .addField owner _ ty _ => .cls owner :: ty.mentions
  | .addVar method _ ty => .method method :: ty.mentions
  | .addParam _ _ ty => ty.mentions
  | _ => []

end Command

namespace Builder

/-- The methods declared so far and their classes. -/
def headers (b : Builder) : List EntityId :=
  (List.range b.methods.length).map .method ++ (b.methods.map Method.owner).map .cls

/-- What the declarations of variables and fields mention. -/
def storage (b : Builder) : List EntityId :=
  b.vars.flatMap Var.references ++ b.fields.flatMap Field.references

/-- The classes of methods, the variables and the fields. -/
def declared (b : Builder) : List ClassId × List Var × List Field :=
  (b.methods.map Method.owner, b.vars, b.fields)

variable {b c : Builder} {command : Command} {p : Program}

/-! ## What a command declares -/

/-- A change of a method that leaves its class alone declares nothing. -/
theorem declared_modifyMethod {f : Method → Method} (hf : ∀ m, (f m).owner = m.owner)
    (method : MethodId) : (b.modifyMethod method f).declared = b.declared := by
  have howners : (b.methods.modify method f).map Method.owner = b.methods.map Method.owner := by
    apply List.ext_getElem?
    intro i
    rw [List.getElem?_map, List.getElem?_map, List.getElem?_modify]
    cases b.methods[i]? with
    | none => rfl
    | some m => by_cases hi : method = i <;> simp [hi, hf]
  exact Prod.ext howners rfl

theorem declared_editBody (method : MethodId) (change : List Stmt → List Stmt) :
    (b.editBody method change).declared = b.declared := by
  refine declared_modifyMethod ?_ method
  exact fun _ => rfl

/-- A method that is not static comes with `this`. -/
theorem declared_addMethod (owner : ClassId) (subsignature : String) (isStatic isAbstract : Bool) :
    (b.addMethod owner subsignature isStatic isAbstract).1.declared =
      (b.methods.map Method.owner ++ [owner],
        b.vars ++ (if isStatic then [] else [Command.newVars.this b owner]), b.fields) := by
  cases isStatic with
  | true => simp [addMethod, declared]
  | false =>
    refine (declared_modifyMethod ?_ b.methods.length).trans ?_
    · exact fun _ => rfl
    · simp [declared, Command.newVars.this]

/-- A parameter is declared for a method that is there. -/
theorem declared_addParam? {method : MethodId} {name : String} {ty : Ty} {next : Builder × VarId}
    (h : b.addParam? method name ty = some next) : method < b.methods.length ∧
      next.1.declared = (b.methods.map Method.owner,
        b.vars ++ [⟨b.vars.length, name, ty, method⟩], b.fields) := by
  unfold addParam? at h
  split at h
  · next hmethod =>
    obtain rfl := Option.some.inj h
    refine ⟨hmethod, declared_modifyMethod ?_ method⟩
    exact fun _ => rfl
  · cases h

/-- What each command adds to the declarations. -/
theorem declared_of_apply {reply : Reply} (h : b.apply command = some (c, reply)) :
    c.declared = (b.methods.map Method.owner ++ command.newOwners, b.vars ++ command.newVars b,
      b.fields ++ command.newFields b) := by
  have hnone : b.declared = (b.methods.map Method.owner ++ [], b.vars ++ [], b.fields ++ []) := by
    simp only [declared, List.append_nil]
  cases command with
  | addClass | addAbstractClass | addInterface | setEntry | thisVar =>
    obtain ⟨rfl, -⟩ := Prod.mk.inj (Option.some.inj h)
    exact hnone
  | addField | addVar =>
    obtain ⟨rfl, -⟩ := Prod.mk.inj (Option.some.inj h)
    simp [declared, Command.newOwners, Command.newVars, Command.newFields]
  | addMethod owner subsignature isStatic =>
    have hc : (b.addMethod owner subsignature isStatic false).1 = c :=
      congrArg Prod.fst (Option.some.inj h)
    rw [← hc, declared_addMethod]
    simp [Command.newOwners, Command.newVars, Command.newFields]
  | addAbstractMethod owner subsignature =>
    have hc : (b.addMethod owner subsignature false true).1 = c :=
      congrArg Prod.fst (Option.some.inj h)
    rw [← hc, declared_addMethod]
    simp [Command.newOwners, Command.newVars, Command.newFields]
  | addParam method name ty =>
    obtain ⟨next, hnext, heq⟩ := Option.map_eq_some_iff.1 h
    obtain ⟨rfl, -⟩ := Prod.mk.inj heq
    simp [(declared_addParam? hnext).2, Command.newOwners, Command.newVars, Command.newFields]
  | pushStmt method stmt =>
    obtain ⟨next, hnext, heq⟩ := Option.map_eq_some_iff.1 h
    obtain ⟨rfl, -⟩ := Prod.mk.inj heq
    rw [(editBody_of_pushStmt? hnext).2]
    exact (declared_editBody method _).trans hnone
  | pushStmts method stmts =>
    obtain ⟨next, hnext, heq⟩ := Option.map_eq_some_iff.1 h
    obtain ⟨rfl, -⟩ := Prod.mk.inj heq
    rw [(editBody_of_pushStmts? hnext).2]
    exact (declared_editBody method _).trans hnone
  | nextIndex method =>
    obtain ⟨next, -, heq⟩ := Option.map_eq_some_iff.1 h
    obtain ⟨rfl, -⟩ := Prod.mk.inj heq
    exact hnone
  | setStmt method index stmt =>
    obtain ⟨next, hnext, heq⟩ := Option.map_eq_some_iff.1 h
    obtain ⟨rfl, -⟩ := Prod.mk.inj heq
    rw [(editBody_of_setStmt? hnext).2]
    exact (declared_editBody method _).trans hnone

/-! ## What declarations mention -/

theorem method_mem_headers {m : MethodId} : .method m ∈ b.headers ↔ m < b.methods.length := by
  simp [headers]

theorem cls_mem_headers {o : ClassId} : .cls o ∈ b.headers ↔ o ∈ b.methods.map Method.owner := by
  simp [headers]

/-- Methods stay in their places, and new ones follow. -/
theorem owners_of_apply {reply : Reply} (h : b.apply command = some (c, reply)) :
    c.methods.map Method.owner = b.methods.map Method.owner ++ command.newOwners ∧
      c.methods.length = b.methods.length + command.newOwners.length := by
  have howners : c.methods.map Method.owner = b.methods.map Method.owner ++ command.newOwners :=
    congrArg Prod.fst (declared_of_apply h)
  have hlength := congrArg List.length howners
  rw [List.length_append, List.length_map, List.length_map] at hlength
  exact ⟨howners, hlength⟩

/-- A command takes no method back. -/
theorem headers_subset_of_apply {reply : Reply} (h : b.apply command = some (c, reply)) :
    b.headers ⊆ c.headers := by
  obtain ⟨howners, hlength⟩ := owners_of_apply h
  intro x hx
  rcases List.mem_append.1 hx with hx | hx
  · obtain ⟨m, hm, rfl⟩ := List.mem_map.1 hx
    apply method_mem_headers.2
    rw [hlength]
    exact Nat.lt_add_right _ (List.mem_range.1 hm)
  · obtain ⟨o, ho, rfl⟩ := List.mem_map.1 hx
    apply cls_mem_headers.2
    rw [howners]
    exact List.mem_append_left _ ho

/-- Of what a new variable or field mentions all is declared if the unchecked part is. -/
theorem forall_mem_newStorage_iff {reply : Reply} (h : b.apply command = some (c, reply))
    (hheaders : ∀ x ∈ c.headers, x.Declared p) :
    (∀ x ∈ (command.newVars b).flatMap Var.references ++
        (command.newFields b).flatMap Field.references, x.Declared p) ↔
      ∀ x ∈ command.unchecked, x.Declared p := by
  obtain ⟨howners, hlength⟩ := owners_of_apply h
  have hthis : ∀ owner, command.newOwners = [owner] →
      ∀ x ∈ (Command.newVars.this b owner).references, x.Declared p := by
    intro owner hnew x hx
    rw [hnew] at howners hlength
    apply hheaders
    rcases List.mem_cons.1 hx with rfl | hx
    · apply method_mem_headers.2
      rw [hlength]
      exact Nat.lt_succ_self _
    · obtain rfl := List.mem_singleton.1 hx
      apply cls_mem_headers.2
      rw [howners]
      exact List.mem_append_right _ (List.mem_singleton_self owner)
  cases command with
  | addField => simp [Command.newVars, Command.newFields, Command.unchecked, Field.references]
  | addVar => simp [Command.newVars, Command.newFields, Command.unchecked, Var.references]
  | addParam method name ty =>
    obtain ⟨next, hnext, -⟩ := Option.map_eq_some_iff.1 h
    have hmethod : (EntityId.method method).Declared p :=
      hheaders _ (headers_subset_of_apply h (method_mem_headers.2 (declared_addParam? hnext).1))
    simp [Command.newVars, Command.newFields, Command.unchecked, Var.references, hmethod]
  | addMethod owner subsignature isStatic =>
    cases isStatic with
    | true => simp [Command.newVars, Command.newFields, Command.unchecked]
    | false => simpa [Command.newVars, Command.newFields, Command.unchecked] using hthis owner rfl
  | addAbstractMethod owner subsignature =>
    simpa [Command.newVars, Command.newFields, Command.unchecked] using hthis owner rfl
  | _ => simp [Command.newVars, Command.newFields, Command.unchecked]

/-- One command. -/
theorem forall_mem_storage_iff_of_apply {reply : Reply} (h : b.apply command = some (c, reply))
    (hheaders : ∀ x ∈ c.headers, x.Declared p) : (∀ x ∈ c.storage, x.Declared p) ↔
      (∀ x ∈ b.storage, x.Declared p) ∧ ∀ x ∈ command.unchecked, x.Declared p := by
  have hdeclared := congrArg Prod.snd (declared_of_apply h)
  have hvars : c.vars = b.vars ++ command.newVars b := congrArg Prod.fst hdeclared
  have hfields : c.fields = b.fields ++ command.newFields b := congrArg Prod.snd hdeclared
  rw [← forall_mem_newStorage_iff h hheaders]
  unfold storage
  simp only [hvars, hfields, List.flatMap_append, List.forall_mem_append]
  exact and_and_and_comm

/-- Commands take no method back. -/
theorem headers_subset_of_run {commands : List Command} {replies : List Reply} {last : Builder}
    (hrun : b.run commands = (replies, some last)) : b.headers ⊆ last.headers := by
  induction commands generalizing b replies with
  | nil =>
    obtain ⟨-, hlast⟩ := Prod.mk.inj hrun
    rw [Option.some.inj hlast]
    exact List.Subset.refl _
  | cons command rest ih =>
    obtain ⟨c, reply, replies, happly, hrest⟩ := exists_of_run_cons hrun
    exact List.Subset.trans (headers_subset_of_apply happly) (ih hrest)

/-- In a run of commands all that variables and fields mention is declared if it was before and
the commands name nothing undeclared. -/
theorem forall_mem_storage_iff_of_run {commands : List Command} {replies : List Reply}
    {last : Builder} (hrun : b.run commands = (replies, some last))
    (hheaders : ∀ x ∈ last.headers, x.Declared p) : (∀ x ∈ last.storage, x.Declared p) ↔
      (∀ x ∈ b.storage, x.Declared p) ∧
        ∀ command ∈ commands, ∀ x ∈ command.unchecked, x.Declared p := by
  induction commands generalizing b replies with
  | nil =>
    obtain ⟨-, hlast⟩ := Prod.mk.inj hrun
    rw [Option.some.inj hlast]
    simp
  | cons command rest ih =>
    obtain ⟨c, reply, replies, happly, hrest⟩ := exists_of_run_cons hrun
    have hstep : ∀ x ∈ c.headers, x.Declared p :=
      fun x hx => hheaders x (headers_subset_of_run hrest hx)
    rw [ih hrest, forall_mem_storage_iff_of_apply happly hstep, List.forall_mem_cons, and_assoc]

/-! ## When accepted programs are closed -/

/-- The methods of an accepted program and their classes are declared. -/
theorem declared_of_mem_headers (hp : b.freeze.Accepted) {x : EntityId} (hx : x ∈ b.headers) :
    x.Declared b.freeze := by
  rcases List.mem_append.1 hx with hx | hx
  · obtain ⟨m, hm, rfl⟩ := List.mem_map.1 hx
    exact declared_method_freeze.2 (List.mem_range.1 hm)
  · obtain ⟨o, ho, rfl⟩ := List.mem_map.1 hx
    obtain ⟨m, hm, rfl⟩ := List.mem_map.1 ho
    exact hp.owner_lt (m := closeMethod m) (List.mem_map_of_mem hm)

/-- An accepted program is closed if all that its variables and fields mention is declared. -/
theorem closed_freeze_iff (hb : b.Numbered) (hp : b.freeze.Accepted) :
    b.freeze.Closed ↔ ∀ x ∈ b.storage, x.Declared b.freeze := by
  have hvar : ∀ v ∈ b.vars, (EntityId.var v.id).Declared b.freeze := fun _ => hb.vars.number_lt
  have hfield : ∀ f ∈ b.fields, (EntityId.field f.id).Declared b.freeze :=
    fun _ => hb.fields.number_lt
  constructor
  · intro hclosed x hx
    apply hclosed
    rcases List.mem_append.1 hx with hx | hx
    · obtain ⟨v, hv, hx⟩ := List.mem_flatMap.1 hx
      refine List.mem_append_left _ (List.mem_append_right _ (List.mem_flatMap.2 ⟨v, hv, ?_⟩))
      exact List.mem_cons_of_mem _ hx
    · obtain ⟨f, hf, hx⟩ := List.mem_flatMap.1 hx
      refine List.mem_append_right _ (List.mem_flatMap.2 ⟨f, hf, ?_⟩)
      exact List.mem_cons_of_mem _ hx
  · intro hstorage x hx
    simp only [Program.mentions, List.mem_append, List.mem_flatMap, or_assoc] at hx
    rcases hx with hx | ⟨v, hv, hx⟩ | ⟨f, hf, hx⟩
    · exact hp.declared_of_mem_codeMentions hx
    · rcases List.mem_cons.1 hx with rfl | hx
      · exact hvar v hv
      · exact hstorage x (List.mem_append_left _ (List.mem_flatMap.2 ⟨v, hv, hx⟩))
    · rcases List.mem_cons.1 hx with rfl | hx
      · exact hfield f hf
      · exact hstorage x (List.mem_append_right _ (List.mem_flatMap.2 ⟨f, hf, hx⟩))

end Builder

namespace Program

/-- Whatever is mentioned in the classes and methods of a program that commands build is declared,
and a method mentions variables of its own only. The whole program is closed exactly if no command
has named something undeclared as the class of a field, as the method of a variable, or in the type
of a field, variable or parameter. -/
theorem closed_iff_commands {commands : List Command} {replies : List Reply} {b : Builder}
    {p : Program} (hrun : Builder.empty.run commands = (replies, some b)) (hbuild : b.build = .ok p) :
    (∀ x ∈ p.codeMentions, x.Declared p) ∧
      (∀ m ∈ p.methods, ∀ v, .var v ∈ m.mentions → p.Owns m.id v) ∧
      (p.Closed ↔ ∀ command ∈ commands, ∀ x ∈ command.unchecked, x.Declared p) := by
  have hp : p.Accepted := ⟨commands, replies, b, hrun, hbuild⟩
  refine ⟨fun _ => hp.declared_of_mem_codeMentions, ?_, ?_⟩
  · intro m hm v hv
    exact hp.wellFormed.owns_of_mem_mentions hm hv
  · obtain ⟨-, rfl⟩ := Builder.build_eq_ok_iff.1 hbuild
    rw [Builder.closed_freeze_iff (Builder.numbered_empty.run hrun) hp,
      Builder.forall_mem_storage_iff_of_run hrun fun _ => Builder.declared_of_mem_headers hp]
    have hempty : Builder.empty.storage = [] := rfl
    simp [hempty]

/-- A parameter and a field have types whose class is declared, the one below two array
constructors. -/
def anchoredCommands : List Command := [
  .addClass "C" none [], .addMethod 0 "void m()" false,
  .addParam 0 "x" (.array (.array (.object 0))), .addField 0 "f" (.object 0) false,
  .pushStmt 0 (.assign 0 (.instanceField 0 0))]

/-- The program of these declarations. -/
def anchored : Program := (ofCommands? anchoredCommands).get (by decide +kernel)

theorem closed_anchored : ∃ replies b, Builder.empty.run anchoredCommands = (replies, some b) ∧
    b.build = .ok anchored ∧ anchored.Closed := by
  obtain ⟨b, hrun, hbuild⟩ := exists_of_ofCommands? (p := anchored) (Option.some_get _).symm
  obtain ⟨-, -, hclosed⟩ := closed_iff_commands hrun hbuild
  refine ⟨_, b, hrun, hbuild, hclosed.2 ?_⟩
  decide +kernel

/-- The type of the variable is a class that nobody declares. -/
def danglingCommands : List Command :=
  [.addClass "C" none [], .addMethod 0 "void m()" true, .addVar 0 "x" (.object 7)]

/-- The program of these declarations. -/
def dangling : Program := (ofCommands? danglingCommands).get (by decide +kernel)

/-- An accepted program need not be closed. -/
theorem not_closed_dangling : dangling.Accepted ∧ ¬ dangling.Closed := by
  constructor
  · exact accepted_of_ofCommands? (Option.some_get _).symm
  · decide +kernel

end Program

end TacAnalysis
