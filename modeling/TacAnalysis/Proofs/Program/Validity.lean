import TacAnalysis.Proofs.Program.Mentions

/-!
# Which declarations are accepted

What makes declarations valid is said here without any order: every number in them is that of a
declared entity, variables belong to the method in which they occur, jumps stay in their bodies, and
calls have receivers as their kinds require. The builder visits all this in a fixed order and stops
at the first thing that is wrong. So it suffices to know that what it reports is really there, and
that nothing is wrong with declarations that it accepts.

Main statement: `build_exact`.
-/

namespace TacAnalysis

/-- The call has a receiver, or has none, as its kind requires. -/
def Invoke.ReceiverFits (call : Invoke) : Prop :=
  match call.kind with
  | .static => call.receiver = none
  | .special | .virtual | .interface => call.receiver ≠ none
  | .dynamic => True

/-- The variable is a parameter of the method or its receiver, or occurs in a statement. -/
def Method.HasVar (m : Method) (v : VarId) : Prop :=
  v ∈ m.params ++ m.thisVar.toList ∨ ∃ stmt ∈ m.stmts, .var v ∈ stmt.mentions

namespace Builder

section Declarations

variable (b : Builder)

/-- Nothing is wrong with the declarations. -/
structure Valid : Prop where
  /-- The entry method is declared. -/
  entry_lt : ∀ m, b.entry = some m → m < b.methods.length
  /-- The classes of methods are declared. -/
  owner_lt : ∀ m ∈ b.methods, m.owner < b.classes.length
  /-- No class declares two methods with one subsignature. -/
  distinct : b.methods.Pairwise fun m n => ¬ (m.owner = n.owner ∧ m.subsignature = n.subsignature)
  /-- Superclasses and interfaces are declared. -/
  parent_lt : ∀ c ∈ b.classes, ∀ d ∈ c.superclass.toList ++ c.interfaces, d < b.classes.length
  /-- The variables in a method are declared, and by this method. -/
  owns_var : ∀ (i : MethodId) (m : Method), b.methods[i]? = some m → ∀ v, m.HasVar v →
    ∃ decl, b.vars[v]? = some decl ∧ decl.method = i
  /-- Jumps stay in the body. -/
  jump_lt : ∀ m ∈ b.methods, ∀ stmt ∈ m.stmts, ∀ t ∈ stmt.jumpTargets, t < m.stmts.length
  /-- The fields in statements are declared. -/
  field_lt : ∀ m ∈ b.methods, ∀ stmt ∈ m.stmts, ∀ f, .field f ∈ stmt.mentions → f < b.fields.length
  /-- The classes in statements are declared, those below array constructors too. -/
  cls_lt : ∀ m ∈ b.methods, ∀ stmt ∈ m.stmts, ∀ c, .cls c ∈ stmt.mentions → c < b.classes.length
  /-- Calls have receivers as their kinds require. -/
  receiver : ∀ m ∈ b.methods, ∀ call, .invoke call ∈ m.stmts → call.ReceiverFits

/-- What a report says is wrong with the declarations. -/
inductive Violates : ProgramError → Prop
  | entry {m : MethodId} (hm : b.entry = some m) (h : b.methods.length ≤ m) :
    Violates (.unknownMethod m)
  | owner {m : Method} (hm : m ∈ b.methods) (h : b.classes.length ≤ m.owner) :
    Violates (.unknownClass m.owner)
  /-- A class of this name declares two methods with this subsignature. -/
  | duplicate {c : Class} {i j : Nat} {m n : Method} (hc : b.classes[m.owner]? = some c)
    (hm : b.methods[i]? = some m) (hn : b.methods[j]? = some n) (hlt : i < j)
    (howner : m.owner = n.owner) (hsubsignature : m.subsignature = n.subsignature) :
    Violates (.duplicateMethod c.name m.subsignature)
  | parent {c : Class} {d : ClassId} (hc : c ∈ b.classes)
    (hd : d ∈ c.superclass.toList ++ c.interfaces) (h : b.classes.length ≤ d) :
    Violates (.unknownClass d)
  | unknownVar {m : Method} {v : VarId} (hm : m ∈ b.methods) (hv : m.HasVar v)
    (h : b.vars.length ≤ v) : Violates (.unknownVar v)
  /-- The variable of one method occurs in another. -/
  | foreignVar {i : MethodId} {m : Method} {v : VarId} {decl : Var} (hm : b.methods[i]? = some m)
    (hv : m.HasVar v) (hdecl : b.vars[v]? = some decl) (h : decl.method ≠ i) :
    Violates (.foreignVar v decl.method i)
  | jump {m : Method} {stmt : Stmt} {t : Nat} (hm : m ∈ b.methods) (hstmt : stmt ∈ m.stmts)
    (ht : t ∈ stmt.jumpTargets) (h : m.stmts.length ≤ t) :
    Violates (.jumpOutOfRange m.subsignature t m.stmts.length)
  | field {m : Method} {stmt : Stmt} {f : FieldId} (hm : m ∈ b.methods) (hstmt : stmt ∈ m.stmts)
    (hf : .field f ∈ stmt.mentions) (h : b.fields.length ≤ f) : Violates (.unknownField f)
  | cls {m : Method} {stmt : Stmt} {c : ClassId} (hm : m ∈ b.methods) (hstmt : stmt ∈ m.stmts)
    (hc : .cls c ∈ stmt.mentions) (h : b.classes.length ≤ c) : Violates (.unknownClass c)
  | receiver {m : Method} {index : Nat} {call : Invoke} (hm : m ∈ b.methods)
    (hcall : m.stmts[index]? = some (.invoke call)) (h : ¬ call.ReceiverFits) :
    Violates (.receiverMismatch m.subsignature index call.kind)

end Declarations

variable {b : Builder} {e : ProgramError} {m : Method} {stmt : Stmt}

/-- Declarations in which something is wrong are not valid. -/
theorem Violates.not_valid (h : b.Violates e) : ¬ b.Valid := by
  intro hvalid
  cases h with
  | entry hm h => exact Nat.not_lt.2 h (hvalid.entry_lt _ hm)
  | owner hm h => exact Nat.not_lt.2 h (hvalid.owner_lt _ hm)
  | @duplicate c i j m n _ hm hn hlt howner hsubsignature =>
    obtain ⟨hi, rfl⟩ := List.getElem?_eq_some_iff.1 hm
    obtain ⟨hj, rfl⟩ := List.getElem?_eq_some_iff.1 hn
    exact List.pairwise_iff_getElem.1 hvalid.distinct i j hi hj hlt ⟨howner, hsubsignature⟩
  | parent hc hd h => exact Nat.not_lt.2 h (hvalid.parent_lt _ hc _ hd)
  | unknownVar hm hv h =>
    obtain ⟨i, hi⟩ := List.getElem?_of_mem hm
    obtain ⟨decl, hdecl, -⟩ := hvalid.owns_var i _ hi _ hv
    exact Nat.not_lt.2 h (List.getElem?_eq_some_iff.1 hdecl).1
  | foreignVar hm hv hdecl h =>
    obtain ⟨other, hother, howner⟩ := hvalid.owns_var _ _ hm _ hv
    exact h (Option.some.inj (hdecl.symm.trans hother) ▸ howner)
  | jump hm hstmt ht h => exact Nat.not_lt.2 h (hvalid.jump_lt _ hm _ hstmt _ ht)
  | field hm hstmt hf h => exact Nat.not_lt.2 h (hvalid.field_lt _ hm _ hstmt _ hf)
  | cls hm hstmt hc h => exact Nat.not_lt.2 h (hvalid.cls_lt _ hm _ hstmt _ hc)
  | receiver hm hcall h => exact h (hvalid.receiver _ hm _ (List.mem_of_getElem? hcall))

/-! ## What is reported is wrong -/

theorem checkClass_eq_error_iff {c : ClassId} :
    b.checkClass c = .error e ↔ b.classes.length ≤ c ∧ .unknownClass c = e := by
  rw [checkClass, ite_eq_error_iff, Nat.not_lt]

theorem checkReceiver_eq_ok_iff {index : Nat} {call : Invoke} :
    checkReceiver m index call = .ok () ↔ call.ReceiverFits := by
  unfold checkReceiver Invoke.ReceiverFits CallKind.needsReceiver
  cases call.kind <;> cases call.receiver <;> simp

theorem violates_of_checkEntry (h : b.checkEntry = .error e) : b.Violates e := by
  unfold checkEntry at h
  cases hentry : b.entry with
  | none =>
    rw [hentry] at h
    cases h
  | some m =>
    rw [hentry] at h
    obtain ⟨hle, rfl⟩ := ite_eq_error_iff.1 h
    exact .entry hentry (Nat.not_lt.1 hle)

/-- Methods are compared with all methods before them. -/
theorem violates_of_checkDeclarations {earlier methods : List Method}
    (hall : earlier ++ methods = b.methods) (h : b.checkDeclarations earlier methods = .error e) :
    b.Violates e := by
  -- the place of a method among all is that behind the methods with which it is compared
  induction methods generalizing earlier with
  | nil => cases h
  | cons m rest ih =>
    have hm : b.methods[earlier.length]? = some m := by
      rw [← hall, List.getElem?_append_right (Nat.le_refl _), Nat.sub_self]
      rfl
    unfold checkDeclarations at h
    cases hclass : b.classes[m.owner]? with
    | none =>
      rw [hclass] at h
      obtain rfl := Except.error.inj h
      exact .owner (List.mem_of_getElem? hm) (List.getElem?_eq_none_iff.1 hclass)
    | some c =>
      rw [hclass] at h
      dsimp only at h
      split at h
      · rename_i hclash
        obtain rfl := Except.error.inj h
        obtain ⟨n, hn, hsame⟩ := List.any_eq_true.1 hclash
        obtain ⟨howner, hsubsignature⟩ := of_decide_eq_true hsame
        obtain ⟨i, hi⟩ := List.getElem?_of_mem hn
        have hlt := (List.getElem?_eq_some_iff.1 hi).1
        have hfirst : b.methods[i]? = some n := by rw [← hall, List.getElem?_append_left hlt, hi]
        rw [← hsubsignature]
        exact .duplicate (howner ▸ hclass) hfirst hm hlt howner hsubsignature
      · exact ih (by rw [List.append_assoc]; exact hall) h

theorem violates_of_checkParents {c : Class} (hc : c ∈ b.classes)
    (h : b.checkParents c = .error e) : b.Violates e := by
  obtain ⟨d, hd, hfail⟩ := exists_of_forM_eq_error h
  obtain ⟨hle, rfl⟩ := checkClass_eq_error_iff.1 hfail
  exact .parent hc hd hle

theorem violates_of_checkVar {i : MethodId} (hm : b.methods[i]? = some m) {v : VarId}
    (hv : m.HasVar v) (h : b.checkVar i v = .error e) : b.Violates e := by
  unfold checkVar at h
  cases hdecl : b.vars[v]? with
  | none =>
    rw [hdecl] at h
    obtain rfl := Except.error.inj h
    exact .unknownVar (List.mem_of_getElem? hm) hv (List.getElem?_eq_none_iff.1 hdecl)
  | some decl =>
    rw [hdecl] at h
    obtain ⟨hforeign, rfl⟩ := ite_eq_error_iff.1 h
    exact .foreignVar hm hv hdecl hforeign

theorem violates_of_checkField (hm : m ∈ b.methods) (hstmt : stmt ∈ m.stmts) {f : FieldId}
    (hf : .field f ∈ stmt.mentions) (h : b.checkField f = .error e) : b.Violates e := by
  obtain ⟨hle, rfl⟩ := ite_eq_error_iff.1 h
  exact .field hm hstmt hf (Nat.not_lt.1 hle)

theorem violates_of_checkTy (hm : m ∈ b.methods) (hstmt : stmt ∈ m.stmts) {ty : Ty}
    (hty : ∀ x ∈ ty.mentions, x ∈ stmt.mentions) (h : b.checkTy ty = .error e) : b.Violates e := by
  unfold checkTy at h
  split at h
  · rename_i c hinnermost
    obtain ⟨hle, rfl⟩ := checkClass_eq_error_iff.1 h
    exact .cls hm hstmt (hty _ (Ty.mem_mentions.2 ⟨c, hinnermost, rfl⟩)) hle
  · cases h

/-- What is reported for the names in a statement is wrong with the statement. -/
theorem violates_of_checkNames (hm : m ∈ b.methods) {index : Nat}
    (hstmt : m.stmts[index]? = some stmt) (h : b.checkNames m index stmt = .error e) :
    b.Violates e := by
  have hmem := List.mem_of_getElem? hstmt
  cases stmt with
  | assign lhs rhs =>
    cases rhs with
    | instanceField base f =>
      exact violates_of_checkField hm hmem (by simp [Stmt.mentions, Exp.mentions]) h
    | staticField f =>
      exact violates_of_checkField hm hmem (by simp [Stmt.mentions, Exp.mentions]) h
    | new ty =>
      exact violates_of_checkTy hm hmem (fun x hx => List.mem_cons_of_mem _ hx) h
    | cast ty operand =>
      exact violates_of_checkTy hm hmem
        (fun x hx => List.mem_cons_of_mem _ (List.mem_append_left _ hx)) h
    | _ => cases h
  | storeField base f value => exact violates_of_checkField hm hmem List.mem_cons_self h
  | invoke call =>
    rcases bind_eq_error_iff.1 h with hclass | ⟨_, -, hreceiver⟩
    · obtain ⟨hle, rfl⟩ := checkClass_eq_error_iff.1 hclass
      exact .cls hm hmem List.mem_cons_self hle
    · have hfits : ¬ call.ReceiverFits := by
        intro hfits
        have hok : checkReceiver m index call = .ok () := checkReceiver_eq_ok_iff.2 hfits
        rw [hreceiver] at hok
        cases hok
      unfold checkReceiver at hreceiver
      split at hreceiver
      · cases hreceiver
      · obtain ⟨-, rfl⟩ := ite_eq_error_iff.1 hreceiver
        exact .receiver hm hstmt hfits
  | _ => cases h

/-- What is reported for a method is wrong with it. -/
theorem violates_of_checkMethod (hb : b.Numbered) (hm : m ∈ b.methods)
    (h : b.checkMethod m = .error e) : b.Violates e := by
  have hat : b.methods[m.id]? = some m := hb.methods.getElem?_number hm
  rcases bind_eq_error_iff.1 h with hsignature | ⟨_, -, hbody⟩
  · obtain ⟨v, hv, hfail⟩ := exists_of_forM_eq_error hsignature
    exact violates_of_checkVar hat (.inl hv) hfail
  · obtain ⟨⟨stmt, index⟩, hindex, hfail⟩ := exists_of_forM_eq_error hbody
    have hstmt := List.mem_zipIdx_iff_getElem?.1 hindex
    have hmem := List.mem_of_getElem? hstmt
    rcases bind_eq_error_iff.1 hfail with hvars | ⟨_, -, hfail⟩
    · obtain ⟨v, hv, hfail⟩ := exists_of_forM_eq_error hvars
      exact violates_of_checkVar hat (.inr ⟨stmt, hmem, Stmt.var_mem_mentions.2 hv⟩) hfail
    · rcases bind_eq_error_iff.1 hfail with hjumps | ⟨_, -, hnames⟩
      · obtain ⟨t, ht, hfail⟩ := exists_of_forM_eq_error hjumps
        obtain ⟨hle, rfl⟩ := ite_eq_error_iff.1 hfail
        exact .jump hm hmem ht (Nat.not_lt.1 hle)
      · exact violates_of_checkNames hm hstmt hnames

/-- What is reported is wrong with the declarations. -/
theorem violates_of_check (hb : b.Numbered) (h : b.check = .error e) : b.Violates e := by
  rcases bind_eq_error_iff.1 h with hentry | ⟨_, -, h⟩
  · exact violates_of_checkEntry hentry
  rcases bind_eq_error_iff.1 h with hdeclarations | ⟨_, -, h⟩
  · exact violates_of_checkDeclarations rfl hdeclarations
  rcases bind_eq_error_iff.1 h with hparents | ⟨_, -, hmethods⟩
  · obtain ⟨c, hc, hfail⟩ := exists_of_forM_eq_error hparents
    exact violates_of_checkParents hc hfail
  · obtain ⟨m, hm, hfail⟩ := exists_of_forM_eq_error hmethods
    exact violates_of_checkMethod hb hm hfail

/-! ## What is accepted is valid -/

/-- Declarations that pass the checks are valid. -/
theorem valid_of_check (hb : b.Numbered) (hcheck : b.check = .ok ()) : b.Valid := by
  obtain ⟨hentry, hdeclarations, hparents, hmethods⟩ := check_eq_ok_iff.1 hcheck
  obtain ⟨howners, -, hdistinct⟩ := checkDeclarations_eq_ok_iff.1 hdeclarations
  have hdeclared : ∀ m ∈ b.methods, ∀ stmt ∈ m.stmts, ∀ x ∈ stmt.mentions,
      (∃ v, x = .var v) ∨ x.Declared b.freeze := by
    intro m hm stmt hstmt x hx
    obtain ⟨index, -, -, hnames⟩ := checks_of_mem_stmts hcheck hm hstmt
    exact declared_of_checkNames hnames hx
  refine {
    entry_lt := fun m hm => ?_
    owner_lt := howners
    distinct := hdistinct
    parent_lt := fun c hc d hd => ?_
    owns_var := fun i m hm v hv => ?_
    jump_lt := fun m hm stmt hstmt t ht => ?_
    field_lt := fun m hm stmt hstmt f hf => ?_
    cls_lt := fun m hm stmt hstmt c hc => ?_
    receiver := fun m hm call hcall => ?_ }
  · have hp := wellFormed_of_check hb hcheck
    simpa [freeze] using hp.entry_lt m hm
  · exact checkClass_eq_ok_iff.1 (forM_eq_ok_iff.1 (hparents c hc) d hd)
  · have hmem := List.mem_of_getElem? hm
    rw [← hb.methods i m hm]
    rcases hv with hv | ⟨stmt, hstmt, hv⟩
    · exact checkVar_eq_ok_iff.1 ((checkMethod_eq_ok_iff.1 (hmethods m hmem)).1 v hv)
    · obtain ⟨index, hvars, -⟩ := checks_of_mem_stmts hcheck hmem hstmt
      exact checkVar_eq_ok_iff.1 (hvars v (Stmt.var_mem_mentions.1 hv))
  · obtain ⟨index, -, hjumps, -⟩ := checks_of_mem_stmts hcheck hm hstmt
    exact checkTarget_eq_ok_iff.1 (hjumps t ht)
  · rcases hdeclared m hm stmt hstmt _ hf with ⟨v, hv⟩ | hf
    · cases hv
    · exact hf
  · rcases hdeclared m hm stmt hstmt _ hc with ⟨v, hv⟩ | hc
    · cases hv
    · exact declared_cls_freeze.1 hc
  · obtain ⟨index, -, -, hnames⟩ := checks_of_mem_stmts hcheck hm hcall
    exact checkReceiver_eq_ok_iff.1 (check_bind_eq_ok_iff.1 hnames).2

/-- Exactly valid declarations build a program, and what is reported of others is wrong with them.
Declarations are valid exactly if no report would be true of them. -/
theorem build_exact {commands : List Command} {replies : List Reply}
    (hrun : Builder.empty.run commands = (replies, some b)) :
    ((∃ p, b.build = .ok p) ↔ b.Valid) ∧ (∀ error, b.build = .error error → b.Violates error) ∧
      (b.Valid ↔ ∀ error, ¬ b.Violates error) := by
  have hb : b.Numbered := numbered_empty.run hrun
  have hok : ∀ p, b.build = .ok p → b.Valid := fun p hp =>
    valid_of_check hb (build_eq_ok_iff.1 hp).1
  have herror : ∀ error, b.build = .error error → b.Violates error := by
    intro error h
    rcases bind_eq_error_iff.1 h with hcheck | ⟨_, -, hfreeze⟩
    · exact violates_of_check hb hcheck
    · cases hfreeze
  -- a build has one of two ends, so what each of them shows also tells them apart
  refine ⟨⟨fun ⟨p, hp⟩ => hok p hp, fun hvalid => ?_⟩, herror,
    fun hvalid error h => ?_, fun hnone => ?_⟩
  · cases hbuild : b.build with
    | ok p => exact ⟨p, rfl⟩
    | error error => exact absurd hvalid (herror error hbuild).not_valid
  · exact h.not_valid hvalid
  · cases hbuild : b.build with
    | ok p => exact hok p hbuild
    | error error => exact absurd (herror error hbuild) (hnone error)

/-! ## References that are declared late, or never -/

/-- The class of the method is declared behind the method, and so is the superclass of a class. -/
def lateCommands : List Command := [
  .setEntry 0, .addMethod 1 "void m(B)" true, .addParam 0 "b" (.object 1),
  .pushStmt 0 (.assign 0 (.cast (.array (.object 1)) 0)),
  .addClass "A" (some 1) [], .addClass "B" none []]

/-- The class below two array constructors is never declared, in the body of an abstract method.
The jump behind that statement leaves the body. -/
def brokenCommands : List Command := [
  .addClass "A" none [], .addAbstractMethod 0 "void m()",
  .pushStmts 0 [.assign 0 (.cast (.array (.array (.object 7))) 0), .goto 9]]

/-- The order of declarations does not matter, and of two violations the first one is reported. -/
theorem build_exact_broken :
    (∃ replies b, Builder.empty.run lateCommands = (replies, some b) ∧ b.Valid) ∧
    ∃ replies b, Builder.empty.run brokenCommands = (replies, some b) ∧
      b.build = .error (.unknownClass 7) ∧ b.Violates (.unknownClass 7) ∧ ¬ b.Valid := by
  constructor
  · have hlate : (Program.ofCommands? lateCommands).isSome := by decide +kernel
    obtain ⟨p, hp⟩ := Option.isSome_iff_exists.1 hlate
    obtain ⟨b, hrun, hbuild⟩ := Program.exists_of_ofCommands? hp
    exact ⟨_, b, hrun, (build_exact hrun).1.1 ⟨p, hbuild⟩⟩
  · have hbroken : (Builder.empty.run brokenCommands).2.map (failure? ·.build) =
        some (some (.unknownClass 7)) := by decide +kernel
    obtain ⟨b, hb, hfail⟩ := Option.map_eq_some_iff.1 hbroken
    have hrun : Builder.empty.run brokenCommands = ((Builder.empty.run brokenCommands).1, some b) :=
      Prod.ext rfl hb
    have herror := failure?_eq_some_iff.1 hfail
    have hviolates := (build_exact hrun).2.1 _ herror
    exact ⟨_, b, hrun, herror, hviolates, fun hvalid => (build_exact hrun).2.2.1 hvalid _ hviolates⟩

end Builder

end TacAnalysis
