import TacAnalysis.Proofs.Program.Names

/-!
# Bodies and their indices

Statements are appended to bodies and replaced in them, in any order and to all methods in turn.
What the commands make of one body can be told without the builder: of each command only what it
does to that body counts. The indices that a program has by variable and by method are those of the
bodies at the end, so a statement that was replaced has left no trace in them.

Main statement: `indexes_of_build`.
-/

namespace TacAnalysis

/-! ## What the indices are to hold -/

/-- The statement goes through the variable in this way. -/
inductive Stmt.GoesThrough (v : VarId) : Access → Stmt → Prop
  | loadField (lhs : VarId) (f : FieldId) :
    GoesThrough v .loadField (.assign lhs (.instanceField v f))
  | storeField (f : FieldId) (value : VarId) :
    GoesThrough v .storeField (.storeField (some v) f value)
  | loadArray (lhs index : VarId) : GoesThrough v .loadArray (.assign lhs (.arrayAccess v index))
  | storeArray (index value : VarId) : GoesThrough v .storeArray (.storeArray v index value)
  | call (call : Invoke) (hreceiver : call.receiver = some v) : GoesThrough v .call (.invoke call)

/-- Whether the statement returns a value. -/
def Stmt.returnsValue : Stmt → Bool
  | .ret (some _) => true
  | _ => false

/-- Of two sites the one comes before the other: in an earlier method, or earlier in its body. -/
def Site.Before (s t : Site) : Prop :=
  s.method < t.method ∨ s.method = t.method ∧ s.index < t.index

/-- The methods of a program have the given bodies, and its indices list what is in them. -/
structure Program.Indexes (p : Program) (body : MethodId → List Stmt) : Prop where
  /-- Methods have their bodies. -/
  stmts_eq : ∀ m method, p.method? m = some method → method.stmts = body m
  /-- Every variable has an entry in the index. -/
  related_eq : ∀ v < p.vars.length, p.related[v]? = some (p.relatedTo v)
  /-- Its lists are in the order of methods and positions, and have no site twice. -/
  ascending : ∀ v access, ((p.relatedTo v).at access).Pairwise Site.Before
  /-- They list exactly the statements that go through the variable. -/
  mem_relatedTo_iff : ∀ v access site, site ∈ (p.relatedTo v).at access ↔
    ∃ stmt, (body site.method)[site.index]? = some stmt ∧ stmt.GoesThrough v access
  /-- The returned variables of a method are those of the statements that return one, in order. -/
  returned_eq : ∀ m method, p.method? m = some method →
    method.returnVars.map (fun v => Stmt.ret (some v)) = (body m).filter Stmt.returnsValue

/-- What a command makes of the body of a method. -/
def Command.edit (m : MethodId) (body : List Stmt) : Command → List Stmt
  | .pushStmt method stmt => if method = m then body ++ [stmt] else body
  | .pushStmts method stmts => if method = m then body ++ stmts else body
  | .setStmt method index stmt => if method = m then body.set index stmt else body
  | _ => body

/-- The body of a method behind the commands. -/
def bodyAfter (commands : List Command) (m : MethodId) : List Stmt :=
  commands.foldl (Command.edit m) []

/-! ## Commands change bodies -/

namespace Builder

/-- The body of a method, which has no statements before the method is declared. -/
def body (b : Builder) (m : MethodId) : List Stmt := (b.methods[m]?.map (·.stmts)).getD []

variable {b c : Builder} {m method : MethodId}

/-- Changes of other things leave all bodies alone. -/
theorem body_modifyMethod {f : Method → Method} (hf : ∀ decl, (f decl).stmts = decl.stmts) :
    (b.modifyMethod method f).body m = b.body m := by
  unfold body modifyMethod
  rw [List.getElem?_modify]
  cases b.methods[m]? with
  | none => rfl
  | some decl => by_cases hm : method = m <;> simp [hm, hf]

/-- A change of one body leaves the others alone. The body of a method that is not declared is
empty, and stays so. -/
theorem body_editBody {change : List Stmt → List Stmt}
    (hmethod : method < b.methods.length ∨ change [] = []) :
    (b.editBody method change).body m = if method = m then change (b.body m) else b.body m := by
  unfold body editBody modifyMethod
  rw [List.getElem?_modify]
  by_cases hm : method = m
  · subst hm
    rw [if_pos rfl]
    cases hdecl : b.methods[method]? with
    | some decl => simp
    | none =>
      have hundeclared := Nat.not_lt.2 (List.getElem?_eq_none_iff.1 hdecl)
      exact (hmethod.resolve_left hundeclared).symm
  · simp [hm]

/-- A new method has no statements. -/
theorem body_append {decl : Method} (hstmts : decl.stmts = []) :
    body { b with methods := b.methods ++ [decl] } m = b.body m := by
  unfold body
  rcases Nat.lt_trichotomy m b.methods.length with hm | rfl | hm
  · rw [List.getElem?_append_left hm]
  · simp [hstmts]
  · rw [List.getElem?_eq_none (by rw [List.length_append]; exact hm),
      List.getElem?_eq_none (Nat.le_of_lt hm)]

theorem body_addMethod (owner : ClassId) (subsignature : String) (isStatic isAbstract : Bool) :
    (b.addMethod owner subsignature isStatic isAbstract).1.body m = b.body m := by
  cases isStatic with
  | true => exact body_append rfl
  | false =>
    refine (body_modifyMethod ?_).trans (body_append rfl)
    exact fun _ => rfl

theorem body_addParam? {name : String} {ty : Ty} {next : Builder × VarId}
    (h : b.addParam? method name ty = some next) : next.1.body m = b.body m := by
  unfold addParam? at h
  split at h
  · obtain rfl := Option.some.inj h
    refine body_modifyMethod ?_
    exact fun _ => rfl
  · cases h

/-- Every command makes of a body what it makes of it by itself. -/
theorem body_of_apply {command : Command} {reply : Reply}
    (h : b.apply command = some (c, reply)) : c.body m = command.edit m (b.body m) := by
  cases command with
  | pushStmt method stmt =>
    obtain ⟨next, hnext, heq⟩ := Option.map_eq_some_iff.1 h
    cases heq
    obtain ⟨hmethod, hedit⟩ := editBody_of_pushStmt? hnext
    exact hedit ▸ body_editBody (.inl hmethod)
  | pushStmts method stmts =>
    obtain ⟨next, hnext, heq⟩ := Option.map_eq_some_iff.1 h
    cases heq
    obtain ⟨hmethod, hedit⟩ := editBody_of_pushStmts? hnext
    refine hedit ▸ body_editBody ?_
    by_cases hstmts : stmts = []
    · exact .inr hstmts
    · exact .inl (hmethod hstmts)
  | setStmt method index stmt =>
    obtain ⟨next, hnext, heq⟩ := Option.map_eq_some_iff.1 h
    cases heq
    obtain ⟨hmethod, hedit⟩ := editBody_of_setStmt? hnext
    exact hedit ▸ body_editBody (.inl hmethod)
  | addParam method name ty =>
    obtain ⟨next, hnext, heq⟩ := Option.map_eq_some_iff.1 h
    cases heq
    exact body_addParam? hnext
  | addMethod owner subsignature isStatic =>
    cases h
    exact body_addMethod owner subsignature isStatic false
  | addAbstractMethod owner subsignature =>
    cases h
    exact body_addMethod owner subsignature false true
  | nextIndex method =>
    obtain ⟨index, -, heq⟩ := Option.map_eq_some_iff.1 h
    cases heq
    rfl
  | _ =>
    cases h
    rfl

/-- So do all commands one after the other. -/
theorem body_of_run {commands : List Command} {replies : List Reply} {last : Builder}
    (hrun : b.run commands = (replies, some last)) :
    last.body m = commands.foldl (Command.edit m) (b.body m) := by
  induction commands generalizing b replies with
  | nil =>
    obtain ⟨-, hlast⟩ := Prod.mk.inj hrun
    rw [← Option.some.inj hlast]
    rfl
  | cons command rest ih =>
    obtain ⟨c, reply, later, happly, hrest⟩ := exists_of_run_cons hrun
    rw [ih hrest, body_of_apply happly]
    rfl

/-- The method has the body that the builder had. -/
theorem stmts_of_method?_freeze {decl : Method} (h : b.freeze.method? m = some decl) :
    decl.stmts = b.body m := by
  unfold Program.method? freeze at h
  rw [List.getElem?_map] at h
  obtain ⟨raw, hraw, rfl⟩ := Option.map_eq_some_iff.1 h
  rw [body, hraw]
  rfl

/-- Statements stand in the bodies that the builder had. -/
theorem stmt?_freeze (site : Site) :
    b.freeze.stmt? site = (b.body site.method)[site.index]? := by
  unfold Program.stmt? Program.method? freeze body
  rw [List.getElem?_map]
  cases b.methods[site.method]? with
  | none => rfl
  | some decl => rfl

end Builder

/-! ## The indices of a program -/

/-- A statement goes through a variable in the way under which the index lists it. -/
theorem Stmt.goesThrough_iff {stmt : Stmt} {v : VarId} {access : Access} :
    stmt.GoesThrough v access ↔ stmt.access? = some (v, access) := by
  constructor
  · rintro (⟨⟩ | ⟨⟩ | ⟨⟩ | ⟨⟩ | ⟨call, hreceiver⟩)
    case call => rw [access?, hreceiver, Option.map_some]
    all_goals rfl
  · intro h
    cases stmt with
    | assign lhs rhs =>
      cases rhs with
      | instanceField base f =>
        cases h
        exact .loadField lhs f
      | arrayAccess base index =>
        cases h
        exact .loadArray lhs index
      | _ => cases h
    | storeField base f value =>
      cases base with
      | some base =>
        cases h
        exact .storeField f value
      | none => cases h
    | storeArray base index value =>
      cases h
      exact .storeArray index value
    | invoke call =>
      obtain ⟨receiver, hreceiver, heq⟩ := Option.map_eq_some_iff.1 h
      cases heq
      exact .call call hreceiver
    | _ => cases h

/-- The values that statements return are those of the statements that return one. -/
theorem map_ret_filterMap_returned? (stmts : List Stmt) :
    (stmts.filterMap Stmt.returned?).map (fun v => Stmt.ret (some v)) =
      stmts.filter Stmt.returnsValue := by
  induction stmts with
  | nil => rfl
  | cons stmt stmts ih =>
    cases stmt with
    | ret value =>
      cases value with
      | none => exact ih
      | some v => exact congrArg (Stmt.ret (some v) :: ·) ih
    | _ => exact ih

namespace Program

variable {p : Program}

/-- All statements are listed in the order of methods and positions. -/
theorem WellFormed.pairwise_sites (hp : p.WellFormed) :
    p.sites.Pairwise (·.1.Before ·.1) := by
  unfold sites
  rw [List.pairwise_flatMap]
  constructor
  · intro method _
    rw [Method.sites, List.pairwise_map]
    exact (InPlace.zipIdx method.stmts).pairwise_lt.imp fun hindex => .inr ⟨rfl, hindex⟩
  · refine hp.method_id.pairwise_lt.imp fun hid e he f hf => .inl ?_
    obtain ⟨_, -, rfl⟩ := List.mem_map.1 he
    obtain ⟨_, -, rfl⟩ := List.mem_map.1 hf
    exact hid

/-- The lists of the index are in that order too. -/
theorem WellFormed.pairwise_relatedTo (hp : p.WellFormed) (v : VarId) (access : Access) :
    ((p.relatedTo v).at access).Pairwise Site.Before := by
  rw [hp.related_eq, sitesThrough, List.pairwise_map]
  exact hp.pairwise_sites.filter _

/-- A program that commands build has the bodies that the commands make. For every variable its
index lists exactly the statements in these bodies that go through the variable, each once and in
order, and the methods return what the statements in their bodies return. -/
theorem indexes_of_build {commands : List Command} {replies : List Reply} {b : Builder}
    (hrun : Builder.empty.run commands = (replies, some b)) (hbuild : b.build = .ok p) :
    p.Indexes (bodyAfter commands) := by
  have haccepted : p.Accepted := ⟨commands, replies, b, hrun, hbuild⟩
  have hp := haccepted.wellFormed
  obtain ⟨-, rfl⟩ := Builder.build_eq_ok_iff.1 hbuild
  have hbody : ∀ m, b.body m = bodyAfter commands m := fun m => Builder.body_of_run hrun
  have hstmts : ∀ m method, b.freeze.method? m = some method → method.stmts = bodyAfter commands m :=
    fun m method hm => (Builder.stmts_of_method?_freeze hm).trans (hbody m)
  refine ⟨hstmts, fun v hv => haccepted.related_eq_some hv, hp.pairwise_relatedTo,
    fun v access site => ?_, fun m method hm => ?_⟩
  · rw [hp.mem_relatedTo, Builder.stmt?_freeze, hbody]
    simp only [Stmt.goesThrough_iff]
  · rw [hp.returnVars_eq method (List.mem_of_getElem? hm), map_ret_filterMap_returned?,
      hstmts m method hm]

/-! ## A program with patches -/

/-- Two methods are filled in turn. The first statement of each is only there until it is replaced,
and every statement of the second one names the variable 2 three times. -/
def patchedCommands : List Command := [
  .addClass "A" none [], .addField 0 "f" (.object 0) false,
  .addMethod 0 "A foo(A)" false, .addParam 0 "p" (.object 0),
  .addMethod 0 "void bar(A[])" true, .addParam 1 "q" (.array (.object 0)),
  .pushStmt 0 (.goto 0), .pushStmt 1 (.storeArray 2 2 2),
  .pushStmts 0 [.assign 1 (.instanceField 1 0),
    .invoke ⟨.virtual, ⟨0, "A foo(A)"⟩, some 1, [1], some 1⟩],
  .pushStmt 1 (.storeArray 2 2 2), .setStmt 0 0 (.storeField (some 1) 0 1),
  .setStmt 1 0 (.assign 2 (.arrayAccess 2 2)), .pushStmt 0 (.ret (some 1))]

/-- The program of these declarations. -/
def patched : Program := (Program.ofCommands? patchedCommands).get (by decide +kernel)

/-- The replaced statements have left no trace, and no statement is listed twice. -/
theorem indexes_patched : ∃ replies b, Builder.empty.run patchedCommands = (replies, some b) ∧
    b.build = .ok patched ∧ patched.Indexes (bodyAfter patchedCommands) ∧
    patched.relatedTo 1 = ⟨[⟨0, 1⟩], [⟨0, 0⟩], [], [], [⟨0, 2⟩]⟩ ∧
    patched.relatedTo 2 = ⟨[], [], [⟨1, 0⟩], [⟨1, 1⟩], []⟩ := by
  obtain ⟨b, hrun, hbuild⟩ := exists_of_ofCommands? (p := patched) (Option.some_get _).symm
  exact ⟨_, b, hrun, hbuild, indexes_of_build hrun hbuild, by decide +kernel, by decide +kernel⟩

end Program

end TacAnalysis
