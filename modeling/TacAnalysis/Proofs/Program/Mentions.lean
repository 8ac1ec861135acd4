import TacAnalysis.Proofs.Program.Names

/-!
# What a program mentions

A program refers to its classes, methods, variables and fields by number, in statements and types as
well as in declarations. Here all these numbers are listed. The checks of the builder visit the
methods and the links of classes, and so whatever an accepted program mentions there is declared,
variables by the method that mentions them.

Main statements: `Accepted.declared_of_mem_codeMentions` and `WellFormed.owns_of_mem_mentions`.
-/

namespace TacAnalysis

/-- A class, method, variable or field, by its number. -/
inductive EntityId where
  | cls (c : ClassId)
  | method (m : MethodId)
  | var (v : VarId)
  | field (f : FieldId)
  deriving DecidableEq

/-- The program has an entity of the number. -/
def EntityId.Declared (p : Program) : EntityId → Prop
  | cls c => c < p.classes.length
  | method m => m < p.methods.length
  | var v => v < p.vars.length
  | field f => f < p.fields.length

instance (p : Program) : DecidablePred (EntityId.Declared p)
  | .cls c => inferInstanceAs (Decidable (c < p.classes.length))
  | .method m => inferInstanceAs (Decidable (m < p.methods.length))
  | .var v => inferInstanceAs (Decidable (v < p.vars.length))
  | .field f => inferInstanceAs (Decidable (f < p.fields.length))

/-- The class in a type, below all array constructors. -/
def Ty.mentions : Ty → List EntityId
  | .object c => [.cls c]
  | .array element => element.mentions
  | _ => []

/-- The entities in an expression. -/
def Exp.mentions : Exp → List EntityId
  | .var source => [.var source]
  | .binary exp => [.var exp.lhs, .var exp.rhs]
  | .new ty => ty.mentions
  | .cast ty operand => ty.mentions ++ [.var operand]
  | .instanceField base f => [.var base, .field f]
  | .staticField f => [.field f]
  | .arrayAccess base index => [.var base, .var index]
  | .arrayLength base => [.var base]
  | _ => []

/-- The entities in a call. -/
def Invoke.mentions (call : Invoke) : List EntityId :=
  .cls call.target.owner :: (call.receiver.toList ++ call.args ++ call.result.toList).map .var

/-- The entities in a statement. -/
def Stmt.mentions : Stmt → List EntityId
  | .assign lhs rhs => .var lhs :: rhs.mentions
  | .storeField base f value => .field f :: (base.toList ++ [value]).map .var
  | .storeArray base index value => [.var base, .var index, .var value]
  | .invoke call => call.mentions
  | .branch condition _ => [.var condition.lhs, .var condition.rhs]
  | .switch selector _ _ => [.var selector]
  | .ret value => value.toList.map .var
  | _ => []

/-- The entities in a class. -/
def Class.mentions (c : Class) : List EntityId :=
  .cls c.id :: (c.superclass.toList ++ c.interfaces).map .cls ++ c.methods.map fun e => .method e.2

/-- The entities in the declaration and the body of a method. -/
def Method.mentions (m : Method) : List EntityId :=
  .method m.id :: .cls m.owner :: (m.params ++ m.thisVar.toList ++ m.returnVars).map .var ++
    m.stmts.flatMap Stmt.mentions

/-- The methods of the statements that go through a variable. -/
def RelatedStmts.mentions (r : RelatedStmts) : List EntityId :=
  (r.loadFields ++ r.storeFields ++ r.loadArrays ++ r.storeArrays ++ r.invokes).map
    fun site => .method site.method

/-- The method and the type of a variable. -/
def Var.references (v : Var) : List EntityId := .method v.method :: v.ty.mentions

/-- The class and the type of a field. -/
def Field.references (f : Field) : List EntityId := .cls f.owner :: f.ty.mentions

namespace Program

variable (p : Program)

/-- All entities in classes, in methods and in what is derived from these. -/
def codeMentions : List EntityId :=
  p.entry.toList.map .method ++ p.classes.flatMap Class.mentions ++
    p.methods.flatMap Method.mentions ++ p.related.flatMap RelatedStmts.mentions

/-- All entities in a program. -/
def mentions : List EntityId :=
  p.codeMentions ++ (p.vars.flatMap fun v => .var v.id :: v.references) ++
    p.fields.flatMap fun f => .field f.id :: f.references

/-- All that is mentioned is declared. -/
def Closed : Prop := ∀ x ∈ p.mentions, x.Declared p

instance : Decidable p.Closed := inferInstanceAs (Decidable (∀ x ∈ p.mentions, x.Declared p))

end Program

/-! ## Types and statements -/

theorem Ty.mem_mentions {ty : Ty} {x : EntityId} :
    x ∈ ty.mentions ↔ ∃ c, ty.innermost = .object c ∧ x = .cls c := by
  induction ty with
  | array element ih => exact ih
  | object c => simp [mentions, innermost]
  | _ => simp [mentions, innermost]

/-- The variables in an expression are those that it reads. -/
theorem Exp.var_mem_mentions {exp : Exp} {v : VarId} : .var v ∈ exp.mentions ↔ v ∈ exp.uses := by
  cases exp <;> simp [mentions, uses, Ty.mem_mentions]

/-- The variables in a statement are those that it reads or writes. -/
theorem Stmt.var_mem_mentions {stmt : Stmt} {v : VarId} :
    .var v ∈ stmt.mentions ↔ v ∈ stmt.uses ++ stmt.assigned?.toList := by
  cases stmt with
  | assign lhs rhs => simp [mentions, uses, assigned?, Exp.var_mem_mentions, or_comm]
  | invoke call => simp [mentions, Invoke.mentions, uses, assigned?]
  | _ => simp [mentions, uses, assigned?]

/-- A variable that a statement returns is in it. -/
theorem Stmt.var_mem_mentions_of_returned? {stmt : Stmt} {v : VarId} (h : stmt.returned? = some v) :
    .var v ∈ stmt.mentions := by
  cases stmt with
  | ret value =>
    obtain rfl : value = some v := h
    exact List.mem_singleton_self _
  | _ => cases h

/-- A site in the index stands in one of the lists. -/
theorem RelatedStmts.exists_mem_at {r : RelatedStmts} {site : Site}
    (h : site ∈ r.loadFields ++ r.storeFields ++ r.loadArrays ++ r.storeArrays ++ r.invokes) :
    ∃ access, site ∈ r.at access := by
  simp only [List.mem_append, or_assoc] at h
  rcases h with h | h | h | h | h
  · exact ⟨.loadField, h⟩
  · exact ⟨.storeField, h⟩
  · exact ⟨.loadArray, h⟩
  · exact ⟨.storeArray, h⟩
  · exact ⟨.call, h⟩

/-! ## Checks -/

namespace Builder

variable {b : Builder}

@[simp] theorem declared_cls_freeze {c : ClassId} :
    (EntityId.cls c).Declared b.freeze ↔ c < b.classes.length := by
  simp [EntityId.Declared, freeze]

@[simp] theorem declared_method_freeze {m : MethodId} :
    (EntityId.method m).Declared b.freeze ↔ m < b.methods.length := by
  simp [EntityId.Declared, freeze]

/-- A type passes if its class is declared. -/
theorem checkTy_eq_ok_iff {ty : Ty} :
    b.checkTy ty = .ok () ↔ ∀ x ∈ ty.mentions, x.Declared b.freeze := by
  unfold checkTy
  simp only [Ty.mem_mentions]
  cases ty.innermost <;> simp [checkClass_eq_ok_iff]

theorem checkField_eq_ok_iff {f : FieldId} :
    b.checkField f = .ok () ↔ (EntityId.field f).Declared b.freeze := by
  unfold checkField EntityId.Declared freeze
  split <;> simp [*]

/-- Where names pass, all in an expression is declared but for variables. -/
theorem declared_of_checkNames_assign {m : Method} {index : Nat} {lhs : VarId} {rhs : Exp}
    (h : b.checkNames m index (.assign lhs rhs) = .ok ()) {x : EntityId} (hx : x ∈ rhs.mentions) :
    (∃ v, x = .var v) ∨ x.Declared b.freeze := by
  cases rhs with
  | new ty => exact .inr (checkTy_eq_ok_iff.1 h x hx)
  | cast ty operand =>
    rcases List.mem_append.1 hx with hx | hx
    · exact .inr (checkTy_eq_ok_iff.1 h x hx)
    · exact .inl ⟨operand, List.mem_singleton.1 hx⟩
  | staticField f =>
    obtain rfl := List.mem_singleton.1 hx
    exact .inr (checkField_eq_ok_iff.1 h)
  | instanceField base f =>
    rcases List.mem_cons.1 hx with rfl | hx
    · exact .inl ⟨base, rfl⟩
    · obtain rfl := List.mem_singleton.1 hx
      exact .inr (checkField_eq_ok_iff.1 h)
  | _ =>
    cases x with
    | var v => exact .inl ⟨v, rfl⟩
    | _ => simp [Exp.mentions] at hx

/-- Where names pass, all in a statement is declared but for variables. -/
theorem declared_of_checkNames {m : Method} {index : Nat} {stmt : Stmt}
    (h : b.checkNames m index stmt = .ok ()) {x : EntityId} (hx : x ∈ stmt.mentions) :
    (∃ v, x = .var v) ∨ x.Declared b.freeze := by
  cases stmt with
  | assign lhs rhs =>
    rcases List.mem_cons.1 hx with rfl | hx
    · exact .inl ⟨lhs, rfl⟩
    · exact declared_of_checkNames_assign h hx
  | storeField base f value =>
    rcases List.mem_cons.1 hx with rfl | hx
    · exact .inr (checkField_eq_ok_iff.1 h)
    · obtain ⟨v, -, rfl⟩ := List.mem_map.1 hx
      exact .inl ⟨v, rfl⟩
  | invoke call =>
    rcases List.mem_cons.1 hx with rfl | hx
    · obtain ⟨hclass, -⟩ := check_bind_eq_ok_iff.1 h
      exact .inr (declared_cls_freeze.2 (checkClass_eq_ok_iff.1 hclass))
    · obtain ⟨v, -, rfl⟩ := List.mem_map.1 hx
      exact .inl ⟨v, rfl⟩
  | _ =>
    cases x with
    | var v => exact .inl ⟨v, rfl⟩
    | _ => simp [Stmt.mentions] at hx

end Builder

/-! ## Accepted programs -/

namespace Program

variable {p : Program}

/-- A method mentions variables of its own only. -/
theorem WellFormed.owns_of_mem_mentions (hp : p.WellFormed) {m : Method} (hm : m ∈ p.methods)
    {v : VarId} (hv : .var v ∈ m.mentions) : p.Owns m.id v := by
  have hstmts : ∀ stmt ∈ m.stmts, .var v ∈ stmt.mentions → p.Owns m.id v :=
    fun stmt hstmt h => hp.owns_use m hm stmt hstmt v (Stmt.var_mem_mentions.1 h)
  simp only [Method.mentions, List.mem_append, List.mem_cons, List.mem_map, List.mem_flatMap,
    reduceCtorEq, false_or, EntityId.var.injEq, exists_eq_right] at hv
  rcases hv with (hsignature | hreturned) | ⟨stmt, hstmt, hmentions⟩
  · exact hp.owns_param m hm v (List.mem_append.2 hsignature)
  · rw [hp.returnVars_eq m hm] at hreturned
    obtain ⟨stmt, hstmt, hvalue⟩ := List.mem_filterMap.1 hreturned
    exact hstmts stmt hstmt (Stmt.var_mem_mentions_of_returned? hvalue)
  · exact hstmts stmt hstmt hmentions

/-- Classes and what they mention are declared. -/
theorem Accepted.declared_of_class (hp : p.Accepted) {c : Class} (hc : c ∈ p.classes)
    {x : EntityId} (hx : x ∈ c.mentions) : x.Declared p := by
  rcases List.mem_append.1 hx with hlinks | hmethods
  · rcases List.mem_cons.1 hlinks with rfl | hparent
    · exact hp.wellFormed.class_id.number_lt hc
    · obtain ⟨d, hd, rfl⟩ := List.mem_map.1 hparent
      exact hp.parent_lt hc hd
  · obtain ⟨e, he, rfl⟩ := List.mem_map.1 hmethods
    obtain ⟨m, hm, -⟩ := hp.wellFormed.declared c hc e he
    exact (List.getElem?_eq_some_iff.1 hm).1

/-- Methods and what they mention are declared. -/
theorem Accepted.declared_of_method (hp : p.Accepted) {m : Method} (hm : m ∈ p.methods)
    {x : EntityId} (hx : x ∈ m.mentions) : x.Declared p := by
  have hvar : ∀ v, x = .var v → x.Declared p := by
    rintro v rfl
    exact (hp.wellFormed.owns_of_mem_mentions hm hx).lt
  rcases List.mem_append.1 hx with hsignature | hbody
  · rcases List.mem_cons.1 hsignature with rfl | hsignature
    · exact hp.wellFormed.method_id.number_lt hm
    · rcases List.mem_cons.1 hsignature with rfl | hvars
      · exact hp.owner_lt hm
      · obtain ⟨v, -, hv⟩ := List.mem_map.1 hvars
        exact hvar v hv.symm
  · obtain ⟨stmt, hstmt, hmentions⟩ := List.mem_flatMap.1 hbody
    obtain ⟨b, raw, index, rfl, hchecked⟩ := hp.exists_checkNames hm hstmt
    rcases Builder.declared_of_checkNames hchecked hmentions with ⟨v, hv⟩ | hdeclared
    · exact hvar v hv
    · exact hdeclared

/-- The methods in the index of statements are declared. -/
theorem WellFormed.declared_of_related (hp : p.WellFormed) {r : RelatedStmts} (hr : r ∈ p.related)
    {x : EntityId} (hx : x ∈ r.mentions) : x.Declared p := by
  obtain ⟨v, hv⟩ := List.getElem?_of_mem hr
  have hrelated : p.relatedTo v = r := by rw [relatedTo, hv, Option.getD_some]
  obtain ⟨site, hsite, rfl⟩ := List.mem_map.1 hx
  obtain ⟨access, haccess⟩ := RelatedStmts.exists_mem_at hsite
  rw [← hrelated, hp.mem_relatedTo] at haccess
  obtain ⟨stmt, hstmt, -⟩ := haccess
  obtain ⟨method, hmethod, -⟩ := Option.bind_eq_some_iff.1 hstmt
  exact (List.getElem?_eq_some_iff.1 hmethod).1

/-- All that is mentioned in classes and methods is declared. -/
theorem Accepted.declared_of_mem_codeMentions (hp : p.Accepted) {x : EntityId}
    (hx : x ∈ p.codeMentions) : x.Declared p := by
  simp only [codeMentions, List.mem_append, List.mem_map, List.mem_flatMap, or_assoc] at hx
  rcases hx with ⟨m, hm, rfl⟩ | ⟨c, hc, hx⟩ | ⟨m, hm, hx⟩ | ⟨r, hr, hx⟩
  · exact hp.wellFormed.entry_lt m (Option.mem_toList.1 hm)
  · exact hp.declared_of_class hc hx
  · exact hp.declared_of_method hm hx
  · exact hp.wellFormed.declared_of_related hr hx

end Program

end TacAnalysis
