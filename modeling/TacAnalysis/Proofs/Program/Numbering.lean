import TacAnalysis.Proofs.Checks
import TacAnalysis.Program.Validation

/-!
# Entities stand where their numbers say

Every command gives a new entity the next number of its kind and puts it at the end, or
changes a method and leaves its number alone; statements that are pushed or replaced
change the body of one method. So in every builder that commands reach, each entity is
found at the position that its number names.

Main statement: `Numbered.run`.
-/

namespace TacAnalysis

/-- Each element of a list stands at the position that its number names. -/
def InPlace {α : Type} (number : α → Nat) (xs : List α) : Prop :=
  ∀ (i : Nat) (x : α), xs[i]? = some x → number x = i

namespace InPlace

variable {α : Type} {number : α → Nat} {xs : List α}

theorem nil : InPlace number [] := by
  intro i x hx
  simp at hx

/-- Elements that are listed with their positions are in place. -/
theorem zipIdx (ys : List α) : InPlace Prod.snd ys.zipIdx := by
  intro i e he
  rw [List.getElem?_zipIdx] at he
  obtain ⟨y, -, rfl⟩ := Option.map_eq_some_iff.1 he
  exact Nat.zero_add i

/-- Elements in place are in the order of their numbers. -/
theorem pairwise_lt (h : InPlace number xs) : xs.Pairwise (number · < number ·) := by
  rw [List.pairwise_iff_getElem]
  intro i j hi hj hij
  rw [h i _ (List.getElem?_eq_getElem hi), h j _ (List.getElem?_eq_getElem hj)]
  exact hij

/-- A new element with the next number goes to the end. -/
theorem append (h : InPlace number xs) {x : α} (hx : number x = xs.length) :
    InPlace number (xs ++ [x]) := by
  intro i y hy
  rcases Nat.lt_trichotomy i xs.length with hi | rfl | hi
  · rw [List.getElem?_append_left hi] at hy
    exact h i y hy
  · rw [List.getElem?_concat_length] at hy
    exact Option.some.inj hy ▸ hx
  · rw [List.getElem?_eq_none (by rw [List.length_append]; exact hi)] at hy
    cases hy

/-- A change that leaves numbers alone keeps the elements in place. -/
theorem modify (h : InPlace number xs) {f : α → α} (hf : ∀ x, number (f x) = number x) (i : Nat) :
    InPlace number (xs.modify i f) := by
  intro j y hy
  rw [List.getElem?_modify] at hy
  obtain ⟨x, hx, rfl⟩ := Option.map_eq_some_iff.1 hy
  have hj := h j x hx
  split
  · exact (hf x).trans hj
  · exact hj

/-- A change that leaves numbers alone can also be made everywhere. -/
theorem map (h : InPlace number xs) {f : α → α} (hf : ∀ x, number (f x) = number x) :
    InPlace number (xs.map f) := by
  intro i y hy
  rw [List.getElem?_map] at hy
  obtain ⟨x, hx, rfl⟩ := Option.map_eq_some_iff.1 hy
  exact (hf x).trans (h i x hx)

theorem getElem?_number (h : InPlace number xs) {x : α} (hx : x ∈ xs) : xs[number x]? = some x := by
  obtain ⟨i, hi⟩ := List.getElem?_of_mem hx
  rw [h i x hi, hi]

theorem number_lt (h : InPlace number xs) {x : α} (hx : x ∈ xs) : number x < xs.length :=
  (List.getElem?_eq_some_iff.1 (h.getElem?_number hx)).1

end InPlace

namespace Builder

/-! ## Commands that edit a body -/

/-- Changes the body of a method. -/
def editBody (b : Builder) (method : MethodId) (change : List Stmt → List Stmt) : Builder :=
  b.modifyMethod method fun m => { m with stmts := change m.stmts }

section Edits

variable {b : Builder} {method : MethodId}

/-- A method that has a next position is declared. -/
theorem lt_of_nextIndex? {index : Nat} (h : b.nextIndex? method = some index) :
    method < b.methods.length := by
  obtain ⟨decl, hdecl, -⟩ := Option.map_eq_some_iff.1 h
  exact (List.getElem?_eq_some_iff.1 hdecl).1

/-- Two changes of one body are one change. -/
theorem editBody_editBody (first second : List Stmt → List Stmt) :
    (b.editBody method first).editBody method second = b.editBody method (second ∘ first) := by
  unfold editBody modifyMethod
  rw [List.modify_modify_eq]
  rfl

theorem editBody_id : b.editBody method (fun stmts => stmts) = b := by
  unfold editBody modifyMethod
  exact congrArg (fun methods => { b with methods }) (List.modify_id method b.methods)

theorem editBody_of_pushStmt? {stmt : Stmt} {next : Builder × Nat}
    (h : b.pushStmt? method stmt = some next) :
    method < b.methods.length ∧ next.1 = b.editBody method (· ++ [stmt]) := by
  obtain ⟨index, hindex, h⟩ := Option.bind_eq_some_iff.1 h
  obtain rfl := Option.some.inj h
  exact ⟨lt_of_nextIndex? hindex, rfl⟩

/-- Statements that are appended one by one are appended as a list. -/
theorem editBody_of_pushStmts? {stmts : List Stmt} {next : Builder × List Nat}
    (h : b.pushStmts? method stmts = some next) :
    (stmts ≠ [] → method < b.methods.length) ∧ next.1 = b.editBody method (· ++ stmts) := by
  induction stmts generalizing b next with
  | nil =>
    obtain rfl := Option.some.inj h
    refine ⟨fun hne => absurd rfl hne, ?_⟩
    simpa only [List.append_nil] using editBody_id.symm
  | cons stmt rest ih =>
    unfold pushStmts? at h
    obtain ⟨⟨c, index⟩, hc, h⟩ := Option.bind_eq_some_iff.1 h
    obtain ⟨⟨d, indices⟩, hd, h⟩ := Option.bind_eq_some_iff.1 h
    obtain rfl := Option.some.inj h
    obtain ⟨hmethod, hfirst⟩ := editBody_of_pushStmt? hc
    obtain rfl : c = b.editBody method (· ++ [stmt]) := hfirst
    have hrest : d = (b.editBody method (· ++ [stmt])).editBody method (· ++ rest) := (ih hd).2
    refine ⟨fun _ => hmethod, hrest.trans ?_⟩
    simp only [editBody_editBody, Function.comp_def, List.append_assoc, List.singleton_append]

theorem editBody_of_setStmt? {index : Nat} {stmt : Stmt} {next : Builder}
    (h : b.setStmt? method index stmt = some next) :
    method < b.methods.length ∧ next = b.editBody method (·.set index stmt) := by
  obtain ⟨length, hlength, h⟩ := Option.bind_eq_some_iff.1 h
  split at h
  · obtain rfl := Option.some.inj h
    exact ⟨lt_of_nextIndex? hlength, rfl⟩
  · cases h

end Edits

/-! ## Numbers -/

/-- All entities stand where their numbers say. -/
structure Numbered (b : Builder) : Prop where
  /-- The classes are in place. -/
  classes : InPlace Class.id b.classes
  /-- The methods are in place. -/
  methods : InPlace Method.id b.methods
  /-- The variables are in place. -/
  vars : InPlace Var.id b.vars
  /-- The fields are in place. -/
  fields : InPlace Field.id b.fields

theorem numbered_empty : empty.Numbered :=
  ⟨InPlace.nil, InPlace.nil, InPlace.nil, InPlace.nil⟩

variable {b : Builder}

theorem Numbered.addClass (h : b.Numbered) (name : String) (superclass : Option ClassId)
    (interfaces : List ClassId) (isInterface isAbstract : Bool) :
    (b.addClass name superclass interfaces isInterface isAbstract).1.Numbered :=
  { h with classes := h.classes.append rfl }

theorem Numbered.addField (h : b.Numbered) (owner : ClassId) (name : String) (ty : Ty)
    (isStatic : Bool) : (b.addField owner name ty isStatic).1.Numbered :=
  { h with fields := h.fields.append rfl }

theorem Numbered.addVar (h : b.Numbered) (method : MethodId) (name : String) (ty : Ty) :
    (b.addVar method name ty).1.Numbered :=
  { h with vars := h.vars.append rfl }

theorem Numbered.modifyMethod (h : b.Numbered) {f : Method → Method} (hf : ∀ m, (f m).id = m.id)
    (method : MethodId) : (b.modifyMethod method f).Numbered :=
  { h with methods := h.methods.modify hf method }

theorem Numbered.addMethod (h : b.Numbered) (owner : ClassId) (subsignature : String)
    (isStatic isAbstract : Bool) : (b.addMethod owner subsignature isStatic isAbstract).1.Numbered := by
  unfold Builder.addMethod
  have hmethod : ({ b with methods := b.methods ++ [⟨b.methods.length, simpleName subsignature,
      owner, subsignature, isStatic, isAbstract, [], none, [], []⟩] } : Builder).Numbered :=
    { h with methods := h.methods.append rfl }
  cases isStatic with
  | true => exact hmethod
  | false =>
    refine (hmethod.addVar b.methods.length "this" (.object owner)).modifyMethod ?_ _
    exact fun _ => rfl

theorem Numbered.addParam? (h : b.Numbered) {method : MethodId} {name : String} {ty : Ty}
    {next : Builder × VarId} (hnext : b.addParam? method name ty = some next) :
    next.1.Numbered := by
  unfold Builder.addParam? at hnext
  split at hnext
  · obtain rfl := Option.some.inj hnext
    refine (h.addVar method name ty).modifyMethod ?_ method
    exact fun _ => rfl
  · cases hnext

theorem Numbered.editBody (h : b.Numbered) (method : MethodId) (change : List Stmt → List Stmt) :
    (b.editBody method change).Numbered := by
  refine h.modifyMethod ?_ method
  exact fun _ => rfl

/-- Every command keeps all entities in place. -/
theorem Numbered.apply (h : b.Numbered) {command : Command} {next : Builder × Reply}
    (hnext : b.apply command = some next) : next.1.Numbered := by
  cases command with
  | addClass name superclass interfaces =>
    obtain rfl := Option.some.inj hnext
    exact h.addClass name superclass interfaces false false
  | addAbstractClass name superclass interfaces =>
    obtain rfl := Option.some.inj hnext
    exact h.addClass name superclass interfaces false true
  | addInterface name interfaces =>
    obtain rfl := Option.some.inj hnext
    exact h.addClass name none interfaces true true
  | addField owner name ty isStatic =>
    obtain rfl := Option.some.inj hnext
    exact h.addField owner name ty isStatic
  | addMethod owner subsignature isStatic =>
    obtain rfl := Option.some.inj hnext
    exact h.addMethod owner subsignature isStatic false
  | addAbstractMethod owner subsignature =>
    obtain rfl := Option.some.inj hnext
    exact h.addMethod owner subsignature false true
  | addVar method name ty =>
    obtain rfl := Option.some.inj hnext
    exact h.addVar method name ty
  | addParam method name ty =>
    obtain ⟨x, hx, rfl⟩ := Option.map_eq_some_iff.1 hnext
    exact h.addParam? hx
  | pushStmt method stmt =>
    obtain ⟨x, hx, rfl⟩ := Option.map_eq_some_iff.1 hnext
    have hedit : x.1.Numbered := (editBody_of_pushStmt? hx).2 ▸ h.editBody method _
    exact hedit
  | pushStmts method stmts =>
    obtain ⟨x, hx, rfl⟩ := Option.map_eq_some_iff.1 hnext
    have hedit : x.1.Numbered := (editBody_of_pushStmts? hx).2 ▸ h.editBody method _
    exact hedit
  | setStmt method index stmt =>
    obtain ⟨x, hx, rfl⟩ := Option.map_eq_some_iff.1 hnext
    have hedit : x.Numbered := (editBody_of_setStmt? hx).2 ▸ h.editBody method _
    exact hedit
  | nextIndex method =>
    obtain ⟨x, -, rfl⟩ := Option.map_eq_some_iff.1 hnext
    exact h
  | thisVar method =>
    obtain rfl := Option.some.inj hnext
    exact h
  | setEntry method =>
    obtain rfl := Option.some.inj hnext
    exact { h with }

/-- Commands that can be obeyed are obeyed one by one. -/
theorem exists_of_run_cons {command : Command} {rest : List Command} {replies : List Reply}
    {last : Builder} (hrun : b.run (command :: rest) = (replies, some last)) :
    ∃ c reply later, b.apply command = some (c, reply) ∧ c.run rest = (later, some last) := by
  rw [Builder.run] at hrun
  cases happly : b.apply command with
  | none =>
    rw [happly] at hrun
    cases (Prod.mk.inj hrun).2
  | some next =>
    obtain ⟨c, reply⟩ := next
    rw [happly] at hrun
    have hlast : (c.run rest).2 = some last := congrArg Prod.snd hrun
    exact ⟨c, reply, (c.run rest).1, rfl, Prod.ext rfl hlast⟩

/-- Commands keep all entities in place. -/
theorem Numbered.run (h : b.Numbered) {commands : List Command} {replies : List Reply}
    {last : Builder} (hrun : b.run commands = (replies, some last)) : last.Numbered := by
  induction commands generalizing b replies with
  | nil =>
    obtain ⟨-, hlast⟩ := Prod.mk.inj hrun
    exact Option.some.inj hlast ▸ h
  | cons command rest ih =>
    obtain ⟨c, reply, later, happly, hrest⟩ := exists_of_run_cons hrun
    exact ih (h.apply happly) hrest

end Builder

end TacAnalysis
