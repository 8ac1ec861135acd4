import TacAnalysis.Program.Validation

/-!
# The index of statements by variable

The statements of a program are entered one by one, each in the list of its variable for
its kind of access. So each list holds the statements that go through the variable in that
way, in program order.

Main statement: `at_foldl_addRelated`.
-/

namespace TacAnalysis

/-- The statements with one kind of access. -/
def RelatedStmts.at (r : RelatedStmts) : Access → List Site
  | .loadField => r.loadFields
  | .storeField => r.storeFields
  | .loadArray => r.loadArrays
  | .storeArray => r.storeArrays
  | .call => r.invokes

/-- The sites of a list at which a variable is accessed in one way. -/
def sitesThrough (v : VarId) (access : Access) (entries : List (Site × Stmt)) : List Site :=
  (entries.filter fun e => e.2.access? = some (v, access)).map (·.1)

@[simp] theorem sitesThrough_nil (v : VarId) (access : Access) : sitesThrough v access [] = [] := rfl

theorem sitesThrough_cons (v : VarId) (access : Access) (e : Site × Stmt) (rest : List (Site × Stmt)) :
    sitesThrough v access (e :: rest) =
      (if e.2.access? = some (v, access) then [e.1] else []) ++ sitesThrough v access rest := by
  unfold sitesThrough
  by_cases h : e.2.access? = some (v, access)
  · simp [h]
  · simp [h]

theorem mem_sitesThrough {v : VarId} {access : Access} {entries : List (Site × Stmt)} {site : Site} :
    site ∈ sitesThrough v access entries ↔
      ∃ stmt, (site, stmt) ∈ entries ∧ stmt.access? = some (v, access) := by
  simp [sitesThrough]

@[simp] theorem RelatedStmts.at_none (access : Access) : RelatedStmts.none.at access = [] := by
  cases access <;> rfl

/-- A site is appended to the list of its access only. -/
theorem RelatedStmts.at_add (r : RelatedStmts) (site : Site) (access other : Access) :
    (r.add site access).at other = r.at other ++ if access = other then [site] else [] := by
  cases access <;> cases other <;> simp [RelatedStmts.add, RelatedStmts.at]

/-- What one statement adds to the entry of a variable. -/
theorem at_addRelated (index : List RelatedStmts) (e : Site × Stmt) (v : VarId) (access : Access) :
    ((addRelated index e)[v]?.map fun r => r.at access) =
      index[v]?.map fun r => r.at access ++ if e.2.access? = some (v, access) then [e.1] else [] := by
  unfold addRelated
  cases haccess : e.2.access? with
  | none => simp
  | some a =>
    obtain ⟨w, other⟩ := a
    dsimp only
    rw [List.getElem?_modify]
    cases index[v]? with
    | none => rfl
    | some r =>
      by_cases hw : w = v
      · simp [hw, RelatedStmts.at_add]
      · simp [hw]

/-- What all statements add to the entry of a variable. -/
theorem at_foldl_addRelated (entries : List (Site × Stmt)) (index : List RelatedStmts) (v : VarId)
    (access : Access) :
    ((entries.foldl addRelated index)[v]?.map fun r => r.at access) =
      index[v]?.map fun r => r.at access ++ sitesThrough v access entries := by
  induction entries generalizing index with
  | nil => simp
  | cons e entries ih =>
    rw [List.foldl_cons, ih, sitesThrough_cons]
    have hfirst := at_addRelated index e v access
    have hrest := congrArg (Option.map (· ++ sitesThrough v access entries)) hfirst
    simpa only [Option.map_map, Function.comp_def, List.append_assoc] using hrest

/-- A statement reads the variable that it goes through. -/
theorem Stmt.mem_uses_of_access? {stmt : Stmt} {v : VarId} {access : Access}
    (h : stmt.access? = some (v, access)) : v ∈ stmt.uses := by
  cases stmt with
  | assign lhs rhs =>
    cases rhs with
    | instanceField | arrayAccess => simp_all [Stmt.access?, Stmt.uses, Exp.uses]
    | _ => cases h
  | storeField base f value =>
    cases base with
    | some base => simp_all [Stmt.access?, Stmt.uses]
    | none => cases h
  | storeArray => simp_all [Stmt.access?, Stmt.uses]
  | invoke call =>
    obtain ⟨receiver, hreceiver, heq⟩ := Option.map_eq_some_iff.1 h
    cases heq
    simp [Stmt.uses, hreceiver]
  | _ => cases h

end TacAnalysis
