import TacAnalysis.Proofs.Constants.Transfer
import TacAnalysis.Proofs.Program.Accepted

/-!
# Where the transfer of constants is not monotone

Solvers rely on higher facts before a statement giving higher facts behind it. Of all statements
only divisions can break this, and they do so in one way only: the dividend is not constant, the
divisor is undefined, and then it turns out to be zero. The quotient was "not a constant" and is
"undefined" from then on. So a statement is monotone unless it divides two different variables for
a variable that is tracked.

Main statements: `transfer_le_transfer_iff` and `not_transfer_le_lateZero`.
-/

namespace TacAnalysis

/-! ## Operators -/

/-- Higher operands give a higher result unless the divisor of a value that is not constant turns
from undefined to zero. -/
theorem foldValues_le_foldValues_iff {op : BinaryOp} {a a' b b' : Value} (ha : a ≤ a') (hb : b ≤ b') :
    foldValues op a b ≤ foldValues op a' b' ↔
      ¬ (op.isDivision = true ∧ a = .nac ∧ b = .undefined ∧ b' = .constant 0) := by
  by_cases hdrop : op.isDivision = true ∧ a' = .nac ∧ b' = .constant 0
  · obtain ⟨hop, rfl, rfl⟩ := hdrop
    have hdropped : foldValues op .nac (.constant 0) = .undefined := by simp [foldValues, hop]
    rw [hdropped, Value.le_undefined_iff]
    rcases Value.le_iff.1 hb with rfl | rfl | h
    · cases a <;> simp [foldValues, hop]
    · -- a divisor that has been zero before gave no quotient then either
      have hzero : ∀ c, fold op c 0 = .undefined := by
        intro c
        cases op <;> first | rfl | cases hop
      cases a <;> simp [foldValues, hop, hzero]
    · cases h
  · have hlost : ¬ (op.isDivision = true ∧ a = .nac ∧ b = .undefined ∧ b' = .constant 0) := by
      rintro ⟨hop, rfl, -, rfl⟩
      exact hdrop ⟨hop, Value.nac_le_iff.1 ha, rfl⟩
    apply iff_of_true _ hlost
    calc foldValues op a b ≤ foldAbove op a b := foldValues_le_foldAbove op a b
      _ ≤ foldAbove op a' b' := foldAbove_mono ha hb
      _ = foldValues op a' b' := (foldValues_eq_foldAbove hdrop).symm

/-! ## Facts -/

namespace ConstFact

variable {f g : ConstFact} {v : VarId} {x y : Value}

/-- Of two facts that are bound at one variable, the values there decide. -/
theorem update_le_update_iff (h : f ≤ g) : f.update v x ≤ g.update v y ↔ x ≤ y := by
  constructor
  · intro hle
    simpa using hle v
  · exact update_mono h

/-- Binding a variable that was undefined gives a higher fact. -/
theorem le_update (h : f.get v = .undefined) : f ≤ f.update v x := by
  intro w
  rw [get_update]
  split
  · rename_i hw
    rw [hw, h]
    exact Value.undefined_le x
  · exact le_refl (f.get w)

end ConstFact

namespace Constants

variable {p : Program} {stmt : Option Stmt} {f g : ConstFact}

/-! ## Statements -/

/-- From the fact `f` to the fact `g` a quotient is lost: the statement divides for a variable that
is tracked, in `f` the dividend is not constant and the divisor is undefined, and in `g` the
divisor is zero. -/
def LosesQuotient (p : Program) (stmt : Option Stmt) (f g : ConstFact) : Prop :=
  ∃ lhs e, stmt = some (.assign lhs (.binary e)) ∧ p.holdsInt lhs = true ∧
    e.op.isDivision = true ∧ f.get e.lhs = .nac ∧ f.get e.rhs = .undefined ∧
      g.get e.rhs = .constant 0

/-- The statement divides two different variables for a variable that is tracked. -/
def MayLoseQuotient (p : Program) (stmt : Option Stmt) : Prop :=
  ∃ lhs e, stmt = some (.assign lhs (.binary e)) ∧ p.holdsInt lhs = true ∧
    e.op.isDivision = true ∧ e.lhs ≠ e.rhs

/-- A quotient that is lost is dropped under the higher fact. -/
theorem LosesQuotient.drops (h : f ≤ g) (hloses : LosesQuotient p stmt f g) :
    DropsQuotient p stmt g := by
  obtain ⟨lhs, e, hstmt, hlhs, hop, hdividend, -, hdivisor⟩ := hloses
  have hnac : g.get e.lhs = .nac := Value.nac_le_iff.1 (hdividend ▸ h e.lhs)
  exact ⟨lhs, e, hstmt, hlhs, hop, hnac, hdivisor⟩

/-- Only a statement that divides two different variables loses quotients. -/
theorem LosesQuotient.mayLose (hloses : LosesQuotient p stmt f g) : MayLoseQuotient p stmt := by
  obtain ⟨lhs, e, hstmt, hlhs, hop, hdividend, hdivisor, -⟩ := hloses
  refine ⟨lhs, e, hstmt, hlhs, hop, fun hsame => ?_⟩
  rw [hsame, hdivisor] at hdividend
  cases hdividend

/-- A statement that divides two different variables loses the quotient from a fact that binds the
dividend only to one in which the divisor is zero as well. -/
theorem MayLoseQuotient.exists_loses (h : MayLoseQuotient p stmt) :
    ∃ f g, f ≤ g ∧ LosesQuotient p stmt f g := by
  obtain ⟨lhs, e, hstmt, hlhs, hop, hdiffer⟩ := h
  have hundefined : ((∅ : ConstFact).update e.lhs .nac).get e.rhs = .undefined := by
    rw [ConstFact.get_update, if_neg hdiffer.symm, ConstFact.get_empty]
  refine ⟨(∅ : ConstFact).update e.lhs .nac,
    ((∅ : ConstFact).update e.lhs .nac).update e.rhs (.constant 0), ConstFact.le_update hundefined,
    lhs, e, hstmt, hlhs, hop, ?_, hundefined, ?_⟩
  · rw [ConstFact.get_update, if_pos rfl]
  · rw [ConstFact.get_update, if_pos rfl]

/-- Higher facts before a node give higher facts behind it exactly if no quotient is lost. -/
theorem applyNode_le_applyNode_iff (h : f ≤ g) :
    applyNode p stmt f ≤ applyNode p stmt g ↔ ¬ LosesQuotient p stmt f g := by
  by_cases hdrop : DropsQuotient p stmt g
  · obtain ⟨lhs, e, rfl, hlhs, hop, -, hdivisor⟩ := hdrop
    simp only [applyNode, applyStmt, evaluate, evaluateBinary, if_pos hlhs]
    rw [ConstFact.update_le_update_iff h, foldValues_le_foldValues_iff (h e.lhs) (h e.rhs)]
    apply not_congr
    constructor
    · rintro ⟨-, hdividend, hundefined, -⟩
      exact ⟨lhs, e, rfl, hlhs, hop, hdividend, hundefined, hdivisor⟩
    · rintro ⟨lhs, e, heq, -, -, hdividend, hundefined, -⟩
      cases heq
      exact ⟨hop, hdividend, hundefined, hdivisor⟩
  · have hkept : ¬ LosesQuotient p stmt f g := fun hloses => hdrop (hloses.drops h)
    apply iff_of_true _ hkept
    calc applyNode p stmt f ≤ applyAbove p stmt f := applyNode_le_applyAbove stmt f
      _ ≤ applyAbove p stmt g := applyAbove_mono p stmt h
      _ = applyNode p stmt g := (applyNode_eq_applyAbove hdrop).symm

/-- The new output of a transfer is what holds behind the node. -/
theorem transfer_snd (p : Program) (stmt : Option Stmt) (input output : ConstFact) :
    (transfer p stmt input output).2 = applyNode p stmt input := output.copyFrom_snd _

/-- For any two facts, one above the other, the transfer of a node gives facts in the same order
exactly if no quotient is lost between them. So it does for all such facts exactly if the node does
not divide two different variables for a variable that is tracked. -/
theorem transfer_le_transfer_iff (p : Program) (stmt : Option Stmt) :
    (∀ f g output output', f ≤ g →
      ((transfer p stmt f output).2 ≤ (transfer p stmt g output').2 ↔
        ¬ LosesQuotient p stmt f g)) ∧
      ((∀ f g output output', f ≤ g →
        (transfer p stmt f output).2 ≤ (transfer p stmt g output').2) ↔ ¬ MayLoseQuotient p stmt) := by
  simp only [transfer_snd]
  constructor
  · intro f g _ _ h
    exact applyNode_le_applyNode_iff h
  · constructor
    · rintro hmono hmay
      obtain ⟨f, g, h, hloses⟩ := hmay.exists_loses
      exact (applyNode_le_applyNode_iff h).1 (hmono f g ∅ ∅ h) hloses
    · intro hnever f g _ _ h
      exact (applyNode_le_applyNode_iff h).2 fun hloses => hnever hloses.mayLose

/-! ## A divisor that turns out to be zero -/

/-- A parameter is divided by a variable that is zero. -/
def lateZeroCommands : List Command := [
  .addClass "C" none [], .addMethod 0 "void m()" true,
  .addParam 0 "p" .int, .addVar 0 "z" .int, .addVar 0 "q" .int,
  .pushStmts 0 [
    .assign 1 (.intLiteral 0),
    .assign 2 (.binary ⟨.div, 0, 1⟩)]]

/-- The program of these declarations. -/
def lateZero : Program := (Program.ofCommands? lateZeroCommands).get (by decide +kernel)

theorem accepted_lateZero : lateZero.Accepted :=
  Program.accepted_of_ofCommands? (Option.some_get _).symm

/-- The division of the program. -/
def division : Stmt := .assign 2 (.binary ⟨.div, 0, 1⟩)

/-- What is known before anything has been executed: the parameter can have any value. -/
def zeroUnseen : ConstFact := (∅ : ConstFact).update 0 .nac

/-- What is known before the division. -/
def zeroSeen : ConstFact := zeroUnseen.update 1 (.constant 0)

theorem zeroUnseen_le_zeroSeen : zeroUnseen ≤ zeroSeen := ConstFact.le_update rfl

/-- In an accepted program a lower fact before the division gives a fact behind it that is not
lower: the quotient is "not a constant" first and "undefined" then. -/
theorem not_transfer_le_lateZero :
    lateZero.Accepted ∧ lateZero.stmt? ⟨0, 1⟩ = some division ∧ zeroUnseen ≤ zeroSeen ∧
      ¬ (transfer lateZero (some division) zeroUnseen ∅).2 ≤
        (transfer lateZero (some division) zeroSeen ∅).2 := by
  refine ⟨accepted_lateZero, by decide +kernel, zeroUnseen_le_zeroSeen, fun hle => ?_⟩
  have hquotient := hle 2
  revert hquotient
  decide +kernel

/-- The quotient is lost between these facts, and the assignment of zero is monotone. -/
theorem lateZero_losesQuotient :
    zeroUnseen ≤ zeroSeen ∧ LosesQuotient lateZero (some division) zeroUnseen zeroSeen ∧
      lateZero.stmt? ⟨0, 0⟩ = some (.assign 1 (.intLiteral 0)) ∧
      ∀ f g output output', f ≤ g →
        (transfer lateZero (some (.assign 1 (.intLiteral 0))) f output).2 ≤
          (transfer lateZero (some (.assign 1 (.intLiteral 0))) g output').2 := by
  have hlost : LosesQuotient lateZero (some division) zeroUnseen zeroSeen := by
    by_contra hkept
    have hle := ((transfer_le_transfer_iff lateZero (some division)).1 _ _ ∅ ∅
      zeroUnseen_le_zeroSeen).2 hkept
    have hquotient := hle 2
    revert hquotient
    decide +kernel
  have hmono := (transfer_le_transfer_iff lateZero (some (.assign 1 (.intLiteral 0)))).2.2
  refine ⟨zeroUnseen_le_zeroSeen, hlost, by decide +kernel, hmono ?_⟩
  rintro ⟨lhs, e, heq, -⟩
  cases heq

end Constants

end TacAnalysis
