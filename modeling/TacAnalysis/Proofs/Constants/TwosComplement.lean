import Mathlib.Algebra.Order.Group.Unbundled.Int
import Mathlib.Data.Int.Bitwise
import Mathlib.Tactic.Ring
import TacAnalysis.Proofs.Constants.Arithmetic

/-!
# Folding as 32-bit two's-complement arithmetic

The laws of 32-bit arithmetic are said of an arbitrary evaluation of operators, by the integers
that operands and results stand for. Sums, differences and products are reduced to the signed
range. Quotient and remainder belong together: they give the dividend back, also where the quotient
overflows. Shifts multiply and divide by a power of two, and the bitwise operators work on each bit
of the representation. Folding obeys all of them, and it never asks a machine for a quotient by
zero, the only operation for which a machine has no answer.

Main statement: `fold_twosComplement`.
-/

namespace TacAnalysis

/-! ## The laws -/

/-- An integer reduced modulo `2 ^ 32` to the signed range. -/
def wrap (n : Int) : Int := (n + 2 ^ 31) % 2 ^ 32 - 2 ^ 31

/-- The value is known, and it is the integer `n`. -/
def Value.IsKnown (v : Value) (n : Int) : Prop := ∃ c, v = .constant c ∧ c.toInt = n

/-- On the operands `a` and `b` an evaluation of operators follows 32-bit two's-complement
arithmetic. -/
structure TwosComplement (eval : BinaryOp → Int32 → Int32 → Value) (a b : Int32) : Prop where
  /-- Only a quotient or remainder by zero is undefined; all else is known and in range. -/
  inRange : ∀ op, if op.isDivision = true ∧ b = 0 then eval op a b = .undefined
    else ∃ n, (eval op a b).IsKnown n ∧ -2 ^ 31 ≤ n ∧ n < 2 ^ 31
  /-- A sum is reduced to the signed range. -/
  add : (eval .add a b).IsKnown (wrap (a.toInt + b.toInt))
  /-- A difference is reduced to the signed range. -/
  sub : (eval .sub a b).IsKnown (wrap (a.toInt - b.toInt))
  /-- A product is reduced to the signed range. -/
  mul : (eval .mul a b).IsKnown (wrap (a.toInt * b.toInt))
  /-- The quotient is truncated and reduced to the signed range. With the remainder, which is
  smaller than the divisor and has the sign of the dividend, it gives the dividend back. -/
  division : b ≠ 0 → ∃ q r, (eval .div a b).IsKnown q ∧ (eval .rem a b).IsKnown r ∧
    q = wrap (a.toInt.tdiv b.toInt) ∧ a.toInt = wrap (q * b.toInt + r) ∧ |r| < |b.toInt| ∧
    (r = 0 ∨ r.sign = a.toInt.sign)
  /-- Equality is 1 or 0. -/
  eq : (eval .eq a b).IsKnown (if a.toInt = b.toInt then 1 else 0)
  /-- Inequality is 1 or 0. -/
  ne : (eval .ne a b).IsKnown (if a.toInt ≠ b.toInt then 1 else 0)
  /-- Less in the signed order is 1 or 0. -/
  lt : (eval .lt a b).IsKnown (if a.toInt < b.toInt then 1 else 0)
  /-- Greater in the signed order is 1 or 0. -/
  gt : (eval .gt a b).IsKnown (if a.toInt > b.toInt then 1 else 0)
  /-- At most in the signed order is 1 or 0. -/
  le : (eval .le a b).IsKnown (if a.toInt ≤ b.toInt then 1 else 0)
  /-- At least in the signed order is 1 or 0. -/
  ge : (eval .ge a b).IsKnown (if a.toInt ≥ b.toInt then 1 else 0)
  /-- A shift to the left multiplies by a power of two. -/
  shl : (eval .shl a b).IsKnown (wrap (a.toInt * 2 ^ distance b))
  /-- A shift to the right that keeps the sign divides by a power of two and rounds down. -/
  shr : (eval .shr a b).IsKnown (a.toInt.fdiv (2 ^ distance b))
  /-- A shift to the right without the sign divides the word read without a sign. -/
  ushr : (eval .ushr a b).IsKnown (wrap ((a.toInt % 2 ^ 32).fdiv (2 ^ distance b)))
  /-- Conjunction works on each bit. -/
  and : ∃ n, (eval .and a b).IsKnown n ∧
    ∀ k < 32, n.testBit k = (a.toInt.testBit k && b.toInt.testBit k)
  /-- Disjunction works on each bit. -/
  or : ∃ n, (eval .or a b).IsKnown n ∧
    ∀ k < 32, n.testBit k = (a.toInt.testBit k || b.toInt.testBit k)
  /-- Exclusive disjunction works on each bit. -/
  xor : ∃ n, (eval .xor a b).IsKnown n ∧
    ∀ k < 32, n.testBit k = (a.toInt.testBit k ^^ b.toInt.testBit k)

/-! ## Reduction to the signed range -/

/-- A reduced integer is the one in the signed range that differs by a multiple of `2 ^ 32`. -/
theorem wrap_eq_iff {n m : Int} : wrap n = m ↔ -2 ^ 31 ≤ m ∧ m < 2 ^ 31 ∧ (2 ^ 32 : Int) ∣ n - m := by
  unfold wrap
  omega

/-- A word that is made from an integer stands for the reduced integer. -/
theorem toInt_ofInt_eq_wrap (n : Int) : (Int32.ofInt n).toInt = wrap n := by
  refine (wrap_eq_iff.2 ⟨Int32.le_toInt _, Int32.toInt_lt _, ?_⟩).symm
  rw [Int32.toInt_ofInt]
  exact Int.dvd_self_sub_bmod

/-- What stands for a word needs no reduction. -/
theorem wrap_toInt (a : Int32) : wrap a.toInt = a.toInt :=
  wrap_eq_iff.2 ⟨a.le_toInt, a.toInt_lt, by simp⟩

/-- A factor may be reduced before the result is. -/
theorem wrap_wrap_mul_add (n m r : Int) : wrap (wrap n * m + r) = wrap (n * m + r) := by
  obtain ⟨-, -, hn⟩ := wrap_eq_iff.1 (rfl : wrap n = wrap n)
  obtain ⟨hlow, hhigh, hwrap⟩ := wrap_eq_iff.1 (rfl : wrap (n * m + r) = wrap (n * m + r))
  refine wrap_eq_iff.2 ⟨hlow, hhigh, ?_⟩
  have hsplit : wrap n * m + r - wrap (n * m + r) =
      n * m + r - wrap (n * m + r) - (n - wrap n) * m := by ring
  rw [hsplit]
  exact Int.dvd_sub hwrap (hn.mul_right m)

/-! ## Quotients and bits -/

/-- A remainder is smaller than the divisor. -/
theorem abs_tmod_lt (a : Int) {b : Int} (hb : b ≠ 0) : |a.tmod b| < |b| := by
  rw [Int.abs_eq_natAbs, Int.abs_eq_natAbs, Int.natAbs_tmod]
  exact_mod_cast Nat.mod_lt _ (Int.natAbs_pos.2 hb)

/-- A remainder is zero or has the sign of the dividend. -/
theorem tmod_eq_zero_or_sign (a b : Int) : a.tmod b = 0 ∨ (a.tmod b).sign = a.sign := by
  rw [Int.sign_tmod]
  by_cases hdvd : b ∣ a
  · exact .inl (Int.tmod_eq_zero_of_dvd hdvd)
  · exact .inr (if_neg hdvd)

/-- Dividing by a power of two rounds down. -/
theorem fdiv_two_pow (n : Int) (k : Nat) : n.fdiv (2 ^ k) = n / 2 ^ k :=
  Int.fdiv_eq_ediv_of_nonneg n (Int.pow_nonneg (by decide))

/-- The bits of the integer that a word stands for are those of the word. -/
theorem testBit_toInt (a : Int32) {k : Nat} (hk : k < 32) :
    a.toInt.testBit k = a.toBitVec.getLsbD k := by
  rcases toInt_eq_or a with h | h
  · rw [h, ← BitVec.testBit_toNat]
    rfl
  · -- a negative integer is the complement of a natural number
    have hlt := a.toBitVec.isLt
    have hneg : a.toInt = Int.negSucc (2 ^ 32 - (a.toBitVec.toNat + 1)) := by omega
    rw [hneg, ← BitVec.testBit_toNat]
    change (!(2 ^ 32 - (a.toBitVec.toNat + 1)).testBit k) = _
    rw [Nat.testBit_two_pow_sub_succ hlt, decide_eq_true hk, Bool.true_and, Bool.not_not]

/-! ## Folding -/

/-- A machine has no result just for a quotient or remainder by zero. -/
theorem result?_eq_none_iff {op : BinaryOp} {a b : Int32} :
    op.result? a b = none ↔ op.isDivision = true ∧ b = 0 := by
  cases op <;> simp [BinaryOp.result?, BinaryOp.isDivision, eq_zero_iff_toInt]

theorem exists_result? {op : BinaryOp} {a b : Int32} (h : ¬ (op.isDivision = true ∧ b = 0)) :
    ∃ c, op.result? a b = some c :=
  Option.ne_none_iff_exists'.1 fun hnone => h (result?_eq_none_iff.1 hnone)

/-- What a machine computes is known after folding. -/
theorem isKnown_fold {op : BinaryOp} {a b c : Int32} (h : op.result? a b = some c) :
    (fold op a b).IsKnown c.toInt :=
  ⟨c, by rw [fold_eq, h, Value.ofResult], rfl⟩

/-- The integer that a machine computes is known after folding, reduced to the signed range. -/
theorem isKnown_fold_wrap {op : BinaryOp} {a b : Int32} {n : Int}
    (h : op.result? a b = some (.ofInt n)) : (fold op a b).IsKnown (wrap n) :=
  toInt_ofInt_eq_wrap n ▸ isKnown_fold h

/-- A truth value is 1 or 0. -/
theorem toInt_truth (c : Prop) [Decidable c] : (truth c).toInt = if c then 1 else 0 := by
  unfold truth
  by_cases hc : c <;> simp [hc]

theorem isKnown_fold_truth {op : BinaryOp} {a b : Int32} {c : Prop} [Decidable c]
    (h : op.result? a b = some (truth c)) : (fold op a b).IsKnown (if c then 1 else 0) :=
  toInt_truth c ▸ isKnown_fold h

/-- Folding with the operations of a machine, which fail where it has no result. -/
def Strict.fold? (op : BinaryOp) (a b : Int32) : Option Value :=
  if op.isDivision = true ∧ b = 0 then some .undefined
  else do return .constant (← op.result? a b)

/-- Folding never asks a machine for what it has no result for. -/
theorem Strict.fold?_eq_some (op : BinaryOp) (a b : Int32) : fold? op a b = some (fold op a b) := by
  unfold fold?
  rw [fold_eq]
  split
  · rename_i hzero
    rw [result?_eq_none_iff.2 hzero]
    rfl
  · rename_i hzero
    obtain ⟨c, hc⟩ := exists_result? hzero
    rw [hc]
    rfl

/-- Folding is undefined for a quotient or remainder by zero, and known and in range otherwise. -/
theorem inRange_fold (op : BinaryOp) (a b : Int32) :
    if op.isDivision = true ∧ b = 0 then fold op a b = .undefined
    else ∃ n, (fold op a b).IsKnown n ∧ -2 ^ 31 ≤ n ∧ n < 2 ^ 31 := by
  split
  · rename_i hzero
    rw [fold_eq, result?_eq_none_iff.2 hzero]
    rfl
  · rename_i hzero
    obtain ⟨c, hc⟩ := exists_result? hzero
    exact ⟨c.toInt, isKnown_fold hc, c.le_toInt, c.toInt_lt⟩

/-- Quotient and remainder give the dividend back. -/
theorem division_fold (a b : Int32) (hb : b ≠ 0) :
    ∃ q r, (fold .div a b).IsKnown q ∧ (fold .rem a b).IsKnown r ∧ q = wrap (a.toInt.tdiv b.toInt) ∧
      a.toInt = wrap (q * b.toInt + r) ∧ |r| < |b.toInt| ∧ (r = 0 ∨ r.sign = a.toInt.sign) := by
  have hne : b.toInt ≠ 0 := fun h => hb (eq_zero_iff_toInt.2 h)
  have hrem : (Int32.ofInt (a.toInt.tmod b.toInt)).toInt = a.toInt.tmod b.toInt := by
    rw [← mod_eq_ofInt, Int32.toInt_mod]
  refine ⟨wrap (a.toInt.tdiv b.toInt), a.toInt.tmod b.toInt, isKnown_fold_wrap (if_neg hne),
    hrem ▸ isKnown_fold (if_neg hne), rfl, ?_, abs_tmod_lt a.toInt hne, tmod_eq_zero_or_sign _ _⟩
  rw [wrap_wrap_mul_add, Int.tdiv_mul_add_tmod, wrap_toInt]

/-- A shift to the right that keeps the sign stays in range. -/
theorem shr_fold (a b : Int32) : (fold .shr a b).IsKnown (a.toInt.fdiv (2 ^ distance b)) := by
  rw [fdiv_two_pow, ← toInt_shiftRight]
  exact ⟨a >>> b, rfl, rfl⟩

/-- A bitwise operator on words works on the bits of the integers for which they stand. -/
theorem bitwise_fold {op : BinaryOp} {a b c : Int32} {f : Bool → Bool → Bool}
    (hc : op.result? a b = some c)
    (hbits : ∀ k, c.toBitVec.getLsbD k = f (a.toBitVec.getLsbD k) (b.toBitVec.getLsbD k)) :
    ∃ n, (fold op a b).IsKnown n ∧
      ∀ k < 32, n.testBit k = f (a.toInt.testBit k) (b.toInt.testBit k) := by
  refine ⟨c.toInt, isKnown_fold hc, fun k hk => ?_⟩
  rw [testBit_toInt c hk, testBit_toInt a hk, testBit_toInt b hk, hbits]

/-- On all operands folding follows 32-bit two's-complement arithmetic, and it has an answer
although a machine has none for a quotient or remainder by zero. -/
theorem fold_twosComplement (a b : Int32) :
    TwosComplement fold a b ∧ ∀ op, Strict.fold? op a b = some (fold op a b) := by
  refine ⟨?_, fun op => Strict.fold?_eq_some op a b⟩
  exact {
    inRange := fun op => inRange_fold op a b
    add := isKnown_fold_wrap rfl
    sub := isKnown_fold_wrap rfl
    mul := isKnown_fold_wrap rfl
    division := division_fold a b
    eq := isKnown_fold_truth rfl
    ne := isKnown_fold_truth rfl
    lt := isKnown_fold_truth rfl
    gt := isKnown_fold_truth rfl
    le := isKnown_fold_truth rfl
    ge := isKnown_fold_truth rfl
    shl := isKnown_fold_wrap rfl
    shr := shr_fold a b
    ushr := fdiv_two_pow (a.toInt % 2 ^ 32) (distance b) ▸ isKnown_fold_wrap rfl
    and := bitwise_fold rfl fun _ => BitVec.getLsbD_and
    or := bitwise_fold rfl fun _ => BitVec.getLsbD_or
    xor := bitwise_fold rfl fun _ => BitVec.getLsbD_xor }

/-- The quotient that overflows is the smallest word again, with remainder zero. -/
example : fold .div (-2147483648) (-1) = .constant (-2147483648) ∧
    fold .rem (-2147483648) (-1) = .constant 0 := by decide

end TacAnalysis
