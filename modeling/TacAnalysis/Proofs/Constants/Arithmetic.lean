import Mathlib.Algebra.Ring.Int.Defs
import TacAnalysis.Constants.Value

/-!
# 32-bit arithmetic

What a machine computes for two 32-bit operands, said by the integers that they stand for:
the mathematical result, wrapped to 32 bits. Shift distances count modulo 32, a right shift
rounds down, with or without the sign, and a quotient by zero has no result. Folding known
operands gives just this.

Main statement: `fold_eq`.
-/

namespace TacAnalysis

/-- How far a shift by `b` goes. -/
def distance (b : Int32) : Nat := (b.toInt % 32).toNat

/-- The result of an operator on 32-bit integers, if it has one. -/
def BinaryOp.result? (op : BinaryOp) (a b : Int32) : Option Int32 :=
  match op with
  | .add => some (.ofInt (a.toInt + b.toInt))
  | .sub => some (.ofInt (a.toInt - b.toInt))
  | .mul => some (.ofInt (a.toInt * b.toInt))
  | .div => if b.toInt = 0 then none else some (.ofInt (a.toInt.tdiv b.toInt))
  | .rem => if b.toInt = 0 then none else some (.ofInt (a.toInt.tmod b.toInt))
  | .eq => some (truth (a.toInt = b.toInt))
  | .ne => some (truth (a.toInt ≠ b.toInt))
  | .lt => some (truth (a.toInt < b.toInt))
  | .gt => some (truth (a.toInt > b.toInt))
  | .le => some (truth (a.toInt ≤ b.toInt))
  | .ge => some (truth (a.toInt ≥ b.toInt))
  | .shl => some (.ofInt (a.toInt * 2 ^ distance b))
  | .shr => some (.ofInt (a.toInt / 2 ^ distance b))
  | .ushr => some (.ofInt (a.toInt % 2 ^ 32 / 2 ^ distance b))
  | .and => some (a &&& b)
  | .or => some (a ||| b)
  | .xor => some (a ^^^ b)

/-- The integer of a 32-bit word is its bits read without a sign, less `2 ^ 32` if it is
negative. -/
theorem toInt_eq_or (a : Int32) :
    a.toInt = a.toBitVec.toNat ∨ a.toInt = a.toBitVec.toNat - 2 ^ 32 := by
  have hvalue : a.toInt = _ := BitVec.toInt_eq_toNat_cond a.toBitVec
  split at hvalue
  · exact .inl hvalue
  · exact .inr hvalue

/-- Signed shifts count their distance modulo 32. -/
theorem toNat_smod_eq_distance (b : Int32) : (b.toBitVec.smod 32).toNat = distance b := by
  have hmod : (b.toBitVec.smod 32).toInt = b.toInt % 32 := by
    rw [BitVec.toInt_smod]
    exact Int.fmod_eq_emod_of_nonneg _ (by decide)
  unfold distance
  have hvalue := BitVec.toInt_eq_toNat_cond (b.toBitVec.smod 32)
  have hlt := (b.toBitVec.smod 32).isLt
  split at hvalue <;> omega

/-- Unsigned shifts count their distance modulo 32. -/
theorem toNat_mod_eq_distance (b : Int32) : (b.toBitVec % 32).toNat = distance b := by
  have hmod : (b.toBitVec % 32).toNat = b.toBitVec.toNat % 32 := BitVec.toNat_umod
  rw [hmod]
  unfold distance
  rcases toInt_eq_or b with h | h <;> omega

theorem div_eq_ofInt (a b : Int32) : a / b = .ofInt (a.toInt.tdiv b.toInt) := by
  apply Int32.toInt_inj.1
  rw [Int32.toInt_div, Int32.toInt_ofInt]

theorem mod_eq_ofInt (a b : Int32) : a % b = .ofInt (a.toInt.tmod b.toInt) := by
  rw [← Int32.toInt_mod, Int32.ofInt_toInt]

/-- A shift to the left multiplies. -/
theorem shiftLeft_eq_ofInt (a b : Int32) : a <<< b = .ofInt (a.toInt * 2 ^ distance b) := by
  apply Int32.toInt_inj.1
  rw [Int32.toInt_ofInt]
  change (a.toBitVec <<< (b.toBitVec.smod 32)).toInt = (a.toBitVec.toInt * 2 ^ distance b).bmod _
  rw [BitVec.shiftLeft_eq', toNat_smod_eq_distance, BitVec.toInt_shiftLeft, Nat.shiftLeft_eq,
    BitVec.toInt_eq_toNat_bmod, Int.natCast_mul]
  exact Int.bmod_mul_bmod.symm

/-- A shift to the right that keeps the sign divides and rounds down. -/
theorem toInt_shiftRight (a b : Int32) : (a >>> b).toInt = a.toInt / 2 ^ distance b := by
  change (BitVec.sshiftRight' a.toBitVec (b.toBitVec.smod 32)).toInt = _
  rw [BitVec.toInt_sshiftRight', toNat_smod_eq_distance, Int.shiftRight_eq_div_pow]
  rfl

theorem shiftRight_eq_ofInt (a b : Int32) : a >>> b = .ofInt (a.toInt / 2 ^ distance b) := by
  rw [← toInt_shiftRight, Int32.ofInt_toInt]

/-- A shift to the right without the sign divides the word without a sign. -/
theorem unsignedShiftRight_eq_ofInt (a b : Int32) :
    unsignedShiftRight a b = .ofInt (a.toInt % 2 ^ 32 / 2 ^ distance b) := by
  have hlt := a.toBitVec.isLt
  have hbits : a.toInt % 2 ^ 32 = a.toBitVec.toNat := by
    rcases toInt_eq_or a with h | h <;> omega
  have hquotient : a.toBitVec.toNat / 2 ^ distance b < 2 ^ 32 :=
    Nat.lt_of_le_of_lt (Nat.div_le_self _ _) hlt
  have hcast : a.toInt % 2 ^ 32 / 2 ^ distance b =
      ((a.toBitVec.toNat / 2 ^ distance b : Nat) : Int) := by
    rw [hbits, Int.natCast_ediv, Int.natCast_pow]
    rfl
  apply Int32.toBitVec_inj.1
  apply BitVec.eq_of_toNat_eq
  change (a.toBitVec >>> (b.toBitVec % 32)).toNat = (BitVec.ofInt 32 _).toNat
  rw [BitVec.ushiftRight_eq', BitVec.toNat_ushiftRight, toNat_mod_eq_distance, hcast,
    Nat.shiftRight_eq_div_pow, BitVec.ofInt_natCast, BitVec.toNat_ofNat, Nat.mod_eq_of_lt hquotient]

theorem eq_zero_iff_toInt {b : Int32} : b = 0 ↔ b.toInt = 0 := by
  rw [← Int32.toInt_inj]
  rfl

/-- What is known about a variable that holds the result of an operator. -/
def Value.ofResult : Option Int32 → Value
  | some c => .constant c
  | none => .undefined

/-- Folding known operands gives what a machine computes. -/
theorem fold_eq (op : BinaryOp) (a b : Int32) : fold op a b = .ofResult (op.result? a b) := by
  cases op with
  | add => simp only [fold, BinaryOp.result?, Value.ofResult, Int32.ofInt_add, Int32.ofInt_toInt]
  | sub => simp only [fold, BinaryOp.result?, Value.ofResult, Int32.ofInt_sub, Int32.ofInt_toInt]
  | mul => simp only [fold, BinaryOp.result?, Value.ofResult, Int32.ofInt_mul, Int32.ofInt_toInt]
  | div =>
    simp only [fold, BinaryOp.result?, div_eq_ofInt, eq_zero_iff_toInt]
    split <;> rfl
  | rem =>
    simp only [fold, BinaryOp.result?, mod_eq_ofInt, eq_zero_iff_toInt]
    split <;> rfl
  | shl => simp only [fold, BinaryOp.result?, Value.ofResult, shiftLeft_eq_ofInt]
  | shr => simp only [fold, BinaryOp.result?, Value.ofResult, shiftRight_eq_ofInt]
  | ushr => simp only [fold, BinaryOp.result?, Value.ofResult, unsignedShiftRight_eq_ofInt]
  | and | or | xor => rfl
  | eq | ne =>
    simp only [fold, BinaryOp.result?, Value.ofResult, Int32.toInt_inj, ne_eq]
  | lt | gt =>
    simp only [fold, BinaryOp.result?, Value.ofResult, Int32.lt_iff_toInt_lt, gt_iff_lt]
  | le | ge =>
    simp only [fold, BinaryOp.result?, Value.ofResult, Int32.le_iff_toInt_le, ge_iff_le]

end TacAnalysis
