import TacAnalysis.Program.Syntax

/-!
# Abstract integers

What is known about a 32-bit integer variable: no definition has been seen, it has one
known value, or it may have several. Two different known values meet in "not a
constant".

Main statements: `meet_comm`, `meet_assoc` and `meet_self`, the order in which paths are
joined and repetitions among them do not matter.
-/

namespace TacAnalysis

/-- What is known about an integer variable. -/
inductive Value where
  /-- No definition has been seen. -/
  | undefined
  /-- The only value that has been seen. -/
  | constant (c : Int32)
  /-- More than one value is possible. -/
  | nac
  deriving DecidableEq, Inhabited

namespace Value

/-- Whether no definition has been seen. -/
def isUndefined : Value → Bool
  | undefined => true
  | _ => false

/-- Whether the value is known. -/
def isConstant : Value → Bool
  | constant _ => true
  | _ => false

/-- Whether more than one value is possible. -/
def isNac : Value → Bool
  | nac => true
  | _ => false

/-- The known value. -/
def asConstant? : Value → Option Int32
  | constant c => some c
  | _ => none

/-- What is known where two paths meet. -/
def meet : Value → Value → Value
  | nac, _ => nac
  | _, nac => nac
  | undefined, v => v
  | v, undefined => v
  | constant a, constant b => if a = b then constant a else nac

@[simp] theorem undefined_meet (v : Value) : undefined.meet v = v := by cases v <;> rfl

@[simp] theorem meet_undefined (v : Value) : v.meet undefined = v := by cases v <;> rfl

@[simp] theorem nac_meet (v : Value) : nac.meet v = nac := by cases v <;> rfl

@[simp] theorem meet_nac (v : Value) : v.meet nac = nac := by cases v <;> rfl

@[simp] theorem meet_self (v : Value) : v.meet v = v := by cases v <;> simp [meet]

/-- Known values meet in themselves if they agree. -/
theorem constant_meet_constant (a b : Int32) :
    (constant a).meet (constant b) = if a = b then constant a else nac := rfl

theorem meet_comm (v w : Value) : v.meet w = w.meet v := by
  cases v <;> cases w <;> simp [constant_meet_constant]
  split <;> split <;> simp_all

theorem meet_assoc : ∀ u v w : Value, (u.meet v).meet w = u.meet (v.meet w)
  | undefined, _, _ => by simp
  | nac, _, _ => by simp
  | constant _, undefined, _ => by simp
  | constant _, nac, _ => by simp
  | constant _, constant _, undefined => by simp
  | constant _, constant _, nac => by simp
  | constant a, constant b, constant c => by
    by_cases hab : a = b
    · subst hab
      simp only [constant_meet_constant, ↓reduceIte]
      split <;> simp [*]
    · by_cases hbc : b = c
      · subst hbc
        simp [constant_meet_constant, hab]
      · simp [constant_meet_constant, hab, hbc]

/-- The text of a value. -/
def text : Value → String
  | undefined => "UNDEF"
  | constant c => toString c.toInt
  | nac => "NAC"

end Value

/-- The integer that a comparison gives. -/
def truth (b : Bool) : Int32 := if b then 1 else 0

/-- The right shift that fills with zeros. -/
def unsignedShiftRight (a b : Int32) : Int32 := (a.toUInt32 >>> b.toUInt32).toInt32

/-- A binary operator on known operands, in 32-bit two's complement: results wrap, shift
distances count modulo 32, quotients are truncated. Division by zero has no result. -/
def fold (op : BinaryOp) (a b : Int32) : Value :=
  match op with
  | .add => .constant (a + b)
  | .sub => .constant (a - b)
  | .mul => .constant (a * b)
  | .div => if b = 0 then .undefined else .constant (a / b)
  | .rem => if b = 0 then .undefined else .constant (a % b)
  | .eq => .constant (truth (a = b))
  | .ne => .constant (truth (a ≠ b))
  | .lt => .constant (truth (a < b))
  | .gt => .constant (truth (b < a))
  | .le => .constant (truth (a ≤ b))
  | .ge => .constant (truth (b ≤ a))
  | .shl => .constant (a <<< b)
  | .shr => .constant (a >>> b)
  | .ushr => .constant (unsignedShiftRight a b)
  | .and => .constant (a &&& b)
  | .or => .constant (a ||| b)
  | .xor => .constant (a ^^^ b)

/-- A binary operator on abstract operands. Dividing a value that is not constant by a
known zero gives no value; otherwise an operand that is not constant makes the result
not constant, and an undefined operand makes it undefined. -/
def foldValues (op : BinaryOp) (a b : Value) : Value :=
  match a, b with
  | .nac, .constant c => if c = 0 ∧ op.isDivision then .undefined else .nac
  | .nac, _ => .nac
  | _, .nac => .nac
  | .constant c, .constant d => fold op c d
  | _, _ => .undefined

end TacAnalysis
