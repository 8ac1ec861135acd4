import TacAnalysis.Format.Program
import TacAnalysis.Proofs.Json.Reads

/-!
# Reading programs back

Types, expressions, statements and methods are read back as they were written, if their numbers
are in range. The constructors are told apart by their names, and the fields of each by theirs.

Main statements: `Ty.reads`, `Exp.reads`, `Stmt.reads` and `Method.reads`.
-/

namespace TacAnalysis

open Json

/-- All numbers of classes, methods, variables and so on are in range. -/
def InRange (numbers : List Nat) : Prop := ∀ n ∈ numbers, n < idBound

section InRange

variable {n : Nat} {ns ms : List Nat} {o : Option Nat}

@[simp] theorem inRange_nil : InRange [] := by simp [InRange]

@[simp] theorem inRange_cons : InRange (n :: ns) ↔ n < idBound ∧ InRange ns := List.forall_mem_cons

@[simp] theorem inRange_append : InRange (ns ++ ms) ↔ InRange ns ∧ InRange ms :=
  List.forall_mem_append

@[simp] theorem inRange_toList : InRange o.toList ↔ ∀ n ∈ o, n < idBound := by
  cases o <;> simp [InRange]

end InRange

/-! ## Types -/

/-- The numbers in a type. -/
def Ty.numbers : Ty → List Nat
  | .object c => [c]
  | .array element => element.numbers
  | _ => []

/-- A type without parts is read from its name. -/
theorem Ty.reads_name {name : String} {ty : Ty} (h : Ty.ofName? name = some ty) :
    Reads Ty.decode (.text name) ty where
  plain := .text name
  decode_eq room _ := by
    cases room with
    | zero =>
      have hname : Reads (Decoder.name Ty.ofName?) (.text name) ty := .plainChoice h
      exact hname.decode_eq 0 rfl
    | succ room => exact (Reads.plainChoice h).decode_eq (room + 1) rfl

/-- Types are read back. -/
theorem Ty.reads {ty : Ty} (h : InRange ty.numbers) : Reads Ty.decode ty.toJson ty := by
  induction ty with
  | object c =>
    have hc := reads_nat (inRange_cons.1 h).1
    refine ⟨hc.plain.tagged "class", fun room hroom => ?_⟩
    cases room with
    | zero => cases hroom
    | succ room =>
      rw [Ty.toJson, Ty.decode, choice_tagged rfl]
      exact (hc.map Ty.object).decode_eq room (nestsWithin_tagged ▸ hroom)
  | array element ih =>
    have helement := ih h
    refine ⟨helement.plain.tagged "array", fun room hroom => ?_⟩
    cases room with
    | zero => cases hroom
    | succ room =>
      rw [Ty.toJson, Ty.decode, choice_tagged rfl]
      exact (helement.map Ty.array).decode_eq room (nestsWithin_tagged ▸ hroom)
  | _ => exact Ty.reads_name rfl

/-! ## Expressions -/

/-- Operators are read back. -/
theorem BinaryOp.reads (op : BinaryOp) : Reads BinaryOp.decode op.toJson op := by
  cases op <;> exact .plainChoice rfl

/-- The numbers in a binary expression. -/
def BinaryExp.numbers (e : BinaryExp) : List Nat := [e.lhs, e.rhs]

/-- Binary expressions are read back. -/
theorem BinaryExp.reads {e : BinaryExp} (h : InRange e.numbers) :
    Reads BinaryExp.decode e.toJson e := by
  simp only [numbers, inRange_cons] at h
  have hop := e.op.reads
  have hlhs := reads_nat h.1
  have hrhs := reads_nat h.2.1
  refine .record rfl (by decide) ⟨hop.plain, hlhs.plain, hrhs.plain⟩ fun room hroom => ?_
  obtain ⟨h₁, h₂, h₃⟩ := hroom
  simp [hop.field h₁, hlhs.field h₂, hrhs.field h₃]

/-- The numbers in an expression. -/
def Exp.numbers : Exp → List Nat
  | var source => [source]
  | binary exp => exp.numbers
  | new ty => ty.numbers
  | cast ty operand => operand :: ty.numbers
  | instanceField base field => [base, field]
  | staticField field => [field]
  | arrayAccess base index => [base, index]
  | arrayLength base => [base]
  | _ => []

/-- Expressions are read back. -/
theorem Exp.reads {e : Exp} (h : InRange e.numbers) : Reads Exp.decode e.toJson e := by
  cases e with
  | var source => exact .taggedChoice rfl ((reads_nat (inRange_cons.1 h).1).map var)
  | intLiteral value => exact .taggedChoice rfl ((reads_int32 value).map intLiteral)
  | nullLiteral => exact .plainChoice rfl
  | stringLiteral value => exact .taggedChoice rfl ((reads_text value).map stringLiteral)
  | binary exp => exact .taggedChoice rfl ((BinaryExp.reads h).map binary)
  | new ty => exact .taggedChoice rfl ((Ty.reads h).map new)
  | cast ty operand =>
    have hty := Ty.reads (inRange_cons.1 h).2
    have hoperand := reads_nat (inRange_cons.1 h).1
    refine .taggedChoice rfl (.record rfl (by decide) ⟨hty.plain, hoperand.plain⟩
      fun room hroom => ?_)
    obtain ⟨h₁, h₂⟩ := hroom
    simp [hty.field h₁, hoperand.field h₂]
  | instanceField base field =>
    simp only [numbers, inRange_cons] at h
    have hbase := reads_nat h.1
    have hfield := reads_nat h.2.1
    refine .taggedChoice rfl (.record rfl (by decide) ⟨hbase.plain, hfield.plain⟩
      fun room hroom => ?_)
    obtain ⟨h₁, h₂⟩ := hroom
    simp [hbase.field h₁, hfield.field h₂]
  | staticField field => exact .taggedChoice rfl ((reads_nat (inRange_cons.1 h).1).map staticField)
  | arrayAccess base index =>
    simp only [numbers, inRange_cons] at h
    have hbase := reads_nat h.1
    have hindex := reads_nat h.2.1
    refine .taggedChoice rfl (.record rfl (by decide) ⟨hbase.plain, hindex.plain⟩
      fun room hroom => ?_)
    obtain ⟨h₁, h₂⟩ := hroom
    simp [hbase.field h₁, hindex.field h₂]
  | arrayLength base => exact .taggedChoice rfl ((reads_nat (inRange_cons.1 h).1).map arrayLength)

/-! ## Calls -/

/-- Kinds of calls are read back. -/
theorem CallKind.reads (kind : CallKind) : Reads CallKind.decode kind.toJson kind := by
  cases kind <;> exact .plainChoice rfl

/-- The numbers of a site. -/
def Site.numbers (s : Site) : List Nat := [s.method, s.index]

/-- Sites are read back. -/
theorem Site.reads {s : Site} (h : InRange s.numbers) : Reads Site.decode s.toJson s := by
  simp only [numbers, inRange_cons] at h
  have hmethod := reads_nat h.1
  have hindex := reads_nat h.2.1
  refine .record rfl (by decide) ⟨hmethod.plain, hindex.plain⟩ fun room hroom => ?_
  obtain ⟨h₁, h₂⟩ := hroom
  simp [hmethod.field h₁, hindex.field h₂]

/-- The numbers in a method reference. -/
def MethodRef.numbers (r : MethodRef) : List Nat := [r.owner]

/-- Method references are read back. -/
theorem MethodRef.reads {r : MethodRef} (h : InRange r.numbers) :
    Reads MethodRef.decode r.toJson r := by
  have howner := reads_nat (inRange_cons.1 h).1
  have hsubsignature := reads_text r.subsignature
  refine .record rfl (by decide) ⟨howner.plain, hsubsignature.plain⟩ fun room hroom => ?_
  obtain ⟨h₁, h₂⟩ := hroom
  simp [howner.field h₁, hsubsignature.field h₂]

/-- The numbers in a call. -/
def Invoke.numbers (i : Invoke) : List Nat :=
  i.target.numbers ++ i.receiver.toList ++ i.args ++ i.result.toList

/-- Calls are read back. -/
theorem Invoke.reads {i : Invoke} (h : InRange i.numbers) : Reads Invoke.decode i.toJson i := by
  simp only [numbers, inRange_append, inRange_toList] at h
  obtain ⟨⟨⟨htarget, hreceiver⟩, hargs⟩, hresult⟩ := h
  have hkind := i.kind.reads
  have htarget := MethodRef.reads htarget
  have hreceiver := reads_orNull_nat hreceiver
  have hargs := reads_nats hargs
  have hresult := reads_orNull_nat hresult
  refine .record rfl (by decide)
    ⟨hkind.plain, htarget.plain, hreceiver.plain, hargs.plain, hresult.plain⟩
    fun room hroom => ?_
  obtain ⟨h₁, h₂, h₃, h₄, h₅⟩ := hroom
  simp [hkind.field h₁, htarget.field h₂, hreceiver.optionalField h₃, hargs.field h₄,
    hresult.optionalField h₅]

/-! ## Statements -/

/-- The numbers in a statement. -/
def Stmt.numbers : Stmt → List Nat
  | nop => []
  | assign lhs rhs => lhs :: rhs.numbers
  | storeField base field value => base.toList ++ [field, value]
  | storeArray base index value => [base, index, value]
  | invoke call => call.numbers
  | branch condition target => target :: condition.numbers
  | goto target => [target]
  | switch selector cases default => [selector, default] ++ cases.map (·.2)
  | ret value => value.toList

/-- Statements are read back. -/
theorem Stmt.reads {stmt : Stmt} (h : InRange stmt.numbers) :
    Reads Stmt.decode stmt.toJson stmt := by
  cases stmt with
  | nop => exact .plainChoice rfl
  | assign lhs rhs =>
    have hlhs := reads_nat (inRange_cons.1 h).1
    have hrhs := Exp.reads (inRange_cons.1 h).2
    refine .taggedChoice rfl (.record rfl (by decide) ⟨hlhs.plain, hrhs.plain⟩
      fun room hroom => ?_)
    obtain ⟨h₁, h₂⟩ := hroom
    simp [hlhs.field h₁, hrhs.field h₂]
  | storeField base field value =>
    simp only [numbers, inRange_append, inRange_toList, inRange_cons] at h
    have hbase := reads_orNull_nat h.1
    have hfield := reads_nat h.2.1
    have hvalue := reads_nat h.2.2.1
    refine .taggedChoice rfl (.record rfl (by decide) ⟨hbase.plain, hfield.plain, hvalue.plain⟩
      fun room hroom => ?_)
    obtain ⟨h₁, h₂, h₃⟩ := hroom
    simp [hbase.optionalField h₁, hfield.field h₂, hvalue.field h₃]
  | storeArray base index value =>
    simp only [numbers, inRange_cons] at h
    have hbase := reads_nat h.1
    have hindex := reads_nat h.2.1
    have hvalue := reads_nat h.2.2.1
    refine .taggedChoice rfl (.record rfl (by decide) ⟨hbase.plain, hindex.plain, hvalue.plain⟩
      fun room hroom => ?_)
    obtain ⟨h₁, h₂, h₃⟩ := hroom
    simp [hbase.field h₁, hindex.field h₂, hvalue.field h₃]
  | invoke call => exact .taggedChoice rfl ((Invoke.reads h).map invoke)
  | branch condition target =>
    have htarget := reads_nat (inRange_cons.1 h).1
    have hcondition := BinaryExp.reads (inRange_cons.1 h).2
    refine .taggedChoice rfl (.record rfl (by decide) ⟨hcondition.plain, htarget.plain⟩
      fun room hroom => ?_)
    obtain ⟨h₁, h₂⟩ := hroom
    simp [hcondition.field h₁, htarget.field h₂]
  | goto target =>
    have htarget := reads_nat (inRange_cons.1 h).1
    refine .taggedChoice rfl (.record rfl (by decide) htarget.plain fun room h₁ => ?_)
    simp [htarget.field h₁]
  | switch selector cases default =>
    simp only [numbers, inRange_append, inRange_cons] at h
    have hselector := reads_nat h.1.1
    have hdefault := reads_nat h.1.2.1
    have hcases : Reads (.list (.pair .int32 .nat))
        (.ofList (fun c => .array [.int c.1.toInt, .nat c.2]) cases) cases :=
      .list fun c hc => (reads_int32 c.1).pair (reads_nat (h.2 _ (List.mem_map_of_mem hc)))
    refine .taggedChoice rfl (.record rfl (by decide)
      ⟨hselector.plain, hcases.plain, hdefault.plain⟩ fun room hroom => ?_)
    obtain ⟨h₁, h₂, h₃⟩ := hroom
    simp [hselector.field h₁, hcases.field h₂, hdefault.field h₃]
  | ret value =>
    have hvalue := reads_orNull_nat (inRange_toList.1 h)
    refine .taggedChoice rfl (.record rfl (by decide) hvalue.plain fun room h₁ => ?_)
    simp [hvalue.optionalField h₁]

/-! ## Methods -/

/-- The numbers in a method. -/
def Method.numbers (m : Method) : List Nat :=
  [m.id, m.owner] ++ m.params ++ m.thisVar.toList ++ m.stmts.flatMap Stmt.numbers ++ m.returnVars

/-- Methods are read back. -/
theorem Method.reads {m : Method} (h : InRange m.numbers) : Reads Method.decode m.toJson m := by
  simp only [numbers, inRange_append, inRange_toList, inRange_cons] at h
  obtain ⟨⟨⟨⟨⟨hid, howner, -⟩, hparams⟩, hself⟩, hstmts⟩, hreturnVars⟩ := h
  have hid := reads_nat hid
  have hname := reads_text m.name
  have howner := reads_nat howner
  have hsubsignature := reads_text m.subsignature
  have hstatic := reads_bool m.isStatic
  have habstract := reads_bool m.isAbstract
  have hparams := reads_nats hparams
  have hself := reads_orNull_nat hself
  have hstmts : Reads (.list Stmt.decode) (.ofList Stmt.toJson m.stmts) m.stmts :=
    .list fun stmt hstmt => Stmt.reads fun n hn => hstmts n (List.mem_flatMap.2 ⟨stmt, hstmt, hn⟩)
  have hreturnVars := reads_nats hreturnVars
  refine .record rfl (by decide)
    ⟨hid.plain, hname.plain, howner.plain, hsubsignature.plain, hstatic.plain, habstract.plain,
      hparams.plain, hself.plain, hstmts.plain, hreturnVars.plain⟩
    fun room hroom => ?_
  obtain ⟨h₁, h₂, h₃, h₄, h₅, h₆, h₇, h₈, h₉, h₁₀⟩ := hroom
  simp [hid.field h₁, hname.field h₂, howner.field h₃, hsubsignature.field h₄, hstatic.field h₅,
    habstract.field h₆, hparams.field h₇, hself.optionalField h₈, hstmts.field h₉,
    hreturnVars.field h₁₀]

end TacAnalysis
