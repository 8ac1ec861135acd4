import TacAnalysis.Json.Decode
import TacAnalysis.Program.Basic

/-!
# Programs as JSON

The written form of types, expressions, statements and declarations. Names of choices
are lower-case words joined by underscores.
-/

namespace TacAnalysis

open Json (Decoder)

/-- The element of a list that has the given name. -/
def Json.named? {α : Type} (all : List α) (name : α → String) (s : String) : Option α :=
  all.find? fun a => name a = s

/-- The types without parts, by name. -/
def Ty.plain : List (String × Ty) :=
  [("boolean", .boolean), ("byte", .byte), ("short", .short), ("char", .char), ("int", .int),
    ("long", .long), ("float", .float), ("double", .double), ("void", .void), ("null", .null)]

/-- The type without parts that has the given name. -/
def Ty.ofName? (s : String) : Option Ty := (Ty.plain.find? (·.1 = s)).map (·.2)

/-- The JSON form of a type. -/
def Ty.toJson : Ty → Json
  | .boolean => .text "boolean"
  | .byte => .text "byte"
  | .short => .text "short"
  | .char => .text "char"
  | .int => .text "int"
  | .long => .text "long"
  | .float => .text "float"
  | .double => .text "double"
  | .void => .text "void"
  | .null => .text "null"
  | .object c => .tagged "class" (.nat c)
  | .array element => .tagged "array" element.toJson

/-- Reads a type. -/
def Ty.decode : Decoder Ty
  | 0, j => Decoder.name Ty.ofName? 0 j
  | room + 1, j =>
    Decoder.choice Ty.ofName? (fun name _ j => match name with
      | "class" => (Decoder.nat room j).map .object
      | "array" => (Ty.decode room j).map .array
      | _ => none) (room + 1) j

namespace BinaryOp

/-- All operators. -/
def all : List BinaryOp :=
  [add, sub, mul, div, rem, eq, ne, lt, gt, le, ge, shl, shr, ushr, and, or, xor]

/-- The operator's name. -/
def name : BinaryOp → String
  | add => "add"
  | sub => "sub"
  | mul => "mul"
  | div => "div"
  | rem => "rem"
  | eq => "eq"
  | ne => "ne"
  | lt => "lt"
  | gt => "gt"
  | le => "le"
  | ge => "ge"
  | shl => "shl"
  | shr => "shr"
  | ushr => "ushr"
  | and => "and"
  | or => "or"
  | xor => "xor"

/-- The JSON form of an operator. -/
def toJson (op : BinaryOp) : Json := .text op.name

/-- Reads an operator. -/
def decode : Decoder BinaryOp := .name (Json.named? all name)

end BinaryOp

/-- The JSON form of a binary expression. -/
def BinaryExp.toJson (e : BinaryExp) : Json :=
  .record [("op", e.op.toJson), ("lhs", .nat e.lhs), ("rhs", .nat e.rhs)]

/-- Reads a binary expression. -/
def BinaryExp.decode : Decoder BinaryExp := .record ["op", "lhs", "rhs"] fun room fields =>
  match fields with
  | [op, lhs, rhs] => do
    return ⟨← BinaryOp.decode.field room op, ← Decoder.nat.field room lhs,
      ← Decoder.nat.field room rhs⟩
  | _ => none

namespace Exp

/-- The JSON form of an expression. -/
def toJson : Exp → Json
  | var source => .tagged "var" (.nat source)
  | intLiteral value => .tagged "int_literal" (.int value.toInt)
  | nullLiteral => .text "null_literal"
  | stringLiteral value => .tagged "string_literal" (.text value)
  | binary exp => .tagged "binary" exp.toJson
  | new ty => .tagged "new" ty.toJson
  | cast ty operand => .tagged "cast" (.record [("ty", ty.toJson), ("operand", .nat operand)])
  | instanceField base field =>
    .tagged "instance_field" (.record [("base", .nat base), ("field", .nat field)])
  | staticField field => .tagged "static_field" (.nat field)
  | arrayAccess base index =>
    .tagged "array_access" (.record [("base", .nat base), ("index", .nat index)])
  | arrayLength base => .tagged "array_length" (.nat base)

/-- The expression without parts. -/
def ofName? : String → Option Exp
  | "null_literal" => some nullLiteral
  | _ => none

/-- Reads the payload of an expression. -/
def decodePayload : String → Decoder Exp
  | "var", room, j => (Decoder.nat room j).map var
  | "int_literal", room, j => (Decoder.int32 room j).map intLiteral
  | "string_literal", room, j => (Decoder.text room j).map stringLiteral
  | "binary", room, j => (BinaryExp.decode room j).map binary
  | "new", room, j => (Ty.decode room j).map new
  | "cast", room, j =>
    Decoder.record ["ty", "operand"] (fun room fields => match fields with
      | [ty, operand] => do
        return cast (← Ty.decode.field room ty) (← Decoder.nat.field room operand)
      | _ => none) room j
  | "instance_field", room, j =>
    Decoder.record ["base", "field"] (fun room fields => match fields with
      | [base, field] => do
        return instanceField (← Decoder.nat.field room base) (← Decoder.nat.field room field)
      | _ => none) room j
  | "static_field", room, j => (Decoder.nat room j).map staticField
  | "array_access", room, j =>
    Decoder.record ["base", "index"] (fun room fields => match fields with
      | [base, index] => do
        return arrayAccess (← Decoder.nat.field room base) (← Decoder.nat.field room index)
      | _ => none) room j
  | "array_length", room, j => (Decoder.nat room j).map arrayLength
  | _, _, _ => none

/-- Reads an expression. -/
def decode : Decoder Exp := .choice ofName? decodePayload

end Exp

namespace CallKind

/-- All kinds. -/
def all : List CallKind := [static, special, virtual, interface, dynamic]

/-- The kind's name. -/
def name : CallKind → String
  | static => "static"
  | special => "special"
  | virtual => "virtual"
  | interface => "interface"
  | dynamic => "dynamic"

/-- The JSON form of a kind of call. -/
def toJson (kind : CallKind) : Json := .text kind.name

/-- Reads a kind of call. -/
def decode : Decoder CallKind := .name (Json.named? all name)

end CallKind

/-- The JSON form of a site. -/
def Site.toJson (s : Site) : Json := .record [("method", .nat s.method), ("index", .nat s.index)]

/-- Reads a site. -/
def Site.decode : Decoder Site := .record ["method", "index"] fun room fields =>
  match fields with
  | [method, index] => do
    return ⟨← Decoder.nat.field room method, ← Decoder.nat.field room index⟩
  | _ => none

/-- The JSON form of a method reference. -/
def MethodRef.toJson (r : MethodRef) : Json :=
  .record [("class", .nat r.owner), ("subsignature", .text r.subsignature)]

/-- Reads a method reference. -/
def MethodRef.decode : Decoder MethodRef := .record ["class", "subsignature"] fun room fields =>
  match fields with
  | [owner, subsignature] => do
    return ⟨← Decoder.nat.field room owner, ← Decoder.text.field room subsignature⟩
  | _ => none

/-- The JSON form of a call. -/
def Invoke.toJson (i : Invoke) : Json :=
  .record [("kind", i.kind.toJson), ("method_ref", i.target.toJson),
    ("receiver", .ofOption .nat i.receiver), ("args", .nats i.args),
    ("result", .ofOption .nat i.result)]

/-- Reads a call. -/
def Invoke.decode : Decoder Invoke :=
  .record ["kind", "method_ref", "receiver", "args", "result"] fun room fields =>
    match fields with
    | [kind, target, receiver, args, result] => do
      return {
        kind := ← CallKind.decode.field room kind
        target := ← MethodRef.decode.field room target
        receiver := ← Decoder.nat.optionalField room receiver
        args := ← (Decoder.list .nat).field room args
        result := ← Decoder.nat.optionalField room result }
    | _ => none

namespace Stmt

/-- The JSON form of a statement. -/
def toJson : Stmt → Json
  | nop => .text "nop"
  | assign lhs rhs => .tagged "assign" (.record [("lhs", .nat lhs), ("rhs", rhs.toJson)])
  | storeField base field value =>
    .tagged "store_field"
      (.record [("base", .ofOption .nat base), ("field", .nat field), ("value", .nat value)])
  | storeArray base index value =>
    .tagged "store_array"
      (.record [("base", .nat base), ("index", .nat index), ("value", .nat value)])
  | invoke call => .tagged "invoke" call.toJson
  | branch condition target =>
    .tagged "if" (.record [("condition", condition.toJson), ("target", .nat target)])
  | goto target => .tagged "goto" (.record [("target", .nat target)])
  | switch selector cases default =>
    .tagged "switch"
      (.record [("var", .nat selector),
        ("cases", .ofList (fun c => .array [.int c.1.toInt, .nat c.2]) cases),
        ("default", .nat default)])
  | ret value => .tagged "return" (.record [("value", .ofOption .nat value)])

/-- The statement without parts. -/
def ofName? : String → Option Stmt
  | "nop" => some nop
  | _ => none

/-- Reads the payload of a statement. -/
def decodePayload : String → Decoder Stmt
  | "assign", room, j =>
    Decoder.record ["lhs", "rhs"] (fun room fields => match fields with
      | [lhs, rhs] => do
        return assign (← Decoder.nat.field room lhs) (← Exp.decode.field room rhs)
      | _ => none) room j
  | "store_field", room, j =>
    Decoder.record ["base", "field", "value"] (fun room fields => match fields with
      | [base, field, value] => do
        return storeField (← Decoder.nat.optionalField room base) (← Decoder.nat.field room field)
          (← Decoder.nat.field room value)
      | _ => none) room j
  | "store_array", room, j =>
    Decoder.record ["base", "index", "value"] (fun room fields => match fields with
      | [base, index, value] => do
        return storeArray (← Decoder.nat.field room base) (← Decoder.nat.field room index)
          (← Decoder.nat.field room value)
      | _ => none) room j
  | "invoke", room, j => (Invoke.decode room j).map invoke
  | "if", room, j =>
    Decoder.record ["condition", "target"] (fun room fields => match fields with
      | [condition, target] => do
        return branch (← BinaryExp.decode.field room condition) (← Decoder.nat.field room target)
      | _ => none) room j
  | "goto", room, j =>
    Decoder.record ["target"] (fun room fields => match fields with
      | [target] => do return goto (← Decoder.nat.field room target)
      | _ => none) room j
  | "switch", room, j =>
    Decoder.record ["var", "cases", "default"] (fun room fields => match fields with
      | [selector, cases, default] => do
        return switch (← Decoder.nat.field room selector)
          (← (Decoder.list (.pair .int32 .nat)).field room cases)
          (← Decoder.nat.field room default)
      | _ => none) room j
  | "return", room, j =>
    Decoder.record ["value"] (fun room fields => match fields with
      | [value] => do return ret (← Decoder.nat.optionalField room value)
      | _ => none) room j
  | _, _, _ => none

/-- Reads a statement. -/
def decode : Decoder Stmt := .choice ofName? decodePayload

end Stmt

/-- The JSON form of a variable. -/
def Var.toJson (v : Var) : Json :=
  .record [("id", .nat v.id), ("name", .text v.name), ("ty", v.ty.toJson), ("method", .nat v.method)]

/-- The JSON form of a field. -/
def Field.toJson (f : Field) : Json :=
  .record [("id", .nat f.id), ("name", .text f.name), ("class", .nat f.owner), ("ty", f.ty.toJson),
    ("is_static", .bool f.isStatic)]

/-- The JSON form of a class. -/
def Class.toJson (c : Class) : Json :=
  .record [("id", .nat c.id), ("name", .text c.name), ("superclass", .ofOption .nat c.superclass),
    ("interfaces", .nats c.interfaces), ("is_interface", .bool c.isInterface),
    ("is_abstract", .bool c.isAbstract),
    ("methods", .record (c.methods.map fun e => (e.1, .nat e.2)))]

/-- The JSON form of a method. -/
def Method.toJson (m : Method) : Json :=
  .record [("id", .nat m.id), ("name", .text m.name), ("class", .nat m.owner),
    ("subsignature", .text m.subsignature), ("is_static", .bool m.isStatic),
    ("is_abstract", .bool m.isAbstract), ("params", .nats m.params),
    ("this", .ofOption .nat m.thisVar), ("stmts", .ofList Stmt.toJson m.stmts),
    ("return_vars", .nats m.returnVars)]

/-- Reads a method. -/
def Method.decode : Decoder Method :=
  .record ["id", "name", "class", "subsignature", "is_static", "is_abstract", "params", "this",
      "stmts", "return_vars"] fun room fields =>
    match fields with
    | [id, name, owner, subsignature, isStatic, isAbstract, params, self, stmts, returnVars] => do
      return {
        id := ← Decoder.nat.field room id
        name := ← Decoder.text.field room name
        owner := ← Decoder.nat.field room owner
        subsignature := ← Decoder.text.field room subsignature
        isStatic := ← Decoder.bool.field room isStatic
        isAbstract := ← Decoder.bool.field room isAbstract
        params := ← (Decoder.list .nat).field room params
        thisVar := ← Decoder.nat.optionalField room self
        stmts := ← (Decoder.list Stmt.decode).field room stmts
        returnVars := ← (Decoder.list .nat).field room returnVars }
    | _ => none

/-- The JSON form of the statements that go through a variable. -/
def RelatedStmts.toJson (r : RelatedStmts) : Json :=
  .record [("load_fields", .ofList Site.toJson r.loadFields),
    ("store_fields", .ofList Site.toJson r.storeFields),
    ("load_arrays", .ofList Site.toJson r.loadArrays),
    ("store_arrays", .ofList Site.toJson r.storeArrays),
    ("invokes", .ofList Site.toJson r.invokes)]

end TacAnalysis
