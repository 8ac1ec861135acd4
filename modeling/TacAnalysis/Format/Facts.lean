import TacAnalysis.DeadCode
import TacAnalysis.Format.Program
import TacAnalysis.Json.Token

/-!
# Facts as JSON

The written form of abstract values, of facts about constants and of reports on dead
code. The keys of a fact are decimal numbers in quotation marks, written plainly, without
escapes, and they may come in any order. A fact that is read may bind a variable to
"undefined" explicitly.
-/

namespace TacAnalysis

open Json (Decoder)

namespace Value

/-- The JSON form of an abstract value. -/
def toJson : Value → Json
  | undefined => .text "undef"
  | constant c => .tagged "constant" (.int c.toInt)
  | nac => .text "nac"

/-- The abstract values without parts. -/
def ofName? : String → Option Value
  | "undef" => some undefined
  | "nac" => some nac
  | _ => none

/-- Reads an abstract value. -/
def decode : Decoder Value := .choice ofName? fun name room j =>
  match name with
  | "constant" => (Decoder.int32 room j).map constant
  | _ => none

end Value

namespace ConstFact

/-- The JSON form of a fact that binds variables as listed, with its keys in that order. -/
def listToJson (bindings : List (VarId × Value)) : Json :=
  .record [("values", .record (bindings.map fun b => (toString b.1, b.2.toJson)))]

/-- The JSON form of a fact with its keys in ascending order. The bindings of a fact have no order
of their own, and any other order of the keys is as good. -/
def toJson (f : ConstFact) : Json := listToJson f.toList

/-- The variable that a written key names. -/
def keyVar? (written : String) : Option VarId :=
  if Json.isNumber written.toList then Decoder.nat 0 (Json.numberOf written.toList) else none

/-- Reads the bindings of a fact. -/
def decodeValues : Decoder (IdMap Value)
  | room + 1, .object entries => do
    return .ofList (← entries.mapM fun e => do return (← keyVar? e.1, ← Value.decode room e.2))
  | _, _ => none

/-- Reads a fact. -/
def decode : Decoder ConstFact := .record ["values"] fun room fields =>
  match fields with
  | [values] => do return ⟨← Decoder.field decodeValues room values⟩
  | _ => none

end ConstFact

namespace DeadCodeReport

/-- The JSON form of a report. -/
def toJson (r : DeadCodeReport) : Json :=
  .record [("method", .text r.method), ("dead", .nats r.dead), ("unreachable", .nats r.unreachable),
    ("dead_assignments", .nats r.deadAssignments)]

/-- A summary of the report: the same fields, with their keys in ascending order. -/
def summary (r : DeadCodeReport) : Json :=
  .record [("dead", .nats r.dead), ("dead_assignments", .nats r.deadAssignments),
    ("method", .text r.method), ("unreachable", .nats r.unreachable)]

/-- Reads a report. -/
def decode : Decoder DeadCodeReport :=
  .record ["method", "dead", "unreachable", "dead_assignments"] fun room fields =>
    match fields with
    | [method, dead, unreachable, deadAssignments] => do
      return ⟨← Decoder.text.field room method, ← (Decoder.list .nat).field room dead,
        ← (Decoder.list .nat).field room unreachable,
        ← (Decoder.list .nat).field room deadAssignments⟩
    | _ => none

end DeadCodeReport

end TacAnalysis
