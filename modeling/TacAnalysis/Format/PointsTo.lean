import TacAnalysis.Format.Flow
import TacAnalysis.PointsTo.Solver

/-!
# Points-to results as JSON

The written form of pointers, abstract objects and results. A result lists only those
pointers that point to something.
-/

namespace TacAnalysis

open Json (Decoder)

namespace Pointer

/-- The JSON form of a pointer. -/
def toJson : Pointer → Json
  | var v => .tagged "var" (.nat v)
  | staticField f => .tagged "static_field" (.nat f)
  | instanceField o f => .tagged "instance_field" (.nats [o, f])
  | arrayIndex o => .tagged "array_index" (.nat o)

/-- Reads a pointer. -/
def decode : Decoder Pointer := .choice (fun _ => none) fun name room j =>
  match name with
  | "var" => (Decoder.nat room j).map var
  | "static_field" => (Decoder.nat room j).map staticField
  | "instance_field" => (Decoder.pair .nat .nat room j).map fun e => instanceField e.1 e.2
  | "array_index" => (Decoder.nat room j).map arrayIndex
  | _ => none

end Pointer

/-- The JSON form of an abstract object. -/
def Obj.toJson (o : Obj) : Json :=
  .record [("id", .nat o.id), ("site", o.site.toJson), ("ty", o.ty.toJson)]

/-- Reads an abstract object. -/
def Obj.decode : Decoder Obj := .record ["id", "site", "ty"] fun room fields =>
  match fields with
  | [id, site, ty] => do
    return ⟨← Decoder.nat.field room id, ← Site.decode.field room site, ← Ty.decode.field room ty⟩
  | _ => none

/-- The JSON form of a pointer with what it points to. -/
def PointerNode.toJson (n : PointerNode) : Json :=
  .record [("pointer", n.pointer.toJson), ("objects", .nats n.objects.toList)]

/-- The JSON form of what a pointer analysis has found. -/
def PointsToResult.toJson (r : PointsToResult) : Json :=
  .record [("objects", .ofList Obj.toJson r.objects),
    ("points_to", .ofList PointerNode.toJson (r.graph.nodes.filter (!·.objects.isEmpty))),
    ("call_graph", r.calls.toJson)]

end TacAnalysis
