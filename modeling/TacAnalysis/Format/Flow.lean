import TacAnalysis.CallGraph.Basic
import TacAnalysis.Format.Program
import TacAnalysis.SuperGraph

/-!
# Graphs as JSON

The written form of calls, of control-flow edges and of the edges between methods.
-/

namespace TacAnalysis

open Json (Decoder)

/-- The JSON form of a call edge. -/
def CallEdge.toJson (e : CallEdge) : Json :=
  .record [("kind", e.kind.toJson), ("call_site", e.site.toJson), ("callee", .nat e.callee)]

/-- Reads a call edge. -/
def CallEdge.decode : Decoder CallEdge :=
  .record ["kind", "call_site", "callee"] fun room fields =>
    match fields with
    | [kind, site, callee] => do
      return ⟨← CallKind.decode.field room kind, ← Site.decode.field room site,
        ← Decoder.nat.field room callee⟩
    | _ => none

/-- The JSON form of a call graph. -/
def CallGraph.toJson (g : CallGraph) : Json :=
  .record [("entry_methods", .nats g.entries), ("reachable", .nats g.reachable),
    ("edges", .ofList CallEdge.toJson g.edges)]

namespace NodeKind

/-- The JSON form of what a node stands for. -/
def toJson : NodeKind → Json
  | entry => .text "entry"
  | stmt index => .tagged "stmt" (.nat index)
  | exit => .text "exit"

/-- The node kinds without parts. -/
def ofName? : String → Option NodeKind
  | "entry" => some entry
  | "exit" => some exit
  | _ => none

/-- Reads what a node stands for. -/
def decode : Decoder NodeKind := .choice ofName? fun name room j =>
  match name with
  | "stmt" => (Decoder.nat room j).map stmt
  | _ => none

end NodeKind

namespace EdgeKind

/-- The JSON form of a kind of edge. -/
def toJson : EdgeKind → Json
  | entry => .text "entry"
  | fallThrough => .text "fall_through"
  | goto => .text "goto"
  | ifTrue => .text "if_true"
  | ifFalse => .text "if_false"
  | switchCase value => .tagged "switch_case" (.int value.toInt)
  | switchDefault => .text "switch_default"
  | ret => .text "return"

/-- The kinds of edges without parts. -/
def ofName? : String → Option EdgeKind
  | "entry" => some entry
  | "fall_through" => some fallThrough
  | "goto" => some goto
  | "if_true" => some ifTrue
  | "if_false" => some ifFalse
  | "switch_default" => some switchDefault
  | "return" => some ret
  | _ => none

/-- Reads a kind of edge. -/
def decode : Decoder EdgeKind := .choice ofName? fun name room j =>
  match name with
  | "switch_case" => (Decoder.int32 room j).map switchCase
  | _ => none

end EdgeKind

/-- The JSON form of a control-flow edge. -/
def FlowEdge.toJson (e : FlowEdge) : Json :=
  .record [("source_id", .nat e.source), ("target_id", .nat e.target), ("type", e.kind.toJson)]

/-- Reads a control-flow edge. -/
def FlowEdge.decode : Decoder FlowEdge :=
  .record ["source_id", "target_id", "type"] fun room fields =>
    match fields with
    | [source, target, kind] => do
      return ⟨← Decoder.nat.field room source, ← Decoder.nat.field room target,
        ← EdgeKind.decode.field room kind⟩
    | _ => none

namespace SuperEdgeKind

/-- The JSON form of a call site with a callee. -/
def linkToJson (site : Site) (callee : MethodId) : Json :=
  .record [("call_site", site.toJson), ("callee", .nat callee)]

/-- The JSON form of why control goes along an edge. -/
def toJson : SuperEdgeKind → Json
  | normal kind => .tagged "normal" kind.toJson
  | callToReturn site => .tagged "call_to_return" (.record [("call_site", site.toJson)])
  | call site callee => .tagged "call" (linkToJson site callee)
  | ret site callee => .tagged "return" (linkToJson site callee)

/-- Reads a call site with a callee. -/
def decodeLink (make : Site → MethodId → SuperEdgeKind) : Decoder SuperEdgeKind :=
  .record ["call_site", "callee"] fun room fields =>
    match fields with
    | [site, callee] => do
      return make (← Site.decode.field room site) (← Decoder.nat.field room callee)
    | _ => none

/-- Reads why control goes along an edge. -/
def decode : Decoder SuperEdgeKind := .choice (fun _ => none) fun name room j =>
  match name with
  | "normal" => (EdgeKind.decode room j).map normal
  | "call_to_return" =>
    Decoder.record ["call_site"] (fun room fields => match fields with
      | [site] => do return callToReturn (← Site.decode.field room site)
      | _ => none) room j
  | "call" => decodeLink call room j
  | "return" => decodeLink ret room j
  | _ => none

end SuperEdgeKind

/-- The JSON form of an edge between nodes of a whole program. -/
def SuperEdge.toJson (e : SuperEdge) : Json :=
  .record [("from", .nat e.source), ("to", .nat e.target), ("kind", e.kind.toJson)]

/-- Reads an edge between nodes of a whole program. -/
def SuperEdge.decode : Decoder SuperEdge :=
  .record ["from", "to", "kind"] fun room fields =>
    match fields with
    | [source, target, kind] => do
      return ⟨← Decoder.nat.field room source, ← Decoder.nat.field room target,
        ← SuperEdgeKind.decode.field room kind⟩
    | _ => none

end TacAnalysis
