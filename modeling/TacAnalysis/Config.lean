import TacAnalysis.Json.Decode
import TacAnalysis.Json.Parse
import TacAnalysis.Worklist

/-!
# Configuration

What a user may choose: the order in which solvers take nodes from their worklists. It
is read from a JSON record whose only field may be left out.
-/

namespace TacAnalysis

open Json (Decoder)

namespace WorklistOrder

/-- The order's name. -/
def name : WorklistOrder → String
  | fifo => "fifo"
  | lifo => "lifo"

/-- The order of a name. -/
def ofName? : String → Option WorklistOrder
  | "fifo" => some fifo
  | "lifo" => some lifo
  | _ => none

/-- The JSON form of an order. -/
def toJson (order : WorklistOrder) : Json := .text order.name

/-- Reads an order. -/
def decode : Decoder WorklistOrder := .name ofName?

end WorklistOrder

/-- What a user may choose. -/
structure Config where
  /-- The order in which solvers take nodes from their worklists. -/
  order : WorklistOrder
  deriving DecidableEq

namespace Config

/-- The choice if nothing is said. -/
def standard : Config := ⟨.fifo⟩

/-- The JSON form of a configuration. -/
def toJson (c : Config) : Json := .record [("worklist_order", c.order.toJson)]

/-- Reads a configuration; its field may be absent, also from an array of fields. -/
def decode : Decoder Config
  | _ + 1, .array [] => some standard
  | room, j => Decoder.record ["worklist_order"] (fun room fields => match fields with
    | [some order] => (WorklistOrder.decode room order).map Config.mk
    | [none] => some standard
    | _ => none) room j

/-- The configuration that a text describes. -/
def ofText? (text : String) : Option Config := do decode Decoder.nesting (← Json.parse? text)

end Config

end TacAnalysis
