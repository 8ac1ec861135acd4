import TacAnalysis.Json.Basic

/-!
# Reading typed values from JSON

A decoder is told how many containers it may still open; beyond that bound a value is
refused, however it is built. What is merely skipped, the value of an unknown key,
may be nested without bound.

Records are read from an object or from the array of their fields. In an object unknown
keys are skipped and a repeated field is an error; an array has to have exact length.
A choice without payload is its name, or an object that maps the name to `null`; a
choice with payload is an object with that one key.
-/

namespace TacAnalysis.Json

/-- Reads a value of `α`, given how many containers may still be opened. -/
abbrev Decoder (α : Type) := Nat → Json → Option α

/-- How many containers may be open at once while a typed value is read. -/
def Decoder.nesting : Nat := 127

/-- The first number that is too large for an identifier: 2^64. -/
def idBound : Nat := 18446744073709551616

/-- An identifier, index or count. -/
def Decoder.nat : Decoder Nat
  | _, .int n => if 0 ≤ n ∧ n.toNat < idBound then some n.toNat else none
  | _, _ => none

/-- A signed 32-bit constant. -/
def Decoder.int32 : Decoder Int32
  | _, .int n => if -2147483648 ≤ n ∧ n ≤ 2147483647 then some (Int32.ofInt n) else none
  | _, _ => none

/-- A truth value. -/
def Decoder.bool : Decoder Bool
  | _, .bool b => some b
  | _, _ => none

/-- A text; its escapes must be well formed. -/
def Decoder.text : Decoder String
  | _, .string written => unquote? written
  | _, _ => none

/-- An array, item by item. -/
def Decoder.list {α : Type} (item : Decoder α) : Decoder (List α)
  | room + 1, .array items => items.mapM (item room)
  | _, _ => none

/-- An array of exactly two. -/
def Decoder.pair {α β : Type} (first : Decoder α) (second : Decoder β) : Decoder (α × β)
  | room + 1, .array [a, b] => do return (← first room a, ← second room b)
  | _, _ => none

/-- A value that may be `null`. -/
def Decoder.orNull {α : Type} (value : Decoder α) : Decoder (Option α)
  | _, .null => some none
  | room, j => (value room j).map some

/-- The entries of an object, keys decoded. -/
def keyed? (entries : List (String × Json)) : Option (List (String × Json)) :=
  entries.mapM fun e => (unquote? e.1).map (·, e.2)

/-- The values of the named fields of a record, in that order; a field that an object
leaves out is `none`. -/
def fields? (names : List String) : Json → Option (List (Option Json))
  | .array items => if items.length = names.length then some (items.map some) else none
  | .object entries => do
    let entries ← keyed? entries
    if names.all (fun name => entries.countP (fun e => e.1 = name) ≤ 1) then
      return names.map fun name => (entries.find? (fun e => e.1 = name)).map (·.2)
    else none
  | _ => none

/-- A record, read from the values of its fields. -/
def Decoder.record {α : Type} (names : List String)
    (read : Nat → List (Option Json) → Option α) : Decoder α
  | room + 1, j => (fields? names j).bind (read room)
  | 0, _ => none

/-- A field that has to be there. -/
def Decoder.field {α : Type} (value : Decoder α) (room : Nat) (j : Option Json) : Option α :=
  j.bind (value room)

/-- A field that may be absent or `null`. -/
def Decoder.optionalField {α : Type} (value : Decoder α) (room : Nat) (j : Option Json) :
    Option (Option α) :=
  value.orNull room (j.getD .null)

/-- A choice: `plain` knows the names without payload, `payload` reads the others. -/
def Decoder.choice {α : Type} (plain : String → Option α) (payload : String → Decoder α) :
    Decoder α
  | _, .string written => (unquote? written).bind plain
  | room + 1, .object [(key, j)] => do
    let name ← unquote? key
    match plain name with
    | some a => if j matches .null then some a else none
    | none => payload name room j
  | _, _ => none

/-- A choice among names alone. -/
def Decoder.name {α : Type} (plain : String → Option α) : Decoder α :=
  .choice plain fun _ _ _ => none

end TacAnalysis.Json
