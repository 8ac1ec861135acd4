import TacAnalysis.Text.Quoted

/-!
# JSON values

The tree of a JSON text. Objects keep their entries in written order, repetitions
included, because a reader of records has to notice a repeated key. Texts keep their
written form: a text that is skipped is never decoded, and a map whose keys are numbers
reads them as they stand.
-/

namespace TacAnalysis

/-- A JSON value. -/
inductive Json where
  | null
  | bool (b : Bool)
  /-- A number written without fraction, exponent and negative zero. -/
  | int (n : Int)
  /-- Any other number, by its written form. -/
  | decimal (written : String)
  /-- A string, by the characters between its quotes. -/
  | string (written : String)
  | array (items : List Json)
  /-- An object; keys are in written form too. -/
  | object (entries : List (String × Json))
  deriving Inhabited

namespace Json

/-- The text that a written form stands for, if it is well formed. -/
def unquote? (written : String) : Option String :=
  (Text.Quoted.decode? written.toList).map String.ofList

/-- The written form of a text. -/
def quote (text : String) : String := String.ofList (Text.Quoted.encode text.toList)

@[simp] theorem unquote?_quote (text : String) : unquote? (quote text) = some text := by
  simp [unquote?, quote, Text.Quoted.decode?_encode]

/-- The JSON string of a text. -/
def text (s : String) : Json := .string (quote s)

/-- The JSON number of an identifier, index or count. -/
def nat (n : Nat) : Json := .int n

/-- The value itself, or `null`. -/
def ofOption {α : Type} (f : α → Json) : Option α → Json
  | none => .null
  | some a => f a

/-- The JSON array of a list. -/
def ofList {α : Type} (f : α → Json) (xs : List α) : Json := .array (xs.map f)

/-- An array of identifiers. -/
def nats (xs : List Nat) : Json := ofList nat xs

/-- An object whose keys are given as texts. -/
def record (entries : List (String × Json)) : Json :=
  .object (entries.map fun e => (quote e.1, e.2))

/-- The form of a choice that carries a payload: an object with one key. -/
def tagged (name : String) (payload : Json) : Json := record [(name, payload)]

end Json

end TacAnalysis
