import TacAnalysis.Json.Token

/-!
# Reading JSON values

A text is one value with blanks around it. The reader keeps the containers that are
still open on a stack, so each token is handled once and nesting costs no recursion.
-/

namespace TacAnalysis.Json

/-- A container that is still open while one of its values is read. -/
inductive Frame where
  /-- The items so far, in reverse. -/
  | array (items : List Json)
  /-- The entries so far, in reverse, and the key whose value is being read. -/
  | object (entries : List (String × Json)) (key : String)

/-- What the next token has to be. -/
inductive Expected where
  /-- A value. -/
  | value
  /-- The first item of an array, or its end. -/
  | firstItem
  /-- A comma behind an item, or the end of the array. -/
  | moreItems (items : List Json)
  /-- The first key of an object, or its end. -/
  | firstKey
  /-- A key. -/
  | key (entries : List (String × Json))
  /-- The colon behind a key. -/
  | colon (entries : List (String × Json)) (key : String)
  /-- A comma behind an entry, or the end of the object. -/
  | moreEntries (entries : List (String × Json))
  /-- Nothing: the value is complete. -/
  | done (value : Json)

/-- The state of the reader. -/
structure Reader where
  /-- The open containers, innermost first. -/
  stack : List Frame
  /-- What has to follow. -/
  expected : Expected

namespace Reader

/-- A value is complete: hand it to the innermost open container. -/
def complete (stack : List Frame) (j : Json) : Reader :=
  match stack with
  | [] => ⟨[], .done j⟩
  | .array items :: stack => ⟨stack, .moreItems (j :: items)⟩
  | .object entries key :: stack => ⟨stack, .moreEntries ((key, j) :: entries)⟩

/-- A token at the place of a value. -/
def value (stack : List Frame) : Token → Option Reader
  | .word j => some (complete stack j)
  | .string written => some (complete stack (.string written))
  | .beginArray => some ⟨stack, .firstItem⟩
  | .beginObject => some ⟨stack, .firstKey⟩
  | _ => none

/-- Reads one token. -/
def step (s : Reader) (t : Token) : Option Reader :=
  match s.expected, t with
  | .value, t => value s.stack t
  | .firstItem, .endArray => some (complete s.stack (.array []))
  | .firstItem, t => value (.array [] :: s.stack) t
  | .moreItems items, .comma => some ⟨.array items :: s.stack, .value⟩
  | .moreItems items, .endArray => some (complete s.stack (.array items.reverse))
  | .firstKey, .endObject => some (complete s.stack (.object []))
  | .firstKey, .string key => some ⟨s.stack, .colon [] key⟩
  | .key entries, .string key => some ⟨s.stack, .colon entries key⟩
  | .colon entries key, .colon => some ⟨.object entries key :: s.stack, .value⟩
  | .moreEntries entries, .comma => some ⟨s.stack, .key entries⟩
  | .moreEntries entries, .endObject => some (complete s.stack (.object entries.reverse))
  | _, _ => none

/-- The value that has been read, once it is complete. -/
def result? (s : Reader) : Option Json :=
  match s.expected with
  | .done j => some j
  | _ => none

end Reader

/-- The value that a sequence of tokens stands for. -/
def ofTokens? (tokens : List Token) : Option Json :=
  (tokens.foldlM Reader.step ⟨[], .value⟩).bind Reader.result?

/-- The value of a text. -/
def parse? (text : String) : Option Json := (tokens? text.toList).bind ofTokens?

end TacAnalysis.Json
