import TacAnalysis.Json.Token

/-!
# Writing JSON values

The compact form: no blanks, entries in the order of the tree.
-/

namespace TacAnalysis.Json

mutual

/-- The tokens of a value. -/
def tokens : Json → List Token
  | .array items => .beginArray :: (itemTokens items ++ [.endArray])
  | .object entries => .beginObject :: (entryTokens entries ++ [.endObject])
  | .string written => [.string written]
  | j => [.word j]

/-- The tokens of the items of an array, with commas between them. -/
def itemTokens : List Json → List Token
  | [] => []
  | [j] => tokens j
  | j :: rest => tokens j ++ .comma :: itemTokens rest

/-- The tokens of the entries of an object, with commas between them. -/
def entryTokens : List (String × Json) → List Token
  | [] => []
  | [(key, j)] => .string key :: .colon :: tokens j
  | (key, j) :: rest => .string key :: .colon :: (tokens j ++ .comma :: entryTokens rest)

end

/-- The written form of a bare word. -/
def wordText : Json → String
  | .bool true => "true"
  | .bool false => "false"
  | .int n => toString n
  | .decimal written => written
  | _ => "null"

/-- The text of a token. -/
def Token.text : Token → String
  | .beginArray => "["
  | .endArray => "]"
  | .beginObject => "\x7b"
  | .endObject => "\x7d"
  | .comma => ","
  | .colon => ":"
  | .string written => "\"" ++ written ++ "\""
  | .word j => wordText j

/-- The compact text of a value. -/
def render (j : Json) : String := j.tokens.foldl (fun text t => text ++ t.text) ""

end TacAnalysis.Json
