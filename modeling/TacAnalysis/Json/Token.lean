import TacAnalysis.Json.Basic

/-!
# Tokens of JSON text

A scanner reads the text one character at a time. It is between two tokens, inside a
string, just behind a backslash inside a string, or inside a bare word; a bare word is
a maximal run of characters that are neither blanks nor punctuation, and must be
`null`, `true`, `false` or a number. Two words that touch can only be an error in JSON,
so nothing is lost by reading them as one.
-/

namespace TacAnalysis.Json

/-- A token of JSON text. -/
inductive Token where
  | beginArray
  | endArray
  | beginObject
  | endObject
  | comma
  | colon
  /-- A string, by the characters between its quotes. -/
  | string (written : String)
  /-- `null`, a truth value or a number. -/
  | word (value : Json)

/-- The rest behind a run of at least one digit. -/
def dropDigits? : List Char → Option (List Char)
  | c :: rest => if c.isDigit then some (rest.dropWhile Char.isDigit) else none
  | [] => none

/-- The rest behind a minus sign, if there is one. -/
def dropMinus : List Char → List Char
  | '-' :: rest => rest
  | rest => rest

/-- The rest behind the whole part of a number; a leading zero stands alone. -/
def dropWhole? : List Char → Option (List Char)
  | '0' :: rest => some rest
  | rest => dropDigits? rest

/-- The rest behind the fraction of a number, which may be absent. -/
def dropFraction? : List Char → Option (List Char)
  | '.' :: rest => dropDigits? rest
  | rest => some rest

/-- The rest behind an exponent, given what follows its letter. -/
def dropExponentDigits? : List Char → Option (List Char)
  | '+' :: rest => dropDigits? rest
  | '-' :: rest => dropDigits? rest
  | rest => dropDigits? rest

/-- The rest behind the exponent of a number, which may be absent. -/
def dropExponent? : List Char → Option (List Char)
  | 'e' :: rest => dropExponentDigits? rest
  | 'E' :: rest => dropExponentDigits? rest
  | rest => some rest

/-- Whether a word follows the grammar of numbers. -/
def isNumber (word : List Char) : Bool :=
  (do dropExponent? (← dropFraction? (← dropWhole? (dropMinus word)))) == some []

/-- The value of a run of decimal digits. -/
def digitsValue (digits : List Char) : Nat :=
  digits.foldl (fun n c => 10 * n + (c.toNat - '0'.toNat)) 0

/-- The number that a word of the number grammar denotes. Negative zero is not an
integer: its sign would be lost. -/
def numberOf (word : List Char) : Json :=
  let digits := dropMinus word
  if digits.all Char.isDigit ∧ word ≠ ['-', '0'] then
    .int (if word.head? = some '-' then -(digitsValue digits : Int) else digitsValue digits)
  else .decimal (String.ofList word)

/-- The value of a bare word. -/
def wordValue? (word : List Char) : Option Json :=
  if word = ['n', 'u', 'l', 'l'] then some .null
  else if word = ['t', 'r', 'u', 'e'] then some (.bool true)
  else if word = ['f', 'a', 'l', 's', 'e'] then some (.bool false)
  else if isNumber word then some (numberOf word)
  else none

/-- Where the scanner stands; characters read so far are kept in reverse. -/
inductive ScanMode where
  /-- Between two tokens. -/
  | between
  /-- Inside a bare word. -/
  | word (read : List Char)
  /-- Inside a string. -/
  | quoted (read : List Char)
  /-- Inside a string, just behind a backslash. -/
  | escaped (read : List Char)

/-- The state of the scanner: the tokens so far, in reverse, and where it stands. -/
structure Scan where
  /-- The tokens read so far, the last one first. -/
  tokens : List Token
  /-- What the next character belongs to. -/
  mode : ScanMode

namespace Scan

/-- Nothing has been read yet. -/
def start : Scan := ⟨[], .between⟩

/-- The character opens a new token, is a token, or is blank. -/
def begin (tokens : List Token) (c : Char) : Scan :=
  match c with
  | '[' => ⟨.beginArray :: tokens, .between⟩
  | ']' => ⟨.endArray :: tokens, .between⟩
  | '\x7b' => ⟨.beginObject :: tokens, .between⟩
  | '\x7d' => ⟨.endObject :: tokens, .between⟩
  | ',' => ⟨.comma :: tokens, .between⟩
  | ':' => ⟨.colon :: tokens, .between⟩
  | '"' => ⟨tokens, .quoted []⟩
  | ' ' => ⟨tokens, .between⟩
  | '\t' => ⟨tokens, .between⟩
  | '\n' => ⟨tokens, .between⟩
  | '\r' => ⟨tokens, .between⟩
  | c => ⟨tokens, .word [c]⟩

/-- Whether the character ends a bare word. -/
def isDelimiter (c : Char) : Bool :=
  ['[', ']', '\x7b', '\x7d', ',', ':', '"', ' ', '\t', '\n', '\r'].contains c

/-- Completes a bare word. -/
def endWord? (tokens : List Token) (read : List Char) : Option (List Token) :=
  (wordValue? read.reverse).map (.word · :: tokens)

/-- Completes a string. -/
def endString? (tokens : List Token) (read : List Char) : Option (List Token) :=
  if Text.Quoted.wellFormed read.reverse then
    some (.string (String.ofList read.reverse) :: tokens)
  else none

/-- Reads one character. -/
def step (s : Scan) (c : Char) : Option Scan :=
  match s.mode with
  | .between => some (begin s.tokens c)
  | .word read =>
    if isDelimiter c then (endWord? s.tokens read).map (begin · c)
    else some ⟨s.tokens, .word (c :: read)⟩
  | .quoted read =>
    if c = '"' then (endString? s.tokens read).map (⟨·, .between⟩)
    else if c = '\\' then some ⟨s.tokens, .escaped (c :: read)⟩
    else some ⟨s.tokens, .quoted (c :: read)⟩
  | .escaped read => some ⟨s.tokens, .quoted (c :: read)⟩

/-- The tokens at the end of the text; a string must have been closed. -/
def finish (s : Scan) : Option (List Token) :=
  match s.mode with
  | .between => some s.tokens.reverse
  | .word read => (endWord? s.tokens read).map List.reverse
  | _ => none

end Scan

/-- The tokens of a text. -/
def tokens? (text : List Char) : Option (List Token) :=
  (text.foldlM Scan.step Scan.start).bind Scan.finish

end TacAnalysis.Json
