/-!
# Blank characters

The characters with the Unicode property `White_Space`, and cutting them from both ends
of a text.
-/

namespace TacAnalysis.Text

/-- The ranges of code points that are blank, first and last included. -/
def blankRanges : List (Nat × Nat) :=
  [(0x0009, 0x000D), (0x0020, 0x0020), (0x0085, 0x0085), (0x00A0, 0x00A0), (0x1680, 0x1680),
    (0x2000, 0x200A), (0x2028, 0x2029), (0x202F, 0x202F), (0x205F, 0x205F), (0x3000, 0x3000)]

/-- Whether a character is blank. -/
def isBlank (c : Char) : Bool := blankRanges.any fun r => r.1 ≤ c.toNat ∧ c.toNat ≤ r.2

/-- The list without the blanks at its front. -/
def trimFront (text : List Char) : List Char := text.dropWhile isBlank

/-- The list without the blanks at both ends. -/
def trim (text : List Char) : List Char := (trimFront (trimFront text).reverse).reverse

end TacAnalysis.Text
