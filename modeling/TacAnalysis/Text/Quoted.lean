/-!
# Quoted text

The characters between the quotes of a JSON string are its *written* form. Reading it
has two steps. `pieces?` takes the escapes apart, so that each piece is a character or
a 16-bit code unit given by `\uXXXX`; `join?` then pairs the surrogate units. Text that
is only skipped needs the first step alone, so a lone surrogate is harmless there and
an error in text that is used.

Main statement: `decode?_encode`, what is written is read back.
-/

namespace TacAnalysis.Text.Quoted

/-- A piece of written text: a plain or escaped character, or a code unit. -/
inductive Piece where
  /-- A character that stands for itself or is written by a short escape. -/
  | char (c : Char)
  /-- The 16-bit code unit of a `\uXXXX` escape. -/
  | codeUnit (n : Nat)
  deriving DecidableEq

/-- The value of a hexadecimal digit of either case. -/
def hexValue? (c : Char) : Option Nat :=
  if '0' ≤ c ∧ c ≤ '9' then some (c.toNat - '0'.toNat)
  else if 'a' ≤ c ∧ c ≤ 'f' then some (c.toNat - 'a'.toNat + 10)
  else if 'A' ≤ c ∧ c ≤ 'F' then some (c.toNat - 'A'.toNat + 10)
  else none

/-- The value of four hexadecimal digits. -/
def codeUnit? (a b c d : Char) : Option Nat := do
  return (((← hexValue? a) * 16 + (← hexValue? b)) * 16 + (← hexValue? c)) * 16 + (← hexValue? d)

/-- The character that a one-letter escape stands for. -/
def shortEscape? : Char → Option Char
  | '"' => some '"'
  | '\\' => some '\\'
  | '/' => some '/'
  | 'b' => some '\x08'
  | 'f' => some '\x0c'
  | 'n' => some '\n'
  | 'r' => some '\r'
  | 't' => some '\t'
  | _ => none

/-- Takes the escapes of a written text apart. Control characters must be escaped, and
an unknown or cut-off escape is refused. -/
def pieces? : List Char → Option (List Piece)
  | [] => some []
  | '\\' :: 'u' :: a :: b :: c :: d :: rest => do
    return .codeUnit (← codeUnit? a b c d) :: (← pieces? rest)
  | '\\' :: e :: rest => do return .char (← shortEscape? e) :: (← pieces? rest)
  | c :: rest =>
    if c = '\\' ∨ c.toNat < 32 then none
    else (pieces? rest).map (.char c :: ·)

/-- Whether a written text could stand between quotes, surrogates apart. -/
def wellFormed (written : List Char) : Bool := (pieces? written).isSome

/-- Puts the pieces together; a leading surrogate needs a trailing one behind it, and
no trailing one may stand alone. -/
def join? : List Piece → Option (List Char)
  | [] => some []
  | .char c :: rest => (join? rest).map (c :: ·)
  | .codeUnit n :: .codeUnit m :: rest =>
    if 0xD800 ≤ n ∧ n < 0xDC00 then
      if 0xDC00 ≤ m ∧ m < 0xE000 then
        (join? rest).map (Char.ofNat (0x10000 + (n - 0xD800) * 0x400 + (m - 0xDC00)) :: ·)
      else none
    else if 0xDC00 ≤ n ∧ n < 0xE000 then none
    else (join? (.codeUnit m :: rest)).map (Char.ofNat n :: ·)
  | .codeUnit n :: rest =>
    if 0xD800 ≤ n ∧ n < 0xE000 then none
    else (join? rest).map (Char.ofNat n :: ·)

/-- The text that a written form stands for. -/
def decode? (written : List Char) : Option (List Char) := (pieces? written).bind join?

/-- The lower-case hexadecimal digit of a number below sixteen. -/
def hexDigit (n : Nat) : Char :=
  if n < 10 then Char.ofNat ('0'.toNat + n) else Char.ofNat ('a'.toNat + (n - 10))

/-- The written form of one character: quotes, backslashes and control characters are
escaped, by one letter where there is one. -/
def encodeChar (c : Char) : List Char :=
  if c = '"' then ['\\', '"']
  else if c = '\\' then ['\\', '\\']
  else if c = '\x08' then ['\\', 'b']
  else if c = '\x0c' then ['\\', 'f']
  else if c = '\n' then ['\\', 'n']
  else if c = '\r' then ['\\', 'r']
  else if c = '\t' then ['\\', 't']
  else if c.toNat < 32 then
    ['\\', 'u', '0', '0', hexDigit (c.toNat / 16), hexDigit (c.toNat % 16)]
  else [c]

/-- The written form of a text. -/
def encode (text : List Char) : List Char := text.flatMap encodeChar

/-- The piece that the written form of a character reads as. -/
def pieceOf (c : Char) : Piece :=
  if c.toNat < 32 ∧ c ≠ '\x08' ∧ c ≠ '\x0c' ∧ c ≠ '\n' ∧ c ≠ '\r' ∧ c ≠ '\t' then
    .codeUnit c.toNat
  else .char c

private theorem hexValue?_hexDigit : ∀ n, n < 16 → hexValue? (hexDigit n) = some n := by decide

/-- A character that needs no escape is a piece by itself. -/
private theorem pieces?_plain {c : Char} (hslash : c ≠ '\\') (hcontrol : ¬ c.toNat < 32)
    (rest : List Char) : pieces? (c :: rest) = (pieces? rest).map (.char c :: ·) := by
  rw [pieces?.eq_def (c :: rest)]
  split
  · rename_i h
    cases h
  · rename_i h
    exact absurd (List.cons.inj h).1 hslash
  · rename_i h
    exact absurd (List.cons.inj h).1 hslash
  · rename_i h
    obtain ⟨rfl, rfl⟩ := List.cons.inj h
    rw [if_neg (not_or.mpr ⟨hslash, hcontrol⟩)]

/-- One written character is taken apart into one piece. -/
theorem pieces?_encodeChar (c : Char) (rest : List Char) :
    pieces? (encodeChar c ++ rest) = (pieces? rest).map (pieceOf c :: ·) := by
  unfold encodeChar
  by_cases h1 : c = '"'
  · subst h1; simp [pieces?, shortEscape?, pieceOf]; cases pieces? rest <;> rfl
  by_cases h2 : c = '\\'
  · subst h2; simp [pieces?, shortEscape?, pieceOf]; cases pieces? rest <;> rfl
  by_cases h3 : c = '\x08'
  · subst h3; simp [pieces?, shortEscape?, pieceOf]; cases pieces? rest <;> rfl
  by_cases h4 : c = '\x0c'
  · subst h4; simp [pieces?, shortEscape?, pieceOf]; cases pieces? rest <;> rfl
  by_cases h5 : c = '\n'
  · subst h5; simp [pieces?, shortEscape?, pieceOf]; cases pieces? rest <;> rfl
  by_cases h6 : c = '\r'
  · subst h6; simp [pieces?, shortEscape?, pieceOf]; cases pieces? rest <;> rfl
  by_cases h7 : c = '\t'
  · subst h7; simp [pieces?, shortEscape?, pieceOf]; cases pieces? rest <;> rfl
  simp only [h1, h2, h3, h4, h5, h6, h7, ↓reduceIte]
  by_cases h8 : c.toNat < 32
  · have hzero : hexValue? '0' = some 0 := by decide
    have hunit : codeUnit? '0' '0' (hexDigit (c.toNat / 16)) (hexDigit (c.toNat % 16)) =
        some c.toNat := by
      simp only [codeUnit?, hzero, hexValue?_hexDigit _ (show c.toNat / 16 < 16 by omega),
        hexValue?_hexDigit _ (show c.toNat % 16 < 16 by omega)]
      simp only [Option.bind_eq_bind, Option.bind_some, Option.pure_def, Option.some.injEq]
      omega
    have hpiece : pieceOf c = .codeUnit c.toNat := by simp [pieceOf, h3, h4, h5, h6, h7, h8]
    simp only [h8, ↓reduceIte, List.cons_append, List.nil_append, pieces?, hunit, hpiece]
    cases pieces? rest <;> rfl
  · have hpiece : pieceOf c = .char c := by simp [pieceOf, h8]
    simp only [h8, ↓reduceIte, List.cons_append, List.nil_append, hpiece]
    exact pieces?_plain h2 h8 rest

private theorem pieces?_encode (text : List Char) :
    pieces? (encode text) = some (text.map pieceOf) := by
  induction text with
  | nil => rfl
  | cons c text ih =>
    rw [encode, List.flatMap_cons, pieces?_encodeChar, ← encode, ih]
    rfl

private theorem join?_codeUnit {n : Nat} (h : n < 0xD800) (rest : List Piece) :
    join? (.codeUnit n :: rest) = (join? rest).map (Char.ofNat n :: ·) := by
  cases rest with
  | nil => simp [join?]; omega
  | cons p rest =>
    cases p with
    | char c => simp [join?]; omega
    | codeUnit m => simp only [join?]; rw [if_neg (by omega), if_neg (by omega)]

private theorem join?_pieceOf (c : Char) (rest : List Piece) :
    join? (pieceOf c :: rest) = (join? rest).map (c :: ·) := by
  unfold pieceOf
  split
  · rename_i h
    rw [join?_codeUnit (by omega), Char.ofNat_toNat]
  · simp [join?]

/-- What is written is read back. -/
theorem decode?_encode (text : List Char) : decode? (encode text) = some text := by
  rw [decode?, pieces?_encode, Option.bind_some]
  induction text with
  | nil => rfl
  | cons c text ih => rw [List.map_cons, join?_pieceOf, ih]; rfl

end TacAnalysis.Text.Quoted
