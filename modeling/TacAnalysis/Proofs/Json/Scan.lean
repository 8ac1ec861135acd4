import Mathlib.Tactic.SplitIfs
import TacAnalysis.Json.Render
import TacAnalysis.Proofs.Json.Numbers

/-!
# Scanning what is written

The text of a value is the text of its tokens, one after the other. Brackets, braces, commas
and colons end a bare word that stands before them, so tokens are read back one by one if no two
bare words follow each other, and between two values there is always such a mark. A string is
read back because every character that could end it is escaped.

Main statement: `tokens?_render`.
-/

namespace TacAnalysis.Json

/-- Values that are built from texts and whole numbers: strings are quoted texts, and so are the
keys of objects. -/
inductive Plain : Json → Prop where
  | null : Plain .null
  | bool (b : Bool) : Plain (.bool b)
  | int (n : Int) : Plain (.int n)
  | text (s : String) : Plain (.text s)
  | array {items : List Json} (h : ∀ j ∈ items, Plain j) : Plain (.array items)
  | record {entries : List (String × Json)} (h : ∀ e ∈ entries, Plain e.2) :
    Plain (.record entries)

/-- The characters of a sequence of tokens. -/
def texts (tokens : List Token) : List Char := tokens.flatMap (·.text.toList)

/-- The text of a value is the text of its tokens. -/
theorem toList_render (j : Json) : (render j).toList = texts j.tokens := by
  have hfold : ∀ (tokens : List Token) (text : String),
      (tokens.foldl (fun text t => text ++ t.text) text).toList = text.toList ++ texts tokens := by
    intro tokens
    induction tokens with
    | nil => simp [texts]
    | cons t tokens ih =>
      intro text
      rw [List.foldl_cons, ih, String.toList_append, List.append_assoc]
      rfl
  exact hfold j.tokens ""

namespace Scan

/-- The scanner has read the tokens, the last one first; a bare word may be at its end. -/
inductive Holds : Scan → List Token → Prop where
  | between (tokens : List Token) : Holds ⟨tokens, .between⟩ tokens
  | word {tokens : List Token} {read : List Char} {j : Json} (h : wordValue? read.reverse = some j) :
    Holds ⟨tokens, .word read⟩ (.word j :: tokens)

variable {s : Scan} {tokens : List Token}

/-- At the end of the text the scanner gives the tokens that it holds. -/
theorem Holds.finish_eq (h : s.Holds tokens) : s.finish = some tokens.reverse := by
  cases h with
  | between => rfl
  | word h => simp only [finish, endWord?, h, Option.map_some]

/-- A delimiter ends a bare word, so it is read as if it stood between two tokens. -/
theorem Holds.step_delimiter (h : s.Holds tokens) {c : Char} (hc : isDelimiter c = true) :
    s.step c = some (begin tokens c) := by
  cases h with
  | between => rfl
  | word h =>
    rw [step]
    simp only [hc, ↓reduceIte]
    rw [endWord?, h, Option.map_some, Option.map_some]

/-- Digits do not end a bare word. -/
theorem not_delimiter_of_isDigit {c : Char} (hc : c.isDigit = true) : isDelimiter c = false := by
  have hnone : ['[', ']', '\x7b', '\x7d', ',', ':', '"', ' ', '\t', '\n', '\r'].any
      Char.isDigit = false := rfl
  rw [isDelimiter, ← Bool.not_eq_true, List.contains_iff_mem]
  intro hmem
  exact List.any_eq_false.1 hnone c hmem hc

/-- A character that does not end a bare word begins one. -/
theorem begin_of_not_delimiter {c : Char} (hc : isDelimiter c = false) :
    begin tokens c = ⟨tokens, .word [c]⟩ := by
  unfold begin
  split
  case h_12 => rfl
  all_goals exact absurd hc (by decide)

/-- Characters that are no delimiters make one bare word. -/
theorem foldlM_word {rest read : List Char} (h : ∀ c ∈ rest, isDelimiter c = false) :
    rest.foldlM step ⟨tokens, .word read⟩ = some ⟨tokens, .word (rest.reverse ++ read)⟩ := by
  induction rest generalizing read with
  | nil => rfl
  | cons c rest ih =>
    have hstep : step ⟨tokens, .word read⟩ c = some ⟨tokens, .word (c :: read)⟩ := by
      simp only [step, h c List.mem_cons_self, Bool.false_eq_true, ↓reduceIte]
    rw [List.foldlM_cons, hstep, List.reverse_cons, List.append_assoc]
    exact ih fun d hd => h d (List.mem_cons_of_mem c hd)

/-- Characters that neither end a string nor begin an escape. -/
theorem foldlM_quoted {rest read : List Char} (h : ∀ c ∈ rest, c ≠ '"' ∧ c ≠ '\\') :
    rest.foldlM step ⟨tokens, .quoted read⟩ = some ⟨tokens, .quoted (rest.reverse ++ read)⟩ := by
  induction rest generalizing read with
  | nil => rfl
  | cons c rest ih =>
    obtain ⟨hquote, hslash⟩ := h c List.mem_cons_self
    have hstep : step ⟨tokens, .quoted read⟩ c = some ⟨tokens, .quoted (c :: read)⟩ := by
      simp only [step, hquote, hslash, ↓reduceIte]
    rw [List.foldlM_cons, hstep, List.reverse_cons, List.append_assoc]
    exact ih fun d hd => h d (List.mem_cons_of_mem c hd)

theorem hexDigit_ne : ∀ n < 16, Text.Quoted.hexDigit n ≠ '"' ∧ Text.Quoted.hexDigit n ≠ '\\' := by
  decide

/-- A character is written as an escape, or it stands for itself. -/
theorem encodeChar_cases (c : Char) :
    (∃ e rest, Text.Quoted.encodeChar c = '\\' :: e :: rest ∧ ∀ d ∈ rest, d ≠ '"' ∧ d ≠ '\\') ∨
      (Text.Quoted.encodeChar c = [c] ∧ c ≠ '"' ∧ c ≠ '\\') := by
  unfold Text.Quoted.encodeChar
  have hshort : ∀ e : Char, ∃ e' rest, ['\\', e] = '\\' :: e' :: rest ∧
      ∀ d ∈ rest, d ≠ '"' ∧ d ≠ '\\' := fun e => ⟨e, [], rfl, by simp⟩
  split_ifs with hquote hslash _ _ _ _ _ hcontrol
  iterate 7 exact .inl (hshort _)
  · have hhigh := hexDigit_ne (c.toNat / 16) (by omega)
    have hlow := hexDigit_ne (c.toNat % 16) (by omega)
    refine .inl ⟨'u', _, rfl, fun d hd => ?_⟩
    simp only [List.mem_cons, List.not_mem_nil, or_false] at hd
    rcases hd with rfl | rfl | rfl | rfl
    · decide
    · decide
    · exact hhigh
    · exact hlow
  · exact .inr ⟨rfl, hquote, hslash⟩

/-- The written form of a character does not end a string. -/
theorem foldlM_encodeChar (c : Char) (read : List Char) :
    (Text.Quoted.encodeChar c).foldlM step ⟨tokens, .quoted read⟩ =
      some ⟨tokens, .quoted ((Text.Quoted.encodeChar c).reverse ++ read)⟩ := by
  rcases encodeChar_cases c with ⟨e, rest, henc, hrest⟩ | ⟨henc, hc⟩
  · have hescape : step ⟨tokens, .quoted read⟩ '\\' = some ⟨tokens, .escaped ('\\' :: read)⟩ := rfl
    have hnext : step ⟨tokens, .escaped ('\\' :: read)⟩ e =
      some ⟨tokens, .quoted (e :: '\\' :: read)⟩ := rfl
    rw [henc, List.foldlM_cons, hescape, Option.bind_eq_bind, Option.bind_some, List.foldlM_cons,
      hnext, Option.bind_eq_bind, Option.bind_some, foldlM_quoted hrest]
    simp
  · rw [henc]
    exact foldlM_quoted fun d hd => List.mem_singleton.1 hd ▸ hc

/-- The written form of a text does not end a string. -/
theorem foldlM_encode (text read : List Char) :
    (Text.Quoted.encode text).foldlM step ⟨tokens, .quoted read⟩ =
      some ⟨tokens, .quoted ((Text.Quoted.encode text).reverse ++ read)⟩ := by
  induction text generalizing read with
  | nil => rfl
  | cons c text ih =>
    rw [Text.Quoted.encode, List.flatMap_cons, List.foldlM_append, foldlM_encodeChar]
    rw [Option.bind_eq_bind, Option.bind_some, ← Text.Quoted.encode, ih, List.reverse_append,
      List.append_assoc]

/-- A quoted text is read back as one token. -/
theorem Holds.foldlM_string (h : s.Holds tokens) (text : String) :
    (Token.text (.string (quote text))).toList.foldlM step s =
      some ⟨.string (quote text) :: tokens, .between⟩ := by
  have htext : (Token.text (.string (quote text))).toList =
      '"' :: (Text.Quoted.encode text.toList ++ ['"']) := by
    simp [Token.text, quote]
  have hbegin : step s '"' = some ⟨tokens, .quoted []⟩ := h.step_delimiter rfl
  have hwell : Text.Quoted.wellFormed (Text.Quoted.encode text.toList) = true := by
    obtain ⟨pieces, hpieces, -⟩ := Option.bind_eq_some_iff.1 (Text.Quoted.decode?_encode text.toList)
    rw [Text.Quoted.wellFormed, hpieces]
    rfl
  have hend : step ⟨tokens, .quoted (Text.Quoted.encode text.toList).reverse⟩ '"' =
      some ⟨.string (quote text) :: tokens, .between⟩ := by
    simp only [step, ↓reduceIte, endString?, List.reverse_reverse, hwell, Option.map_some]
    rfl
  rw [htext, List.foldlM_cons, hbegin, Option.bind_eq_bind, Option.bind_some, List.foldlM_append,
    foldlM_encode, List.append_nil, Option.bind_eq_bind, Option.bind_some, List.foldlM_cons, hend]
  rfl

end Scan

/-! ## Tokens -/

/-- Wherever a token may begin, the scanner reads these tokens. -/
def Scans (ts : List Token) : Prop :=
  ∀ tokens, ∃ s, (texts ts).foldlM Scan.step ⟨tokens, .between⟩ = some s ∧
    s.Holds (ts.reverse ++ tokens)

/-- The token is a single character that ends a bare word. -/
def Token.IsMark (t : Token) : Prop :=
  ∃ c, t.text.toList = [c] ∧ Scan.isDelimiter c = true ∧
    ∀ tokens, Scan.begin tokens c = ⟨t :: tokens, .between⟩

theorem isMark_beginArray : Token.IsMark .beginArray := ⟨'[', rfl, rfl, fun _ => rfl⟩

theorem isMark_endArray : Token.IsMark .endArray := ⟨']', rfl, rfl, fun _ => rfl⟩

theorem isMark_beginObject : Token.IsMark .beginObject := ⟨'\x7b', rfl, rfl, fun _ => rfl⟩

theorem isMark_endObject : Token.IsMark .endObject := ⟨'\x7d', rfl, rfl, fun _ => rfl⟩

theorem isMark_comma : Token.IsMark .comma := ⟨',', rfl, rfl, fun _ => rfl⟩

theorem isMark_colon : Token.IsMark .colon := ⟨':', rfl, rfl, fun _ => rfl⟩

theorem scans_nil : Scans [] := fun tokens => ⟨_, rfl, .between tokens⟩

/-- What stands on both sides of a mark can be read one by one. -/
theorem Scans.append {ts us : List Token} (hts : Scans ts) {t : Token} (ht : t.IsMark)
    (hus : Scans us) : Scans (ts ++ t :: us) := by
  intro tokens
  obtain ⟨s, hs, hholds⟩ := hts tokens
  obtain ⟨c, htext, hc, hbegin⟩ := ht
  obtain ⟨r, hr, hrest⟩ := hus (t :: (ts.reverse ++ tokens))
  refine ⟨r, ?_, ?_⟩
  · have htexts : texts (ts ++ t :: us) = texts ts ++ (c :: texts us) := by
      simp [texts, htext]
    rw [htexts, List.foldlM_append, hs, Option.bind_eq_bind, Option.bind_some, List.foldlM_cons,
      hholds.step_delimiter hc, hbegin, Option.bind_eq_bind, Option.bind_some, hr]
  · simpa using hrest

/-- A mark is read before anything. -/
theorem Scans.cons {t : Token} (ht : t.IsMark) {us : List Token} (hus : Scans us) :
    Scans (t :: us) :=
  scans_nil.append ht hus

/-- A quoted text is read. -/
theorem scans_string (text : String) : Scans [.string (quote text)] := by
  intro tokens
  refine ⟨_, ?_, .between _⟩
  have htexts : texts [.string (quote text)] = (Token.text (.string (quote text))).toList := by
    simp [texts]
  rw [htexts]
  exact (Scan.Holds.between tokens).foldlM_string text

/-- A bare word is read, if it has no delimiters and stands for the value. -/
theorem scans_word {j : Json} {c : Char} {rest : List Char} (htext : (wordText j).toList = c :: rest)
    (hdelimiters : (c :: rest).any Scan.isDelimiter = false)
    (hvalue : wordValue? (c :: rest) = some j) : Scans [.word j] := by
  intro tokens
  have htexts : texts [.word j] = c :: rest := by
    simp [texts, Token.text, htext]
  have hplain : ∀ d ∈ c :: rest, Scan.isDelimiter d = false := fun d hd =>
    Bool.not_eq_true _ ▸ List.any_eq_false.1 hdelimiters d hd
  have hbegin : Scan.step ⟨tokens, .between⟩ c = some ⟨tokens, .word [c]⟩ := by
    rw [Scan.step, Scan.begin_of_not_delimiter (hplain c List.mem_cons_self)]
  refine ⟨⟨tokens, .word (rest.reverse ++ [c])⟩, ?_, .word ?_⟩
  · rw [htexts, List.foldlM_cons, hbegin, Option.bind_eq_bind, Option.bind_some]
    exact Scan.foldlM_word fun d hd => hplain d (List.mem_cons_of_mem c hd)
  · simpa using hvalue

/-- A whole number is read. -/
theorem scans_int (n : Int) : Scans [.word (.int n)] := by
  have hdelimiters : (toString n).toList.any Scan.isDelimiter = false := by
    refine List.any_eq_false.2 fun c hc => Bool.eq_false_iff.1 ?_
    rcases of_mem_toString hc with rfl | hdigit
    · rfl
    · exact Scan.not_delimiter_of_isDigit hdigit
  have hvalue := wordValue?_toString n
  rcases hword : (toString n).toList with _ | ⟨c, rest⟩
  · rw [hword] at hvalue
    cases hvalue
  · rw [hword] at hvalue hdelimiters
    exact scans_word hword hdelimiters hvalue

/-! ## Values -/

/-- The items of an array are read, with the commas between them. -/
theorem scans_itemTokens {items : List Json} (h : ∀ j ∈ items, Scans j.tokens) :
    Scans (itemTokens items) := by
  induction items with
  | nil => exact scans_nil
  | cons j rest ih =>
    have hj := h j List.mem_cons_self
    have hrest := ih fun k hk => h k (List.mem_cons_of_mem j hk)
    cases rest with
    | nil => exact hj
    | cons k rest => exact hj.append isMark_comma hrest

/-- The entries of an object are read, with the commas between them. -/
theorem scans_entryTokens {entries : List (String × Json)}
    (h : ∀ e ∈ entries, Scans e.2.tokens) :
    Scans (entryTokens (entries.map fun e => (quote e.1, e.2))) := by
  induction entries with
  | nil => exact scans_nil
  | cons e rest ih =>
    have he := h e List.mem_cons_self
    have hrest := ih fun d hd => h d (List.mem_cons_of_mem e hd)
    cases rest with
    | nil => exact (scans_string e.1).append isMark_colon he
    | cons d rest =>
      exact (scans_string e.1).append isMark_colon (he.append isMark_comma hrest)

/-- The tokens of a value are read. -/
theorem Plain.scans {j : Json} (h : j.Plain) : Scans j.tokens := by
  induction h with
  | null => exact scans_word rfl rfl rfl
  | bool b =>
    cases b with
    | false => exact scans_word rfl rfl rfl
    | true => exact scans_word rfl rfl rfl
  | int n => exact scans_int n
  | text s => exact scans_string s
  | array _ ih =>
    exact ((scans_itemTokens ih).append isMark_endArray scans_nil).cons isMark_beginArray
  | record _ ih =>
    exact ((scans_entryTokens ih).append isMark_endObject scans_nil).cons isMark_beginObject

/-- The text of a value is scanned into the tokens of the value. -/
theorem tokens?_render {j : Json} (h : j.Plain) : tokens? (render j).toList = some j.tokens := by
  obtain ⟨s, hs, hholds⟩ := h.scans []
  rw [tokens?, toList_render, Scan.start, hs, Option.bind_some, hholds.finish_eq, List.append_nil,
    List.reverse_reverse]

end TacAnalysis.Json
