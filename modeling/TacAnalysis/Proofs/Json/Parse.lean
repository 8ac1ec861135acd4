import TacAnalysis.Json.Parse
import TacAnalysis.Proofs.Json.Scan

/-!
# Reading back what is written

Wherever a value may stand, the tokens of a value complete it, and the reader hands it to the
innermost open container. For an array or object this follows from the same for its parts, taken
one after the other.

Main statement: `parse?_render`.
-/

namespace TacAnalysis.Json

namespace Reader

/-- In this state a value may stand, which then goes to the innermost of these containers. An
array without items may end instead. -/
def Awaits (s : Reader) (stack : List Frame) : Prop :=
  ∀ t, t ≠ .endArray → s.step t = value stack t

theorem awaits_value (stack : List Frame) : Awaits ⟨stack, .value⟩ stack := fun _ _ => rfl

theorem awaits_firstItem (stack : List Frame) : Awaits ⟨stack, .firstItem⟩ (.array [] :: stack) := by
  intro t ht
  cases t with
  | endArray => exact absurd rfl ht
  | _ => rfl

/-- Wherever a value may stand, these tokens complete the value `j`. -/
def Completes (ts : List Token) (j : Json) : Prop :=
  ∀ {s stack}, Awaits s stack → ts.foldlM step s = some (complete stack j)

/-- A bare word is complete. -/
theorem completes_word (j : Json) : Completes [.word j] j := by
  intro s stack h
  rw [List.foldlM_cons, h _ Token.noConfusion]
  rfl

/-- A string is complete. -/
theorem completes_string (written : String) : Completes [.string written] (.string written) := by
  intro s stack h
  rw [List.foldlM_cons, h _ Token.noConfusion]
  rfl

/-- The items of an array are collected one after the other. -/
theorem foldlM_itemTokens {j : Json} {rest done : List Json} {s : Reader} {stack : List Frame}
    (hitems : ∀ k ∈ j :: rest, Completes k.tokens k) (hs : Awaits s (.array done :: stack)) :
    (itemTokens (j :: rest)).foldlM step s =
      some ⟨stack, .moreItems ((j :: rest).reverse ++ done)⟩ := by
  induction rest generalizing j done s with
  | nil => exact hitems j List.mem_cons_self hs
  | cons k rest ih =>
    have hfirst := hitems j List.mem_cons_self hs
    have hcomma : step ⟨stack, .moreItems (j :: done)⟩ .comma =
        some ⟨.array (j :: done) :: stack, .value⟩ := rfl
    rw [itemTokens.eq_3 j (k :: rest) (List.cons_ne_nil k rest), List.foldlM_append, hfirst,
      Option.bind_eq_bind, Option.bind_some, complete, List.foldlM_cons, hcomma,
      Option.bind_eq_bind, Option.bind_some,
      ih (fun i hi => hitems i (List.mem_cons_of_mem j hi)) (awaits_value _)]
    simp

/-- An array is complete if its items are. -/
theorem completes_array {items : List Json} (h : ∀ j ∈ items, Completes j.tokens j) :
    Completes (Json.array items).tokens (.array items) := by
  intro s stack hs
  have hbegin : s.step .beginArray = some ⟨stack, .firstItem⟩ := hs _ Token.noConfusion
  rw [tokens, List.foldlM_cons, hbegin, Option.bind_eq_bind, Option.bind_some, List.foldlM_append]
  cases items with
  | nil => rfl
  | cons j rest =>
    have hend : step ⟨stack, .moreItems (j :: rest).reverse⟩ .endArray =
        some (complete stack (.array (j :: rest).reverse.reverse)) := rfl
    rw [List.reverse_reverse] at hend
    rw [foldlM_itemTokens h (awaits_firstItem stack), List.append_nil, Option.bind_eq_bind,
      Option.bind_some, List.foldlM_cons, hend]
    rfl

/-- The entries of an object are collected one after the other. -/
theorem foldlM_entryTokens {e : String × Json} {rest done : List (String × Json)} {s : Reader}
    {stack : List Frame} (hentries : ∀ d ∈ e :: rest, Completes d.2.tokens d.2)
    (hs : ∀ key, s.step (.string key) = some ⟨stack, .colon done key⟩) :
    (entryTokens (e :: rest)).foldlM step s =
      some ⟨stack, .moreEntries ((e :: rest).reverse ++ done)⟩ := by
  induction rest generalizing e done s with
  | nil =>
    obtain ⟨key, j⟩ := e
    have hcolon : step ⟨stack, .colon done key⟩ .colon =
        some ⟨.object done key :: stack, .value⟩ := rfl
    rw [entryTokens, List.foldlM_cons, hs, Option.bind_eq_bind, Option.bind_some, List.foldlM_cons,
      hcolon, Option.bind_eq_bind, Option.bind_some]
    exact hentries (key, j) List.mem_cons_self (awaits_value _)
  | cons d rest ih =>
    obtain ⟨key, j⟩ := e
    have hcolon : step ⟨stack, .colon done key⟩ .colon =
        some ⟨.object done key :: stack, .value⟩ := rfl
    have hvalue := hentries (key, j) List.mem_cons_self (awaits_value (.object done key :: stack))
    have hcomma : step ⟨stack, .moreEntries ((key, j) :: done)⟩ .comma =
        some ⟨stack, .key ((key, j) :: done)⟩ := rfl
    rw [entryTokens.eq_3 key j (d :: rest) (List.cons_ne_nil d rest), List.foldlM_cons, hs,
      Option.bind_eq_bind, Option.bind_some, List.foldlM_cons, hcolon, Option.bind_eq_bind,
      Option.bind_some, List.foldlM_append, hvalue, Option.bind_eq_bind, Option.bind_some, complete,
      List.foldlM_cons, hcomma, Option.bind_eq_bind, Option.bind_some,
      ih (fun i hi => hentries i (List.mem_cons_of_mem _ hi)) fun _ => rfl]
    simp

/-- An object is complete if the values of its entries are. -/
theorem completes_object {entries : List (String × Json)}
    (h : ∀ e ∈ entries, Completes e.2.tokens e.2) :
    Completes (Json.object entries).tokens (.object entries) := by
  intro s stack hs
  have hbegin : s.step .beginObject = some ⟨stack, .firstKey⟩ := hs _ Token.noConfusion
  rw [tokens, List.foldlM_cons, hbegin, Option.bind_eq_bind, Option.bind_some, List.foldlM_append]
  cases entries with
  | nil => rfl
  | cons e rest =>
    have hend : step ⟨stack, .moreEntries (e :: rest).reverse⟩ .endObject =
        some (complete stack (.object (e :: rest).reverse.reverse)) := rfl
    rw [List.reverse_reverse] at hend
    rw [foldlM_entryTokens h fun _ => rfl, List.append_nil, Option.bind_eq_bind, Option.bind_some,
      List.foldlM_cons, hend]
    rfl

end Reader

/-- The tokens of a value complete it. -/
theorem Plain.completes {j : Json} (h : j.Plain) : Reader.Completes j.tokens j := by
  induction h with
  | null => exact Reader.completes_word .null
  | bool b => exact Reader.completes_word (.bool b)
  | int n => exact Reader.completes_word (.int n)
  | text s => exact Reader.completes_string (quote s)
  | array _ ih => exact Reader.completes_array ih
  | record _ ih =>
    refine Reader.completes_object fun e he => ?_
    obtain ⟨d, hd, rfl⟩ := List.mem_map.1 he
    exact ih d hd

/-- What is written is read back. -/
theorem parse?_render {j : Json} (h : j.Plain) : parse? (render j) = some j := by
  rw [parse?, tokens?_render h, Option.bind_some, ofTokens?, h.completes (Reader.awaits_value []),
    Option.bind_some]
  rfl

end TacAnalysis.Json
