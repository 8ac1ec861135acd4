import TacAnalysis.Iterate
import TacAnalysis.Proofs.Program.Numbering
import TacAnalysis.Proofs.Search

/-!
# Tables that are read strictly

The lookups of analyses are total: outside a table they find a default. Here the same
computations are made strict: a single lookup outside its table and the whole computation gives
nothing. A strict computation that gives something has looked up nothing outside a table.

This module has what strict computations share: tables of rows that are filled entry by entry, those
of the edges of a graph among them, searches whose successors are looked up, and runs whose steps are
strict.

Main statements: `exists_rows?`, `exists_edgeRows?`, `exists_placeRows?`, `visit?_start` and
`after?_eq_some`.
-/

namespace TacAnalysis.Strict

/-! ## Rows -/

section Rows

variable {α : Type}

/-- Appends an element to the row of a number. -/
def append? (rows : List (List α)) (e : Nat × α) : Option (List (List α)) :=
  if e.1 < rows.length then some (rows.modify e.1 (· ++ [e.2])) else none

/-- As many rows as asked for, filled with the entries in order. -/
def rows? (size : Nat) (entries : List (Nat × α)) : Option (List (List α)) :=
  entries.foldlM append? (List.replicate size [])

/-- The elements that entries give to a number. -/
def row (entries : List (Nat × α)) (n : Nat) : List α := (entries.filter (·.1 = n)).map (·.2)

/-- Entries for the rows of a table can all be made, and go behind what the rows hold. -/
theorem foldlM_append? {entries : List (Nat × α)} {rows : List (List α)}
    (h : ∀ e ∈ entries, e.1 < rows.length) : ∃ filled, entries.foldlM append? rows = some filled ∧
      ∀ n, filled[n]? = rows[n]?.map (· ++ row entries n) := by
  induction entries generalizing rows with
  | nil => exact ⟨rows, rfl, fun n => by simp [row]⟩
  | cons e entries ih =>
    obtain ⟨he, hrest⟩ := List.forall_mem_cons.1 h
    have hlater : ∀ e' ∈ entries, e'.1 < (rows.modify e.1 (· ++ [e.2])).length := fun e' he' => by
      rw [List.length_modify]
      exact hrest e' he'
    obtain ⟨filled, hfilled, hrows⟩ := ih hlater
    refine ⟨filled, ?_, fun n => ?_⟩
    · rw [List.foldlM_cons, append?, if_pos he]
      exact hfilled
    · rw [hrows, List.getElem?_modify]
      by_cases hn : e.1 = n
      · simp [row, hn, Function.comp_def]
      · simp [row, hn]

/-- Entries for the rows of a table fill them. -/
theorem exists_rows? {size : Nat} {entries : List (Nat × α)} (h : ∀ e ∈ entries, e.1 < size) :
    ∃ rows, rows? size entries = some rows ∧ ∀ n < size, rows[n]? = some (row entries n) := by
  have hentries : ∀ e ∈ entries, e.1 < (List.replicate size ([] : List α)).length := fun e he => by
    rw [List.length_replicate]
    exact h e he
  obtain ⟨rows, hrows, hget⟩ := foldlM_append? hentries
  refine ⟨rows, hrows, fun n hn => ?_⟩
  rw [hget, List.getElem?_replicate_of_lt hn]
  rfl

/-- Something of each element of a list goes into the row that the element names. -/
theorem exists_rows?_map {E : Type} {size : Nat} {number : E → Nat} {xs : List E}
    (h : ∀ e ∈ xs, number e < size) (value : E → α) :
    ∃ rows, rows? size (xs.map fun e => (number e, value e)) = some rows ∧
      ∀ n < size, rows[n]? = some ((xs.filter (number · = n)).map value) := by
  have hentries : ∀ entry ∈ xs.map fun e => (number e, value e), entry.1 < size := by
    simpa using h
  obtain ⟨rows, hrows, hget⟩ := exists_rows? hentries
  refine ⟨rows, hrows, fun n hn => ?_⟩
  rw [hget n hn, row, List.filter_map, List.map_map]
  rfl

end Rows

/-! ## Rows of edges -/

section Edges

variable {E : Type} {size : Nat} {source target number : E → Nat} {edges xs : List E}

/-- The edges of a graph, by the node that they leave and by the node that they enter. -/
structure EdgeRows (E : Type) where
  /-- The edges that leave a node. -/
  outEdges : List (List E)
  /-- The edges that enter a node. -/
  inEdges : List (List E)

/-- The rows of a table of edges between so many nodes. -/
def edgeRows? {E : Type} (size : Nat) (source target : E → Nat) (edges : List E) :
    Option (EdgeRows E) := do
  let outEdges ← rows? size (edges.map fun e => (source e, e))
  let inEdges ← rows? size (edges.map fun e => (target e, e))
  return ⟨outEdges, inEdges⟩

/-- The rows of edges between nodes can be filled, and hold the edges of each node. -/
theorem exists_edgeRows? (hsource : ∀ e ∈ edges, source e < size)
    (htarget : ∀ e ∈ edges, target e < size) :
    ∃ rows, edgeRows? size source target edges = some rows ∧ ∀ n < size,
      rows.outEdges[n]? = some (edges.filter (source · = n)) ∧
        rows.inEdges[n]? = some (edges.filter (target · = n)) := by
  obtain ⟨outEdges, hout, hleave⟩ := exists_rows?_map hsource fun e => e
  obtain ⟨inEdges, hin, henter⟩ := exists_rows?_map htarget fun e => e
  simp only [List.map_id'] at hleave henter
  refine ⟨⟨outEdges, inEdges⟩, ?_, fun n hn => ⟨hleave n hn, henter n hn⟩⟩
  rw [edgeRows?, hout, hin]
  rfl

/-- The places tell the elements of a list that have a number. -/
structure Tells (xs : List E) (number : E → Nat) (n : Nat) (places : List Nat) (told : List E) :
    Prop where
  /-- The places ascend. -/
  ascending : places.Pairwise (· < ·)
  /-- They are the places of all elements with the number. -/
  mem_iff : ∀ k, k ∈ places ↔ ∃ e, xs[k]? = some e ∧ number e = n
  /-- What is told are the elements at these places. -/
  map_eq : places.map (xs[·]?) = told.map some

/-- The rows of a table with the places of the elements that have a number. -/
def placeRows? {E : Type} (size : Nat) (number : E → Nat) (xs : List E) :
    Option (List (List Nat)) :=
  rows? size (xs.zipIdx.map fun e => (number e.1, e.2))

/-- The places of elements that are picked by their number. -/
theorem tells_filter (xs : List E) (number : E → Nat) (n : Nat) :
    Tells xs number n ((xs.zipIdx.filter fun e => number e.1 = n).map (·.2))
      (xs.filter (number · = n)) := by
  have hpicked : ∀ e, e ∈ xs.zipIdx.filter (fun e => number e.1 = n) ↔
      xs[e.2]? = some e.1 ∧ number e.1 = n := by
    intro e
    rw [List.mem_filter, List.mem_zipIdx_iff_getElem?, decide_eq_true_eq]
  refine ⟨?_, fun k => ?_, ?_⟩
  · rw [List.pairwise_map]
    exact (InPlace.zipIdx xs).pairwise_lt.filter _
  · rw [List.mem_map]
    constructor
    · rintro ⟨e, he, rfl⟩
      exact ⟨e.1, (hpicked e).1 he⟩
    · rintro ⟨e, he⟩
      exact ⟨(e, k), (hpicked (e, k)).2 he, rfl⟩
  · -- the same elements are picked if each carries its place
    calc ((xs.zipIdx.filter fun e => number e.1 = n).map (·.2)).map (xs[·]?)
        = (xs.zipIdx.filter fun e => number e.1 = n).map fun e => some e.1 := by
          rw [List.map_map]
          exact List.map_congr_left fun e he => ((hpicked e).1 he).1
      _ = ((xs.zipIdx.filter fun e => number e.1 = n).map (·.1)).map some := by
          rw [List.map_map]
          rfl
      _ = (xs.filter (number · = n)).map some := by
          conv_rhs => rw [← List.zipIdx_map_fst 0 xs, List.filter_map]
          rfl

/-- The rows of places can be filled, and tell the elements with each number. -/
theorem exists_placeRows? (h : ∀ e ∈ xs, number e < size) :
    ∃ rows, placeRows? size number xs = some rows ∧ ∀ n < size, ∃ places,
      rows[n]? = some places ∧ Tells xs number n places (xs.filter (number · = n)) := by
  have hplaced : ∀ e ∈ xs.zipIdx, number e.1 < size := fun e he =>
    h e.1 (List.mem_of_getElem? (List.mem_zipIdx_iff_getElem?.1 he))
  obtain ⟨rows, hrows, hget⟩ := exists_rows?_map hplaced fun e => e.2
  exact ⟨rows, hrows, fun n hn => ⟨_, hget n hn, tells_filter xs number n⟩⟩

end Edges

/-! ## Searches -/

section Searches

variable {look : Nat → Option (List Nat)} {next : Nat → List Nat}
  {arrange : List Nat → List Nat → List Nat} {size : Nat}

/-- A search whose successors are looked up; nothing either if it is not over after so many
turns. -/
def visit? (look : Nat → Option (List Nat)) (arrange : List Nat → List Nat → List Nat) :
    Nat → List Nat → List Nat → Option (List Nat)
  | _, visited, [] => some visited
  | 0, _, _ :: _ => none
  | turns + 1, visited, n :: pending =>
    if n ∈ visited then visit? look arrange turns visited pending
    else do
      let new ← look n
      visit? look arrange turns (visited ++ [n]) (arrange new pending)

/-- A search that stays below a number and finds successors there looks up nothing else. -/
theorem visit?_eq (ha : Search.Arranges arrange) (hlook : ∀ n < size, look n = some (next n))
    (hnext : ∀ n < size, ∀ m ∈ next n, m < size) {turns : Nat} {visited pending : List Nat}
    (hpending : ∀ n ∈ pending, n < size) :
    visit? look arrange turns visited pending =
      Search.visitWithin? next arrange turns visited pending := by
  induction turns generalizing visited pending with
  | zero => cases pending <;> rfl
  | succ turns ih =>
    cases pending with
    | nil => rfl
    | cons n pending =>
      obtain ⟨hn, hrest⟩ := List.forall_mem_cons.1 hpending
      rw [visit?, Search.visitWithin?]
      split
      · exact ih hrest
      · rw [hlook n hn]
        refine ih fun m hm => ?_
        rcases (ha.mem_iff _ _ m).1 hm with hm | hm
        · exact hnext n hn m hm
        · exact hrest m hm

/-- A search from numbers below `size` is over after the turns that are set for it. -/
theorem visit?_start (ha : Search.Arranges arrange) (hlook : ∀ n < size, look n = some (next n))
    (hnext : ∀ n < size, ∀ m ∈ next n, m < size) {pending : List Nat}
    (hpending : ∀ n ∈ pending, n < size) :
    visit? look arrange (Search.turnBound next size pending) [] pending =
      some (Search.visit next arrange (Search.turnBound next size pending) [] pending) := by
  rw [visit?_eq ha hlook hnext hpending, Search.visitWithin?_start ha hnext hpending]

end Searches

/-! ## Runs -/

section Runs

variable {σ : Type}

/-- The state after `steps` steps that are strict: a step gives nothing, or the end of the run, or
the next state. -/
def after? (step? : σ → Option (Option σ)) : Nat → σ → Option σ
  | 0, s => some s
  | steps + 1, s => do
    match ← step? s with
    | none => return s
    | some t => after? step? steps t

/-- A run whose states have a property that steps keep and that makes them strict is strict. -/
theorem after?_eq_some {step? : σ → Option (Option σ)} {step : σ → Option σ} {holds : σ → Prop}
    (hstep : ∀ s, holds s → step? s = some (step s))
    (hkept : ∀ s t, holds s → step s = some t → holds t) {s : σ} (hs : holds s) (steps : Nat) :
    after? step? steps s = some (stateAfter step steps s) := by
  induction steps generalizing s with
  | zero => rfl
  | succ steps ih =>
    rw [after?, hstep s hs, stateAfter]
    cases ht : step s with
    | none => rfl
    | some t => exact ih (hkept s t hs ht)

end Runs

end TacAnalysis.Strict
