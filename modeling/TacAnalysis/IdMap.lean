/-!
# Finite maps from identifiers

A map is kept as its list of bindings in strictly ascending order of the bound
identifiers, so two maps that answer every lookup alike are equal as values. The
dataflow solvers rely on this: they detect a change of a fact by comparing values.
-/

namespace TacAnalysis

/-- A finite map from identifiers, represented by its bindings in ascending order. -/
structure IdMap (α : Type) where
  /-- The bindings, ordered by identifier. -/
  entries : List (Nat × α)
  /-- Every identifier is bound once and before all larger ones. -/
  ascending : entries.Pairwise (fun a b => a.1 < b.1)

namespace IdMap

variable {α : Type}

/-- Two maps are equal when their binding lists are. -/
theorem ext_entries {m n : IdMap α} (h : m.entries = n.entries) : m = n := by
  cases m; cases n; cases h; rfl

instance [DecidableEq α] : DecidableEq (IdMap α) := fun m n =>
  if h : m.entries = n.entries then isTrue (ext_entries h)
  else isFalse fun e => h (congrArg entries e)

/-- The map without bindings. -/
def empty : IdMap α := ⟨[], .nil⟩

instance : EmptyCollection (IdMap α) := ⟨empty⟩

instance : Inhabited (IdMap α) := ⟨empty⟩

/-- The value bound to `k` in a list of bindings. -/
def find (k : Nat) : List (Nat × α) → Option α
  | [] => none
  | (j, a) :: rest => if j = k then some a else find k rest

/-- The value bound to `k`, if any. -/
def get? (m : IdMap α) (k : Nat) : Option α := find k m.entries

@[simp] theorem get?_empty (k : Nat) : (∅ : IdMap α).get? k = none := rfl

/-- Binds `k` to `a` in an ascending list of bindings, replacing an earlier binding. -/
def insertInto (k : Nat) (a : α) : List (Nat × α) → List (Nat × α)
  | [] => [(k, a)]
  | (j, b) :: rest =>
    if k < j then (k, a) :: (j, b) :: rest
    else if k = j then (k, a) :: rest
    else (j, b) :: insertInto k a rest

/-- Drops the binding of `k` from a list of bindings. -/
def eraseFrom (k : Nat) (entries : List (Nat × α)) : List (Nat × α) :=
  entries.filter (fun e => e.1 ≠ k)

theorem mem_insertInto {k : Nat} {a : α} {e : Nat × α} {entries : List (Nat × α)}
    (h : e ∈ insertInto k a entries) : e = (k, a) ∨ e ∈ entries := by
  induction entries with
  | nil => simpa [insertInto] using h
  | cons d rest ih =>
    obtain ⟨j, b⟩ := d
    unfold insertInto at h
    split at h
    · simpa using h
    · split at h <;> grind

theorem insertInto_ascending {k : Nat} {a : α} {entries : List (Nat × α)}
    (h : entries.Pairwise (fun a b => a.1 < b.1)) :
    (insertInto k a entries).Pairwise (fun a b => a.1 < b.1) := by
  induction entries with
  | nil => simp [insertInto]
  | cons d rest ih =>
    obtain ⟨j, b⟩ := d
    rw [List.pairwise_cons] at h
    unfold insertInto
    split
    · rename_i hlt
      refine List.pairwise_cons.2 ⟨fun e he => ?_, List.pairwise_cons.2 h⟩
      rcases List.mem_cons.1 he with rfl | he
      · exact hlt
      · exact Nat.lt_trans hlt (h.1 e he)
    · split
      · rename_i heq
        subst heq
        exact List.pairwise_cons.2 ⟨h.1, h.2⟩
      · refine List.pairwise_cons.2 ⟨fun e he => ?_, ih h.2⟩
        rcases mem_insertInto he with rfl | he
        · show j < k
          omega
        · exact h.1 e he

/-- The map with `k` bound to `a`. -/
def insert (m : IdMap α) (k : Nat) (a : α) : IdMap α :=
  ⟨insertInto k a m.entries, insertInto_ascending m.ascending⟩

/-- The map without a binding of `k`. -/
def erase (m : IdMap α) (k : Nat) : IdMap α :=
  ⟨eraseFrom k m.entries, m.ascending.filter _⟩

theorem find_insertInto (k j : Nat) (a : α) (entries : List (Nat × α)) :
    find j (insertInto k a entries) = if j = k then some a else find j entries := by
  induction entries with
  | nil => simp [insertInto, find, eq_comm]
  | cons d rest ih =>
    obtain ⟨i, b⟩ := d
    unfold insertInto
    split
    · simp only [find]; grind
    · split
      · subst_vars; simp only [find]; grind
      · simp only [find, ih]; grind

theorem find_eraseFrom (k j : Nat) (entries : List (Nat × α)) :
    find j (eraseFrom k entries) = if j = k then none else find j entries := by
  induction entries with
  | nil => simp [eraseFrom, find]
  | cons d rest ih =>
    obtain ⟨i, b⟩ := d
    unfold eraseFrom at ih ⊢
    rw [List.filter_cons]
    split
    · simp only [find, ih]; grind
    · simp only [ih, find]; grind

/-- A lookup sees the new binding and, elsewhere, the old map. -/
@[simp] theorem get?_insert (m : IdMap α) (k j : Nat) (a : α) :
    (m.insert k a).get? j = if j = k then some a else m.get? j :=
  find_insertInto k j a m.entries

/-- A lookup no longer sees an erased binding and, elsewhere, the old map. -/
@[simp] theorem get?_erase (m : IdMap α) (k j : Nat) :
    (m.erase k).get? j = if j = k then none else m.get? j :=
  find_eraseFrom k j m.entries

/-- The number of bindings. -/
def size (m : IdMap α) : Nat := m.entries.length

/-- Whether nothing is bound. -/
def isEmpty (m : IdMap α) : Bool := m.entries.isEmpty

/-- The bindings in ascending order of identifiers. -/
def toList (m : IdMap α) : List (Nat × α) := m.entries

/-- The map of a list of bindings; of several for one identifier the last counts. -/
def ofList (entries : List (Nat × α)) : IdMap α :=
  entries.foldl (fun m e => m.insert e.1 e.2) empty

theorem mem_of_find_eq_some {entries : List (Nat × α)} {k : Nat} {a : α}
    (h : find k entries = some a) : (k, a) ∈ entries := by
  induction entries with
  | nil => simp [find] at h
  | cons d rest ih =>
    obtain ⟨j, b⟩ := d
    simp only [find] at h
    split at h
    · simp_all
    · exact List.mem_cons_of_mem _ (ih h)

/-- If no identifier is bound twice, a lookup finds exactly what is bound. -/
theorem find_eq_some_iff {entries : List (Nat × α)} (h : (entries.map (·.1)).Nodup) {k : Nat}
    {a : α} : find k entries = some a ↔ (k, a) ∈ entries := by
  refine ⟨mem_of_find_eq_some, fun hmem => ?_⟩
  induction entries with
  | nil => cases hmem
  | cons d rest ih =>
    obtain ⟨j, b⟩ := d
    obtain ⟨hj, hrest⟩ := List.nodup_cons.1 h
    rw [find]
    rcases List.mem_cons.1 hmem with heq | hmem
    · obtain ⟨rfl, rfl⟩ := Prod.mk.inj heq
      exact if_pos rfl
    · have hne : j ≠ k := by
        rintro rfl
        exact hj (List.mem_map.2 ⟨(j, a), hmem, rfl⟩)
      rw [if_neg hne]
      exact ih hrest hmem

/-- A map binds no identifier twice. -/
theorem nodup_keys (m : IdMap α) : (m.toList.map (·.1)).Nodup :=
  List.pairwise_map.2 (m.ascending.imp Nat.ne_of_lt)

/-- A binding is listed exactly when a lookup finds it. -/
theorem mem_toList_iff {m : IdMap α} {k : Nat} {a : α} : (k, a) ∈ m.toList ↔ m.get? k = some a :=
  (find_eq_some_iff m.nodup_keys).symm

/-- Of several bindings for one identifier the last counts. -/
theorem get?_ofList (bindings : List (Nat × α)) (k : Nat) :
    (ofList bindings).get? k = find k bindings.reverse := by
  rw [ofList, List.foldl_eq_foldr_reverse]
  induction bindings.reverse with
  | nil => rfl
  | cons b rest ih =>
    rw [List.foldr_cons, get?_insert, ih, find]
    simp only [eq_comm]

/-- Ascending binding lists that answer every lookup alike are equal. -/
theorem eq_of_find : ∀ {xs ys : List (Nat × α)}, xs.Pairwise (fun a b => a.1 < b.1) →
    ys.Pairwise (fun a b => a.1 < b.1) → (∀ k, find k xs = find k ys) → xs = ys
  | [], [], _, _, _ => rfl
  | [], (j, b) :: ys, _, _, h => by have := h j; simp [find] at this
  | (i, a) :: xs, [], _, _, h => by have := h i; simp [find] at this
  | (i, a) :: xs, (j, b) :: ys, hx, hy, h => by
    rw [List.pairwise_cons] at hx hy
    have hi := h i
    have hj := h j
    have hij : i = j := by
      by_cases hij : i = j
      · exact hij
      · simp only [find, ↓reduceIte, if_neg hij, if_neg (Ne.symm hij)] at hi hj
        have h1 := hy.1 _ (mem_of_find_eq_some hi.symm)
        have h2 := hx.1 _ (mem_of_find_eq_some hj)
        simp only at h1 h2
        omega
    subst hij
    simp only [find, ↓reduceIte, Option.some.injEq] at hi
    subst hi
    refine congrArg ((i, a) :: ·) (eq_of_find hx.2 hy.2 fun k => ?_)
    by_cases hk : i = k
    · subst hk
      have h1 : find i xs = none := by
        cases hf : find i xs with
        | none => rfl
        | some c => exact absurd (hx.1 _ (mem_of_find_eq_some hf)) (Nat.lt_irrefl _)
      have h2 : find i ys = none := by
        cases hf : find i ys with
        | none => rfl
        | some c => exact absurd (hy.1 _ (mem_of_find_eq_some hf)) (Nat.lt_irrefl _)
      rw [h1, h2]
    · have := h k
      simpa only [find, if_neg hk] using this

/-- Maps that answer every lookup alike are equal. -/
@[ext] theorem ext {m n : IdMap α} (h : ∀ k, m.get? k = n.get? k) : m = n :=
  ext_entries (eq_of_find m.ascending n.ascending h)

/-- A map is given back by its bindings, in whatever order they are made. -/
theorem ofList_of_perm {bindings : List (Nat × α)} {m : IdMap α} (h : bindings.Perm m.toList) :
    ofList bindings = m := by
  ext k a
  have hnodup : (bindings.reverse.map (·.1)).Nodup :=
    (((List.reverse_perm bindings).trans h).map _).symm.nodup m.nodup_keys
  rw [get?_ofList, find_eq_some_iff hnodup, List.mem_reverse, h.mem_iff, mem_toList_iff]

end IdMap

end TacAnalysis
