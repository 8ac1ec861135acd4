import Mathlib.Data.List.Nodup
import TacAnalysis.Json.Decode
import TacAnalysis.Proofs.Checks
import TacAnalysis.Proofs.Json.Parse

/-!
# Decoders that read what is written

A decoder reads a JSON value as a typed one if it does so whenever the value is nested no deeper
than the decoder may go. For each way to put decoders together there is one law that says when
the whole reads what the parts read.

Main statement: `Reads.roundTrip`.
-/

namespace TacAnalysis.Json

/-- Whether no more than so many containers are open at once. -/
def nestsWithin : Nat → Json → Bool
  | 0, .array _ => false
  | 0, .object _ => false
  | room + 1, .array items => items.all (nestsWithin room)
  | room + 1, .object entries => entries.all fun e => nestsWithin room e.2
  | _, _ => true

/-- The decoder reads the JSON value `j` as `a`, however many containers may be opened, if they
are enough for `j`. -/
structure Reads {α : Type} (d : Decoder α) (j : Json) (a : α) : Prop where
  /-- The value is built from texts and whole numbers. -/
  plain : j.Plain
  /-- The decoder gives the typed value. -/
  decode_eq : ∀ room, j.nestsWithin room = true → d room j = some a

variable {α β : Type} {d : Decoder α} {j : Json} {a : α}

/-- What is written is read back as the same typed value. -/
theorem Reads.roundTrip (h : Reads d j a) (hnests : j.nestsWithin Decoder.nesting = true) :
    (parse? (render j)).bind (d Decoder.nesting) = some a := by
  rw [parse?_render h.plain, Option.bind_some, h.decode_eq _ hnests]

/-! ## Values without parts -/

theorem reads_nat {n : Nat} (h : n < idBound) : Reads .nat (.nat n) n where
  plain := .int n
  decode_eq room _ := by
    rw [nat, Decoder.nat, if_pos ⟨Int.natCast_nonneg n, by rwa [Int.toNat_natCast]⟩,
      Int.toNat_natCast]

theorem reads_int32 (c : Int32) : Reads .int32 (.int c.toInt) c where
  plain := .int _
  decode_eq room _ := by
    have hle : -2147483648 ≤ c.toInt ∧ c.toInt ≤ 2147483647 :=
      ⟨c.le_toInt, Int.le_of_lt_add_one c.toInt_lt⟩
    rw [Decoder.int32, if_pos hle, Int32.ofInt_toInt]

theorem reads_bool (b : Bool) : Reads .bool (.bool b) b where
  plain := .bool b
  decode_eq _ _ := rfl

theorem reads_text (s : String) : Reads .text (.text s) s where
  plain := .text s
  decode_eq _ _ := unquote?_quote s

/-! ## Parts -/

/-- Reading goes through functions. -/
theorem Reads.map (h : Reads d j a) (f : α → β) :
    Reads (fun room j => (d room j).map f) j (f a) where
  plain := h.plain
  decode_eq room hroom := by rw [h.decode_eq room hroom, Option.map_some]

/-- A field that is there is read. -/
theorem Reads.field (h : Reads d j a) {room : Nat} (hroom : j.nestsWithin room = true) :
    d.field room (some j) = some a :=
  h.decode_eq room hroom

/-- A value that may be missing is read, as it is never written as `null`. -/
theorem reads_orNull_nat {o : Option Nat} (h : ∀ n ∈ o, n < idBound) :
    Reads Decoder.nat.orNull (.ofOption .nat o) o := by
  cases o with
  | none => exact ⟨.null, fun _ _ => rfl⟩
  | some n =>
    have hn := reads_nat (h n rfl)
    refine ⟨hn.plain, fun room hroom => ?_⟩
    change (Decoder.nat room (.nat n)).map some = some (some n)
    rw [hn.decode_eq room hroom, Option.map_some]

/-- An optional field is read. -/
theorem Reads.optionalField {o : Option α} (h : Reads d.orNull j o) {room : Nat}
    (hroom : j.nestsWithin room = true) : d.optionalField room (some j) = some o :=
  h.decode_eq room hroom

/-- An array is read item by item. -/
theorem Reads.list {f : α → Json} {xs : List α} (h : ∀ x ∈ xs, Reads d (f x) x) :
    Reads (.list d) (.ofList f xs) xs where
  plain := by
    refine .array fun j hj => ?_
    obtain ⟨x, hx, rfl⟩ := List.mem_map.1 hj
    exact (h x hx).plain
  decode_eq room hroom := by
    cases room with
    | zero => cases hroom
    | succ room =>
      have hall : ∀ x ∈ xs, (f x).nestsWithin room = true := by
        simpa [ofList, nestsWithin] using hroom
      have hitems : xs.mapM (d room ∘ f) = some (xs.map id) :=
        mapM_eq_some_map fun x hx => (h x hx).decode_eq room (hall x hx)
      rw [ofList, Decoder.list, List.mapM_map, hitems, List.map_id]

theorem reads_nats {ns : List Nat} (h : ∀ n ∈ ns, n < idBound) : Reads (.list .nat) (.nats ns) ns :=
  .list fun n hn => reads_nat (h n hn)

/-- A pair is read as an array of two. -/
theorem Reads.pair {e : Decoder β} {k : Json} {b : β} (ha : Reads d j a) (hb : Reads e k b) :
    Reads (.pair d e) (.array [j, k]) (a, b) where
  plain := .array (by simp [ha.plain, hb.plain])
  decode_eq room hroom := by
    cases room with
    | zero => cases hroom
    | succ room =>
      obtain ⟨hj, hk⟩ : j.nestsWithin room = true ∧ k.nestsWithin room = true := by
        simpa [nestsWithin] using hroom
      rw [Decoder.pair, ha.decode_eq room hj, hb.decode_eq room hk]
      rfl

/-! ## Records -/

/-- The entry with the name of a listed entry is that entry, if names are not repeated. -/
theorem find?_name {entries : List (String × Json)} (hnodup : (entries.map (·.1)).Nodup)
    {e : String × Json} (he : e ∈ entries) : entries.find? (·.1 = e.1) = some e := by
  induction entries with
  | nil => cases he
  | cons first rest ih =>
    obtain ⟨hfirst, hrest⟩ := List.nodup_cons.1 hnodup
    rcases List.mem_cons.1 he with rfl | he
    · simp
    · have hne : first.1 ≠ e.1 := fun h => hfirst (List.mem_map.2 ⟨e, he, h.symm⟩)
      rw [List.find?_cons_of_neg (by simpa using hne)]
      exact ih hrest he

/-- The fields of a record are found by name. -/
theorem fields?_record {entries : List (String × Json)} (hnodup : (entries.map (·.1)).Nodup) :
    fields? (entries.map (·.1)) (.record entries) = some (entries.map (some ·.2)) := by
  have hkeyed : keyed? (entries.map fun e => (quote e.1, e.2)) = some (entries.map id) := by
    rw [keyed?, List.mapM_map]
    exact mapM_eq_some_map fun e _ => by simp
  have hcount : ∀ name ∈ entries.map (·.1), entries.countP (·.1 = name) ≤ 1 := by
    intro name _
    have hone := List.nodup_iff_count_le_one.1 hnodup name
    rw [List.count, List.countP_map] at hone
    refine le_of_eq_of_le (List.countP_congr fun e _ => ?_) hone
    simp
  rw [record, fields?, hkeyed, List.map_id, Option.bind_eq_bind, Option.bind_some,
    if_pos (by simpa using hcount), List.map_map]
  refine congrArg some (List.map_congr_left fun e he => ?_)
  simp [find?_name hnodup he]

/-- A record is read if its fields are. -/
theorem Reads.record {names : List String} {entries : List (String × Json)}
    {read : Nat → List (Option Json) → Option α} (hnames : entries.map (·.1) = names)
    (hnodup : names.Nodup) (hplain : entries.Forall (·.2.Plain))
    (hread : ∀ room, entries.Forall (·.2.nestsWithin room = true) →
      read room (entries.map (some ·.2)) = some a) :
    Reads (.record names read) (.record entries) a where
  plain := .record (List.forall_iff_forall_mem.1 hplain)
  decode_eq room hroom := by
    cases room with
    | zero => cases hroom
    | succ room =>
      have hall : entries.Forall (·.2.nestsWithin room = true) := by
        rw [List.forall_iff_forall_mem]
        simpa [Json.record, nestsWithin] using hroom
      subst hnames
      rw [Decoder.record, fields?_record hnodup, Option.bind_some]
      exact hread room hall

/-! ## Choices -/

/-- A choice without payload is read from its name. -/
theorem Reads.plainChoice {plain : String → Option α} {payload : String → Decoder α} {name : String}
    (h : plain name = some a) : Reads (.choice plain payload) (.text name) a where
  plain := .text name
  decode_eq _ _ := by rw [text, Decoder.choice, unquote?_quote, Option.bind_some, h]

/-- A choice with payload is read from the object that carries it. -/
theorem choice_tagged {plain : String → Option α} {payload : String → Decoder α} {name : String}
    (hname : plain name = none) (room : Nat) (j : Json) :
    Decoder.choice plain payload (room + 1) (.tagged name j) = payload name room j := by
  rw [tagged, Json.record, List.map_cons, List.map_nil]
  unfold Decoder.choice
  simp only [unquote?_quote, Option.bind_eq_bind, Option.bind_some, hname]

theorem nestsWithin_tagged {room : Nat} {name : String} :
    (tagged name j).nestsWithin (room + 1) = j.nestsWithin room := by
  simp [tagged, Json.record, nestsWithin]

theorem Plain.tagged (h : j.Plain) (name : String) : (tagged name j).Plain :=
  .record (by simpa using h)

/-- A choice with payload is read if its payload is. -/
theorem Reads.taggedChoice {plain : String → Option α} {payload : String → Decoder α}
    {name : String} (hname : plain name = none) (h : Reads (payload name) j a) :
    Reads (.choice plain payload) (.tagged name j) a where
  plain := h.plain.tagged name
  decode_eq room hroom := by
    cases room with
    | zero => cases hroom
    | succ room =>
      rw [choice_tagged hname]
      exact h.decode_eq room (nestsWithin_tagged ▸ hroom)

end TacAnalysis.Json
