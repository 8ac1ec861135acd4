import TacAnalysis.Format.Facts
import TacAnalysis.Format.PointsTo
import TacAnalysis.Proofs.Format.Flow

/-!
# Reading everything back

Facts, reports, pointers and objects are read back as they were written, like everything of
which programs and graphs consist. The keys of a fact are numbers in quotation marks. They come in
whatever order the bindings are listed in: no variable is bound twice, so binding them one after
the other gives the fact back.

Main statement: `roundTrips`.
-/

namespace TacAnalysis

open Json

/-! ## Facts -/

/-- Abstract values are read back. -/
theorem Value.reads (v : Value) : Reads Value.decode v.toJson v := by
  cases v with
  | undefined => exact .plainChoice rfl
  | constant c => exact .taggedChoice rfl ((reads_int32 c).map constant)
  | nac => exact .plainChoice rfl

/-- An abstract value is nested one deep at most. -/
theorem Value.nestsWithin_toJson (v : Value) (room : Nat) :
    v.toJson.nestsWithin (room + 1) = true := by
  cases v with
  | undefined => rfl
  | constant c => exact nestsWithin_tagged.trans (by cases room <;> rfl)
  | nac => rfl

/-- A digit needs no escape. -/
theorem encodeChar_of_isDigit {c : Char} (hc : c.isDigit = true) :
    Text.Quoted.encodeChar c = [c] := by
  have hnone : ['"', '\\', '\x08', '\x0c', '\n', '\r', '\t'].any Char.isDigit = false := rfl
  have hspecial : ∀ d ∈ ['"', '\\', '\x08', '\x0c', '\n', '\r', '\t'], c ≠ d := by
    rintro d hd rfl
    exact List.any_eq_false.1 hnone c hd hc
  have hprintable : ¬ c.toNat < 32 := by
    simp only [Char.isDigit, Bool.and_eq_true, decide_eq_true_eq] at hc
    have : 48 ≤ c.toNat := hc.1
    omega
  simp only [List.forall_mem_cons, List.not_mem_nil] at hspecial
  simp [Text.Quoted.encodeChar, hspecial, hprintable]

/-- A number in quotation marks is written by its digits. -/
theorem toList_quote_toString (n : Nat) : (quote (toString n)).toList = Nat.toDigits 10 n := by
  rw [quote, Nat.toString_eq_ofList_toDigits, String.toList_ofList, String.toList_ofList]
  have hplain : ∀ c ∈ Nat.toDigits 10 n, Text.Quoted.encodeChar c = [c] := fun c hc =>
    encodeChar_of_isDigit (isDigit_of_mem_toDigits hc)
  rw [Text.Quoted.encode, List.flatMap_congr hplain, List.flatMap_singleton']

namespace ConstFact

/-- The numbers in a fact are those of its variables. -/
def numbers (f : ConstFact) : List Nat := f.toList.map (·.1)

/-- The key of a variable is read back. -/
theorem keyVar?_quote {v : VarId} (h : v < idBound) : keyVar? (quote (toString v)) = some v := by
  rw [keyVar?, toList_quote_toString, if_pos (isNumber_toDigits v), numberOf_toDigits]
  exact (reads_nat h).decode_eq 0 rfl

/-- A fact is nested three deep at most. -/
theorem nestsWithin_listToJson (bindings : List (VarId × Value)) (room : Nat) :
    (listToJson bindings).nestsWithin (room + 3) = true := by
  simp [listToJson, record, nestsWithin, Value.nestsWithin_toJson]

section

variable {f : ConstFact} {bindings : List (VarId × Value)}

/-- The bindings of a fact are read back, in whatever order they are listed. -/
theorem reads_values (hperm : bindings.Perm f.toList) (h : InRange f.numbers) :
    Reads decodeValues (.record (bindings.map fun b => (toString b.1, b.2.toJson))) f.values where
  plain := by
    refine .record fun e he => ?_
    obtain ⟨b, -, rfl⟩ := List.mem_map.1 he
    exact b.2.reads.plain
  decode_eq room hroom := by
    cases room with
    | zero => cases hroom
    | succ room =>
      have hall : ∀ b ∈ bindings, b.2.toJson.nestsWithin room = true := by
        intro b hb
        simp only [record, nestsWithin, List.map_map, List.all_map, List.all_eq_true] at hroom
        exact hroom b hb
      have hvar : ∀ b ∈ bindings, b.1 < idBound := fun b hb =>
        h b.1 (List.mem_map_of_mem (hperm.mem_iff.1 hb))
      have hentries : ((bindings.map fun b => (toString b.1, b.2.toJson)).map
          fun e : String × Json => (quote e.1, e.2)).mapM
          (fun e => do return (← keyVar? e.1, ← Value.decode room e.2)) =
          some (bindings.map id) := by
        rw [List.map_map, List.mapM_map]
        refine mapM_eq_some_map fun b hb => ?_
        change (do return (← keyVar? (quote (toString b.1)), ← Value.decode room b.2.toJson)) = some b
        rw [keyVar?_quote (hvar b hb), b.2.reads.decode_eq room (hall b hb)]
        rfl
      rw [record, decodeValues, hentries, List.map_id]
      exact congrArg some (IdMap.ofList_of_perm hperm)

/-- Facts are read back, in whatever order their bindings are listed. -/
theorem reads (hperm : bindings.Perm f.toList) (h : InRange f.numbers) :
    Reads ConstFact.decode (listToJson bindings) f := by
  have hvalues := reads_values hperm h
  refine .record rfl (by decide) hvalues.plain fun room h₁ => ?_
  change (decodeValues.field room (some _)).bind (fun values => some ⟨values⟩) = some f
  rw [hvalues.field h₁]
  rfl

/-- The text of a fact is read back as the fact, in whatever order its bindings are listed. -/
theorem parse?_render_listToJson (hperm : bindings.Perm f.toList) (h : InRange f.numbers) :
    (parse? (render (listToJson bindings))).bind (ConstFact.decode Decoder.nesting) = some f :=
  (reads hperm h).roundTrip (nestsWithin_listToJson bindings 124)

end

end ConstFact

/-! ## Reports -/

namespace DeadCodeReport

/-- The numbers in a report are positions. -/
def numbers (r : DeadCodeReport) : List Nat := r.dead ++ r.unreachable ++ r.deadAssignments

/-- Reports are read back. -/
theorem reads {r : DeadCodeReport} (h : InRange r.numbers) :
    Reads DeadCodeReport.decode r.toJson r := by
  simp only [numbers, inRange_append] at h
  obtain ⟨⟨hdead, hunreachable⟩, hassignments⟩ := h
  have hmethod := reads_text r.method
  have hdead := reads_nats hdead
  have hunreachable := reads_nats hunreachable
  have hassignments := reads_nats hassignments
  refine .record rfl (by decide)
    ⟨hmethod.plain, hdead.plain, hunreachable.plain, hassignments.plain⟩
    fun room hroom => ?_
  obtain ⟨h₁, h₂, h₃, h₄⟩ := hroom
  simp [hmethod.field h₁, hdead.field h₂, hunreachable.field h₃, hassignments.field h₄]

end DeadCodeReport

/-- The values are objects with the same entries, whatever their order, and no key is repeated. -/
def Json.SameEntries (j k : Json) : Prop :=
  ∃ entries entries', j = .object entries ∧ k = .object entries' ∧ entries.Perm entries' ∧
    (entries.map (·.1)).Nodup

/-- A summary is the same JSON value as the written form of the report. -/
theorem DeadCodeReport.sameEntries_summary (r : DeadCodeReport) :
    Json.SameEntries r.summary r.toJson := by
  have hperm : ∀ a b c d : String × Json, [a, b, c, d].Perm [c, a, d, b] := fun a b c d =>
    ((List.Perm.swap c b [d]).cons a).trans
      ((List.Perm.swap c a [b, d]).trans (((List.Perm.swap d b []).cons a).cons c))
  refine ⟨_, _, rfl, rfl, (hperm _ _ _ _).map _, ?_⟩
  simp only [List.map_cons, List.map_nil]
  decide

/-! ## Pointers and objects -/

/-- The numbers in a pointer. -/
def Pointer.numbers : Pointer → List Nat
  | var v => [v]
  | staticField f => [f]
  | instanceField o f => [o, f]
  | arrayIndex o => [o]

/-- Pointers are read back. -/
theorem Pointer.reads {x : Pointer} (h : InRange x.numbers) :
    Reads Pointer.decode x.toJson x := by
  cases x with
  | var v => exact .taggedChoice rfl ((reads_nat (inRange_cons.1 h).1).map var)
  | staticField f => exact .taggedChoice rfl ((reads_nat (inRange_cons.1 h).1).map staticField)
  | instanceField o f =>
    simp only [numbers, inRange_cons] at h
    exact .taggedChoice rfl (((reads_nat h.1).pair (reads_nat h.2.1)).map fun e =>
      instanceField e.1 e.2)
  | arrayIndex o => exact .taggedChoice rfl ((reads_nat (inRange_cons.1 h).1).map arrayIndex)

/-- The numbers in an abstract object. -/
def Obj.numbers (o : Obj) : List Nat := [o.id] ++ o.site.numbers ++ o.ty.numbers

/-- Abstract objects are read back. -/
theorem Obj.reads {o : Obj} (h : InRange o.numbers) : Reads Obj.decode o.toJson o := by
  simp only [numbers, inRange_append] at h
  have hid := reads_nat (inRange_cons.1 h.1.1).1
  have hsite := Site.reads h.1.2
  have hty := Ty.reads h.2
  refine .record rfl (by decide) ⟨hid.plain, hsite.plain, hty.plain⟩ fun room hroom => ?_
  obtain ⟨h₁, h₂, h₃⟩ := hroom
  simp [hid.field h₁, hsite.field h₂, hty.field h₃]

/-! ## The whole format -/

/-- The text that is written for a value is read back as the value, if its numbers are in range
and no more containers are open at once than a reader may open. -/
def RoundTrips {α : Type} (toJson : α → Json) (decode : Decoder α) (numbers : α → List Nat) :
    Prop :=
  ∀ a, InRange (numbers a) → (toJson a).nestsWithin Decoder.nesting = true →
    (parse? (render (toJson a))).bind (decode Decoder.nesting) = some a

/-- What a decoder reads makes the round trip. -/
theorem roundTrips_of_reads {α : Type} {toJson : α → Json} {decode : Decoder α}
    {numbers : α → List Nat} (h : ∀ {a}, InRange (numbers a) → Reads decode (toJson a) a) :
    RoundTrips toJson decode numbers :=
  fun _ hnumbers hnests => (h hnumbers).roundTrip hnests

/-- Everything that can be written is read back, a fact in whatever order its bindings are listed,
and the summary of a report is the same JSON value as its written form. -/
theorem roundTrips :
    RoundTrips Ty.toJson Ty.decode Ty.numbers ∧
    RoundTrips BinaryOp.toJson BinaryOp.decode (fun _ => []) ∧
    RoundTrips BinaryExp.toJson BinaryExp.decode BinaryExp.numbers ∧
    RoundTrips Exp.toJson Exp.decode Exp.numbers ∧
    RoundTrips Stmt.toJson Stmt.decode Stmt.numbers ∧
    RoundTrips Invoke.toJson Invoke.decode Invoke.numbers ∧
    RoundTrips Method.toJson Method.decode Method.numbers ∧
    RoundTrips CallEdge.toJson CallEdge.decode CallEdge.numbers ∧
    RoundTrips FlowEdge.toJson FlowEdge.decode FlowEdge.numbers ∧
    RoundTrips NodeKind.toJson NodeKind.decode NodeKind.numbers ∧
    RoundTrips SuperEdge.toJson SuperEdge.decode SuperEdge.numbers ∧
    RoundTrips Value.toJson Value.decode (fun _ => []) ∧
    (∀ (f : ConstFact) (bindings : List (VarId × Value)), bindings.Perm f.toList →
      InRange f.numbers → (parse? (render (ConstFact.listToJson bindings))).bind
        (ConstFact.decode Decoder.nesting) = some f) ∧
    RoundTrips DeadCodeReport.toJson DeadCodeReport.decode DeadCodeReport.numbers ∧
    RoundTrips Pointer.toJson Pointer.decode Pointer.numbers ∧
    RoundTrips Obj.toJson Obj.decode Obj.numbers ∧
    ∀ r : DeadCodeReport, SameEntries r.summary r.toJson :=
  ⟨roundTrips_of_reads Ty.reads, roundTrips_of_reads fun _ => BinaryOp.reads _,
    roundTrips_of_reads BinaryExp.reads, roundTrips_of_reads Exp.reads,
    roundTrips_of_reads Stmt.reads, roundTrips_of_reads Invoke.reads,
    roundTrips_of_reads Method.reads, roundTrips_of_reads CallEdge.reads,
    roundTrips_of_reads FlowEdge.reads, roundTrips_of_reads NodeKind.reads,
    roundTrips_of_reads SuperEdge.reads, roundTrips_of_reads fun _ => Value.reads _,
    fun _ _ => ConstFact.parse?_render_listToJson, roundTrips_of_reads DeadCodeReport.reads,
    roundTrips_of_reads Pointer.reads, roundTrips_of_reads Obj.reads,
    DeadCodeReport.sameEntries_summary⟩

/-- A method with a body that needs escapes, negative constants, optional parts and the largest
number. -/
def manifold : Method where
  id := 3
  name := "run"
  owner := 18446744073709551615
  subsignature := "void run(\"A\\B\")"
  isStatic := false
  isAbstract := false
  params := [1, 2]
  thisVar := some 0
  stmts := [
    .nop,
    .assign 1 (.cast (.array (.array (.object 2))) 4),
    .assign 2 (.stringLiteral "tab\tquote\"null\x00 ü"),
    .assign 3 (.intLiteral (-2147483648)),
    .assign 3 (.binary ⟨.ushr, 3, 3⟩),
    .storeField none 7 18446744073709551615,
    .invoke ⟨.dynamic, ⟨0, "int f()"⟩, none, [1, 2], some 3⟩,
    .switch 3 [(-1, 0), (2147483647, 5)] 8,
    .ret (some 3),
    .ret none]
  returnVars := [3]

/-- Bindings in no particular order, of which one says explicitly that a variable is undefined. -/
def explicitBindings : List (VarId × Value) :=
  [(10, .nac), (18446744073709551615, .undefined), (2, .constant (-5))]

/-- The fact with these bindings. -/
def explicitFact : ConstFact := ⟨.ofList explicitBindings⟩

/-- The method and the fact are read back, also if a larger variable of the fact is written before
a smaller one. -/
theorem roundTrip_manifold :
    InRange manifold.numbers ∧ manifold.toJson.nestsWithin Decoder.nesting = true ∧
      (parse? (render manifold.toJson)).bind (Method.decode Decoder.nesting) = some manifold ∧
      explicitBindings.Perm explicitFact.toList ∧ explicitBindings ≠ explicitFact.toList ∧
      InRange explicitFact.numbers ∧ (parse? (render (ConstFact.listToJson explicitBindings))).bind
        (ConstFact.decode Decoder.nesting) = some explicitFact := by
  obtain ⟨-, -, -, -, -, -, hmethod, -, -, -, -, -, hfact, -⟩ := roundTrips
  have hnumbers : InRange manifold.numbers := by
    unfold InRange
    decide +kernel
  have hnests : manifold.toJson.nestsWithin Decoder.nesting = true := by decide +kernel
  have hperm : explicitBindings.Perm explicitFact.toList := by decide
  have hvars : InRange explicitFact.numbers := by
    unfold InRange
    decide +kernel
  exact ⟨hnumbers, hnests, hmethod _ hnumbers hnests, hperm, by decide, hvars,
    hfact _ _ hperm hvars⟩

end TacAnalysis
