import Mathlib.Data.List.TFAE
import Mathlib.Tactic.TFAE
import TacAnalysis.Proofs.Constants.Join
import TacAnalysis.Proofs.Format.RoundTrip

/-!
# Facts that can be obtained

The solvers detect a change by comparing facts as values, and an operation on a fact tells whether
it has changed it. Both are exact as long as no fact binds a variable to "undefined": then facts
that lookups cannot tell apart are equal.

Every operation on facts keeps it so. A fact that is read from a text binds whatever the text says,
and of several bindings for one variable the last counts. So the invariant holds exactly when for
no variable the last binding in a text that is read says "undefined", and without the invariant
none of what rests on it holds either. The texts that are written for facts within the invariant
do no harm.

Main statement: `obtainable_tfae`.
-/

namespace TacAnalysis

open Json (Decoder)

namespace ConstFact

/-! ## Reading facts -/

/-- Reads a fact from a text. -/
def ofText? (text : String) : Option ConstFact := do decode Decoder.nesting (← Json.parse? text)

/-- Reads the bindings of a fact in the order in which they stand in the text. -/
def listed : Decoder (List (VarId × Value))
  | room + 1, .object entries =>
    entries.mapM fun e => do return (← keyVar? e.1, ← Value.decode room e.2)
  | _, _ => none

/-- The bindings that a text lists for a fact. -/
def written? (text : String) : Option (List (VarId × Value)) := do
  match ← Json.fields? ["values"] (← Json.parse? text) with
  | [some values] => listed (Decoder.nesting - 1) values
  | _ => none

/-- For some variable the last binding that the text lists is "undefined". -/
def SaysUndefined (text : String) : Prop :=
  ∃ bindings, written? text = some bindings ∧ ∃ v, IdMap.find v bindings.reverse = some .undefined

/-- Bindings are read as a map by binding them one after the other. -/
theorem decodeValues_eq (room : Nat) (j : Json) :
    decodeValues room j = (listed room j).map .ofList := by
  cases room with
  | zero => rfl
  | succ room =>
    cases j with
    | object entries => exact Option.map_eq_bind.symm
    | _ => rfl

/-- A fact is read by binding what the text lists, one after the other. -/
theorem ofText?_eq (text : String) :
    ofText? text = (written? text).map fun bindings => ⟨.ofList bindings⟩ := by
  unfold ofText? written?
  cases Json.parse? text with
  | none => rfl
  | some json =>
    change (Json.fields? ["values"] json).bind _ = Option.map _ ((Json.fields? ["values"] json).bind _)
    cases Json.fields? ["values"] json with
    | none => rfl
    | some fields =>
      match fields with
      | [] | [none] | none :: _ :: _ | some _ :: _ :: _ => rfl
      | [some values] =>
        change (decodeValues 126 values).bind _ = Option.map _ (listed 126 values)
        rw [decodeValues_eq, Option.map_eq_bind]
        cases listed 126 values <;> rfl

/-! ## Obtaining facts -/

/-- The facts that can be obtained by operations on facts, and by reading some of the texts. -/
inductive Obtainable (texts : Set String) : ConstFact → Prop
  /-- The empty fact is at hand. -/
  | empty : Obtainable texts ∅
  /-- A variable is bound. -/
  | update {f : ConstFact} (hf : Obtainable texts f) (v : VarId) (x : Value) :
    Obtainable texts (f.update v x)
  /-- A variable is forgotten. -/
  | remove {f : ConstFact} (hf : Obtainable texts f) (v : VarId) : Obtainable texts (f.remove v)
  /-- A fact is replaced by another. -/
  | copyFrom {f g : ConstFact} (hf : Obtainable texts f) (hg : Obtainable texts g) :
    Obtainable texts (f.copyFrom g).2
  /-- The bindings of a fact are joined into another, in any order. -/
  | join {f g : ConstFact} (hf : Obtainable texts f) (hg : Obtainable texts g)
    {bindings : List (VarId × Value)} (hperm : bindings.Perm f.toList) :
    Obtainable texts (joinBindings bindings g)
  /-- A fact is read from a text. -/
  | read {text : String} {f : ConstFact} (htext : text ∈ texts) (hread : ofText? text = some f) :
    Obtainable texts f

section

variable (S : ConstFact → Prop)

/-- None of the facts binds a variable to "undefined". -/
def AllProper : Prop := ∀ f, S f → f.Proper

/-- The facts are equal exactly if no lookup tells them apart. -/
def ToldApart : Prop := ∀ f g, S f → S g → (f = g ↔ ∀ v, f.get v = g.get v)

/-- Binding a variable of one of the facts is reported as a change exactly if a lookup changes. -/
def UpdatesReported : Prop :=
  ∀ f, S f → ∀ v x, f.updateChanges v x = true ↔ ∃ w, (f.update v x).get w ≠ f.get w

/-- Forgetting a variable of one of the facts is reported as a change exactly if a lookup
changes. -/
def RemovalsReported : Prop :=
  ∀ f, S f → ∀ v, f.removeChanges v = true ↔ ∃ w, (f.remove v).get w ≠ f.get w

/-- Replacing one of the facts by another is reported as a change exactly if a lookup changes. -/
def ReplacementsReported : Prop :=
  ∀ f g, S f → S g → ((f.copyFrom g).1 = true ↔ ∃ w, (f.copyFrom g).2.get w ≠ f.get w)

end

/-! ## Reports -/

variable {f g : ConstFact} {v : VarId} {x : Value}

theorem exists_get_update_ne_iff : (∃ w, (f.update v x).get w ≠ f.get w) ↔ f.get v ≠ x := by
  constructor
  · rintro ⟨w, hw⟩ rfl
    refine hw ?_
    rw [get_update]
    split
    · rename_i hwv
      rw [hwv]
    · rfl
  · intro hv
    refine ⟨v, ?_⟩
    rw [get_update, if_pos rfl]
    exact Ne.symm hv

/-- A binding is reported if it changes the lookup of its variable, or if it drops an explicit
"undefined". -/
theorem updateChanges_iff : f.updateChanges v x = true ↔
    f.get v ≠ x ∨ x = .undefined ∧ f.values.get? v = some .undefined := by
  unfold get
  cases hv : f.values.get? v with
  | none => cases x <;> simp [updateChanges, removeChanges, hv]
  | some y => cases x <;> cases y <;> simp [updateChanges, removeChanges, hv]

/-- Forgetting a variable that is bound to "undefined" changes no lookup. -/
theorem get_remove_of_explicit (hv : f.values.get? v = some .undefined) (w : VarId) :
    (f.remove v).get w = f.get w := by
  rw [get_remove]
  split
  · rename_i hwv
    rw [hwv, get, hv]
    rfl
  · rfl

variable {S : ConstFact → Prop}

theorem AllProper.toldApart (hS : AllProper S) : ToldApart S := fun _ _ hf hg =>
  ⟨fun hfg _ => hfg ▸ rfl, fun hget => (hS _ hf).ext (hS _ hg) hget⟩

theorem AllProper.updatesReported (hS : AllProper S) : UpdatesReported S := by
  intro f hf v x
  rw [exists_get_update_ne_iff, updateChanges_iff]
  exact or_iff_left fun hexplicit => hS f hf v hexplicit.2

/-- Forgetting a variable is binding it to "undefined". -/
theorem UpdatesReported.removalsReported (hS : UpdatesReported S) : RemovalsReported S :=
  fun f hf v => hS f hf v .undefined

theorem RemovalsReported.allProper (hS : RemovalsReported S) : AllProper S := by
  intro f hf v hv
  have hreported : f.removeChanges v = true := by rw [removeChanges, hv, Option.isSome_some]
  obtain ⟨w, hw⟩ := (hS f hf v).1 hreported
  exact hw (get_remove_of_explicit hv w)

theorem ToldApart.replacementsReported (hS : ToldApart S) : ReplacementsReported S := by
  intro f g hf hg
  rw [copyFrom_fst, copyFrom_snd, ne_eq, hS g f hg hf, not_forall]

theorem ReplacementsReported.allProper (hremove : ∀ f, S f → ∀ v, S (f.remove v))
    (hS : ReplacementsReported S) : AllProper S := by
  intro f hf v hv
  -- the fact without the binding answers alike, so replacing `f` by it must not be reported
  have hne : f.remove v ≠ f := by
    intro heq
    have hnone : (f.remove v).values.get? v = none := by simp [remove]
    rw [heq, hv] at hnone
    cases hnone
  obtain ⟨w, hw⟩ := (hS f _ hf (hremove f hf v)).1 ((copyFrom_fst f _).2 hne)
  rw [copyFrom_snd] at hw
  exact hw (get_remove_of_explicit hv w)

/-! ## What texts say -/

/-- A fact that is read binds a variable to "undefined" exactly if its text says so. -/
theorem proper_iff_of_ofText? {text : String} (hread : ofText? text = some f) :
    f.Proper ↔ ¬ SaysUndefined text := by
  rw [ofText?_eq, Option.map_eq_some_iff] at hread
  obtain ⟨bindings, hbindings, rfl⟩ := hread
  simp only [Proper, SaysUndefined, hbindings, IdMap.get?_ofList, Option.some.injEq, exists_eq_left',
    not_exists, ne_eq]

/-- Operations on facts keep what the texts that are read say. -/
theorem Obtainable.proper {texts : Set String} (htexts : ∀ text ∈ texts, ¬ SaysUndefined text)
    (hf : Obtainable texts f) : f.Proper := by
  induction hf with
  | empty => exact proper_empty
  | update _ v x ih => exact ih.update v x
  | remove _ v ih => exact ih.update v .undefined
  | copyFrom _ _ _ ih => exact (copyFrom_snd _ _).symm ▸ ih
  | join _ _ _ _ ih => exact ih.joinBindings _
  | read htext hread => exact (proper_iff_of_ofText? hread).2 (htexts _ htext)

/-- The text of a fact is read as the fact, in whatever order its bindings are listed. -/
theorem ofText?_render {bindings : List (VarId × Value)} (hperm : bindings.Perm f.toList)
    (hvars : InRange f.numbers) : ofText? (Json.render (listToJson bindings)) = some f :=
  parse?_render_listToJson hperm hvars

/-- For a class of texts the following are equivalent: no fact that can be obtained from them binds
a variable to "undefined"; such facts are equal exactly if no lookup tells them apart; the change
that a binding, a removal or a replacement reports is one that a lookup sees; and no text says
"undefined" last for some variable. The text of a fact within the invariant does not say so, in
whatever order it lists the bindings. -/
theorem obtainable_tfae (texts : Set String) :
    [AllProper (Obtainable texts), ToldApart (Obtainable texts),
      UpdatesReported (Obtainable texts), RemovalsReported (Obtainable texts),
      ReplacementsReported (Obtainable texts), ∀ text ∈ texts, ¬ SaysUndefined text].TFAE ∧
      ∀ (f : ConstFact) (bindings : List (VarId × Value)), f.Proper → bindings.Perm f.toList →
        InRange f.numbers → ¬ SaysUndefined (Json.render (listToJson bindings)) := by
  refine ⟨?_, fun f bindings hf hperm hvars =>
    (proper_iff_of_ofText? (ofText?_render hperm hvars)).1 hf⟩
  tfae_have 1 → 2 := AllProper.toldApart
  tfae_have 2 → 5 := ToldApart.replacementsReported
  tfae_have 5 → 1 := ReplacementsReported.allProper fun _ hf v => hf.remove v
  tfae_have 1 → 3 := AllProper.updatesReported
  tfae_have 3 → 4 := UpdatesReported.removalsReported
  tfae_have 4 → 1 := RemovalsReported.allProper
  tfae_have 6 → 1 := fun htexts _ hf => hf.proper htexts
  tfae_have 1 → 6 := by
    rintro hproper text htext ⟨bindings, hbindings, hsays⟩
    have hread : ofText? text = some ⟨.ofList bindings⟩ := by rw [ofText?_eq, hbindings, Option.map_some]
    exact (proper_iff_of_ofText? hread).1 (hproper _ (.read htext hread)) ⟨bindings, hbindings, hsays⟩
  tfae_finish

/-! ## A text that says "undefined" -/

/-- A text that binds the variable 0 to "undefined". -/
def explicitText : String := "\x7b\"values\":\x7b\"0\":\"undef\"\x7d\x7d"

theorem ofText?_explicitText : ofText? explicitText = some ⟨.ofList [(0, .undefined)]⟩ := by
  decide +kernel

/-- From such a text one gets a fact that no lookup tells from the empty one and which is not equal
to it. Operations report changes on it that no lookup sees. -/
theorem not_allProper_explicitText :
    (∃ f, ofText? explicitText = some f ∧ f.values.get? 0 = some .undefined ∧
      f ≠ ∅ ∧ (∀ v, f.get v = (∅ : ConstFact).get v) ∧
      f.removeChanges 0 = true ∧ f.updateChanges 0 .undefined = true ∧ f.remove 0 = ∅ ∧
      (f.copyFrom ∅).1 = true) ∧
      ¬ AllProper (Obtainable Set.univ) ∧ ¬ ToldApart (Obtainable Set.univ) ∧
      ¬ UpdatesReported (Obtainable Set.univ) ∧ ¬ RemovalsReported (Obtainable Set.univ) ∧
      ¬ ReplacementsReported (Obtainable Set.univ) := by
  have hproper : ¬ AllProper (Obtainable Set.univ) := fun hS =>
    hS _ (.read (Set.mem_univ explicitText) ofText?_explicitText) 0 rfl
  have hreplaced : ¬ ReplacementsReported (Obtainable Set.univ) := fun hS =>
    hproper (hS.allProper fun _ hf v => hf.remove v)
  have hremoved : ¬ RemovalsReported (Obtainable Set.univ) := fun hS => hproper hS.allProper
  refine ⟨⟨_, ofText?_explicitText, rfl, by decide, fun v => ?_, rfl, rfl, rfl, rfl⟩, hproper,
    fun hS => hreplaced hS.replacementsReported, fun hS => hremoved hS.removalsReported, hremoved,
    hreplaced⟩
  rw [get, IdMap.get?_ofList]
  change (if 0 = v then some Value.undefined else none).getD .undefined = .undefined
  split <;> rfl

/-- A fact with two bindings. -/
def twoBindings : ConstFact := ofUpdates [(4, .nac), (1, .constant 7)]

/-- The text of a fact that binds variables to values does no harm, whichever it lists first. -/
theorem allProper_render :
    ¬ AllProper (Obtainable {explicitText}) ∧
      AllProper (Obtainable {Json.render (listToJson [(4, .nac), (1, .constant 7)]),
        Json.render twoBindings.toJson}) := by
  constructor
  · intro hproper
    have htexts := ((obtainable_tfae {explicitText}).1.out 0 5).1 hproper
    exact htexts explicitText rfl ⟨[(0, .undefined)], by decide +kernel, 0, rfl⟩
  · have hvars : InRange twoBindings.numbers := by
      unfold InRange
      decide +kernel
    refine ((obtainable_tfae _).1.out 0 5).2 ?_
    rintro _ (rfl | rfl)
    · exact (obtainable_tfae ∅).2 twoBindings _ (proper_ofUpdates _) (by decide) hvars
    · exact (obtainable_tfae ∅).2 _ _ (proper_ofUpdates _) .rfl hvars

end ConstFact

end TacAnalysis
