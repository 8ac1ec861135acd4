import Mathlib.Order.Basic
import TacAnalysis.Constants.Fact

/-!
# The order of facts about constants

An undefined variable may still turn out to have any value, so "undefined" is below all
constants, and all constants are below "not a constant". Facts are ordered variable by
variable, and joining them gives their least upper bound.

A fact that never binds a variable to "undefined" is determined by its lookups. Over
finitely many variables such facts can rise only finitely often, which a rank counts.

Main statements: `meetInto_le_iff`, `Proper.ext` and `eq_or_rank_lt`.
-/

namespace TacAnalysis

/-! ## Values -/

namespace Value

/-- A value is below another that absorbs it where paths meet. -/
instance : LE Value := ⟨fun v w => v.meet w = w⟩

/-- Only a constant and "undefined" are below a constant. -/
theorem le_iff {v w : Value} : v ≤ w ↔ v = undefined ∨ v = w ∨ w = nac := by
  change v.meet w = w ↔ _
  cases v <;> cases w <;> simp only [undefined_meet, meet_undefined, nac_meet, meet_nac,
    constant_meet_constant] <;> grind

instance (v w : Value) : Decidable (v ≤ w) := decidable_of_iff _ le_iff.symm

instance : PartialOrder Value where
  le_refl v := le_iff.2 (.inr (.inl rfl))
  le_trans u v w huv hvw := by
    rw [le_iff] at *
    grind
  le_antisymm v w hvw hwv := by
    rw [le_iff] at *
    grind

@[simp] theorem undefined_le (v : Value) : undefined ≤ v := le_iff.2 (.inl rfl)

@[simp] theorem le_nac (v : Value) : v ≤ nac := le_iff.2 (.inr (.inr rfl))

@[simp] theorem le_undefined_iff {v : Value} : v ≤ undefined ↔ v = undefined := by
  simp [le_iff]

@[simp] theorem nac_le_iff {v : Value} : nac ≤ v ↔ v = nac := by
  simp [le_iff, eq_comm]

/-- Where paths meet, the least value above both of theirs is known. -/
theorem meet_le_iff {u v w : Value} : u.meet v ≤ w ↔ u ≤ w ∧ v ≤ w := by
  cases u <;> cases v <;> simp only [undefined_meet, meet_undefined, nac_meet, meet_nac,
    constant_meet_constant, undefined_le, true_and, and_true, and_self]
  · split <;> rename_i hab
    · simp [hab]
    · cases w <;> simp [le_iff]
      grind
  · cases w <;> simp
  · cases w <;> simp

/-- How often a value has risen. -/
def rank : Value → Nat
  | undefined => 0
  | constant _ => 1
  | nac => 2

theorem rank_le_two (v : Value) : v.rank ≤ 2 := by cases v <;> simp [rank]

/-- A value that rises gets a higher rank. -/
theorem eq_or_rank_lt {v w : Value} (h : v ≤ w) : v = w ∨ v.rank < w.rank := by
  rw [le_iff] at h
  cases v <;> cases w <;> simp_all [rank]

end Value

/-! ## Facts -/

namespace ConstFact

/-- A fact is below another if every variable is. -/
instance : Preorder ConstFact where
  le f g := ∀ v, f.get v ≤ g.get v
  le_refl f v := le_refl (f.get v)
  le_trans _ _ _ hfg hgh v := (hfg v).trans (hgh v)

variable {f g h : ConstFact}

theorem le_def : f ≤ g ↔ ∀ v, f.get v ≤ g.get v := Iff.rfl

@[simp] theorem empty_le (f : ConstFact) : (∅ : ConstFact) ≤ f := fun _ => Value.undefined_le _

/-- A binding list is joined in variable by variable. -/
private theorem get_foldl_meet (bindings : List (VarId × Value))
    (hbindings : bindings.Pairwise fun a b => a.1 < b.1) (target : ConstFact) (v : VarId) :
    (bindings.foldl (fun t b => t.update b.1 (b.2.meet (t.get b.1))) target).get v =
      ((IdMap.find v bindings).getD .undefined).meet (target.get v) := by
  induction bindings generalizing target with
  | nil => simp [IdMap.find]
  | cons b rest ih =>
    obtain ⟨w, x⟩ := b
    rw [List.pairwise_cons] at hbindings
    rw [List.foldl_cons, ih hbindings.2, get_update]
    by_cases hvw : v = w
    · subst hvw
      have hrest : IdMap.find v rest = none := by
        cases hfind : IdMap.find v rest with
        | none => rfl
        | some y =>
          exact absurd (hbindings.1 _ (IdMap.mem_of_find_eq_some hfind)) (Nat.lt_irrefl _)
      simp [IdMap.find, hrest]
    · simp [IdMap.find, hvw, Ne.symm hvw]

/-- A joined fact holds for each variable what its two values meet in. -/
@[simp] theorem get_meetInto (f g : ConstFact) (v : VarId) :
    (f.meetInto g).get v = (f.get v).meet (g.get v) :=
  get_foldl_meet f.values.entries f.values.ascending g v

/-- The join is the least fact above both. -/
theorem meetInto_le_iff : f.meetInto g ≤ h ↔ f ≤ h ∧ g ≤ h := by
  simp only [le_def, get_meetInto, Value.meet_le_iff, forall_and]

/-- Higher values give higher facts. -/
theorem update_mono (hfg : f ≤ g) {v : VarId} {x y : Value} (hxy : x ≤ y) :
    f.update v x ≤ g.update v y := by
  intro w
  rw [get_update, get_update]
  split
  · exact hxy
  · exact hfg w

/-- A replaced fact is the other one. -/
theorem copyFrom_snd (f g : ConstFact) : (f.copyFrom g).2 = g := by
  unfold copyFrom
  split
  · assumption
  · rfl

/-- A replacement is reported exactly when the facts differ. -/
theorem copyFrom_fst (f g : ConstFact) : (f.copyFrom g).1 = true ↔ g ≠ f := by
  unfold copyFrom
  split <;> simp_all [eq_comm]

/-! ## Facts without superfluous bindings -/

/-- No variable is bound to "undefined". -/
def Proper (f : ConstFact) : Prop := ∀ v, f.values.get? v ≠ some .undefined

theorem proper_empty : (∅ : ConstFact).Proper := by
  intro v
  simp only [EmptyCollection.emptyCollection, empty, IdMap.get?, IdMap.empty, IdMap.find, ne_eq,
    reduceCtorEq, not_false_eq_true]

theorem Proper.update (hf : f.Proper) (v : VarId) (x : Value) : (f.update v x).Proper := by
  intro w
  have hw := hf w
  cases x with
  | undefined => simp only [ConstFact.update, remove, IdMap.get?_erase]; split <;> simp [hw]
  | constant c => simp only [ConstFact.update, IdMap.get?_insert]; split <;> simp [hw]
  | nac => simp only [ConstFact.update, IdMap.get?_insert]; split <;> simp [hw]

theorem Proper.foldl_update {α : Type} (hf : f.Proper) (xs : List α) (v : α → VarId)
    (x : ConstFact → α → Value) :
    (xs.foldl (fun t b => t.update (v b) (x t b)) f).Proper := by
  induction xs generalizing f with
  | nil => exact hf
  | cons b xs ih => exact ih (hf.update (v b) (x f b))

theorem Proper.meetInto (hg : g.Proper) (f : ConstFact) : (f.meetInto g).Proper :=
  hg.foldl_update f.toList (·.1) fun t b => b.2.meet (t.get b.1)

/-- Proper facts that answer every lookup alike are equal. -/
theorem Proper.ext (hf : f.Proper) (hg : g.Proper) (hget : ∀ v, f.get v = g.get v) : f = g := by
  have hvalues : f.values = g.values := by
    ext1 v
    have hv := hget v
    have hfv := hf v
    have hgv := hg v
    unfold get at hv
    cases hfe : f.values.get? v <;> cases hge : g.values.get? v <;> simp_all
  cases f
  cases g
  exact congrArg _ hvalues

/-- Proper facts are equal if each is below the other. -/
theorem Proper.antisymm (hf : f.Proper) (hg : g.Proper) (hfg : f ≤ g) (hgf : g ≤ f) : f = g :=
  hf.ext hg fun v => le_antisymm (hfg v) (hgf v)

/-! ## Facts about finitely many variables -/

/-- All variables that are not undefined are among the given ones. -/
def Within (vars : List VarId) (f : ConstFact) : Prop := ∀ v, f.get v ≠ .undefined → v ∈ vars

variable {vars : List VarId}

theorem within_empty : Within vars ∅ := fun v hv => absurd (get_empty v) hv

theorem Within.update (hf : f.Within vars) {v : VarId} (hv : v ∈ vars) (x : Value) :
    (f.update v x).Within vars := by
  intro w hw
  rw [get_update] at hw
  split at hw
  · rename_i hwv
    exact hwv ▸ hv
  · exact hf w hw

theorem Within.meetInto (hf : f.Within vars) (hg : g.Within vars) :
    (f.meetInto g).Within vars := by
  intro v hv
  rw [get_meetInto] at hv
  by_cases hfv : f.get v = .undefined
  · rw [hfv, Value.undefined_meet] at hv
    exact hg v hv
  · exact hf v hfv

/-- How often the variables have risen, all together. -/
def rank : List VarId → ConstFact → Nat
  | [], _ => 0
  | v :: vars, f => (f.get v).rank + rank vars f

theorem rank_le (vars : List VarId) (f : ConstFact) : rank vars f ≤ vars.length * 2 := by
  induction vars with
  | nil => exact Nat.le_refl 0
  | cons v vars ih =>
    have hv := (f.get v).rank_le_two
    rw [rank, List.length_cons]
    omega

/-- Over variables that do not fall the rank does not fall, and it rises if one of them
does. -/
private theorem rank_compare (hfg : f ≤ g) (vars : List VarId) :
    rank vars f ≤ rank vars g ∧
      ((∃ v ∈ vars, f.get v ≠ g.get v) → rank vars f < rank vars g) := by
  induction vars with
  | nil => simp [rank]
  | cons v vars ih =>
    obtain ⟨hle, hlt⟩ := ih
    rw [rank, rank]
    rcases Value.eq_or_rank_lt (hfg v) with hv | hv
    · rw [hv]
      refine ⟨by omega, fun ⟨w, hw, hne⟩ => ?_⟩
      rcases List.mem_cons.1 hw with rfl | hw
      · exact absurd hv hne
      · have := hlt ⟨w, hw, hne⟩
        omega
    · exact ⟨by omega, fun _ => by omega⟩

/-- A fact that rises gets a higher rank. -/
theorem eq_or_rank_lt (hf : f.Proper) (hg : g.Proper) (hfv : f.Within vars) (hgv : g.Within vars)
    (hfg : f ≤ g) : f = g ∨ rank vars f < rank vars g := by
  by_cases hchange : ∃ v ∈ vars, f.get v ≠ g.get v
  · exact .inr ((rank_compare hfg vars).2 hchange)
  · refine .inl (hf.ext hg fun v => ?_)
    by_contra hne
    refine hchange ⟨v, ?_, hne⟩
    by_cases hfu : f.get v = .undefined
    · exact hgv v fun hgu => hne (hfu.trans hgu.symm)
    · exact hfv v hfu

end ConstFact

end TacAnalysis
