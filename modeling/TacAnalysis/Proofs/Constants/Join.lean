import Mathlib.Order.Bounds.Basic
import Mathlib.Order.Lattice
import TacAnalysis.Proofs.Constants.Order

/-!
# Joining facts

A fact is joined into another binding by binding, and each step reads the target that the steps
before it have left. The steps commute, so the order in which the bindings come does not matter.

Updates build exactly the facts that bind no variable to "undefined". Those facts, ordered variable
by variable, are a semilattice with the empty fact at the bottom: the join is their least upper
bound, and it is one value, not only one value up to lookups.

Main statement: `joinLaws_ofUpdates`.
-/

namespace TacAnalysis

namespace ConstFact

variable {f g h : ConstFact}

/-! ## One binding after the other -/

/-- Joins one binding into a fact. -/
def joinBinding (target : ConstFact) (b : VarId × Value) : ConstFact :=
  target.update b.1 (b.2.meet (target.get b.1))

/-- Joins bindings into a fact in the order in which they are given. -/
def joinBindings (bindings : List (VarId × Value)) (target : ConstFact) : ConstFact :=
  bindings.foldl joinBinding target

/-- Joining a fact goes through its bindings in the order of variables. -/
theorem meetInto_eq_joinBindings (f target : ConstFact) :
    f.meetInto target = joinBindings f.toList target := rfl

/-- Facts with the same bindings are equal. -/
theorem ext_get? (hget : ∀ v, f.values.get? v = g.values.get? v) : f = g := by
  have hvalues : f.values = g.values := IdMap.ext hget
  cases f
  cases g
  exact congrArg mk hvalues

/-- An updated variable is bound to its new value, unless that is "undefined". -/
theorem get?_values_update (f : ConstFact) (v w : VarId) (x : Value) :
    (f.update v x).values.get? w =
      if w = v then (if x = .undefined then none else some x) else f.values.get? w := by
  cases x <;> simp [update, remove]

/-- Of two updates of one variable the last counts. -/
theorem update_update (f : ConstFact) (v : VarId) (x y : Value) :
    (f.update v x).update v y = f.update v y := by
  refine ext_get? fun w => ?_
  simp only [get?_values_update]
  split <;> rfl

/-- Updates of different variables may be made in either order. -/
theorem update_comm {v w : VarId} (hvw : v ≠ w) (f : ConstFact) (x y : Value) :
    (f.update v x).update w y = (f.update w y).update v x := by
  refine ext_get? fun u => ?_
  simp only [get?_values_update]
  by_cases huv : u = v
  · subst huv
    rw [if_neg hvw, if_pos rfl, if_pos rfl]
  · rw [if_neg huv, if_neg huv]

/-- Two bindings may be joined in either order, also if they bind the same variable. -/
theorem joinBinding_comm (target : ConstFact) (b c : VarId × Value) :
    (target.joinBinding b).joinBinding c = (target.joinBinding c).joinBinding b := by
  obtain ⟨v, x⟩ := b
  obtain ⟨w, y⟩ := c
  unfold joinBinding
  by_cases hvw : v = w
  · -- the later binding of the variable is joined with the value that the earlier one has left
    subst hvw
    have hswap : y.meet (x.meet (target.get v)) = x.meet (y.meet (target.get v)) := by
      rw [← Value.meet_assoc, Value.meet_comm y x, Value.meet_assoc]
    simp only [get_update, ↓reduceIte, update_update, hswap]
  · simp only [get_update, if_neg hvw, if_neg (Ne.symm hvw)]
    exact update_comm hvw target _ _

/-- The order of the bindings does not matter. -/
theorem joinBindings_perm {bs cs : List (VarId × Value)} (hperm : bs.Perm cs)
    (target : ConstFact) : joinBindings bs target = joinBindings cs target :=
  hperm.foldl_eq' (fun b _ c _ t => joinBinding_comm t b c) target

/-! ## The facts that updates build -/

theorem proper_ofUpdates (bindings : List (VarId × Value)) : (ofUpdates bindings).Proper :=
  proper_empty.foldl_update bindings (·.1) fun _ b => b.2

theorem Proper.joinBindings (hg : g.Proper) (bindings : List (VarId × Value)) :
    (ConstFact.joinBindings bindings g).Proper :=
  hg.foldl_update bindings (·.1) fun t b => b.2.meet (t.get b.1)

/-- Joining into the empty fact changes nothing. -/
theorem Proper.meetInto_empty (hf : f.Proper) : f.meetInto ∅ = f :=
  (proper_empty.meetInto f).ext hf fun v => by simp

/-- A fact that updates build, with a binding joined in, is one that updates build. -/
theorem joinBindings_ofUpdates (bs : List (VarId × Value)) :
    ∀ cs, ∃ ds, joinBindings bs (ofUpdates cs) = ofUpdates ds := by
  induction bs with
  | nil => exact fun cs => ⟨cs, rfl⟩
  | cons b bs ih =>
    intro cs
    have hstep : (ofUpdates cs).joinBinding b =
        ofUpdates (cs ++ [(b.1, b.2.meet ((ofUpdates cs).get b.1))]) := by
      rw [ofUpdates, ofUpdates, List.foldl_append]
      rfl
    obtain ⟨ds, hds⟩ := ih (cs ++ [(b.1, b.2.meet ((ofUpdates cs).get b.1))])
    exact ⟨ds, by rw [← hds, ← hstep, joinBindings, List.foldl_cons, joinBindings]⟩

/-- Updates build exactly the facts without superfluous bindings. -/
theorem proper_iff_exists_ofUpdates : f.Proper ↔ ∃ bindings, f = ofUpdates bindings := by
  constructor
  · intro hf
    obtain ⟨bindings, hbindings⟩ := joinBindings_ofUpdates f.toList []
    exact ⟨bindings, hf.meetInto_empty.symm.trans hbindings⟩
  · rintro ⟨bindings, rfl⟩
    exact proper_ofUpdates bindings

end ConstFact

/-! ## The semilattice -/

/-- A fact that binds no variable to "undefined". -/
def ProperFact : Type := { f : ConstFact // f.Proper }

namespace ProperFact

/-- The fact that updates build. -/
def ofUpdates (bindings : List (VarId × Value)) : ProperFact :=
  ⟨.ofUpdates bindings, ConstFact.proper_ofUpdates bindings⟩

instance : PartialOrder ProperFact where
  le f g := f.1 ≤ g.1
  le_refl f := le_refl f.1
  le_trans _ _ _ hfg hgh v := (hfg v).trans (hgh v)
  le_antisymm f g hfg hgf := Subtype.ext (f.2.antisymm g.2 hfg hgf)

instance : OrderBot ProperFact where
  bot := ⟨∅, ConstFact.proper_empty⟩
  bot_le f := ConstFact.empty_le f.1

/-- Joining is the supremum. -/
instance : SemilatticeSup ProperFact where
  sup f g := ⟨f.1.meetInto g.1, g.2.meetInto f.1⟩
  le_sup_left _ _ := (ConstFact.meetInto_le_iff.1 (le_refl _)).1
  le_sup_right _ _ := (ConstFact.meetInto_le_iff.1 (le_refl _)).2
  sup_le _ _ _ hf hg := ConstFact.meetInto_le_iff.2 ⟨hf, hg⟩

end ProperFact

/-! ## The laws -/

namespace ConstFact

/-- Joining facts gives their least upper bound, and as an operation on values it has the laws of
a semilattice with the empty fact as its identity. -/
structure JoinLaws (a b c : ConstFact) : Prop where
  /-- The bindings of the first fact may come in any order. -/
  anyOrder : ∀ bindings, bindings.Perm a.toList → joinBindings bindings b = a.meetInto b
  /-- The join holds for each variable what its two values meet in. -/
  pointwise : ∀ v, (a.meetInto b).get v = (a.get v).meet (b.get v)
  /-- The join is a least upper bound. -/
  isLUB : IsLUB {a, b} (a.meetInto b)
  /-- No other fact is one. -/
  unique : IsLUB {a, b} c → c = a.meetInto b
  /-- Three facts may be joined from either end. -/
  assoc : (a.meetInto b).meetInto c = a.meetInto (b.meetInto c)
  /-- Two facts may be joined in either order. -/
  comm : a.meetInto b = b.meetInto a
  /-- A fact joined into itself stays as it is. -/
  idempotent : a.meetInto a = a
  /-- Joining the empty fact changes nothing. -/
  empty_meetInto : (∅ : ConstFact).meetInto a = a
  /-- Joining into the empty fact gives the fact. -/
  meetInto_empty : a.meetInto ∅ = a

/-- The join is a least upper bound, also of facts with superfluous bindings. -/
theorem isLUB_meetInto (f g : ConstFact) : IsLUB {f, g} (f.meetInto g) := by
  refine ⟨?_, fun h hh => meetInto_le_iff.2 ⟨hh (.inl rfl), hh (.inr rfl)⟩⟩
  rintro _ (rfl | rfl)
  · exact (meetInto_le_iff.1 (le_refl _)).1
  · exact (meetInto_le_iff.1 (le_refl _)).2

/-- Facts without superfluous bindings obey the laws, since they are a semilattice. -/
theorem joinLaws (a b c : ProperFact) : JoinLaws a.1 b.1 c.1 where
  anyOrder bindings hperm := by
    rw [meetInto_eq_joinBindings]
    exact joinBindings_perm hperm b.1
  pointwise v := get_meetInto a.1 b.1 v
  isLUB := isLUB_meetInto a.1 b.1
  unique hlub := by
    have hle : c.1 ≤ a.1.meetInto b.1 := hlub.2 (isLUB_meetInto a.1 b.1).1
    have hge : a.1.meetInto b.1 ≤ c.1 := (isLUB_meetInto a.1 b.1).2 hlub.1
    exact c.2.antisymm (b.2.meetInto a.1) hle hge
  assoc := congrArg Subtype.val (sup_assoc a b c)
  comm := congrArg Subtype.val (sup_comm a b)
  idempotent := congrArg Subtype.val (sup_idem a)
  empty_meetInto := congrArg Subtype.val (bot_sup_eq a)
  meetInto_empty := congrArg Subtype.val (sup_bot_eq a)

/-- For facts that updates build, joining is the least upper bound in the order that has
"undefined" below all constants and these below "not a constant". -/
theorem joinLaws_ofUpdates (xs ys zs : List (VarId × Value)) :
    JoinLaws (ofUpdates xs) (ofUpdates ys) (ofUpdates zs) ∧
      (∀ f g : ConstFact, f ≤ g ↔ ∀ v, f.get v ≤ g.get v) ∧
      ∀ v w : Value, v ≤ w ↔ v = .undefined ∨ v = w ∨ w = .nac :=
  ⟨joinLaws (.ofUpdates xs) (.ofUpdates ys) (.ofUpdates zs), fun _ _ => le_def,
    fun _ _ => Value.le_iff⟩

end ConstFact

end TacAnalysis
