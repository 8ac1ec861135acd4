import Mathlib.Data.Prod.Lex
import Mathlib.Data.Set.Card
import TacAnalysis.Proofs.PointsTo.Returns
import TacAnalysis.Proofs.Program.Lookup

/-!
# Pointer analysis ends

Objects come from the sites of the program, and the places that they can come to are its
variables and the memory of such objects, as far as something is stored there. So there are
finitely many pairs of a place and an object at it. A step in which an object arrives for the
first time uses up such a pair, however many entries it makes pending. Any other step takes
an entry and makes none pending. So a run ends, and when it does nothing is on its way.

Main statements: `finite_holds`, `Closed.remaining_lt` and `exists_run?_of_acyclic`.
-/

namespace TacAnalysis

/-- The field to which the statement stores. -/
def Stmt.storedField? : Stmt → Option FieldId
  | .storeField _ f _ => some f
  | _ => none

namespace PointsToProblem

variable (c : PointsToProblem)

/-! ## Finitely many objects at finitely many places -/

/-- The objects that stand for allocations. -/
def allocated : List ObjId := c.program.sites.filterMap fun e => c.heap.objAt? e.1

/-- The fields to which something is stored. -/
def storedFields : List FieldId := c.program.sites.filterMap fun e => e.2.storedField?

/-- The places that objects can come to. -/
def IsPlace : Pointer → Prop
  | .var v => v < c.program.vars.length
  | .staticField f => f ∈ c.storedFields
  | .instanceField o f => o ∈ c.allocated ∧ f ∈ c.storedFields
  | .arrayIndex o => o ∈ c.allocated

/-- What is said of objects and places is said of these. -/
def InBounds : PointsToFact → Prop
  | .flows _ y => c.IsPlace y
  | .holds x o => c.IsPlace x ∧ o ∈ c.allocated
  | _ => True

variable {c} {s t : PointsToState}

theorem mem_allocated (hp : c.program.WellFormed) {site : Site} {stmt : Stmt} {o : ObjId}
    (hstmt : c.program.stmt? site = some stmt) (hobj : c.heap.objAt? site = some o) :
    o ∈ c.allocated :=
  List.mem_filterMap.2 ⟨(site, stmt), hp.mem_sites.2 hstmt, hobj⟩

theorem mem_storedFields (hp : c.program.WellFormed) {site : Site} {base : Option VarId}
    {f : FieldId} {value : VarId}
    (hstmt : c.program.stmt? site = some (.storeField base f value)) : f ∈ c.storedFields :=
  List.mem_filterMap.2 ⟨(site, .storeField base f value), hp.mem_sites.2 hstmt, rfl⟩

/-- A declared variable is a place. -/
theorem isPlace_var {m : MethodId} {v : VarId} (h : c.program.Owns m v) : c.IsPlace (.var v) :=
  h.lt

/-- The rules derive nothing about other objects and places. -/
theorem inBounds_of_derived (hp : c.program.WellFormed) {fact : PointsToFact}
    (h : c.Derives fact) : c.InBounds fact := by
  have hassigned : ∀ {site stmt v}, c.program.stmt? site = some stmt → v ∈ stmt.assigned? →
      c.IsPlace (.var v) := fun hstmt hv =>
    isPlace_var (hp.owns_of_stmt? hstmt (List.mem_append_right _ (Option.mem_toList.2 hv)))
  induction h with
  | link _ hstmt hlink =>
    cases hlink with
    | copy | cast | loadStatic => exact hassigned hstmt rfl
    | storeStatic => exact mem_storedFields hp hstmt
  | alloc _ hstmt hobj => exact ⟨hassigned hstmt rfl, mem_allocated hp hstmt hobj⟩
  | linkThrough _ hstmt hlink holds =>
    cases hlink with
    | storeField => exact ⟨holds.2, mem_storedFields hp hstmt⟩
    | storeArray => exact holds.2
    | loadField | loadArray => exact hassigned hstmt rfl
  | self _ _ _ _ hmethod hself holds =>
    have howns := hp.owns_of_method? hmethod (List.mem_append_right _ (Option.mem_toList.2 hself))
    exact ⟨isPlace_var howns, holds.2⟩
  | pass _ hstmt hmethod hpass =>
    cases hpass with
    | argument ha =>
      exact isPlace_var (hp.owns_of_method? hmethod (List.mem_append_left _ (List.of_mem_zip ha).2))
    | result _ hresult => exact hassigned hstmt hresult
  | flow _ _ flows holds => exact ⟨flows, holds.2⟩
  | entry | staticCall | instanceCall | callee => trivial

/-- There are finitely many places. -/
theorem finite_places : {x | c.IsPlace x}.Finite := by
  have hvars : {v | v < c.program.vars.length}.Finite := Set.finite_lt_nat _
  have hobjects : {o | o ∈ c.allocated}.Finite := c.allocated.finite_toSet
  have hfields : {f | f ∈ c.storedFields}.Finite := c.storedFields.finite_toSet
  refine ((((hvars.image Pointer.var).union (hfields.image Pointer.staticField)).union
    (hobjects.image2 Pointer.instanceField hfields)).union
    (hobjects.image Pointer.arrayIndex)).subset fun x hx => ?_
  cases x with
  | var v => exact .inl (.inl (.inl ⟨v, hx, rfl⟩))
  | staticField f => exact .inl (.inl (.inr ⟨f, hx, rfl⟩))
  | instanceField o f => exact .inl (.inr ⟨o, hx.1, f, hx.2, rfl⟩)
  | arrayIndex o => exact .inr ⟨o, hx, rfl⟩

/-- Finitely many objects come to finitely many places. -/
theorem finite_holds (hp : c.program.WellFormed) :
    {e : Pointer × ObjId | c.Derives (.holds e.1 e.2)}.Finite :=
  (finite_places.prod c.allocated.finite_toSet).subset fun _ he => inBounds_of_derived hp he

/-! ## Every step leaves less to do -/

variable (c) in
/-- The places and objects at them that have not been found. -/
def missing (s : PointsToState) : Set (Pointer × ObjId) :=
  {e | c.Derives (.holds e.1 e.2) ∧ ¬ s.Points e.1 e.2}

variable (c) in
/-- What a run can still do: find objects at places, then empty the pending entries. -/
noncomputable def remaining (s : PointsToState) : Nat ×ₗ Nat :=
  toLex ((c.missing s).ncard, s.pending.entries.length)

/-- A step leaves less to do. -/
theorem Closed.remaining_lt (hp : c.program.WellFormed) (hs : c.Closed s)
    (h : c.step s = some t) : c.remaining t < c.remaining s := by
  obtain ⟨x, arrived, new, u, habsorbs, hexpands, -, hshorter⟩ := hs.exists_expands hp h
  have hpoints : ∀ y o, t.Points y o ↔ s.Points y o ∨ y = x ∧ arrived o := fun y o =>
    hexpands.points_iff.trans (habsorbs.points_iff y o)
  have hsubset : c.missing t ⊆ c.missing s := fun e he =>
    ⟨he.1, fun hold => he.2 ((hpoints _ _).2 (.inl hold))⟩
  rw [remaining, remaining, Prod.Lex.toLex_lt_toLex]
  by_cases hnone : ∀ o, o ∉ new
  · have hsame : c.missing s ⊆ c.missing t := by
      refine fun e he => ⟨he.1, fun hpoint => he.2 ?_⟩
      rcases (hpoints _ _).1 hpoint with hold | ⟨hx, harrived⟩
      · exact hold
      · by_contra hnot
        exact hnone e.2 ((habsorbs.mem_new_iff _).2 ⟨harrived, hx ▸ hnot⟩)
    refine .inr ⟨by rw [hsubset.antisymm hsame], ?_⟩
    exact Nat.lt_of_succ_le (hshorter hnone).le
  · push Not at hnone
    obtain ⟨o, ho⟩ := hnone
    obtain ⟨harrived, hnew⟩ := (habsorbs.mem_new_iff o).1 ho
    have hfound : t.Points x o := (hpoints x o).2 (.inr ⟨rfl, harrived⟩)
    have hmissing : (x, o) ∈ c.missing s := ⟨hexpands.valid.derives_has (.inl hfound), hnew⟩
    refine .inl (Set.ncard_lt_ncard ⟨hsubset, fun hback => (hback hmissing).2 hfound⟩ ?_)
    exact (finite_holds hp).subset fun e he => he.1

/-- Every run ends. -/
theorem exists_run? (hp : c.program.WellFormed) : ∃ budget s, c.run? budget = some s := by
  refine exists_iterate?_of_rank wellFounded_lt c.remaining (fun s t hs h => ?_) (closed_begin hp)
  exact ⟨hs.step hp h, hs.remaining_lt hp h⟩

/-- If superclass links form no cycle, an analysis of an accepted program ends: lookups end,
making methods reachable returns at the beginning and in every step, and after finitely many
steps nothing is on its way. -/
theorem exists_run?_of_acyclic (hp : c.program.Accepted) (hacyclic : c.program.Acyclic) :
    c.program.LookupsEnd ∧ c.beginWithin? c.levels c.initial = some (c.begin c.initial) ∧
      (∀ k, c.stepWithin? c.levels (stateAfter c.step k (c.begin c.initial)) =
        some (c.step (stateAfter c.step k (c.begin c.initial)))) ∧
      ∃ budget s, c.run? budget = some s ∧ c.step s = none ∧ s.pending.entries = [] := by
  refine ⟨hp.lookupsEnd hacyclic, beginWithin?_levels hp.wellFormed, fun k => ?_, ?_⟩
  · have hclosed : c.Closed (stateAfter c.step k (c.begin c.initial)) :=
      stateAfter_invariant (closed_begin hp.wellFormed)
        (fun s t hs h => hs.step hp.wellFormed h) k
    exact hclosed.stepWithin?_levels hp.wellFormed
  · obtain ⟨budget, s, hs⟩ := exists_run? hp.wellFormed
    exact ⟨budget, s, hs, step_eq_none_of_iterate? hs, (closed_of_run? hp.wellFormed hs).2⟩

/-! ## Methods that call each other -/

/-- The static methods `ping` and `pong` call each other with what they are given, and `pong`
makes the object refer to itself; then `echo` is called on it, which calls itself on what the
object refers to. -/
def echoingCommands : List Command := [
  .addClass "A" none [], .addClass "B" (some 0) [], .addField 0 "next" (.object 0) false,
  .addMethod 0 "void main()" true, .addMethod 0 "A ping(A)" true, .addMethod 0 "A pong(A)" true,
  .addMethod 0 "A echo()" false,
  .addParam 1 "x" (.object 0), .addParam 2 "y" (.object 0),
  .addVar 0 "b" (.object 1), .addVar 0 "r" (.object 0), .addVar 1 "s" (.object 0),
  .addVar 2 "t" (.object 0), .addVar 3 "n" (.object 0), .addVar 3 "e" (.object 0),
  .pushStmts 0 [
    .assign 3 (.new (.object 1)),
    .invoke ⟨.static, ⟨0, "A ping(A)"⟩, none, [3], some 4⟩,
    .ret none],
  .pushStmts 1 [.invoke ⟨.static, ⟨0, "A pong(A)"⟩, none, [1], some 5⟩, .ret (some 5)],
  .pushStmts 2 [
    .storeField (some 2) 0 2,
    .invoke ⟨.static, ⟨0, "A ping(A)"⟩, none, [2], some 6⟩,
    .invoke ⟨.virtual, ⟨0, "A echo()"⟩, some 2, [], some 6⟩,
    .ret (some 6)],
  .pushStmts 3 [
    .assign 7 (.instanceField 0 0),
    .invoke ⟨.virtual, ⟨0, "A echo()"⟩, some 7, [], some 8⟩,
    .ret (some 7)],
  .setEntry 0]

/-- The program of these declarations. -/
def echoing : Program := (Program.ofCommands? echoingCommands).get (by decide +kernel)

theorem accepted_echoing : echoing.Accepted :=
  Program.accepted_of_ofCommands? (Option.some_get _).symm

theorem acyclic_echoing : echoing.Acyclic :=
  Program.acyclic_of_superclass_lt (by decide +kernel)

/-- The analysis of the program with one object for each allocation. -/
def ofEchoing (order : WorklistOrder) : PointsToProblem := ⟨echoing, .bySite echoing, order⟩

/-- In either order thirteen entries are handled until nothing is on its way, and all four
methods are reached. -/
theorem echoing_ends :
    echoing.Accepted ∧ echoing.Acyclic ∧ ∀ order, ∃ s, (ofEchoing order).run? 13 = some s ∧
      s.pending.entries = [] ∧ s.calls.reachable = [0, 1, 2, 3] := by
  refine ⟨accepted_echoing, acyclic_echoing, fun order => ?_⟩
  have hrun : ((ofEchoing order).run? 13).map (·.calls.reachable) = some [0, 1, 2, 3] := by
    cases order <;> decide +kernel
  obtain ⟨s, hs, hreachable⟩ := Option.map_eq_some_iff.1 hrun
  obtain ⟨-, -, -, budget, t, ht, -, hended⟩ :=
    exists_run?_of_acyclic (c := ofEchoing order) accepted_echoing acyclic_echoing
  have hlate : (ofEchoing order).run? (max 13 budget) = some s := iterate?_mono (le_max_left ..) hs
  have hlate' : (ofEchoing order).run? (max 13 budget) = some t :=
    iterate?_mono (le_max_right ..) ht
  obtain rfl := Option.some.inj (hlate.symm.trans hlate')
  exact ⟨s, hs, hended, hreachable⟩

end PointsToProblem

end TacAnalysis
