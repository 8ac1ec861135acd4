import TacAnalysis.Proofs.Constants.Runs
import TacAnalysis.Proofs.Execution

/-!
# Constants found are the values of runs

A fact covers a store if it has every known value, or calls its variable "not a constant".
Transfers keep facts above the stores of runs with one exception: an integer variable that
is computed from a variable of another type is left undefined, because such variables are
not tracked, although a run gets some value there.

Main statement: `covers_of_arrives`, along a run that meets no exception the facts of a
result cover its stores.
-/

namespace TacAnalysis

/-- A known operand or one that is not constant gives a result above the real one. -/
theorem constant_le_foldValues {op : BinaryOp} {a b c : Int32} {x y : Value}
    (ha : .constant a ≤ x) (hb : .constant b ≤ y) (hresult : op.result? a b = some c) :
    .constant c ≤ foldValues op x y := by
  have hfold : foldValues op (.constant a) (.constant b) = .constant c := by
    rw [foldValues, fold_eq, hresult, Value.ofResult]
  rcases Value.le_iff.1 ha with h | rfl | rfl
  · cases h
  · rcases Value.le_iff.1 hb with h | rfl | rfl
    · cases h
    · exact hfold.ge
    · exact Value.le_nac _
  · rcases Value.le_iff.1 hb with h | rfl | rfl
    · cases h
    · -- the divisor is not zero, for there is a result
      have hkeeps : ¬ (b = 0 ∧ op.isDivision = true) := by
        rintro ⟨rfl, hdivision⟩
        cases op <;> simp_all [BinaryOp.isDivision, BinaryOp.result?]
      rw [foldValues, if_neg hkeeps]
      exact Value.le_nac _
    · exact Value.le_nac _

namespace Constants

variable {p : Program} {g : FlowGraph}

/-- Only integer variables are bound. -/
def Tracked (p : Program) (f : ConstFact) : Prop := ∀ v, f.get v ≠ .undefined → p.holdsInt v = true

/-- The fact covers the store: known values are values of the fact, or not constant. -/
def Covers (p : Program) (f : ConstFact) (s : Store) : Prop :=
  ∀ v c, p.holdsInt v = true → s v = some c → .constant c ≤ f.get v

/-- The statement computes an integer variable from one that is not tracked, and leaves it
undefined. -/
def LosesOperand (p : Program) (stmt : Option Stmt) (f : ConstFact) : Prop :=
  ∃ lhs rhs, stmt = some (.assign lhs rhs) ∧ p.holdsInt lhs = true ∧
    (∃ v ∈ rhs.uses, p.holdsInt v = false) ∧ evaluate rhs f = .undefined

/-! ## Facts bind integer variables only -/

theorem Tracked.update {f : ConstFact} (hf : Tracked p f) {v : VarId} (hv : p.holdsInt v = true)
    (x : Value) : Tracked p (f.update v x) := by
  intro w hw
  rw [ConstFact.get_update] at hw
  split at hw
  · rename_i hwv
    exact hwv ▸ hv
  · exact hf w hw

theorem Tracked.meetInto {f f' : ConstFact} (hf : Tracked p f) (hf' : Tracked p f') :
    Tracked p (f.meetInto f') := by
  intro v hv
  rw [ConstFact.get_meetInto] at hv
  by_cases hfv : f.get v = .undefined
  · rw [hfv, Value.undefined_meet] at hv
    exact hf' v hv
  · exact hf v hfv

theorem Tracked.applyNode {f : ConstFact} (hf : Tracked p f) (stmt : Option Stmt) :
    Tracked p (applyNode p stmt f) := by
  match stmt with
  | some (.assign lhs rhs) =>
    simp only [Constants.applyNode, applyStmt]
    split
    · rename_i hlhs
      exact hf.update hlhs _
    · exact hf
  | some (.invoke call) =>
    simp only [Constants.applyNode, applyStmt]
    cases call.result with
    | none => exact hf
    | some result =>
      dsimp only
      split
      · rename_i hresult
        exact hf.update hresult _
      · exact hf
  | none | some .nop | some (.storeField ..) | some (.storeArray ..) | some (.branch ..)
  | some (.goto _) | some (.switch ..) | some (.ret _) => exact hf

/-- At the entry the integer parameters are not constant, and all else is undefined. -/
theorem get_boundary (m : Method) (v : VarId) :
    (boundary p m).get v = if v ∈ m.params ∧ p.holdsInt v = true then .nac else .undefined := by
  have hfold : ∀ (vs : List VarId) (f : ConstFact),
      (vs.foldl (fun f v => f.update v .nac) f).get v = if v ∈ vs then .nac else f.get v := by
    intro vs
    induction vs with
    | nil => simp
    | cons w vs ih =>
      intro f
      rw [List.foldl_cons, ih, ConstFact.get_update]
      by_cases hvs : v ∈ vs <;> simp [hvs]
  rw [boundary, hfold]
  simp only [List.mem_filter]
  rfl

theorem tracked_boundary (m : Method) : Tracked p (boundary p m) := by
  intro v hv
  rw [get_boundary] at hv
  split at hv
  · rename_i hparam
    exact hparam.2
  · exact absurd rfl hv

/-- All facts of a run of the analysis bind integer variables only. -/
theorem tracked_facts_of_run (p : Program) (hg : g.WellFormed) (order : WorklistOrder) (k : Nat)
    (n : NodeId) : Tracked p (before p g order k n) ∧ Tracked p (behind p g order k n) :=
  FlowAnalysis.facts_induction (computes p g) hg (tracked_boundary g.method)
    (fun v hv => absurd (ConstFact.get_empty v) hv) (fun _ _ hx hy => hx.meetInto hy)
    (fun n _ hx => hx.applyNode (g.stmt? n)) k n

theorem tracked_of_run (p : Program) (hg : g.WellFormed) (order : WorklistOrder) (k : Nat)
    (n : NodeId) : Tracked p (before p g order k n) :=
  (tracked_facts_of_run p hg order k n).1

/-! ## Transfers cover effects -/

theorem Covers.mono {f f' : ConstFact} {s : Store} (h : Covers p f s) (hle : f ≤ f') :
    Covers p f' s :=
  fun v c hv hc => (h v c hv hc).trans (hle v)

theorem Covers.update {f : ConstFact} {s : Store} (h : Covers p f s) {v : VarId} {x : Value}
    {c : Int32} (hx : .constant c ≤ x) : Covers p (f.update v x) (Function.update s v (some c)) := by
  intro w d hw hd
  rw [ConstFact.get_update]
  by_cases hwv : w = v
  · subst hwv
    rw [Function.update_self] at hd
    rw [if_pos rfl, ← Option.some.inj hd]
    exact hx
  · rw [Function.update_of_ne hwv] at hd
    rw [if_neg hwv]
    exact h w d hw hd

/-- The value of a right-hand side is above what it can yield, unless an operand is lost. -/
theorem constant_le_evaluate {f : ConstFact} {s : Store} (hf : Tracked p f) (h : Covers p f s)
    {exp : Exp} {c : Int32} (hyields : Yields p s exp c)
    (hkeeps : (∃ v ∈ exp.uses, p.holdsInt v = false) → evaluate exp f ≠ .undefined) :
    .constant c ≤ evaluate exp f := by
  have huntracked : ∀ v, p.holdsInt v ≠ true → f.get v = .undefined := fun v hv =>
    Decidable.byContradiction fun hne => hv (hf v hne)
  cases exp with
  | intLiteral value =>
    have hc : c = value := hyields
    rw [hc]
    exact le_refl _
  | var source =>
    by_cases hsource : p.holdsInt source = true
    · exact h source c hsource (hyields hsource)
    · have hlost := hkeeps ⟨source, List.mem_singleton_self source, by simpa using hsource⟩
      exact absurd (huntracked source hsource) hlost
  | binary e =>
    by_cases hint : p.holdsInt e.lhs = true ∧ p.holdsInt e.rhs = true
    · rw [Yields, if_pos hint] at hyields
      obtain ⟨a, b, ha, hb, hresult⟩ := hyields
      exact constant_le_foldValues (h e.lhs a hint.1 ha) (h e.rhs b hint.2 hb) hresult
    · have hvalue : evaluate (.binary e) f ≠ .undefined := by
        refine hkeeps ?_
        rcases not_and_or.1 hint with hlhs | hrhs
        · exact ⟨e.lhs, by simp [Exp.uses], by simpa using hlhs⟩
        · exact ⟨e.rhs, by simp [Exp.uses], by simpa using hrhs⟩
      -- with an undefined operand the only other value is "not a constant"
      have hnac : evaluate (.binary e) f = .nac := by
        change foldValues e.op (f.get e.lhs) (f.get e.rhs) ≠ .undefined at hvalue
        change foldValues e.op (f.get e.lhs) (f.get e.rhs) = .nac
        rcases not_and_or.1 hint with hlhs | hrhs
        · rw [huntracked e.lhs hlhs] at hvalue ⊢
          by_cases hb : f.get e.rhs = .nac
          · rw [hb, foldValues_nac]
          · exact absurd (undefined_foldValues e.op hb) hvalue
        · rw [huntracked e.rhs hrhs] at hvalue ⊢
          by_cases ha : f.get e.lhs = .nac
          · rw [ha]
            rfl
          · exact absurd (foldValues_undefined e.op ha) hvalue
      rw [hnac]
      exact Value.le_nac _
  | nullLiteral | stringLiteral | new | cast | instanceField | staticField | arrayAccess
  | arrayLength => exact Value.le_nac _

/-- What holds behind a node covers its effect, unless an operand is lost. -/
theorem Covers.applyNode {f : ConstFact} {s t : Store} (h : Covers p f s) (hf : Tracked p f)
    {stmt : Option Stmt} (hkeeps : ¬ LosesOperand p stmt f) (heffect : Effect p s stmt t) :
    Covers p (applyNode p stmt f) t := by
  match stmt with
  | some (.assign lhs rhs) =>
    simp only [Constants.applyNode, applyStmt]
    simp only [Effect] at heffect
    split at heffect
    · rename_i hlhs
      obtain ⟨c, hc, rfl⟩ := heffect
      rw [if_pos hlhs]
      exact h.update (constant_le_evaluate hf h hc fun hlost hundefined =>
        hkeeps ⟨lhs, rhs, rfl, hlhs, hlost, hundefined⟩)
    · rename_i hlhs
      rw [if_neg hlhs, heffect]
      exact h
  | some (.invoke call) =>
    simp only [Constants.applyNode, applyStmt]
    simp only [Effect] at heffect
    cases hresult : call.result with
    | none =>
      rw [hresult] at heffect
      rw [heffect]
      exact h
    | some result =>
      rw [hresult] at heffect
      dsimp only at heffect ⊢
      split at heffect
      · rename_i hint
        obtain ⟨c, rfl⟩ := heffect
        rw [if_pos hint]
        exact h.update (Value.le_nac _)
      · rename_i hint
        rw [if_neg hint, heffect]
        exact h
  | none | some .nop | some (.storeField ..) | some (.storeArray ..) | some (.branch ..)
  | some (.goto _) | some (.switch ..) | some (.ret _) =>
    have hsame : t = s := heffect
    rw [hsame]
    exact h

/-! ## Runs -/

/-- At the entry the boundary fact covers every store with which a run can begin. -/
theorem covers_boundary {m : Method} {s : Store}
    (hs : ∀ v, s v ≠ none ↔ v ∈ m.params ∧ p.holdsInt v = true) : Covers p (boundary p m) s := by
  intro v c hv hc
  have hparam : v ∈ m.params ∧ p.holdsInt v = true := (hs v).1 (by simp [hc])
  rw [get_boundary, if_pos hparam]
  exact Value.le_nac _

section Result

variable {order : WorklistOrder} {budget : Nat} {r : FlowResult ConstFact}

/-- A result holds the fact of the last turn before every node. -/
theorem inFact?_of_solve? (hg : g.WellFormed) (hr : solve? p g order budget = some r) {n : NodeId}
    (hn : n < g.nodeCount) : r.inFact? n = some (before p g order budget n) := by
  obtain ⟨-, hin, -⟩ := solution_of_solve? hg hr
  rw [hin, if_pos hn]

theorem getD_inFact? (hg : g.WellFormed) (hr : solve? p g order budget = some r) {n : NodeId}
    (hn : n < g.nodeCount) : (r.inFact? n).getD ∅ = before p g order budget n := by
  rw [inFact?_of_solve? hg hr hn, Option.getD_some]

/-- Behind every node but the exit a result holds the transfer of what it holds before. -/
theorem behind_eq_applyNode (hg : g.WellFormed) (hr : solve? p g order budget = some r) {n : NodeId}
    (hn : n < g.exit) :
    behind p g order budget n = applyNode p (g.stmt? n) (before p g order budget n) := by
  obtain ⟨hsolution, -, -⟩ := solution_of_solve? hg hr
  by_cases hentry : n = g.entry
  · rw [hentry]
    exact hsolution.output_boundary.trans hsolution.input_boundary.symm
  · exact hsolution.output_eq n (Nat.lt_succ_of_lt hn) hentry

/-- What holds behind the source of an edge has been joined in before its target. -/
theorem behind_le_before (hg : g.WellFormed) (hr : solve? p g order budget = some r) {e : FlowEdge}
    (he : e ∈ g.edges) : behind p g order budget e.source ≤ before p g order budget e.target := by
  obtain ⟨hsolution, -, -⟩ := solution_of_solve? hg hr
  have htarget : e.target < g.nodeCount := Nat.lt_succ_of_le (hg.target_le e he)
  have hinner : e.target ≠ g.entry := (hg.target_pos e he).ne'
  rw [hsolution.input_eq e.target htarget hinner]
  refine (isJoin p g).gather_le_iff.1 le_rfl e.source ?_
  exact FlowGraph.mem_predecessors.2 ⟨e, he, rfl, rfl⟩

/-- What holds before the node that comes next is above the transfer of the node that a run
leaves. -/
theorem applyNode_le_before (hg : g.WellFormed) (hr : solve? p g order budget = some r)
    {e : FlowEdge} {c d : RunState} (moves : Moves p g e c d) :
    applyNode p (g.stmt? c.node) (before p g order budget c.node) ≤
      before p g order budget d.node := by
  have hsource : c.node < g.exit := moves.source_eq ▸ hg.source_lt e moves.mem_edges
  rw [← behind_eq_applyNode hg hr hsource, ← moves.source_eq, ← moves.target_eq]
  exact behind_le_before hg hr moves.mem_edges

/-- A move keeps the store covered, unless it loses an operand. -/
theorem Covers.move (hg : g.WellFormed) (hr : solve? p g order budget = some r) {e : FlowEdge}
    {c d : RunState} (moves : Moves p g e c d)
    (hkeeps : ¬ LosesOperand p (g.stmt? c.node) (before p g order budget c.node))
    (hc : Covers p (before p g order budget c.node) c.store) :
    Covers p (before p g order budget d.node) d.store := by
  have hbehind := hc.applyNode (tracked_of_run p hg order budget c.node) hkeeps moves.effect
  exact hbehind.mono (applyNode_le_before hg hr moves)

/-- Wherever a run arrives that has lost no operand, the fact of a result covers its
store. -/
theorem covers_of_arrives (hg : g.WellFormed) (hr : solve? p g order budget = some r)
    {may : Store → FlowEdge → Prop} {past : List NodeId} {c : RunState}
    (harrives : Arrives p g may past c)
    (hkeeps : ∀ n ∈ past, ¬ LosesOperand p (g.stmt? n) (before p g order budget n)) :
    Covers p (before p g order budget c.node) c.store := by
  induction harrives with
  | entry s known =>
    obtain ⟨hsolution, -, -⟩ := solution_of_solve? hg hr
    have hentry : before p g order budget g.entry = boundary p g.method := hsolution.input_boundary
    rw [hentry]
    exact covers_boundary known
  | @move past c d e _ moves _ ih =>
    have hc := ih fun n hn => hkeeps n (List.mem_cons_of_mem _ hn)
    exact hc.move hg hr moves (hkeeps c.node List.mem_cons_self)

end Result

end Constants

end TacAnalysis
