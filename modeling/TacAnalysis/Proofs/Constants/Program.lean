import TacAnalysis.Constants.Program
import TacAnalysis.Proofs.CallGraph.Grounded
import TacAnalysis.Proofs.Constants.Soundness
import TacAnalysis.Proofs.Solver.InterOrder

/-!
# Constant propagation over a whole program

Edges carry higher facts if there are higher facts behind their sources, and so do nodes unless a
quotient is dropped. All facts of a run bind integer variables only, and none to "undefined". So
facts have finite height, and since what has flowed into a node stays there, every run ends,
although transfers are not monotone.

Main statements: `along_mono`, `keeps_tracked` and `exists_run?_superAnalysis`.
-/

namespace TacAnalysis

namespace Value

/-- Where higher values meet, a higher value is known. -/
theorem meet_mono {u u' v v' : Value} (hu : u ≤ u') (hv : v ≤ v') : u.meet v ≤ u'.meet v' := by
  obtain ⟨hleft, hright⟩ := meet_le_iff.1 (le_refl (u'.meet v'))
  exact meet_le_iff.2 ⟨hu.trans hleft, hv.trans hright⟩

end Value

namespace ConstFact

theorem remove_mono {f g : ConstFact} (hfg : f ≤ g) (v : VarId) : f.remove v ≤ g.remove v := by
  intro w
  rw [get_remove, get_remove]
  split
  · exact le_rfl
  · exact hfg w

/-- Forgetting a variable is binding it to "undefined". -/
theorem Proper.remove {f : ConstFact} (hf : f.Proper) (v : VarId) : (f.remove v).Proper :=
  hf.update v .undefined

end ConstFact

namespace Constants

variable {p : Program} {g : SuperGraph}

/-! ## Edges -/

/-- A call edge passes higher values of higher arguments. -/
theorem passArguments_mono (site : Site) (callee : MethodId) : Monotone (passArguments p site callee) := by
  intro f f' hf
  unfold passArguments
  split
  · rename_i call method _ _
    have hfold : ∀ (bindings : List (VarId × VarId)) (x y : ConstFact), x ≤ y →
        bindings.foldl (fun x b => if p.holdsInt b.2 then x.update b.2 (f.get b.1) else x) x ≤
          bindings.foldl (fun x b => if p.holdsInt b.2 then x.update b.2 (f'.get b.1) else x) y := by
      intro bindings
      induction bindings with
      | nil => exact fun x y hxy => hxy
      | cons b bindings ih =>
        intro x y hxy
        refine ih _ _ ?_
        dsimp only
        split
        · exact ConstFact.update_mono hxy (hf b.1)
        · exact hxy
    exact hfold _ ∅ ∅ le_rfl
  · exact le_rfl

/-- A method returns a higher value if its variables have higher ones. -/
theorem returnedValue_mono (callee : MethodId) {f f' : ConstFact} (hf : f ≤ f') :
    returnedValue p callee f ≤ returnedValue p callee f' := by
  have hfold : ∀ (vs : List VarId) (x y : Value), x ≤ y →
      vs.foldl (fun x v => x.meet (f.get v)) x ≤ vs.foldl (fun x v => x.meet (f'.get v)) y := by
    intro vs
    induction vs with
    | nil => exact fun x y hxy => hxy
    | cons v vs ih => exact fun x y hxy => ih _ _ (Value.meet_mono hxy (hf v))
  exact hfold _ _ _ le_rfl

theorem passResult_mono (site : Site) (callee : MethodId) : Monotone (passResult p site callee) := by
  intro f f' hf
  unfold passResult
  split
  · split
    · exact ConstFact.update_mono le_rfl (returnedValue_mono callee hf)
    · exact le_rfl
  · exact le_rfl

theorem bypass_mono (site : Site) (resolved : Bool) : Monotone (bypass p site resolved) := by
  intro f f' hf
  unfold bypass
  split
  · split
    · exact ConstFact.remove_mono hf _
    · exact ConstFact.update_mono hf le_rfl
  · exact hf

/-- Higher facts behind its source let an edge carry higher facts. -/
theorem along_mono (p : Program) (g : SuperGraph) (e : SuperEdge) : Monotone (along p g e) := by
  intro f f' hf
  unfold along
  split
  · exact hf
  · exact bypass_mono _ _ hf
  · exact passArguments_mono _ _ hf
  · exact passResult_mono _ _ hf

/-! ## Nodes -/

/-- What holds behind a node, given what holds before it; calls change nothing themselves. -/
def superApply (p : Program) (g : SuperGraph) (n : Nat) (f : ConstFact) : ConstFact :=
  if g.isCall n then f else applyNode p (g.stmt? n) f

/-- What holds behind a node if no quotient is dropped. -/
def superAbove (p : Program) (g : SuperGraph) (n : Nat) (f : ConstFact) : ConstFact :=
  if g.isCall n then f else applyAbove p (g.stmt? n) f

theorem superApply_le_superAbove (n : Nat) (f : ConstFact) : superApply p g n f ≤ superAbove p g n f := by
  unfold superApply superAbove
  split
  · exact le_rfl
  · exact applyNode_le_applyAbove _ f

theorem superAbove_mono (p : Program) (g : SuperGraph) (n : Nat) : Monotone (superAbove p g n) := by
  intro f f' hf
  unfold superAbove
  split
  · exact hf
  · exact applyAbove_mono p _ hf

/-- Both do the same unless the node drops a quotient. -/
theorem superApply_eq_superAbove {n : Nat} {f : ConstFact} (h : ¬ DropsQuotient p (g.stmt? n) f) :
    superApply p g n f = superAbove p g n f := by
  unfold superApply superAbove
  rw [applyNode_eq_applyAbove h]

/-! ## The analysis -/

theorem isJoin_superAnalysis (p : Program) (g : SuperGraph) : (superAnalysis p g).IsJoin where
  initial_le := ConstFact.empty_le
  meet_le_iff _ _ _ := ConstFact.meetInto_le_iff

/-- The transfer of a node gives what holds behind it. -/
theorem computes_superAnalysis (p : Program) (g : SuperGraph) :
    (superAnalysis p g).Computes (superApply p g) where
  output_eq n input output := by
    change (superTransfer p g n input output).2 = _
    unfold superTransfer superApply transfer
    split <;> exact ConstFact.copyFrom_snd _ _
  changed_iff n input output := by
    change (superTransfer p g n input output).1 = true ↔ _
    unfold superTransfer superApply transfer
    split <;> exact ConstFact.copyFrom_fst _ _

/-- The fact binds integer variables only, and none to "undefined". -/
structure ProperlyTracked (p : Program) (f : ConstFact) : Prop where
  /-- Nothing is bound to "undefined". -/
  proper : f.Proper
  /-- Only integer variables are bound. -/
  tracked : Tracked p f

namespace ProperlyTracked

variable {f f' : ConstFact}

theorem empty : ProperlyTracked p ∅ :=
  ⟨ConstFact.proper_empty, fun v hv => absurd (ConstFact.get_empty v) hv⟩

theorem update (hf : ProperlyTracked p f) {v : VarId} (hv : p.holdsInt v = true) (x : Value) :
    ProperlyTracked p (f.update v x) :=
  ⟨hf.proper.update v x, hf.tracked.update hv x⟩

theorem remove (hf : ProperlyTracked p f) (v : VarId) : ProperlyTracked p (f.remove v) := by
  refine ⟨hf.proper.remove v, fun w hw => ?_⟩
  rw [ConstFact.get_remove] at hw
  split at hw
  · exact absurd rfl hw
  · exact hf.tracked w hw

theorem applyNode (hf : ProperlyTracked p f) (stmt : Option Stmt) :
    ProperlyTracked p (applyNode p stmt f) := by
  refine ⟨?_, hf.tracked.applyNode stmt⟩
  match stmt with
  | some (.assign lhs rhs) =>
    simp only [Constants.applyNode, applyStmt]
    split
    · exact hf.proper.update lhs _
    · exact hf.proper
  | some (.invoke call) =>
    simp only [Constants.applyNode, applyStmt]
    cases call.result with
    | none => exact hf.proper
    | some result =>
      dsimp only
      split
      · exact hf.proper.update result _
      · exact hf.proper
  | none | some .nop | some (.storeField ..) | some (.storeArray ..) | some (.branch ..)
  | some (.goto _) | some (.switch ..) | some (.ret _) => exact hf.proper

theorem boundary (p : Program) (m : Method) : ProperlyTracked p (boundary p m) :=
  ⟨ConstFact.proper_empty.foldl_update _ id fun _ _ => .nac, tracked_boundary m⟩

theorem passArguments (site : Site) (callee : MethodId) (f : ConstFact) :
    ProperlyTracked p (passArguments p site callee f) := by
  unfold Constants.passArguments
  split
  · rename_i call method _ _
    have hfold : ∀ (bindings : List (VarId × VarId)) (x : ConstFact), ProperlyTracked p x →
        ProperlyTracked p (bindings.foldl
          (fun x b => if p.holdsInt b.2 then x.update b.2 (f.get b.1) else x) x) := by
      intro bindings
      induction bindings with
      | nil => exact fun x hx => hx
      | cons b bindings ih =>
        intro x hx
        refine ih _ ?_
        dsimp only
        split
        · rename_i hint
          exact hx.update hint _
        · exact hx
    exact hfold _ ∅ .empty
  · exact .empty

theorem passResult (site : Site) (callee : MethodId) (f : ConstFact) :
    ProperlyTracked p (passResult p site callee f) := by
  unfold Constants.passResult
  split
  · split
    · rename_i hint
      exact empty.update hint _
    · exact .empty
  · exact .empty

theorem bypass (hf : ProperlyTracked p f) (site : Site) (resolved : Bool) :
    ProperlyTracked p (bypass p site resolved f) := by
  unfold Constants.bypass
  split
  · split
    · exact hf.remove _
    · rename_i hkept
      refine hf.update ?_ _
      simp only [Bool.or_eq_true, Bool.not_eq_true', not_or, Bool.not_eq_false] at hkept
      exact hkept.2
  · exact hf

theorem along (hf : ProperlyTracked p f) (g : SuperGraph) (e : SuperEdge) :
    ProperlyTracked p (along p g e f) := by
  unfold Constants.along
  split
  · exact hf
  · exact hf.bypass _ _
  · exact passArguments _ _ f
  · exact passResult _ _ f

end ProperlyTracked

/-- Joins, transfers and edges keep facts that bind integer variables only. -/
theorem keeps_tracked (p : Program) (g : SuperGraph) (entry : Nat) :
    (superAnalysis p g).Keeps g entry (superApply p g) fun _ => ProperlyTracked p where
  boundary := by
    change ProperlyTracked p (superBoundary p g)
    unfold superBoundary
    split
    · cases hmethod : p.method? _ with
      | none => exact .empty
      | some method => exact .boundary p method
    · exact .empty
  initial _ := .empty
  meet _ x y hx hy := ⟨hy.proper.meetInto x, hx.tracked.meetInto hy.tracked⟩
  transfer n x hx := by
    unfold superApply
    split
    · exact hx
    · exact hx.applyNode _
  along e _ _ hx := hx.along g e

/-! ## Runs -/

/-- How far the fact has risen, over all variables. -/
def height (p : Program) (f : ConstFact) : Fin ((List.range p.vars.length).length * 2 + 1) :=
  ⟨ConstFact.rank (List.range p.vars.length) f, Nat.lt_succ_of_le (ConstFact.rank_le _ f)⟩

/-- Only declared variables hold integers. -/
theorem ProperlyTracked.within {f : ConstFact} (hf : ProperlyTracked p f) :
    f.Within (List.range p.vars.length) := by
  intro v hv
  obtain ⟨decl, hdecl, -⟩ := (Option.any_eq_true _ _).1 (hf.tracked v hv)
  exact List.mem_range.2 (List.getElem?_eq_some_iff.1 hdecl).1

/-- A fact that rises gets higher. -/
theorem eq_or_height_lt {f f' : ConstFact} (hf : ProperlyTracked p f) (hf' : ProperlyTracked p f')
    (hle : f ≤ f') : f' = f ∨ height p f < height p f' :=
  (ConstFact.eq_or_rank_lt hf.proper hf'.proper hf.within hf'.within hle).imp Eq.symm id

/-- Constant propagation over a whole program ends, in either order. -/
theorem exists_run?_superAnalysis (p : Program) {entry : Nat} (hg : g.WellFormed)
    (hentry : entry < g.nodeCount) (order : WorklistOrder) :
    ∃ budget s, (superAnalysis p g).run? g entry order budget = some s :=
  SuperAnalysis.exists_run?_of_height hg (isJoin_superAnalysis p g) (computes_superAnalysis p g) hentry
    (keeps_tracked p g entry) (height p) (fun _ _ _ hx hy hxy => eq_or_height_lt hx hy hxy) order

/-- At the entry there is no statement. -/
theorem stmt?_entryNode {entry : Nat} (hentry : SuperAnalysis.entryNode? g = some entry) :
    g.stmt? entry = none := by
  obtain ⟨m, -, hm⟩ := Option.bind_eq_some_iff.1 hentry
  obtain ⟨h, hmem, -⟩ := SuperGraph.exists_of_entryOf? hm
  have hadd := SuperGraph.stmt?_add hmem (Nat.succ_pos _ : 0 < h.nodeCount)
  rw [Nat.add_zero] at hadd
  rw [hadd]
  rfl

/-- So the entry passes on what flows into it. -/
theorem superAbove_entryNode {entry : Nat} (hentry : SuperAnalysis.entryNode? g = some entry)
    (f : ConstFact) : superAbove p g entry f = f := by
  have hstmt := stmt?_entryNode hentry
  have hsame : applyAbove p (g.stmt? entry) f = f := by
    rw [hstmt]
    rfl
  rw [superAbove, hsame, ite_self]

end Constants

end TacAnalysis
