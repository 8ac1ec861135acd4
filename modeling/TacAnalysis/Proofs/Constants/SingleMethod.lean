import TacAnalysis.Proofs.Constants.ProgramSchedules
import TacAnalysis.Proofs.Constants.Schedules
import TacAnalysis.Proofs.SuperGraph.Exact

/-!
# A whole program that is one method

If no call of the entry method has a known callee, the control flow of the whole program is that
of the entry method. There the analysis of the whole program and that of the method transfer the
same facts from node to node: what the latter does at a call, the former does on the edge past it.
Still the solvers differ. One recomputes what flows into a node, the other keeps what has flowed
in, so they may end in different solutions, on loops and behind nodes that drop a quotient.

Main statements: `inFact?_eq_iff_agree_on_loops` and `not_inFact?_eq_transient`.
-/

namespace TacAnalysis

/-- The control flow of a whole program that consists of one method. -/
def SuperGraph.single (p : Program) (h : FlowGraph) : SuperGraph := ⟨p, [h], localEdges 0 h⟩

namespace SuperGraph

variable {p : Program} {h : FlowGraph}

/-- The nodes are those of the method. -/
theorem nodeCount_single : (single p h).nodeCount = h.nodeCount := by
  simp [nodeCount_eq_sum, single]

theorem zero_lt_nodeCount_single : 0 < (single p h).nodeCount := by
  rw [nodeCount_single]
  exact Nat.succ_pos _

theorem mem_withBases_single : (0, h) ∈ withBases 0 (single p h).graphs := List.mem_singleton.2 rfl

theorem stmt?_single {n : NodeId} (hn : n < h.nodeCount) : (single p h).stmt? n = h.stmt? n := by
  have hadd := stmt?_add (g := single p h) mem_withBases_single hn
  rwa [Nat.zero_add] at hadd

/-- A node of the method keeps its number. -/
theorem node?_single (n : NodeId) :
    (single p h).node? h.method.id n = if n < h.nodeCount then some n else none := by
  have hfind : find? (single p h).graphs h.method.id = some (0, h) := by
    simp [find?, single, withBases]
  unfold node?
  rw [hfind, Option.bind_eq_bind, Option.bind_some]
  simp only [Nat.zero_add]

/-- A run of the program begins at the entry of the method. -/
theorem entryNode?_single (hentry : p.entry = some h.method.id) :
    SuperAnalysis.entryNode? (single p h) = some 0 := by
  have hfind : find? (single p h).graphs h.method.id = some (0, h) := by
    simp [find?, single, withBases]
  have hnode : (single p h).node? h.method.id 0 = some 0 := by
    rw [node?_single, if_pos (show 0 < h.nodeCount from Nat.succ_pos _)]
  have hprogram : (single p h).program.entry = some h.method.id := hentry
  rw [SuperAnalysis.entryNode?, hprogram, Option.bind_some, entryOf?, graph?, hfind]
  exact hnode

/-- A step of the method, as a step of the whole program. -/
def lift (h : FlowGraph) (d : FlowEdge) : SuperEdge where
  source := d.source
  target := d.target
  kind := match callSite? h d.source with
    | some site => .callToReturn site
    | none => .normal d.kind

/-- The edges are those of the method. -/
theorem edges_single : (single p h).edges = h.edges.map (lift h) := by
  simp only [single, localEdges, Nat.zero_add]
  rfl

/-- No callee is known for any call. -/
theorem isResolved_single (n : Nat) : Constants.isResolved (single p h) n = false := by
  refine List.any_eq_false.2 fun e he => ?_
  obtain ⟨he, -⟩ := mem_outEdges.1 he
  rw [edges_single] at he
  obtain ⟨d, -, rfl⟩ := List.mem_map.1 he
  simp only [lift]
  cases callSite? h d.source <;> simp

/-- A node without a call site is no call. -/
theorem stmt?_ne_of_callSite? {n : NodeId} (hsite : callSite? h n = none) (call : Invoke) :
    h.stmt? n ≠ some (.invoke call) := by
  intro hstmt
  unfold callSite? at hsite
  obtain ⟨index, hindex, -⟩ := Option.bind_eq_some_iff.1 hstmt
  rw [hstmt, hindex] at hsite
  cases hsite

/-- If no call of the entry method has a callee, only that method is reached. -/
theorem reachable_eq_singleton {calls : CallGraph} (hcalls : calls.Grounded p) {m : MethodId}
    (hentry : p.entry = some m) (hnone : ∀ site call, site.method = m →
      p.stmt? site = some (.invoke call) → calls.calleesOf site = []) : calls.reachable = [m] := by
  -- a known call of the entry method would have a callee
  have hedges : ∀ e ∈ calls.edges, e.site.method ≠ m := by
    intro e he hsite
    obtain ⟨call, hstmt, -⟩ := hcalls.isCall he
    have hcallee : e.callee ∈ calls.calleesOf e.site :=
      List.mem_map.2 ⟨e, List.mem_filter.2 ⟨he, decide_eq_true rfl⟩, rfl⟩
    rw [hnone e.site call hsite hstmt] at hcallee
    cases hcallee
  have honly : ∀ n ∈ calls.reachable, n = m := by
    intro n hn
    obtain ⟨entry, hentry', hpath⟩ := hcalls.exists_path hn
    obtain rfl := Option.some.inj (hentry.symm.trans hentry')
    rcases Relation.ReflTransGen.cases_head hpath with rfl | ⟨k, ⟨e, he, hsite, -⟩, -⟩
    · rfl
    · exact absurd hsite (hedges e he)
  have hmem := hcalls.entry_mem hentry
  have hlength : calls.reachable.length ≤ 1 := by
    have hsubset : calls.reachable ⊆ [m] := fun n hn => List.mem_singleton.2 (honly n hn)
    exact (List.subperm_of_subset hcalls.nodup_reachable hsubset).length_le
  obtain ⟨n, hn⟩ := List.length_eq_one_iff.1 (by
    have := List.length_pos_of_mem hmem
    omega : calls.reachable.length = 1)
  rw [hn, honly n (hn ▸ List.mem_singleton.2 rfl)]

/-- Then the control flow of the program is that of the method. -/
theorem build_eq_single {calls : CallGraph} (hcalls : calls.Grounded p) {m : MethodId}
    (hentry : p.entry = some m) (hof : FlowGraph.ofProgram p m = .ok h)
    (hid : h.method.id = m) (hconcrete : h.method.isAbstract = false)
    (hnone : ∀ site call, site.method = m → p.stmt? site = some (.invoke call) →
      calls.calleesOf site = []) : build p calls = .ok (single p h) := by
  have hmethod : p.method? m = some h.method := (FlowGraph.wellFormed_of_ofProgram hof).2
  have hkept : [m].filter (!p.isAbstract ·) = [m] := by
    simp [Program.isAbstract, hmethod, hconcrete]
  have hgraphs : [m].mapM (FlowGraph.ofProgram p) = .ok [h] := by
    rw [List.mapM_cons, hof]
    rfl
  have hcallEdges : callEdges [h] calls 0 h = [] := by
    refine List.flatMap_eq_nil_iff.2 fun n _ => ?_
    cases hsite : callSite? h n with
    | none => rfl
    | some site =>
      obtain ⟨hm, call, -, hstmt⟩ := exists_of_callSite? (hid ▸ hmethod) hsite
      simp only [hnone site call (hm.trans hid) hstmt, List.flatMap_nil]
  have hedges : (withBases 0 [h]).flatMap (fun e => localEdges e.1 e.2 ++ callEdges [h] calls e.1 e.2) =
      localEdges 0 h := by
    simp only [withBases, List.flatMap_cons, List.flatMap_nil, hcallEdges, List.append_nil]
  rw [build, reachable_eq_singleton hcalls hentry hnone, hkept]
  refine bind_eq_ok_iff.2 ⟨[h], hgraphs, ?_⟩
  rw [hedges]
  rfl

/-- Edges stay among the nodes of the method. -/
theorem wellFormed_single (hh : h.WellFormed) : (single p h).WellFormed := by
  have hends : ∀ e ∈ (single p h).edges, e.source < (single p h).nodeCount ∧
      e.target < (single p h).nodeCount := fun e he => of_mem_localEdges hh mem_withBases_single he
  exact ⟨fun e he => (hends e he).1, fun e he => (hends e he).2⟩

end SuperGraph

namespace Constants

open SuperGraph (single lift)

variable {p : Program} {h : FlowGraph} {f : ConstFact}

/-! ## Transfers -/

/-- To forget a variable that is not tracked changes nothing. -/
theorem ProperlyTracked.remove_eq (hf : ProperlyTracked p f) {v : VarId} (hv : p.holdsInt v = false) :
    f.remove v = f := by
  refine (hf.remove v).proper.ext hf.proper fun w => ?_
  rw [ConstFact.get_remove]
  split
  · rename_i hw
    subst hw
    by_contra hbound
    have htracked := hf.tracked w (Ne.symm hbound)
    rw [hv] at htracked
    cases htracked
  · rfl

/-- Past a call without a known callee a fact changes as the call itself would change it in the
analysis of the method. -/
theorem bypass_of_unresolved {site : Site} {call : Invoke} (hf : ProperlyTracked p f)
    (hstmt : p.stmt? site = some (.invoke call)) :
    bypass p site false f = applyNode p (some (.invoke call)) f := by
  have hresult : (p.stmt? site).bind Stmt.assigned? = call.result := by rw [hstmt]; rfl
  simp only [bypass, hresult, applyNode, applyStmt]
  cases call.result with
  | none => rfl
  | some v =>
    cases hv : p.holdsInt v with
    | false => simpa [hv] using hf.remove_eq hv
    | true => simp [hv]

/-- An edge carries what the analysis of the method finds behind its source. -/
theorem along_lift (hmethod : p.method? h.method.id = some h.method) (hf : ProperlyTracked p f)
    {d : FlowEdge} (hd : d.source < h.nodeCount) :
    along p (single p h) (lift h d) (superApply p (single p h) d.source f) =
      applyNode p (h.stmt? d.source) f := by
  have hstmt := SuperGraph.stmt?_single (p := p) hd
  cases hsite : SuperGraph.callSite? h d.source with
  | none =>
    have hcall : (single p h).isCall d.source = false := by
      rw [SuperGraph.isCall, hstmt]
      cases hcall : h.stmt? d.source with
      | none => rfl
      | some stmt =>
        cases stmt with
        | invoke call => exact absurd hcall (SuperGraph.stmt?_ne_of_callSite? hsite call)
        | _ => rfl
    simp only [along, lift, hsite, superApply, hcall, hstmt, Bool.false_eq_true, if_false]
  | some site =>
    obtain ⟨-, call, hcall, hsiteStmt⟩ := SuperGraph.exists_of_callSite? hmethod hsite
    have hisCall : (single p h).isCall d.source = true := by
      rw [SuperGraph.isCall, hstmt, hcall]
      rfl
    simp only [along, lift, hsite, superApply, hisCall, if_true, SuperGraph.isResolved_single]
    rw [bypass_of_unresolved hf hsiteStmt, hcall]

/-- A run begins with the same fact. -/
theorem superBoundary_single (hmethod : p.method? h.method.id = some h.method)
    (hentry : p.entry = some h.method.id) : superBoundary p (single p h) = boundary p h.method := by
  have howner : (single p h).methodOf? 0 = some h.method.id :=
    SuperGraph.methodOf?_add (g := single p h) SuperGraph.mem_withBases_single
      (Nat.succ_pos _ : 0 < h.nodeCount)
  rw [superBoundary, SuperGraph.entryNode?_single hentry, Option.bind_some, howner]
  simp only [hmethod, Option.map_some, Option.getD_some]

/-! ## Solutions -/

section Solutions

variable {order order' : WorklistOrder} {budget budget' : Nat} {r : FlowResult ConstFact}
  {s : SolverState ConstFact} (hh : h.WellFormed) (hmethod : p.method? h.method.id = some h.method)
  (hentry : p.entry = some h.method.id) (hr : solve? p h order budget = some r)
  (hrun : (superAnalysis p (single p h)).run? (single p h) 0 order' budget' = some s)

include hh hrun in
/-- A run over the program ends in a solution of its equations. -/
theorem isSolution_single : (superAnalysis p (single p h)).IsSolution (single p h) 0
    (superApply p (single p h)) (lastInputs p (single p h) s)
    (s.outputs (superAnalysis p (single p h)).initial) := by
  exact SuperAnalysis.isSolution_of_run? (SuperGraph.wellFormed_single hh) (isJoin_superAnalysis p _)
    (computes_superAnalysis p _) SuperGraph.zero_lt_nodeCount_single hrun

include hh hrun in
/-- It binds integer variables only, and none to "undefined". -/
theorem tracked_lastInputs (n : NodeId) : ProperlyTracked p (lastInputs p (single p h) s n) := by
  have hall := (keeps_tracked p (single p h) 0).allHold_of_run? (SuperGraph.wellFormed_single hh)
    (isJoin_superAnalysis p _) (computes_superAnalysis p _) SuperGraph.zero_lt_nodeCount_single hrun
  exact (hall n).1

include hh hmethod hrun in
/-- What holds behind the source of an edge of the method has flowed into its target. -/
theorem applyNode_le_lastInputs {d : FlowEdge} (hd : d ∈ h.edges) :
    applyNode p (h.stmt? d.source) (lastInputs p (single p h) s d.source) ≤
      lastInputs p (single p h) s d.target := by
  have hsource : d.source < h.nodeCount := Nat.lt_succ_of_lt (hh.source_lt d hd)
  have hsolution := isSolution_single hh hrun
  have houtput := hsolution.output_eq d.source (by rwa [SuperGraph.nodeCount_single])
  have hedge : lift h d ∈ (single p h).edges := by
    rw [SuperGraph.edges_single]
    exact List.mem_map_of_mem hd
  have hcarried := hsolution.along_le (lift h d) hedge
  rw [show (lift h d).source = d.source from rfl, houtput] at hcarried
  rwa [← along_lift hmethod (tracked_lastInputs hh hrun d.source) hsource]

include hh hmethod hentry hrun in
/-- What has flowed into a node is below all that is above what holds behind its sources, unless
a quotient is dropped there. -/
theorem lastInputs_le {n : NodeId} (hn : n < h.nodeCount) {x : ConstFact}
    (hx : n = 0 → boundary p h.method ≤ x)
    (hcarried : ∀ d ∈ h.edges, d.target = n →
      ¬ DropsQuotient p (h.stmt? d.source) (lastInputs p (single p h) s d.source) ∧
        applyNode p (h.stmt? d.source) (lastInputs p (single p h) s d.source) ≤ x) :
    lastInputs p (single p h) s n ≤ x := by
  have hnode := SuperGraph.entryNode?_single hentry
  refine SuperAnalysis.inputs_le_of_carried (SuperGraph.wellFormed_single hh) (isJoin_superAnalysis p _)
    (computes_superAnalysis p _) (SuperAnalysis.entryNode?_lt hnode) superApply_le_superAbove
    (superAbove_mono p _) (superAbove_entryNode hnode _).ge hrun (fun e _ => along_mono p _ e)
    (by rwa [SuperGraph.nodeCount_single]) (fun hzero => ?_) (fun e he htarget => ?_)
  · exact (superBoundary_single hmethod hentry).le.trans (hx hzero)
  · rw [SuperGraph.edges_single] at he
    obtain ⟨d, hd, rfl⟩ := List.mem_map.1 he
    obtain ⟨hkeeps, hle⟩ := hcarried d hd htarget
    have hsource : d.source < h.nodeCount := Nat.lt_succ_of_lt (hh.source_lt d hd)
    have hsame := superApply_eq_superAbove (g := single p h) (n := d.source)
      (by rwa [SuperGraph.stmt?_single hsource])
    change along p (single p h) (lift h d)
      (superAbove p (single p h) d.source (lastInputs p (single p h) s d.source)) ≤ x
    rw [← hsame, along_lift hmethod (tracked_lastInputs hh hrun d.source) hsource]
    exact hle

include hh hmethod hentry hrun in
/-- Nothing but the boundary fact flows into the entry. -/
theorem lastInputs_entry : lastInputs p (single p h) s 0 = boundary p h.method := by
  have hbelow : lastInputs p (single p h) s 0 ≤ boundary p h.method := by
    refine lastInputs_le hh hmethod hentry hrun (Nat.succ_pos _) (fun _ => le_rfl) fun d hd htarget => ?_
    exact absurd htarget (hh.target_pos d hd).ne'
  have habove : boundary p h.method ≤ lastInputs p (single p h) s 0 :=
    superBoundary_single hmethod hentry ▸ (isSolution_single hh hrun).boundary_le
  exact (tracked_lastInputs hh hrun 0).proper.antisymm (ProperlyTracked.boundary p h.method).proper
    hbelow habove

include hh hr in
/-- What the analysis of the method finds before a node is below all that is above what it finds
behind the sources of the node. -/
theorem before_le {n : NodeId} (hn : n < h.nodeCount) {x : ConstFact}
    (hx : n = 0 → boundary p h.method ≤ x)
    (hcarried : ∀ d ∈ h.edges, d.target = n → behind p h order budget d.source ≤ x) :
    before p h order budget n ≤ x := by
  obtain ⟨hsolution, -, -⟩ := solution_of_solve? hh hr
  by_cases hzero : n = h.entry
  · rw [hzero, show before p h order budget h.entry = boundary p h.method from hsolution.input_boundary]
    exact hx hzero
  · rw [hsolution.input_eq n hn hzero]
    refine (isJoin p h).gather_le_iff.2 fun k hk => ?_
    obtain ⟨d, hd, htarget, rfl⟩ := FlowGraph.mem_predecessors.1 hk
    exact hcarried d hd htarget

include hh hmethod hentry hr hrun in
/-- Both analyses find the same before all nodes, if they do before nodes on loops and behind nodes
that drop a quotient. -/
theorem lastInputs_eq_before
    (hloop : ∀ n, h.OnLoop n → lastInputs p (single p h) s n = before p h order budget n)
    (hbehind : ∀ d ∈ h.edges,
      DropsQuotient p (h.stmt? d.source) (lastInputs p (single p h) s d.source) →
      lastInputs p (single p h) s d.target = before p h order budget d.target)
    {n : NodeId} (hn : n < h.nodeCount) :
    lastInputs p (single p h) s n = before p h order budget n := by
  obtain ⟨hsolution, -, -⟩ := solution_of_solve? hh hr
  have hinitial : before p h order budget 0 = boundary p h.method := hsolution.input_boundary
  refine FlowGraph.induction_behind_loops hh hloop (fun n hn ih => ?_) hn
  have hsources : ∀ d ∈ h.edges, d.target = n → behind p h order budget d.source =
      applyNode p (h.stmt? d.source) (lastInputs p (single p h) s d.source) := by
    intro d hd htarget
    rw [behind_eq_applyNode hh hr (hh.source_lt d hd),
      ih d.source (FlowGraph.mem_predecessors.2 ⟨d, hd, htarget, rfl⟩)]
  by_cases hdrop : ∃ d ∈ h.edges, d.target = n ∧
      DropsQuotient p (h.stmt? d.source) (lastInputs p (single p h) s d.source)
  · obtain ⟨d, hd, rfl, hdrop⟩ := hdrop
    exact hbehind d hd hdrop
  · push Not at hdrop
    have hbelow : lastInputs p (single p h) s n ≤ before p h order budget n := by
      refine lastInputs_le hh hmethod hentry hrun hn (fun hzero => ?_) fun d hd htarget => ?_
      · rw [hzero, hinitial]
      · refine ⟨hdrop d hd htarget, ?_⟩
        rw [← hsources d hd htarget, ← htarget]
        exact behind_le_before hh hr hd
    have habove : before p h order budget n ≤ lastInputs p (single p h) s n := by
      refine before_le hh hr hn (fun hzero => ?_) fun d hd htarget => ?_
      · rw [hzero, lastInputs_entry hh hmethod hentry hrun]
      · rw [hsources d hd htarget, ← htarget]
        exact applyNode_le_lastInputs hh hmethod hrun hd
    exact (tracked_lastInputs hh hrun n).proper.antisymm (usual_of_run p hh order budget n).1.proper
      hbelow habove

include hh hmethod hentry hr hrun in
/-- A run over the program stays below a result about the method in which no quotient is dropped. -/
theorem lastInputs_le_before
    (hkeeps : ∀ n < h.nodeCount, ¬ DropsQuotient p (h.stmt? n) (before p h order budget n))
    {n : NodeId} (hn : n < h.nodeCount) :
    lastInputs p (single p h) s n ≤ before p h order budget n := by
  obtain ⟨hsolution, -, -⟩ := solution_of_solve? hh hr
  have hnode := SuperGraph.entryNode?_single hentry
  have hg := SuperGraph.wellFormed_single (p := p) hh
  have htracked : ∀ n, ProperlyTracked p (before p h order budget n) := fun n =>
    ⟨(usual_of_run p hh order budget n).1.proper, tracked_of_run p hh order budget n⟩
  have hsuper : (superAnalysis p (single p h)).IsSolution (single p h) 0 (superApply p (single p h))
      (before p h order budget) fun n => superApply p (single p h) n (before p h order budget n) := by
    refine ⟨?_, fun e he => ?_, fun _ _ => rfl⟩
    · refine (superBoundary_single hmethod hentry).le.trans ?_
      exact (hsolution.input_boundary : before p h order budget 0 = boundary p h.method).ge
    · rw [SuperGraph.edges_single] at he
      obtain ⟨d, hd, rfl⟩ := List.mem_map.1 he
      have hsource := hh.source_lt d hd
      have hcarried := along_lift hmethod (htracked d.source) (Nat.lt_succ_of_lt hsource)
      refine hcarried.le.trans ?_
      rw [← behind_eq_applyNode hh hr hsource]
      exact behind_le_before hh hr hd
  refine SuperAnalysis.inputs_le_of_isSolution hg (isJoin_superAnalysis p _) (computes_superAnalysis p _)
    (SuperAnalysis.entryNode?_lt hnode) superApply_le_superAbove (superAbove_mono p _)
    (superAbove_entryNode hnode _).ge hrun (fun e _ => along_mono p _ e) hsuper (fun e he => .inl ?_)
    (by rwa [SuperGraph.nodeCount_single])
  have hsource := hg.source_lt e he
  rw [SuperGraph.nodeCount_single] at hsource
  exact superApply_eq_superAbove (by rw [SuperGraph.stmt?_single hsource]; exact hkeeps e.source hsource)

include hh hmethod hentry hr hrun in
/-- A run over the method stays below a result about the program in which no quotient is dropped. -/
theorem before_le_lastInputs
    (hkeeps : ∀ n < h.nodeCount, ¬ DropsQuotient p (h.stmt? n) (lastInputs p (single p h) s n))
    {n : NodeId} (hn : n < h.nodeCount) :
    before p h order budget n ≤ lastInputs p (single p h) s n := by
  have hinitial := lastInputs_entry hh hmethod hentry hrun
  -- what the method transfers of the facts of the program is a solution for the method
  let solution (n : NodeId) : ConstFact := applyNode p (h.stmt? n) (lastInputs p (single p h) s n)
  have hbehind : ∀ n < h.nodeCount, behind p h order budget n ≤ solution n := by
    intro n hn
    refine FlowAnalysis.outputs_le_of_solution (computes p h) hh (isJoin p h)
      (fun _ _ _ hm => FlowAnalysis.sources_lt hh hm) (fun n _ => applyAbove_mono p (h.stmt? n))
      (fun n f => applyNode_le_applyAbove (h.stmt? n) f) ?_ (fun n hn _ _ => ?_) budget hn
    · exact hinitial.ge
    · have hsame : solution n = applyAbove p (h.stmt? n) (lastInputs p (single p h) s n) :=
        applyNode_eq_applyAbove (hkeeps n hn)
      rw [hsame]
      refine applyAbove_mono p (h.stmt? n) ((isJoin p h).gather_le_iff.2 fun k hk => ?_)
      obtain ⟨d, hd, rfl, rfl⟩ := FlowGraph.mem_predecessors.1 hk
      exact applyNode_le_lastInputs hh hmethod hrun hd
  refine before_le hh hr hn (fun hzero => ?_) fun d hd htarget => ?_
  · rw [hzero, hinitial]
  · rw [← htarget]
    have hsource : d.source < h.nodeCount := Nat.lt_succ_of_lt (hh.source_lt d hd)
    exact (hbehind d.source hsource).trans (applyNode_le_lastInputs hh hmethod hrun hd)

end Solutions

/-! ## Results -/

/-- In the targets of edges that leave a call of nothing known the result of the call is not
constant, in both analyses. -/
theorem get_result_of_unresolved {order order' : WorklistOrder} {budget budget' : Nat}
    {r : FlowResult ConstFact} {s : SolverState ConstFact} (hh : h.WellFormed)
    (hmethod : p.method? h.method.id = some h.method) (hr : solve? p h order budget = some r)
    (hrun : (superAnalysis p (single p h)).run? (single p h) 0 order' budget' = some s)
    {d : FlowEdge} (hd : d ∈ h.edges) {call : Invoke} {v : VarId}
    (hcall : h.stmt? d.source = some (.invoke call)) (hv : call.result = some v)
    (hint : p.holdsInt v = true) :
    (before p h order budget d.target).get v = .nac ∧
      (lastInputs p (single p h) s d.target).get v = .nac := by
  have hbound : ∀ f : ConstFact, (applyNode p (h.stmt? d.source) f).get v = .nac := by
    intro f
    simp [hcall, applyNode, applyStmt, hv, hint]
  constructor
  · have hle := behind_le_before hh hr hd v
    rw [behind_eq_applyNode hh hr (hh.source_lt d hd), hbound] at hle
    exact Value.nac_le_iff.1 hle
  · have hle := applyNode_le_lastInputs hh hmethod hrun hd v
    rw [hbound] at hle
    exact Value.nac_le_iff.1 hle

/-- If no call of the entry method has a callee in a call graph that is built for an accepted
program, the control flow of the whole program is that of the entry method, and its constants are
computed in either order. Those of the method, if they are computed as well, are the same before
all nodes exactly if they are before nodes on loops and behind nodes that drop a quotient in the
result about the program. They are if no node drops a quotient in either result. The results of
unresolved calls are not constant in both. -/
theorem inFact?_eq_iff_agree_on_loops {calls : CallGraph} (hp : p.Accepted) (hcalls : calls.BuiltFor p)
    {m : MethodId} {method : Method} (hentry : p.entry = some m) (hm : p.method? m = some method)
    (hconcrete : method.isAbstract = false)
    (hnone : ∀ site call, site.method = m → p.stmt? site = some (.invoke call) →
      calls.calleesOf site = []) :
    ∃ h g, FlowGraph.ofProgram p m = .ok h ∧ SuperGraph.build p calls = .ok g ∧
      (∀ n, g.node? m n = if n < h.nodeCount then some n else none) ∧ g.nodeCount = h.nodeCount ∧
      (∀ order, ∃ budget r', solveProgram? p calls order budget = .ok (g, some r')) ∧
      ∀ order order' budget budget' r r', solve? p h order budget = some r →
        solveProgram? p calls order' budget' = .ok (g, some r') →
        ((∀ n, r'.inFact? n = r.inFact? n) ↔ (∀ n, h.OnLoop n → r'.inFact? n = r.inFact? n) ∧
          ∀ d ∈ h.edges, DropsQuotient p (h.stmt? d.source) ((r'.inFact? d.source).getD ∅) →
            r'.inFact? d.target = r.inFact? d.target) ∧
        ((∀ n, ¬ DropsQuotient p (h.stmt? n) ((r.inFact? n).getD ∅) ∧
            ¬ DropsQuotient p (h.stmt? n) ((r'.inFact? n).getD ∅)) →
          ∀ n, r'.inFact? n = r.inFact? n) ∧
        ∀ d ∈ h.edges, ∀ call v, h.stmt? d.source = some (.invoke call) → call.result = some v →
          p.holdsInt v = true → ((r.inFact? d.target).getD ∅).get v = .nac ∧
            ((r'.inFact? d.target).getD ∅).get v = .nac := by
  obtain ⟨h, hof, hh, rfl⟩ := hp.wellFormed.exists_flowGraph hm
  obtain rfl := hp.wellFormed.id_eq hm
  have hbuild := SuperGraph.build_eq_single (hcalls.grounded hp.wellFormed) hentry hof rfl hconcrete hnone
  have hg := SuperGraph.wellFormed_of_build hbuild
  have hnode := SuperGraph.entryNode?_single hentry
  refine ⟨h, single p h, hof, hbuild, SuperGraph.node?_single, SuperGraph.nodeCount_single,
    fun order => ?_, fun order order' budget budget' r r' hr hr' => ?_⟩
  · obtain ⟨budget, s, hs⟩ := exists_run?_superAnalysis p hg (SuperAnalysis.entryNode?_lt hnode) order
    exact ⟨budget, _, solveProgram?_eq_ok_iff.2
      ⟨hbuild, by rw [SuperAnalysis.solve?_eq_map hnode, hs, Option.map_some]⟩⟩
  obtain ⟨s, hrun, hinput', -⟩ := SuperAnalysis.facts_of_solve? hg (isJoin_superAnalysis p _)
    (computes_superAnalysis p _) hnode (solveProgram?_eq_ok_iff.1 hr').2
  rw [SuperGraph.nodeCount_single] at hinput'
  have hholds' : r'.HoldsBefore h.nodeCount (lastInputs p (single p h) s) := hinput'
  obtain ⟨-, hholds, -⟩ : _ ∧ r.HoldsBefore h.nodeCount (before p h order budget) ∧ _ :=
    solution_of_solve? hh hr
  have hall := (hholds'.forall_inFact?_eq_iff hholds).2
  have hsource : ∀ d ∈ h.edges, d.source < h.nodeCount := fun d hd =>
    Nat.lt_succ_of_lt (hh.source_lt d hd)
  have htarget : ∀ d ∈ h.edges, d.target < h.nodeCount := fun d hd =>
    Nat.lt_succ_of_le (hh.target_le d hd)
  refine ⟨⟨fun hin => ⟨fun n _ => hin n, fun d _ _ => hin d.target⟩, fun ⟨hloop, hbehind⟩ => ?_⟩,
    fun hkeeps => ?_, fun d hd call v hcall hv hint => ?_⟩
  · refine hall fun n hn => lastInputs_eq_before hh hm hentry hr hrun (fun n hn => ?_)
      (fun d hd hdrop => ?_) hn
    · exact (hholds'.inFact?_eq_iff hholds (hn.lt_nodeCount hh)).1 (hloop n hn)
    · rw [← hholds'.getD_inFact? (hsource d hd) ∅] at hdrop
      exact (hholds'.inFact?_eq_iff hholds (htarget d hd)).1 (hbehind d hd hdrop)
  · refine hall fun n hn => ?_
    have hbelow := lastInputs_le_before hh hm hentry hr hrun
      (fun n hn => hholds.getD_inFact? hn ∅ ▸ (hkeeps n).1) hn
    have habove := before_le_lastInputs hh hm hentry hr hrun
      (fun n hn => hholds'.getD_inFact? hn ∅ ▸ (hkeeps n).2) hn
    exact (tracked_lastInputs hh hrun n).proper.antisymm (usual_of_run p hh order budget n).1.proper
      hbelow habove
  · rw [hholds.getD_inFact? (htarget d hd), hholds'.getD_inFact? (htarget d hd)]
    exact get_result_of_unresolved hh hm hr hrun hd hcall hv hint

/-! ## A quotient that is kept in the whole program only -/

theorem ofProgram_transient : FlowGraph.ofProgram transient 0 = .ok transientGraph := by
  rfl

theorem method?_transient : transient.method? 0 = some transientGraph.method :=
  (FlowGraph.wellFormed_of_ofProgram ofProgram_transient).2

/-- Nothing is called. -/
theorem calleesOf_transient (site : Site) : (CallGraph.ofHierarchy transient).calleesOf site = [] := by
  have hedges : (CallGraph.ofHierarchy transient).edges = [] := by rfl
  rw [CallGraph.calleesOf, hedges]
  rfl

/-- What is found about the method in an order. -/
def transientMethodResult (order : WorklistOrder) : FlowResult ConstFact :=
  (solve? transient transientGraph order 20).get (by cases order <;> decide +kernel)

theorem solve?_transient (order : WorklistOrder) :
    solve? transient transientGraph order 20 = some (transientMethodResult order) :=
  (Option.some_get _).symm

theorem inFact?_transientResult :
    (transientResult .lifo).inFact? 4 ≠ (transientMethodResult .lifo).inFact? 4 := by
  decide +kernel

/-- Control only goes on. -/
theorem not_onLoop_transientGraph (n : NodeId) : ¬ transientGraph.OnLoop n := by
  have hforward : ∀ e ∈ transientGraph.edges, e.source < e.target := by decide
  have hlt : ∀ n k, Relation.TransGen transientGraph.Follows n k → n < k := by
    intro n k hpath
    induction hpath with
    | single hstep =>
      obtain ⟨e, he, rfl, rfl⟩ := FlowGraph.mem_predecessors.1 hstep
      exact hforward e he
    | tail _ hstep ih =>
      obtain ⟨e, he, rfl, rfl⟩ := FlowGraph.mem_predecessors.1 hstep
      exact ih.trans (hforward e he)
  exact fun hloop => lt_irrefl n (hlt n n hloop)

/-- If no call of the entry method has a callee, both analyses in the same order can still find
different facts before a node of that method. -/
theorem not_inFact?_eq_transient :
    transient.Accepted ∧ (CallGraph.ofHierarchy transient).BuiltFor transient ∧
      transient.entry = some 0 ∧ FlowGraph.ofProgram transient 0 = .ok transientGraph ∧
      transientGraph.method.isAbstract = false ∧
      (∀ site, (CallGraph.ofHierarchy transient).calleesOf site = []) ∧ ∃ g n budget r r',
        solve? transient transientGraph .lifo budget = some r ∧
        solveProgram? transient (CallGraph.ofHierarchy transient) .lifo budget = .ok (g, some r') ∧
        g.node? 0 n = some n ∧ r'.inFact? n ≠ r.inFact? n :=
  ⟨accepted_transient, .byHierarchy, rfl, ofProgram_transient, rfl, calleesOf_transient,
    transientSuperGraph, 4, 20, _, _, solve?_transient .lifo, solveProgram?_transient .lifo, rfl,
    inFact?_transientResult⟩

/-- They differ behind a node that drops a quotient. -/
theorem transient_differs_behind_drop :
    transient.Accepted ∧ (CallGraph.ofHierarchy transient).BuiltFor transient ∧
      transient.entry = some 0 ∧ transient.method? 0 = some transientGraph.method ∧
      transientGraph.method.isAbstract = false ∧
      ∃ d ∈ transientGraph.edges,
        DropsQuotient transient (transientGraph.stmt? d.source)
          (((transientResult .lifo).inFact? d.source).getD ∅) ∧
        (transientResult .lifo).inFact? d.target ≠ (transientMethodResult .lifo).inFact? d.target := by
  refine ⟨accepted_transient, .byHierarchy, rfl, method?_transient, rfl, ?_⟩
  obtain ⟨h, g, hof, hbuild, -, -, -, hsame⟩ := inFact?_eq_iff_agree_on_loops accepted_transient
    .byHierarchy rfl method?_transient rfl fun site _ _ _ => calleesOf_transient site
  obtain rfl : transientGraph = h := Except.ok.inj (ofProgram_transient.symm.trans hof)
  obtain rfl : transientSuperGraph = g := Except.ok.inj (build_transient.symm.trans hbuild)
  have hiff := (hsame .lifo .lifo 20 20 _ _ (solve?_transient .lifo) (solveProgram?_transient .lifo)).1
  by_contra hagree
  push Not at hagree
  have hin := hiff.2 ⟨fun n hn => absurd hn (not_onLoop_transientGraph n), hagree⟩
  exact inFact?_transientResult (hin 4)

end Constants

end TacAnalysis
