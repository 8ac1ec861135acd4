import TacAnalysis.CallGraph.ByHierarchy
import TacAnalysis.Proofs.PointsTo.Least
import TacAnalysis.Proofs.PointsTo.Moves
import TacAnalysis.Proofs.Program.Callees
import TacAnalysis.Proofs.Search

/-!
# Call graphs of a program

Both ways to build a call graph, by the class hierarchy and by pointer analysis, begin with the
entry method and go on with what reached methods call. Whatever they take for the callees of a
call, each of their methods can be reached from the entry along the calls of the graph, and each
call is made by a statement of a reached method and leads to a reached method with a body.
Nothing is listed twice.

Main statement: `BuiltFor.grounded`.
-/

namespace TacAnalysis.CallGraph

open Relation

/-- A call leads from one method to another. -/
def Calls (g : CallGraph) (m n : MethodId) : Prop := ∃ e ∈ g.edges, e.site.method = m ∧ e.callee = n

/-- The statement at the site of a call makes it. -/
def IsCall (p : Program) (e : CallEdge) : Prop :=
  ∃ call, p.stmt? e.site = some (.invoke call) ∧ e.kind = call.kind

/-- The call graph holds what runs of the program can reach, if its calls are theirs. -/
structure Grounded (p : Program) (g : CallGraph) : Prop where
  /-- The entry method is reached. -/
  entry_mem : ∀ {m}, p.entry = some m → m ∈ g.reachable
  /-- Methods are reached from the entry. -/
  exists_path : ∀ {m}, m ∈ g.reachable → ∃ entry, p.entry = some entry ∧ ReflTransGen g.Calls entry m
  /-- No method is listed twice. -/
  nodup_reachable : g.reachable.Nodup
  /-- No call is listed twice. -/
  nodup_edges : g.edges.Nodup
  /-- Reached methods make the calls. -/
  site_mem : ∀ {e}, e ∈ g.edges → e.site.method ∈ g.reachable
  /-- Called methods are reached. -/
  callee_mem : ∀ {e}, e ∈ g.edges → e.callee ∈ g.reachable
  /-- Called methods have bodies. -/
  hasBody : ∀ {e}, e ∈ g.edges → p.HasBody e.callee
  /-- Calls are made by statements. -/
  isCall : ∀ {e}, e ∈ g.edges → IsCall p e

/-- The call graph is built for the program by the class hierarchy, or by pointer analysis under
some heap model and order. -/
inductive BuiltFor (p : Program) : CallGraph → Prop where
  | byHierarchy : BuiltFor p (.ofHierarchy p)
  | byPointers {heap : HeapModel} {order : WorklistOrder} {budget : Nat} {s : PointsToState}
      (hrun : (⟨p, heap, order⟩ : PointsToProblem).run? budget = some s) : BuiltFor p s.calls

variable {p : Program} {g : CallGraph}

/-- The methods of a call graph are declared. -/
theorem Grounded.lt (hg : g.Grounded p) (hp : p.WellFormed) {m : MethodId} (hm : m ∈ g.reachable) :
    m < p.methods.length := by
  obtain ⟨entry, hentry, hpath⟩ := hg.exists_path hm
  rcases ReflTransGen.cases_tail hpath with rfl | ⟨n, -, e, he, -, rfl⟩
  · exact hp.entry_lt m hentry
  · exact (hg.hasBody he).lt

/-! ## By the class hierarchy -/

/-- The hierarchy lists the calls of a method. -/
theorem mem_hierarchyCalls (hp : p.WellFormed) {m : MethodId} {e : CallEdge} :
    e ∈ p.hierarchyCalls m ↔ e.site.method = m ∧ ∃ call, p.stmt? e.site = some (.invoke call) ∧
      e.kind = call.kind ∧ e.callee ∈ p.resolveByHierarchy call := by
  unfold Program.hierarchyCalls
  cases hmethod : p.method? m with
  | none =>
    refine ⟨fun h => absurd h List.not_mem_nil, ?_⟩
    rintro ⟨rfl, call, hstmt, -⟩
    simp [Program.stmt?, hmethod] at hstmt
  | some method =>
    simp only [Method.calls, Method.sites, List.mem_flatMap, List.mem_filterMap, List.mem_map,
      Option.map_eq_some_iff, Stmt.call?_eq_some_iff]
    constructor
    · rintro ⟨-, ⟨-, ⟨⟨stmt, index⟩, hindex, rfl⟩, call, rfl, rfl⟩, callee, hcallee, rfl⟩
      refine ⟨rfl, call, ?_, rfl, hcallee⟩
      simp only [Program.stmt?, hmethod, Option.bind_some]
      exact List.mem_zipIdx_iff_getElem?.1 hindex
    · rintro ⟨rfl, call, hstmt, hkind, hcallee⟩
      simp only [Program.stmt?, hmethod, Option.bind_some] at hstmt
      refine ⟨(e.site, call), ⟨(e.site, .invoke call), ⟨(.invoke call, e.site.index),
        List.mem_zipIdx_iff_getElem?.2 hstmt, ?_⟩, call, rfl, rfl⟩, e.callee, hcallee, ?_⟩
      · rw [hp.id_eq hmethod]
      · rw [← hkind]

/-- Entering calls changes nothing but the calls. -/
theorem foldl_addEdge_eq (es : List CallEdge) (g : CallGraph) : es.foldl addEdge g =
    { g with edges := es.foldl (fun edges e => addOnce e edges) g.edges } := by
  induction es generalizing g with
  | nil => rfl
  | cons e es ih => exact ih (g.addEdge e)

/-- Calls are entered after each other, each once. -/
theorem foldl_addEdge (es : List CallEdge) (g : CallGraph) :
    (∀ e, e ∈ (es.foldl addEdge g).edges ↔ e ∈ g.edges ∨ e ∈ es) ∧
      (g.edges.Nodup → (es.foldl addEdge g).edges.Nodup) := by
  induction es generalizing g with
  | nil => simp
  | cons e es ih =>
    obtain ⟨hmem, hnodup⟩ := ih (g.addEdge e)
    refine ⟨fun e' => ?_, fun h => hnodup (nodup_addOnce h)⟩
    rw [List.foldl_cons, hmem, addEdge, mem_addOnce, List.mem_cons]
    tauto

/-- The callees that the hierarchy allows are declared. -/
theorem callee_lt_of_mem_hierarchyCalls (hp : p.WellFormed) {m n : MethodId}
    (h : n ∈ (p.hierarchyCalls m).map (·.callee)) : n < p.methods.length := by
  obtain ⟨e, he, rfl⟩ := List.mem_map.1 h
  obtain ⟨-, call, -, -, hcallee⟩ := (mem_hierarchyCalls hp).1 he
  exact (Program.HasBody.of_mem_resolveByHierarchy hp hcallee).lt

section Entry

variable {entry : MethodId} (hentry : p.entry = some entry)
include hentry

theorem ofHierarchy_eq_foldl : ofHierarchy p =
    ((p.hierarchyReachable entry).flatMap p.hierarchyCalls).foldl addEdge
      ⟨[entry], p.hierarchyReachable entry, []⟩ := by
  rw [ofHierarchy, hentry]

/-- The search lists what is reached. -/
theorem reachable_ofHierarchy : (ofHierarchy p).reachable = p.hierarchyReachable entry := by
  rw [ofHierarchy_eq_foldl hentry, foldl_addEdge_eq]

/-- What is reached makes the calls. -/
theorem mem_edges_ofHierarchy (hp : p.WellFormed) {e : CallEdge} : e ∈ (ofHierarchy p).edges ↔
    e.site.method ∈ p.hierarchyReachable entry ∧ e ∈ p.hierarchyCalls e.site.method := by
  rw [ofHierarchy_eq_foldl hentry, (foldl_addEdge _ _).1, List.mem_flatMap]
  refine ⟨?_, fun ⟨hm, he⟩ => .inr ⟨_, hm, he⟩⟩
  rintro (he | ⟨m, hm, he⟩)
  · exact absurd he List.not_mem_nil
  · obtain ⟨rfl, -⟩ := (mem_hierarchyCalls hp).1 he
    exact ⟨hm, he⟩

/-- The search reaches what calls connect with the entry, and lists it once. -/
theorem hierarchyReachable_spec (hp : p.WellFormed) : (p.hierarchyReachable entry).Nodup ∧
    ∀ {m}, m ∈ p.hierarchyReachable entry ↔
      ReflTransGen (Search.Leads fun m => (p.hierarchyCalls m).map (·.callee)) entry m := by
  have hlt : ∀ m ∈ [entry], m < p.methods.length := by
    simpa using hp.entry_lt entry hentry
  have hnext : ∀ m < p.methods.length, ∀ n ∈ (p.hierarchyCalls m).map (·.callee),
      n < p.methods.length := fun m _ n hn => callee_lt_of_mem_hierarchyCalls hp hn
  refine ⟨Search.nodup_breadthFirst hnext hlt, fun {m} => ?_⟩
  rw [Program.hierarchyReachable, Search.mem_breadthFirst hnext hlt]
  simp

end Entry

theorem grounded_ofHierarchy (hp : p.WellFormed) : (CallGraph.ofHierarchy p).Grounded p := by
  cases hentry : p.entry with
  | none =>
    unfold ofHierarchy
    constructor <;> simp [hentry, empty]
  | some entry =>
    have hreachable := reachable_ofHierarchy hentry
    obtain ⟨hnodup, hreached⟩ := hierarchyReachable_spec hentry hp
    have hedge : ∀ {e}, e ∈ (ofHierarchy p).edges ↔
        e.site.method ∈ p.hierarchyReachable entry ∧ e ∈ p.hierarchyCalls e.site.method :=
      mem_edges_ofHierarchy hentry hp
    refine {
      entry_mem := ?_
      exists_path := fun {m} hm => ⟨entry, hentry, ?_⟩
      nodup_reachable := hreachable ▸ hnodup
      nodup_edges := ?_
      site_mem := fun he => hreachable ▸ (hedge.1 he).1
      callee_mem := fun he => ?_
      hasBody := fun he => ?_
      isCall := fun he => ?_ }
    · intro m hm
      obtain rfl := Option.some.inj (hentry.symm.trans hm)
      exact hreachable ▸ hreached.2 .refl
    · have hpath := hreached.1 (hreachable ▸ hm)
      clear hm
      induction hpath with
      | refl => exact .refl
      | tail hbefore hlast ih =>
        obtain ⟨e, he, rfl⟩ := List.mem_map.1 hlast
        obtain ⟨rfl, -⟩ := (mem_hierarchyCalls hp).1 he
        exact ih.tail ⟨e, hedge.2 ⟨hreached.2 hbefore, he⟩, rfl, rfl⟩
    · rw [ofHierarchy_eq_foldl hentry]
      exact (foldl_addEdge _ _).2 List.nodup_nil
    · obtain ⟨hm, he⟩ := hedge.1 he
      exact hreachable ▸ hreached.2 ((hreached.1 hm).tail (List.mem_map_of_mem he))
    · obtain ⟨-, call, -, -, hcallee⟩ := (mem_hierarchyCalls hp).1 (hedge.1 he).2
      exact .of_mem_resolveByHierarchy hp hcallee
    · obtain ⟨-, call, hstmt, hkind, -⟩ := (mem_hierarchyCalls hp).1 (hedge.1 he).2
      exact ⟨call, hstmt, hkind⟩

/-! ## By pointer analysis -/

section Pointers

variable {heap : HeapModel}

/-- The rules lead from the entry to the method along calls that they derive. -/
def Traced (p : Program) (heap : HeapModel) (m : MethodId) : Prop :=
  ∃ entry, p.entry = some entry ∧
    ReflTransGen (fun m n => ∃ e, Derived p heap (.called e) ∧ e.site.method = m ∧ e.callee = n) entry m

/-- What a derived fact says of methods: they are traced, and calls are made by statements of
traced methods and lead to bodies. -/
def TracedBy (p : Program) (heap : HeapModel) : PointsToFact → Prop
  | .reached m => Traced p heap m
  | .called e => Traced p heap e.site.method ∧ p.HasBody e.callee ∧ IsCall p e
  | .flows _ y => ∀ v m, y = .var v → p.Owns m v → Traced p heap m
  | .holds x _ => ∀ v m, x = .var v → p.Owns m v → Traced p heap m

/-- What is true of the method that declares a variable is true of every method that does. -/
private theorem traced_var {m : MethodId} {v : VarId} (howns : p.Owns m v) (hm : Traced p heap m) :
    ∀ w n, Pointer.var v = .var w → p.Owns n w → Traced p heap n := by
  intro w n heq hw
  cases heq
  exact howns.unique hw ▸ hm

/-- Derived calls lead to traced methods. -/
private theorem traced_callee {e : CallEdge} (he : Derived p heap (.called e))
    (hsite : Traced p heap e.site.method) : Traced p heap e.callee := by
  obtain ⟨entry, hentry, hpath⟩ := hsite
  exact ⟨entry, hentry, hpath.tail ⟨e, he, rfl, rfl⟩⟩

/-- Whatever the rules derive, they have come to it along calls from the entry. -/
theorem tracedBy_of_derived (hp : p.WellFormed) {fact : PointsToFact} (h : Derived p heap fact) :
    TracedBy p heap fact := by
  have howns : ∀ {site stmt v}, p.stmt? site = some stmt → v ∈ stmt.uses ++ stmt.assigned?.toList →
      p.Owns site.method v := fun hstmt hv => hp.owns_of_stmt? hstmt hv
  -- the method of a call on a variable that holds an object is traced
  have hcaller : ∀ {site call receiver}, p.stmt? site = some (.invoke call) →
      call.receiver = some receiver →
      (∀ v m, Pointer.var receiver = .var v → p.Owns m v → Traced p heap m) →
      Traced p heap site.method := by
    intro site call receiver hstmt hreceiver hholds
    exact hholds receiver _ rfl (howns hstmt (by simp [Stmt.uses, hreceiver]))
  induction h with
  | entry hentry => exact ⟨_, hentry, .refl⟩
  | link _ hstmt hlink reached =>
    cases hlink with
    | copy lhs source => exact traced_var (howns hstmt (by simp [Stmt.assigned?])) reached
    | cast lhs source ty => exact traced_var (howns hstmt (by simp [Stmt.assigned?])) reached
    | loadStatic lhs f => exact traced_var (howns hstmt (by simp [Stmt.assigned?])) reached
    | storeStatic f value => exact fun v m heq => by cases heq
  | alloc _ hstmt hobj reached => exact traced_var (howns hstmt (by simp [Stmt.assigned?])) reached
  | staticCall _ hstmt hkind hcallee reached =>
    exact ⟨reached, .of_resolveCallee hp hcallee, _, hstmt, hkind.symm⟩
  | linkThrough _ hstmt hlink holds =>
    cases hlink with
    | storeField f value => exact fun v m heq => by cases heq
    | loadField lhs f =>
      have hbase := holds _ _ rfl (howns hstmt (by simp [Stmt.uses, Exp.uses]))
      exact traced_var (howns hstmt (by simp [Stmt.assigned?])) hbase
    | storeArray index value => exact fun v m heq => by cases heq
    | loadArray lhs index =>
      have hbase := holds _ _ rfl (howns hstmt (by simp [Stmt.uses, Exp.uses]))
      exact traced_var (howns hstmt (by simp [Stmt.assigned?])) hbase
  | instanceCall _ hstmt hreceiver hcallee holds =>
    exact ⟨hcaller hstmt hreceiver holds, .of_resolveCallee hp hcallee, _, hstmt, rfl⟩
  | self hderived hstmt hreceiver hcallee hmethod hself holds =>
    have hcalled := Derived.instanceCall hderived hstmt hreceiver hcallee
    have hcallee := traced_callee hcalled (hcaller hstmt hreceiver holds)
    exact traced_var (hp.owns_of_method? hmethod (by simp [hself])) hcallee
  | callee hderived called => exact traced_callee hderived called.1
  | pass hderived hstmt hmethod hpass called =>
    cases hpass with
    | argument harg =>
      have hparam := hp.owns_of_method? hmethod (List.mem_append_left _ (List.of_mem_zip harg).2)
      exact traced_var hparam (traced_callee hderived called.1)
    | result hv hresult =>
      exact traced_var (howns hstmt (by simp [Stmt.assigned?, hresult])) called.1
  | flow _ _ flows _ => exact flows

/-- A step lists nothing twice if nothing was. -/
private theorem composes_nodup : PointsToState.Composes fun s t =>
    (s.calls.reachable.Nodup → t.calls.reachable.Nodup) ∧
      (s.calls.edges.Nodup → t.calls.edges.Nodup) where
  refl _ := ⟨id, id⟩
  trans h h' := ⟨h'.1 ∘ h.1, h'.2 ∘ h.2⟩
  send _ _ _ := ⟨id, id⟩
  connect s x y := by
    unfold PointsToState.connect
    dsimp only
    split <;> exact ⟨id, id⟩
  propagate s id' objects := by
    unfold PointsToState.propagate
    dsimp only
    split <;> exact ⟨id, id⟩
  take _ _ := ⟨id, id⟩
  start _ := ⟨id, id⟩
  addEntry _ _ := ⟨id, id⟩
  addReachable _ _ := ⟨nodup_addOnce, id⟩
  addEdge _ _ := ⟨id, nodup_addOnce⟩

theorem grounded_of_run? (hp : p.WellFormed) {order : WorklistOrder} {budget : Nat}
    {s : PointsToState} (hrun : (⟨p, heap, order⟩ : PointsToProblem).run? budget = some s) :
    s.calls.Grounded p := by
  obtain ⟨hclosed, hended⟩ := PointsToProblem.closed_of_run? hp hrun
  have hreached : ∀ {m}, Derived p heap (.reached m) → m ∈ s.calls.reachable := fun h =>
    hclosed.found hended h
  have htraced : ∀ {m}, Traced p heap m → m ∈ s.calls.reachable := by
    rintro m ⟨entry, hentry, hpath⟩
    rcases ReflTransGen.cases_tail hpath with rfl | ⟨n, -, e, he, -, rfl⟩
    · exact hreached (.entry hentry)
    · exact hreached (.callee he)
  have hderived : ∀ {e}, e ∈ s.calls.edges → Derived p heap (.called e) := fun he =>
    hclosed.valid.derives_called he
  have hby : ∀ {e}, e ∈ s.calls.edges → Traced p heap e.site.method ∧ p.HasBody e.callee ∧
      IsCall p e := fun he => tracedBy_of_derived hp (hderived he)
  have hnodup : s.calls.reachable.Nodup ∧ s.calls.edges.Nodup := by
    set c : PointsToProblem := ⟨p, heap, order⟩
    obtain ⟨rfl, -⟩ := iterate?_eq_some_iff.1 hrun
    have hbegin := composes_nodup.begin (c := c) c.initial
    have hsteps := composes_nodup.stateAfter (c := c) budget (c.begin c.initial)
    exact ⟨hsteps.1 (hbegin.1 List.nodup_nil), hsteps.2 (hbegin.2 List.nodup_nil)⟩
  refine {
    entry_mem := fun hentry => hreached (.entry hentry)
    exists_path := fun hm => ?_
    nodup_reachable := hnodup.1
    nodup_edges := hnodup.2
    site_mem := fun he => htraced (hby he).1
    callee_mem := fun he => hreached (.callee (hderived he))
    hasBody := fun he => (hby he).2.1
    isCall := fun he => (hby he).2.2 }
  obtain ⟨entry, hentry, hpath⟩ : Traced p heap _ :=
    tracedBy_of_derived hp (hclosed.valid.derives_reached hm)
  have hcalls : ∀ m n, (∃ e, Derived p heap (.called e) ∧ e.site.method = m ∧ e.callee = n) →
      s.calls.Calls m n := by
    rintro m n ⟨e, he, hsite, hcallee⟩
    exact ⟨e, hclosed.found hended he, hsite, hcallee⟩
  exact ⟨entry, hentry, ReflTransGen.mono hcalls _ _ hpath⟩

end Pointers

/-- Every call graph that is built for a program holds what is reached from its entry. -/
theorem BuiltFor.grounded (hp : p.WellFormed) (h : BuiltFor p g) : g.Grounded p := by
  cases h with
  | byHierarchy => exact grounded_ofHierarchy hp
  | byPointers hrun => exact grounded_of_run? hp hrun

end TacAnalysis.CallGraph
