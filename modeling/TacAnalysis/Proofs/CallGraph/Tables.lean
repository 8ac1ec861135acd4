import Mathlib.Data.Finset.Insert
import Mathlib.Data.List.AList
import TacAnalysis.CallGraph.Basic

/-!
# Call graphs in tables

A call graph need not search its lists. Beside the list of reachable methods and the list of calls
stands the set of their elements, and what each site calls and where each method is called from is
entered under the site and under the method. So whatever is added in whatever order, six tables
have to tell the same story, and they do: each list holds what was added, once, in the order of the
first addition, each set has the elements of its list, and the entries of a site and of a method
are read off the list of calls.

A call is one of a kind, but the kind is not part of what is entered. So a method is listed for a
site as often as there are kinds of calls of it, and once only if there is one kind.

Main statements: `CallTables.represents_of` and `CallTables.inStep_of`.
-/

namespace TacAnalysis

/-! ## Entries under keys -/

section Buckets

variable {α β : Type} [DecidableEq α]

/-- What is entered under a key. -/
def bucket (m : AList fun _ : α => List β) (k : α) : List β := (m.lookup k).getD []

/-- Enters something under a key, behind what is there. -/
def pushBucket (k : α) (x : β) (m : AList fun _ : α => List β) : AList fun _ : α => List β :=
  m.insert k (bucket m k ++ [x])

theorem bucket_pushBucket {m : AList fun _ : α => List β} {k k' : α} {x : β} :
    bucket (pushBucket k x m) k' = bucket m k' ++ if k = k' then [x] else [] := by
  unfold pushBucket
  by_cases hk : k = k'
  · subst hk
    rw [bucket, AList.lookup_insert, Option.getD_some, if_pos rfl]
  · have hne : k' ≠ k := Ne.symm hk
    rw [bucket, AList.lookup_insert_ne hne, if_neg hk, List.append_nil, bucket]

end Buckets

/-! ## Tables -/

/-- A call graph in tables. -/
structure CallTables where
  /-- The methods with which runs begin. -/
  entries : List MethodId
  /-- The methods that runs can reach. -/
  reachable : List MethodId
  /-- The same methods, to find them. -/
  reachableSet : Finset MethodId
  /-- The calls that runs can make. -/
  edges : List CallEdge
  /-- The same calls, to find them. -/
  edgeSet : Finset CallEdge
  /-- The callees of calls, under the sites. -/
  callees : AList fun _ : Site => List MethodId
  /-- The sites of calls, under the callees. -/
  callers : AList fun _ : MethodId => List Site

/-- Something that is added to a call graph. -/
inductive Addition where
  /-- A method with which runs begin. -/
  | entry (m : MethodId)
  /-- A reachable method. -/
  | reachable (m : MethodId)
  /-- A call. -/
  | edge (e : CallEdge)

namespace Addition

/-- The method of an entry. -/
@[simp] def entry? : Addition → Option MethodId
  | entry m => some m
  | _ => none

/-- The method that is reachable. -/
@[simp] def reachable? : Addition → Option MethodId
  | reachable m => some m
  | _ => none

/-- The call. -/
@[simp] def edge? : Addition → Option CallEdge
  | edge e => some e
  | _ => none

end Addition

namespace CallTables

/-- Nothing is known yet. -/
def empty : CallTables := ⟨[], [], ∅, [], ∅, ∅, ∅⟩

variable (t : CallTables)

/-- Adds a method with which runs begin. -/
def addEntry (m : MethodId) : CallTables :=
  if m ∈ t.entries then t else { t with entries := t.entries ++ [m] }

/-- Adds a reachable method, and says whether it was not known. -/
def addReachable (m : MethodId) : CallTables × Bool :=
  if m ∈ t.reachableSet then (t, false)
  else ({ t with
    reachable := t.reachable ++ [m]
    reachableSet := insert m t.reachableSet }, true)

/-- Adds a call, and says whether it was not known. -/
def addEdge (e : CallEdge) : CallTables × Bool :=
  if e ∈ t.edgeSet then (t, false)
  else ({ t with
    edges := t.edges ++ [e]
    edgeSet := insert e t.edgeSet
    callees := pushBucket e.site e.callee t.callees
    callers := pushBucket e.callee e.site t.callers }, true)

/-- Whether a method is reachable. -/
def contains (m : MethodId) : Bool := decide (m ∈ t.reachableSet)

/-- Whether a call is known. -/
def hasEdge (e : CallEdge) : Bool := decide (e ∈ t.edgeSet)

/-- The methods that a call site may call. -/
def calleesOf (s : Site) : List MethodId := bucket t.callees s

/-- The call sites that may call a method. -/
def callersOf (m : MethodId) : List Site := bucket t.callers m

/-- Adds something. -/
def add : Addition → CallTables
  | .entry m => t.addEntry m
  | .reachable m => (t.addReachable m).1
  | .edge e => (t.addEdge e).1

/-- The tables after some additions. -/
def of (adds : List Addition) : CallTables := adds.foldl add empty

end CallTables

namespace CallGraph

/-- Adds something. -/
def add (g : CallGraph) : Addition → CallGraph
  | .entry m => g.addEntry m
  | .reachable m => g.addReachable m
  | .edge e => g.addEdge e

/-- The call graph after some additions. -/
def of (adds : List Addition) : CallGraph := adds.foldl add empty

/-- The first occurrences of what is entered one after the other. -/
theorem eraseDups_concat {α : Type} [DecidableEq α] (xs : List α) (x : α) :
    (xs ++ [x]).eraseDups = addOnce x xs.eraseDups := by
  have hone : [x].eraseDups = [x] := rfl
  rw [List.eraseDups_append]
  by_cases hx : x ∈ xs
  · rw [addOnce, if_pos (List.mem_eraseDups.2 hx)]
    simp [List.removeAll, hx]
  · rw [addOnce, if_neg (fun h => hx (List.mem_eraseDups.1 h))]
    simp [List.removeAll, hx, hone]

/-- Each list holds what was added, once, in the order of the first addition. -/
theorem of_eq (adds : List Addition) : of adds =
    ⟨(adds.filterMap Addition.entry?).eraseDups, (adds.filterMap Addition.reachable?).eraseDups,
      (adds.filterMap Addition.edge?).eraseDups⟩ := by
  unfold of
  induction adds using List.reverseRecOn with
  | nil => rfl
  | append_singleton adds a ih =>
    rw [List.foldl_concat, ih]
    rw [List.filterMap_append, List.filterMap_append, List.filterMap_append]
    cases a with
    | entry m => simp [add, addEntry, List.filterMap_cons, eraseDups_concat]
    | reachable m => simp [add, addReachable, List.filterMap_cons, eraseDups_concat]
    | edge e => simp [add, addEdge, List.filterMap_cons, eraseDups_concat]

theorem nodup_of (adds : List Addition) :
    (of adds).entries.Nodup ∧ (of adds).reachable.Nodup ∧ (of adds).edges.Nodup := by
  unfold of
  induction adds using List.reverseRecOn with
  | nil => exact ⟨List.nodup_nil, List.nodup_nil, List.nodup_nil⟩
  | append_singleton adds a ih =>
    obtain ⟨hentries, hreachable, hedges⟩ := ih
    rw [List.foldl_concat]
    cases a with
    | entry m => exact ⟨nodup_addOnce hentries, hreachable, hedges⟩
    | reachable m => exact ⟨hentries, nodup_addOnce hreachable, hedges⟩
    | edge e => exact ⟨hentries, hreachable, nodup_addOnce hedges⟩

variable {g : CallGraph} {e : CallEdge} {s : Site} {m : MethodId}

/-- A new call is listed last for its site. -/
theorem calleesOf_addEdge_of_new (he : e ∉ g.edges) :
    (g.addEdge e).calleesOf s = g.calleesOf s ++ if e.site = s then [e.callee] else [] := by
  unfold calleesOf addEdge addOnce
  rw [if_neg he, List.filter_append, List.map_append]
  by_cases hs : e.site = s
  · simp [hs]
  · simp [hs]

/-- A new call is listed last for its callee. -/
theorem callersOf_addEdge_of_new (he : e ∉ g.edges) :
    (g.addEdge e).callersOf m = g.callersOf m ++ if e.callee = m then [e.site] else [] := by
  unfold callersOf addEdge addOnce
  rw [if_neg he, List.filter_append, List.map_append]
  by_cases hm : e.callee = m
  · simp [hm]
  · simp [hm]

/-- The calls of a method from a site. -/
def callsBetween (g : CallGraph) (s : Site) (m : MethodId) : List CallEdge :=
  g.edges.filter fun e => e.site = s ∧ e.callee = m

/-- A site lists a method once for each call. -/
theorem count_calleesOf : (g.calleesOf s).count m = (g.callsBetween s m).length := by
  unfold calleesOf callsBetween
  rw [List.count_eq_countP, List.countP_map, List.countP_filter, List.countP_eq_length_filter]
  congr 1
  apply List.filter_congr
  intro e _
  rw [Bool.eq_iff_iff]
  simp [and_comm]

/-- A method lists a site once for each call. -/
theorem count_callersOf : (g.callersOf m).count s = (g.callsBetween s m).length := by
  unfold callersOf callsBetween
  rw [List.count_eq_countP, List.countP_map, List.countP_filter, List.countP_eq_length_filter]
  congr 1
  apply List.filter_congr
  intro e _
  rw [Bool.eq_iff_iff]
  simp

/-- No site calls a method in two ways. -/
def OneKind (g : CallGraph) : Prop :=
  ∀ e ∈ g.edges, ∀ e' ∈ g.edges, e.site = e'.site → e.callee = e'.callee → e.kind = e'.kind

theorem mem_callsBetween : e ∈ g.callsBetween s m ↔ e ∈ g.edges ∧ e.site = s ∧ e.callee = m := by
  simp [callsBetween]

/-- The calls of a method from a site are one call if they are of one kind, and only then. -/
theorem oneKind_iff (hg : g.edges.Nodup) :
    g.OneKind ↔ ∀ e ∈ g.edges, (g.callsBetween e.site e.callee).length = 1 := by
  constructor
  · intro hkind e he
    have hmem : e ∈ g.callsBetween e.site e.callee := mem_callsBetween.2 ⟨he, rfl, rfl⟩
    have hnodup : (g.callsBetween e.site e.callee).Nodup := hg.filter _
    have hsame : ∀ e' ∈ g.callsBetween e.site e.callee, e = e' := by
      intro e' he'
      obtain ⟨hedge, hsite, hcallee⟩ := mem_callsBetween.1 he'
      have hkinds := hkind e he e' hedge hsite.symm hcallee.symm
      cases e
      cases e'
      simp only [CallEdge.mk.injEq]
      exact ⟨hkinds, hsite.symm, hcallee.symm⟩
    rw [← List.count_eq_length.2 hsame]
    exact List.count_eq_one_of_mem hnodup hmem
  · intro hone e he e' he' hsite hcallee
    obtain ⟨e₀, heq⟩ := List.length_eq_one_iff.1 (hone e he)
    have hfirst : e ∈ g.callsBetween e.site e.callee := mem_callsBetween.2 ⟨he, rfl, rfl⟩
    have hsecond : e' ∈ g.callsBetween e.site e.callee :=
      mem_callsBetween.2 ⟨he', hsite.symm, hcallee.symm⟩
    rw [heq, List.mem_singleton] at hfirst hsecond
    rw [hfirst, hsecond]

end CallGraph

namespace CallTables

variable {t : CallTables} {g : CallGraph}

/-! ## What tables stand for -/

/-- The tables answer every question as the call graph does. -/
structure Represents (t : CallTables) (g : CallGraph) : Prop where
  /-- The same methods begin runs. -/
  entries_eq : t.entries = g.entries
  /-- The same methods are reachable. -/
  reachable_eq : t.reachable = g.reachable
  /-- They are the elements of their set. -/
  mem_reachableSet : ∀ m, m ∈ t.reachableSet ↔ m ∈ g.reachable
  /-- The same calls are known. -/
  edges_eq : t.edges = g.edges
  /-- They are the elements of their set. -/
  mem_edgeSet : ∀ e, e ∈ t.edgeSet ↔ e ∈ g.edges
  /-- Sites call the same methods. -/
  calleesOf_eq : ∀ s, t.calleesOf s = g.calleesOf s
  /-- Methods are called from the same sites. -/
  callersOf_eq : ∀ m, t.callersOf m = g.callersOf m

theorem represents_empty : empty.Represents .empty where
  entries_eq := rfl
  reachable_eq := rfl
  mem_reachableSet m := by simp [empty, CallGraph.empty]
  edges_eq := rfl
  mem_edgeSet e := by simp [empty, CallGraph.empty]
  calleesOf_eq _ := rfl
  callersOf_eq _ := rfl

theorem Represents.addEntry (h : t.Represents g) (m : MethodId) :
    (t.addEntry m).Represents (g.addEntry m) := by
  obtain ⟨hentries, hreachable, hreachableSet, hedges, hedgeSet, hcallees, hcallers⟩ := h
  unfold CallTables.addEntry CallGraph.addEntry CallGraph.addOnce
  rw [hentries]
  split
  · exact ⟨hentries, hreachable, hreachableSet, hedges, hedgeSet, hcallees, hcallers⟩
  · exact ⟨rfl, hreachable, hreachableSet, hedges, hedgeSet, hcallees, hcallers⟩

theorem Represents.addReachable (h : t.Represents g) (m : MethodId) :
    (t.addReachable m).1.Represents (g.addReachable m) := by
  obtain ⟨hentries, hreachable, hreachableSet, hedges, hedgeSet, hcallees, hcallers⟩ := h
  unfold CallTables.addReachable CallGraph.addReachable CallGraph.addOnce
  by_cases hm : m ∈ g.reachable
  · rw [if_pos ((hreachableSet m).2 hm), if_pos hm]
    exact ⟨hentries, hreachable, hreachableSet, hedges, hedgeSet, hcallees, hcallers⟩
  · rw [if_neg (fun h => hm ((hreachableSet m).1 h)), if_neg hm]
    refine ⟨hentries, congrArg (· ++ [m]) hreachable, fun n => ?_, hedges, hedgeSet, hcallees,
      hcallers⟩
    simp [hreachableSet, or_comm]

/-- A new call is entered in all four tables for calls. -/
theorem Represents.addEdge (h : t.Represents g) (e : CallEdge) :
    (t.addEdge e).1.Represents (g.addEdge e) := by
  obtain ⟨hentries, hreachable, hreachableSet, hedges, hedgeSet, hcallees, hcallers⟩ := h
  by_cases he : e ∈ g.edges
  · have hsame : g.addEdge e = g := by simp [CallGraph.addEdge, CallGraph.addOnce, he]
    rw [CallTables.addEdge, if_pos ((hedgeSet e).2 he), hsame]
    exact ⟨hentries, hreachable, hreachableSet, hedges, hedgeSet, hcallees, hcallers⟩
  · have hadded : (g.addEdge e).edges = g.edges ++ [e] := by
      simp [CallGraph.addEdge, CallGraph.addOnce, he]
    rw [CallTables.addEdge, if_neg (fun h => he ((hedgeSet e).1 h))]
    exact {
      entries_eq := hentries
      reachable_eq := hreachable
      mem_reachableSet := hreachableSet
      edges_eq := by
        rw [hadded]
        exact congrArg (· ++ [e]) hedges
      mem_edgeSet := fun e' => by
        rw [hadded]
        simp [hedgeSet, or_comm]
      calleesOf_eq := fun s => by
        rw [CallGraph.calleesOf_addEdge_of_new he, ← hcallees]
        exact bucket_pushBucket
      callersOf_eq := fun m => by
        rw [CallGraph.callersOf_addEdge_of_new he, ← hcallers]
        exact bucket_pushBucket }

theorem Represents.add (h : t.Represents g) (a : Addition) : (t.add a).Represents (g.add a) := by
  cases a with
  | entry m => exact h.addEntry m
  | reachable m => exact h.addReachable m
  | edge e => exact h.addEdge e

/-- Tables stay in step with a call graph that takes in the same. -/
theorem represents_of (adds : List Addition) : (of adds).Represents (.of adds) := by
  unfold of CallGraph.of
  induction adds using List.reverseRecOn with
  | nil => exact represents_empty
  | append_singleton adds a ih =>
    rw [List.foldl_concat, List.foldl_concat]
    exact ih.add a

/-! ## What additions leave behind -/

/-- Each method that a site may call is listed for it once, and each site from which a method may be
called is listed for the method once. -/
def ListsOnce (t : CallTables) : Prop :=
  ∀ s m, (∃ kind, ⟨kind, s, m⟩ ∈ t.edges) →
    (t.calleesOf s).count m = 1 ∧ (t.callersOf m).count s = 1

/-- The tables are in step with what has been added. -/
structure InStep (t : CallTables) (adds : List Addition) : Prop where
  /-- The methods with which runs begin, in the order of their first addition. -/
  entries_eq : t.entries.Nodup ∧ t.entries = (adds.filterMap Addition.entry?).eraseDups
  /-- The reachable methods, in the order of their first addition. -/
  reachable_eq : t.reachable.Nodup ∧ t.reachable = (adds.filterMap Addition.reachable?).eraseDups
  /-- The calls, in the order of their first addition. -/
  edges_eq : t.edges.Nodup ∧ t.edges = (adds.filterMap Addition.edge?).eraseDups
  /-- The methods that are found are those of the list. -/
  contains_iff : ∀ m, t.contains m = true ↔ m ∈ t.reachable
  /-- The calls that are found are those of the list. -/
  hasEdge_iff : ∀ e, t.hasEdge e = true ↔ e ∈ t.edges
  /-- A method and a site are listed for each other once for each call. -/
  count_eq : ∀ s m,
    (t.calleesOf s).count m = (t.edges.filter fun e => e.site = s ∧ e.callee = m).length ∧
    (t.callersOf m).count s = (t.edges.filter fun e => e.site = s ∧ e.callee = m).length
  /-- They are listed once only if no site calls a method in two ways. -/
  listsOnce_iff : t.ListsOnce ↔ ∀ e ∈ t.edges, ∀ e' ∈ t.edges, e.site = e'.site →
    e.callee = e'.callee → e.kind = e'.kind
  /-- A reachable method is new if it is not there, and if it is there nothing changes. -/
  addReachable_iff : ∀ m, ((t.addReachable m).2 = true ↔ m ∉ t.reachable) ∧
    ((t.addReachable m).2 = false → (t.addReachable m).1 = t)
  /-- A call is new if it is not there, and if it is there nothing changes. -/
  addEdge_iff : ∀ e, ((t.addEdge e).2 = true ↔ e ∉ t.edges) ∧
    ((t.addEdge e).2 = false → (t.addEdge e).1 = t)

theorem addReachable_eq (t : CallTables) (m : MethodId) :
    ((t.addReachable m).2 = true ↔ m ∉ t.reachableSet) ∧
      ((t.addReachable m).2 = false → (t.addReachable m).1 = t) := by
  unfold addReachable
  split
  · rename_i hm
    simp [hm]
  · rename_i hm
    simp [hm]

theorem addEdge_eq (t : CallTables) (e : CallEdge) :
    ((t.addEdge e).2 = true ↔ e ∉ t.edgeSet) ∧
      ((t.addEdge e).2 = false → (t.addEdge e).1 = t) := by
  unfold addEdge
  split
  · rename_i he
    simp [he]
  · rename_i he
    simp [he]

theorem Represents.listsOnce_iff (h : t.Represents g) (hg : g.edges.Nodup) :
    t.ListsOnce ↔ g.OneKind := by
  have hcount : ∀ s m, (t.calleesOf s).count m = (g.callsBetween s m).length ∧
      (t.callersOf m).count s = (g.callsBetween s m).length := by
    intro s m
    rw [h.calleesOf_eq, h.callersOf_eq, CallGraph.count_calleesOf, CallGraph.count_callersOf]
    exact ⟨rfl, rfl⟩
  rw [CallGraph.oneKind_iff hg]
  unfold ListsOnce
  rw [h.edges_eq]
  constructor
  · intro honce e he
    rw [← (hcount e.site e.callee).1]
    exact (honce e.site e.callee ⟨e.kind, he⟩).1
  · rintro hone s m ⟨kind, he⟩
    rw [(hcount s m).1, (hcount s m).2]
    exact ⟨hone _ he, hone _ he⟩

/-- Whatever is added in whatever order, the tables answer as the call graph does that takes in the
same. Lists hold what was added, once, in the order of the first addition, sets have the elements of
their lists, and additions say whether something was new. For each other a site and a method are
listed as often as there are kinds of calls between them. -/
theorem tables_in_step (adds : List Addition) :
    (of adds).Represents (.of adds) ∧ (of adds).InStep adds := by
  have h := represents_of adds
  obtain ⟨hentries, hreachable, hedges⟩ := CallGraph.nodup_of adds
  refine ⟨h, ?_⟩
  exact {
    entries_eq := by
      rw [h.entries_eq]
      exact ⟨hentries, by rw [CallGraph.of_eq]⟩
    reachable_eq := by
      rw [h.reachable_eq]
      exact ⟨hreachable, by rw [CallGraph.of_eq]⟩
    edges_eq := by
      rw [h.edges_eq]
      exact ⟨hedges, by rw [CallGraph.of_eq]⟩
    contains_iff := fun m => by
      rw [contains, decide_eq_true_iff, h.mem_reachableSet, h.reachable_eq]
    hasEdge_iff := fun e => by
      rw [hasEdge, decide_eq_true_iff, h.mem_edgeSet, h.edges_eq]
    count_eq := fun s m => by
      rw [h.calleesOf_eq, h.callersOf_eq, CallGraph.count_calleesOf, CallGraph.count_callersOf,
        h.edges_eq]
      exact ⟨rfl, rfl⟩
    listsOnce_iff := by
      rw [h.listsOnce_iff hedges, CallGraph.OneKind, h.edges_eq]
    addReachable_iff := fun m => by
      rw [h.reachable_eq, ← h.mem_reachableSet]
      exact addReachable_eq _ m
    addEdge_iff := fun e => by
      rw [h.edges_eq, ← h.mem_edgeSet]
      exact addEdge_eq _ e }

/-- A site that calls a method virtually and specially lists it twice, and the method lists the site
twice. -/
theorem not_listsOnce_twoKinds :
    (of [.edge ⟨.virtual, ⟨0, 2⟩, 1⟩, .edge ⟨.special, ⟨0, 2⟩, 1⟩]).calleesOf ⟨0, 2⟩ = [1, 1] ∧
      (of [.edge ⟨.virtual, ⟨0, 2⟩, 1⟩, .edge ⟨.special, ⟨0, 2⟩, 1⟩]).callersOf 1 =
        [⟨0, 2⟩, ⟨0, 2⟩] ∧
      ¬ ∀ adds, (of adds).ListsOnce := by
  refine ⟨by decide +kernel, by decide +kernel, fun hall => ?_⟩
  have honce := hall [.edge ⟨.virtual, ⟨0, 2⟩, 1⟩, .edge ⟨.special, ⟨0, 2⟩, 1⟩] ⟨0, 2⟩ 1
    ⟨.virtual, by decide +kernel⟩
  revert honce
  decide +kernel

end CallTables

end TacAnalysis
