import TacAnalysis.Proofs.PointsTo.InReach

/-!
# Pointer analysis loses no object

An object that an edge has to carry on, or that an allocation has to put at a variable, is there
or a pending entry brings it, in every state of an analysis between two steps. What waits for
objects at a variable has been handled for those that have arrived: accesses to memory are edges,
and calls are known and have been sent the object. Here pointers are read by their numbers, as
edges and pending entries hold them.

Main statement: `losesNothing_stateAfter`.
-/

namespace TacAnalysis

/-- In the model with one object for each allocation, every allocation has an object that is listed
with its site and type. -/
theorem HeapModel.exists_obj_bySite {p : Program} (hp : p.WellFormed) {site : Site} {lhs : VarId}
    {ty : Ty} (hstmt : p.stmt? site = some (.assign lhs (.new ty))) :
    ∃ o obj, (bySite p).objAt? site = some o ∧ (bySite p).objects[o]? = some obj ∧
      obj.site = site ∧ obj.ty = ty := by
  have hallocation : (site, ty) ∈ p.allocations :=
    List.mem_filterMap.2 ⟨(site, .assign lhs (.new ty)), hp.mem_sites.2 hstmt, rfl⟩
  cases hobj : (bySite p).objAt? site with
  | none =>
    have hnone := List.findIdx?_eq_none_iff.1 hobj (site, ty) hallocation
    simp at hnone
  | some o =>
    obtain ⟨ho, hsite, -⟩ := List.findIdx?_eq_some_iff_getElem.1 hobj
    have hsite : p.allocations[o].1 = site := of_decide_eq_true hsite
    refine ⟨o, ⟨o, p.allocations[o].1, p.allocations[o].2⟩, rfl, by simp [bySite, ho], hsite, ?_⟩
    -- the site has one statement only, so the type is that of the given one
    obtain ⟨⟨at', stmt⟩, hmem, hallocated⟩ := List.mem_filterMap.1 (List.getElem_mem ho)
    obtain ⟨ty', hty, heq⟩ := Option.map_eq_some_iff.1 hallocated
    obtain rfl : at' = site := by rw [← hsite, ← heq]
    rw [hp.mem_sites, hstmt] at hmem
    cases hmem
    cases hty
    rw [← heq]

namespace PointsToState

variable {s : PointsToState} {i : PointerId} {x : Pointer} {o : ObjId}

/-- The object is in the set of the pointer with this number, or a pending entry brings it
there. -/
def HasAt (s : PointsToState) (i : PointerId) (o : ObjId) : Prop :=
  o ∈ s.graph.objects i ∨ ∃ objects, (i, objects) ∈ s.pending.entries ∧ o ∈ objects

/-- A pointer has and is sent what its number has and is sent. -/
theorem WellFormed.hasAt_iff (hs : s.WellFormed) (hx : s.graph.pointer? i = some x) :
    s.HasAt i o ↔ s.Has x o := by
  refine or_congr (hs.graph.points_iff hx).symm ⟨?_, ?_⟩
  · rintro ⟨objects, hentry, ho⟩
    exact ⟨(i, objects), hentry, hx, ho⟩
  · rintro ⟨⟨j, objects⟩, hentry, hj, ho⟩
    obtain rfl := hs.graph.unique hx hj
    exact ⟨objects, hentry, ho⟩

end PointsToState

namespace PointsToProblem

variable {c : PointsToProblem} {s : PointsToState}

/-- No object gets lost between the places that it has come to and those that it has to come to. -/
structure LosesNothing (c : PointsToProblem) (s : PointsToState) : Prop where
  /-- What the source of an edge has, its target has or is sent. -/
  carried : ∀ i j o, s.graph.hasEdge i j = true → o ∈ s.graph.objects i → s.HasAt j o
  /-- A variable has or is sent the objects that reached methods allocate for it. -/
  allocated : ∀ site lhs ty o, s.calls.contains site.method = true →
    c.program.stmt? site = some (.assign lhs (.new ty)) → c.heap.objAt? site = some o →
      s.Has (.var lhs) o
  /-- The accesses through a variable and the calls on it are handled for the objects that it
  has. -/
  wired : ∀ v o, s.Points (.var v) o → c.Wired s v o

/-- Edges lead from pointers to pointers, and objects have been sent along them. -/
theorem Valid.hasAt_of_hasEdge (hs : c.Valid s) {i j : PointerId} {o : ObjId}
    (hedge : s.graph.hasEdge i j = true) (ho : o ∈ s.graph.objects i) : s.HasAt j o := by
  have hsuccessor : j ∈ s.graph.successors i := of_decide_eq_true hedge
  obtain ⟨x, hx⟩ := PointerGraph.exists_pointer? (PointerGraph.lt_of_mem_objects ho)
  obtain ⟨y, hy⟩ := PointerGraph.exists_pointer? (hs.wellFormed.graph.successor_lt hsuccessor)
  have hflows : s.Flows x y := (hs.wellFormed.graph.flows_iff hx hy).2 hsuccessor
  have hpoints : s.Points x o := (hs.wellFormed.graph.points_iff hx).2 ho
  exact (hs.wellFormed.hasAt_iff hy).2 (hs.carried hflows hpoints)

/-- Between two steps no object is lost. -/
theorem Closed.losesNothing (hs : c.Closed s) : c.LosesNothing s where
  carried _ _ _ hedge ho := hs.valid.hasAt_of_hasEdge hedge ho
  allocated site _ _ _ hm hstmt hobj := by
    have hreached : site.method ∈ s.calls.reachable := of_decide_eq_true hm
    exact (hs.read hreached site _ rfl hstmt).alloc rfl hobj
  wired _ _ hpoints := hs.wired hpoints

/-- When the analysis of an accepted program has begun and after any number of steps, for every
heap model and order of pending entries: what the source of an edge has, its target has or is sent;
what a reached method allocates for a variable, the variable has or is sent; and the accesses
through a variable and the calls on it are handled for the objects that the variable has. If there
is one object for each allocation, none in a reached method is without one. -/
theorem losesNothing_stateAfter (hp : c.program.Accepted) (k : Nat) :
    c.LosesNothing (stateAfter c.step k (c.begin c.initial)) ∧
      (c.heap = .bySite c.program → ∀ site lhs ty,
        (stateAfter c.step k (c.begin c.initial)).calls.contains site.method = true →
          c.program.stmt? site = some (.assign lhs (.new ty)) →
            ∃ o obj, c.heap.objects[o]? = some obj ∧ obj.site = site ∧ obj.ty = ty ∧
              (stateAfter c.step k (c.begin c.initial)).Has (.var lhs) o) := by
  have hlossless := (closed_stateAfter hp.wellFormed k).losesNothing
  refine ⟨hlossless, fun hheap site lhs ty hm hstmt => ?_⟩
  obtain ⟨o, obj, hobj, hlisted, hsite, hty⟩ :=
    HeapModel.exists_obj_bySite hp.wellFormed hstmt
  rw [← hheap] at hobj hlisted
  exact ⟨o, obj, hlisted, hsite, hty, hlossless.allocated site lhs ty o hm hstmt hobj⟩

/-- After seven steps the variable `n` of the method `echo`, which has the number 8, has the object
that the method returns. The result of the call in `pong`, with the number 4, does not have it, so
an entry brings it there. -/
theorem losesNothing_echoing :
    echoing.Accepted ∧ (ofEchoing .fifo).LosesNothing (echoingAfter 7) ∧
      (echoingAfter 7).graph.pointer? 8 = some (.var 7) ∧
      (echoingAfter 7).graph.pointer? 4 = some (.var 6) ∧
      ∃ objects, (4, objects) ∈ (echoingAfter 7).pending.entries ∧ 0 ∈ objects := by
  have hlossless : (ofEchoing .fifo).LosesNothing (echoingAfter 7) :=
    (losesNothing_stateAfter accepted_echoing 7).1
  have hedge : (echoingAfter 7).graph.hasEdge 8 4 = true ∧ 0 ∈ (echoingAfter 7).graph.objects 8 ∧
      0 ∉ (echoingAfter 7).graph.objects 4 := by
    decide +kernel
  obtain ⟨hedge, hhas, hnot⟩ := hedge
  exact ⟨accepted_echoing, hlossless, by decide +kernel, by decide +kernel,
    (hlossless.carried 8 4 0 hedge hhas).resolve_left hnot⟩

end PointsToProblem

end TacAnalysis
