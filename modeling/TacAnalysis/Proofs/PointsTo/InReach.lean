import TacAnalysis.Proofs.CallGraph.Grounded
import TacAnalysis.Proofs.PointsTo.Confined
import TacAnalysis.Proofs.PointsTo.Termination

/-!
# Pointer analysis reacts in reachable code

Between two steps all methods that are called are reached, so what is confined to methods that are
reached or called is in reachable code. An object that arrives at a variable in the next step finds
the method of the variable reached. So all accesses to memory through the variable and all calls on
it are in reachable code as well, and none of them is passed over because it is not.

Main statement: `inReach_stateAfter`.
-/

namespace TacAnalysis.PointsToProblem

variable {c : PointsToProblem} {s u : PointsToState} {x : Pointer} {v : VarId} {o : ObjId}

/-- In the next step an object arrives at a variable, in the given state: the entry that is taken
brings new objects to the variable, and those before this one have been handled. -/
inductive Arrives (c : PointsToProblem) (s : PointsToState) : VarId → ObjId → PointsToState → Prop
  | of_pop {id : PointerId} {objects new : IdSet} {rest : Pending} {t : PointsToState} {v : VarId}
      {before after : List ObjId} {o : ObjId}
      (hpop : (c.begin s).pending.pop? = some ((id, objects), rest))
      (hpropagate : ({ c.begin s with pending := rest }).propagate id objects = (t, new))
      (hvar : t.graph.pointer? id = some (.var v)) (hnew : new.toList = before ++ o :: after) :
      Arrives c s v o (before.foldl (c.arrive v) t)

/-- Every new object that the entry brings to a variable arrives there. -/
theorem exists_arrives {id : PointerId} {objects new : IdSet} {rest : Pending} {t : PointsToState}
    (hpop : (c.begin s).pending.pop? = some ((id, objects), rest))
    (hpropagate : ({ c.begin s with pending := rest }).propagate id objects = (t, new))
    (hvar : t.graph.pointer? id = some (.var v)) (ho : o ∈ new.toList) : ∃ u, c.Arrives s v o u := by
  obtain ⟨before, after, hnew⟩ := List.append_of_mem ho
  exact ⟨_, .of_pop hpop hpropagate hvar hnew⟩

/-- The method of a variable is reached when an object arrives there. -/
theorem Closed.reached_of_arrives (hs : c.Closed s) (h : c.Arrives s v o u) {m : MethodId}
    (howns : c.program.Owns m v) : u.Reached m := by
  obtain @⟨id, objects, new, rest, t, v, before, after, o, hpop, hpropagate, hvar, hnew⟩ := h
  rw [hs.begin_eq] at hpop hpropagate
  obtain ⟨x, t', new', hpropagate', hx, -, -, hreached⟩ := hs.exists_absorbs hpop
  cases hpropagate.symm.trans hpropagate'
  cases hx.symm.trans hvar
  have hfirst : t.Reached m := (hreached v rfl o (by rw [hnew]; simp)).2 m howns
  have hcontinues : t.Continues (before.foldl (c.arrive v) t) :=
    PointsToState.composes_continues.foldl
      (fun t o => PointsToState.composes_continues.arrive v t o) before t
  exact hcontinues.reached hfirst

/-- Where all sites are in reached methods none is passed over. -/
theorem reachableSites_eq_self {sites : List Site} (h : ∀ site ∈ sites, s.Reached site.method) :
    reachableSites s sites = sites := by
  apply List.filter_eq_self.2
  intro site hsite
  exact decide_eq_true (h site hsite)

/-! ## Reachable code -/

/-- All that has been found and all that is handled next is in reachable code. -/
structure InReach (c : PointsToProblem) (s : PointsToState) : Prop where
  /-- Reached methods make the calls. -/
  site_reached : ∀ e, s.Called e → s.Reached e.site.method
  /-- Called methods are reached. -/
  callee_reached : ∀ e, s.Called e → s.Reached e.callee
  /-- Called methods have bodies. -/
  hasBody : ∀ e, s.Called e → c.program.HasBody e.callee
  /-- Variables that take part are those of reached methods. -/
  var_reached : ∀ v, s.Involves (.var v) → ∃ m, c.program.Owns m v ∧ s.Reached m
  /-- When an object arrives at a variable, no access to memory through the variable is passed
  over. -/
  accesses_kept : ∀ v o u, c.Arrives s v o u → ∀ access,
    reachableSites u ((c.program.relatedTo v).at access) = (c.program.relatedTo v).at access
  /-- No call on the variable is passed over then. -/
  calls_kept : ∀ v o u, c.Arrives s v o u →
    reachableSites (c.connectAccesses v o u) (c.program.relatedTo v).invokes =
      (c.program.relatedTo v).invokes

theorem Confined.within_of_involves (hs : c.Confined s) (hx : s.Involves x) : c.Within s x := by
  rcases hx with hx | ⟨o, hx⟩ | ⟨y, hx | hx⟩
  · exact hs.awaits_within hx
  · exact hs.points_within hx
  · exact hs.source_within hx
  · exact hs.target_within hx

/-- Between two steps called methods are reached, so what is confined is in reachable code. -/
theorem Closed.inReach (hp : c.program.WellFormed) (hs : c.Closed s) (hconfined : c.Confined s) :
    c.InReach s where
  site_reached _ he := hconfined.site_reached he
  callee_reached _ he := (hs.settled he).2
  hasBody _ he := (CallGraph.tracedBy_of_derived hp (hs.valid.derives_called he)).2.1
  var_reached v hv := by
    obtain ⟨m, howns, hm⟩ := hconfined.within_of_involves hv v rfl
    exact ⟨m, howns, hs.reached_of_touched hm⟩
  accesses_kept v o u harrives access := by
    apply reachableSites_eq_self
    intro site hsite
    obtain ⟨stmt, hstmt, haccess⟩ := hp.mem_relatedTo.1 hsite
    exact reached_of_access? hp (fun m howns => hs.reached_of_arrives harrives howns) hstmt haccess
  calls_kept v o u harrives := by
    have hcontinues : u.Continues (c.connectAccesses v o u) :=
      PointsToState.composes_continues.foldl
        (fun t site => PointsToState.composes_continues.connectAccess o t site) _ u
    apply reachableSites_eq_self
    intro site hsite
    obtain ⟨call, hstmt, hreceiver⟩ := (mem_invokes_iff hp).1 hsite
    have haccess := access?_eq_call_iff.2 ⟨call, rfl, hreceiver⟩
    exact hcontinues.reached (reached_of_access? hp
      (fun m howns => hs.reached_of_arrives harrives howns) hstmt haccess)

/-- When the analysis of an accepted program has begun and after any number of steps, for every
heap model and order of pending entries, all that has been found and all that is handled next is in
reachable code. -/
theorem inReach_stateAfter (hp : c.program.Accepted) (k : Nat) :
    c.InReach (stateAfter c.step k (c.begin c.initial)) := by
  have hp := hp.wellFormed
  have hinvariant : c.Closed (stateAfter c.step k (c.begin c.initial)) ∧
      c.Confined (stateAfter c.step k (c.begin c.initial)) := by
    refine @stateAfter_invariant _ c.step (fun s => c.Closed s ∧ c.Confined s) _
      ⟨closed_begin hp, confined_begin hp⟩ ?_ k
    rintro s t ⟨hclosed, hconfined⟩ hstep
    exact ⟨hclosed.step hp hstep, hconfined.step hp hclosed.started_eq hstep⟩
  obtain ⟨hclosed, hconfined⟩ := hinvariant
  exact hclosed.inReach hp hconfined

/-- The analysis of methods that call each other after some steps. -/
def echoingAfter (k : Nat) : PointsToState :=
  stateAfter (ofEchoing .fifo).step k ((ofEchoing .fifo).begin (ofEchoing .fifo).initial)

/-- After two steps an object is on its way to the parameter of the method `pong`. It arrives there
next, and the only call on the parameter, at the third statement of `pong`, is not passed over. -/
theorem inReach_echoing : echoing.Accepted ∧ (ofEchoing .fifo).InReach (echoingAfter 2) ∧
    (∃ u, (ofEchoing .fifo).Arrives (echoingAfter 2) 2 0 u) ∧
    (echoing.relatedTo 2).invokes = [⟨2, 2⟩] := by
  refine ⟨accepted_echoing, inReach_stateAfter accepted_echoing 2, ?_, by decide +kernel⟩
  have hnext : (((ofEchoing .fifo).begin (echoingAfter 2)).pending.pop?.map fun e =>
      let after := ({ (ofEchoing .fifo).begin (echoingAfter 2) with pending := e.2 } :
        PointsToState).propagate e.1.1 e.1.2
      (after.1.graph.pointer? e.1.1, after.2.toList)) = some (some (.var 2), [0]) := by
    decide +kernel
  obtain ⟨⟨⟨id, objects⟩, rest⟩, hpop, heq⟩ := Option.map_eq_some_iff.1 hnext
  obtain ⟨hvar, hnew⟩ := Prod.mk.inj heq
  exact exists_arrives hpop rfl hvar (hnew ▸ List.mem_singleton_self 0)

end TacAnalysis.PointsToProblem
