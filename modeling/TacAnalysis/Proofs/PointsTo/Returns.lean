import TacAnalysis.Proofs.PointsTo.Least

/-!
# Making methods reachable returns

Static calls call static calls, so making a method reachable is a recursion, and nothing in it
but the set of reached methods keeps it from going on for ever. Here the analysis is run so
that it gives something only if the recursion returns everywhere, with calls nested to a
given depth at most. As every nested call reaches another method, one more than the number
of methods is deep enough: every step returns, and gives the next state.

Main statements: `beginWithin?_levels` and `Closed.stepWithin?_levels`.
-/

namespace TacAnalysis

namespace PointsToProblem

variable (c : PointsToProblem) (depth : Nat)

/-- `begin`, if static calls are nested less than `depth` deep. -/
def beginWithin? (s : PointsToState) : Option PointsToState :=
  if s.started then some s
  else
    let s := { s with started := true }
    match c.program.entry with
    | none => some s
    | some entry => c.reachWithin? depth entry { s with calls := s.calls.addEntry entry }

/-- `resolveCalls`, if static calls are nested less than `depth` deep. -/
def resolveCallsWithin? (v : VarId) (o : ObjId) (s : PointsToState) : Option PointsToState :=
  let sites := reachableSites s (c.program.relatedTo v).invokes
  let (s, discovered) := sites.foldl (c.resolveCall o) (s, [])
  discovered.foldlM (fun s callee => c.reachWithin? depth callee s) s

/-- `arrive`, if static calls are nested less than `depth` deep. -/
def arriveWithin? (v : VarId) (s : PointsToState) (o : ObjId) : Option PointsToState :=
  c.resolveCallsWithin? depth v o (c.connectAccesses v o s)

/-- `step`, if static calls are nested less than `depth` deep: the next state, or that
nothing is on its way. -/
def stepWithin? (s : PointsToState) : Option (Option PointsToState) := do
  let s ← c.beginWithin? depth s
  match s.pending.pop? with
  | none => return none
  | some ((id, objects), pending) =>
    let (s, new) := { s with pending }.propagate id objects
    match s.graph.pointer? id with
    | some (.var v) => return some (← new.toList.foldlM (c.arriveWithin? depth v) s)
    | _ => return some s

/-- How deep static calls can be nested, with one level to spare. -/
def levels : Nat := c.program.methods.length + 1

variable {c} {s t : PointsToState} {v : VarId} {o : ObjId}

/-- Making a derived method reachable returns. -/
theorem reachWithin?_levels (hp : c.program.WellFormed) (hs : c.Valid s) {m : MethodId}
    (hm : c.Derives (.reached m)) : c.reachWithin? c.levels m s = some (c.reach m s) := by
  obtain ⟨t, ht, -⟩ := exists_reachWithin? hp hs hm (unreached_lt s)
  have hreach : c.reach m s = t := by rw [reach, ht, Option.getD_some]
  rw [hreach]
  exact ht

/-- The beginning of the analysis returns. -/
theorem beginWithin?_levels (hp : c.program.WellFormed) :
    c.beginWithin? c.levels c.initial = some (c.begin c.initial) := by
  unfold beginWithin? begin initial
  cases hentry : c.program.entry with
  | none => rfl
  | some entry =>
    have hblank : Blank ⟨.empty, CallGraph.empty.addEntry entry, .empty c.order, true⟩ :=
      ⟨rfl, rfl, rfl, rfl⟩
    exact reachWithin?_levels hp hblank.valid (.entry hentry)

/-- Resolving the calls on a variable returns. -/
theorem resolveCallsWithin?_levels (hp : c.program.WellFormed) (hs : c.Valid s)
    (hholds : c.Derives (.holds (.var v) o)) :
    c.resolveCallsWithin? c.levels v o s = some (c.resolveCalls v o s) := by
  have hresolves := (resolves_foldl_resolveCall hp hs hholds fun site hsite =>
    ⟨(mem_reachableSites.1 hsite).2, (mem_invokes_iff hp).1 (mem_reachableSites.1 hsite).1⟩).1
  unfold resolveCallsWithin? resolveCalls
  dsimp only
  generalize (reachableSites s (c.program.relatedTo v).invokes).foldl (c.resolveCall o) (s, []) = acc
    at hresolves ⊢
  obtain ⟨t, found⟩ := acc
  have hvalid : c.Valid t := hresolves.valid
  refine foldlM_eq_some_foldl hvalid fun m hm u hu => ?_
  have hderives : c.Derives (.reached m) :=
    (hresolves.derives_collected m hm).resolve_left List.not_mem_nil
  exact ⟨reachWithin?_levels hp hu hderives, (expands_reach hp hu hderives).1.valid⟩

/-- Handling an object that arrives at a variable returns. -/
theorem arriveWithin?_levels (hp : c.program.WellFormed) (hs : c.Valid s)
    (hholds : c.Derives (.holds (.var v) o)) (howner : ∀ m, c.program.Owns m v → s.Reached m) :
    c.arriveWithin? c.levels v s o = some (c.arrive v s o) :=
  resolveCallsWithin?_levels hp (extends_connectAccesses hp hs hholds howner).1.valid hholds

/-- Every step returns. -/
theorem Closed.stepWithin?_levels (hp : c.program.WellFormed) (hs : c.Closed s) :
    c.stepWithin? c.levels s = some (c.step s) := by
  have hbegun : c.beginWithin? c.levels s = some s := by rw [beginWithin?, if_pos hs.started_eq]
  unfold stepWithin? PointsToProblem.step
  rw [hbegun, hs.begin_eq]
  rcases hpop : s.pending.pop? with _ | ⟨⟨id, objects⟩, rest⟩
  · simp [hpop]
  obtain ⟨x, u, new, hpropagate, hx, -, hvalid, hnew⟩ := hs.exists_absorbs hpop
  simp only [Option.bind_eq_bind, Option.bind_some, hpop, hpropagate, hx]
  cases x with
  | var v =>
    have hhandled : new.toList.foldlM (c.arriveWithin? c.levels v) u =
        some (new.toList.foldl (c.arrive v) u) := by
      have hself : c.Expands u u := .refl hvalid
      refine foldlM_eq_some_foldl hself fun o ho t ht => ?_
      obtain ⟨hholds, howner⟩ := hnew v rfl o ho
      have hreached : ∀ m, c.program.Owns m v → t.Reached m := fun m hm =>
        ht.grows.reached (howner m hm)
      exact ⟨arriveWithin?_levels hp ht.valid hholds hreached,
        ht.trans (expands_arrive hp ht.valid hholds hreached).1⟩
    dsimp only
    rw [hhandled]
    rfl
  | staticField | instanceField | arrayIndex => rfl

end PointsToProblem

end TacAnalysis
