import TacAnalysis.PointsTo.Solver

/-!
# What steps of pointer analysis are made of

However deep static calls are nested and however many accesses and calls wait for an object, a
step is a row of small moves: objects are sent to a pointer, two pointers are connected, what
arrives is passed on, or the call graph takes in a method or a call. So a relation between
earlier and later states that holds of the moves, and of moves in a row, holds of every step and
of every run.

Main statements: `Composes.step` and `Composes.stateAfter`.
-/

namespace TacAnalysis

/-- The relation between an earlier and a later state holds of every move, and of moves in a
row. -/
structure PointsToState.Composes (R : PointsToState → PointsToState → Prop) : Prop where
  /-- Nothing happens. -/
  refl : ∀ s, R s s
  /-- One thing happens after the other. -/
  trans : ∀ {s t u}, R s t → R t u → R s u
  /-- Objects are sent to a pointer. -/
  send : ∀ s x objects, R s (s.send x objects)
  /-- Two pointers are connected. -/
  connect : ∀ s x y, R s (s.connect x y)
  /-- What arrives at a pointer is passed on. -/
  propagate : ∀ s id objects, R s (s.propagate id objects).1
  /-- Other objects are on their way. -/
  take : ∀ (s : PointsToState) pending, R s { s with pending := pending }
  /-- The analysis begins. -/
  start : ∀ s : PointsToState, R s { s with started := true }
  /-- Runs begin with a method. -/
  addEntry : ∀ (s : PointsToState) m, R s { s with calls := s.calls.addEntry m }
  /-- A method is reached. -/
  addReachable : ∀ (s : PointsToState) m, R s { s with calls := s.calls.addReachable m }
  /-- A call is known. -/
  addEdge : ∀ (s : PointsToState) e, R s { s with calls := s.calls.addEdge e }

namespace PointsToState.Composes

variable {R : PointsToState → PointsToState → Prop} {c : PointsToProblem} {s t : PointsToState}

/-- Moves one after the other, along a list. -/
theorem foldl {α : Type} (hR : Composes R) {f : PointsToState → α → PointsToState}
    (hf : ∀ t a, R t (f t a)) (xs : List α) (s : PointsToState) : R s (xs.foldl f s) := by
  induction xs generalizing s with
  | nil => exact hR.refl s
  | cons a xs ih => exact hR.trans (hf s a) (ih (f s a))

/-- Moves one after the other, along a list, each of which may fail. -/
theorem foldlM {α : Type} (hR : Composes R) {f : PointsToState → α → Option PointsToState}
    (hf : ∀ t a u, f t a = some u → R t u) {xs : List α} {s t : PointsToState}
    (h : xs.foldlM f s = some t) : R s t := by
  induction xs generalizing s with
  | nil =>
    obtain rfl : s = t := Option.some.inj h
    exact hR.refl s
  | cons a xs ih =>
    rw [List.foldlM_cons] at h
    obtain ⟨u, hu, hrest⟩ := Option.bind_eq_some_iff.1 h
    exact hR.trans (hf s a u hu) (ih hrest)

theorem connectCall (hR : Composes R) (s : PointsToState) (call : Invoke) (callee : Method) :
    R s (s.connectCall call callee) := by
  have harguments : R s ((call.args.zip callee.params).foldl
      (fun s e => s.connect (.var e.1) (.var e.2)) s) :=
    hR.foldl (fun t _ => hR.connect t _ _) _ s
  unfold PointsToState.connectCall
  cases call.result with
  | none => exact harguments
  | some result => exact hR.trans harguments (hR.foldl (fun t _ => hR.connect t _ _) _ _)

theorem connectCallee (hR : Composes R) (s : PointsToState) (p : Program) (call : Invoke)
    (callee : MethodId) : R s (s.connectCallee p call callee) := by
  unfold PointsToState.connectCallee
  split
  · exact hR.connectCall s call _
  · exact hR.refl s

/-- Reading a statement is a row of moves if making methods reachable is. -/
theorem readStmt? (hR : Composes R) {reach? : MethodId → PointsToState → Option PointsToState}
    (hreach : ∀ m s t, reach? m s = some t → R s t) {e : Site × Stmt}
    (h : c.readStmt? reach? s e = some t) : R s t := by
  unfold PointsToProblem.readStmt? at h
  split at h
  · exact Option.some.inj h ▸ hR.connect s _ _
  · exact Option.some.inj h ▸ hR.connect s _ _
  · split at h
    · exact Option.some.inj h ▸ hR.send s _ _
    · exact Option.some.inj h ▸ hR.refl s
  · exact Option.some.inj h ▸ hR.connect s _ _
  · exact Option.some.inj h ▸ hR.connect s _ _
  · -- a static call: the edge first, then the callee, then the passed values
    split at h
    · split at h
      · exact Option.some.inj h ▸ hR.refl s
      · dsimp only at h
        split at h
        · exact Option.some.inj h ▸ hR.refl s
        · obtain ⟨u, hu, hconnected⟩ := Option.bind_eq_some_iff.1 h
          have hreached := hreach _ _ _ hu
          rw [← Option.some.inj hconnected]
          exact hR.trans (hR.addEdge s _) (hR.trans hreached (hR.connectCallee u _ _ _))
    · exact Option.some.inj h ▸ hR.refl s
  · exact Option.some.inj h ▸ hR.refl s

/-- Making a method reachable is a row of moves, however deep calls are nested. -/
theorem reachWithin? (hR : Composes R) {depth : Nat} {m : MethodId}
    (h : c.reachWithin? depth m s = some t) : R s t := by
  induction depth generalizing m s t with
  | zero => cases h
  | succ depth ih =>
    unfold PointsToProblem.reachWithin? at h
    split at h
    · exact Option.some.inj h ▸ hR.refl s
    · refine hR.trans (hR.addReachable s m) (hR.foldlM (fun u e v hv => ?_) h)
      exact hR.readStmt? (fun m s t hreach => ih hreach) hv

theorem reach (hR : Composes R) (m : MethodId) (s : PointsToState) : R s (c.reach m s) := by
  unfold PointsToProblem.reach
  cases h : c.reachWithin? (c.program.methods.length + 1) m s with
  | none => exact hR.refl s
  | some t => exact hR.reachWithin? h

theorem begin (hR : Composes R) (s : PointsToState) : R s (c.begin s) := by
  unfold PointsToProblem.begin
  split
  · exact hR.refl s
  · cases c.program.entry with
    | none => exact hR.start s
    | some entry => exact hR.trans (hR.start s) (hR.trans (hR.addEntry _ entry) (hR.reach entry _))

theorem connectAccess (hR : Composes R) (o : ObjId) (s : PointsToState) (site : Site) :
    R s (c.connectAccess o s site) := by
  unfold PointsToProblem.connectAccess
  split
  · exact hR.connect s _ _
  · exact hR.connect s _ _
  · exact hR.connect s _ _
  · exact hR.connect s _ _
  · exact hR.refl s

/-- Resolving a call is a row of moves. -/
theorem resolveCall (hR : Composes R) (o : ObjId) (acc : PointsToState × List MethodId)
    (site : Site) : R acc.1 (c.resolveCall o acc site).1 := by
  obtain ⟨s, found⟩ := acc
  unfold PointsToProblem.resolveCall
  dsimp only
  split
  · exact hR.refl s
  · rename_i call hcall
    split
    · exact hR.refl s
    · rename_i callee hcallee
      have hedge : ∀ u, R s u →
          R s (if u.calls.hasEdge ⟨call.kind, site, callee⟩ = true then (u, found)
            else (({ u with calls := u.calls.addEdge ⟨call.kind, site, callee⟩ } :
              PointsToState).connectCallee c.program call callee, found ++ [callee])).1 := by
        intro u hu
        split
        · exact hu
        · exact hR.trans hu (hR.trans (hR.addEdge u _) (hR.connectCallee _ _ _ _))
      -- before that the object goes to the receiver of the callee, if it has one
      split
      · exact hedge _ (hR.send s _ _)
      · exact hedge s (hR.refl s)

theorem resolveCalls (hR : Composes R) (v : VarId) (o : ObjId) (s : PointsToState) :
    R s (c.resolveCalls v o s) := by
  have hfold : ∀ (sites : List Site) (acc : PointsToState × List MethodId),
      R acc.1 (sites.foldl (c.resolveCall o) acc).1 := by
    intro sites
    induction sites with
    | nil => exact fun acc => hR.refl acc.1
    | cons site sites ih => exact fun acc => hR.trans (hR.resolveCall o acc site) (ih _)
  exact hR.trans (hfold _ (s, [])) (hR.foldl (fun t m => hR.reach m t) _ _)

theorem arrive (hR : Composes R) (v : VarId) (s : PointsToState) (o : ObjId) :
    R s (c.arrive v s o) := by
  have haccesses : R s (c.connectAccesses v o s) :=
    hR.foldl (fun t site => hR.connectAccess o t site) _ s
  exact hR.trans haccesses (hR.resolveCalls v o _)

/-- A step is a row of moves. -/
theorem step (hR : Composes R) (h : c.step s = some t) : R s t := by
  obtain ⟨⟨⟨id, objects⟩, pending⟩, hpop, h⟩ := Option.bind_eq_some_iff.1 h
  dsimp only at h
  have hfirst : R s ({ c.begin s with pending }.propagate id objects).1 :=
    hR.trans (hR.begin s) (hR.trans (hR.take _ pending) (hR.propagate _ id objects))
  split at h
  · rw [← Option.some.inj h]
    exact hR.trans hfirst (hR.foldl (fun t o => hR.arrive _ t o) _ _)
  · rw [← Option.some.inj h]
    exact hfirst

/-- From the beginning to any later state there is a row of moves. -/
theorem stateAfter (hR : Composes R) (n : Nat) (s : PointsToState) :
    R s (TacAnalysis.stateAfter c.step n s) := by
  refine stateAfter_invariant (hR.refl s) (fun t u ht hstep => ?_) n
  exact hR.trans ht (hR.step hstep)

end PointsToState.Composes

end TacAnalysis
