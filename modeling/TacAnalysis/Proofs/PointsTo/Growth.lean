import Mathlib.Logic.Function.Iterate
import TacAnalysis.Proofs.PointsTo.Moves
import TacAnalysis.Proofs.PointsTo.Termination

/-!
# Pointer analysis only adds

Whoever watches an analysis step by step sees lists that become longer at their ends, sets of
objects that become larger, and numbers of pointers that stay what they are. Each of the small
moves that a step is made of only adds in this way, so steps and runs do. When nothing is on its
way any more, further requests for a step change nothing.

Main statements: `composes_continues` and `attempts_only_add`.
-/

namespace TacAnalysis

namespace PointerGraph

variable {g g' g'' : PointerGraph} {i j : PointerId} {x : Pointer}

/-- The pointers in the order of their numbers. -/
def pointers (g : PointerGraph) : List Pointer := g.nodes.map (·.pointer)

/-- A later graph has what an earlier one has, and what it has in addition stands behind it. -/
structure Continues (g g' : PointerGraph) : Prop where
  /-- New pointers get the next numbers. -/
  pointers : g.pointers <+: g'.pointers
  /-- New edges stand behind the old ones. -/
  successors : ∀ i, g.successors i <+: g'.successors i
  /-- No object is taken away. -/
  objects : ∀ i o, o ∈ g.objects i → o ∈ g'.objects i

theorem Continues.refl (g : PointerGraph) : g.Continues g where
  pointers := List.prefix_rfl
  successors _ := List.prefix_rfl
  objects _ _ := id

theorem Continues.trans (h : g.Continues g') (h' : g'.Continues g'') : g.Continues g'' where
  pointers := h.pointers.trans h'.pointers
  successors i := (h.successors i).trans (h'.successors i)
  objects i o ho := h'.objects i o (h.objects i o ho)

@[simp] theorem length_pointers : g.pointers.length = g.nodes.length := by simp [pointers]

theorem pointer?_eq_getElem? : g.pointer? i = g.pointers[i]? := by
  simp [pointer?, pointers]

theorem lookup?_eq_findIdx? : g.lookup? x = g.pointers.findIdx? (· = x) := by
  unfold lookup? pointers
  rw [List.findIdx?_map]
  rfl

/-- Graphs with the same pointers under the same numbers list the same pointers. -/
theorem pointers_congr (h : ∀ i, g'.pointer? i = g.pointer? i) : g'.pointers = g.pointers := by
  apply List.ext_getElem?
  intro i
  rw [← pointer?_eq_getElem?, ← pointer?_eq_getElem?, h]

/-- Graphs that list the same pointers find them under the same numbers. -/
theorem lookup?_congr (h : g'.pointers = g.pointers) : g'.lookup? x = g.lookup? x := by
  rw [lookup?_eq_findIdx?, lookup?_eq_findIdx?, h]

/-- Numbers stand for the same pointers later on. -/
theorem Continues.pointer?_eq (h : g.Continues g') (hi : i < g.nodes.length) :
    g'.pointer? i = g.pointer? i := by
  obtain ⟨more, hmore⟩ := h.pointers
  rw [pointer?_eq_getElem?, pointer?_eq_getElem?, ← hmore]
  apply List.getElem?_append_left
  rwa [length_pointers]

/-- Exactly the pointers that are found under an old number are found under it later on. -/
theorem Continues.lookup?_iff (h : g.Continues g') (hi : i < g.nodes.length) :
    g'.lookup? x = some i ↔ g.lookup? x = some i := by
  obtain ⟨more, hmore⟩ := h.pointers
  rw [lookup?_eq_findIdx?, lookup?_eq_findIdx?, ← hmore, List.findIdx?_append]
  cases g.pointers.findIdx? (· = x) with
  | some k => simp
  | none =>
    simp only [Option.none_or, Option.map_eq_some_iff, length_pointers, reduceCtorEq, iff_false,
      not_exists, not_and]
    intro k _ hk
    exact Nat.not_lt_of_le (Nat.le_add_left _ k) (hk ▸ hi)

theorem continues_appended (g : PointerGraph) (x : Pointer) : g.Continues (g.appended x) where
  pointers := by
    simp only [pointers, appended, List.map_append]
    apply List.prefix_append
  successors i := by
    rw [successors_appended]
  objects i o ho := by rwa [objects_appended]

theorem continues_intern (g : PointerGraph) (x : Pointer) : g.Continues (g.intern x).1 := by
  unfold intern
  cases g.lookup? x with
  | some i => exact .refl g
  | none => exact continues_appended g x

theorem pointers_addEdge : (g.addEdge i j).pointers = g.pointers :=
  pointers_congr fun _ => pointer?_addEdge

/-- A new edge stands behind those that leave its source. -/
theorem successors_addEdge_of_new {k : PointerId} (hi : i < g.nodes.length)
    (hnew : j ∉ g.successors i) :
    (g.addEdge i j).successors k = if k = i then g.successors i ++ [j] else g.successors k := by
  have hhas : ¬ g.hasEdge i j = true := by simpa [hasEdge] using hnew
  unfold addEdge
  rw [if_neg hhas]
  unfold successors successors?
  rw [List.getElem?_modify]
  by_cases hk : k = i
  · subst hk
    simp [hi]
  · have hne : i ≠ k := Ne.symm hk
    simp [hk, hne]

theorem continues_addEdge (g : PointerGraph) (i j : PointerId) : g.Continues (g.addEdge i j) where
  pointers := by
    rw [pointers_addEdge]
  successors k := by
    by_cases hhas : g.hasEdge i j = true
    · rw [addEdge, if_pos hhas]
    · by_cases hi : i < g.nodes.length
      · rw [successors_addEdge_of_new hi (by simpa [hasEdge] using hhas)]
        split
        · rename_i hk
          rw [hk]
          apply List.prefix_append
        · apply List.prefix_rfl
      · -- a source without a number has no place for its edge
        have hnodes : g.nodes.modify i (fun n => { n with successors := n.successors ++ [j] }) =
            g.nodes := List.modify_eq_self (Nat.le_of_not_lt hi)
        rw [addEdge, if_neg hhas, hnodes]
  objects k o ho := by rwa [objects_addEdge]

theorem pointers_addObjects {objects : IdSet} : (g.addObjects i objects).pointers = g.pointers :=
  pointers_congr fun _ => pointer?_addObjects

theorem continues_addObjects (g : PointerGraph) (i : PointerId) (objects : IdSet) :
    g.Continues (g.addObjects i objects) where
  pointers := by
    rw [pointers_addObjects]
  successors k := by
    rw [successors_addObjects]
  objects k o ho := by
    by_cases hi : i < g.nodes.length
    · exact (mem_objects_addObjects hi).2 (.inl ho)
    · have hnodes : g.nodes.modify i (fun n => { n with objects := n.objects.union objects }) =
          g.nodes := List.modify_eq_self (Nat.le_of_not_lt hi)
      rwa [addObjects, hnodes]

end PointerGraph

/-- What is entered stands behind what is there. -/
theorem CallGraph.prefix_addOnce {α : Type} [DecidableEq α] (x : α) (xs : List α) :
    xs <+: addOnce x xs := by
  unfold addOnce
  split
  · apply List.prefix_rfl
  · apply List.prefix_append

namespace PointsToState

variable {s t u : PointsToState}

/-- A later state has what an earlier one has, and what it has in addition stands behind it. -/
structure Continues (s t : PointsToState) : Prop where
  /-- Methods with which runs begin stand behind the old ones. -/
  entries : s.calls.entries <+: t.calls.entries
  /-- New methods stand behind the old ones. -/
  reachable : s.calls.reachable <+: t.calls.reachable
  /-- New calls stand behind the old ones. -/
  edges : s.calls.edges <+: t.calls.edges
  /-- The graph has only become larger. -/
  graph : s.graph.Continues t.graph

theorem Continues.of_graph (hcalls : t.calls = s.calls) (hgraph : s.graph.Continues t.graph) :
    s.Continues t where
  entries := hcalls ▸ List.prefix_rfl
  reachable := hcalls ▸ List.prefix_rfl
  edges := hcalls ▸ List.prefix_rfl
  graph := hgraph

theorem Continues.refl (s : PointsToState) : s.Continues s := .of_graph rfl (.refl s.graph)

theorem Continues.trans (h : s.Continues t) (h' : t.Continues u) : s.Continues u where
  entries := h.entries.trans h'.entries
  reachable := h.reachable.trans h'.reachable
  edges := h.edges.trans h'.edges
  graph := h.graph.trans h'.graph

/-- Every move only adds. -/
theorem composes_continues : Composes Continues where
  refl := .refl
  trans := .trans
  send s x objects := .of_graph rfl (PointerGraph.continues_intern _ _)
  connect s x y := by
    have hsource := PointerGraph.continues_intern s.graph x
    have htarget := PointerGraph.continues_intern (s.graph.intern x).1 y
    unfold connect
    dsimp only
    split
    · exact .of_graph rfl (hsource.trans htarget)
    · exact .of_graph rfl ((hsource.trans htarget).trans (PointerGraph.continues_addEdge _ _ _))
  propagate s id objects := by
    unfold propagate
    dsimp only
    split
    · exact .refl s
    · exact .of_graph rfl (PointerGraph.continues_addObjects _ _ _)
  take s pending := .of_graph rfl (.refl s.graph)
  start s := .of_graph rfl (.refl s.graph)
  addEntry s m := ⟨CallGraph.prefix_addOnce m _, List.prefix_rfl, List.prefix_rfl, .refl s.graph⟩
  addReachable s m :=
    ⟨List.prefix_rfl, CallGraph.prefix_addOnce m _, List.prefix_rfl, .refl s.graph⟩
  addEdge s e := ⟨List.prefix_rfl, List.prefix_rfl, CallGraph.prefix_addOnce e _, .refl s.graph⟩

/-- An analysis that has begun is not begun again by any move. -/
theorem composes_started : Composes fun s t => s.started = true → t.started = true where
  refl _ := id
  trans h h' hs := h' (h hs)
  send _ _ _ := id
  connect s x y := by
    unfold connect
    dsimp only
    split <;> exact id
  propagate s id' objects := by
    unfold propagate
    dsimp only
    split <;> exact id
  take _ _ := id
  start _ _ := rfl
  addEntry _ _ := id
  addReachable _ _ := id
  addEdge _ _ := id

end PointsToState

namespace PointsToProblem

variable (c : PointsToProblem)

/-- A request for a step: the state behind it, in which the analysis has begun, and whether a
pending entry has been handled. -/
def attempt (s : PointsToState) : PointsToState × Bool :=
  match c.step s with
  | some t => (t, true)
  | none => (c.begin s, false)

/-- The state behind several requests. -/
def afterAttempts (n : Nat) (s : PointsToState) : PointsToState := (fun s => (c.attempt s).1)^[n] s

variable {c} {s : PointsToState}

theorem started_begin (s : PointsToState) : (c.begin s).started = true := by
  unfold begin
  split
  · assumption
  · cases c.program.entry with
    | none => rfl
    | some entry => exact PointsToState.composes_started.reach entry _ rfl

theorem begin_begin (s : PointsToState) : c.begin (c.begin s) = c.begin s :=
  if_pos (started_begin s)

/-- A step begins the analysis if it has not begun. -/
theorem step_begin (s : PointsToState) : c.step (c.begin s) = c.step s := by
  unfold step
  rw [begin_begin]

theorem continues_attempt (s : PointsToState) : s.Continues (c.attempt s).1 := by
  unfold attempt
  cases hstep : c.step s with
  | none => exact PointsToState.composes_continues.begin s
  | some t => exact PointsToState.composes_continues.step hstep

theorem continues_afterAttempts (n : Nat) (s : PointsToState) :
    s.Continues (c.afterAttempts n s) := by
  unfold afterAttempts
  induction n with
  | zero => exact .refl s
  | succ n ih =>
    rw [Function.iterate_succ_apply']
    exact ih.trans (continues_attempt _)

/-- Nothing is on its way after a request in vain, so the next one is in vain as well. -/
theorem attempt_of_idle (hidle : (c.attempt s).2 = false) :
    c.attempt (c.attempt s).1 = c.attempt s := by
  have hstep : c.step s = none := by
    unfold attempt at hidle
    cases hstep : c.step s with
    | none => rfl
    | some t => simp [hstep] at hidle
  have hbegun : c.attempt s = (c.begin s, false) := by simp only [attempt, hstep]
  rw [hbegun]
  simp only [attempt, step_begin, hstep, begin_begin]

/-- Let one state of a run be given and another one after some more requests for steps. Then the
lists of reached methods, calls, pointers and successors of the first are beginnings of those of
the second, its sets of objects are contained in those of the second, and its numbers stand for the
same pointers and are found for the same pointers in the second. After a request in vain all further
requests are in vain and change nothing. -/
theorem attempts_only_add (s : PointsToState) (n : Nat) :
    (s.calls.reachable <+: (c.afterAttempts n s).calls.reachable ∧
      s.calls.edges <+: (c.afterAttempts n s).calls.edges ∧
      s.graph.pointers <+: (c.afterAttempts n s).graph.pointers ∧
      ∀ i < s.graph.pointerCount,
        s.graph.successors i <+: (c.afterAttempts n s).graph.successors i ∧
        (∀ o ∈ s.graph.objects i, o ∈ (c.afterAttempts n s).graph.objects i) ∧
        (c.afterAttempts n s).graph.pointer? i = s.graph.pointer? i ∧
        ∀ x, (c.afterAttempts n s).graph.lookup? x = some i ↔ s.graph.lookup? x = some i) ∧
      ((c.attempt s).2 = false →
        c.attempt (c.afterAttempts n (c.attempt s).1) = ((c.attempt s).1, false)) := by
  have hcontinues := continues_afterAttempts (c := c) n s
  refine ⟨⟨hcontinues.reachable, hcontinues.edges, hcontinues.graph.pointers, fun i hi => ?_⟩,
    fun hidle => ?_⟩
  · exact ⟨hcontinues.graph.successors i, hcontinues.graph.objects i,
      hcontinues.graph.pointer?_eq hi, fun x => hcontinues.graph.lookup?_iff hi⟩
  · have hfixed := attempt_of_idle hidle
    have hlater : c.afterAttempts n (c.attempt s).1 = (c.attempt s).1 :=
      Function.iterate_fixed (congrArg Prod.fst hfixed) n
    rw [hlater, hfixed]
    exact Prod.ext rfl hidle

/-- The analysis of methods that call each other, after so many requests. -/
def echoingAttempts (k : Nat) : PointsToState :=
  (ofEchoing .fifo).afterAttempts k (ofEchoing .fifo).initial

/-- In the analysis of methods that call each other, thirteen requests are answered. The next one
is in vain, and so are all after it. However many requests follow the second one, the three methods
that are reached by then stay in front, and the parameter of `ping` keeps its number, its edge and
the object to which it refers. -/
theorem echoing_attempts_in_vain :
    (∀ k < 13, ((ofEchoing .fifo).attempt (echoingAttempts k)).2 = true) ∧
      ((ofEchoing .fifo).attempt (echoingAttempts 13)).2 = false ∧
      (∀ n, (ofEchoing .fifo).attempt
          ((ofEchoing .fifo).afterAttempts n ((ofEchoing .fifo).attempt (echoingAttempts 13)).1) =
        (((ofEchoing .fifo).attempt (echoingAttempts 13)).1, false)) ∧
      ∀ n t, (ofEchoing .fifo).afterAttempts n (echoingAttempts 2) = t →
        [0, 1, 2] <+: t.calls.reachable ∧ [1] <+: t.graph.successors 2 ∧
          0 ∈ t.graph.objects 2 ∧ t.graph.pointer? 2 = some (.var 1) ∧
          t.graph.lookup? (.var 1) = some 2 := by
  have hanswered : ∀ k < 13, ((ofEchoing .fifo).attempt (echoingAttempts k)).2 = true := by
    decide +kernel
  have hidle : ((ofEchoing .fifo).attempt (echoingAttempts 13)).2 = false := by decide +kernel
  have hreached : (echoingAttempts 2).calls.reachable = [0, 1, 2] := by decide +kernel
  have hnumbered : 2 < (echoingAttempts 2).graph.pointerCount ∧
      (echoingAttempts 2).graph.successors 2 = [1] ∧ 0 ∈ (echoingAttempts 2).graph.objects 2 ∧
      (echoingAttempts 2).graph.pointer? 2 = some (.var 1) ∧
      (echoingAttempts 2).graph.lookup? (.var 1) = some 2 := by
    decide +kernel
  obtain ⟨hlt, hsuccessors, hobject, hpointer, hlookup⟩ := hnumbered
  refine ⟨hanswered, hidle, fun n => (attempts_only_add _ n).2 hidle, ?_⟩
  rintro n _ rfl
  obtain ⟨hreachable, -, -, hgraph⟩ := (attempts_only_add (echoingAttempts 2) n).1
  obtain ⟨hedges, hobjects, hnumber, hfound⟩ := hgraph 2 hlt
  exact ⟨hreached ▸ hreachable, hsuccessors ▸ hedges, hobjects 0 hobject, hnumber.trans hpointer,
    (hfound _).2 hlookup⟩

end PointsToProblem

end TacAnalysis
