import TacAnalysis.Proofs.Worklist

/-!
# Worklists forget no node

A worklist is asked to take in nodes and to give them out, one request after the other. Whatever
the requests are, a node waits exactly if it has been pushed and not popped since. So a pop is in
vain only when every push has been followed by a pop of the node. Pops in a row give the waiting
nodes from the front or from the back, and are in vain after that.

Main statement: `faithful_after`.
-/

namespace TacAnalysis

/-- The waiting elements in the order in which they are taken. -/
def WorklistOrder.inTurn {α : Type} (order : WorklistOrder) (waiting : List α) : List α :=
  match order with
  | .fifo => waiting
  | .lifo => waiting.reverse

@[simp] theorem WorklistOrder.inTurn_nil {α : Type} (order : WorklistOrder) :
    order.inTurn ([] : List α) = [] := by
  cases order <;> rfl

/-- The element that is taken is the first in turn. -/
theorem WorklistOrder.inTurn_of_take? {α : Type} {order : WorklistOrder} {waiting rest : List α}
    {x : α} (h : order.take? waiting = some (x, rest)) :
    order.inTurn waiting = x :: order.inTurn rest := by
  cases order with
  | fifo => exact take?_fifo.1 h
  | lifo =>
    rw [take?_lifo.1 h, inTurn, List.reverse_concat]
    rfl

namespace NodeWorklist

/-- Something that is asked of a worklist. -/
inductive Request where
  /-- A node is to wait. -/
  | push (n : Nat)
  /-- The next node is to be taken. -/
  | pop
  deriving DecidableEq

/-- What happens when a worklist is asked for something. -/
inductive Event where
  /-- The node was pushed. -/
  | pushed (n : Nat)
  /-- The node was taken. -/
  | popped (n : Nat)
  /-- No node was waiting. -/
  | idle
  deriving DecidableEq

variable (w : NodeWorklist)

/-- What happens at a request, and the worklist afterwards. -/
def answer : Request → Event × NodeWorklist
  | .push n => (.pushed n, w.push n)
  | .pop =>
    match w.pop? with
    | none => (.idle, w)
    | some (n, rest) => (.popped n, rest)

/-- The worklist after some requests. -/
def after (w : NodeWorklist) : List Request → NodeWorklist
  | [] => w
  | request :: requests => (w.answer request).2.after requests

/-- What happens at some requests. -/
def events (w : NodeWorklist) : List Request → List Event
  | [] => []
  | request :: requests => (w.answer request).1 :: (w.answer request).2.events requests

/-- The node has been pushed and not popped since. -/
def Owed (events : List Event) (n : Nat) : Prop :=
  ∃ before since, events = before ++ .pushed n :: since ∧ .popped n ∉ since

/-- What has become of an empty worklist after some requests. -/
structure Faithful (order : WorklistOrder) (requests : List Request) (events : List Event)
    (w : NodeWorklist) : Prop where
  /-- No node waits twice, and exactly the waiting nodes are marked. -/
  valid : w.Valid
  /-- A bound of the pushed nodes is a bound of the marked ones. -/
  mark_lt : ∀ capacity, (∀ n, .push n ∈ requests → n < capacity) → ∀ n ∈ w.marks, n < capacity
  /-- A node waits if it has been pushed and not popped since. -/
  mem_waiting_iff : ∀ n, n ∈ w.waiting ↔ Owed events n
  /-- Before a pop is in vain, every push is followed by a pop of the node. -/
  popped_of_idle : ∀ n before middle behind,
    events = before ++ .pushed n :: (middle ++ .idle :: behind) → .popped n ∈ middle
  /-- A node that does not wait yet is pushed behind those that do. -/
  waiting_push : ∀ n, (w.push n).waiting = if n ∈ w.waiting then w.waiting else w.waiting ++ [n]
  /-- Pops in a row give the waiting nodes in turn, and are in vain after that. -/
  events_pops : ∀ k, w.events (List.replicate k .pop) =
    ((order.inTurn w.waiting).map .popped).take k ++ List.replicate (k - w.waiting.length) .idle

variable {w} {requests : List Request} {n : Nat}

/-! ## One request -/

theorem answer_of_pop?_none (h : w.pop? = none) : w.answer .pop = (.idle, w) := by
  simp only [answer, h]

theorem answer_of_pop?_some {rest : NodeWorklist} (h : w.pop? = some (n, rest)) :
    w.answer .pop = (.popped n, rest) := by
  simp only [answer, h]

theorem Valid.answer (h : w.Valid) (request : Request) : (w.answer request).2.Valid := by
  cases request with
  | push n => exact h.push n
  | pop =>
    rcases hpop : w.pop? with _ | ⟨n, rest⟩
    · rwa [answer_of_pop?_none hpop]
    · rw [answer_of_pop?_some hpop]
      exact (h.pop hpop).1

/-- A node waits after a request if it has been pushed, or waited before and has not been
popped. -/
theorem mem_waiting_answer (h : w.Valid) (request : Request) :
    n ∈ (w.answer request).2.waiting ↔
      (w.answer request).1 = .pushed n ∨ n ∈ w.waiting ∧ (w.answer request).1 ≠ .popped n := by
  cases request with
  | push m =>
    simp only [NodeWorklist.answer, mem_push h, Event.pushed.injEq, ne_eq, reduceCtorEq,
      not_false_eq_true, and_true]
    rw [eq_comm]
  | pop =>
    rcases hpop : w.pop? with _ | ⟨m, rest⟩
    · simp [answer_of_pop?_none hpop]
    · obtain ⟨-, -, hrest, -⟩ := h.pop hpop
      simp [answer_of_pop?_some hpop, hrest, eq_comm]

theorem order_answer (request : Request) : (w.answer request).2.order = w.order := by
  cases request with
  | push n =>
    change (w.push n).order = w.order
    unfold push
    split <;> rfl
  | pop =>
    rcases hpop : w.pop? with _ | ⟨n, rest⟩
    · rw [answer_of_pop?_none hpop]
    · rw [answer_of_pop?_some hpop]
      obtain ⟨e, -, heq⟩ := Option.map_eq_some_iff.1 hpop
      cases heq
      rfl

/-- Only a pop is in vain, and only if no node is waiting. -/
theorem eq_pop_of_idle {request : Request} (h : (w.answer request).1 = .idle) :
    request = .pop ∧ w.waiting = [] := by
  cases request with
  | push n => cases h
  | pop =>
    rcases hpop : w.pop? with _ | ⟨n, rest⟩
    · exact ⟨rfl, pop?_eq_none_iff.1 hpop⟩
    · rw [answer_of_pop?_some hpop] at h
      cases h

/-- Only a push pushes a node. -/
theorem eq_push_of_pushed {request : Request} (h : (w.answer request).1 = .pushed n) :
    request = .push n := by
  cases request with
  | push m =>
    cases h
    rfl
  | pop =>
    rcases hpop : w.pop? with _ | ⟨m, rest⟩
    · rw [answer_of_pop?_none hpop] at h
      cases h
    · rw [answer_of_pop?_some hpop] at h
      cases h

/-! ## Requests one after the other -/

theorem Valid.after (h : w.Valid) (requests : List Request) : (w.after requests).Valid := by
  induction requests generalizing w with
  | nil => exact h
  | cons request requests ih => exact ih (h.answer request)

theorem order_after (w : NodeWorklist) (requests : List Request) :
    (w.after requests).order = w.order := by
  induction requests generalizing w with
  | nil => rfl
  | cons request requests ih => exact (ih _).trans (order_answer request)

/-- With one event before the others, a node is owed by that event or by the others. -/
theorem owed_cons {event : Event} {events : List Event} :
    Owed (event :: events) n ↔ event = .pushed n ∧ .popped n ∉ events ∨ Owed events n := by
  constructor
  · rintro ⟨_ | ⟨first, before⟩, since, heq, hnot⟩
    · obtain ⟨rfl, rfl⟩ := List.cons.inj heq
      exact .inl ⟨rfl, hnot⟩
    · obtain ⟨-, rfl⟩ := List.cons.inj heq
      exact .inr ⟨before, since, rfl, hnot⟩
  · rintro (⟨rfl, hnot⟩ | ⟨before, since, rfl, hnot⟩)
    · exact ⟨[], events, rfl, hnot⟩
    · exact ⟨event :: before, since, rfl, hnot⟩

/-- Nodes that are owed have been asked to wait. -/
theorem push_mem_of_owed (h : Owed (w.events requests) n) : .push n ∈ requests := by
  induction requests generalizing w with
  | nil =>
    obtain ⟨before, since, heq, -⟩ := h
    simp [events] at heq
  | cons request requests ih =>
    rw [events, owed_cons] at h
    rcases h with ⟨hpushed, -⟩ | hrest
    · rw [eq_push_of_pushed hpushed]
      exact List.mem_cons_self
    · exact List.mem_cons_of_mem _ (ih hrest)

/-- A node waits after some requests if it is owed, or waited at first and has not been popped. -/
theorem mem_waiting_after (h : w.Valid) (requests : List Request) (n : Nat) :
    n ∈ (w.after requests).waiting ↔
      Owed (w.events requests) n ∨ n ∈ w.waiting ∧ .popped n ∉ w.events requests := by
  induction requests generalizing w with
  | nil => simp [NodeWorklist.after, events, Owed]
  | cons request requests ih =>
    have hrest := ih (h.answer request)
    rw [mem_waiting_answer h] at hrest
    rw [NodeWorklist.after, events, owed_cons, List.mem_cons, hrest]
    grind

/-- In an empty worklist nothing waits, so later just what is owed does. -/
theorem mem_waiting_after_empty {order : WorklistOrder} :
    n ∈ ((empty order).after requests).waiting ↔ Owed ((empty order).events requests) n := by
  rw [mem_waiting_after (valid_empty order), or_iff_left_iff_imp]
  rintro ⟨hnone, -⟩
  cases hnone

/-- Before a pop in vain some requests have led to a worklist in which no node is waiting. -/
theorem exists_of_events_idle {before behind : List Event}
    (h : w.events requests = before ++ .idle :: behind) :
    ∃ served, w.events served = before ∧ (w.after served).waiting = [] := by
  induction before generalizing w requests with
  | nil =>
    cases requests with
    | nil => cases h
    | cons request requests => exact ⟨[], rfl, (eq_pop_of_idle (List.cons.inj h).1).2⟩
  | cons event before ih =>
    cases requests with
    | nil => cases h
    | cons request requests =>
      obtain ⟨rfl, hrest⟩ := List.cons.inj h
      obtain ⟨served, rfl, hnone⟩ := ih hrest
      exact ⟨request :: served, rfl, hnone⟩

/-- Every push is followed by a pop of the node before a pop is in vain. -/
theorem popped_of_events_idle {order : WorklistOrder} {before middle behind : List Event}
    (h : (empty order).events requests = before ++ .pushed n :: (middle ++ .idle :: behind)) :
    .popped n ∈ middle := by
  by_contra hnot
  have hsplit : (empty order).events requests =
      (before ++ .pushed n :: middle) ++ .idle :: behind := by
    rw [h, List.append_assoc, List.cons_append]
  obtain ⟨served, hserved, hnone⟩ := exists_of_events_idle hsplit
  have hwaits : n ∈ ((empty order).after served).waiting :=
    mem_waiting_after_empty.2 ⟨before, middle, hserved, hnot⟩
  rw [hnone] at hwaits
  cases hwaits

/-! ## Pops in a row -/

/-- The node that is popped is the first in turn. -/
theorem inTurn_of_pop? {rest : NodeWorklist} (h : w.pop? = some (n, rest)) :
    w.order.inTurn w.waiting = n :: rest.order.inTurn rest.waiting ∧
      w.waiting.length = rest.waiting.length + 1 := by
  obtain ⟨⟨m, left⟩, htake, heq⟩ := Option.map_eq_some_iff.1 h
  cases heq
  refine ⟨WorklistOrder.inTurn_of_take? htake, ?_⟩
  obtain ⟨before, behind, hwaiting, rfl⟩ := WorklistOrder.exists_of_take? htake
  simp [hwaiting, Nat.add_assoc]

/-- Pops in a row give the waiting nodes in turn, and are in vain after that. -/
theorem events_replicate_pop (w : NodeWorklist) (k : Nat) :
    w.events (List.replicate k .pop) =
      ((w.order.inTurn w.waiting).map .popped).take k ++
        List.replicate (k - w.waiting.length) .idle := by
  induction k generalizing w with
  | zero => simp [events]
  | succ k ih =>
    rw [List.replicate_succ, events]
    rcases hpop : w.pop? with _ | ⟨n, rest⟩
    · have hnone : w.waiting = [] := pop?_eq_none_iff.1 hpop
      rw [answer_of_pop?_none hpop, ih, hnone]
      simp [List.replicate_succ]
    · obtain ⟨hturn, hlength⟩ := inTurn_of_pop? hpop
      rw [answer_of_pop?_some hpop, ih, hturn, hlength]
      simp

/-! ## Any requests -/

theorem waiting_push (h : w.Valid) (n : Nat) :
    (w.push n).waiting = if n ∈ w.waiting then w.waiting else w.waiting ++ [n] := by
  unfold push
  simp only [h.mem_marks]
  split <;> rfl

/-- After any pushes and pops, in either order of pops, no node waits twice, a node is marked
exactly if it waits, and it waits exactly if it has been pushed and not popped since. A pop is in
vain only if every push before it has been followed by a pop of the node. Pops in a row give the
waiting nodes, from the front or from the back, and are in vain after that. -/
theorem faithful_after (order : WorklistOrder) (requests : List Request) :
    Faithful order requests ((empty order).events requests) ((empty order).after requests) := by
  have hvalid : ((empty order).after requests).Valid := (valid_empty order).after requests
  have horder : ((empty order).after requests).order = order := order_after (empty order) requests
  exact {
    valid := hvalid
    mark_lt := fun capacity hbelow n hn => by
      have howed := mem_waiting_after_empty.1 ((hvalid.mem_marks n).1 hn)
      exact hbelow n (push_mem_of_owed howed)
    mem_waiting_iff := fun n => mem_waiting_after_empty
    popped_of_idle := fun n before middle behind hevents => popped_of_events_idle hevents
    waiting_push := waiting_push hvalid
    events_pops := fun k => by
      rw [events_replicate_pop, horder] }

/-- A node that is pushed twice is popped once, and again when it is pushed again. -/
example : (empty .fifo).events [.push 1, .push 2, .push 1, .pop, .push 1, .pop, .pop, .pop] =
    [.pushed 1, .pushed 2, .pushed 1, .popped 1, .pushed 1, .popped 2, .popped 1, .idle] := by
  decide

end NodeWorklist

end TacAnalysis
