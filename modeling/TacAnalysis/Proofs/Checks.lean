/-!
# Checks that pass

A check is a computation that may be refused with an error. What a list of checks
accepts is said element by element here, so that later proofs see the accepted elements
and never the order in which they were checked.
-/

namespace TacAnalysis

variable {ε α β : Type}

/-- Two checks in a row pass when both do. -/
@[simp] theorem bind_eq_ok_iff {x : Except ε α} {f : α → Except ε β} {b : β} :
    (x >>= f) = .ok b ↔ ∃ a, x = .ok a ∧ f a = .ok b := by
  cases x <;> simp [bind, Except.bind]

/-- A check without a result passes before another computation when it passes by itself. -/
theorem check_bind_eq_ok_iff {x : Except ε Unit} {f : Unit → Except ε β} {b : β} :
    (x >>= f) = .ok b ↔ x = .ok () ∧ f () = .ok b := by
  rw [bind_eq_ok_iff]
  exact ⟨fun ⟨_, hx, hf⟩ => ⟨hx, hf⟩, fun ⟨hx, hf⟩ => ⟨(), hx, hf⟩⟩

/-- A list of checks passes when each of them does. -/
theorem forM_eq_ok_iff {f : α → Except ε Unit} {xs : List α} :
    xs.forM f = .ok () ↔ ∀ x ∈ xs, f x = .ok () := by
  induction xs with
  | nil => simp [pure, Except.pure]
  | cons x xs ih =>
    change (f x >>= fun _ => xs.forM f) = .ok () ↔ _
    rw [check_bind_eq_ok_iff, List.forall_mem_cons, ← ih]

/-- What a list of computations gives is what they give one by one. -/
theorem mem_of_mapM_eq_ok {f : α → Except ε β} {xs : List α} {ys : List β}
    (h : xs.mapM f = .ok ys) {y : β} : y ∈ ys ↔ ∃ x ∈ xs, f x = .ok y := by
  induction xs generalizing ys with
  | nil =>
    have : ys = [] := by simpa [pure, Except.pure, eq_comm] using h
    simp [this]
  | cons x xs ih =>
    rw [List.mapM_cons, bind_eq_ok_iff] at h
    obtain ⟨z, hz, h⟩ := h
    rw [bind_eq_ok_iff] at h
    obtain ⟨zs, hzs, h⟩ := h
    have : ys = z :: zs := by simpa [pure, Except.pure, eq_comm] using h
    subst this
    rw [List.mem_cons, ih hzs]
    simp [hz, eq_comm]

/-- What a list of computations gives stands at the same places. -/
theorem getElem?_of_mapM_eq_ok {f : α → Except ε β} {xs : List α} {ys : List β}
    (h : xs.mapM f = .ok ys) (i : Nat) (y : β) :
    ys[i]? = some y ↔ ∃ x, xs[i]? = some x ∧ f x = .ok y := by
  induction xs generalizing ys i with
  | nil =>
    have : ys = [] := by simpa [pure, Except.pure, eq_comm] using h
    simp [this]
  | cons x xs ih =>
    rw [List.mapM_cons] at h
    obtain ⟨z, hz, h⟩ := bind_eq_ok_iff.1 h
    obtain ⟨zs, hzs, h⟩ := bind_eq_ok_iff.1 h
    obtain rfl : z :: zs = ys := Except.ok.inj h
    cases i with
    | zero => simp [hz]
    | succ i => simpa using ih hzs i

/-- If what a computation gives shows what its input shows, so do the lists. -/
theorem map_eq_map_of_mapM_eq_ok {γ : Type} {f : α → Except ε β} {shown : α → γ} {view : β → γ}
    {xs : List α} {ys : List β} (h : xs.mapM f = .ok ys)
    (hview : ∀ x y, f x = .ok y → view y = shown x) : ys.map view = xs.map shown := by
  induction xs generalizing ys with
  | nil =>
    have : ys = [] := by simpa [pure, Except.pure, eq_comm] using h
    simp [this]
  | cons x xs ih =>
    rw [List.mapM_cons] at h
    obtain ⟨z, hz, h⟩ := bind_eq_ok_iff.1 h
    obtain ⟨zs, hzs, h⟩ := bind_eq_ok_iff.1 h
    obtain rfl : z :: zs = ys := Except.ok.inj h
    rw [List.map_cons, List.map_cons, hview x z hz, ih hzs]

/-- If what a computation gives tells what it was for, the list tells what the list was for. -/
theorem map_of_mapM_eq_ok {f : α → Except ε β} {origin : β → α} {xs : List α} {ys : List β}
    (h : xs.mapM f = .ok ys) (horigin : ∀ x y, f x = .ok y → origin y = x) :
    ys.map origin = xs :=
  (map_eq_map_of_mapM_eq_ok h horigin).trans (List.map_id' xs)

/-- If a list of computations gives something, each of them does. -/
theorem exists_of_mapM_eq_ok {f : α → Except ε β} {xs : List α} {ys : List β}
    (h : xs.mapM f = .ok ys) {x : α} (hx : x ∈ xs) : ∃ y, f x = .ok y := by
  induction xs generalizing ys with
  | nil => cases hx
  | cons z zs ih =>
    rw [List.mapM_cons] at h
    obtain ⟨y, hy, h⟩ := bind_eq_ok_iff.1 h
    obtain ⟨rest, hrest, -⟩ := bind_eq_ok_iff.1 h
    rcases List.mem_cons.1 hx with rfl | hx
    · exact ⟨y, hy⟩
    · exact ih hrest hx

/-- A list of computations gives something when each of them does. -/
theorem exists_mapM_eq_ok {f : α → Except ε β} {xs : List α} (h : ∀ x ∈ xs, ∃ y, f x = .ok y) :
    ∃ ys, xs.mapM f = .ok ys := by
  induction xs with
  | nil => exact ⟨[], rfl⟩
  | cons x xs ih =>
    obtain ⟨y, hy⟩ := h x (by simp)
    obtain ⟨ys, hys⟩ := ih fun z hz => h z (by simp [hz])
    refine ⟨y :: ys, ?_⟩
    rw [List.mapM_cons, bind_eq_ok_iff]
    refine ⟨y, hy, ?_⟩
    rw [bind_eq_ok_iff]
    exact ⟨ys, hys, rfl⟩

/-- Computations that are the same one by one are the same as a list. -/
theorem mapM_congr {f g : α → Except ε β} {xs : List α} (h : ∀ x ∈ xs, f x = g x) :
    xs.mapM f = xs.mapM g := by
  induction xs with
  | nil => rfl
  | cons x xs ih =>
    have hrest := ih fun y hy => h y (List.mem_cons_of_mem x hy)
    rw [List.mapM_cons, List.mapM_cons, h x List.mem_cons_self, hrest]

/-! ## Checks that fail -/

/-- The error with which a computation fails, if it does. -/
def failure? : Except ε α → Option ε
  | .error e => some e
  | .ok _ => none

@[simp] theorem failure?_ok (a : α) : failure? (.ok a : Except ε α) = none := rfl

@[simp] theorem failure?_error (e : ε) : failure? (.error e : Except ε α) = some e := rfl

theorem failure?_eq_some_iff {x : Except ε α} {e : ε} : failure? x = some e ↔ x = .error e := by
  cases x <;> simp

theorem failure?_eq_none_iff {x : Except ε α} : failure? x = none ↔ ∃ a, x = .ok a := by
  cases x <;> simp

/-- A condition that is checked fails with its own error only. -/
theorem ite_eq_error_iff {p : Prop} [Decidable p] {a : α} {e e' : ε} :
    (if p then .ok a else .error e : Except ε α) = .error e' ↔ ¬ p ∧ e = e' := by
  by_cases hp : p <;> simp [hp]

/-- Two checks in a row fail with an error of the first one, or of the second one. -/
theorem bind_eq_error_iff {x : Except ε α} {f : α → Except ε β} {e : ε} :
    (x >>= f) = .error e ↔ x = .error e ∨ ∃ a, x = .ok a ∧ f a = .error e := by
  cases x <;> simp [bind, Except.bind]

/-- A list of checks fails with an error of one of them. -/
theorem exists_of_forM_eq_error {f : α → Except ε Unit} {xs : List α} {e : ε}
    (h : xs.forM f = .error e) : ∃ x ∈ xs, f x = .error e := by
  induction xs with
  | nil => cases h
  | cons x xs ih =>
    change (f x >>= fun _ => xs.forM f) = .error e at h
    rcases bind_eq_error_iff.1 h with hfirst | ⟨_, -, hrest⟩
    · exact ⟨x, List.mem_cons_self, hfirst⟩
    · obtain ⟨y, hy, hfail⟩ := ih hrest
      exact ⟨y, List.mem_cons_of_mem x hy, hfail⟩

/-- Two computations in a row fail as the first one does, or else as the second one. -/
theorem failure?_bind {x : Except ε α} {f : α → Except ε β} {later : Option ε}
    (h : ∀ a, x = .ok a → failure? (f a) = later) : failure? (x >>= f) = (failure? x).or later := by
  cases x with
  | error e => rfl
  | ok a => exact h a rfl

/-- What is made of the result of a computation fails as the computation does. -/
theorem failure?_bind_pure {x : Except ε α} {f : α → β} :
    failure? (x >>= fun a => pure (f a)) = failure? x := by
  cases x <;> rfl

/-- A list of computations fails as the first one of them that fails. -/
theorem failure?_mapM {f : α → Except ε β} {xs : List α} :
    failure? (xs.mapM f) = xs.findSome? fun x => failure? (f x) := by
  induction xs with
  | nil => rfl
  | cons x xs ih =>
    have hrest : ∀ y, f x = .ok y →
        failure? (do let ys ← xs.mapM f; return y :: ys) = xs.findSome? fun x => failure? (f x) :=
      fun _ _ => failure?_bind_pure.trans ih
    rw [List.mapM_cons, failure?_bind hrest, List.findSome?_cons]
    cases failure? (f x) <;> rfl

/-! ## Lookups that find something -/

/-- Lookups that find something one by one find a list. -/
theorem mapM_eq_some_map {f : α → Option β} {g : α → β} {xs : List α}
    (h : ∀ x ∈ xs, f x = some (g x)) : xs.mapM f = some (xs.map g) := by
  induction xs with
  | nil => rfl
  | cons x xs ih =>
    rw [List.mapM_cons, h x List.mem_cons_self, ih fun y hy => h y (List.mem_cons_of_mem x hy)]
    rfl

/-- Computations that are the same on each element of a list are the same one after the other. -/
theorem foldlM_congr {σ : Type} {f g : σ → α → Option σ} {xs : List α}
    (h : ∀ a ∈ xs, ∀ s, f s a = g s a) (s : σ) : xs.foldlM f s = xs.foldlM g s := by
  induction xs generalizing s with
  | nil => rfl
  | cons a xs ih =>
    rw [List.foldlM_cons, List.foldlM_cons, h a List.mem_cons_self]
    exact congrArg _ (funext fun t => ih (fun b hb => h b (List.mem_cons_of_mem a hb)) t)

/-- Computations on the elements of a list that do not fail, in states with a property that they
keep. -/
theorem foldlM_eq_some_foldl {σ : Type} {f : σ → α → Option σ} {g : σ → α → σ}
    {holds : σ → Prop} {xs : List α} {s : σ} (hs : holds s)
    (hstep : ∀ a ∈ xs, ∀ t, holds t → f t a = some (g t a) ∧ holds (g t a)) :
    xs.foldlM f s = some (xs.foldl g s) := by
  induction xs generalizing s with
  | nil => rfl
  | cons a xs ih =>
    obtain ⟨hfirst, hkept⟩ := hstep a List.mem_cons_self s hs
    rw [List.foldlM_cons, hfirst, List.foldl_cons]
    exact ih hkept fun b hb => hstep b (List.mem_cons_of_mem a hb)

/-- Computations on the elements of a list that fail in no state. -/
theorem foldlM_eq_some_of_forall {σ : Type} {f : σ → α → Option σ} {g : σ → α → σ} {xs : List α}
    (h : ∀ a ∈ xs, ∀ s, f s a = some (g s a)) (s : σ) : xs.foldlM f s = some (xs.foldl g s) := by
  rw [foldlM_congr h s]
  exact List.foldlM_pure

end TacAnalysis
