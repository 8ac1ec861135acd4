/-!
# Runs of a step function

A step function gives the next state, or nothing when the run is over. Runs need not
end, so a run is given a number of steps: `iterate?` is the last state of a run that
ends within so many steps, and `stateAfter` is the state that a run has reached.

Main statements: `iterate?_mono`, more steps do not change where a run ends,
`iterate?_eq_some_iff`, a run ends where no step is left, `exists_iterate?_of_rank`, a run ends
if its steps lower a rank, and `stateAfter_invariant`, what every step keeps holds all along a
run.
-/

namespace TacAnalysis

variable {σ : Type}

/-- The last state of the run from `s`, if it ends within `budget` steps. -/
def iterate? (step : σ → Option σ) : Nat → σ → Option σ
  | 0, s =>
    match step s with
    | none => some s
    | some _ => none
  | budget + 1, s =>
    match step s with
    | none => some s
    | some next => iterate? step budget next

/-- The state after `steps` steps; a run that is over stays where it is. -/
def stateAfter (step : σ → Option σ) : Nat → σ → σ
  | 0, s => s
  | steps + 1, s =>
    match step s with
    | none => s
    | some next => stateAfter step steps next

/-- A run that ends within some steps also ends, in the same state, within more. -/
theorem iterate?_mono {step : σ → Option σ} {s t : σ} {n m : Nat} (hnm : n ≤ m)
    (h : iterate? step n s = some t) : iterate? step m s = some t := by
  induction m generalizing n s with
  | zero =>
    obtain rfl : n = 0 := by omega
    exact h
  | succ m ih =>
    cases hs : step s with
    | none => cases n <;> simp_all [iterate?]
    | some next =>
      cases n with
      | zero => simp [iterate?, hs] at h
      | succ n =>
        simp only [iterate?, hs] at h ⊢
        exact ih (by omega) h

/-- A run ends in a state from which there is no step. -/
theorem step_eq_none_of_iterate? {step : σ → Option σ} {s t : σ} {n : Nat}
    (h : iterate? step n s = some t) : step t = none := by
  induction n generalizing s with
  | zero =>
    cases hs : step s with
    | none =>
      simp only [iterate?, hs, Option.some.injEq] at h
      exact h ▸ hs
    | some next => simp [iterate?, hs] at h
  | succ n ih =>
    cases hs : step s with
    | none =>
      simp only [iterate?, hs, Option.some.injEq] at h
      exact h ▸ hs
    | some next =>
      simp only [iterate?, hs] at h
      exact ih h

/-- A run is over within some steps exactly when no step is left after them. -/
theorem iterate?_eq_some_iff {step : σ → Option σ} {s t : σ} {n : Nat} :
    iterate? step n s = some t ↔ stateAfter step n s = t ∧ step t = none := by
  induction n generalizing s with
  | zero =>
    cases hs : step s with
    | none => simp only [iterate?, hs, stateAfter, Option.some.injEq]; grind
    | some next => simp only [iterate?, hs, stateAfter]; grind
  | succ n ih =>
    cases hs : step s with
    | none => simp only [iterate?, hs, stateAfter, Option.some.injEq]; grind
    | some next => simp only [iterate?, hs, stateAfter, ih]

/-- A run goes on from the state behind its first step. -/
theorem stateAfter_of_step {step : σ → Option σ} {s t : σ} (h : step s = some t) (n : Nat) :
    stateAfter step (n + 1) s = stateAfter step n t := by
  simp only [stateAfter, h]

/-- A run ends if every step lowers a rank in a well-founded relation; it need only do so in
states with a property that steps keep. -/
theorem exists_iterate?_of_rank {α : Type} {below : α → α → Prop} (hbelow : WellFounded below)
    (rank : σ → α) {step : σ → Option σ} {holds : σ → Prop}
    (hstep : ∀ s t, holds s → step s = some t → holds t ∧ below (rank t) (rank s)) {s : σ}
    (hs : holds s) : ∃ budget t, iterate? step budget s = some t := by
  induction s using (InvImage.wf rank hbelow).induction with
  | h s ih =>
    cases hnext : step s with
    | none => exact ⟨0, s, by simp only [iterate?, hnext]⟩
    | some t =>
      obtain ⟨ht, hlt⟩ := hstep s t hs hnext
      obtain ⟨budget, u, hu⟩ := ih t hlt ht
      exact ⟨budget + 1, u, by simp only [iterate?, hnext, hu]⟩

/-- The last of several steps is taken from the state that the others have reached. -/
theorem stateAfter_succ {step : σ → Option σ} {s : σ} {n : Nat} :
    stateAfter step (n + 1) s = (step (stateAfter step n s)).getD (stateAfter step n s) := by
  induction n generalizing s with
  | zero => cases hs : step s <;> simp [stateAfter, hs]
  | succ n ih =>
    cases hs : step s with
    | none => simp [stateAfter, hs]
    | some next => rw [stateAfter_of_step hs, stateAfter_of_step hs, ih]

/-- What holds at first and is kept by every step holds in every state of a run. -/
theorem stateAfter_invariant {step : σ → Option σ} {holds : σ → Prop} {s : σ} (hs : holds s)
    (hstep : ∀ t u, holds t → step t = some u → holds u) (n : Nat) :
    holds (stateAfter step n s) := by
  induction n with
  | zero => exact hs
  | succ n ih =>
    rw [stateAfter_succ]
    cases ht : step (stateAfter step n s) with
    | none => exact ih
    | some u => exact hstep _ u ih ht

/-- A run that is over has reached its last state. -/
theorem stateAfter_of_ended {step : σ → Option σ} {s : σ} {n k : Nat}
    (hended : step (stateAfter step n s) = none) (hk : n ≤ k) :
    stateAfter step k s = stateAfter step n s := by
  obtain ⟨j, rfl⟩ := Nat.exists_eq_add_of_le hk
  induction j with
  | zero => rfl
  | succ j ih => rw [← Nat.add_assoc, stateAfter_succ, ih (by omega), hended, Option.getD_none]

/-- Steps can be taken in two portions. -/
theorem stateAfter_add {step : σ → Option σ} {s : σ} (n k : Nat) :
    stateAfter step (n + k) s = stateAfter step k (stateAfter step n s) := by
  induction k with
  | zero => rfl
  | succ k ih => rw [← Nat.add_assoc, stateAfter_succ, stateAfter_succ, ih]

/-- A run that comes back to a state from which there is a step never ends. -/
theorem step_ne_none_of_period {step : σ → Option σ} {s : σ} {n p : Nat} (hp : 0 < p)
    (hback : stateAfter step p (stateAfter step n s) = stateAfter step n s)
    (hstep : step (stateAfter step n s) ≠ none) (k : Nat) : step (stateAfter step k s) ≠ none := by
  have hrounds : ∀ j, stateAfter step (n + j * p) s = stateAfter step n s := by
    intro j
    induction j with
    | zero => simp
    | succ j ih => rw [Nat.succ_mul, ← Nat.add_assoc, stateAfter_add, ih, hback]
  intro hended
  have hk : k ≤ n + k * p := Nat.le_trans (Nat.le_mul_of_pos_right k hp) (Nat.le_add_left _ _)
  have hend := stateAfter_of_ended hended hk
  rw [hrounds k] at hend
  exact hstep (hend ▸ hended)

/-- If a view of a state tells the view of the next one, it sees a run of its own. -/
theorem stateAfter_view {τ : Type} {step : σ → Option σ} {viewStep : τ → Option τ} {view : σ → τ}
    (h : ∀ s, viewStep (view s) = (step s).map view) (n : Nat) (s : σ) :
    view (stateAfter step n s) = stateAfter viewStep n (view s) := by
  induction n with
  | zero => rfl
  | succ n ih =>
    rw [stateAfter_succ, stateAfter_succ, ← ih, h]
    cases step (stateAfter step n s) <;> rfl

/-- A number of steps that no run in practice exceeds. -/
def ampleBudget : Nat := 1000000000000000000

end TacAnalysis
