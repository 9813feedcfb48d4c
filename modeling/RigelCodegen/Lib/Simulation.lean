import Mathlib.Logic.Function.Iterate

/-!
# Simulations that stutter

Two deterministic systems are step functions, and `r` takes a state of the
first to the state of the second that stands for it. If every step of the first
is at least one and at most `k + 1` steps of the second, then their runs are the
same: a run of either, at every length, is one of the other, up to `k` more steps
of the second.
-/

namespace Simulation

variable {α β : Type} {step : α → α} {step' : β → β} {r : α → β} {Inv : α → Prop} {k : Nat}

/-- The steps of the first system from the states that meet an invariant. -/
structure Simulates (step : α → α) (step' : β → β) (r : α → β) (Inv : α → Prop) (k : Nat) : Prop where
  inv : ∀ a, Inv a → Inv (step a)
  steps : ∀ a, Inv a → ∃ j ≤ k, step'^[j + 1] (r a) = r (step a)

namespace Simulates

theorem inv_iterate (h : Simulates step step' r Inv k) {a : α} (ha : Inv a) (n : Nat) : Inv (step^[n] a) := by
  induction n with
  | zero => exact ha
  | succ n ih =>
    rw [Function.iterate_succ_apply']
    exact h.inv _ ih

/-- A run of the first system is one of the second, which is no shorter. -/
theorem forward (h : Simulates step step' r Inv k) {a : α} (ha : Inv a) (n : Nat) :
    ∃ m, n ≤ m ∧ step'^[m] (r a) = r (step^[n] a) := by
  induction n with
  | zero => exact ⟨0, Nat.le_refl 0, rfl⟩
  | succ n ih =>
    obtain ⟨m, hm, hrun⟩ := ih
    obtain ⟨j, -, hj⟩ := h.steps _ (h.inv_iterate ha n)
    refine ⟨j + 1 + m, by omega, ?_⟩
    rw [Function.iterate_add_apply, hrun, hj, Function.iterate_succ_apply']

/-- A run of the second system is one of the first, after at most `k` more steps. -/
theorem backward (h : Simulates step step' r Inv k) {a : α} (ha : Inv a) (m : Nat) :
    ∃ n j, j ≤ k ∧ step'^[m + j] (r a) = r (step^[n] a) := by
  induction m with
  | zero => exact ⟨0, 0, Nat.zero_le k, rfl⟩
  | succ m ih =>
    obtain ⟨n, j, hj, hrun⟩ := ih
    cases j with
    | succ j => exact ⟨n, j, by omega, by rw [← hrun, Nat.add_right_comm, Nat.add_assoc]⟩
    | zero =>
      -- the second system has caught up, so the first takes a step
      obtain ⟨i, hi, hstep⟩ := h.steps _ (h.inv_iterate ha n)
      refine ⟨n + 1, i, hi, ?_⟩
      rw [Function.iterate_succ_apply', ← hstep, ← hrun, ← Function.iterate_add_apply]
      congr 1
      omega

end Simulates

end Simulation
