import Mathlib.Logic.Basic

/-!
# Repeating a step until it settles

A step that says whether it is busy, repeated until it is not (`untilQuiet`). What
comes out is what a quiet step leaves, from a state that a run of the step reaches
(`exists_quiet_step`), so an invariant of the step holds where the run ends.
-/

variable {σ ε : Type}

/-- The step again and again while it is busy, at most so many times. -/
def untilQuiet (step : σ → Except ε (σ × Bool)) (tooLong : ε) : Nat → σ → Except ε σ
  | 0, _ => .error tooLong
  | fuel + 1, s =>
    match step s with
    | .error e => .error e
    | .ok (t, true) => untilQuiet step tooLong fuel t
    | .ok (t, false) => .ok t

/-- The last step is a quiet one, from a state with every invariant of the step. -/
theorem exists_quiet_step {step : σ → Except ε (σ × Bool)} {tooLong : ε} {Inv : σ → Prop}
    (hstep : ∀ s t busy, Inv s → step s = .ok (t, busy) → Inv t) {fuel : Nat} {s t : σ} (hs : Inv s)
    (h : untilQuiet step tooLong fuel s = .ok t) : ∃ s', Inv s' ∧ step s' = .ok (t, false) := by
  induction fuel generalizing s with
  | zero => cases h
  | succ fuel ih =>
    simp only [untilQuiet] at h
    split at h
    · cases h
    · next t' he => exact ih (hstep s t' true hs he) h
    · next t' he => exact ⟨s, hs, Except.ok.inj h ▸ he⟩
