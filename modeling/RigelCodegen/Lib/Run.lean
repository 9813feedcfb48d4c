/-!
# Runs

A system is a step function, which takes a state and an event to the next
state; a run is a list of events. `Along` says that something holds of every
event of a run and the state it happens in, and `Along.of_invariant` derives
it from an invariant that each step keeps.
-/

namespace Run

variable {σ ε : Type} {step : σ → ε → σ}

/-- `P` holds of every event of the run, in the state before it. -/
inductive Along (step : σ → ε → σ) (P : σ → ε → Prop) : σ → List ε → Prop
  | nil (s : σ) : Along step P s []
  | cons {s : σ} {e : ε} {es : List ε} : P s e → Along step P (step s e) es → Along step P s (e :: es)

namespace Along

/-- What holds of the events of a run in every state. -/
theorem of_forall {P : σ → ε → Prop} {es : List ε} (h : ∀ e ∈ es, ∀ s, P s e) (s : σ) : Along step P s es := by
  induction es generalizing s with
  | nil => exact .nil s
  | cons e es ih => exact .cons (h e (.head _) s) (ih (fun e he => h e (.tail _ he)) _)

variable {Inv : σ → Prop} {C P : σ → ε → Prop}

/-- What each step keeps, if `C` holds, is kept by the run. -/
theorem invariant (hstep : ∀ s e, Inv s → C s e → Inv (step s e)) {s : σ} {es : List ε} (h : Along step C s es)
    (h0 : Inv s) : Inv (es.foldl step s) := by
  induction h with
  | nil s => exact h0
  | cons hc _ ih => exact ih (hstep _ _ h0 hc)

/-- What follows of an event from the invariant holds along the run. -/
theorem of_invariant (hstep : ∀ s e, Inv s → C s e → Inv (step s e)) (hP : ∀ s e, Inv s → C s e → P s e) {s : σ}
    {es : List ε} (h : Along step C s es) (h0 : Inv s) : Along step P s es := by
  induction h with
  | nil s => exact .nil s
  | cons hc _ ih => exact .cons (hP _ _ h0 hc) (ih (hstep _ _ h0 hc))

end Along

end Run
