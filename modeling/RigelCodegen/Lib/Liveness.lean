import Mathlib.Data.Set.Basic

/-!
# Liveness and dead instructions

Instructions read registers and write registers, and the rest of the state goes
along (`Lang`). `Lang.live is L` are the registers that are live before the
instructions `is` if the registers of `L` are live after them: states that agree
on the former agree on the latter after a run (`Lang.run_live`). Deleting
instructions that only define registers that are not live (`Lang.Elim`) makes no
difference to what is live in the end (`Lang.Elim.agree`).
-/

namespace Liveness

/-- Registers, and the rest of a state. -/
structure State (ρ V W : Type) where
  regs : ρ → V
  rest : W

variable {ι ρ V W : Type}

/-- `s` and `t` are the same, up to registers that are not in `L`. -/
structure Agree (L : Set ρ) (s t : State ρ V W) : Prop where
  regs : ∀ r ∈ L, s.regs r = t.regs r
  rest : s.rest = t.rest

namespace Agree

variable {L L' : Set ρ} {s t u : State ρ V W}

theorem refl (L : Set ρ) (s : State ρ V W) : Agree L s s := ⟨fun _ _ => rfl, rfl⟩

theorem mono (h : Agree L s t) (hL : L' ⊆ L) : Agree L' s t := ⟨fun r hr => h.regs r (hL hr), h.rest⟩

theorem trans (h : Agree L s t) (h' : Agree L t u) : Agree L s u :=
  ⟨fun r hr => (h.regs r hr).trans (h'.regs r hr), h.rest.trans h'.rest⟩

end Agree

/-- A language of instructions. What an instruction does depends on the registers it
uses and on the rest of the state, and it only changes the registers it defines. -/
structure Lang (ι ρ V W : Type) where
  defs : ι → List ρ
  uses : ι → List ρ
  exec : ι → State ρ V W → State ρ V W
  exec_regs {i : ι} {s : State ρ V W} {r : ρ} : r ∉ defs i → (exec i s).regs r = s.regs r
  exec_agree {i : ι} {s t : State ρ V W} : Agree {r | r ∈ uses i} s t → Agree {r | r ∈ defs i} (exec i s) (exec i t)

namespace Lang

variable (M : Lang ι ρ V W)

/-- Instructions one after the other. -/
def run (is : List ι) (s : State ρ V W) : State ρ V W := is.foldl (fun s i => M.exec i s) s

/-- The registers that are live before an instruction, from the ones live after it. -/
def before (i : ι) (L : Set ρ) : Set ρ := {r | r ∈ M.uses i ∨ r ∈ L ∧ r ∉ M.defs i}

/-- The registers that are live before instructions. -/
def live (is : List ι) (L : Set ρ) : Set ρ := is.foldr M.before L

/-- `is'` is `is` without instructions that have no effect but to define registers
that are not live behind them. -/
inductive Elim (pure : ι → Prop) (L : Set ρ) : List ι → List ι → Prop
  | nil : Elim pure L [] []
  | keep {is is' : List ι} (i : ι) : Elim pure L is is' → Elim pure L (i :: is) (i :: is')
  | drop {is is' : List ι} {i : ι} : pure i → (∀ r ∈ M.defs i, r ∉ M.live is' L) → Elim pure L is is' →
    Elim pure L (i :: is) is'

variable {M} {is is' : List ι} {L L' : Set ρ} {s t : State ρ V W}

theorem run_append (is is' : List ι) (s : State ρ V W) : M.run (is ++ is') s = M.run is' (M.run is s) :=
  List.foldl_append

theorem before_mono (i : ι) (h : L ⊆ L') : M.before i L ⊆ M.before i L' :=
  fun _ hr => hr.imp_right fun hr => ⟨h hr.1, hr.2⟩

/-- What is live before is live after, or is used. -/
theorem mem_live {r : ρ} (h : r ∈ M.live is L) : r ∈ L ∨ ∃ i ∈ is, r ∈ M.uses i := by
  induction is with
  | nil => exact .inl h
  | cons i is ih =>
    rcases h with h | ⟨h, -⟩
    · exact .inr ⟨i, .head _, h⟩
    · exact (ih h).imp_right fun ⟨j, hj, hr⟩ => ⟨j, .tail _ hj, hr⟩

theorem exec_before {i : ι} (h : Agree (M.before i L) s t) : Agree L (M.exec i s) (M.exec i t) := by
  have hdefs := M.exec_agree (h.mono fun r hr => .inl hr)
  refine ⟨fun r hr => ?_, hdefs.rest⟩
  by_cases hd : r ∈ M.defs i
  · exact hdefs.regs r hd
  · rw [M.exec_regs hd, M.exec_regs hd]
    exact h.regs r (.inr ⟨hr, hd⟩)

/-- States that agree on what is live before agree on what is live after. -/
theorem run_live (h : Agree (M.live is L) s t) : Agree L (M.run is s) (M.run is t) := by
  induction is generalizing s t with
  | nil => exact h
  | cons i is ih => exact ih (exec_before h)

/-- Agreement on every register that is used is kept. -/
theorem run_agree (huses : ∀ i ∈ is, ∀ r ∈ M.uses i, r ∈ L) (h : Agree L s t) : Agree L (M.run is s) (M.run is t) :=
  run_live (h.mono fun _ hr => (mem_live hr).elim id fun ⟨i, hi, hr⟩ => huses i hi _ hr)

/-- A register that is not defined keeps its value. -/
theorem run_regs {r : ρ} (h : ∀ i ∈ is, r ∉ M.defs i) (s : State ρ V W) : (M.run is s).regs r = s.regs r := by
  induction is generalizing s with
  | nil => rfl
  | cons i is ih =>
    exact (ih (fun j hj => h j (.tail _ hj)) _).trans (M.exec_regs (h i (.head _)))

namespace Elim

variable {pure : ι → Prop}

/-- No more is live without the instructions. -/
theorem live_subset (h : M.Elim pure L is is') : M.live is' L ⊆ M.live is L := by
  induction h with
  | nil => exact fun _ hr => hr
  | keep i _ ih => exact before_mono i ih
  | drop _ hdead _ ih => exact fun r hr => .inr ⟨ih hr, fun hd => hdead r hd hr⟩

/-- A run without the instructions agrees on what is live. -/
theorem agree (hpure : ∀ i, pure i → ∀ s, (M.exec i s).rest = s.rest) (h : M.Elim pure L is is')
    (hst : Agree (M.live is' L) s t) : Agree L (M.run is s) (M.run is' t) := by
  induction h generalizing s t with
  | nil => exact hst
  | keep i _ ih => exact ih (exec_before hst)
  | drop hi hdead _ ih =>
    refine ih ⟨fun r hr => ?_, (hpure _ hi _).trans hst.rest⟩
    rw [M.exec_regs fun hd => hdead r hd hr]
    exact hst.regs r hr

end Elim

end Lang

end Liveness
