import Mathlib.Data.Finset.Basic

/-!
# Registers

The register file of `RigelRegisterInfo.td`: the registers, the order the
allocator takes them in (`CPURegs`; `FPRegs` is the same list), the reserved
ones (`getReservedRegs`) and the callee-saved ones (`getCalleeSavedRegs`).
The allocatable registers are the class without its last four
(`allocation_order_end`), which are the reserved ones (`mem_allocatable_iff`);
`AT` is among them.
-/

namespace Rigel

inductive Reg where
  | ZERO | AT | V0 | V1 | A0 | A1 | A2 | A3 | A4 | A5 | A6 | A7 | T0 | T1 | T2 | T3 | T4 | T5
  | S0 | S1 | S2 | S3 | S4 | S5 | S6 | S7 | K0 | K1 | GP | SP | FP | RA
  deriving DecidableEq, Repr

open Reg

/-- `CPURegs`, in allocation order. -/
def cpuRegs : List Reg :=
  [T0, T1, T2, T3, T4, T5, K0, K1, GP, AT,
   A0, A1, A2, A3, A4, A5, A6, A7, V0, V1,
   S0, S1, S2, S3, S4, S5, S6, S7,
   ZERO, SP, FP, RA]

/-- `allocation_order_end`: the class up to its last four registers. -/
def allocatable : List Reg := cpuRegs.take (cpuRegs.length - 4)

def getReservedRegs : List Reg := [ZERO, SP, FP, RA]

def getCalleeSavedRegs : List Reg := [S0, S1, S2, S3, S4, S5, S6, S7]

theorem mem_allocatable_iff : ∀ r : Reg, r ∈ allocatable ↔ r ∉ getReservedRegs := by
  intro r; cases r <;> decide

/-- An allocatable register is none of the reserved ones. -/
theorem ne_of_allocatable {r : Reg} (h : r ∈ allocatable) : r ≠ ZERO ∧ r ≠ SP ∧ r ≠ FP ∧ r ≠ RA := by
  have := (mem_allocatable_iff r).mp h
  simpa [getReservedRegs] using this

theorem AT_allocatable : AT ∈ allocatable := by decide

end Rigel
