import Mathlib.Algebra.Group.Nat.Defs
import RigelCodegen.Target.Register

/-!
# The argument convention

`CC_Rigel`, and the state `CCState` that it assigns argument words in, one
after the other, for a call (`AnalyzeCallOperands`) as for a function
(`AnalyzeFormalArguments`). `analyze_locs` says where every word goes: the
first eight in `A0` to `A7`, the others on the stack, four bytes each.
-/

namespace Rigel

/-- The types of argument words. -/
inductive MVT where
  | i8 | i16 | i32 | f32
  deriving DecidableEq, Repr

def MVT.getSizeInBits : MVT → Nat
  | i8 => 8
  | i16 => 16
  | i32 | f32 => 32

/-- `ISD::ArgFlagsTy`, as far as an aggregate passed by value has flags. -/
structure ArgFlags where
  isByVal : Bool := false
  byValSize : Nat := 0
  deriving DecidableEq, Repr

/-- An argument word, `ISD::OutputArg` of a call and `ISD::InputArg` of a
function. -/
structure Arg where
  vt : MVT := .i32
  flags : ArgFlags := {}
  deriving DecidableEq, Repr

inductive Loc where
  | reg (r : Reg)
  | mem (offset : Nat)
  deriving DecidableEq, Repr

structure CCValAssign where
  valVT : MVT
  locVT : MVT
  loc : Loc
  deriving DecidableEq, Repr

structure CCState where
  usedRegs : List Reg := []
  stackOffset : Nat := 0
  locs : List CCValAssign := []
  deriving DecidableEq, Repr

namespace CCState

/-- `AllocateReg`: the first register of the list that is not allocated. -/
def allocateReg (st : CCState) (regs : List Reg) : Option Reg × CCState :=
  match regs.find? (· ∉ st.usedRegs) with
  | none => (none, st)
  | some r => (some r, { st with usedRegs := r :: st.usedRegs })

/-- `AllocateStack`; the offset is an `unsigned`. -/
def allocateStack (st : CCState) (size align : Nat) : Nat × CCState :=
  let offset := (st.stackOffset + (align - 1)) % 2 ^ 32 / align * align
  (offset, { st with stackOffset := (offset + size) % 2 ^ 32 })

def addLoc (st : CCState) (va : CCValAssign) : CCState := { st with locs := st.locs ++ [va] }

end CCState

/-- The registers of `CC_Rigel`. -/
def argRegs : List Reg := [.A0, .A1, .A2, .A3, .A4, .A5, .A6, .A7]

/-- `CCIfType<[i8, i16], CCPromoteToType<i32>>`. -/
def promote (vt : MVT) : MVT := if vt = .i8 ∨ vt = .i16 then .i32 else vt

/-- `CC_Rigel`: promote, then a register, then the stack. No flag has a part
in it. -/
def ccRigel (valVT : MVT) (_flags : ArgFlags) (st : CCState) : CCState :=
  let locVT := promote valVT
  match st.allocateReg argRegs with
  | (some r, st) => st.addLoc ⟨valVT, locVT, .reg r⟩
  | (none, st) =>
    let (offset, st) := st.allocateStack 4 4
    st.addLoc ⟨valVT, locVT, .mem offset⟩

/-- `AnalyzeCallOperands` and `AnalyzeFormalArguments`. -/
def analyze (args : List Arg) : CCState := args.foldl (fun st a => ccRigel a.vt a.flags st) {}

/-! ## Where the words go -/

/-- Where word `k` goes. -/
def argLoc (k : Nat) : Loc :=
  match argRegs[k]? with
  | some r => .reg r
  | none => .mem (4 * (k - 8) % 2 ^ 32)

/-- `k` words are assigned. -/
structure Assigned (k : Nat) (st : CCState) : Prop where
  usedRegs : ∀ r, r ∈ st.usedRegs ↔ r ∈ argRegs.take k
  stackOffset : st.stackOffset = 4 * (k - 8) % 2 ^ 32

/-- The next word goes where its number says. -/
theorem Assigned.step {k : Nat} {st : CCState} (h : Assigned k st) (vt : MVT) (flags : ArgFlags) :
    Assigned (k + 1) (ccRigel vt flags st) ∧
      (ccRigel vt flags st).locs = st.locs ++ [⟨vt, promote vt, argLoc k⟩] := by
  have hfind : argRegs.find? (· ∉ st.usedRegs) = argRegs[k]? := by
    simp only [h.usedRegs]
    -- which register is next only depends on `k` if it is small
    rcases (by omega : k = 0 ∨ k = 1 ∨ k = 2 ∨ k = 3 ∨ k = 4 ∨ k = 5 ∨ k = 6 ∨ k = 7 ∨ 8 ≤ k) with
      rfl | rfl | rfl | rfl | rfl | rfl | rfl | rfl | hk
    iterate 8 decide
    rw [List.take_of_length_le hk, List.getElem?_eq_none hk]
    decide
  refine ⟨?_, ?_⟩
  · simp only [ccRigel, CCState.allocateReg, hfind]
    cases hr : argRegs[k]? with
    | some r =>
      have hk : k < 8 := (List.getElem?_eq_some_iff.mp hr).1
      refine ⟨fun x => ?_, ?_⟩
      · simp only [CCState.addLoc, List.mem_cons, h.usedRegs, List.take_add_one, hr, Option.toList_some,
          List.mem_append, List.mem_nil_iff, or_false]
        exact or_comm
      · simp only [CCState.addLoc, h.stackOffset]
        omega
    | none =>
      have hk : 8 ≤ k := List.getElem?_eq_none_iff.mp hr
      refine ⟨fun x => ?_, ?_⟩
      · simp only [CCState.addLoc, CCState.allocateStack, h.usedRegs]
        rw [List.take_of_length_le hk, List.take_of_length_le (Nat.le_succ_of_le hk)]
      · simp only [CCState.addLoc, CCState.allocateStack, h.stackOffset]
        omega
  · simp only [ccRigel, CCState.allocateReg, hfind, argLoc]
    cases hr : argRegs[k]? with
    | some r => rfl
    | none =>
      have hk : 8 ≤ k := List.getElem?_eq_none_iff.mp hr
      have hoff : (st.stackOffset + (4 - 1)) % 2 ^ 32 / 4 * 4 = 4 * (k - 8) % 2 ^ 32 := by
        rw [h.stackOffset]
        omega
      simp only [CCState.addLoc, CCState.allocateStack, hoff]

theorem promote_bytes {vt : MVT} : (promote vt).getSizeInBits / 8 = 4 := by cases vt <;> rfl

theorem analyze_append (args : List Arg) (a : Arg) : analyze (args ++ [a]) = ccRigel a.vt a.flags (analyze args) :=
  List.foldl_append

theorem assigned_analyze (args : List Arg) : Assigned args.length (analyze args) := by
  induction args using List.reverseRecOn with
  | nil => exact ⟨fun r => by simp [analyze], rfl⟩
  | append_singleton args a ih =>
    rw [analyze_append, List.length_append]
    exact (ih.step a.vt a.flags).1

/-- Every word goes where its number says. -/
theorem analyze_locs (args : List Arg) :
    (analyze args).locs = args.mapIdx fun k a => ⟨a.vt, promote a.vt, argLoc k⟩ := by
  induction args using List.reverseRecOn with
  | nil => rfl
  | append_singleton args a ih =>
    rw [analyze_append, ((assigned_analyze args).step a.vt a.flags).2, ih, List.mapIdx_concat]

end Rigel
