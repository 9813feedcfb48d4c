import RigelCodegen.Call.Convention
import RigelCodegen.Frame.Elimination
import Mathlib.Logic.Relation

/-!
# Calls and formal arguments

`LowerCall` puts the words of a call in registers and in fixed objects of the
caller's frame; `LowerFormalArguments` takes them from the same registers, and
from objects whose offsets are recorded as negative ones, which stand for the
caller's frame. Both are followed by whatever else is lowered (`Later`) and by
the layout of the frame.

The caller's objects are addressed from its frame register and the callee's
from `SP` at the call; `args_agree_iff` says when the two addresses are the
same.
-/

namespace Rigel

open Word32

/-- Where an argument word is, in code: in a register or at a frame index. -/
inductive ArgPlace where
  | reg (r : Reg)
  | stack (fi : Int)
  deriving DecidableEq, Repr

/-- `FirstStackArgLoc`: a variadic call has 32 bytes for the registers. -/
def firstStackArgLoc (isVarArg : Bool) : Nat := if isVarArg then 32 else 0

/-- A turn of the loop of `LowerCall`. `LastArgStackLoc` is an `int`. -/
def lowerCallLoc (first : Nat) (p : MachineFunction × List ArgPlace) (va : CCValAssign) :
    MachineFunction × List ArgPlace :=
  match va.loc with
  | .reg r => (p.1, p.2 ++ [.reg r])
  | .mem locMemOffset =>
    let lastArgStackLoc := toInt32 (first + locMemOffset : Nat)
    let (fi, m) := p.1.frameInfo.createFixedObject (va.valVT.getSizeInBits / 8) lastArgStackLoc
    ({ p.1 with frameInfo := m }, p.2 ++ [.stack fi])

/-- `LowerCall`: the objects of the outgoing words, and where each word goes.
A variadic call makes room for the registers, too. -/
def lowerCall (mf : MachineFunction) (isVarArg : Bool) (outs : List Arg) : MachineFunction × List ArgPlace :=
  let mf := if isVarArg then mf.outgoing 4 (4 * 7) else mf
  (analyze outs).locs.foldl (lowerCallLoc (firstStackArgLoc isVarArg)) (mf, [])

/-- What `LowerFormalArguments` leaves: the places its words come from, and
the registers it stores for `va_arg`, with their home slots. -/
structure Formals where
  mf : MachineFunction
  places : List ArgPlace := []
  argRegEnd : Option Reg := none
  homes : List (Reg × Int) := []

/-- A turn of the loop of `LowerFormalArguments`. The offset that is recorded
is an `int`. -/
def lowerFormalLoc (first : Nat) (p : Formals) (va : CCValAssign) : Formals :=
  match va.loc with
  | .reg r => { p with places := p.places ++ [.reg r], argRegEnd := some r }
  | .mem locMemOffset =>
    let argSize := va.locVT.getSizeInBits / 8
    let fi := (p.mf.frameInfo.createFixedObject argSize 0).1
    { p with
      mf := p.mf.loadArg argSize (toInt32 (-(argSize + (first + locMemOffset) : Nat)))
      places := p.places ++ [.stack fi]
      argRegEnd := none }

/-- A turn of the loop over the registers of variadic words. -/
def storeVarArgLoc (p : Formals) (x : Reg × Nat) : Formals :=
  let (r, stackLoc) := x
  let fi := (p.mf.frameInfo.createFixedObject 4 0).1
  { p with mf := p.mf.storeVarArg stackLoc, homes := p.homes ++ [(r, fi)] }

def MachineFunction.setVarArgsFrameIndex (mf : MachineFunction) (fi : Int) : MachineFunction :=
  { mf with functionInfo := { mf.functionInfo with varArgsFrameIndex := fi } }

/-- `++ArgRegEnd; ArgRegEnd <= Rigel::A7`. -/
def regsAfter (argRegEnd : Reg) : List Reg := (argRegs.dropWhile (· ≠ argRegEnd)).drop 1

/-- `LowerFormalArguments`. The registers after the last argument, up to
`A7`, are stored if it is in a register. -/
def lowerFormalArguments (mf : MachineFunction) (isVarArg : Bool) (ins : List Arg) : Formals :=
  let argLocs := (analyze ins).locs
  let p := argLocs.foldl (lowerFormalLoc (firstStackArgLoc isVarArg)) { mf := mf.setVarArgsFrameIndex 0 }
  let regs := if isVarArg then p.argRegEnd.elim [] regsAfter else []
  (regs.zipIdx argLocs.length).foldl storeVarArgLoc p

/-! ## Where the words are -/

/-- Where word `k` is, if the next fixed object is object `b`. -/
def argPlace (b k : Nat) : ArgPlace :=
  match argRegs[k]? with
  | some r => .reg r
  | none => .stack (.negSucc (b + (k - 8)))

theorem argPlace_of_le (b : Nat) {k : Nat} (h : 8 ≤ k) : argPlace b k = .stack (.negSucc (b + (k - 8))) := by
  rw [argPlace, List.getElem?_eq_none h]

theorem toInt32_add_mod (a b : Nat) : toInt32 ((a + b % 2 ^ 32 : Nat) : Int) = toInt32 ((a + b : Nat) : Int) := by
  rw [toInt32, toInt32, BitVec.ofInt_natCast, BitVec.ofInt_natCast]
  exact congrArg BitVec.toInt (BitVec.eq_of_toNat_eq (by simp only [BitVec.toNat_ofNat]; omega))

theorem toInt32_neg_mod (a b : Nat) : toInt32 (-((a + b % 2 ^ 32 : Nat) : Int)) = toInt32 (-((a + b : Nat) : Int)) := by
  rw [toInt32, toInt32, BitVec.ofInt_neg, BitVec.ofInt_neg, BitVec.ofInt_natCast, BitVec.ofInt_natCast]
  exact congrArg (fun w => BitVec.toInt (-w)) (BitVec.eq_of_toNat_eq (by simp only [BitVec.toNat_ofNat]; omega))

/-- `k` words of a call are lowered, from `mf`: the ones after the eighth have
a fixed object each. -/
structure CallLowered (mf : MachineFunction) (first k : Nat) (p : MachineFunction × List ArgPlace) : Prop where
  places : p.2 = (List.range k).map (argPlace mf.frameInfo.fixedObjects.length)
  mf : ∃ os, p.1 = { mf with
      frameInfo := { mf.frameInfo with fixedObjects := mf.frameInfo.fixedObjects ++ os } } ∧
    os.map (·.spOffset) = (List.range (k - 8)).map (fun j => toInt32 (first + 4 * j : Nat)) ∧ ∀ o ∈ os, 0 < o.size

theorem MVT.bytes_pos (vt : MVT) : 0 < vt.getSizeInBits / 8 := by cases vt <;> decide

theorem CallLowered.step {mf : MachineFunction} {first k : Nat} {p : MachineFunction × List ArgPlace}
    (h : CallLowered mf first k p) (vt locVT : MVT) :
    CallLowered mf first (k + 1) (lowerCallLoc first p ⟨vt, locVT, argLoc k⟩) := by
  obtain ⟨hplaces, os, hmf, hos, hsize⟩ := h
  obtain ⟨p, places⟩ := p
  obtain rfl : p = _ := hmf
  obtain rfl : places = _ := hplaces
  have hlen : os.length = k - 8 := by simpa using congrArg List.length hos
  cases hr : argRegs[k]? with
  | some r =>
    have hk : k < 8 := (List.getElem?_eq_some_iff.mp hr).1
    simp only [lowerCallLoc, argLoc, hr]
    exact ⟨by rw [List.range_succ, List.map_append, List.map_singleton, argPlace, hr], os, rfl,
      by rw [hos, show k - 8 = 0 by omega, show k + 1 - 8 = 0 by omega], hsize⟩
  | none =>
    have hk : 8 ≤ k := List.getElem?_eq_none_iff.mp hr
    simp only [lowerCallLoc, argLoc, hr, MachineFrameInfo.createFixedObject, List.length_append, hlen]
    refine ⟨by rw [List.range_succ, List.map_append, List.map_singleton, argPlace, hr], _,
      by rw [List.append_assoc], ?_, List.forall_mem_append.mpr ⟨hsize, List.forall_mem_singleton.mpr vt.bytes_pos⟩⟩
    rw [List.map_append, hos, show k + 1 - 8 = k - 8 + 1 by omega, List.range_succ, List.map_append,
      List.map_singleton, List.map_singleton, toInt32_add_mod]

theorem callLowered_foldl (mf : MachineFunction) (first : Nat) (outs : List Arg) :
    CallLowered mf first outs.length ((analyze outs).locs.foldl (lowerCallLoc first) (mf, [])) := by
  rw [analyze_locs]
  induction outs using List.reverseRecOn with
  | nil => exact ⟨rfl, [], by rw [List.append_nil]; rfl, rfl, nofun⟩
  | append_singleton outs a ih =>
    rw [List.mapIdx_concat, List.foldl_append, List.length_append]
    exact ih.step ..

/-- What a variadic call makes room for. -/
def makeRoomForRegs (mf : MachineFunction) (isVarArg : Bool) : MachineFunction :=
  if isVarArg then mf.outgoing 4 (4 * 7) else mf

theorem callLowered (mf : MachineFunction) (isVarArg : Bool) (outs : List Arg) :
    CallLowered (makeRoomForRegs mf isVarArg) (firstStackArgLoc isVarArg) outs.length (lowerCall mf isVarArg outs) :=
  callLowered_foldl ..

/-- A fixed object with the dummy offset. -/
def StackObject.IsDummy (o : StackObject) : Prop := o.spOffset = 0 ∧ o.size = 4

/-- `k` formal arguments are lowered, from `mf`. -/
structure FormalsLowered (mf : MachineFunction) (first k : Nat) (p : Formals) : Prop where
  places : p.places = (List.range k).map (argPlace mf.frameInfo.fixedObjects.length)
  argRegEnd : p.argRegEnd = if k = 0 then none else argRegs[k - 1]?
  homes : p.homes = []
  mf : ∃ os r, p.mf = { mf with
      frameInfo := { mf.frameInfo with fixedObjects := mf.frameInfo.fixedObjects ++ os }, functionInfo := r } ∧
    os.length = k - 8 ∧ (∀ o ∈ os, o.IsDummy) ∧ r = { mf.functionInfo with
      fnLoadArgs := mf.functionInfo.fnLoadArgs ++ (List.range (k - 8)).map fun j =>
        ⟨.negSucc (mf.frameInfo.fixedObjects.length + j), toInt32 (-(4 + first + 4 * j : Nat))⟩ }

theorem FormalsLowered.step {mf : MachineFunction} {first k : Nat} {p : Formals}
    (h : FormalsLowered mf first k p) (vt : MVT) :
    FormalsLowered mf first (k + 1) (lowerFormalLoc first p ⟨vt, promote vt, argLoc k⟩) := by
  obtain ⟨hplaces, hend, hhomes, os, r, hmf, hos, hdummy, hr⟩ := h
  obtain ⟨p, places, argRegEnd, homes⟩ := p
  simp only at hplaces hend hhomes hmf
  subst hmf hplaces hend hhomes hr
  cases hr : argRegs[k]? with
  | some r =>
    have hk : k < 8 := (List.getElem?_eq_some_iff.mp hr).1
    simp only [lowerFormalLoc, argLoc, hr]
    refine ⟨?_, ?_, rfl, os, _, rfl, by omega, hdummy, ?_⟩
    · rw [List.range_succ, List.map_append, List.map_singleton, argPlace, hr]
    · rw [if_neg (Nat.succ_ne_zero k), Nat.add_sub_cancel, hr]
    · rw [show k - 8 = 0 by omega, show k + 1 - 8 = 0 by omega]
  | none =>
    have hk : 8 ≤ k := List.getElem?_eq_none_iff.mp hr
    simp only [lowerFormalLoc, argLoc, hr, promote_bytes, MachineFunction.loadArg,
      MachineFrameInfo.createFixedObject, List.length_append, hos, RigelFunctionInfo.recordLoadArgsFI]
    refine ⟨?_, ?_, rfl, _, _, by rw [List.append_assoc],
        by simp only [List.length_append, List.length_singleton, hos]; omega,
      List.forall_mem_append.mpr ⟨hdummy, List.forall_mem_singleton.mpr ⟨rfl, rfl⟩⟩, ?_⟩
    · rw [List.range_succ, List.map_append, List.map_singleton, argPlace, hr]
    · rw [if_neg (Nat.succ_ne_zero k), Nat.add_sub_cancel, hr]
    · have hk : k + 1 - 8 = k - 8 + 1 := by omega
      rw [hk, List.range_succ, List.map_append, List.map_singleton, ← List.append_assoc, ← Nat.add_assoc 4,
        toInt32_neg_mod]

theorem formalsLowered_foldl (mf : MachineFunction) (first : Nat) (ins : List Arg) :
    FormalsLowered mf first ins.length ((analyze ins).locs.foldl (lowerFormalLoc first) { mf }) := by
  rw [analyze_locs]
  induction ins using List.reverseRecOn with
  | nil => exact ⟨rfl, rfl, rfl, [], _, by rw [List.append_nil]; rfl, rfl, nofun, by simp⟩
  | append_singleton ins a ih =>
    rw [List.mapIdx_concat, List.foldl_append, List.length_append]
    exact ih.step ..

/-- The registers `rs` are stored, from `p₀`: they get a fixed object each. -/
structure HomesLowered (p₀ : Formals) (stackLoc : Nat) (rs : List Reg) (p : Formals) : Prop where
  places : p.places = p₀.places
  homes : p.homes =
    p₀.homes ++ rs.mapIdx fun j r => (r, Int.negSucc (p₀.mf.frameInfo.fixedObjects.length + j))
  mf : ∃ os r, p.mf = { p₀.mf with
      frameInfo := { p₀.mf.frameInfo with fixedObjects := p₀.mf.frameInfo.fixedObjects ++ os }, functionInfo := r } ∧
    os.length = rs.length ∧ (∀ o ∈ os, o.IsDummy) ∧ r = { p₀.mf.functionInfo with
      fnStoreVarArgs := p₀.mf.functionInfo.fnStoreVarArgs ++ (List.range rs.length).map fun j =>
        ⟨.negSucc (p₀.mf.frameInfo.fixedObjects.length + j), -(4 + (stackLoc + j : Nat) * 4)⟩
      varArgsFrameIndex := if p₀.mf.functionInfo.varArgsFrameIndex = 0 ∧ rs ≠ [] then
        .negSucc p₀.mf.frameInfo.fixedObjects.length else p₀.mf.functionInfo.varArgsFrameIndex }

theorem HomesLowered.step {p₀ p : Formals} {stackLoc : Nat} {rs : List Reg} (h : HomesLowered p₀ stackLoc rs p)
    (r : Reg) : HomesLowered p₀ stackLoc (rs ++ [r]) (storeVarArgLoc p (r, stackLoc + rs.length)) := by
  obtain ⟨hplaces, hhomes, os, q, hmf, hos, hdummy, hq⟩ := h
  obtain ⟨p, places, argRegEnd, homes⟩ := p
  simp only at hplaces hhomes hmf
  subst hmf hplaces hhomes hq
  simp only [storeVarArgLoc, MachineFunction.storeVarArg, MachineFrameInfo.createFixedObject, List.length_append, hos,
    RigelFunctionInfo.recordStoreVarArgsFI]
  refine ⟨rfl, ?_, _, _, by rw [List.append_assoc], by simp [hos],
    List.forall_mem_append.mpr ⟨hdummy, List.forall_mem_singleton.mpr ⟨rfl, rfl⟩⟩, ?_⟩
  · rw [List.mapIdx_concat]
    exact List.append_assoc ..
  · rw [List.length_append, List.length_singleton, List.range_succ, List.map_append, List.map_singleton,
      ← List.append_assoc]
    by_cases h0 : p₀.mf.functionInfo.varArgsFrameIndex = 0
    · cases rs <;> simp [h0]
    · simp [h0]

theorem homesLowered (p : Formals) (stackLoc : Nat) (rs : List Reg) :
    HomesLowered p stackLoc rs ((rs.zipIdx stackLoc).foldl storeVarArgLoc p) := by
  induction rs using List.reverseRecOn with
  | nil => exact ⟨rfl, by simp, [], _, by rw [List.append_nil]; rfl, rfl, nofun, by simp⟩
  | append_singleton rs r ih =>
    rw [List.zipIdx_append, List.foldl_append]
    exact ih.step r

/-- The registers of a variadic function that are stored: the ones after the
last argument, if it is in a register. -/
def homeRegs (isVarArg : Bool) (n : Nat) : List Reg := if isVarArg ∧ 1 ≤ n ∧ n ≤ 8 then argRegs.drop n else []

theorem lt_of_lt_homeRegs {isVarArg : Bool} {n j : Nat} (hj : j < (homeRegs isVarArg n).length) :
    isVarArg = true ∧ n + j < 8 := by
  unfold homeRegs at hj
  split at hj
  · rename_i h
    rw [List.length_drop, show argRegs.length = 8 from rfl] at hj
    exact ⟨h.1, by omega⟩
  · cases hj

theorem regsAfter_argRegs {n : Nat} {r : Reg} (hr : argRegs[n]? = some r) : regsAfter r = argRegs.drop (n + 1) := by
  have h : n < 8 := (List.getElem?_eq_some_iff.mp hr).1
  rcases (by omega : n = 0 ∨ n = 1 ∨ n = 2 ∨ n = 3 ∨ n = 4 ∨ n = 5 ∨ n = 6 ∨ n = 7) with
    rfl | rfl | rfl | rfl | rfl | rfl | rfl | rfl <;> obtain rfl := Option.some.inj hr <;> decide

theorem regsAfter_argRegEnd (isVarArg : Bool) (n : Nat) :
    (if isVarArg then (if n = 0 then none else argRegs[n - 1]?).elim [] regsAfter else []) = homeRegs isVarArg n := by
  cases isVarArg with
  | false => rfl
  | true =>
    cases n with
    | zero => rfl
    | succ n =>
      simp only [homeRegs, if_true, Nat.succ_ne_zero, if_false, Nat.add_sub_cancel, true_and]
      cases hr : argRegs[n]? with
      | none =>
        have : 8 ≤ n := List.getElem?_eq_none_iff.mp hr
        rw [if_neg (by omega)]; rfl
      | some r =>
        have : n < 8 := (List.getElem?_eq_some_iff.mp hr).1
        rw [if_pos (by omega)]
        exact regsAfter_argRegs hr

/-- `LowerFormalArguments` is its two loops. -/
theorem formalsLowered (mf : MachineFunction) (isVarArg : Bool) (ins : List Arg) :
    ∃ p, FormalsLowered (mf.setVarArgsFrameIndex 0) (firstStackArgLoc isVarArg) ins.length p ∧
      HomesLowered p ins.length (homeRegs isVarArg ins.length) (lowerFormalArguments mf isVarArg ins) := by
  have hf := formalsLowered_foldl (mf.setVarArgsFrameIndex 0) (firstStackArgLoc isVarArg) ins
  refine ⟨_, hf, ?_⟩
  simp only [lowerFormalArguments, hf.argRegEnd, regsAfter_argRegEnd, show (analyze ins).locs.length = ins.length by
    rw [analyze_locs, List.length_mapIdx]]
  exact homesLowered ..

/-- A function before anything is lowered. -/
def start (disableFramePointerElim : Bool) : MachineFunction := { disableFramePointerElim }

/-- What `LowerFormalArguments` records of `n` words. -/
def formalInfo (isVarArg : Bool) (n : Nat) : RigelFunctionInfo where
  fnLoadArgs := (List.range (n - 8)).map fun j =>
    ⟨.negSucc j, toInt32 (-(4 + firstStackArgLoc isVarArg + 4 * j : Nat))⟩
  fnStoreVarArgs := (List.range (homeRegs isVarArg n).length).map fun j =>
    ⟨.negSucc (n - 8 + j), -(4 + (n + j : Nat) * 4)⟩
  varArgsFrameIndex := if homeRegs isVarArg n = [] then 0 else .negSucc (n - 8)

theorem lowerFormalArguments_spec (b isVarArg : Bool) (ins : List Arg) :
    (lowerFormalArguments (start b) isVarArg ins).places = (List.range ins.length).map (argPlace 0) ∧
      (lowerFormalArguments (start b) isVarArg ins).homes =
        (homeRegs isVarArg ins.length).mapIdx (fun j r => (r, Int.negSucc (ins.length - 8 + j))) ∧
      ∃ os, os.length = ins.length - 8 + (homeRegs isVarArg ins.length).length ∧ (∀ o ∈ os, o.IsDummy) ∧
        (lowerFormalArguments (start b) isVarArg ins).mf = { start b with
          frameInfo := { fixedObjects := os }, functionInfo := formalInfo isVarArg ins.length } := by
  obtain ⟨p, hf, hh⟩ := formalsLowered (start b) isVarArg ins
  obtain ⟨os, r, hmf, hos, hd, rfl⟩ := hf.mf
  obtain ⟨os', r', hmf', hos', hd', rfl⟩ := hh.mf
  have hlen : p.mf.frameInfo.fixedObjects.length = ins.length - 8 := by rw [hmf, ← hos]; rfl
  refine ⟨hh.places.trans hf.places, ?_, os ++ os', by rw [List.length_append, hos, hos'],
    List.forall_mem_append.mpr ⟨hd, hd'⟩, ?_⟩
  · rw [hh.homes, hf.homes, hlen, List.nil_append]
  · rw [hmf', hlen, hmf]
    simp only [start, MachineFunction.setVarArgsFrameIndex, formalInfo, List.nil_append, List.length_nil, Nat.zero_add,
      true_and, ne_eq, ite_not]

/-- The recorded indices are the new objects' own. -/
theorem formals_indexed (b isVarArg : Bool) (ins : List Arg) :
    (lowerFormalArguments (start b) isVarArg ins).mf.Indexed := by
  obtain ⟨-, -, os, hos, -, hmf⟩ := lowerFormalArguments_spec b isVarArg ins
  rw [hmf]
  have hfi : (formalInfo isVarArg ins.length).recorded.map (·.fi) = (List.range os.length).map Int.negSucc := by
    simp only [RigelFunctionInfo.recorded, formalInfo, hos, List.map_append, List.map_map, List.range_add]
    rfl
  constructor
  · intro x hx
    have := List.mem_map_of_mem (f := fun x : RigelFIHolder => x.fi) hx
    rw [hfi] at this
    obtain ⟨k, hk, he⟩ := List.mem_map.mp this
    exact ⟨k, List.mem_range.mp hk, he.symm⟩
  · rw [hfi]
    exact List.nodup_range.map fun _ _ => Int.negSucc.inj

/-- What else is done to a function before its frame is laid out. -/
inductive MachineFunction.Step : MachineFunction → MachineFunction → Prop where
  | outgoing (mf : MachineFunction) (size : Nat) (off : Int) : Step mf (mf.outgoing size off)
  | createStackObject (mf : MachineFunction) (size : Nat) {alignment : Nat} (h : ∃ k < 32, alignment = 2 ^ k)
    (b : Bool) : Step mf { mf with frameInfo := (mf.frameInfo.createStackObject size alignment h b).2 }
  | createVariableSizedObject (mf : MachineFunction) {alignment : Nat} (h : ∃ k < 32, alignment = 2 ^ k) :
    Step mf { mf with frameInfo := (mf.frameInfo.createVariableSizedObject alignment h).2 }
  | removeStackObject (mf : MachineFunction) (i : Nat) :
      Step mf { mf with frameInfo := mf.frameInfo.removeStackObject i }
  | setStackProtectorIndex (mf : MachineFunction) (i : Nat) :
    Step mf { mf with frameInfo := { mf.frameInfo with stackProtectorIdx := some i } }
  | setFlags (mf : MachineFunction) (adjustsStack hasCalls : Bool) (maxCallFrameSize : Nat) :
    Step mf { mf with frameInfo := { mf.frameInfo with adjustsStack, hasCalls, maxCallFrameSize } }

/-- Any of it, in any order. -/
abbrev MachineFunction.Later : MachineFunction → MachineFunction → Prop := Relation.ReflTransGen Step

open MachineFunction (Later)

/-- One more fixed object at most, and nothing recorded. -/
theorem MachineFunction.Step.keeps {mf mf' : MachineFunction} (h : Step mf mf') :
    mf'.functionInfo = mf.functionInfo ∧ mf.frameInfo.fixedObjects <+: mf'.frameInfo.fixedObjects := by
  cases h with
  | outgoing => exact ⟨rfl, List.prefix_append ..⟩
  | _ => exact ⟨rfl, List.prefix_refl _⟩

theorem later_keeps {mf mf' : MachineFunction} (h : Later mf mf') :
    mf'.functionInfo = mf.functionInfo ∧ mf.frameInfo.fixedObjects <+: mf'.frameInfo.fixedObjects := by
  induction h with
  | refl => exact ⟨rfl, List.prefix_refl _⟩
  | tail _ hs ih => exact ⟨hs.keeps.1.trans ih.1, ih.2.trans hs.keeps.2⟩

theorem MachineFunction.Indexed.later {mf mf' : MachineFunction} (h : mf.Indexed) (hl : Later mf mf') : mf'.Indexed :=
  h.mono (congrArg RigelFunctionInfo.recorded (later_keeps hl).1) (later_keeps hl).2

/-- `LowerCall` is one of these things. -/
theorem later_lowerCall (mf : MachineFunction) (isVarArg : Bool) (outs : List Arg) :
    Later mf (lowerCall mf isVarArg outs).1 := by
  have hfold (first : Nat) (vas : List CCValAssign) (p : MachineFunction × List ArgPlace) (hp : Later mf p.1) :
      Later mf (vas.foldl (lowerCallLoc first) p).1 := by
    induction vas generalizing p with
    | nil => exact hp
    | cons va vas ih =>
      refine ih _ ?_
      unfold lowerCallLoc
      split
      · exact hp
      · exact hp.tail (.outgoing ..)
  refine hfold _ _ _ ?_
  split
  · exact .single (.outgoing ..)
  · exact .refl

end Rigel
