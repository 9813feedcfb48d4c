import RigelCodegen.Frame.Layout
import RigelCodegen.Lib.Word

/-!
# The finished frame

`adjustRigelStackFrame` appends the slots of `FP` and `RA` to the frame that
`PEI` has laid out, and puts in the offsets of incoming arguments. A frame
index then stands for `frameOffset`, where a negative offset is one into the
caller's frame.
-/

namespace Rigel

open Packing Word32

/-- An `int`, of the low 32 bits of a number. -/
def toInt32 (x : Int) : Int := (BitVec.ofInt 32 x).toInt

theorem ofInt_toInt32 (x : Int) : BitVec.ofInt 32 (toInt32 x) = BitVec.ofInt 32 x := BitVec.ofInt_toInt

theorem toInt32_of_lt {x : Int} (h : -2 ^ 31 ≤ x ∧ x < 2 ^ 31) : toInt32 x = x := by
  rw [toInt32, BitVec.toInt_ofInt]
  exact Int.bmod_eq_of_le (by omega) (by omega)

@[simp] theorem toInt32_emod (x : Int) : toInt32 (x % 4294967296) = toInt32 x := by
  rw [toInt32, toInt32, BitVec.toInt_ofInt, BitVec.toInt_ofInt]
  exact Int.emod_bmod ..

theorem toInt32_natMod (n : Nat) : toInt32 (n % 2 ^ 32 : Nat) = toInt32 n := by
  rw [Int.natCast_mod]; exact toInt32_emod n

theorem toInt32_emod_eq (x : Int) : toInt32 x % 2 ^ 32 = x % 2 ^ 32 := by
  rw [toInt32, BitVec.toInt_ofInt]; exact Int.bmod_emod

theorem toInt32_range (x : Int) : -2 ^ 31 ≤ toInt32 x ∧ toInt32 x < 2 ^ 31 :=
  ⟨BitVec.le_toInt _, BitVec.toInt_lt⟩

/-- One of the two slots: an object at the end of the frame, at `stackOffset`. -/
def appendSlot (m : MachineFrameInfo) (stackOffset : Nat) : MachineFrameInfo :=
  let (fi, m) := m.createStackObject 4 4 four_pow false
  m.setObjectOffset fi stackOffset

/-- `adjustRigelStackFrame`. `StackOffset` is an `unsigned`. -/
def adjustRigelStackFrame (mf : MachineFunction) : MachineFunction :=
  let m := mf.functionInfo.adjustStoreVarArgsFI (mf.functionInfo.adjustLoadArgsFI mf.frameInfo)
  let stackOffset := m.stackSize % 2 ^ 32
  let (m, r, top, stackOffset) :=
    if hasFP mf then
      (appendSlot m stackOffset, { mf.functionInfo with fpStackOffset := toInt32 stackOffset },
        toInt32 stackOffset, (stackOffset + 4) % 2 ^ 32)
    else (m, mf.functionInfo, -1, stackOffset)
  let (m, r, top, stackOffset) :=
    if m.hasCalls then
      (appendSlot m stackOffset, { r with raStackOffset := toInt32 stackOffset },
        toInt32 stackOffset, (stackOffset + 4) % 2 ^ 32)
    else (m, r, top, stackOffset)
  let stackOffset := (stackOffset + (stackAlignment - 1)) % 2 ^ 32 / stackAlignment * stackAlignment
  let m := { m with stackSize := stackOffset }
  let r := if 0 ≤ top then { r with cpuTopSavedRegOff := toInt32 (top - stackOffset) } else r
  { mf with frameInfo := m, functionInfo := r }

/-- The offset that `eliminateFrameIndex` takes a frame index for, from the
frame register: a negative one is decoded as an offset into the caller's
frame. -/
def frameOffset (mf : MachineFunction) (fi : Int) : Int :=
  let stackSize := toInt32 mf.frameInfo.stackSize
  let spOffset := toInt32 (mf.frameInfo.getObjectOffset fi)
  if spOffset < 0 then toInt32 (stackSize + -(spOffset + 4)) else spOffset

theorem toInt32_frameOffset (mf : MachineFunction) (fi : Int) : toInt32 (frameOffset mf fi) = frameOffset mf fi := by
  unfold frameOffset
  simp only []
  split
  · rw [toInt32, ofInt_toInt32, ← toInt32]
  · rw [toInt32, ofInt_toInt32, ← toInt32]

/-- The offset a frame index stands for: one that is negative, in 64 bits, is
an offset into the caller's frame. -/
def trueOffset (mf : MachineFunction) (fi : Int) : Int :=
  if mf.frameInfo.getObjectOffset fi < 0 then mf.frameInfo.stackSize + -(mf.frameInfo.getObjectOffset fi + 4)
  else mf.frameInfo.getObjectOffset fi

/-- An offset that an `int` holds is decoded right. -/
theorem frameOffset_eq_trueOffset {mf : MachineFunction} {fi : Int}
    (h : -2 ^ 31 ≤ mf.frameInfo.getObjectOffset fi ∧ mf.frameInfo.getObjectOffset fi < 2 ^ 31) :
    BitVec.ofInt 32 (frameOffset mf fi) = BitVec.ofInt 32 (trueOffset mf fi) := by
  simp only [frameOffset, trueOffset, toInt32_of_lt h]
  split
  · rw [ofInt_toInt32, BitVec.ofInt_add, ofInt_toInt32, BitVec.ofInt_add]
  · rfl

/-- The bytes of the slots of `FP`, if there is a frame pointer, and `RA`, if
there are calls. -/
def fpBytes (mf : MachineFunction) : Nat := if hasFP mf then 4 else 0

def raBytes (mf : MachineFunction) : Nat := if mf.frameInfo.hasCalls then 4 else 0

theorem fpBytes_cases (mf : MachineFunction) : fpBytes mf = 0 ∨ fpBytes mf = 4 := by unfold fpBytes; split <;> simp

theorem raBytes_cases (mf : MachineFunction) : raBytes mf = 0 ∨ raBytes mf = 4 := by unfold raBytes; split <;> simp

/-- The frame with the recorded offsets in place. -/
def argsInPlace (mf : MachineFunction) : MachineFrameInfo :=
  RigelFunctionInfo.adjustFI mf.functionInfo.recorded mf.frameInfo

theorem argsInPlace_eq (mf : MachineFunction) :
    mf.functionInfo.adjustStoreVarArgsFI (mf.functionInfo.adjustLoadArgsFI mf.frameInfo) = argsInPlace mf :=
  (List.foldl_append ..).symm

/-- Only objects change. -/
theorem adjustFI_eq (hs : List RigelFIHolder) (m : MachineFrameInfo) :
    ∃ fs os, RigelFunctionInfo.adjustFI hs m = { m with fixedObjects := fs, objects := os } := by
  induction hs generalizing m with
  | nil => exact ⟨_, _, rfl⟩
  | cons x hs ih =>
    obtain ⟨fs, os, h⟩ := ih (m.setObjectOffset x.fi x.spOffset)
    exact ⟨fs, os, by rw [show RigelFunctionInfo.adjustFI (x :: hs) m = _ from h]; cases x.fi <;> rfl⟩

theorem modify_length_append {α : Type} (l : List α) (x : α) (f : α → α) :
    (l ++ [x]).modify l.length f = l ++ [f x] := by
  induction l with
  | nil => rfl
  | cons y l ih => simp [ih]

/-- A slot, as it is appended. -/
def slot (stackOffset : Nat) : StackObject := ⟨stackOffset, 4, 4, false, four_pow⟩

theorem appendSlot_eq (m : MachineFrameInfo) (stackOffset : Nat) : appendSlot m stackOffset =
    { m with objects := m.objects ++ [slot stackOffset], maxAlignment := max m.maxAlignment 4 } := by
  simp only [appendSlot, MachineFrameInfo.createStackObject, MachineFrameInfo.setObjectOffset,
    MachineFrameInfo.mk.injEq, true_and, and_true]
  exact modify_length_append ..

section Adjust

variable (mf : MachineFunction)

theorem stackSize_argsInPlace : (argsInPlace mf).stackSize = mf.frameInfo.stackSize := by
  obtain ⟨_, _, h⟩ := adjustFI_eq mf.functionInfo.recorded mf.frameInfo
  rw [argsInPlace, h]

theorem hasCalls_argsInPlace : (argsInPlace mf).hasCalls = mf.frameInfo.hasCalls := by
  obtain ⟨_, _, h⟩ := adjustFI_eq mf.functionInfo.recorded mf.frameInfo
  rw [argsInPlace, h]

theorem stackSize_adjust : (adjustRigelStackFrame mf).frameInfo.stackSize =
    (mf.frameInfo.stackSize + fpBytes mf + raBytes mf + 3) % 2 ^ 32 / 4 * 4 := by
  simp only [adjustRigelStackFrame, argsInPlace_eq, stackSize_argsInPlace, fpBytes, raBytes, stackAlignment]
  cases hasFP mf <;> simp [appendSlot_eq, hasCalls_argsInPlace] <;> split <;> simp

theorem objects_adjust : (adjustRigelStackFrame mf).frameInfo.objects =
    (argsInPlace mf).objects ++ (if hasFP mf then [slot (mf.frameInfo.stackSize % 2 ^ 32)] else []) ++
      (if mf.frameInfo.hasCalls then [slot ((mf.frameInfo.stackSize + fpBytes mf) % 2 ^ 32)] else []) := by
  simp only [adjustRigelStackFrame, argsInPlace_eq, stackSize_argsInPlace, fpBytes]
  cases hasFP mf <;> simp [appendSlot_eq, hasCalls_argsInPlace] <;> split <;> simp

theorem fixedObjects_adjust :
    (adjustRigelStackFrame mf).frameInfo.fixedObjects = (argsInPlace mf).fixedObjects := by
  simp only [adjustRigelStackFrame, argsInPlace_eq, stackSize_argsInPlace]
  cases hasFP mf <;> simp [appendSlot_eq, hasCalls_argsInPlace] <;> split <;> rfl

theorem fpStackOffset_adjust (h : hasFP mf = true) :
    (adjustRigelStackFrame mf).functionInfo.fpStackOffset = toInt32 mf.frameInfo.stackSize := by
  simp only [adjustRigelStackFrame, argsInPlace_eq, stackSize_argsInPlace, h, if_true, appendSlot_eq]
  split <;> split <;> simp

theorem raStackOffset_adjust (h : mf.frameInfo.hasCalls = true) :
    (adjustRigelStackFrame mf).functionInfo.raStackOffset =
      toInt32 (mf.frameInfo.stackSize + fpBytes mf : Nat) := by
  simp only [adjustRigelStackFrame, argsInPlace_eq, stackSize_argsInPlace, fpBytes]
  cases hasFP mf <;> simp [appendSlot_eq, hasCalls_argsInPlace, h] <;> split <;> simp

/-- The flags of a function, and its frame register, stay. -/
theorem adjust_others : ∃ fs os a n, (adjustRigelStackFrame mf).frameInfo =
    { mf.frameInfo with fixedObjects := fs, objects := os, maxAlignment := a, stackSize := n } := by
  obtain ⟨fs, os, h⟩ := adjustFI_eq mf.functionInfo.recorded mf.frameInfo
  simp only [adjustRigelStackFrame, argsInPlace_eq]
  rw [argsInPlace, h]
  cases hasFP mf <;> simp [appendSlot_eq] <;> split <;> simp

theorem hasFP_adjust : hasFP (adjustRigelStackFrame mf) = hasFP mf := by
  obtain ⟨_, _, _, _, h⟩ := adjust_others mf
  rw [hasFP, h]; rfl

theorem hasCalls_adjust : (adjustRigelStackFrame mf).frameInfo.hasCalls = mf.frameInfo.hasCalls := by
  obtain ⟨_, _, _, _, h⟩ := adjust_others mf
  rw [h]

theorem adjustsStack_adjust : (adjustRigelStackFrame mf).frameInfo.adjustsStack = mf.frameInfo.adjustsStack := by
  obtain ⟨_, _, _, _, h⟩ := adjust_others mf
  rw [h]

end Adjust

/-! ## Recorded offsets -/

theorem getObject_adjustFI {hs : List RigelFIHolder} {fi : Int} (h : fi ∉ hs.map (·.fi)) (m : MachineFrameInfo) :
    (RigelFunctionInfo.adjustFI hs m).getObject fi = m.getObject fi := by
  induction hs generalizing m with
  | nil => rfl
  | cons x hs ih =>
    rw [List.map_cons, List.mem_cons, not_or] at h
    rw [show RigelFunctionInfo.adjustFI (x :: hs) m = RigelFunctionInfo.adjustFI hs _ from rfl, ih h.2,
      MachineFrameInfo.getObject_setObjectOffset, if_neg (Ne.symm h.1)]

/-- A recorded index has the recorded offset in the end. -/
theorem getObjectOffset_adjustFI {hs : List RigelFIHolder} (hn : (hs.map (·.fi)).Nodup) {x : RigelFIHolder}
    (hx : x ∈ hs) {m : MachineFrameInfo} (hm : (m.getObject x.fi).isSome = true) :
    (RigelFunctionInfo.adjustFI hs m).getObjectOffset x.fi = x.spOffset := by
  induction hs generalizing m with
  | nil => cases hx
  | cons y hs ih =>
    rw [List.map_cons, List.nodup_cons] at hn
    rcases List.mem_cons.mp hx with rfl | hx
    · rw [MachineFrameInfo.getObjectOffset, show RigelFunctionInfo.adjustFI (x :: hs) m =
        RigelFunctionInfo.adjustFI hs _ from rfl, getObject_adjustFI hn.1]
      exact (m.getObjectOffset_setObjectOffset hm ..).trans (if_pos rfl)
    · refine ih hn.2 hx ?_
      rw [MachineFrameInfo.getObject_setObjectOffset]
      split <;> simpa using hm

/-- Nothing but the offset of an object changes. -/
theorem alignment_adjustFI {hs : List RigelFIHolder} {m : MachineFrameInfo} {fi : Int} {o : StackObject}
    (h : (RigelFunctionInfo.adjustFI hs m).getObject fi = some o) :
    ∃ x, m.getObject fi = some x ∧ x.alignment = o.alignment := by
  induction hs generalizing m with
  | nil => exact ⟨o, h, rfl⟩
  | cons y hs ih =>
    obtain ⟨x, hx, ha⟩ := ih h
    rw [MachineFrameInfo.getObject_setObjectOffset] at hx
    split at hx
    · obtain ⟨z, hz, rfl⟩ := Option.map_eq_some_iff.mp hx
      exact ⟨z, hz, ha⟩
    · exact ⟨x, hx, ha⟩

namespace MachineFunction.Indexed

variable {mf : MachineFunction} (h : mf.Indexed)
include h

theorem getObjectOffset_recorded {x : RigelFIHolder} (hx : x ∈ mf.functionInfo.recorded) :
    (adjustRigelStackFrame mf).frameInfo.getObjectOffset x.fi = x.spOffset := by
  have := getObjectOffset_adjustFI h.recorded_nodup hx (h.getObject_recorded hx)
  obtain ⟨k, -, hf⟩ := h.recorded_fi x hx
  rw [hf] at this ⊢
  rw [← this]
  simp only [MachineFrameInfo.getObjectOffset, MachineFrameInfo.getObject, fixedObjects_adjust]
  rfl

/-- A recorded word is decoded to where the caller has it. -/
theorem frameOffset_recorded {x : RigelFIHolder} (hx : x ∈ mf.functionInfo.recorded) {w : Nat}
    (hw : x.spOffset = -(4 + 4 * w)) (hlt : 4 * w + 4 ≤ 2 ^ 31) :
    BitVec.ofInt 32 (frameOffset (adjustRigelStackFrame mf) x.fi) =
      BitVec.ofNat 32 ((adjustRigelStackFrame mf).frameInfo.stackSize + 4 * w) := by
  have habove : -(-(4 + 4 * (w : Int)) + 4) = ((4 * w : Nat) : Int) := by omega
  have hoff : toInt32 (-(4 + 4 * w)) = -(4 + 4 * w) := toInt32_of_lt (by omega)
  simp only [frameOffset]
  calc _ = BitVec.ofInt 32 (toInt32 (adjustRigelStackFrame mf).frameInfo.stackSize + -(-(4 + 4 * w) + 4)) := by
        rw [h.getObjectOffset_recorded hx, hw, hoff, if_pos (by omega), ofInt_toInt32]
    _ = BitVec.ofNat 32 (adjustRigelStackFrame mf).frameInfo.stackSize + BitVec.ofNat 32 (4 * w) := by
        rw [BitVec.ofInt_add, ofInt_toInt32, habove, BitVec.ofInt_natCast, BitVec.ofInt_natCast]
    _ = BitVec.ofNat 32 ((adjustRigelStackFrame mf).frameInfo.stackSize + 4 * w) := (BitVec.ofNat_add ..).symm

/-- The locals are not recorded. -/
theorem objects_argsInPlace : (argsInPlace mf).objects = mf.frameInfo.objects := by
  refine List.ext_getElem? fun i => ?_
  refine (getObject_adjustFI (fun hm => ?_) mf.frameInfo : _ = mf.frameInfo.getObject i)
  obtain ⟨x, hx, he⟩ := List.mem_map.mp hm
  obtain ⟨k, -, hf⟩ := h.recorded_fi x hx
  rw [hf] at he
  cases he

/-- An object of the frame as it is laid out stays where it is. -/
theorem getObjectOffset_adjust {i : Nat} (hi : i < mf.frameInfo.objects.length) :
    (adjustRigelStackFrame mf).frameInfo.getObjectOffset i = mf.frameInfo.getObjectOffset i := by
  have hobj : (adjustRigelStackFrame mf).frameInfo.objects[i]? = mf.frameInfo.objects[i]? := by
    rw [objects_adjust, h.objects_argsInPlace, List.append_assoc, List.getElem?_append_left hi]
  exact congrArg (fun o => (Option.map (·.spOffset) o).getD 0) hobj

end MachineFunction.Indexed

/-- `PEI`, with the prologue's part of it. -/
def finishFrame (isPhysRegUsed : Reg → Bool) (mf : MachineFunction) : MachineFunction :=
  adjustRigelStackFrame (layoutFrame isPhysRegUsed mf)

/-- A fixed object of this frame is where it was created. -/
theorem getObjectOffset_finishFrame (isPhysRegUsed : Reg → Bool) {mf : MachineFunction} {k : Nat}
    (hk : Int.negSucc k ∉ mf.functionInfo.recorded.map (·.fi)) :
    (finishFrame isPhysRegUsed mf).frameInfo.getObjectOffset (.negSucc k) =
      mf.frameInfo.getObjectOffset (.negSucc k) := by
  obtain ⟨_, _, _, he⟩ := layoutFrame_others isPhysRegUsed mf
  have hk' : Int.negSucc k ∉ (layoutFrame isPhysRegUsed mf).functionInfo.recorded.map (·.fi) := by rwa [he]
  have := getObject_adjustFI hk' (layoutFrame isPhysRegUsed mf).frameInfo
  simp only [MachineFrameInfo.getObjectOffset, MachineFrameInfo.getObject, finishFrame, fixedObjects_adjust] at this ⊢
  rw [show (argsInPlace (layoutFrame isPhysRegUsed mf)).fixedObjects[k]? = _ from this, he]

/-- A fixed object of the caller's frame is where it was recorded. -/
theorem getObjectOffset_finishFrame_recorded (isPhysRegUsed : Reg → Bool) {mf : MachineFunction} (h : mf.Indexed)
    {x : RigelFIHolder} (hx : x ∈ mf.functionInfo.recorded) :
    (finishFrame isPhysRegUsed mf).frameInfo.getObjectOffset x.fi = x.spOffset := by
  obtain ⟨_, _, _, he⟩ := layoutFrame_others isPhysRegUsed mf
  exact (h.layoutFrame isPhysRegUsed).getObjectOffset_recorded (by rw [he]; exact hx)

/-! ## Sound frames -/

/-- The end of the outgoing arguments, which are the fixed objects that are
not incoming ones. -/
def outgoingEnd (m : MachineFrameInfo) : Nat :=
  (m.fixedObjects.filter fun o => 0 ≤ o.spOffset).foldl (fun e o => max e (o.spOffset + o.size).toNat) 0

/-- The parts of a finished frame. -/
inductive FrameRange where
  | outgoing
  | object (i : Nat)
  | fpSlot
  | raSlot
  deriving DecidableEq, Repr

/-- The bytes of a part, if there is one: `mf` is the frame as laid out, its
objects the callee-saved slots and the locals. -/
def FrameRange.span (mf : MachineFunction) : FrameRange → Option Span
  | outgoing => some ⟨0, outgoingEnd (adjustRigelStackFrame mf).frameInfo⟩
  | object i =>
    if mf.frameInfo.isDeadObjectIndex i then none else some ((adjustRigelStackFrame mf).frameInfo.objectSpan i)
  | fpSlot =>
    if hasFP mf then some ⟨(BitVec.ofInt 32 (adjustRigelStackFrame mf).functionInfo.fpStackOffset).toNat, 4⟩ else none
  | raSlot =>
    if mf.frameInfo.hasCalls then
      some ⟨(BitVec.ofInt 32 (adjustRigelStackFrame mf).functionInfo.raStackOffset).toNat, 4⟩
    else none

/-- The finished frame is sound. -/
structure SoundFrame (mf : MachineFunction) : Prop where
  size_mod : (adjustRigelStackFrame mf).frameInfo.stackSize % 4 = 0
  within : ∀ (r : FrameRange) (s : Span), r.span mf = some s →
    s.Within 0 (adjustRigelStackFrame mf).frameInfo.stackSize
  disjoint : ∀ (r r' : FrameRange) (s s' : Span), r.span mf = some s → r'.span mf = some s' → r ≠ r' → s.Disjoint s'
  /-- An incoming word, or a home slot, is as far behind the frame as recorded. -/
  incoming : ∀ x ∈ mf.functionInfo.recorded, ∀ w : Nat, x.spOffset = -(4 + 4 * w) → 4 * w + 4 ≤ 2 ^ 31 →
    (adjustRigelStackFrame mf).frameInfo.stackSize + 4 * w < 2 ^ 32 →
    (BitVec.ofInt 32 (frameOffset (adjustRigelStackFrame mf) x.fi)).toNat =
      (adjustRigelStackFrame mf).frameInfo.stackSize + 4 * w

theorem le_foldl_max {α : Type} (f : α → Nat) (l : List α) (e : Nat) :
    e ≤ l.foldl (fun e o => max e (f o)) e ∧ ∀ o ∈ l, f o ≤ l.foldl (fun e o => max e (f o)) e := by
  induction l generalizing e with
  | nil => exact ⟨Nat.le_refl _, nofun⟩
  | cons x l ih =>
    obtain ⟨he, ho⟩ := ih (max e (f x))
    refine ⟨(Nat.le_max_left ..).trans he, fun o hm => ?_⟩
    rcases List.mem_cons.mp hm with rfl | hm
    · exact (Nat.le_max_right ..).trans he
    · exact ho o hm

theorem foldl_max_le {α : Type} {f : α → Nat} {l : List α} {e b : Nat} (he : e ≤ b) (h : ∀ o ∈ l, f o ≤ b) :
    l.foldl (fun e o => max e (f o)) e ≤ b := by
  induction l generalizing e with
  | nil => exact he
  | cons x l ih =>
    exact ih (Nat.max_le.mpr ⟨he, h x (List.mem_cons_self ..)⟩) fun o ho => h o (List.mem_cons_of_mem _ ho)

theorem fixedEnd_eq (m : MachineFrameInfo) : fixedEnd m =
    m.fixedObjects.reverse.foldl (fun off o => max off (o.spOffset + o.size).toNat) 0 := by
  have hf : (fun (off : Nat) (o : StackObject) =>
      if (off : Int) < o.spOffset + o.size then (o.spOffset + o.size).toNat else off) =
      fun off o => max off (o.spOffset + o.size).toNat := by
    funext off o
    split <;> omega
  rw [fixedEnd, hf]

theorem fixedEnd_le {m : MachineFrameInfo} {n : Nat} (h : ∀ o ∈ m.fixedObjects, (o.spOffset + o.size).toNat ≤ n) :
    fixedEnd m ≤ n := by
  rw [fixedEnd_eq]
  exact foldl_max_le (Nat.zero_le n) fun o ho => h o (List.mem_reverse.mp ho)

theorem le_fixedEnd {m : MachineFrameInfo} {o : StackObject} (ho : o ∈ m.fixedObjects) :
    (o.spOffset + o.size).toNat ≤ fixedEnd m := by
  rw [fixedEnd_eq]
  exact (le_foldl_max (fun o : StackObject => (o.spOffset + o.size).toNat) _ 0).2 o (List.mem_reverse.mpr ho)

/-- Where a part lies: the outgoing arguments, then the objects, then the slot
of `FP`, then that of `RA`. -/
def FrameRange.bounds (mf : MachineFunction) : FrameRange → Nat × Nat
  | outgoing => (0, fixedEnd mf.frameInfo)
  | object _ => (fixedEnd mf.frameInfo, mf.frameInfo.stackSize)
  | fpSlot => (mf.frameInfo.stackSize, mf.frameInfo.stackSize + fpBytes mf)
  | raSlot => (mf.frameInfo.stackSize + fpBytes mf, mf.frameInfo.stackSize + fpBytes mf + raBytes mf)

namespace MachineFunction.LaidOut

variable {mf : MachineFunction} (h : mf.LaidOut)
include h

/-- A fixed object that is not in the caller's frame is as it was laid out. -/
theorem outgoingEnd_le : outgoingEnd (adjustRigelStackFrame mf).frameInfo ≤ fixedEnd mf.frameInfo := by
  refine foldl_max_le (Nat.zero_le _) fun o ho => ?_
  rw [fixedObjects_adjust, List.mem_filter, decide_eq_true_eq] at ho
  obtain ⟨k, hk⟩ := List.mem_iff_getElem?.mp ho.1
  have hk' : (argsInPlace mf).getObject (.negSucc k) = some o := hk
  refine le_fixedEnd (List.mem_of_getElem? (?_ : _[k]? = _))
  by_cases hm : Int.negSucc k ∈ mf.functionInfo.recorded.map (·.fi)
  · obtain ⟨x, hx, hf⟩ := List.mem_map.mp hm
    obtain ⟨w, hw⟩ := h.created.recorded_offset x hx
    have := getObjectOffset_adjustFI h.created.indexed.recorded_nodup hx (h.created.indexed.getObject_recorded hx)
    rw [hf, MachineFrameInfo.getObjectOffset, show RigelFunctionInfo.adjustFI _ _ = argsInPlace mf from rfl, hk',
      hw] at this
    have h0 := ho.2
    simp only [Option.map_some, Option.getD_some] at this
    omega
  · exact (getObject_adjustFI hm mf.frameInfo).symm.trans hk

theorem objectSpan_adjust {i : Nat} (hi : mf.frameInfo.isDeadObjectIndex i = false) :
    (adjustRigelStackFrame mf).frameInfo.objectSpan i = mf.frameInfo.objectSpan i := by
  have hobj : (adjustRigelStackFrame mf).frameInfo.objects[i]? = mf.frameInfo.objects[i]? := by
    rw [objects_adjust, h.created.indexed.objects_argsInPlace, List.append_assoc,
      List.getElem?_append_left (lt_of_not_dead hi)]
  simp only [MachineFrameInfo.objectSpan, MachineFrameInfo.getObjectOffset, MachineFrameInfo.getObject,
    MachineFrameInfo.getObjectSize, hobj]

/-- The size is a multiple of 4 already, so the slots are all that is added. -/
theorem stackSize_adjust_of_lt (hlt : mf.frameInfo.stackSize + fpBytes mf + raBytes mf < 2 ^ 32) :
    (adjustRigelStackFrame mf).frameInfo.stackSize = mf.frameInfo.stackSize + fpBytes mf + raBytes mf ∧
      mf.frameInfo.stackSize % 4 = 0 := by
  have h4 : mf.frameInfo.stackSize % 4 = 0 := Nat.mod_eq_zero_of_dvd (h.four_dvd)
  have hf := fpBytes_cases mf
  have hr := raBytes_cases mf
  rw [stackSize_adjust]
  omega

/-- Every part is within its bounds. -/
theorem span_within (hlt : mf.frameInfo.stackSize + fpBytes mf + raBytes mf < 2 ^ 32) {r : FrameRange} {s : Span}
    (hs : r.span mf = some s) : s.Within (r.bounds mf).1 (r.bounds mf).2 := by
  have hword {n : Nat} (hn : n < 2 ^ 32) : (BitVec.ofInt 32 (toInt32 n)).toNat = n := by
    rw [ofInt_toInt32, BitVec.ofInt_natCast, BitVec.toNat_ofNat, Nat.mod_eq_of_lt hn]
  cases r with
  | outgoing =>
    obtain rfl := Option.some.inj hs
    exact ⟨Nat.le_refl _, (Nat.zero_add _).trans_le h.outgoingEnd_le⟩
  | object i =>
    simp only [FrameRange.span] at hs
    split at hs
    · cases hs
    · rename_i hi
      obtain rfl := Option.some.inj hs
      rw [h.objectSpan_adjust (by simpa using hi)]
      exact h.within i (by simpa using hi)
  | fpSlot =>
    simp only [FrameRange.span] at hs
    split at hs
    · rename_i hfp
      obtain rfl := Option.some.inj hs
      rw [fpStackOffset_adjust _ hfp, hword (by omega)]
      simp [FrameRange.bounds, Span.Within, Span.stop, fpBytes, hfp]
    · cases hs
  | raSlot =>
    simp only [FrameRange.span] at hs
    split at hs
    · rename_i hra
      obtain rfl := Option.some.inj hs
      rw [raStackOffset_adjust _ hra, hword (by omega)]
      simp [FrameRange.bounds, Span.Within, Span.stop, raBytes, hra]
    · cases hs

theorem soundFrame (hlt : mf.frameInfo.stackSize + fpBytes mf + raBytes mf < 2 ^ 32) : SoundFrame mf := by
  obtain ⟨hsize, h4⟩ := h.stackSize_adjust_of_lt hlt
  refine ⟨?_, fun r s hs => ?_, fun r r' s s' hs hs' hne => ?_, fun x hx w hw hw' hlt' => ?_⟩
  · rw [stackSize_adjust]; omega
  · have hb := h.span_within hlt hs
    have := h.fixedEnd_le
    refine hb.mono (Nat.zero_le _) ?_
    rw [hsize]
    cases r <;> simp only [FrameRange.bounds] <;> omega
  · have hb := h.span_within hlt hs
    have hb' := h.span_within hlt hs'
    have := h.fixedEnd_le
    simp only [Span.Within] at hb hb'
    cases r <;> cases r' <;> simp only [FrameRange.bounds] at hb hb' <;>
      first | exact absurd rfl hne | exact .inl (by omega) | exact .inr (by omega) | skip
    -- two objects: as the allocator left them
    rename_i i j
    simp only [FrameRange.span] at hs hs'
    split at hs
    · cases hs
    · split at hs'
      · cases hs'
      · rename_i hi hj
        obtain rfl := Option.some.inj hs
        obtain rfl := Option.some.inj hs'
        rw [h.objectSpan_adjust (by simpa using hi), h.objectSpan_adjust (by simpa using hj)]
        exact h.disjoint i j (by simpa using hi) (by simpa using hj) fun e => hne (e ▸ rfl)
  · rw [h.created.indexed.frameOffset_recorded hx hw hw', BitVec.toNat_ofNat, Nat.mod_eq_of_lt hlt']

end MachineFunction.LaidOut

/-- Frame layout is sound for every frame of less than 2³² bytes, the slots of
`FP` and `RA` included. -/
theorem frame_sound (F : Frame) (isPhysRegUsed : Reg → Bool)
    (hlt : (layoutFrame isPhysRegUsed F.mf).frameInfo.stackSize + fpBytes (layoutFrame isPhysRegUsed F.mf) +
      raBytes (layoutFrame isPhysRegUsed F.mf) < 2 ^ 32) :
    SoundFrame (layoutFrame isPhysRegUsed F.mf) :=
  (layoutFrame_laidOut isPhysRegUsed F.created).soundFrame hlt

/-- A frame with an outgoing word, an incoming one, a home slot, a local of 8
bytes, a variable-sized object and calls. -/
def smallFrame : Frame where
  mf :=
    let mf := ((({} : MachineFunction).outgoing 4 28).loadArg 4 (-(4 + 4 * (8 : Nat)))).storeVarArg 7
    let m := (mf.frameInfo.createStackObject 8 8 ⟨3, by decide, rfl⟩ false).2
    let m := (m.createVariableSizedObject 4 four_pow).2
    { mf with frameInfo := { m with hasCalls := true, adjustsStack := true, maxCallFrameSize := 4 } }
  created := (((((MachineFunction.Created.empty false).outgoing 4 (by decide : (0 : Int) ≤ 28)).loadArg 8).storeVarArg
    7).createStackObject 8 ⟨3, by decide, rfl⟩ false).createVariableSizedObject four_pow |>.setFlags true true 4

theorem frame_sound_smallFrame : SoundFrame (layoutFrame (· == .S0) smallFrame.mf) :=
  frame_sound smallFrame (· == .S0) (by decide)

/-- Two locals of 2³¹ bytes, and calls. -/
def hugeFrame : Frame where
  mf :=
    let m := (({} : MachineFrameInfo).createStackObject (2 ^ 31) 4 four_pow false).2
    let m := (m.createStackObject (2 ^ 31) 4 four_pow false).2
    { frameInfo := { m with hasCalls := true, adjustsStack := true, maxCallFrameSize := 0 } }
  created := (((MachineFunction.Created.empty false).createStackObject (2 ^ 31) four_pow false).createStackObject
    (2 ^ 31) four_pow false).setFlags true true 0

/-- The size is cut to 32 bits, and the slot of `RA` lands in the first local. -/
theorem hugeFrame_not_sound : ¬SoundFrame (layoutFrame (fun _ => false) hugeFrame.mf) := by
  intro h
  have := h.disjoint (.object 0) .raSlot ⟨0, 2 ^ 31⟩ ⟨0, 4⟩ (by decide) (by decide) (by decide)
  revert this
  decide

end Rigel
