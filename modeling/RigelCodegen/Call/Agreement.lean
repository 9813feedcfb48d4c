import RigelCodegen.Call.Lower
import RigelCodegen.Frame.Prologue

/-!
# Argument locations of caller and callee

A call of a signature, in a function (`Caller`), and a function of that
signature (`Callee`), each with anything else lowered before and after and its
frame laid out. `args_agree_iff` says for which words the place that the caller
puts the word in is the one that every callee takes it from.
-/

namespace Rigel

open Word32
open MachineFunction (Later)

/-- The words of a call: the named ones, and the variadic ones if there can be
any. -/
structure Signature where
  isVarArg : Bool
  named : List Arg
  variadic : List Arg
  variadic_eq : isVarArg = false → variadic = []

/-- A signature that is not variadic. -/
def Signature.fixed (named : List Arg) : Signature := ⟨false, named, [], fun _ => rfl⟩

def Signature.outs (sig : Signature) : List Arg := sig.named ++ sig.variadic

/-- A function that makes a call. -/
structure Caller (sig : Signature) where
  disableFramePointerElim : Bool
  own : Signature
  before : MachineFunction
  started : Later (lowerFormalArguments (start disableFramePointerElim) own.isVarArg own.named).mf before
  after : MachineFunction
  later : Later (lowerCall before sig.isVarArg sig.outs).1 after
  isPhysRegUsed : Reg → Bool

/-- A function that is called. -/
structure Callee (sig : Signature) where
  disableFramePointerElim : Bool
  after : MachineFunction
  later : Later (lowerFormalArguments (start disableFramePointerElim) sig.isVarArg sig.named).mf after
  isPhysRegUsed : Reg → Bool

namespace Caller

variable {sig : Signature} (C : Caller sig)

/-- The finished function. -/
def mf : MachineFunction := finishFrame C.isPhysRegUsed C.after

def places : List ArgPlace := (lowerCall C.before sig.isVarArg sig.outs).2

end Caller

namespace Callee

variable {sig : Signature} (D : Callee sig)

def lowered : Formals := lowerFormalArguments (start D.disableFramePointerElim) sig.isVarArg sig.named

/-- The finished function. -/
def mf : MachineFunction := finishFrame D.isPhysRegUsed D.after

/-- The pointers after the prologue, if the function is called with `sp`. -/
def entry (sp : Word) : FramePointers D.mf := ⟨sp - stackWord D.mf, sp - stackWord D.mf, fun _ => rfl⟩

end Callee

/-- The offset of stack word `k`, an `unsigned`. -/
def argOffset (isVarArg : Bool) (k : Nat) : Nat := (firstStackArgLoc isVarArg + 4 * (k - 8)) % 2 ^ 32

/-- The place of the caller for word `k` is the place of every callee: the
same register, or the same address, when the callee is called. -/
def ArgAgree (sig : Signature) (k : Nat) (C : Caller sig) (p : FramePointers C.mf) : Prop :=
  ∀ D : Callee sig, match C.places[k]?, D.lowered.places[k]? with
    | some (.reg r), some (.reg r') => r = r'
    | some (.stack fi), some (.stack fi') => ∀ s s', p.Holds s → (D.entry p.sp).Holds s' →
      fiAddress C.mf fi 0 s = fiAddress D.mf fi' 0 s'
    | _, _ => False

/-! ## Addresses -/

/-- With `SP` at the base, it does not matter which register is used. -/
theorem FramePointers.Holds.fiAddress_of_eq {mf : MachineFunction} {p : FramePointers mf} {s : State} (h : p.Holds s)
    (he : p.sp = p.base) (fi imm : Int) :
    fiAddress mf fi imm s = p.base + BitVec.ofInt 32 (frameOffset mf fi + imm) := by
  simp only [fiAddress, h.frameRegister, h.1, he, ite_self, ofInt_toInt32]

theorem four_dvd_argOffset (isVarArg : Bool) (k : Nat) : argOffset isVarArg k % 4 = 0 := by
  unfold argOffset firstStackArgLoc
  split <;> omega

theorem argOffset_lt (isVarArg : Bool) (k : Nat) : argOffset isVarArg k < 2 ^ 32 := Nat.mod_lt _ (by decide)

theorem toInt32_argOffset (isVarArg : Bool) (k : Nat) :
    toInt32 (firstStackArgLoc isVarArg + 4 * (k - 8) : Nat) = toInt32 (argOffset isVarArg k) := by
  have := toInt32_add_mod 0 (firstStackArgLoc isVarArg + 4 * (k - 8))
  rw [Nat.zero_add, Nat.zero_add] at this
  exact this.symm

theorem toInt32_neg_argOffset (isVarArg : Bool) (k : Nat) :
    toInt32 (-(4 + firstStackArgLoc isVarArg + 4 * (k - 8) : Nat)) = toInt32 (-(4 + argOffset isVarArg k : Nat)) := by
  rw [Nat.add_assoc]
  exact (toInt32_neg_mod ..).symm

/-- An `unsigned` of 2³¹ or more is a negative `int`. -/
theorem toInt32_of_ge {n : Nat} (h : 2 ^ 31 ≤ n) (hlt : n < 2 ^ 32) : toInt32 n = n - 2 ^ 32 := by
  rw [toInt32, BitVec.toInt_ofInt, Int.bmod_def]
  omega

namespace Caller

variable {sig : Signature} (C : Caller sig)

/-- The number of fixed objects before those of the words. -/
def fixedBefore : Nat := (makeRoomForRegs C.before sig.isVarArg).frameInfo.fixedObjects.length

theorem places_getElem? {k : Nat} (hk : k < sig.outs.length) : C.places[k]? = some (argPlace C.fixedBefore k) := by
  rw [places, (callLowered ..).places, List.getElem?_map, List.getElem?_range hk]
  rfl

theorem indexed_before : C.before.Indexed := (formals_indexed ..).later C.started

theorem length_le_fixedBefore : C.before.frameInfo.fixedObjects.length ≤ C.fixedBefore := by
  unfold fixedBefore makeRoomForRegs
  split
  · exact (List.prefix_append ..).length_le
  · exact Nat.le_refl _

theorem functionInfo_after : C.after.functionInfo = C.before.functionInfo := by
  obtain ⟨os, hmf, -⟩ := (callLowered C.before sig.isVarArg sig.outs).mf
  rw [(later_keeps C.later).1, hmf]
  show (makeRoomForRegs C.before sig.isVarArg).functionInfo = _
  unfold makeRoomForRegs
  split <;> rfl

/-- The object of a stack word is still there after all else is lowered. -/
theorem fixedObject {k : Nat} (h8 : 8 ≤ k) (hk : k < sig.outs.length) :
    ∃ o, C.after.frameInfo.fixedObjects[C.fixedBefore + (k - 8)]? = some o ∧
      o.spOffset = toInt32 (argOffset sig.isVarArg k) ∧ 0 < o.size := by
  obtain ⟨os, hmf, hos, hsize⟩ := (callLowered C.before sig.isVarArg sig.outs).mf
  have hlen : k - 8 < os.length := by
    have := congrArg List.length hos
    simp only [List.length_map, List.length_range] at this
    omega
  obtain ⟨rest, hrest⟩ := (later_keeps C.later).2
  have hfixed : (lowerCall C.before sig.isVarArg sig.outs).1.frameInfo.fixedObjects =
      (makeRoomForRegs C.before sig.isVarArg).frameInfo.fixedObjects ++ os := by rw [hmf]
  refine ⟨os[k - 8], ?_, ?_, hsize _ (List.getElem_mem hlen)⟩
  · rw [← hrest, hfixed, List.append_assoc, List.getElem?_append_right (Nat.le_add_right C.fixedBefore (k - 8)),
      show C.fixedBefore + (k - 8) - (makeRoomForRegs C.before sig.isVarArg).frameInfo.fixedObjects.length = k - 8 from
        Nat.add_sub_cancel_left .., List.getElem?_append_left hlen, List.getElem?_eq_getElem hlen]
  · have hoff := congrArg (·[k - 8]?) hos
    simp only [List.getElem?_map, List.getElem?_eq_getElem hlen, Option.map_some,
      List.getElem?_range (show k - 8 < sig.outs.length - 8 by omega), Option.some.injEq] at hoff
    rw [hoff, toInt32_argOffset]

/-- It is at its offset, as an `int`. -/
theorem getObjectOffset_places {k : Nat} (h8 : 8 ≤ k) (hk : k < sig.outs.length) :
    C.mf.frameInfo.getObjectOffset (.negSucc (C.fixedBefore + (k - 8))) = toInt32 (argOffset sig.isVarArg k) := by
  obtain ⟨o, ho, hoff, -⟩ := C.fixedObject h8 hk
  rw [mf, getObjectOffset_finishFrame _ (by
    rw [C.functionInfo_after]
    exact C.indexed_before.fresh (C.length_le_fixedBefore.trans (Nat.le_add_right ..)))]
  simp only [MachineFrameInfo.getObjectOffset, MachineFrameInfo.getObject, ho, Option.map_some, Option.getD_some, hoff]

/-- The address of a stack word, if its offset is not negative as an `int`. -/
theorem fiAddress_of_lt {k : Nat} (h8 : 8 ≤ k) (hk : k < sig.outs.length) (ho : argOffset sig.isVarArg k < 2 ^ 31)
    {p : FramePointers C.mf} {s : State} (hs : p.Holds s) :
    fiAddress C.mf (.negSucc (C.fixedBefore + (k - 8))) 0 s =
      (if isInt16 (argOffset sig.isVarArg k) then p.base else p.sp) + BitVec.ofNat 32 (argOffset sig.isVarArg k) := by
  have hoff : frameOffset C.mf (.negSucc (C.fixedBefore + (k - 8))) = argOffset sig.isVarArg k := by
    rw [frameOffset, C.getObjectOffset_places h8 hk, toInt32_of_lt (x := (argOffset sig.isVarArg k : Int)) (by omega),
      toInt32_of_lt (by omega), if_neg (by omega)]
  simp only [fiAddress, hoff, Int.add_zero, toInt32_of_lt (x := (argOffset sig.isVarArg k : Int)) (by omega),
    hs.frameRegister, hs.1, BitVec.ofInt_natCast]
  split <;> rfl

/-- With an offset that is negative as an `int`, the word is taken for one in the
frame of the caller's caller. -/
theorem fiAddress_of_ge {k : Nat} (h8 : 8 ≤ k) (hk : k < sig.outs.length) (ho : 2 ^ 31 ≤ argOffset sig.isVarArg k)
    {p : FramePointers C.mf} {s : State} (hs : p.Holds s) (he : p.sp = p.base) :
    fiAddress C.mf (.negSucc (C.fixedBefore + (k - 8))) 0 s =
      p.base + stackWord C.mf - BitVec.ofNat 32 (4 + argOffset sig.isVarArg k) := by
  have hlt := argOffset_lt sig.isVarArg k
  have hx := toInt32_of_ge ho hlt
  have hoff : BitVec.ofInt 32 (frameOffset C.mf (.negSucc (C.fixedBefore + (k - 8)))) =
      stackWord C.mf - BitVec.ofNat 32 (4 + argOffset sig.isVarArg k) := by
    have hsub : toInt32 ((argOffset sig.isVarArg k : Int) - 2 ^ 32) = argOffset sig.isVarArg k - 2 ^ 32 :=
      toInt32_of_lt (by omega)
    calc BitVec.ofInt 32 (frameOffset C.mf (.negSucc (C.fixedBefore + (k - 8))))
        = BitVec.ofInt 32 (toInt32 C.mf.frameInfo.stackSize + -(argOffset sig.isVarArg k - 2 ^ 32 + 4)) := by
          rw [frameOffset, C.getObjectOffset_places h8 hk, hx, hsub, if_pos (by omega), ofInt_toInt32]
      _ = stackWord C.mf + BitVec.ofInt 32 (-(argOffset sig.isVarArg k - 2 ^ 32 + 4)) := by
          rw [BitVec.ofInt_add, ofInt_toInt32, BitVec.ofInt_natCast, stackWord]
      _ = stackWord C.mf + BitVec.ofInt 32 (-(4 + argOffset sig.isVarArg k : Nat)) :=
          congrArg (stackWord C.mf + ·) (ofInt_eq_ofInt_iff.mpr (by omega))
      _ = stackWord C.mf - BitVec.ofNat 32 (4 + argOffset sig.isVarArg k) := by
          rw [BitVec.ofInt_neg, BitVec.ofInt_natCast, BitVec.sub_eq_add_neg]
  rw [hs.fiAddress_of_eq he, Int.add_zero, hoff]
  simp only [BitVec.sub_eq_add_neg, BitVec.add_assoc]

end Caller

namespace Callee

variable {sig : Signature} (D : Callee sig)

theorem places_getElem? {k : Nat} (hk : k < sig.named.length) : D.lowered.places[k]? = some (argPlace 0 k) := by
  rw [lowered, (lowerFormalArguments_spec ..).1, List.getElem?_map, List.getElem?_range hk]
  rfl

theorem functionInfo_after : D.after.functionInfo = formalInfo sig.isVarArg sig.named.length := by
  obtain ⟨-, -, os, -, -, hmf⟩ := lowerFormalArguments_spec D.disableFramePointerElim sig.isVarArg sig.named
  rw [(later_keeps D.later).1, hmf]

/-- What is recorded is in place. -/
theorem getObjectOffset_recorded {x : RigelFIHolder} (hx : x ∈ (formalInfo sig.isVarArg sig.named.length).recorded) :
    D.mf.frameInfo.getObjectOffset x.fi = x.spOffset :=
  getObjectOffset_finishFrame_recorded D.isPhysRegUsed ((formals_indexed ..).later D.later)
    (D.functionInfo_after ▸ hx)

/-- The object of a stack word is at its offset into the caller's frame. -/
theorem getObjectOffset_places {k : Nat} (h8 : 8 ≤ k) (hk : k < sig.named.length) :
    D.mf.frameInfo.getObjectOffset (.negSucc (k - 8)) = toInt32 (-(4 + argOffset sig.isVarArg k : Nat)) := by
  refine (D.getObjectOffset_recorded (x := ⟨.negSucc (k - 8), _⟩) (List.mem_append_left _ (List.mem_map.mpr
    ⟨k - 8, List.mem_range.mpr (by omega), rfl⟩))).trans ?_
  exact toInt32_neg_argOffset ..

/-- An object with a negative offset is in the caller's frame, above the
callee's. -/
theorem fiAddress_of_neg {fi : Int} {w : Nat} (hw : D.mf.frameInfo.getObjectOffset fi = -(4 + w)) (hlt : w + 4 ≤ 2 ^ 31)
    {sp : Word} {s : State} (hs : (D.entry sp).Holds s) : fiAddress D.mf fi 0 s = sp + BitVec.ofNat 32 w := by
  have hoff : BitVec.ofInt 32 (frameOffset D.mf fi) = stackWord D.mf + BitVec.ofNat 32 w := by
    have hneg : toInt32 (-(4 + w)) = -(4 + w) := toInt32_of_lt (by omega)
    calc BitVec.ofInt 32 (frameOffset D.mf fi)
        = BitVec.ofInt 32 (toInt32 D.mf.frameInfo.stackSize + -(-(4 + w) + 4)) := by
          rw [frameOffset, hw, hneg, if_pos (by omega), ofInt_toInt32]
      _ = BitVec.ofInt 32 D.mf.frameInfo.stackSize + BitVec.ofInt 32 (-(-(4 + (w : Int)) + 4)) := by
          rw [BitVec.ofInt_add, ofInt_toInt32]
      _ = stackWord D.mf + BitVec.ofNat 32 w := by
          rw [show -(-(4 + (w : Int)) + 4) = w by omega, BitVec.ofInt_natCast, BitVec.ofInt_natCast, stackWord]
  rw [hs.fiAddress_of_eq rfl, Int.add_zero, hoff, entry, ← BitVec.add_assoc, BitVec.sub_add_cancel]

/-- One whose offset overflows is taken for one of the callee's. -/
theorem fiAddress_of_ge {fi : Int} {w : Nat} (hw : D.mf.frameInfo.getObjectOffset fi = toInt32 (-(4 + w : Nat)))
    (hge : 2 ^ 31 ≤ w) (hlt : w + 4 ≤ 2 ^ 32) {sp : Word} {s : State} (hs : (D.entry sp).Holds s) :
    fiAddress D.mf fi 0 s = sp - stackWord D.mf - BitVec.ofNat 32 (4 + w) := by
  have hx : toInt32 (-(4 + w : Nat)) = 2 ^ 32 - (4 + w : Nat) := by
    rw [← toInt32_emod, show -((4 + w : Nat) : Int) % 4294967296 = 2 ^ 32 - (4 + w : Nat) by omega]
    exact toInt32_of_lt (by omega)
  have hoff : BitVec.ofInt 32 (frameOffset D.mf fi) = -BitVec.ofNat 32 (4 + w) := by
    calc BitVec.ofInt 32 (frameOffset D.mf fi)
        = BitVec.ofInt 32 (2 ^ 32 - (4 + w : Nat)) := by
          rw [frameOffset, hw, hx, toInt32_of_lt (by omega), if_neg (by omega)]
      _ = BitVec.ofInt 32 (-(4 + w : Nat)) := ofInt_eq_ofInt_iff.mpr (by omega)
      _ = -BitVec.ofNat 32 (4 + w) := by rw [BitVec.ofInt_neg, BitVec.ofInt_natCast]
  rw [hs.fiAddress_of_eq rfl, Int.add_zero, hoff, entry, ← BitVec.sub_eq_add_neg]

end Callee

section Words

variable {sig : Signature}

/-- What `LowerCall` stores for a word of the call, of `vs`, with its place and
its number: the address and the word, unless it is in a register. -/
def Caller.stackWrite (C : Caller sig) (s : State) (vs : Nat → Word) (x : ArgPlace × Nat) : Option (Word × Word) :=
  match x.1 with
  | .reg _ => none
  | .stack fi => some (fiAddress C.mf fi 0 s, vs x.2)

def Caller.stackWrites (C : Caller sig) (s : State) (vs : Nat → Word) : List (Word × Word) :=
  C.places.zipIdx.filterMap (C.stackWrite s vs)

/-- Such a store is of a stack word. -/
theorem Caller.mem_stackWrites {C : Caller sig} {s : State} {vs : Nat → Word} {w : Word × Word}
    (h : w ∈ C.stackWrites s vs) : ∃ k, 8 ≤ k ∧ k < sig.outs.length ∧
      w = (fiAddress C.mf (.negSucc (C.fixedBefore + (k - 8))) 0 s, vs k) := by
  obtain ⟨⟨pl, k⟩, hx, hw⟩ := List.mem_filterMap.mp h
  have hpl := (List.mem_zipIdx_iff_getElem? ..).mp hx
  have hk : k < sig.outs.length := by
    have := (List.getElem?_eq_some_iff.mp hpl).1
    rwa [places, (callLowered ..).places, List.length_map, List.length_range] at this
  rw [C.places_getElem? hk, Option.some.injEq] at hpl
  rcases Nat.lt_or_ge k 8 with h8 | h8
  · rw [argPlace, List.getElem?_eq_getElem (show k < argRegs.length from h8)] at hpl
    subst hpl
    cases hw
  · rw [argPlace_of_le _ h8] at hpl
    subst hpl
    exact ⟨k, h8, hk, (Option.some.inj hw).symm⟩

/-- `t` is the state that a function is called in, from `s`. -/
structure Called (C : Caller sig) (s : State) (vs : Nat → Word) (t : State) : Prop where
  sp : t.reg .SP = s.reg .SP
  regs : ∀ (k : Nat) (r : Reg), C.places[k]? = some (.reg r) → t.reg r = vs k
  mem : t.mem = s.mem.writes (C.stackWrites s vs)

/-- `t'` is the state after the prologue of a function called in `t`: it
leaves the argument registers and the words of the caller alone. -/
structure Callee.BodyEntered (D : Callee sig) (words : List (Word × Word)) (t t' : State) : Prop where
  holds : (D.entry (t.reg .SP)).Holds t'
  regs : ∀ r ∈ argRegs, t'.reg r = t.reg r
  mem : ∀ w ∈ words, ∀ x, (word w.1).Contains x → t'.mem x = t.mem x

theorem argRegs_allocatable : ∀ r ∈ argRegs, r ∈ allocatable := by decide

theorem Caller.mem_argRegs {C : Caller sig} {k : Nat} {r : Reg} (h : C.places[k]? = some (.reg r)) : r ∈ argRegs := by
  rw [places, (callLowered ..).places, List.getElem?_map] at h
  obtain ⟨j, -, hj⟩ := Option.map_eq_some_iff.mp h
  unfold argPlace at hj
  split at hj
  · rename_i hr
    cases hj
    exact List.mem_of_getElem? hr
  · cases hj

/-- A call with the same word in every register. -/
theorem called_stateOf (C : Caller sig) (p : FramePointers C.mf) (v : Word) (m : Mem) :
    Called C (stateOf p.sp p.base v m) (fun _ => v)
      (stateOf p.sp p.base v (m.writes (C.stackWrites (stateOf p.sp p.base v m) fun _ => v))) :=
  ⟨rfl, fun _ r hk => stateOf_reg (argRegs_allocatable r (C.mem_argRegs hk)), rfl⟩

theorem bodyEntered_stateOf (D : Callee sig) (words : List (Word × Word)) (sp fp v : Word) (m : Mem) :
    D.BodyEntered words (stateOf sp fp v m) (stateOf (D.entry sp).sp (D.entry sp).base v m) where
  holds := stateOf_holds ..
  regs := fun r hr => (stateOf_reg (argRegs_allocatable r hr)).trans (stateOf_reg (argRegs_allocatable r hr)).symm
  mem := fun _ _ _ _ => rfl

end Words

/-- Such a function, with its flags set, and with or without calls. -/
def MachineFunction.leaf (mf : MachineFunction) (hasCalls : Bool) : MachineFunction :=
  { mf with frameInfo := { mf.frameInfo with adjustsStack := false, hasCalls, maxCallFrameSize := 0 } }

theorem finishFrame_leaf {mf : MachineFunction} (ho : mf.frameInfo.objects = [])
    (hp : mf.frameInfo.stackProtectorIdx = none) (b : Bool) :
    finishFrame (fun _ => false) (mf.leaf b) = adjustRigelStackFrame { mf.leaf b with
      frameInfo := { (mf.leaf b).frameInfo with
        stackSize := Packing.alignUp (fixedEnd mf.frameInfo) (max stackAlignment mf.frameInfo.maxAlignment) } } := by
  have := layoutFrame_of_nil (show (mf.leaf b).frameInfo.objects = [] from ho) hp rfl
  rw [finishFrame, this]
  rfl

theorem stackSize_leaf {mf : MachineFunction} (ho : mf.frameInfo.objects = [])
    (hp : mf.frameInfo.stackProtectorIdx = none) (hf : hasFP mf = false) (b : Bool) :
    (finishFrame (fun _ => false) (mf.leaf b)).frameInfo.stackSize =
      (Packing.alignUp (fixedEnd mf.frameInfo) (max stackAlignment mf.frameInfo.maxAlignment) +
        (if b then 4 else 0) + 3) %
        2 ^ 32 / 4 * 4 := by
  have hfp (n : Nat) : hasFP { mf.leaf b with frameInfo := { (mf.leaf b).frameInfo with stackSize := n } } = false := hf
  rw [finishFrame_leaf ho hp, stackSize_adjust, fpBytes, hfp, if_neg (by decide)]
  rfl

/-- The slot of `RA` makes a difference to the size of the frame. -/
theorem stackWord_leaf_ne {mf : MachineFunction} (ho : mf.frameInfo.objects = [])
    (hp : mf.frameInfo.stackProtectorIdx = none) (hf : hasFP mf = false) :
    stackWord (finishFrame (fun _ => false) (mf.leaf true)) ≠
      stackWord (finishFrame (fun _ => false) (mf.leaf false)) := by
  have hsize := stackSize_leaf ho hp hf
  generalize Packing.alignUp (fixedEnd mf.frameInfo) (max stackAlignment mf.frameInfo.maxAlignment) = n at hsize
  intro he
  have := congrArg BitVec.toNat he
  simp only [stackWord, hsize, BitVec.toNat_ofNat, if_true, Bool.false_eq_true, if_false] at this
  omega

/-- A callee without locals. -/
def Callee.plain (sig : Signature) (hasCalls : Bool) : Callee sig where
  disableFramePointerElim := false
  after := (lowerFormalArguments (start false) sig.isVarArg sig.named).mf.leaf hasCalls
  later := .single (.setFlags ..)
  isPhysRegUsed := fun _ => false

theorem Callee.stackWord_plain_ne (sig : Signature) :
    stackWord (plain sig true).mf ≠ stackWord (plain sig false).mf := by
  obtain ⟨-, -, os, -, -, hmf⟩ := lowerFormalArguments_spec false sig.isVarArg sig.named
  exact stackWord_leaf_ne (by rw [hmf]) (by rw [hmf]) (by rw [hmf]; rfl)

/-- A caller without locals. -/
def Caller.plain (sig : Signature) (hasCalls : Bool) : Caller sig where
  disableFramePointerElim := false
  own := .fixed []
  before := (lowerFormalArguments (start false) false []).mf
  started := .refl
  after := (lowerCall (lowerFormalArguments (start false) false []).mf sig.isVarArg sig.outs).1.leaf hasCalls
  later := .single (.setFlags ..)
  isPhysRegUsed := fun _ => false

theorem Caller.stackWord_plain_ne (sig : Signature) :
    stackWord (plain sig true).mf ≠ stackWord (plain sig false).mf := by
  obtain ⟨os, hmf, -⟩ := (callLowered (lowerFormalArguments (start false) false []).mf sig.isVarArg sig.outs).mf
  have hroom : (makeRoomForRegs (lowerFormalArguments (start false) false []).mf sig.isVarArg).frameInfo.objects = [] ∧
      (makeRoomForRegs (lowerFormalArguments (start false) false []).mf sig.isVarArg).frameInfo.stackProtectorIdx =
        none ∧
      hasFP (makeRoomForRegs (lowerFormalArguments (start false) false []).mf sig.isVarArg) = false := by
    cases sig.isVarArg <;> decide
  exact stackWord_leaf_ne (by rw [hmf]; exact hroom.1) (by rw [hmf]; exact hroom.2.1) (by rw [hmf]; exact hroom.2.2)

/-! ## When they agree -/

theorem argAgree_iff_of_lt {sig : Signature} {k : Nat} (hk : k < sig.named.length) (C : Caller sig)
    (p : FramePointers C.mf) : ArgAgree sig k C p ↔
      k < 8 ∨ argOffset sig.isVarArg k < 2 ^ 31 ∧ (isInt16 (argOffset sig.isVarArg k) = true → p.sp = p.base) := by
  have hk' : k < sig.outs.length := by rw [Signature.outs, List.length_append]; omega
  simp only [ArgAgree, C.places_getElem? hk', Callee.places_getElem? _ hk]
  rcases Nat.lt_or_ge k 8 with h8 | h8
  · simp only [argPlace, List.getElem?_eq_getElem (show k < argRegs.length from h8), h8, true_or, implies_true]
  · simp only [argPlace_of_le _ h8, Nat.zero_add, Nat.not_lt.mpr h8, false_or]
    rcases Nat.lt_or_ge (argOffset sig.isVarArg k) (2 ^ 31) with ho | ho
    · simp only [ho, true_and]
      have hD (D : Callee sig) {s' : State} (hs' : (D.entry p.sp).Holds s') :
          fiAddress D.mf (.negSucc (k - 8)) 0 s' = p.sp + BitVec.ofNat 32 (argOffset sig.isVarArg k) := by
        have h4 := four_dvd_argOffset sig.isVarArg k
        refine D.fiAddress_of_neg ?_ (by omega) hs'
        rw [D.getObjectOffset_places h8 hk, toInt32_of_lt (by omega)]
        omega
      constructor
      · intro h hi
        have := h (Callee.plain sig true) (stateOf p.sp p.base 0 fun _ => 0) (stateOf _ _ 0 fun _ => 0)
          (stateOf_holds ..) (stateOf_holds ..)
        rw [C.fiAddress_of_lt h8 hk' ho (stateOf_holds ..), hD _ (stateOf_holds ..), if_pos hi,
          BitVec.add_left_inj] at this
        exact this.symm
      · intro h D s s' hs hs'
        rw [C.fiAddress_of_lt h8 hk' ho hs, hD D hs']
        split
        · rw [h ‹_›]
        · rfl
    · -- the callee looks in its own frame, and where depends on its size
      simp only [Nat.not_lt.mpr ho, false_and, iff_false]
      intro h
      have h4 := four_dvd_argOffset sig.isVarArg k
      have hlt := argOffset_lt sig.isVarArg k
      have hD (D : Callee sig) :
          fiAddress C.mf (.negSucc (C.fixedBefore + (k - 8))) 0 (stateOf p.sp p.base 0 fun _ => 0) =
          p.sp - stackWord D.mf - BitVec.ofNat 32 (4 + argOffset sig.isVarArg k) := by
        refine (h D _ (stateOf _ _ 0 fun _ => 0) (stateOf_holds ..) (stateOf_holds ..)).trans ?_
        exact D.fiAddress_of_ge (D.getObjectOffset_places h8 hk) ho (by omega) (stateOf_holds ..)
      have := (hD (Callee.plain sig true)).symm.trans (hD (Callee.plain sig false))
      refine Callee.stackWord_plain_ne sig ?_
      generalize stackWord (Callee.plain sig true).mf = x at this
      generalize stackWord (Callee.plain sig false).mf = y at this
      generalize BitVec.ofNat 32 (4 + argOffset sig.isVarArg k) = z at this
      bv_omega

/-- Caller and callee agree on a word if and only if it is in a register, or
its offset is not negative as an `int` and the caller addresses it from `SP`:
either `SP` is the base of its frame, or the offset is one of more than 16
bits. -/
theorem args_agree_iff (sig : Signature) (k : Fin sig.named.length) (C : Caller sig) (p : FramePointers C.mf) :
    ArgAgree sig k C p ↔ (k : Nat) < 8 ∨
      argOffset sig.isVarArg k < 2 ^ 31 ∧ (isInt16 (argOffset sig.isVarArg k) = true → p.sp = p.base) :=
  argAgree_iff_of_lt k.isLt C p

/-- Nine words. -/
def nineWords : Signature := .fixed (List.replicate 9 {})

/-- A caller with a variable-sized object. -/
def Caller.dynamic (sig : Signature) : Caller sig where
  disableFramePointerElim := false
  own := .fixed []
  before := { start false with
    frameInfo := (MachineFrameInfo.createVariableSizedObject {} 4 four_pow).2 }
  started := .single (.createVariableSizedObject ..)
  after := _
  later := .single (.setFlags _ true true (analyze sig.outs).stackOffset)
  isPhysRegUsed := fun _ => false

/-- A function with a variable-sized object that passes nine words. -/
def allocaCaller : Caller nineWords := .dynamic nineWords

/-- After 16 bytes are allocated, the ninth word is stored at the frame base
and loaded from `SP`. -/
theorem allocaCaller_not_agree :
    ¬ArgAgree nineWords 8 allocaCaller ⟨0x1000, 0xFF0, fun h => absurd h (by decide)⟩ := by
  rw [argAgree_iff_of_lt (by decide)]
  decide

end Rigel
