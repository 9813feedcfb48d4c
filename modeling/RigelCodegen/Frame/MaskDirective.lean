import RigelCodegen.Frame.Elimination
import RigelCodegen.Frame.Prologue

/-!
# The mask directive

`printSavedRegsBitmask` tells the assembler which registers a function saves
and where: the bits of `.mask` are the registers, and its offset, from `SP` on
entry, is where the highest of them is, the others one word below the other
(`MaskDescribesFrame`). The bits come from the callee-saved registers, `FP`
and `RA`; the offset only from the slots of `FP` and `RA`, which
`adjustRigelStackFrame` appends at the top of the frame, while `PEI` has the
callee-saved registers at its bottom. `mask_describes_frame_iff` says for which
functions the directive is right.
-/

namespace Rigel

open Packing Word32

structure CalleeSavedInfo where
  reg : Reg
  frameIdx : Nat
  deriving DecidableEq, Repr

/-- A turn of the loop: one more register, and the frame with its slot. -/
def saveReg (c : List CalleeSavedInfo × MachineFrameInfo) (r : Reg) : List CalleeSavedInfo × MachineFrameInfo :=
  let (i, m) := c.2.createStackObject 4 (min 4 stackAlignment) four_pow false
  (c.1 ++ [⟨r, i⟩], m)

/-- `calculateCalleeSavedRegisters`, with the `CalleeSavedInfo` it records. -/
def calculateCalleeSavedInfo (isPhysRegUsed : Reg → Bool) (m : MachineFrameInfo) :
    List CalleeSavedInfo × MachineFrameInfo :=
  (getCalleeSavedRegs.filter isPhysRegUsed).foldl saveReg ([], m)

def storeRegToStackSlot (srcReg : Reg) (fi : Int) : MachineInstr := ⟨.sw, [.reg srcReg, .imm 0, .frameIndex fi]⟩

/-- The spills of `insertCSRSpillsAndRestores`, in the entry block. -/
def insertCSRSpills (csi : List CalleeSavedInfo) : List MachineInstr :=
  csi.map fun c => storeRegToStackSlot c.reg c.frameIdx

/-- What `PEI` leaves of a function: its frame, the callee-saved registers, and
the code before its body. -/
structure EnteredFunction where
  mf : MachineFunction
  csi : List CalleeSavedInfo
  entry : List MachineInstr

/-- `PEI::runOnMachineFunction`, up to the body. A function with the attribute
`Naked` saves no register and gets no prologue. The spills are inserted before
the frame is laid out, the prologue before them, and frame indices are replaced
in the end. -/
def insertPrologEpilog (naked : Bool) (isPhysRegUsed : Reg → Bool) (mf : MachineFunction) : EnteredFunction :=
  if naked then ⟨layoutFrame (fun _ => false) mf, [], []⟩
  else
    let csi := (calculateCalleeSavedInfo isPhysRegUsed mf.frameInfo).1
    let (mf, prologue) := emitPrologue (layoutFrame isPhysRegUsed mf)
    ⟨mf, csi, prologue ++ (insertCSRSpills csi).flatMap (eliminateFrameIndex mf)⟩

/-! ## The directive -/

def getRegisterNumbering : Reg → Nat
  | .ZERO => 0 | .AT => 1 | .V0 => 2 | .V1 => 3 | .A0 => 4 | .A1 => 5 | .A2 => 6 | .A3 => 7
  | .A4 => 8 | .A5 => 9 | .A6 => 10 | .A7 => 11 | .T0 => 12 | .T1 => 13 | .T2 => 14 | .T3 => 15
  | .T4 => 16 | .T5 => 17 | .S0 => 18 | .S1 => 19 | .S2 => 20 | .S3 => 21 | .S4 => 22 | .S5 => 23
  | .S6 => 24 | .S7 => 25 | .K0 => 26 | .K1 => 27 | .GP => 28 | .SP => 29 | .FP => 30 | .RA => 31

/-- The numbers `printSavedRegsBitmask` prints. -/
structure SavedRegsBitmask where
  cpuBitmask : Word
  cpuTopSavedRegOff : Int
  fpuBitmask : Word
  fpuTopSavedRegOff : Int
  deriving DecidableEq, Repr

/-- What `printSavedRegsBitmask` prints. Nothing calls `setFPUTopSavedRegOff`. -/
def savedRegsBitmask (f : EnteredFunction) : SavedRegsBitmask :=
  let (cpuBitmask, fpuBitmask) := f.csi.foldl
    (fun (b : Word × Word) c =>
      if cpuRegs.contains c.reg then (setBit b.1 (getRegisterNumbering c.reg), b.2)
      else (b.1, setBit b.2 (getRegisterNumbering c.reg)))
    (0, 0)
  let cpuBitmask :=
    if hasFP f.mf then setBit cpuBitmask (getRegisterNumbering (getFrameRegister f.mf)) else cpuBitmask
  let cpuBitmask :=
    if f.mf.frameInfo.hasCalls then setBit cpuBitmask (getRegisterNumbering .RA) else cpuBitmask
  ⟨cpuBitmask, f.mf.functionInfo.cpuTopSavedRegOff, fpuBitmask, 0⟩

/-- `utohexstr`, of a digit. -/
def hexDigit (n : Nat) : Char := "0123456789ABCDEF".toList.getD n '0'

def printHex32 (value : Word) : String :=
  String.ofList ('0' :: 'x' :: [7, 6, 5, 4, 3, 2, 1, 0].map fun i =>
    hexDigit ((value &&& ((0xF : Word) <<< (i * 4))) >>> (i * 4)).toNat)

def printSavedRegsBitmask (f : EnteredFunction) : String :=
  let b := savedRegsBitmask f
  "\t.mask \t" ++ printHex32 b.cpuBitmask ++ "," ++ toString b.cpuTopSavedRegOff ++ "\n" ++
    "\t.fmask\t" ++ printHex32 b.fpuBitmask ++ "," ++ toString b.fpuTopSavedRegOff ++ "\n"

/-- The number of a text of digits. -/
def readHex (cs : List Char) : Nat := cs.foldl (fun n c => 16 * n + "0123456789ABCDEF".toList.idxOf c) 0

theorem idxOf_hexDigit : ∀ n < 16, "0123456789ABCDEF".toList.idxOf (hexDigit n) = n := by decide

theorem toNat_digit (value : Word) {i : Nat} (hi : i < 8) :
    ((value &&& ((0xF : Word) <<< (i * 4))) >>> (i * 4)).toNat = value.toNat / 16 ^ i % 16 := by
  have hmask : ∀ i < 8, ((0xF : Word) <<< (i * 4)).toNat >>> (i * 4) = 2 ^ 4 - 1 := by decide
  calc ((value &&& ((0xF : Word) <<< (i * 4))) >>> (i * 4)).toNat
      = value.toNat >>> (i * 4) &&& ((0xF : Word) <<< (i * 4)).toNat >>> (i * 4) := by
        rw [BitVec.toNat_ushiftRight, BitVec.toNat_and, Nat.shiftRight_and_distrib]
    _ = value.toNat >>> (i * 4) % 2 ^ 4 := by rw [hmask i hi, Nat.and_two_pow_sub_one_eq_mod]
    _ = value.toNat / 16 ^ i % 16 := by
        rw [Nat.shiftRight_eq_div_pow, Nat.mul_comm i 4, Nat.pow_mul, show 2 ^ 4 = 16 from rfl]

theorem readHex_concat (cs : List Char) (c : Char) :
    readHex (cs ++ [c]) = 16 * readHex cs + "0123456789ABCDEF".toList.idxOf c := by
  rw [readHex, List.foldl_append, ← readHex, List.foldl_cons, List.foldl_nil]

/-- The first digits are those of the upper bits. -/
theorem readHex_take (value : Word) : ∀ n ≤ 8, readHex ((([7, 6, 5, 4, 3, 2, 1, 0].take n).map fun i =>
    hexDigit ((value &&& ((0xF : Word) <<< (i * 4))) >>> (i * 4)).toNat)) = value.toNat / 16 ^ (8 - n) := by
  intro n
  induction n with
  | zero => exact fun _ => (Nat.div_eq_of_lt value.isLt).symm
  | succ n ih =>
    intro hn
    have hget : ∀ n < 8, [7, 6, 5, 4, 3, 2, 1, 0][n]? = some (7 - n) := by decide
    have hidx : 8 - n = 7 - n + 1 := Nat.succ_sub (Nat.le_of_lt_succ hn)
    have hsucc : 8 - (n + 1) = 7 - n := Nat.succ_sub_succ 7 n
    have hdigit : value.toNat / 16 ^ (7 - n) % 16 < 16 := Nat.mod_lt _ (by decide)
    rw [List.take_add_one, hget n hn, Option.toList_some, List.map_append, List.map_singleton, readHex_concat,
      ih (Nat.le_of_succ_le hn), toNat_digit value (by omega), idxOf_hexDigit _ hdigit]
    calc 16 * (value.toNat / 16 ^ (8 - n)) + value.toNat / 16 ^ (7 - n) % 16
        = 16 * (value.toNat / 16 ^ (7 - n) / 16) + value.toNat / 16 ^ (7 - n) % 16 := by
          rw [hidx, Nat.pow_succ, Nat.div_div_eq_div_mul]
      _ = value.toNat / 16 ^ (7 - n) := Nat.div_add_mod _ _
      _ = value.toNat / 16 ^ (8 - (n + 1)) := by rw [hsucc]

/-- The printed digits are those of the number. -/
theorem readHex_printHex32 (value : Word) : readHex ((printHex32 value).toList.drop 2) = value.toNat :=
  calc readHex ((printHex32 value).toList.drop 2)
      = value.toNat / 16 ^ (8 - 8) := by
        rw [printHex32, String.toList_ofList]
        exact readHex_take value 8 (Nat.le_refl 8)
    _ = value.toNat := by rw [Nat.sub_self, Nat.pow_zero, Nat.div_one]

/-! ## What it means -/

/-- The registers by number. -/
def numberedRegs : List Reg :=
  [.ZERO, .AT, .V0, .V1, .A0, .A1, .A2, .A3, .A4, .A5, .A6, .A7, .T0, .T1, .T2, .T3, .T4, .T5,
   .S0, .S1, .S2, .S3, .S4, .S5, .S6, .S7, .K0, .K1, .GP, .SP, .FP, .RA]

/-- The registers in a mask, from the highest-numbered one down. -/
def maskRegs (mask : Word) : List Reg := numberedRegs.reverse.filter fun r => mask.getLsbD (getRegisterNumbering r)

/-- The directive describes the frame: its bits are the registers that are
stored on entry, in whatever state, and the registers are one word below the
other, from the offset on, which is a negative one. -/
structure MaskDescribesFrame (f : EnteredFunction) : Prop where
  registers : ∀ (s : State) (r : Reg), (savedRegsBitmask f).cpuBitmask.getLsbD (getRegisterNumbering r) = true ↔
    r ∈ (stores f.entry s).map (·.reg)
  positions : ∀ (s : State) (k : Nat) (r : Reg), (maskRegs (savedRegsBitmask f).cpuBitmask)[k]? = some r →
    ⟨r, s.reg .SP + BitVec.ofInt 32 (savedRegsBitmask f).cpuTopSavedRegOff - BitVec.ofNat 32 (4 * k), s.reg r⟩ ∈
      stores f.entry s
  negative : (savedRegsBitmask f).cpuBitmask ≠ 0 → (savedRegsBitmask f).cpuTopSavedRegOff < 0

theorem numberedRegs_getRegisterNumbering (r : Reg) : numberedRegs[getRegisterNumbering r]? = some r := by
  cases r <;> rfl

theorem getRegisterNumbering_lt (r : Reg) : getRegisterNumbering r < 32 := by cases r <;> decide

theorem mem_maskRegs {mask : Word} {r : Reg} : r ∈ maskRegs mask ↔ mask.getLsbD (getRegisterNumbering r) = true := by
  have := List.mem_of_getElem? (numberedRegs_getRegisterNumbering r)
  simp [maskRegs, this]

theorem maskRegs_length_le (mask : Word) : (maskRegs mask).length ≤ 32 := List.length_filter_le ..

theorem getRegisterNumbering_inj {r r' : Reg} : getRegisterNumbering r = getRegisterNumbering r' ↔ r = r' := by
  refine ⟨fun h => ?_, fun h => h ▸ rfl⟩
  have := numberedRegs_getRegisterNumbering r
  rw [h, numberedRegs_getRegisterNumbering, Option.some.injEq] at this
  exact this.symm

theorem mem_cpuRegs (r : Reg) : cpuRegs.contains r = true := by cases r <;> decide

/-- Setting the bit of a register. -/
theorem getLsbD_setBit_numbering (w : Word) (r r' : Reg) :
    (setBit w (getRegisterNumbering r')).getLsbD (getRegisterNumbering r) =
    (w.getLsbD (getRegisterNumbering r) || decide (r = r')) := by
  rw [getLsbD_setBit _ _ (getRegisterNumbering_lt r)]
  simp only [getRegisterNumbering_inj]

/-- Every register is one of `CPURegs`, so no bit of `.fmask` is set. -/
theorem foldl_bitmask (csi : List CalleeSavedInfo) (w : Word) :
    csi.foldl (fun (b : Word × Word) c =>
      if cpuRegs.contains c.reg then (setBit b.1 (getRegisterNumbering c.reg), b.2)
      else (b.1, setBit b.2 (getRegisterNumbering c.reg))) (w, 0) =
      (csi.foldl (fun w c => setBit w (getRegisterNumbering c.reg)) w, 0) := by
  induction csi generalizing w with
  | nil => rfl
  | cons c csi ih => rw [List.foldl_cons, if_pos (mem_cpuRegs _), ih, List.foldl_cons]

theorem getLsbD_foldl_setBit (csi : List CalleeSavedInfo) (w : Word) (r : Reg) :
    (csi.foldl (fun w c => setBit w (getRegisterNumbering c.reg)) w).getLsbD (getRegisterNumbering r) =
      (w.getLsbD (getRegisterNumbering r) || decide (r ∈ csi.map (·.reg))) := by
  induction csi generalizing w with
  | nil => simp
  | cons c csi ih =>
    rw [List.foldl_cons, ih, getLsbD_setBit_numbering, Bool.or_assoc]
    simp only [List.map_cons, List.mem_cons, Bool.decide_or]

/-- The bits of `.mask`. -/
theorem getLsbD_cpuBitmask (f : EnteredFunction) (r : Reg) :
    (savedRegsBitmask f).cpuBitmask.getLsbD (getRegisterNumbering r) = true ↔
      r ∈ f.csi.map (·.reg) ∨ (hasFP f.mf = true ∧ r = .FP) ∨ (f.mf.frameInfo.hasCalls = true ∧ r = .RA) := by
  simp only [savedRegsBitmask, foldl_bitmask, getFrameRegister]
  cases hasFP f.mf <;> cases f.mf.frameInfo.hasCalls <;>
    simp [getLsbD_setBit_numbering, getLsbD_foldl_setBit, or_assoc]

/-- The slot that `TopCPUSavedRegOff` is the offset of. -/
def topSlot (mf : MachineFunction) : Int :=
  if mf.frameInfo.hasCalls then toInt32 (mf.frameInfo.stackSize + fpBytes mf : Nat)
  else if hasFP mf then toInt32 mf.frameInfo.stackSize else -1

theorem cpuTopSavedRegOff_adjust (mf : MachineFunction) :
    (adjustRigelStackFrame mf).functionInfo.cpuTopSavedRegOff =
      if 0 ≤ topSlot mf then toInt32 (topSlot mf - (adjustRigelStackFrame mf).frameInfo.stackSize)
      else mf.functionInfo.cpuTopSavedRegOff := by
  by_cases hf : hasFP mf = true <;> by_cases hc : mf.frameInfo.hasCalls = true <;>
    simp only [adjustRigelStackFrame, argsInPlace_eq, topSlot, fpBytes, hf, hc, appendSlot_eq, hasCalls_argsInPlace,
      stackSize_argsInPlace, Nat.mod_add_mod, toInt32_natMod, Nat.add_zero, if_true, Bool.false_eq_true, if_false] <;>
    split <;> rfl

/-- It is the last word of the frame. -/
theorem topSlot_emod {mf : MachineFunction} (hx : hasFP mf = true ∨ mf.frameInfo.hasCalls = true) :
    topSlot mf % 2 ^ 32 = (mf.frameInfo.stackSize + fpBytes mf + raBytes mf - 4 : Int) % 2 ^ 32 ∧
      topSlot mf < 2 ^ 31 := by
  unfold topSlot
  split
  · rename_i hc
    have hra : raBytes mf = 4 := if_pos hc
    refine ⟨?_, (toInt32_range _).2⟩
    rw [toInt32_emod_eq, hra]
    omega
  · rename_i hc
    have hf := hx.resolve_right hc
    have hfp : fpBytes mf = 4 := if_pos hf
    have hra : raBytes mf = 0 := if_neg hc
    rw [if_pos hf]
    refine ⟨?_, (toInt32_range _).2⟩
    rw [toInt32_emod_eq, hfp, hra]
    omega

/-- The printed offset is that of the word below `SP` on entry, if it is set at
all. -/
theorem cpuTopSavedRegOff_eq {mf : MachineFunction} (h4 : 4 ∣ mf.frameInfo.stackSize)
    (h0 : mf.functionInfo.cpuTopSavedRegOff = 0) :
    (adjustRigelStackFrame mf).functionInfo.cpuTopSavedRegOff = if 0 ≤ topSlot mf then -4 else 0 := by
  rw [cpuTopSavedRegOff_adjust, h0, stackSize_adjust]
  split
  · rename_i ht
    have hx : hasFP mf = true ∨ mf.frameInfo.hasCalls = true := by
      by_contra hx
      rw [not_or] at hx
      rw [topSlot, if_neg hx.2, if_neg hx.1] at ht
      omega
    obtain ⟨he, hlt⟩ := topSlot_emod hx
    have hf4 := fpBytes_cases mf
    have hr4 := raBytes_cases mf
    rw [show topSlot mf - ((mf.frameInfo.stackSize + fpBytes mf + raBytes mf + 3) % 2 ^ 32 / 4 * 4 : Nat) = -4 by omega]
    rfl
  · rfl

/-! ## The stores on entry -/

theorem allocatable_of_calleeSaved :
    ∀ r ∈ getCalleeSavedRegs, r ∈ allocatable ∧ r ≠ .AT ∧ r ≠ .SP ∧ r ≠ .FP ∧ r ≠ .RA := by
  decide

theorem fiAddress_congr (mf : MachineFunction) (fi imm : Int) {s s' : State} (h : s.Keeps [.AT] s') :
    fiAddress mf fi imm s' = fiAddress mf fi imm s := by
  have hf : s'.reg (getFrameRegister mf) = s.reg (getFrameRegister mf) :=
    h _ (by unfold getFrameRegister; split <;> decide)
  simp only [fiAddress, hf, h .SP (by decide)]

/-- A spill stores its register in its slot, and changes no other than `AT`. -/
theorem stores_spill (mf : MachineFunction) {r : Reg} (hr : r ∈ getCalleeSavedRegs) (fi : Int) (s : State) :
    ∃ s', run (eliminateFrameIndex mf (storeRegToStackSlot r fi)) s = some s' ∧ s.Keeps [.AT] s' ∧
      stores (eliminateFrameIndex mf (storeRegToStackSlot r fi)) s = [⟨r, fiAddress mf fi 0 s, s.reg r⟩] := by
  obtain ⟨ha, hne, -⟩ := allocatable_of_calleeSaved r hr
  have hi : storeRegToStackSlot r fi = (FrameAccess.sw ⟨r, ha⟩).instr fi 0 := rfl
  refine ⟨_, by rw [hi]; exact run_eliminateFrameIndex .., ?_, ?_⟩
  · refine .setMem ?_ _
    unfold fiState
    split
    · exact .refl
    · exact State.Keeps.refl.setReg (by decide) _
  · rw [hi, eliminateFrameIndex_instr]
    simp only [fiAddress]
    split
    · rename_i h
      rw [← immediate_of_isInt16 .sw rfl h]
      rfl
    · rw [stores_mvui_ori (by decide), stores_cons (exec_add ..)]
      simp [stores, storeOf, exec, FrameAccess.based, immediate_of_isInt16 .sw (x := 0) rfl (by decide), hne,
        (ne_of_allocatable ha).1]

/-- The spills store the registers in their slots. -/
theorem stores_insertCSRSpills (mf : MachineFunction) {csi : List CalleeSavedInfo}
    (h : ∀ c ∈ csi, c.reg ∈ getCalleeSavedRegs) (s : State) :
    (∃ s', run ((insertCSRSpills csi).flatMap (eliminateFrameIndex mf)) s = some s') ∧
      stores ((insertCSRSpills csi).flatMap (eliminateFrameIndex mf)) s =
        csi.map fun c => ⟨c.reg, fiAddress mf c.frameIdx 0 s, s.reg c.reg⟩ := by
  induction csi generalizing s with
  | nil => exact ⟨⟨s, rfl⟩, rfl⟩
  | cons c csi ih =>
    have hc := h c (List.mem_cons_self ..)
    have htl := fun c' (hc' : c' ∈ csi) => h c' (List.mem_cons_of_mem _ hc')
    obtain ⟨s', hs', hk, hst⟩ := stores_spill mf hc c.frameIdx s
    obtain ⟨⟨t, ht⟩, hrest⟩ := ih htl s'
    rw [insertCSRSpills, List.map_cons, List.flatMap_cons, stores_append hs', hst]
    refine ⟨⟨t, by rw [run_append, hs']; exact ht⟩,
      congrArg (_ :: ·) (hrest.trans (List.map_congr_left fun c' hc' => ?_))⟩
    rw [fiAddress_congr mf _ _ hk, hk c'.reg (by simpa using (allocatable_of_calleeSaved _ (htl c' hc')).2.1)]

/-- The callee-saved registers of a function. -/
def savedRegs (isPhysRegUsed : Reg → Bool) : List Reg := getCalleeSavedRegs.filter isPhysRegUsed

theorem mem_savedRegs {isPhysRegUsed : Reg → Bool} {r : Reg} (h : r ∈ savedRegs isPhysRegUsed) :
    r ∈ getCalleeSavedRegs := List.mem_of_mem_filter h

theorem savedRegs_nodup (isPhysRegUsed : Reg → Bool) : (savedRegs isPhysRegUsed).Nodup :=
  List.Nodup.filter _ (by decide)

theorem foldl_saveReg (rs : List Reg) (csi : List CalleeSavedInfo) (cs : CSFrameIndices) (m : MachineFrameInfo) :
    rs.foldl saveReg (csi, m) =
      (csi ++ (rs.zipIdx m.objects.length).map fun x => ⟨x.1, x.2⟩,
        (rs.foldl (fun (c : CSFrameIndices × MachineFrameInfo) _ =>
          let (i, m) := c.2.createStackObject 4 (min 4 stackAlignment) four_pow false
          (c.1.insert i, m)) (cs, m)).2) := by
  induction rs generalizing m csi cs with
  | nil => simp
  | cons r rs ih =>
    rw [List.foldl_cons, List.foldl_cons]
    refine (ih _ (cs.insert m.objects.length) _).trans ?_
    simp [MachineFrameInfo.createStackObject, List.zipIdx_cons]

/-- The registers and their slots, in order; the frame is the one the slots
are created in. -/
theorem calculateCalleeSavedInfo_eq (isPhysRegUsed : Reg → Bool) (m : MachineFrameInfo) :
    calculateCalleeSavedInfo isPhysRegUsed m =
      (((savedRegs isPhysRegUsed).zipIdx m.objects.length).map fun x => ⟨x.1, x.2⟩,
        (calculateCalleeSavedRegisters isPhysRegUsed m).2) :=
  foldl_saveReg _ [] {} m

/-- Stores of registers that are all different, with the values the registers
have: each register is stored at the address of its place in the list if and
only if each store is at the one of its place. -/
theorem forall_mem_iff_address {l : List StoredReg} (hn : (l.map (·.reg)).Nodup) {v : Reg → Word}
    (hv : ∀ x ∈ l, x.value = v x.reg) (g : Nat → Word) :
    (∀ k r, (l.map (·.reg))[k]? = some r → ⟨r, g k, v r⟩ ∈ l) ↔ ∀ k x, l[k]? = some x → x.address = g k := by
  constructor
  · intro h k x hx
    have hr : (l.map (·.reg))[k]? = some x.reg := by rw [List.getElem?_map, hx]; rfl
    obtain ⟨j, hj⟩ := List.mem_iff_getElem?.mp (h k x.reg hr)
    have hr' : (l.map (·.reg))[j]? = some x.reg := by rw [List.getElem?_map, hj]; rfl
    obtain rfl := (List.getElem?_inj (List.getElem?_eq_some_iff.mp hr).1 hn).mp (hr.trans hr'.symm)
    rw [hx, Option.some.injEq] at hj
    rw [hj]
  · intro h k r hr
    rw [List.getElem?_map, Option.map_eq_some_iff] at hr
    obtain ⟨x, hx, rfl⟩ := hr
    have hm := List.mem_of_getElem? hx
    rw [← h k x hx, ← hv x hm]
    exact hm

theorem forall_getElem?_ite {α : Type} {b : Prop} [Decidable b] {p : Nat → α → Prop} {x : α} {l : List α} :
    (∀ k y, ((if b then [x] else []) ++ l)[k]? = some y → p k y) ↔
      (b → p 0 x) ∧ ∀ k y, l[k]? = some y → p ((if b then 1 else 0) + k) y := by
  split
  · rename_i hb
    constructor
    · exact fun h => ⟨fun _ => h 0 x rfl, fun k y hy => h (1 + k) y (Nat.add_comm 1 k ▸ hy)⟩
    · rintro ⟨h0, hs⟩ k y hy
      cases k with
      | zero => exact Option.some.inj hy ▸ h0 hb
      | succ k => exact Nat.add_comm k 1 ▸ hs k y hy
  · rename_i hb
    simp only [List.nil_append, Nat.zero_add, hb, false_implies, true_and]

/-- The registers that may be in a mask, from the highest down. -/
theorem filter_numberedRegs {p : Reg → Bool} (h : ∀ r, p r = true → r ∈ getCalleeSavedRegs ∨ r = .FP ∨ r = .RA) :
    numberedRegs.reverse.filter p =
      (if p .RA then [.RA] else []) ++ (if p .FP then [.FP] else []) ++ getCalleeSavedRegs.reverse.filter p := by
  have hother (rs : List Reg) (hrs : ∀ r ∈ rs, r ∉ getCalleeSavedRegs ∧ r ≠ .FP ∧ r ≠ .RA) : rs.filter p = [] :=
    List.filter_eq_nil_iff.mpr fun r hr hp => by
      obtain ⟨hcs, hfp, hra⟩ := hrs r hr
      exact (h r hp).elim hcs (·.elim hfp hra)
  rw [show numberedRegs.reverse = [.RA] ++ [.FP] ++ ([.SP, .GP, .K1, .K0] ++ getCalleeSavedRegs.reverse ++
    [.T5, .T4, .T3, .T2, .T1, .T0, .A7, .A6, .A5, .A4, .A3, .A2, .A1, .A0, .V1, .V0, .AT, .ZERO]) from rfl]
  simp only [List.filter_append]
  rw [hother [.SP, .GP, .K1, .K0] (by decide), hother [.T5, .T4, .T3, .T2, .T1, .T0, .A7, .A6, .A5, .A4, .A3, .A2, .A1,
    .A0, .V1, .V0, .AT, .ZERO] (by decide), List.nil_append, List.append_nil]
  simp only [List.filter_cons, List.filter_nil]

section Entry

variable (isPhysRegUsed : Reg → Bool) (mf : MachineFunction)

theorem insertPrologEpilog_csi : (insertPrologEpilog false isPhysRegUsed mf).csi =
    ((savedRegs isPhysRegUsed).zipIdx mf.frameInfo.objects.length).map fun x => ⟨x.1, x.2⟩ :=
  congrArg Prod.fst (calculateCalleeSavedInfo_eq isPhysRegUsed mf.frameInfo)

theorem insertPrologEpilog_csi_reg :
    (insertPrologEpilog false isPhysRegUsed mf).csi.map (·.reg) = savedRegs isPhysRegUsed := by
  rw [insertPrologEpilog_csi, List.map_map]
  exact List.zipIdx_map_fst ..

theorem hasFP_finishFrame : hasFP (finishFrame isPhysRegUsed mf) = hasFP mf :=
  (hasFP_adjust _).trans (layoutFrame_hasFP isPhysRegUsed mf).1

theorem hasCalls_finishFrame : (finishFrame isPhysRegUsed mf).frameInfo.hasCalls = mf.frameInfo.hasCalls :=
  (hasCalls_adjust _).trans (layoutFrame_hasFP isPhysRegUsed mf).2

/-- The registers of `.mask`, the highest first. -/
theorem maskRegs_cpuBitmask : maskRegs (savedRegsBitmask (insertPrologEpilog false isPhysRegUsed mf)).cpuBitmask =
    (if mf.frameInfo.hasCalls then [.RA] else []) ++ (if hasFP mf then [.FP] else []) ++
      (savedRegs isPhysRegUsed).reverse := by
  have hbit (r : Reg) : (savedRegsBitmask (insertPrologEpilog false isPhysRegUsed mf)).cpuBitmask.getLsbD
      (getRegisterNumbering r) = true ↔
        r ∈ savedRegs isPhysRegUsed ∨ (hasFP mf = true ∧ r = .FP) ∨ (mf.frameInfo.hasCalls = true ∧ r = .RA) := by
    rw [getLsbD_cpuBitmask, insertPrologEpilog_csi_reg,
      show (insertPrologEpilog false isPhysRegUsed mf).mf = finishFrame isPhysRegUsed mf from rfl, hasFP_finishFrame,
      hasCalls_finishFrame]
  have hno {r : Reg} (hr : r ∉ getCalleeSavedRegs) : r ∉ savedRegs isPhysRegUsed := fun hm => hr (mem_savedRegs hm)
  rw [maskRegs, filter_numberedRegs fun r hr => (hbit r).mp hr |>.imp mem_savedRegs (.imp And.right And.right),
    List.filter_reverse, savedRegs]
  refine congrArg₂ (· ++ ·) (congrArg₂ (· ++ ·) (if_congr ?_ rfl rfl) (if_congr ?_ rfl rfl))
    (congrArg List.reverse (List.filter_congr fun r hr => ?_))
  · rw [hbit]
    simp [hno (show Reg.RA ∉ getCalleeSavedRegs by decide)]
  · rw [hbit]
    simp [hno (show Reg.FP ∉ getCalleeSavedRegs by decide)]
  · obtain ⟨-, -, -, hfp, hra⟩ := allocatable_of_calleeSaved r hr
    rw [Bool.eq_iff_iff, hbit]
    simp only [savedRegs, List.mem_filter, hr, hfp, hra, true_and, and_false, or_false]

/-- Where the words are that a function stores on entry, in the order of the
mask: `RA` and `FP` in their slots, with the offset of the latter cut to 16
bits, and the others where eliminated frame indices have them. -/
def savedStores (s : State) : List StoredReg :=
  let base := s.reg .SP - stackWord (finishFrame isPhysRegUsed mf)
  (if mf.frameInfo.hasCalls then [⟨.RA, raAddress (finishFrame isPhysRegUsed mf) base, s.reg .RA⟩] else []) ++
    (if hasFP mf then
      [⟨.FP, fpAddress base (finishFrame isPhysRegUsed mf).functionInfo.fpStackOffset, s.reg .FP⟩] else []) ++
    ((insertPrologEpilog false isPhysRegUsed mf).csi.map fun c =>
      ⟨c.reg, base + BitVec.ofInt 32 (frameOffset (finishFrame isPhysRegUsed mf) c.frameIdx), s.reg c.reg⟩).reverse

/-- The prologue is skipped. -/
def PrologueSkipped : Prop :=
  stackWord (finishFrame isPhysRegUsed mf) = 0 ∧ (finishFrame isPhysRegUsed mf).frameInfo.adjustsStack = false

theorem csi_calleeSaved : ∀ c ∈ (insertPrologEpilog false isPhysRegUsed mf).csi, c.reg ∈ getCalleeSavedRegs := by
  intro c hc
  have hm : c.reg ∈ savedRegs isPhysRegUsed := by
    rw [← insertPrologEpilog_csi_reg isPhysRegUsed mf]
    exact List.mem_map_of_mem hc
  exact mem_savedRegs hm

variable {isPhysRegUsed mf}

/-- The code before the body is the prologue and the spills. -/
theorem insertPrologEpilog_entry : (insertPrologEpilog false isPhysRegUsed mf).entry =
    (emitPrologue (layoutFrame isPhysRegUsed mf)).2 ++
      (insertCSRSpills (insertPrologEpilog false isPhysRegUsed mf).csi).flatMap
        (eliminateFrameIndex (finishFrame isPhysRegUsed mf)) := rfl

theorem stores_entry (h : ¬PrologueSkipped isPhysRegUsed mf) (s : State) :
    (∃ s', run (insertPrologEpilog false isPhysRegUsed mf).entry s = some s') ∧
      (stores (insertPrologEpilog false isPhysRegUsed mf).entry s).Perm (savedStores isPhysRegUsed mf s) := by
  obtain ⟨s₁, h₁, he, hk, hst⟩ := stores_emitPrologue (show ¬(stackWord (adjustRigelStackFrame
    (layoutFrame isPhysRegUsed mf)) = 0 ∧ _) from h) s
  obtain ⟨⟨s₂, h₂⟩, hspill⟩ :=
    stores_insertCSRSpills (finishFrame isPhysRegUsed mf) (csi_calleeSaved isPhysRegUsed mf) s₁
  have hfr : s₁.reg (getFrameRegister (finishFrame isPhysRegUsed mf)) = s₁.reg .SP := by
    unfold getFrameRegister
    split
    · rename_i hf
      rw [he.sp, he.fp]
      exact if_pos hf
    · rfl
  have hsp : s₁.reg .SP = s.reg .SP - stackWord (finishFrame isPhysRegUsed mf) := he.sp
  rw [insertPrologEpilog_entry]
  refine ⟨⟨s₂, by rw [run_append, h₁]; exact h₂⟩, ?_⟩
  rw [stores_append h₁, hst, hspill, (layoutFrame_hasFP isPhysRegUsed mf).1, (layoutFrame_hasFP isPhysRegUsed mf).2,
    savedStores]
  refine List.Perm.append_left _ ((List.Perm.of_eq (List.map_congr_left fun c hc => ?_)).trans
    (List.reverse_perm _).symm)
  obtain ⟨-, hat, hsp', hfp', -⟩ := allocatable_of_calleeSaved _ (csi_calleeSaved isPhysRegUsed mf c hc)
  rw [hk c.reg (by simp [hat, hsp', hfp']), fiAddress, hfr, hsp]
  split <;> rw [ofInt_toInt32, Int.add_zero]

/-- With the prologue skipped, only callee-saved registers are stored. -/
theorem stores_entry_of_skipped (h : PrologueSkipped isPhysRegUsed mf) (s : State) :
    (∃ s', run (insertPrologEpilog false isPhysRegUsed mf).entry s = some s') ∧
      (stores (insertPrologEpilog false isPhysRegUsed mf).entry s).map (·.reg) = savedRegs isPhysRegUsed := by
  have hskip : (emitPrologue (layoutFrame isPhysRegUsed mf)).2 = [] := if_pos h
  obtain ⟨hrun, hst⟩ := stores_insertCSRSpills (finishFrame isPhysRegUsed mf) (csi_calleeSaved isPhysRegUsed mf) s
  rw [insertPrologEpilog_entry, hskip, List.nil_append, hst, List.map_map,
    ← insertPrologEpilog_csi_reg isPhysRegUsed mf]
  exact ⟨hrun, rfl⟩

theorem savedStores_reg (s : State) : (savedStores isPhysRegUsed mf s).map (·.reg) =
    maskRegs (savedRegsBitmask (insertPrologEpilog false isPhysRegUsed mf)).cpuBitmask := by
  rw [maskRegs_cpuBitmask, savedStores, List.map_append, List.map_append, List.map_reverse, List.map_map,
    ← insertPrologEpilog_csi_reg isPhysRegUsed mf]
  refine congrArg₂ (· ++ ·) (congrArg₂ (· ++ ·) ?_ ?_) rfl <;> split <;> rfl

theorem savedStores_value (s : State) : ∀ x ∈ savedStores isPhysRegUsed mf s, x.value = s.reg x.reg := by
  intro x hx
  simp only [savedStores, List.mem_append, List.mem_reverse, List.mem_map] at hx
  rcases hx with (hx | hx) | ⟨c, -, rfl⟩
  · split at hx
    · obtain rfl := List.mem_singleton.mp hx; rfl
    · cases hx
  · split at hx
    · obtain rfl := List.mem_singleton.mp hx; rfl
    · cases hx
  · rfl

theorem savedStores_nodup (s : State) : ((savedStores isPhysRegUsed mf s).map (·.reg)).Nodup := by
  rw [savedStores_reg, maskRegs]
  exact List.Nodup.filter _ (by decide)

/-- The callee-saved registers from the last one down have the slots behind the
fixed objects. -/
theorem getElem?_csi_reverse (h : mf.Created) {k : Nat} (hk : k < (savedRegs isPhysRegUsed).length) :
    ∃ c, (insertPrologEpilog false isPhysRegUsed mf).csi.reverse[k]? = some c ∧
      (finishFrame isPhysRegUsed mf).frameInfo.getObjectOffset c.frameIdx =
        (alignUp (fixedEnd mf.frameInfo) 4 + 4 * k : Nat) := by
  have hlen : (savedRegs isPhysRegUsed).length - 1 - k < (savedRegs isPhysRegUsed).length := by omega
  refine ⟨⟨(savedRegs isPhysRegUsed)[(savedRegs isPhysRegUsed).length - 1 - k],
    mf.frameInfo.objects.length + ((savedRegs isPhysRegUsed).length - 1 - k)⟩, ?_, ?_⟩
  · rw [insertPrologEpilog_csi, List.getElem?_reverse (by simpa using hk), List.length_map, List.length_zipIdx,
      List.getElem?_map, List.getElem?_zipIdx, List.getElem?_eq_getElem hlen]
    rfl
  · refine ((h.indexed.layoutFrame isPhysRegUsed).getObjectOffset_adjust ?_).trans
      ((layoutFrame_csSlot isPhysRegUsed h hlen).trans ?_)
    · rw [layoutFrame_length]
      exact Nat.add_lt_add_left hlen _
    · rw [show (getCalleeSavedRegs.filter isPhysRegUsed).length - 1 - ((savedRegs isPhysRegUsed).length - 1 - k) = k by
        unfold savedRegs at hk ⊢; omega]

end Entry

/-- The slots of `FP` and `RA` are at the end of the frame, with offsets that an
`int` holds, and a field of 16 bits for that of `FP`. -/
def SlotsFit (mf : MachineFunction) : Prop :=
  if hasFP mf then
    (if mf.frameInfo.hasCalls then -4 else 0) ≤ toInt32 mf.frameInfo.stackSize ∧ toInt32 mf.frameInfo.stackSize < 2 ^ 15
  else 0 ≤ toInt32 mf.frameInfo.stackSize

/-- One callee-saved register is saved, and its slot, which is right behind the
fixed objects, is the last word of the frame that `PEI` lays out. -/
structure SlotAtTop (isPhysRegUsed : Reg → Bool) (mf : MachineFunction) : Prop where
  length : (savedRegs isPhysRegUsed).length = 1
  nonneg : 0 ≤ toInt32 (alignUp (fixedEnd mf.frameInfo) 4)
  top : (layoutFrame isPhysRegUsed mf).frameInfo.stackSize % 2 ^ 32 = (alignUp (fixedEnd mf.frameInfo) 4 + 4) % 2 ^ 32

section Place

variable {isPhysRegUsed : Reg → Bool} {mf : MachineFunction}

/-- The place of register `k` of the mask, from `SP` on entry. -/
def InPlace (s : State) (k : Nat) (x : StoredReg) : Prop :=
  x.address = s.reg .SP + BitVec.ofInt 32 (-4) - BitVec.ofNat 32 (4 * k)

variable (h : mf.Created)
include h

theorem stackWord_finishFrame : stackWord (finishFrame isPhysRegUsed mf) =
    BitVec.ofNat 32 ((layoutFrame isPhysRegUsed mf).frameInfo.stackSize + fpBytes mf + raBytes mf) := by
  have h4 := (layoutFrame_laidOut isPhysRegUsed h).four_dvd
  have hf : fpBytes (layoutFrame isPhysRegUsed mf) = fpBytes mf := by
    rw [fpBytes, (layoutFrame_hasFP isPhysRegUsed mf).1, fpBytes]
  have hr : raBytes (layoutFrame isPhysRegUsed mf) = raBytes mf := by
    rw [raBytes, (layoutFrame_hasFP isPhysRegUsed mf).2, raBytes]
  have hf4 := fpBytes_cases mf
  have hr4 := raBytes_cases mf
  rw [stackWord, finishFrame, stackSize_adjust, hf, hr, ← BitVec.toNat_inj, BitVec.toNat_ofNat, BitVec.toNat_ofNat]
  omega

/-- A frame with its top slot in reach has bytes. -/
theorem not_prologueSkipped (hx : hasFP mf = true ∨ mf.frameInfo.hasCalls = true)
    (h0 : 0 ≤ topSlot (layoutFrame isPhysRegUsed mf)) : ¬PrologueSkipped isPhysRegUsed mf := by
  intro hskip
  have hmf := layoutFrame_hasFP isPhysRegUsed mf
  have hz := congrArg BitVec.toNat ((stackWord_finishFrame h).symm.trans hskip.1)
  obtain ⟨he, hlt⟩ := topSlot_emod (hx.imp hmf.1.trans hmf.2.trans)
  rw [fpBytes, raBytes, hmf.1, hmf.2, ← fpBytes, ← raBytes] at he
  rw [BitVec.toNat_ofNat, show (0 : Word).toNat = 0 from rfl] at hz
  omega

/-- `RA` is always in its place. -/
theorem inPlace_ra (hc : mf.frameInfo.hasCalls = true) (s : State) (v : Word) : InPlace s 0
    ⟨.RA, raAddress (finishFrame isPhysRegUsed mf) (s.reg .SP - stackWord (finishFrame isPhysRegUsed mf)), v⟩ := by
  have hr : raBytes mf = 4 := if_pos hc
  rw [InPlace, stackWord_finishFrame h, raAddress, finishFrame,
    raStackOffset_adjust _ ((layoutFrame_hasFP isPhysRegUsed mf).2.trans hc), sub_add_eq_iff, toInt32_emod_eq, fpBytes,
    (layoutFrame_hasFP isPhysRegUsed mf).1, ← fpBytes, hr]
  omega

/-- `FP` is in its place, behind `RA`, if the code has the offset of its slot. -/
theorem inPlace_fp_iff (hf : hasFP mf = true) (s : State) (v : Word) : InPlace s (raBytes mf / 4)
    ⟨.FP, fpAddress (s.reg .SP - stackWord (finishFrame isPhysRegUsed mf))
      (finishFrame isPhysRegUsed mf).functionInfo.fpStackOffset, v⟩ ↔
    isInt16 (toInt32 (layoutFrame isPhysRegUsed mf).frameInfo.stackSize) = true := by
  have hf' := (layoutFrame_hasFP isPhysRegUsed mf).1.trans hf
  have hfp : fpBytes mf = 4 := if_pos hf
  have hr4 := raBytes_cases mf
  -- the slot itself is in its place
  have hslot : fpSlotAddress (finishFrame isPhysRegUsed mf) (s.reg .SP - stackWord (finishFrame isPhysRegUsed mf)) =
      s.reg .SP + BitVec.ofInt 32 (-4) - BitVec.ofNat 32 (4 * (raBytes mf / 4)) := by
    rw [stackWord_finishFrame h, fpSlotAddress, finishFrame, fpStackOffset_adjust _ hf', sub_add_eq_iff,
      toInt32_emod_eq, hfp]
    omega
  rw [InPlace, ← hslot]
  exact fpAddress_eq_iff hf' _

theorem inPlace_spill_iff (s : State) (k : Nat) (r : Reg) (x : Int) (v : Word) :
    InPlace s (raBytes mf / 4 + (fpBytes mf / 4 + k))
      ⟨r, s.reg .SP - stackWord (finishFrame isPhysRegUsed mf) + BitVec.ofInt 32 x, v⟩ ↔
    x % 2 ^ 32 = ((layoutFrame isPhysRegUsed mf).frameInfo.stackSize - 4 - 4 * k) % 2 ^ 32 := by
  have hf4 := fpBytes_cases mf
  have hr4 := raBytes_cases mf
  rw [InPlace, stackWord_finishFrame h, sub_add_eq_iff]
  omega

/-- Every store is in its place if and only if the code has the offset of the
slot of `FP`, and the slots of the callee-saved registers lie below it, that of
the last one at the top. -/
theorem savedStores_inPlace_iff (s : State) : (∀ k x, (savedStores isPhysRegUsed mf s)[k]? = some x → InPlace s k x) ↔
    (hasFP mf = true → isInt16 (toInt32 (layoutFrame isPhysRegUsed mf).frameInfo.stackSize) = true) ∧
      ∀ (k : Nat) (c : CalleeSavedInfo), (insertPrologEpilog false isPhysRegUsed mf).csi.reverse[k]? = some c →
        frameOffset (finishFrame isPhysRegUsed mf) c.frameIdx % 2 ^ 32 =
          ((layoutFrame isPhysRegUsed mf).frameInfo.stackSize - 4 - 4 * k) % 2 ^ 32 := by
  have hr : (if mf.frameInfo.hasCalls = true then 1 else 0) = raBytes mf / 4 := by unfold raBytes; split <;> rfl
  have hf : (if hasFP mf = true then 1 else 0) = fpBytes mf / 4 := by unfold fpBytes; split <;> rfl
  rw [savedStores, List.append_assoc, forall_getElem?_ite, forall_getElem?_ite, hr, hf, Nat.add_zero]
  refine ⟨fun ⟨_, hfp, hcs⟩ => ⟨fun hf => (inPlace_fp_iff h hf s _).mp (hfp hf), fun k c hk => ?_⟩,
    fun ⟨hfp, hcs⟩ => ⟨fun hc => inPlace_ra h hc s _, fun hf => (inPlace_fp_iff h hf s _).mpr (hfp hf),
      fun k x hk => ?_⟩⟩
  · refine (inPlace_spill_iff h s k c.reg _ (s.reg c.reg)).mp (hcs k _ ?_)
    rw [← List.map_reverse, List.getElem?_map, hk]
    rfl
  · rw [← List.map_reverse, List.getElem?_map, Option.map_eq_some_iff] at hk
    obtain ⟨c, hc, rfl⟩ := hk
    exact (inPlace_spill_iff h s k c.reg _ _).mpr (hcs k c hc)

/-- Where `eliminateFrameIndex` takes an object at `n` to be. -/
theorem frameOffset_emod {fi : Int} {n : Nat} (hfi : (finishFrame isPhysRegUsed mf).frameInfo.getObjectOffset fi = n) :
    frameOffset (finishFrame isPhysRegUsed mf) fi % 2 ^ 32 =
      (if toInt32 n < 0 then
        ((layoutFrame isPhysRegUsed mf).frameInfo.stackSize + fpBytes mf + raBytes mf - n - 4 : Int)
      else n) % 2 ^ 32 := by
  have hw : (stackWord (finishFrame isPhysRegUsed mf)).toNat = _ := congrArg BitVec.toNat (stackWord_finishFrame h)
  rw [stackWord, BitVec.toNat_ofNat, BitVec.toNat_ofNat] at hw
  have hs := toInt32_emod_eq (finishFrame isPhysRegUsed mf).frameInfo.stackSize
  have hn := toInt32_emod_eq n
  simp only [frameOffset, hfi]
  split
  · rw [toInt32_emod_eq]; omega
  · exact hn

/-- The slots behind the fixed objects are in their places if and only if there
is none, or one that is the last word of the frame. -/
theorem slots_inPlace_iff (hx : hasFP mf = true ∨ mf.frameInfo.hasCalls = true) :
    (∀ (k : Nat) (c : CalleeSavedInfo), (insertPrologEpilog false isPhysRegUsed mf).csi.reverse[k]? = some c →
      frameOffset (finishFrame isPhysRegUsed mf) c.frameIdx % 2 ^ 32 =
        ((layoutFrame isPhysRegUsed mf).frameInfo.stackSize - 4 - 4 * k) % 2 ^ 32) ↔
      savedRegs isPhysRegUsed = [] ∨ SlotAtTop isPhysRegUsed mf := by
  have hf4 : fpBytes mf = 0 ∧ hasFP mf = false ∨ fpBytes mf = 4 := by unfold fpBytes; split <;> simp [*]
  have hr4 : raBytes mf = 0 ∧ mf.frameInfo.hasCalls = false ∨ raBytes mf = 4 := by unfold raBytes; split <;> simp [*]
  have hb : fpBytes mf + raBytes mf = 4 ∨ fpBytes mf + raBytes mf = 8 := by
    rcases hx with hx | hx <;> simp only [hx, Bool.true_eq_false, and_false, false_or] at hf4 hr4 <;> omega
  have hn0 := toInt32_emod_eq (alignUp (fixedEnd mf.frameInfo) 4)
  have hr0 := toInt32_range (alignUp (fixedEnd mf.frameInfo) 4)
  have h4 := dvd_alignUp (fixedEnd mf.frameInfo) 4
  constructor
  · intro hk
    by_cases hs : savedRegs isPhysRegUsed = []
    · exact .inl hs
    have hpos := List.length_pos_of_ne_nil hs
    obtain ⟨c, hc, hfi⟩ := getElem?_csi_reverse h hpos
    have h0 := hk 0 c hc
    rw [frameOffset_emod h hfi, Nat.mul_zero, Nat.add_zero] at h0
    refine .inr ⟨?_, ?_, ?_⟩
    · -- the slot of the last register but one is above that of the last one
      by_contra hlen
      obtain ⟨c', hc', hfi'⟩ := getElem?_csi_reverse h (show 1 < (savedRegs isPhysRegUsed).length by omega)
      have h1 := hk 1 c' hc'
      rw [frameOffset_emod h hfi'] at h1
      have hn1 := toInt32_emod_eq (alignUp (fixedEnd mf.frameInfo) 4 + 4 * 1 : Nat)
      have hr1 := toInt32_range (alignUp (fixedEnd mf.frameInfo) 4 + 4 * 1 : Nat)
      split at h0 <;> split at h1 <;> omega
    · split at h0 <;> omega
    · split at h0 <;> omega
  · intro hs k c hc
    have hlt := (List.getElem?_eq_some_iff.mp hc).1
    rw [List.length_reverse, insertPrologEpilog_csi, List.length_map, List.length_zipIdx] at hlt
    rcases hs with hs | ⟨hlen, hlo, hsz⟩
    · rw [hs] at hlt; cases hlt
    · obtain rfl : k = 0 := by omega
      obtain ⟨c', hc', hfi⟩ := getElem?_csi_reverse h (show 0 < (savedRegs isPhysRegUsed).length by omega)
      obtain rfl := Option.some.inj (hc.symm.trans hc')
      rw [frameOffset_emod h hfi, Nat.mul_zero, Nat.add_zero, if_neg (by omega)]
      omega

end Place

/-! ## When it is right -/

/-- A function whose prologue is still to be emitted: its `CPUTopSavedRegOff` is
as the constructor of `RigelFunctionInfo` leaves it. -/
structure Unfinished extends Frame where
  topSavedRegOff : mf.functionInfo.cpuTopSavedRegOff = 0

/-- `TopCPUSavedRegOff` is set, and the code saves `FP` where it says, if the
slots fit. -/
theorem slotsFit_iff {mf : MachineFunction} (hx : hasFP mf = true ∨ mf.frameInfo.hasCalls = true) :
    SlotsFit mf ↔ 0 ≤ topSlot mf ∧ (hasFP mf = true → isInt16 (toInt32 mf.frameInfo.stackSize) = true) := by
  have hr := toInt32_range mf.frameInfo.stackSize
  have hr' := toInt32_range (mf.frameInfo.stackSize + 4 : Nat)
  have hnext : toInt32 (mf.frameInfo.stackSize + 4 : Nat) = toInt32 mf.frameInfo.stackSize + 4 ∨
      toInt32 (mf.frameInfo.stackSize + 4 : Nat) = toInt32 mf.frameInfo.stackSize + 4 - 2 ^ 32 := by
    have he := toInt32_emod_eq mf.frameInfo.stackSize
    have he' := toInt32_emod_eq (mf.frameInfo.stackSize + 4 : Nat)
    omega
  simp only [SlotsFit, topSlot, isInt16_iff]
  cases hf : hasFP mf <;> cases hc : mf.frameInfo.hasCalls <;>
    simp only [fpBytes, hf, hc, if_true, Bool.false_eq_true, if_false, false_implies, true_implies, or_self,
      and_true, Nat.add_zero] at hx ⊢ <;> omega

/-- With a frame pointer, or a call, there is a register in the mask that is not
callee-saved. -/
theorem exists_mem_maskRegs {f : EnteredFunction} (hx : hasFP f.mf = true ∨ f.mf.frameInfo.hasCalls = true) :
    ∃ r ∉ getCalleeSavedRegs, (savedRegsBitmask f).cpuBitmask.getLsbD (getRegisterNumbering r) = true := by
  rcases hx with hf | hc
  · exact ⟨.FP, by decide, (getLsbD_cpuBitmask f .FP).mpr (.inr (.inl ⟨hf, rfl⟩))⟩
  · exact ⟨.RA, by decide, (getLsbD_cpuBitmask f .RA).mpr (.inr (.inr ⟨hc, rfl⟩))⟩

theorem cpuBitmask_ne_zero {f : EnteredFunction} {r : Reg}
    (h : (savedRegsBitmask f).cpuBitmask.getLsbD (getRegisterNumbering r) = true) :
    (savedRegsBitmask f).cpuBitmask ≠ 0 := by
  intro h0
  rw [h0, show (0 : Word) = 0#32 from rfl, BitVec.getLsbD_zero] at h
  cases h

/-- No register is in the mask of a function that saves none. -/
theorem maskDescribesFrame_of_nil {f : EnteredFunction} (hf : hasFP f.mf = false) (hc : f.mf.frameInfo.hasCalls = false)
    (hcsi : f.csi = []) (hst : ∀ s, stores f.entry s = []) : MaskDescribesFrame f := by
  have hbit (r : Reg) : (savedRegsBitmask f).cpuBitmask.getLsbD (getRegisterNumbering r) = false := by
    rw [← Bool.not_eq_true, getLsbD_cpuBitmask, hcsi, hf, hc]
    simp
  have h0 : (savedRegsBitmask f).cpuBitmask = 0 := by
    simp [savedRegsBitmask, hcsi, hf, hc]
  refine ⟨fun s r => ?_, fun s k r hr => ?_, fun h => absurd h0 h⟩
  · simp [hbit, hst]
  · have := List.mem_filter.mp (List.mem_of_getElem? hr)
    rw [hbit] at this
    cases this.2

section Right

variable {isPhysRegUsed : Reg → Bool} (F : Unfinished)

theorem maskDescribesFrame_naked : MaskDescribesFrame (insertPrologEpilog true isPhysRegUsed F.mf) ↔
    ¬(hasFP F.mf = true ∨ F.mf.frameInfo.hasCalls = true) := by
  have hmf := layoutFrame_hasFP (fun _ => false) F.mf
  constructor
  · intro h hx
    have hx' : hasFP (insertPrologEpilog true isPhysRegUsed F.mf).mf = true ∨
      (insertPrologEpilog true isPhysRegUsed F.mf).mf.frameInfo.hasCalls = true := hx.imp hmf.1.trans hmf.2.trans
    obtain ⟨_, _, _, he⟩ := layoutFrame_others (fun _ => false) F.mf
    have hoff : (savedRegsBitmask (insertPrologEpilog true isPhysRegUsed F.mf)).cpuTopSavedRegOff = 0 :=
      (congrArg (·.functionInfo.cpuTopSavedRegOff) he).trans F.topSavedRegOff
    obtain ⟨r, -, hr⟩ := exists_mem_maskRegs hx'
    have := h.negative (cpuBitmask_ne_zero hr)
    rw [hoff] at this
    cases this
  · intro hx
    rw [not_or, Bool.not_eq_true, Bool.not_eq_true] at hx
    exact maskDescribesFrame_of_nil (hmf.1.trans hx.1) (hmf.2.trans hx.2) rfl fun _ => rfl

/-- What is printed for the offset. -/
theorem cpuTopSavedRegOff_insertPrologEpilog :
    (savedRegsBitmask (insertPrologEpilog false isPhysRegUsed F.mf)).cpuTopSavedRegOff =
      if 0 ≤ topSlot (layoutFrame isPhysRegUsed F.mf) then -4 else 0 := by
  obtain ⟨_, _, _, he⟩ := layoutFrame_others isPhysRegUsed F.mf
  exact cpuTopSavedRegOff_eq (layoutFrame_laidOut isPhysRegUsed F.created).four_dvd
    ((congrArg (·.functionInfo.cpuTopSavedRegOff) he).trans F.topSavedRegOff)

/-- Without `FP` and `RA` the offset is not set. -/
theorem maskDescribesFrame_leaf (hx : ¬(hasFP F.mf = true ∨ F.mf.frameInfo.hasCalls = true)) :
    MaskDescribesFrame (insertPrologEpilog false isPhysRegUsed F.mf) ↔ savedRegs isPhysRegUsed = [] := by
  rw [not_or, Bool.not_eq_true, Bool.not_eq_true] at hx
  have hoff : (savedRegsBitmask (insertPrologEpilog false isPhysRegUsed F.mf)).cpuTopSavedRegOff = 0 := by
    rw [cpuTopSavedRegOff_insertPrologEpilog, topSlot, (layoutFrame_hasFP isPhysRegUsed F.mf).1,
      (layoutFrame_hasFP isPhysRegUsed F.mf).2, hx.1, hx.2]
    rfl
  constructor
  · intro h
    refine List.eq_nil_iff_forall_not_mem.mpr fun r hr => ?_
    rw [← insertPrologEpilog_csi_reg isPhysRegUsed F.mf] at hr
    have := h.negative (cpuBitmask_ne_zero ((getLsbD_cpuBitmask _ r).mpr (.inl hr)))
    rw [hoff] at this
    cases this
  · intro hs
    have hcsi : (insertPrologEpilog false isPhysRegUsed F.mf).csi = [] := by
      rw [insertPrologEpilog_csi, hs]; rfl
    refine maskDescribesFrame_of_nil ((hasFP_finishFrame ..).trans hx.1)
        ((hasCalls_finishFrame ..).trans hx.2) hcsi fun s => ?_
    by_cases hskip : PrologueSkipped isPhysRegUsed F.mf
    · exact List.map_eq_nil_iff.mp ((stores_entry_of_skipped hskip s).2.trans hs)
    · refine List.eq_nil_iff_forall_not_mem.mpr fun x hm => ?_
      rw [(stores_entry hskip s).2.mem_iff, savedStores, hx.1, hx.2, hcsi] at hm
      cases hm

theorem maskDescribesFrame_iff (hx : hasFP F.mf = true ∨ F.mf.frameInfo.hasCalls = true) :
    MaskDescribesFrame (insertPrologEpilog false isPhysRegUsed F.mf) ↔
      SlotsFit (layoutFrame isPhysRegUsed F.mf) ∧ (savedRegs isPhysRegUsed = [] ∨ SlotAtTop isPhysRegUsed F.mf) := by
  have hoff : (savedRegsBitmask (insertPrologEpilog false isPhysRegUsed F.mf)).cpuTopSavedRegOff = _ :=
    cpuTopSavedRegOff_insertPrologEpilog F
  have hmf := layoutFrame_hasFP isPhysRegUsed F.mf
  have hx' : hasFP (finishFrame isPhysRegUsed F.mf) = true ∨
      (finishFrame isPhysRegUsed F.mf).frameInfo.hasCalls = true :=
    hx.imp (hasFP_finishFrame ..).trans (hasCalls_finishFrame ..).trans
  obtain ⟨r, hcs, hr⟩ := exists_mem_maskRegs (f := insertPrologEpilog false isPhysRegUsed F.mf) hx'
  rw [slotsFit_iff (hx.imp hmf.1.trans hmf.2.trans), hmf.1, and_assoc, ← slots_inPlace_iff F.created hx]
  constructor
  · intro h
    have h0 : 0 ≤ topSlot (layoutFrame isPhysRegUsed F.mf) := by
      by_contra hn
      have := h.negative (cpuBitmask_ne_zero hr)
      rw [hoff, if_neg hn] at this
      cases this
    rw [if_pos h0] at hoff
    have hskip : ¬PrologueSkipped isPhysRegUsed F.mf := fun hskip => by
      have hm := (h.registers (stateOf 0 0 0 fun _ => 0) r).mp hr
      rw [(stores_entry_of_skipped hskip _).2] at hm
      exact hcs (mem_savedRegs hm)
    refine ⟨h0, (savedStores_inPlace_iff F.created (stateOf 0 0 0 fun _ => 0)).mp ?_⟩
    refine (forall_mem_iff_address (savedStores_nodup _) (savedStores_value _) _).mp fun k r hr => ?_
    rw [savedStores_reg] at hr
    have := h.positions (stateOf 0 0 0 fun _ => 0) k r hr
    rw [hoff, (stores_entry hskip _).2.mem_iff] at this
    exact this
  · rintro ⟨h0, hpos⟩
    rw [if_pos h0] at hoff
    have hskip : ¬PrologueSkipped isPhysRegUsed F.mf := not_prologueSkipped F.created hx h0
    refine ⟨fun s r => ?_, fun s k r hr => ?_, fun _ => by rw [hoff]; decide⟩
    · rw [← mem_maskRegs, ← savedStores_reg s, ((stores_entry hskip s).2.map _).mem_iff]
    · rw [(stores_entry hskip s).2.mem_iff, hoff]
      rw [← savedStores_reg s] at hr
      exact (forall_mem_iff_address (savedStores_nodup s) (savedStores_value s) _).mpr
        ((savedStores_inPlace_iff F.created s).mpr hpos) k r hr

end Right

/-- The directive describes the frame of a function if and only if it saves
nothing, or has a frame pointer or a call, a prologue, slots of `FP` and `RA`
that fit, and no callee-saved register, or a single one whose slot is at the
top of what `PEI` lays out. -/
theorem mask_describes_frame_iff (naked : Bool) (isPhysRegUsed : Reg → Bool) (F : Unfinished) :
    MaskDescribesFrame (insertPrologEpilog naked isPhysRegUsed F.mf) ↔
      if hasFP F.mf = true ∨ F.mf.frameInfo.hasCalls = true then
        naked = false ∧ SlotsFit (layoutFrame isPhysRegUsed F.mf) ∧
          (savedRegs isPhysRegUsed = [] ∨ SlotAtTop isPhysRegUsed F.mf)
      else naked = true ∨ savedRegs isPhysRegUsed = [] := by
  cases naked with
  | true =>
    rw [maskDescribesFrame_naked]
    split <;> simp [*]
  | false =>
    split
    · rename_i hx
      rw [maskDescribesFrame_iff F hx]
      simp
    · rename_i hx
      rw [maskDescribesFrame_leaf F hx]
      simp

/-- What takes no room above the slot of the only callee-saved register. -/
structure NothingAbove (mf : MachineFunction) : Prop where
  /-- Live locals are empty, as variable-sized objects are. -/
  locals : ∀ i, mf.frameInfo.isDeadObjectIndex i = false → mf.frameInfo.getObjectSize i = 0
  /-- No room is reserved for calls. -/
  callFrame : mf.frameInfo.adjustsStack = true → hasFP mf = false → mf.frameInfo.maxCallFrameSize = 0
  /-- The size is not rounded up. -/
  aligned : max stackAlignment mf.frameInfo.maxAlignment ∣ alignUp (fixedEnd mf.frameInfo) 4 + 4

section NothingAbove

variable {isPhysRegUsed : Reg → Bool} {mf : MachineFunction}

/-- The slot is placed first, behind the fixed objects. -/
theorem offset_slot {cs : CSFrameIndices} {m : MachineFrameInfo} (hsv : Saved mf.frameInfo 1 (cs, m)) :
    (cs.down.foldl Layout.adjustStackOffset ⟨fixedEnd m, 0, m⟩).offset = alignUp (fixedEnd mf.frameInfo) 4 + 4 := by
  have hfix : fixedEnd m = fixedEnd mf.frameInfo :=
    fixedEnd_eq_of_fixedObjects (congrArg MachineFrameInfo.fixedObjects hsv.others :)
  obtain ⟨hsize, halign⟩ := hsv.slot (i := mf.frameInfo.objects.length) (hsv.contains.mpr ⟨Nat.le_refl _, by omega⟩)
  rw [show cs.down = [mf.frameInfo.objects.length] from hsv.down, ← hfix]
  show alignUp (fixedEnd m) (m.getObjectAlignment mf.frameInfo.objects.length) +
    m.getObjectSize mf.frameInfo.objects.length = _
  rw [hsize, halign]

theorem room_eq_iff {a b : Bool} {e n t : Nat} (hle : t ≤ e) :
    (if a && !b then e + n else e) = t ↔ e = t ∧ (a = true → b = false → n = 0) := by
  cases a <;> cases b <;> simp
  omega

variable (h : mf.Created)
include h

/-- The end of the objects is that of the slot of the only callee-saved register
if and only if the locals are empty and aligned there. -/
theorem layoutObjects_offset_eq_iff {cs : CSFrameIndices} {m : MachineFrameInfo} (hsv : Saved mf.frameInfo 1 (cs, m)) :
    (layoutObjects cs m).offset = alignUp (fixedEnd mf.frameInfo) 4 + 4 ↔
      ∀ i, mf.frameInfo.isDeadObjectIndex i = false → mf.frameInfo.getObjectSize i = 0 ∧
        mf.frameInfo.getObjectAlignment i ∣ alignUp (fixedEnd mf.frameInfo) 4 + 4 := by
  have hp := fun p => hsv.protector h (p := p)
  have hmem {i : Nat} := mem_layoutOrder (fun i => hsv.live (i := i)) (fun p h => (hp p h).1) (i := i)
  have hnd := (List.nodup_append.mp (layoutOrder_nodup fun p h => (hp p h).2)).2.2
  have hdown : cs.down = [mf.frameInfo.objects.length] := hsv.down
  have hs := Layout.similar_foldl ⟨fixedEnd m, 0, m⟩ cs.down
  rw [layoutObjects_eq_foldl, ← offset_slot hsv]
  refine (Layout.offset_foldl_eq_iff _ _).trans ?_
  simp only [hs.size, hs.alignment]
  -- what is placed then are the locals
  have hold {i : Nat} (hi : i < mf.frameInfo.objects.length) : m.objects[i]? = mf.frameInfo.objects[i]? := by
    rw [hsv.objects, List.getElem?_append_left hi]
  have hrest {i : Nat} : i ∈ m.stackProtectorIdx.toList ++ largeStackObjs cs m ++ otherStackObjs cs m ↔
      mf.frameInfo.isDeadObjectIndex i = false := by
    constructor
    · intro hi
      have hlive := hmem.mp (List.mem_append_right _ hi)
      have hne : i ≠ mf.frameInfo.objects.length := fun he =>
        hnd i (by rw [hdown, he]; exact List.mem_singleton_self _) i hi rfl
      have hlt := lt_of_not_dead hlive
      rw [hsv.objects, List.length_append, List.length_replicate] at hlt
      rwa [MachineFrameInfo.isDeadObjectIndex, hold (by omega)] at hlive
    · intro hi
      have hlt := lt_of_not_dead hi
      rw [MachineFrameInfo.isDeadObjectIndex, ← hold hlt] at hi
      refine (List.mem_append.mp (hmem.mpr hi)).resolve_left fun hm => ?_
      rw [hdown, List.mem_singleton] at hm
      omega
  refine forall_congr' fun i => ?_
  rw [hrest]
  refine imp_congr_right fun hi => ?_
  rw [MachineFrameInfo.getObjectSize, MachineFrameInfo.getObjectAlignment, hold (lt_of_not_dead hi)]
  rfl

/-- Behind the objects is the room for calls, if it is reserved, up to the
alignment of the frame. -/
theorem stackSize_calculateFrameObjectOffsets {n : Nat} {cs : CSFrameIndices} {m : MachineFrameInfo}
    (hsv : Saved mf.frameInfo n (cs, m)) (hcr : ({ mf with frameInfo := m } : MachineFunction).Created)
    (hA : max stackAlignment m.maxAlignment = max stackAlignment mf.frameInfo.maxAlignment) :
    (calculateFrameObjectOffsets cs { mf with frameInfo := m }).frameInfo.stackSize =
      alignUp (if mf.frameInfo.adjustsStack && !hasFP mf then
        (layoutObjects cs m).offset + mf.frameInfo.maxCallFrameSize else (layoutObjects cs m).offset)
        (max stackAlignment mf.frameInfo.maxAlignment) := by
  have hp := fun p => hsv.protector h (p := p)
  have hlt : ∀ i ∈ layoutOrder cs m, i < m.objects.length := fun i hi =>
    lt_of_not_dead ((mem_layoutOrder (fun i => hsv.live (i := i)) fun p h => (hp p h).1).mp hi)
  have hmax := layoutObjects_maxAlign hlt fun i hi => hcr.getObjectAlignment_le hi
  have hcall : m.adjustsStack = mf.frameInfo.adjustsStack ∧ m.maxCallFrameSize = mf.frameInfo.maxCallFrameSize ∧
      hasFP { mf with frameInfo := m } = hasFP mf := by
    rw [hasFP, hasFP, ← hsv.others]
    exact ⟨rfl, rfl, rfl⟩
  rw [← hcall.1, ← hcall.2.1, ← hcall.2.2, ← hA, ← hmax]
  rfl

/-- The slot of the only callee-saved register is in the frame, and is its last
word if and only if nothing takes room above it. -/
theorem stackSize_slot (h1 : (savedRegs isPhysRegUsed).length = 1) :
    alignUp (fixedEnd mf.frameInfo) 4 + 4 ≤ (layoutFrame isPhysRegUsed mf).frameInfo.stackSize ∧
      ((layoutFrame isPhysRegUsed mf).frameInfo.stackSize = alignUp (fixedEnd mf.frameInfo) 4 + 4 ↔
        NothingAbove mf) := by
  have hsv := calculateCalleeSavedRegisters_savedRegs isPhysRegUsed mf.frameInfo
  have hcr := calculateCalleeSavedRegisters_created isPhysRegUsed h
  have hA := calculateCalleeSavedRegisters_maxAlignment isPhysRegUsed mf.frameInfo
  rw [show (getCalleeSavedRegs.filter isPhysRegUsed).length = 1 from h1] at hsv
  unfold layoutFrame
  generalize calculateCalleeSavedRegisters isPhysRegUsed mf.frameInfo = c at hsv hcr hA
  obtain ⟨cs, m⟩ := c
  have hle : alignUp (fixedEnd mf.frameInfo) 4 + 4 ≤ (layoutObjects cs m).offset := by
    rw [layoutObjects_eq_foldl, ← offset_slot hsv]
    exact Layout.le_offset_foldl
      { cs.down.foldl Layout.adjustStackOffset ⟨fixedEnd m, 0, m⟩ with
        maxAlign := (cs.down.foldl Layout.adjustStackOffset ⟨fixedEnd m, 0, m⟩).frameInfo.maxAlignment } _
  have hpos : 0 < max stackAlignment mf.frameInfo.maxAlignment := lt_of_lt_of_le (by decide) (Nat.le_max_left ..)
  have hroom : alignUp (fixedEnd mf.frameInfo) 4 + 4 ≤ if mf.frameInfo.adjustsStack && !hasFP mf then
      (layoutObjects cs m).offset + mf.frameInfo.maxCallFrameSize else (layoutObjects cs m).offset :=
    hle.trans (by split <;> omega)
  rw [stackSize_calculateFrameObjectOffsets h hsv hcr hA]
  refine ⟨hroom.trans (le_alignUp hpos), ?_⟩
  rw [alignUp_eq_iff hpos hroom, room_eq_iff hle, layoutObjects_offset_eq_iff h hsv]
  constructor
  · rintro ⟨⟨hlocals, hcf⟩, hal⟩
    exact ⟨fun i hi => (hlocals i hi).1, hcf, hal⟩
  · intro hn
    exact ⟨⟨fun i hi => ⟨hn.locals i hi, Nat.dvd_trans (h.alignment_dvd hi) hn.aligned⟩, hn.callFrame⟩, hn.aligned⟩

/-- Of a frame of less than 2³² bytes. -/
theorem slotAtTop_iff (hlt : (layoutFrame isPhysRegUsed mf).frameInfo.stackSize < 2 ^ 32) : SlotAtTop isPhysRegUsed mf ↔
    (savedRegs isPhysRegUsed).length = 1 ∧ 0 ≤ toInt32 (alignUp (fixedEnd mf.frameInfo) 4) ∧ NothingAbove mf := by
  constructor
  · rintro ⟨h1, h0, htop⟩
    obtain ⟨hle, hiff⟩ := stackSize_slot h h1
    exact ⟨h1, h0, hiff.mp (by omega)⟩
  · rintro ⟨h1, h0, hn⟩
    exact ⟨h1, h0, by rw [(stackSize_slot h h1).2.mpr hn]⟩

end NothingAbove

/-- No register is stored twice. -/
theorem stores_entry_nodup (naked : Bool) (isPhysRegUsed : Reg → Bool) (mf : MachineFunction) (s : State) :
    (∃ s', run (insertPrologEpilog naked isPhysRegUsed mf).entry s = some s') ∧
      ((stores (insertPrologEpilog naked isPhysRegUsed mf).entry s).map (·.reg)).Nodup := by
  cases naked with
  | true => exact ⟨⟨s, rfl⟩, List.nodup_nil⟩
  | false =>
    by_cases hskip : PrologueSkipped isPhysRegUsed mf
    · obtain ⟨hrun, hst⟩ := stores_entry_of_skipped hskip s
      exact ⟨hrun, hst ▸ savedRegs_nodup isPhysRegUsed⟩
    · obtain ⟨hrun, hst⟩ := stores_entry hskip s
      exact ⟨hrun, (hst.map _).nodup_iff.mpr (savedStores_nodup s)⟩

/-- A right directive leads to the values that the registers had on entry. -/
theorem MaskDescribesFrame.readWord {f : EnteredFunction} (h : MaskDescribesFrame f) {s s' : State}
    (hrun : run f.entry s = some s') (hn : ((stores f.entry s).map (·.reg)).Nodup) {k : Nat} {r : Reg}
    (hk : (maskRegs (savedRegsBitmask f).cpuBitmask)[k]? = some r) :
    s'.mem.readWord (s.reg .SP + BitVec.ofInt 32 (savedRegsBitmask f).cpuTopSavedRegOff - BitVec.ofNat 32 (4 * k)) =
      s.reg r := by
  generalize hb : s.reg .SP + BitVec.ofInt 32 (savedRegsBitmask f).cpuTopSavedRegOff = b
  have hpos (k : Nat) (r : Reg) (hk : (maskRegs (savedRegsBitmask f).cpuBitmask)[k]? = some r) :
      ⟨r, b - BitVec.ofNat 32 (4 * k), s.reg r⟩ ∈ stores f.entry s := hb ▸ h.positions s k r hk
  -- every store is in the place of its register
  have hplace (x : StoredReg) (hx : x ∈ stores f.entry s) :
      ∃ k < 32, (maskRegs (savedRegsBitmask f).cpuBitmask)[k]? = some x.reg ∧
        x.address = b - BitVec.ofNat 32 (4 * k) := by
    have hm := mem_maskRegs.mpr ((h.registers s x.reg).mpr (List.mem_map_of_mem hx))
    obtain ⟨k, hk⟩ := List.mem_iff_getElem?.mp hm
    refine ⟨k, ?_, hk, ?_⟩
    · exact lt_of_lt_of_le (List.getElem?_eq_some_iff.mp hk).1 (maskRegs_length_le _)
    · rw [List.inj_on_of_nodup_map hn hx (hpos k x.reg hk) rfl]
  have hd : (stores f.entry s).Pairwise fun x y => (word x.address).Disjoint (word y.address) := by
    refine List.Nodup.pairwise_of_forall_ne (List.Nodup.of_map _ hn) fun x hx y hy hne => ?_
    obtain ⟨i, hi, hxi, hxa⟩ := hplace x hx
    obtain ⟨j, hj, hyj, hya⟩ := hplace y hy
    have hij : i ≠ j := fun e => hne (List.inj_on_of_nodup_map hn hx hy (by
      rw [e, hyj] at hxi
      exact (Option.some.inj hxi).symm))
    rw [hxa, hya]
    exact word_disjoint_below b hi hj hij
  have hread := readWord_run hrun hd (hpos k r hk)
  exact hread

/-- The code before the body runs, changes memory only where it saves a register,
and the directive, if it is right, leads to the registers of the caller. -/
theorem readWord_of_maskDescribesFrame {naked : Bool} {isPhysRegUsed : Reg → Bool} {mf : MachineFunction}
    (h : MaskDescribesFrame (insertPrologEpilog naked isPhysRegUsed mf)) (s : State) :
    ∃ s', run (insertPrologEpilog naked isPhysRegUsed mf).entry s = some s' ∧
      Unchanged ((stores (insertPrologEpilog naked isPhysRegUsed mf).entry s).map fun x => word x.address)
        s.mem s'.mem ∧
      ∀ k r, (maskRegs (savedRegsBitmask (insertPrologEpilog naked isPhysRegUsed mf)).cpuBitmask)[k]? = some r →
        s'.mem.readWord (s.reg .SP +
          BitVec.ofInt 32 (savedRegsBitmask (insertPrologEpilog naked isPhysRegUsed mf)).cpuTopSavedRegOff -
            BitVec.ofNat 32 (4 * k)) = s.reg r := by
  obtain ⟨⟨s', hrun⟩, hn⟩ := stores_entry_nodup naked isPhysRegUsed mf s
  exact ⟨s', hrun, unchanged_run hrun, fun _ _ hk => h.readWord hrun hn hk⟩

/-- A function with a local of 4 bytes and a call. -/
def callingFunction : Unfinished where
  mf :=
    let m := (({} : MachineFrameInfo).createStackObject 4 4 four_pow false).2
    { frameInfo := { m with hasCalls := true, adjustsStack := true, maxCallFrameSize := 0 } }
  created := ((MachineFunction.Created.empty false).createStackObject 4 four_pow false).setFlags true true 0
  topSavedRegOff := rfl

/-- `S0` is at the bottom of the frame, the local between it and `RA`. -/
theorem callingFunction_mask : ¬MaskDescribesFrame (insertPrologEpilog false (· == .S0) callingFunction.mf) := by
  intro h
  have := h.positions (stateOf 0 0 0 fun _ => 0) 1 .S0 (by decide +kernel)
  revert this
  decide +kernel

end Rigel
