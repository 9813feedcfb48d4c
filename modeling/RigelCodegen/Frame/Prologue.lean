import RigelCodegen.Frame.RigelStackFrame
import RigelCodegen.Target.Machine

/-!
# Prologues and epilogues

`emitPrologue` finishes the frame, makes room for it, saves `RA` if there are
calls, and saves and sets `FP` if it is used; `emitEpilogue` undoes it before
a return. The stack adjustment and the slot of `RA` have code for offsets of
more than 16 bits, the slot of `FP` does not. `run_emitPrologue` and
`run_emitEpilogue` are what the code does; `prologue_epilogue_inverse_iff` says
for which frames a function leaves `SP`, `FP` and `RA` as it found them.
-/

namespace Rigel

open Word32

/-- The access to the slot of `RA`, in the prologue or in the epilogue. -/
def accessRA (opcode : Opcode) (raOffset : Int) : List MachineInstr :=
  let w : Word := BitVec.ofInt 32 raOffset
  if isInt16 raOffset then [⟨opcode, [.reg .RA, .imm raOffset, .reg .SP]⟩]
  else
    [⟨.mvui, [.reg .AT, .imm (w.sshiftRight 16).toInt]⟩,
      ⟨.ori, [.reg .AT, .reg .AT, .imm (w &&& 0xFFFF).toInt]⟩,
      ⟨.add, [.reg .AT, .reg .SP, .reg .AT]⟩,
      ⟨opcode, [.reg .RA, .imm 0, .reg .AT]⟩]

/-- `StackSize` is an `unsigned` here, so `-StackSize` is one too. -/
def makeRoom (stackSize : Word) : List MachineInstr :=
  if isInt16 stackSize.toNat then [⟨.addi, [.reg .SP, .reg .SP, .imm (-stackSize).toNat]⟩]
  else
    [⟨.mvui, [.reg .AT, .imm (stackSize >>> 16).toNat]⟩,
      ⟨.ori, [.reg .AT, .reg .AT, .imm (stackSize &&& 0xFFFF).toNat]⟩,
      ⟨.sub, [.reg .SP, .reg .SP, .reg .AT]⟩]

/-- `StackSize` is an `int` here. -/
def giveBack (stackSize : Word) : List MachineInstr :=
  if isInt16 stackSize.toInt then [⟨.addi, [.reg .SP, .reg .SP, .imm stackSize.toInt]⟩]
  else
    [⟨.mvui, [.reg .AT, .imm (stackSize.sshiftRight 16).toInt]⟩,
      ⟨.ori, [.reg .AT, .reg .AT, .imm (stackSize &&& 0xFFFF).toInt]⟩,
      ⟨.add, [.reg .SP, .reg .SP, .reg .AT]⟩]

def saveFP (fpOffset : Int) : List MachineInstr :=
  [⟨.sw, [.reg .FP, .imm fpOffset, .reg .SP]⟩, ⟨.or, [.reg .FP, .reg .SP, .reg .ZERO]⟩]

def restoreFP (fpOffset : Int) : List MachineInstr :=
  [⟨.or, [.reg .SP, .reg .FP, .reg .ZERO]⟩, ⟨.lw, [.reg .FP, .imm fpOffset, .reg .SP]⟩]

/-- `getStackSize`, as an `unsigned` or an `int`. -/
def stackWord (mf : MachineFunction) : Word := BitVec.ofNat 32 mf.frameInfo.stackSize

/-- The code of a prologue that is not skipped. -/
def enterFrame (mf : MachineFunction) : List MachineInstr :=
  ⟨.noreorder, []⟩ :: (makeRoom (stackWord mf) ++
    ((if mf.frameInfo.hasCalls then accessRA .sw mf.functionInfo.raStackOffset else []) ++
      if hasFP mf then saveFP mf.functionInfo.fpStackOffset else []))

/-- `emitPrologue`: the function with its frame finished, and the code. -/
def emitPrologue (mf : MachineFunction) : MachineFunction × List MachineInstr :=
  let mf := adjustRigelStackFrame mf
  (mf, if stackWord mf = 0 ∧ mf.frameInfo.adjustsStack = false then [] else enterFrame mf)

/-- `emitEpilogue`, of a function with its frame finished. -/
def emitEpilogue (mf : MachineFunction) : List MachineInstr :=
  (if hasFP mf then restoreFP mf.functionInfo.fpStackOffset else []) ++
    if stackWord mf = 0 then []
    else (if mf.frameInfo.hasCalls then accessRA .lw mf.functionInfo.raStackOffset else []) ++ giveBack (stackWord mf)

/-- All registers but some stay. -/
def State.Keeps (rs : List Reg) (s s' : State) : Prop := ∀ r ∉ rs, s'.reg r = s.reg r

namespace State.Keeps

variable {rs : List Reg} {s s' : State}

theorem refl : s.Keeps rs s := fun _ _ => rfl

theorem setReg (h : s.Keeps rs s') {r : Reg} (hr : r ∈ rs) (v : Word) : s.Keeps rs (s'.setReg r v) := by
  intro x hx
  have : x ≠ r := fun e => hx (e ▸ hr)
  rw [State.reg_setReg, if_neg this, h x hx]
  split <;> simp [*]

theorem setMem (h : s.Keeps rs s') (m : Mem) : s.Keeps rs (s'.setMem m) := h

end State.Keeps

theorem run_saveRA (raOffset : Int) (s : State) : ∃ s', run (accessRA .sw raOffset) s = some s' ∧
    s'.mem = s.mem.writeWord (s.reg .SP + BitVec.ofInt 32 raOffset) (s.reg .RA) ∧ s.Keeps [.AT] s' := by
  unfold accessRA
  split
  · rename_i h
    refine ⟨_, rfl, ?_, State.Keeps.refl.setMem _⟩
    simp only [State.mem_setMem, immediate_of_isInt16 .sw rfl h]
  · simp only [run_mvui_ori (show Reg.AT ≠ .ZERO by decide), run_cons, exec_add, Option.bind_some]
    refine ⟨_, rfl, ?_, ((State.Keeps.refl.setReg (by decide) _).setReg (by decide) _).setMem _⟩
    simp [immediate_of_isInt16 .sw (x := 0) rfl (by decide)]

theorem run_restoreRA (raOffset : Int) (s : State) : ∃ s', run (accessRA .lw raOffset) s = some s' ∧
    s'.reg .RA = s.mem.readWord (s.reg .SP + BitVec.ofInt 32 raOffset) ∧ s.Keeps [.AT, .RA] s' := by
  unfold accessRA
  split
  · rename_i h
    refine ⟨_, rfl, ?_, State.Keeps.refl.setReg (by decide) _⟩
    simp only [State.reg_setReg, immediate_of_isInt16 .lw rfl h, reduceCtorEq, if_false, if_true]
  · simp only [run_mvui_ori (show Reg.AT ≠ .ZERO by decide), run_cons, exec_add, Option.bind_some]
    refine ⟨_, rfl, ?_, ((State.Keeps.refl.setReg (by decide) _).setReg (by decide) _).setReg (by decide) _⟩
    simp [immediate_of_isInt16 .lw (x := 0) rfl (by decide)]

/-- The immediate `-StackSize` is cut to its field. -/
theorem immediate_neg {w : Word} (h : isInt16 w.toNat = true) : immediate .addi ((-w).toNat : Int) = -w := by
  rw [isInt16_iff] at h
  have hx : ((-w).toNat : Int) % 2 ^ 16 = (-(w.toNat : Int)) % 2 ^ 16 := by
    rw [BitVec.toNat_neg]; omega
  rw [immediate_eq, show BitVec.ofInt 16 ((-w).toNat : Int) = BitVec.ofInt 16 (-(w.toNat : Int)) from
    BitVec.eq_of_toNat_eq (by rw [BitVec.toNat_ofInt, BitVec.toNat_ofInt]; exact congrArg Int.toNat hx)]
  refine (sext_ofInt (isInt16_iff.mpr (by omega))).trans ?_
  rw [BitVec.ofInt_neg, BitVec.ofInt_natCast, BitVec.ofNat_toNat, BitVec.setWidth_eq]

theorem run_makeRoom (stackSize : Word) (s : State) : ∃ s', run (makeRoom stackSize) s = some s' ∧
    s'.mem = s.mem ∧ s'.reg .SP = s.reg .SP - stackSize ∧ s.Keeps [.AT, .SP] s' := by
  unfold makeRoom
  split
  · rename_i h
    refine ⟨_, rfl, rfl, ?_, State.Keeps.refl.setReg (by decide) _⟩
    simp only [State.reg_setReg, immediate_neg h, BitVec.sub_eq_add_neg, reduceCtorEq, if_false, if_true]
  · simp only [run_mvui_ori_unsigned (show Reg.AT ≠ .ZERO by decide)]
    refine ⟨_, rfl, rfl, by simp, (State.Keeps.refl.setReg (by decide) _).setReg (by decide) _⟩

theorem run_giveBack (stackSize : Word) (s : State) : ∃ s', run (giveBack stackSize) s = some s' ∧
    s'.reg .SP = s.reg .SP + stackSize ∧ s.Keeps [.AT, .SP] s' := by
  unfold giveBack
  split
  · rename_i h
    refine ⟨_, rfl, ?_, State.Keeps.refl.setReg (by decide) _⟩
    simp only [State.reg_setReg, immediate_of_isInt16 .addi rfl h, BitVec.ofInt_toInt, reduceCtorEq,
      if_false, if_true]
  · simp only [run_mvui_ori (show Reg.AT ≠ .ZERO by decide)]
    refine ⟨_, rfl, by simp, (State.Keeps.refl.setReg (by decide) _).setReg (by decide) _⟩

/-- The address in the code for the slot of `FP`, at any size: an offset of
more than 16 bits is cut. -/
def fpAddress (base : Word) (fpOffset : Int) : Word := base + sext (BitVec.ofInt 16 fpOffset)

theorem run_saveFP (fpOffset : Int) (s : State) : ∃ s', run (saveFP fpOffset) s = some s' ∧
    s'.mem = s.mem.writeWord (fpAddress (s.reg .SP) fpOffset) (s.reg .FP) ∧ s'.reg .FP = s.reg .SP ∧
    s.Keeps [.FP] s' := by
  refine ⟨_, rfl, ?_, by simp, (State.Keeps.refl.setMem _).setReg (by decide) _⟩
  simp only [State.mem_setReg, State.mem_setMem, immediate_eq]; rfl

theorem run_restoreFP (fpOffset : Int) (s : State) : ∃ s', run (restoreFP fpOffset) s = some s' ∧
    s'.mem = s.mem ∧ s'.reg .SP = s.reg .FP ∧ s'.reg .FP = s.mem.readWord (fpAddress (s.reg .FP) fpOffset) ∧
    s.Keeps [.SP, .FP] s' := by
  refine ⟨_, rfl, rfl, by simp, ?_, (State.Keeps.refl.setReg (by decide) _).setReg (by decide) _⟩
  simp [immediate_eq, readField, fpAddress]

/-! ## What the code does -/

/-- The slot of `RA`. -/
def raAddress (mf : MachineFunction) (base : Word) : Word := base + BitVec.ofInt 32 mf.functionInfo.raStackOffset

/-- The memory that the body of a function finds, with `RA` and `FP` saved. -/
def savedMem (mf : MachineFunction) (base : Word) (s : State) : Mem :=
  let m := if mf.frameInfo.hasCalls then s.mem.writeWord (raAddress mf base) (s.reg .RA) else s.mem
  if hasFP mf then m.writeWord (fpAddress base mf.functionInfo.fpStackOffset) (s.reg .FP) else m

/-- `s₁` is a state that the body is entered in, from `s`. -/
structure Entered (mf : MachineFunction) (s s₁ : State) : Prop where
  sp : s₁.reg .SP = s.reg .SP - stackWord mf
  fp : s₁.reg .FP = if hasFP mf then s.reg .SP - stackWord mf else s.reg .FP
  ra : s₁.reg .RA = s.reg .RA
  mem : s₁.mem = savedMem mf (s.reg .SP - stackWord mf) s

theorem emitPrologue_snd {mf : MachineFunction}
    (h : ¬(stackWord (adjustRigelStackFrame mf) = 0 ∧ (adjustRigelStackFrame mf).frameInfo.adjustsStack = false)) :
    (emitPrologue mf).2 = enterFrame (adjustRigelStackFrame mf) := by
  simp only [emitPrologue]
  rw [if_neg h]

/-- The code that is emitted if there is a frame, or the stack is used. -/
theorem run_emitPrologue {mf : MachineFunction}
    (h : ¬(stackWord (adjustRigelStackFrame mf) = 0 ∧ (adjustRigelStackFrame mf).frameInfo.adjustsStack = false))
    (s : State) : ∃ s₁, run (emitPrologue mf).2 s = some s₁ ∧ Entered (adjustRigelStackFrame mf) s s₁ := by
  rw [emitPrologue_snd h]
  generalize adjustRigelStackFrame mf = mf
  rw [enterFrame, run_cons, show exec ⟨.noreorder, []⟩ s = some s from rfl, Option.bind_some, run_append]
  obtain ⟨s₁, h₁, hm₁, hsp₁, hk₁⟩ := run_makeRoom (stackWord mf) s
  rw [h₁, Option.bind_some]
  -- `RA`, if there are calls
  obtain ⟨s₂, h₂, hm₂, hk₂⟩ : ∃ s₂,
      run (if mf.frameInfo.hasCalls then accessRA .sw mf.functionInfo.raStackOffset else []) s₁ = some s₂ ∧
        s₂.mem = (if mf.frameInfo.hasCalls then s.mem.writeWord (raAddress mf (s₁.reg .SP)) (s.reg .RA) else s.mem) ∧
        s₁.Keeps [.AT] s₂ := by
    split
    · obtain ⟨s₂, h₂, hm₂, hk₂⟩ := run_saveRA mf.functionInfo.raStackOffset s₁
      exact ⟨s₂, h₂, by rw [hm₂, hm₁, hk₁ .RA (by decide)]; rfl, hk₂⟩
    · exact ⟨s₁, rfl, hm₁, .refl⟩
  rw [run_append, h₂, Option.bind_some]
  have hsp : s₂.reg .SP = s.reg .SP - stackWord mf := (hk₂ .SP (by decide)).trans hsp₁
  have hfp : s₂.reg .FP = s.reg .FP := (hk₂ .FP (by decide)).trans (hk₁ .FP (by decide))
  have hra : s₂.reg .RA = s.reg .RA := (hk₂ .RA (by decide)).trans (hk₁ .RA (by decide))
  rw [show s₁.reg .SP = s.reg .SP - stackWord mf from hsp₁] at hm₂
  split
  · rename_i hf
    obtain ⟨s₃, h₃, hm₃, hfp₃, hk₃⟩ := run_saveFP mf.functionInfo.fpStackOffset s₂
    refine ⟨s₃, h₃, (hk₃ .SP (by decide)).trans hsp, ?_, (hk₃ .RA (by decide)).trans hra, ?_⟩
    · rw [if_pos hf, hfp₃, hsp]
    · rw [hm₃, hsp, hfp, hm₂, savedMem, if_pos hf]
  · rename_i hf
    exact ⟨s₂, rfl, hsp, by rw [if_neg hf, hfp], hra, by rw [hm₂, savedMem, if_neg hf]⟩

theorem stores_makeRoom (stackSize : Word) (s : State) : stores (makeRoom stackSize) s = [] := by
  refine stores_eq_nil (fun mi hmi => ?_) s
  unfold makeRoom at hmi
  split at hmi <;> simp only [List.mem_cons, List.not_mem_nil, or_false] at hmi
  · subst hmi; exact ⟨nofun, nofun⟩
  · rcases hmi with rfl | rfl | rfl <;> exact ⟨nofun, nofun⟩

theorem stores_saveRA (raOffset : Int) (s : State) :
    stores (accessRA .sw raOffset) s = [⟨.RA, s.reg .SP + BitVec.ofInt 32 raOffset, s.reg .RA⟩] := by
  unfold accessRA
  split
  · rename_i h
    rw [← immediate_of_isInt16 .sw rfl h]
    rfl
  · simp only [stores_mvui_ori (show Reg.AT ≠ .ZERO by decide), stores_cons (exec_add ..)]
    simp [stores, storeOf, exec, immediate_of_isInt16 .sw (x := 0) rfl (by decide)]

theorem stores_saveFP (fpOffset : Int) (s : State) :
    stores (saveFP fpOffset) s = [⟨.FP, fpAddress (s.reg .SP) fpOffset, s.reg .FP⟩] := by
  rw [fpAddress, show sext (BitVec.ofInt 16 fpOffset) = immediate .sw fpOffset from (immediate_eq .sw fpOffset).symm]
  rfl

/-- What a prologue that is not skipped stores; it keeps the other registers. -/
theorem stores_emitPrologue {mf : MachineFunction}
    (h : ¬(stackWord (adjustRigelStackFrame mf) = 0 ∧ (adjustRigelStackFrame mf).frameInfo.adjustsStack = false))
    (s : State) : ∃ s₁, run (emitPrologue mf).2 s = some s₁ ∧ Entered (adjustRigelStackFrame mf) s s₁ ∧
      s.Keeps [.AT, .SP, .FP] s₁ ∧ stores (emitPrologue mf).2 s =
        (if mf.frameInfo.hasCalls then
          [⟨.RA, raAddress (adjustRigelStackFrame mf) (s.reg .SP - stackWord (adjustRigelStackFrame mf)),
            s.reg .RA⟩] else []) ++
        if hasFP mf then [⟨.FP, fpAddress (s.reg .SP - stackWord (adjustRigelStackFrame mf))
          (adjustRigelStackFrame mf).functionInfo.fpStackOffset, s.reg .FP⟩] else [] := by
  obtain ⟨s', h', he⟩ := run_emitPrologue h s
  refine ⟨s', h', he, ?_⟩
  rw [emitPrologue_snd h] at h' ⊢
  rw [← hasFP_adjust mf, ← hasCalls_adjust mf]
  generalize adjustRigelStackFrame mf = mf at h' ⊢
  rw [enterFrame, run_cons, show exec ⟨.noreorder, []⟩ s = some s from rfl, Option.bind_some, run_append] at h'
  obtain ⟨s₁, h₁, -, hsp₁, hk₁⟩ := run_makeRoom (stackWord mf) s
  rw [h₁, Option.bind_some] at h'
  have hRA : ∃ s₂, run (if mf.frameInfo.hasCalls then accessRA .sw mf.functionInfo.raStackOffset else []) s₁ =
      some s₂ ∧ s₁.Keeps [.AT] s₂ := by
    split
    · obtain ⟨s₂, h₂, -, hk₂⟩ := run_saveRA mf.functionInfo.raStackOffset s₁
      exact ⟨s₂, h₂, hk₂⟩
    · exact ⟨s₁, rfl, .refl⟩
  obtain ⟨s₂, h₂, hk₂⟩ := hRA
  rw [run_append, h₂, Option.bind_some] at h'
  have hFP : s₂.Keeps [.FP] s' := by
    split at h'
    · obtain ⟨s₃, h₃, -, -, hk₃⟩ := run_saveFP mf.functionInfo.fpStackOffset s₂
      exact Option.some.inj (h₃.symm.trans h') ▸ hk₃
    · exact Option.some.inj h' ▸ .refl
  refine ⟨fun r hr => ?_, ?_⟩
  · simp only [List.mem_cons, List.not_mem_nil, or_false, not_or] at hr
    rw [hFP r (by simp [hr]), hk₂ r (by simp [hr]), hk₁ r (by simp [hr])]
  · have hsp₂ : s₂.reg .SP = s.reg .SP - stackWord mf := (hk₂ .SP (by decide)).trans hsp₁
    have hfp₂ : s₂.reg .FP = s.reg .FP := (hk₂ .FP (by decide)).trans (hk₁ .FP (by decide))
    have hnop : exec ⟨.noreorder, []⟩ s = some s := rfl
    have hnone : storeOf ⟨.noreorder, []⟩ s = [] := rfl
    rw [enterFrame, stores_cons hnop, hnone, List.nil_append, stores_append h₁, stores_makeRoom, List.nil_append,
      stores_append h₂]
    refine congrArg₂ (· ++ ·) ?_ ?_
    · split
      · rw [stores_saveRA, hsp₁, hk₁ .RA (by decide)]; rfl
      · rfl
    · split
      · rw [stores_saveFP, hsp₂, hfp₂]
      · rfl

/-- `s₃` is a state that a function returns in, if its body ends in `s₂`. -/
structure Left (mf : MachineFunction) (s₂ s₃ : State) : Prop where
  sp : s₃.reg .SP = s₂.reg (getFrameRegister mf) + stackWord mf
  fp : s₃.reg .FP = if hasFP mf then
    s₂.mem.readWord (fpAddress (s₂.reg (getFrameRegister mf)) mf.functionInfo.fpStackOffset) else s₂.reg .FP
  ra : s₃.reg .RA = if mf.frameInfo.hasCalls ∧ stackWord mf ≠ 0 then
    s₂.mem.readWord (raAddress mf (s₂.reg (getFrameRegister mf))) else s₂.reg .RA

theorem run_emitEpilogue (mf : MachineFunction) (s₂ : State) :
    ∃ s₃, run (emitEpilogue mf) s₂ = some s₃ ∧ Left mf s₂ s₃ := by
  rw [emitEpilogue, run_append]
  obtain ⟨t, ht, hmem, hsp, hfp, hra⟩ : ∃ t, run (if hasFP mf then restoreFP mf.functionInfo.fpStackOffset else [])
      s₂ = some t ∧ t.mem = s₂.mem ∧ t.reg .SP = s₂.reg (getFrameRegister mf) ∧
      t.reg .FP = (if hasFP mf then
        s₂.mem.readWord (fpAddress (s₂.reg (getFrameRegister mf)) mf.functionInfo.fpStackOffset) else s₂.reg .FP) ∧
      t.reg .RA = s₂.reg .RA := by
    simp only [getFrameRegister]
    split
    · obtain ⟨t, ht, hmem, hsp, hfp, hk⟩ := run_restoreFP mf.functionInfo.fpStackOffset s₂
      exact ⟨t, ht, hmem, hsp, hfp, hk .RA (by decide)⟩
    · exact ⟨s₂, rfl, rfl, rfl, rfl, rfl⟩
  rw [ht, Option.bind_some]
  by_cases hz : stackWord mf = 0
  · rw [if_pos hz]
    exact ⟨t, rfl, by rw [hsp, hz]; simp, hfp, by rw [if_neg (fun h => h.2 hz), hra]⟩
  · rw [if_neg hz, run_append]
    obtain ⟨t', ht', hra', hk'⟩ : ∃ t', run (if mf.frameInfo.hasCalls then accessRA .lw mf.functionInfo.raStackOffset
        else []) t = some t' ∧ t'.reg .RA = (if mf.frameInfo.hasCalls then
          s₂.mem.readWord (raAddress mf (s₂.reg (getFrameRegister mf))) else s₂.reg .RA) ∧ t.Keeps [.AT, .RA] t' := by
      split
      · obtain ⟨t', ht', hr', hk'⟩ := run_restoreRA mf.functionInfo.raStackOffset t
        exact ⟨t', ht', by rw [hr', hmem, hsp]; rfl, hk'⟩
      · exact ⟨t, rfl, hra, .refl⟩
    obtain ⟨s₃, h₃, hsp₃, hk₃⟩ := run_giveBack (stackWord mf) t'
    refine ⟨s₃, by rw [ht', Option.bind_some]; exact h₃, ?_, ?_, ?_⟩
    · rw [hsp₃, hk' .SP (by decide), hsp]
    · rw [hk₃ .FP (by decide), hk' .FP (by decide), hfp]
    · rw [hk₃ .RA (by decide), hra']
      simp only [hz, ne_eq, not_false_eq_true, and_true]

/-! ## When they are inverse -/

/-- The slot of `FP`. -/
def fpSlotAddress (mf : MachineFunction) (base : Word) : Word := base + BitVec.ofInt 32 mf.functionInfo.fpStackOffset

/-- What a body may do between `s₁` and `s₂`. `SP`, `FP` and `RA` are reserved:
`FP` stays, `SP` only moves if there are variable-sized objects, so `FP` is
used, and `RA` is only written by calls. The slots are not written. -/
structure Body (mf : MachineFunction) (s₁ s₂ : State) : Prop where
  fp : s₂.reg .FP = s₁.reg .FP
  sp : hasFP mf = false → s₂.reg .SP = s₁.reg .SP
  ra : mf.frameInfo.hasCalls = false → s₂.reg .RA = s₁.reg .RA
  fpSlot : hasFP mf = true → ∀ a, (word (fpSlotAddress mf (s₁.reg .SP))).Contains a → s₂.mem a = s₁.mem a
  raSlot : mf.frameInfo.hasCalls = true → ∀ a, (word (raAddress mf (s₁.reg .SP))).Contains a → s₂.mem a = s₁.mem a

/-- The function runs from entry to return, and leaves the three registers as
it found them. -/
def PrologueEpilogueInverse (mf : MachineFunction) : Prop :=
  ∀ s, ∃ s₁, run (emitPrologue mf).2 s = some s₁ ∧ ∀ s₂, Body (emitPrologue mf).1 s₁ s₂ →
    ∃ s₃, run (emitEpilogue (emitPrologue mf).1) s₂ = some s₃ ∧
      s₃.reg .SP = s.reg .SP ∧ s₃.reg .FP = s.reg .FP ∧ s₃.reg .RA = s.reg .RA

/-- The frame has no bytes only if its size wraps around, or it has none. -/
theorem stackWord_adjust_eq_zero (mf : MachineFunction) : stackWord (adjustRigelStackFrame mf) = 0 ↔
    (mf.frameInfo.stackSize + fpBytes mf + raBytes mf + 3) % 2 ^ 32 < 4 := by
  rw [stackWord, stackSize_adjust, ← BitVec.toNat_inj, BitVec.toNat_ofNat,
    show (0 : Word).toNat = 0 from rfl]
  omega

/-- The slot of `RA` is the one behind that of `FP`. -/
theorem raAddress_adjust {mf : MachineFunction} (hf : hasFP mf = true) (hc : mf.frameInfo.hasCalls = true)
    (base : Word) : raAddress (adjustRigelStackFrame mf) base = fpSlotAddress (adjustRigelStackFrame mf) base + 4 := by
  calc raAddress (adjustRigelStackFrame mf) base
      = base + BitVec.ofInt 32 (mf.frameInfo.stackSize + 4 : Nat) := by
        rw [raAddress, raStackOffset_adjust mf hc, ofInt_toInt32, fpBytes, if_pos hf]
    _ = base + BitVec.ofInt 32 mf.frameInfo.stackSize + 4 := by
        rw [Int.natCast_add, BitVec.ofInt_add, BitVec.add_assoc]
        rfl
    _ = fpSlotAddress (adjustRigelStackFrame mf) base + 4 := by
        rw [fpSlotAddress, fpStackOffset_adjust mf hf, ofInt_toInt32]

/-- The code for the slot of `FP` misses it by a multiple of 2¹⁶, and not by
zero if the offset is not one of 16 bits. -/
theorem fpSlotAddress_adjust {mf : MachineFunction} (hf : hasFP mf = true) (base : Word) :
    ∃ k : Nat, k < 2 ^ 16 ∧ fpSlotAddress (adjustRigelStackFrame mf) base =
      fpAddress base (adjustRigelStackFrame mf).functionInfo.fpStackOffset + BitVec.ofNat 32 (65536 * k) ∧
      (isInt16 (toInt32 mf.frameInfo.stackSize) = true ↔ k = 0) := by
  rw [fpSlotAddress, fpAddress, fpStackOffset_adjust mf hf]
  obtain ⟨k, hk, he, hne⟩ := sext_ofInt_sub (BitVec.ofInt 32 mf.frameInfo.stackSize)
  refine ⟨k, hk, ?_, fun h => ?_, fun h => ?_⟩
  · rw [ofInt_toInt32, BitVec.add_assoc]
    exact congrArg (base + ·) he
  · have he' := he
    rw [show (BitVec.ofInt 32 (mf.frameInfo.stackSize : Int)).toInt = toInt32 mf.frameInfo.stackSize from rfl,
      sext_ofInt h, ofInt_toInt32] at he'
    have : BitVec.ofNat 32 (65536 * k) = 0 := by
      generalize BitVec.ofInt 32 (mf.frameInfo.stackSize : Int) = w at he'
      bv_omega
    have := congrArg BitVec.toNat this
    rw [BitVec.toNat_ofNat, show (0 : Word).toNat = 0 from rfl] at this
    omega
  · by_contra hl
    have := hne (by simpa [toInt32] using hl)
    omega

theorem fpAddress_of_isInt16 {mf : MachineFunction} (hf : hasFP mf = true)
    (h : isInt16 (toInt32 mf.frameInfo.stackSize) = true) (base : Word) :
    fpAddress base (adjustRigelStackFrame mf).functionInfo.fpStackOffset =
      fpSlotAddress (adjustRigelStackFrame mf) base := by
  obtain ⟨k, -, hk, h0⟩ := fpSlotAddress_adjust hf base
  rw [hk, h0.mp h, Nat.mul_zero, BitVec.add_zero]

/-- The code has the offset of the slot of `FP` if it is one of 16 bits. -/
theorem fpAddress_eq_iff {mf : MachineFunction} (hf : hasFP mf = true) (base : Word) :
    fpAddress base (adjustRigelStackFrame mf).functionInfo.fpStackOffset =
      fpSlotAddress (adjustRigelStackFrame mf) base ↔
      isInt16 (toInt32 mf.frameInfo.stackSize) = true := by
  obtain ⟨k, hk, he, hiff⟩ := fpSlotAddress_adjust hf base
  rw [he, hiff, left_eq_add, ← BitVec.toNat_inj, BitVec.toNat_ofNat, show (0 : Word).toNat = 0 from rfl]
  omega

section Inverse

variable {mf : MachineFunction} {s s₁ s₂ s₃ : State}

/-- The frame register has the value `SP` had after the prologue. -/
theorem Entered.base (he : Entered mf s s₁) (hb : Body mf s₁ s₂) :
    s₂.reg (getFrameRegister mf) = s.reg .SP - stackWord mf := by
  unfold getFrameRegister
  split
  · rename_i hf
    rw [hb.fp, he.fp, if_pos hf]
  · rename_i hf
    rw [hb.sp (by simpa using hf), he.sp]

/-- `FP` is restored if its slot is where the code has it. -/
theorem Entered.fp_restored (he : Entered mf s s₁) (hb : Body mf s₁ s₂) (hf : hasFP mf = true)
    (ha : fpAddress (s.reg .SP - stackWord mf) mf.functionInfo.fpStackOffset =
      fpSlotAddress mf (s.reg .SP - stackWord mf)) :
    s₂.mem.readWord (fpAddress (s.reg .SP - stackWord mf) mf.functionInfo.fpStackOffset) = s.reg .FP := by
  have hs := hb.fpSlot hf
  rw [he.sp, ← ha] at hs
  rw [Mem.readWord_congr hs, he.mem, savedMem, if_pos hf, Mem.readWord_writeWord]

/-- `RA` is restored if `FP` is not saved over it. -/
theorem Entered.ra_restored (he : Entered mf s s₁) (hb : Body mf s₁ s₂) (hc : mf.frameInfo.hasCalls = true)
    (hd : hasFP mf = true → (word (raAddress mf (s.reg .SP - stackWord mf))).Disjoint
      (word (fpAddress (s.reg .SP - stackWord mf) mf.functionInfo.fpStackOffset))) :
    s₂.mem.readWord (raAddress mf (s.reg .SP - stackWord mf)) = s.reg .RA := by
  have hs := hb.raSlot hc
  rw [he.sp] at hs
  rw [Mem.readWord_congr hs, he.mem, savedMem]
  split
  · rw [Mem.readWord_writeWord_of_disjoint (hd ‹_›), Mem.readWord_writeWord]
  · rw [Mem.readWord_writeWord]

/-- The three registers are restored if the offset of the slot of `FP` is one
of 16 bits and the frame has bytes. -/
theorem Left.restored {mf : MachineFunction} (hfp : hasFP mf = true → isInt16 (toInt32 mf.frameInfo.stackSize) = true)
    (hz : stackWord (adjustRigelStackFrame mf) = 0 → mf.frameInfo.hasCalls = false)
    (he : Entered (adjustRigelStackFrame mf) s s₁) (hb : Body (adjustRigelStackFrame mf) s₁ s₂)
    (hl : Left (adjustRigelStackFrame mf) s₂ s₃) :
    s₃.reg .SP = s.reg .SP ∧ s₃.reg .FP = s.reg .FP ∧ s₃.reg .RA = s.reg .RA := by
  have ha (hf : hasFP mf = true) := fpAddress_of_isInt16 hf (hfp hf) (s.reg .SP - stackWord (adjustRigelStackFrame mf))
  refine ⟨?_, ?_, ?_⟩
  · rw [hl.sp, he.base hb, BitVec.sub_add_cancel]
  · rw [hl.fp, he.base hb]
    split
    · rename_i hf
      exact he.fp_restored hb hf (ha (hasFP_adjust mf ▸ hf))
    · rename_i hf
      rw [hb.fp, he.fp, if_neg hf]
  · rw [hl.ra, he.base hb]
    split
    · rename_i hc
      refine he.ra_restored hb hc.1 fun hf => ?_
      rw [hasFP_adjust] at hf
      rw [ha hf, raAddress_adjust hf (hasCalls_adjust mf ▸ hc.1)]
      exact word_disjoint (by bv_omega) (by bv_omega)
    · rename_i hc
      have hc' : (adjustRigelStackFrame mf).frameInfo.hasCalls = false := by
        by_contra hc'
        rw [Bool.not_eq_false] at hc'
        exact hc ⟨hc', fun h0 => by rw [hasCalls_adjust, hz h0] at hc'; cases hc'⟩
      rw [hb.ra hc', he.ra]

theorem entered_or_skipped (mf : MachineFunction) (s : State) :
    (stackWord (adjustRigelStackFrame mf) = 0 ∧ mf.frameInfo.adjustsStack = false ∧ (emitPrologue mf).2 = []) ∨
      ∃ s₁, run (emitPrologue mf).2 s = some s₁ ∧ Entered (adjustRigelStackFrame mf) s s₁ := by
  by_cases h : stackWord (adjustRigelStackFrame mf) = 0 ∧ (adjustRigelStackFrame mf).frameInfo.adjustsStack = false
  · exact .inl ⟨h.1, adjustsStack_adjust mf ▸ h.2, by simp only [emitPrologue]; rw [if_pos h]⟩
  · exact .inr (run_emitPrologue h s)

/-- The conditions are enough. -/
theorem prologueEpilogueInverse_of (hfp : hasFP mf = true → isInt16 (toInt32 mf.frameInfo.stackSize) = true)
    (hz : stackWord (adjustRigelStackFrame mf) = 0 →
      mf.frameInfo.hasCalls = false ∧ (hasFP mf = true → mf.frameInfo.adjustsStack = true)) :
    PrologueEpilogueInverse mf := by
  intro s
  rcases entered_or_skipped mf s with ⟨h0, hadj, hskip⟩ | ⟨s₁, h₁, he⟩
  · -- no frame: the registers that are not saved are not written
    obtain ⟨hc, hf⟩ := hz h0
    have hf : hasFP (adjustRigelStackFrame mf) = false := by
      rw [hasFP_adjust]
      by_contra hf'
      rw [hf (by simpa using hf')] at hadj
      cases hadj
    rw [hskip]
    refine ⟨s, rfl, fun s₂ hb => ?_⟩
    obtain ⟨s₃, h₃, hl⟩ := run_emitEpilogue (emitPrologue mf).1 s₂
    have hb : Body (adjustRigelStackFrame mf) s s₂ := hb
    have hl : Left (adjustRigelStackFrame mf) s₂ s₃ := hl
    refine ⟨s₃, h₃, ?_, ?_, ?_⟩
    · rw [hl.sp, h0, getFrameRegister, hf, if_neg (by decide), hb.sp hf]; simp
    · rw [hl.fp, hf, if_neg (by decide), hb.fp]
    · rw [hl.ra, if_neg (fun h => h.2 h0), hb.ra (hasCalls_adjust mf ▸ hc)]
  · refine ⟨s₁, h₁, fun s₂ hb => ?_⟩
    obtain ⟨s₃, h₃, hl⟩ := run_emitEpilogue (emitPrologue mf).1 s₂
    exact ⟨s₃, h₃, Left.restored hfp (fun h => (hz h).1) he hb hl⟩

/-- A body that does nothing but set `RA`, or change memory outside the slots. -/
theorem Body.of_mem {m : Mem}
    (hfp : hasFP mf = true → ∀ a, (word (fpSlotAddress mf (s.reg .SP))).Contains a → m a = s.mem a)
    (hra : mf.frameInfo.hasCalls = true → ∀ a, (word (raAddress mf (s.reg .SP))).Contains a → m a = s.mem a) :
    Body mf s (s.setMem m) :=
  ⟨rfl, fun _ => rfl, fun _ => rfl, hfp, hra⟩

theorem Body.of_ra (h : mf.frameInfo.hasCalls = true) (v : Word) : Body mf s (s.setReg .RA v) :=
  ⟨by simp, fun _ => by simp, fun h' => absurd (h.symm.trans h') (by decide), fun _ _ _ => rfl, fun _ _ _ => rfl⟩

namespace PrologueEpilogueInverse

variable (h : PrologueEpilogueInverse mf)
include h

/-- With no bytes in the frame, the epilogue does not restore `RA`. -/
theorem hasCalls_eq_false (h0 : stackWord (adjustRigelStackFrame mf) = 0) : mf.frameInfo.hasCalls = false := by
  by_contra hc
  rw [Bool.not_eq_false, ← hasCalls_adjust] at hc
  obtain ⟨s₁, -, hb⟩ := h (stateOf 0 0 0 fun _ => 0)
  obtain ⟨s₃, h₃, -, -, hra⟩ := hb _ (Body.of_ra hc 1)
  obtain ⟨s₃', h₃', hl⟩ := run_emitEpilogue (adjustRigelStackFrame mf) (s₁.setReg .RA 1)
  obtain rfl := Option.some.inj (h₃.symm.trans h₃')
  rw [hl.ra, if_neg (fun h => h.2 h0), State.reg_setReg, if_neg (by decide), if_pos rfl] at hra
  exact absurd hra (by decide)

/-- Without a prologue, `SP` is not restored from `FP`. -/
theorem adjustsStack_eq_true (h0 : stackWord (adjustRigelStackFrame mf) = 0) (hf : hasFP mf = true) :
    mf.frameInfo.adjustsStack = true := by
  by_contra hadj
  obtain ⟨s₁, h₁, hb⟩ := h (stateOf 0 1 0 fun _ => 0)
  rw [show (emitPrologue mf).2 = [] by
    simp only [emitPrologue]; rw [if_pos ⟨h0, by rw [adjustsStack_adjust]; simpa using hadj⟩]] at h₁
  obtain rfl := Option.some.inj h₁
  obtain ⟨s₃, h₃, hsp, -⟩ := hb _ (Body.of_mem (fun _ _ _ => rfl) fun _ _ _ => rfl)
  obtain ⟨s₃', h₃', hl⟩ := run_emitEpilogue (adjustRigelStackFrame mf) (stateOf 0 1 0 fun _ => 0)
  obtain rfl := Option.some.inj (h₃.symm.trans h₃')
  rw [hl.sp, h0, getFrameRegister, hasFP_adjust, if_pos hf] at hsp
  exact absurd hsp (by decide)

/-- With an offset of more than 16 bits, the body may write where `FP` is saved. -/
theorem isInt16_stackSize (hf : hasFP mf = true) : isInt16 (toInt32 mf.frameInfo.stackSize) = true := by
  by_contra hl
  rcases entered_or_skipped mf (stateOf 0 0 0 fun _ => 0) with ⟨h0, hadj, -⟩ | ⟨s₁, h₁, he⟩
  · rw [h.adjustsStack_eq_true h0 hf] at hadj
    cases hadj
  · obtain ⟨s₁', h₁', hb⟩ := h (stateOf 0 0 0 fun _ => 0)
    obtain rfl := Option.some.inj (h₁.symm.trans h₁')
    obtain ⟨k, hk, ha, h0⟩ := fpSlotAddress_adjust hf (s₁.reg .SP)
    have hpos : 0 < k := Nat.pos_of_ne_zero fun e => hl (h0.mpr e)
    have hbody : Body (adjustRigelStackFrame mf) s₁ (s₁.setMem (s₁.mem.writeWord
        (fpAddress (s₁.reg .SP) (adjustRigelStackFrame mf).functionInfo.fpStackOffset) 1)) := by
      refine Body.of_mem (fun _ a hs => ?_) fun hc a hs => ?_
      · rw [ha] at hs
        exact Mem.writeWord_apply (word_disjoint (by bv_omega) (by bv_omega) a hs)
      · rw [raAddress_adjust hf (hasCalls_adjust mf ▸ hc), ha] at hs
        exact Mem.writeWord_apply (word_disjoint (by bv_omega) (by bv_omega) a hs)
    obtain ⟨s₃, h₃, -, hfp, -⟩ := hb _ hbody
    obtain ⟨s₃', h₃', hl⟩ := run_emitEpilogue (adjustRigelStackFrame mf) _
    obtain rfl := Option.some.inj (h₃.symm.trans h₃')
    rw [hl.fp, he.base hbody, ← he.sp, hasFP_adjust, if_pos hf, State.mem_setMem, Mem.readWord_writeWord] at hfp
    exact absurd hfp (by decide)

end PrologueEpilogueInverse

end Inverse

/-- A function leaves `SP`, `FP` and `RA` as it found them if and only if the
slot of `FP`, if it is used, is at an offset of 16 bits, and the frame has
bytes (its size does not wrap around to 0), or else nothing to restore. -/
theorem prologue_epilogue_inverse_iff (mf : MachineFunction) : PrologueEpilogueInverse mf ↔
    (hasFP mf = true → isInt16 (toInt32 mf.frameInfo.stackSize) = true) ∧
      ((mf.frameInfo.stackSize + fpBytes mf + raBytes mf + 3) % 2 ^ 32 < 4 →
        mf.frameInfo.hasCalls = false ∧ (hasFP mf = true → mf.frameInfo.adjustsStack = true)) := by
  rw [← stackWord_adjust_eq_zero]
  exact ⟨fun h => ⟨h.isInt16_stackSize, fun h0 => ⟨h.hasCalls_eq_false h0, h.adjustsStack_eq_true h0⟩⟩,
    fun h => prologueEpilogueInverse_of h.1 h.2⟩

/-- A local array of 32768 bytes, and a frame pointer. -/
def bigFrame : MachineFunction :=
  let m := (({} : MachineFrameInfo).createStackObject 32768 4 four_pow false).2
  layoutFrame (fun _ => false) { frameInfo := m, disableFramePointerElim := true }

/-- `FP` is saved at `SP` - 32768, below the stack. -/
theorem bigFrame_not_inverse : ¬PrologueEpilogueInverse bigFrame :=
  fun h => absurd (h.isInt16_stackSize (by decide)) (by decide)

end Rigel
