import RigelCodegen.Frame.RigelStackFrame
import RigelCodegen.Target.Machine

/-!
# Frame-index elimination

`eliminateFrameIndex` puts the frame register and an offset in the place of a
frame index. An offset of more than 16 bits goes through `AT`, and from `SP`
whatever the frame register is. `run_eliminateFrameIndex` is what the code
does then, at the address `fiAddress`; it is what the instruction means if and
only if the conditions of `frame_index_preserved_iff` hold.
-/

namespace Rigel

open Word32

/-- `eliminateFrameIndex`. Nothing overrides `requiresRegisterScavenging`, so
there is no scavenger, `findScratchRegister` returns false, and the temporary
is `AT`. -/
def eliminateFrameIndex (mf : MachineFunction) (mi : MachineInstr) : List MachineInstr :=
  match mi.operands.findIdx? (·.isFI) with
  | none => [mi]
  | some fiOperandNum =>
    let frameIndex := (mi.operands[fiOperandNum]?.map (·.getIndex)).getD 0
    let offsetOperandNum := if fiOperandNum = 2 then 1 else 2
    let imm := (mi.operands[offsetOperandNum]?.map (·.getImm)).getD 0
    let offset := toInt32 (frameOffset mf frameIndex + imm)
    let w : Word := BitVec.ofInt 32 offset
    if isInt16 offset then
      [{ mi with operands :=
          (mi.operands.set fiOperandNum (.reg (getFrameRegister mf))).set offsetOperandNum (.imm offset) }]
    else
      [⟨.mvui, [.reg .AT, .imm (w.sshiftRight 16).toInt]⟩,
        ⟨.ori, [.reg .AT, .reg .AT, .imm (w &&& 0xFFFF).toInt]⟩,
        ⟨.add, [.reg .AT, .reg .SP, .reg .AT]⟩,
        { mi with operands := (mi.operands.set fiOperandNum (.reg .AT)).set offsetOperandNum (.imm 0) }]

/-- A register that the allocator may choose. -/
abbrev AllocReg := { r : Reg // r ∈ allocatable }

/-- The instructions with a frame index: loads, stores, and `ADDi` for the
address itself, with their data register. -/
inductive FrameAccess where
  | lw (d : AllocReg)
  | lwfp (d : AllocReg)
  | sw (r : AllocReg)
  | swfp (r : AllocReg)
  | addi (d : AllocReg)

namespace FrameAccess

/-- The instruction with the frame index and the immediate. -/
def instr (fi imm : Int) : FrameAccess → MachineInstr
  | lw d => ⟨.lw, [.reg d, .imm imm, .frameIndex fi]⟩
  | lwfp d => ⟨.lwfp, [.reg d, .imm imm, .frameIndex fi]⟩
  | sw r => ⟨.sw, [.reg r, .imm imm, .frameIndex fi]⟩
  | swfp r => ⟨.swfp, [.reg r, .imm imm, .frameIndex fi]⟩
  | addi d => ⟨.addi, [.reg d, .frameIndex fi, .imm imm]⟩

/-- The data register. -/
def data : FrameAccess → Reg
  | lw d | lwfp d | addi d => d
  | sw r | swfp r => r

/-- Whether the data register is read, and not written. -/
def isStore : FrameAccess → Bool
  | sw _ | swfp _ => true
  | _ => false

/-- What the instruction means, at the address `a`. -/
def effect (x : FrameAccess) (a : Word) (s : State) : State :=
  match x with
  | lw d | lwfp d => s.setReg d (s.mem.readWord a)
  | sw r | swfp r => s.setMem (s.mem.writeWord a (s.reg r))
  | addi d => s.setReg d a

/-- The other registers stay. -/
theorem reg_effect (x : FrameAccess) {r : Reg} (h : r ≠ x.data) (a : Word) (s : State) :
    (x.effect a s).reg r = s.reg r := by
  cases x with
  | sw _ | swfp _ => rfl
  | lw d | lwfp d | addi d =>
    have hd : r ≠ d := h
    simp only [effect, State.reg_setReg, hd, if_false]
    split <;> simp [*]

theorem data_allocatable (x : FrameAccess) : x.data ∈ allocatable := by
  cases x <;> exact Subtype.property _

end FrameAccess

/-- The address that the code accesses: with an offset of 16 bits from the
frame register, else from `SP`. -/
def fiAddress (mf : MachineFunction) (fi imm : Int) (s : State) : Word :=
  let offset := toInt32 (frameOffset mf fi + imm)
  if isInt16 offset then s.reg (getFrameRegister mf) + BitVec.ofInt 32 offset
  else s.reg .SP + BitVec.ofInt 32 offset

/-- The state that the access is made in: with the address in `AT` if its
offset is not one of 16 bits. -/
def fiState (mf : MachineFunction) (fi imm : Int) (s : State) : State :=
  if isInt16 (toInt32 (frameOffset mf fi + imm)) then s else s.setReg .AT (fiAddress mf fi imm s)

/-- The access with a base register and an offset in place of the frame index. -/
def FrameAccess.based (b : Reg) (off : Int) : FrameAccess → MachineInstr
  | lw d => ⟨.lw, [.reg d, .imm off, .reg b]⟩
  | lwfp d => ⟨.lwfp, [.reg d, .imm off, .reg b]⟩
  | sw r => ⟨.sw, [.reg r, .imm off, .reg b]⟩
  | swfp r => ⟨.swfp, [.reg r, .imm off, .reg b]⟩
  | addi d => ⟨.addi, [.reg d, .reg b, .imm off]⟩

theorem exec_based (x : FrameAccess) (b : Reg) {off : Int} (h : isInt16 off = true) (s : State) :
    exec (x.based b off) s = some (x.effect (s.reg b + BitVec.ofInt 32 off) s) := by
  have hi {o : Opcode} (ho : readField o = sext) : immediate o off = BitVec.ofInt 32 off := immediate_of_isInt16 o ho h
  cases x <;> simp only [FrameAccess.based, exec, FrameAccess.effect, @hi .lw rfl, @hi .lwfp rfl, @hi .sw rfl,
    @hi .swfp rfl, @hi .addi rfl]

theorem eliminateFrameIndex_instr (mf : MachineFunction) (x : FrameAccess) (fi imm : Int) :
    eliminateFrameIndex mf (x.instr fi imm) =
      let offset := toInt32 (frameOffset mf fi + imm)
      let w : Word := BitVec.ofInt 32 offset
      if isInt16 offset then [x.based (getFrameRegister mf) offset]
      else [⟨.mvui, [.reg .AT, .imm (w.sshiftRight 16).toInt]⟩, ⟨.ori, [.reg .AT, .reg .AT, .imm (w &&& 0xFFFF).toInt]⟩,
        ⟨.add, [.reg .AT, .reg .SP, .reg .AT]⟩, x.based .AT 0] := by
  cases x <;> rfl

/-- The code for an access makes it at `fiAddress`. -/
theorem run_eliminateFrameIndex (mf : MachineFunction) (x : FrameAccess) (fi imm : Int) (s : State) :
    run (eliminateFrameIndex mf (x.instr fi imm)) s =
      some (x.effect (fiAddress mf fi imm s) (fiState mf fi imm s)) := by
  rw [eliminateFrameIndex_instr]
  simp only [fiAddress, fiState]
  split
  · rename_i h
    simp only [run_cons, exec_based x _ h, Option.bind_some, run_nil]
  · rw [run_mvui_ori (by decide), run_cons, exec_add, Option.bind_some, run_cons, exec_based x .AT (by decide)]
    simp

/-- `SP` after the prologue, and `SP` at the instruction, which is lower only
if there are variable-sized objects. -/
structure FramePointers (mf : MachineFunction) where
  base : Word
  sp : Word
  sp_eq : mf.frameInfo.hasVarSizedObjects = false → sp = base

/-- The state is in the function: `FP`, if used, has the value that `SP` had
after the prologue. -/
def FramePointers.Holds {mf : MachineFunction} (p : FramePointers mf) (s : State) : Prop :=
  s.reg .SP = p.sp ∧ (hasFP mf = true → s.reg .FP = p.base)

/-- The code does what the instruction means at the address of the object plus
the immediate, to memory and to every register that is live after it or that
it reads or writes. -/
def FrameIndexPreserved (mf : MachineFunction) (x : FrameAccess) (fi imm : Int) (live : List Reg)
    (p : FramePointers mf) : Prop :=
  ∀ s, p.Holds s → ∃ s', run (eliminateFrameIndex mf (x.instr fi imm)) s = some s' ∧
    s'.mem = (x.effect (p.base + BitVec.ofInt 32 (trueOffset mf fi + imm)) s).mem ∧
    ∀ r, r ∈ live ∨ r = x.data ∨ r = .SP ∨ r = .FP →
      s'.reg r = (x.effect (p.base + BitVec.ofInt 32 (trueOffset mf fi + imm)) s).reg r

theorem FramePointers.Holds.frameRegister {mf : MachineFunction} {p : FramePointers mf} {s : State}
    (h : p.Holds s) : s.reg (getFrameRegister mf) = p.base := by
  unfold getFrameRegister
  split
  · exact h.2 ‹_›
  · rename_i hf
    have hv : mf.frameInfo.hasVarSizedObjects = false := by
      simp only [hasFP, Bool.or_eq_true, not_or, Bool.not_eq_true] at hf
      exact hf.2
    rw [h.1, p.sp_eq hv]

theorem stateOf_holds {mf : MachineFunction} (p : FramePointers mf) (v : Word) (m : Mem) :
    p.Holds (stateOf p.sp p.base v m) := ⟨rfl, fun _ => rfl⟩

/-- Where the data of an access is. -/
def FrameAccess.Same (x : FrameAccess) (s t : State) : Prop := s.mem = t.mem ∧ s.reg x.data = t.reg x.data

/-- An access at another address is told from the right one in some state,
even if other registers than a stored one are changed before it. -/
theorem effect_ne (x : FrameAccess) {a b : Word} (h : a ≠ b) (sp fp : Word) :
    ∃ v m, ∀ t : State, t.mem = m → (x.isStore = true → t.reg x.data = v) →
      ¬x.Same (x.effect a t) (x.effect b (stateOf sp fp v m)) := by
  have hz := (ne_of_allocatable x.data_allocatable).1
  cases x with
  | lw d | lwfp d =>
    obtain ⟨m, hm⟩ := Mem.exists_readWord_ne h
    refine ⟨0, m, fun t ht _ hs => hm ?_⟩
    have := hs.2
    simp only [FrameAccess.effect, FrameAccess.data, State.reg_setReg, if_true, show (d : Reg) ≠ .ZERO from hz,
      if_false, ht] at this
    exact this
  | sw r | swfp r =>
    obtain ⟨m, v, hm⟩ := Mem.exists_writeWord_ne h
    refine ⟨v, m, fun t ht hr hs => hm ?_⟩
    have := hs.1
    have hr' : t.reg r = v := hr rfl
    simp only [FrameAccess.effect, State.mem_setMem, ht, hr', stateOf_reg r.2] at this
    exact this
  | addi d =>
    refine ⟨0, fun _ => 0, fun t _ _ hs => h ?_⟩
    have := hs.2
    simp only [FrameAccess.effect, FrameAccess.data, State.reg_setReg, if_true, show (d : Reg) ≠ .ZERO from hz,
      if_false] at this
    exact this

/-- `AT` may be overwritten: it is not the register that is stored, and not
live, unless it is the one that is defined. -/
def FrameAccess.ATFree (x : FrameAccess) (live : List Reg) : Prop :=
  (x.isStore = true → x.data ≠ .AT) ∧ (.AT ∈ live → x.data = .AT)

/-- With `AT` overwritten before it, an access does the same to the registers
that count if `AT` may be overwritten. -/
theorem effect_setReg_AT {x : FrameAccess} {live : List Reg} (h : x.ATFree live) (a v : Word) (s : State) :
    (x.effect a (s.setReg .AT v)).mem = (x.effect a s).mem ∧
      ∀ r, r ∈ live ∨ r = x.data ∨ r = .SP ∨ r = .FP → (x.effect a (s.setReg .AT v)).reg r = (x.effect a s).reg r := by
  have hne {r : Reg} (hr : r ∈ live ∨ r = x.data ∨ r = .SP ∨ r = .FP) (hd : x.isStore = true ∨ r ≠ x.data) :
      r ≠ .AT := by
    rintro rfl
    rcases hr with hl | he | hsp | hfp
    · rcases hd with hs | hd
      · exact h.1 hs (h.2 hl)
      · exact hd (h.2 hl).symm
    · rcases hd with hs | hd
      · exact h.1 hs he.symm
      · exact hd he
    · cases hsp
    · cases hfp
  cases x with
  | lw d | lwfp d | addi d =>
    refine ⟨rfl, fun r hr => ?_⟩
    simp only [FrameAccess.effect, State.reg_setReg, State.mem_setReg]
    by_cases hd : r = d
    · simp only [hd, if_true]
    · simp only [hd, hne hr (.inr hd), if_false]
      split <;> simp [*]
  | sw d | swfp d =>
    refine ⟨?_, fun r hr => ?_⟩
    · have hd : (d : Reg) ≠ .AT := h.1 rfl
      simp only [FrameAccess.effect, State.mem_setMem, State.mem_setReg, State.reg_setReg, hd, if_false,
        (ne_of_allocatable d.2).1]
    · simp only [FrameAccess.effect, State.reg_setMem, State.reg_setReg, hne hr (.inl rfl), if_false]
      split <;> simp [*]

/-! ## When it is preserved -/

section Preserved

variable {mf : MachineFunction} {x : FrameAccess} {fi imm : Int} {live : List Reg} {p : FramePointers mf}

theorem add_offset (b : Word) (y : Int) :
    b + BitVec.ofInt 32 (toInt32 (y + imm)) = b + BitVec.ofInt 32 y + BitVec.ofInt 32 imm := by
  rw [ofInt_toInt32, BitVec.ofInt_add, BitVec.add_assoc]

/-- The address of the code is the one meant, with an offset of 16 bits, if and
only if the offset of the object is decoded right, and else if `SP` makes up
for the rest. -/
theorem fiAddress_eq_iff {s : State} (hs : p.Holds s) :
    fiAddress mf fi imm s = p.base + BitVec.ofInt 32 (trueOffset mf fi + imm) ↔
      if isInt16 (toInt32 (frameOffset mf fi + imm)) then
        BitVec.ofInt 32 (frameOffset mf fi) = BitVec.ofInt 32 (trueOffset mf fi)
      else p.sp + BitVec.ofInt 32 (frameOffset mf fi) = p.base + BitVec.ofInt 32 (trueOffset mf fi) := by
  simp only [fiAddress, BitVec.ofInt_add (trueOffset ..)]
  split
  · rw [add_offset, hs.frameRegister, ← BitVec.add_assoc, BitVec.add_left_inj, BitVec.add_right_inj]
  · rw [add_offset, hs.1, ← BitVec.add_assoc, BitVec.add_left_inj]

theorem FramePointers.Holds.fiAddress_far {s : State} (hs : p.Holds s)
    (hl : isInt16 (toInt32 (frameOffset mf fi + imm)) = false) :
    fiAddress mf fi imm s = p.sp + BitVec.ofInt 32 (toInt32 (frameOffset mf fi + imm)) := by
  simp only [fiAddress, hl, Bool.false_eq_true, if_false, hs.1]

theorem FrameIndexPreserved.effect (h : FrameIndexPreserved mf x fi imm live p) {s : State} (hs : p.Holds s) :
    (x.effect (fiAddress mf fi imm s) (fiState mf fi imm s)).mem =
        (x.effect (p.base + BitVec.ofInt 32 (trueOffset mf fi + imm)) s).mem ∧
      ∀ r, r ∈ live ∨ r = x.data ∨ r = .SP ∨ r = .FP →
        (x.effect (fiAddress mf fi imm s) (fiState mf fi imm s)).reg r =
          (x.effect (p.base + BitVec.ofInt 32 (trueOffset mf fi + imm)) s).reg r := by
  obtain ⟨s', hr, hs'⟩ := h s hs
  rw [run_eliminateFrameIndex] at hr
  rwa [Option.some.inj hr]

/-- A store of `AT` that goes through `AT` writes the address. -/
theorem FrameIndexPreserved.data_ne_AT (h : FrameIndexPreserved mf x fi imm live p)
    (hl : isInt16 (toInt32 (frameOffset mf fi + imm)) = false) (hx : x.isStore = true) : x.data ≠ .AT := by
  intro hd
  -- whatever is in `AT`, the same word is written
  have hw (v : Word) := (h.effect (stateOf_holds p v fun _ => 0)).1
  have hword (v : Word) : (stateOf p.sp p.base v fun _ => 0).mem = (fun _ => 0) := rfl
  simp only [(stateOf_holds p _ _).fiAddress_far hl, fiState, hl, Bool.false_eq_true, if_false] at hw
  have hv (v : Word) : v = ((x.effect (p.sp + BitVec.ofInt 32 (toInt32 (frameOffset mf fi + imm)))
      ((stateOf p.sp p.base 0 fun _ => 0).setReg .AT
        (p.sp + BitVec.ofInt 32 (toInt32 (frameOffset mf fi + imm))))).mem.readWord
      (p.base + BitVec.ofInt 32 (trueOffset mf fi + imm))) := by
    have := congrArg (Mem.readWord · (p.base + BitVec.ofInt 32 (trueOffset mf fi + imm))) (hw v)
    cases x with
    | lw _ | lwfp _ | addi _ => cases hx
    | sw r | swfp r =>
      have hd : (r : Reg) = .AT := hd
      simp only [FrameAccess.effect, State.mem_setMem, State.mem_setReg, Mem.readWord_writeWord, hd, State.reg_setReg,
        stateOf_reg AT_allocatable, hword, if_true, reduceCtorEq, if_false] at this ⊢
      exact this.symm
  exact absurd ((hv 0).trans (hv 1).symm) (by decide)

/-- If `AT` is live, it is only overwritten as the register that is defined. -/
theorem FrameIndexPreserved.data_eq_AT (h : FrameIndexPreserved mf x fi imm live p)
    (hl : isInt16 (toInt32 (frameOffset mf fi + imm)) = false) (hlive : .AT ∈ live) : x.data = .AT := by
  by_contra hd
  -- a value of `AT` that is not the address
  have hAT := (h.effect (stateOf_holds p (p.sp + BitVec.ofInt 32 (toInt32 (frameOffset mf fi + imm)) + 1)
    fun _ => 0)).2 .AT (.inl hlive)
  rw [(stateOf_holds p _ _).fiAddress_far hl, x.reg_effect (Ne.symm hd), x.reg_effect (Ne.symm hd),
    stateOf_reg AT_allocatable, fiState, hl, if_neg (by decide), (stateOf_holds p _ _).fiAddress_far hl,
    State.reg_setReg, if_neg (by decide), if_pos rfl] at hAT
  bv_omega

/-- The access is at the right address. -/
theorem FrameIndexPreserved.fiAddress_eq (h : FrameIndexPreserved mf x fi imm live p) {s : State} (hs : p.Holds s) :
    fiAddress mf fi imm s = p.base + BitVec.ofInt 32 (trueOffset mf fi + imm) := by
  by_contra hne
  obtain ⟨v, m, hv⟩ := effect_ne x hne p.sp p.base
  obtain ⟨hm, hreg⟩ := h.effect (stateOf_holds p v m)
  have ha : fiAddress mf fi imm (stateOf p.sp p.base v m) = fiAddress mf fi imm s := by
    simp only [fiAddress, hs.frameRegister, (stateOf_holds p v m).frameRegister, hs.1, (stateOf_holds p v m).1]
  rw [ha] at hm hreg
  refine hv (fiState mf fi imm (stateOf p.sp p.base v m)) ?_ (fun hx => ?_) ⟨hm, hreg _ (.inr (.inl rfl))⟩
  · unfold fiState; split <;> rfl
  · unfold fiState
    split
    · exact stateOf_reg x.data_allocatable
    · rename_i hl
      simp only [State.reg_setReg, (ne_of_allocatable x.data_allocatable).1, h.data_ne_AT (by simpa using hl) hx,
        if_false, stateOf_reg x.data_allocatable]

/-- The condition is enough: the address is right, and `AT` may be
overwritten if it is. -/
theorem frameIndexPreserved_of
    (ha : ∀ s, p.Holds s → fiAddress mf fi imm s = p.base + BitVec.ofInt 32 (trueOffset mf fi + imm))
    (hfree : isInt16 (toInt32 (frameOffset mf fi + imm)) = false → x.ATFree live) :
    FrameIndexPreserved mf x fi imm live p := by
  intro s hs
  refine ⟨_, run_eliminateFrameIndex .., ?_⟩
  rw [ha s hs, fiState]
  split
  · exact ⟨rfl, fun _ _ => rfl⟩
  · rename_i hl
    exact effect_setReg_AT (hfree (by simpa using hl)) _ _ s

/-- What is meant is done if and only if the offset of the object is decoded
right, if it fits the field with the immediate; else `SP` has to make up for
the difference, so it is the frame base if the offset is decoded right, and
`AT` may be overwritten. -/
theorem frame_index_preserved_iff (mf : MachineFunction) (x : FrameAccess) (fi imm : Int) (live : List Reg)
    (p : FramePointers mf) : FrameIndexPreserved mf x fi imm live p ↔
      if isInt16 (toInt32 (frameOffset mf fi + imm)) then
        BitVec.ofInt 32 (frameOffset mf fi) = BitVec.ofInt 32 (trueOffset mf fi)
      else
        p.sp + BitVec.ofInt 32 (frameOffset mf fi) = p.base + BitVec.ofInt 32 (trueOffset mf fi) ∧ x.ATFree live := by
  constructor
  · intro h
    have ha := (fiAddress_eq_iff (stateOf_holds p 0 fun _ => 0)).mp (h.fiAddress_eq (stateOf_holds p 0 fun _ => 0))
    split
    · rwa [if_pos ‹_›] at ha
    · rename_i hl
      rw [if_neg hl] at ha
      exact ⟨ha, h.data_ne_AT (by simpa using hl), h.data_eq_AT (by simpa using hl)⟩
  · intro h
    refine frameIndexPreserved_of (fun s hs => (fiAddress_eq_iff hs).mpr ?_) fun hl => ?_
    · split
      · rwa [if_pos ‹_›] at h
      · rw [if_neg ‹_›] at h
        exact h.1
    · rw [if_neg (by simp [hl])] at h
      exact h.2

end Preserved

/-- A local array of 40000 bytes, and a word behind it. -/
def farFrame : MachineFunction :=
  let m := (({} : MachineFrameInfo).createStackObject 40000 4 four_pow false).2
  let m := (m.createStackObject 4 4 four_pow false).2
  adjustRigelStackFrame (layoutFrame (fun _ => false) { frameInfo := m })

/-- The word behind the array cannot be loaded while `AT` is live. -/
theorem farLoad_not_preserved : ¬FrameIndexPreserved farFrame (.lw ⟨.T0, by decide⟩) 1 0 [.AT] ⟨0, 0, fun _ => rfl⟩ :=
  fun h => absurd (h.data_eq_AT (by decide) (by decide)) (by decide)

end Rigel
