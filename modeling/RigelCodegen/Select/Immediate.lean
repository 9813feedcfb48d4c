import RigelCodegen.Target.Machine

/-!
# Selecting constants

Three layers have to agree on the sign of a 16-bit field: the leaf that admits
a constant (`immSExt16`, `immZExt16`, `immUpperHalfword`), `printOperand`, and
the instruction that reads the field (`Machine.lean`). A constant admitted by
a leaf is recovered by the extension of that leaf (`immSExt16_iff`,
`immZExt16_iff`), so an instruction that extends its field otherwise is right
only where the two agree: that is `ADDiu`, which admits unsigned constants and
is printed and executed as `addi`.
-/

namespace Rigel

open Word32

def immSExt16 (c : Word) : Bool := c.toInt == (BitVec.ofInt 16 c.toInt).toInt

def immZExt16 (c : Word) : Bool := c.toNat == (BitVec.ofNat 16 c.toNat).toNat

def immUpperHalfword (c : Word) : Bool := c &&& 0xFFFF0000 == c

/-- `LO16`, the transformation of `immZExt16`. -/
def lo16 (c : Word) : Word := c &&& 0xFFFF

/-- `HI16`, the transformation of `immUpperHalfword`. -/
def hi16 (c : Word) : Word := (c >>> 16) &&& 0xFFFF

theorem immSExt16_iff {c : Word} : immSExt16 c = true ↔ sext (c.setWidth 16) = c := by
  rw [immSExt16, beq_iff_eq, ofInt_toInt, ← toInt_sext, BitVec.toInt_inj, eq_comm]

theorem immZExt16_iff {c : Word} : immZExt16 c = true ↔ zext (c.setWidth 16) = c := by
  rw [immZExt16, beq_iff_eq, BitVec.ofNat_toNat, ← toNat_zext, BitVec.toNat_inj, eq_comm]

theorem immUpperHalfword_iff {c : Word} : immUpperHalfword c = true ↔ c.setWidth 16 = 0#16 := by
  rw [immUpperHalfword, beq_iff_eq, and_upperMask]
  refine ⟨fun h => ?_, upper_extract⟩
  rw [← h]; exact setWidth_upper _

/-! ## Patterns -/

/-- The operations with an immediate form. -/
inductive BinOp where
  | add | sub | and | or | xor
  deriving DecidableEq, Repr

def BinOp.apply : BinOp → Word → Word → Word
  | add, x, c => x + c
  | sub, x, c => x - c
  | and, x, c => x &&& c
  | or, x, c => x ||| c
  | xor, x, c => x ^^^ c

/-- A pattern `(set $dst, (op $b, leaf:$c))`: the operation, the leaf, its
transformation, and the instruction. -/
structure ImmPat where
  op : BinOp
  leaf : Word → Bool
  xform : Word → Word
  opcode : Opcode

/-- `ArithI` and `LogicI`. -/
def immPatterns : List ImmPat := [
  ⟨.add, immZExt16, lo16, .addiu⟩,
  ⟨.add, immSExt16, id, .addi⟩,
  ⟨.sub, immSExt16, id, .subi⟩,
  ⟨.and, immZExt16, lo16, .andi⟩,
  ⟨.or, immZExt16, lo16, .ori⟩,
  ⟨.xor, immZExt16, lo16, .xori⟩]

/-- A pattern for a constant on its own. -/
structure ValuePat where
  leaf : Word → Bool
  instr : Reg → Word → MachineInstr

/-- Small immediates, upper-halfword-only immediates and large immediates. -/
def valuePatterns : List ValuePat := [
  ⟨immSExt16, fun d c => ⟨.addi, [.reg d, .reg .ZERO, .imm c.toInt]⟩⟩,
  ⟨immZExt16, fun d c => ⟨.ori, [.reg d, .reg .ZERO, .imm c.toInt]⟩⟩,
  ⟨immUpperHalfword, fun d c => ⟨.mvui, [.reg d, .imm (hi16 c).toInt]⟩⟩,
  ⟨fun _ => true, fun d c => ⟨.movi32imm, [.reg d, .imm c.toInt]⟩⟩]

/-- `ExpandMBB`, on one instruction. -/
def expandMI (mi : MachineInstr) : List MachineInstr :=
  match mi.opcode, mi.operands with
  | .movi32imm, [.reg d, .imm i] =>
    let imm : Word := BitVec.ofInt 32 i
    let lo := imm &&& 0xFFFF
    let hi := (imm >>> 16) &&& 0xFFFF
    [⟨.mvui, [.reg d, .imm hi.toInt]⟩, ⟨.ori, [.reg d, .reg d, .imm lo.toInt]⟩]
  | _, _ => [mi]

def expandMBB (mis : List MachineInstr) : List MachineInstr := mis.flatMap expandMI

/-- What a constant is used for: an operation with a register, or its own
value. -/
inductive ConstUse where
  | bin (op : BinOp)
  | value
  deriving DecidableEq, Repr

namespace ConstUse

/-- The instructions that may be selected, with result `d` and operand `b`. -/
def select (d b : Reg) (c : Word) : ConstUse → List MachineInstr
  | bin op => (immPatterns.filter fun p => p.op == op && p.leaf c).map fun p =>
      ⟨p.opcode, [.reg d, .reg b, .imm (p.xform c).toInt]⟩
  | value => (valuePatterns.filter fun p => p.leaf c).map fun p => p.instr d c

/-- The value to compute. -/
def result (x c : Word) : ConstUse → Word
  | bin op => op.apply x c
  | value => c

end ConstUse

/-- The constant survives: whatever is selected for it, printed and executed,
leaves the result in `d` and changes nothing else. -/
def ConstSurvives (u : ConstUse) (c : Word) : Prop :=
  ∀ d b : Reg, d ≠ .ZERO → ∀ mi ∈ u.select d b c, ∀ s : State,
    ∃ s', run (expandMBB [mi]) s = some s' ∧ s'.reg d = u.result (s.reg b) c ∧
      s'.mem = s.mem ∧ ∀ r, r ≠ d → s'.reg r = s.reg r

theorem immediate_sext {opcode : Opcode} {c : Word} (ho : readField opcode = sext) (h : immSExt16 c = true) :
    immediate opcode c.toInt = c := by
  rw [immediate_eq, ho, ofInt_toInt, immSExt16_iff.mp h]

theorem immediate_zext {opcode : Opcode} {c : Word} (ho : readField opcode = zext) (h : immZExt16 c = true) :
    immediate opcode c.toInt = c := by
  rw [immediate_eq, ho, ofInt_toInt, immZExt16_iff.mp h]

/-- The 16 bits that `LO16` keeps are those of the field. -/
theorem immediate_lo16 (opcode : Opcode) (c : Word) :
    immediate opcode (lo16 c).toInt = immediate opcode c.toInt := by
  rw [immediate_eq, immediate_eq, ofInt_toInt, ofInt_toInt, lo16, setWidth_and_mask]

/-- The two halves of a `MOVi32imm`. -/
theorem mvui_lo16_ori (c : Word) :
    immediate .mvui (lo16 (c >>> 16)).toInt ||| immediate .ori (lo16 c).toInt = c := by
  rw [immediate_lo16, immediate_lo16]
  exact mvui_ori (ofInt_ushiftRight c) (ofInt_toInt c)

theorem immediate_hi16 {c : Word} (h : immUpperHalfword c = true) : immediate .mvui (hi16 c).toInt = c := by
  rw [immediate_eq, ofInt_toInt, hi16, setWidth_and_mask, setWidth_ushiftRight]
  exact upper_extract (immUpperHalfword_iff.mp h)

/-- `ADDiu` executes as `addi`, which sign-extends what `immZExt16` admits. -/
theorem immediate_addiu (c : Word) : immediate .addiu (lo16 c).toInt = c ↔ immSExt16 c = true := by
  rw [immediate_lo16, immediate_eq, ofInt_toInt, immSExt16_iff]; rfl

/-- An unsigned 16-bit constant is a signed one too, from `0x8000` on not. -/
theorem immSExt16_of_immZExt16 {c : Word} (h : immZExt16 c = true) : immSExt16 c = true ↔ c.toNat < 0x8000 := by
  have hz := immZExt16_iff.mp h
  have hlt := (c.setWidth 16).isLt
  rw [immSExt16_iff, ← BitVec.toInt_inj, toInt_sext, ← hz]
  generalize c.setWidth 16 = a at hlt
  have hw : (zext a).setWidth 16 = a := by simp [zext]
  rw [hw, BitVec.toInt_eq_toNat_cond, BitVec.toInt_eq_toNat_cond, toNat_zext]
  norm_num at hlt ⊢
  split <;> split <;> omega

theorem immZExt16_iff_le {c : Word} : immZExt16 c = true ↔ c.toNat ≤ 0xFFFF := by
  rw [immZExt16, beq_iff_eq, BitVec.toNat_ofNat]; omega

/-- What a selected operation computes, on the constant as it reads it. -/
theorem exec_immPattern {p : ImmPat} (hp : p ∈ immPatterns) (d b : Reg) (c : Word) (s : State) :
    run (expandMBB [⟨p.opcode, [.reg d, .reg b, .imm (p.xform c).toInt]⟩]) s =
      some (s.setReg d (p.op.apply (s.reg b) (immediate p.opcode (p.xform c).toInt))) := by
  simp only [immPatterns, List.mem_cons, List.not_mem_nil, or_false] at hp
  rcases hp with rfl | rfl | rfl | rfl | rfl | rfl <;> rfl

/-- Every leaf but that of `ADDiu` admits what its instruction reads back. -/
theorem immediate_immPattern {p : ImmPat} (hp : p ∈ immPatterns) {c : Word} (h : p.leaf c = true)
    (hu : p.opcode = .addiu → immSExt16 c = true) : immediate p.opcode (p.xform c).toInt = c := by
  simp only [immPatterns, List.mem_cons, List.not_mem_nil, or_false] at hp
  rcases hp with rfl | rfl | rfl | rfl | rfl | rfl
  · exact (immediate_addiu c).mpr (hu rfl)
  · exact immediate_sext rfl h
  · exact immediate_sext rfl h
  all_goals exact (immediate_lo16 _ c).trans (immediate_zext rfl h)

/-- A constant on its own is put in `d`, by one instruction or two. -/
theorem exec_valuePattern {p : ValuePat} (hp : p ∈ valuePatterns) {c : Word} (h : p.leaf c = true) {d : Reg}
    (hd : d ≠ .ZERO) (s : State) :
    ∃ s', run (expandMBB [p.instr d c]) s = some s' ∧ s'.reg d = c ∧ s'.mem = s.mem ∧
      ∀ r, r ≠ d → s'.reg r = s.reg r := by
  simp only [valuePatterns, List.mem_cons, List.not_mem_nil, or_false] at hp
  rcases hp with rfl | rfl | rfl | rfl
  · refine ⟨s.setReg d (s.reg .ZERO + immediate .addi c.toInt), rfl, ?_, rfl, ?_⟩ <;>
      simp +contextual [hd, @immediate_sext .addi c rfl h]
  · refine ⟨s.setReg d (s.reg .ZERO ||| immediate .ori c.toInt), rfl, ?_, rfl, ?_⟩ <;>
      simp +contextual [hd, @immediate_zext .ori c rfl h]
  · refine ⟨s.setReg d (immediate .mvui (hi16 c).toInt), rfl, ?_, rfl, ?_⟩ <;>
      simp +contextual [hd, immediate_hi16 h]
  · have hv := mvui_lo16_ori c
    refine ⟨(s.setReg d (immediate .mvui (lo16 (c >>> 16)).toInt)).setReg d
      ((s.setReg d (immediate .mvui (lo16 (c >>> 16)).toInt)).reg d ||| immediate .ori (lo16 c).toInt), ?_, ?_, rfl, ?_⟩
    · simp [expandMBB, expandMI, exec, lo16]
    all_goals simp +contextual [hd, hv]

/-! ## Constants survive -/

theorem bin_survives {op : BinOp} {c : Word} (h : op = .add → immZExt16 c = true → immSExt16 c = true) :
    ConstSurvives (.bin op) c := by
  intro d b hd mi hmi s
  simp only [ConstUse.select, List.mem_map, List.mem_filter, Bool.and_eq_true, beq_iff_eq] at hmi
  obtain ⟨p, ⟨hp, ho, hl⟩, rfl⟩ := hmi
  have hu : p.opcode = .addiu → immSExt16 c = true := by
    intro hu
    simp only [immPatterns, List.mem_cons, List.not_mem_nil, or_false] at hp
    rcases hp with rfl | rfl | rfl | rfl | rfl | rfl <;> first | exact h ho.symm hl | cases hu
  refine ⟨_, exec_immPattern hp d b c s, ?_, rfl, fun r hr => ?_⟩
  · rw [immediate_immPattern hp hl hu, ho]
    simp [hd, ConstUse.result]
  · simp +contextual [hr]

theorem value_survives (c : Word) : ConstSurvives .value c := by
  intro d b hd mi hmi s
  simp only [ConstUse.select, List.mem_map, List.mem_filter] at hmi
  obtain ⟨p, ⟨hp, hl⟩, rfl⟩ := hmi
  exact exec_valuePattern hp hl hd s

/-- There is always an instruction for a constant on its own, so an operation
without an immediate form for it has the constant in a register. -/
theorem value_selected (d b : Reg) (c : Word) :
    (⟨.movi32imm, [.reg d, .imm c.toInt]⟩ : MachineInstr) ∈ ConstUse.select d b c .value :=
  List.mem_map.mpr ⟨⟨fun _ => true, fun d c => ⟨.movi32imm, [.reg d, .imm c.toInt]⟩⟩,
    List.mem_filter.mpr ⟨by simp [valuePatterns], rfl⟩, rfl⟩

/-- A constant that `ADDiu` misreads does not survive an addition. -/
theorem not_add_survives {c : Word} (hz : immZExt16 c = true) (hs : ¬immSExt16 c = true) :
    ¬ConstSurvives (.bin .add) c := by
  intro h
  have hmem : (⟨.addiu, [.reg .AT, .reg .ZERO, .imm (lo16 c).toInt]⟩ : MachineInstr) ∈
      ConstUse.select .AT .ZERO c (.bin .add) := by
    simp [ConstUse.select, immPatterns, List.filter_cons, hz]
  obtain ⟨s', hr, hd, -⟩ := h .AT .ZERO (by decide) _ hmem ⟨fun _ => 0, fun _ => 0⟩
  have hp : (⟨.add, immZExt16, lo16, .addiu⟩ : ImmPat) ∈ immPatterns := by simp [immPatterns]
  rw [exec_immPattern hp] at hr
  obtain rfl := Option.some.inj hr
  refine hs ((immediate_addiu c).mp ?_)
  simpa [BinOp.apply, ConstUse.result] using hd

/-- A constant survives every use of it but one: the addition of a constant
from `0x8000` to `0xFFFF`, which `ADDiu` takes and `addi` reads as negative. -/
theorem constSurvives_iff (u : ConstUse) (c : Word) :
    ConstSurvives u c ↔ ¬(u = .bin .add ∧ 0x8000 ≤ c.toNat ∧ c.toNat ≤ 0xFFFF) := by
  constructor
  · rintro h ⟨rfl, hlo, hhi⟩
    have hz := immZExt16_iff_le.mpr hhi
    exact not_add_survives hz (by rw [immSExt16_of_immZExt16 hz]; omega) h
  · intro h
    cases u with
    | value => exact value_survives c
    | bin op =>
      refine bin_survives fun hop hz => (immSExt16_of_immZExt16 hz).mpr ?_
      have := immZExt16_iff_le.mp hz
      by_contra hlt
      exact h ⟨congrArg _ hop, by omega, this⟩

/-- `x + 0x8000` is selected as an `addi` of `-0x8000`. -/
theorem add_0x8000_not_survives : ¬ConstSurvives (.bin .add) 0x8000 :=
  not_add_survives (by decide) (by decide)

end Rigel
