import RigelCodegen.Select.Immediate

/-!
# Addresses of symbols

An address is put together from two instructions that name a symbol: `MVUi`
with the upper half, and a second one with the lower half. `printOperand` asks
the assembler for `%hi` in the first only, and `HI16_S` rounds the upper half up
when the lower one is negative as a signed field. So the second instruction has
to sign-extend (`upper_add_sext`); one that zero-extends is off by `0x10000`
for half of the addresses (`upper_or_zext_eq_iff`).
-/

namespace Rigel

open Word32

/-- The relocations of a 16-bit field. -/
inductive Reloc where
  | hi16S | lo16
  deriving DecidableEq, Repr

/-- What a relocation puts in the field for the address `S`. -/
def Reloc.resolve (S : Word) : Reloc → Half
  | hi16S => ((S + 0x8000) >>> 16).setWidth 16
  | lo16 => S.setWidth 16

theorem toNat_upper_hi16S (S : Word) :
    (upper (Reloc.hi16S.resolve S)).toNat = (S.toNat + 0x8000) % 2 ^ 32 / 2 ^ 16 * 2 ^ 16 := by
  have h8 : (0x8000 : Word).toNat = 0x8000 := rfl
  simp only [upper, Reloc.resolve, BitVec.toNat_append, BitVec.toNat_setWidth, BitVec.toNat_ushiftRight,
    BitVec.toNat_add, h8, Nat.shiftRight_eq_div_pow, BitVec.toNat_ofNat, Nat.zero_mod, Nat.or_zero, Nat.shiftLeft_eq]
  omega

/-- The halves of an address, added with the sign of the lower one. -/
theorem upper_add_sext (S : Word) : upper (Reloc.hi16S.resolve S) + sext (Reloc.lo16.resolve S) = S := by
  have hlt := S.isLt
  apply BitVec.eq_of_toNat_eq
  rw [BitVec.toNat_add, toNat_upper_hi16S, toNat_sext, Reloc.resolve, BitVec.toNat_setWidth]
  split <;> omega

/-- Without its sign they are right as long as there is none. -/
theorem upper_or_zext_eq_iff (S : Word) :
    upper (Reloc.hi16S.resolve S) ||| zext (Reloc.lo16.resolve S) = S ↔ S.toNat % 0x10000 < 0x8000 := by
  have hlt := S.isLt
  calc upper (Reloc.hi16S.resolve S) ||| zext (Reloc.lo16.resolve S) = S
      ↔ (upper (Reloc.hi16S.resolve S)).toNat ||| (zext (Reloc.lo16.resolve S)).toNat = S.toNat := by
        rw [← BitVec.toNat_inj, BitVec.toNat_or]
    _ ↔ 2 ^ 16 * ((S.toNat + 0x8000) % 2 ^ 32 / 2 ^ 16) + S.toNat % 2 ^ 16 = S.toNat := by
        rw [toNat_upper_hi16S, toNat_zext, Reloc.resolve, BitVec.toNat_setWidth, Nat.mul_comm,
          ← Nat.two_pow_add_eq_or_of_lt (by omega)]
    _ ↔ S.toNat % 0x10000 < 0x8000 := by omega

/-- What an address is the address of. -/
inductive AddressOperand where
  | globalAddress (gv : String)
  | blockAddress (fn bb : String)
  | jumpTableIndex (i : Nat)
  | constantPoolIndex (i : Nat) (offset : Int)
  deriving DecidableEq, Repr

inductive SymOperand where
  | reg (r : Reg)
  | sym (a : AddressOperand)
  deriving DecidableEq, Repr

/-- An instruction whose immediate is a symbol. -/
structure SymInstr where
  opcode : Opcode
  operands : List SymOperand
  deriving DecidableEq, Repr

/-- The text of a symbol operand: `%hi(a)`, or `a`. -/
structure SymText where
  hi : Bool
  symbol : AddressOperand
  deriving DecidableEq, Repr

/-- `printOperand` of an operand that is a symbol. A block address is an
unknown operand type to it, where it stops. -/
def printSymbol (opcode : Opcode) : AddressOperand → Option SymText
  | .globalAddress gv => some ⟨opcode == .mvui, .globalAddress gv⟩
  | .blockAddress .. => none
  | .jumpTableIndex i => some ⟨opcode == .mvui, .jumpTableIndex i⟩
  | .constantPoolIndex i offset => some ⟨opcode == .mvui, .constantPoolIndex i offset⟩

/-- The relocation the assembler makes of a symbol in a 16-bit immediate. -/
def SymText.reloc (t : SymText) : Reloc := if t.hi then .hi16S else .lo16

/-- An operand printed, assembled and linked, the symbol being at `S`. -/
def SymOperand.link (opcode : Opcode) (S : Word) : SymOperand → Option MachineOperand
  | .reg r => some (.reg r)
  | .sym a => (printSymbol opcode a).map fun t => .imm (t.reloc.resolve S).toInt

def SymInstr.link (S : Word) (mi : SymInstr) : Option MachineInstr :=
  (mi.operands.mapM (SymOperand.link mi.opcode S)).map (MachineInstr.mk mi.opcode)

/-- `ExpandMBB`, on one instruction with a symbol. -/
def expandSymMI (mi : SymInstr) : List SymInstr :=
  match mi.opcode, mi.operands with
  | .movi32imm, [.reg d, .sym a] =>
    [⟨.mvui, [.reg d, .sym a]⟩, ⟨.ori, [.reg d, .reg d, .sym a]⟩]
  | _, _ => [mi]

/-! ## Sequences -/

/-- A register of its own for a value. -/
abbrev ValueReg := { r : Reg // r ≠ .ZERO }

/-- What is emitted for an address: the patterns of `RigelHi` and `RigelLo`, in
one sum or each for itself; the pair with a load or a store of a constant-pool
entry, as `SelectAddr` folds it; and a `MOVi32imm` of a global. -/
inductive AddressUse where
  | sum (a : AddressOperand) (d hi : ValueReg)
  | apart (a : AddressOperand) (d hi lo : ValueReg) (hne : hi ≠ lo)
  | load (opcode : Opcode) (ho : opcode = .lw ∨ opcode = .lwfp) (i : Nat) (offset : Int) (d hi : ValueReg)
  | store (opcode : Opcode) (ho : opcode = .sw ∨ opcode = .swfp) (i : Nat) (offset : Int) (r : Reg) (hi : ValueReg)
    (hne : r ≠ hi.1)
  | pseudo (gv : String) (d : ValueReg)

namespace AddressUse

def operand : AddressUse → AddressOperand
  | sum a .. => a
  | apart a .. => a
  | load _ _ i offset .. => .constantPoolIndex i offset
  | store _ _ i offset .. => .constantPoolIndex i offset
  | pseudo gv _ => .globalAddress gv

/-- The instructions, as selected. -/
def select : AddressUse → List SymInstr
  | sum a d hi => [⟨.mvui, [.reg hi, .sym a]⟩, ⟨.addiu, [.reg d, .reg hi, .sym a]⟩]
  | apart a d hi lo _ =>
    [⟨.mvui, [.reg hi, .sym a]⟩, ⟨.addiu, [.reg lo, .reg .ZERO, .sym a]⟩, ⟨.add, [.reg d, .reg hi, .reg lo]⟩]
  | load opcode _ i offset d hi =>
    [⟨.mvui, [.reg hi, .sym (.constantPoolIndex i offset)]⟩,
      ⟨opcode, [.reg d, .sym (.constantPoolIndex i offset), .reg hi]⟩]
  | store opcode _ i offset r hi _ =>
    [⟨.mvui, [.reg hi, .sym (.constantPoolIndex i offset)]⟩,
      ⟨opcode, [.reg r, .sym (.constantPoolIndex i offset), .reg hi]⟩]
  | pseudo gv d => [⟨.movi32imm, [.reg d, .sym (.globalAddress gv)]⟩]

/-- The code in the linked program. -/
def code (u : AddressUse) (S : Word) : Option (List MachineInstr) :=
  (u.select.flatMap expandSymMI).mapM (SymInstr.link S)

/-- What the code has to do with the address. -/
def Effect (S : Word) (s s' : State) : AddressUse → Prop
  | sum _ d _ | apart _ d .. | pseudo _ d => s'.reg d = S ∧ s'.mem = s.mem
  | load _ _ _ _ d _ => s'.reg d = s.mem.readWord S ∧ s'.mem = s.mem
  | store _ _ _ _ r _ _ => s'.mem = s.mem.writeWord S (s.reg r)

/-- The code exists, and from every state it computes or accesses `S`. -/
def Materialises (u : AddressUse) (S : Word) : Prop :=
  ∃ mis, u.code S = some mis ∧ ∀ s, ∃ s', run mis s = some s' ∧ u.Effect S s s'

theorem immediate_hi (S : Word) : immediate .mvui (Reloc.hi16S.resolve S).toInt = upper (Reloc.hi16S.resolve S) := by
  rw [immediate_eq, BitVec.ofInt_toInt]; rfl

/-- The halves, as `MVUi` and a sign-extending instruction read them. -/
theorem immediate_hi_add_lo {opcode : Opcode} (ho : readField opcode = sext) (S : Word) :
    immediate .mvui (Reloc.hi16S.resolve S).toInt + immediate opcode (Reloc.lo16.resolve S).toInt = S := by
  rw [immediate_hi, immediate_eq, ho, BitVec.ofInt_toInt, upper_add_sext]

/-- The instructions, linked. -/
def linked (S : Word) : AddressUse → List MachineInstr
  | sum _ d hi =>
    [⟨.mvui, [.reg hi, .imm (Reloc.hi16S.resolve S).toInt]⟩,
      ⟨.addiu, [.reg d, .reg hi, .imm (Reloc.lo16.resolve S).toInt]⟩]
  | apart _ d hi lo _ =>
    [⟨.mvui, [.reg hi, .imm (Reloc.hi16S.resolve S).toInt]⟩,
      ⟨.addiu, [.reg lo, .reg .ZERO, .imm (Reloc.lo16.resolve S).toInt]⟩, ⟨.add, [.reg d, .reg hi, .reg lo]⟩]
  | load opcode _ _ _ d hi =>
    [⟨.mvui, [.reg hi, .imm (Reloc.hi16S.resolve S).toInt]⟩,
      ⟨opcode, [.reg d, .imm (Reloc.lo16.resolve S).toInt, .reg hi]⟩]
  | store opcode _ _ _ r hi _ =>
    [⟨.mvui, [.reg hi, .imm (Reloc.hi16S.resolve S).toInt]⟩,
      ⟨opcode, [.reg r, .imm (Reloc.lo16.resolve S).toInt, .reg hi]⟩]
  | pseudo _ d =>
    [⟨.mvui, [.reg d, .imm (Reloc.hi16S.resolve S).toInt]⟩,
      ⟨.ori, [.reg d, .reg d, .imm (Reloc.lo16.resolve S).toInt]⟩]

/-- Any symbol but a block address can be printed, and the code linked. -/
theorem code_eq {u : AddressUse} (h : ∀ fn bb, u.operand ≠ .blockAddress fn bb) (S : Word) :
    u.code S = some (u.linked S) := by
  cases u with
  | sum a d hi => cases a <;> first | rfl | exact absurd rfl (h _ _)
  | apart a d hi lo hne => cases a <;> first | rfl | exact absurd rfl (h _ _)
  | load opcode ho i offset d hi => rcases ho with rfl | rfl <;> rfl
  | store opcode ho i offset r hi hne => rcases ho with rfl | rfl <;> rfl
  | pseudo gv d => rfl

theorem code_blockAddress {u : AddressUse} {fn bb : String} (h : u.operand = .blockAddress fn bb) (S : Word) :
    u.code S = none := by
  cases u <;> cases h <;> rfl

/-- The pseudo instruction zero-extends the lower half. -/
theorem run_pseudo (gv : String) (d : ValueReg) (S : Word) (s : State) :
    run ((pseudo gv d).linked S) s =
      some (s.setReg d (upper (Reloc.hi16S.resolve S) ||| zext (Reloc.lo16.resolve S))) := by
  have hd := d.2
  have hlo : immediate .ori (Reloc.lo16.resolve S).toInt = zext (Reloc.lo16.resolve S) := by
    rw [immediate_eq, BitVec.ofInt_toInt]; rfl
  simp [linked, exec, hd, immediate_hi, hlo]

/-- Every other sequence sign-extends it. -/
theorem linked_effect {u : AddressUse} (h : ∀ gv d, u ≠ pseudo gv d) (S : Word) (s : State) :
    ∃ s', run (u.linked S) s = some s' ∧ u.Effect S s s' := by
  cases u with
  | sum a d hi =>
    refine ⟨_, rfl, ?_, rfl⟩
    simp [d.2, hi.2, @immediate_hi_add_lo .addiu rfl S]
  | apart a d hi lo hne =>
    have hne : hi.1 ≠ lo.1 := fun he => hne (Subtype.ext he)
    refine ⟨_, rfl, ?_, rfl⟩
    simp [d.2, hi.2, lo.2, hne, @immediate_hi_add_lo .addiu rfl S]
  | load opcode ho i offset d hi =>
    rcases ho with rfl | rfl <;> refine ⟨_, rfl, ?_, rfl⟩
    · simp [d.2, hi.2, @immediate_hi_add_lo .lw rfl S]
    · simp [d.2, hi.2, @immediate_hi_add_lo .lwfp rfl S]
  | store opcode ho i offset r hi hne =>
    have hr (v : Word) : (s.setReg hi v).reg r = s.reg r := by
      rw [State.reg_setReg, if_neg hne]
      split <;> simp [*]
    rcases ho with rfl | rfl <;> refine ⟨_, rfl, ?_⟩
    · simp only [Effect, State.mem_setMem, hr, State.reg_setReg, hi.2, if_false, if_true, State.mem_setReg,
        @immediate_hi_add_lo .sw rfl S]
    · simp only [Effect, State.mem_setMem, hr, State.reg_setReg, hi.2, if_false, if_true, State.mem_setReg,
        @immediate_hi_add_lo .swfp rfl S]
  | pseudo gv d => exact absurd rfl (h gv d)

/-! ## Addresses are materialised -/

/-- Every sequence is right for every address, but for two: a block address
cannot be printed, and `MOVi32imm` is right only of an address whose lower half
has bit 15 clear. -/
theorem address_materialised_iff (u : AddressUse) (S : Word) :
    u.Materialises S ↔
      (∀ fn bb, u.operand ≠ .blockAddress fn bb) ∧ (∀ gv d, u = pseudo gv d → S.toNat % 0x10000 < 0x8000) := by
  constructor
  · rintro ⟨mis, hcode, hrun⟩
    refine ⟨fun fn bb hb => ?_, ?_⟩
    · rw [code_blockAddress hb] at hcode
      exact nomatch hcode
    · rintro gv d rfl
      obtain rfl : linked S (pseudo gv d) = mis := Option.some.inj hcode
      obtain ⟨s', hs', heff, -⟩ := hrun (stateOf 0 0 0 fun _ => 0)
      rw [run_pseudo] at hs'
      obtain rfl := Option.some.inj hs'
      rw [← upper_or_zext_eq_iff]
      simpa [d.2] using heff
  · rintro ⟨hb, hp⟩
    refine ⟨_, code_eq hb S, fun s => ?_⟩
    by_cases h : ∃ gv d, u = pseudo gv d
    · obtain ⟨gv, d, rfl⟩ := h
      have hS := (upper_or_zext_eq_iff S).mpr (hp gv d rfl)
      refine ⟨_, run_pseudo gv d S s, ?_, rfl⟩
      simp [d.2, hS]
    · exact linked_effect (fun gv d he => h ⟨gv, d, he⟩) S s

/-- A block address has no code, and the pseudo instruction makes `0x18000` of
`0x8000`. -/
theorem address_not_materialised :
    ¬(sum (.blockAddress "f" "bb") ⟨.T0, by decide⟩ ⟨.T1, by decide⟩).Materialises 0x4000 ∧
      ¬(pseudo "g" ⟨.T0, by decide⟩).Materialises 0x8000 := by
  constructor
  · rintro ⟨mis, hcode, -⟩
    exact nomatch hcode
  · rintro ⟨mis, hcode, hrun⟩
    obtain rfl : linked 0x8000 (pseudo "g" ⟨.T0, by decide⟩) = mis := Option.some.inj hcode
    obtain ⟨s', hs', heff, -⟩ := hrun (stateOf 0 0 0 fun _ => 0)
    rw [run_pseudo] at hs'
    obtain rfl := Option.some.inj hs'
    exact absurd heff (by decide)

end AddressUse

end Rigel
