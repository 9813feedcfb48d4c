import RigelCodegen.Lib.Field

/-!
# The opcode table

An entry of the opcode table (`struct mips_opcode`), the fields of an
instruction word (`OP_MASK_*` and `OP_SH_*`), and `validate_mips_insn`, which
checks that the mask and the operands of an entry account for every bit. The
table itself is generated, so it is a parameter of everything that uses it.

No operand field reaches the major opcode (`operandFields_below_op`), so the
mask of a validated entry covers it (`major_of_validate`).
-/

namespace Rigel

open Word32

/-- Letters are decided one by one, not by running through all characters. -/
instance (priority := high) decidableForallLetters {p : Char → Prop} [DecidablePred p] (l : List Char) :
    Decidable (∀ c ∈ l, p c) := List.decidableBAll p l

namespace Op

def OP : Field := .mk 0xf 28
def RS : Field := .mk 0x1f 13
def RT : Field := .mk 0x1f 18
def RD : Field := .mk 0x1f 23
def RA : Field := .mk 0x1f 8
def IMM5 : Field := .mk 0x1f 13
def FT : Field := .mk 0x1f 16
def CACHE : Field := .mk 0x1f 16
def WDimm : Field := .mk 0x3f 16
def RDspr : Field := .mk 0x3f 22
def RDspr2 : Field := .mk 0x3 0
def RSspr : Field := .mk 0x3 0
def FS : Field := .mk 0x1f 11
def PREFX : Field := .mk 0x1f 11
def CCC : Field := .mk 0x7 8
def CODE20 : Field := .mk 0xfffff 6
def SHAMT : Field := .mk 0x1f 6
def FD : Field := .mk 0x1f 6
def TARGET : Field := .mk 0x3ffffff 0
def COPZ : Field := .mk 0x1ffffff 0
def RV : Field := .mk 0x3 6
def FR : Field := .mk 0x1f 21
def BCC : Field := .mk 0x7 18
def CODE : Field := .mk 0x3ff 16
def IMMEDIATE : Field := .mk 0xffff 0
def DELTA : Field := .mk 0xffff 0
def PERFREG : Field := .mk 0x3f 1
def SEL : Field := .mk 0x7 0
def CODE19 : Field := .mk 0x7ffff 6
def ALN : Field := .mk 0x7 21
def VECBYTE : Field := .mk 0x7 22
def VECALIGN : Field := .mk 0x7 21
def INSMSB : Field := .mk 0x1f 11
def EXTMSBD : Field := .mk 0x1f 11
def DSPACC : Field := .mk 0x3 11
def DSPACC_S : Field := .mk 0x3 21
def DSPSFT : Field := .mk 0x3f 20
def DSPSFT_7 : Field := .mk 0x7f 19
def SA3 : Field := .mk 0x7 21
def SA4 : Field := .mk 0xf 21
def IMM10 : Field := .mk 0x3ff 16
def WRDSP : Field := .mk 0x3f 11
def RDDSP : Field := .mk 0x3f 16
def BP : Field := .mk 0x3 11
def MT_U : Field := .mk 0x1 5
def MT_H : Field := .mk 0x1 4
def MTACC_T : Field := .mk 0x3 18
def MTACC_D : Field := .mk 0x3 13
def UDI1 : Field := .mk 0x1f 6
def UDI2 : Field := .mk 0x3ff 6
def UDI3 : Field := .mk 0x7fff 6
def UDI4 : Field := .mk 0xfffff 6

end Op

open Op

/-- The bits `validate_mips_insn` marks as used for an operand character. `Q`
runs on into the next case. -/
def operandTable : List (Char × List Field) := [
  (',', []), ('(', []), (')', []),
  ('<', [SHAMT]), ('>', [SHAMT]), ('B', [CODE20]), ('C', [COPZ]), ('D', [WDimm]), ('E', [RT]), ('F', []),
  ('G', [RD]), ('H', [SEL]), ('I', []), ('J', [CODE19]), ('K', [RD]), ('L', []), ('M', [CCC]), ('N', [BCC]),
  ('O', [ALN]), ('R', [FR]), ('S', [RSspr]), ('T', [FT]), ('W', [FT]), ('X', [FD]), ('Y', [FS]), ('Z', [FT]),
  ('a', [TARGET]), ('b', [RS]), ('c', [CODE]), ('d', [RD]), ('f', []), ('h', [PREFX]), ('i', [IMMEDIATE]),
  ('j', [DELTA]), ('k', [CACHE]), ('l', []), ('o', [DELTA]), ('p', [DELTA]), ('q', [RDspr]), ('Q', [RDspr2, RS]),
  ('r', [RS]), ('s', [RS]), ('A', [RA]), ('V', [RV]), ('t', [RT]), ('u', [IMMEDIATE]), ('v', [RS]), ('w', [RT]),
  ('x', []), ('z', []), ('P', [PERFREG]), ('U', [RD, RT]), ('e', [VECBYTE]), ('%', [VECALIGN]), ('[', []), (']', []),
  ('2', [BP]), ('3', [SA3]), ('4', [SA4]), ('5', [IMM5]), ('6', [RS]), ('7', [DSPACC]), ('8', [WRDSP]),
  ('9', [DSPACC_S]), ('0', [DSPSFT]), (Char.ofNat 39, [RDDSP]), (':', [DSPSFT_7]), ('@', [IMM10]), ('!', [MT_U]),
  ('$', [MT_H]), ('*', [MTACC_T]), ('&', [MTACC_D]), ('g', [RD])]

/-- The same, after a `+`. -/
def extensionTable : List (Char × List Field) := [
  ('1', [UDI1]), ('2', [UDI2]), ('3', [UDI3]), ('4', [UDI4]), ('B', [INSMSB]), ('C', [EXTMSBD]), ('D', [RD, SEL]),
  ('E', [SHAMT]), ('F', [INSMSB]), ('G', [EXTMSBD]), ('H', [EXTMSBD]), ('I', []), ('t', [RT]), ('S', [RSspr]),
  ('T', [RT, SEL])]

/-- `USE_BITS`, of all the fields of an operand. -/
def useBits (used : Word) (fs : List Field) : Word := fs.foldl (fun used f => used ||| f.bits) used

/-- The bits of a mask and of the operands, or nothing if an operand is
unknown. -/
def usedBits : List Char → Word → Option Word
  | [], used => some used
  | '+' :: c :: args, used => (extensionTable.lookup c).bind fun fs => usedBits args (useBits used fs)
  | c :: args, used => (operandTable.lookup c).bind fun fs => usedBits args (useBits used fs)

/-! ## Entries -/

/-- `struct mips_opcode`. -/
structure MipsOpcode where
  name : String
  args : List Char
  matchBits : Word
  mask : Word
  pinfo : Word := 0
  pinfo2 : Word := 0
  membership : Word := 0
  deriving DecidableEq, Repr

def INSN_UNCOND_BRANCH_DELAY : Word := 0x00020000
def INSN_COND_BRANCH_DELAY : Word := 0x00040000
def INSN_COND_BRANCH_LIKELY : Word := 0x00080000
def INSN_MACRO : Word := 0xffffffff
def INSN2_ALIAS : Word := 0x00000001

/-- The processors that have instructions of their own, and the bits of their
instruction sets. -/
def cpuMemberships : List (Nat × Word) := [
  (4650, 0x00010000), (7000, 0x00010000), (9000, 0x00010000), (4010, 0x00020000), (4100, 0x00040000),
  (3900, 0x00080000), (10000, 0x00100000), (12000, 0x00100000), (12310201, 0x00200000), (4111, 0x00400000),
  (4120, 0x00800000), (5400, 0x01000000), (5500, 0x02000000)]

namespace MipsOpcode

/-- `OPCODE_IS_MEMBER`. -/
def isMember (op : MipsOpcode) (isa : Word) (cpu : Nat) : Bool :=
  op.membership &&& isa != 0 ||
    cpuMemberships.any fun p => cpu == p.1 && op.membership &&& p.2 != 0

def isMacro (op : MipsOpcode) : Bool := op.pinfo == INSN_MACRO

/-- `validate_mips_insn`. -/
def validate (op : MipsOpcode) : Bool :=
  op.mask &&& op.matchBits == op.matchBits && usedBits op.args op.mask == some 0xffffffff

/-- The word decodes as the entry. -/
def Decodes (op : MipsOpcode) (word : Word) : Prop := word &&& op.mask = op.matchBits

instance (op : MipsOpcode) (word : Word) : Decidable (op.Decodes word) := inferInstanceAs (Decidable (_ = _))

end MipsOpcode

/-- No operand has bits in the major opcode. -/
theorem operandFields_below_op :
    ∀ p ∈ operandTable ++ extensionTable, ∀ f ∈ p.2, f.bits &&& Op.OP.bits = 0 := by decide

theorem useBits_and {m : Word} {fs : List Field} (h : ∀ f ∈ fs, f.bits &&& m = 0) (used : Word) :
    useBits used fs &&& m = used &&& m := by
  induction fs generalizing used with
  | nil => rfl
  | cons f fs ih =>
    rw [useBits, List.foldl_cons, ← useBits, ih fun g hg => h g (.tail _ hg), BitVec.and_or_distrib_right,
      h f (.head _)]
    exact BitVec.or_zero

theorem mem_of_lookup {c : Char} {t : List (Char × List Field)} {fs : List Field} (h : t.lookup c = some fs) :
    (c, fs) ∈ t := by
  obtain ⟨l₁, l₂, rfl, -⟩ := List.lookup_eq_some_iff.mp h
  simp

theorem usedBits_and {args : List Char} {used used' : Word} (h : usedBits args used = some used') :
    used' &&& Op.OP.bits = used &&& Op.OP.bits := by
  induction args, used using usedBits.induct with
  | case1 used => cases h; rfl
  | case2 used c args ih =>
    rw [usedBits] at h
    obtain ⟨fs, hfs, h⟩ := Option.bind_eq_some_iff.mp h
    rw [ih fs h]
    exact useBits_and (operandFields_below_op _ (List.mem_append_right _ (mem_of_lookup hfs))) _
  | case3 used c args hne ih =>
    rw [usedBits.eq_3 _ _ _ hne] at h
    obtain ⟨fs, hfs, h⟩ := Option.bind_eq_some_iff.mp h
    rw [ih fs h]
    exact useBits_and (operandFields_below_op _ (List.mem_append_left _ (mem_of_lookup hfs))) _

/-- The mask of a validated entry covers the major opcode, so what decodes as
the entry has its major opcode. -/
theorem MipsOpcode.major_of_validate {op : MipsOpcode} (h : op.validate = true) {word : Word} (hw : op.Decodes word) :
    Op.OP.extract word = Op.OP.extract op.matchBits := by
  simp only [validate, Bool.and_eq_true, beq_iff_eq] at h
  have hmask : op.mask &&& Op.OP.bits = Op.OP.bits := (usedBits_and h.2).symm.trans (by decide)
  refine Field.extract_congr ?_
  rw [← hw, BitVec.and_assoc, hmask]

end Rigel
