import RigelCodegen.Asm.RoundTrip

/-!
# Branches

Four places know the displacement of a branch: `append_insn` writes that of a
constant operand, `md_apply_fix` that of a target in the same section,
`relaxed_branch_length` decides whether a branch is relaxed, and
`print_insn_args` adds it to the address. `branches_agree_iff` says when they
agree on a branch. `md_apply_fix` replaces some branches that are out of range by
a fixed word, which need not be a jump of the opcode table.

Addresses are `bfd_vma`s, of 32 or 64 bits as BFD is configured.
-/

namespace Rigel

open Word32 Op

/-- The size of a `bfd_vma`. -/
inductive VmaSize where
  | narrow | wide
  deriving DecidableEq, Repr

def VmaSize.bits : VmaSize → Nat
  | narrow => 32
  | wide => 64

abbrev Vma (z : VmaSize) := BitVec z.bits

theorem VmaSize.le_bits (z : VmaSize) : 32 ≤ z.bits := by cases z <;> decide

section Fixups

variable {w : Nat}

/-- The text section: `text_section->vma` and its size. -/
structure TextSection (w : Nat) where
  vma : BitVec w
  size : BitVec w
  deriving DecidableEq, Repr

/-- A fixup of type `BFD_RELOC_16_PCREL_S2`: the word in the fragment, where it
is, the value, and `fx_done`. -/
structure BranchFix (w : Nat) where
  insn : Word
  frAddress : BitVec w
  fxWhere : BitVec w
  value : BitVec w
  done : Bool
  deriving DecidableEq, Repr

/-- `md_pcrel_from`: the address of the delay slot. -/
def mdPcrelFrom (addr : BitVec w) : BitVec w := addr + 4

/-- The word and the value that `md_apply_fix` leaves, whether the fixup is one
of a jump now, and the errors it reports. -/
structure FixResult (w : Nat) where
  word : Word
  value : BitVec w
  isJump : Bool := false
  errors : List String := []
  deriving DecidableEq, Repr

/-- The range check of `md_apply_fix`, on an unsigned value. -/
def inBranchRange (value : BitVec w) : Bool := value + 0x20000 ≤ 0x3ffff

/-- A branch that is replaced by a jump if it is out of range: `beq $0,$0`,
`bgez $0` and `bgezal $0` of MIPS, in the text section, without PIC. -/
def BranchFix.isReplaceable (noPic : Bool) (text : TextSection w) (f : BranchFix w) : Bool :=
  noPic && text.vma ≤ f.frAddress && f.frAddress < text.vma + text.size &&
    (f.insn &&& 0xffff0000 == 0x10000000 || f.insn &&& 0xffff0000 == 0x04010000 ||
      f.insn &&& 0xffff0000 == 0x04110000)

/-- The word that takes the place of a branch: `j` or `jal` of MIPS. -/
def jumpFor (insn : Word) : Word := if insn &&& 0xffff0000 = 0x04110000 then 0x0c000000 else 0x08000000

/-- `md_apply_fix`, for a branch. -/
def mdApplyFix (noPic : Bool) (text : TextSection w) (f : BranchFix w) : FixResult w :=
  let errors := if f.value &&& 3 ≠ 0 then ["Branch to misaligned address"] else []
  if !f.done then { word := f.insn, value := f.value, errors }
  else if inBranchRange f.value then
    { word := f.insn ||| ((f.value >>> 2) &&& 0xffff).setWidth 32, value := f.value, errors }
  else if f.isReplaceable noPic text then
    { word := jumpFor f.insn, value := f.value + mdPcrelFrom (f.fxWhere + f.frAddress), isJump := true, errors }
  else { word := f.insn, value := f.value, errors := errors ++ ["Branch out of range"] }

/-- The fixup of a branch to a target that is resolved in its section. -/
def resolvedFix (insn : Word) (frAddress fxWhere target : BitVec w) : BranchFix w where
  insn := insn
  frAddress := frAddress
  fxWhere := fxWhere
  value := target - mdPcrelFrom (fxWhere + frAddress)
  done := true

/-- A fragment with a branch that may be relaxed: where the branch is, its target
if that is defined in the section, and the bits of `fr_subtype`. -/
structure RelaxFrag (w : Nat) where
  frAddress : BitVec w
  frFix : BitVec w
  target : Option (BitVec w)
  uncond : Bool
  likely : Bool
  link : Bool
  toofar : Bool
  deriving DecidableEq, Repr

/-- `toofar`, on a signed value. Without a fragment the branch is too far, and
without a target it is not. -/
def isTooFar : Option (RelaxFrag w) → Bool
  | some f =>
    match f.target with
    | some target =>
      let val := (target - (f.frAddress + f.frFix + 4)).toInt
      val < -(0x8000 * 4) || val ≥ 0x8000 * 4
    | none => false
  | none => true

/-- `relaxed_branch_length`: the length of the branch, and the fragment with its
subtype updated. -/
def relaxedBranchLength (noPic isaMips1 : Bool) (fragp : Option (RelaxFrag w)) (update : Int) :
    Nat × Option (RelaxFrag w) :=
  let toofar := isTooFar fragp
  let likely := fragp.elim (decide (0 < update)) RelaxFrag.likely
  let cond := fragp.elim (decide (0 ≤ update)) fun f => !f.uncond
  (4 + if toofar then (if likely then 8 else 0) + (if noPic then 0 else 8 + if isaMips1 then 4 else 0) +
      (if cond then 8 else 0)
    else 0,
    fragp.map fun f => if update ≠ 0 then { f with toofar } else f)

end Fixups

/-! ## Displacements -/

/-- The displacement of a branch reaches a target this far away. -/
def Reaches (x : Int) : Prop := x % 4 = 0 ∧ -0x20000 ≤ x ∧ x ≤ 0x1ffff

instance (x : Int) : Decidable (Reaches x) := inferInstanceAs (Decidable (_ ∧ _))

/-- The word has no bit in the field of the displacement that the displacement
lacks. -/
def DeltaFree (insn : Word) (x : Int) : Prop :=
  insn.setWidth 16 ||| BitVec.ofInt 16 (x / 4) = BitVec.ofInt 16 (x / 4)

instance (insn : Word) (x : Int) : Decidable (DeltaFree insn x) := inferInstanceAs (Decidable (_ = _))

theorem sext_shiftLeft_two (h : Half) : sext h <<< 2 = BitVec.ofInt 32 (4 * h.toInt) := by
  apply BitVec.eq_of_toNat_eq
  rw [BitVec.toNat_shiftLeft, toNat_sext, BitVec.toNat_ofInt, Nat.shiftLeft_eq, BitVec.toInt_eq_toNat_cond]
  have hlt := h.isLt
  split <;> split <;> omega

/-- A displacement of 16 bits is that of a target. -/
theorem sext_shiftLeft_two_eq_iff {x : Int} (hx : Reaches x) (h : Half) :
    sext h <<< 2 = BitVec.ofInt 32 x ↔ h = BitVec.ofInt 16 (x / 4) := by
  obtain ⟨h4, hlo, hhi⟩ := hx
  have hl := BitVec.le_toInt h
  have hr := BitVec.toInt_lt (x := h)
  rw [sext_shiftLeft_two, ← BitVec.toInt_inj, ← BitVec.toInt_inj, BitVec.toInt_ofInt, BitVec.toInt_ofInt,
    BitVec.toInt_ofInt, Int.bmod_eq_of_le (by omega) (by omega), Int.bmod_eq_of_le (by omega) (by omega),
    Int.bmod_eq_of_le (by omega) (by omega)]
  omega

/-- What is read off a word is the target, if its lower half is the
displacement. -/
theorem printInsnArg_branch_iff {x : Int} (hx : Reaches x) (pc l : Word) :
    printInsnArg pc l 'p' = some (.target (pc + 4 + BitVec.ofInt 32 x)) ↔ l.setWidth 16 = BitVec.ofInt 16 (x / 4) := by
  have hp : printInsnArg pc l 'p' = some (.target (pc + (4 : Word) + (signedDelta l <<< 2 : Word))) := by
    rw [BitVec.add_comm, ← BitVec.add_assoc]
    rfl
  rw [hp, Option.some_inj, ArgValue.target.injEq, BitVec.add_right_inj, signedDelta_eq, sext_shiftLeft_two_eq_iff hx]

section Ranges

variable {w : Nat}

/-- A `bfd_vma` has room for the displacements. -/
theorem two_pow_eq_mul (hw : 32 ≤ w) : ∃ k : Nat, 2 ^ w = 0x100000000 * k ∧ 0 < k :=
  ⟨2 ^ (w - 32), by rw [show (0x100000000 : Nat) = 2 ^ 32 by decide, ← Nat.pow_add]; congr 1; omega, by positivity⟩

theorem toNat_ofNat_of_lt (hw : 32 ≤ w) {n : Nat} (hn : n < 0x100000000) : (BitVec.ofNat w n).toNat = n := by
  obtain ⟨k, hk, hpos⟩ := two_pow_eq_mul hw
  rw [BitVec.toNat_ofNat, Nat.mod_eq_of_lt (by omega)]

/-- The unsigned check is the signed one. -/
theorem inBranchRange_iff (hw : 32 ≤ w) (val : BitVec w) :
    inBranchRange val = true ↔ -0x20000 ≤ val.toInt ∧ val.toInt ≤ 0x1ffff := by
  obtain ⟨k, hk, hpos⟩ := two_pow_eq_mul hw
  have hlt := val.isLt
  have hlo : (0x20000 : BitVec w).toNat = 0x20000 := toNat_ofNat_of_lt hw (by decide)
  have hhi : (0x3ffff : BitVec w).toNat = 0x3ffff := toNat_ofNat_of_lt hw (by decide)
  rw [inBranchRange, decide_eq_true_iff, BitVec.le_def, BitVec.toNat_add, hlo, hhi, BitVec.toInt_eq_toNat_cond]
  by_cases hwrap : val.toNat + 0x20000 < 2 ^ w
  · rw [Nat.mod_eq_of_lt hwrap]
    split <;> omega
  · rw [Nat.mod_eq_sub_mod (by omega), Nat.mod_eq_of_lt (by omega)]
    split <;> omega

theorem and_three_ne_zero_iff (hw : 32 ≤ w) (val : BitVec w) : val &&& 3 ≠ 0 ↔ val.toInt % 4 ≠ 0 := by
  obtain ⟨k, hk, hpos⟩ := two_pow_eq_mul hw
  have h3 : (3 : BitVec w).toNat = 3 := toNat_ofNat_of_lt hw (by decide)
  have hand : (val &&& 3).toNat = val.toNat % 4 := by
    rw [BitVec.toNat_and, h3]
    exact Nat.and_two_pow_sub_one_eq_mod _ 2
  have h0 : (0 : BitVec w).toNat = 0 := toNat_ofNat_of_lt hw (by decide)
  rw [ne_eq, ne_eq, not_iff_not, ← BitVec.toNat_inj, hand, h0, BitVec.toInt_eq_toNat_cond]
  split <;> omega

/-- The displacement that `md_apply_fix` writes. -/
theorem setWidth_displacement (hw : 32 ≤ w) (val : BitVec w) :
    (((val >>> 2) &&& 0xffff).setWidth 32).setWidth 16 = BitVec.ofInt 16 (val.toInt / 4) := by
  obtain ⟨k, hk, hpos⟩ := two_pow_eq_mul hw
  have h16 : (0xffff : BitVec w).toNat = 0xffff := toNat_ofNat_of_lt hw (by decide)
  have hand : ((val >>> 2) &&& 0xffff).toNat = val.toNat / 4 % 0x10000 := by
    rw [BitVec.toNat_and, h16, BitVec.toNat_ushiftRight, Nat.shiftRight_eq_div_pow]
    exact Nat.and_two_pow_sub_one_eq_mod _ 16
  apply BitVec.eq_of_toNat_eq
  rw [BitVec.toNat_setWidth, BitVec.toNat_setWidth, hand, BitVec.toNat_ofInt, BitVec.toInt_eq_toNat_cond]
  split <;> omega

/-- A target from its displacement. -/
theorem setWidth_target (hw : 32 ≤ w) (addr target : BitVec w) :
    target.setWidth 32 = addr.setWidth 32 + 4 + BitVec.ofInt 32 (target - mdPcrelFrom addr).toInt := by
  have hval : BitVec.ofInt 32 (target - mdPcrelFrom addr).toInt = (target - mdPcrelFrom addr).setWidth 32 :=
    BitVec.signExtend_eq_setWidth_of_le _ hw
  have h4 : (4 : BitVec w).setWidth 32 = 4 := by
    apply BitVec.eq_of_toNat_eq
    rw [BitVec.toNat_setWidth]
    exact congrArg (· % 2 ^ 32) (toNat_ofNat_of_lt hw (by decide))
  have hsub : addr + 4 + (target - mdPcrelFrom addr) = target := by
    rw [mdPcrelFrom, BitVec.add_comm]
    exact BitVec.sub_add_cancel _ _
  rw [hval, ← h4, ← BitVec.setWidth_add _ _ hw, ← BitVec.setWidth_add _ _ hw, hsub]

end Ranges

/-! ## Agreement -/

/-- An instruction of the table that takes a jump target. -/
def IsJump (mips_opcodes : List MipsOpcode) (word : Word) : Prop :=
  ∃ op ∈ mips_opcodes, op.isMacro = false ∧ 'a' ∈ op.args ∧ op.Decodes word

instance (mips_opcodes : List MipsOpcode) (word : Word) : Decidable (IsJump mips_opcodes word) :=
  inferInstanceAs (Decidable (∃ op ∈ mips_opcodes, _))

section Agreement

variable {w : Nat}

/-- A branch at `addr` is fixed: its target is read off the word if a
displacement reaches it, and else there is an error or a jump. -/
def FixResult.Agrees (mips_opcodes : List MipsOpcode) (addr target : BitVec w) (r : FixResult w) : Prop :=
  if Reaches (target - mdPcrelFrom addr).toInt then
    r.errors = [] ∧ printInsnArg (addr.setWidth 32) r.word 'p' = some (.target (target.setWidth 32))
  else r.errors ≠ [] ∨ IsJump mips_opcodes r.word

/-- A displacement `d` that is in range is in the word that `append_insn` emits,
nothing is left to a fixup or to relaxation, and it is read off the word; else there is
an error. -/
def Appended.Agrees (addr : Word) (d : Int) (r : Appended) : Prop :=
  if Reaches d then
    r.bad = false ∧ r.fixup = false ∧ printInsnArg addr r.word 'p' = some (.target (addr + 4 + BitVec.ofInt 32 d))
  else r.bad = true

/-- The places agree on a branch with target `target` or displacement `d`. -/
structure BranchAgrees (mips_opcodes : List MipsOpcode) (noPic : Bool) (text : TextSection w) (o : AsmOptions)
    (pinfo insn : Word) (frAddress fxWhere target : BitVec w) (d : Int) : Prop where
  fixed : (mdApplyFix noPic text (resolvedFix insn frAddress fxWhere target)).Agrees mips_opcodes
    (fxWhere + frAddress) target
  relaxed : ∀ (isaMips1 : Bool) (update : Int) (f : RelaxFrag w), f.frAddress = frAddress → f.frFix = fxWhere →
    f.target = some target → update ≠ 0 → ∃ n f', relaxedBranchLength noPic isaMips1 (some f) update = (n, some f') ∧
      (f'.toofar = true ↔ inBranchRange (resolvedFix insn frAddress fxWhere target).value = false)
  appended : ∀ r, appendInsn o pinfo insn { op := .constant, addNumber := d } .pcrelS2 = some r →
    r.Agrees ((fxWhere + frAddress).setWidth 32) d

section Fixed

variable {mips_opcodes : List MipsOpcode} {noPic : Bool} {text : TextSection w} {f : BranchFix w}
    {addr target : BitVec w}

/-- A target that the displacement reaches. -/
theorem agrees_of_reaches (hw : 32 ≤ w) (hdone : f.done = true) (hval : f.value = target - mdPcrelFrom addr)
    (hx : Reaches f.value.toInt) :
    (mdApplyFix noPic text f).Agrees mips_opcodes addr target ↔ DeltaFree f.insn f.value.toInt := by
  have hr : inBranchRange f.value = true := (inBranchRange_iff hw f.value).mpr hx.2
  have hm : ¬f.value &&& 3 ≠ 0 := (and_three_ne_zero_iff hw f.value).not.mpr (not_not.mpr hx.1)
  have hfix : mdApplyFix noPic text f =
      { word := f.insn ||| ((f.value >>> 2) &&& 0xffff).setWidth 32, value := f.value } := by
    rw [mdApplyFix, if_neg (by simp [hdone]), if_pos hr, if_neg hm]
  rw [FixResult.Agrees, ← hval, if_pos hx, hfix, setWidth_target hw addr target, ← hval, printInsnArg_branch_iff hx,
    BitVec.setWidth_or, setWidth_displacement hw, DeltaFree]
  exact and_iff_right rfl

/-- A misaligned target is an error. -/
theorem agrees_of_misaligned (hw : 32 ≤ w) (hval : f.value = target - mdPcrelFrom addr) (hx : f.value.toInt % 4 ≠ 0) :
    (mdApplyFix noPic text f).Agrees mips_opcodes addr target := by
  have hm : f.value &&& 3 ≠ 0 := (and_three_ne_zero_iff hw f.value).mpr hx
  rw [FixResult.Agrees, ← hval, if_neg fun h => hx h.1]
  refine .inl ?_
  rw [mdApplyFix, if_pos hm]
  split
  · exact List.cons_ne_nil _ _
  · split
    · exact List.cons_ne_nil _ _
    · split <;> exact List.cons_ne_nil _ _

/-- A target out of range is an error, or the branch is replaced. -/
theorem agrees_of_outOfRange (hw : 32 ≤ w) (hdone : f.done = true) (hval : f.value = target - mdPcrelFrom addr)
    (h4 : f.value.toInt % 4 = 0) (hx : ¬Reaches f.value.toInt) :
    (mdApplyFix noPic text f).Agrees mips_opcodes addr target ↔
      (f.isReplaceable noPic text = true → IsJump mips_opcodes (jumpFor f.insn)) := by
  have hr : ¬inBranchRange f.value = true := fun h => hx ⟨h4, (inBranchRange_iff hw f.value).mp h⟩
  have hm : ¬f.value &&& 3 ≠ 0 := (and_three_ne_zero_iff hw f.value).not.mpr (not_not.mpr h4)
  rw [FixResult.Agrees, ← hval, if_neg hx, mdApplyFix, if_neg (by simp [hdone]), if_neg hr, if_neg hm]
  by_cases hrep : f.isReplaceable noPic text = true
  · rw [if_pos hrep]
    exact ⟨fun h _ => h.resolve_left fun hne => hne rfl, fun h => .inr (h hrep)⟩
  · rw [if_neg hrep]
    exact iff_of_true (.inl (List.cons_ne_nil _ _)) fun h => absurd h hrep

/-- A branch is fixed as it should be, if the word has no bits of its own in the
place of the displacement, and what it is replaced by is a jump. -/
theorem mdApplyFix_agrees_iff (hw : 32 ≤ w) (hdone : f.done = true) (hval : f.value = target - mdPcrelFrom addr) :
    (mdApplyFix noPic text f).Agrees mips_opcodes addr target ↔
      (Reaches f.value.toInt → DeltaFree f.insn f.value.toInt) ∧
        (f.value.toInt % 4 = 0 → ¬Reaches f.value.toInt → f.isReplaceable noPic text = true →
          IsJump mips_opcodes (jumpFor f.insn)) := by
  by_cases hx : Reaches f.value.toInt
  · rw [agrees_of_reaches hw hdone hval hx]
    exact ⟨fun h => ⟨fun _ => h, fun _ hn => absurd hx hn⟩, fun h => h.1 hx⟩
  · by_cases h4 : f.value.toInt % 4 = 0
    · rw [agrees_of_outOfRange hw hdone hval h4 hx]
      exact ⟨fun h => ⟨fun hr => absurd hr hx, fun _ _ => h⟩, fun h => h.2 h4 hx⟩
    · exact iff_of_true (agrees_of_misaligned hw hval h4) ⟨fun hr => absurd hr hx, fun h => absurd h h4⟩

end Fixed

/-- The signed check is the unsigned one. -/
theorem isTooFar_iff (hw : 32 ≤ w) {f : RelaxFrag w} {target : BitVec w} (ht : f.target = some target) :
    isTooFar (some f) = true ↔ inBranchRange (target - mdPcrelFrom (f.frFix + f.frAddress)) = false := by
  have hrange := inBranchRange_iff hw (target - mdPcrelFrom (f.frFix + f.frAddress))
  rw [mdPcrelFrom, BitVec.add_comm f.frFix] at hrange ⊢
  rw [← Bool.not_eq_true, hrange]
  simp only [isTooFar, ht, Bool.or_eq_true, decide_eq_true_eq]
  omega

/-- `append_insn` takes care of a constant displacement. With `-relax-branch` it leaves
it to relaxation, or to a fixup that is of an absolute address, and reports only a
displacement of the second kind that is misaligned. -/
def AppendsConstant (o : AsmOptions) (pinfo insn : Word) (d : Int) : Prop :=
  if o.relaxBranch then ¬(isBranch pinfo = true ∧ o.mayRelax = true) ∧ d % 4 ≠ 0
  else Reaches d → DeltaFree insn d

theorem appendInsn_relaxBranch {o : AsmOptions} (h : o.relaxBranch = true) (pinfo insn : Word) (d : Int) :
    ∃ r, appendInsn o pinfo insn { op := .constant, addNumber := d } .pcrelS2 = some r ∧ r.fixup = true ∧
      (r.bad = true ↔ ¬(isBranch pinfo = true ∧ o.mayRelax = true) ∧ d % 4 ≠ 0) := by
  by_cases hb : isBranch pinfo = true ∧ o.mayRelax = true
  · refine ⟨{ word := insn ||| BfdReloc.unused.bits d, fixup := true }, ?_, rfl, by simp [hb]⟩
    simp [appendInsn, h, hb]
  · refine ⟨{ word := insn, bad := d % 4 ≠ 0, fixup := true }, ?_, rfl, by simp [hb]⟩
    simp [appendInsn, h, hb]

/-- The displacement of a constant is that of a target, if `append_insn` takes care of
it and the word has no bits of its own in its place. -/
theorem appendInsn_agrees_iff {o : AsmOptions} {pinfo insn : Word} (addr : Word) (d : Int) :
    (∀ r, appendInsn o pinfo insn { op := .constant, addNumber := d } .pcrelS2 = some r → r.Agrees addr d) ↔
      AppendsConstant o pinfo insn d := by
  rw [AppendsConstant]
  cases hrelax : o.relaxBranch with
  | true =>
    obtain ⟨r, hr, hfixup, hbad⟩ := appendInsn_relaxBranch hrelax pinfo insn d
    rw [if_pos rfl, ← hbad, hr]
    simp only [Option.some.injEq, forall_eq', Appended.Agrees]
    by_cases hx : Reaches d
    · have hnot : r.bad ≠ true := fun hb => (hbad.mp hb).2 hx.1
      rw [if_pos hx]
      exact iff_of_false (fun hn => Bool.false_ne_true (hn.2.1.symm.trans hfixup)) hnot
    · rw [if_neg hx]
  | false =>
    have hr : appendInsn o pinfo insn { op := .constant, addNumber := d } .pcrelS2 = some
        { word := insn ||| BfdReloc.pcrelS2.bits d
          bad := d % 4 ≠ 0 ∨ ¬(0 ≤ d + 0x20000 ∧ d + 0x20000 < 0x40000) } := by
      simp [appendInsn, hrelax]
    have hdisp : (BfdReloc.pcrelS2.bits d).setWidth 16 = BitVec.ofInt 16 (d / 4) := by
      apply BitVec.eq_of_toNat_eq
      simp only [BfdReloc.bits, BitVec.toNat_setWidth, BitVec.toNat_ofInt]
      omega
    rw [hr, if_neg Bool.false_ne_true]
    simp only [Option.some.injEq, forall_eq', Appended.Agrees]
    by_cases hx : Reaches d
    · have hb : decide (d % 4 ≠ 0 ∨ ¬(0 ≤ d + 0x20000 ∧ d + 0x20000 < 0x40000)) = false := by
        obtain ⟨h4, hlo, hhi⟩ := hx
        simp only [decide_eq_false_iff_not]
        omega
      rw [if_pos hx, hb, printInsnArg_branch_iff hx, BitVec.setWidth_or, hdisp, DeltaFree]
      simp [hx]
    · have hb : decide (d % 4 ≠ 0 ∨ ¬(0 ≤ d + 0x20000 ∧ d + 0x20000 < 0x40000)) = true := by
        simp only [Reaches] at hx
        simp only [decide_eq_true_eq]
        omega
      rw [if_neg hx, hb]
      exact iff_of_true rfl fun h => absurd h hx

end Agreement

/-- The places agree on a branch, if and only if its word has no bits of its own
in the place of the displacement, what it is replaced by out of range is a
jump of the table, and `append_insn` takes care of a constant. -/
theorem branches_agree_iff {z : VmaSize} (mips_opcodes : List MipsOpcode) (noPic : Bool) (text : TextSection z.bits)
    (o : AsmOptions) (pinfo insn : Word) (frAddress fxWhere target : Vma z) (d : Int) :
    BranchAgrees mips_opcodes noPic text o pinfo insn frAddress fxWhere target d ↔
      let f := resolvedFix insn frAddress fxWhere target
      (Reaches f.value.toInt → DeltaFree insn f.value.toInt) ∧
        (f.value.toInt % 4 = 0 → ¬Reaches f.value.toInt → f.isReplaceable noPic text = true →
          IsJump mips_opcodes (jumpFor insn)) ∧
        AppendsConstant o pinfo insn d := by
  have hfix : (mdApplyFix noPic text (resolvedFix insn frAddress fxWhere target)).Agrees mips_opcodes
      (fxWhere + frAddress) target ↔ _ :=
    mdApplyFix_agrees_iff z.le_bits rfl rfl
  constructor
  · rintro ⟨hf, -, ha⟩
    exact ⟨(hfix.mp hf).1, (hfix.mp hf).2, (appendInsn_agrees_iff _ d).mp ha⟩
  · rintro ⟨hdelta, hjump, hconst⟩
    refine ⟨hfix.mpr ⟨hdelta, hjump⟩, ?_, (appendInsn_agrees_iff _ d).mpr hconst⟩
    rintro isaMips1 update f rfl rfl ht hu
    have hlen : relaxedBranchLength noPic isaMips1 (some f) update =
        ((relaxedBranchLength noPic isaMips1 (some f) update).1, some { f with toofar := isTooFar (some f) }) :=
      Prod.ext rfl (congrArg some (if_pos hu))
    exact ⟨_, _, hlen, isTooFar_iff z.le_bits ht⟩

/-- A branch in the place of `beq $0,$0`. -/
def branchEntry : MipsOpcode :=
  { name := "b", args := ['p'], matchBits := 0x10000000, mask := 0xFFFF0000, membership := 0x200 }

/-- A branch out of range is replaced by a word that is none of the table. -/
theorem branch_not_agrees :
    branchEntry.validate = true ∧ 'p' ∈ branchEntry.args ∧ branchEntry.matchBits &&& DELTA.bits = 0 ∧
      branchEntry.Decodes 0x10000000 ∧
      ¬BranchAgrees (w := VmaSize.narrow.bits) [branchEntry] true ⟨0, 0x40000⟩ rigelOptions 0 0x10000000
        0 0 0x20004 0 := by
  refine ⟨by decide, by decide, by decide, by decide, fun h => ?_⟩
  have hfixed := h.fixed
  unfold FixResult.Agrees at hfixed
  exact absurd hfixed (by decide)

/-- A line leaves no bits in the place of the displacement, if its entry has none
and the other operands have their fields elsewhere. -/
theorem deltaFree_of_gives {o : AsmOptions} {P : ExpressionParser} {op : MipsOpcode} {s : List Char}
    {xs : List AsmOperand}
    (hg : Gives o P op.args s xs) (hm : op.matchBits &&& DELTA.bits = 0)
    (hd : ∀ c ∈ op.args, c ≠ 'p' → ∀ f ∈ letterField c, f.Disjoint DELTA) (x : Int) :
    DeltaFree (Field.insertAll op.matchBits (xs.filterMap AsmOperand.inserted)) x := by
  have hlow : Field.insertAll op.matchBits (xs.filterMap AsmOperand.inserted) &&& DELTA.bits = 0 := by
    refine (Field.insertAll_and (fun p hp => ?_) _).trans hm
    obtain ⟨y, hy, hi⟩ := List.mem_filterMap.mp hp
    have hmem : y.letter ∈ op.args := hg.letters_sublist.subset (List.mem_map_of_mem hy)
    refine hd y.letter hmem (fun hc => ?_) p.1 (AsmOperand.letterField_of_inserted hi)
    cases y with
    | register c n =>
      obtain rfl : c = 'p' := hc
      exact nomatch hi
    | expression c e percentOps =>
      obtain rfl : c = 'p' := hc
      exact nomatch hi
    | omitted => exact nomatch hi
  have hzero : (Field.insertAll op.matchBits (xs.filterMap AsmOperand.inserted)).setWidth 16 = 0 := by
    have h16 := congrArg (BitVec.setWidth 16) hlow
    rwa [BitVec.setWidth_and, show DELTA.bits.setWidth 16 = BitVec.allOnes 16 by decide, BitVec.and_allOnes] at h16
  rw [DeltaFree, hzero]
  exact BitVec.zero_or

end Rigel
