import RigelCodegen.Asm.Opcode
import RigelCodegen.Lib.Run
import Mathlib.Data.List.TakeWhile

/-!
# The disassembler

`print_insn_mips` does not scan the whole opcode table: on its first call it
records, for each major opcode, the first entry that has it, and every call
starts there. What the start skips would not match (`find?_buildHash`), if it
is skipped for the options of the call as well: an entry that is skipped as an
alias on the first call is never found later.

`print_insn_args` reads the operands off the word.
-/

namespace Rigel

open Word32 Op
open Run (Along)

/-- What is printed for an operand: a register, a number or an address. -/
inductive ArgValue where
  | register (n : Nat)
  | number (x : Int)
  | target (a : Word)
  deriving DecidableEq, Repr

/-- `delta`, sign-extended. -/
def signedDelta (l : Word) : Word :=
  let delta := DELTA.extract l
  if delta &&& 0x8000 ≠ 0 then delta ||| ~~~0xffff else delta

/-- `print_insn_args`, for one operand letter of the word at `pc`. -/
def printInsnArg (pc l : Word) (c : Char) : Option ArgValue :=
  match c with
  | 's' | 'b' | 'r' => some (.register (RS.extract l).toNat)
  | 't' | 'w' => some (.register (RT.extract l).toNat)
  | 'd' => some (.register (RD.extract l).toNat)
  | 'D' => some (.register (WDimm.extract l).toNat)
  | 'S' => some (.register (RSspr.extract l).toNat)
  | 'q' => some (.register (RDspr.extract l).toNat)
  | 'Q' => some (.register (RDspr2.extract l).toNat)
  | 'A' => some (.register (RA.extract l).toNat)
  | 'V' => some (.register (RV.extract l).toNat)
  | 'i' | 'u' => some (.number (IMMEDIATE.extract l).toNat)
  | 'j' | 'o' => some (.number (signedDelta l).toInt)
  | '5' => some (.number (IMM5.extract l).toNat)
  | 'p' => some (.target (signedDelta l <<< 2 + pc + 4))
  | 'a' => some (.target (((pc + 4) &&& ~~~(0x0fffffff : Word)) ||| (TARGET.extract l <<< 2)))
  | _ => none

/-- The displacement of a branch, and a signed immediate, is the lower half of
the word with its sign. -/
theorem signedDelta_eq (l : Word) : signedDelta l = sext (l.setWidth 16) := by
  have hd : (DELTA.extract l).toNat = l.toNat % 0x10000 := by
    simp only [Field.extract, DELTA, BitVec.ushiftRight_zero, BitVec.toNat_and]
    exact Nat.and_two_pow_sub_one_eq_mod _ 16
  apply BitVec.eq_of_toNat_eq
  rw [toNat_sext, BitVec.toNat_setWidth, signedDelta]
  simp only [ne_eq, and_sign_eq_zero_iff, hd, Nat.mod_mod, Nat.reducePow]
  by_cases hs : l.toNat % 0x10000 < 0x8000
  · rw [if_neg (not_not.mpr hs), if_pos hs, hd]
  · rw [if_pos hs, if_neg hs, BitVec.toNat_or, hd, show (~~~0xffff : Word).toNat = 2 ^ 16 * 0xffff by decide,
      Nat.or_comm, ← Nat.two_pow_add_eq_or_of_lt (by omega)]
    omega

/-- A call: the options in force, and the word. -/
structure DisCall where
  noAliases : Bool
  isa : Word
  processor : Nat
  word : Word
  deriving DecidableEq, Repr

namespace MipsOpcode

/-- An entry that is passed over whatever the word is. -/
def isSkipped (op : MipsOpcode) (noAliases : Bool) : Bool :=
  op.isMacro || noAliases && op.pinfo2 &&& INSN2_ALIAS != 0

/-- The scan stops at the entry. A `jalx` need not be in the instruction set. -/
def isFound (c : DisCall) (op : MipsOpcode) : Bool :=
  !op.isSkipped c.noAliases && c.word &&& op.mask == op.matchBits &&
    (op.isMember c.isa c.processor || op.name == "jalx")

end MipsOpcode

/-- `mips_hash`, once it is built: for each major opcode the table from its
first entry on, empty if there is none. -/
abbrev MipsHash := Word → List MipsOpcode

def buildHash (mips_opcodes : List MipsOpcode) (noAliases : Bool) : MipsHash := fun i =>
  mips_opcodes.dropWhile fun op => op.isSkipped noAliases || i != Op.OP.extract op.matchBits

/-- The statics of `print_insn_mips`; nothing while `init` is 0. -/
abbrev DisState := Option MipsHash

/-- The hash a call uses. -/
def DisState.hash (mips_opcodes : List MipsOpcode) (s : DisState) (c : DisCall) : MipsHash :=
  s.getD (buildHash mips_opcodes c.noAliases)

def DisState.step (mips_opcodes : List MipsOpcode) (s : DisState) (c : DisCall) : DisState :=
  some (s.hash mips_opcodes c)

/-- `print_insn_mips`: the entry it prints, or nothing for an undefined word. -/
def printInsnMips (mips_opcodes : List MipsOpcode) (s : DisState) (c : DisCall) : Option MipsOpcode :=
  (s.hash mips_opcodes c (Op.OP.extract c.word)).find? (MipsOpcode.isFound c)

/-- The scan of the whole table. -/
def firstEntry (mips_opcodes : List MipsOpcode) (c : DisCall) : Option MipsOpcode :=
  mips_opcodes.find? fun op =>
    !op.isSkipped c.noAliases && c.word &&& op.mask == op.matchBits && op.isMember c.isa c.processor

/-- The same, with `jalx` in every instruction set. -/
def firstEntryOrJalx (mips_opcodes : List MipsOpcode) (c : DisCall) : Option MipsOpcode :=
  mips_opcodes.find? (MipsOpcode.isFound c)

/-! ## The start of the scan -/

theorem find?_dropWhile {α : Type} {p q : α → Bool} {l : List α} (h : ∀ x ∈ l.takeWhile p, q x = false) :
    (l.dropWhile p).find? q = l.find? q := by
  have hnone : (l.takeWhile p).find? q = none := List.find?_eq_none.mpr fun x hx => by simp [h x hx]
  calc (l.dropWhile p).find? q
      = ((l.takeWhile p).find? q).or ((l.dropWhile p).find? q) := by rw [hnone, Option.none_or]
    _ = (l.takeWhile p ++ l.dropWhile p).find? q := List.find?_append.symm
    _ = l.find? q := by rw [List.takeWhile_append_dropWhile]

section Table

variable {mips_opcodes : List MipsOpcode}

/-- An alias that the call would find stands before the start of the scan: of its
major opcode, every entry before it is an alias or a macro. -/
def HidesAlias (mips_opcodes : List MipsOpcode) (c : DisCall) : Prop :=
  ∃ op ∈ mips_opcodes.takeWhile fun op => op.isSkipped true || Op.OP.extract c.word != Op.OP.extract op.matchBits,
    op.isFound c = true

instance (mips_opcodes : List MipsOpcode) (c : DisCall) : Decidable (HidesAlias mips_opcodes c) :=
  inferInstanceAs (Decidable (∃ op ∈ mips_opcodes.takeWhile _, _))

/-- An alias that is hidden matches the word. -/
theorem HidesAlias.exists_alias (hv : ∀ op ∈ mips_opcodes, op.isMacro = false → op.validate = true) {c : DisCall}
    (h : HidesAlias mips_opcodes c) :
    ∃ op ∈ mips_opcodes, op.pinfo2 &&& INSN2_ALIAS ≠ 0 ∧ op.isFound c = true := by
  obtain ⟨op, hmem, hf⟩ := h
  have hop := (List.takeWhile_prefix _).subset hmem
  refine ⟨op, hop, ?_, hf⟩
  have hskip := List.mem_takeWhile_imp hmem
  simp only [MipsOpcode.isFound, MipsOpcode.isSkipped, Bool.and_eq_true, Bool.not_eq_true', Bool.or_eq_false_iff,
    beq_iff_eq] at hf
  obtain ⟨⟨⟨hplain, -⟩, hdec⟩, -⟩ := hf
  rw [Bool.or_eq_true, MipsOpcode.isSkipped, hplain, bne_iff_ne] at hskip
  refine hskip.elim (fun ha => by simpa using ha) fun hne => ?_
  exact absurd (MipsOpcode.major_of_validate (hv op hop hplain) hdec) hne

/-- Nothing is found before the start, if the hash skips no alias that the call
does not skip. -/
theorem find?_buildHash (hv : ∀ op ∈ mips_opcodes, op.isMacro = false → op.validate = true) {noAliases : Bool}
    {c : DisCall} (hc : noAliases = true → c.noAliases = true ∨ ¬HidesAlias mips_opcodes c) :
    (buildHash mips_opcodes noAliases (Op.OP.extract c.word)).find? (MipsOpcode.isFound c) =
      firstEntryOrJalx mips_opcodes c := by
  refine find?_dropWhile fun op hop => ?_
  have hskip := List.mem_takeWhile_imp hop
  by_contra hf
  have hfound : op.isFound c = true := by simpa using hf
  simp only [MipsOpcode.isFound, Bool.not_eq_false, Bool.and_eq_true, Bool.not_eq_true', beq_iff_eq] at hf
  obtain ⟨⟨hns, hdec⟩, -⟩ := hf
  have hplain : op.isMacro = false := by
    rw [MipsOpcode.isSkipped, Bool.or_eq_false_iff] at hns
    exact hns.1
  have hmajor := MipsOpcode.major_of_validate (hv op ((List.takeWhile_prefix _).subset hop) hplain) hdec
  rw [Bool.or_eq_true, bne_iff_ne] at hskip
  have hskip := hskip.resolve_right fun hne => hne hmajor
  cases noAliases with
  | false => rw [MipsOpcode.isSkipped, hplain] at hskip; cases hskip
  | true =>
    rcases hc rfl with hn | hh
    · rw [hn, hskip] at hns
      cases hns
    · exact hh ⟨op, hop, hfound⟩

/-! ## Runs -/

/-- A call finds what the scan of the whole table finds. -/
def ScansAll (mips_opcodes : List MipsOpcode) (s : DisState) (c : DisCall) : Prop :=
  printInsnMips mips_opcodes s c = firstEntryOrJalx mips_opcodes c

/-- Behind a first call, a call finds it, if it may not find an alias that the
first one has made the hash skip. -/
theorem scansAll (hv : ∀ op ∈ mips_opcodes, op.isMacro = false → op.validate = true) {noAliases : Bool}
    {s : DisState} {c : DisCall} (hs : s.hash mips_opcodes c = buildHash mips_opcodes noAliases)
    (hc : noAliases = true → c.noAliases = true ∨ ¬HidesAlias mips_opcodes c) : ScansAll mips_opcodes s c := by
  rw [ScansAll, printInsnMips, hs]
  exact find?_buildHash hv hc

/-- The hash of the first call is there. -/
def DisState.BuiltBy (mips_opcodes : List MipsOpcode) (c₀ : DisCall) (s : DisState) : Prop :=
  s = some (buildHash mips_opcodes c₀.noAliases)

/-- In every run, a call finds what the scan of the whole table finds, unless it
may print aliases, the first call might not, and an alias of its word is hidden. -/
theorem printInsnMips_scansAll (mips_opcodes : List MipsOpcode)
    (hv : ∀ op ∈ mips_opcodes, op.isMacro = false → op.validate = true) (c₀ : DisCall) (cs : List DisCall) :
    Along (DisState.step mips_opcodes)
      (fun s c => (c₀.noAliases = true → c.noAliases = true ∨ ¬HidesAlias mips_opcodes c) →
        ScansAll mips_opcodes s c) none (c₀ :: cs) := by
  have hstep (s : DisState) (c : DisCall) (h : s.BuiltBy mips_opcodes c₀) :
      (s.step mips_opcodes c).BuiltBy mips_opcodes c₀ := by
    rw [h]
    rfl
  have hall : Along (DisState.step mips_opcodes) (fun _ _ => True) (DisState.step mips_opcodes none c₀) cs :=
    .of_forall (fun _ _ _ => trivial) _
  refine .cons (scansAll hv rfl) (hall.of_invariant (fun s c h _ => hstep s c h) (fun s c h _ hc => ?_) rfl)
  exact scansAll hv (by rw [h]; rfl) hc

end Table

/-- A table with `jalx`, in no instruction set. -/
def jalxTable : List MipsOpcode :=
  [{ name := "jalx", args := ['a'], matchBits := 0xC0000000, mask := 0xFC000000 }]

/-- A table with an alias before the instruction it is an alias of. -/
def aliasTable : List MipsOpcode :=
  [{ name := "nop", args := [], matchBits := 0, mask := 0xFFFFFFFF, pinfo2 := INSN2_ALIAS, membership := 0x200 },
    { name := "sll", args := ['d', ',', 't', ',', 's'], matchBits := 0, mask := 0xF0001FFF, membership := 0x200 }]

/-- The call for a word, under the instruction set of Rigel. -/
def rigelCall (noAliases : Bool) (word : Word) : DisCall := ⟨noAliases, 0x200, 1983, word⟩

theorem printInsnMips_scansAll_alias :
    Along (DisState.step aliasTable)
      (fun s c => ((rigelCall true 0).noAliases = true → c.noAliases = true ∨ ¬HidesAlias aliasTable c) →
        ScansAll aliasTable s c) none [rigelCall true 0, rigelCall false 0x20] :=
  printInsnMips_scansAll aliasTable (by decide) (rigelCall true 0) [rigelCall false 0x20]

/-- `jalx` is printed though it is in no instruction set; and after a call that
prints no aliases, `nop` is printed as `sll`. -/
theorem printInsnMips_not_scan :
    ¬(∀ table : List MipsOpcode, (∀ op ∈ table, op.isMacro = false → op.validate = true) → ∀ cs,
      Along (DisState.step table) (fun s c => printInsnMips table s c = firstEntry table c) none cs) ∧
    printInsnMips aliasTable (DisState.step aliasTable none (rigelCall true 0)) (rigelCall false 0) ≠
      firstEntry aliasTable (rigelCall false 0) := by
  refine ⟨fun h => ?_, by decide⟩
  rcases h jalxTable (by decide) [rigelCall false 0xC0000000] with _ | ⟨hp, -⟩
  exact absurd hp (by decide)

end Rigel
