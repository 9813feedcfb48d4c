import RigelCodegen.Asm.Pending

/-!
# The word that is emitted

`mips_ip` comes to an entry with what the entries before it have left
(`Comes`). `mipsIp_grammar_iff` says when a line that is accepted follows the
grammar of its entry and gives a word that decodes as the entry.
-/

namespace Rigel

open Word32 Op

section Comes

variable (o : AsmOptions) (P : ExpressionParser)

/-- The loop over the entries comes to an entry, with a state for its operands. -/
inductive Comes (argsStart : List Char) : List MipsOpcode → AsmState → MipsOpcode → Bool → AsmState → Prop
  | here {op : MipsOpcode} {ops : List MipsOpcode} {σ : AsmState} (hs : o.isSupported op = true) :
    Comes argsStart (op :: ops) σ op (hasMore op ops) (σ.create op)
  | mismatch {op op' : MipsOpcode} {ops : List MipsOpcode} {more : Bool} {σ σ₁ σ' : AsmState}
    (hs : o.isSupported op = true) (hm : hasMore op ops = true)
    (h : parseArgs o P (hasMore op ops) op.args argsStart (σ.create op) = .mismatch σ₁)
    (hc : Comes argsStart ops { σ₁ with insnError := some "illegal operands" } op' more σ') :
    Comes argsStart (op :: ops) σ op' more σ'
  | unsupported {op op' : MipsOpcode} {ops : List MipsOpcode} {more : Bool} {σ σ' : AsmState}
    (hs : o.isSupported op = false) (hm : hasMore op ops = true) (hc : Comes argsStart ops σ op' more σ') :
    Comes argsStart (op :: ops) σ op' more σ'

/-- A line is emitted as an entry: `mips_ip` comes to the entry with `σ₀` and
accepts the operands `s`, which leaves `σ`; nothing is reported. -/
structure Assembles (mips_opcodes : List MipsOpcode) (str : List Char) (op : MipsOpcode) (more : Bool) (s : List Char)
    (σ₀ σ : AsmState) (r : Appended) : Prop where
  comes : ∃ ops, splitMnemonic mips_opcodes str = some (ops, s) ∧ Comes o P s ops {} op more σ₀
  accepts : parseArgs o P more op.args s σ₀ = .accept σ
  not_bad : σ.bad = false
  no_insnError : σ.insnError = none
  not_macro : op.isMacro = false
  appended : appendInsn o op.pinfo σ.insnOpcode σ.pending.1 σ.pending.2 = some r
  appended_not_bad : r.bad = false

variable {o P}

theorem comes_of_tryEntries {argsStart : List Char} {ops : List MipsOpcode} {σ σ' : AsmState} {op : MipsOpcode}
    (h : tryEntries o P argsStart ops σ = .assembled op σ') :
    ∃ more σ₀, Comes o P argsStart ops σ op more σ₀ ∧ parseArgs o P more op.args argsStart σ₀ = .accept σ' := by
  induction ops generalizing σ with
  | nil => cases h
  | cons op₁ ops ih =>
    rw [tryEntries] at h
    split at h
    · rename_i hs
      split at h
      · rename_i hp
        cases h
        exact ⟨_, _, .here hs, hp⟩
      · rename_i hp
        simp only at h
        split at h
        · rename_i hm
          obtain ⟨more, σ₀, hc, ha⟩ := ih h
          exact ⟨more, σ₀, .mismatch hs hm hp hc, ha⟩
        · cases h
      · cases h
      · cases h
    · rename_i hs
      split at h
      · rename_i hm
        obtain ⟨more, σ₀, hc, ha⟩ := ih h
        exact ⟨more, σ₀, .unsupported (by simpa using hs) hm hc, ha⟩
      · cases h

/-- Every line for which `md_assemble` emits a word. -/
theorem assembles_of_mdAssemble {mips_opcodes : List MipsOpcode} {str : List Char} {op : MipsOpcode} {r : Appended}
    (h : mdAssemble o P mips_opcodes str = some (op, r)) :
    ∃ more s σ₀ σ, Assembles o P mips_opcodes str op more s σ₀ σ r := by
  rw [mdAssemble] at h
  split at h
  · rename_i op' σ hip
    split at h
    · rename_i hok
      obtain ⟨r', hr, h⟩ := Option.bind_eq_some_iff.mp h
      split at h
      · cases h
      · rename_i hbad
        cases h
        rw [mipsIp] at hip
        split at hip
        · rename_i ops s hsplit
          obtain ⟨more, σ₀, hc, ha⟩ := comes_of_tryEntries hip
          simp only [Bool.and_eq_true, Option.isNone_iff_eq_none, Bool.not_eq_true'] at hok
          exact ⟨more, s, σ₀, σ, ⟨ops, hsplit, hc⟩, ha, hok.1.2, hok.1.1, hok.2, hr, by simpa using hbad⟩
        · cases hip
    · cases h
  · cases h

/-- An entry is tried with its own opcode. -/
theorem Comes.insnOpcode {argsStart : List Char} {ops : List MipsOpcode} {σ σ₀ : AsmState} {op : MipsOpcode}
    {more : Bool}
    (h : Comes o P argsStart ops σ op more σ₀) : σ₀.insnOpcode = op.matchBits := by
  induction h with
  | here hs => rfl
  | mismatch _ _ _ _ ih => exact ih
  | unsupported _ _ _ ih => exact ih

/-- What holds of the state that an operand leaves. -/
def ArgResult.Leaves (Q : AsmState → Prop) : ArgResult → Prop
  | next _ σ | accept σ | mismatch σ => Q σ
  | abort => True

section NoJump

variable {more : Bool} {s : List Char} {σ : AsmState}

theorem immediateOperand_noJump (c : Char) : (immediateOperand o P more c s σ).Leaves AsmState.NoJump := by
  have hr : (((P.getSmallExpression s).percentOps.head?.map PercentOp.reloc).getD .lo16) ≠ .mipsJmp :=
    getD_ne_mipsJmp (by decide)
  simp only [immediateOperand]
  split
  · exact hr
  · by_cases hc : c = '5'
    · rw [if_pos hc]
      exact hr
    · rw [if_neg hc]
      exact hr

theorem literal_noJump (h : σ.NoJump) (c : Char) : (literal c s σ).Leaves AsmState.NoJump := by
  rw [literal]
  split <;> exact h

theorem optionalOperand_noJump (h : σ.NoJump) (c : Char) (args : List Char) :
    (optionalOperand c args s σ).Leaves AsmState.NoJump := by
  rw [optionalOperand]
  split
  · split
    · exact h
    · exact literal_noJump h c
  · trivial

theorem offsetOperand_noJump (h : σ.NoJump) : (offsetOperand P s σ).Leaves AsmState.NoJump := by
  rw [offsetOperand]
  split
  · exact h
  · simp only
    split <;> exact h

theorem operand_noJump (h : σ.NoJump) (c : Char) (args : List Char) :
    (operand o P more c args s σ).Leaves AsmState.NoJump := by
  unfold operand
  split
  · rw [registerOperand]
    split
    · exact h
    · exact immediateOperand_noJump c
  · split
    · split
      · exact h
      · exact optionalOperand_noJump h _ args
    · exact optionalOperand_noJump h _ args
    iterate 3 exact literal_noJump h _
    iterate 3 exact immediateOperand_noJump _
    · exact offsetOperand_noJump h
    · exact h
    · exact getD_ne_mipsJmp h
    iterate 3 exact h
    · trivial

theorem extension_noJump (h : σ.NoJump) (c : Char) : (extension o P c s σ).Leaves AsmState.NoJump := by
  unfold extension
  split
  iterate 12 exact h
  · simp only [cp0Operand]
    split
    · split <;> exact h
    · exact h
  · exact h

theorem ArgResult.Leaves.andThen {Q : AsmState → Prop} {r : ArgResult} (h : r.Leaves Q)
    {k : List Char → AsmState → ArgResult} (hk : ∀ s σ, Q σ → (k s σ).Leaves Q) : (r.andThen k).Leaves Q := by
  cases r with
  | next s σ => exact hk s σ h
  | accept σ | mismatch σ | abort => exact h

theorem parseArgs_noJump (args : List Char) (h : σ.NoJump) : (parseArgs o P more args s σ).Leaves AsmState.NoJump := by
  induction args using operandChars_induction generalizing s σ with
  | nil =>
    rw [parseArgs]
    split <;> exact h
  | extension c args ih =>
    rw [parseArgs]
    exact (extension_noJump h c).andThen fun s σ hσ => ih hσ
  | operand c args hc ih =>
    rw [parseArgs.eq_3 _ _ _ _ _ _ _ hc]
    exact (operand_noJump h c args).andThen fun s σ hσ => ih hσ

/-- No entry before has left it to an immediate. -/
theorem Comes.noJump {argsStart : List Char} {ops : List MipsOpcode} {σ₀ : AsmState} {op : MipsOpcode}
    (hc : Comes o P argsStart ops σ op more σ₀) (h : σ.NoJump) : σ₀.NoJump := by
  induction hc with
  | here => exact h
  | @mismatch op _ ops _ σ σ₁ _ _ _ hp _ ih =>
    have hl : (parseArgs o P (hasMore op ops) op.args argsStart (σ.create op)).Leaves AsmState.NoJump :=
      parseArgs_noJump op.args h
    rw [hp] at hl
    exact ih hl
  | unsupported _ _ _ ih => exact ih h

end NoJump

end Comes

/-! ## Lines -/

section Lines

variable {o : AsmOptions} {P : ExpressionParser}

variable {mips_opcodes : List MipsOpcode} {str s : List Char} {op : MipsOpcode} {more : Bool} {σ₀ σ : AsmState}
  {r : Appended}

/-- The word of a line that follows the grammar. -/
theorem Assembles.word_eq (h : Assembles o P mips_opcodes str op more s σ₀ σ r) {xs : List AsmOperand}
    (hg : Gives o P op.args s xs) :
    r.word = Field.insertAll op.matchBits (xs.filterMap AsmOperand.inserted) |||
      pendingBits o op.pinfo (σ₀.applyAll xs).pending := by
  obtain ⟨-, rfl, -⟩ := parseArgs_of_gives hg h.accepts h.not_bad
  obtain ⟨ops, -, hc⟩ := h.comes
  rw [appendInsn_word h.appended, insnOpcode_applyAll, hc.insnOpcode]

theorem Assembles.noJump (h : Assembles o P mips_opcodes str op more s σ₀ σ r) : σ₀.NoJump := by
  obtain ⟨ops, -, hc⟩ := h.comes
  exact hc.noJump (by unfold AsmState.NoJump; decide)

/-- What earlier entries have left in the state adds no bit to the word that the
entry lacks in its mask. -/
def LeftHarmless (o : AsmOptions) (op : MipsOpcode) (σ₀ : AsmState) (xs : List AsmOperand) : Prop :=
  leftBits o op.pinfo σ₀ xs &&& op.mask &&& ~~~op.matchBits = 0

/-- Bits in the field of an operand are none of the mask. -/
theorem Gives.within_and {args : List Char} {xs : List AsmOperand} (hg : Gives o P args s xs) {m b : Word}
    (hf : ∀ c ∈ args, ∀ f ∈ letterField c, f.bits &&& m = 0) (h : Within xs b) : b &&& m = 0 := by
  rcases h with rfl | ⟨x, hx, -, f, hxf, hb⟩
  · exact BitVec.zero_and
  · rw [← hb, BitVec.and_assoc, hf x.letter (hg.letters_sublist.subset (List.mem_map_of_mem hx)) f hxf]
    exact BitVec.and_zero

/-- A line that is accepted without an error follows the grammar of its entry and
gives a word that decodes as the entry, if and only if it does not leave the grammar
at any operand character, and what earlier entries have left is harmless. -/
theorem mipsIp_grammar_iff (h : Assembles o P mips_opcodes str op more s σ₀ σ r) (hv : op.validate = true)
    (hargs : ∀ c ∈ op.args, IsOperandChar c) (hf : ∀ c ∈ op.args, ∀ f ∈ letterField c, f.bits &&& op.mask = 0) :
    ((∃ xs, Gives o P op.args s xs) ∧ op.Decodes r.word) ↔
      (∀ x ∈ operandTexts o P op.args s, ¬Diverts o P x.1 x.2) ∧
        LeftHarmless o op σ₀ (lineOperands o P op.args s) := by
  have hmatch : op.matchBits &&& op.mask = op.matchBits := by
    simp only [MipsOpcode.validate, Bool.and_eq_true, beq_iff_eq] at hv
    rw [BitVec.and_comm, hv.1]
  have hdec {xs : List AsmOperand} (hg : Gives o P op.args s xs) :
      op.Decodes r.word ↔ LeftHarmless o op σ₀ (lineOperands o P op.args s) := by
    rw [MipsOpcode.Decodes, h.word_eq hg, BitVec.and_or_distrib_right, hg.insertAll_and hf, hmatch, or_eq_left_iff,
      LeftHarmless, ← hg.eq_lineOperands]
    rcases pendingBits_applyAll o op.pinfo h.noJump hg.proper with he | ⟨hz, hw⟩
    · rw [he]
    · rw [hz, hg.within_and hf hw]
      simp
  rw [← gives_iff hargs h.accepts]
  refine and_congr_right fun hg => ?_
  obtain ⟨xs, hg⟩ := hg
  exact hdec hg

/-- No entry before has left an expression. -/
structure AsmState.Fresh (σ : AsmState) : Prop where
  immExpr : σ.immExpr.op = .absent
  offsetExpr : σ.offsetExpr.op = .absent
  immReloc : σ.immReloc = .unused
  offsetReloc : σ.offsetReloc = .unused

/-- Then no bits come from there. -/
theorem AsmState.Fresh.leftBits_eq {σ₀ : AsmState} (h : σ₀.Fresh) (o : AsmOptions) (pinfo : Word)
    (xs : List AsmOperand) : leftBits o pinfo σ₀ xs = 0 := by
  rw [leftBits]
  split
  · rfl
  · rw [if_neg (not_not.mpr h.immExpr)]
    split
    · exact pendingBits_absent h.offsetExpr _
    · rw [h.offsetReloc]
      exact if_neg fun hn => absurd hn.1 (by decide)

/-- On a line that follows the grammar nothing is harmful, unless an earlier
entry of the mnemonic has left it. -/
theorem leftHarmless_of_fresh (h : σ₀.Fresh) (xs : List AsmOperand) : LeftHarmless o op σ₀ xs := by
  rw [LeftHarmless, h.leftBits_eq]
  simp

end Lines

/-- An expression parser that knows decimal numbers only. -/
def decimalNumbers : ExpressionParser :=
  let number (s : List Char) : Parsed :=
    let sign := if s.head? = some '-' then 1 else 0
    let digits := (s.drop sign).takeWhile Char.isDigit
    let n : Int := digits.foldl (fun n d => n * 10 + (d.toNat - '0'.toNat)) 0
    if digits = [] then { expr := {}, rest := s }
    else { expr := { op := .constant, addNumber := if sign = 0 then n else -n }, rest := s.drop (sign + digits.length) }
  ⟨number, number⟩

def rigelOptions : AsmOptions := { isa := 0x200, arch := 1983 }

def addEntry : MipsOpcode :=
  { name := "add", args := ['d', ',', 't', ',', 's'], matchBits := 0x20, mask := 0xF0001FFF, membership := 0x200 }

def addiEntry : MipsOpcode :=
  { name := "addi", args := ['d', ',', 't', ',', 'j'], matchBits := 0x90000000, mask := 0xF0030000
    membership := 0x200 }

theorem addi_assembles :
    Assembles rigelOptions decimalNumbers [addEntry, addiEntry] "addi $1,$2,-5".toList addiEntry false "$1,$2,-5".toList
      { insnOpcode := 0x90000000 }
      { insnOpcode := 0x90880000, immExpr := { op := .constant, addNumber := -5 }, immReloc := .lo16 }
      { word := 0x9088FFFB } where
  comes := ⟨_, rfl, .here rfl⟩
  accepts := rfl
  not_bad := rfl
  no_insnError := rfl
  not_macro := rfl
  appended := rfl
  appended_not_bad := rfl

theorem mipsIp_grammar_addi :
    ((∃ xs, Gives rigelOptions decimalNumbers addiEntry.args "$1,$2,-5".toList xs) ∧ addiEntry.Decodes 0x9088FFFB) ↔
      (∀ x ∈ operandTexts rigelOptions decimalNumbers addiEntry.args "$1,$2,-5".toList,
        ¬Diverts rigelOptions decimalNumbers x.1 x.2) ∧
      LeftHarmless rigelOptions addiEntry { insnOpcode := 0x90000000 }
        (lineOperands rigelOptions decimalNumbers addiEntry.args "$1,$2,-5".toList) :=
  mipsIp_grammar_iff addi_assembles (by decide) (by unfold IsOperandChar; decide) (by decide)

/-- `add $1,$2,5` is accepted, as the word of another instruction. -/
theorem add_grammar_not :
    addEntry.validate = true ∧ (∀ c ∈ addEntry.args, ∀ f ∈ letterField c, f.bits &&& addEntry.mask = 0) ∧
      ∃ σ₀ σ r, Assembles rigelOptions decimalNumbers [addEntry] "add $1,$2,5".toList addEntry false "$1,$2,5".toList
        σ₀ σ r ∧
      ¬((∃ xs, Gives rigelOptions decimalNumbers addEntry.args "$1,$2,5".toList xs) ∧ addEntry.Decodes r.word) := by
  refine ⟨by decide, by decide, { insnOpcode := 0x20 },
    { insnOpcode := 0x00880020, immExpr := { op := .constant, addNumber := 5 }, immReloc := .lo16 },
    { word := 0x00880025 }, ⟨⟨_, rfl, .here rfl⟩, rfl, rfl, rfl, rfl, rfl, rfl⟩, ?_⟩
  rintro ⟨-, hd⟩
  exact absurd hd (by decide)

end Rigel
