import RigelCodegen.Asm.Emit
import RigelCodegen.Asm.Disassemble
import Mathlib.Data.List.Pairwise

/-!
# Assembling and disassembling

The operands that `print_insn_args` reads off an emitted word are those that
were written in the line (`disassembles_iff`), unless a register number is cut
off: every register of the table is taken at every register letter, and
`INSERT_OPERAND` masks it. A constant is checked against its field. With nothing
left by earlier entries of the mnemonic, only the registers matter
(`kept_iff_of_fresh`).
-/

namespace Rigel

open Word32 Op

namespace AsmOperand

/-- A register, a target, or a constant without a percent operator. -/
def IsPlain : AsmOperand → Prop
  | register .. => True
  | expression c e percentOps => c ∈ smallLetters → e.op = .constant ∧ percentOps = []
  | omitted => False

instance : DecidablePred IsPlain
  | register .. => .isTrue trivial
  | expression .. => inferInstanceAs (Decidable (_ → _))
  | omitted => .isFalse id

/-- What is written for a register or a constant. -/
def value : AsmOperand → ArgValue
  | register _ n => .register n
  | expression _ e _ => .number e.addNumber
  | omitted => .number 0

/-- The operand of a line `xs` survives what earlier entries of the mnemonic have
left in `σ₀`: a register number fits its field, and no other bit is added to it; a
`u` has its bits under the relocation that is left for an immediate; and an `o` has
them under the one that is left for an offset, or an expression that is left has
the same. -/
def Kept (o : AsmOptions) (pinfo : Word) (σ₀ : AsmState) (xs : List AsmOperand) : AsmOperand → Prop
  | register c n => ∀ f ∈ regField c, f.Fits (BitVec.ofNat 32 n) ∧
      f.extract (leftBits o pinfo σ₀ xs) ||| BitVec.ofNat 32 n = BitVec.ofNat 32 n
  | expression 'u' e _ => (pendingBits o pinfo (e, σ₀.immReloc)).setWidth 16 = e.word.setWidth 16
  | expression 'o' e _ =>
    (pendingBits o pinfo (if σ₀.immExpr.op ≠ .absent then (σ₀.immExpr, σ₀.immReloc) else (e, σ₀.offsetReloc))).setWidth
      16 = e.word.setWidth 16
  | _ => True

end AsmOperand

theorem printInsnArg_register {c : Char} {f : Field} (hc : regField c = some f) (pc l : Word) :
    printInsnArg pc l c = some (.register (f.extract l).toNat) := by
  have hm := mem_of_regField (c := c) (by rw [hc]; rfl)
  simp only [List.mem_cons, List.not_mem_nil, or_false] at hm
  rcases hm with rfl | rfl | rfl | rfl | rfl | rfl | rfl | rfl | rfl <;> cases hc <;> rfl

section Grammar

variable {o : AsmOptions} {P : ExpressionParser}

theorem GivesOne.register_lt {c d : Char} {s s' : List Char} {n : Nat}
    (h : GivesOne o P c s (some (.register d n)) s') : n < 256 := by
  cases h with
  | register hc hl => exact (regLookup_spec hl).1

/-- A register number is one of `RNUM_MASK`. -/
theorem Gives.register_lt {args s : List Char} {xs : List AsmOperand} (h : Gives o P args s xs) {c : Char} {n : Nat}
    (hx : .register c n ∈ xs) : n < 256 := by
  induction h with
  | nil => cases hx
  | cons h1 hs ih =>
    rcases List.mem_append.mp hx with hx | hx
    · obtain rfl := Option.mem_toList.mp hx
      exact h1.register_lt
    · exact ih hx

/-- The fields of the operands have no bit in common, if those of the entry have
none. -/
theorem Gives.pairwise {args s : List Char} {xs : List AsmOperand} (h : Gives o P args s xs)
    (hd : (args.filterMap letterField).Pairwise Field.Disjoint) :
    xs.Pairwise fun x y => ∀ f, letterField x.letter = some f → ∀ g, letterField y.letter = some g → f.Disjoint g := by
  have hs := h.letters_sublist.filterMap letterField
  rw [List.filterMap_map] at hs
  exact List.pairwise_filterMap.mp (hd.sublist hs)

/-- The operands that are inserted have fields without a common bit. -/
theorem pairwise_inserted {xs : List AsmOperand} (h : xs.Pairwise fun x y =>
    ∀ f, letterField x.letter = some f → ∀ g, letterField y.letter = some g → f.Disjoint g) :
    ((xs.filterMap AsmOperand.inserted).map Prod.fst).Pairwise Field.Disjoint := by
  rw [List.pairwise_map, List.pairwise_filterMap]
  refine h.imp ?_
  intro x y hxy p hp q hq
  exact hxy _ (AsmOperand.letterField_of_inserted hp) _ (AsmOperand.letterField_of_inserted hq)

/-- Two operands of a line have no bit in common. -/
theorem disjoint_of_ne {xs : List AsmOperand} (h : xs.Pairwise fun x y =>
    ∀ f, letterField x.letter = some f → ∀ g, letterField y.letter = some g → f.Disjoint g) {x y : AsmOperand}
    (hx : x ∈ xs) (hy : y ∈ xs) (hne : x ≠ y) {f g : Field} (hf : letterField x.letter = some f)
    (hg : letterField y.letter = some g) : f.Disjoint g := by
  have hsymm : Std.Symm fun x y : AsmOperand =>
      ∀ f, letterField x.letter = some f → ∀ g, letterField y.letter = some g → f.Disjoint g :=
    ⟨fun _ _ hxy f hf g hg => (hxy g hg f hf).symm⟩
  exact h.forall hx hy hne f hf g hg

/-- An operand that is inserted is read back from the word. -/
theorem extract_of_inserted {xs : List AsmOperand} (h : xs.Pairwise fun x y =>
    ∀ f, letterField x.letter = some f → ∀ g, letterField y.letter = some g → f.Disjoint g) {x : AsmOperand}
    (hx : x ∈ xs) {f : Field} {v : Word} (hi : x.inserted = some (f, v)) (w b : Word) :
    f.extract (Field.insertAll w (xs.filterMap AsmOperand.inserted) ||| b) = v &&& f.mask ||| f.extract b := by
  rw [Field.extract_or, Field.extract_insertAll_of_mem (pairwise_inserted h) (List.mem_filterMap.mpr ⟨x, hx, hi⟩)]

/-- The field of one that is not has only the bits that are added. -/
theorem extract_of_not_inserted {xs : List AsmOperand} (h : xs.Pairwise fun x y =>
    ∀ f, letterField x.letter = some f → ∀ g, letterField y.letter = some g → f.Disjoint g) {x : AsmOperand}
    (hx : x ∈ xs) {f : Field} (hf : letterField x.letter = some f) (hi : x.inserted = none) {w : Word}
    (hw : w &&& f.bits = 0) (b : Word) :
    f.extract (Field.insertAll w (xs.filterMap AsmOperand.inserted) ||| b) = f.extract b := by
  have hdisj : ∀ p ∈ xs.filterMap AsmOperand.inserted, p.1.Disjoint f := by
    intro p hp
    obtain ⟨y, hy, hyp⟩ := List.mem_filterMap.mp hp
    have hne : y ≠ x := by
      rintro rfl
      exact nomatch hi.symm.trans hyp
    exact disjoint_of_ne h hy hx hne (AsmOperand.letterField_of_inserted hyp) hf
  have h0 : f.extract w = 0 := by
    rw [Field.extract_eq, hw]
    exact BitVec.zero_ushiftRight
  rw [Field.extract_or, Field.extract_insertAll_of_disjoint hdisj, h0]
  exact BitVec.zero_or

end Grammar

theorem toNat_lower (w : Word) : (IMMEDIATE.extract w).toNat = (w.setWidth 16).toNat := by
  simp only [Field.extract, IMMEDIATE, BitVec.ushiftRight_zero, BitVec.toNat_and, BitVec.toNat_setWidth]
  exact Nat.and_two_pow_sub_one_eq_mod _ 16

/-- A constant that fits an unsigned field. -/
theorem toNat_setWidth_ofInt {x : Int} (h : 0 ≤ x ∧ x ≤ 0xffff) :
    (((BitVec.ofInt 32 x).setWidth 16).toNat : Int) = x := by
  simp only [BitVec.toNat_setWidth, BitVec.toNat_ofInt]
  omega

/-- A constant that fits a signed field. -/
theorem toInt_setWidth_ofInt {x : Int} (h : -0x8000 ≤ x ∧ x ≤ 0x7fff) :
    ((BitVec.ofInt 32 x).setWidth 16).toInt = x := by
  rw [BitVec.toInt_eq_toNat_cond, BitVec.toNat_setWidth, BitVec.toNat_ofInt]
  omega

/-- Bits that are added to a value that is cut off leave it as it is, only if it
fits and has them. -/
theorem and_or_eq_iff {v m b : Word} (hb : b &&& m = b) : v &&& m ||| b = v ↔ v &&& m = v ∧ b ||| v = v := by
  constructor
  · intro h
    have hm : v &&& m = v := by
      rw [← h, BitVec.and_or_distrib_right, BitVec.and_assoc, BitVec.and_self, hb]
    rw [hm] at h
    exact ⟨hm, by rw [BitVec.or_comm, h]⟩
  · rintro ⟨hm, hor⟩
    rw [hm, BitVec.or_comm, hor]

theorem extract_and_mask (f : Field) (w : Word) : f.extract w &&& f.mask = f.extract w := by
  rw [Field.extract, BitVec.and_assoc, BitVec.and_self]

theorem ofNat_eq_iff_toNat {n : Nat} (hn : n < 256) {w : Word} : w.toNat = n ↔ w = BitVec.ofNat 32 n := by
  constructor
  · rintro rfl
    exact BitVec.eq_of_toNat_eq (by simp)
  · rintro rfl
    rw [BitVec.toNat_ofNat, Nat.mod_eq_of_lt (by omega)]

/-! ## What is printed -/

section Printed

/-- The word of a line: the fields of its operands, and the bits that are added. -/
structure Holds (xs : List AsmOperand) (word b : Word) : Prop where
  fields : xs.Pairwise fun x y =>
    ∀ f, letterField x.letter = some f → ∀ g, letterField y.letter = some g → f.Disjoint g
  eq : ∃ w, word = Field.insertAll w (xs.filterMap AsmOperand.inserted) ||| b ∧
    ∀ x ∈ xs, ∀ f ∈ letterField x.letter, w &&& f.bits = 0

variable {xs : List AsmOperand} {word b : Word}

/-- A register is read back if it fits, and no other bit is added. -/
theorem Holds.register (h : Holds xs word b) {c : Char} {n : Nat} (hn : n < 256) {f : Field} (hc : regField c = some f)
    (hx : .register c n ∈ xs) (pc : Word) :
    printInsnArg pc word c = some (.register n) ↔
      f.Fits (BitVec.ofNat 32 n) ∧ f.extract b ||| BitVec.ofNat 32 n = BitVec.ofNat 32 n := by
  obtain ⟨w, hw, -⟩ := h.eq
  have hi : (AsmOperand.register c n).inserted = some (f, BitVec.ofNat 32 n) := by rw [AsmOperand.inserted, hc]; rfl
  calc printInsnArg pc word c = some (.register n)
      ↔ (f.extract word).toNat = n := by rw [printInsnArg_register hc, Option.some_inj, ArgValue.register.injEq]
    _ ↔ f.extract word = BitVec.ofNat 32 n := ofNat_eq_iff_toNat hn
    _ ↔ BitVec.ofNat 32 n &&& f.mask ||| f.extract b = BitVec.ofNat 32 n := by
        rw [hw, extract_of_inserted h.fields hx hi]
    _ ↔ f.Fits (BitVec.ofNat 32 n) ∧ f.extract b ||| BitVec.ofNat 32 n = BitVec.ofNat 32 n :=
        and_or_eq_iff (extract_and_mask f b)

/-- A `5` is in its field, as it is in range. -/
theorem Holds.imm5 (h : Holds xs word b) {e : Expression} (he : 0 ≤ e.addNumber ∧ e.addNumber ≤ 0x1f)
    (hx : .expression '5' e [] ∈ xs) (pc : Word) :
    printInsnArg pc word '5' = some (.number e.addNumber) ↔ IMM5.extract b ||| e.word = e.word := by
  obtain ⟨l, hl, -⟩ := h.eq
  obtain ⟨n, hn⟩ := Int.eq_ofNat_of_zero_le he.1
  have hw : e.word = BitVec.ofNat 32 n := by rw [Expression.word, hn, BitVec.ofInt_natCast]
  have hfit : e.word &&& IMM5.mask = e.word := by
    have hlt : n < 2 ^ 5 := by omega
    apply BitVec.eq_of_toNat_eq
    rw [hw, BitVec.toNat_and, BitVec.toNat_ofNat, Nat.mod_eq_of_lt (by omega)]
    exact (Nat.and_two_pow_sub_one_eq_mod n 5).trans (Nat.mod_eq_of_lt hlt)
  have hp (l : Word) : printInsnArg pc l '5' = some (.number (IMM5.extract l).toNat) := rfl
  calc printInsnArg pc word '5' = some (.number e.addNumber)
      ↔ (IMM5.extract word).toNat = n := by rw [hp, Option.some_inj, ArgValue.number.injEq, hn, Int.natCast_inj]
    _ ↔ IMM5.extract word = e.word := by rw [ofNat_eq_iff_toNat (by omega), hw]
    _ ↔ IMM5.extract b ||| e.word = e.word := by
        rw [hl, extract_of_inserted h.fields hx rfl, hfit, BitVec.or_comm]

/-- The field of an immediate has only the bits that are added. -/
theorem Holds.lower (h : Holds xs word b) {x : AsmOperand} (hx : x ∈ xs) (hi : x.inserted = none) {f : Field}
    (hf : letterField x.letter = some f) (hm : f.mask = 0xffff) (hs : f.shift = 0) :
    word.setWidth 16 = b.setWidth 16 := by
  obtain ⟨w, rfl, hw⟩ := h.eq
  have he := extract_of_not_inserted h.fields hx hf hi (hw x hx f hf) b
  have hlow (v : Word) : (f.extract v).toNat = v.toNat % 0x10000 := by
    rw [Field.extract, hm, hs, BitVec.ushiftRight_zero, BitVec.toNat_and]
    exact Nat.and_two_pow_sub_one_eq_mod _ 16
  apply BitVec.eq_of_toNat_eq
  rw [BitVec.toNat_setWidth, BitVec.toNat_setWidth, ← hlow, ← hlow, he]

/-- An unsigned immediate. -/
theorem Holds.unsigned (h : Holds xs word b) {c : Char} (hc : c = 'i' ∨ c = 'u') {e : Expression}
    (he : 0 ≤ e.addNumber ∧ e.addNumber ≤ 0xffff) (hx : .expression c e [] ∈ xs) (pc : Word) :
    printInsnArg pc word c = some (.number e.addNumber) ↔ b.setWidth 16 = e.word.setWidth 16 := by
  have hp (l : Word) : printInsnArg pc l c = some (.number (IMMEDIATE.extract l).toNat) := by
    rcases hc with rfl | rfl <;> rfl
  have hlow : word.setWidth 16 = b.setWidth 16 := by
    rcases hc with rfl | rfl <;> exact h.lower hx rfl rfl rfl rfl
  calc printInsnArg pc word c = some (.number e.addNumber)
      ↔ ((b.setWidth 16).toNat : Int) = e.addNumber := by
        rw [hp, toNat_lower, hlow, Option.some_inj, ArgValue.number.injEq]
    _ ↔ ((b.setWidth 16).toNat : Int) = (e.word.setWidth 16).toNat := by rw [Expression.word, toNat_setWidth_ofInt he]
    _ ↔ b.setWidth 16 = e.word.setWidth 16 := by rw [Int.natCast_inj, BitVec.toNat_inj]

/-- A signed immediate. -/
theorem Holds.signed (h : Holds xs word b) {c : Char} (hc : c = 'j' ∨ c = 'o') {e : Expression}
    (he : -0x8000 ≤ e.addNumber ∧ e.addNumber ≤ 0x7fff) (hx : .expression c e [] ∈ xs) (pc : Word) :
    printInsnArg pc word c = some (.number e.addNumber) ↔ b.setWidth 16 = e.word.setWidth 16 := by
  have hp (l : Word) : printInsnArg pc l c = some (.number (signedDelta l).toInt) := by
    rcases hc with rfl | rfl <;> rfl
  have hlow : word.setWidth 16 = b.setWidth 16 := by
    rcases hc with rfl | rfl <;> exact h.lower hx rfl rfl rfl rfl
  calc printInsnArg pc word c = some (.number e.addNumber)
      ↔ (b.setWidth 16).toInt = e.addNumber := by
        rw [hp, signedDelta_eq, toInt_sext, hlow, Option.some_inj, ArgValue.number.injEq]
    _ ↔ (b.setWidth 16).toInt = (e.word.setWidth 16).toInt := by rw [Expression.word, toInt_setWidth_ofInt he]
    _ ↔ b.setWidth 16 = e.word.setWidth 16 := BitVec.toInt_inj

end Printed

section Lines

variable {o : AsmOptions} {P : ExpressionParser} {mips_opcodes : List MipsOpcode} {str s : List Char} {op : MipsOpcode}
  {more : Bool} {σ₀ σ : AsmState} {r : Appended} {xs : List AsmOperand}

/-- An emitted word holds the operands of its line. -/
theorem Assembles.holds (h : Assembles o P mips_opcodes str op more s σ₀ σ r) (hv : op.validate = true)
    (hg : Gives o P op.args s xs) (hd : (op.args.filterMap letterField).Pairwise Field.Disjoint)
    (hf : ∀ c ∈ op.args, ∀ f ∈ letterField c, f.bits &&& op.mask = 0) :
    Holds xs r.word (pendingBits o op.pinfo (σ₀.applyAll xs).pending) where
  fields := hg.pairwise hd
  eq := by
    refine ⟨op.matchBits, h.word_eq hg, fun x hx f hxf => ?_⟩
    simp only [MipsOpcode.validate, Bool.and_eq_true, beq_iff_eq] at hv
    have hmask := hf x.letter (hg.letters_sublist.subset (List.mem_map_of_mem hx)) f hxf
    rw [← hv.1, BitVec.and_comm op.mask, BitVec.and_assoc, BitVec.and_comm op.mask, hmask]
    exact BitVec.and_zero

end Lines

/-- An operand that is no register has a field that goes over bit 13. -/
theorem AsmOperand.bit_of_proper {x : AsmOperand} (hx : x.Proper) (hr : ∀ c n, x ≠ .register c n) :
    ∃ f, letterField x.letter = some f ∧ (0x2000 : Word) &&& f.bits = 0x2000 := by
  cases x with
  | register c n => exact absurd rfl (hr c n)
  | omitted => exact ⟨DELTA, rfl, by decide⟩
  | expression c e percentOps =>
    simp only [Proper, smallLetters, targetLetters, List.mem_cons, List.not_mem_nil, or_false] at hx
    rcases hx with (rfl | rfl | rfl | rfl | rfl) | (rfl | rfl) <;> exact ⟨_, rfl, by decide⟩

/-- Registers go to the instruction word only. -/
theorem applyAll_registers {xs : List AsmOperand} (h : ∀ x ∈ xs, ∃ c n, x = .register c n) (σ : AsmState) :
    ∃ w, σ.applyAll xs = { σ with insnOpcode := w } := by
  induction xs generalizing σ with
  | nil => exact ⟨_, rfl⟩
  | cons x xs ih =>
    obtain ⟨c, n, rfl⟩ := h x (.head _)
    obtain ⟨w, hw⟩ := ih (fun y hy => h y (.tail _ hy)) ((AsmOperand.register c n).apply σ)
    refine ⟨w, hw.trans ?_⟩
    simp only [AsmOperand.apply]
    cases regField c <;> rfl

/-- What is pending does not depend on the instruction word. -/
theorem AsmOperand.pending_apply (x : AsmOperand) (σ : AsmState) (w w' : Word) :
    ({ x.apply { σ with insnOpcode := w } with insnOpcode := w' } : AsmState).pending = (x.apply σ).pending := by
  unfold apply
  split
  · split <;> rfl
  · simp only
    split <;> rfl
  · rfl

section Single

variable {o : AsmOptions} {pinfo : Word} {xs : List AsmOperand} {σ₀ : AsmState}

/-- A line has at most one operand that is no register, and that decides what is
pending. -/
theorem pending_applyAll (σ₀ : AsmState) (hp : ∀ x ∈ xs, x.Proper) (hd : xs.Pairwise fun x y =>
    ∀ f, letterField x.letter = some f → ∀ g, letterField y.letter = some g → f.Disjoint g) {x : AsmOperand}
    (hx : x ∈ xs) (hr : ∀ c n, x ≠ .register c n) : (σ₀.applyAll xs).pending = (x.apply σ₀).pending := by
  obtain ⟨l, r, rfl⟩ := List.append_of_mem hx
  obtain ⟨f, hf, hbit⟩ := AsmOperand.bit_of_proper (hp x hx) hr
  -- Two operands that go over bit 13 would share it.
  have hother {y : AsmOperand} (hy : y ∈ l ++ x :: r)
      (hxy : ∀ g, letterField y.letter = some g → f.Disjoint g ∨ g.Disjoint f) : ∃ c n, y = .register c n := by
    by_contra hn
    simp only [not_exists] at hn
    obtain ⟨g, hg, hbit'⟩ := AsmOperand.bit_of_proper (hp y hy) hn
    have hfg : f.bits &&& g.bits = 0 := (hxy g hg).elim id Field.Disjoint.symm
    have h2 : (0x2000 : Word) &&& (f.bits &&& g.bits) = 0x2000 := by rw [← BitVec.and_assoc, hbit, hbit']
    rw [hfg] at h2
    exact absurd h2 (by decide)
  rw [List.pairwise_append, List.pairwise_cons] at hd
  have hl : ∀ y ∈ l, ∃ c n, y = AsmOperand.register c n := fun y hy =>
    hother (List.mem_append_left _ hy) fun g hg => .inr (hd.2.2 y hy x (.head _) g hg f hf)
  have hr' : ∀ y ∈ r, ∃ c n, y = AsmOperand.register c n := fun y hy =>
    hother (List.mem_append_right _ (.tail _ hy)) fun g hg => .inl (hd.2.1.1 y hy f hf g hg)
  obtain ⟨w, hw⟩ := applyAll_registers hl σ₀
  obtain ⟨w', hw'⟩ := applyAll_registers hr' (x.apply { σ₀ with insnOpcode := w })
  rw [AsmState.applyAll, List.foldl_append, List.foldl_cons, ← AsmState.applyAll, ← AsmState.applyAll, hw, hw']
  exact x.pending_apply σ₀ w w'

/-- The field of a register gets the bits that earlier entries are the cause of. -/
theorem extract_pendingBits (h : σ₀.NoJump) (hp : ∀ x ∈ xs, x.Proper) (hd : xs.Pairwise fun x y =>
    ∀ f, letterField x.letter = some f → ∀ g, letterField y.letter = some g → f.Disjoint g) {c : Char} {n : Nat}
    (hx : .register c n ∈ xs) {f : Field} (hf : regField c = some f) :
    f.extract (pendingBits o pinfo (σ₀.applyAll xs).pending) = f.extract (leftBits o pinfo σ₀ xs) := by
  rcases pendingBits_applyAll o pinfo h hp with he | ⟨hz, hw | ⟨y, hy, hn, g, hg, hw⟩⟩
  · rw [he]
  · rw [hz, hw]
  · have hne : y ≠ .register c n := by
      rintro rfl
      exact nomatch hn.symm.trans hf
    have hf' : letterField (AsmOperand.register c n).letter = some f := by
      simp only [AsmOperand.letter, letterField, hf]
    have hgf : g.bits &&& f.bits = 0 := disjoint_of_ne hd hy hx hne hg hf'
    rw [hz, Field.extract_eq, Field.extract_eq, ← hw, BitVec.and_assoc, hgf]
    simp

theorem setWidth_ofInt_emod (x : Int) :
    (BitVec.ofInt 32 (x % 0x10000)).setWidth 16 = (BitVec.ofInt 32 x).setWidth 16 := by
  apply BitVec.eq_of_toNat_eq
  simp only [BitVec.toNat_setWidth, BitVec.toNat_ofInt]
  omega

/-- The lower half of a constant. -/
theorem setWidth_pendingBits {e : Expression} (hop : e.op = .constant) {reloc : BfdReloc}
    (hreloc : reloc = .lo16 ∨ reloc = .unused) : (pendingBits o pinfo (e, reloc)).setWidth 16 = e.word.setWidth 16 := by
  rcases hreloc with rfl | rfl <;> simp [pendingBits, hop, BfdReloc.bits, setWidth_ofInt_emod, Expression.word]

end Single

/-! ## Lines that are read back -/

section ReadBack

variable {o : AsmOptions} {P : ExpressionParser} {mips_opcodes : List MipsOpcode} {str s : List Char} {op : MipsOpcode}
  {more : Bool} {σ₀ σ : AsmState} {r : Appended} {xs : List AsmOperand}

/-- The registers and constants that are read off an emitted word are those of
its line, if and only if the registers fit their fields, and what earlier entries
have left does not change an operand. -/
theorem disassembles_iff (h : Assembles o P mips_opcodes str op more s σ₀ σ r) (hv : op.validate = true)
    (hg : Gives o P op.args s xs) (hx : ∀ x ∈ xs, x.IsPlain)
    (hd : (op.args.filterMap letterField).Pairwise Field.Disjoint)
    (hf : ∀ c ∈ op.args, ∀ f ∈ letterField c, f.bits &&& op.mask = 0) (pc : Word) :
    (∀ x ∈ xs, x.letter ∉ targetLetters → printInsnArg pc r.word x.letter = some x.value) ↔
      ∀ x ∈ xs, x.Kept o op.pinfo σ₀ xs := by
  have hholds := h.holds hv hg hd hf
  obtain ⟨-, -, hrange⟩ := parseArgs_of_gives hg h.accepts h.not_bad
  refine forall₂_congr fun x hmem => ?_
  have hproper := hg.proper x hmem
  have hplain := hx x hmem
  cases x with
  | register c n =>
    obtain ⟨f, hc⟩ := Option.isSome_iff_exists.mp hproper
    have ht : c ∉ targetLetters := (letters_disjoint.1 c (mem_of_regField hproper)).2.1
    refine (forall_prop_of_true ht).trans ((hholds.register (hg.register_lt hmem) hc hmem pc).trans ?_)
    rw [extract_pendingBits h.noJump hg.proper (hg.pairwise hd) hmem hc]
    simp only [AsmOperand.Kept, hc, Option.mem_some_iff, forall_eq']
  | expression c e percentOps =>
    by_cases hc : c ∈ smallLetters
    · have ht : c ∉ targetLetters := (letters_disjoint.2.1 c hc).1
      obtain ⟨hop, rfl⟩ := hplain hc
      have hr := hrange _ hmem rfl hop
      have hpend := pending_applyAll σ₀ hg.proper (hg.pairwise hd) hmem nofun
      rw [hpend] at hholds
      have himm {σ' : AsmState} (he : σ'.immExpr.op ≠ .absent) : σ'.pending = (σ'.immExpr, σ'.immReloc) := if_pos he
      have hne : e.op ≠ .absent := hproper.2
      refine (forall_prop_of_true ht).trans ?_
      simp only [smallLetters, List.mem_cons, List.not_mem_nil, or_false] at hc
      rcases hc with rfl | rfl | rfl | rfl | rfl
      · rw [himm hne] at hholds
        exact (hholds.unsigned (.inl rfl) hr hmem pc).trans
          (iff_of_true (setWidth_pendingBits hop (.inl rfl)) trivial)
      · rw [himm hne] at hholds
        exact (hholds.signed (.inl rfl) hr hmem pc).trans (iff_of_true (setWidth_pendingBits hop (.inl rfl)) trivial)
      · rw [himm hne, pendingBits_zero rfl] at hholds
        exact (hholds.imm5 hr hmem pc).trans (iff_of_true (by simp [Field.extract]) trivial)
      · rw [himm hne] at hholds
        exact hholds.unsigned (.inr rfl) hr hmem pc
      · refine (hholds.signed (.inr rfl) hr hmem pc).trans ?_
        rw [AsmState.pending]
        by_cases hi : σ₀.immExpr.op ≠ .absent
        · rw [if_pos (show (AsmOperand.apply σ₀ (.expression 'o' e [])).immExpr.op ≠ .absent from hi)]
          simp only [AsmOperand.Kept, if_pos hi]
          rfl
        · rw [if_neg (show ¬(AsmOperand.apply σ₀ (.expression 'o' e [])).immExpr.op ≠ .absent from hi),
            if_pos (show (AsmOperand.apply σ₀ (.expression 'o' e [])).offsetExpr.op ≠ .absent from hne)]
          simp only [AsmOperand.Kept, if_neg hi]
          rfl
    · have ht : c ∈ targetLetters := hproper.1.resolve_left hc
      have hk : (AsmOperand.expression c e percentOps).Kept o op.pinfo σ₀ xs := by
        simp only [targetLetters, List.mem_cons, List.not_mem_nil, or_false] at ht
        rcases ht with rfl | rfl <;> trivial
      exact iff_of_true (fun hn => absurd ht hn) hk
  | omitted => exact hplain.elim

/-- If no earlier entry of the mnemonic has left an expression, all depends on
the registers. -/
theorem kept_iff_of_fresh (h : σ₀.Fresh) (pinfo : Word) (hx : ∀ x ∈ xs, x.IsPlain) :
    (∀ x ∈ xs, x.Kept o pinfo σ₀ xs) ↔
      ∀ c n, AsmOperand.register c n ∈ xs → ∀ f ∈ regField c, f.Fits (BitVec.ofNat 32 n) := by
  refine ⟨fun hk c n hm f hf => (hk _ hm f hf).1, fun hfit x hm => ?_⟩
  cases x with
  | register c n =>
    intro f hf
    refine ⟨hfit c n hm f hf, ?_⟩
    rw [h.leftBits_eq]
    simp [Field.extract]
  | omitted => exact trivial
  | expression c e percentOps =>
    unfold AsmOperand.Kept
    split
    · rename_i he
      cases he
    · rename_i he
      cases he
      exact setWidth_pendingBits (hx _ hm (by decide)).1 (.inr h.immReloc)
    · rename_i he
      cases he
      rw [if_neg (not_not.mpr h.immExpr)]
      exact setWidth_pendingBits (hx _ hm (by decide)).1 (.inr h.offsetReloc)
    · trivial

end ReadBack

/-- The operands of `$1,$2,-5`. -/
def addiOperands : List AsmOperand :=
  [.register 'd' 1, .register 't' 2, .expression 'j' { op := .constant, addNumber := -5 } []]

theorem addi_gives : Gives rigelOptions decimalNumbers addiEntry.args "$1,$2,-5".toList addiOperands :=
  .cons (x := some (.register 'd' 1)) (.register rfl rfl) <|
    .cons (x := none) (.literal (by decide) _) <|
    .cons (x := some (.register 't' 2)) (.register rfl rfl) <|
    .cons (x := none) (.literal (by decide) _) <|
    .cons (x := some (.expression 'j' { op := .constant, addNumber := -5 } []))
      (.small (by decide) (by decide) (by decide)) (.nil rfl)

theorem disassembles_addi :
    (∀ x ∈ addiOperands, x.letter ∉ targetLetters → printInsnArg 0 0x9088FFFB x.letter = some x.value) ↔
      ∀ x ∈ addiOperands, x.Kept rigelOptions 0 { insnOpcode := 0x90000000 } addiOperands :=
  disassembles_iff addi_assembles (by decide) addi_gives (by decide) (by decide) (by decide) 0

/-- `add $33,$2,$3` is accepted, and printed with `$1`. -/
theorem add_disassembles_not :
    addEntry.validate = true ∧ (addEntry.args.filterMap letterField).Pairwise Field.Disjoint ∧
      (∀ c ∈ addEntry.args, ∀ f ∈ letterField c, f.bits &&& addEntry.mask = 0) ∧
      ∃ σ₀ σ r xs, Assembles rigelOptions decimalNumbers [addEntry] "add $33,$2,$3".toList addEntry false
        "$33,$2,$3".toList σ₀ σ r ∧
      Gives rigelOptions decimalNumbers addEntry.args "$33,$2,$3".toList xs ∧ (∀ x ∈ xs, x.IsPlain) ∧
      ¬∀ x ∈ xs, x.letter ∉ targetLetters → printInsnArg 0 r.word x.letter = some x.value := by
  refine ⟨by decide, by decide, by decide, { insnOpcode := 0x20 }, { insnOpcode := 0x00886020 }, { word := 0x00886020 },
    [.register 'd' 33, .register 't' 2, .register 's' 3], ⟨⟨_, rfl, .here rfl⟩, rfl, rfl, rfl, rfl, rfl, rfl⟩, ?_,
    by decide, by decide⟩
  exact .cons (x := some (.register 'd' 33)) (.register rfl rfl) <|
    .cons (x := none) (.literal (by decide) _) <|
    .cons (x := some (.register 't' 2)) (.register rfl rfl) <|
    .cons (x := none) (.literal (by decide) _) <|
    .cons (x := some (.register 's' 3)) (.register rfl rfl) (.nil rfl)

end Rigel
