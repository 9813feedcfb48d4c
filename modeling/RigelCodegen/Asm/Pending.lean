import RigelCodegen.Asm.Operands

/-!
# The pending expression

`append_insn` adds the bits of the expression that is pending after the operands
(`appendInsn_word`). They lie in the field of an operand, but for those that
earlier entries of the mnemonic are the cause of (`leftBits`): `mips_ip` does not
reset its expressions and relocations between entries.
-/

namespace Rigel

open Word32 Op

/-- The bits that `append_insn` adds for a pending expression. -/
def pendingBits (o : AsmOptions) (pinfo : Word) (p : Expression × BfdReloc) : Word :=
  if p.1.op ≠ .constant then 0
  else if p.2 = .pcrelS2 ∧ o.relaxBranch = true then
    if isBranch pinfo = true ∧ o.mayRelax = true then BfdReloc.unused.bits p.1.addNumber else 0
  else p.2.bits p.1.addNumber

theorem appendInsn_word {o : AsmOptions} {pinfo insn : Word} {e : Expression} {reloc : BfdReloc} {r : Appended}
    (h : appendInsn o pinfo insn e reloc = some r) : r.word = insn ||| pendingBits o pinfo (e, reloc) := by
  have h0 : insn = insn ||| 0 := BitVec.or_zero.symm
  simp only [appendInsn, pendingBits] at h ⊢
  by_cases hc : e.op = .constant
  · simp only [hc, ne_eq, not_true_eq_false, if_false, reduceCtorEq, if_true] at h ⊢
    by_cases hp : reloc = .pcrelS2
    · subst hp
      simp only [true_and] at h ⊢
      by_cases hr : o.relaxBranch = true
      · by_cases hb : isBranch pinfo = true ∧ o.mayRelax = true
        · simp only [hr, hb, and_self, if_true] at h ⊢
          cases h; rfl
        · rw [if_neg fun hn => hb ⟨hn.1, hn.2.2⟩, if_pos hr] at h
          rw [if_pos hr, if_neg hb]
          cases h; exact h0
      · rw [if_neg fun hn => hr hn.2.1, if_neg hr] at h
        rw [if_neg hr]
        cases h; rfl
    · simp only [hp, false_and, if_false] at h ⊢
      cases reloc with
      | pcrelS2 => exact absurd rfl hp
      | noConstant => cases h
      | _ => cases h; rfl
  · simp only [hc, ne_eq, not_false_eq_true, if_true, if_false] at h ⊢
    split at h
    · cases h; exact h0
    · split at h <;> cases h <;> exact h0

namespace AsmOperand

def letter : AsmOperand → Char
  | register c _ => c
  | expression c _ _ => c
  | omitted => 'o'

/-- The field and the value that `mips_ip` inserts for an operand. -/
def inserted : AsmOperand → Option (Field × Word)
  | register c n => (regField c).map fun f => (f, BitVec.ofNat 32 n)
  | expression '5' e _ => some (IMM5, e.word)
  | _ => none

theorem letterField_of_inserted {x : AsmOperand} {p : Field × Word} (h : x.inserted = some p) :
    letterField x.letter = some p.1 := by
  unfold inserted at h
  split at h
  · obtain ⟨f, hf, rfl⟩ := Option.map_eq_some_iff.mp h
    simp only [letter, letterField, hf]
  · cases h; rfl
  · cases h

theorem insnOpcode_apply (σ : AsmState) (x : AsmOperand) :
    (x.apply σ).insnOpcode = Field.insertAll σ.insnOpcode x.inserted.toList := by
  cases x with
  | register c n =>
    simp only [apply, inserted]
    cases regField c <;> rfl
  | expression c e percentOps =>
    by_cases hc : c = '5'
    · subst hc; rfl
    · have hi : (expression c e percentOps).inserted = none := by
        unfold inserted
        split <;> simp_all
      rw [hi]
      simp only [apply]
      split <;> first | exact absurd rfl hc | rfl
  | omitted => rfl

end AsmOperand

theorem insnOpcode_applyAll (σ : AsmState) (xs : List AsmOperand) :
    (σ.applyAll xs).insnOpcode = Field.insertAll σ.insnOpcode (xs.filterMap AsmOperand.inserted) := by
  induction xs generalizing σ with
  | nil => rfl
  | cons x xs ih =>
    rw [AsmState.applyAll, List.foldl_cons, ← AsmState.applyAll, ih, AsmOperand.insnOpcode_apply]
    cases hx : x.inserted <;> simp [hx, Field.insertAll]

section Grammar

variable {o : AsmOptions} {P : ExpressionParser}

theorem GivesOne.letter_eq {c : Char} {s s' : List Char} {x : AsmOperand} (h : GivesOne o P c s (some x) s') :
    x.letter = c := by
  cases h with
  | register => rfl
  | small => rfl
  | omitted ho => exact ho.1.symm
  | target => rfl

/-- The letters of the operands are operand characters, in their order. -/
theorem Gives.letters_sublist {args s : List Char} {xs : List AsmOperand} (h : Gives o P args s xs) :
    (xs.map AsmOperand.letter).Sublist args := by
  induction h with
  | nil => exact List.Sublist.slnil
  | @cons c args s s' x xs h1 hs ih =>
    cases x with
    | none => exact .cons _ ih
    | some x =>
      rw [Option.toList, List.singleton_append, List.map_cons, h1.letter_eq]
      exact .cons_cons _ ih

/-- The operand has a letter of its kind, and an expression is there. -/
def AsmOperand.Proper : AsmOperand → Prop
  | .register c _ => (regField c).isSome = true
  | .expression c e _ => (c ∈ smallLetters ∨ c ∈ targetLetters) ∧ e.op ≠ .absent
  | .omitted => True

theorem GivesOne.proper {c : Char} {s s' : List Char} {x : AsmOperand} (h : GivesOne o P c s (some x) s') :
    x.Proper := by
  cases h with
  | register hc => simp only [AsmOperand.Proper, hc, Option.isSome_some]
  | small hc ho hne => exact ⟨.inl hc, hne⟩
  | omitted ho => exact trivial
  | target hc hne => exact ⟨.inr hc, hne⟩

theorem Gives.proper {args s : List Char} {xs : List AsmOperand} (h : Gives o P args s xs) : ∀ x ∈ xs, x.Proper := by
  induction h with
  | nil => nofun
  | @cons c args s s' x xs h1 hs ih =>
    intro y hy
    rcases List.mem_append.mp hy with hy | hy
    · obtain rfl := Option.mem_toList.mp hy
      exact h1.proper
    · exact ih y hy

/-- Nothing is inserted outside of the fields of an entry. -/
theorem Gives.insertAll_and {args s : List Char} {xs : List AsmOperand} (h : Gives o P args s xs) {m : Word}
    (hf : ∀ c ∈ args, ∀ f ∈ letterField c, f.bits &&& m = 0) (w : Word) :
    Field.insertAll w (xs.filterMap AsmOperand.inserted) &&& m = w &&& m := by
  refine Field.insertAll_and (fun p hp => ?_) w
  obtain ⟨x, hx, hi⟩ := List.mem_filterMap.mp hp
  exact hf x.letter (h.letters_sublist.subset (List.mem_map_of_mem hx)) _ (AsmOperand.letterField_of_inserted hi)

end Grammar

theorem ofInt_emod_and (x : Int) (k : Nat) (hk : k ≤ 32) :
    BitVec.ofInt 32 (x % 2 ^ k) &&& BitVec.ofNat 32 (2 ^ k - 1) = BitVec.ofInt 32 (x % 2 ^ k) := by
  obtain ⟨n, hn⟩ : ∃ n : Nat, x % 2 ^ k = n := ⟨(x % 2 ^ k).toNat, by
    rw [Int.toNat_of_nonneg (Int.emod_nonneg _ (by positivity))]⟩
  have hlt : n < 2 ^ k := by
    have := Int.emod_lt_of_pos x (show (0 : Int) < 2 ^ k by positivity)
    rw [hn] at this
    exact_mod_cast this
  have h32 : 2 ^ k ≤ 2 ^ 32 := Nat.pow_le_pow_right (by decide) hk
  rw [hn, BitVec.ofInt_natCast]
  apply BitVec.eq_of_toNat_eq
  have hn32 : (BitVec.ofNat 32 n).toNat = n := Nat.mod_eq_of_lt (by omega)
  have hmask : (BitVec.ofNat 32 (2 ^ k - 1)).toNat = 2 ^ k - 1 := Nat.mod_eq_of_lt (by omega)
  calc (BitVec.ofNat 32 n &&& BitVec.ofNat 32 (2 ^ k - 1)).toNat
      = n &&& 2 ^ k - 1 := by rw [BitVec.toNat_and, hn32, hmask]
    _ = n % 2 ^ k := Nat.and_two_pow_sub_one_eq_mod n k
    _ = (BitVec.ofNat 32 n).toNat := by rw [Nat.mod_eq_of_lt hlt, hn32]

/-- All relocations but that of a jump stay in the lower half. -/
theorem BfdReloc.bits_and_lower {reloc : BfdReloc} (h : reloc ≠ .mipsJmp) (x : Int) :
    reloc.bits x &&& 0xffff = reloc.bits x := by
  cases reloc with
  | mipsJmp => exact absurd rfl h
  | noConstant => exact BitVec.zero_and
  | _ => exact ofInt_emod_and _ 16 (by decide)

theorem BfdReloc.bits_zero (reloc : BfdReloc) : reloc.bits 0 = 0 := by
  cases reloc <;> decide

theorem pendingBits_and_lower (o : AsmOptions) (pinfo : Word) {reloc : BfdReloc} (h : reloc ≠ .mipsJmp)
    (e : Expression) :
    pendingBits o pinfo (e, reloc) &&& 0xffff = pendingBits o pinfo (e, reloc) := by
  unfold pendingBits
  split
  · rfl
  · split
    · split
      · exact BfdReloc.bits_and_lower (by decide) _
      · rfl
    · exact BfdReloc.bits_and_lower h _

/-- The bits lie in the field of an operand that is no register. -/
def Within (xs : List AsmOperand) (b : Word) : Prop :=
  b = 0 ∨ ∃ x ∈ xs, regField x.letter = none ∧ ∃ f ∈ letterField x.letter, b &&& f.bits = b

theorem Within.concat {xs : List AsmOperand} {b : Word} (h : Within xs b) (x : AsmOperand) : Within (xs ++ [x]) b := by
  rcases h with h | ⟨y, hy, h⟩
  · exact .inl h
  · exact .inr ⟨y, List.mem_append_left _ hy, h⟩

section Within

variable {o : AsmOptions} {pinfo : Word}

theorem within_lower {xs : List AsmOperand} {x : AsmOperand} (hmem : x ∈ xs) (hn : regField x.letter = none)
    (hx : letterField x.letter = some IMMEDIATE ∨ letterField x.letter = some DELTA) {reloc : BfdReloc}
    (hr : reloc ≠ .mipsJmp) (e : Expression) : Within xs (pendingBits o pinfo (e, reloc)) := by
  rcases hx with hx | hx <;> exact .inr ⟨x, hmem, hn, _, hx, pendingBits_and_lower o pinfo hr e⟩

/-- No relocation goes beyond the field of a jump. -/
theorem pendingBits_and_target (e : Expression) (reloc : BfdReloc) :
    pendingBits o pinfo (e, reloc) &&& TARGET.bits = pendingBits o pinfo (e, reloc) := by
  by_cases hr : reloc = .mipsJmp
  · rw [hr, pendingBits]
    split
    · exact BitVec.zero_and
    · exact ofInt_emod_and _ 26 (by decide)
  · rw [← pendingBits_and_lower o pinfo hr e, BitVec.and_assoc]
    rfl

/-- Only the value counts. -/
theorem pendingBits_congr {e e' : Expression} (hop : e.op = e'.op) (hnum : e.addNumber = e'.addNumber)
    (reloc : BfdReloc) : pendingBits o pinfo (e, reloc) = pendingBits o pinfo (e', reloc) := by
  simp only [pendingBits, hop, hnum]

theorem pendingBits_absent {e : Expression} (h : e.op = .absent) (reloc : BfdReloc) :
    pendingBits o pinfo (e, reloc) = 0 := by
  rw [pendingBits, if_pos (by rw [h]; decide)]

theorem pendingBits_zero {e : Expression} (h : e.addNumber = 0) (reloc : BfdReloc) :
    pendingBits o pinfo (e, reloc) = 0 := by
  unfold pendingBits
  rw [h]
  split
  · rfl
  · split
    · split
      · exact BfdReloc.bits_zero _
      · rfl
    · exact BfdReloc.bits_zero _

end Within

/-! ## What earlier entries have left -/

/-- The letters of an immediate, and of an offset. -/
def immediateLetters : List Char := ['i', 'j', '5', 'u']

def offsetLetters : List Char := ['o', 'p', 'a']

theorem regField_eq_none {c : Char} (h : c ∈ immediateLetters ∨ c ∈ offsetLetters) : regField c = none := by
  have hnone : (∀ c ∈ immediateLetters, regField c = none) ∧ ∀ c ∈ offsetLetters, regField c = none := by decide
  exact h.elim (hnone.1 c) (hnone.2 c)

/-- The operand is an offset that brings its relocation. -/
def AsmOperand.setsReloc : AsmOperand → Bool
  | expression c _ percentOps => c == 'p' || c == 'a' || c == 'o' && !percentOps.isEmpty
  | _ => false

/-- The expression of an offset. -/
def AsmOperand.offset : AsmOperand → Expression
  | expression _ e _ => e
  | _ => { op := .constant }

/-- The last offset of a line. -/
def lastOffset (xs : List AsmOperand) : Option AsmOperand := xs.reverse.find? fun x => x.letter ∈ offsetLetters

/-- The bits that `append_insn` adds because of what earlier entries of the mnemonic
have left in the state: those of an immediate, if the line has none; else those of an
offset, if the line has none; else those of the offset of the line under the
relocation of a jump, if the line brings no relocation. -/
def leftBits (o : AsmOptions) (pinfo : Word) (σ₀ : AsmState) (xs : List AsmOperand) : Word :=
  if ∃ x ∈ xs, x.letter ∈ immediateLetters then 0
  else if σ₀.immExpr.op ≠ .absent then pendingBits o pinfo (σ₀.immExpr, σ₀.immReloc)
  else
    match lastOffset xs with
    | none => pendingBits o pinfo (σ₀.offsetExpr, σ₀.offsetReloc)
    | some x =>
      if σ₀.offsetReloc = .mipsJmp ∧ ∀ y ∈ xs, y.setsReloc = false then pendingBits o pinfo (x.offset, .mipsJmp) else 0

/-- The relocation of a jump is one of an offset only. -/
def AsmState.NoJump (σ : AsmState) : Prop := σ.immReloc ≠ .mipsJmp

theorem PercentOp.reloc_ne (p : PercentOp) : p.reloc ≠ .mipsJmp := by cases p <;> nofun

/-- The relocation of an operand, if it has percent operators, or another. -/
theorem getD_ne_mipsJmp {percentOps : List PercentOp} {d : BfdReloc} (h : d ≠ .mipsJmp) :
    (percentOps.head?.map PercentOp.reloc).getD d ≠ .mipsJmp := by
  cases percentOps with
  | nil => exact h
  | cons p ps => exact p.reloc_ne

/-- What the operands of a line leave in `imm_expr` and `imm_reloc`. -/
structure AsmState.AfterImm (o : AsmOptions) (pinfo : Word) (σ₀ : AsmState) (xs : List AsmOperand) (σ : AsmState) :
    Prop where
  own : (∃ x ∈ xs, x.letter ∈ immediateLetters) →
    σ.immExpr.op ≠ .absent ∧ Within xs (pendingBits o pinfo (σ.immExpr, σ.immReloc))
  left : (∀ x ∈ xs, x.letter ∉ immediateLetters) → σ.immExpr = σ₀.immExpr ∧ σ.immReloc = σ₀.immReloc
  noJump : σ.NoJump

/-- And in `offset_expr` and `offset_reloc`. -/
structure AsmState.AfterOffset (σ₀ : AsmState) (xs : List AsmOperand) (σ : AsmState) : Prop where
  own : ∀ x, lastOffset xs = some x → σ.offsetExpr.op ≠ .absent ∧
    σ.offsetExpr.op = x.offset.op ∧ σ.offsetExpr.addNumber = x.offset.addNumber
  left : lastOffset xs = none → σ.offsetExpr = σ₀.offsetExpr
  reloc_own : (∃ x ∈ xs, x.setsReloc = true) → σ.offsetReloc = .mipsJmp → ∃ x ∈ xs, x.letter = 'a'
  reloc_left : (∀ x ∈ xs, x.setsReloc = false) → σ.offsetReloc = σ₀.offsetReloc

theorem lastOffset_concat (xs : List AsmOperand) (x : AsmOperand) :
    lastOffset (xs ++ [x]) = if x.letter ∈ offsetLetters then some x else lastOffset xs := by
  rw [lastOffset, List.reverse_append, List.reverse_singleton, List.singleton_append, List.find?_cons]
  by_cases h : x.letter ∈ offsetLetters <;> simp [h, lastOffset]

theorem lastOffset_eq_some {xs : List AsmOperand} {x : AsmOperand} (h : lastOffset xs = some x) :
    x ∈ xs ∧ x.letter ∈ offsetLetters :=
  ⟨List.mem_reverse.mp (List.mem_of_find?_eq_some h), by simpa using List.find?_some h⟩

section Apply

variable {o : AsmOptions} {pinfo : Word} {σ₀ σ σ' : AsmState} {xs : List AsmOperand} {x : AsmOperand}

/-- An operand that is no immediate. -/
theorem AsmState.AfterImm.keep (h : AfterImm o pinfo σ₀ xs σ) (hx : x.letter ∉ immediateLetters)
    (he : σ'.immExpr = σ.immExpr) (hr : σ'.immReloc = σ.immReloc) : AfterImm o pinfo σ₀ (xs ++ [x]) σ' where
  own := by
    rintro ⟨y, hy, hi⟩
    rw [he, hr]
    rcases List.mem_append.mp hy with hy | hy
    · exact ⟨(h.own ⟨y, hy, hi⟩).1, (h.own ⟨y, hy, hi⟩).2.concat x⟩
    · obtain rfl := List.mem_singleton.mp hy
      exact absurd hi hx
  left := fun hn => by
    rw [he, hr]
    exact h.left fun y hy => hn y (List.mem_append_left _ hy)
  noJump := by
    rw [NoJump, hr]
    exact h.noJump

/-- An immediate, whose bits are in its field, or none. -/
theorem AsmState.afterImm_concat (hx : x.letter ∈ immediateLetters) (he : σ'.immExpr.op ≠ .absent) (hj : σ'.NoJump)
    (hf : letterField x.letter = some IMMEDIATE ∨ letterField x.letter = some DELTA ∨ σ'.immExpr.addNumber = 0) :
    AfterImm o pinfo σ₀ (xs ++ [x]) σ' where
  own := by
    intro _
    refine ⟨he, ?_⟩
    rcases hf with hf | hf | hf
    · exact within_lower (by simp) (regField_eq_none (.inl hx)) (.inl hf) hj _
    · exact within_lower (by simp) (regField_eq_none (.inl hx)) (.inr hf) hj _
    · exact .inl (pendingBits_zero hf _)
  left := fun hn => absurd hx (hn x (by simp))
  noJump := hj

/-- An operand that brings no relocation leaves the one of an operand before it. -/
theorem AsmState.AfterOffset.reloc_own_concat (h : AfterOffset σ₀ xs σ) (hs : x.setsReloc = false)
    (hr : σ'.offsetReloc = σ.offsetReloc) :
    (∃ y ∈ xs ++ [x], y.setsReloc = true) → σ'.offsetReloc = .mipsJmp → ∃ y ∈ xs ++ [x], y.letter = 'a' := by
  rintro ⟨y, hy, hsy⟩ hj
  rcases List.mem_append.mp hy with hy | hy
  · obtain ⟨z, hz, ha⟩ := h.reloc_own ⟨y, hy, hsy⟩ (hr ▸ hj)
    exact ⟨z, List.mem_append_left _ hz, ha⟩
  · obtain rfl := List.mem_singleton.mp hy
    exact absurd (hs.symm.trans hsy) Bool.false_ne_true

/-- An operand that is no offset. -/
theorem AsmState.AfterOffset.keep (h : AfterOffset σ₀ xs σ) (hx : x.letter ∉ offsetLetters) (hs : x.setsReloc = false)
    (he : σ'.offsetExpr = σ.offsetExpr) (hr : σ'.offsetReloc = σ.offsetReloc) : AfterOffset σ₀ (xs ++ [x]) σ' where
  own := by
    intro y hy
    rw [lastOffset_concat, if_neg hx] at hy
    rw [he]
    exact h.own y hy
  left := by
    intro hn
    rw [lastOffset_concat, if_neg hx] at hn
    rw [he]
    exact h.left hn
  reloc_own := h.reloc_own_concat hs hr
  reloc_left := fun hn => hr.trans (h.reloc_left fun y hy => hn y (List.mem_append_left _ hy))

/-- An offset. -/
theorem AsmState.AfterOffset.concat (h : AfterOffset σ₀ xs σ) (hx : x.letter ∈ offsetLetters)
    (ho : σ'.offsetExpr.op ≠ .absent) (hop : σ'.offsetExpr.op = x.offset.op)
    (hnum : σ'.offsetExpr.addNumber = x.offset.addNumber)
    (hr : if x.setsReloc then σ'.offsetReloc = .mipsJmp → x.letter = 'a' else σ'.offsetReloc = σ.offsetReloc) :
    AfterOffset σ₀ (xs ++ [x]) σ' where
  own := by
    intro y hy
    rw [lastOffset_concat, if_pos hx] at hy
    cases hy
    exact ⟨ho, hop, hnum⟩
  left := by
    intro hn
    rw [lastOffset_concat, if_pos hx] at hn
    cases hn
  reloc_own := by
    cases hs : x.setsReloc with
    | true =>
      rw [hs, if_pos rfl] at hr
      exact fun _ hj => ⟨x, by simp, hr hj⟩
    | false =>
      rw [hs, if_neg Bool.false_ne_true] at hr
      exact h.reloc_own_concat hs hr
  reloc_left := by
    intro hn
    rw [hn x (by simp), if_neg Bool.false_ne_true] at hr
    exact hr.trans (h.reloc_left fun y hy => hn y (List.mem_append_left _ hy))

theorem letter_of_regField {c : Char} (h : (regField c).isSome = true) :
    c ∉ immediateLetters ∧ c ∉ offsetLetters ∧ ∀ n, (AsmOperand.register c n).setsReloc = false := by
  have hreg : ∀ c ∈ ['s', 'd', 'D', 't', 'S', 'q', 'Q', 'A', 'V'], c ∉ immediateLetters ∧ c ∉ offsetLetters := by
    decide
  obtain ⟨hi, ho⟩ := hreg c (mem_of_regField h)
  exact ⟨hi, ho, fun _ => rfl⟩

/-- One operand. -/
theorem AsmState.AfterImm.apply (h : AfterImm o pinfo σ₀ xs σ) (hx : x.Proper) :
    AfterImm o pinfo σ₀ (xs ++ [x]) (x.apply σ) := by
  cases x with
  | register c n =>
    obtain ⟨f, hf⟩ := Option.isSome_iff_exists.mp hx
    exact h.keep (letter_of_regField hx).1 (by rw [AsmOperand.apply, hf]; rfl) (by rw [AsmOperand.apply, hf]; rfl)
  | omitted => exact h.keep (by decide) rfl rfl
  | expression c e percentOps =>
    obtain ⟨hc, he⟩ := hx
    have hlo : (percentOps.head?.map PercentOp.reloc).getD .lo16 ≠ .mipsJmp := getD_ne_mipsJmp (by decide)
    simp only [smallLetters, targetLetters, List.mem_cons, List.not_mem_nil, or_false] at hc
    rcases hc with (rfl | rfl | rfl | rfl | rfl) | (rfl | rfl)
    · exact afterImm_concat (show 'i' ∈ immediateLetters by decide) he hlo (.inl rfl)
    · exact afterImm_concat (show 'j' ∈ immediateLetters by decide) he hlo (.inr (.inl rfl))
    · exact afterImm_concat (show '5' ∈ immediateLetters by decide) he hlo (.inr (.inr rfl))
    · exact afterImm_concat (show 'u' ∈ immediateLetters by decide) he (getD_ne_mipsJmp h.noJump) (.inl rfl)
    · exact h.keep (show 'o' ∉ immediateLetters by decide) rfl rfl
    · exact h.keep (show 'p' ∉ immediateLetters by decide) rfl rfl
    · exact h.keep (show 'a' ∉ immediateLetters by decide) rfl rfl

theorem AsmState.AfterOffset.apply (h : AfterOffset σ₀ xs σ) (hx : x.Proper) :
    AfterOffset σ₀ (xs ++ [x]) (x.apply σ) := by
  cases x with
  | register c n =>
    obtain ⟨-, ho, hs⟩ := letter_of_regField hx
    obtain ⟨f, hf⟩ := Option.isSome_iff_exists.mp hx
    exact h.keep ho (hs n) (by rw [AsmOperand.apply, hf]; rfl) (by rw [AsmOperand.apply, hf]; rfl)
  | omitted => exact h.concat (by decide) (by simp [AsmOperand.apply]) rfl rfl rfl
  | expression c e percentOps =>
    obtain ⟨hc, he⟩ := hx
    simp only [smallLetters, targetLetters, List.mem_cons, List.not_mem_nil, or_false] at hc
    rcases hc with (rfl | rfl | rfl | rfl | rfl) | (rfl | rfl)
    · exact h.keep (show 'i' ∉ offsetLetters by decide) rfl rfl rfl
    · exact h.keep (show 'j' ∉ offsetLetters by decide) rfl rfl rfl
    · exact h.keep (show '5' ∉ offsetLetters by decide) rfl rfl rfl
    · exact h.keep (show 'u' ∉ offsetLetters by decide) rfl rfl rfl
    · refine h.concat (show 'o' ∈ offsetLetters by decide) he rfl rfl ?_
      cases percentOps with
      | nil => rfl
      | cons p ps => exact fun hj => absurd hj p.reloc_ne
    · have hreloc : BfdReloc.pcrelS2 ≠ .mipsJmp := by decide
      exact h.concat (show 'p' ∈ offsetLetters by decide) he rfl rfl fun hj => absurd hj hreloc
    · exact h.concat (show 'a' ∈ offsetLetters by decide) he rfl rfl fun _ => rfl

/-- All the operands of a line. -/
theorem AsmState.after_applyAll (o : AsmOptions) (pinfo : Word) (h : σ₀.NoJump) (hp : ∀ x ∈ xs, x.Proper) :
    AfterImm o pinfo σ₀ xs (σ₀.applyAll xs) ∧ AfterOffset σ₀ xs (σ₀.applyAll xs) := by
  induction xs using List.reverseRecOn with
  | nil =>
    exact ⟨⟨fun ⟨_, hx, _⟩ => absurd hx List.not_mem_nil, fun _ => ⟨rfl, rfl⟩, h⟩,
      ⟨nofun, fun _ => rfl, fun ⟨_, hx, _⟩ => absurd hx List.not_mem_nil, fun _ => rfl⟩⟩
  | append_singleton xs x ih =>
    obtain ⟨himm, hoff⟩ := ih fun y hy => hp y (List.mem_append_left _ hy)
    have hx : x.Proper := hp x (by simp)
    rw [AsmState.applyAll, List.foldl_append, List.foldl_cons, List.foldl_nil]
    exact ⟨himm.apply hx, hoff.apply hx⟩

/-- An offset of the line is in the field of its letter, unless it is under a
relocation of a jump that is left. -/
theorem within_lastOffset (hx : lastOffset xs = some x)
    (hj : σ.offsetReloc = .mipsJmp → ∃ y ∈ xs, y.letter = 'a') :
    Within xs (pendingBits o pinfo (σ.offsetExpr, σ.offsetReloc)) := by
  have htarget {y : AsmOperand} (hy : y ∈ xs) (ha : y.letter = 'a') :
      Within xs (pendingBits o pinfo (σ.offsetExpr, σ.offsetReloc)) :=
    .inr ⟨y, hy, by rw [ha]; rfl, TARGET, by rw [ha]; rfl, pendingBits_and_target _ _⟩
  by_cases hr : σ.offsetReloc = .mipsJmp
  · obtain ⟨y, hy, ha⟩ := hj hr
    exact htarget hy ha
  · obtain ⟨hmem, hl⟩ := lastOffset_eq_some hx
    have hn := regField_eq_none (.inr hl)
    simp only [offsetLetters, List.mem_cons, List.not_mem_nil, or_false] at hl
    rcases hl with hl | hl | hl
    · exact within_lower hmem hn (.inr (by rw [hl]; rfl)) hr _
    · exact within_lower hmem hn (.inr (by rw [hl]; rfl)) hr _
    · exact htarget hmem hl

/-- What `append_insn` adds are the bits that earlier entries are the cause of, or
bits of the line in the field of an operand. -/
theorem pendingBits_applyAll (o : AsmOptions) (pinfo : Word) (h : σ₀.NoJump) (hp : ∀ x ∈ xs, x.Proper) :
    pendingBits o pinfo (σ₀.applyAll xs).pending = leftBits o pinfo σ₀ xs ∨
      leftBits o pinfo σ₀ xs = 0 ∧ Within xs (pendingBits o pinfo (σ₀.applyAll xs).pending) := by
  obtain ⟨himm, hoff⟩ := AsmState.after_applyAll o pinfo h hp
  generalize σ₀.applyAll xs = σ at himm hoff
  by_cases hi : ∃ x ∈ xs, x.letter ∈ immediateLetters
  · obtain ⟨he, hw⟩ := himm.own hi
    rw [leftBits, if_pos hi, AsmState.pending, if_pos he]
    exact .inr ⟨rfl, hw⟩
  obtain ⟨he, hr⟩ := himm.left fun x hx hl => hi ⟨x, hx, hl⟩
  rw [leftBits, if_neg hi, AsmState.pending, he, hr]
  by_cases hm : σ₀.immExpr.op ≠ .absent
  · rw [if_pos hm, if_pos hm]
    exact .inl rfl
  rw [if_neg hm, if_neg hm]
  cases hl : lastOffset xs with
  | none =>
    have hs : ∀ x ∈ xs, x.setsReloc = false := by
      intro x hx
      have hx := List.find?_eq_none.mp hl x (List.mem_reverse.mpr hx)
      cases x with
      | expression c e percentOps =>
        simp only [AsmOperand.letter, offsetLetters, List.mem_cons, List.not_mem_nil, or_false, decide_eq_true_eq,
          not_or] at hx
        simp [AsmOperand.setsReloc, hx]
      | _ => rfl
    rw [hoff.left hl, hoff.reloc_left hs]
    split
    · exact .inl rfl
    · rename_i ha
      rw [pendingBits_absent (not_not.mp ha)]
      exact .inl rfl
  | some x =>
    obtain ⟨ho, hop, hnum⟩ := hoff.own x hl
    rw [if_pos ho]
    simp only
    by_cases hs : ∀ y ∈ xs, y.setsReloc = false
    · by_cases hj : σ₀.offsetReloc = .mipsJmp
      · rw [if_pos ⟨hj, hs⟩, hoff.reloc_left hs, hj, pendingBits_congr hop hnum]
        exact .inl rfl
      · rw [if_neg fun hn => hj hn.1]
        exact .inr ⟨rfl, within_lastOffset hl fun hn => absurd (hoff.reloc_left hs ▸ hn) hj⟩
    · rw [if_neg fun hn => hs hn.2]
      simp only [not_forall, Bool.not_eq_false] at hs
      obtain ⟨y, hy, hsy⟩ := hs
      exact .inr ⟨rfl, within_lastOffset hl (hoff.reloc_own ⟨y, hy, hsy⟩)⟩

end Apply

end Rigel
