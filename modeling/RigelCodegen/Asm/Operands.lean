import RigelCodegen.Asm.Assemble

/-!
# The operand grammar

What the operand characters of an entry say about a line (`Gives`), and what
`mips_ip` makes of a line that follows them (`parseArgs_of_gives`): it inserts
the registers and leaves the expression pending. The bits that `append_insn`
then adds lie in the field of the expression, unless an earlier entry of the mnemonic
has left another (`leftBits`).

`mips_ip` also accepts lines that do not follow the operand characters: an
expression in the place of a register, a line that ends before a separator, and
a missing expression (`Diverts`). What text there is at each operand character
(`operandTexts`) says which lines these are (`gives_iff`).
-/

namespace Rigel

open Word32 Op

/-! ## Grammar -/

/-- The letters of an expression that may have percent operators. -/
def smallLetters : List Char := ['i', 'j', '5', 'u', 'o']

/-- The letters of a branch or jump target. -/
def targetLetters : List Char := ['p', 'a']

def literals : List Char := [',', '(', ')', '[', ']']

/-- The operand characters of the grammar. -/
def IsOperandChar (c : Char) : Prop :=
  (regField c).isSome = true ∨ c ∈ smallLetters ∨ c ∈ targetLetters ∨ c ∈ literals

/-- The field of an operand letter. -/
def letterField (c : Char) : Option Field :=
  match regField c with
  | some f => some f
  | none =>
    match c with
    | 'i' | 'u' => some IMMEDIATE
    | 'j' | 'o' | 'p' => some DELTA
    | '5' => some IMM5
    | 'a' => some TARGET
    | _ => none

/-- An operand, as it is written in a line. -/
inductive AsmOperand where
  | register (c : Char) (n : Nat)
  | expression (c : Char) (e : Expression) (percentOps : List PercentOp)
  /-- An offset that is left out. -/
  | omitted
  deriving DecidableEq, Repr

/-- The offset may be left out before the only bracket of a line. -/
def OffsetOmitted (c : Char) (s : List Char) : Prop := c = 'o' ∧ s.head? = some '(' ∧ '(' ∉ s.tail

instance (c : Char) (s : List Char) : Decidable (OffsetOmitted c s) := inferInstanceAs (Decidable (_ ∧ _))

section Grammar

variable (o : AsmOptions) (P : ExpressionParser)

/-- The text follows one operand character, up to a given rest. -/
inductive GivesOne : Char → List Char → Option AsmOperand → List Char → Prop
  | literal {c : Char} (hc : c ∈ literals) (s : List Char) : GivesOne c (c :: s) none s
  | register {c : Char} {f : Field} {s s' : List Char} {n : Nat} (hc : regField c = some f)
    (h : regLookup o.registers s = some (n, s')) :
    GivesOne c s (some (.register c n)) (if s'.head? = some ' ' then s'.tail else s')
  | small {c : Char} {s : List Char} (hc : c ∈ smallLetters) (ho : ¬OffsetOmitted c s)
    (h : (P.getSmallExpression s).expr.op ≠ .absent) :
    GivesOne c s (some (.expression c (P.getSmallExpression s).expr (P.getSmallExpression s).percentOps))
      (P.getSmallExpression s).rest
  | omitted {c : Char} {s : List Char} (ho : OffsetOmitted c s) :
    GivesOne c s (some .omitted) s
  | target {c : Char} {s : List Char} (hc : c ∈ targetLetters) (h : (P.getExpression s).expr.op ≠ .absent) :
    GivesOne c s (some (.expression c (P.getExpression s).expr [])) (P.getExpression s).rest

/-- The text follows the operand characters, with blanks between them. -/
inductive Gives : List Char → List Char → List AsmOperand → Prop
  | nil {s : List Char} (h : skipBlanks s = []) : Gives [] s []
  | cons {c : Char} {args s s' : List Char} {x : Option AsmOperand} {xs : List AsmOperand}
    (h : GivesOne o P c (skipBlanks s) x s') (hs : Gives args s' xs) : Gives (c :: args) s (x.toList ++ xs)

/-- The text behind that of an operand character. What is no register is taken for
an expression. -/
def textAfter (c : Char) (t : List Char) : List Char :=
  if (regField c).isSome then
    match regLookup o.registers t with
    | some (_, s) => if s.head? = some ' ' then s.tail else s
    | none => (P.getSmallExpression t).rest
  else if c ∈ literals then t.tail
  else if OffsetOmitted c t then t
  else if c ∈ smallLetters then (P.getSmallExpression t).rest
  else (P.getExpression t).rest

/-- The text of a line at each of the operand characters. -/
def operandTexts : List Char → List Char → List (Char × List Char)
  | [], _ => []
  | c :: args, s => (c, skipBlanks s) :: operandTexts args (textAfter o P c (skipBlanks s))

/-- The operand that a text has at an operand character. -/
def operandAt (x : Char × List Char) : Option AsmOperand :=
  if (regField x.1).isSome then (regLookup o.registers x.2).map fun r => .register x.1 r.1
  else if x.1 ∈ literals then none
  else if OffsetOmitted x.1 x.2 then some .omitted
  else if x.1 ∈ smallLetters then
    some (.expression x.1 (P.getSmallExpression x.2).expr (P.getSmallExpression x.2).percentOps)
  else some (.expression x.1 (P.getExpression x.2).expr [])

/-- The operands of a line. -/
def lineOperands (args s : List Char) : List AsmOperand := (operandTexts o P args s).filterMap (operandAt o P)

/-- The text at an operand character is not in the grammar, though `mips_ip` may
go on: what should be a register is none, the line ends before a separator, or
the expression is missing. -/
def Diverts (c : Char) (t : List Char) : Prop :=
  (regField c).isSome = true ∧ regLookup o.registers t = none ∨ (c = ',' ∨ c = '(') ∧ t = [] ∨
    c ∈ smallLetters ∧ ¬OffsetOmitted c t ∧ (P.getSmallExpression t).expr.op = .absent ∨
    c ∈ targetLetters ∧ (P.getExpression t).expr.op = .absent

end Grammar

/-! ## What an operand does to the state -/

/-- The effect of an operand that is accepted without an error. -/
def AsmOperand.apply (σ : AsmState) : AsmOperand → AsmState
  | register c n =>
    match regField c with
    | some f => σ.insertOperand f (BitVec.ofNat 32 n)
    | none => σ
  | expression c e percentOps =>
    let reloc := percentOps.head?.map PercentOp.reloc
    match c with
    | '5' => { σ.insertOperand IMM5 e.word with immExpr := { e with addNumber := 0 }, immReloc := reloc.getD .lo16 }
    | 'u' => { σ with immExpr := e, immReloc := reloc.getD σ.immReloc }
    | 'o' => { σ with offsetExpr := e, offsetReloc := reloc.getD σ.offsetReloc }
    | 'p' => { σ with offsetExpr := e, offsetReloc := .pcrelS2 }
    | 'a' => { σ with offsetExpr := e, offsetReloc := .mipsJmp }
    | _ => { σ with immExpr := e, immReloc := reloc.getD .lo16 }
  | omitted => { σ with offsetExpr := { σ.offsetExpr with op := .constant, addNumber := 0 } }

/-- The constants that are taken without an error, if they are written without
a percent operator. -/
def AsmOperand.InRange : AsmOperand → Prop
  | expression c e percentOps =>
    percentOps = [] → e.op = .constant →
      match c with
      | 'i' | 'u' => 0 ≤ e.addNumber ∧ e.addNumber ≤ 0xffff
      | 'j' | 'o' => -0x8000 ≤ e.addNumber ∧ e.addNumber ≤ 0x7fff
      | '5' => 0 ≤ e.addNumber ∧ e.addNumber ≤ 0x1f
      | _ => True
  | _ => True

/-- The state after an operand, if there is one, and with the errors `b`. -/
def AsmState.applied (σ : AsmState) (x : Option AsmOperand) (b : Bool) : AsmState :=
  { x.elim σ (AsmOperand.apply σ) with bad := σ.bad || b }

section Steps

variable {o : AsmOptions} {P : ExpressionParser} {more : Bool}

/-- What the immediate case does, when it goes on to the next character. -/
theorem immediateOperand_next {c : Char} {s s' : List Char} {σ σ' : AsmState}
    (h : immediateOperand o P more c s σ = .next s' σ') :
    let r := P.getSmallExpression s
    s' = r.rest ∧ ∃ b : Bool, (b = false → r.percentOps = [] → r.expr.op = .constant →
      (immediateRange more c).1 ≤ r.expr.addNumber ∧ r.expr.addNumber ≤ (immediateRange more c).2) ∧
      σ' = { (if c = '5' then { σ.insertOperand IMM5 r.expr.word with immExpr := { r.expr with addNumber := 0 } }
        else { σ with immExpr := r.expr }) with
          immReloc := (r.percentOps.head?.map PercentOp.reloc).getD .lo16, bad := σ.bad || b } := by
  simp only [immediateOperand] at h
  split at h
  · cases h
  · cases h
    refine ⟨rfl, (P.getSmallExpression s).bad || (decide ((P.getSmallExpression s).percentOps = [] ∧
      ((P.getSmallExpression s).expr.op ≠ .constant ∨
        (P.getSmallExpression s).expr.addNumber < (immediateRange more c).1 ∨
        (immediateRange more c).2 < (P.getSmallExpression s).expr.addNumber)) &&
      ((P.getSmallExpression s).expr.op == .constant || (P.getSmallExpression s).expr.op == .big)), ?_, ?_⟩
    · intro hb hp hc
      simp [hp, hc] at hb
      omega
    · split <;> simp [AsmState.asBad, AsmState.insertOperand, Bool.or_assoc]

theorem operand_of_regField {c : Char} {f : Field} (hc : regField c = some f) (args s : List Char) (σ : AsmState) :
    operand o P more c args s σ = registerOperand o P more c f s σ := by
  unfold operand
  rw [hc]

/-- A separator that is there is passed over. -/
theorem literal_next {c : Char} {s s' : List Char} {σ σ' : AsmState} (h : literal c (c :: s) σ = .next s' σ') :
    s' = s ∧ σ' = σ := by
  rw [literal, if_pos (by rfl)] at h
  cases h
  exact ⟨rfl, rfl⟩

theorem optionalOperand_next {c : Char} {args s s' : List Char} {σ σ' : AsmState}
    (h : optionalOperand c args s σ = .next s' σ') : literal c s σ = .next s' σ' := by
  rw [optionalOperand] at h
  split at h
  · split at h
    · cases h
    · exact h
  · cases h

/-- The case of a separator, as far as it goes on. -/
theorem separator_next {c : Char} {args s s' : List Char} {σ σ' : AsmState} (hc : c ∈ literals)
    (h : operand o P more c args s σ = .next s' σ') : literal c s σ = .next s' σ' := by
  simp only [literals, List.mem_cons, List.not_mem_nil, or_false] at hc
  rcases hc with rfl | rfl | rfl | rfl | rfl
  · have h : (if s.head? = some ',' then .next s.tail σ else optionalOperand ',' args s σ) = ArgResult.next s' σ' := h
    split at h
    · rename_i hs
      rwa [literal, if_pos hs]
    · exact optionalOperand_next h
  · exact optionalOperand_next h
  · exact h
  · exact h
  · exact h

/-- The case of an expression letter, as far as it goes on. -/
theorem small_next {c : Char} {args s s' : List Char} {σ σ' : AsmState} (hc : c ∈ smallLetters)
    (ho : ¬OffsetOmitted c s) (h : operand o P more c args s σ = .next s' σ') :
    let x := AsmOperand.expression c (P.getSmallExpression s).expr (P.getSmallExpression s).percentOps
    s' = (P.getSmallExpression s).rest ∧ ∃ b : Bool, (b = false → x.InRange) ∧ σ' = σ.applied (some x) b := by
  simp only [smallLetters, List.mem_cons, List.not_mem_nil, or_false] at hc
  rcases hc with rfl | rfl | rfl | rfl | rfl
  · obtain ⟨hs, b, hb, hσ⟩ := @immediateOperand_next o P more 'i' _ _ _ _ h
    exact ⟨hs, b, hb, hσ⟩
  · obtain ⟨hs, b, hb, hσ⟩ := @immediateOperand_next o P more 'j' _ _ _ _ h
    exact ⟨hs, b, hb, hσ⟩
  · obtain ⟨hs, b, hb, hσ⟩ := @immediateOperand_next o P more '5' _ _ _ _ h
    exact ⟨hs, b, hb, hσ⟩
  · obtain ⟨rfl, rfl⟩ := ArgResult.next.inj h
    refine ⟨rfl, _, ?_, by rw [Bool.or_assoc]; rfl⟩
    intro hb hp hc
    simp [hp, hc] at hb
    simp only
    omega
  · have h : offsetOperand P s σ = .next s' σ' := h
    rw [offsetOperand, if_neg fun hs => ho ⟨rfl, hs⟩] at h
    simp only at h
    split at h
    · cases h
    · rename_i hr
      cases h
      refine ⟨rfl, (P.getSmallExpression s).bad, ?_, rfl⟩
      intro _ hp hc
      simp only [hp, hc, true_and, ne_eq, not_true_eq_false, false_or] at hr
      simp only
      omega

/-- One operand: the rest of the line is that of the grammar, and the state that
of the operand. -/
theorem GivesOne.next {c : Char} {s s' s₁ : List Char} {x : Option AsmOperand} (hg : GivesOne o P c s x s')
    {args : List Char} {σ σ₁ : AsmState} (h : operand o P more c args s σ = .next s₁ σ₁) :
    s₁ = s' ∧ ∃ b : Bool, (b = false → ∀ y ∈ x, y.InRange) ∧ σ₁ = σ.applied x b := by
  cases hg with
  | literal hc s =>
    obtain ⟨rfl, rfl⟩ := literal_next (separator_next hc h)
    exact ⟨rfl, false, nofun, by simp [AsmState.applied]⟩
  | register hc hl =>
    rw [operand_of_regField hc, registerOperand, hl] at h
    cases h
    refine ⟨rfl, false, fun _ y hy => ?_, ?_⟩
    · cases hy; trivial
    · simp [AsmState.applied, AsmOperand.apply, hc, AsmState.insertOperand]
  | small hc ho hne =>
    obtain ⟨hs, b, hb, hσ⟩ := small_next hc ho h
    exact ⟨hs, b, fun hf y hy => by cases hy; exact hb hf, hσ⟩
  | omitted ho =>
    obtain ⟨rfl, hs⟩ := ho
    have h : offsetOperand P s σ = .next s₁ σ₁ := h
    rw [offsetOperand, if_pos hs] at h
    cases h
    refine ⟨rfl, false, fun _ y hy => ?_, ?_⟩
    · cases hy; trivial
    · simp [AsmState.applied, AsmOperand.apply]
  | target hc hne =>
    simp only [targetLetters, List.mem_cons, List.not_mem_nil, or_false] at hc
    rcases hc with rfl | rfl
    · have h : targetOperand P .pcrelS2 s σ = .next s₁ σ₁ := h
      cases h
      exact ⟨rfl, (P.getExpression s).bad, fun _ y hy => by cases hy; exact fun _ _ => trivial, rfl⟩
    · have h : targetOperand P .mipsJmp s σ = .next s₁ σ₁ := h
      cases h
      exact ⟨rfl, (P.getExpression s).bad, fun _ y hy => by cases hy; exact fun _ _ => trivial, rfl⟩

theorem parseArgs_cons {c : Char} (hc : c ≠ '+') (args s : List Char) (σ : AsmState) :
    parseArgs o P more (c :: args) s σ =
      (operand o P more c args (skipBlanks s) σ).andThen (parseArgs o P more args) := by
  rw [parseArgs.eq_3]
  exact fun _ _ h => absurd h hc

/-- The state after some operands. -/
def AsmState.applyAll (σ : AsmState) (xs : List AsmOperand) : AsmState := xs.foldl AsmOperand.apply σ

theorem IsOperandChar.ne_plus {c : Char} (h : IsOperandChar c) : c ≠ '+' := by
  rintro rfl
  exact absurd h (by unfold IsOperandChar; decide)

theorem GivesOne.isOperandChar {c : Char} {s s' : List Char} {x : Option AsmOperand} (h : GivesOne o P c s x s') :
    IsOperandChar c := by
  cases h with
  | literal hc => exact .inr (.inr (.inr hc))
  | register hc => exact .inl (by rw [hc]; rfl)
  | small hc => exact .inr (.inl hc)
  | omitted ho => exact .inr (.inl (by rw [ho.1]; decide))
  | target hc => exact .inr (.inr (.inl hc))

theorem immediateOperand_ne_accept (c : Char) (s : List Char) (σ σ' : AsmState) :
    immediateOperand o P more c s σ ≠ .accept σ' := by
  simp only [immediateOperand]
  split <;> nofun

theorem literal_ne_accept (c : Char) (s : List Char) (σ σ' : AsmState) : literal c s σ ≠ .accept σ' := by
  rw [literal]
  split <;> nofun

theorem optionalOperand_accept {c : Char} {args s : List Char} {σ σ' : AsmState}
    (h : optionalOperand c args s σ = .accept σ') : s = [] ∧ σ' = σ := by
  rw [optionalOperand] at h
  split at h
  · split at h
    · cases h
      exact ⟨‹_›, rfl⟩
    · exact absurd h (literal_ne_accept _ _ _ _)
  · cases h

/-- A line is accepted before the end of the entry only where it ends at a comma
or an opening bracket. -/
theorem operand_accept {c : Char} (hc : IsOperandChar c) {args s : List Char} {σ σ' : AsmState}
    (h : operand o P more c args s σ = .accept σ') : (c = ',' ∨ c = '(') ∧ s = [] ∧ σ' = σ := by
  rcases hc with hc | hc | hc | hc
  · obtain ⟨f, hf⟩ := Option.isSome_iff_exists.mp hc
    rw [operand_of_regField hf, registerOperand] at h
    split at h
    · cases h
    · exact absurd h (immediateOperand_ne_accept _ _ _ _)
  · simp only [smallLetters, List.mem_cons, List.not_mem_nil, or_false] at hc
    rcases hc with rfl | rfl | rfl | rfl | rfl
    · exact absurd h (@immediateOperand_ne_accept o P more 'i' s σ σ')
    · exact absurd h (@immediateOperand_ne_accept o P more 'j' s σ σ')
    · exact absurd h (@immediateOperand_ne_accept o P more '5' s σ σ')
    · exact nomatch (show upperOperand P s σ = .accept σ' from h)
    · have h : offsetOperand P s σ = .accept σ' := h
      rw [offsetOperand] at h
      split at h
      · cases h
      · simp only at h
        split at h <;> cases h
  · simp only [targetLetters, List.mem_cons, List.not_mem_nil, or_false] at hc
    rcases hc with rfl | rfl
    · exact nomatch (show targetOperand P .pcrelS2 s σ = .accept σ' from h)
    · exact nomatch (show targetOperand P .mipsJmp s σ = .accept σ' from h)
  · simp only [literals, List.mem_cons, List.not_mem_nil, or_false] at hc
    rcases hc with rfl | rfl | rfl | rfl | rfl
    · have h : (if s.head? = some ',' then .next s.tail σ else optionalOperand ',' args s σ) = ArgResult.accept σ' := h
      split at h
      · cases h
      · exact ⟨.inl rfl, optionalOperand_accept h⟩
    · exact ⟨.inr rfl, optionalOperand_accept h⟩
    · exact absurd h (literal_ne_accept ')' s σ σ')
    · exact absurd h (literal_ne_accept '[' s σ σ')
    · exact absurd h (literal_ne_accept ']' s σ σ')

/-- A separator at the end of a line is not in the grammar. -/
theorem GivesOne.ne_nil {c : Char} {s' : List Char} {x : Option AsmOperand} (h : c = ',' ∨ c = '(') :
    ¬GivesOne o P c [] x s' := by
  intro hg
  cases hg with
  | register hc => rcases h with rfl | rfl <;> exact absurd hc nofun
  | small hc => rcases h with rfl | rfl <;> exact absurd hc (by decide)
  | omitted ho => exact nomatch ho.2.1
  | target hc => rcases h with rfl | rfl <;> exact absurd hc (by decide)

theorem AsmOperand.bad_apply (σ : AsmState) (x : AsmOperand) : (x.apply σ).bad = σ.bad := by
  unfold apply
  split
  · split <;> rfl
  · simp only
    split <;> rfl
  · rfl

/-- Without errors, an operand has its effect. -/
theorem AsmState.applied_of_not_bad {σ : AsmState} {x : Option AsmOperand} {b : Bool}
    (h : (σ.applied x b).bad = false) :
    σ.bad = false ∧ b = false ∧ σ.applied x b = σ.applyAll x.toList := by
  obtain ⟨hσ, hb⟩ := Bool.or_eq_false_iff.mp (show (σ.bad || b) = false from h)
  refine ⟨hσ, hb, ?_⟩
  cases x with
  | none =>
    simp only [applied, Option.elim, hσ, hb, Bool.or_self, applyAll, Option.toList, List.foldl_nil]
    rw [← hσ]
  | some x =>
    have hx := AsmOperand.bad_apply σ x
    simp only [applied, Option.elim, hσ, hb, Bool.or_self, applyAll, Option.toList, List.foldl_cons, List.foldl_nil]
    rw [← hσ, ← hx]

/-- What an accepted line that follows the grammar leaves, if no error was
reported. -/
theorem parseArgs_of_gives {args s : List Char} {xs : List AsmOperand} (hg : Gives o P args s xs) {σ σ' : AsmState}
    (h : parseArgs o P more args s σ = .accept σ') (hb : σ'.bad = false) :
    σ.bad = false ∧ σ' = σ.applyAll xs ∧ ∀ x ∈ xs, x.InRange := by
  induction hg generalizing σ with
  | nil hs =>
    rw [parseArgs, if_pos hs] at h
    cases h
    exact ⟨hb, rfl, nofun⟩
  | @cons c args s s' x xs h1 hs ih =>
    rw [parseArgs_cons h1.isOperandChar.ne_plus] at h
    cases hr : operand o P more c args (skipBlanks s) σ with
    | next s₁ σ₁ =>
      rw [hr] at h
      obtain ⟨rfl, b, hrange, rfl⟩ := h1.next hr
      obtain ⟨hb₁, rfl, hxs⟩ := ih h
      obtain ⟨hσ, rfl, happ⟩ := AsmState.applied_of_not_bad hb₁
      refine ⟨hσ, ?_, fun y hy => ?_⟩
      · rw [happ, AsmState.applyAll, AsmState.applyAll, AsmState.applyAll, List.foldl_append]
      · rcases List.mem_append.mp hy with hy | hy
        · exact hrange rfl y (Option.mem_toList.mp hy)
        · exact hxs y hy
    | accept σ₁ =>
      obtain ⟨hc, hs, -⟩ := operand_accept h1.isOperandChar hr
      rw [hs] at h1
      exact absurd h1 (GivesOne.ne_nil hc)
    | mismatch σ₁ => rw [hr] at h; cases h
    | abort => rw [hr] at h; cases h

theorem mem_of_regField {c : Char} (h : (regField c).isSome = true) :
    c ∈ ['s', 'd', 'D', 't', 'S', 'q', 'Q', 'A', 'V'] := by
  unfold regField at h
  split at h <;> first | decide | cases h

/-- The letters of the four kinds are different. -/
theorem letters_disjoint :
    (∀ c ∈ ['s', 'd', 'D', 't', 'S', 'q', 'Q', 'A', 'V'], c ∉ smallLetters ∧ c ∉ targetLetters ∧ c ∉ literals) ∧
    (∀ c ∈ smallLetters, c ∉ targetLetters ∧ c ∉ literals) ∧ ∀ c ∈ targetLetters, c ∉ literals := by decide

theorem GivesOne.not_diverts {c : Char} {s s' : List Char} {x : Option AsmOperand} (h : GivesOne o P c s x s') :
    ¬Diverts o P c s := by
  obtain ⟨hreg, hsmall, htarget⟩ := letters_disjoint
  rintro (⟨hf, hl⟩ | ⟨hc, rfl⟩ | ⟨hc, ho, hne⟩ | ⟨hc, hne⟩)
  · have hc := hreg c (mem_of_regField hf)
    cases h with
    | literal hm => exact hc.2.2 hm
    | register hr hl' => exact nomatch hl.symm.trans hl'
    | small hm => exact hc.1 hm
    | omitted ho => exact hc.1 (by rw [ho.1]; decide)
    | target hm => exact hc.2.1 hm
  · exact GivesOne.ne_nil hc h
  · cases h with
    | literal hm => exact (hsmall c hc).2 hm
    | register hr hl' => exact (hreg c (mem_of_regField (by rw [hr]; rfl))).1 hc
    | small hm ho' hne' => exact hne' hne
    | omitted ho' => exact ho ho'
    | target hm => exact (hsmall c hc).1 hm
  · cases h with
    | literal hm => exact htarget c hc hm
    | register hr hl' => exact (hreg c (mem_of_regField (by rw [hr]; rfl))).2.1 hc
    | small hm => exact (hsmall c hm).1 hc
    | omitted ho => rw [ho.1] at hc; exact absurd hc (by decide)
    | target hm hne' => exact hne' hne

/-- The grammar takes the operand that the text has, and goes on behind it. -/
theorem GivesOne.eq {c : Char} {t s' : List Char} {x : Option AsmOperand} (h : GivesOne o P c t x s') :
    x = operandAt o P (c, t) ∧ s' = textAfter o P c t := by
  obtain ⟨hreg, hsmall, htarget⟩ := letters_disjoint
  have hnone {c : Char} (hc : c ∈ smallLetters ∨ c ∈ targetLetters ∨ c ∈ literals) : ¬(regField c).isSome = true := by
    intro hf
    have hc' := hreg c (mem_of_regField hf)
    rcases hc with hc | hc | hc
    · exact hc'.1 hc
    · exact hc'.2.1 hc
    · exact hc'.2.2 hc
  cases h with
  | literal hc s =>
    simp only [operandAt, textAfter, if_neg (hnone (.inr (.inr hc))), if_pos hc, List.tail_cons, and_self]
  | register hc hl =>
    simp only [operandAt, textAfter, hc, hl, Option.isSome_some, if_true, Option.map_some, and_self]
  | small hc ho =>
    simp only [operandAt, textAfter, if_neg (hnone (.inl hc)), if_neg (hsmall c hc).2, if_neg ho, if_pos hc, and_self]
  | omitted ho =>
    have hc : c ∈ smallLetters := by rw [ho.1]; decide
    simp only [operandAt, textAfter, if_neg (hnone (.inl hc)), if_neg (hsmall c hc).2, if_pos ho, and_self]
  | target hc =>
    have ho : ¬OffsetOmitted c t := fun ho => absurd (ho.1 ▸ hc) (by decide)
    have hs : c ∉ smallLetters := fun hs => (hsmall c hs).1 hc
    simp only [operandAt, textAfter, if_neg (hnone (.inr (.inl hc))), if_neg (htarget c hc), if_neg ho, if_neg hs,
      and_self]

theorem Gives.eq_lineOperands {args s : List Char} {xs : List AsmOperand} (h : Gives o P args s xs) :
    xs = lineOperands o P args s := by
  induction h with
  | nil => rfl
  | cons h1 hs ih =>
    obtain ⟨rfl, rfl⟩ := h1.eq
    rw [lineOperands, operandTexts, List.filterMap_cons, ← lineOperands, ← ih]
    cases operandAt o P _ <;> rfl

/-- What goes on without diverting follows the grammar. -/
theorem GivesOne.of_next {c : Char} (hc : IsOperandChar c) {args s s' : List Char} {σ σ' : AsmState}
    (hd : ¬Diverts o P c s) (h : operand o P more c args s σ = .next s' σ') : ∃ x, GivesOne o P c s x s' := by
  simp only [Diverts, not_or, not_and] at hd
  obtain ⟨hreg, -, hsmall, htarget⟩ := hd
  rcases hc with hc | hc | hc | hc
  · obtain ⟨f, hf⟩ := Option.isSome_iff_exists.mp hc
    cases hl : regLookup o.registers s with
    | none => exact absurd hl (hreg hc)
    | some p =>
      rw [operand_of_regField hf, registerOperand, hl] at h
      cases h
      exact ⟨_, .register hf hl⟩
  · by_cases ho : OffsetOmitted c s
    · obtain ⟨rfl, hs⟩ := ho
      have h : offsetOperand P s σ = .next s' σ' := h
      rw [offsetOperand, if_pos hs] at h
      cases h
      exact ⟨_, .omitted ⟨rfl, hs⟩⟩
    · obtain ⟨rfl, -⟩ := small_next hc ho h
      exact ⟨_, .small hc ho (hsmall hc ho)⟩
  · have hne := htarget hc
    have hs : s' = (P.getExpression s).rest := by
      simp only [targetLetters, List.mem_cons, List.not_mem_nil, or_false] at hc
      rcases hc with rfl | rfl
      · cases (show targetOperand P .pcrelS2 s σ = .next s' σ' from h); rfl
      · cases (show targetOperand P .mipsJmp s σ = .next s' σ' from h); rfl
    rw [hs]
    exact ⟨_, .target hc hne⟩
  · have h := separator_next hc h
    rw [Rigel.literal] at h
    split at h
    · rename_i hs
      cases h
      obtain ⟨s', rfl⟩ : ∃ s', s = c :: s' := by
        cases s with
        | nil => exact nomatch hs
        | cons d s => cases hs; exact ⟨s, rfl⟩
      exact ⟨_, .literal hc s'⟩
    · cases h

theorem Gives.not_diverts {args s : List Char} {xs : List AsmOperand} (h : Gives o P args s xs) :
    ∀ x ∈ operandTexts o P args s, ¬Diverts o P x.1 x.2 := by
  induction h with
  | nil => nofun
  | cons h1 hs ih =>
    obtain ⟨-, rfl⟩ := h1.eq
    exact List.forall_mem_cons.mpr ⟨h1.not_diverts, ih⟩

/-- An accepted line follows the grammar, if and only if it does not leave it at
any operand character. -/
theorem gives_iff {args : List Char} (hargs : ∀ c ∈ args, IsOperandChar c) {s : List Char} {σ σ' : AsmState}
    (h : parseArgs o P more args s σ = .accept σ') :
    (∃ xs, Gives o P args s xs) ↔ ∀ x ∈ operandTexts o P args s, ¬Diverts o P x.1 x.2 := by
  refine ⟨fun ⟨xs, hg⟩ => hg.not_diverts, fun hd => ?_⟩
  induction args generalizing s σ with
  | nil =>
    rw [parseArgs] at h
    split at h
    · exact ⟨_, .nil ‹_›⟩
    · cases h
  | cons c args ih =>
    obtain ⟨hc, hargs⟩ := List.forall_mem_cons.mp hargs
    obtain ⟨hhere, hd⟩ := List.forall_mem_cons.mp hd
    rw [parseArgs_cons hc.ne_plus] at h
    cases hr : operand o P more c args (skipBlanks s) σ with
    | next s₁ σ₁ =>
      rw [hr] at h
      obtain ⟨x, h1⟩ := GivesOne.of_next hc hhere hr
      obtain ⟨-, rfl⟩ := h1.eq
      obtain ⟨xs, hs⟩ := ih hargs h hd
      exact ⟨_, .cons h1 hs⟩
    | accept σ₁ =>
      obtain ⟨hc', hs, -⟩ := operand_accept hc hr
      exact absurd (.inr (.inl ⟨hc', hs⟩)) hhere
    | mismatch σ₁ => rw [hr] at h; cases h
    | abort => rw [hr] at h; cases h

end Steps

end Rigel
