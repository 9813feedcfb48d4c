import RigelCodegen.Asm.Operands
import Mathlib.Data.List.DropRight

/-!
# A line and the operands of an entry

`mipsIpLine` is `mips_ip` with the buffer of the line. It looks up the mnemonic by
writing a NUL behind it, and puts the character back when it reports an error
(`restore`), where its pointer `s` is.

How an entry ends is read off the line: `places` follows the text along the operand
characters as long as it matches them, and `parseLine_explained` says which of
these places is behind each end of the loop. A comma that is missing runs on into
the case of a bracket, which asserts that a bracketed operand comes next
(`MissingComma`).
-/

namespace Rigel

open Word32 Op

def nul : Char := Char.ofNat 0

/-- A line, as it is handed to `mips_ip`. -/
structure SourceLine where
  text : List Char
  noNul : nul ∉ text

namespace SourceLine

variable (line : SourceLine)

/-- The line in memory. -/
def buffer : List Char := line.text ++ [nul]

/-- The text up to a space. -/
def word : List Char := line.text.takeWhile fun c => !isSpace c

/-- The text up to a space or a period. -/
def stem : List Char := line.text.takeWhile fun c => !isSpace c && c != '.'

/-- A space follows the word. -/
def HasSpace : Prop := line.word.length < line.text.length

/-- The word has a period. -/
def HasPeriod : Prop := line.text[line.stem.length]? = some '.'

instance : Decidable line.HasSpace := inferInstanceAs (Decidable (_ < _))

instance : Decidable line.HasPeriod := inferInstanceAs (Decidable (_ = _))

/-- The text behind the space, and behind the period. -/
def operands : List Char := (line.text.drop line.word.length).tail

def stemOperands : List Char := (line.text.drop line.stem.length).tail

end SourceLine

/-- The string at the start of a buffer. -/
def cString (buf : List Char) : List Char := buf.takeWhile (· != nul)

/-- `if (save_c) *(--s) = save_c`. -/
def restore (saveC : Option Char) (s : Nat) (buf : List Char) : List Char :=
  match saveC with
  | some c => buf.set (s - 1) c
  | none => buf

/-- Where a rest of the line is in the buffer. -/
def position (buf s : List Char) : Nat := buf.length - (s.length + 1)

/-- An expression parser that ends in the text it is given. -/
structure LineParser extends ExpressionParser where
  getExpression_suffix (s : List Char) : (getExpression s).rest <:+ s
  getSmallExpression_suffix (s : List Char) : (getSmallExpression s).rest <:+ s

/-- The separator `,` and the letters of the operand switch, and the letters
after a `+`. -/
def handledChars : List Char :=
  [',', 's', 'd', 'D', 't', 'S', 'q', 'Q', 'A', 'V', 'i', 'j', '5', 'o', 'p', 'u', 'a', 'e', '%']

def handledExtensions : List Char := ['1', '2', '3', '4', 'E', 'B', 'F', 'C', 'G', 'H', 'I', 'T', 't']

def handledArgs : List Char → Bool
  | [] => true
  | '+' :: c :: args => handledExtensions.contains c && handledArgs args
  | c :: args => handledChars.contains c && handledArgs args

/-- An opcode table that `md_begin` accepts, with handled operands. Macros are
not validated. -/
structure OpcodeTable where
  opcodes : List MipsOpcode
  valid : ∀ op ∈ opcodes, op.isMacro = false → op.validate = true
  handled : ∀ op ∈ opcodes, handledArgs op.args = true

/-- How the loop over the operand characters ends: at a mismatch, with the text
at the operand, and how many characters of it `s` has passed. -/
inductive ArgsEnd where
  | accept (σ : AsmState)
  | mismatch (s : List Char) (n : Nat) (σ : AsmState)
  | abort

/-- The loop goes on, or ends at an operand. -/
def ArgResult.finish (r : ArgResult) (s : List Char) (n : Nat) (k : List Char → AsmState → ArgsEnd) : ArgsEnd :=
  match r with
  | next s' σ => k s' σ
  | accept σ => .accept σ
  | mismatch σ => .mismatch s n σ
  | abort => .abort

/-- What is read of an operand that does not match: `*s++` of a separator. -/
def operandRead (c : Char) : Nat := if c ∈ literals then 1 else 0

/-- The same, of a number after a `+t` that is too large. -/
def extensionRead (c : Char) (s : List Char) : Nat :=
  let digits := (s.drop 1).takeWhile Char.isDigit
  if c = 't' ∧ s.head? = some '$' ∧ digits ≠ [] then 1 + digits.length else 0

/-- What becomes of a line: an entry, or an error, with the buffer that is left;
or the end of the assembler. -/
inductive LineResult where
  | assembled (op : MipsOpcode) (σ : AsmState) (buf : List Char)
  | error (σ : AsmState) (buf : List Char)
  | abort

section Ip

variable (o : AsmOptions) (P : ExpressionParser)

/-- The loop over the operand characters of an entry. -/
def parseLine (more : Bool) : List Char → List Char → AsmState → ArgsEnd
  | [], s, σ => if skipBlanks s = [] then .accept σ else .mismatch (skipBlanks s) 0 σ
  | '+' :: c :: args, s, σ =>
    (extension o P c (skipBlanks s) σ).finish (skipBlanks s) (extensionRead c (skipBlanks s)) (parseLine more args)
  | c :: args, s, σ => (operand o P more c args (skipBlanks s) σ).finish (skipBlanks s) (operandRead c)
      (parseLine more args)

/-- The loop over the entries. It asserts that the buffer begins with the
mnemonic. -/
def tryLine (saveC : Option Char) (argsStart buf : List Char) : List MipsOpcode → AsmState → LineResult
  | [], σ => .error σ buf
  | op :: ops, σ =>
    if op.name.toList ≠ cString buf then .abort
    else if o.isSupported op then
      match parseLine o P (hasMore op ops) op.args argsStart (σ.create op) with
      | .accept σ => .assembled op σ buf
      | .mismatch s n σ =>
        let σ := { σ with insnError := some "illegal operands" }
        if hasMore op ops then tryLine saveC argsStart buf ops σ
        else .error σ (restore saveC (position buf s + n) buf)
      | .abort => .abort
    else if hasMore op ops then tryLine saveC argsStart buf ops σ
    else .error { σ with insnError := some (σ.insnError.getD "opcode not supported on this processor") }
      (restore saveC (position buf argsStart) buf)

/-- `mips_ip`. -/
def mipsIpLine (mips_opcodes : List MipsOpcode) (line : SourceLine) : LineResult :=
  let saveC := line.text[line.word.length]?
  let buf := if saveC.isSome then line.buffer.set line.word.length nul else line.buffer
  if hashFind mips_opcodes line.word ≠ [] then tryLine o P saveC line.operands buf (hashFind mips_opcodes line.word) {}
  else
    let buf := restore saveC (line.word.length + 1) buf
    if line.HasPeriod then
      let buf := buf.set line.stem.length nul
      if hashFind mips_opcodes line.stem ≠ [] then
        tryLine o P saveC line.stemOperands buf (hashFind mips_opcodes line.stem) {}
      else .error { insnError := some "unrecognized opcode" } buf
    else .error { insnError := some "unrecognized opcode" } buf

end Ip

/-- No assertion fails; an error exit sets `insn_error`, and behind an
`insn_error` the buffer is that of the line. -/
def LineResult.Diagnosed (line : SourceLine) : LineResult → Prop
  | assembled _ σ buf => σ.insnError ≠ none → buf = line.buffer
  | error σ buf => σ.insnError ≠ none ∧ buf = line.buffer
  | abort => False

instance (line : SourceLine) : (r : LineResult) → Decidable (r.Diagnosed line)
  | .assembled _ σ buf => inferInstanceAs (Decidable (σ.insnError ≠ none → buf = line.buffer))
  | .error σ buf => inferInstanceAs (Decidable (σ.insnError ≠ none ∧ buf = line.buffer))
  | .abort => inferInstanceAs (Decidable False)

/-! ## Where an entry ends -/

/-- An operand that is in brackets comes next. -/
def BracketNext (args : List Char) : Prop :=
  args.head? = some 'b' ∨ args.head? = some '5' ∨ args.head? = some '-' ∨ args.head? = some '4'

instance (args : List Char) : Decidable (BracketNext args) := inferInstanceAs (Decidable (_ ∨ _ ∨ _ ∨ _))

/-- A coprocessor register is `$0` to `$31`. -/
def IsCp0Register (t : List Char) : Prop :=
  let digits := (t.drop 1).takeWhile Char.isDigit
  t.head? = some '$' ∧ digits ≠ [] ∧ decimalRegno digits ≤ 31

instance (t : List Char) : Decidable (IsCp0Register t) := inferInstanceAs (Decidable (_ ∧ _ ∧ _))

section Ends

variable (o : AsmOptions) (P : ExpressionParser) (more : Bool)

/-- The immediate case takes an expression with percent operators, a constant that
is in range, and, of the last entry of a name, any other. -/
def ImmediateTaken (c : Char) (t : List Char) : Prop :=
  let r := P.getSmallExpression t
  more = true → r.percentOps ≠ [] ∨
    r.expr.op = .constant ∧ (immediateRange more c).1 ≤ r.expr.addNumber ∧
      r.expr.addNumber ≤ (immediateRange more c).2 ∧
      ¬(c = 'j' ∧ o.narrowOffset = true ∧ r.expr.addNumber < 0 ∧ r.expr.isUnsigned = true ∧ o.have64BitGprs = true)

/-- An offset has percent operators, or is a constant of 16 bits. -/
def OffsetTaken (t : List Char) : Prop :=
  let r := P.getSmallExpression t
  r.percentOps ≠ [] ∨ r.expr.op = .constant ∧ -0x8000 ≤ r.expr.addNumber ∧ r.expr.addNumber < 0x8000

/-- The text has what an operand character asks for. An expression may stand in
the place of a register. -/
def Matches (c : Char) (t : List Char) : Prop :=
  (c = ',' → t.head? = some ',') ∧ (c = 'o' → OffsetOmitted c t ∨ OffsetTaken P t) ∧
    (c ∈ ['i', 'j', '5'] → ImmediateTaken o P more c t) ∧
    ((regField c).isSome = true → (regLookup o.registers t).isSome = true ∨ ImmediateTaken o P more c t)

/-- The same, of a character after a `+`. No text is a `+T`. -/
def MatchesExtension (c : Char) (t : List Char) : Prop := c ≠ 'T' ∧ (c = 't' → IsCp0Register t)

instance (c : Char) (t : List Char) : Decidable (ImmediateTaken o P more c t) :=
  inferInstanceAs (Decidable (_ → _ ∨ _))

instance (t : List Char) : Decidable (OffsetTaken P t) := inferInstanceAs (Decidable (_ ∨ _))

instance (c : Char) (t : List Char) : Decidable (Matches o P more c t) := inferInstanceAs (Decidable (_ ∧ _))

instance (c : Char) (t : List Char) : Decidable (MatchesExtension c t) := inferInstanceAs (Decidable (_ ∧ _))

/-- The text behind that of a character after a `+`. -/
def textAfterExtension (c : Char) (t : List Char) : List Char :=
  if c = 't' then t.drop (1 + ((t.drop 1).takeWhile Char.isDigit).length) else (P.getExpression t).rest

/-- Where the line is compared with the operand characters: what is left of them,
and of the text. The text is followed as long as it matches. -/
def places : List Char → List Char → List (List Char × List Char)
  | [], s => [([], skipBlanks s)]
  | '+' :: c :: args, s =>
    ('+' :: c :: args, skipBlanks s) ::
      if MatchesExtension c (skipBlanks s) then places args (textAfterExtension P c (skipBlanks s)) else []
  | c :: args, s =>
    (c :: args, skipBlanks s) ::
      if Matches o P more c (skipBlanks s) then places args (textAfter o P c (skipBlanks s)) else []

/-- A comma is missing, and the assertion of the next case fails. -/
inductive MissingComma : List Char → List Char → Prop
  | intro {args t : List Char} (ht : t.head? ≠ some ',') (hb : ¬BracketNext args) : MissingComma (',' :: args) t

/-- The line is accepted: it ends with the operands, or before a bracket. -/
inductive AcceptsAt : List Char → List Char → Prop
  | all : AcceptsAt [] []
  | bracket {args : List Char} (hb : BracketNext args) : AcceptsAt (',' :: args) []

/-- The last entry does not match: there is more text, it does not go on with
the comma, the offset is out of range, or there is no coprocessor register. The
number is how much of the text has been read. -/
inductive StopsAt : List Char → List Char → Nat → Prop
  | trailing {t : List Char} (ht : t ≠ []) : StopsAt [] t 0
  | comma {args t : List Char} (ht : t ≠ []) (hc : t.head? ≠ some ',') (hb : BracketNext args) :
      StopsAt (',' :: args) t 1
  | offset {args t : List Char} (ho : ¬OffsetOmitted 'o' t) (ht : ¬OffsetTaken P t) : StopsAt ('o' :: args) t 0
  | disassemblyOnly {args t : List Char} : StopsAt ('+' :: 'T' :: args) t 0
  | coprocessor {args t : List Char} (h : ¬IsCp0Register t) : StopsAt ('+' :: 't' :: args) t (extensionRead 't' t)

/-- The expression of a `+I` is not absolute. -/
inductive NotAbsolute : List Char → List Char → Prop
  | intro {args t : List Char} (hb : (P.getExpression t).expr.op ≠ .big)
    (hc : (P.getExpression t).expr.op ≠ .constant) :
    NotAbsolute ('+' :: 'I' :: args) t

end Ends

theorem skipBlanks_skipBlanks (s : List Char) : skipBlanks (skipBlanks s) = skipBlanks s :=
  List.dropWhile_idempotent _ s

theorem skipBlanks_suffix (s : List Char) : skipBlanks s <:+ s := List.dropWhile_suffix _

/-- The case of a comma, with the next one that it may run on into. -/
theorem operand_comma (o : AsmOptions) (P : ExpressionParser) (more : Bool) (args t : List Char) (σ : AsmState) :
    operand o P more ',' args t σ =
    if t.head? = some ',' then .next t.tail σ
    else if BracketNext args then if t = [] then .accept σ else .mismatch σ
    else .abort := by
  show (if t.head? = some ',' then ArgResult.next t.tail σ else optionalOperand ',' args t σ) = _
  split
  · rfl
  · rename_i h
    rw [optionalOperand, literal, if_neg h]
    rfl

section Operand

variable {o : AsmOptions} (P : LineParser) {more : Bool}

/-- What is behind the result of an operand, at the operand characters `args`
and the text `t`. The loop goes on if and only if the text matches (`m`), behind
what it matches (`after`). -/
def ArgResult.Explained (more : Bool) (m : Prop) (after args t : List Char) (σ : AsmState) (n : Nat) :
    ArgResult → Prop
  | next s σ' =>
    m ∧ s = after ∧ after <:+ t ∧ (σ'.insnError ≠ none ↔ σ.insnError ≠ none ∨ NotAbsolute P.toExpressionParser args t)
  | accept σ' => ¬m ∧ σ' = σ ∧ AcceptsAt args t
  | mismatch _ => ¬m ∧ (more = false → StopsAt P.toExpressionParser args t n)
  | abort => ¬m ∧ MissingComma args t

theorem not_notAbsolute {P : ExpressionParser} {c : Char} (hc : c ≠ '+') {args t : List Char} :
    ¬NotAbsolute P (c :: args) t := by
  rintro ⟨⟩
  exact hc rfl

/-- An operand that goes on, and is no `+I`. -/
theorem explained_next {m : Prop} (hm : m) {after args t : List Char} {σ σ' : AsmState} (n : Nat)
    (hs : after <:+ t) (ha : ¬NotAbsolute P.toExpressionParser args t) (he : σ'.insnError = σ.insnError) :
    (ArgResult.next after σ').Explained P more m after args t σ n :=
  ⟨hm, rfl, hs, by simp only [he, ha, or_false]⟩

/-- The immediate case goes on, unless another entry may take the text. -/
theorem immediateOperand_explained {c d : Char} (hd : d ≠ '+') (args t : List Char) (σ : AsmState) (n : Nat) :
    (immediateOperand o P.toExpressionParser more c t σ).Explained P more
      (ImmediateTaken o P.toExpressionParser more c t) (P.getSmallExpression t).rest (d :: args) t σ n := by
  simp only [immediateOperand]
  split
  · rename_i h
    refine ⟨fun ht => ?_, fun hm => ?_⟩
    · cases more
      · simp at h
      · rcases ht rfl with hp | ⟨hop, hlo, hhi, hj⟩
        · simp [hp] at h
        · rcases Bool.or_eq_true_iff.mp h with h | h
          · simp only [decide_eq_true_eq] at h
            exact hj ⟨h.2.2.1, h.2.2.2.1, h.2.2.2.2.2.1, h.2.2.2.2.2.2.1, h.2.2.2.2.2.2.2⟩
          · simp only [Bool.and_true, decide_eq_true_eq] at h
            rcases h.2 with h | h | h
            · exact h hop
            · omega
            · omega
    · subst hm
      simp at h
  · rename_i h
    refine explained_next P (fun hm => ?_) n (P.getSmallExpression_suffix t) (not_notAbsolute hd) (by split <;> rfl)
    subst hm
    by_cases hp : (P.getSmallExpression t).percentOps = []
    · simp only [hp, true_and, Bool.and_true, Bool.or_eq_true, decide_eq_true_eq, not_or, not_not, not_lt] at h
      refine .inr ⟨h.2.1, h.2.2.1, h.2.2.2, fun hj => h.1 ?_⟩
      exact ⟨hj.1, hj.2.1, h.2.1, hj.2.2.1, hj.2.2.2.1, hj.2.2.2.2⟩
    · exact .inl hp

theorem registerOperand_explained {c : Char} {f : Field} (hc : regField c = some f) (args t : List Char) (σ : AsmState)
    (n : Nat) :
    (registerOperand o P.toExpressionParser more c f t σ).Explained P more
      ((regLookup o.registers t).isSome = true ∨ ImmediateTaken o P.toExpressionParser more c t)
      (textAfter o P.toExpressionParser c t) (c :: args) t σ n := by
  have hplus : c ≠ '+' := by rintro rfl; cases hc
  rw [registerOperand, textAfter, if_pos (by rw [hc]; rfl)]
  cases h : regLookup o.registers t with
  | some r =>
    obtain ⟨regno, s'⟩ := r
    have hs := (regLookup_spec h).2
    have hsuf : (if s'.head? = some ' ' then s'.tail else s') <:+ t := by
      split
      · exact (List.tail_suffix s').trans hs
      · exact hs
    exact explained_next P (.inl rfl) n hsuf (not_notAbsolute hplus) rfl
  | none =>
    simp only [Option.isSome_none, Bool.false_eq_true, false_or]
    exact immediateOperand_explained P hplus args t σ n

theorem offsetOperand_explained (args t : List Char) (σ : AsmState) :
    (offsetOperand P.toExpressionParser t σ).Explained P more (OffsetOmitted 'o' t ∨ OffsetTaken P.toExpressionParser t)
      (textAfter o P.toExpressionParser 'o' t) ('o' :: args) t σ 0 := by
  have hplus : 'o' ≠ '+' := by decide
  have hafter : textAfter o P.toExpressionParser 'o' t =
      if OffsetOmitted 'o' t then t else (P.getSmallExpression t).rest := by
    rw [textAfter, if_neg (by decide), if_neg (by decide), if_pos (show 'o' ∈ smallLetters by decide)]
  rw [hafter]
  by_cases ho : OffsetOmitted 'o' t
  · rw [offsetOperand, if_pos ho.2, if_pos ho]
    exact explained_next P (.inl ho) 0 List.suffix_rfl (not_notAbsolute hplus) rfl
  · rw [offsetOperand, if_neg fun hb => ho ⟨rfl, hb⟩, if_neg ho]
    simp only
    split
    · rename_i h
      have ht : ¬OffsetTaken P.toExpressionParser t := by
        rintro (hp | ⟨hop, hlo, hhi⟩)
        · exact hp h.1
        · rcases h.2 with h | h | h
          · exact h hop
          · omega
          · omega
      exact ⟨not_or.mpr ⟨ho, ht⟩, fun _ => .offset ho ht⟩
    · rename_i h
      refine explained_next P (.inr ?_) 0 (P.getSmallExpression_suffix t) (not_notAbsolute hplus) rfl
      by_cases hp : (P.getSmallExpression t).percentOps = []
      · simp only [hp, true_and, not_or, not_not, not_le, not_lt] at h
        exact .inr ⟨h.1, h.2.2, h.2.1⟩
      · exact .inl hp

theorem comma_explained (args t : List Char) (σ : AsmState) :
    (operand o P.toExpressionParser more ',' args t σ).Explained P more (t.head? = some ',') t.tail (',' :: args) t σ
      1 := by
  rw [operand_comma]
  split
  · exact explained_next P ‹_› 1 (List.tail_suffix t) (not_notAbsolute (by decide)) rfl
  · rename_i ht
    split
    · rename_i hb
      split
      · rename_i he
        exact ⟨ht, rfl, he ▸ .bracket hb⟩
      · rename_i he
        exact ⟨ht, fun _ => .comma he ht hb⟩
    · rename_i hb
      exact ⟨ht, .intro ht hb⟩

/-- Two ways to say that a text matches, and what is behind it. -/
theorem ArgResult.Explained.congr {r : ArgResult} {m m' : Prop} {after after' args t : List Char} {σ : AsmState}
    {n : Nat} (h : r.Explained P more m after args t σ n) (hm : m ↔ m') (ha : after = after') :
    r.Explained P more m' after' args t σ n := by
  subst ha
  rwa [← propext hm]

/-- Every handled operand character. -/
theorem operand_explained {c : Char} (hc : c ∈ handledChars) (args t : List Char) (σ : AsmState) :
    (operand o P.toExpressionParser more c args t σ).Explained P more (Matches o P.toExpressionParser more c t)
      (textAfter o P.toExpressionParser c t) (c :: args) t σ (operandRead c) := by
  have hexpression {c : Char} (h₁ : c ≠ ',') (h₂ : c ≠ 'o') (h₃ : c ∉ ['i', 'j', '5'])
      (h₄ : ¬(regField c).isSome = true) (h₅ : c ≠ '+') {s : List Char} {σ' : AsmState} (hs : s <:+ t)
      (ha : s = textAfter o P.toExpressionParser c t) (he : σ'.insnError = σ.insnError) :
      (ArgResult.next s σ').Explained P more (Matches o P.toExpressionParser more c t)
        (textAfter o P.toExpressionParser c t) (c :: args) t σ (operandRead c) := by
    subst ha
    refine explained_next P ?_ _ hs (not_notAbsolute h₅) he
    exact ⟨fun h => absurd h h₁, fun h => absurd h h₂, fun h => absurd h h₃, fun h => absurd h h₄⟩
  have hregister {c : Char} {f : Field} (h₁ : c ≠ ',') (h₂ : c ≠ 'o') (h₃ : c ∉ ['i', 'j', '5'])
      (h₄ : regField c = some f) : (registerOperand o P.toExpressionParser more c f t σ).Explained P more
        (Matches o P.toExpressionParser more c t) (textAfter o P.toExpressionParser c t) (c :: args) t σ
        (operandRead c) := by
    refine (registerOperand_explained P h₄ args t σ _).congr P ⟨fun h => ?_, fun h => h.2.2.2 (by rw [h₄]; rfl)⟩ rfl
    exact ⟨fun h => absurd h h₁, fun h => absurd h h₂, fun h => absurd h h₃, fun _ => h⟩
  have himmediate {c : Char} (h₁ : c ≠ ',') (h₂ : c ≠ 'o') (h₃ : c ∈ ['i', 'j', '5']) (h₄ : ¬(regField c).isSome = true)
      (h₅ : textAfter o P.toExpressionParser c t = (P.getSmallExpression t).rest) (h₆ : c ≠ '+') :
      (immediateOperand o P.toExpressionParser more c t σ).Explained P more (Matches o P.toExpressionParser more c t)
        (textAfter o P.toExpressionParser c t) (c :: args) t σ (operandRead c) := by
    refine (immediateOperand_explained P h₆ args t σ _).congr P ⟨fun h => ?_, fun h => h.2.2.1 h₃⟩ h₅.symm
    exact ⟨fun h => absurd h h₁, fun h => absurd h h₂, fun _ => h, fun h => absurd h h₄⟩
  simp only [handledChars, List.mem_cons, List.not_mem_nil, or_false] at hc
  rcases hc with rfl | rfl | rfl | rfl | rfl | rfl | rfl | rfl | rfl | rfl | rfl | rfl | rfl | rfl | rfl | rfl | rfl |
    rfl | rfl
  · refine (comma_explained P args t σ).congr P ⟨fun h => ?_, fun h => h.1 rfl⟩ rfl
    exact ⟨fun _ => h, nofun, nofun, nofun⟩
  iterate 9 exact hregister (by decide) (by decide) (by decide) rfl
  iterate 3 exact himmediate (by decide) (by decide) (by decide) (by decide) rfl (by decide)
  · refine (offsetOperand_explained P args t σ).congr P ⟨fun h => ?_, fun h => h.2.1 rfl⟩ rfl
    exact ⟨nofun, fun _ => h, nofun, nofun⟩
  · exact hexpression (by decide) (by decide) (by decide) (by decide) (by decide) (P.getExpression_suffix t) rfl rfl
  · exact hexpression (by decide) (by decide) (by decide) (by decide) (by decide) (P.getSmallExpression_suffix t) rfl
      rfl
  all_goals
    exact hexpression (by decide) (by decide) (by decide) (by decide) (by decide) (P.getExpression_suffix t) rfl rfl

theorem cp0Operand_explained (args t : List Char) (σ : AsmState) :
    (cp0Operand t σ).Explained P more (IsCp0Register t) (textAfterExtension P.toExpressionParser 't' t)
      ('+' :: 't' :: args) t σ (extensionRead 't' t) := by
  simp only [cp0Operand]
  split
  · rename_i hd
    split
    · rename_i hn
      have ht : ¬IsCp0Register t := fun h => absurd h.2.2 (BitVec.not_le.mpr hn)
      exact ⟨ht, fun _ => .coprocessor ht⟩
    · rename_i hn
      exact explained_next P ⟨hd.1, hd.2, BitVec.not_lt.mp hn⟩ _ (List.drop_suffix _ _) nofun rfl
  · rename_i hd
    have ht : ¬IsCp0Register t := fun h => hd ⟨h.1, h.2.1⟩
    exact ⟨ht, fun _ => .coprocessor ht⟩

theorem imm2Operand_explained (args t : List Char) (σ : AsmState) :
    (imm2Operand o P.toExpressionParser t σ).Explained P more (MatchesExtension 'I' t) (P.getExpression t).rest
      ('+' :: 'I' :: args) t σ (extensionRead 'I' t) := by
  refine ⟨⟨by decide, nofun⟩, rfl, P.getExpression_suffix t, ?_⟩
  simp only
  split
  · rename_i h
    refine ⟨.inl, fun hn => hn.resolve_right ?_⟩
    rintro ⟨hb, hc⟩
    exact h.elim hb hc
  · rename_i h
    rw [not_or] at h
    exact ⟨fun _ => .inr ⟨h.1, h.2⟩, nofun⟩

/-- Every handled character after a `+`. -/
theorem extension_explained {c : Char} (hc : c ∈ handledExtensions) (args t : List Char) (σ : AsmState) :
    (extension o P.toExpressionParser c t σ).Explained P more (MatchesExtension c t)
      (textAfterExtension P.toExpressionParser c t) ('+' :: c :: args) t σ (extensionRead c t) := by
  simp only [handledExtensions, List.mem_cons, List.not_mem_nil, or_false] at hc
  rcases hc with rfl | rfl | rfl | rfl | rfl | rfl | rfl | rfl | rfl | rfl | rfl | rfl | rfl
  iterate 10 exact explained_next P ⟨by decide, nofun⟩ _ (P.getExpression_suffix t) nofun rfl
  · exact imm2Operand_explained P args t σ
  · exact ⟨fun h => h.1 rfl, fun _ => .disassemblyOnly⟩
  · exact (cp0Operand_explained P args t σ).congr P ⟨fun h => ⟨by decide, fun _ => h⟩, fun h => h.2 rfl⟩ rfl

/-- What matches goes on. -/
theorem ArgResult.Explained.next {r : ArgResult} {m : Prop} {after args t : List Char} {σ : AsmState} {n : Nat}
    (h : r.Explained P more m after args t σ n) (hm : m) : ∃ σ', r = .next after σ' := by
  cases r with
  | next s σ' => exact ⟨σ', by rw [h.2.1]⟩
  | accept σ' | mismatch σ' | abort => exact absurd hm h.1

end Operand

section Args

variable {o : AsmOptions} {P : ExpressionParser} {more : Bool}

theorem parseLine_cons {c : Char} {args : List Char} (h : ∀ c' args', c = '+' → args = c' :: args' → False)
    (s : List Char) (σ : AsmState) :
    parseLine o P more (c :: args) s σ =
      (operand o P more c args (skipBlanks s) σ).finish (skipBlanks s) (operandRead c) (parseLine o P more args) :=
  parseLine.eq_3 _ _ _ _ _ _ _ h

theorem places_cons {c : Char} {args : List Char} (h : ∀ c' args', c = '+' → args = c' :: args' → False)
    (s : List Char) :
    places o P more (c :: args) s = (c :: args, skipBlanks s) ::
      if Matches o P more c (skipBlanks s) then places o P more args (textAfter o P c (skipBlanks s)) else [] :=
  places.eq_3 _ _ _ _ _ _ h

theorem handledArgs_cons {c : Char} {args : List Char} (h : ∀ c' args', c = '+' → args = c' :: args' → False)
    (hargs : handledArgs (c :: args) = true) : c ∈ handledChars ∧ handledArgs args = true := by
  rw [handledArgs.eq_3 _ _ h] at hargs
  obtain ⟨hc, hargs⟩ := Bool.and_eq_true_iff.mp hargs
  exact ⟨List.contains_iff_mem.mp hc, hargs⟩

theorem parseLine_skipBlanks (args s : List Char) (σ : AsmState) :
    parseLine o P more args (skipBlanks s) σ = parseLine o P more args s σ := by
  have hs := skipBlanks_skipBlanks s
  unfold parseLine
  split <;> rw [hs]

theorem not_plus {c : Char} (hc : c ≠ '+') {args : List Char} : ∀ c' args', c = '+' → args = c' :: args' → False :=
  fun _ _ h => absurd h hc

theorem MissingComma.parseLine_eq {args t : List Char} (h : MissingComma args t) (ht : skipBlanks t = t)
    (σ : AsmState) :
    parseLine o P more args t σ = .abort := by
  obtain ⟨hc, hb⟩ := h
  rw [parseLine_cons (not_plus (by decide)), ht, operand_comma, if_neg hc, if_neg hb]
  rfl

theorem AcceptsAt.not_notAbsolute {args t : List Char} (h : AcceptsAt args t) : ¬NotAbsolute P args t := by
  rintro ⟨⟩
  cases h

theorem AcceptsAt.parseLine_eq {args t : List Char} (h : AcceptsAt args t) (σ : AsmState) :
    parseLine o P more args t σ = .accept σ := by
  cases h with
  | all => rfl
  | bracket hb =>
    rw [parseLine_cons (not_plus (by decide)), show skipBlanks [] = [] from rfl, operand_comma, if_neg nofun, if_pos hb,
      if_pos rfl]
    rfl

theorem StopsAt.parseLine_eq {args t : List Char} {n : Nat} (h : StopsAt P args t n) (ht : skipBlanks t = t)
    (σ : AsmState) :
    ∃ σ', parseLine o P more args t σ = .mismatch t n σ' := by
  cases h with
  | trailing hne =>
    rw [parseLine, ht, if_neg hne]
    exact ⟨σ, rfl⟩
  | comma hne hc hb =>
    rw [parseLine_cons (not_plus (by decide)), ht, operand_comma, if_neg hc, if_pos hb, if_neg hne]
    exact ⟨σ, rfl⟩
  | offset ho hn =>
    obtain ⟨hp, hr⟩ := not_or.mp hn
    rw [parseLine_cons (not_plus (by decide)), ht, show operand o P more 'o' _ t σ = offsetOperand P t σ from rfl,
      offsetOperand, if_neg fun hb => ho ⟨rfl, hb⟩]
    have hout : (P.getSmallExpression t).expr.op ≠ .constant ∨ 0x8000 ≤ (P.getSmallExpression t).expr.addNumber ∨
        (P.getSmallExpression t).expr.addNumber < -0x8000 := by
      by_cases hop : (P.getSmallExpression t).expr.op = .constant
      · have hrange : ¬(-0x8000 ≤ (P.getSmallExpression t).expr.addNumber ∧
          (P.getSmallExpression t).expr.addNumber < 0x8000) := fun h => hr ⟨hop, h⟩
        exact .inr (by omega)
      · exact .inl hop
    simp only
    rw [if_pos ⟨not_not.mp hp, hout⟩]
    exact ⟨_, rfl⟩
  | disassemblyOnly =>
    rw [parseLine, ht]
    exact ⟨σ, rfl⟩
  | coprocessor hn =>
    rw [parseLine, ht, show extension o P 't' t σ = cp0Operand t σ from rfl, cp0Operand]
    simp only
    split
    · rename_i hd
      rw [if_pos (BitVec.not_le.mp fun hle => hn ⟨hd.1, hd.2, hle⟩)]
      exact ⟨_, rfl⟩
    · exact ⟨_, rfl⟩

end Args

section Spec

variable {o : AsmOptions} {P : LineParser} {more : Bool}

/-- Where the text is followed to, the loop goes on. -/
theorem parseLine_of_mem_places {args : List Char} (h : handledArgs args = true) {s args' t : List Char}
    (hx : (args', t) ∈ places o P.toExpressionParser more args s) (σ : AsmState) :
    skipBlanks t = t ∧ ∃ σ', parseLine o P.toExpressionParser more args s σ =
      parseLine o P.toExpressionParser more args' t σ' := by
  have hhere {args s : List Char} (σ : AsmState) : skipBlanks (skipBlanks s) = skipBlanks s ∧ ∃ σ',
      parseLine o P.toExpressionParser more args s σ = parseLine o P.toExpressionParser more args (skipBlanks s) σ' :=
    ⟨skipBlanks_skipBlanks s, σ, (parseLine_skipBlanks args s σ).symm⟩
  induction args using operandChars_induction generalizing s σ with
  | nil =>
    cases List.mem_singleton.mp hx
    exact hhere σ
  | extension c args ih =>
    obtain ⟨hc, hargs⟩ := Bool.and_eq_true_iff.mp h
    rcases List.mem_cons.mp hx with he | hx
    · cases he
      exact hhere σ
    · split at hx
      · have hex : ArgResult.Explained P more _ _ _ _ σ _ (extension o P.toExpressionParser c (skipBlanks s) σ) :=
          extension_explained P (List.contains_iff_mem.mp hc) args (skipBlanks s) σ
        obtain ⟨σ', he⟩ := hex.next P ‹_›
        rw [parseLine, he]
        exact ih hargs hx σ'
      · cases hx
  | operand c args hne ih =>
    obtain ⟨hc, hargs⟩ := handledArgs_cons hne h
    rw [places_cons hne] at hx
    rcases List.mem_cons.mp hx with he | hx
    · cases he
      exact hhere σ
    · split at hx
      · obtain ⟨σ', he⟩ := (operand_explained P hc args (skipBlanks s) σ).next P ‹_›
        rw [parseLine_cons hne, he]
        exact ih hargs hx σ'
      · cases hx

/-- What is behind the end of the loop: it has come to a place where an entry
ends so. -/
def ArgsEnd.Explained (P : LineParser) (more : Bool) (ps : List (List Char × List Char)) (s : List Char)
    (σ : AsmState) : ArgsEnd → Prop
  | accept σ' => (∃ x ∈ ps, AcceptsAt x.1 x.2) ∧
    (σ'.insnError ≠ none ↔ σ.insnError ≠ none ∨ ∃ x ∈ ps, NotAbsolute P.toExpressionParser x.1 x.2)
  | mismatch t n _ => more = false → t <:+ s ∧ ∃ args, (args, t) ∈ ps ∧ StopsAt P.toExpressionParser args t n
  | abort => ∃ x ∈ ps, MissingComma x.1 x.2

/-- One operand, and those that follow it. -/
theorem ArgResult.Explained.finish {r : ArgResult} {m : Prop} [Decidable m] {after args s : List Char} {σ : AsmState}
    {n : Nat} (h : r.Explained P more m after args (skipBlanks s) σ n) {k : List Char → AsmState → ArgsEnd}
    {ps : List (List Char × List Char)} (ih : ∀ σ', (k after σ').Explained P more ps after σ') :
    (r.finish (skipBlanks s) n k).Explained P more ((args, skipBlanks s) :: if m then ps else []) s σ := by
  cases r with
  | next s' σ' =>
    obtain ⟨hm, rfl, hsuf, herr⟩ := h
    have ih := ih σ'
    rw [if_pos hm]
    show (k s' σ').Explained P more ((args, skipBlanks s) :: ps) s σ
    cases hk : k s' σ' with
    | accept σ₁ =>
      rw [hk] at ih
      obtain ⟨⟨x, hx, hacc⟩, he⟩ := ih
      refine ⟨⟨x, .tail _ hx, hacc⟩, ?_⟩
      rw [he, herr, or_assoc, List.exists_mem_cons_iff]
    | mismatch t n' σ₁ =>
      rw [hk] at ih
      intro hmore
      obtain ⟨ht, args', hx, hstop⟩ := ih hmore
      exact ⟨ht.trans (hsuf.trans (skipBlanks_suffix s)), args', .tail _ hx, hstop⟩
    | abort =>
      rw [hk] at ih
      obtain ⟨x, hx, hmiss⟩ := ih
      exact ⟨x, .tail _ hx, hmiss⟩
  | accept σ' =>
    obtain ⟨hm, rfl, hacc⟩ := h
    rw [if_neg hm]
    refine ⟨⟨_, .head _, hacc⟩, .inl, fun he => he.elim id ?_⟩
    rintro ⟨x, hx, hn⟩
    cases List.mem_singleton.mp hx
    exact absurd hn hacc.not_notAbsolute
  | mismatch σ' => exact fun hmore => ⟨skipBlanks_suffix s, args, .head _, h.2 hmore⟩
  | abort => exact ⟨_, .head _, h.2⟩

/-- How the loop over handled operand characters ends. -/
theorem parseLine_explained {args : List Char} (h : handledArgs args = true) (s : List Char) (σ : AsmState) :
    (parseLine o P.toExpressionParser more args s σ).Explained P more (places o P.toExpressionParser more args s) s
      σ := by
  induction args using operandChars_induction generalizing s σ with
  | nil =>
    rw [parseLine, places]
    split
    · rename_i hs
      refine ⟨⟨_, .head _, hs ▸ .all⟩, .inl, fun he => he.elim id ?_⟩
      rintro ⟨x, hx, hn⟩
      cases List.mem_singleton.mp hx
      cases hn
    · exact fun _ => ⟨skipBlanks_suffix s, [], .head _, .trailing ‹_›⟩
  | extension c args ih =>
    obtain ⟨hc, hargs⟩ := Bool.and_eq_true_iff.mp h
    rw [parseLine, places]
    exact (extension_explained P (List.contains_iff_mem.mp hc) args (skipBlanks s) σ).finish fun σ' => ih hargs _ σ'
  | operand c args hne ih =>
    obtain ⟨hc, hargs⟩ := handledArgs_cons hne h
    rw [parseLine_cons hne, places_cons hne]
    exact (operand_explained P hc args (skipBlanks s) σ).finish fun σ' => ih hargs _ σ'

theorem explained_of_eq {args s : List Char} {σ : AsmState} (h : handledArgs args = true) {e : ArgsEnd}
    (he : parseLine o P.toExpressionParser more args s σ = e) :
    e.Explained P more (places o P.toExpressionParser more args s) s σ :=
  he ▸ parseLine_explained h s σ

end Spec

section Entry

variable (o : AsmOptions) (P : ExpressionParser)

/-- The text comes to a comma that it does not have. -/
def MissesComma (more : Bool) (args s : List Char) : Prop := ∃ x ∈ places o P more args s, MissingComma x.1 x.2

/-- If the last entry does not match, nothing has been read of the operands. -/
def StopsOnlyAtStart (args s : List Char) : Prop :=
  ∀ x ∈ places o P false args s, ∀ n, StopsAt P x.1 x.2 n → x.2 = s ∧ n = 0

/-- The line is accepted. -/
def Accepts (more : Bool) (args s : List Char) : Prop := ∃ x ∈ places o P more args s, AcceptsAt x.1 x.2

/-- Every expression of a `+I` is absolute. -/
def AllAbsolute (more : Bool) (args s : List Char) : Prop :=
  ∀ x ∈ places o P more args s, ¬NotAbsolute P x.1 x.2

end Entry

section EntryEnd

variable {o : AsmOptions} {P : LineParser} {more : Bool} {args s : List Char}

theorem missesComma_iff (h : handledArgs args = true) (σ : AsmState) :
    MissesComma o P.toExpressionParser more args s ↔ parseLine o P.toExpressionParser more args s σ = .abort := by
  constructor
  · rintro ⟨⟨args', t⟩, hx, hm⟩
    obtain ⟨ht, σ', he⟩ := parseLine_of_mem_places h hx σ
    rw [he, hm.parseLine_eq ht]
  · intro he
    exact explained_of_eq h he

theorem accepts_iff (h : handledArgs args = true) (σ : AsmState) :
    Accepts o P.toExpressionParser more args s ↔
      ∃ σ', parseLine o P.toExpressionParser more args s σ = .accept σ' := by
  constructor
  · rintro ⟨⟨args', t⟩, hx, ha⟩
    obtain ⟨-, σ', he⟩ := parseLine_of_mem_places h hx σ
    exact ⟨σ', by rw [he, ha.parseLine_eq]⟩
  · rintro ⟨σ', he⟩
    exact (explained_of_eq h he).1

theorem suffix_of_mismatch (h : handledArgs args = true) {t : List Char} {n : Nat} {σ σ' : AsmState}
    (he : parseLine o P.toExpressionParser false args s σ = .mismatch t n σ') : t <:+ s :=
  (explained_of_eq h he rfl).1

/-- The last entry, where it stops. -/
theorem stopsOnlyAtStart_mismatch (h : handledArgs args = true) {t : List Char} {n : Nat} {σ σ' : AsmState}
    (he : parseLine o P.toExpressionParser false args s σ = .mismatch t n σ') :
    StopsOnlyAtStart o P.toExpressionParser args s ↔ t = s ∧ n = 0 := by
  constructor
  · intro hs
    obtain ⟨-, args', hx, hstop⟩ := explained_of_eq h he rfl
    exact hs _ hx n hstop
  · rintro ⟨rfl, rfl⟩ ⟨args', t'⟩ hx n hstop
    obtain ⟨ht, σ₁, hp⟩ := parseLine_of_mem_places h hx σ
    obtain ⟨σ₂, hq⟩ := hstop.parseLine_eq ht σ₁
    rw [hp, hq] at he
    cases he
    exact ⟨rfl, rfl⟩

/-- An entry that is accepted does not stop. -/
theorem stopsOnlyAtStart_accept (h : handledArgs args = true) {σ σ' : AsmState}
    (he : parseLine o P.toExpressionParser false args s σ = .accept σ') :
    StopsOnlyAtStart o P.toExpressionParser args s := by
  rintro ⟨args', t⟩ hx n hstop
  obtain ⟨ht, σ₁, hp⟩ := parseLine_of_mem_places h hx σ
  obtain ⟨σ₂, hq⟩ := hstop.parseLine_eq ht σ₁
  rw [hp, hq] at he
  cases he

/-- `insn_error` behind an entry that is accepted. -/
theorem allAbsolute_iff (h : handledArgs args = true) {σ σ' : AsmState}
    (he : parseLine o P.toExpressionParser more args s σ = .accept σ') (hσ : σ.insnError = none) :
    AllAbsolute o P.toExpressionParser more args s ↔ σ'.insnError = none := by
  have herr := (explained_of_eq h he).2
  simp only [hσ, ne_eq, not_true_eq_false, false_or] at herr
  rw [← not_iff_not, herr]
  simp only [AllAbsolute, not_forall, not_not, exists_prop]

end EntryEnd

end Rigel
