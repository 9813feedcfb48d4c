import RigelCodegen.Asm.Opcode

/-!
# The assembler

`mips_ip` matches the operands of a source line against the entries of its
mnemonic, one after the other, and `md_assemble` hands the instruction word and
the expression that was left pending to `append_insn`. The globals that
`mips_ip` works on are a state that it passes along (`AsmState`): what an entry
that does not match has left in them is there when the next one is tried.

The expression parser of the assembler and its registers are parameters
(`ExpressionParser`, `RegisterTable`): they depend on the symbol table.
-/

namespace Rigel

open Word32 Op

def RTYPE_NUM : Word := 0x00100

def RTYPE_GP : Word := 0x01000

def RNUM_MASK : Word := 0x000ff

/-- The registers of the assembler: the value of a name, if its symbol is in
`reg_section`, and what `itbl_get_reg_val` finds. -/
structure RegisterTable where
  symbolFind : List Char → Option Word
  itblGetRegVal : List Char → Option Word := fun _ => none

def isNameBeginner (c : Char) : Bool := c.isAlpha || c == '$' || c == '.' || c == '_' || 0x80 ≤ c.toNat

def isPartOfName (c : Char) : Bool := isNameBeginner c || c.isDigit

/-- `reg_lookup`, for `RTYPE_NUM | RTYPE_GP`: the register at the start of the
text, and what follows its name. -/
def regLookup (t : RegisterTable) (s : List Char) : Option (Nat × List Char) :=
  let name := s.takeWhile isPartOfName
  let reg : Option Word :=
    match t.symbolFind name with
    | some r => if r &&& (RTYPE_NUM ||| RTYPE_GP) ≠ 0 then some (r &&& RNUM_MASK) else none
    | none => (t.itblGetRegVal (if name.head? = some '$' then name.tail else name)).map (· &&& RNUM_MASK)
  reg.map fun r => (r.toNat, s.drop name.length)

theorem toNat_and_RNUM_MASK (r : Word) : (r &&& RNUM_MASK).toNat < 256 := by
  rw [BitVec.toNat_and]
  exact Nat.lt_succ_of_le Nat.and_le_right

theorem regLookup_spec {t : RegisterTable} {s s' : List Char} {n : Nat} (h : regLookup t s = some (n, s')) :
    n < 256 ∧ s' <:+ s := by
  obtain ⟨r, hr, he⟩ := Option.map_eq_some_iff.mp h
  cases he
  refine ⟨?_, List.drop_suffix _ _⟩
  split at hr
  · split at hr
    · obtain rfl := Option.some.inj hr
      exact toNat_and_RNUM_MASK _
    · cases hr
  · obtain ⟨v, -, rfl⟩ := Option.map_eq_some_iff.mp hr
    exact toNat_and_RNUM_MASK v

/-- `GENERIC_REGISTER_NUMBERS` and `SYMBOLIC_REGISTER_NAMES`. The other names have
none of the two types. -/
def regNames : List (String × Word) :=
  (List.range 64).map (fun n => ("$" ++ toString n, RTYPE_NUM ||| BitVec.ofNat 32 n)) ++ [
  ("$zero", RTYPE_GP ||| 0), ("$at", RTYPE_GP ||| 1), ("$AT", RTYPE_GP ||| 1), ("$v0", RTYPE_GP ||| 2),
  ("$v1", RTYPE_GP ||| 3), ("$a0", RTYPE_GP ||| 4), ("$a1", RTYPE_GP ||| 5), ("$a2", RTYPE_GP ||| 6),
  ("$a3", RTYPE_GP ||| 7), ("$s0", RTYPE_GP ||| 16), ("$s1", RTYPE_GP ||| 17), ("$s2", RTYPE_GP ||| 18),
  ("$s3", RTYPE_GP ||| 19), ("$s4", RTYPE_GP ||| 20), ("$s5", RTYPE_GP ||| 21), ("$s6", RTYPE_GP ||| 22),
  ("$s7", RTYPE_GP ||| 23), ("$t8", RTYPE_GP ||| 24), ("$t9", RTYPE_GP ||| 25), ("$k0", RTYPE_GP ||| 26),
  ("$kt0", RTYPE_GP ||| 26), ("$k1", RTYPE_GP ||| 27), ("$kt1", RTYPE_GP ||| 27), ("$gp", RTYPE_GP ||| 28),
  ("$sp", RTYPE_GP ||| 29), ("$s8", RTYPE_GP ||| 30), ("$fp", RTYPE_GP ||| 30), ("$ra", RTYPE_GP ||| 31)]

def regNamesO32 : List (String × Word) := [
  ("$t0", RTYPE_GP ||| 8), ("$t1", RTYPE_GP ||| 9), ("$t2", RTYPE_GP ||| 10), ("$t3", RTYPE_GP ||| 11),
  ("$t4", RTYPE_GP ||| 12), ("$t5", RTYPE_GP ||| 13), ("$t6", RTYPE_GP ||| 14), ("$t7", RTYPE_GP ||| 15),
  ("$ta0", RTYPE_GP ||| 12), ("$ta1", RTYPE_GP ||| 13), ("$ta2", RTYPE_GP ||| 14), ("$ta3", RTYPE_GP ||| 15)]

def regNamesN32N64 : List (String × Word) := [
  ("$a4", RTYPE_GP ||| 8), ("$a5", RTYPE_GP ||| 9), ("$a6", RTYPE_GP ||| 10), ("$a7", RTYPE_GP ||| 11),
  ("$ta0", RTYPE_GP ||| 8), ("$ta1", RTYPE_GP ||| 9), ("$ta2", RTYPE_GP ||| 10), ("$ta3", RTYPE_GP ||| 11),
  ("$t0", RTYPE_GP ||| 12), ("$t1", RTYPE_GP ||| 13), ("$t2", RTYPE_GP ||| 14), ("$t3", RTYPE_GP ||| 15)]

/-- The registers that `md_begin` puts in the symbol table. -/
def mdBeginRegisters (newAbi : Bool) : RegisterTable where
  symbolFind := fun name =>
    ((regNames ++ if newAbi then regNamesN32N64 else regNamesO32).find? fun p => p.1.toList == name).map Prod.snd

/-- `X_op`, as far as it is looked at. -/
inductive ExprOp where
  | absent | constant | big | other
  deriving DecidableEq, Repr

/-- `expressionS`. -/
structure Expression where
  op : ExprOp := .absent
  addNumber : Int := 0
  isUnsigned : Bool := false
  deriving DecidableEq, Repr

/-- The relocations that `mips_ip` sets, and those of percent operators. -/
inductive BfdReloc where
  | unused | lo16 | hi16S | highest | higher | gotDisp | mipsJmp | pcrelS2
  /-- A percent operator that has no value on a constant. -/
  | noConstant
  deriving DecidableEq, Repr

/-- A percent operator, as `parse_relocation` finds it. -/
inductive PercentOp where
  | lo | hi | highest | higher | gotDisp | other
  deriving DecidableEq, Repr

def PercentOp.reloc : PercentOp → BfdReloc
  | lo => .lo16
  | hi => .hi16S
  | highest => .highest
  | higher => .higher
  | gotDisp => .gotDisp
  | other => .noConstant

/-- What is parsed from the start of a text: an expression, the percent
operators before it, the rest of the text, and whether an error was reported. -/
structure Parsed where
  expr : Expression
  percentOps : List PercentOp := []
  rest : List Char
  bad : Bool := false
  deriving DecidableEq, Repr

/-- `my_getExpression` and `my_getSmallExpression`. -/
structure ExpressionParser where
  getExpression : List Char → Parsed
  getSmallExpression : List Char → Parsed

/-- The options of the assembler that the code here looks at, and its registers. -/
structure AsmOptions where
  isa : Word
  arch : Nat
  registers : RegisterTable := mdBeginRegisters false
  have64BitGprs : Bool := false
  /-- `sizeof (offsetT)` is at most 4. -/
  narrowOffset : Bool := false
  /-- `mips_relax_branch`. -/
  relaxBranch : Bool := false
  /-- A branch may be relaxed: neither `.set nomacro`, nor `.set noat` in
  position-independent code. -/
  mayRelax : Bool := true

/-- The globals of `md_assemble` and `mips_ip`: the instruction word, the
expressions and their first relocations, `lastpos`, whether `as_bad` was
called, and `insn_error`. -/
structure AsmState where
  insnOpcode : Word := 0
  immExpr : Expression := {}
  imm2Expr : Expression := {}
  offsetExpr : Expression := {}
  immReloc : BfdReloc := .unused
  offsetReloc : BfdReloc := .unused
  lastpos : Int := 0
  bad : Bool := false
  insnError : Option String := none

namespace AsmState

/-- `INSERT_OPERAND`. -/
def insertOperand (σ : AsmState) (f : Field) (v : Word) : AsmState := { σ with insnOpcode := f.insert σ.insnOpcode v }

def asBad (σ : AsmState) (b : Bool) : AsmState := { σ with bad := σ.bad || b }

end AsmState

/-- What one operand character leads to: the next character, with the rest of
the line; `return`, with or without all of the line matched; the next entry; or
the end of the assembler. -/
inductive ArgResult where
  | next (s : List Char) (σ : AsmState)
  | accept (σ : AsmState)
  | mismatch (σ : AsmState)
  | abort

/-- The rest of the loop, after the next character. -/
def ArgResult.andThen (r : ArgResult) (k : List Char → AsmState → ArgResult) : ArgResult :=
  match r with
  | next s σ => k s σ
  | r => r

/-! ## Operands -/

section Operands

variable (o : AsmOptions) (P : ExpressionParser) (more : Bool)

/-- The value of an expression modulo `2³²`. -/
def Expression.word (e : Expression) : Word := BitVec.ofInt 32 e.addNumber

/-- `normalize_constant_expr`, with 32-bit registers. -/
def normalizeConstantExpr (e : Expression) : Expression :=
  if o.have64BitGprs = false ∧ e.op = .constant ∧ -2 ^ 32 ≤ e.addNumber ∧ e.addNumber < 2 ^ 32 then
    { e with addNumber := e.word.toInt }
  else e

/-- `my_getExpression` into `imm_expr`, and `check_absolute_expr`. -/
def absoluteExpr (s : List Char) (σ : AsmState) : Expression × AsmState :=
  let r := P.getExpression s
  (normalizeConstantExpr o r.expr, { σ with bad := σ.bad || r.bad || r.expr.op != .constant })

/-- An absolute expression goes to its field at once; `imm_expr` is absent
afterwards. -/
def insertAbsolute (f : Field) (e : Expression) (v : Word) (σ : AsmState) : AsmState :=
  { σ.insertOperand f v with immExpr := { e with op := .absent } }

/-- `+1` to `+4`. -/
def udiOperand (f : Field) (s : List Char) (σ : AsmState) : ArgResult :=
  let (e, σ) := absoluteExpr o P s σ
  .next (P.getExpression s).rest
    { σ with insnOpcode := σ.insnOpcode ||| ((e.word &&& f.mask) <<< f.shift), immExpr := { e with op := .absent } }

/-- `do_lsb`. -/
def lsbOperand (limlo limhi : Int) (s : List Char) (σ : AsmState) : ArgResult :=
  let (e, σ) := absoluteExpr o P s σ
  let ok : Bool := limlo ≤ e.addNumber ∧ e.addNumber ≤ limhi
  let pos := if ok then e.addNumber else limlo
  .next (P.getExpression s).rest
    { insertAbsolute SHAMT { e with addNumber := pos } (BitVec.ofInt 32 pos) (σ.asBad !ok) with lastpos := pos }

/-- `do_msb` and `do_msbd`: the size of a field, as its last bit `msb`. -/
def msbOperand (f : Field) (msb : Int → Int → Int) (limlo limhi : Int) (s : List Char) (σ : AsmState) : ArgResult :=
  let (e, σ) := absoluteExpr o P s σ
  let ok : Bool := 0 ≤ e.addNumber ∧ limlo ≤ e.addNumber + σ.lastpos ∧ e.addNumber + σ.lastpos ≤ limhi
  let size := if ok then e.addNumber else limlo - σ.lastpos
  .next (P.getExpression s).rest
    (insertAbsolute f { e with addNumber := size } (BitVec.ofInt 32 (msb σ.lastpos size)) (σ.asBad !ok))

/-- `+I`. -/
def imm2Operand (s : List Char) (σ : AsmState) : ArgResult :=
  let r := P.getExpression s
  .next r.rest { σ with
    imm2Expr := normalizeConstantExpr o r.expr
    bad := σ.bad || r.bad
    insnError :=
      if r.expr.op = .big ∨ r.expr.op = .constant then σ.insnError else some "absolute expression required" }

/-- `regno`, an `unsigned int`, of the digits of a number. -/
def decimalRegno (digits : List Char) : Word :=
  digits.foldl (fun regno d => regno * 10 + BitVec.ofNat 32 (d.toNat - '0'.toNat)) 0

/-- `+t`. -/
def cp0Operand (s : List Char) (σ : AsmState) : ArgResult :=
  let digits := (s.drop 1).takeWhile Char.isDigit
  if s.head? = some '$' ∧ digits ≠ [] then
    let regno := decimalRegno digits
    if 31 < regno then .mismatch (σ.asBad true)
    else .next (s.drop (1 + digits.length)) (σ.insertOperand RT regno)
  else .mismatch (σ.asBad true)

/-- A selector of a vector, `e` or `%`. -/
def vectorOperand (f : Field) (s : List Char) (σ : AsmState) : ArgResult :=
  let (e, σ) := absoluteExpr o P s σ
  let ok : Bool := 0 ≤ e.addNumber ∧ e.addNumber ≤ 7
  let v := if ok then e.addNumber else 0
  .next (P.getExpression s).rest
    (insertAbsolute f { e with addNumber := v } (BitVec.ofInt 32 v) (σ.asBad !ok))

/-- The character after a `+`. -/
def extension (c : Char) (s : List Char) (σ : AsmState) : ArgResult :=
  match c with
  | '1' => udiOperand o P UDI1 s σ
  | '2' => udiOperand o P UDI2 s σ
  | '3' => udiOperand o P UDI3 s σ
  | '4' => udiOperand o P UDI4 s σ
  | 'E' => lsbOperand o P 32 63 s σ
  | 'B' => msbOperand o P INSMSB (fun pos size => pos + size - 1) 1 32 s σ
  | 'F' => msbOperand o P INSMSB (fun pos size => pos + size - 1) 33 64 s σ
  | 'C' => msbOperand o P EXTMSBD (fun _ size => size - 1) 1 32 s σ
  | 'G' => msbOperand o P EXTMSBD (fun _ size => size - 1) 33 64 s σ
  | 'H' => msbOperand o P EXTMSBD (fun _ size => size - 1) 33 64 s σ
  | 'I' => imm2Operand o P s σ
  | 'T' => .mismatch σ
  | 't' => cp0Operand s σ
  | _ => .accept (σ.asBad true)

/-- The field of a register letter. -/
def regField : Char → Option Field
  | 's' => some RS
  | 'd' => some RD
  | 'D' => some WDimm
  | 't' => some RT
  | 'S' => some RSspr
  | 'q' => some RDspr
  | 'Q' => some RDspr2
  | 'A' => some RA
  | 'V' => some RV
  | _ => none

/-- The constants that are taken at a letter of the immediate case. -/
def immediateRange (c : Char) : Int × Int :=
  if c = 'i' then (0, 0xffff)
  else if c = '5' then (0, 0x1f)
  else if c = 'j' then (-0x8000, 0x7fff)
  else if more then (-0x8000, 0x7fff)
  else (-0x8000, 0xffff)

/-- The immediate case. Its last step puts the value of a `5` in place, as it is
not at offset zero. -/
def immediateOperand (c : Char) (s : List Char) (σ : AsmState) : ArgResult :=
  let r := P.getSmallExpression s
  let e := r.expr
  let σ := { σ with
    immExpr := e
    immReloc := (r.percentOps.head?.map PercentOp.reloc).getD .lo16
    bad := σ.bad || r.bad }
  let outOfRange : Bool := r.percentOps = [] ∧
    (e.op ≠ .constant ∨ e.addNumber < (immediateRange more c).1 ∨ (immediateRange more c).2 < e.addNumber)
  let unsignedLast : Bool := r.percentOps = [] ∧ more = true ∧ c = 'j' ∧ o.narrowOffset = true ∧
    e.op = .constant ∧ e.addNumber < 0 ∧ e.isUnsigned = true ∧ o.have64BitGprs = true
  if unsignedLast || outOfRange && more then .mismatch σ
  else
    let σ := σ.asBad (outOfRange && (e.op == .constant || e.op == .big))
    .next r.rest
      (if c = '5' then { σ.insertOperand IMM5 e.word with immExpr := { e with addNumber := 0 } } else σ)

/-- A literal character. -/
def literal (c : Char) (s : List Char) (σ : AsmState) : ArgResult :=
  if s.head? = some c then .next s.tail σ else .mismatch σ

/-- The case of `(`, where the rest may be left out. It asserts that an operand
in brackets comes next. -/
def optionalOperand (c : Char) (args : List Char) (s : List Char) (σ : AsmState) : ArgResult :=
  if args.head? = some 'b' ∨ args.head? = some '5' ∨ args.head? = some '-' ∨ args.head? = some '4' then
    if s = [] then .accept σ else literal c s σ
  else .abort

/-- An offset, which may be left out before the only bracket. -/
def offsetOperand (s : List Char) (σ : AsmState) : ArgResult :=
  if s.head? = some '(' ∧ '(' ∉ s.tail then
    .next s { σ with offsetExpr := { σ.offsetExpr with op := .constant, addNumber := 0 } }
  else
    let r := P.getSmallExpression s
    let σ := { σ with
      offsetExpr := r.expr
      offsetReloc := (r.percentOps.head?.map PercentOp.reloc).getD σ.offsetReloc
      bad := σ.bad || r.bad }
    if r.percentOps = [] ∧ (r.expr.op ≠ .constant ∨ 0x8000 ≤ r.expr.addNumber ∨ r.expr.addNumber < -0x8000) then
      .mismatch σ
    else .next r.rest σ

/-- The upper half of a word. -/
def upperOperand (s : List Char) (σ : AsmState) : ArgResult :=
  let r := P.getSmallExpression s
  let bad : Bool := r.percentOps = [] ∧ r.expr.op = .constant ∧ (r.expr.addNumber < 0 ∨ 0x10000 ≤ r.expr.addNumber)
  .next r.rest { σ with
    immExpr := r.expr
    immReloc := (r.percentOps.head?.map PercentOp.reloc).getD σ.immReloc
    bad := σ.bad || r.bad || bad }

/-- A branch or jump target. -/
def targetOperand (reloc : BfdReloc) (s : List Char) (σ : AsmState) : ArgResult :=
  let r := P.getExpression s
  .next r.rest { σ with offsetExpr := r.expr, offsetReloc := reloc, bad := σ.bad || r.bad }

/-- A register, and the blank after it. What is not a register runs on into the
immediate case. -/
def registerOperand (c : Char) (f : Field) (s : List Char) (σ : AsmState) : ArgResult :=
  match regLookup o.registers s with
  | some (regno, s') =>
    .next (if s'.head? = some ' ' then s'.tail else s') (σ.insertOperand f (BitVec.ofNat 32 regno))
  | none => immediateOperand o P more c s σ

/-- One operand character, and those that follow it. -/
def operand (c : Char) (args : List Char) (s : List Char) (σ : AsmState) : ArgResult :=
  match regField c with
  | some f => registerOperand o P more c f s σ
  | none =>
    match c with
    | ',' => if s.head? = some ',' then .next s.tail σ else optionalOperand ',' args s σ
    | '(' => optionalOperand '(' args s σ
    | ')' => literal ')' s σ
    | '[' => literal '[' s σ
    | ']' => literal ']' s σ
    | 'i' => immediateOperand o P more 'i' s σ
    | 'j' => immediateOperand o P more 'j' s σ
    | '5' => immediateOperand o P more '5' s σ
    | 'o' => offsetOperand P s σ
    | 'p' => targetOperand P .pcrelS2 s σ
    | 'u' => upperOperand P s σ
    | 'a' => targetOperand P .mipsJmp s σ
    | 'e' => vectorOperand o P VECBYTE s σ
    | '%' => vectorOperand o P VECALIGN s σ
    | _ => .abort

/-- `s += strspn (s, " \t")`. -/
def skipBlanks (s : List Char) : List Char := s.dropWhile fun c => c == ' ' || c == '\t'

/-- The loop over the operand characters of an entry. -/
def parseArgs : List Char → List Char → AsmState → ArgResult
  | [], s, σ => if skipBlanks s = [] then .accept σ else .mismatch σ
  | '+' :: c :: args, s, σ => (extension o P c (skipBlanks s) σ).andThen (parseArgs args)
  | c :: args, s, σ => (operand o P more c args (skipBlanks s) σ).andThen (parseArgs args)

end Operands

/-- Induction over the operand characters of an entry: a `+` goes with the character
after it. -/
theorem operandChars_induction {motive : List Char → Prop} (nil : motive [])
    (extension : ∀ c args, motive args → motive ('+' :: c :: args))
    (operand : ∀ c args, (∀ c' args', c = '+' → args = c' :: args' → False) → motive args → motive (c :: args)) :
    ∀ args, motive args
  | [] => nil
  | [c] => operand c [] nofun nil
  | c :: c' :: args => by
    by_cases hc : c = '+'
    · subst hc
      exact extension c' args (operandChars_induction nil extension operand args)
    · exact operand c (c' :: args) (fun _ _ h => absurd h hc)
        (operandChars_induction nil extension operand (c' :: args))

/-- What becomes of a line: an entry, with the state it leaves; an error; or the
end of the assembler. -/
inductive IpResult where
  | assembled (op : MipsOpcode) (σ : AsmState)
  | error (σ : AsmState)
  | abort

/-- The entry is in the instruction set that is assembled for. -/
def AsmOptions.isSupported (o : AsmOptions) (op : MipsOpcode) : Bool :=
  op.isMember o.isa o.arch && !(!op.isMacro && o.arch == 4650 && op.pinfo &&& 0x20000000 != 0)

/-- `create_insn`, and `insn_error` reset. -/
def AsmState.create (σ : AsmState) (op : MipsOpcode) : AsmState :=
  { σ with insnOpcode := op.matchBits, insnError := none }

/-- Another entry of the same name comes next. -/
def hasMore (op : MipsOpcode) : List MipsOpcode → Bool
  | next :: _ => next.name == op.name
  | [] => false

section Ip

variable (o : AsmOptions) (P : ExpressionParser)

/-- The loop over the entries of a mnemonic, from the operands at `argsStart`. -/
def tryEntries (argsStart : List Char) : List MipsOpcode → AsmState → IpResult
  | [], σ => .error σ
  | op :: ops, σ =>
    if o.isSupported op then
      match parseArgs o P (hasMore op ops) op.args argsStart (σ.create op) with
      | .accept σ => .assembled op σ
      | .mismatch σ =>
        let σ := { σ with insnError := some "illegal operands" }
        if hasMore op ops then tryEntries argsStart ops σ else .error σ
      | .next .. => .abort
      | .abort => .abort
    else if hasMore op ops then tryEntries argsStart ops σ
    else .error { σ with insnError := some (σ.insnError.getD "opcode not supported on this processor") }

def isSpace (c : Char) : Bool := c == ' ' || 9 ≤ c.toNat && c.toNat ≤ 13

/-- `hash_find`: the table from the first entry of the name on. -/
def hashFind (mips_opcodes : List MipsOpcode) (name : List Char) : List MipsOpcode :=
  mips_opcodes.dropWhile fun op => op.name.toList != name

/-- The mnemonic of a line and its operands: up to a space, if the table has it,
else up to a period. -/
def splitMnemonic (mips_opcodes : List MipsOpcode) (str : List Char) : Option (List MipsOpcode × List Char) :=
  let name := str.takeWhile fun c => !isSpace c
  if hashFind mips_opcodes name ≠ [] then some (hashFind mips_opcodes name, (str.drop name.length).tail)
  else
    let name := str.takeWhile fun c => !isSpace c && c != '.'
    if (str.drop name.length).head? = some '.' ∧ hashFind mips_opcodes name ≠ [] then
      some (hashFind mips_opcodes name, (str.drop name.length).tail)
    else none

/-- `mips_ip`, from the state that `md_assemble` sets up. -/
def mipsIp (mips_opcodes : List MipsOpcode) (str : List Char) : IpResult :=
  match splitMnemonic mips_opcodes str with
  | some (ops, argsStart) => tryEntries o P argsStart ops {}
  | none => .error { insnError := some "unrecognized opcode" }

end Ip

/-! ## Emitting -/

/-- The bits of a constant under a relocation. -/
def BfdReloc.bits (x : Int) : BfdReloc → Word
  | unused | lo16 | gotDisp => BitVec.ofInt 32 (x % 0x10000)
  | hi16S => BitVec.ofInt 32 ((x + 0x8000) / 0x10000 % 0x10000)
  | highest => BitVec.ofInt 32 ((x + 0x800080008000) / 2 ^ 48 % 0x10000)
  | higher => BitVec.ofInt 32 ((x + 0x80008000) / 2 ^ 32 % 0x10000)
  | mipsJmp => BitVec.ofInt 32 (x / 4 % 0x4000000)
  | pcrelS2 => BitVec.ofInt 32 (x / 4 % 0x10000)
  | noConstant => 0

/-- What `append_insn` emits: the word, whether an error was reported, and
whether the field is left to a fixup or to relaxation. -/
structure Appended where
  word : Word
  bad : Bool := false
  fixup : Bool := false
  deriving DecidableEq, Repr

/-- The expression that `md_assemble` hands to `append_insn`. -/
def AsmState.pending (σ : AsmState) : Expression × BfdReloc :=
  if σ.immExpr.op ≠ .absent then (σ.immExpr, σ.immReloc)
  else if σ.offsetExpr.op ≠ .absent then (σ.offsetExpr, σ.offsetReloc)
  else ({}, .unused)

/-- A branch with a delay slot. -/
def isBranch (pinfo : Word) : Bool :=
  pinfo &&& INSN_UNCOND_BRANCH_DELAY != 0 || pinfo &&& INSN_COND_BRANCH_DELAY != 0 ||
    pinfo &&& INSN_COND_BRANCH_LIKELY != 0

/-- `append_insn`. -/
def appendInsn (o : AsmOptions) (pinfo insn : Word) (addressExpr : Expression) (reloc : BfdReloc) : Option Appended :=
  let x := addressExpr.addNumber
  if addressExpr.op = .absent then some { word := insn }
  else if reloc = .pcrelS2 ∧ isBranch pinfo = true ∧ o.relaxBranch = true ∧ o.mayRelax = true then
    some { word := if addressExpr.op = .constant then insn ||| BfdReloc.unused.bits x else insn, fixup := true }
  else if addressExpr.op = .constant then
    match reloc with
    | .noConstant => none
    | .mipsJmp => some { word := insn ||| BfdReloc.mipsJmp.bits x, bad := x % 4 ≠ 0 }
    | .pcrelS2 =>
      if o.relaxBranch then some { word := insn, bad := x % 4 ≠ 0, fixup := true }
      else some
        { word := insn ||| BfdReloc.pcrelS2.bits x
          bad := x % 4 ≠ 0 ∨ ¬(0 ≤ x + 0x20000 ∧ x + 0x20000 < 0x40000) }
    | reloc => some { word := insn ||| reloc.bits x }
  else some { word := insn, fixup := reloc ≠ .unused }

/-- `md_assemble`, for an entry that is no macro: what is emitted for a line, if
nothing was reported. -/
def mdAssemble (o : AsmOptions) (P : ExpressionParser) (mips_opcodes : List MipsOpcode) (str : List Char) :
    Option (MipsOpcode × Appended) :=
  match mipsIp o P mips_opcodes str with
  | .assembled op σ =>
    if σ.insnError.isNone && !σ.bad && !op.isMacro then
      (appendInsn o op.pinfo σ.insnOpcode σ.pending.1 σ.pending.2).bind fun r =>
        if r.bad then none else some (op, r)
    else none
  | _ => none

end Rigel
