import RigelCodegen.Asm.Disassemble

/-!
# Printing operands

`set_default_mips_dis_options` and `parse_mips_dis_options` choose the arrays of
register names, and `print_insn_args` indexes them with the fields of the word.
The array of Rigel and those of the ABIs have 32 names, but two fields have six
bits; and the letters of `validate_mips_insn` are not those of
`print_insn_args`. `printInsn_safe_iff` says when neither matters.

The table of architectures is a parameter, with 32 names in each of its arrays.
-/

namespace Rigel

open Word32 Op

def mips_gpr_names_rigel : List String := [
  "$zero", "$r1", "$r2", "$r3", "$r4", "$r5", "$r6", "$r7",
  "$r8", "$r9", "$r10", "$r11", "$r12", "$r13", "$r14", "$r15",
  "$r16", "$r17", "$r18", "$r19", "$r20", "$r21", "$r22", "$r23",
  "$r24", "$r25", "$r26", "$r27", "$gp", "$sp", "$fp", "$ra"]

def mips_gpr_names_numeric : List String := "$zero" :: (List.range 63).map fun n => "$r" ++ toString (n + 1)

def mips_gpr_names_newabi : List String := [
  "zero", "at", "v0", "v1", "a0", "a1", "a2", "a3",
  "a4", "a5", "a6", "a7", "t0", "t1", "t2", "t3",
  "s0", "s1", "s2", "s3", "s4", "s5", "s6", "s7",
  "t8", "t9", "k0", "k1", "gp", "sp", "s8", "ra"]

def mips_fpr_names_numeric : List String := (List.range 32).map fun n => "$f" ++ toString n

def mips_fpr_names_32 : List String := [
  "fv0", "fv0f", "fv1", "fv1f", "ft0", "ft0f", "ft1", "ft1f",
  "ft2", "ft2f", "ft3", "ft3f", "fa0", "fa0f", "fa1", "fa1f",
  "ft4", "ft4f", "ft5", "ft5f", "fs0", "fs0f", "fs1", "fs1f",
  "fs2", "fs2f", "fs3", "fs3f", "fs4", "fs4f", "fs5", "fs5f"]

def mips_fpr_names_n32 : List String := [
  "fv0", "ft14", "fv1", "ft15", "ft0", "ft1", "ft2", "ft3",
  "ft4", "ft5", "ft6", "ft7", "fa0", "fa1", "fa2", "fa3",
  "fa4", "fa5", "fa6", "fa7", "fs0", "ft8", "fs1", "ft9",
  "fs2", "ft10", "fs3", "ft11", "fs4", "ft12", "fs5", "ft13"]

/-- An array of general register names that may be chosen. -/
inductive GprNames where
  | rigel | newabi | numeric
  deriving DecidableEq, Repr

def GprNames.names : GprNames → List String
  | rigel => mips_gpr_names_rigel
  | newabi => mips_gpr_names_newabi
  | numeric => mips_gpr_names_numeric

inductive FprNames where
  | numeric | o32 | n32
  deriving DecidableEq, Repr

def FprNames.names : FprNames → List String
  | numeric => mips_fpr_names_numeric
  | o32 => mips_fpr_names_32
  | n32 => mips_fpr_names_n32

/-- The names of coprocessor 0 and of hardware registers by default. -/
def numericRegNames : Vector String 32 := .ofFn fun n => "$" ++ toString n.val

/-- `struct mips_cp0sel_name`. -/
structure Cp0selName where
  cp0reg : Nat
  sel : Nat
  name : String
  deriving DecidableEq, Repr

/-- `struct mips_abi_choice`. -/
structure AbiChoice where
  name : String
  gprNames : GprNames
  fprNames : FprNames
  deriving DecidableEq, Repr

def mips_abi_choices : List AbiChoice := [
  ⟨"numeric", .numeric, .numeric⟩,
  ⟨"32", .numeric, .o32⟩,
  ⟨"n32", .newabi, .n32⟩]

/-- `struct mips_arch_choice`. -/
structure ArchChoice where
  name : String
  bfdMachValid : Bool
  bfdMach : Nat
  processor : Nat
  isa : Word
  cp0Names : Vector String 32
  cp0selNames : List Cp0selName
  hwrNames : Vector String 32

/-- The statics that the options set. -/
structure DisOptions where
  processor : Nat
  isa : Word
  gprNames : GprNames
  fprNames : FprNames
  cp0Names : Vector String 32
  cp0selNames : List Cp0selName
  hwrNames : Vector String 32
  noAliases : Bool

/-- What `is_newabi` reads of an ELF header. -/
structure ElfHeader where
  class64 : Bool
  abi2 : Bool
  deriving DecidableEq, Repr

inductive Flavour where
  | unknown | elf | other
  deriving DecidableEq, Repr

/-- `struct disassemble_info`: the file, with the header of the file of its
section if there is one, and the options. -/
structure DisassembleInfo where
  flavour : Flavour := .elf
  header : Option ElfHeader := none
  mach : Nat := 0
  disassemblerOptions : List Char := []
  deriving DecidableEq, Repr

def isNewabi (header : ElfHeader) : Bool := header.class64 || header.abi2

def ISA_MIPS3 : Word := 7

section Options

variable (archs : List ArchChoice)

/-- `set_default_mips_dis_options`. -/
def setDefaultMipsDisOptions (info : DisassembleInfo) : DisOptions :=
  let opts : DisOptions := {
    processor := 3000
    isa := ISA_MIPS3
    gprNames := if info.flavour = .elf ∧ info.header.any isNewabi then .newabi else .rigel
    fprNames := .numeric
    cp0Names := numericRegNames
    cp0selNames := []
    hwrNames := numericRegNames
    noAliases := false }
  match archs.find? fun a => a.bfdMachValid && a.bfdMach == info.mach with
  | some a =>
    { opts with
      processor := a.processor, isa := a.isa, cp0Names := a.cp0Names, cp0selNames := a.cp0selNames
      hwrNames := a.hwrNames }
  | none => opts

def chooseAbiByName (name : List Char) : Option AbiChoice := mips_abi_choices.find? fun c => c.name.toList == name

def chooseArchByName (name : List Char) : Option ArchChoice := archs.find? fun c => c.name.toList == name

def DisOptions.setGpr (opts : DisOptions) : Option AbiChoice → DisOptions
  | some c => { opts with gprNames := c.gprNames }
  | none => opts

def DisOptions.setFpr (opts : DisOptions) : Option AbiChoice → DisOptions
  | some c => { opts with fprNames := c.fprNames }
  | none => opts

def DisOptions.setCp0 (opts : DisOptions) : Option ArchChoice → DisOptions
  | some c => { opts with cp0Names := c.cp0Names, cp0selNames := c.cp0selNames }
  | none => opts

def DisOptions.setHwr (opts : DisOptions) : Option ArchChoice → DisOptions
  | some c => { opts with hwrNames := c.hwrNames }
  | none => opts

/-- `parse_mips_dis_option`. -/
def parseMipsDisOption (opts : DisOptions) (option : List Char) : DisOptions :=
  if "no-aliases".toList <+: option then { opts with noAliases := true }
  else
    let name := option.takeWhile (· != '=')
    let val := option.drop (name.length + 1)
    if name = [] ∨ val = [] then opts
    else if name = "gpr-names".toList then opts.setGpr (chooseAbiByName val)
    else if name = "fpr-names".toList then opts.setFpr (chooseAbiByName val)
    else if name = "cp0-names".toList then opts.setCp0 (chooseArchByName archs val)
    else if name = "hwr-names".toList then opts.setHwr (chooseArchByName archs val)
    else if name = "reg-names".toList then
      (((opts.setGpr (chooseAbiByName val)).setFpr (chooseAbiByName val)).setCp0 (chooseArchByName archs val)).setHwr
        (chooseArchByName archs val)
    else opts

/-- `parse_mips_dis_options`: the options between commas, but for empty ones. -/
def parseMipsDisOptions (options : List Char) (opts : DisOptions) : DisOptions :=
  ((options.splitOn ',').filter (· ≠ [])).foldl (parseMipsDisOption archs) opts

/-- The options of a call. -/
def disOptions (info : DisassembleInfo) : DisOptions :=
  parseMipsDisOptions archs info.disassemblerOptions (setDefaultMipsDisOptions archs info)

end Options

/-! ## Operands -/

/-- What is printed. -/
inductive Printed where
  | text (s : String)
  | address (a : Word)
  deriving DecidableEq, Repr

/-- What goes wrong: an internal error is printed, or an array is read outside
of its bounds. -/
inductive PrintFault where
  | internalError (text : String)
  | outOfBounds (index size : Nat)
  deriving DecidableEq, Repr

/-- An operand of an entry: a letter, or one after a `+`. -/
inductive ArgOperand where
  | letter (c : Char)
  | extension (c : Char)
  | incomplete
  deriving DecidableEq, Repr

def argOperands : List Char → List ArgOperand
  | [] => []
  | ['+'] => [.incomplete]
  | '+' :: c :: args => .extension c :: argOperands args
  | c :: args => .letter c :: argOperands args

/-- How an operand is printed: as itself; as a number of a field, with what is
before it; or as the name of a register. -/
inductive ArgFormat where
  | char
  | hex (f : Field)
  | decimal (before : String) (f : Field)
  | condition (f : Field)
  | signed (f : Field) (sign : Word)
  | gpr (f : Field)
  | gprEither (f g : Field)
  | gprZero
  | fpr (f : Field)
  | cp0 (f : Field)
  | cp0Number (f : Field)
  | cp0sel (f sel : Field)
  | hwr (f : Field)
  | lsb (f : Field)
  | msb (f : Field) (offset : Word)
  | msbd (f : Field) (offset : Word)
  | jump
  | branch
  | nothing

/-- The cases of `print_insn_args`. -/
def argFormat (c : Char) : Option ArgFormat :=
  match c with
  | ',' | '(' | ')' | '[' | ']' => some .char
  | '2' => some (.hex BP)
  | '3' => some (.hex SA3)
  | '4' => some (.hex SA4)
  | '6' => some (.hex RS)
  | '7' => some (.decimal "$ac" DSPACC)
  | '8' => some (.hex WRDSP)
  | '9' => some (.decimal "$ac" DSPACC_S)
  | '0' => some (.signed DSPSFT 0x20)
  | ':' => some (.signed DSPSFT_7 0x40)
  | '@' => some (.signed IMM10 0x200)
  | '!' => some (.decimal "" MT_U)
  | '$' => some (.decimal "" MT_H)
  | '*' => some (.decimal "$ac" MTACC_T)
  | '&' => some (.decimal "$ac" MTACC_D)
  | 'g' => some (.decimal "$" RD)
  | 'V' => some (.gpr RV)
  | 's' | 'b' | 'r' => some (.gpr RS)
  | 't' | 'w' => some (.gpr RT)
  | 'q' => some (.gpr RDspr)
  | 'Q' => some (.gpr RDspr2)
  | 'i' | 'u' => some (.hex IMMEDIATE)
  | '5' => some (.hex IMM5)
  | 'j' | 'o' => some (.signed DELTA 0x8000)
  | 'h' => some (.hex PREFX)
  | 'k' => some (.hex CACHE)
  | 'a' => some .jump
  | 'p' => some .branch
  | 'd' => some (.gpr RD)
  | 'U' => some (.gprEither RD RT)
  | 'z' => some .gprZero
  | '<' => some (.hex SHAMT)
  | 'c' => some (.hex CODE)
  | 'C' => some (.hex COPZ)
  | 'B' => some (.hex CODE20)
  | 'J' => some (.hex CODE19)
  | 'S' => some (.gpr RSspr)
  | 'A' => some (.gpr RA)
  | 'T' | 'W' => some (.fpr FT)
  | 'D' => some (.gpr WDimm)
  | 'R' => some (.fpr FR)
  | 'E' => some (.decimal "$" RT)
  | 'G' => some (.cp0Number RD)
  | 'K' => some (.hwr RD)
  | 'N' => some (.condition BCC)
  | 'M' => some (.decimal "$fcc" CCC)
  | 'P' => some (.decimal "" PERFREG)
  | 'e' => some (.decimal "" VECBYTE)
  | '%' => some (.decimal "" VECALIGN)
  | 'H' => some (.decimal "" SEL)
  | 'O' => some (.decimal "" ALN)
  | 'X' => some (.decimal "$v" FD)
  | 'Y' => some (.decimal "$v" FS)
  | 'Z' => some (.decimal "$v" FT)
  | _ => if c = Char.ofNat 39 then some (.hex RDDSP) else none

/-- The cases after a `+`. -/
def extensionFormat (c : Char) : Option ArgFormat :=
  match c with
  | 'B' => some (.msb INSMSB 0)
  | '1' => some (.hex UDI1)
  | '2' => some (.hex UDI2)
  | '3' => some (.hex UDI3)
  | '4' => some (.hex UDI4)
  | 'C' | 'H' => some (.msbd EXTMSBD 0)
  | 'D' => some .nothing
  | 'E' => some (.lsb SHAMT)
  | 'F' => some (.msb INSMSB 32)
  | 'G' => some (.msbd EXTMSBD 32)
  | 't' => some (.cp0 RT)
  | 'T' => some (.cp0sel RT SEL)
  | _ => none

/-- `0x%lx`. -/
def hexText (w : Word) : List Printed := [.text ("0x" ++ String.ofList (Nat.toDigits 16 w.toNat))]

/-- `%ld`, behind a text. -/
def decimalText (before : String) (w : Word) : List Printed := [.text (before ++ toString w.toNat)]

/-- A name in an array. -/
def nameAt (names : List String) (i : Word) : Except PrintFault (List Printed) :=
  match names[i.toNat]? with
  | some s => .ok [.text s]
  | none => .error (.outOfBounds i.toNat names.length)

/-- `lookup_mips_cp0sel_name`. -/
def lookupMipsCp0selName (names : List Cp0selName) (cp0reg sel : Nat) : Option Cp0selName :=
  names.find? fun n => n.cp0reg == cp0reg && n.sel == sel

def FP_S : Word := 0x10000000
def FP_D : Word := 0x20000000
def OP_OP_COP0 : Word := 0x10

section Print

variable (opts : DisOptions) (info : DisassembleInfo) (pc l : Word) (opp : MipsOpcode)

/-- One operand. -/
def ArgFormat.print (lsb : Word) (c : Char) : ArgFormat → Except PrintFault (List Printed × Word)
  | char => .ok ([.text (String.ofList [c])], lsb)
  | hex f => .ok (hexText (f.extract l), lsb)
  | decimal before f => .ok (decimalText before (f.extract l), lsb)
  | condition f => .ok (decimalText (if opp.pinfo &&& (FP_D ||| FP_S) ≠ 0 then "$fcc" else "$cc") (f.extract l), lsb)
  | signed f sign =>
    let delta := f.extract l
    let delta := if delta &&& sign ≠ 0 then delta ||| ~~~f.mask else delta
    .ok ([.text (toString delta.toInt)], lsb)
  | gpr f => (nameAt opts.gprNames.names (f.extract l)).map (·, lsb)
  | gprEither f g =>
    let reg := f.extract l
    if reg = g.extract l then (nameAt opts.gprNames.names reg).map (·, lsb)
    else if reg = 0 then (nameAt opts.gprNames.names (g.extract l)).map (·, lsb)
    else if g.extract l = 0 then (nameAt opts.gprNames.names reg).map (·, lsb)
    else do
      let a ← nameAt opts.gprNames.names reg
      let b ← nameAt opts.gprNames.names (g.extract l)
      .ok (a ++ [.text " or "] ++ b, lsb)
  | gprZero => (nameAt opts.gprNames.names 0).map (·, lsb)
  | fpr f => (nameAt opts.fprNames.names (f.extract l)).map (·, lsb)
  | cp0 f => (nameAt opts.cp0Names.toList (f.extract l)).map (·, lsb)
  | cp0Number f =>
    if Op.OP.extract l = OP_OP_COP0 then (nameAt opts.cp0Names.toList (f.extract l)).map (·, lsb)
    else .ok (decimalText "$" (f.extract l), lsb)
  | cp0sel f sel =>
    match lookupMipsCp0selName opts.cp0selNames (f.extract l).toNat (sel.extract l).toNat with
    | some n => .ok ([.text n.name], lsb)
    | none => .ok (decimalText "$" (f.extract l) ++ decimalText "," (sel.extract l), lsb)
  | hwr f => (nameAt opts.hwrNames.toList (f.extract l)).map (·, lsb)
  | ArgFormat.lsb f => .ok (hexText (f.extract l + 32), f.extract l + 32)
  | msb f offset => .ok (hexText (f.extract l + offset - lsb + 1), lsb)
  | msbd f offset => .ok (hexText (f.extract l + offset + 1), lsb)
  | jump =>
    let target := ((pc + 4) &&& ~~~(0x0fffffff : Word)) ||| (TARGET.extract l <<< 2)
    .ok ([.address (if info.flavour = .unknown ∧ opp.name = "jalx" then target ||| 1 else target)], lsb)
  | branch => .ok ([.address (signedDelta l <<< 2 + pc + 4)], lsb)
  | nothing => .ok ([], lsb)

def printArg (lsb : Word) : ArgOperand → Except PrintFault (List Printed × Word)
  | .letter c =>
    match argFormat c with
    | some f => f.print opts info pc l opp lsb c
    | none => .error (.internalError ("# internal error, undefined modifier(" ++ String.ofList [c] ++ ")"))
  | .extension c =>
    match extensionFormat c with
    | some f => f.print opts info pc l opp lsb c
    | none => .error (.internalError ("# internal error, undefined extension sequence (+" ++ String.ofList [c] ++ ")"))
  | .incomplete => .error (.internalError "# internal error, incomplete extension sequence (+)")

/-- The operands one after the other, up to a fault. -/
def printArgs : Word → List ArgOperand → List Printed × Option PrintFault
  | _, [] => ([], none)
  | lsb, x :: xs =>
    match printArg opts info pc l opp lsb x with
    | .ok (ps, lsb) => ((ps ++ (printArgs lsb xs).1), (printArgs lsb xs).2)
    | .error (.internalError text) => ([.text text], some (.internalError text))
    | .error fault => ([], some fault)

/-- `print_insn_args`. -/
def printInsnArgs : List Printed × Option PrintFault := printArgs opts info pc l opp 0 (argOperands opp.args)

end Print

/-- `_print_insn_mips`, for a word at `pc`: what is printed, and what goes
wrong. The hash of entries is there if there has been a call before; `first`
says then whether that call skipped aliases. -/
def printInsn (archs : List ArchChoice) (mips_opcodes : List MipsOpcode) (first : Option Bool) (info : DisassembleInfo)
    (pc word : Word) : List Printed × Option PrintFault :=
  let opts := disOptions archs info
  match printInsnMips mips_opcodes (first.map (buildHash mips_opcodes))
    ⟨opts.noAliases, opts.isa, opts.processor, word⟩ with
  | some op =>
    if op.args = [] then ([.text op.name], none)
    else
      let args := printInsnArgs opts info pc word op
      ([.text op.name, .text " "] ++ args.1, args.2)
  | none => (hexText word, none)

theorem extract_le_mask (f : Field) (w : Word) : (f.extract w).toNat ≤ f.mask.toNat := by
  rw [Field.extract, BitVec.toNat_and]
  exact Nat.and_le_right

theorem nameAt_ok_iff {names : List String} {i : Word} : (∃ ps, nameAt names i = .ok ps) ↔ i.toNat < names.length := by
  rw [nameAt]
  cases h : names[i.toNat]? with
  | none => simpa using List.getElem?_eq_none_iff.mp h
  | some s => simpa using (List.getElem?_eq_some_iff.mp h).1

theorem map_ok_iff {α β ε : Type} {x : Except ε α} {g : α → β} : (∃ r, x.map g = .ok r) ↔ ∃ a, x = .ok a := by
  cases x <;> simp [Except.map]

/-- The array has 32 names, or 64 if it is the numeric one. -/
theorem GprNames.length_names (g : GprNames) : g.names.length = if g = numeric then 64 else 32 := by
  cases g <;> rfl

theorem GprNames.le_length_names (g : GprNames) : 32 ≤ g.names.length := by
  cases g <;> decide

theorem FprNames.length_names (g : FprNames) : g.names.length = 32 := by
  cases g <;> rfl

/-- No index can be beyond 31. -/
def ArgFormat.small : ArgFormat → Bool
  | gpr f | fpr f | cp0 f | cp0Number f | hwr f => decide (f.mask.toNat < 32)
  | gprEither f g => decide (f.mask.toNat < 32) && decide (g.mask.toNat < 32)
  | _ => true

section Bounds

variable {opts : DisOptions} {info : DisassembleInfo} {pc l : Word} {opp : MipsOpcode}

theorem nameAt_ok_of_mask {names : List String} (hn : 32 ≤ names.length) {f : Field} (hf : f.mask.toNat < 32) :
    ∃ ps, nameAt names (f.extract l) = .ok ps :=
  nameAt_ok_iff.mpr (Nat.lt_of_le_of_lt (extract_le_mask f l) (Nat.lt_of_lt_of_le hf hn))

/-- A name of a general register is printed if its field is in bounds. -/
theorem print_gpr_ok_iff (lsb : Word) (c : Char) (f : Field) :
    (∃ r, (ArgFormat.gpr f).print opts info pc l opp lsb c = .ok r) ↔
      (f.extract l).toNat < opts.gprNames.names.length := by
  rw [← nameAt_ok_iff]
  exact map_ok_iff

theorem print_ok_of_small (lsb : Word) (c : Char) {f : ArgFormat} (h : f.small = true) :
    ∃ r, f.print opts info pc l opp lsb c = .ok r := by
  have hgpr := opts.gprNames.le_length_names
  have hfpr := opts.fprNames.length_names.ge
  have hvec (v : Vector String 32) : 32 ≤ v.toList.length := by rw [Vector.length_toList]
  cases f with
  | gpr f => exact map_ok_iff.mpr (nameAt_ok_of_mask hgpr (of_decide_eq_true h))
  | fpr f => exact map_ok_iff.mpr (nameAt_ok_of_mask hfpr (of_decide_eq_true h))
  | cp0 f | hwr f => exact map_ok_iff.mpr (nameAt_ok_of_mask (hvec _) (of_decide_eq_true h))
  | gprZero => exact map_ok_iff.mpr (nameAt_ok_iff.mpr (Nat.lt_of_lt_of_le (by decide) hgpr))
  | cp0Number f =>
    rw [ArgFormat.print]
    split
    · exact map_ok_iff.mpr (nameAt_ok_of_mask (hvec _) (of_decide_eq_true h))
    · exact ⟨_, rfl⟩
  | cp0sel f sel =>
    rw [ArgFormat.print]
    split <;> exact ⟨_, rfl⟩
  | gprEither f g =>
    obtain ⟨hf, hg⟩ := Bool.and_eq_true_iff.mp h
    obtain ⟨a, ha⟩ := nameAt_ok_of_mask (l := l) hgpr (of_decide_eq_true hf)
    obtain ⟨b, hb⟩ := nameAt_ok_of_mask (l := l) hgpr (of_decide_eq_true hg)
    simp only [ArgFormat.print, ha, hb]
    split
    · exact ⟨_, rfl⟩
    · split
      · exact ⟨_, rfl⟩
      · split <;> exact ⟨_, rfl⟩
  | char | hex _ | decimal _ _ | condition _ | signed _ _ | lsb _ | msb _ _ | msbd _ _ | jump | branch | nothing =>
    exact ⟨_, rfl⟩

end Bounds

/-- The letters that `validate_mips_insn` knows and `print_insn_args` does not. -/
def unprintedLetters : List Char := ['>', 'F', 'I', 'L', 'f', 'l', 'v', 'x']

def unprintedExtensions : List Char := ['I', 'S']

theorem argFormat_isSome_iff : ∀ p ∈ operandTable, (argFormat p.1).isSome = true ↔ p.1 ∉ unprintedLetters := by decide

theorem extensionFormat_isSome_iff :
    ∀ p ∈ extensionTable, (extensionFormat p.1).isSome = true ↔ p.1 ∉ unprintedExtensions := by decide

/-- Two letters have a field of six bits. -/
theorem argFormat_small : ∀ p ∈ operandTable, p.1 ≠ 'D' → p.1 ≠ 'q' → (argFormat p.1).all ArgFormat.small = true := by
  decide

theorem extensionFormat_small : ∀ p ∈ extensionTable, (extensionFormat p.1).all ArgFormat.small = true := by decide

namespace ArgOperand

/-- An operand that `validate_mips_insn` knows. -/
def Admitted : ArgOperand → Prop
  | letter c => ∃ p ∈ operandTable, p.1 = c
  | extension c => ∃ p ∈ extensionTable, p.1 = c
  | incomplete => False

/-- An operand that is printed, from an array with `size` names: the letter has
a case, and its field of six bits, if it has one, is in bounds. -/
def Printable (size : Nat) (l : Word) : ArgOperand → Prop
  | letter c => c ∉ unprintedLetters ∧ (c = 'D' → (WDimm.extract l).toNat < size) ∧
    (c = 'q' → (RDspr.extract l).toNat < size)
  | extension c => c ∉ unprintedExtensions
  | incomplete => False

instance (size : Nat) (l : Word) : (x : ArgOperand) → Decidable (x.Printable size l)
  | letter _ => inferInstanceAs (Decidable (_ ∧ _ ∧ _))
  | extension _ => inferInstanceAs (Decidable (¬_))
  | incomplete => inferInstanceAs (Decidable False)

end ArgOperand

/-- The operands of a validated entry. -/
theorem admitted_of_usedBits {args : List Char} {used used' : Word} (h : usedBits args used = some used') :
    ∀ x ∈ argOperands args, x.Admitted := by
  induction args using argOperands.induct generalizing used with
  | case1 => nofun
  | case2 => exact nomatch h
  | case3 c args ih =>
    rw [usedBits] at h
    obtain ⟨fs, hfs, h⟩ := Option.bind_eq_some_iff.mp h
    intro x hx
    rw [argOperands] at hx
    rcases List.mem_cons.mp hx with rfl | hx
    · exact ⟨_, mem_of_lookup hfs, rfl⟩
    · exact ih h x hx
  | case4 c args h1 h2 ih =>
    rw [usedBits.eq_3 _ _ _ h2] at h
    obtain ⟨fs, hfs, h⟩ := Option.bind_eq_some_iff.mp h
    intro x hx
    rw [argOperands.eq_4 _ _ h1 h2] at hx
    rcases List.mem_cons.mp hx with rfl | hx
    · exact ⟨_, mem_of_lookup hfs, rfl⟩
    · exact ih h x hx

/-! ## Printing is safe -/

section Safe

variable {opts : DisOptions} {info : DisassembleInfo} {pc l : Word} {opp : MipsOpcode}

/-- One operand is printed without a fault if and only if it is printable. -/
theorem printArg_ok_iff (lsb : Word) {x : ArgOperand} (h : x.Admitted) :
    (∃ r, printArg opts info pc l opp lsb x = .ok r) ↔ x.Printable opts.gprNames.names.length l := by
  cases x with
  | incomplete => exact h.elim
  | extension c =>
    obtain ⟨p, hp, rfl⟩ := h
    have hsome := extensionFormat_isSome_iff p hp
    have hsmall := extensionFormat_small p hp
    simp only [printArg, ArgOperand.Printable, ← hsome]
    cases hf : extensionFormat p.1 with
    | none => simp
    | some f =>
      rw [hf] at hsmall
      exact ⟨fun _ => rfl, fun _ => print_ok_of_small lsb p.1 hsmall⟩
  | letter c =>
    obtain ⟨p, hp, rfl⟩ := h
    have hsome := argFormat_isSome_iff p hp
    have hsmall := argFormat_small p hp
    simp only [printArg, ArgOperand.Printable, ← hsome]
    by_cases hD : p.1 = 'D'
    · rw [hD]
      refine (print_gpr_ok_iff lsb 'D' WDimm).trans ?_
      simp [show (argFormat 'D').isSome = true from rfl]
    · by_cases hq : p.1 = 'q'
      · rw [hq]
        refine (print_gpr_ok_iff lsb 'q' RDspr).trans ?_
        simp [show (argFormat 'q').isSome = true from rfl]
      · cases hf : argFormat p.1 with
        | none => simp
        | some f =>
          have hs := hsmall hD hq
          rw [hf] at hs
          exact ⟨fun _ => ⟨rfl, fun h => absurd h hD, fun h => absurd h hq⟩, fun _ => print_ok_of_small lsb p.1 hs⟩

/-- A register operand of `printInsnArg` is printed by its name. -/
theorem printArg_register (lsb : Word) {c : Char} {n : Nat} (h : printInsnArg pc l c = some (.register n)) {s : String}
    (hs : opts.gprNames.names[n]? = some s) : printArg opts info pc l opp lsb (.letter c) = .ok ([.text s], lsb) := by
  have hname {f : Field} (hf : (f.extract l).toNat = n) :
      (ArgFormat.gpr f).print opts info pc l opp lsb c = .ok ([.text s], lsb) := by
    rw [ArgFormat.print, nameAt, hf, hs]
    rfl
  unfold printInsnArg at h
  split at h <;> first
    | exact hname (ArgValue.register.inj (Option.some.inj h))
    | cases h

theorem printArgs_safe_iff {xs : List ArgOperand} (h : ∀ x ∈ xs, x.Admitted) (lsb : Word) :
    (printArgs opts info pc l opp lsb xs).2 = none ↔ ∀ x ∈ xs, x.Printable opts.gprNames.names.length l := by
  induction xs generalizing lsb with
  | nil => exact ⟨fun _ => List.forall_mem_nil _, fun _ => rfl⟩
  | cons x xs ih =>
    have hfirst : (∃ r, printArg opts info pc l opp lsb x = .ok r) ↔ x.Printable opts.gprNames.names.length l :=
      printArg_ok_iff lsb (h x (.head _))
    rw [List.forall_mem_cons, ← hfirst, printArgs]
    cases hx : printArg opts info pc l opp lsb x with
    | error fault => cases fault <;> simp
    | ok r => simpa using ih (fun y hy => h y (.tail _ hy)) r.2

end Safe

/-- A table that `validate_mips_insn` accepts. -/
structure ValidTable where
  opcodes : List MipsOpcode
  valid : ∀ op ∈ opcodes, op.isMacro = false → op.validate = true

section Session

variable (archs : List ArchChoice) (T : ValidTable) (first : Option Bool) (info : DisassembleInfo) (pc word : Word)

/-- The entry that a word is printed as. -/
def printedEntry : Option MipsOpcode :=
  let opts := disOptions archs info
  printInsnMips T.opcodes (first.map (buildHash T.opcodes)) ⟨opts.noAliases, opts.isa, opts.processor, word⟩

/-- It is an entry of the table, and validated. -/
theorem validate_printedEntry {op : MipsOpcode} (h : printedEntry archs T first info word = some op) :
    op.validate = true := by
  have hfound := List.find?_some h
  simp only [MipsOpcode.isFound, MipsOpcode.isSkipped, Bool.and_eq_true, Bool.not_eq_true',
    Bool.or_eq_false_iff] at hfound
  refine T.valid op ?_ hfound.1.1.1
  have hmem := List.mem_of_find?_eq_some h
  cases first <;> exact (List.dropWhile_suffix _).subset hmem

/-- A word is disassembled without an internal error and without a register
name from outside of an array, if and only if every operand of its entry is
printable: the letter is none that only the validator knows, and the field of a
`D` or a `q` is below 32, or the names are the 64 numeric ones. -/
theorem printInsn_safe_iff : (printInsn archs T.opcodes first info pc word).2 = none ↔
    ∀ op, printedEntry archs T first info word = some op → ∀ x ∈ argOperands op.args,
      x.Printable (if (disOptions archs info).gprNames = .numeric then 64 else 32) word := by
  rw [← GprNames.length_names]
  show (match printedEntry archs T first info word with
    | some op => _
    | none => _ : List Printed × Option PrintFault).2 = none ↔ _
  cases h : printedEntry archs T first info word with
  | none => exact ⟨fun _ _ => nofun, fun _ => rfl⟩
  | some op =>
    have hv := validate_printedEntry archs T first info word h
    simp only [MipsOpcode.validate, Bool.and_eq_true, beq_iff_eq] at hv
    have hsafe : (printArgs (disOptions archs info) info pc word op 0 (argOperands op.args)).2 = none ↔ _ :=
      printArgs_safe_iff (admitted_of_usedBits hv.2) 0
    have hop (Q : MipsOpcode → Prop) : (∀ op', some op = some op' → Q op') ↔ Q op :=
      ⟨fun h => h op rfl, fun h op' he => Option.some.inj he ▸ h⟩
    rw [hop, ← hsafe]
    simp only
    split
    · rename_i hnil
      rw [hnil]
      exact ⟨fun _ => rfl, fun _ => rfl⟩
    · rfl

end Session

/-- `mvui`, and an entry with a letter that is not printed. -/
def mvuiTable : ValidTable where
  opcodes := [
    { name := "mvui", args := ['q', ',', 'i'], matchBits := 0x70240000, mask := 0xF03F0000, membership := 0x200 },
    { name := "bgt", args := ['s', ',', '>'], matchBits := 0xA0000000, mask := 0xFFFC1FFF, membership := 0x200 }]
  valid := by decide

/-- The architecture of Rigel. -/
def mipsrigel32 : ArchChoice where
  name := "mipsrigel32"
  bfdMachValid := true
  bfdMach := 1983
  processor := 1983
  isa := 0x200
  cp0Names := numericRegNames
  cp0selNames := []
  hwrNames := numericRegNames

/-- The field of `mvui` is 32 in one word, and there are 32 names; another word
is printed as an internal error. -/
theorem printInsn_not_safe :
    (printInsn [mipsrigel32] mvuiTable.opcodes none { mach := 1983 } 0 0x78240000).2 = some (.outOfBounds 32 32) ∧
      (printInsn [mipsrigel32] mvuiTable.opcodes none { mach := 1983 } 0 0xA0000000).2 =
        some (.internalError "# internal error, undefined modifier(>)") := by
  decide +kernel

end Rigel
