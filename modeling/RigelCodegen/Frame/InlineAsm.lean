import RigelCodegen.Frame.Elimination

/-!
# Memory operands of inline assembly

An `m` operand of an inline assembly statement is selected
(`SelectInlineAsmMemoryOperand`), has its frame index replaced if it has one
(`eliminateFrameIndex`) and is printed as a base and an offset
(`PrintAsmMemoryOperand`), which are two operands of the instruction. Selection
makes only one operand for an address that is computed, and every offset of
more than 16 bits goes through the same register, so the text is not always
that of the address (`memOperands_denote_iff`).
-/

namespace Rigel

open Word32

/-- An operand of an `INLINEASM` instruction. -/
inductive InlineOperand where
  | symbol (name : String)
  | reg (r : Reg)
  | imm (i : Int)
  | frameIndex (fi : Int)
  | metadata
  deriving DecidableEq, Repr

namespace InlineOperand

def isFI : InlineOperand → Bool
  | frameIndex _ => true
  | _ => false

/-- `getImm`, of an immediate operand. -/
def getImm : InlineOperand → Int
  | imm i => i
  | _ => 0

/-- `getIndex`, of a frame index. -/
def getIndex : InlineOperand → Int
  | frameIndex fi => fi
  | _ => 0

end InlineOperand

/-- `Kind_Mem`. -/
def kindMem : Nat := 4

/-- `getFlagWord`. -/
def getFlagWord (kind numOps : Nat) : Nat := kind ||| (numOps <<< 3)

/-- `getKind`. -/
def getKind (flags : Nat) : Nat := flags &&& 7

/-- `isMemKind`. -/
def isMemKind (flags : Nat) : Bool := getKind flags == kindMem

/-- `getNumOperandRegisters`. -/
def getNumOperandRegisters (flags : Nat) : Nat := (flags &&& 0xFFFF) >>> 3

/-- The node of the address of a memory operand. -/
inductive AsmAddress where
  | constant (c : Word)
  | constantPool
  | globalAddress
  | frameIndex (fi : Int)
  | externalSymbol
  | globalTLSAddress
  | constantFP
  /-- Any other node, with the register that its value is in. -/
  | value (r : Reg)
  deriving DecidableEq, Repr

/-- An operand that is no memory operand; its flag word says how many operands
of the instruction follow. -/
structure OtherAsmArg where
  flags : Nat
  operands : List InlineOperand
  not_mem : isMemKind flags = false
  count : getNumOperandRegisters flags = operands.length
  not_frameIndex : ∀ o ∈ operands, o.isFI = false

inductive AsmArg where
  | mem (a : AsmAddress)
  | other (o : OtherAsmArg)

/-- An inline assembly statement. -/
structure AsmStatement where
  asmStr : String
  isAlignStack : Bool := false
  args : List AsmArg
  /-- Whether there is a `!srcloc`. -/
  srcloc : Bool := false

/-- `SelectInlineAsmMemoryOperand`: the operands that it makes, or nothing if it
does not match. `SelectAddr` has the offset before the base. -/
def selectInlineAsmMemoryOperand (constraintCode : Char) (op : AsmAddress) : Option (List InlineOperand) :=
  if constraintCode = 'm' then
    match op with
    | .constant _ | .constantPool | .globalAddress => none
    | .frameIndex fi => some [.imm 0, .frameIndex fi]
    | .externalSymbol | .globalTLSAddress | .constantFP => none
    | .value r => some [.reg r]
  else none

/-- One operand of `SelectInlineAsmMemoryOperands`, behind its flag word. -/
def AsmArg.select : AsmArg → Option (List InlineOperand)
  | mem a =>
    (selectInlineAsmMemoryOperand 'm' a).map fun selOps => .imm (getFlagWord kindMem selOps.length) :: selOps
  | other o => some (.imm o.flags :: o.operands)

/-- `SelectInlineAsmMemoryOperands`; nothing where it is a fatal error. -/
def selectInlineAsmMemoryOperands (args : List AsmArg) : Option (List InlineOperand) :=
  (args.mapM AsmArg.select).map List.flatten

/-- The operands of the `INLINEASM` instruction that the instruction emitter
makes. -/
def emitInlineAsm (st : AsmStatement) : Option (List InlineOperand) :=
  (selectInlineAsmMemoryOperands st.args).map fun ops =>
    [.symbol st.asmStr, .imm st.isAlignStack.toNat] ++ ops ++ if st.srcloc then [.metadata] else []

/-- `eliminateFrameIndex`, of an `INLINEASM` instruction: what it inserts, and
the operands that it leaves. -/
def eliminateFrameIndexInlineAsm (mf : MachineFunction) (ops : List InlineOperand) :
    List MachineInstr × List InlineOperand :=
  match ops.findIdx? (·.isFI) with
  | none => ([], ops)
  | some fiOperandNum =>
    let frameIndex := (ops[fiOperandNum]?.map (·.getIndex)).getD 0
    let offsetOperandNum := fiOperandNum - 1
    let imm := (ops[offsetOperandNum]?.map (·.getImm)).getD 0
    let offset := toInt32 (frameOffset mf frameIndex + imm)
    let w : Word := BitVec.ofInt 32 offset
    if isInt16 offset then
      ([], (ops.set fiOperandNum (.reg (getFrameRegister mf))).set offsetOperandNum (.imm offset))
    else
      ([⟨.mvui, [.reg .AT, .imm (w.sshiftRight 16).toInt]⟩,
        ⟨.ori, [.reg .AT, .reg .AT, .imm (w &&& 0xFFFF).toInt]⟩,
        ⟨.add, [.reg .AT, .reg .SP, .reg .AT]⟩],
        (ops.set fiOperandNum (.reg .AT)).set offsetOperandNum (.imm 0))

/-- `replaceFrameIndices`, of one instruction: as often as it has frame
indices. -/
def replaceFrameIndices (mf : MachineFunction) : Nat → List InlineOperand → List MachineInstr × List InlineOperand
  | 0, ops => ([], ops)
  | n + 1, ops =>
    let r := eliminateFrameIndexInlineAsm mf ops
    let rest := replaceFrameIndices mf n r.2
    (r.1 ++ rest.1, rest.2)

/-- The text of an operand. -/
inductive OperandText where
  | reg (r : Reg)
  | num (n : Int)
  | symbol (name : String)
  deriving DecidableEq, Repr

/-- `printOperand`, of an `INLINEASM` instruction. -/
def InlineOperand.print : InlineOperand → Option OperandText
  | reg r => some (.reg r)
  | imm i => some (.num (BitVec.ofInt 16 i).toInt)
  | symbol name => some (.symbol name)
  | frameIndex _ | metadata => none

/-- `printMemOperand`: the base, and the offset. -/
def printMemOperand (ops : List InlineOperand) (opNum : Nat) : Option (OperandText × OperandText) :=
  (ops[opNum + 1]?.bind InlineOperand.print).bind fun base =>
    (ops[opNum]?.bind InlineOperand.print).map fun offset => (base, offset)

/-- `PrintAsmMemoryOperand`. -/
def printAsmMemoryOperand (ops : List InlineOperand) (opNo : Nat) (extraCode : Option Char) :
    Option (OperandText × OperandText) :=
  if extraCode.isSome then none else printMemOperand ops opNo

/-- The flag word that is operand `opNo`. -/
def flagsAt (ops : List InlineOperand) (opNo : Nat) : Nat := ((ops[opNo]?.map InlineOperand.getImm).getD 0).toNat

/-- The search for the flag word of an operand in `EmitInlineAsm`. -/
def findFlags (ops : List InlineOperand) : Nat → Nat → Option Nat
  | 0, opNo => if opNo < ops.length then some opNo else none
  | val + 1, opNo =>
    if opNo < ops.length then findFlags ops val (opNo + (getNumOperandRegisters (flagsAt ops opNo) + 1)) else none

/-- What `EmitInlineAsm` prints for operand `val`, a memory operand. -/
def emitAsmMemoryOperand (ops : List InlineOperand) (val : Nat) : Option (OperandText × OperandText) :=
  if ops.length - 1 ≤ val then none
  else
    (findFlags ops val 2).bind fun opNo =>
      if isMemKind (flagsAt ops opNo) then printAsmMemoryOperand ops (opNo + 1) none else none

/-! ## What is meant -/

/-- The address that a base and an offset stand for. -/
def textAddress (s : State) : OperandText × OperandText → Option Word
  | (.reg base, .num offset) => some (s.reg base + BitVec.ofInt 32 offset)
  | _ => none

/-- The address of a memory operand, where the statement is. -/
def AsmAddress.address {mf : MachineFunction} (p : FramePointers mf) (s : State) : AsmAddress → Option Word
  | frameIndex fi => some (p.base + BitVec.ofInt 32 (trueOffset mf fi))
  | value r => some (s.reg r)
  | constant c => some c
  | _ => none

/-- The code for the frame indices of a statement runs, and after it the text of
every memory operand stands for the operand's address. -/
def MemOperandsDenote (mf : MachineFunction) (p : FramePointers mf) (st : AsmStatement) : Prop :=
  ∃ ops, emitInlineAsm st = some ops ∧ ∀ s, p.Holds s →
    ∃ s', run (replaceFrameIndices mf (ops.countP (·.isFI)) ops).1 s = some s' ∧
      ∀ args a args', st.args = args ++ .mem a :: args' →
        ∃ text address,
          emitAsmMemoryOperand (replaceFrameIndices mf (ops.countP (·.isFI)) ops).2 args.length = some text ∧
          a.address p s = some address ∧ textAddress s' text = some address

/-- A flag word that counts the operands behind it. -/
def Flagged (block : List InlineOperand) : Prop :=
  ∃ (flags : Nat) (ops : List InlineOperand), block = .imm flags :: ops ∧ getNumOperandRegisters flags = ops.length

theorem flagsAt_append (pre : List InlineOperand) (flags : Nat) (ops : List InlineOperand) :
    flagsAt (pre ++ .imm flags :: ops) pre.length = flags := by
  simp [flagsAt, InlineOperand.getImm]

/-- The search goes from flag word to flag word. -/
theorem findFlags_flatten (pre : List InlineOperand) {blocks : List (List InlineOperand)}
    (h : ∀ b ∈ blocks, Flagged b) (o : InlineOperand) (post : List InlineOperand) :
    findFlags (pre ++ (blocks.flatten ++ o :: post)) blocks.length pre.length =
      some (pre ++ blocks.flatten).length := by
  induction blocks generalizing pre with
  | nil => simp [findFlags]
  | cons b blocks ih =>
    obtain ⟨flags, ops, rfl, hlen⟩ := h b (.head _)
    rw [List.length_cons, findFlags, if_pos (by simp), List.flatten_cons, List.cons_append, List.cons_append,
      flagsAt_append, hlen]
    have hnext := ih (pre ++ .imm flags :: ops) fun b hb => h b (.tail _ hb)
    simpa only [List.append_assoc, List.cons_append, List.length_append, List.length_cons] using hnext

theorem length_le_flatten {blocks : List (List InlineOperand)} (h : ∀ b ∈ blocks, Flagged b) :
    blocks.length ≤ blocks.flatten.length := by
  induction blocks with
  | nil => exact Nat.zero_le _
  | cons b blocks ih =>
    obtain ⟨flags, ops, rfl, -⟩ := h b (.head _)
    have := ih fun b hb => h b (.tail _ hb)
    simp only [List.length_cons, List.flatten_cons, List.length_append]
    omega

/-- The text of a memory operand: the two operands behind its flag word, whatever
the second one is. -/
theorem emitAsmMemoryOperand_append {pre : List InlineOperand} (hpre : pre.length = 2)
    {blocks : List (List InlineOperand)} (h : ∀ b ∈ blocks, Flagged b) {flags : Nat} (hmem : isMemKind flags = true)
    (o : InlineOperand) (post : List InlineOperand) :
    emitAsmMemoryOperand (pre ++ (blocks.flatten ++ .imm flags :: o :: post)) blocks.length =
      (post.head?.bind InlineOperand.print).bind fun base => o.print.map fun offset => (base, offset) := by
  have hfind := findFlags_flatten pre h (.imm flags) (o :: post)
  have hle := length_le_flatten h
  rw [hpre] at hfind
  have hlen : ¬(pre ++ (blocks.flatten ++ .imm flags :: o :: post)).length - 1 ≤ blocks.length := by
    simp only [List.length_append, List.length_cons]
    omega
  have hget (i : Nat) : (pre ++ blocks.flatten ++ .imm flags :: o :: post)[(pre ++ blocks.flatten).length + i]? =
      (.imm flags :: o :: post : List InlineOperand)[i]? := by
    rw [List.getElem?_append_right (Nat.le_add_right ..), Nat.add_sub_cancel_left]
  calc emitAsmMemoryOperand (pre ++ (blocks.flatten ++ .imm flags :: o :: post)) blocks.length
      = printAsmMemoryOperand (pre ++ blocks.flatten ++ .imm flags :: o :: post)
          ((pre ++ blocks.flatten).length + 1) none := by
        rw [emitAsmMemoryOperand, if_neg hlen, hfind, Option.bind_some, ← List.append_assoc, flagsAt_append, hmem,
          if_pos rfl]
    _ = printMemOperand (pre ++ blocks.flatten ++ .imm flags :: o :: post) ((pre ++ blocks.flatten).length + 1) :=
        if_neg (by decide)
    _ = (post.head?.bind InlineOperand.print).bind fun base => o.print.map fun offset => (base, offset) := by
        rw [printMemOperand, Nat.add_assoc, hget, hget]
        simp only [List.getElem?_cons_succ, List.getElem?_cons_zero, Option.bind_some, List.head?_eq_getElem?]

section Eliminate

variable {mf : MachineFunction}

/-- The offset of a frame object goes through `AT`. -/
def far (mf : MachineFunction) (fi : Int) : Bool := !isInt16 (frameOffset mf fi)

/-- The code for the offset of a frame object. -/
def frameCode (mf : MachineFunction) (fi : Int) : List MachineInstr :=
  if far mf fi then
    [⟨.mvui, [.reg .AT, .imm ((BitVec.ofInt 32 (frameOffset mf fi)).sshiftRight 16).toInt]⟩,
      ⟨.ori, [.reg .AT, .reg .AT, .imm (BitVec.ofInt 32 (frameOffset mf fi) &&& 0xFFFF).toInt]⟩,
      ⟨.add, [.reg .AT, .reg .SP, .reg .AT]⟩]
  else []

/-- The offset and the base in place of a frame object. -/
def frameOperands (mf : MachineFunction) (fi : Int) : List InlineOperand :=
  if far mf fi then [.imm 0, .reg .AT] else [.imm (frameOffset mf fi), .reg (getFrameRegister mf)]

theorem length_frameOperands (fi : Int) : (frameOperands mf fi).length = 2 := by
  unfold frameOperands
  split <;> rfl

theorem findIdx?_frameIndex {pre : List InlineOperand} (h : ∀ o ∈ pre, o.isFI = false) (fi : Int)
    (post : List InlineOperand) :
    (pre ++ .imm 0 :: .frameIndex fi :: post).findIdx? (·.isFI) = some (pre.length + 1) := by
  have hpre : pre.findIdx? (·.isFI) = none := List.findIdx?_eq_none_iff.mpr h
  rw [List.findIdx?_append, hpre, Option.none_or]
  simp [List.findIdx?_cons, InlineOperand.isFI, Nat.add_comm]

/-- The operand before the frame index is its offset. -/
theorem eliminateFrameIndexInlineAsm_append (mf : MachineFunction) {pre : List InlineOperand}
    (h : ∀ o ∈ pre, o.isFI = false) (fi : Int) (post : List InlineOperand) :
    eliminateFrameIndexInlineAsm mf (pre ++ .imm 0 :: .frameIndex fi :: post) =
      (frameCode mf fi, pre ++ (frameOperands mf fi ++ post)) := by
  have hset (o o' : InlineOperand) :
      ((pre ++ .imm 0 :: .frameIndex fi :: post).set (pre.length + 1) o).set pre.length o' =
        pre ++ o' :: o :: post := by
    rw [List.set_append_right _ _ (by omega), List.set_append_right _ _ (Nat.le_refl _), Nat.add_sub_cancel_left,
      Nat.sub_self]
    rfl
  have hidx : (pre ++ .imm 0 :: .frameIndex fi :: post)[pre.length + 1]? = some (.frameIndex fi) := by
    rw [List.getElem?_append_right (by omega), Nat.add_sub_cancel_left]
    rfl
  have himm : (pre ++ .imm 0 :: .frameIndex fi :: post)[pre.length]? = some (.imm 0) := by
    rw [List.getElem?_append_right (Nat.le_refl _), Nat.sub_self]
    rfl
  rw [eliminateFrameIndexInlineAsm, findIdx?_frameIndex h]
  simp only [Nat.add_sub_cancel, hidx, himm, Option.map_some, Option.getD_some, InlineOperand.getIndex,
    InlineOperand.getImm, Int.add_zero, toInt32_frameOffset, hset, frameCode, frameOperands, far]
  by_cases hn : isInt16 (frameOffset mf fi) = true
  · simp only [hn, if_true, Bool.not_true, Bool.false_eq_true, if_false]
    rfl
  · simp only [hn, Bool.not_false, if_true, Bool.false_eq_true, if_false]
    rfl

/-- `AT` has the address of the last object whose offset goes through it. -/
theorem run_frameCode (fis : List Int) (s : State) :
    run (fis.flatMap (frameCode mf)) s = some (((fis.filter (far mf)).getLast?).elim s fun fi =>
      s.setReg .AT (s.reg .SP + BitVec.ofInt 32 (frameOffset mf fi))) := by
  induction fis generalizing s with
  | nil => rfl
  | cons fi fis ih =>
    rw [List.flatMap_cons, run_append]
    by_cases hf : far mf fi = true
    · have hcode : run (frameCode mf fi) s =
          some (s.setReg .AT (s.reg .SP + BitVec.ofInt 32 (frameOffset mf fi))) := by
        rw [frameCode, if_pos hf, run_mvui_ori (by decide), run_cons, exec_add, Option.bind_some, run_nil]
        simp
      rw [hcode, Option.bind_some, ih, List.filter_cons_of_pos hf, List.getLast?_cons]
      cases (fis.filter (far mf)).getLast? <;> simp
    · rw [frameCode, if_neg hf, run_nil, Option.bind_some, ih, List.filter_cons_of_neg hf]

/-- One operand, with its frame index replaced. -/
def AsmArg.resolve (mf : MachineFunction) : AsmArg → List InlineOperand
  | mem (.frameIndex fi) => .imm (getFlagWord kindMem 2) :: frameOperands mf fi
  | mem (.value r) => [.imm (getFlagWord kindMem 1), .reg r]
  | mem _ => []
  | other o => .imm o.flags :: o.operands

/-- The frame index of an operand, if it is a frame object. -/
def AsmArg.frameIndex? : AsmArg → Option Int
  | mem (.frameIndex fi) => some fi
  | _ => none

/-- What is selected is the flag word, offset and frame index of an object, or has
no frame index. -/
theorem AsmArg.select_cases (mf : MachineFunction) {arg : AsmArg} {b : List InlineOperand} (h : arg.select = some b) :
    (∃ fi, arg = .mem (.frameIndex fi) ∧ b = [.imm (getFlagWord kindMem 2), .imm 0, .frameIndex fi]) ∨
      arg.frameIndex? = none ∧ arg.resolve mf = b ∧ ∀ o ∈ b, o.isFI = false := by
  cases arg with
  | mem a =>
    cases a with
    | frameIndex fi => exact .inl ⟨fi, rfl, (Option.some.inj h).symm⟩
    | value r =>
      obtain rfl : [.imm (getFlagWord kindMem 1), .reg r] = b := Option.some.inj h
      exact .inr ⟨rfl, rfl, by simp [InlineOperand.isFI]⟩
    | _ => cases h
  | other o =>
    obtain rfl : .imm o.flags :: o.operands = b := Option.some.inj h
    exact .inr ⟨rfl, rfl, by simpa [InlineOperand.isFI] using o.not_frameIndex⟩

/-- Every operand starts with a flag word that counts the rest. -/
theorem AsmArg.flagged_resolve (mf : MachineFunction) {arg : AsmArg} (h : arg.select.isSome = true) :
    Flagged (arg.resolve mf) := by
  cases arg with
  | mem a =>
    cases a with
    | frameIndex fi =>
      refine ⟨_, _, rfl, ?_⟩
      rw [length_frameOperands]
      decide
    | value r => exact ⟨_, _, rfl, (by decide : getNumOperandRegisters (getFlagWord kindMem 1) = 1)⟩
    | _ => cases h
  | other o => exact ⟨_, _, rfl, o.count⟩

/-- The frame indices are replaced from the first to the last. -/
theorem replaceFrameIndices_flatten {args : List AsmArg} {blocks : List (List InlineOperand)}
    (hsel : args.mapM AsmArg.select = some blocks) {pre : List InlineOperand} (hpre : ∀ o ∈ pre, o.isFI = false)
    (post : List InlineOperand) :
    replaceFrameIndices mf (blocks.flatten.countP (·.isFI)) (pre ++ (blocks.flatten ++ post)) =
      ((args.filterMap AsmArg.frameIndex?).flatMap (frameCode mf),
        pre ++ ((args.map (AsmArg.resolve mf)).flatten ++ post)) := by
  induction args generalizing pre blocks with
  | nil =>
    obtain rfl : [] = blocks := Option.some.inj hsel
    rfl
  | cons arg args ih =>
    rw [List.mapM_cons] at hsel
    obtain ⟨b, hb, hsel⟩ := Option.bind_eq_some_iff.mp hsel
    obtain ⟨bs, hbs, hsel⟩ := Option.bind_eq_some_iff.mp hsel
    obtain rfl : b :: bs = blocks := Option.some.inj hsel
    rw [List.flatten_cons, List.countP_append, List.map_cons, List.flatten_cons]
    rcases arg.select_cases mf hb with ⟨fi, rfl, rfl⟩ | ⟨hfi, rfl, hno⟩
    · have hpre' : ∀ o ∈ pre ++ [.imm (getFlagWord kindMem 2)], o.isFI = false := by
        intro o ho
        rcases List.mem_append.mp ho with ho | ho
        · exact hpre o ho
        · rw [List.mem_singleton.mp ho]
          rfl
      have hoperands : ∀ o ∈ pre ++ [.imm (getFlagWord kindMem 2)] ++ frameOperands mf fi, o.isFI = false := by
        intro o ho
        rcases List.mem_append.mp ho with ho | ho
        · exact hpre' o ho
        · unfold frameOperands at ho
          split at ho <;> simp only [List.mem_cons, List.not_mem_nil, or_false] at ho <;>
            rcases ho with rfl | rfl <;> rfl
      have hstep := eliminateFrameIndexInlineAsm_append mf hpre' fi (bs.flatten ++ post)
      have hrest := ih hbs hoperands
      simp only [List.append_assoc, List.cons_append, List.nil_append] at hstep hrest
      have hcount : List.countP (·.isFI) [.imm (getFlagWord kindMem 2), .imm 0, InlineOperand.frameIndex fi] = 1 :=
        rfl
      rw [hcount, Nat.add_comm, replaceFrameIndices]
      simp only [List.cons_append, List.nil_append, hstep, hrest, List.filterMap_cons, AsmArg.frameIndex?,
        List.flatMap_cons, AsmArg.resolve, List.append_assoc]
    · have hcount : (arg.resolve mf).countP (·.isFI) = 0 := by
        rw [List.countP_eq_zero]
        intro o ho
        rw [hno o ho]
        decide
      have hpre' : ∀ o ∈ pre ++ arg.resolve mf, o.isFI = false := fun o ho =>
        (List.mem_append.mp ho).elim (hpre o) (hno o)
      have hrest := ih hbs hpre'
      rw [hcount, Nat.zero_add, List.filterMap_cons_none hfi]
      simpa only [List.append_assoc] using hrest

theorem isSome_of_mapM {args : List AsmArg} {blocks : List (List InlineOperand)}
    (h : args.mapM AsmArg.select = some blocks) {arg : AsmArg} (harg : arg ∈ args) : arg.select.isSome = true := by
  induction args generalizing blocks with
  | nil => cases harg
  | cons x xs ih =>
    rw [List.mapM_cons] at h
    obtain ⟨b, hb, h⟩ := Option.bind_eq_some_iff.mp h
    obtain ⟨bs, hbs, -⟩ := Option.bind_eq_some_iff.mp h
    rcases List.mem_cons.mp harg with rfl | harg
    · rw [hb]
      rfl
    · exact ih hbs harg

theorem mapM_of_isSome {args : List AsmArg} (h : ∀ arg ∈ args, arg.select.isSome = true) :
    ∃ blocks, args.mapM AsmArg.select = some blocks := by
  induction args with
  | nil => exact ⟨[], rfl⟩
  | cons arg args ih =>
    obtain ⟨b, hb⟩ := Option.isSome_iff_exists.mp (h arg (.head _))
    obtain ⟨bs, hbs⟩ := ih fun x hx => h x (.tail _ hx)
    exact ⟨b :: bs, by rw [List.mapM_cons, hb, hbs]; rfl⟩

/-- The instruction after elimination, and the code before it. -/
theorem replaceFrameIndices_emitInlineAsm (mf : MachineFunction) {st : AsmStatement} {ops : List InlineOperand}
    (h : emitInlineAsm st = some ops) :
    (∀ arg ∈ st.args, arg.select.isSome = true) ∧
      ∃ pre post : List InlineOperand, pre.length = 2 ∧ replaceFrameIndices mf (ops.countP (·.isFI)) ops =
        ((st.args.filterMap AsmArg.frameIndex?).flatMap (frameCode mf),
          pre ++ ((st.args.map (AsmArg.resolve mf)).flatten ++ post)) := by
  obtain ⟨flat, hflat, rfl⟩ := Option.map_eq_some_iff.mp h
  obtain ⟨blocks, hblocks, rfl⟩ := Option.map_eq_some_iff.mp hflat
  refine ⟨fun arg harg => ?_, [.symbol st.asmStr, .imm st.isAlignStack.toNat], if st.srcloc then [.metadata] else [],
    rfl, ?_⟩
  · exact isSome_of_mapM hblocks harg
  · have hpre : ∀ o ∈ [InlineOperand.symbol st.asmStr, .imm st.isAlignStack.toNat], o.isFI = false := by
      simp [InlineOperand.isFI]
    have hpost : (if st.srcloc then [InlineOperand.metadata] else []).countP (·.isFI) = 0 := by
      split <;> rfl
    rw [← replaceFrameIndices_flatten hblocks hpre, List.append_assoc, List.countP_append, List.countP_append, hpost,
      List.countP_eq_zero.mpr fun o ho => by rw [hpre o ho]; decide, Nat.zero_add, Nat.add_zero]

/-- The text of a frame object. -/
def frameText (mf : MachineFunction) (fi : Int) : OperandText × OperandText :=
  if far mf fi then (.reg .AT, .num 0)
  else (.reg (getFrameRegister mf), .num (BitVec.ofInt 16 (frameOffset mf fi)).toInt)

/-- What is printed for an operand of two operands, of which the second may be
that of something else. -/
theorem emit_resolve {args : List AsmArg} (h : ∀ arg ∈ args, arg.select.isSome = true) {pre : List InlineOperand}
    (hpre : pre.length = 2) {arg : AsmArg} {flags : Nat} {o : InlineOperand} {rest : List InlineOperand}
    (harg : arg.resolve mf = .imm flags :: o :: rest) (hmem : isMemKind flags = true) (args' : List AsmArg)
    (post : List InlineOperand) :
    ∃ post', emitAsmMemoryOperand (pre ++ (((args ++ arg :: args').map (AsmArg.resolve mf)).flatten ++ post))
        args.length =
      ((rest ++ post').head?.bind InlineOperand.print).bind fun base => o.print.map fun offset => (base, offset) := by
  have hflagged : ∀ b ∈ args.map (AsmArg.resolve mf), Flagged b := by
    intro b hb
    obtain ⟨x, hx, rfl⟩ := List.mem_map.mp hb
    exact x.flagged_resolve mf (h x hx)
  have hemit := emitAsmMemoryOperand_append hpre hflagged hmem o
    (rest ++ ((args'.map (AsmArg.resolve mf)).flatten ++ post))
  refine ⟨(args'.map (AsmArg.resolve mf)).flatten ++ post, ?_⟩
  rw [← hemit, List.length_map, List.map_append, List.map_cons, List.flatten_append, List.flatten_cons, harg]
  simp only [List.cons_append, List.append_assoc]

/-- What is printed for a frame object. -/
theorem emit_frameIndex {args : List AsmArg} (h : ∀ arg ∈ args, arg.select.isSome = true) {pre : List InlineOperand}
    (hpre : pre.length = 2) (fi : Int) (args' : List AsmArg) (post : List InlineOperand) :
    emitAsmMemoryOperand
      (pre ++ (((args ++ .mem (.frameIndex fi) :: args').map (AsmArg.resolve mf)).flatten ++ post)) args.length =
      some (frameText mf fi) := by
  unfold frameText
  by_cases hf : far mf fi = true
  · have harg : (AsmArg.mem (.frameIndex fi)).resolve mf = [.imm (getFlagWord kindMem 2), .imm 0, .reg .AT] := by
      rw [AsmArg.resolve, frameOperands, if_pos hf]
    obtain ⟨post', hemit⟩ := emit_resolve h hpre harg (by decide) args' post
    rw [hemit, if_pos hf]
    rfl
  · have harg : (AsmArg.mem (.frameIndex fi)).resolve mf =
        [.imm (getFlagWord kindMem 2), .imm (frameOffset mf fi), .reg (getFrameRegister mf)] := by
      rw [AsmArg.resolve, frameOperands, if_neg hf]
    obtain ⟨post', hemit⟩ := emit_resolve h hpre harg (by decide) args' post
    rw [hemit, if_neg hf]
    rfl

/-- For a computed address, the offset is a register. -/
theorem emit_value {args : List AsmArg} (h : ∀ arg ∈ args, arg.select.isSome = true) {pre : List InlineOperand}
    (hpre : pre.length = 2) (r : Reg) (args' : List AsmArg) (post : List InlineOperand)
    {text : OperandText × OperandText}
    (htext : emitAsmMemoryOperand
      (pre ++ (((args ++ .mem (.value r) :: args').map (AsmArg.resolve mf)).flatten ++ post)) args.length =
      some text) :
    text.2 = .reg r := by
  have harg : (AsmArg.mem (.value r)).resolve mf = [.imm (getFlagWord kindMem 1), .reg r] := rfl
  obtain ⟨post', hemit⟩ := emit_resolve h hpre harg (by decide) args' post
  obtain ⟨base, -, hbase⟩ := Option.bind_eq_some_iff.mp (hemit.symm.trans htext)
  obtain rfl := Option.some.inj hbase
  rfl

end Eliminate

/-! ## When the text is right -/

section Denote

variable {mf : MachineFunction} {p : FramePointers mf} {st : AsmStatement}

/-- The frame objects of a statement whose offsets go through `AT`, in the order
of the operands. -/
def farObjects (mf : MachineFunction) (st : AsmStatement) : List Int :=
  (st.args.filterMap AsmArg.frameIndex?).filter (far mf)

/-- The state that the statement is entered in. -/
def entered (mf : MachineFunction) (st : AsmStatement) (s : State) : State :=
  (farObjects mf st).getLast?.elim s fun fi => s.setReg .AT (s.reg .SP + BitVec.ofInt 32 (frameOffset mf fi))

theorem mem_farObjects {fi : Int} (h : .mem (.frameIndex fi) ∈ st.args) (hf : far mf fi = true) :
    fi ∈ farObjects mf st :=
  List.mem_filter.mpr ⟨List.mem_filterMap.mpr ⟨_, h, rfl⟩, hf⟩

theorem entered_frameRegister (s : State) :
    (entered mf st s).reg (getFrameRegister mf) = s.reg (getFrameRegister mf) := by
  unfold entered getFrameRegister
  cases (farObjects mf st).getLast? with
  | none => rfl
  | some l => split <;> simp

/-- The text of a frame object stands for its address: one that does not go
through `AT` if its offset is decoded right, and the others if they are where
the last of them is, from `SP`. -/
theorem textAddress_frameText {s : State} (hs : p.Holds s) {fi : Int} (h : .mem (.frameIndex fi) ∈ st.args) :
    textAddress (entered mf st s) (frameText mf fi) = some (p.base + BitVec.ofInt 32 (trueOffset mf fi)) ↔
      if far mf fi then
        ∃ l, (farObjects mf st).getLast? = some l ∧
          p.sp + BitVec.ofInt 32 (frameOffset mf l) = p.base + BitVec.ofInt 32 (trueOffset mf fi)
      else BitVec.ofInt 32 (frameOffset mf fi) = BitVec.ofInt 32 (trueOffset mf fi) := by
  by_cases hf : far mf fi = true
  · have hmem := mem_farObjects h hf
    obtain ⟨l, hl⟩ : ∃ l, (farObjects mf st).getLast? = some l :=
      ⟨_, List.getLast?_eq_some_getLast (List.ne_nil_of_mem hmem)⟩
    have hAT : (entered mf st s).reg .AT = p.sp + BitVec.ofInt 32 (frameOffset mf l) := by
      rw [entered, hl, Option.elim_some, hs.1]
      simp
    rw [frameText, if_pos hf, if_pos hf, textAddress, hAT, hl]
    simp
  · have hn : isInt16 (frameOffset mf fi) = true := by simpa [far] using hf
    have hnum : BitVec.ofInt 32 (BitVec.ofInt 16 (frameOffset mf fi)).toInt = BitVec.ofInt 32 (frameOffset mf fi) :=
      sext_ofInt hn
    rw [frameText, if_neg hf, if_neg hf, textAddress, hnum, entered_frameRegister, hs.frameRegister,
      Option.some.injEq, BitVec.add_right_inj]

/-- The text of every memory operand stands for its address if and only if every
one is a frame object, whose offset is decoded right, or whose offset is one of
more than 16 bits and that is where `SP` and the offset of the last such object
say. -/
theorem memOperands_denote_iff (mf : MachineFunction) (p : FramePointers mf) (st : AsmStatement) :
    MemOperandsDenote mf p st ↔
      (∀ a, .mem a ∈ st.args → ∃ fi, a = .frameIndex fi) ∧
        ∀ fi, .mem (.frameIndex fi) ∈ st.args →
          if far mf fi then
            ∃ l, (farObjects mf st).getLast? = some l ∧
              p.sp + BitVec.ofInt 32 (frameOffset mf l) = p.base + BitVec.ofInt 32 (trueOffset mf fi)
          else BitVec.ofInt 32 (frameOffset mf fi) = BitVec.ofInt 32 (trueOffset mf fi) := by
  constructor
  · rintro ⟨ops, hemit, h⟩
    obtain ⟨hsel, pre, post, hpre, hrep⟩ := replaceFrameIndices_emitInlineAsm mf hemit
    have hs := stateOf_holds p 0 fun _ => 0
    obtain ⟨s', hrun, htext⟩ := h _ hs
    rw [hrep] at hrun htext
    simp only [run_frameCode, Option.some.injEq] at hrun
    obtain rfl : entered mf st _ = s' := hrun
    have hframe : ∀ a, .mem a ∈ st.args → ∃ fi, a = .frameIndex fi := by
      intro a ha
      obtain ⟨args, args', hargs⟩ := List.append_of_mem ha
      obtain ⟨text, address, ht, hal, hta⟩ := htext args a args' hargs
      cases a with
      | frameIndex fi => exact ⟨fi, rfl⟩
      | value r =>
        rw [hargs] at ht
        have hr := emit_value (fun x hx => hsel x (by rw [hargs]; exact List.mem_append_left _ hx)) hpre r args' post
          ht
        obtain ⟨base, offset⟩ := text
        obtain rfl : offset = .reg r := hr
        cases base <;> cases hta
      | _ => cases hsel _ ha
    refine ⟨hframe, fun fi hfi => (textAddress_frameText hs hfi).mp ?_⟩
    obtain ⟨args, args', hargs⟩ := List.append_of_mem hfi
    obtain ⟨text, address, ht, hal, hta⟩ := htext args _ args' hargs
    rw [hargs, emit_frameIndex (fun x hx => hsel x (by rw [hargs]; exact List.mem_append_left _ hx)) hpre] at ht
    rw [Option.some.inj ht, hta, ← hal]
    rfl
  · rintro ⟨hframe, h⟩
    have hsel : ∀ arg ∈ st.args, arg.select.isSome = true := by
      intro arg harg
      cases arg with
      | mem a =>
        obtain ⟨fi, rfl⟩ := hframe a harg
        rfl
      | other o => rfl
    obtain ⟨blocks, hblocks⟩ := mapM_of_isSome hsel
    obtain ⟨ops, hemit⟩ : ∃ ops, emitInlineAsm st = some ops := by
      rw [emitInlineAsm, selectInlineAsmMemoryOperands, hblocks]
      exact ⟨_, rfl⟩
    obtain ⟨-, pre, post, hpre, hrep⟩ := replaceFrameIndices_emitInlineAsm mf hemit
    refine ⟨ops, hemit, fun s hs => ⟨entered mf st s, by rw [hrep]; exact run_frameCode _ s, ?_⟩⟩
    intro args a args' hargs
    have ha : .mem a ∈ st.args := by
      rw [hargs]
      exact List.mem_append_right _ (.head _)
    obtain ⟨fi, rfl⟩ := hframe a ha
    refine ⟨frameText mf fi, _, ?_, rfl, (textAddress_frameText hs ha).mpr (h fi ha)⟩
    rw [hrep, hargs]
    exact emit_frameIndex (fun x hx => hsel x (by rw [hargs]; exact List.mem_append_left _ hx)) hpre fi args' post

/-- Two operands with computed addresses. -/
def computedAsm : AsmStatement :=
  { asmStr := "ldw $$4, $0; ldw $$5, $1", args := [.mem (.value .T0), .mem (.value .T1)] }

/-- The first one is printed as `12, $t0`, where 12 is the flag word of the
second. -/
theorem computedAsm_not_denote : ¬MemOperandsDenote {} ⟨0, 0, fun _ => rfl⟩ computedAsm := by
  rintro ⟨ops, hemit, h⟩
  obtain rfl := Option.some.inj hemit
  obtain ⟨s', -, htext⟩ := h _ (stateOf_holds _ 0 fun _ => 0)
  obtain ⟨text, address, ht, -, hta⟩ := htext [] (.value .T0) [.mem (.value .T1)] rfl
  obtain rfl : (.num 12, .reg .T0) = text := Option.some.inj ht
  cases hta

end Denote

end Rigel
