import RigelCodegen.Frame.Elimination
import RigelCodegen.Select.Address

/-!
# Base and offset of a memory access

`SelectAddr` splits the address of a load or a store into a base and an offset
for the 16-bit field. The offset is a constant, which goes through
`getZExtValue`, `getSExtValue` and `printOperand` before the instruction
sign-extends it, or the constant-pool entry of a `Lo`; the base is a node, or a
frame index, which `eliminateFrameIndex` replaces.

A base that is a node gives the sum it was split from, whatever the constant
(`printedAddress_node`). A frame index does if `eliminateFrameIndex` resolves
it right (`selectAddr_exact_iff`): from 16 bits on it starts from `SP`, which
is not the frame base in a function with variable-sized objects.
-/

namespace Rigel

open Word32

/-- `Reloc::Model`. -/
inductive RelocModel where
  | default | static | pic | dynamicNoPIC
  deriving DecidableEq, Repr

/-- A node of an address. `target` is a `TargetGlobalAddress`, a
`TargetConstantPool`, a `TargetJumpTable` or a `TargetBlockAddress`, which are
also what `Hi` and `Lo` are taken of. -/
inductive AddrNode where
  | frameIndex (fi : Int)
  | constant (c : Word)
  | add (a b : AddrNode)
  | load (ptr : AddrNode)
  | hi (a : AddressOperand)
  | lo (a : AddressOperand)
  | target (a : AddressOperand)
  | targetExternalSymbol (sym : String)
  /-- Any other node. -/
  | other (n : Nat)
  deriving DecidableEq, Repr

/-- What the value of a node depends on. -/
structure AddrEnv (mf : MachineFunction) where
  pointers : FramePointers mf
  mem : Mem
  symbol : AddressOperand → Word
  external : String → Word
  other : Nat → Word

/-- The value of a node: a frame index is the frame base plus the offset of
the object, `Hi` and `Lo` are what `MVUi` and `ADDiu` make of the symbol. -/
def AddrNode.eval {mf : MachineFunction} (env : AddrEnv mf) : AddrNode → Word
  | frameIndex fi => env.pointers.base + BitVec.ofInt 32 (trueOffset mf fi)
  | constant c => c
  | add a b => a.eval env + b.eval env
  | load ptr => env.mem.readWord (ptr.eval env)
  | hi a => upper (Reloc.hi16S.resolve (env.symbol a))
  | lo a => sext (Reloc.lo16.resolve (env.symbol a))
  | target a => env.symbol a
  | targetExternalSymbol sym => env.external sym
  | other n => env.other n

/-! ## Selection -/

/-- `Offset`, a `TargetConstant` or a symbol. -/
inductive AddrOffset where
  | targetConstant (c : Word)
  | symbol (a : AddressOperand)
  deriving DecidableEq, Repr

/-- `Base`. -/
inductive AddrBase where
  | targetFrameIndex (fi : Int)
  | gp
  | node (n : AddrNode)
  deriving DecidableEq, Repr

/-- The operands of an `ADD`, if the second one fits the instruction. -/
def selectAdd (a b : AddrNode) : Option (AddrOffset × AddrBase) :=
  match b with
  | .constant c =>
    if isInt16 c.toInt then
      let base := match a with
        | .frameIndex fi => .targetFrameIndex fi
        | _ => .node a
      some (.targetConstant (BitVec.ofNat 32 c.toNat), base)
    else none
  | .lo (.constantPoolIndex i offset) =>
    match a with
    | .hi _ | .load _ => some (.symbol (.constantPoolIndex i offset), .node a)
    | _ => none
  | _ => none

/-- `SelectAddr`, which is not successful on a symbol. -/
def selectAddr (rm : RelocModel) (addr : AddrNode) : Option (AddrOffset × AddrBase) :=
  match rm, addr with
  | _, .frameIndex fi => some (.targetConstant 0, .targetFrameIndex fi)
  | .pic, .target (.globalAddress gv) => some (.symbol (.globalAddress gv), .gp)
  | .pic, .target (.constantPoolIndex i offset) => some (.symbol (.constantPoolIndex i offset), .gp)
  | .pic, .target (.jumpTableIndex i) => some (.symbol (.jumpTableIndex i), .gp)
  | .default, .target (.globalAddress _) | .static, .target (.globalAddress _)
  | .dynamicNoPIC, .target (.globalAddress _) => none
  | .default, .targetExternalSymbol _ | .static, .targetExternalSymbol _
  | .dynamicNoPIC, .targetExternalSymbol _ => none
  | _, .add a b => some ((selectAdd a b).getD (.targetConstant 0, .node (.add a b)))
  | _, addr => some (.targetConstant 0, .node addr)

/-- The instructions with an `addr` in their patterns. -/
abbrev MemOpcode := { o : Opcode // o ∈ [Opcode.lw, .lwfp, .sw, .swfp] }

theorem MemOpcode.readField (x : MemOpcode) : readField x.1 = sext := by
  obtain ⟨o, ho⟩ := x
  simp only [List.mem_cons, List.not_mem_nil, or_false] at ho
  rcases ho with rfl | rfl | rfl | rfl <;> rfl

theorem MemOpcode.ne_mvui (x : MemOpcode) : (x.1 == .mvui) = false := by
  obtain ⟨o, ho⟩ := x
  simp only [List.mem_cons, List.not_mem_nil, or_false] at ho
  rcases ho with rfl | rfl | rfl | rfl <;> rfl

/-- The operand made of the offset: `CreateImm(getSExtValue())`, or a symbol,
printed, assembled and linked. -/
def AddrOffset.operand {mf : MachineFunction} (env : AddrEnv mf) (opcode : Opcode) : AddrOffset → Option MachineOperand
  | targetConstant c => some (.imm c.toInt)
  | symbol a => SymOperand.link opcode (env.symbol a) (.sym a)

/-- The operand made of the base, a node being in register `r`. -/
def AddrBase.operand (r : Reg) : AddrBase → MachineOperand
  | targetFrameIndex fi => .frameIndex fi
  | gp => .reg .GP
  | node _ => .reg r

/-- The load or store of `d`. -/
def memInstr {mf : MachineFunction} (env : AddrEnv mf) (x : MemOpcode) (d r : Reg) (offset : AddrOffset)
    (base : AddrBase) : Option MachineInstr :=
  (offset.operand env x).map fun off => ⟨x, [.reg d, off, base.operand r]⟩

/-- The address of the last of the instructions, a load or a store: its base
register, as the others leave it, plus its offset, as it is printed. -/
def printedAddress (mis : List MachineInstr) (s : State) : Option Word :=
  match mis.getLast? with
  | some ⟨opcode, [_, .imm off, .reg b]⟩ => (run mis.dropLast s).map fun s' => s'.reg b + immediate opcode off
  | _ => none

/-- If an address is selected, the address that is printed is the value of the
node, for every access and in every state of the function in which the base,
if it is a node, is in its register. -/
def SelectAddrExact {mf : MachineFunction} (env : AddrEnv mf) (addr : AddrNode) : Prop :=
  ∀ offset base, selectAddr .static addr = some (offset, base) →
    ∀ (x : MemOpcode) (d r : Reg) (s : State), env.pointers.Holds s → (∀ n, base = .node n → s.reg r = n.eval env) →
      ((memInstr env x d r offset base).bind fun mi => printedAddress (eliminateFrameIndex mf mi) s) =
        some (addr.eval env)

section Printed

variable {mf : MachineFunction} (env : AddrEnv mf) (x : MemOpcode) (d r : Reg)

/-- The value of an offset in the field. -/
def AddrOffset.value (env : AddrEnv mf) : AddrOffset → Word
  | targetConstant c => c
  | symbol a => sext (Reloc.lo16.resolve (env.symbol a))

/-- An offset that `SelectAddr` makes without the GP: it fits the field. -/
def AddrOffset.Fits : AddrOffset → Prop
  | targetConstant c => isInt16 c.toInt = true
  | symbol a => ∃ i offset, a = .constantPoolIndex i offset

/-- The immediate in the place of a fitting offset reads back as its value. -/
theorem operand_of_fits {offset : AddrOffset} (h : offset.Fits) :
    ∃ i, offset.operand env x = some (.imm i) ∧ immediate x i = offset.value env := by
  cases offset with
  | targetConstant c =>
    refine ⟨c.toInt, rfl, ?_⟩
    rw [immediate_of_isInt16 x x.readField h, BitVec.ofInt_toInt]
    rfl
  | symbol a =>
    obtain ⟨i, off, rfl⟩ := h
    refine ⟨(Reloc.lo16.resolve (env.symbol (.constantPoolIndex i off))).toInt, ?_, ?_⟩
    · simp only [AddrOffset.operand, SymOperand.link, printSymbol, x.ne_mvui, SymText.reloc, Option.map_some,
        Bool.false_eq_true, if_false]
    · rw [immediate_eq, x.readField, BitVec.ofInt_toInt]
      rfl

/-- With a base in a register, the address is the sum. -/
theorem printedAddress_node {offset : AddrOffset} (h : offset.Fits) (n : AddrNode) {s : State}
    (hr : s.reg r = n.eval env) :
    ((memInstr env x d r offset (.node n)).bind fun mi => printedAddress (eliminateFrameIndex mf mi) s) =
      some (n.eval env + offset.value env) := by
  obtain ⟨i, ho, hi⟩ := operand_of_fits env x h
  rw [memInstr, ho, ← hr, ← hi]
  rfl

theorem eliminateFrameIndex_mem (fi imm : Int) :
    eliminateFrameIndex mf ⟨x, [.reg d, .imm imm, .frameIndex fi]⟩ =
      let offset := toInt32 (frameOffset mf fi + imm)
      let w : Word := BitVec.ofInt 32 offset
      if isInt16 offset then [⟨x, [.reg d, .imm offset, .reg (getFrameRegister mf)]⟩]
      else [⟨.mvui, [.reg .AT, .imm (w.sshiftRight 16).toInt]⟩, ⟨.ori, [.reg .AT, .reg .AT, .imm (w &&& 0xFFFF).toInt]⟩,
        ⟨.add, [.reg .AT, .reg .SP, .reg .AT]⟩, ⟨x, [.reg d, .imm 0, .reg .AT]⟩] := rfl

/-- With a frame index it is the address of `eliminateFrameIndex`. -/
theorem printedAddress_frameIndex (c : Word) (fi : Int) (s : State) :
    ((memInstr env x d r (.targetConstant c) (.targetFrameIndex fi)).bind fun mi =>
      printedAddress (eliminateFrameIndex mf mi) s) = some (fiAddress mf fi c.toInt s) := by
  show printedAddress (eliminateFrameIndex mf ⟨x, [.reg d, .imm c.toInt, .frameIndex fi]⟩) s = _
  rw [eliminateFrameIndex_mem, fiAddress]
  simp only
  split
  · rename_i h
    simp only [printedAddress, List.getLast?_singleton, List.dropLast_singleton, run_nil, Option.map_some,
      immediate_of_isInt16 x x.readField h]
  · simp only [printedAddress, List.getLast?_cons_cons, List.getLast?_singleton, List.dropLast_cons_cons,
      List.dropLast_singleton]
    rw [run_mvui_ori (by decide), run_cons, exec_add, Option.bind_some, run_nil, Option.map_some,
      immediate_of_isInt16 x x.readField (by decide)]
    simp

end Printed

/-! ## When it is exact -/

/-- The frame index and the constant of an address that is a frame index, or
one plus a constant of 16 bits. -/
def AddrNode.frameBase : AddrNode → Option (Int × Word)
  | frameIndex fi => some (fi, 0)
  | add (frameIndex fi) (constant c) => if isInt16 c.toInt then some (fi, c) else none
  | _ => none

/-- `eliminateFrameIndex` gets the address of the object: the offset of the
object is decoded right, if it fits the field with the constant; else `SP`
plus the decoded offset is the frame base plus the offset. -/
def FrameIndexResolves {mf : MachineFunction} (p : FramePointers mf) (fi : Int) (c : Word) : Prop :=
  if isInt16 (toInt32 (frameOffset mf fi + c.toInt)) then
    BitVec.ofInt 32 (frameOffset mf fi) = BitVec.ofInt 32 (trueOffset mf fi)
  else p.sp + BitVec.ofInt 32 (frameOffset mf fi) = p.base + BitVec.ofInt 32 (trueOffset mf fi)

theorem selectAddr_frameBase {addr : AddrNode} {fi : Int} {c : Word} (h : addr.frameBase = some (fi, c)) :
    selectAddr .static addr = some (.targetConstant c, .targetFrameIndex fi) := by
  unfold AddrNode.frameBase at h
  split at h
  · obtain ⟨rfl, rfl⟩ := Prod.mk.inj (Option.some.inj h)
    rfl
  · split at h
    · rename_i hc
      obtain ⟨rfl, rfl⟩ := Prod.mk.inj (Option.some.inj h)
      simp only [selectAddr, selectAdd, hc, if_true, BitVec.ofNat_toNat, BitVec.setWidth_eq, Option.getD_some]
    · cases h
  · cases h

section Static

variable {mf : MachineFunction} (env : AddrEnv mf)

/-- A node with an offset that makes up an address. -/
def Splits (addr : AddrNode) (sel : AddrOffset × AddrBase) : Prop :=
  ∃ n, sel.2 = .node n ∧ sel.1.Fits ∧ n.eval env + sel.1.value env = addr.eval env

/-- Without an offset. -/
theorem splits_whole (addr : AddrNode) : Splits env addr (.targetConstant 0, .node addr) :=
  ⟨addr, rfl, show isInt16 (0 : Word).toInt = true by decide, BitVec.add_zero _⟩

/-- What is made of an `ADD`, unless it is a frame address. -/
theorem selectAdd_splits {a b : AddrNode} (h : (AddrNode.add a b).frameBase = none) {sel : AddrOffset × AddrBase}
    (hs : selectAdd a b = some sel) : Splits env (.add a b) sel := by
  cases b with
  | constant c =>
    simp only [selectAdd] at hs
    split at hs
    · rename_i hc
      rw [BitVec.ofNat_toNat, BitVec.setWidth_eq] at hs
      cases a with
      | frameIndex fi => simp only [AddrNode.frameBase, hc, if_true, reduceCtorEq] at h
      | constant _ | add _ _ | load _ | hi _ | lo _ | target _ | targetExternalSymbol _ | other _ =>
        obtain rfl := Option.some.inj hs
        exact ⟨_, rfl, hc, rfl⟩
    · cases hs
  | lo s =>
    cases s with
    | constantPoolIndex i offset =>
      cases a with
      | hi _ | load _ =>
        obtain rfl := Option.some.inj hs
        exact ⟨_, rfl, ⟨i, offset, rfl⟩, rfl⟩
      | frameIndex _ | constant _ | add _ _ | lo _ | target _ | targetExternalSymbol _ | other _ => cases hs
    | globalAddress _ | blockAddress _ _ | jumpTableIndex _ => cases hs
  | frameIndex _ | add _ _ | load _ | hi _ | target _ | targetExternalSymbol _ | other _ => cases hs

/-- What is made of an address that is not a frame address. -/
theorem selectAddr_splits {addr : AddrNode} (h : addr.frameBase = none) {sel : AddrOffset × AddrBase}
    (hs : selectAddr .static addr = some sel) : Splits env addr sel := by
  cases addr with
  | frameIndex fi => cases h
  | add a b =>
    obtain rfl := Option.some.inj hs
    cases hadd : selectAdd a b with
    | none => exact splits_whole env _
    | some sel => exact selectAdd_splits env h hadd
  | target a =>
    cases a with
    | globalAddress gv => cases hs
    | blockAddress _ _ | jumpTableIndex _ | constantPoolIndex _ _ =>
      obtain rfl := Option.some.inj hs
      exact splits_whole env _
  | targetExternalSymbol sym => cases hs
  | constant _ | load _ | hi _ | lo _ | other _ =>
    obtain rfl := Option.some.inj hs
    exact splits_whole env _

theorem eval_frameBase {addr : AddrNode} {fi : Int} {c : Word} (h : addr.frameBase = some (fi, c)) :
    addr.eval env = env.pointers.base + BitVec.ofInt 32 (trueOffset mf fi + c.toInt) := by
  rw [BitVec.ofInt_add, BitVec.ofInt_toInt, ← BitVec.add_assoc]
  unfold AddrNode.frameBase at h
  split at h
  · obtain ⟨rfl, rfl⟩ := Prod.mk.inj (Option.some.inj h)
    exact (BitVec.add_zero _).symm
  · split at h
    · obtain ⟨rfl, rfl⟩ := Prod.mk.inj (Option.some.inj h)
      rfl
    · cases h
  · cases h

/-- A frame address is exact if the frame index resolves. -/
theorem exact_frameBase_iff {addr : AddrNode} {fi : Int} {c : Word} (h : addr.frameBase = some (fi, c)) :
    SelectAddrExact env addr ↔ FrameIndexResolves env.pointers fi c := by
  have heval := eval_frameBase env h
  constructor
  · intro hx
    have hs := stateOf_holds env.pointers 0 fun _ => 0
    have := hx _ _ (selectAddr_frameBase h) ⟨.lw, by decide⟩ .T0 .T0 _ hs nofun
    rw [printedAddress_frameIndex, heval] at this
    exact (fiAddress_eq_iff hs).mp (Option.some.inj this)
  · intro hr offset base hsel x d r s hs _
    rw [selectAddr_frameBase h] at hsel
    obtain ⟨rfl, rfl⟩ := Prod.mk.inj (Option.some.inj hsel)
    rw [printedAddress_frameIndex, heval, (fiAddress_eq_iff hs).mpr hr]

/-- Any other address is exact. -/
theorem exact_of_frameBase_none {addr : AddrNode} (h : addr.frameBase = none) : SelectAddrExact env addr := by
  intro offset base hsel x d r s _ hr
  obtain ⟨n, rfl, hfit, heval⟩ := selectAddr_splits env h hsel
  rw [printedAddress_node env x d r hfit n (hr n rfl), heval]

/-- The base and the offset give the address if and only if it is not a frame
address, or its frame index resolves. -/
theorem selectAddr_exact_iff (addr : AddrNode) : SelectAddrExact env addr ↔
    ∀ fi c, addr.frameBase = some (fi, c) → FrameIndexResolves env.pointers fi c := by
  cases h : addr.frameBase with
  | none => exact ⟨fun _ => nofun, fun _ => exact_of_frameBase_none env h⟩
  | some p =>
    rw [exact_frameBase_iff env h]
    refine ⟨fun hr fi c hp => ?_, fun hr => hr _ _ rfl⟩
    obtain rfl := Option.some.inj hp
    exact hr

end Static

/-- `farFrame` in a function with variable-sized objects, of which there are 16
bytes. -/
def dynamicFrame : MachineFunction :=
  let m := (({} : MachineFrameInfo).createStackObject 40000 4 four_pow false).2
  let m := (m.createStackObject 4 4 four_pow false).2
  adjustRigelStackFrame (layoutFrame (fun _ => false) { frameInfo := { m with hasVarSizedObjects := true } })

/-- The environment of the instruction after `alloca (16)`. -/
def dynamicEnv : AddrEnv dynamicFrame where
  pointers := ⟨0x80000000, 0x7FFFFFF0, fun h => absurd h (by decide)⟩
  mem := fun _ => 0
  symbol := fun _ => 0
  external := fun _ => 0
  other := fun _ => 0

/-- The word behind the array is looked for 16 bytes below it. -/
theorem dynamicFrame_not_exact : ¬SelectAddrExact dynamicEnv (.frameIndex 1) := by
  intro h
  have hs := stateOf_holds dynamicEnv.pointers 0 fun _ => 0
  have hx := h _ _ rfl ⟨.lw, by decide⟩ .T0 .T0 _ hs nofun
  rw [printedAddress_frameIndex] at hx
  have hf : frameOffset dynamicFrame 1 = 40000 := by decide
  have ht : trueOffset dynamicFrame 1 = 40000 := by decide
  simp only [fiAddress, AddrNode.eval, hf, ht] at hx
  exact absurd hx (by decide)

end Rigel
