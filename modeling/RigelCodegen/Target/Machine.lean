import RigelCodegen.Lib.Memory
import RigelCodegen.Target.Register

/-!
# Machine instructions, as printed and as executed

A machine instruction is an opcode and its operands, in the order of its
definition in `RigelInstrInfo.td` and of the `BuildMI` calls that make it. An
immediate means what the assembler makes of the number that `printOperand`
prints: a 16-bit field, read as the instruction reads it (`immediate`). The
printed number always fits its field, so only the low 16 bits of an operand
count (`field_printOperand`).

`exec` runs one instruction and `run` a sequence of them; an instruction that
still has a frame index, or operands its opcode does not take, does not run.
-/

namespace Rigel

open Word32

/-- The instructions of `RigelInstrInfo.td` that stack frames and constants
use. -/
inductive Opcode where
  | addi | addiu | subi | andi | ori | xori | mvui | add | sub | or
  | lw | lwfp | sw | swfp | lea | movi32imm | noreorder
  deriving DecidableEq, Repr

inductive MachineOperand where
  | reg (r : Reg)
  | imm (i : Int)
  | frameIndex (fi : Int)
  deriving DecidableEq, Repr

structure MachineInstr where
  opcode : Opcode
  operands : List MachineOperand
  deriving DecidableEq, Repr

namespace MachineOperand

def isFI : MachineOperand → Bool
  | frameIndex _ => true
  | _ => false

/-- `getImm`, of an immediate operand. -/
def getImm : MachineOperand → Int
  | imm i => i
  | _ => 0

/-- `getIndex`, of a frame index. -/
def getIndex : MachineOperand → Int
  | frameIndex fi => fi
  | _ => 0

end MachineOperand

/-- The number `printOperand` prints for an immediate operand: the low 16
bits, as an `unsigned short` or as a `short`. -/
def printOperand (opcode : Opcode) (imm : Int) : Int :=
  if opcode = .ori ∨ opcode = .andi ∨ opcode = .xori ∨ opcode = .mvui then
    (BitVec.ofInt 16 imm).toNat
  else (BitVec.ofInt 16 imm).toInt

/-- The field the assembler encodes a printed number in. -/
def field (n : Int) : Half := BitVec.ofInt 16 n

/-- The value an instruction reads from its field. -/
def readField (opcode : Opcode) (h : Half) : Word :=
  match opcode with
  | .ori | .andi | .xori => zext h
  | .mvui => upper h
  | _ => sext h

/-- An immediate operand, as the machine sees it. -/
def immediate (opcode : Opcode) (imm : Int) : Word := readField opcode (field (printOperand opcode imm))

theorem field_printOperand (opcode : Opcode) (imm : Int) :
    field (printOperand opcode imm) = BitVec.ofInt 16 imm := by
  simp only [printOperand, field]
  split
  · rw [BitVec.ofInt_natCast, BitVec.ofNat_toNat, BitVec.setWidth_eq]
  · exact BitVec.ofInt_toInt

theorem immediate_eq (opcode : Opcode) (imm : Int) :
    immediate opcode imm = readField opcode (BitVec.ofInt 16 imm) := by
  rw [immediate, field_printOperand]

/-- Registers and memory. -/
structure State where
  gpr : Reg → Word
  mem : Mem

namespace State

/-- Register `r`; `ZERO` is always 0. -/
def reg (s : State) (r : Reg) : Word := if r = .ZERO then 0 else s.gpr r

def setReg (s : State) (r : Reg) (v : Word) : State := { s with gpr := fun x => if x = r then v else s.gpr x }

def setMem (s : State) (m : Mem) : State := { s with mem := m }

@[simp] theorem reg_zero (s : State) : s.reg .ZERO = 0 := by simp [reg]

@[simp] theorem reg_setReg (s : State) (r x : Reg) (v : Word) :
    (s.setReg r v).reg x = if x = .ZERO then 0 else if x = r then v else s.reg x := by
  simp only [reg, setReg]; split <;> rfl

@[simp] theorem setReg_setReg (s : State) (r : Reg) (v w : Word) : (s.setReg r v).setReg r w = s.setReg r w := by
  simp only [setReg, State.mk.injEq, and_true]
  funext x
  split <;> rfl

@[simp] theorem mem_setReg (s : State) (r : Reg) (v : Word) : (s.setReg r v).mem = s.mem := rfl

@[simp] theorem reg_setMem (s : State) (m : Mem) (r : Reg) : (s.setMem m).reg r = s.reg r := rfl

@[simp] theorem mem_setMem (s : State) (m : Mem) : (s.setMem m).mem = m := rfl

end State

/-- A state with given `SP` and `FP`, and `v` in the other registers. -/
def stateOf (sp fp v : Word) (m : Mem) : State := ⟨fun r => if r = .SP then sp else if r = .FP then fp else v, m⟩

theorem stateOf_reg {sp fp v : Word} {m : Mem} {r : Reg} (h : r ∈ allocatable) : (stateOf sp fp v m).reg r = v := by
  obtain ⟨hz, hs, hf, -⟩ := ne_of_allocatable h
  simp [State.reg, stateOf, hz, hs, hf]

/-- One instruction. `sub` and its operands are printed as `$dst, $c, $b`, and
it subtracts as `SUBu`, which is printed likewise. -/
def exec (mi : MachineInstr) (s : State) : Option State :=
  match mi.opcode, mi.operands with
  | .addi, [.reg d, .reg b, .imm c] => some (s.setReg d (s.reg b + immediate .addi c))
  | .addiu, [.reg d, .reg b, .imm c] => some (s.setReg d (s.reg b + immediate .addiu c))
  | .subi, [.reg d, .reg b, .imm c] => some (s.setReg d (s.reg b - immediate .subi c))
  | .andi, [.reg d, .reg b, .imm c] => some (s.setReg d (s.reg b &&& immediate .andi c))
  | .ori, [.reg d, .reg b, .imm c] => some (s.setReg d (s.reg b ||| immediate .ori c))
  | .xori, [.reg d, .reg b, .imm c] => some (s.setReg d (s.reg b ^^^ immediate .xori c))
  | .mvui, [.reg d, .imm c] => some (s.setReg d (immediate .mvui c))
  | .add, [.reg d, .reg b, .reg c] => some (s.setReg d (s.reg b + s.reg c))
  | .sub, [.reg d, .reg b, .reg c] => some (s.setReg d (s.reg b - s.reg c))
  | .or, [.reg d, .reg b, .reg c] => some (s.setReg d (s.reg b ||| s.reg c))
  | .lw, [.reg d, .imm c, .reg b] => some (s.setReg d (s.mem.readWord (s.reg b + immediate .lw c)))
  | .lwfp, [.reg d, .imm c, .reg b] => some (s.setReg d (s.mem.readWord (s.reg b + immediate .lwfp c)))
  | .sw, [.reg r, .imm c, .reg b] =>
    some (s.setMem (s.mem.writeWord (s.reg b + immediate .sw c) (s.reg r)))
  | .swfp, [.reg r, .imm c, .reg b] =>
    some (s.setMem (s.mem.writeWord (s.reg b + immediate .swfp c) (s.reg r)))
  | .lea, [.reg d, .imm c, .reg b] => some (s.setReg d (s.reg b + immediate .lea c))
  | .noreorder, [] => some s
  | _, _ => none

theorem exec_add (d b c : Reg) (s : State) :
    exec ⟨.add, [.reg d, .reg b, .reg c]⟩ s = some (s.setReg d (s.reg b + s.reg c)) := rfl

/-- Instructions one after the other. -/
def run : List MachineInstr → State → Option State
  | [], s => some s
  | mi :: mis, s => (exec mi s).bind (run mis)

@[simp] theorem run_nil (s : State) : run [] s = some s := rfl

@[simp] theorem run_cons (mi : MachineInstr) (mis : List MachineInstr) (s : State) :
    run (mi :: mis) s = (exec mi s).bind (run mis) := rfl

theorem run_append (as bs : List MachineInstr) (s : State) :
    run (as ++ bs) s = (run as s).bind (run bs) := by
  induction as generalizing s with
  | nil => rfl
  | cons mi as ih =>
    simp only [List.cons_append, run_cons]
    cases exec mi s with
    | none => rfl
    | some s' => exact ih s'

/-- A signed immediate of 16 bits is what it says. -/
theorem immediate_of_isInt16 (opcode : Opcode) (ho : readField opcode = sext) {x : Int} (h : isInt16 x = true) :
    immediate opcode x = BitVec.ofInt 32 x := by
  rw [immediate_eq, ho]; exact sext_ofInt h

/-- `MVUi` and `ORi` put a word together, of immediates whose low 16 bits are its
halves. -/
theorem mvui_ori {w : Word} {hi lo : Int} (hhi : BitVec.ofInt 16 hi = w.extractLsb' 16 16)
    (hlo : BitVec.ofInt 16 lo = w.setWidth 16) : immediate .mvui hi ||| immediate .ori lo = w := by
  rw [immediate_eq, immediate_eq, hhi, hlo]
  exact upper_or_zext w

/-- The upper half, shifted down arithmetically, and logically. -/
theorem ofInt_sshiftRight (w : Word) : BitVec.ofInt 16 (w.sshiftRight 16).toInt = w.extractLsb' 16 16 := by
  rw [ofInt_toInt, setWidth_sshiftRight]

theorem ofInt_ushiftRight (w : Word) : BitVec.ofInt 16 (w >>> 16).toInt = w.extractLsb' 16 16 := by
  rw [ofInt_toInt, setWidth_ushiftRight]

theorem ofInt_and_mask (w : Word) : BitVec.ofInt 16 (w &&& 0xFFFF).toInt = w.setWidth 16 := by
  rw [ofInt_toInt, setWidth_and_mask]

/-- `MVUi` and `ORi` put a word in a register. -/
theorem run_halves {d : Reg} (hd : d ≠ .ZERO) {w : Word} {hi lo : Int} (hhi : BitVec.ofInt 16 hi = w.extractLsb' 16 16)
    (hlo : BitVec.ofInt 16 lo = w.setWidth 16) (mis : List MachineInstr) (s : State) :
    run (⟨.mvui, [.reg d, .imm hi]⟩ :: ⟨.ori, [.reg d, .reg d, .imm lo]⟩ :: mis) s = run mis (s.setReg d w) := by
  simp only [run_cons, exec, Option.bind_some, State.reg_setReg, hd, if_false, if_true, State.setReg_setReg,
    mvui_ori hhi hlo]

/-- From an `int`. -/
theorem run_mvui_ori {d : Reg} (hd : d ≠ .ZERO) (w : Word) (mis : List MachineInstr) (s : State) :
    run (⟨.mvui, [.reg d, .imm (w.sshiftRight 16).toInt]⟩ ::
      ⟨.ori, [.reg d, .reg d, .imm (w &&& 0xFFFF).toInt]⟩ :: mis) s = run mis (s.setReg d w) :=
  run_halves hd (ofInt_sshiftRight w) (ofInt_and_mask w) mis s

/-- From an `unsigned`. -/
theorem run_mvui_ori_unsigned {d : Reg} (hd : d ≠ .ZERO) (w : Word) (mis : List MachineInstr) (s : State) :
    run (⟨.mvui, [.reg d, .imm (w >>> 16).toNat]⟩ ::
      ⟨.ori, [.reg d, .reg d, .imm (w &&& 0xFFFF).toNat]⟩ :: mis) s = run mis (s.setReg d w) := by
  have hhi : BitVec.ofInt 16 (w >>> 16).toNat = w.extractLsb' 16 16 := by
    rw [BitVec.ofInt_natCast, BitVec.ofNat_toNat, setWidth_ushiftRight]
  have hlo : BitVec.ofInt 16 (w &&& 0xFFFF).toNat = w.setWidth 16 := by
    rw [BitVec.ofInt_natCast, BitVec.ofNat_toNat, setWidth_and_mask]
  exact run_halves hd hhi hlo mis s

/-! ## Stores -/

/-- A register that is stored: where, and the value it has. -/
structure StoredReg where
  reg : Reg
  address : Word
  value : Word
  deriving DecidableEq, Repr

/-- What an instruction stores. -/
def storeOf (mi : MachineInstr) (s : State) : List StoredReg :=
  match mi.opcode, mi.operands with
  | .sw, [.reg r, .imm c, .reg b] => [⟨r, s.reg b + immediate .sw c, s.reg r⟩]
  | .swfp, [.reg r, .imm c, .reg b] => [⟨r, s.reg b + immediate .swfp c, s.reg r⟩]
  | _, _ => []

/-- The stores of instructions one after the other. -/
def stores : List MachineInstr → State → List StoredReg
  | [], _ => []
  | mi :: mis, s => storeOf mi s ++ (exec mi s).elim [] (stores mis)

@[simp] theorem stores_nil (s : State) : stores [] s = [] := rfl

theorem stores_cons {mi : MachineInstr} {s s' : State} (h : exec mi s = some s') (mis : List MachineInstr) :
    stores (mi :: mis) s = storeOf mi s ++ stores mis s' := by rw [stores, h]; rfl

theorem stores_append {as : List MachineInstr} {s s' : State} (h : run as s = some s') (bs : List MachineInstr) :
    stores (as ++ bs) s = stores as s ++ stores bs s' := by
  induction as generalizing s with
  | nil => obtain rfl := Option.some.inj h; rfl
  | cons mi as ih =>
    obtain ⟨t, ht, hr⟩ := Option.bind_eq_some_iff.mp h
    rw [List.cons_append, stores_cons ht, stores_cons ht, ih hr, List.append_assoc]

/-- An instruction changes memory by what it stores. -/
theorem mem_exec {mi : MachineInstr} {s s' : State} (h : exec mi s = some s') :
    s'.mem = s.mem.writes ((storeOf mi s).map fun x => (x.address, x.value)) := by
  unfold exec at h
  split at h <;> cases h <;> simp_all [storeOf, Mem.writes]

/-- Instructions change memory by what they store. -/
theorem mem_run {mis : List MachineInstr} {s s' : State} (h : run mis s = some s') :
    s'.mem = s.mem.writes ((stores mis s).map fun x => (x.address, x.value)) := by
  induction mis generalizing s with
  | nil => obtain rfl := Option.some.inj h; rfl
  | cons mi mis ih =>
    obtain ⟨t, ht, hr⟩ := Option.bind_eq_some_iff.mp h
    calc s'.mem = t.mem.writes ((stores mis t).map fun x => (x.address, x.value)) := ih hr
      _ = (s.mem.writes ((storeOf mi s).map fun x => (x.address, x.value))).writes
            ((stores mis t).map fun x => (x.address, x.value)) := by rw [mem_exec ht]
      _ = s.mem.writes ((stores (mi :: mis) s).map fun x => (x.address, x.value)) := by
          rw [stores_cons ht, List.map_append, Mem.writes, Mem.writes, Mem.writes, List.foldl_append]

/-- What is stored in words that are pairwise disjoint is all there. -/
theorem readWord_run {mis : List MachineInstr} {s s' : State} (h : run mis s = some s')
    (hd : (stores mis s).Pairwise fun x y => (word x.address).Disjoint (word y.address)) {x : StoredReg}
    (hx : x ∈ stores mis s) : s'.mem.readWord x.address = x.value := by
  have hw : (x.address, x.value) ∈ (stores mis s).map fun x => (x.address, x.value) :=
    List.mem_map.mpr ⟨x, hx, rfl⟩
  have hdisj : ((stores mis s).map fun x => (x.address, x.value)).Pairwise fun w w' =>
      (word w.1).Disjoint (word w'.1) := List.pairwise_map.mpr hd
  have hread := Mem.readWord_writes (m := s.mem) hdisj hw
  rwa [← mem_run h] at hread

/-- What is outside of the words they store stays. -/
theorem unchanged_run {mis : List MachineInstr} {s s' : State} (h : run mis s = some s') :
    Unchanged ((stores mis s).map fun x => word x.address) s.mem s'.mem := by
  intro a ha
  rw [mem_run h]
  refine Mem.writes_apply fun w hw => ?_
  obtain ⟨x, hx, rfl⟩ := List.mem_map.mp hw
  exact ha _ (List.mem_map.mpr ⟨x, hx, rfl⟩)

/-- Instructions that are no stores. -/
theorem stores_eq_nil {mis : List MachineInstr} (h : ∀ mi ∈ mis, mi.opcode ≠ .sw ∧ mi.opcode ≠ .swfp) (s : State) :
    stores mis s = [] := by
  induction mis generalizing s with
  | nil => rfl
  | cons mi mis ih =>
    obtain ⟨hsw, hswfp⟩ := h mi (List.mem_cons_self ..)
    have hs : storeOf mi s = [] := by
      unfold storeOf
      split
      · exact absurd ‹_› hsw
      · exact absurd ‹_› hswfp
      · rfl
    rw [stores, hs, List.nil_append]
    cases exec mi s with
    | none => rfl
    | some t => exact ih (fun x hx => h x (List.mem_cons_of_mem _ hx)) t

theorem stores_mvui_ori {d : Reg} (hd : d ≠ .ZERO) (w : Word) (mis : List MachineInstr) (s : State) :
    stores (⟨.mvui, [.reg d, .imm (w.sshiftRight 16).toInt]⟩ ::
      ⟨.ori, [.reg d, .reg d, .imm (w &&& 0xFFFF).toInt]⟩ :: mis) s = stores mis (s.setReg d w) :=
  stores_append (run_mvui_ori hd w [] s) mis

end Rigel
