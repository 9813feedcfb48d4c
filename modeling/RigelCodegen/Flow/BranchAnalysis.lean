import RigelCodegen.Lib.Word
import Mathlib.Data.List.TakeWhile

/-!
# Branch analysis

`AnalyzeBranch` describes the end of a basic block by two targets and a
condition, `RemoveBranch` takes the branches away and `InsertBranch` makes them
from a description. What a block does is its dynamic successor (`successor`);
`branchAnalysis_correct` says that all three keep it.
-/

namespace Rigel

open Word32

/-- The branches of `RigelInstrInfo.td`, debug values and all other
instructions. -/
inductive BrOpcode where
  | beq | bne | bge | bgt | ble | blt | be | bnz | jmp | jmpr | ret | dbgValue
  | other (n : Nat)
  deriving DecidableEq, Repr

namespace BrOpcode

/-- `isTerminator`. -/
def isTerminator : BrOpcode → Bool
  | dbgValue | other _ => false
  | _ => true

/-- `TID.getNumOperands`, of a branch. -/
def getNumOperands : BrOpcode → Nat
  | beq | bne => 3
  | bge | bgt | ble | blt | be | bnz => 2
  | jmp | jmpr => 1
  | ret | dbgValue | other _ => 0

/-- A conditional branch. -/
def isCond : BrOpcode → Bool
  | beq | bne | bge | bgt | ble | blt | be | bnz => true
  | _ => false

end BrOpcode

/-- An operand: a register, the opcode in a condition, or a basic block. -/
inductive BrOperand where
  | reg (r : Nat)
  | imm (opc : BrOpcode)
  | mbb (b : Nat)
  deriving DecidableEq, Repr

namespace BrOperand

def getMBB : BrOperand → Option Nat
  | mbb b => some b
  | _ => none

def getReg : BrOperand → Option Nat
  | reg r => some r
  | _ => none

def getImm : BrOperand → Option BrOpcode
  | imm opc => some opc
  | _ => none

end BrOperand

/-- The operands that the branches take. -/
def WellTyped : BrOpcode → List BrOperand → Bool
  | .beq, [.reg _, .reg _, .mbb _] | .bne, [.reg _, .reg _, .mbb _] => true
  | .bge, [.reg _, .mbb _] | .bgt, [.reg _, .mbb _] | .ble, [.reg _, .mbb _] | .blt, [.reg _, .mbb _] => true
  | .be, [.reg _, .mbb _] | .bnz, [.reg _, .mbb _] => true
  | .jmp, [.mbb _] => true
  | .jmpr, [.reg _] => true
  | .ret, _ | .dbgValue, _ | .other _, _ => true
  | _, _ => false

structure BrInstr where
  opcode : BrOpcode
  operands : List BrOperand
  wellTyped : WellTyped opcode operands = true
  deriving DecidableEq, Repr

namespace BrInstr

/-- `isUnpredicatedTerminator`: no instruction of Rigel is predicable. -/
def isUnpredicatedTerminator (i : BrInstr) : Bool := i.opcode.isTerminator

def isDebugValue (i : BrInstr) : Bool := i.opcode == .dbgValue

/-- The block of the last explicit operand, which is that of the first for a
jump. -/
def target (i : BrInstr) : Option Nat := i.operands.getLast?.bind BrOperand.getMBB

/-- `BuildMI`. -/
def build (opcode : BrOpcode) (operands : List BrOperand) : Option BrInstr :=
  if h : WellTyped opcode operands = true then some ⟨opcode, operands, h⟩ else none

end BrInstr

abbrev Regs := Nat → Word

/-- Where control goes at the end of a block. -/
inductive Successor where
  | block (b : Nat)
  | indirect (a : Word)
  | ret
  /-- There is no block to fall through to. -/
  | fallsOff
  deriving DecidableEq, Repr

/-- Whether a conditional branch is taken. -/
def condHolds : BrOpcode → List Word → Bool
  | .beq, [a, b] => a == b
  | .bne, [a, b] => a != b
  | .bge, [a] => 0 ≤ a.toInt
  | .bgt, [a] => 0 < a.toInt
  | .ble, [a] => a.toInt ≤ 0
  | .blt, [a] => a.toInt < 0
  | .be, [a] => a == 0
  | .bnz, [a] => a != 0
  | _, _ => false

/-- The values of the registers among some operands. -/
def regValues (regs : Regs) (operands : List BrOperand) : List Word :=
  (operands.filterMap BrOperand.getReg).map regs

/-- Where an instruction sends control, if it does not go on to the next. -/
def BrInstr.transfer (regs : Regs) (i : BrInstr) : Option Successor :=
  match i.opcode with
  | .jmp => i.target.map .block
  | .jmpr => (regValues regs i.operands).head?.map .indirect
  | .ret => some .ret
  | .dbgValue | .other _ => none
  | opc => if condHolds opc (regValues regs i.operands) then i.target.map .block else none

section Run

variable (E : Nat → Regs → Regs)

/-- What an instruction does to the registers: `E` for all but branches and debug
values. -/
def BrInstr.effect (i : BrInstr) (regs : Regs) : Regs :=
  match i.opcode with
  | .other n => E n regs
  | _ => regs

/-- The registers after some instructions. -/
def effects (is : List BrInstr) (regs : Regs) : Regs := is.foldl (fun regs i => i.effect E regs) regs

/-- The layout successor, if there is one. -/
def fallThrough (layout : Option Nat) : Successor := layout.elim .fallsOff .block

/-- The dynamic successor of a block. -/
def successor (layout : Option Nat) : List BrInstr → Regs → Successor
  | [], _ => fallThrough layout
  | i :: is, regs => (i.transfer regs).getD (successor layout is (i.effect E regs))

end Run

/-! ## Analysis -/

/-- `GetAnalyzableBrOpc`. -/
def getAnalyzableBrOpc (opc : BrOpcode) : Option BrOpcode :=
  match opc with
  | .beq | .bne | .bge | .bgt | .ble | .blt | .be | .bnz | .jmp => some opc
  | _ => none

/-- `GetOppositeBranchOpcode`. -/
def getOppositeBranchOpcode : BrOpcode → Option BrOpcode
  | .beq => some .bne
  | .bne => some .beq
  | .be => some .bnz
  | .bnz => some .be
  | .bgt => some .ble
  | .bge => some .blt
  | .blt => some .bge
  | .ble => some .bgt
  | _ => none

/-- What `AnalyzeBranch` returns, sets and leaves of the block. -/
structure Analysis where
  failed : Bool := false
  tbb : Option Nat := none
  fbb : Option Nat := none
  cond : List BrOperand := []
  block : List BrInstr
  deriving DecidableEq, Repr

/-- `AnalyzeCondBr`: the condition, whose last operand is the target. -/
def analyzeCondBr (i : BrInstr) (opc : BrOpcode) : Option Nat × List BrOperand :=
  (i.target, .imm opc :: i.operands.dropLast)

/-- The terminators of a block, from the end: two of them, with the instructions
before. -/
def analyzeTerminators (mbb dbg : List BrInstr) (last : BrInstr) (lastOpc : BrOpcode) (rest : List BrInstr)
    (allowModify : Bool) : Analysis :=
  let second := rest.head?
  if second.any fun i => i.isUnpredicatedTerminator && (getAnalyzableBrOpc i.opcode).isNone then
    { failed := true, block := mbb }
  else
    match second.bind fun i => (getAnalyzableBrOpc i.opcode).map fun opc => (i, opc) with
    | none =>
      if lastOpc = .jmp then { tbb := last.target, block := mbb }
      else { tbb := (analyzeCondBr last lastOpc).1, cond := (analyzeCondBr last lastOpc).2, block := mbb }
    | some (second, secondOpc) =>
      if rest.tail.head?.any BrInstr.isUnpredicatedTerminator then { failed := true, block := mbb }
      else if secondOpc = .jmp then
        -- The last instruction is not reached and is erased.
        if allowModify then { tbb := second.target, block := (dbg ++ rest).reverse }
        else { failed := true, block := mbb }
      else if lastOpc ≠ .jmp then { failed := true, block := mbb }
      else
        { tbb := (analyzeCondBr second secondOpc).1, fbb := last.target, cond := (analyzeCondBr second secondOpc).2,
          block := mbb }

/-- `AnalyzeBranch`. -/
def analyzeBranch (mbb : List BrInstr) (allowModify : Bool) : Analysis :=
  match mbb.reverse.dropWhile BrInstr.isDebugValue with
  | [] => { block := mbb }
  | last :: rest =>
    if !last.isUnpredicatedTerminator then { block := mbb }
    else
      match getAnalyzableBrOpc last.opcode with
      | none => { failed := true, block := mbb }
      | some lastOpc =>
        analyzeTerminators mbb (mbb.reverse.takeWhile BrInstr.isDebugValue) last lastOpc rest allowModify

/-- The branches that `RemoveBranch` finds at the end of a block: at most two. -/
def removable (is : List BrInstr) : List BrInstr :=
  (is.take 2).takeWhile fun i => (getAnalyzableBrOpc i.opcode).isSome

/-- `RemoveBranch`: the block without its last branches, and how many there
were. -/
def removeBranch (mbb : List BrInstr) : List BrInstr × Nat :=
  let dbg := mbb.reverse.takeWhile BrInstr.isDebugValue
  let is := mbb.reverse.dropWhile BrInstr.isDebugValue
  ((dbg ++ is.drop (removable is).length).reverse, (removable is).length)

/-- The conditional branch of a condition: it has as many registers as the
instruction has operands besides the target. -/
def condBranch (cond : List BrOperand) (tbb : Nat) : Option BrInstr :=
  cond.head?.bind fun c => c.getImm.bind fun opc =>
    if opc.getNumOperands = 3 then
      cond[1]?.bind fun a => a.getReg.bind fun a => cond[2]?.bind fun b => b.getReg.bind fun b =>
        BrInstr.build opc [.reg a, .reg b, .mbb tbb]
    else if opc.getNumOperands = 2 then
      cond[1]?.bind fun a => a.getReg.bind fun a => BrInstr.build opc [.reg a, .mbb tbb]
    else none

/-- `InsertBranch`: the block with the branches at its end, and how many there
are; nothing where it asserts otherwise. -/
def insertBranch (mbb : List BrInstr) (tbb fbb : Option Nat) (cond : List BrOperand) : Option (List BrInstr × Nat) :=
  tbb.bind fun tbb =>
    if cond.length ≠ 3 ∧ cond.length ≠ 2 ∧ cond.length ≠ 0 then none
    else
      match fbb with
      | some fbb =>
        (condBranch cond tbb).bind fun br => (BrInstr.build .jmp [.mbb fbb]).map fun jmp => (mbb ++ [br, jmp], 2)
      | none =>
        if cond = [] then (BrInstr.build .jmp [.mbb tbb]).map fun jmp => (mbb ++ [jmp], 1)
        else (condBranch cond tbb).map fun br => (mbb ++ [br], 1)

/-- `ReverseBranchCondition`. -/
def reverseBranchCondition : List BrOperand → Option (List BrOperand)
  | .imm opc :: cond =>
    if cond.length ≤ 2 then (getOppositeBranchOpcode opc).map fun opc => .imm opc :: cond else none
  | _ => none

section Run

variable {E : Nat → Regs → Regs} {layout : Option Nat}

theorem BrInstr.transfer_of_not_terminator {i : BrInstr} (h : i.isUnpredicatedTerminator = false) (regs : Regs) :
    i.transfer regs = none := by
  obtain ⟨opcode, operands, hw⟩ := i
  cases opcode <;> first | rfl | cases h

theorem BrInstr.effect_of_terminator {i : BrInstr} (h : i.isUnpredicatedTerminator = true) (regs : Regs) :
    i.effect E regs = regs := by
  obtain ⟨opcode, operands, hw⟩ := i
  cases opcode <;> first | rfl | cases h

theorem BrInstr.effect_of_debugValue {i : BrInstr} (h : i.isDebugValue = true) (regs : Regs) :
    i.effect E regs = regs := by
  rw [isDebugValue, beq_iff_eq] at h
  rw [effect, h]

theorem BrInstr.not_terminator_of_debugValue {i : BrInstr} (h : i.isDebugValue = true) :
    i.isUnpredicatedTerminator = false := by
  rw [isDebugValue, beq_iff_eq] at h
  rw [isUnpredicatedTerminator, h]
  rfl

/-- Control goes through instructions that are no terminators. -/
theorem successor_append {is : List BrInstr} (h : ∀ i ∈ is, i.isUnpredicatedTerminator = false) (is' : List BrInstr)
    (regs : Regs) : successor E layout (is ++ is') regs = successor E layout is' (effects E is regs) := by
  induction is generalizing regs with
  | nil => rfl
  | cons i is ih =>
    rw [List.cons_append, successor, i.transfer_of_not_terminator (h i (.head _)), Option.getD_none]
    exact ih (fun j hj => h j (.tail _ hj)) _

/-- Debug values at the end make no difference. -/
theorem successor_append_debugValues {dbg : List BrInstr} (h : ∀ i ∈ dbg, i.isDebugValue = true) (is : List BrInstr)
    (regs : Regs) : successor E layout (is ++ dbg) regs = successor E layout is regs := by
  induction is generalizing regs with
  | nil =>
    have hdbg : successor E layout (dbg ++ []) regs = successor E layout [] (effects E dbg regs) :=
      successor_append (fun i hi => i.not_terminator_of_debugValue (h i hi)) [] regs
    rwa [List.append_nil] at hdbg
  | cons i is ih => rw [List.cons_append, successor, successor, ih]

theorem effects_append (is is' : List BrInstr) (regs : Regs) :
    effects E (is ++ is') regs = effects E is' (effects E is regs) := List.foldl_append

/-- What leaves the registers alone. -/
theorem effects_eq_self {is : List BrInstr} (h : ∀ i ∈ is, ∀ regs, i.effect E regs = regs) (regs : Regs) :
    effects E is regs = regs := by
  induction is with
  | nil => rfl
  | cons i is ih =>
    rw [effects, List.foldl_cons, h i (.head _), ← effects]
    exact ih fun j hj => h j (.tail _ hj)

end Run

/-! ## Shapes -/

/-- A block from its end: debug values, terminators, and the rest. -/
structure Shape (mbb dbg ts body : List BrInstr) : Prop where
  reverse_eq : mbb.reverse = dbg ++ (ts ++ body)
  isDebugValue : ∀ i ∈ dbg, BrInstr.isDebugValue i = true
  isTerminator : ∀ i ∈ ts, BrInstr.isUnpredicatedTerminator i = true
  not_terminator : ∀ i ∈ body, BrInstr.isUnpredicatedTerminator i = false
  /-- The debug values are all that there are at the end. -/
  last : ∀ i ∈ (ts ++ body).head?, BrInstr.isDebugValue i = false

/-- The terminators of a block are next to each other, with only debug values
behind them. -/
def TerminatorsLast (mbb : List BrInstr) : Prop :=
  ∃ body ts dbg, mbb = body ++ ts ++ dbg ∧ (∀ i ∈ body, BrInstr.isUnpredicatedTerminator i = false) ∧
    (∀ i ∈ ts, BrInstr.isUnpredicatedTerminator i = true) ∧ ∀ i ∈ dbg, BrInstr.isDebugValue i = true

theorem BrInstr.not_debugValue_of_terminator {i : BrInstr} (h : i.isUnpredicatedTerminator = true) :
    i.isDebugValue = false := by
  by_contra hd
  exact nomatch (i.not_terminator_of_debugValue (by simpa using hd)).symm.trans h

section Shape

variable {mbb dbg ts body : List BrInstr}

theorem Shape.takeWhile (h : Shape mbb dbg ts body) : mbb.reverse.takeWhile BrInstr.isDebugValue = dbg := by
  rw [h.reverse_eq, List.takeWhile_append_of_pos h.isDebugValue]
  cases he : ts ++ body with
  | nil => simp
  | cons i is =>
    have hi := h.last i (by rw [he]; rfl)
    rw [List.takeWhile_cons_of_neg (by simp [hi]), List.append_nil]

theorem Shape.dropWhile (h : Shape mbb dbg ts body) : mbb.reverse.dropWhile BrInstr.isDebugValue = ts ++ body := by
  rw [h.reverse_eq, List.dropWhile_append_of_pos h.isDebugValue]
  cases he : ts ++ body with
  | nil => rfl
  | cons i is =>
    have hi := h.last i (by rw [he]; rfl)
    rw [List.dropWhile_cons_of_neg (by simp [hi])]

theorem TerminatorsLast.shape (h : TerminatorsLast mbb) : ∃ dbg ts body, Shape mbb dbg ts body := by
  obtain ⟨body, ts, dbg, rfl, hbody, hts, hdbg⟩ := h
  cases hrev : ts.reverse with
  | nil =>
    -- Without terminators, debug values before them are at the end as well.
    obtain rfl : ts = [] := List.reverse_eq_nil_iff.mp hrev
    refine ⟨(body ++ [] ++ dbg).reverse.takeWhile BrInstr.isDebugValue, [],
      (body ++ [] ++ dbg).reverse.dropWhile BrInstr.isDebugValue, ?_, fun i hi => List.mem_takeWhile_imp hi, nofun,
      ?_, ?_⟩
    · rw [List.nil_append, List.takeWhile_append_dropWhile]
    · intro i hi
      have hmem := (List.dropWhile_sublist _).subset hi
      simp only [List.append_nil, List.reverse_append, List.mem_append, List.mem_reverse] at hmem
      exact hmem.elim (fun h => i.not_terminator_of_debugValue (hdbg i h)) (hbody i)
    · intro i hi
      have hhead := List.head?_dropWhile_not BrInstr.isDebugValue (body ++ [] ++ dbg).reverse
      rw [List.nil_append, Option.mem_def] at hi
      rwa [hi] at hhead
  | cons t ts' =>
    have hmem : t ∈ ts := List.mem_reverse.mp (by rw [hrev]; exact .head _)
    refine ⟨dbg.reverse, t :: ts', body.reverse, by simp [hrev], fun i hi => hdbg i (List.mem_reverse.mp hi),
      fun i hi => ?_, fun i hi => hbody i (List.mem_reverse.mp hi), fun i hi => ?_⟩
    · exact hts i (List.mem_reverse.mp (by rw [hrev]; exact hi))
    · obtain rfl : t = i := Option.some.inj hi
      exact t.not_debugValue_of_terminator (hts t hmem)

variable {E : Nat → Regs → Regs} {layout : Option Nat}

/-- What is before the terminators, as it is executed. -/
theorem Shape.eq (h : Shape mbb dbg ts body) : mbb = body.reverse ++ ts.reverse ++ dbg.reverse := by
  have := congrArg List.reverse h.reverse_eq
  simpa using this

/-- Only what is before the terminators changes the registers. -/
theorem Shape.effects_eq (h : Shape mbb dbg ts body) (regs : Regs) :
    effects E mbb regs = effects E body.reverse regs := by
  have hts : ∀ i ∈ ts.reverse, ∀ regs, i.effect E regs = regs := fun i hi =>
    i.effect_of_terminator (h.isTerminator i (List.mem_reverse.mp hi))
  have hdbg : ∀ i ∈ dbg.reverse, ∀ regs, i.effect E regs = regs := fun i hi =>
    i.effect_of_debugValue (h.isDebugValue i (List.mem_reverse.mp hi))
  rw [h.eq, effects_append, effects_append, effects_eq_self hdbg, effects_eq_self hts]

/-- The successor of a block is that of its terminators. -/
theorem Shape.successor_eq (h : Shape mbb dbg ts body) (regs : Regs) :
    successor E layout mbb regs = successor E layout ts.reverse (effects E mbb regs) := by
  rw [h.effects_eq, h.eq, successor_append_debugValues fun i hi => h.isDebugValue i (List.mem_reverse.mp hi),
    successor_append fun i hi => h.not_terminator i (List.mem_reverse.mp hi)]

end Shape

/-- A condition holds; the empty one always does. -/
def condTaken (cond : List BrOperand) (regs : Regs) : Bool :=
  match cond with
  | .imm opc :: ops => condHolds opc (regValues regs ops)
  | _ => true

/-- A description of the end of a block. -/
def describes (tbb fbb : Option Nat) (cond : List BrOperand) (layout : Option Nat) (regs : Regs) : Successor :=
  match tbb with
  | none => fallThrough layout
  | some tbb => if condTaken cond regs then .block tbb else fbb.elim (fallThrough layout) .block

/-- The conditions of conditional branches: their opcode and registers. -/
inductive CondForm : List BrOperand → Prop
  | two {opc : BrOpcode} (h : opc.getNumOperands = 3) (a b : Nat) : CondForm [.imm opc, .reg a, .reg b]
  | one {opc : BrOpcode} (h : opc.getNumOperands = 2) (a : Nat) : CondForm [.imm opc, .reg a]

/-- A conditional branch has two registers and a block, or one register. -/
theorem BrInstr.operands_of_isCond {i : BrInstr} (h : i.opcode.isCond = true) :
    (∃ a b t, i.operands = [.reg a, .reg b, .mbb t] ∧ i.opcode.getNumOperands = 3) ∨
      ∃ a t, i.operands = [.reg a, .mbb t] ∧ i.opcode.getNumOperands = 2 := by
  obtain ⟨opcode, operands, hw⟩ := i
  simp only at h ⊢
  unfold WellTyped at hw
  split at hw <;> first
    | (cases h; done)
    | (cases hw; done)
    | exact .inl ⟨_, _, _, rfl, rfl⟩
    | exact .inr ⟨_, _, rfl, rfl⟩

theorem CondForm.ne_nil {cond : List BrOperand} (h : CondForm cond) : cond ≠ [] := by
  cases h <;> exact List.cons_ne_nil _ _

/-- A branch that is made of a condition is taken if it holds. -/
theorem CondForm.condBranch {cond : List BrOperand} (h : CondForm cond) (tbb : Nat) :
    ∃ br, condBranch cond tbb = some br ∧
      ∀ regs, br.transfer regs = if condTaken cond regs then some (.block tbb) else none := by
  cases h with
  | @two opc h a b =>
    cases opc <;> first | cases h; done | exact ⟨⟨_, [.reg a, .reg b, .mbb tbb], rfl⟩, rfl, fun _ => rfl⟩
  | @one opc h a =>
    cases opc <;> first | cases h; done | exact ⟨⟨_, [.reg a, .mbb tbb], rfl⟩, rfl, fun _ => rfl⟩

theorem condHolds_opposite_two {opc : BrOpcode} (h : opc.getNumOperands = 3) :
    ∃ opc', getOppositeBranchOpcode opc = some opc' ∧ opc'.getNumOperands = 3 ∧
      ∀ x y, condHolds opc' [x, y] = !condHolds opc [x, y] := by
  cases opc with
  | beq => exact ⟨.bne, rfl, rfl, fun x y => rfl⟩
  | bne => exact ⟨.beq, rfl, rfl, fun x y => (Bool.not_not _).symm⟩
  | _ => cases h

/-- The comparisons with zero are signed, and so are their opposites. -/
theorem condHolds_opposite_one {opc : BrOpcode} (h : opc.getNumOperands = 2) :
    ∃ opc', getOppositeBranchOpcode opc = some opc' ∧ opc'.getNumOperands = 2 ∧
      ∀ x, condHolds opc' [x] = !condHolds opc [x] := by
  cases opc with
  | bge => exact ⟨.blt, rfl, rfl, fun x => by simp only [condHolds, ← decide_not, not_le]⟩
  | bgt => exact ⟨.ble, rfl, rfl, fun x => by simp only [condHolds, ← decide_not, not_lt]⟩
  | ble => exact ⟨.bgt, rfl, rfl, fun x => by simp only [condHolds, ← decide_not, not_le]⟩
  | blt => exact ⟨.bge, rfl, rfl, fun x => by simp only [condHolds, ← decide_not, not_lt]⟩
  | be => exact ⟨.bnz, rfl, rfl, fun x => rfl⟩
  | bnz => exact ⟨.be, rfl, rfl, fun x => (Bool.not_not _).symm⟩
  | _ => cases h

/-- Reversed, it holds if it did not. -/
theorem CondForm.reverse {cond : List BrOperand} (h : CondForm cond) :
    ∃ cond', reverseBranchCondition cond = some cond' ∧ CondForm cond' ∧
      ∀ regs, condTaken cond' regs = !condTaken cond regs := by
  cases h with
  | two h a b =>
    obtain ⟨opc', ho, hn, hc⟩ := condHolds_opposite_two h
    exact ⟨[.imm opc', .reg a, .reg b], by rw [reverseBranchCondition, ho]; rfl, .two hn a b, fun regs => hc _ _⟩
  | one h a =>
    obtain ⟨opc', ho, hn, hc⟩ := condHolds_opposite_one h
    exact ⟨[.imm opc', .reg a], by rw [reverseBranchCondition, ho]; rfl, .one hn a, fun regs => hc _⟩

theorem BrInstr.transfer_of_isCond {i : BrInstr} (h : i.opcode.isCond = true) (regs : Regs) :
    i.transfer regs = if condHolds i.opcode (regValues regs i.operands) then i.target.map .block else none := by
  obtain ⟨opcode, operands, hw⟩ := i
  cases opcode <;> first | rfl | cases h

/-- What `AnalyzeCondBr` finds of a conditional branch. -/
theorem analyzeCondBr_spec {i : BrInstr} (h : i.opcode.isCond = true) :
    ∃ t, (analyzeCondBr i i.opcode).1 = some t ∧ CondForm (analyzeCondBr i i.opcode).2 ∧
      ∀ regs, i.transfer regs = if condTaken (analyzeCondBr i i.opcode).2 regs then some (.block t) else none := by
  obtain ⟨a, b, t, ho, hn⟩ | ⟨a, t, ho, hn⟩ := i.operands_of_isCond h
  · refine ⟨t, by rw [analyzeCondBr, BrInstr.target, ho]; rfl, by rw [analyzeCondBr, ho]; exact .two hn a b,
      fun regs => ?_⟩
    rw [i.transfer_of_isCond h, analyzeCondBr, BrInstr.target, ho]
    rfl
  · refine ⟨t, by rw [analyzeCondBr, BrInstr.target, ho]; rfl, by rw [analyzeCondBr, ho]; exact .one hn a,
      fun regs => ?_⟩
    rw [i.transfer_of_isCond h, analyzeCondBr, BrInstr.target, ho]
    rfl

section Insert

variable {fbb : Option Nat} {cond : List BrOperand}

/-- A jump. -/
def jmpTo (b : Nat) : BrInstr := ⟨.jmp, [.mbb b], rfl⟩

/-- A block of the branches of a description does what it describes. -/
theorem insertBranch_spec (E : Nat → Regs → Regs) (layout : Option Nat) (tbb : Nat)
    (h : CondForm cond ∨ cond = [] ∧ fbb = none) (mbb : List BrInstr) :
    ∃ brs, insertBranch mbb (some tbb) fbb cond = some (mbb ++ brs, brs.length) ∧
      ∀ regs, successor E layout brs regs = describes (some tbb) fbb cond layout regs := by
  rcases h with h | ⟨rfl, rfl⟩
  · obtain ⟨br, hbr, ht⟩ := h.condBranch tbb
    have hlen : ¬(cond.length ≠ 3 ∧ cond.length ≠ 2 ∧ cond.length ≠ 0) := by cases h <;> simp
    have hsucc (regs : Regs) (brs : List BrInstr) :
        successor E layout (br :: brs) regs =
          if condTaken cond regs then .block tbb else successor E layout brs (br.effect E regs) := by
      rw [successor, ht]
      split <;> rfl
    cases fbb with
    | some fbb =>
      refine ⟨[br, jmpTo fbb], ?_, fun regs => ?_⟩
      · rw [insertBranch, Option.bind_some, if_neg hlen, hbr]
        rfl
      · rw [hsucc]
        rfl
    | none =>
      refine ⟨[br], ?_, fun regs => ?_⟩
      · rw [insertBranch, Option.bind_some, if_neg hlen]
        simp only [h.ne_nil, if_false, hbr, Option.map_some]
        rfl
      · rw [hsucc]
        rfl
  · exact ⟨[jmpTo tbb], rfl, fun regs => rfl⟩

theorem getAnalyzableBrOpc_of_not_terminator {i : BrInstr} (h : i.isUnpredicatedTerminator = false) :
    getAnalyzableBrOpc i.opcode = none := by
  obtain ⟨opcode, operands, hw⟩ := i
  cases opcode <;> first | rfl | cases h

/-- Exactly the terminators are removed, if they can all be analysed and are at
most two. -/
theorem removeBranch_spec {mbb dbg ts body : List BrInstr} (h : Shape mbb dbg ts body)
    (hts : ∀ i ∈ ts, (getAnalyzableBrOpc i.opcode).isSome = true) (hlen : ts.length ≤ 2) :
    removeBranch mbb = ((dbg ++ body).reverse, ts.length) := by
  have hbody : (body.take (2 - ts.length)).takeWhile (fun i => (getAnalyzableBrOpc i.opcode).isSome) = [] := by
    rw [List.takeWhile_eq_nil_iff]
    intro hpos
    have hmem := (List.take_subset _ body) (List.get_mem _ ⟨0, hpos⟩)
    rw [getAnalyzableBrOpc_of_not_terminator (h.not_terminator _ hmem)]
    decide
  have hrem : removable (ts ++ body) = ts := by
    rw [removable, List.take_append, List.take_of_length_le hlen, List.takeWhile_append_of_pos hts, hbody,
      List.append_nil]
  rw [removeBranch]
  simp only [h.takeWhile, h.dropWhile, hrem, List.drop_left]

end Insert

section Analyse

variable {E : Nat → Regs → Regs}

/-- What `AnalyzeBranch` says of a block `mbb`, if it does not fail: it leaves at
most two branches, which it describes. -/
structure Analysis.Describes (E : Nat → Regs → Regs) (a : Analysis) (mbb : List BrInstr) : Prop where
  shape : ∃ dbg ts body, Shape a.block dbg ts body ∧ (∀ i ∈ ts, (getAnalyzableBrOpc i.opcode).isSome = true) ∧
    ts.length ≤ 2
  cond : CondForm a.cond ∨ a.cond = [] ∧ a.fbb = none
  target : a.tbb = none → a.cond = [] ∧ ∀ i ∈ a.block, i.isUnpredicatedTerminator = false
  successor_eq : ∀ layout regs, successor E layout mbb regs = describes a.tbb a.fbb a.cond layout (effects E mbb regs)
  unchanged : ∀ layout regs, successor E layout a.block regs = successor E layout mbb regs ∧
    effects E a.block regs = effects E mbb regs

theorem getAnalyzableBrOpc_eq {opc opc' : BrOpcode} (h : getAnalyzableBrOpc opc = some opc') :
    opc' = opc ∧ (opc = .jmp ∨ opc.isCond = true) := by
  cases opc <;> first | (cases h; done) | (cases h; exact ⟨rfl, by decide⟩)

/-- A jump. -/
theorem BrInstr.transfer_of_jmp {i : BrInstr} (h : i.opcode = .jmp) :
    ∃ t, i.target = some t ∧ ∀ regs, i.transfer regs = some (.block t) := by
  obtain ⟨opcode, operands, hw⟩ := i
  obtain rfl : opcode = .jmp := h
  unfold WellTyped at hw
  split at hw <;> first | (cases hw; done) | exact ⟨_, rfl, fun _ => rfl⟩ | simp_all

variable {mbb dbg body : List BrInstr} {t u : BrInstr} {tOpc uOpc : BrOpcode}

/-- What is said of a block that is left as it is. -/
theorem Analysis.describes_of_block {a : Analysis} {ts : List BrInstr} (h : Shape mbb dbg ts body)
    (hts : ∀ i ∈ ts, (getAnalyzableBrOpc i.opcode).isSome = true) (hlen : ts.length ≤ 2) (hblock : a.block = mbb)
    (hcond : CondForm a.cond ∨ a.cond = [] ∧ a.fbb = none) (htarget : a.tbb = none → a.cond = [] ∧ ts = [])
    (hsucc : ∀ layout regs, successor E layout ts.reverse regs = describes a.tbb a.fbb a.cond layout regs) :
    a.Describes E mbb where
  shape := ⟨dbg, ts, body, hblock ▸ h, hts, hlen⟩
  cond := hcond
  target hn := by
    obtain ⟨hc, rfl⟩ := htarget hn
    refine ⟨hc, fun i hi => ?_⟩
    rw [hblock, h.eq, List.reverse_nil, List.append_nil] at hi
    rcases List.mem_append.mp hi with hi | hi
    · exact h.not_terminator i (List.mem_reverse.mp hi)
    · exact i.not_terminator_of_debugValue (h.isDebugValue i (List.mem_reverse.mp hi))
  successor_eq layout regs := by rw [h.successor_eq, hsucc]
  unchanged layout regs := by rw [hblock]; exact ⟨rfl, rfl⟩

/-- The first instruction before the terminators is none. -/
theorem any_terminator_body (h : ∀ i ∈ body, BrInstr.isUnpredicatedTerminator i = false) (p : BrInstr → Bool) :
    (body.head?.any fun i => i.isUnpredicatedTerminator && p i) = false := by
  cases body with
  | nil => rfl
  | cons i is => simp [h i (.head _)]

/-- Another block that does the same is described as well. -/
theorem Analysis.Describes.of_same {a : Analysis} (mbb' : List BrInstr) (h : a.Describes E mbb')
    (hsucc : ∀ layout regs, successor E layout mbb' regs = successor E layout mbb regs)
    (heff : ∀ regs, effects E mbb' regs = effects E mbb regs) : a.Describes E mbb where
  shape := h.shape
  cond := h.cond
  target := h.target
  successor_eq layout regs := by rw [← hsucc, ← heff, h.successor_eq]
  unchanged layout regs := by rw [← hsucc, ← heff]; exact h.unchanged layout regs

/-- `AnalyzeBranch` either gives up and leaves the block alone, or describes
it. -/
def Analysis.Sound (E : Nat → Regs → Regs) (a : Analysis) (mbb : List BrInstr) : Prop :=
  a.failed = true ∧ a.block = mbb ∨ a.failed = false ∧ a.Describes E mbb

/-- One terminator. -/
theorem analyzeTerminators_one (h : Shape mbb dbg [t] body) (ht : getAnalyzableBrOpc t.opcode = some tOpc)
    (allowModify : Bool) :
    (analyzeTerminators mbb dbg t tOpc body allowModify).Sound E mbb := by
  obtain ⟨rfl, hkind⟩ := getAnalyzableBrOpc_eq ht
  have hts : ∀ i ∈ [t], (getAnalyzableBrOpc i.opcode).isSome = true := by
    intro i hi
    rw [List.mem_singleton.mp hi, ht]
    rfl
  have hnone : (body.head?.bind fun i => (getAnalyzableBrOpc i.opcode).map fun opc => (i, opc)) = none := by
    cases body with
    | nil => rfl
    | cons i is =>
      rw [List.head?_cons, Option.bind_some, getAnalyzableBrOpc_of_not_terminator (h.not_terminator i (.head _))]
      rfl
  rw [analyzeTerminators, if_neg (by simp [any_terminator_body h.not_terminator]), hnone]
  by_cases hj : t.opcode = .jmp
  · obtain ⟨b, hb, hsucc⟩ := t.transfer_of_jmp hj
    simp only [hj, if_true]
    refine .inr ⟨rfl, Analysis.describes_of_block h hts (Nat.le_succ 1) rfl (.inr ⟨rfl, rfl⟩)
      (fun hn => nomatch hb.symm.trans hn) ?_⟩
    intro layout regs
    simp only [hb]
    rw [List.reverse_singleton, successor, hsucc]
    rfl
  · obtain ⟨b, hb, hform, hsucc⟩ := analyzeCondBr_spec (hkind.resolve_left hj)
    simp only [hj, if_false]
    refine .inr ⟨rfl, Analysis.describes_of_block h hts (Nat.le_succ 1) rfl (.inl hform)
      (fun hn => nomatch hb.symm.trans hn) ?_⟩
    intro layout regs
    simp only [hb]
    rw [List.reverse_singleton, successor, hsucc, describes]
    split <;> rfl

/-- Two terminators: the first is a jump, and the last is never reached, or the
first is conditional. -/
theorem analyzeTerminators_two (h : Shape mbb dbg [t, u] body) (ht : getAnalyzableBrOpc t.opcode = some tOpc)
    (allowModify : Bool) : (analyzeTerminators mbb dbg t tOpc (u :: body) allowModify).Sound E mbb := by
  obtain ⟨rfl, htkind⟩ := getAnalyzableBrOpc_eq ht
  have hu : u.isUnpredicatedTerminator = true := h.isTerminator u (.tail _ (.head _))
  have hbody : body.head?.any BrInstr.isUnpredicatedTerminator = false := by
    have := any_terminator_body h.not_terminator fun _ => true
    simpa only [Bool.and_true] using this
  rw [analyzeTerminators]
  simp only [List.head?_cons, Option.any_some, hu, Bool.true_and, Option.bind_some, List.tail_cons, hbody]
  cases huOpc : getAnalyzableBrOpc u.opcode with
  | none => exact .inl ⟨rfl, rfl⟩
  | some uOpc =>
    obtain ⟨rfl, hukind⟩ := getAnalyzableBrOpc_eq huOpc
    simp only [Option.isNone_some, Option.map_some, if_false, Bool.false_eq_true]
    by_cases hj : u.opcode = .jmp
    · simp only [hj, if_true]
      cases allowModify with
      | false => exact .inl ⟨rfl, rfl⟩
      | true =>
        obtain ⟨b, hb, hsucc⟩ := u.transfer_of_jmp hj
        have h' : Shape (dbg ++ (u :: body)).reverse dbg [u] body :=
          { reverse_eq := List.reverse_reverse _
            isDebugValue := h.isDebugValue
            isTerminator := fun i hi => by rw [List.mem_singleton.mp hi]; exact hu
            not_terminator := h.not_terminator
            last := fun i hi => by
              obtain rfl : u = i := Option.some.inj hi
              exact u.not_debugValue_of_terminator hu }
        refine .inr ⟨rfl, .of_same (dbg ++ (u :: body)).reverse ?_ ?_ ?_⟩
        · refine Analysis.describes_of_block h' ?_ (Nat.le_succ 1) rfl (.inr ⟨rfl, rfl⟩)
            (fun hn => nomatch hb.symm.trans hn) fun layout regs => ?_
          · intro i hi
            rw [List.mem_singleton.mp hi, huOpc]
            rfl
          · simp only [hb]
            rw [List.reverse_singleton, successor, hsucc]
            rfl
        · intro layout regs
          rw [h'.successor_eq, h.successor_eq, h'.effects_eq, h.effects_eq]
          simp only [List.reverse_cons, List.reverse_nil, List.nil_append, List.cons_append, successor, hsucc,
            Option.getD_some]
        · intro regs
          rw [h'.effects_eq, h.effects_eq]
    · simp only [hj, if_false]
      by_cases htj : t.opcode = .jmp
      · obtain ⟨b, hb, hform, hsucc⟩ := analyzeCondBr_spec (hukind.resolve_left hj)
        obtain ⟨c, hc, htsucc⟩ := t.transfer_of_jmp htj
        simp only [htj, ne_eq, not_true_eq_false, if_false]
        refine .inr ⟨rfl, Analysis.describes_of_block h ?_ (Nat.le_refl 2) rfl (.inl hform)
          (fun hn => nomatch hb.symm.trans hn) fun layout regs => ?_⟩
        · intro i hi
          rcases List.mem_cons.mp hi with rfl | hi
          · rw [ht]
            rfl
          · rw [List.mem_singleton.mp hi, huOpc]
            rfl
        · simp only [hb, hc, List.reverse_cons, List.reverse_nil, List.nil_append, List.cons_append, successor, hsucc,
            htsucc, Option.getD_some, describes]
          split <;> rfl
      · simp only [htj, ne_eq, not_false_eq_true, if_true]
        exact .inl ⟨rfl, rfl⟩

/-- More than two terminators. -/
theorem analyzeTerminators_more {v : BrInstr} {rest : List BrInstr} (hu : u.isUnpredicatedTerminator = true)
    (hv : v.isUnpredicatedTerminator = true) (allowModify : Bool) :
    (analyzeTerminators mbb dbg t tOpc (u :: v :: rest) allowModify).Sound E mbb := by
  rw [analyzeTerminators]
  simp only [List.head?_cons, Option.any_some, hu, hv, Bool.true_and, Option.bind_some, List.tail_cons, if_true]
  cases getAnalyzableBrOpc u.opcode with
  | none => exact .inl ⟨rfl, rfl⟩
  | some uOpc => exact .inl ⟨rfl, rfl⟩

/-- `AnalyzeBranch` describes what a block does, if it does not give up. -/
theorem analyzeBranch_spec (h : TerminatorsLast mbb) (allowModify : Bool) :
    (analyzeBranch mbb allowModify).Sound E mbb := by
  obtain ⟨dbg, ts, body, h⟩ := h.shape
  rw [analyzeBranch, h.dropWhile, h.takeWhile]
  cases ts with
  | nil =>
    have hfall : Analysis.Sound E { block := mbb } mbb :=
      .inr ⟨rfl, Analysis.describes_of_block h nofun (Nat.zero_le 2) rfl (.inr ⟨rfl, rfl⟩) (fun _ => ⟨rfl, rfl⟩)
        fun _ _ => rfl⟩
    cases body with
    | nil => exact hfall
    | cons i body =>
      simp only [List.nil_append, h.not_terminator i (.head _), Bool.not_false, if_true]
      exact hfall
  | cons t ts =>
    simp only [List.cons_append, h.isTerminator t (.head _), Bool.not_true, Bool.false_eq_true, if_false]
    cases ht : getAnalyzableBrOpc t.opcode with
    | none => exact .inl ⟨rfl, rfl⟩
    | some tOpc =>
      match ts, h with
      | [], h => exact analyzeTerminators_one h ht allowModify
      | [u], h => exact analyzeTerminators_two h ht allowModify
      | u :: v :: ts, h =>
        exact analyzeTerminators_more (h.isTerminator u (.tail _ (.head _)))
          (h.isTerminator v (.tail _ (.tail _ (.head _)))) allowModify

end Analyse

/-! ## Rewriting -/

section Rewrite

variable {E : Nat → Regs → Regs} {layout : Option Nat} {mbb : List BrInstr} {a : Analysis}

/-- Exactly the branches that were analysed are removed. -/
theorem Analysis.Describes.removeBranch_eq (h : a.Describes E mbb) :
    removeBranch a.block =
      (a.block.filter (!·.isUnpredicatedTerminator), a.block.countP BrInstr.isUnpredicatedTerminator) := by
  obtain ⟨dbg, ts, body, hs, hts, hlen⟩ := h.shape
  have hbody : ∀ i ∈ body.reverse, i.isUnpredicatedTerminator = false := fun i hi =>
    hs.not_terminator i (List.mem_reverse.mp hi)
  have hterm : ∀ i ∈ ts.reverse, i.isUnpredicatedTerminator = true := fun i hi =>
    hs.isTerminator i (List.mem_reverse.mp hi)
  have hdbg : ∀ i ∈ dbg.reverse, i.isUnpredicatedTerminator = false := fun i hi =>
    i.not_terminator_of_debugValue (hs.isDebugValue i (List.mem_reverse.mp hi))
  have hkeep {l : List BrInstr} (hl : ∀ i ∈ l, i.isUnpredicatedTerminator = false) :
      l.filter (!·.isUnpredicatedTerminator) = l ∧ l.countP BrInstr.isUnpredicatedTerminator = 0 :=
    ⟨List.filter_eq_self.mpr fun i hi => by rw [hl i hi]; rfl,
      List.countP_eq_zero.mpr fun i hi => by rw [hl i hi]; decide⟩
  have hgone : ts.reverse.filter (!·.isUnpredicatedTerminator) = [] :=
    List.filter_eq_nil_iff.mpr fun i hi => by rw [hterm i hi]; decide
  have hfilter : a.block.filter (!·.isUnpredicatedTerminator) = (dbg ++ body).reverse := by
    rw [hs.eq, List.filter_append, List.filter_append, (hkeep hbody).1, hgone, (hkeep hdbg).1, List.append_nil,
      List.reverse_append]
  have hcount : a.block.countP BrInstr.isUnpredicatedTerminator = ts.length := by
    rw [hs.eq, List.countP_append, List.countP_append, (hkeep hbody).2, List.countP_eq_length.mpr hterm,
      (hkeep hdbg).2, List.length_reverse, Nat.zero_add, Nat.add_zero]
  rw [removeBranch_spec hs hts hlen, hfilter, hcount]

theorem Analysis.Describes.not_terminator_removed (h : a.Describes E mbb) :
    ∀ i ∈ (removeBranch a.block).1, i.isUnpredicatedTerminator = false := by
  intro i hi
  rw [h.removeBranch_eq] at hi
  simpa using (List.mem_filter.mp hi).2

/-- Without its branches a block does the same to the registers. -/
theorem Analysis.Describes.effects_removed (h : a.Describes E mbb) (regs : Regs) :
    effects E (removeBranch a.block).1 regs = effects E mbb regs := by
  obtain ⟨dbg, ts, body, hs, hts, hlen⟩ := h.shape
  have hdbg : ∀ i ∈ dbg.reverse, ∀ regs, i.effect E regs = regs := fun i hi =>
    i.effect_of_debugValue (hs.isDebugValue i (List.mem_reverse.mp hi))
  rw [removeBranch_spec hs hts hlen, ← (h.unchanged none regs).2, hs.effects_eq, List.reverse_append,
    effects_append, effects_eq_self hdbg]

/-- Branches behind what is left see the same registers. -/
theorem Analysis.Describes.successor_removed (h : a.Describes E mbb) (layout : Option Nat) (brs : List BrInstr)
    (regs : Regs) :
    successor E layout ((removeBranch a.block).1 ++ brs) regs = successor E layout brs (effects E mbb regs) := by
  rw [successor_append h.not_terminator_removed, h.effects_removed]

/-- A description that says the same of the registers at the end of a block can be
inserted in its place. -/
theorem Analysis.Describes.insertBranch_removed (h : a.Describes E mbb) {tbb : Nat} {fbb : Option Nat}
    {cond : List BrOperand} (hcond : CondForm cond ∨ cond = [] ∧ fbb = none) {regs : Regs}
    (hsame : describes (some tbb) fbb cond layout (effects E mbb regs) =
      describes a.tbb a.fbb a.cond layout (effects E mbb regs)) :
    ∃ mbb' n, insertBranch (removeBranch a.block).1 (some tbb) fbb cond = some (mbb', n) ∧
      successor E layout mbb' regs = successor E layout mbb regs := by
  obtain ⟨brs, hins, hsucc⟩ := insertBranch_spec E layout tbb hcond (removeBranch a.block).1
  refine ⟨_, _, hins, ?_⟩
  rw [h.successor_removed, hsucc, hsame, ← h.successor_eq]

/-- What an analysis of a block is good for. -/
structure KeepsControlFlow (E : Nat → Regs → Regs) (layout : Option Nat) (regs : Regs) (mbb : List BrInstr)
    (a : Analysis) : Prop where
  /-- The description is right. -/
  described : successor E layout mbb regs = describes a.tbb a.fbb a.cond layout (effects E mbb regs)
  /-- It is right of the block that is left, from which an instruction may be gone. -/
  erased : successor E layout a.block regs = describes a.tbb a.fbb a.cond layout (effects E mbb regs)
  /-- `RemoveBranch` removes the terminators and nothing else. -/
  removed : removeBranch a.block =
    (a.block.filter (!·.isUnpredicatedTerminator), a.block.countP BrInstr.isUnpredicatedTerminator)
  /-- Without a target there is nothing to insert. -/
  fallsThrough : a.tbb = none → successor E layout (removeBranch a.block).1 regs = successor E layout mbb regs
  /-- The same description can be inserted. -/
  inserted : ∀ tbb, a.tbb = some tbb →
    ∃ mbb' n, insertBranch (removeBranch a.block).1 (some tbb) a.fbb a.cond = some (mbb', n) ∧
      successor E layout mbb' regs = successor E layout mbb regs
  /-- So can the reversed one, with the targets exchanged; either may be the block
  to fall through to. -/
  reversed : ∀ tbb fbb fbb', a.tbb = some tbb → a.cond ≠ [] → a.fbb.or layout = some fbb →
    fbb'.or layout = some tbb →
    ∃ cond' mbb' n, reverseBranchCondition a.cond = some cond' ∧
      insertBranch (removeBranch a.block).1 (some fbb) fbb' cond' = some (mbb', n) ∧
      successor E layout mbb' regs = successor E layout mbb regs

/-- A conditional branch with a second target, or one to fall through to. -/
theorem describes_of_or {tbb fbb : Nat} {fbb? : Option Nat} (h : fbb?.or layout = some fbb) (cond : List BrOperand)
    (regs : Regs) :
    describes (some tbb) fbb? cond layout regs = .block (if condTaken cond regs then tbb else fbb) := by
  have helim : fbb?.elim (fallThrough layout) .block = .block fbb := by
    cases fbb? with
    | some f =>
      obtain rfl : f = fbb := Option.some.inj h
      rfl
    | none =>
      rw [Option.none_or] at h
      rw [Option.elim_none, h]
      rfl
  rw [describes, helim]
  split <;> rfl

/-- The branch functions keep the control flow of every block whose terminators
are at its end. -/
theorem branchAnalysis_correct (E : Nat → Regs → Regs) (layout : Option Nat) (regs : Regs) {mbb : List BrInstr}
    (h : TerminatorsLast mbb) (allowModify : Bool) :
    ((analyzeBranch mbb allowModify).failed = true → (analyzeBranch mbb allowModify).block = mbb) ∧
      ((analyzeBranch mbb allowModify).failed = false →
        KeepsControlFlow E layout regs mbb (analyzeBranch mbb allowModify)) := by
  generalize ha : analyzeBranch mbb allowModify = a
  rcases ha ▸ analyzeBranch_spec (E := E) h allowModify with ⟨hf, hblock⟩ | ⟨hf, hd⟩
  · exact ⟨fun _ => hblock, fun hn => nomatch hf.symm.trans hn⟩
  · refine ⟨fun hn => (nomatch hf.symm.trans hn), fun _ => ?_⟩
    exact
      { described := hd.successor_eq layout regs
        erased := by rw [(hd.unchanged layout regs).1, hd.successor_eq]
        removed := hd.removeBranch_eq
        fallsThrough := fun hn => by
          have hnil := hd.successor_removed layout [] regs
          rw [List.append_nil] at hnil
          rw [hnil, hd.successor_eq, hn]
          rfl
        inserted := fun tbb ht => hd.insertBranch_removed hd.cond (by rw [ht])
        reversed := fun tbb fbb fbb' ht hc hf hf' => by
          have hform := hd.cond.resolve_right fun he => hc he.1
          obtain ⟨cond', hrev, hform', htaken⟩ := hform.reverse
          have hsame : describes (some fbb) fbb' cond' layout (effects E mbb regs) =
              describes a.tbb a.fbb a.cond layout (effects E mbb regs) := by
            rw [ht, describes_of_or hf, describes_of_or hf', htaken]
            cases condTaken a.cond (effects E mbb regs) <;> rfl
          obtain ⟨mbb', n, hins⟩ := hd.insertBranch_removed (.inl hform') hsame
          exact ⟨cond', mbb', n, hrev, hins⟩ }

/-- A conditional branch and a jump behind an instruction, with a debug value at
the end. -/
theorem branchAnalysis_correct_twoWay :
    KeepsControlFlow (fun _ regs r => regs r + 1) (some 7) (fun _ => 0)
      [⟨.other 0, [], rfl⟩, ⟨.bgt, [.reg 3, .mbb 5], rfl⟩, ⟨.jmp, [.mbb 6], rfl⟩, ⟨.dbgValue, [], rfl⟩]
      (analyzeBranch
        [⟨.other 0, [], rfl⟩, ⟨.bgt, [.reg 3, .mbb 5], rfl⟩, ⟨.jmp, [.mbb 6], rfl⟩, ⟨.dbgValue, [], rfl⟩] false) :=
  (branchAnalysis_correct _ _ _
    ⟨[⟨.other 0, [], rfl⟩], [⟨.bgt, [.reg 3, .mbb 5], rfl⟩, ⟨.jmp, [.mbb 6], rfl⟩], [⟨.dbgValue, [], rfl⟩], rfl,
      by decide, by decide, by decide⟩ false).2 rfl

end Rewrite

end Rigel
