import Mathlib.Order.Basic
import RigelCodegen.Select.Immediate

/-!
# Selecting comparisons

The patterns of `RigelInstrInfo.td` for `(setcc lhs, rhs)` (`setccPatterns`)
and for `(brcond (setcc lhs, rhs), dst)` (`brcondPatterns`), both with the
patterns in the instructions' own definitions, in the order of the file. A
pattern gives a condition code and what it takes on either side, and the tree
of instructions it selects; an instruction computes `b op c` of its own
pattern, whatever the order its operands are printed in.

Where several patterns match, any of them may be selected, and every one has
to be right (`setcc_correct`, `brcond_correct`). A `brcond` of a `setcc` no
pattern takes whole is selected as a branch on the value of the `setcc`. Two
patterns are wrong: the value forms of `setoge` and `setogt` on floats have
each other's comparison (`Swapped`).
-/

namespace Rigel

open Word32

/-- `ISD::CondCode`, without the codes that are always folded. -/
inductive CondCode where
  | setoeq | setogt | setoge | setolt | setole | setone | seto | setuo
  | setueq | setugt | setuge | setult | setule | setune
  | seteq | setgt | setge | setlt | setle | setne
  deriving DecidableEq, Repr

/-- The condition on words; `setugt`, `setuge`, `setult` and `setule` compare
unsigned. The ordered codes are not used for integers. -/
def CondCode.onWords (cc : CondCode) (x y : Word) : Option Bool :=
  match cc with
  | seteq | setueq => some (x == y)
  | setne | setune => some (x != y)
  | setlt => some (x.slt y)
  | setle => some (x.sle y)
  | setgt => some (y.slt x)
  | setge => some (y.sle x)
  | setult => some (x.ult y)
  | setule => some (x.ule y)
  | setugt => some (y.ult x)
  | setuge => some (y.ule x)
  | _ => none

section Floats

variable {α : Type} [LinearOrder α]

/-- The condition on floats none of which is a NaN: all are ordered, and an
ordered and an unordered code mean the same. -/
def CondCode.onFloats (cc : CondCode) (x y : α) : Bool :=
  match cc with
  | seteq | setoeq | setueq => x = y
  | setne | setone | setune => x ≠ y
  | setlt | setolt | setult => x < y
  | setle | setole | setule => x ≤ y
  | setgt | setogt | setugt => y < x
  | setge | setoge | setuge => y ≤ x
  | seto => true
  | setuo => false

/-- An operand of a comparison: a 32-bit word in a register or a constant, or
a float in a register. -/
inductive Operand (α : Type) where
  | reg (w : Word)
  | const (c : Word)
  | fpReg (x : α)

/-- The word an instruction reads from an operand. -/
def Operand.word : Operand α → Option Word
  | reg w | const w => some w
  | fpReg _ => none

def Operand.float : Operand α → Option α
  | fpReg x => some x
  | _ => none

/-- The condition on two operands of one type. -/
def CondCode.holds (cc : CondCode) : Operand α → Operand α → Option Bool
  | .fpReg x, .fpReg y => some (cc.onFloats x y)
  | x, y => do cc.onWords (← x.word) (← y.word)

/-- What a pattern takes as an operand. -/
inductive Leaf where
  | cpuRegs | fpRegs | lit (k : Int) | immSExt16 | immZExt16
  deriving DecidableEq

/-- Whether an operand is taken; a constant can be put in a register. -/
def Leaf.accepts : Leaf → Operand α → Bool
  | cpuRegs, .reg _ => true
  | cpuRegs, .const _ => true
  | fpRegs, .fpReg _ => true
  | lit k, .const c => c == BitVec.ofInt 32 k
  | immSExt16, .const c => Rigel.immSExt16 c
  | immZExt16, .const c => Rigel.immZExt16 c
  | _, _ => false

/-- The operands of a pattern. -/
inductive Side where
  | lhs | rhs
  deriving DecidableEq

/-- A tree of selected instructions, with its operands `b` and `c`. -/
inductive Node where
  | opnd (s : Side)
  | zero
  | ceq (b c : Node)
  | clt (b c : Node)
  | cltu (b c : Node)
  | cle (b c : Node)
  | cleu (b c : Node)
  | cltf (b c : Side)
  | cltef (b c : Side)
  | ceqf (b c : Side)
  | xori (b : Node) (c : Word)
  | and (b c : Node)

abbrev Node.l : Node := .opnd .lhs
abbrev Node.r : Node := .opnd .rhs

/-- A selected branch, with its operands `a` and `b` or `src`. -/
inductive Branch where
  | beq (a b : Node)
  | bne (a b : Node)
  | bge (src : Node)
  | bgt (src : Node)
  | ble (src : Node)
  | blt (src : Node)
  | be (src : Node)
  | bnz (src : Node)

/-- The result of a comparison instruction. -/
def flag (b : Bool) : Word := if b then 1 else 0

section Eval

variable (x y : Operand α)

def Side.get : Side → Operand α
  | lhs => x
  | rhs => y

/-- The value a tree computes. -/
def Node.eval : Node → Option Word
  | opnd s => (s.get x y).word
  | zero => some 0
  | ceq b c => do return flag ((← b.eval) == (← c.eval))
  | clt b c => do return flag ((← b.eval).slt (← c.eval))
  | cltu b c => do return flag ((← b.eval).ult (← c.eval))
  | cle b c => do return flag ((← b.eval).sle (← c.eval))
  | cleu b c => do return flag ((← b.eval).ule (← c.eval))
  | cltf b c => do return flag (decide ((← (b.get x y).float) < (← (c.get x y).float)))
  | cltef b c => do return flag (decide ((← (b.get x y).float) ≤ (← (c.get x y).float)))
  | ceqf b c => do return flag (decide ((← (b.get x y).float) = (← (c.get x y).float)))
  | xori b c => do return (← b.eval) ^^^ c
  | and b c => do return (← b.eval) &&& (← c.eval)

/-- Whether a branch is taken. -/
def Branch.taken : Branch → Option Bool
  | beq a b => do return (← a.eval x y) == (← b.eval x y)
  | bne a b => do return (← a.eval x y) != (← b.eval x y)
  | bge src => do return (0 : Word).sle (← src.eval x y)
  | bgt src => do return (0 : Word).slt (← src.eval x y)
  | ble src => do return (← src.eval x y).sle 0
  | blt src => do return (← src.eval x y).slt 0
  | be src => do return (← src.eval x y) == 0
  | bnz src => do return (← src.eval x y) != 0

end Eval

end Floats

theorem Leaf.accepts_lit {α : Type} {y : Operand α} {w : Word} (hy : y.word = some w) {k : Int}
    (h : (lit k).accepts y = true) : w = BitVec.ofInt 32 k := by
  cases y <;> simp_all [accepts, Operand.word]

/-- A pattern on a comparison, selecting a tree or a branch. -/
structure Pat (β : Type) where
  cc : CondCode
  lhs : Leaf
  rhs : Leaf
  result : β

/-- The patterns whose root is a `setcc`. -/
def setccPatterns : List (Pat Node) := [
  -- Compare_RRev, Compare_FPRev: CEQ .. CEQF
  ⟨.seteq, .cpuRegs, .cpuRegs, .ceq .l .r⟩,
  ⟨.setlt, .cpuRegs, .cpuRegs, .clt .l .r⟩,
  ⟨.setult, .cpuRegs, .cpuRegs, .cltu .l .r⟩,
  ⟨.setle, .cpuRegs, .cpuRegs, .cle .l .r⟩,
  ⟨.setule, .cpuRegs, .cpuRegs, .cleu .l .r⟩,
  ⟨.setlt, .fpRegs, .fpRegs, .cltf .lhs .rhs⟩,
  ⟨.setle, .fpRegs, .fpRegs, .cltef .lhs .rhs⟩,
  ⟨.seteq, .fpRegs, .fpRegs, .ceqf .lhs .rhs⟩,
  -- Branches
  ⟨.seteq, .fpRegs, .fpRegs, .ceqf .lhs .rhs⟩,
  ⟨.setne, .fpRegs, .fpRegs, .xori (.ceqf .lhs .rhs) 1⟩,
  ⟨.setueq, .fpRegs, .fpRegs, .ceqf .lhs .rhs⟩,
  ⟨.setune, .fpRegs, .fpRegs, .xori (.ceqf .lhs .rhs) 1⟩,
  ⟨.setule, .fpRegs, .fpRegs, .cltef .lhs .rhs⟩,
  ⟨.setult, .fpRegs, .fpRegs, .cltf .lhs .rhs⟩,
  ⟨.setuge, .fpRegs, .fpRegs, .cltef .rhs .lhs⟩,
  ⟨.setugt, .fpRegs, .fpRegs, .cltf .rhs .lhs⟩,
  -- ordered and unordered
  ⟨.seto, .fpRegs, .fpRegs, .and (.ceqf .lhs .lhs) (.ceqf .rhs .rhs)⟩,
  ⟨.setuo, .fpRegs, .fpRegs, .xori (.and (.ceqf .lhs .lhs) (.ceqf .rhs .rhs)) 1⟩,
  ⟨.setole, .fpRegs, .fpRegs, .cltef .lhs .rhs⟩,
  ⟨.setolt, .fpRegs, .fpRegs, .cltf .lhs .rhs⟩,
  ⟨.setoge, .fpRegs, .fpRegs, .cltf .rhs .lhs⟩,
  ⟨.setogt, .fpRegs, .fpRegs, .cltef .rhs .lhs⟩,
  ⟨.setoeq, .fpRegs, .fpRegs, .ceqf .lhs .rhs⟩,
  ⟨.setone, .fpRegs, .fpRegs, .xori (.ceqf .lhs .rhs) 1⟩,
  -- setcc 2 register operands
  ⟨.setune, .cpuRegs, .cpuRegs, .xori (.ceq .l .r) 1⟩,
  ⟨.setueq, .cpuRegs, .cpuRegs, .ceq .l .r⟩,
  ⟨.setuge, .cpuRegs, .cpuRegs, .cleu .r .l⟩,
  ⟨.setugt, .cpuRegs, .cpuRegs, .cltu .r .l⟩,
  ⟨.setule, .cpuRegs, .cpuRegs, .cleu .l .r⟩,
  ⟨.setult, .cpuRegs, .cpuRegs, .cltu .l .r⟩,
  ⟨.setne, .cpuRegs, .cpuRegs, .xori (.ceq .l .r) 1⟩,
  ⟨.seteq, .cpuRegs, .cpuRegs, .ceq .l .r⟩,
  ⟨.setge, .cpuRegs, .cpuRegs, .cle .r .l⟩,
  ⟨.setgt, .cpuRegs, .cpuRegs, .clt .r .l⟩,
  ⟨.setle, .cpuRegs, .cpuRegs, .cle .l .r⟩,
  ⟨.setlt, .cpuRegs, .cpuRegs, .clt .l .r⟩,
  -- setcc reg/imm operands
  ⟨.setge, .cpuRegs, .immSExt16, .cle .r .l⟩,
  ⟨.setuge, .cpuRegs, .immZExt16, .cleu .r .l⟩]

/-- The patterns whose root is a `brcond` of a `setcc`. -/
def brcondPatterns : List (Pat Branch) := [
  -- CBranch, CBranchZero: BEQ .. BNZ
  ⟨.seteq, .cpuRegs, .cpuRegs, .beq .l .r⟩,
  ⟨.setne, .cpuRegs, .cpuRegs, .bne .l .r⟩,
  ⟨.setge, .cpuRegs, .lit 0, .bge .l⟩,
  ⟨.setgt, .cpuRegs, .lit 0, .bgt .l⟩,
  ⟨.setle, .cpuRegs, .lit 0, .ble .l⟩,
  ⟨.setlt, .cpuRegs, .lit 0, .blt .l⟩,
  ⟨.seteq, .cpuRegs, .lit 0, .be .l⟩,
  ⟨.setne, .cpuRegs, .lit 0, .bnz .l⟩,
  -- direct comparisons
  ⟨.seteq, .cpuRegs, .cpuRegs, .beq .l .r⟩,
  ⟨.setne, .cpuRegs, .cpuRegs, .bne .l .r⟩,
  -- indirect comparisons
  ⟨.setlt, .cpuRegs, .cpuRegs, .bnz (.clt .l .r)⟩,
  ⟨.setle, .cpuRegs, .cpuRegs, .bnz (.cle .l .r)⟩,
  ⟨.setgt, .cpuRegs, .cpuRegs, .bnz (.clt .r .l)⟩,
  ⟨.setge, .cpuRegs, .cpuRegs, .bnz (.cle .r .l)⟩,
  -- unsigned variants
  ⟨.setult, .cpuRegs, .cpuRegs, .bnz (.cltu .l .r)⟩,
  ⟨.setule, .cpuRegs, .cpuRegs, .bnz (.cleu .l .r)⟩,
  ⟨.setugt, .cpuRegs, .cpuRegs, .bnz (.cltu .r .l)⟩,
  ⟨.setuge, .cpuRegs, .cpuRegs, .bnz (.cleu .r .l)⟩,
  ⟨.setune, .cpuRegs, .cpuRegs, .bne .l .r⟩,
  -- direct comparisons to 0
  ⟨.seteq, .cpuRegs, .lit 0, .be .l⟩,
  ⟨.setne, .cpuRegs, .lit 0, .bnz .l⟩,
  ⟨.setgt, .cpuRegs, .lit 0, .bgt .l⟩,
  ⟨.setge, .cpuRegs, .lit 0, .bge .l⟩,
  ⟨.setle, .cpuRegs, .lit 0, .ble .l⟩,
  ⟨.setlt, .cpuRegs, .lit 0, .blt .l⟩,
  -- canonicalized <= and >=
  ⟨.setgt, .cpuRegs, .lit (-1), .bge .l⟩,
  ⟨.setlt, .cpuRegs, .lit 1, .ble .l⟩,
  ⟨.setge, .cpuRegs, .lit 1, .bgt .l⟩,
  ⟨.setle, .cpuRegs, .lit (-1), .blt .l⟩,
  -- ordered floating-point
  ⟨.setoeq, .fpRegs, .fpRegs, .bnz (.ceqf .lhs .rhs)⟩,
  ⟨.setone, .fpRegs, .fpRegs, .be (.ceqf .lhs .rhs)⟩,
  ⟨.setogt, .fpRegs, .fpRegs, .bnz (.cltf .rhs .lhs)⟩,
  ⟨.setoge, .fpRegs, .fpRegs, .bnz (.cltef .rhs .lhs)⟩,
  ⟨.setolt, .fpRegs, .fpRegs, .bnz (.cltf .lhs .rhs)⟩,
  ⟨.setole, .fpRegs, .fpRegs, .bnz (.cltef .lhs .rhs)⟩,
  -- unordered floating-point
  ⟨.setueq, .fpRegs, .fpRegs, .bnz (.ceqf .lhs .rhs)⟩,
  ⟨.setune, .fpRegs, .fpRegs, .be (.ceqf .lhs .rhs)⟩,
  ⟨.setugt, .fpRegs, .fpRegs, .bnz (.cltf .rhs .lhs)⟩,
  ⟨.setuge, .fpRegs, .fpRegs, .bnz (.cltef .rhs .lhs)⟩,
  ⟨.setult, .fpRegs, .fpRegs, .bnz (.cltf .lhs .rhs)⟩,
  ⟨.setule, .fpRegs, .fpRegs, .bnz (.cltef .lhs .rhs)⟩,
  -- without an ordering constraint
  ⟨.seteq, .fpRegs, .fpRegs, .bnz (.ceqf .lhs .rhs)⟩,
  ⟨.setne, .fpRegs, .fpRegs, .be (.ceqf .lhs .rhs)⟩,
  ⟨.setgt, .fpRegs, .fpRegs, .bnz (.cltf .rhs .lhs)⟩,
  ⟨.setge, .fpRegs, .fpRegs, .bnz (.cltef .rhs .lhs)⟩,
  ⟨.setlt, .fpRegs, .fpRegs, .bnz (.cltf .lhs .rhs)⟩,
  ⟨.setle, .fpRegs, .fpRegs, .bnz (.cltef .lhs .rhs)⟩]

/-! ## Selection -/

section Select

variable {α : Type} [LinearOrder α]

def Pat.matches {β : Type} (p : Pat β) (cc : CondCode) (x y : Operand α) : Bool :=
  p.cc == cc && p.lhs.accepts x && p.rhs.accepts y

/-- The trees that may be selected for `(setcc x, y, cc)`. -/
def selectSetCC (cc : CondCode) (x y : Operand α) : List Node :=
  (setccPatterns.filter (·.matches cc x y)).map (·.result)

/-- The branches that may be selected for `(brcond (setcc x, y, cc), dst)`:
those of a pattern for both, else `BNE` of the value of the `setcc` and
`ZERO`, the pattern for any other condition. -/
def selectBrCond (cc : CondCode) (x y : Operand α) : List Branch :=
  let direct := (brcondPatterns.filter (·.matches cc x y)).map (·.result)
  if direct.isEmpty then (selectSetCC cc x y).map fun n => .bne n .zero else direct

/-- The value form is right: every tree that may be selected computes 1 when
the condition holds, else 0. -/
def SetCCCorrect (cc : CondCode) (x y : Operand α) : Prop :=
  ∀ n ∈ selectSetCC cc x y, ∃ b, cc.holds x y = some b ∧ n.eval x y = some (flag b)

/-- The branch form is right: every branch that may be selected is taken
exactly when the condition holds. -/
def BrCondCorrect (cc : CondCode) (x y : Operand α) : Prop :=
  ∀ br ∈ selectBrCond cc x y, ∃ b, cc.holds x y = some b ∧ br.taken x y = some b

/-- The two forms agree. -/
def FormsAgree (cc : CondCode) (x y : Operand α) : Prop :=
  ∀ n ∈ selectSetCC cc x y, ∀ br ∈ selectBrCond cc x y, br.taken x y = some true ↔ n.eval x y = some 1

@[simp] theorem flag_xor_one (b : Bool) : flag b ^^^ 1#32 = flag !b := by cases b <;> decide

@[simp] theorem flag_bne_zero (b : Bool) : (flag b != 0#32) = b := by cases b <;> decide

@[simp] theorem flag_beq_zero (b : Bool) : (flag b == 0#32) = !b := by cases b <;> decide

theorem flag_eq_one {b : Bool} : flag b = 1 ↔ b = true := by cases b <;> decide

/-- Signed comparisons with 0, as comparisons with 1 and -1. -/
theorem zero_sle_eq (v : Word) : (0#32).sle v = (4294967295#32).slt v := by
  rw [Bool.eq_iff_iff, BitVec.sle_iff_toInt_le, BitVec.slt_iff_toInt_lt,
    show (4294967295#32).toInt = -1 by decide, BitVec.toInt_zero]
  omega

theorem sle_zero_eq (v : Word) : v.sle 0#32 = v.slt 1#32 := by
  rw [Bool.eq_iff_iff, BitVec.sle_iff_toInt_le, BitVec.slt_iff_toInt_lt,
    show (1#32).toInt = 1 by decide, BitVec.toInt_zero]
  omega

theorem zero_slt_eq (v : Word) : (0#32).slt v = (1#32).sle v := by
  rw [Bool.eq_iff_iff, BitVec.sle_iff_toInt_le, BitVec.slt_iff_toInt_lt,
    show (1#32).toInt = 1 by decide, BitVec.toInt_zero]
  omega

theorem slt_zero_eq (v : Word) : v.slt 0#32 = v.sle 4294967295#32 := by
  rw [Bool.eq_iff_iff, BitVec.sle_iff_toInt_le, BitVec.slt_iff_toInt_lt,
    show (4294967295#32).toInt = -1 by decide, BitVec.toInt_zero]
  omega

section Words

variable {x y : Operand α} {v w : Word} (hx : x.word = some v) (hy : y.word = some w)
include hx hy

theorem holds_words (cc : CondCode) : cc.holds x y = cc.onWords v w := by
  cases x <;> cases y <;> simp_all [CondCode.holds, Operand.word]

/-- A tree for words computes the condition, whichever pattern it is from. -/
theorem setcc_words {p : Pat Node} (hp : p ∈ setccPatterns) (hl : p.lhs = .cpuRegs) :
    p.result.eval x y = (p.cc.onWords v w).map flag := by
  revert p
  simp [setccPatterns, CondCode.onWords, Node.eval, Side.get, hx, hy, bne]

/-- A branch for words is taken on the condition. A pattern against 0, 1 or
-1 is for that word only, where its branch against zero is the same. -/
theorem brcond_words {p : Pat Branch} (hp : p ∈ brcondPatterns) (hl : p.lhs = .cpuRegs)
    (hr : p.rhs.accepts y = true) : p.result.taken x y = p.cc.onWords v w := by
  have h0 := @Leaf.accepts_lit _ y w hy 0
  have h1 := @Leaf.accepts_lit _ y w hy 1
  have hm := @Leaf.accepts_lit _ y w hy (-1)
  revert p
  simp +contextual [brcondPatterns, CondCode.onWords, Branch.taken, Node.eval, Side.get, hx, hy, bne,
    h0, h1, hm, zero_sle_eq, sle_zero_eq, zero_slt_eq, slt_zero_eq]

end Words

/-- The conditions whose value form has the other's comparison. -/
def Swapped (cc : CondCode) : Prop := cc = .setoge ∨ cc = .setogt

/-- A tree for floats computes the condition, except that `setoge` and
`setogt` have each other's comparison, which shows on equal floats. -/
theorem setcc_floats {p : Pat Node} (hp : p ∈ setccPatterns) (hl : p.lhs = .fpRegs) {v w : α}
    (h : Swapped p.cc → v ≠ w) :
    p.result.eval (.fpReg v) (.fpReg w) = some (flag (p.cc.onFloats v w)) := by
  have hlt : v ≠ w → (w < v ↔ w ≤ v) := fun h => ⟨le_of_lt, fun hle => lt_of_le_of_ne hle h.symm⟩
  revert p
  simp +contextual [setccPatterns, CondCode.onFloats, Node.eval, Side.get, Operand.float, Swapped, hlt]

theorem brcond_floats {p : Pat Branch} (hp : p ∈ brcondPatterns) (hl : p.lhs = .fpRegs) (v w : α) :
    p.result.taken (.fpReg v) (.fpReg w) = some (p.cc.onFloats v w) := by
  revert p
  simp [brcondPatterns, CondCode.onFloats, Branch.taken, Node.eval, Side.get, Operand.float]

/-! ## Every pattern -/

/-- A pattern is for words, with a constant at most on the right, or for
floats, and its condition is one on words or on floats. -/
def Pat.Typed {β : Type} (p : Pat β) : Prop :=
  p.lhs = .cpuRegs ∧ p.rhs ≠ .fpRegs ∧ (∀ v w, (p.cc.onWords v w).isSome = true) ∨
    p.lhs = .fpRegs ∧ p.rhs = .fpRegs

theorem setccPatterns_typed {p : Pat Node} (hp : p ∈ setccPatterns) : p.Typed := by
  revert p
  simp [setccPatterns, Pat.Typed, CondCode.onWords]

theorem brcondPatterns_typed {p : Pat Branch} (hp : p ∈ brcondPatterns) : p.Typed := by
  revert p
  simp [brcondPatterns, Pat.Typed, CondCode.onWords]

/-- The operands of a pattern that matches. -/
theorem Pat.Typed.cases {β γ : Type} {p : Pat β} (ht : p.Typed) {cc : CondCode} {x y : Operand γ}
    (hm : p.matches cc x y = true) :
    (p.lhs = .cpuRegs ∧ ∃ v w b, x.word = some v ∧ y.word = some w ∧ cc.onWords v w = some b) ∨
      (p.lhs = .fpRegs ∧ ∃ v w, x = .fpReg v ∧ y = .fpReg w) := by
  simp only [Pat.matches, Bool.and_eq_true, beq_iff_eq] at hm
  obtain ⟨⟨rfl, hx⟩, hy⟩ := hm
  rcases ht with ⟨hl, hr, hs⟩ | ⟨hl, hr⟩
  · refine .inl ⟨hl, ?_⟩
    rw [hl] at hx
    have hxw : ∃ v, x.word = some v := by cases x <;> simp_all [Leaf.accepts, Operand.word]
    have hyw : ∃ w, y.word = some w := by
      cases y with
      | fpReg w => cases h : p.rhs <;> simp_all [Leaf.accepts]
      | _ => exact ⟨_, rfl⟩
    obtain ⟨v, hv⟩ := hxw
    obtain ⟨w, hw⟩ := hyw
    obtain ⟨b, hb⟩ := Option.isSome_iff_exists.mp (hs v w)
    exact ⟨v, w, b, hv, hw, hb⟩
  · refine .inr ⟨hl, ?_⟩
    rw [hl] at hx; rw [hr] at hy
    cases x <;> cases y <;> simp_all [Leaf.accepts]

theorem Pat.cc_of_matches {β γ : Type} {p : Pat β} {cc : CondCode} {x y : Operand γ}
    (hm : p.matches cc x y = true) : p.cc = cc ∧ p.rhs.accepts y = true := by
  simp only [Pat.matches, Bool.and_eq_true, beq_iff_eq] at hm
  exact ⟨hm.1.1, hm.2⟩

/-- Whether the value form of a comparison has the wrong instruction and the
operands show it. -/
def Miscompared (cc : CondCode) (x y : Operand α) : Prop :=
  Swapped cc ∧ ∃ v, x = .fpReg v ∧ y = .fpReg v

theorem setcc_correct {cc : CondCode} {x y : Operand α} (h : ¬Miscompared cc x y) : SetCCCorrect cc x y := by
  intro n hn
  simp only [selectSetCC, List.mem_map, List.mem_filter] at hn
  obtain ⟨p, ⟨hp, hm⟩, rfl⟩ := hn
  obtain ⟨rfl, -⟩ := p.cc_of_matches hm
  rcases (setccPatterns_typed hp).cases hm with ⟨hl, v, w, b, hv, hw, hb⟩ | ⟨hl, v, w, rfl, rfl⟩
  · exact ⟨b, by rw [holds_words hv hw, hb], by rw [setcc_words hv hw hp hl, hb]; rfl⟩
  · refine ⟨_, rfl, setcc_floats hp hl fun hs he => h ⟨hs, v, rfl, by rw [he]⟩⟩

/-- A branch of a pattern is right, and so is a branch on the value of a
`setcc` no pattern takes whole: there is one for `setoge` and `setogt`. -/
theorem brcond_correct (cc : CondCode) (x y : Operand α) : BrCondCorrect cc x y := by
  intro br hbr
  simp only [selectBrCond] at hbr
  split at hbr
  · rename_i he
    obtain ⟨n, hn, rfl⟩ := List.mem_map.mp hbr
    have hs : ¬Miscompared cc x y := by
      rintro ⟨rfl | rfl, v, rfl, rfl⟩ <;> simp [brcondPatterns, Pat.matches, Leaf.accepts] at he
    obtain ⟨b, hb, hn⟩ := setcc_correct hs n hn
    exact ⟨b, hb, by simp [Branch.taken, hn, Node.eval]⟩
  · simp only [List.mem_map, List.mem_filter] at hbr
    obtain ⟨p, ⟨hp, hm⟩, rfl⟩ := hbr
    obtain ⟨rfl, hr⟩ := p.cc_of_matches hm
    rcases (brcondPatterns_typed hp).cases hm with ⟨hl, v, w, b, hv, hw, hb⟩ | ⟨hl, v, w, rfl, rfl⟩
    · exact ⟨b, by rw [holds_words hv hw, hb], by rw [brcond_words hv hw hp hl hr, hb]⟩
    · exact ⟨_, rfl, brcond_floats hp hl v w⟩

theorem formsAgree {cc : CondCode} {x y : Operand α} (h : SetCCCorrect cc x y) : FormsAgree cc x y := by
  intro n hn br hbr
  obtain ⟨b, hb, hn⟩ := h n hn
  obtain ⟨b', hb', hbr⟩ := brcond_correct cc x y br hbr
  obtain rfl : b = b' := Option.some.inj (hb.symm.trans hb')
  rw [hbr, hn, Option.some_inj, Option.some_inj, flag_eq_one]

/-- On equal floats the value form of `setoge` is 0 and that of `setogt` 1. -/
theorem not_setcc_correct {cc : CondCode} {x y : Operand α} (h : Miscompared cc x y) : ¬SetCCCorrect cc x y := by
  obtain ⟨rfl | rfl, v, rfl, rfl⟩ := h
  · intro h
    obtain ⟨b, hb, hn⟩ := h (.cltf .rhs .lhs) (by simp [selectSetCC, setccPatterns, Pat.matches, Leaf.accepts])
    simp [CondCode.holds, CondCode.onFloats] at hb
    simp [Node.eval, Side.get, Operand.float, ← hb, flag] at hn
  · intro h
    obtain ⟨b, hb, hn⟩ := h (.cltef .rhs .lhs) (by simp [selectSetCC, setccPatterns, Pat.matches, Leaf.accepts])
    simp [CondCode.holds, CondCode.onFloats] at hb
    simp [Node.eval, Side.get, Operand.float, ← hb, flag] at hn

/-- Both forms are right and agree, except for the value form of `setoge` and
`setogt` on equal floats. -/
theorem compare_correct_iff (cc : CondCode) (x y : Operand α) :
    SetCCCorrect cc x y ∧ BrCondCorrect cc x y ∧ FormsAgree cc x y ↔
      ¬((cc = .setoge ∨ cc = .setogt) ∧ ∃ v, x = .fpReg v ∧ y = .fpReg v) :=
  ⟨fun h hm => not_setcc_correct hm h.1,
    fun h => ⟨setcc_correct h, brcond_correct cc x y, formsAgree (setcc_correct h)⟩⟩

/-- `setoge` of a float and itself: the value form is 0, the branch is taken. -/
theorem setoge_self_wrong :
    ¬(SetCCCorrect .setoge (.fpReg (1 : Int)) (.fpReg 1) ∧ BrCondCorrect .setoge (.fpReg (1 : Int)) (.fpReg 1) ∧
      FormsAgree .setoge (.fpReg (1 : Int)) (.fpReg 1)) :=
  fun h => not_setcc_correct ⟨.inl rfl, 1, rfl, rfl⟩ h.1

end Select

section Coverage

variable {α : Type}

theorem selectSetCC_ne_nil {cc : CondCode} {x y : Operand α}
    (h : setccPatterns.any (·.matches cc x y) = true) : selectSetCC cc x y ≠ [] := by
  obtain ⟨p, hp, hm⟩ := List.any_eq_true.mp h
  exact List.ne_nil_of_mem (List.mem_map_of_mem (List.mem_filter.mpr ⟨hp, hm⟩))

/-- A comparison with a value form has a branch. -/
theorem selectBrCond_ne_nil {cc : CondCode} {x y : Operand α} (h : selectSetCC cc x y ≠ []) :
    selectBrCond cc x y ≠ [] := by
  simp only [selectBrCond]
  split
  · simpa using h
  · rename_i he
    simpa using he

/-- Every condition on words has both forms. -/
theorem words_selected {cc : CondCode} {x y : Operand α} {v w : Word} (hx : x.word = some v)
    (hy : y.word = some w) (hb : (cc.onWords v w).isSome = true) :
    selectSetCC cc x y ≠ [] ∧ selectBrCond cc x y ≠ [] := by
  have hax : Leaf.cpuRegs.accepts x = true := by cases x <;> simp_all [Leaf.accepts, Operand.word]
  have hay : Leaf.cpuRegs.accepts y = true := by cases y <;> simp_all [Leaf.accepts, Operand.word]
  have h : selectSetCC cc x y ≠ [] := selectSetCC_ne_nil <| by
    cases cc <;> simp_all [setccPatterns, Pat.matches, CondCode.onWords]
  exact ⟨h, selectBrCond_ne_nil h⟩

/-- So has every condition on floats but `setgt` and `setge`, which have the
branch only. -/
theorem floats_selected (cc : CondCode) (v w : α) :
    selectBrCond cc (.fpReg v) (.fpReg w) ≠ [] ∧
      (cc ≠ .setgt → cc ≠ .setge → selectSetCC cc (.fpReg v) (.fpReg w) ≠ []) := by
  have h : cc ≠ .setgt → cc ≠ .setge → selectSetCC cc (.fpReg v) (.fpReg w) ≠ [] := fun hgt hge =>
    selectSetCC_ne_nil (by cases cc <;> simp_all [setccPatterns, Pat.matches, Leaf.accepts])
  refine ⟨?_, h⟩
  by_cases hg : cc = .setgt ∨ cc = .setge
  · rcases hg with rfl | rfl <;> simp [selectBrCond, brcondPatterns, Pat.matches, Leaf.accepts]
  · rw [not_or] at hg
    exact selectBrCond_ne_nil (h hg.1 hg.2)

end Coverage

end Rigel
