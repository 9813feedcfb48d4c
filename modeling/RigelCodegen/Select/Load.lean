import RigelCodegen.Lib.Memory
import RigelCodegen.Call.Convention

/-!
# Loads

`LowerLOAD` makes word loads, shifts and masks of the integer loads that Rigel
does not have. What it makes is evaluated as a DAG (`LoadEnv.eval`), in which a
shift by a constant that is too large has no value.

`lowerLOAD_loads_iff` says when the value is that of a load byte by byte, and
the words that are loaded are aligned and have bytes of the object.
-/

namespace Rigel

open Word32

/-- The binary operations that `LowerLOAD` uses. -/
inductive SDOp where
  | add | and | or | shl | srl
  deriving DecidableEq, Repr

/-- A value of the DAG. What is computed elsewhere is in a register. -/
inductive SDValue where
  | register (n : Nat)
  | constant (c : Word)
  | frameIndex (fi : Int)
  | binary (op : SDOp) (a b : SDValue)
  /-- `SIGN_EXTEND_INREG`. -/
  | signExtendInReg (a : SDValue) (vt : MVT)
  /-- A load of an aligned word. -/
  | load (addr : SDValue)
  /-- A call of a library function with one word. -/
  | call (callee : String) (arg : SDValue)
  deriving DecidableEq, Repr

namespace SDOp

def isCommutative : SDOp → Bool
  | add | and | or => true
  | shl | srl => false

/-- `FoldConstantArithmetic`. -/
def fold (op : SDOp) (x y : Word) : Word :=
  match op with
  | add => x + y
  | and => x &&& y
  | or => x ||| y
  | shl => x <<< y.toNat
  | srl => x >>> y.toNat

end SDOp

/-- `SelectionDAG::getNode`, for two operands of type `i32`. -/
def getNode (op : SDOp) (n1 n2 : SDValue) : SDValue :=
  match n2 with
  | .constant c2 =>
    if op = .and ∧ c2 = 0 then n2
    else if op = .and ∧ c2 = BitVec.allOnes 32 then n1
    else if op ≠ .and ∧ c2 = 0 then n1
    else
      match n1 with
      | .constant c1 => .constant (op.fold c1 c2)
      | _ => .binary op n1 n2
  | _ =>
    match n1 with
    | .constant _ => if op.isCommutative then .binary op n2 n1 else .binary op n1 n2
    | _ => .binary op n1 n2

/-- `DAG.getConstant`, of type `i32`. -/
def getConstant (x : Int) : SDValue := .constant (BitVec.ofInt 32 x)

/-- What a DAG is evaluated in: memory, registers, the addresses of the frame
indices, which are aligned, and the library functions for unaligned loads. -/
structure LoadEnv where
  mem : Mem
  reg : Nat → Word
  frame : Int → Word
  frame_aligned : ∀ fi, (frame fi).toNat % 4 = 0
  library : String → Word → Word
  unalignedldi16 : ∀ a, library "__unalignedldi16" a = (mem.readHalf a).setWidth 32
  unalignedldi32 : ∀ a, library "__unalignedldi32" a = mem.readWord a

namespace SDValue

def isConstant : SDValue → Bool
  | constant _ => true
  | _ => false

end SDValue

/-- The amount of a shift: modulo 32 in a register, and undefined for a constant
that is too large. -/
def shiftAmount (isConstant : Bool) (y : Word) : Option Nat :=
  if isConstant then if y.toNat < 32 then some y.toNat else none else some (y.toNat % 32)

/-- The value of an operation, and whether its second operand is a constant. -/
def SDOp.apply (op : SDOp) (isConstant : Bool) (x y : Word) : Option Word :=
  match op with
  | add => some (x + y)
  | and => some (x &&& y)
  | or => some (x ||| y)
  | shl => (shiftAmount isConstant y).map fun n => x <<< n
  | srl => (shiftAmount isConstant y).map fun n => x >>> n

namespace LoadEnv

/-- The value of a node, if it is defined. -/
def eval (E : LoadEnv) : SDValue → Option Word
  | .register n => some (E.reg n)
  | .constant c => some c
  | .frameIndex fi => some (E.frame fi)
  | .binary op a b => (E.eval a).bind fun x => (E.eval b).bind fun y => op.apply b.isConstant x y
  | .signExtendInReg a vt => (E.eval a).map fun x => (x.setWidth vt.getSizeInBits).signExtend 32
  | .load addr => (E.eval addr).map E.mem.readWord
  | .call callee arg => (E.eval arg).map (E.library callee)

end LoadEnv

/-- The addresses of the word loads below a node. -/
def SDValue.loadAddrs : SDValue → List SDValue
  | register _ | constant _ | frameIndex _ => []
  | binary _ a b => a.loadAddrs ++ b.loadAddrs
  | signExtendInReg a _ => a.loadAddrs
  | load addr => addr :: addr.loadAddrs
  | call _ arg => arg.loadAddrs

/-! ## Lowering -/

/-- `ISD::MemIndexedMode`. -/
inductive MemIndexedMode where
  | unindexed | preInc | preDec | postInc | postDec
  deriving DecidableEq, Repr

/-- `ISD::LoadExtType`. -/
inductive LoadExtType where
  | nonExtLoad | extLoad | sextLoad | zextLoad
  deriving DecidableEq, Repr

/-- `LoadSDNode`, with a result of type `i32`. An alignment is kept as its
logarithm. -/
structure LoadSDNode where
  basePtr : SDValue
  memoryVT : MVT
  extensionType : LoadExtType := .nonExtLoad
  addressingMode : MemIndexedMode := .unindexed
  logAlignment : Nat
  deriving DecidableEq, Repr

def LoadSDNode.alignment (ld : LoadSDNode) : Nat := 2 ^ ld.logAlignment

/-- `x & ~0x3`. -/
def clearLow (x : Int) : Int := x / 4 * 4

/-- `x & 0x3`. -/
def lowBits (x : Int) : Int := x % 4

/-- `IsWordAlignedBasePlusConstantOffset`: the aligned base and the offset. A
constant operand is never a `RigelISD::Lo`. -/
def isWordAlignedBasePlusConstantOffset : SDValue → Option (SDValue × Int)
  | .binary .add base (.constant c) =>
    let root :=
      match base with
      | .binary .add a (.binary .shl _ (.constant k)) => if 2 ≤ k.toInt then a else base
      | _ => base
    match root with
    | .frameIndex _ => some (base, c.toInt)
    | _ => none
  | _ => none

/-- The two words that an unaligned object lies in, shifted and joined. -/
def crossing (base : SDValue) (offset lowShift highShift : Int) : SDValue :=
  let low := SDValue.load (getNode .add base (getConstant (clearLow offset)))
  let high := SDValue.load (getNode .add base (getConstant (clearLow offset + 4)))
  getNode .or (getNode .srl low (getConstant lowShift)) (getNode .shl high (getConstant highShift))

/-- The extension of a loaded `i8` or `i16`; any extension is by zeros. -/
def extendLoaded (ext : LoadExtType) (vt : MVT) (mask : Int) (result : SDValue) : SDValue :=
  match ext with
  | .sextLoad => .signExtendInReg result vt
  | .zextLoad => getNode .and result (getConstant mask)
  | _ => getNode .and result (getConstant mask)

/-- An `i32` that may be unaligned. -/
def lowerLoad32 (ld : LoadSDNode) : SDValue :=
  match isWordAlignedBasePlusConstantOffset ld.basePtr with
  | some (base, offset) =>
    if offset.tmod 4 = 0 then .load ld.basePtr
    else crossing base offset (lowBits offset * 8) (32 - lowBits offset * 8)
  | none => .call "__unalignedldi32" ld.basePtr

/-- The word with an `i16` in its lower half. -/
def lowerLoad16 (ld : LoadSDNode) : SDValue :=
  if 4 ≤ ld.alignment then .load ld.basePtr
  else
    match isWordAlignedBasePlusConstantOffset ld.basePtr with
    | some (base, offset) =>
      if offset.tmod 4 = 0 then .load ld.basePtr
      else if lowBits offset = 3 then crossing base offset 24 8
      else
        getNode .srl (.load (getNode .add base (getConstant (clearLow offset)))) (getConstant (lowBits offset * 8))
    | none => .call "__unalignedldi16" ld.basePtr

/-- The word with an `i8` in its lowest byte: it is shifted by eight times the
whole address. -/
def lowerLoad8 (ld : LoadSDNode) : SDValue :=
  if ld.alignment < 4 then
    let bitoffset := getNode .shl ld.basePtr (getConstant 3)
    let basePtr := getNode .and ld.basePtr (getConstant (-4))
    getNode .srl (.load basePtr) bitoffset
  else .load ld.basePtr

def MemIndexedMode.code : MemIndexedMode → Nat
  | unindexed => 0
  | preInc => 1
  | preDec => 2
  | postInc => 3
  | postDec => 4

/-- `LowerLOAD`: an error, or the value of the load, or nothing if the load is
legal as it is. -/
def lowerLOAD (ld : LoadSDNode) : Except String (Option SDValue) :=
  if ld.addressingMode ≠ .unindexed then
    .error ("LowerLOAD: Got a LoadSDNode with an addr mode other than UNINDEXED\n" ++ toString ld.addressingMode.code)
  else
    match ld.memoryVT with
    | .i32 => if 4 ≤ ld.alignment then .ok none else .ok (some (lowerLoad32 ld))
    | .i16 => .ok (some (extendLoaded ld.extensionType .i16 0xFFFF (lowerLoad16 ld)))
    | .i8 => .ok (some (extendLoaded ld.extensionType .i8 0xFF (lowerLoad8 ld)))
    | .f32 => .error "LowerLOAD: Got an InVT other than MVT::i\x7b8,16,32\x7d\nf32"

/-! ## Specification -/

/-- The object at `a`, read byte by byte and extended. -/
def LoadEnv.object (E : LoadEnv) (vt : MVT) (ext : LoadExtType) (a : Word) : Word :=
  match vt with
  | .i8 => if ext = .sextLoad then (E.mem a).signExtend 32 else (E.mem a).setWidth 32
  | .i16 => if ext = .sextLoad then (E.mem.readHalf a).signExtend 32 else (E.mem.readHalf a).setWidth 32
  | .i32 | .f32 => E.mem.readWord a

/-- The word at `w` is aligned and has a byte of the object at `a`. -/
def Touches (w a : Word) (vt : MVT) : Prop :=
  w.toNat % 4 = 0 ∧ ∃ x, (word w).Contains x ∧ Region.Contains ⟨a, vt.getSizeInBits / 8⟩ x

namespace SDValue

/-- The node has a value, and its words, but for those of the address `p`, touch
the object. -/
structure Computes (E : LoadEnv) (p : SDValue) (vt : MVT) (a : Word) (n : SDValue) (v : Word) : Prop where
  eval : E.eval n = some v
  loads : ∀ x ∈ n.loadAddrs, x ∈ p.loadAddrs ∨ ∃ w, E.eval x = some w ∧ Touches w a vt

end SDValue

/-- The load at `a` is lowered to what computes it. -/
def LoadSDNode.Loads (E : LoadEnv) (ld : LoadSDNode) (a : Word) : Prop :=
  ∃ r, lowerLOAD ld = .ok r ∧
    SDValue.Computes E ld.basePtr ld.memoryVT a (r.getD (.load ld.basePtr))
      (E.object ld.memoryVT ld.extensionType a)

section Eval

variable {E : LoadEnv}

/-- Folding keeps the value, unless it is that of a shift that is too large. -/
theorem eval_getNode {op : SDOp} {n1 n2 : SDValue} {x y : Word} (h1 : E.eval n1 = some x) (h2 : E.eval n2 = some y)
    (h : n1.isConstant = true → op.isCommutative = true ∨ y.toNat < 32) :
    E.eval (getNode op n1 n2) = op.apply n2.isConstant x y := by
  have hbin : E.eval (.binary op n1 n2) = op.apply n2.isConstant x y := by
    rw [LoadEnv.eval, h1, h2]
    rfl
  unfold getNode
  split
  · rename_i c2
    obtain rfl : c2 = y := Option.some.inj h2
    split
    · rename_i hz
      obtain ⟨rfl, rfl⟩ := hz
      simp [LoadEnv.eval, SDOp.apply]
    · split
      · rename_i hz
        obtain ⟨rfl, rfl⟩ := hz
        rw [h1, SDOp.apply, BitVec.and_allOnes]
      · split
        · rename_i hz
          obtain ⟨hne, rfl⟩ := hz
          rw [h1]
          cases op <;> first | exact absurd rfl hne | simp [SDOp.apply, shiftAmount, SDValue.isConstant]
        · split
          · rename_i c1
            obtain rfl : c1 = x := Option.some.inj h1
            cases op <;> simp_all [LoadEnv.eval, SDOp.fold, SDOp.apply, shiftAmount, SDValue.isConstant,
              SDOp.isCommutative]
          · exact hbin
  · split
    · rename_i c1
      split
      · rename_i hc
        obtain rfl : c1 = x := Option.some.inj h1
        rw [LoadEnv.eval, h2]
        cases op with
        | add => exact congrArg some (BitVec.add_comm _ _)
        | and => exact congrArg some (BitVec.and_comm _ _)
        | or => exact congrArg some (BitVec.or_comm _ _)
        | shl | srl => cases hc
      · exact hbin
    · exact hbin

theorem loadAddrs_getNode {op : SDOp} {n1 n2 x : SDValue} (h : x ∈ (getNode op n1 n2).loadAddrs) :
    x ∈ n1.loadAddrs ∨ x ∈ n2.loadAddrs := by
  unfold getNode at h
  split at h
  · split at h
    · exact .inr h
    · split at h
      · exact .inl h
      · split at h
        · exact .inl h
        · split at h
          · cases h
          · exact List.mem_append.mp h
  · split at h
    · split at h
      · exact (List.mem_append.mp h).symm
      · exact List.mem_append.mp h
    · exact List.mem_append.mp h

@[simp] theorem eval_getConstant (x : Int) : E.eval (getConstant x) = some (BitVec.ofInt 32 x) := rfl

@[simp] theorem loadAddrs_getConstant (x : Int) : (getConstant x).loadAddrs = [] := rfl

@[simp] theorem isConstant_getConstant (x : Int) : (getConstant x).isConstant = true := rfl

section Computes

variable {p n1 n2 : SDValue} {vt : MVT} {a v w x y : Word}

theorem computes_constant (k : Int) : SDValue.Computes E p vt a (getConstant k) (BitVec.ofInt 32 k) where
  eval := rfl
  loads := nofun

theorem computes_getNode {op : SDOp} (h1 : SDValue.Computes E p vt a n1 x) (h2 : SDValue.Computes E p vt a n2 y)
    (h : n1.isConstant = true → op.isCommutative = true ∨ y.toNat < 32) (hv : op.apply n2.isConstant x y = some v) :
    SDValue.Computes E p vt a (getNode op n1 n2) v where
  eval := (eval_getNode h1.eval h2.eval h).trans hv
  loads z hz := (loadAddrs_getNode hz).elim (h1.loads z) (h2.loads z)

/-- A word that is loaded from an address with no other loads than those of
`p`. -/
theorem computes_load {q : SDValue} (hq : E.eval q = some w) (hl : ∀ x ∈ q.loadAddrs, x ∈ p.loadAddrs)
    (ht : Touches w a vt) : SDValue.Computes E p vt a (.load q) (E.mem.readWord w) where
  eval := by rw [LoadEnv.eval, hq]; rfl
  loads z hz := by
    rcases List.mem_cons.mp hz with rfl | hz
    · exact .inr ⟨w, hq, ht⟩
    · exact .inl (hl z hz)

theorem computes_call (hp : E.eval p = some a) (callee : String) :
    SDValue.Computes E p vt a (.call callee p) (E.library callee a) where
  eval := by rw [LoadEnv.eval, hp]; rfl
  loads _ hz := .inl hz

end Computes

/-- A multiple of four is added to an aligned address. -/
theorem aligned_add {x y : Word} (hx : x.toNat % 4 = 0) (hy : y.toNat % 4 = 0) : (x + y).toNat % 4 = 0 := by
  rw [BitVec.toNat_add]
  omega

/-- An index that is scaled by four or more is a multiple of four. -/
theorem aligned_shiftLeft (x : Word) {k : Nat} (h : 2 ≤ k) : (x <<< k).toNat % 4 = 0 := by
  obtain ⟨j, rfl⟩ := Nat.exists_eq_add_of_le h
  rw [BitVec.toNat_shiftLeft, Nat.shiftLeft_eq, Nat.pow_add, Nat.mul_left_comm]
  omega

/-- The base is aligned, and the address is the base and the offset. -/
theorem isWordAligned_spec {p base : SDValue} {offset : Int} {a : Word}
    (h : isWordAlignedBasePlusConstantOffset p = some (base, offset)) (ha : E.eval p = some a) :
    ∃ b, E.eval base = some b ∧ b.toNat % 4 = 0 ∧ a = b + BitVec.ofInt 32 offset ∧
      ∀ x ∈ base.loadAddrs, x ∈ p.loadAddrs := by
  unfold isWordAlignedBasePlusConstantOffset at h
  split at h
  · rename_i base' c
    have hbase : base' = base ∧ c.toInt = offset := by
      simp only at h
      split at h
      · exact ⟨congrArg Prod.fst (Option.some.inj h), congrArg Prod.snd (Option.some.inj h)⟩
      · cases h
    obtain ⟨rfl, rfl⟩ := hbase
    obtain ⟨b, hb, ha⟩ := Option.bind_eq_some_iff.mp ha
    have hsum : b + c = a := Option.some.inj ha
    refine ⟨b, hb, ?_, ?_, fun x hx => List.mem_append_left _ hx⟩
    · simp only at h
      split at h
      · rename_i fi hroot
        split at hroot
        · rename_i q i k
          split at hroot
          · rename_i hk
            obtain rfl := hroot
            obtain ⟨f, hf, hb⟩ := Option.bind_eq_some_iff.mp hb
            obtain ⟨y, hy, hb⟩ := Option.bind_eq_some_iff.mp hb
            obtain ⟨z, hz, hy⟩ := Option.bind_eq_some_iff.mp hy
            obtain rfl : E.frame fi = f := Option.some.inj hf
            obtain rfl : E.frame fi + y = b := Option.some.inj hb
            obtain ⟨n, hn, rfl⟩ := Option.map_eq_some_iff.mp hy
            have hn : (if k.toNat < 32 then some k.toNat else none) = some n := hn
            split at hn
            · rename_i hlt
              obtain rfl := Option.some.inj hn
              refine aligned_add (E.frame_aligned fi) (aligned_shiftLeft z ?_)
              rw [BitVec.toInt_eq_toNat_cond] at hk
              split at hk <;> omega
            · cases hn
          · cases hroot
        · obtain rfl := hroot
          obtain rfl : E.frame fi = b := Option.some.inj hb
          exact E.frame_aligned fi
      · cases h
    · rw [BitVec.ofInt_toInt, hsum]
  · cases h

/-- The word that an address lies in, and where. -/
theorem address_split {b : Word} (hb : b.toNat % 4 = 0) (offset : Int) :
    (b + BitVec.ofInt 32 (clearLow offset)).toNat % 4 = 0 ∧
      b + BitVec.ofInt 32 offset = b + BitVec.ofInt 32 (clearLow offset) + BitVec.ofNat 32 (lowBits offset).toNat := by
  constructor
  · refine aligned_add hb ?_
    rw [BitVec.toNat_ofInt, clearLow]
    omega
  · rw [BitVec.add_assoc, ← BitVec.ofInt_natCast, ← BitVec.ofInt_add]
    congr 2
    simp only [clearLow, lowBits]
    omega

section Touches

variable {w : Word} {vt : MVT} {o : Nat}

/-- The word that an object starts in. -/
theorem touches_start (hw : w.toNat % 4 = 0) (ho : o < 4) (hvt : 0 < vt.getSizeInBits / 8) :
    Touches w (w + BitVec.ofNat 32 o) vt :=
  ⟨hw, _, Region.contains_add (r := word w) ho (by omega), Region.contains_base hvt⟩

/-- The word after it, if the object goes on there. -/
theorem touches_next (hw : w.toNat % 4 = 0) (ho : o < 4) (hvt : 4 < o + vt.getSizeInBits / 8) :
    Touches (w + 4) (w + BitVec.ofNat 32 o) vt := by
  refine ⟨aligned_add hw (by decide), w + 4, Region.contains_base (r := word (w + 4)) (Nat.succ_pos 3), ?_⟩
  have h := Region.contains_add (r := ⟨w + BitVec.ofNat 32 o, vt.getSizeInBits / 8⟩) (i := 4 - o)
    (show 4 - o < vt.getSizeInBits / 8 by omega) (by omega)
  rwa [Mem.add_ofNat_ofNat, show o + (4 - o) = 4 by omega] at h

theorem touches_self {a : Word} (ha : a.toNat % 4 = 0) (hvt : 0 < vt.getSizeInBits / 8) : Touches a a vt := by
  have h := touches_start (o := 0) ha (by decide) hvt
  rwa [show a + BitVec.ofNat 32 0 = a from BitVec.add_zero a] at h

end Touches

section Widths

variable {ld : LoadSDNode} {a : Word}

theorem shiftAmount_ofInt {k : Nat} (h : k < 32) : shiftAmount true (BitVec.ofInt 32 (k : Int)) = some k := by
  rw [shiftAmount, if_pos rfl, BitVec.ofInt_natCast, BitVec.toNat_ofNat, Nat.mod_eq_of_lt (by omega), if_pos h]

/-- The words of an object that crosses from one to the next. -/
theorem computes_crossing {base : SDValue} {offset lowShift highShift : Int} {b : Word} (hb : E.eval base = some b)
    (halign : b.toNat % 4 = 0) (hl : ∀ x ∈ base.loadAddrs, x ∈ ld.basePtr.loadAddrs)
    (hvt : 4 < (lowBits offset).toNat + ld.memoryVT.getSizeInBits / 8)
    (hlow : lowShift = 8 * lowBits offset) (hhigh : highShift = 32 - 8 * lowBits offset) (h0 : 0 < lowBits offset) :
    SDValue.Computes E ld.basePtr ld.memoryVT (b + BitVec.ofInt 32 offset) (crossing base offset lowShift highShift)
      (E.mem.readWord (b + BitVec.ofInt 32 offset)) := by
  have h4 : lowBits offset < 4 := Int.emod_lt_of_pos _ (by decide)
  obtain ⟨hw, ha⟩ := address_split halign offset
  obtain ⟨o, ho⟩ := Int.eq_ofNat_of_zero_le h0.le
  rw [ho, Int.toNat_natCast] at ha hvt
  rw [ha]
  generalize hweq : b + BitVec.ofInt 32 (clearLow offset) = w at *
  have hlowAddr : E.eval (getNode .add base (getConstant (clearLow offset))) = some w := by
    rw [eval_getNode hb rfl fun _ => .inl rfl, ← hweq]
    rfl
  have hhighAddr : E.eval (getNode .add base (getConstant (clearLow offset + 4))) = some (w + 4) := by
    rw [eval_getNode hb rfl fun _ => .inl rfl, ← hweq, BitVec.ofInt_add, BitVec.add_assoc]
    rfl
  have hloads (k : Int) (x : SDValue) (hx : x ∈ (getNode .add base (getConstant k)).loadAddrs) :
      x ∈ ld.basePtr.loadAddrs := (loadAddrs_getNode hx).elim (hl x) nofun
  have hlow8 : lowShift = ((8 * o : Nat) : Int) := by omega
  have hhigh8 : highShift = ((32 - 8 * o : Nat) : Int) := by omega
  rw [← Mem.readWord_across E.mem w (by omega) (by omega), hlow8, hhigh8]
  refine computes_getNode
    (computes_getNode (computes_load hlowAddr (hloads _) (touches_start hw (by omega) (by omega)))
      (computes_constant _) nofun ?_)
    (computes_getNode (computes_load hhighAddr (hloads _) (touches_next hw (by omega) hvt))
      (computes_constant _) nofun ?_)
    (fun _ => .inl rfl) rfl
  · rw [isConstant_getConstant, SDOp.apply, shiftAmount_ofInt (by omega)]
    rfl
  · rw [isConstant_getConstant, SDOp.apply, shiftAmount_ofInt (by omega)]
    rfl

/-- A remainder of an offset, as C++ takes it. -/
theorem tmod_eq_zero_iff (x : Int) : x.tmod 4 = 0 ↔ lowBits x = 0 := by
  rw [lowBits, ← Int.dvd_iff_tmod_eq_zero, Int.dvd_iff_emod_eq_zero]

/-- An offset of whole words. -/
theorem aligned_offset {b : Word} (hb : b.toNat % 4 = 0) {offset : Int} (h : lowBits offset = 0) :
    (b + BitVec.ofInt 32 offset).toNat % 4 = 0 := by
  obtain ⟨hw, ha⟩ := address_split hb offset
  rw [ha, h]
  simpa using hw

/-- An address whose alignment is at least that of a word. -/
theorem aligned_of_alignment (h4 : 4 ≤ ld.alignment) (h : a.toNat % ld.alignment = 0) : a.toNat % 4 = 0 := by
  have hlog : 2 ≤ ld.logAlignment := by
    by_contra hlt
    have : ld.alignment ≤ 2 ^ 1 := Nat.pow_le_pow_right (by decide) (by omega)
    omega
  exact Nat.mod_eq_zero_of_dvd ((Nat.pow_dvd_pow 2 hlog).trans (Nat.dvd_of_mod_eq_zero h))

/-- The word at the address itself. -/
theorem computes_basePtr (ha : E.eval ld.basePtr = some a) (halign : a.toNat % 4 = 0)
    (hvt : 0 < ld.memoryVT.getSizeInBits / 8) :
    SDValue.Computes E ld.basePtr ld.memoryVT a (.load ld.basePtr) (E.mem.readWord a) :=
  computes_load ha (fun _ hx => hx) (touches_self halign hvt)

theorem lowerLoad32_computes (hvt : ld.memoryVT = .i32) (ha : E.eval ld.basePtr = some a) :
    SDValue.Computes E ld.basePtr ld.memoryVT a (lowerLoad32 ld) (E.mem.readWord a) := by
  have hsize : ld.memoryVT.getSizeInBits / 8 = 4 := by rw [hvt]; rfl
  unfold lowerLoad32
  split
  · rename_i base offset hbase
    obtain ⟨b, hb, halign, rfl, hl⟩ := isWordAligned_spec hbase ha
    split
    · rename_i h0
      exact computes_basePtr ha (aligned_offset halign ((tmod_eq_zero_iff offset).mp h0)) (by omega)
    · rename_i h0
      have hpos : 0 < lowBits offset :=
        lt_of_le_of_ne (Int.emod_nonneg _ (by decide)) fun h => h0 ((tmod_eq_zero_iff offset).mpr h.symm)
      exact computes_crossing hb halign hl (by omega) (Int.mul_comm _ _) (by rw [Int.mul_comm]) hpos
  · rw [← E.unalignedldi32]
    exact computes_call ha _

theorem lowerLoad16_computes (hvt : ld.memoryVT = .i16) (ha : E.eval ld.basePtr = some a)
    (hal : a.toNat % ld.alignment = 0) :
    ∃ v, SDValue.Computes E ld.basePtr ld.memoryVT a (lowerLoad16 ld) v ∧ v.setWidth 16 = E.mem.readHalf a := by
  have hsize : ld.memoryVT.getSizeInBits / 8 = 2 := by rw [hvt]; rfl
  unfold lowerLoad16
  split
  · rename_i h4
    exact ⟨_, computes_basePtr ha (aligned_of_alignment h4 hal) (by omega), Mem.setWidth_readWord _ _⟩
  · split
    · rename_i base offset hbase
      obtain ⟨b, hb, halign, rfl, hl⟩ := isWordAligned_spec hbase ha
      have h4 : lowBits offset < 4 := Int.emod_lt_of_pos _ (by decide)
      split
      · rename_i h0
        exact ⟨_, computes_basePtr ha (aligned_offset halign ((tmod_eq_zero_iff offset).mp h0)) (by omega),
          Mem.setWidth_readWord _ _⟩
      · rename_i h0
        have hpos : 0 < lowBits offset :=
          lt_of_le_of_ne (Int.emod_nonneg _ (by decide)) fun h => h0 ((tmod_eq_zero_iff offset).mpr h.symm)
        split
        · rename_i h3
          exact ⟨_, computes_crossing hb halign hl (by omega) (by omega) (by omega) hpos, Mem.setWidth_readWord _ _⟩
        · rename_i h3
          obtain ⟨hw, hsplit⟩ := address_split halign offset
          obtain ⟨o, ho⟩ := Int.eq_ofNat_of_zero_le hpos.le
          rw [ho, Int.toNat_natCast] at hsplit
          have hlow : E.eval (getNode .add base (getConstant (clearLow offset))) =
              some (b + BitVec.ofInt 32 (clearLow offset)) := eval_getNode hb rfl fun _ => .inl rfl
          have hshift : lowBits offset * 8 = ((8 * o : Nat) : Int) := by omega
          refine ⟨E.mem.readWord (b + BitVec.ofInt 32 (clearLow offset)) >>> (8 * o), ?_, ?_⟩
          · rw [hshift, hsplit]
            refine computes_getNode (computes_load hlow (fun x hx => (loadAddrs_getNode hx).elim (hl x) nofun)
              (touches_start hw (by omega) (by omega))) (computes_constant _) nofun ?_
            rw [isConstant_getConstant, SDOp.apply, shiftAmount_ofInt (by omega)]
            rfl
          · rw [hsplit]
            exact Mem.setWidth_readWord_shift_half _ _ (by omega)
    · refine ⟨_, computes_call ha _, ?_⟩
      rw [E.unalignedldi16, BitVec.setWidth_setWidth_of_le _ (by decide), BitVec.setWidth_eq]

/-- The address without its lowest two bits. -/
theorem and_clearLow (x : Word) :
    (x &&& BitVec.ofInt 32 (-4)).toNat % 4 = 0 ∧ (x &&& BitVec.ofInt 32 (-4)) + BitVec.ofNat 32 (x.toNat % 4) = x := by
  have h4 : BitVec.ofInt 32 (-4) = ~~~3 := by decide
  have hlow : (x &&& 3).toNat = x.toNat % 4 := by
    rw [BitVec.toNat_and]
    exact Nat.and_two_pow_sub_one_eq_mod _ 2
  have hsum : (x &&& ~~~3) + (x &&& 3) = x := by
    rw [BitVec.add_eq_or_of_and_eq_zero]
    · ext i hi
      simp only [BitVec.getElem_or, BitVec.getElem_and, BitVec.getElem_not]
      cases x[i] <;> simp
    · ext i hi
      simp only [BitVec.getElem_and, BitVec.getElem_not, BitVec.getElem_zero]
      cases (3 : Word)[i] <;> simp
  have hlow' : x &&& 3 = BitVec.ofNat 32 (x.toNat % 4) := by
    rw [← hlow, BitVec.ofNat_toNat, BitVec.setWidth_eq]
  refine ⟨?_, by rw [h4, ← hlow', hsum]⟩
  rw [h4]
  have := congrArg BitVec.toNat hsum
  rw [BitVec.toNat_add, hlow] at this
  have := x.isLt
  omega

/-- Eight times the address, in the lowest five bits. -/
theorem shiftLeft_three_mod (x : Word) : (x <<< 3).toNat % 32 = 8 * (x.toNat % 4) := by
  rw [BitVec.toNat_shiftLeft, Nat.shiftLeft_eq]
  omega

theorem eval_bitoffset {q : SDValue} (hq : E.eval q = some a) :
    E.eval (getNode .shl q (getConstant 3)) = some (a <<< 3) := by
  have h3 : (BitVec.ofInt 32 3).toNat < 32 := by decide
  rw [eval_getNode hq rfl fun _ => .inr h3]
  rfl

/-- The amount is a constant only if the address is. -/
theorem isConstant_shift (q : SDValue) : (getNode .shl q (getConstant 3)).isConstant = q.isConstant := by
  cases q <;> rfl

/-- A byte is shifted to the lowest by eight times its address, if that is not a
constant that is too large. -/
theorem lowerLoad8_computes (hvt : ld.memoryVT = .i8) (ha : E.eval ld.basePtr = some a)
    (hal : a.toNat % ld.alignment = 0)
    (hc : ld.alignment < 4 → ∀ c, ld.basePtr = .constant c → (c <<< 3).toNat < 32) :
    ∃ v, SDValue.Computes E ld.basePtr ld.memoryVT a (lowerLoad8 ld) v ∧ v.setWidth 8 = E.mem a := by
  have hsize : ld.memoryVT.getSizeInBits / 8 = 1 := by rw [hvt]; rfl
  unfold lowerLoad8
  split
  · rename_i h4
    obtain ⟨hw, hsum⟩ := and_clearLow a
    have hbyte : E.mem ((a &&& BitVec.ofInt 32 (-4)) + BitVec.ofNat 32 (a.toNat % 4)) = E.mem a := by rw [hsum]
    have hbase : E.eval (getNode .and ld.basePtr (getConstant (-4))) = some (a &&& BitVec.ofInt 32 (-4)) :=
      eval_getNode ha rfl fun _ => .inl rfl
    have hshift := eval_bitoffset ha
    have hamount : shiftAmount (getNode .shl ld.basePtr (getConstant 3)).isConstant (a <<< 3) =
        some (8 * (a.toNat % 4)) := by
      rw [isConstant_shift, ← shiftLeft_three_mod, shiftAmount]
      split
      · rename_i hconst
        obtain ⟨c, hbase⟩ : ∃ c, ld.basePtr = .constant c := by
          cases hq : ld.basePtr <;> first | exact ⟨_, rfl⟩ | (rw [hq] at hconst; cases hconst)
        have hlt := hc h4 c hbase
        obtain rfl : c = a := by
          rw [hbase] at ha
          exact Option.some.inj ha
        rw [if_pos hlt, Nat.mod_eq_of_lt hlt]
      · rfl
    have htouch : Touches (a &&& BitVec.ofInt 32 (-4)) a ld.memoryVT := by
      have h : Touches (a &&& BitVec.ofInt 32 (-4)) (_ + BitVec.ofNat 32 (a.toNat % 4)) ld.memoryVT :=
        touches_start hw (Nat.mod_lt a.toNat (by decide)) (by omega)
      rwa [hsum] at h
    refine ⟨E.mem.readWord (a &&& BitVec.ofInt 32 (-4)) >>> (8 * (a.toNat % 4)), ?_, ?_⟩
    · refine computes_getNode
        (computes_load hbase (fun x hx => (loadAddrs_getNode hx).elim id nofun) htouch)
        ⟨hshift, fun x hx => .inl ((loadAddrs_getNode hx).elim id nofun)⟩ nofun ?_
      rw [SDOp.apply, hamount]
      rfl
    · rw [Mem.setWidth_readWord_shift _ _ (Nat.mod_lt _ (by decide)), hbyte]
  · rename_i h4
    have halign := aligned_of_alignment (by omega) hal
    refine ⟨_, computes_basePtr ha halign (by omega), ?_⟩
    have h := Mem.setWidth_readWord_shift E.mem a (o := 0) (by decide)
    simpa using h

/-- Else the shift is undefined. -/
theorem lowerLoad8_undefined {c : Word} (h4 : ld.alignment < 4) (hbase : ld.basePtr = .constant c)
    (hc : 32 ≤ (c <<< 3).toNat) : E.eval (lowerLoad8 ld) = none := by
  have ha : E.eval ld.basePtr = some c := by rw [hbase]; rfl
  have hword : E.eval (.load (getNode .and ld.basePtr (getConstant (-4)))) =
      some (E.mem.readWord (c &&& BitVec.ofInt 32 (-4))) :=
    congrArg (Option.map _) (eval_getNode ha rfl fun _ => .inl rfl)
  rw [lowerLoad8, if_pos h4, eval_getNode hword (eval_bitoffset ha) nofun, isConstant_shift, hbase]
  have hnone : shiftAmount true (c <<< 3) = none := by rw [shiftAmount, if_pos rfl, if_neg (by omega)]
  exact congrArg (Option.map _) hnone

end Widths

section Extend

variable {p n : SDValue} {vt : MVT} {a v : Word}

/-- A mask keeps the lower bits. -/
theorem and_mask_eq (v : Word) (k : Nat) (hk : k ≤ 32) :
    v &&& BitVec.ofNat 32 (2 ^ k - 1) = (v.setWidth k).setWidth 32 := by
  apply BitVec.eq_of_toNat_eq
  have h32 : 2 ^ k ≤ 2 ^ 32 := Nat.pow_le_pow_right (by decide) hk
  have hpos : 0 < 2 ^ k := by positivity
  have hmask : (BitVec.ofNat 32 (2 ^ k - 1)).toNat = 2 ^ k - 1 := Nat.mod_eq_of_lt (by omega)
  calc (v &&& BitVec.ofNat 32 (2 ^ k - 1)).toNat
      = v.toNat % 2 ^ k := by rw [BitVec.toNat_and, hmask, Nat.and_two_pow_sub_one_eq_mod]
    _ = v.toNat % 2 ^ k % 2 ^ 32 := (Nat.mod_eq_of_lt ((Nat.mod_lt _ hpos).trans_le h32)).symm
    _ = ((v.setWidth k).setWidth 32).toNat := by rw [BitVec.toNat_setWidth, BitVec.toNat_setWidth]

/-- The lower bits are extended. -/
theorem extendLoaded_computes (h : SDValue.Computes E p vt a n v) (ext : LoadExtType) {k : Nat} (hk : k ≤ 32)
    {t : MVT} (ht : t.getSizeInBits = k) :
    SDValue.Computes E p vt a (extendLoaded ext t ((2 ^ k - 1 : Nat) : Int) n)
      (if ext = .sextLoad then (v.setWidth k).signExtend 32 else (v.setWidth k).setWidth 32) := by
  subst ht
  have hmask : SDValue.Computes E p vt a (getNode .and n (getConstant ((2 ^ t.getSizeInBits - 1 : Nat) : Int)))
      ((v.setWidth t.getSizeInBits).setWidth 32) := by
    refine computes_getNode h (computes_constant _) (fun _ => .inl rfl) ?_
    rw [SDOp.apply, BitVec.ofInt_natCast, and_mask_eq v _ hk]
  cases ext with
  | sextLoad =>
    refine ⟨?_, h.loads⟩
    rw [extendLoaded, LoadEnv.eval, h.eval]
    rfl
  | nonExtLoad | extLoad | zextLoad => exact hmask

/-- What is undefined stays so. -/
theorem extendLoaded_undefined (h : E.eval n = none) (ext : LoadExtType) :
    E.eval (extendLoaded ext .i8 0xFF n) = none := by
  have hmask : E.eval (getNode .and n (getConstant 0xFF)) = none := by
    have hn : getNode .and n (getConstant 0xFF) = .binary .and n (getConstant 0xFF) := by
      cases n <;> first | rfl | cases h
    rw [hn, LoadEnv.eval, h]
    rfl
  cases ext with
  | sextLoad =>
    rw [extendLoaded, LoadEnv.eval, h]
    rfl
  | nonExtLoad | extLoad | zextLoad => exact hmask

end Extend

end Eval

/-! ## Loads -/

section Loads

variable {E : LoadEnv} {ld : LoadSDNode} {a : Word}

theorem loads_of_i32 (hu : ld.addressingMode = .unindexed) (hvt : ld.memoryVT = .i32) (ha : E.eval ld.basePtr = some a)
    (hal : a.toNat % ld.alignment = 0) : ld.Loads E a := by
  have hobj : E.object ld.memoryVT ld.extensionType a = E.mem.readWord a := by rw [hvt]; rfl
  rw [LoadSDNode.Loads, lowerLOAD, if_neg (not_not.mpr hu), hobj]
  by_cases h4 : 4 ≤ ld.alignment
  · refine ⟨none, by rw [hvt]; exact if_pos h4, ?_⟩
    exact computes_basePtr ha (aligned_of_alignment h4 hal) (by rw [hvt]; decide)
  · exact ⟨some (lowerLoad32 ld), by rw [hvt]; exact if_neg h4, lowerLoad32_computes hvt ha⟩

theorem loads_of_i16 (hu : ld.addressingMode = .unindexed) (hvt : ld.memoryVT = .i16) (ha : E.eval ld.basePtr = some a)
    (hal : a.toNat % ld.alignment = 0) : ld.Loads E a := by
  obtain ⟨v, hv, hhalf⟩ := lowerLoad16_computes hvt ha hal
  refine ⟨some _, by rw [lowerLOAD, if_neg (not_not.mpr hu), hvt], ?_⟩
  have hobj : E.object ld.memoryVT ld.extensionType a =
      if ld.extensionType = .sextLoad then (v.setWidth 16).signExtend 32 else (v.setWidth 16).setWidth 32 := by
    rw [hvt, hhalf]
    rfl
  rw [hobj]
  exact extendLoaded_computes hv ld.extensionType (by decide) rfl

/-- A byte is loaded, unless its address is a constant that is too large. -/
theorem loads_iff_of_i8 (hu : ld.addressingMode = .unindexed) (hvt : ld.memoryVT = .i8)
    (ha : E.eval ld.basePtr = some a) (hal : a.toNat % ld.alignment = 0) :
    ld.Loads E a ↔ (ld.alignment < 4 → ∀ c, ld.basePtr = .constant c → (c <<< 3).toNat < 32) := by
  have hlower : lowerLOAD ld = .ok (some (extendLoaded ld.extensionType .i8 0xFF (lowerLoad8 ld))) := by
    rw [lowerLOAD, if_neg (not_not.mpr hu), hvt]
  constructor
  · rintro ⟨r, hr, hv⟩ h4 c hc
    rw [hlower] at hr
    obtain rfl := Except.ok.inj hr
    by_contra hlt
    have hnone := extendLoaded_undefined (lowerLoad8_undefined (E := E) h4 hc (by omega)) ld.extensionType
    exact nomatch hnone.symm.trans hv.eval
  · intro hc
    obtain ⟨v, hv, hbyte⟩ := lowerLoad8_computes hvt ha hal hc
    refine ⟨_, hlower, ?_⟩
    have hobj : E.object ld.memoryVT ld.extensionType a =
        if ld.extensionType = .sextLoad then (v.setWidth 8).signExtend 32 else (v.setWidth 8).setWidth 32 := by
      rw [hvt, hbyte]
      rfl
    rw [hobj]
    exact extendLoaded_computes hv ld.extensionType (by decide) rfl

end Loads

/-- A load of an integer is lowered to what computes it, unless it is a byte of
low alignment at a constant address, eight times which is too large for a shift. -/
theorem lowerLOAD_loads_iff (E : LoadEnv) (ld : LoadSDNode) {a : Word} (hu : ld.addressingMode = .unindexed)
    (hvt : ld.memoryVT ∈ [MVT.i8, .i16, .i32]) (ha : E.eval ld.basePtr = some a) (hal : a.toNat % ld.alignment = 0) :
    ld.Loads E a ↔
      ¬(ld.memoryVT = .i8 ∧ ld.alignment < 4 ∧ ∃ c, ld.basePtr = .constant c ∧ 32 ≤ (c <<< 3).toNat) := by
  simp only [List.mem_cons, List.not_mem_nil, or_false] at hvt
  rcases hvt with hvt | hvt | hvt
  · rw [loads_iff_of_i8 hu hvt ha hal]
    constructor
    · rintro h ⟨-, h4, c, hc, hge⟩
      exact absurd (h h4 c hc) (by omega)
    · intro h h4 c hc
      by_contra hlt
      exact h ⟨hvt, h4, c, hc, by omega⟩
  · exact iff_of_true (loads_of_i16 hu hvt ha hal) fun h => nomatch hvt.symm.trans h.1
  · exact iff_of_true (loads_of_i32 hu hvt ha hal) fun h => nomatch hvt.symm.trans h.1

/-- Memory of zeros, and registers and frame indices at zero. -/
def zeroEnv : LoadEnv where
  mem _ := 0
  reg _ := 0
  frame _ := 0
  frame_aligned _ := rfl
  library _ _ := 0
  unalignedldi16 _ := (by decide : (0 : Word) = ((0 : Byte) ++ (0 : Byte)).setWidth 32)
  unalignedldi32 _ := (by decide : (0 : Word) = (0 : Byte) ++ (0 : Byte) ++ (0 : Byte) ++ (0 : Byte))

/-- A byte at a frame index and an offset. -/
def frameByte : LoadSDNode :=
  { basePtr := .binary .add (.frameIndex 0) (.constant 5), memoryVT := .i8, logAlignment := 0 }

theorem lowerLOAD_loads_frameByte :
    frameByte.Loads zeroEnv 5 ↔
      ¬(frameByte.memoryVT = .i8 ∧ frameByte.alignment < 4 ∧
        ∃ c, frameByte.basePtr = .constant c ∧ 32 ≤ (c <<< 3).toNat) :=
  lowerLOAD_loads_iff zeroEnv frameByte rfl (by decide) rfl rfl

/-- A byte at the address 4 is shifted by 32. -/
theorem constantByte_not_loads :
    ¬LoadSDNode.Loads zeroEnv { basePtr := .constant 4, memoryVT := .i8, logAlignment := 0 } 4 := by
  rintro ⟨r, hr, hv⟩
  obtain rfl := Except.ok.inj hr
  exact nomatch hv.eval

end Rigel
