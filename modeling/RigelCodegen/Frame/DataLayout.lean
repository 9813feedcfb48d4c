import RigelCodegen.Frame.MachineFrameInfo

/-!
# The data layout

`TargetData::init` on the description of `RigelTargetMachine`, and what it
gives locals: `getAlignmentInfo` for scalar types, and the alignment a static
`alloca` asks for.
-/

namespace Rigel

inductive AlignTypeEnum where
  | integer | vector | float | aggregate | stack
  deriving DecidableEq, Repr

structure TargetAlignElem where
  alignType : AlignTypeEnum
  typeBitWidth : Nat
  abiAlign : Nat
  prefAlign : Nat
  deriving DecidableEq, Repr

/-- `Alignments`, and the alignment of pointers. -/
structure TargetData where
  littleEndian : Bool := false
  pointerMemSize : Nat := 8
  pointerABIAlign : Nat := 8
  pointerPrefAlign : Nat := 8
  alignments : List TargetAlignElem := []
  deriving DecidableEq, Repr

namespace TargetData

def setAlignment (td : TargetData) (e : TargetAlignElem) : TargetData :=
  let same := fun x : TargetAlignElem => x.alignType == e.alignType && x.typeBitWidth == e.typeBitWidth
  { td with alignments :=
      if td.alignments.any same then td.alignments.map fun x => if same x then e else x
      else td.alignments ++ [e] }

/-- The default alignments. -/
def default : TargetData := [
  ⟨.integer, 1, 1, 1⟩, ⟨.integer, 8, 1, 1⟩, ⟨.integer, 16, 2, 2⟩, ⟨.integer, 32, 4, 4⟩, ⟨.integer, 64, 4, 8⟩,
  ⟨.float, 32, 4, 4⟩, ⟨.float, 64, 8, 8⟩, ⟨.vector, 64, 8, 8⟩, ⟨.vector, 128, 16, 16⟩,
  ⟨.aggregate, 0, 0, 8⟩].foldl setAlignment {}

/-- `StringRef::split`. -/
def split (sep : Char) : List Char → List Char × List Char
  | [] => ([], [])
  | c :: cs => if c = sep then ([], cs) else ((c :: (split sep cs).1), (split sep cs).2)

/-- `getInt`: 0 for what is not a number. -/
def getInt (cs : List Char) : Nat :=
  if cs.all (·.isDigit) then cs.foldl (fun n c => 10 * n + (c.toNat - 48)) 0 else 0

/-- One token of the description, such as `i64:32:64`. The native integers
(`n`) have no part in an alignment. -/
def parseToken (td : TargetData) (token : List Char) : TargetData :=
  let (specifier, token) := split ':' token
  let (first, token) := split ':' token
  let (second, token) := split ':' token
  let (third, _) := split ':' token
  let set := fun t =>
    let abi := getInt first / 8
    let pref := getInt second / 8
    td.setAlignment ⟨t, getInt specifier.tail, abi, if pref = 0 then abi else pref⟩
  match specifier.head? with
  | some 'E' => { td with littleEndian := false }
  | some 'e' => { td with littleEndian := true }
  | some 'p' =>
    let abi := getInt second / 8
    let pref := getInt third / 8
    { td with
      pointerMemSize := getInt first / 8
      pointerABIAlign := abi
      pointerPrefAlign := if pref = 0 then abi else pref }
  | some 'i' => set .integer
  | some 'v' => set .vector
  | some 'f' => set .float
  | some 'a' => set .aggregate
  | some 's' => set .stack
  | _ => td

/-- The tokens of a description, as often as there may be one. -/
def parse (td : TargetData) : Nat → List Char → TargetData
  | 0, _ => td
  | _, [] => td
  | n + 1, desc =>
    let (token, desc) := split '-' desc
    parse (if token.isEmpty then td else td.parseToken token) n desc

def init (desc : List Char) : TargetData := parse default desc.length desc

end TargetData

/-- The description that `RigelTargetMachine` gives. -/
def dataLayout : String :=
  "e-p:32:32:32-i1:8:8-i8:8:32-i16:16:32-i32:32:32-i64:32:64-f32:32:32-f64:32:64-a0:0:32-s0:32:32-n32"

def rigelTargetData : TargetData := TargetData.init dataLayout.toList

/-- The scalar types. -/
inductive ScalarTy where
  | i1 | i8 | i16 | i32 | i64 | f32 | f64 | ptr
  deriving DecidableEq, Repr

namespace TargetData

def getTypeSizeInBits (td : TargetData) : ScalarTy → Nat
  | .i1 => 1
  | .i8 => 8
  | .i16 => 16
  | .i32 | .f32 => 32
  | .i64 | .f64 => 64
  | .ptr => 8 * td.pointerMemSize

/-- `getAlignmentInfo`, where there is an exact match. -/
def getAlignmentInfo (td : TargetData) (t : AlignTypeEnum) (bitWidth : Nat) (abi : Bool) : Nat :=
  match td.alignments.find? fun e => e.alignType == t && e.typeBitWidth == bitWidth with
  | some e => if abi then e.abiAlign else e.prefAlign
  | none => 0

def getAlignment (td : TargetData) (ty : ScalarTy) (abi : Bool) : Nat :=
  match ty with
  | .ptr => if abi then td.pointerABIAlign else td.pointerPrefAlign
  | .f32 | .f64 => td.getAlignmentInfo .float (td.getTypeSizeInBits ty) abi
  | _ => td.getAlignmentInfo .integer (td.getTypeSizeInBits ty) abi

def getABITypeAlignment (td : TargetData) (ty : ScalarTy) : Nat := td.getAlignment ty true

def getPrefTypeAlignment (td : TargetData) (ty : ScalarTy) : Nat := td.getAlignment ty false

/-- `getTypeAllocSize`: the store size, rounded up to the ABI alignment. -/
def getTypeAllocSize (td : TargetData) (ty : ScalarTy) : Nat :=
  Packing.alignUp ((td.getTypeSizeInBits ty + 7) / 8) (td.getABITypeAlignment ty)

end TargetData

/-- Every exact match is there, and a power of two. -/
theorem prefTypeAlignment_pow (ty : ScalarTy) : ∃ k < 32, rigelTargetData.getPrefTypeAlignment ty = 2 ^ k := by
  cases ty
  case i64 => exact ⟨3, by decide, by decide⟩
  case f64 => exact ⟨3, by decide, by decide⟩
  case i1 => exact ⟨0, by decide, by decide⟩
  all_goals exact ⟨2, by decide, by decide⟩

/-! ## Locals -/

/-- The alignment of a static `alloca`: what it asks for, but at least what its
type prefers. -/
def allocaAlignment (ty : ScalarTy) (align : Nat) : Nat := max (rigelTargetData.getPrefTypeAlignment ty) align

theorem allocaAlignment_pow (ty : ScalarTy) {align : Nat} (h : align = 0 ∨ ∃ k < 32, align = 2 ^ k) :
    ∃ k < 32, allocaAlignment ty align = 2 ^ k := by
  obtain ⟨k, hk, hp⟩ := prefTypeAlignment_pow ty
  rcases Nat.le_total (rigelTargetData.getPrefTypeAlignment ty) align with hle | hle
  · rw [allocaAlignment, Nat.max_eq_right hle]
    refine h.resolve_left fun h0 => ?_
    have := Nat.two_pow_pos k
    omega
  · exact ⟨k, hk, by rw [allocaAlignment, Nat.max_eq_left hle, hp]⟩

/-- `FunctionLoweringInfo` on a static `alloca` of `n` scalars. -/
def MachineFunction.staticAlloca (mf : MachineFunction) (ty : ScalarTy) (n align : Nat)
    (h : align = 0 ∨ ∃ k < 32, align = 2 ^ k) : MachineFunction :=
  let tySize := rigelTargetData.getTypeAllocSize ty * n
  { mf with frameInfo := (mf.frameInfo.createStackObject (if tySize = 0 then 1 else tySize)
      (allocaAlignment ty align) (allocaAlignment_pow ty h) (n != 1)).2 }

theorem MachineFunction.Created.staticAlloca {mf : MachineFunction} (hc : mf.Created) (ty : ScalarTy) (n : Nat)
    {align : Nat} (h : align = 0 ∨ ∃ k < 32, align = 2 ^ k) : (mf.staticAlloca ty n align h).Created :=
  hc.createStackObject ..

end Rigel
