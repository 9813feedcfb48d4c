import Mathlib.Data.BitVec
import Mathlib.Tactic.Ring
import RigelCodegen.Asm.Branch

/-!
# Fragments

The contents of a section are a chain of fragments: bytes that are there already
(`fr_fix` of them), and then a variable part, whose size may depend on where things
are. This module has the sizes: what `relax_segment` takes them to be at first
(`estimate`), and by how much the body of its loop changes one (`relaxFrag`).

Addresses are `bfd_vma`s. `fr_offset` and the growths are signed, of the same width.
-/

namespace Rigel.Relax

open Word32

variable {w : Nat}

/-- A symbol with the expression that it is: a label is an offset from a fragment of a section. -/
inductive Symbol (w : Nat) where
  | undefined
  | absolute (value : BitVec w)
  | label (sec frag : Nat) (offset : BitVec w)
  | add (sym : Symbol w) (number : BitVec w)
  | subtract (left right : Symbol w)
  | multiply (left right : Symbol w)
  deriving DecidableEq, Repr

/-- The section of a symbol: a numbered one, or one of those that gas has for itself. -/
inductive SegT where
  | absolute | undefined | expr
  | sec (k : Nat)
  deriving DecidableEq, Repr

/-- `S_GET_SEGMENT`, once `resolve_symbol_value` has set it. A constant that is added or subtracted leaves the
section as it is, unless there is none. -/
def Symbol.segment : Symbol w → SegT
  | .undefined => .undefined
  | .absolute _ => .absolute
  | .label sec _ _ => .sec sec
  | .add sym _ => if sym.segment = .undefined then .expr else sym.segment
  | .subtract left right =>
    if right.segment = .absolute then if left.segment = .undefined then .expr else left.segment
    else if left.segment = right.segment ∧ left.segment ≠ .undefined then .absolute else .expr
  | .multiply left right => if left.segment = .absolute ∧ right.segment = .absolute then .absolute else .expr

/-- Where the fragments are: `fr_address`, by section and place in the chain. -/
abbrev Addresses (w : Nat) := Nat → Nat → BitVec w

/-- `S_GET_VALUE`, while symbols are not final. -/
def Symbol.value (addrs : Addresses w) : Symbol w → BitVec w
  | .undefined => 0
  | .absolute value => value
  | .label sec frag offset => offset + addrs sec frag
  | .add sym number => if sym.segment = .undefined then 0 else number + sym.value addrs
  | .subtract left right =>
    if right.segment = .absolute ∧ left.segment = .undefined then 0 else left.value addrs - right.value addrs
  | .multiply left right => left.value addrs * right.value addrs

/-! ## Fragments -/

/-- `fr_type` and `fr_subtype`. A machine-dependent fragment is a branch, or a macro with two sequences of which
one is kept: `pic_need_relax` or `nopic_need_relax` says whether that is the second. Files with other fragments
(`rs_leb128`, `rs_cfa`, `rs_dwarf2dbg`, and those of MIPS16 code) are none of these. -/
inductive RelaxState (w : Nat) where
  | fill
  | align (max : Word)
  | org
  | space
  | branch (insn : Word) (uncond likely link toofar : Bool)
  | variant (first second : BitVec w) (needRelax : Bool)
  deriving DecidableEq, Repr

/-- A fragment, without its literal. `frSubtype` stands for both `fr_type` and `fr_subtype`. -/
structure Frag (w : Nat) where
  frAddress : BitVec w := 0
  lastFrAddress : BitVec w := 0
  frFix : BitVec w
  frVar : BitVec w
  frOffset : BitVec w := 0
  frSymbol : Option (Symbol w) := none
  frSubtype : RelaxState w
  deriving DecidableEq, Repr

/-- The chains of all sections. -/
abbrev Segments (w : Nat) := List (List (Frag w))

def Segments.addresses (segs : Segments w) : Addresses w := fun sec frag =>
  ((segs.getD sec [])[frag]?).elim 0 Frag.frAddress

/-- `mips_pic` and `mips_opts`, as they are at the end of the file. -/
structure Options where
  noPic : Bool
  isaMips1 : Bool
  have64BitAddresses : Bool := false
  deriving DecidableEq, Repr

/-- The low bits that are clear in an aligned address: `~((~0) << alignment)`, of type `int`. -/
def alignMask (alignment : BitVec w) : BitVec w :=
  (~~~((~~~0 : Word) <<< (alignment.setWidth 32))).signExtend w

/-- `relax_align`: how far it is to the next aligned address. -/
def relaxAlign (address alignment : BitVec w) : BitVec w :=
  ((address + alignMask alignment) &&& ~~~alignMask alignment) - address

/-- The padding of an alignment, none if that is more than the most that is allowed. -/
def Frag.padding (f : Frag w) (max : Word) (address : BitVec w) : BitVec w :=
  let offset := relaxAlign address f.frOffset
  if max ≠ 0 ∧ max.toNat < offset.toNat then 0 else offset

/-- The target of a branch, if it is in the section. -/
def Frag.target (k : Nat) (addrs : Addresses w) (f : Frag w) : Option (BitVec w) :=
  match f.frSymbol with
  | some sym => if sym.segment = .sec k then some (sym.value addrs + f.frOffset) else none
  | none => none

/-- `relaxed_branch_length`: the length, and whether the branch is too far. -/
def Frag.relaxedBranchLength (opts : Options) (k : Nat) (addrs : Addresses w) (f : Frag w)
    (uncond likely link toofar : Bool) (update : Int) : BitVec w × Bool :=
  let fragp := ⟨f.frAddress, f.frFix, f.target k addrs, uncond, likely, link, toofar⟩
  let (length, fragp') := Rigel.relaxedBranchLength opts.noPic opts.isaMips1 (some fragp) update
  (BitVec.ofNat w length, fragp'.elim toofar RelaxFrag.toofar)

/-- A fragment with the size that it has at first, and what is reported. -/
structure Estimate (w : Nat) where
  frag : Frag w
  size : BitVec w
  reports : List String := []
  deriving DecidableEq, Repr

/-- The size at first, of a fragment whose address is known: a case of the first loop of `relax_segment`, with
`md_estimate_size_before_relax`. `.org` and `.space` grow later. -/
def estimate (opts : Options) (k : Nat) (addrs : Addresses w) (f : Frag w) : Estimate w :=
  match f.frSubtype with
  | .fill => { frag := f, size := f.frOffset * f.frVar }
  | .align max =>
    let offset := f.padding max (f.frAddress + f.frFix)
    if offset % f.frVar ≠ 0 then
      { frag := f, size := offset - offset % f.frVar,
        reports := ["alignment padding (%lu bytes) not a multiple of %ld"] }
    else { frag := f, size := offset }
  | .org => { frag := f, size := 0 }
  | .space => { frag := f, size := 0 }
  | .branch _ uncond likely link toofar =>
    let (length, _) := f.relaxedBranchLength opts k addrs uncond likely link toofar 0
    { frag := { f with frVar := length }, size := length }
  | .variant first second needRelax => { frag := f, size := if needRelax then -first else -second }

/-! ## Growth -/

/-- What becomes of a fragment in a pass: by how much it grows, whether the rounds have to go on (`ret`), and what is
reported. -/
structure Relaxed (w : Nat) where
  frag : Frag w
  growth : BitVec w := 0
  again : Bool := false
  reports : List String := []
  deriving DecidableEq, Repr

/-- `rs_org`. The growth is an absolute one, so the next fragment comes to be at the target. -/
def relaxOrg (pass : Nat) (addrs : Addresses w) (wasAddress stretch : BitVec w) (f : Frag w) (after : BitVec w) :
    Relaxed w :=
  let target := f.frOffset + f.frSymbol.elim 0 (Symbol.value addrs)
  if 0 ≤ (target - after).toInt then { frag := f, growth := target - after - stretch }
  else if pass < 2 then { frag := f, again := true }
  else
    { frag := { f with frSubtype := .align 0, frOffset := 0, frFix := after - wasAddress },
      reports := ["attempt to move .org backwards"] }

/-- `rs_space`, with a symbol for its size. -/
def relaxSpace (pass : Nat) (addrs : Addresses w) (wasAddress : BitVec w) (f : Frag w) (sym : Symbol w)
    (after : BitVec w) : Relaxed w :=
  if sym.segment ≠ .absolute then
    { frag := { f with frSymbol := none }, reports := [".space specifies non-absolute value"] }
  else if 0 ≤ (sym.value addrs).toInt then
    { frag := f, growth := wasAddress + f.frFix + sym.value addrs - after }
  else if pass < 2 then { frag := f, again := true }
  else { frag := { f with frSymbol := none }, reports := [".space or .fill with negative value, ignored"] }

/-- The body of the loop of `relax_segment`, for a fragment that has moved by `stretch` from `wasAddress`, with the
next one where it was before. -/
def relaxFrag (opts : Options) (k pass : Nat) (addrs : Addresses w) (wasAddress stretch : BitVec w) (f : Frag w)
    (next : Option (BitVec w)) : Relaxed w :=
  match f.frSubtype with
  | .fill => { frag := f }
  | .align max =>
    { frag := f, growth := f.padding max (f.frAddress + f.frFix) - f.padding max (wasAddress + f.frFix) }
  | .org => next.elim { frag := f } (relaxOrg pass addrs wasAddress stretch f)
  | .space =>
    match f.frSymbol with
    | some sym => next.elim { frag := f } (relaxSpace pass addrs wasAddress f sym)
    | none => { frag := f }
  | .branch insn uncond likely link toofar =>
    let (length, toofar') := f.relaxedBranchLength opts k addrs uncond likely link toofar 1
    { frag := { f with frVar := length, frSubtype := .branch insn uncond likely link toofar' },
      growth := length - f.frVar }
  | .variant _ _ _ => { frag := f }

/-- What a fragment takes up after its fixed part, where that is known without looking at the next one. -/
def Frag.size? (f : Frag w) : Option (BitVec w) :=
  match f.frSubtype with
  | .fill => some (f.frOffset * f.frVar)
  | .align max => some (f.padding max (f.frAddress + f.frFix))
  | .org => none
  | .space => if f.frSymbol = none then some 0 else none
  | .branch _ _ _ _ _ => some f.frVar
  | .variant first second needRelax => some (if needRelax then -first else -second)

/-- The next fragment is where this one ends. -/
def Linked (f : Frag w) (next : BitVec w) : Prop := ∀ size ∈ f.size?, next = f.frAddress + f.frFix + size

/-- A fragment of a final layout and the address of the next one. The sizes are those for the final addresses: `.org`
reaches its target, `.space` has its amount, and a branch is long if and only if it is too far. -/
def Placed (opts : Options) (k : Nat) (addrs : Addresses w) (f : Frag w) (next : BitVec w) : Prop :=
  match f.frSubtype with
  | .org => next = f.frOffset + f.frSymbol.elim 0 (Symbol.value addrs)
  | .space =>
    match f.frSymbol with
    | some sym => sym.segment = .absolute ∧ 0 ≤ (sym.value addrs).toInt ∧
        next = f.frAddress + f.frFix + sym.value addrs
    | none => next = f.frAddress + f.frFix
  | .branch _ uncond likely link toofar =>
    f.relaxedBranchLength opts k addrs uncond likely link toofar 1 = (f.frVar, toofar) ∧
      next = f.frAddress + f.frFix + f.frVar
  | _ => Linked f next

/-- What relaxation leaves of a fragment. -/
def Frag.shape (f : Frag w) : Frag w :=
  match f.frSubtype with
  | .branch insn uncond likely link _ =>
    { f with frAddress := 0, lastFrAddress := 0, frVar := 0, frSubtype := .branch insn uncond likely link false }
  | _ => { f with frAddress := 0, lastFrAddress := 0 }

section Steps

variable {opts : Options} {k pass : Nat} {addrs : Addresses w}

@[simp] theorem shape_setAddress (f : Frag w) (a : BitVec w) : { f with frAddress := a }.shape = f.shape := by
  cases f with
  | mk _ _ _ _ _ _ sub => cases sub <;> rfl

@[simp] theorem shape_setLast (f : Frag w) (a : BitVec w) : { f with lastFrAddress := a }.shape = f.shape := by
  cases f with
  | mk _ _ _ _ _ _ sub => cases sub <;> rfl

/-- An estimate moves nothing and leaves the shape. -/
theorem estimate_frag (opts : Options) (k : Nat) (addrs : Addresses w) (f : Frag w) :
    (estimate opts k addrs f).frag.frAddress = f.frAddress ∧ (estimate opts k addrs f).frag.frFix = f.frFix ∧
      (estimate opts k addrs f).frag.lastFrAddress = f.lastFrAddress ∧
      (estimate opts k addrs f).frag.shape = f.shape := by
  rcases f with ⟨a, last, fix, var, offset, sym, sub⟩
  cases sub with
  | align max =>
    simp only [estimate]
    split <;> exact ⟨rfl, rfl, rfl, rfl⟩
  | _ => exact ⟨rfl, rfl, rfl, rfl⟩

/-- The estimate of a fragment that nothing is reported for is where it ends. -/
theorem linked_estimate (f : Frag w) (h : (estimate opts k addrs f).reports = []) :
    Linked (estimate opts k addrs f).frag (f.frAddress + f.frFix + (estimate opts k addrs f).size) := by
  intro size hsize
  rcases f with ⟨a, last, fix, var, offset, sym, sub⟩
  cases sub with
  | align max =>
    simp only [estimate] at h hsize ⊢
    split at h
    · cases h
    · next hmod =>
      simp only [hmod, ↓reduceIte] at hsize ⊢
      cases hsize
      rfl
  | space => cases sym <;> cases hsize; rfl
  | org => cases hsize
  | _ => cases hsize; rfl

/-- What `.org` does without a report. -/
theorem relaxOrg_cases {was stretch after : BitVec w} {f : Frag w}
    (h : (relaxOrg pass addrs was stretch f after).reports = []) :
    (relaxOrg pass addrs was stretch f after).frag = f ∧
      ((relaxOrg pass addrs was stretch f after).again = true ∨
        (relaxOrg pass addrs was stretch f after).growth =
          f.frOffset + f.frSymbol.elim 0 (Symbol.value addrs) - after - stretch) := by
  revert h
  unfold relaxOrg
  dsimp only
  split_ifs
  · exact fun _ => ⟨rfl, .inr rfl⟩
  · exact fun _ => ⟨rfl, .inl rfl⟩
  · exact False.elim

/-- What `.space` does without a report. -/
theorem relaxSpace_cases {was after : BitVec w} {f : Frag w} {sym : Symbol w}
    (h : (relaxSpace pass addrs was f sym after).reports = []) :
    (relaxSpace pass addrs was f sym after).frag = f ∧
      ((relaxSpace pass addrs was f sym after).again = true ∨
        sym.segment = .absolute ∧ 0 ≤ (sym.value addrs).toInt ∧
          (relaxSpace pass addrs was f sym after).growth = was + f.frFix + sym.value addrs - after) := by
  revert h
  unfold relaxSpace
  split_ifs with hseg hnn
  · exact False.elim
  · exact fun _ => ⟨rfl, .inr ⟨not_ne_iff.mp hseg, hnn, rfl⟩⟩
  · exact fun _ => ⟨rfl, .inl rfl⟩
  · exact False.elim

theorem relaxOrg_frAddress (was stretch : BitVec w) (f : Frag w) (after : BitVec w) :
    (relaxOrg pass addrs was stretch f after).frag.frAddress = f.frAddress ∧
      (relaxOrg pass addrs was stretch f after).frag.lastFrAddress = f.lastFrAddress := by
  unfold relaxOrg
  dsimp only
  repeat' split
  all_goals exact ⟨rfl, rfl⟩

theorem relaxSpace_frAddress (was : BitVec w) (f : Frag w) (sym : Symbol w) (after : BitVec w) :
    (relaxSpace pass addrs was f sym after).frag.frAddress = f.frAddress ∧
      (relaxSpace pass addrs was f sym after).frag.lastFrAddress = f.lastFrAddress := by
  unfold relaxSpace
  repeat' split
  all_goals exact ⟨rfl, rfl⟩

/-- A pass over a fragment leaves it where it is. -/
theorem relaxFrag_frAddress (was stretch : BitVec w) (f : Frag w) (next : Option (BitVec w)) :
    (relaxFrag opts k pass addrs was stretch f next).frag.frAddress = f.frAddress ∧
      (relaxFrag opts k pass addrs was stretch f next).frag.lastFrAddress = f.lastFrAddress := by
  rcases f with ⟨a, last, fix, var, offset, sym, sub⟩
  cases sub with
  | org =>
    cases next with
    | none => exact ⟨rfl, rfl⟩
    | some after => exact relaxOrg_frAddress ..
  | space =>
    cases sym <;> cases next <;> try exact ⟨rfl, rfl⟩
    exact relaxSpace_frAddress ..
  | _ => exact ⟨rfl, rfl⟩

/-- A pass leaves the shape of a fragment that nothing is reported for. -/
theorem relaxFrag_shape {was stretch : BitVec w} {f : Frag w} {next : Option (BitVec w)}
    (h : (relaxFrag opts k pass addrs was stretch f next).reports = []) :
    (relaxFrag opts k pass addrs was stretch f next).frag.shape = f.shape := by
  rcases f with ⟨a, last, fix, var, offset, sym, sub⟩
  cases sub with
  | org =>
    cases next with
    | none => rfl
    | some after => exact congrArg Frag.shape (relaxOrg_cases h).1
  | space =>
    cases sym <;> cases next <;> try rfl
    exact congrArg Frag.shape (relaxSpace_cases h).1
  | _ => rfl

/-- The next fragment moves by the stretch and the growth, and stays where this one ends. -/
theorem linked_relaxFrag {was stretch after : BitVec w} {f : Frag w} (hf : f.frAddress = was + stretch)
    (h : (relaxFrag opts k pass addrs was stretch f (some after)).reports = [])
    (hl : Linked { f with frAddress := was } after) :
    Linked (relaxFrag opts k pass addrs was stretch f (some after)).frag
      (after + stretch + (relaxFrag opts k pass addrs was stretch f (some after)).growth) := by
  rcases f with ⟨a, last, fix, var, offset, sym, sub⟩
  cases (show a = was + stretch from hf)
  intro size hsize
  cases sub with
  | org => exact absurd (congrArg Frag.size? (relaxOrg_cases h).1 ▸ hsize) (Option.not_mem_none _)
  | space =>
    cases sym with
    | none =>
      cases hsize
      rw [hl _ rfl]
      simp only [relaxFrag]
      ring
    | some sym => exact absurd (congrArg Frag.size? (relaxSpace_cases h).1 ▸ hsize) (Option.not_mem_none _)
  | _ =>
    cases hsize
    rw [hl _ rfl]
    simp only [relaxFrag, Frag.padding]
    ring

/-- A fragment that does not grow, where nothing has moved, has its final place. -/
theorem placed_relaxFrag {after : BitVec w} {f : Frag w}
    (h : (relaxFrag opts k pass addrs f.frAddress 0 f (some after)).reports = [])
    (hagain : (relaxFrag opts k pass addrs f.frAddress 0 f (some after)).again = false)
    (hgrow : (relaxFrag opts k pass addrs f.frAddress 0 f (some after)).growth = 0) (hl : Linked f after) :
    Placed opts k addrs (relaxFrag opts k pass addrs f.frAddress 0 f (some after)).frag after := by
  rcases f with ⟨a, last, fix, var, offset, sym, sub⟩
  cases sub with
  | org =>
    obtain ⟨hf, ha | hg⟩ := relaxOrg_cases h
    · cases ha.symm.trans hagain
    · have hz := hg.symm.trans hgrow
      rw [sub_zero, sub_eq_zero] at hz
      exact (congrArg (Placed opts k addrs · after) hf).mpr hz.symm
  | space =>
    cases sym with
    | none => exact (hl 0 rfl).trans (BitVec.add_zero _)
    | some sym =>
      obtain ⟨hf, ha | ⟨hseg, hnn, hg⟩⟩ := relaxSpace_cases h
      · cases ha.symm.trans hagain
      · have hz := hg.symm.trans hgrow
        rw [sub_eq_zero] at hz
        exact (congrArg (Placed opts k addrs · after) hf).mpr ⟨hseg, hnn, hz.symm⟩
  | branch insn uncond likely link toofar =>
    have hz : _ - _ = (0 : BitVec w) := hgrow
    rw [sub_eq_zero] at hz
    refine ⟨rfl, (hl _ rfl).trans ?_⟩
    exact congrArg (a + fix + ·) hz.symm
  | _ => exact hl

end Steps

end Rigel.Relax
