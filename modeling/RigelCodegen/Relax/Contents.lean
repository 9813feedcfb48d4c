import RigelCodegen.Relax.Segment

/-!
# The contents of a section

After relaxation `size_seg` turns each fragment into bytes and a fill that is
repeated (`cvtFragToFill`); a branch becomes an instruction, or several if it is
too far (`convertBranch`). `write_contents` then puts them one after the other,
without another look at the addresses (`writeContents`).

`relaxed_contents` says that the sizes are the ones that relaxation had in mind:
no assertion fails, and the fragments are written where their addresses say, if
and only if each padding is a whole number of fills.
-/

namespace Rigel.Relax

open Word32

variable {w : Nat}

/-- The types of the fixups that `md_convert_frag` makes for a branch. -/
inductive ConvertReloc where
  | pcrelS2 | mipsJmp | mipsGot16 | lo16
  deriving DecidableEq, Repr

/-- An instruction that is put out, with the fixup for it. -/
structure Emitted where
  insn : Word
  fixup : Option ConvertReloc := none
  deriving DecidableEq, Repr

def nop : Emitted := { insn := 0 }

/-- The branch on the opposite condition, by the opcode. There is none for an unknown opcode. -/
def reverseBranch (insn : Word) : Option Word :=
  if insn >>> 28 = 4 then if insn &&& 0xf1000000 = 0x41000000 then some (insn ^^^ 0x00010000) else none
  else if insn >>> 28 = 0 then if insn &&& 0xfc0e0000 = 0x04000000 then some (insn ^^^ 0x00010000) else none
  else if insn >>> 28 = 1 then some (insn ^^^ 0x04000000)
  else none

/-- The branch without its link. -/
def clearLink (insn : Word) : Option Word :=
  if insn &&& 0xfc1c0000 = 0x04100000 then some (insn &&& ~~~0x00100000) else none

/-- The branch that goes around the jump: the reverse one, or a likely one itself. -/
def overInsn (insn : Word) (likely link : Bool) : Option Word :=
  (if likely then some insn else reverseBranch insn).bind fun insn => if link then clearLink insn else some insn

/-- The instructions before the jump. A likely branch goes to the jump, past a branch that is always taken and goes
around it. -/
def branchOver (insn : Word) (likely link : Bool) (frVar : Word) : Option (List Emitted) :=
  (overInsn insn likely link).map fun insn =>
    [{ insn := insn ||| (((if likely then 16 else frVar) >>> 2) - 1) }, nop] ++
      if likely then [{ insn := 0x50000000 ||| ((frVar - 8) >>> 2) }, nop] else []

/-- The jump to the target of a branch that is too far. -/
def longJump (opts : Options) (link : Bool) : List Emitted :=
  if opts.noPic then [{ insn := if link then 0x0c000000 else 0x08000000, fixup := some .mipsJmp }]
  else
    [{ insn := if opts.have64BitAddresses then 0xdf810000 else 0x8f810000, fixup := some .mipsGot16 }] ++
      (if opts.isaMips1 then [nop] else []) ++
      [{ insn := if opts.have64BitAddresses then 0x64210000 else 0x24210000, fixup := some .lo16 },
        { insn := if link then 0x0020f809 else 0x00200008 }]

/-- `md_convert_frag`, for a branch. There is no result where an assertion about the opcode fails. -/
def convertBranch (opts : Options) (insn : Word) (uncond likely link toofar : Bool) (frVar : Word) :
    Option (List Emitted) :=
  if !toofar then some [{ insn, fixup := some .pcrelS2 }]
  else if uncond then some (longJump opts link)
  else (branchOver insn likely link frVar).map (· ++ longJump opts link)

/-- A fragment of type `rs_fill`, with the instructions that `md_convert_frag` has put at the end of its fixed part,
and what is reported. -/
structure Filled (w : Nat) where
  frFix : BitVec w
  frVar : BitVec w := 0
  frOffset : BitVec w := 0
  code : List Emitted := []
  reports : List String := []
  deriving DecidableEq, Repr

/-- The variable part of an alignment, `.org` or `.space`. -/
def cvtPadding (f : Frag w) (next : BitVec w) : Option (Filled w) :=
  if f.frVar = 0 then none
  else
    let count := (next - f.frAddress - f.frFix) / f.frVar
    if 0 ≤ count.toInt then some { frFix := f.frFix, frVar := f.frVar, frOffset := count }
    else
      some
        { frFix := f.frFix, frVar := f.frVar,
          reports := ["attempt to .org/.space backwards? (%ld)"] }

/-- The branch of a fragment that ends where `md_convert_frag` says. -/
def cvtBranch (f : Frag w) (next : Option (BitVec w)) (code : List Emitted) : Option (Filled w) :=
  if BitVec.ofNat w (4 * code.length) = f.frVar ∧ ∀ a ∈ next, a - f.frAddress = f.frFix + f.frVar then
    some { frFix := f.frFix + f.frVar, code }
  else none

/-- A fragment from which one of two sequences, of this size, is taken out. -/
def cvtVariant (f : Frag w) (next : Option (BitVec w)) (size : BitVec w) : Option (Filled w) :=
  if ∀ a ∈ next, a - f.frAddress = f.frFix - size then some { frFix := f.frFix - size } else none

/-- `cvt_frag_to_fill`. There is no result where an assertion fails. -/
def cvtFragToFill (opts : Options) (f : Frag w) (next : Option (BitVec w)) : Option (Filled w) :=
  match f.frSubtype with
  | .fill => some { frFix := f.frFix, frVar := f.frVar, frOffset := f.frOffset }
  | .branch insn uncond likely link toofar =>
    (convertBranch opts insn uncond likely link toofar (f.frVar.setWidth 32)).bind (cvtBranch f next)
  | .variant first second needRelax => cvtVariant f next (if needRelax then first else second)
  | _ => next.bind (cvtPadding f)

/-- `size_seg`, for the fragments of a section. -/
def sizeSeg (opts : Options) : List (Frag w) → Option (List (Filled w))
  | [] => some []
  | f :: frags =>
    (cvtFragToFill opts f (frags.head?.map Frag.frAddress)).bind fun x => (sizeSeg opts frags).map (x :: ·)

/-- `write_contents`: where in the section each fragment is put. -/
def writeContents : BitVec w → List (Filled w) → List (BitVec w)
  | _, [] => []
  | offset, x :: fills => offset :: writeContents (offset + x.frFix + x.frOffset * x.frVar) fills

/-- A fragment that can be converted: a padding has something to fill it with, and a branch is one of those that
`md_convert_frag` knows. -/
def Frag.Convertible (f : Frag w) : Prop :=
  match f.frSubtype with
  | .fill => True
  | .branch insn uncond likely link _ =>
    uncond = true ∧ likely = false ∨ uncond = false ∧ (overInsn insn likely link).isSome = true
  | .variant _ _ _ => True
  | _ => f.frVar ≠ 0

instance (f : Frag w) : Decidable f.Convertible := by
  unfold Frag.Convertible
  split <;> infer_instance

/-- The padding up to the next fragment is a whole number of fills. -/
def WholeFill (f : Frag w) (next : BitVec w) : Prop :=
  match f.frSubtype with
  | .align _ | .org | .space => (next - f.frAddress - f.frFix) % f.frVar = 0
  | _ => True

theorem length_branchOver {insn : Word} {likely link : Bool} {n : Word} {code : List Emitted}
    (h : branchOver insn likely link n = some code) : code.length = if likely then 4 else 2 := by
  obtain ⟨_, -, rfl⟩ := Option.map_eq_some_iff.mp h
  cases likely <;> rfl

theorem length_longJump (opts : Options) (link : Bool) :
    (longJump opts link).length = if opts.noPic then 1 else if opts.isaMips1 then 4 else 3 := by
  rcases opts with ⟨noPic, isaMips1, _⟩
  cases noPic <;> cases isaMips1 <;> rfl

/-- The length that `relaxed_branch_length` computes. -/
def branchLength (opts : Options) (uncond likely toofar : Bool) : Nat :=
  4 + if toofar then (if likely then 8 else 0) + (if opts.noPic then 0 else 8 + if opts.isaMips1 then 4 else 0) +
      (if !uncond then 8 else 0)
    else 0

/-- The instructions for a branch are as long as it was taken to be. -/
theorem length_convertBranch {opts : Options} {insn n : Word} {uncond likely link toofar : Bool} {code : List Emitted}
    (hlikely : uncond = true → likely = false)
    (h : convertBranch opts insn uncond likely link toofar n = some code) :
    4 * code.length = branchLength opts uncond likely toofar := by
  rw [branchLength]
  cases toofar with
  | false =>
    cases h
    rfl
  | true =>
    cases uncond with
    | true =>
      cases h
      rw [length_longJump, hlikely rfl]
      cases opts.noPic <;> cases opts.isaMips1 <;> rfl
    | false =>
      obtain ⟨insns, hinsns, rfl⟩ := Option.map_eq_some_iff.mp h
      rw [List.length_append, length_branchOver hinsns, length_longJump]
      cases likely <;> cases opts.noPic <;> cases opts.isaMips1 <;> rfl

/-! ## A fragment -/

section Fragment

variable {opts : Options} {k : Nat} {addrs : Addresses w} {f : Frag w}

/-- A division is exact if nothing is left. -/
theorem udiv_mul_eq_iff (x y : BitVec w) : x / y * y = x ↔ x % y = 0 := by
  have hdiv := Nat.div_add_mod' x.toNat y.toNat
  have hlt : x.toNat / y.toNat * y.toNat < 2 ^ w := lt_of_le_of_lt (Nat.div_mul_le_self ..) x.isLt
  rw [← BitVec.toNat_inj, ← BitVec.toNat_inj, BitVec.toNat_mul, BitVec.toNat_udiv, BitVec.toNat_umod,
    Nat.mod_eq_of_lt hlt, show (0 : BitVec w).toNat = 0 from BitVec.toNat_zero]
  omega

/-- A padding ends where the next fragment begins if it is a whole number of fills. -/
theorem cvtPadding_ends {next : BitVec w} (hvar : f.frVar ≠ 0) :
    ∃ x, cvtPadding f next = some x ∧ (x.reports = [] →
      (f.frAddress + x.frFix + x.frOffset * x.frVar = next ↔ (next - f.frAddress - f.frFix) % f.frVar = 0)) := by
  rw [cvtPadding, if_neg hvar]
  dsimp only
  split
  · refine ⟨_, rfl, fun _ => ?_⟩
    rw [← udiv_mul_eq_iff, eq_sub_iff_add_eq', eq_sub_iff_add_eq', add_assoc]
  · exact ⟨_, rfl, fun h => absurd h (List.cons_ne_nil _ _)⟩

theorem exists_convertBranch (opts : Options) {insn : Word} {uncond likely link : Bool} (toofar : Bool) (n : Word)
    (h : uncond = true ∧ likely = false ∨ uncond = false ∧ (overInsn insn likely link).isSome = true) :
    ∃ code, convertBranch opts insn uncond likely link toofar n = some code := by
  cases toofar with
  | false => exact ⟨_, rfl⟩
  | true =>
    rcases h with ⟨rfl, -⟩ | ⟨rfl, h⟩
    · exact ⟨_, rfl⟩
    · obtain ⟨insns, hinsns⟩ := Option.isSome_iff_exists.mp h
      exact ⟨_, by rw [convertBranch, branchOver, hinsns]; rfl⟩

/-- Where a fragment has its final place, it can be converted, and ends where the next one begins, if its padding is a
whole number of fills. -/
theorem cvtFragToFill_ends {next : BitVec w} (hok : f.Convertible) (h : Placed opts k addrs f next) :
    ∃ x, cvtFragToFill opts f (some next) = some x ∧
      (x.reports = [] → (f.frAddress + x.frFix + x.frOffset * x.frVar = next ↔ WholeFill f next)) := by
  rcases f with ⟨a, last, fix, var, offset, sym, sub⟩
  cases sub with
  | fill => exact ⟨_, rfl, fun _ => iff_of_true (h _ rfl).symm trivial⟩
  | branch insn uncond likely link toofar =>
    obtain ⟨hlen, hnext⟩ := h
    obtain ⟨code, hcode⟩ := exists_convertBranch opts toofar (var.setWidth 32) hok
    have hlikely : uncond = true → likely = false := fun hu => hok.elim And.right fun h => by simp [h.1] at hu
    have hfar : isTooFar (some ⟨a, fix, _, uncond, likely, link, toofar⟩) = toofar := congrArg Prod.snd hlen
    have hvar : BitVec.ofNat w (branchLength opts uncond likely _) = var := congrArg Prod.fst hlen
    rw [hfar, ← length_convertBranch hlikely hcode] at hvar
    have hgap : next - a = fix + var := by
      rw [hnext]
      ring
    have hcvt : cvtBranch ⟨a, last, fix, var, offset, sym, .branch insn uncond likely link toofar⟩ (some next) code =
        some { frFix := fix + var, code } :=
      if_pos ⟨hvar, fun b hb => Option.some.inj hb ▸ hgap⟩
    refine ⟨_, (congrArg (Option.bind · _) hcode).trans hcvt, fun _ => iff_of_true ?_ trivial⟩
    rw [hnext]
    ring
  | variant first second needRelax =>
    have hnext : next = a + fix + -(if needRelax then first else second) := by
      rw [h _ rfl, apply_ite Neg.neg]
    have hgap : next - a = fix - if needRelax then first else second := by
      rw [hnext]
      ring
    refine ⟨_, if_pos fun b hb => Option.some.inj hb ▸ hgap, fun _ => iff_of_true ?_ trivial⟩
    rw [← hgap]
    ring
  | _ => exact cvtPadding_ends hok

end Fragment

/-! ## A section -/

section Section

variable {opts : Options} {k : Nat} {addrs : Addresses w}

/-- Of a fragment on, the contents begin there. -/
theorem writeContents_cons {f : Frag w} {frags : List (Frag w)} {fills : List (Filled w)} (offset : BitVec w)
    (hs : sizeSeg opts (f :: frags) = some fills) :
    ∃ x fills', fills = x :: fills' ∧ cvtFragToFill opts f (frags.head?.map Frag.frAddress) = some x ∧
      sizeSeg opts frags = some fills' ∧
      writeContents offset fills = offset :: writeContents (offset + x.frFix + x.frOffset * x.frVar) fills' := by
  obtain ⟨x, hx, hs⟩ := Option.bind_eq_some_iff.mp hs
  obtain ⟨fills', hs', rfl⟩ := Option.map_eq_some_iff.mp hs
  exact ⟨x, fills', rfl, hx, hs', rfl⟩

/-- Fragments in their final places are converted, and written where they are if each padding is a whole number of
fills. -/
theorem sizeSeg_placed {frags : List (Frag w)} (hok : ∀ f ∈ frags, f.Convertible)
    (hlast : ∀ f ∈ frags.getLast?, f.frSubtype = .fill) (hp : Follows (Placed opts k addrs) frags) :
    ∃ fills, sizeSeg opts frags = some fills ∧ ((∀ x ∈ fills, x.reports = []) → ∀ offset,
      (∀ a ∈ frags.head?.map Frag.frAddress, a = offset) →
        (writeContents offset fills = frags.map Frag.frAddress ↔ Follows WholeFill frags)) := by
  induction frags with
  | nil => exact ⟨[], rfl, fun _ _ _ => iff_of_true rfl .nil⟩
  | cons f rest ih =>
    obtain ⟨hf, hp⟩ := follows_cons.mp hp
    cases rest with
    | nil =>
      have hx : cvtFragToFill opts f none = some { frFix := f.frFix, frVar := f.frVar, frOffset := f.frOffset } := by
        rw [cvtFragToFill, hlast f rfl]
      refine ⟨[_], congrArg (Option.bind · _) hx, fun _ offset ho => iff_of_true ?_ (.singleton f)⟩
      rw [← ho _ rfl]
      rfl
    | cons g rest =>
      obtain ⟨fills, hs, hw⟩ := ih (fun f' hf' => hok f' (.tail _ hf')) hlast hp
      obtain ⟨x, hx, hends⟩ := cvtFragToFill_ends (hok f (.head _)) (hf _ rfl)
      refine ⟨x :: fills, ?_, fun hr offset ho => ?_⟩
      · rw [sizeSeg, List.head?_cons, Option.map_some, hx, hs]
        rfl
      · have hfills : ∀ y ∈ fills, y.reports = [] := fun y hy => hr y (.tail _ hy)
        have hend := hends (hr x (.head _))
        rw [ho _ rfl] at hend
        rw [writeContents, List.map_cons, List.cons.injEq, ← ho _ rfl, and_iff_right rfl, ho _ rfl, follows_cons]
        constructor
        · intro h
          obtain ⟨y, fills', rfl, -, -, hcons⟩ :=
            writeContents_cons (offset + x.frFix + x.frOffset * x.frVar) hs
          have hg := (List.cons.inj (hcons.symm.trans h)).1
          refine ⟨fun a ha => ?_, (hw hfills _ fun a ha => ?_).mp h⟩
          · rw [← Option.some.inj ha]
            exact hend.mp hg
          · rw [← Option.some.inj ha]
            exact hg.symm
        · rintro ⟨hwhole, hrest⟩
          refine (hw hfills _ fun a ha => ?_).mpr hrest
          rw [← Option.some.inj ha]
          exact (hend.mpr (hwhole _ rfl)).symm

end Section

theorem convertible_shape (f : Frag w) : f.shape.Convertible ↔ f.Convertible := by
  rcases f with ⟨_, _, _, _, _, _, sub⟩
  cases sub <;> exact Iff.rfl

theorem shape_eq_fill (f : Frag w) : f.shape.frSubtype = .fill ↔ f.frSubtype = .fill := by
  rcases f with ⟨_, _, _, _, _, _, sub⟩
  cases sub <;> simp [Frag.shape]

end Rigel.Relax
