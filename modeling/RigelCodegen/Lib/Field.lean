import RigelCodegen.Lib.Word

/-!
# Bit fields

A field of an instruction word: a mask and a shift, whose bits lie in the word.
`insert` and `extract` are inverse up to the mask (`extract_insert`), what is
outside of a field stays (`insert_and`), and of several fields without a common
bit each has its value (`extract_insertAll_of_mem`).
-/

namespace Word32

/-- A field of a word. -/
structure Field where
  mask : Word
  shift : Nat
  fits : mask <<< shift >>> shift = mask := by decide

namespace Field

variable (f g : Field)

/-- The bits of the field. -/
def bits : Word := f.mask <<< f.shift

/-- The word with its field replaced. -/
def insert (w v : Word) : Word := (w &&& ~~~f.bits) ||| ((v &&& f.mask) <<< f.shift)

/-- The field of the word. -/
def extract (w : Word) : Word := (w >>> f.shift) &&& f.mask

/-- The fields have no bit in common. -/
def Disjoint : Prop := f.bits &&& g.bits = 0

instance : Decidable (f.Disjoint g) := inferInstanceAs (Decidable (_ = _))

/-- The value fits the field. -/
def Fits (v : Word) : Prop := v &&& f.mask = v

instance (v : Word) : Decidable (f.Fits v) := inferInstanceAs (Decidable (_ = _))

variable {f g}

theorem Disjoint.symm (h : f.Disjoint g) : g.Disjoint f := by
  rw [Disjoint, BitVec.and_comm]
  exact h

theorem extract_eq (w : Word) : f.extract w = (w &&& f.bits) >>> f.shift := by
  rw [BitVec.ushiftRight_and_distrib, bits, f.fits, extract]

theorem extract_or (v w : Word) : f.extract (v ||| w) = f.extract v ||| f.extract w := by
  rw [extract, BitVec.ushiftRight_or_distrib, BitVec.and_or_distrib_right]
  rfl

theorem extract_congr {v w : Word} (h : v &&& f.bits = w &&& f.bits) : f.extract v = f.extract w := by
  rw [extract_eq, extract_eq, h]

theorem shift_and_mask_and_bits (v : Word) : ((v &&& f.mask) <<< f.shift) &&& f.bits = (v &&& f.mask) <<< f.shift := by
  rw [bits, ← BitVec.shiftLeft_and_distrib, BitVec.and_assoc, BitVec.and_self]

/-- No bit of a value that fits is shifted out. -/
theorem extract_shift (v : Word) : f.extract ((v &&& f.mask) <<< f.shift) = v &&& f.mask := by
  rw [extract_eq, shift_and_mask_and_bits]
  ext i hi
  have hfits := congrArg (·.getLsbD i) f.fits
  simp only [BitVec.getLsbD_ushiftRight, BitVec.getLsbD_shiftLeft, BitVec.getElem_ushiftRight, BitVec.getLsbD_and,
    BitVec.getElem_and, Nat.add_sub_cancel_left] at hfits ⊢
  rw [BitVec.getLsbD_eq_getElem hi] at hfits
  by_cases hm : f.mask[i] = true
  · simp_all
  · simp_all

/-- What is inserted is read back, as far as it fits. -/
theorem extract_insert (w v : Word) : f.extract (f.insert w v) = v &&& f.mask := by
  have h : (w &&& ~~~f.bits) &&& f.bits = 0 := by
    rw [BitVec.and_assoc, BitVec.and_comm (~~~f.bits)]
    simp
  rw [insert, extract_or, extract_eq (w &&& _), h, extract_shift]
  simp

/-- Bits outside of the field stay. -/
theorem insert_and {m : Word} (h : f.bits &&& m = 0) (w v : Word) : f.insert w v &&& m = w &&& m := by
  have hv : ((v &&& f.mask) <<< f.shift) &&& m = 0 := by
    rw [← shift_and_mask_and_bits, BitVec.and_assoc, h]
    exact BitVec.and_zero
  have hm : ~~~f.bits &&& m = m := by
    ext i hi
    have hi' : (f.bits &&& m)[i] = false := by simp [h]
    rw [BitVec.getElem_and] at hi'
    rw [BitVec.getElem_and, BitVec.getElem_not]
    revert hi'
    cases f.bits[i] <;> simp +contextual
  rw [insert, BitVec.and_or_distrib_right, hv, BitVec.and_assoc, hm]
  exact BitVec.or_zero

/-- The word with several fields replaced. -/
def insertAll (w : Word) (l : List (Field × Word)) : Word := l.foldl (fun w p => p.1.insert w p.2) w

/-- Bits outside of all the fields stay. -/
theorem insertAll_and {m : Word} {l : List (Field × Word)} (h : ∀ p ∈ l, p.1.bits &&& m = 0) (w : Word) :
    insertAll w l &&& m = w &&& m := by
  induction l generalizing w with
  | nil => rfl
  | cons p l ih => exact (ih (fun q hq => h q (.tail _ hq)) _).trans (insert_and (h p (.head _)) w p.2)

theorem extract_insertAll_of_disjoint {l : List (Field × Word)} (h : ∀ p ∈ l, p.1.Disjoint f) (w : Word) :
    f.extract (insertAll w l) = f.extract w :=
  extract_congr (insertAll_and h w)

/-- Fields without a common bit are all read back. -/
theorem extract_insertAll_of_mem {l : List (Field × Word)} (h : (l.map Prod.fst).Pairwise Disjoint) {p : Field × Word}
    (hp : p ∈ l) (w : Word) : p.1.extract (insertAll w l) = p.2 &&& p.1.mask := by
  induction l generalizing w with
  | nil => cases hp
  | cons q l ih =>
    rw [List.map_cons, List.pairwise_cons] at h
    rcases List.mem_cons.mp hp with rfl | hp
    · have hl : ∀ q ∈ l, q.1.Disjoint p.1 := fun q hq => (h.1 q.1 (List.mem_map_of_mem hq)).symm
      exact (extract_insertAll_of_disjoint hl _).trans (extract_insert w p.2)
    · exact ih h.2 hp _

end Field

end Word32
