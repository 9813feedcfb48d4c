import Mathlib.Data.BitVec
import Mathlib.Tactic.NormNum

/-!
# Words and their halves

32-bit words and 16-bit immediate fields: the three ways a machine reads a
field (`sext`, `zext`, `upper`), how a word is put together from its halves
(`upper_or_zext`), when a number survives a field (`sext_ofInt`,
`zext_ofInt`), and how far off a signed field is when it does not
(`sext_ofInt_sub`).
-/

namespace Word32

/-- A machine word. -/
abbrev Word := BitVec 32

/-- A 16-bit immediate field. -/
abbrev Half := BitVec 16

/-- The number fits a signed 16-bit field. -/
def isInt16 (x : Int) : Bool := decide (-2 ^ 15 ≤ x ∧ x < 2 ^ 15)

/-- The number fits an unsigned 16-bit field. -/
def isUInt16 (x : Int) : Bool := decide (0 ≤ x ∧ x < 2 ^ 16)

theorem isInt16_iff {x : Int} : isInt16 x = true ↔ -32768 ≤ x ∧ x < 32768 := by
  simp [isInt16]

/-- A field read as a signed number. -/
def sext (h : Half) : Word := h.signExtend 32

/-- A field read as an unsigned number. -/
def zext (h : Half) : Word := h.setWidth 32

/-- A field placed in the upper half of a word. -/
def upper (h : Half) : Word := h ++ 0#16

theorem toNat_zext (h : Half) : (zext h).toNat = h.toNat := by
  simp only [zext, BitVec.toNat_setWidth]
  exact Nat.mod_eq_of_lt (by have := h.isLt; omega)

theorem toInt_sext (h : Half) : (sext h).toInt = h.toInt :=
  BitVec.toInt_signExtend_of_le (by decide)

theorem toNat_sext (h : Half) : (sext h).toNat = if h.toNat < 0x8000 then h.toNat else h.toNat + 0xFFFF0000 := by
  have hlt := h.isLt
  have hi := toInt_sext h
  rw [BitVec.toInt_eq_toNat_cond, BitVec.toInt_eq_toNat_cond] at hi
  split <;> split at hi <;> split at hi <;> omega

theorem sext_ofInt {x : Int} (h : isInt16 x = true) : sext (BitVec.ofInt 16 x) = BitVec.ofInt 32 x := by
  rw [isInt16_iff] at h
  apply BitVec.eq_of_toInt_eq
  rw [toInt_sext, BitVec.toInt_ofInt, BitVec.toInt_ofInt, Int.bmod_def, Int.bmod_def]
  norm_num; omega

/-- The distance between a word and the reading of its low half as a signed
field: a multiple of `2¹⁶`, and not zero if the word does not fit. -/
theorem sext_ofInt_sub (w : Word) :
    ∃ k : Nat, k < 2 ^ 16 ∧ w = sext (BitVec.ofInt 16 w.toInt) + BitVec.ofNat 32 (65536 * k) ∧
      (isInt16 w.toInt = false → 0 < k) := by
  have hi := toInt_sext (BitVec.ofInt 16 w.toInt)
  rw [BitVec.toInt_ofInt, Int.bmod_def] at hi
  generalize sext (BitVec.ofInt 16 w.toInt) = s at hi
  have hs := s.isLt; have hw := w.isLt
  refine ⟨(w - s).toNat / 65536, ?_, ?_, ?_⟩
  · have := (w - s).isLt; omega
  · apply BitVec.eq_of_toNat_eq
    simp only [BitVec.toInt_eq_toNat_cond] at hi
    rw [BitVec.toNat_add, BitVec.toNat_ofNat, BitVec.toNat_sub]
    norm_num at hi ⊢
    split at hi <;> split at hi <;> split at hi <;> omega
  · intro hf
    rw [← Bool.not_eq_true, isInt16_iff] at hf
    simp only [BitVec.toInt_eq_toNat_cond] at hi hf
    rw [BitVec.toNat_sub]
    norm_num at hi hf ⊢
    split at hi <;> split at hi <;> split at hf <;> omega

/-- The field of a word is its low half. -/
theorem ofInt_toInt (w : Word) : BitVec.ofInt 16 w.toInt = w.setWidth 16 :=
  BitVec.signExtend_eq_setWidth_of_le w (by decide)

theorem setWidth_ushiftRight (w : Word) : (w >>> 16).setWidth 16 = w.extractLsb' 16 16 := by
  ext i hi
  simp

theorem setWidth_sshiftRight (w : Word) : (w.sshiftRight 16).setWidth 16 = w.extractLsb' 16 16 := by
  ext i hi
  rw [BitVec.getElem_setWidth, BitVec.getLsbD_sshiftRight]
  simp [show i < 32 by omega, show 16 + i < 32 by omega]

theorem setWidth_and_mask (w : Word) : (w &&& 0xFFFF).setWidth 16 = w.setWidth 16 := by
  ext i hi
  simp only [BitVec.getElem_setWidth, BitVec.getLsbD_and, Bool.and_eq_left_iff_imp]
  intro _
  rcases i with _ | _ | _ | _ | _ | _ | _ | _ | _ | _ | _ | _ | _ | _ | _ | _ | i <;> first | rfl | omega

/-- The upper half and the zero-extended lower half make up the word. -/
theorem upper_or_zext (w : Word) :
    upper (w.extractLsb' 16 16) ||| zext (w.setWidth 16) = w := by
  ext i hi
  simp only [upper, zext, BitVec.getElem_or, BitVec.getElem_append, BitVec.getElem_setWidth,
    BitVec.getLsbD_setWidth, BitVec.getElem_zero, BitVec.getElem_extractLsb']
  by_cases h : i < 16
  · simp [h, BitVec.getLsbD_eq_getElem hi]
  · simp [h, show 16 + (i - 16) = i by omega, BitVec.getLsbD_eq_getElem hi]

theorem and_upperMask (w : Word) : w &&& 0xFFFF0000 = upper (w.extractLsb' 16 16) := by
  ext i hi
  rw [show (0xFFFF0000 : Word) = BitVec.allOnes 16 ++ 0#16 by decide, upper, BitVec.getElem_and,
    BitVec.getElem_append, BitVec.getElem_append]
  by_cases h : i < 16
  · simp [h]
  · simp only [h, reduceDIte, BitVec.getElem_allOnes, Bool.and_true, BitVec.getElem_extractLsb',
      show 16 + (i - 16) = i by omega, BitVec.getLsbD_eq_getElem hi]

theorem setWidth_upper (h : Half) : (upper h).setWidth 16 = 0#16 := by
  ext i hi
  rw [upper, BitVec.getElem_setWidth, show (h ++ 0#16).getLsbD i = _ from BitVec.getLsbD_append]
  simp [hi]

/-- The upper half of a word alone, when the lower half is zero. -/
theorem upper_extract {w : Word} (h : w.setWidth 16 = 0#16) : upper (w.extractLsb' 16 16) = w := by
  have := upper_or_zext w
  rw [h] at this
  simpa [zext] using this

/-- Bit 15 is the sign of the lower half. -/
theorem and_sign_eq_zero_iff (w : Word) : w &&& 0x8000 = 0 ↔ w.toNat % 0x10000 < 0x8000 := by
  have hbit : w &&& 0x8000 = 0 ↔ w.getLsbD 15 = false := by
    constructor
    · intro h
      have := congrArg (·.getLsbD 15) h
      simpa using this
    · intro h
      ext i hi
      rw [BitVec.getElem_and, ← BitVec.getLsbD_eq_getElem hi, show (0x8000 : Word) = BitVec.twoPow 32 15 by decide,
        BitVec.getElem_twoPow]
      by_cases h15 : i = 15
      · subst h15
        simpa [BitVec.getLsbD_eq_getElem hi] using h
      · simp [h15]
  rw [hbit, BitVec.getLsbD, Nat.testBit_eq_decide_div_mod_eq, decide_eq_false_iff_not]
  omega

theorem or_eq_left_iff {a b : Word} : a ||| b = a ↔ b &&& ~~~a = 0 := by
  constructor
  · intro h
    ext i hi
    have hi' : (a ||| b)[i] = a[i] := by rw [h]
    simp only [BitVec.getElem_or, BitVec.getElem_and, BitVec.getElem_not] at hi' ⊢
    revert hi'
    cases a[i] <;> simp
  · intro h
    ext i hi
    have hi' : (b &&& ~~~a)[i] = (0 : Word)[i] := by rw [h]
    simp only [BitVec.getElem_or, BitVec.getElem_and, BitVec.getElem_not] at hi' ⊢
    revert hi'
    cases a[i] <;> simp

/-- `w | (1 << n)`. -/
def setBit (w : Word) (n : Nat) : Word := w ||| (1 : Word) <<< n

theorem getLsbD_setBit (w : Word) (n : Nat) {i : Nat} (hi : i < 32) :
    (setBit w n).getLsbD i = (w.getLsbD i || decide (i = n)) := by
  rw [setBit, BitVec.getLsbD_or, show (1 : Word) <<< n = BitVec.twoPow 32 n from (BitVec.twoPow_eq ..).symm,
    BitVec.getLsbD_twoPow]
  by_cases h : i = n
  · subst h; simp [hi]
  · simp [h, Ne.symm h]

theorem ofInt_eq_ofInt_iff {x y : Int} : BitVec.ofInt 32 x = BitVec.ofInt 32 y ↔ x % 2 ^ 32 = y % 2 ^ 32 := by
  rw [← BitVec.toNat_inj, BitVec.toNat_ofInt, BitVec.toNat_ofInt]
  omega

/-- Two offsets from one word, as numbers. -/
theorem sub_add_eq_iff (w : Word) (n k : Nat) (x y : Int) :
    w - BitVec.ofNat 32 n + BitVec.ofInt 32 x = w + BitVec.ofInt 32 y - BitVec.ofNat 32 k ↔
      x % 2 ^ 32 = (n + y - k) % 2 ^ 32 := by
  have hx : w - BitVec.ofNat 32 n + BitVec.ofInt 32 x = w + BitVec.ofInt 32 y - BitVec.ofNat 32 k ↔
      BitVec.ofInt 32 x = BitVec.ofNat 32 n + BitVec.ofInt 32 y - BitVec.ofNat 32 k := by
    generalize BitVec.ofInt 32 x = a
    generalize BitVec.ofInt 32 y = b
    generalize BitVec.ofNat 32 n = c
    generalize BitVec.ofNat 32 k = d
    constructor <;> intro h <;> grind
  have hy : BitVec.ofNat 32 n + BitVec.ofInt 32 y - BitVec.ofNat 32 k = BitVec.ofInt 32 (n + y - k) := by
    calc BitVec.ofNat 32 n + BitVec.ofInt 32 y - BitVec.ofNat 32 k
        = BitVec.ofInt 32 n + BitVec.ofInt 32 y + -BitVec.ofInt 32 k := by
          rw [BitVec.ofInt_natCast, BitVec.ofInt_natCast, BitVec.sub_eq_add_neg]
      _ = BitVec.ofInt 32 (n + y + -k) := by rw [← BitVec.ofInt_neg, ← BitVec.ofInt_add, ← BitVec.ofInt_add]
      _ = BitVec.ofInt 32 (n + y - k) := by rw [Int.sub_eq_add_neg]
  rw [hx, hy, ofInt_eq_ofInt_iff]

end Word32
