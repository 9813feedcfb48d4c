import Mathlib.Algebra.Ring.Divisibility.Basic
import Mathlib.Algebra.Ring.Int.Defs
import RigelCodegen.Frame.DataLayout
import RigelCodegen.Frame.RigelStackFrame

/-!
# Alignment of frame objects

`PEI` rounds the size of a frame up to its largest alignment, so that an
object is as aligned as its offset is; `adjustRigelStackFrame` then adds the
slots of `FP` and `RA` and rounds up to 4 only. An object keeps its alignment
if and only if that divides the bytes of the slots (`alignment_kept_iff`).
-/

namespace Rigel

open Packing Word32

/-- The address of a frame object after the prologue, from `SP` on entry. -/
def objectAddress (mf : MachineFunction) (sp : Word) (fi : Int) : Word :=
  sp - BitVec.ofNat 32 mf.frameInfo.stackSize + BitVec.ofInt 32 (trueOffset mf fi)

/-- If `SP` on entry is a multiple of the largest alignment, then the address
of every object is one of its own alignment; `mf` is the frame as laid out. -/
def AlignmentKept (mf : MachineFunction) : Prop :=
  ∀ sp : Word, max stackAlignment mf.frameInfo.maxAlignment ∣ sp.toNat →
    ∀ fi o, (adjustRigelStackFrame mf).frameInfo.getObject fi = some o → o.isDead = false → o.size ≠ 0 →
      o.alignment ∣ (objectAddress (adjustRigelStackFrame mf) sp fi).toNat

theorem dvd_toNat_ofInt {a : Nat} (ha : a ∣ 2 ^ 32) (z : Int) : a ∣ (BitVec.ofInt 32 z).toNat ↔ (a : Int) ∣ z := by
  have h32 : (a : Int) ∣ 2 ^ 32 := by exact_mod_cast Int.natCast_dvd_natCast.mpr ha
  have hz : ((BitVec.ofInt 32 z).toNat : Int) = z % 2 ^ 32 := by
    rw [BitVec.toNat_ofInt, Int.toNat_of_nonneg (Int.emod_nonneg _ (by decide))]; rfl
  rw [← Int.natCast_dvd_natCast, hz, Int.emod_def]
  exact dvd_sub_left (Dvd.dvd.mul_right h32 _)

/-- With `SP` and the word size out of the way. -/
theorem dvd_objectAddress {mf : MachineFunction} {a : Nat} (ha : a ∣ 2 ^ 32) {sp : Word} (hs : a ∣ sp.toNat)
    (fi : Int) : a ∣ (objectAddress mf sp fi).toNat ↔ (a : Int) ∣ trueOffset mf fi - mf.frameInfo.stackSize := by
  have hw : objectAddress mf sp fi = BitVec.ofInt 32 (sp.toNat + (trueOffset mf fi - mf.frameInfo.stackSize)) := by
    calc objectAddress mf sp fi
        = sp + (BitVec.ofInt 32 (trueOffset mf fi) + -BitVec.ofNat 32 mf.frameInfo.stackSize) := by
          rw [objectAddress, BitVec.sub_eq_add_neg, BitVec.add_assoc, BitVec.add_comm (-_)]
      _ = BitVec.ofInt 32 sp.toNat + BitVec.ofInt 32 (trueOffset mf fi - mf.frameInfo.stackSize) := by
          rw [BitVec.ofInt_natCast, BitVec.ofNat_toNat, BitVec.setWidth_eq, Int.sub_eq_add_neg, BitVec.ofInt_add,
            BitVec.ofInt_neg, BitVec.ofInt_natCast]
      _ = BitVec.ofInt 32 (sp.toNat + (trueOffset mf fi - mf.frameInfo.stackSize)) := (BitVec.ofInt_add ..).symm
  rw [hw, dvd_toNat_ofInt ha]
  exact dvd_add_right (Int.natCast_dvd_natCast.mpr hs)

/-- A word of the frame is as aligned as the stack, whatever the slots. -/
theorem dvd_sub_stackSize_of_dvd_four (mf : MachineFunction) {a : Nat} (ha : a ∣ 4) {z : Int} (hz : (a : Int) ∣ z) :
    (a : Int) ∣ z - (adjustRigelStackFrame mf).frameInfo.stackSize := by
  have h4 : 4 ∣ (adjustRigelStackFrame mf).frameInfo.stackSize := by
    rw [stackSize_adjust]; exact Nat.dvd_mul_left ..
  exact dvd_sub hz (Int.natCast_dvd_natCast.mpr (Nat.dvd_trans ha h4))

namespace MachineFunction.LaidOut

variable {mf : MachineFunction} (h : mf.LaidOut)
include h

/-- The size of the finished frame: rounding up to 4 does nothing. -/
theorem stackSize_adjust_laidOut : (adjustRigelStackFrame mf).frameInfo.stackSize =
    (mf.frameInfo.stackSize + fpBytes mf + raBytes mf) % 2 ^ 32 := by
  have h4 : mf.frameInfo.stackSize % 4 = 0 := Nat.mod_eq_zero_of_dvd h.four_dvd
  have hf := fpBytes_cases mf
  have hr := raBytes_cases mf
  rw [stackSize_adjust]
  omega

theorem stackAlign_dvd_two_pow : max stackAlignment mf.frameInfo.maxAlignment ∣ 2 ^ 32 := by
  obtain ⟨k, hk, -, he⟩ := h.created.stackAlign_pow
  exact he ▸ Nat.pow_dvd_pow 2 (Nat.le_of_lt hk)

/-- What the slots do to an alignment the size was rounded up to. -/
theorem dvd_sub_stackSize {a : Nat} (ha : a ∣ max stackAlignment mf.frameInfo.maxAlignment) {z : Int}
    (hz : (a : Int) ∣ z) : (a : Int) ∣ z - (adjustRigelStackFrame mf).frameInfo.stackSize ↔
      a ∣ fpBytes mf + raBytes mf := by
  rw [dvd_sub_right hz, Int.natCast_dvd_natCast, h.stackSize_adjust_laidOut,
    Nat.dvd_mod_iff (Nat.dvd_trans ha h.stackAlign_dvd_two_pow), Nat.add_assoc]
  exact Nat.dvd_add_right (Nat.dvd_trans ha h.stackAlign_dvd)

/-- An object that was laid out divides what the size was rounded up to. -/
theorem alignment_dvd {o : StackObject} (ho : o ∈ mf.frameInfo.objects) :
    o.alignment ∣ max stackAlignment mf.frameInfo.maxAlignment := by
  obtain ⟨k, -, hk⟩ := o.alignment_pow
  obtain ⟨n, -, -, hn⟩ := h.created.stackAlign_pow
  have hle := (h.created.alignment_le o ho).trans (Nat.le_max_right stackAlignment _)
  rw [hn, hk] at hle ⊢
  exact Nat.pow_dvd_pow 2 ((Nat.pow_le_pow_iff_right (by decide)).mp hle)

/-- So does its offset. -/
theorem alignment_dvd_spOffset {o : StackObject} (ho : o ∈ mf.frameInfo.objects) (hl : o.isDead = false) :
    (o.alignment : Int) ∣ o.spOffset := by
  obtain ⟨i, hi⟩ := List.mem_iff_getElem?.mp ho
  have := h.aligned i (by simpa [MachineFrameInfo.isDeadObjectIndex, hi] using hl)
  simp only [MachineFrameInfo.getObjectAlignment, MachineFrameInfo.getObjectOffset, MachineFrameInfo.getObject, hi,
    Option.map_some, Option.getD_some] at this
  rw [← Int.toNat_of_nonneg (h.created.object_offset o ho)]
  exact Int.natCast_dvd_natCast.mpr this

/-- A fixed object is aligned to 4 or less, and so is its offset. -/
theorem fixedObject_adjust {k : Nat} {o : StackObject}
    (ho : (adjustRigelStackFrame mf).frameInfo.getObject (.negSucc k) = some o) :
    o.alignment ∣ 4 ∧ (o.alignment : Int) ∣ trueOffset (adjustRigelStackFrame mf) (.negSucc k) := by
  have ho' : (argsInPlace mf).getObject (.negSucc k) = some o := by
    simpa only [MachineFrameInfo.getObject, fixedObjects_adjust] using ho
  have hoff : (adjustRigelStackFrame mf).frameInfo.getObjectOffset (.negSucc k) = o.spOffset := by
    simp only [MachineFrameInfo.getObjectOffset, ho, Option.map_some, Option.getD_some]
  have hdvd : o.alignment ∣ 4 := by
    obtain ⟨x, hx, ha⟩ := alignment_adjustFI ho'
    exact ha ▸ (h.created.fixed_offset x (List.mem_of_getElem? hx)).2.2
  refine ⟨hdvd, ?_⟩
  by_cases hm : Int.negSucc k ∈ mf.functionInfo.recorded.map (·.fi)
  · obtain ⟨x, hx, hf⟩ := List.mem_map.mp hm
    obtain ⟨w, hw⟩ := h.created.recorded_offset x hx
    have hxo := h.created.indexed.getObjectOffset_recorded hx
    rw [hf, hoff] at hxo
    have h4 : 4 ∣ (adjustRigelStackFrame mf).frameInfo.stackSize + 4 * w := by
      rw [stackSize_adjust]
      exact Nat.dvd_add (Nat.dvd_mul_left ..) (Nat.dvd_mul_right ..)
    rw [trueOffset, hoff, if_pos (by omega), hxo, hw,
      show (_ : Int) + -(-(4 + 4 * (w : Int)) + 4) =
          (((adjustRigelStackFrame mf).frameInfo.stackSize + 4 * w : Nat) : Int) by
        omega]
    exact Int.natCast_dvd_natCast.mpr (Nat.dvd_trans hdvd h4)
  · have hx : mf.frameInfo.getObject (.negSucc k) = some o := (getObject_adjustFI hm mf.frameInfo).symm.trans ho'
    obtain ⟨h0, ha, -⟩ := h.created.fixed_offset o (List.mem_of_getElem? hx)
    rw [trueOffset, hoff, if_neg (by omega)]
    exact ha

/-- The other objects are those that were laid out, and the slots. -/
theorem object_adjust {i : Nat} {o : StackObject}
    (ho : (adjustRigelStackFrame mf).frameInfo.getObject i = some o) :
    trueOffset (adjustRigelStackFrame mf) i = o.spOffset ∧
      (o ∈ mf.frameInfo.objects ∨ o.alignment = 4 ∧ (4 : Int) ∣ o.spOffset) := by
  have h4 : mf.frameInfo.stackSize % 4 = 0 := Nat.mod_eq_zero_of_dvd h.four_dvd
  have hf := fpBytes_cases mf
  have hoff : (adjustRigelStackFrame mf).frameInfo.getObjectOffset i = o.spOffset := by
    simp only [MachineFrameInfo.getObjectOffset, ho, Option.map_some, Option.getD_some]
  have hmem := List.mem_of_getElem? (show (adjustRigelStackFrame mf).frameInfo.objects[i]? = some o from ho)
  rw [objects_adjust, h.created.indexed.objects_argsInPlace, List.mem_append, List.mem_append] at hmem
  have hcases : o ∈ mf.frameInfo.objects ∨ ∃ x, o = slot x ∧ x % 4 = 0 := by
    rcases hmem with (hmem | hmem) | hmem
    · exact .inl hmem
    · split at hmem
      · exact .inr ⟨_, List.mem_singleton.mp hmem, by omega⟩
      · cases hmem
    · split at hmem
      · exact .inr ⟨_, List.mem_singleton.mp hmem, by omega⟩
      · cases hmem
  rw [trueOffset, hoff]
  rcases hcases with hmem | ⟨x, rfl, hx⟩
  · exact ⟨if_neg (by have := h.created.object_offset o hmem; omega), .inl hmem⟩
  · exact ⟨if_neg (by simp [slot]), .inr ⟨rfl, by simp only [slot]; omega⟩⟩

/-- The alignments are kept, except for those that the slots break. -/
theorem alignmentKept_iff : AlignmentKept mf ↔
    ∀ o ∈ mf.frameInfo.objects, o.isDead = false → o.size ≠ 0 → o.alignment ∣ fpBytes mf + raBytes mf := by
  have h32 := h.stackAlign_dvd_two_pow
  constructor
  · intro hk o ho hl hs
    obtain ⟨i, hi⟩ := List.mem_iff_getElem?.mp ho
    have hget : (adjustRigelStackFrame mf).frameInfo.getObject i = some o := by
      show (adjustRigelStackFrame mf).frameInfo.objects[i]? = some o
      rw [objects_adjust, h.created.indexed.objects_argsInPlace, List.append_assoc,
        List.getElem?_append_left (List.getElem?_eq_some_iff.mp hi).1, hi]
    have ha := h.alignment_dvd ho
    have := hk 0 (by simp) i o hget hl hs
    rw [dvd_objectAddress (Nat.dvd_trans ha h32) (by simp), (h.object_adjust hget).1] at this
    exact (h.dvd_sub_stackSize ha (h.alignment_dvd_spOffset ho hl)).mp this
  · intro hk sp hsp fi o ho hl hs
    have h4 : 4 ∣ max stackAlignment mf.frameInfo.maxAlignment := by
      obtain ⟨n, -, hn, he⟩ := h.created.stackAlign_pow
      exact he ▸ Nat.pow_dvd_pow 2 hn
    cases fi with
    | ofNat i =>
      obtain ⟨htrue, hmem | ⟨ha, hoff⟩⟩ := h.object_adjust ho
      · have ha := h.alignment_dvd hmem
        rw [dvd_objectAddress (Nat.dvd_trans ha h32) (Nat.dvd_trans ha hsp), Int.ofNat_eq_natCast, htrue]
        exact (h.dvd_sub_stackSize ha (h.alignment_dvd_spOffset hmem hl)).mpr (hk o hmem hl hs)
      · rw [ha, dvd_objectAddress (Nat.dvd_trans h4 h32) (Nat.dvd_trans h4 hsp), Int.ofNat_eq_natCast, htrue]
        exact dvd_sub_stackSize_of_dvd_four mf (Nat.dvd_refl 4) hoff
    | negSucc k =>
      obtain ⟨ha, hoff⟩ := h.fixedObject_adjust ho
      rw [dvd_objectAddress (Nat.dvd_trans ha (Nat.dvd_trans h4 h32)) (Nat.dvd_trans ha (Nat.dvd_trans h4 hsp))]
      exact dvd_sub_stackSize_of_dvd_four mf ha hoff

end MachineFunction.LaidOut

/-- What holds of all live objects, whatever their offsets, holds of them laid
out otherwise. -/
theorem forall_live {m m' : MachineFrameInfo} (hs : m'.getObjectSize = m.getObjectSize)
    (ha : m'.getObjectAlignment = m.getObjectAlignment) (hd : m'.isDeadObjectIndex = m.isDeadObjectIndex)
    {P : Nat → Nat → Prop} (h : ∀ o ∈ m'.objects, o.isDead = false → P o.size o.alignment) :
    ∀ o ∈ m.objects, o.isDead = false → P o.size o.alignment := by
  intro o ho hl
  obtain ⟨i, hi⟩ := List.mem_iff_getElem?.mp ho
  have hl' : m'.isDeadObjectIndex i = false := by
    rw [hd]; simpa [MachineFrameInfo.isDeadObjectIndex, hi] using hl
  have hi' := List.getElem?_eq_getElem (lt_of_not_dead hl')
  have := h _ (List.mem_of_getElem? hi') (by simpa [MachineFrameInfo.isDeadObjectIndex, hi'] using hl')
  have hsi := congrFun hs i
  have hai := congrFun ha i
  simp only [MachineFrameInfo.getObjectSize, MachineFrameInfo.getObjectAlignment, hi, hi', Option.map_some,
    Option.getD_some] at hsi hai
  rwa [hsi, hai] at this

/-- The condition in terms of the objects of the function: the callee-saved
slots are words. -/
theorem alignmentKept_layoutFrame_iff (F : Frame) (isPhysRegUsed : Reg → Bool) :
    AlignmentKept (layoutFrame isPhysRegUsed F.mf) ↔
      ∀ o ∈ F.mf.frameInfo.objects, o.isDead = false → o.size ≠ 0 →
        o.alignment ∣ fpBytes F.mf + raBytes F.mf := by
  obtain ⟨k, m, hm, hs, ha, hd⟩ := layoutFrame_objects isPhysRegUsed F.mf
  obtain ⟨hfp, hra⟩ := layoutFrame_hasFP isPhysRegUsed F.mf
  rw [(layoutFrame_laidOut isPhysRegUsed F.created).alignmentKept_iff, fpBytes, raBytes, hfp, hra]
  constructor
  · intro h o ho
    exact forall_live hs ha hd (P := fun n a => n ≠ 0 → a ∣ fpBytes F.mf + raBytes F.mf) h o
      (hm ▸ List.mem_append_left _ ho)
  · intro h
    refine forall_live hs.symm ha.symm hd.symm (P := fun n a => n ≠ 0 → a ∣ fpBytes F.mf + raBytes F.mf) ?_
    intro o ho
    rcases List.mem_append.mp (hm ▸ ho) with ho | ho
    · exact h o ho
    · rw [(List.mem_replicate.mp ho).2]
      intro _ _
      show 4 ∣ _
      unfold fpBytes raBytes
      split <;> split <;> decide

/-- Stack objects keep their alignment if and only if every alignment divides
the bytes of the slots of `FP` and `RA`: one of 8 if both are there or
neither, and one of more than 8 if neither is. A local of type `i64` or `f64`
has alignment 8. -/
theorem alignment_kept_iff (F : Frame) (isPhysRegUsed : Reg → Bool) :
    (rigelTargetData.getPrefTypeAlignment .i64 = 8 ∧ rigelTargetData.getPrefTypeAlignment .f64 = 8) ∧
      (AlignmentKept (layoutFrame isPhysRegUsed F.mf) ↔
        ∀ o ∈ F.mf.frameInfo.objects, o.isDead = false → o.size ≠ 0 →
          o.alignment ∣ fpBytes F.mf + raBytes F.mf) :=
  ⟨by decide, alignmentKept_layoutFrame_iff F isPhysRegUsed⟩

/-- A local of type `f64`, and calls. -/
def doubleFrame : Frame where
  mf :=
    let mf := ({} : MachineFunction).staticAlloca .f64 1 0 (.inl rfl)
    { mf with frameInfo := { mf.frameInfo with hasCalls := true, adjustsStack := true, maxCallFrameSize := 0 } }
  created := ((MachineFunction.Created.empty false).staticAlloca .f64 1 (.inl rfl)).setFlags true true 0

/-- The frame has 12 bytes, so the local is 4 off. -/
theorem doubleFrame_not_kept : ¬AlignmentKept (layoutFrame (fun _ => false) doubleFrame.mf) := by
  intro h
  have := (alignmentKept_layoutFrame_iff doubleFrame _).mp h _ (List.mem_singleton_self _) (by decide) (by decide)
  revert this
  decide

end Rigel
