import RigelCodegen.Call.VarArgs
import RigelCodegen.Lib.Run

/-!
# Dynamically allocated stack memory

A run of a function that allocates stack memory, frees it with `stackrestore`,
calls functions and stores to memory. `DYNAMIC_STACKALLOC` lowers `SP`, and
nothing is reserved between `SP` and the new block: the words of a call that
are addressed from `SP` may be in the blocks. `dynamicStackAlloc_private` says
that the blocks are private along every run whose calls write above them.
-/

namespace Rigel

open Word32
open Run (Along)

/-- The bytes of the finished frame, were they not cut to 32 bits. -/
def frameBytes (isPhysRegUsed : Reg → Bool) (mf : MachineFunction) : Nat :=
  Packing.alignUp ((layoutFrame isPhysRegUsed mf).frameInfo.stackSize + fpBytes (layoutFrame isPhysRegUsed mf) +
    raBytes (layoutFrame isPhysRegUsed mf)) stackAlignment

theorem stackSize_finishFrame {isPhysRegUsed : Reg → Bool} {mf : MachineFunction}
    (h : frameBytes isPhysRegUsed mf < 2 ^ 32) :
    (finishFrame isPhysRegUsed mf).frameInfo.stackSize = frameBytes isPhysRegUsed mf := by
  rw [finishFrame, stackSize_adjust]
  simp only [frameBytes, Packing.alignUp, stackAlignment] at h ⊢
  omega

/-- The frame holds the fixed objects. -/
theorem fixedEnd_le_frameBytes (isPhysRegUsed : Reg → Bool) (mf : MachineFunction) :
    fixedEnd mf.frameInfo ≤ frameBytes isPhysRegUsed mf := by
  refine (fixedEnd_le_layoutFrame isPhysRegUsed mf).trans (le_trans ?_ (Packing.le_alignUp (by decide)))
  rw [Nat.add_assoc]
  exact Nat.le_add_right ..

/-- `SP`, aligned if more is asked for than the stack has. -/
def alignedSP (sp : Word) (align : Nat) : Word :=
  if stackAlignment < align then sp &&& BitVec.ofInt 32 (-align) else sp

/-- `ExpandDYNAMIC_STACKALLOC`: the new `SP`, which is the result. -/
def expandDYNAMIC_STACKALLOC (sp size : Word) (align : Nat) : Word := alignedSP sp align - size

theorem alignedSP_le (sp : Word) (align : Nat) : (alignedSP sp align).toNat ≤ sp.toNat := by
  unfold alignedSP
  split
  · rw [BitVec.toNat_and]
    exact Nat.and_le_left
  · exact Nat.le_refl _

/-- A function in its body: its pointers, and its live blocks, the newest
first. -/
structure Activation (mf : MachineFunction) extends FramePointers mf where
  blocks : List Region
  mem : Mem

/-- A function that is called with `sp`, after its prologue. -/
def Activation.enter (mf : MachineFunction) (sp : Word) (mem : Mem) : Activation mf where
  base := sp - stackWord mf
  sp := sp - stackWord mf
  sp_eq := fun _ => rfl
  blocks := []
  mem := mem

/-- A call in the code of a function: what it calls, the words of the call, and
the registers after the prologue of the callee. -/
structure CallSite (isPhysRegUsed : Reg → Bool) (after : MachineFunction) where
  sig : Signature
  caller : Caller sig
  isPhysRegUsed_eq : caller.isPhysRegUsed = isPhysRegUsed
  after_eq : caller.after = after
  callee : Callee sig
  vs : Nat → Word
  regs : Reg → Word

section Steps

variable {isPhysRegUsed : Reg → Bool} {after : MachineFunction}

namespace CallSite

variable (c : CallSite isPhysRegUsed after)

/-- The state after the prologue of the callee. -/
def entered (sp : Word) (m : Mem) : State where
  gpr := fun r =>
    if r = .SP then (c.callee.entry sp).sp else if r = .FP then (c.callee.entry sp).base else c.regs r
  mem := m

/-- What the code of the call writes: the stack words, and the home slots of the
callee. -/
def words (a : Activation (finishFrame isPhysRegUsed after)) : List (Word × Word) :=
  c.caller.stackWrites (stateOf a.sp a.base 0 a.mem) c.vs ++ c.callee.homeWrites (c.entered a.sp a.mem)

end CallSite

/-- What a function does. `stackRestore n` goes back to before the newest `n`
blocks; `store` is any store of the program. -/
inductive Event (isPhysRegUsed : Reg → Bool) (after : MachineFunction) where
  | dynamicStackAlloc (size : Word) (align : Nat)
    (h : (finishFrame isPhysRegUsed after).frameInfo.hasVarSizedObjects = true)
  | stackRestore (n : Nat) (h : (finishFrame isPhysRegUsed after).frameInfo.hasVarSizedObjects = true)
  | call (c : CallSite isPhysRegUsed after)
  | store (x : Word) (b : Byte)

/-- One event. `ADJCALLSTACKDOWN` and `ADJCALLSTACKUP` are discarded, so `SP`
stays at a call. -/
def Activation.step (a : Activation (finishFrame isPhysRegUsed after)) :
    Event isPhysRegUsed after → Activation (finishFrame isPhysRegUsed after)
  | .dynamicStackAlloc size align h =>
    let sp := expandDYNAMIC_STACKALLOC a.sp size align
    { a with sp, sp_eq := fun hn => absurd h (by rw [hn]; decide), blocks := ⟨sp, size.toNat⟩ :: a.blocks }
  | .stackRestore n h =>
    { a with
      sp := ((a.blocks.drop n).head?.map (·.base)).getD a.base
      sp_eq := fun hn => absurd h (by rw [hn]; decide)
      blocks := a.blocks.drop n }
  | .call c => { a with mem := a.mem.writes (c.words a) }
  | .store x b => { a with mem := a.mem.writeByte x b }

/-- The live blocks overlap neither each other nor the frame. -/
structure Activation.Apart {mf : MachineFunction} (a : Activation mf) : Prop where
  blocks : a.blocks.Pairwise Region.Disjoint
  frame : ∀ b ∈ a.blocks, b.Disjoint ⟨a.base, mf.frameInfo.stackSize⟩

/-- In the state before the event, the live blocks are apart; the event writes
no word of a call to them, and changes their bytes only if it is a store to
them. -/
structure Private (a : Activation (finishFrame isPhysRegUsed after)) (e : Event isPhysRegUsed after) : Prop where
  apart : a.Apart
  words : ∀ c, e = .call c → ∀ b ∈ a.blocks, ∀ w ∈ c.words a, b.Disjoint (word w.1)
  contents : ∀ b ∈ a.blocks, (∀ x v, e = .store x v → ¬b.Contains x) →
    ∀ x, b.Contains x → (a.step e).mem x = a.mem x

/-- The words of the call that are addressed from `SP` are at offsets above the
blocks, and no offset is negative as an `int`. -/
structure CallSite.Clear (c : CallSite isPhysRegUsed after) (a : Activation (finishFrame isPhysRegUsed after)) :
    Prop where
  lt : ∀ k < c.sig.outs.length, 8 ≤ k → argOffset c.sig.isVarArg k < 2 ^ 31
  far : ∀ k < c.sig.outs.length, 8 ≤ k → isInt16 (argOffset c.sig.isVarArg k) = false →
    (a.base - a.sp).toNat ≤ argOffset c.sig.isVarArg k
  homes : homeRegs c.sig.isVarArg c.sig.named.length ≠ [] → (a.base - a.sp).toNat ≤ 4 * c.sig.named.length

/-- There is room on the stack for a new block, and a call is clear of the live
ones. -/
def Event.Clear (a : Activation (finishFrame isPhysRegUsed after)) : Event isPhysRegUsed after → Prop
  | .dynamicStackAlloc size align _ => size.toNat ≤ (alignedSP a.sp align).toNat
  | .stackRestore .. => True
  | .call c => a.blocks ≠ [] → c.Clear a
  | .store .. => True

/-! ## Runs -/

/-- The blocks lie between `SP` and the frame, in their order, and the frame does
not wrap around. -/
structure Activation.Stacked {mf : MachineFunction} (a : Activation mf) : Prop where
  sp_le : ∀ b ∈ a.blocks, a.sp.toNat ≤ b.base.toNat
  le_base : ∀ b ∈ a.blocks, b.base.toNat + b.len ≤ a.base.toNat
  sorted : a.blocks.Pairwise fun b b' => b.base.toNat + b.len ≤ b'.base.toNat
  sp_le_base : a.sp.toNat ≤ a.base.toNat
  frame_le : a.base.toNat + mf.frameInfo.stackSize ≤ 2 ^ 32

namespace Activation.Stacked

variable {mf : MachineFunction} {a : Activation mf} (h : a.Stacked)
include h

/-- What is not below the frame is in no block. -/
theorem disjoint_of_base_le {b r : Region} (hb : b ∈ a.blocks) (hr : a.base.toNat ≤ r.base.toNat)
    (hlt : r.base.toNat + r.len ≤ 2 ^ 32) : b.Disjoint r :=
  Region.disjoint_of_le ((h.le_base b hb).trans hr) hlt

theorem apart : a.Apart where
  blocks := h.sorted.imp_of_mem fun {b b'} _ hb' hle => Region.disjoint_of_le hle (by
    have := h.le_base b' hb'
    have := a.base.isLt
    omega)
  frame := fun _ hb => h.disjoint_of_base_le hb (Nat.le_refl _) h.frame_le

end Activation.Stacked

theorem Activation.enter_stacked {sp : Word} (hsp : frameBytes isPhysRegUsed after ≤ sp.toNat) (m : Mem) :
    (enter (finishFrame isPhysRegUsed after) sp m).Stacked where
  sp_le := nofun
  le_base := nofun
  sorted := .nil
  sp_le_base := Nat.le_refl _
  frame_le := by
    have hlt := hsp.trans_lt sp.isLt
    have hsize := stackSize_finishFrame hlt
    rw [hsize]
    simp only [enter, stackWord, hsize, BitVec.toNat_sub, BitVec.toNat_ofNat, Nat.mod_eq_of_lt hlt]
    omega

/-- Each event keeps the blocks in their order, if there is room. -/
theorem Activation.Stacked.step {a : Activation (finishFrame isPhysRegUsed after)} (h : a.Stacked)
    {e : Event isPhysRegUsed after} (hc : e.Clear a) : (a.step e).Stacked := by
  cases e with
  | dynamicStackAlloc size align hv =>
    have hc : size.toNat ≤ (alignedSP a.sp align).toNat := hc
    have hle := alignedSP_le a.sp align
    have hsp : (expandDYNAMIC_STACKALLOC a.sp size align).toNat + size.toNat = (alignedSP a.sp align).toNat := by
      rw [expandDYNAMIC_STACKALLOC, BitVec.toNat_sub_of_le hc]
      omega
    have hbase := h.sp_le_base
    refine ⟨List.forall_mem_cons.mpr ⟨Nat.le_refl _, fun b hb => ?_⟩, List.forall_mem_cons.mpr ⟨?_, h.le_base⟩,
      List.pairwise_cons.mpr ⟨fun b hb => ?_, h.sorted⟩, ?_, h.frame_le⟩
    · have := h.sp_le b hb
      show (expandDYNAMIC_STACKALLOC a.sp size align).toNat ≤ b.base.toNat
      omega
    · show (expandDYNAMIC_STACKALLOC a.sp size align).toNat + size.toNat ≤ a.base.toNat
      omega
    · have := h.sp_le b hb
      show (expandDYNAMIC_STACKALLOC a.sp size align).toNat + size.toNat ≤ b.base.toNat
      omega
    · show (expandDYNAMIC_STACKALLOC a.sp size align).toNat ≤ a.base.toNat
      omega
  | stackRestore n hv =>
    have hsorted := h.sorted.sublist (List.drop_sublist n a.blocks)
    have hbase : ∀ b ∈ a.blocks.drop n, b.base.toNat + b.len ≤ a.base.toNat := fun b hb =>
      h.le_base b (List.mem_of_mem_drop hb)
    have hsp : (∀ b ∈ a.blocks.drop n, (((a.blocks.drop n).head?.map (·.base)).getD a.base).toNat ≤ b.base.toNat) ∧
        (((a.blocks.drop n).head?.map (·.base)).getD a.base).toNat ≤ a.base.toNat := by
      cases hbs : a.blocks.drop n with
      | nil => exact ⟨nofun, Nat.le_refl _⟩
      | cons b bs =>
        rw [hbs, List.pairwise_cons] at hsorted
        exact ⟨List.forall_mem_cons.mpr ⟨Nat.le_refl _, fun b' hb' => (Nat.le_add_right ..).trans (hsorted.1 b' hb')⟩,
          (Nat.le_add_right ..).trans (hbase b (hbs ▸ List.mem_cons_self ..))⟩
    exact ⟨hsp.1, hbase, hsorted, hsp.2, h.frame_le⟩
  | call c => exact ⟨h.sp_le, h.le_base, h.sorted, h.sp_le_base, h.frame_le⟩
  | store x b => exact ⟨h.sp_le, h.le_base, h.sorted, h.sp_le_base, h.frame_le⟩

/-- The word of a call at an offset from `SP`, or from the base, is not below
the frame. -/
theorem Caller.argOffset_le_stackSize {sig : Signature} (C : Caller sig)
    (hlt : frameBytes C.isPhysRegUsed C.after < 2 ^ 32)
    {k : Nat} (h8 : 8 ≤ k) (hk : k < sig.outs.length) (ho : argOffset sig.isVarArg k < 2 ^ 31) :
    argOffset sig.isVarArg k + 4 ≤ C.mf.frameInfo.stackSize := by
  obtain ⟨o, hget, hoff, hsize⟩ := C.fixedObject h8 hk
  have hend := (le_fixedEnd (List.mem_of_getElem? hget)).trans (fixedEnd_le_frameBytes C.isPhysRegUsed C.after)
  rw [toInt32_of_lt (by omega)] at hoff
  rw [hoff] at hend
  have h4 := four_dvd_argOffset sig.isVarArg k
  have h4' : frameBytes C.isPhysRegUsed C.after % 4 = 0 := Nat.mod_eq_zero_of_dvd (Packing.dvd_alignUp ..)
  rw [Caller.mf, stackSize_finishFrame hlt]
  omega

/-- A variadic call has 32 bytes in the frame. -/
theorem Caller.le_stackSize {sig : Signature} (C : Caller sig) (hlt : frameBytes C.isPhysRegUsed C.after < 2 ^ 32)
    (hv : sig.isVarArg = true) : 32 ≤ C.mf.frameInfo.stackSize := by
  obtain ⟨os, hmf, -⟩ := (callLowered C.before sig.isVarArg sig.outs).mf
  have hroom : (makeRoomForRegs C.before sig.isVarArg).frameInfo.fixedObjects <+: C.after.frameInfo.fixedObjects := by
    refine List.IsPrefix.trans ?_ (later_keeps C.later).2
    rw [hmf]
    exact List.prefix_append ..
  rw [makeRoomForRegs, if_pos hv] at hroom
  have hend := (le_fixedEnd (hroom.subset (List.mem_append_right _ (List.mem_singleton_self _)))).trans
    (fixedEnd_le_frameBytes C.isPhysRegUsed C.after)
  rw [Caller.mf, stackSize_finishFrame hlt]
  exact hend

/-- A call that is clear of the blocks writes nothing below the frame. -/
theorem CallSite.Clear.base_le {c : CallSite isPhysRegUsed after} {a : Activation (finishFrame isPhysRegUsed after)}
    (hc : c.Clear a) (h : a.Stacked) (hlt : frameBytes isPhysRegUsed after < 2 ^ 32) {w : Word × Word}
    (hw : w ∈ c.words a) : a.base.toNat ≤ w.1.toNat ∧ w.1.toNat + 4 ≤ 2 ^ 32 := by
  obtain ⟨sig, C, rfl, rfl, D, vs, regs⟩ := c
  have hbase := h.sp_le_base
  have hframe : a.base.toNat + C.mf.frameInfo.stackSize ≤ 2 ^ 32 := h.frame_le
  rcases List.mem_append.mp hw with hw | hw
  · obtain ⟨k, h8, hk, rfl⟩ := Caller.mem_stackWrites hw
    have ho := hc.lt k hk h8
    have hle := C.argOffset_le_stackSize hlt h8 hk ho
    have haddr := C.fiAddress_of_lt h8 hk ho (p := a.toFramePointers) (stateOf_holds a.toFramePointers 0 a.mem)
    rw [haddr]
    split
    · simp only [BitVec.toNat_add, BitVec.toNat_ofNat]
      omega
    · rename_i hfar
      have := hc.far k hk h8 (Bool.eq_false_of_not_eq_true hfar)
      simp only [BitVec.toNat_sub, BitVec.toNat_add, BitVec.toNat_ofNat] at this ⊢
      omega
  · obtain ⟨h', hh', rfl⟩ := List.mem_map.mp hw
    rw [Callee.lowered, (lowerFormalArguments_spec ..).2.1] at hh'
    obtain ⟨j, hj, rfl⟩ := List.mem_mapIdx.mp hh'
    have hhome : (a.base - a.sp).toNat ≤ 4 * sig.named.length :=
      hc.homes (List.ne_nil_of_length_pos (Nat.zero_lt_of_lt hj))
    have hj : j < (homeRegs sig.isVarArg sig.named.length).length := hj
    have hn := lt_of_lt_homeRegs hj
    have hle := C.le_stackSize hlt hn.1
    have hs : (D.entry a.sp).Holds (CallSite.entered ⟨sig, C, rfl, rfl, D, vs, regs⟩ a.sp a.mem) := ⟨rfl, fun _ => rfl⟩
    have haddr := D.fiAddress_home hs hj
    rw [haddr]
    simp only [BitVec.toNat_sub, BitVec.toNat_add, BitVec.toNat_ofNat] at hhome ⊢
    omega

/-- What the blocks are private from, in a state where they are in order. -/
theorem Activation.Stacked.private {a : Activation (finishFrame isPhysRegUsed after)} (h : a.Stacked)
    (hlt : frameBytes isPhysRegUsed after < 2 ^ 32) {e : Event isPhysRegUsed after} (hc : e.Clear a) : Private a e := by
  have hwords : ∀ c, e = .call c → ∀ b ∈ a.blocks, ∀ w ∈ c.words a, b.Disjoint (word w.1) := by
    rintro c rfl b hb w hw
    have hw := CallSite.Clear.base_le (hc (List.ne_nil_of_mem hb)) h hlt hw
    exact h.disjoint_of_base_le hb hw.1 hw.2
  refine ⟨h.apart, hwords, fun b hb hs x hx => ?_⟩
  cases e with
  | dynamicStackAlloc => rfl
  | stackRestore => rfl
  | call c => exact Mem.writes_apply fun w hw => hwords c rfl b hb w hw x hx
  | store y v => exact if_neg fun he : x = y => hs y v rfl (he ▸ hx)

/-- If there is room for the frame and the blocks, and each call with live
blocks writes the words that it addresses from `SP` above them, then the blocks
are private along the run, and apart at its end. -/
theorem dynamicStackAlloc_private (isPhysRegUsed : Reg → Bool) (after : MachineFunction) (sp : Word) (m : Mem)
    (hsp : frameBytes isPhysRegUsed after ≤ sp.toNat) (es : List (Event isPhysRegUsed after))
    (hes : Along Activation.step (fun a e => e.Clear a) (.enter (finishFrame isPhysRegUsed after) sp m) es) :
    Along Activation.step Private (.enter (finishFrame isPhysRegUsed after) sp m) es ∧
      (es.foldl Activation.step (.enter (finishFrame isPhysRegUsed after) sp m)).Apart :=
  ⟨hes.of_invariant (fun _ _ h hc => h.step hc) (fun _ _ h hc => h.private (hsp.trans_lt sp.isLt) hc)
    (Activation.enter_stacked hsp m),
  (hes.invariant (fun _ _ h hc => h.step hc) (Activation.enter_stacked hsp m)).apart⟩

end Steps

/-- A variadic signature of one named word. -/
def oneNamed : Signature where
  isVarArg := true
  named := [{}]
  variadic := [{}]
  variadic_eq := nofun

/-- A function with a variable-sized object that makes such a call. -/
def printer : Caller oneNamed := .dynamic oneNamed

def printerCall : CallSite printer.isPhysRegUsed printer.after :=
  ⟨oneNamed, printer, rfl, rfl, .plain oneNamed false, fun _ => 1, fun _ => 1⟩

/-- With a block of one word, the home slots are above it. -/
theorem dynamicStackAlloc_private_printer :
    Along Activation.step Private (.enter (finishFrame printer.isPhysRegUsed printer.after) 0x1000 fun _ => 0)
        [.dynamicStackAlloc 4 0 (by decide), .call printerCall, .store 0xFD4 7, .stackRestore 1 (by decide)] ∧
      ([.dynamicStackAlloc 4 0 (by decide), .call printerCall, .store 0xFD4 7, .stackRestore 1 (by decide)].foldl
        Activation.step (.enter (finishFrame printer.isPhysRegUsed printer.after) 0x1000 fun _ => 0)).Apart :=
  dynamicStackAlloc_private printer.isPhysRegUsed printer.after 0x1000 (fun _ => 0) (by decide) _
    (.cons (by decide : (4 : Word).toNat ≤ (alignedSP 0xFD8 0).toNat)
      (.cons (fun _ => ⟨by decide, by decide, by decide⟩) (.cons trivial (.cons trivial (.nil _)))))

/-- With one of four words, the second home slot is in it. -/
theorem printer_not_private :
    ¬(Along Activation.step Private (.enter (finishFrame printer.isPhysRegUsed printer.after) 0x1000 fun _ => 0)
        [.dynamicStackAlloc 16 0 (by decide), .call printerCall] ∧
      ([.dynamicStackAlloc 16 0 (by decide), .call printerCall].foldl Activation.step
        (.enter (finishFrame printer.isPhysRegUsed printer.after) 0x1000 fun _ => 0)).Apart) := by
  rintro ⟨_ | ⟨-, _ | ⟨h, -⟩⟩, -⟩
  exact h.words printerCall rfl ⟨0xFC8, 16⟩ (.head _) (0xFCC, 1) (by decide) 0xFCC (by decide) (by decide)

end Rigel
