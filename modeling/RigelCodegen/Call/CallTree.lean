import RigelCodegen.Call.Alloca
import RigelCodegen.Frame.MaskDirective

/-!
# Trees of calls

What `PEI` puts around the body of a function: the prologue and the spills of
callee-saved registers before it, the reloads and the epilogue behind it. An
execution (`Execution`) is a tree of calls: a body takes steps of its own, which
are any that leave alone what the register allocator and the frame reserve
(`Function.Own`), and makes calls, to any depth. `call_preserves` says that a call
is transparent if the frames of all functions are restorable: the caller finds its
registers as they were, and no word that a function up the tree has saved is
overwritten.
-/

namespace Rigel

open Packing Word32

def loadRegFromStackSlot (destReg : Reg) (fi : Int) : MachineInstr := ⟨.lw, [.reg destReg, .imm 0, .frameIndex fi]⟩

/-- The reloads of `insertCSRSpillsAndRestores`, in a return block: each is
inserted before the one inserted last. -/
def insertCSRRestores (csi : List CalleeSavedInfo) : List MachineInstr :=
  (csi.map fun c => loadRegFromStackSlot c.reg c.frameIdx).reverse

/-- A function as instruction selection and register allocation leave it. -/
structure Function where
  mf : MachineFunction
  isPhysRegUsed : Reg → Bool
  created : mf.Created

namespace Function

variable (F : Function)

/-- The function with its frame finished. -/
def finished : MachineFunction := finishFrame F.isPhysRegUsed F.mf

def csi : List CalleeSavedInfo := (insertPrologEpilog false F.isPhysRegUsed F.mf).csi

/-- The code before the body. -/
def entry : List MachineInstr := (insertPrologEpilog false F.isPhysRegUsed F.mf).entry

/-- The code before the terminators of a return block: the epilogue is inserted
behind the reloads. -/
def exit : List MachineInstr :=
  (insertCSRRestores F.csi).flatMap (eliminateFrameIndex F.finished) ++ emitEpilogue F.finished

/-- The bytes of the frame. -/
def size : Nat := frameBytes F.isPhysRegUsed F.mf

/-- `SP` after the prologue, from `SP` on entry. -/
def base (sp : Word) : Word := sp - BitVec.ofNat 32 F.size

/-- The words of the frame that the code before the body saves registers in. -/
def slots (s : State) : List Region := (savedStores F.isPhysRegUsed F.mf s).map fun x => word x.address

/-- The slots of callee-saved registers end here: they are behind the outgoing
arguments. -/
def slotsEnd : Nat := alignUp (fixedEnd F.mf.frameInfo) 4 + 4 * (savedRegs F.isPhysRegUsed).length

/-- The offsets of the slots have code: the one of `FP` is of 16 bits, and so are
those of callee-saved registers if `SP` may have moved since they were saved. -/
structure Restorable : Prop where
  fp : hasFP F.mf = true → isInt16 (toInt32 (layoutFrame F.isPhysRegUsed F.mf).frameInfo.stackSize) = true
  saved : F.slotsEnd ≤ 2 ^ 31
  near : F.mf.frameInfo.hasVarSizedObjects = true → F.slotsEnd ≤ 2 ^ 15

/-! ## Executions -/

/-- What a body may do by itself, from `s` to `t`. `FP` is reserved, `SP` only moves if
there are variable-sized objects, and not above the frame, `RA` is only written by calls, and a
callee-saved register that is not saved is not used. The words in `kept` are not
written. -/
structure Own (kept : List Region) (base : Word) (s t : State) : Prop where
  fp : t.reg .FP = s.reg .FP
  sp : F.mf.frameInfo.hasVarSizedObjects = false → t.reg .SP = s.reg .SP
  sp_le : (t.reg .SP).toNat ≤ base.toNat
  ra : F.mf.frameInfo.hasCalls = false → t.reg .RA = s.reg .RA
  unused : ∀ r ∈ getCalleeSavedRegs, F.isPhysRegUsed r = false → t.reg r = s.reg r
  kept : ∀ R ∈ kept, ∀ a, R.Contains a → t.mem a = s.mem a

end Function

/-- What is executed: a call of a function, or what is left of a body whose frame is at
`base`. -/
inductive Task where
  | call (F : Function)
  | body (F : Function) (base : Word)

/-- Executions of the functions of a program; `kept` are the words that the functions
up the tree have saved registers in. A call is made with its return address in
`RA`, and its frame is above address 0. -/
inductive Execution (program : Function → Prop) : List Region → Task → State → State → Prop
  | call {F : Function} {kept : List Region} {s s₁ s₂ s₃ : State} : program F → F.size ≤ (s.reg .SP).toNat →
    run F.entry s = some s₁ → Execution program (F.slots s ++ kept) (.body F (F.base (s.reg .SP))) s₁ s₂ →
    run F.exit s₂ = some s₃ → Execution program kept (.call F) s s₃
  | done {F : Function} {kept : List Region} {base : Word} {s : State} : Execution program kept (.body F base) s s
  | own {F : Function} {kept : List Region} {base : Word} {s t u : State} : F.Own kept base s t →
    Execution program kept (.body F base) t u → Execution program kept (.body F base) s u
  | nested {F G : Function} {kept : List Region} {base ra : Word} {s t u : State} :
    F.mf.frameInfo.hasCalls = true → Execution program kept (.call G) (s.setReg .RA ra) t →
    Execution program kept (.body F base) t u → Execution program kept (.body F base) s u

/-! ## The frame -/

namespace Function

/-- Where registers are saved, from the base of the frame: the slots of `RA` and `FP` are
behind the objects, those of the callee-saved registers in front of them. -/
def savedOffsets (F : Function) : List (Reg × Nat) :=
  let stackSize := (layoutFrame F.isPhysRegUsed F.mf).frameInfo.stackSize
  (if F.mf.frameInfo.hasCalls then [(.RA, stackSize + fpBytes F.mf)] else []) ++
    (if hasFP F.mf then [(.FP, stackSize)] else []) ++
    (savedRegs F.isPhysRegUsed).reverse.zipIdx.map fun x => (x.1, alignUp (fixedEnd F.mf.frameInfo) 4 + 4 * x.2)

variable {F : Function}

theorem size_eq : F.size =
    (layoutFrame F.isPhysRegUsed F.mf).frameInfo.stackSize + fpBytes F.mf + raBytes F.mf := by
  have h4 := (layoutFrame_laidOut F.isPhysRegUsed F.created).four_dvd
  have hmf := layoutFrame_hasFP F.isPhysRegUsed F.mf
  have hf := fpBytes_cases F.mf
  have hr := raBytes_cases F.mf
  rw [size, frameBytes, fpBytes, raBytes, hmf.1, hmf.2, ← fpBytes, ← raBytes, alignUp_of_dvd (by decide)]
  rw [stackAlignment]
  omega

theorem stackWord_finished : stackWord F.finished = BitVec.ofNat 32 F.size := by
  rw [finished, stackWord_finishFrame F.created, size_eq]

/-- The slots of callee-saved registers are in the frame. -/
theorem slotsEnd_le : F.slotsEnd ≤ (layoutFrame F.isPhysRegUsed F.mf).frameInfo.stackSize := by
  have hl := layoutFrame_laidOut F.isPhysRegUsed F.created
  have h4 := hl.four_dvd
  have hfix := fixedEnd_le_layoutFrame F.isPhysRegUsed F.mf
  rw [slotsEnd]
  rcases Nat.eq_zero_or_pos (savedRegs F.isPhysRegUsed).length with h0 | hpos
  · rw [h0, alignUp]
    omega
  · -- the slot of the first register is the highest
    have hoff := layoutFrame_csSlot F.isPhysRegUsed F.created hpos
    have hsv := calculateCalleeSavedRegisters_savedRegs F.isPhysRegUsed F.mf.frameInfo
    have hs := layoutObjects_similar (calculateCalleeSavedRegisters F.isPhysRegUsed F.mf.frameInfo).1
      (calculateCalleeSavedRegisters F.isPhysRegUsed F.mf.frameInfo).2
    have hc : (calculateCalleeSavedRegisters F.isPhysRegUsed F.mf.frameInfo).1.contains
        F.mf.frameInfo.objects.length = true := hsv.contains.mpr ⟨Nat.le_refl _, Nat.lt_add_of_pos_right hpos⟩
    have hin := hl.within F.mf.frameInfo.objects.length ((congrFun hs.dead _).trans (hsv.live hc))
    have hsize : (layoutFrame F.isPhysRegUsed F.mf).frameInfo.getObjectSize F.mf.frameInfo.objects.length = 4 :=
      (congrFun hs.size _).trans (hsv.slot hc).1
    have hin := hin.2
    simp only [MachineFrameInfo.objectSpan, Span.stop, hsize] at hin
    rw [Nat.add_zero] at hoff
    rw [hoff, savedRegs] at *
    omega

/-- The callee-saved registers from the last one down, with their slots. -/
theorem csi_reverse : F.csi.reverse = (savedRegs F.isPhysRegUsed).reverse.zipIdx.map fun x =>
    ⟨x.1, F.mf.frameInfo.objects.length + ((savedRegs F.isPhysRegUsed).length - 1 - x.2)⟩ := by
  rw [csi, insertPrologEpilog_csi]
  refine List.ext_getElem? fun k => ?_
  rw [List.getElem?_map, List.getElem?_zipIdx]
  by_cases hk : k < (savedRegs F.isPhysRegUsed).length
  · rw [List.getElem?_reverse (by simpa using hk), List.getElem?_reverse hk, List.length_map, List.length_zipIdx,
      List.getElem?_map, List.getElem?_zipIdx, List.getElem?_eq_getElem (by omega)]
    simp
  · rw [List.getElem?_eq_none (by simpa using hk), List.getElem?_eq_none (by simpa using hk)]
    rfl

/-- Where `eliminateFrameIndex` takes the slot of a callee-saved register to be. -/
theorem frameOffset_slot (h : F.Restorable) {k : Nat} (hk : k < (savedRegs F.isPhysRegUsed).length) :
    frameOffset F.finished (F.mf.frameInfo.objects.length + ((savedRegs F.isPhysRegUsed).length - 1 - k) : Nat) =
      (alignUp (fixedEnd F.mf.frameInfo) 4 + 4 * k : Nat) := by
  have hj : (savedRegs F.isPhysRegUsed).length - 1 - k < (getCalleeSavedRegs.filter F.isPhysRegUsed).length := by
    rw [savedRegs] at hk ⊢
    omega
  have hoff := layoutFrame_csSlot F.isPhysRegUsed F.created hj
  rw [← (F.created.indexed.layoutFrame F.isPhysRegUsed).getObjectOffset_adjust
    (by rw [layoutFrame_length]; exact Nat.add_lt_add_left hj _)] at hoff
  have hlast : (getCalleeSavedRegs.filter F.isPhysRegUsed).length - 1 -
      ((savedRegs F.isPhysRegUsed).length - 1 - k) = k := by
    rw [savedRegs] at hk ⊢
    omega
  have hend : alignUp (fixedEnd F.mf.frameInfo) 4 + 4 * (savedRegs F.isPhysRegUsed).length ≤ 2 ^ 31 := h.saved
  rw [hlast] at hoff
  rw [frameOffset, finished, finishFrame, hoff, toInt32_of_lt (by omega), if_neg (by omega)]

/-- Where the code has the slot of `RA`. -/
theorem raAddress_finished (hc : F.mf.frameInfo.hasCalls = true) (base : Word) : raAddress F.finished base =
    base + BitVec.ofNat 32 ((layoutFrame F.isPhysRegUsed F.mf).frameInfo.stackSize + fpBytes F.mf) := by
  have hmf := layoutFrame_hasFP F.isPhysRegUsed F.mf
  have hfp : fpBytes (layoutFrame F.isPhysRegUsed F.mf) = fpBytes F.mf := by rw [fpBytes, hmf.1, ← fpBytes]
  rw [raAddress, finished, finishFrame, raStackOffset_adjust _ (hmf.2.trans hc), ofInt_toInt32, BitVec.ofInt_natCast,
    hfp]

/-- Where the code has the slot of `FP`. -/
theorem fpAddress_finished (h : F.Restorable) (hf : hasFP F.mf = true) (base : Word) :
    fpAddress base F.finished.functionInfo.fpStackOffset =
      base + BitVec.ofNat 32 (layoutFrame F.isPhysRegUsed F.mf).frameInfo.stackSize := by
  have hfp : hasFP (layoutFrame F.isPhysRegUsed F.mf) = true := (layoutFrame_hasFP F.isPhysRegUsed F.mf).1.trans hf
  calc fpAddress base F.finished.functionInfo.fpStackOffset
      = fpSlotAddress (adjustRigelStackFrame (layoutFrame F.isPhysRegUsed F.mf)) base :=
        fpAddress_of_isInt16 hfp (h.fp hf) base
    _ = base + BitVec.ofNat 32 (layoutFrame F.isPhysRegUsed F.mf).frameInfo.stackSize := by
        rw [fpSlotAddress, fpStackOffset_adjust _ hfp, ofInt_toInt32, BitVec.ofInt_natCast]

/-- The code before the body stores registers at their offsets. -/
theorem savedStores_eq (h : F.Restorable) (s : State) : savedStores F.isPhysRegUsed F.mf s =
    F.savedOffsets.map fun x => ⟨x.1, F.base (s.reg .SP) + BitVec.ofNat 32 x.2, s.reg x.1⟩ := by
  have hbase : s.reg .SP - stackWord (finishFrame F.isPhysRegUsed F.mf) = F.base (s.reg .SP) := by
    rw [base, ← stackWord_finished]
    rfl
  simp only [savedStores, savedOffsets, hbase, List.map_append]
  refine congrArg₂ (· ++ ·) (congrArg₂ (· ++ ·) ?_ ?_) ?_
  · split
    · rename_i hc
      have hra := raAddress_finished hc (F.base (s.reg .SP))
      rw [finished] at hra
      rw [hra]
      rfl
    · rfl
  · split
    · rename_i hf
      have hfp := fpAddress_finished h hf (F.base (s.reg .SP))
      rw [finished] at hfp
      rw [hfp]
      rfl
    · rfl
  · rw [← List.map_reverse, show (insertPrologEpilog false F.isPhysRegUsed F.mf).csi.reverse = _ from csi_reverse,
      List.map_map, List.map_map]
    refine List.map_congr_left fun x hx => ?_
    have hk : x.2 < (savedRegs F.isPhysRegUsed).length := by
      have := List.snd_lt_of_mem_zipIdx hx
      simpa using this
    have hoff := frameOffset_slot h hk
    rw [finished] at hoff
    simp only [Function.comp_apply, hoff, BitVec.ofInt_natCast]

/-- The slots of callee-saved registers lie in a row, in front of those of `FP` and `RA`. -/
theorem mem_savedOffsets {x : Reg × Nat} (hx : x ∈ F.savedOffsets) :
    (x = (.RA, (layoutFrame F.isPhysRegUsed F.mf).frameInfo.stackSize + fpBytes F.mf) ∧
      F.mf.frameInfo.hasCalls = true) ∨
    (x = (.FP, (layoutFrame F.isPhysRegUsed F.mf).frameInfo.stackSize) ∧ hasFP F.mf = true) ∨
    ∃ k, (savedRegs F.isPhysRegUsed).reverse[k]? = some x.1 ∧ x.2 = alignUp (fixedEnd F.mf.frameInfo) 4 + 4 * k := by
  simp only [savedOffsets, List.mem_append, List.mem_map] at hx
  rcases hx with (hx | hx) | ⟨y, hy, rfl⟩
  · split at hx
    · exact .inl ⟨List.mem_singleton.mp hx, ‹_›⟩
    · cases hx
  · split at hx
    · exact .inr (.inl ⟨List.mem_singleton.mp hx, ‹_›⟩)
    · cases hx
  · exact .inr (.inr ⟨y.2, List.mk_mem_zipIdx_iff_getElem?.mp hy, rfl⟩)

theorem lt_of_getElem?_savedRegs {k : Nat} {r : Reg} (h : (savedRegs F.isPhysRegUsed).reverse[k]? = some r) :
    k < (savedRegs F.isPhysRegUsed).length := by
  have := (List.getElem?_eq_some_iff.mp h).1
  rwa [List.length_reverse] at this

/-- The slots are words of the frame. -/
theorem savedOffsets_le {x : Reg × Nat} (hx : x ∈ F.savedOffsets) : x.2 + 4 ≤ F.size := by
  have hend := F.slotsEnd_le
  rw [size_eq]
  rcases mem_savedOffsets hx with ⟨rfl, hc⟩ | ⟨rfl, hf⟩ | ⟨k, hk, he⟩
  · rw [raBytes, if_pos hc]
  · rw [fpBytes, if_pos hf]
    omega
  · have hk := lt_of_getElem?_savedRegs hk
    rw [slotsEnd] at hend
    omega

/-- No two slots overlap. -/
theorem savedOffsets_apart : F.savedOffsets.Pairwise fun x y => y.2 + 4 ≤ x.2 ∨ x.2 + 4 ≤ y.2 := by
  have hend := F.slotsEnd_le
  have hrow : ((savedRegs F.isPhysRegUsed).reverse.zipIdx.map fun x =>
      (x.1, alignUp (fixedEnd F.mf.frameInfo) 4 + 4 * x.2)).Pairwise fun x y => y.2 + 4 ≤ x.2 ∨ x.2 + 4 ≤ y.2 := by
    refine List.pairwise_map.mpr (List.Pairwise.imp (fun hlt => .inr ?_)
      (List.pairwise_map.mp (List.zipIdx_map_snd .. ▸ List.pairwise_lt_range')))
    simp only
    omega
  have hfst {x y : Reg × Nat} (hx : x.2 = (layoutFrame F.isPhysRegUsed F.mf).frameInfo.stackSize + fpBytes F.mf ∨
      x.2 = (layoutFrame F.isPhysRegUsed F.mf).frameInfo.stackSize)
      (hy : y ∈ (savedRegs F.isPhysRegUsed).reverse.zipIdx.map fun x =>
        (x.1, alignUp (fixedEnd F.mf.frameInfo) 4 + 4 * x.2)) : y.2 + 4 ≤ x.2 := by
    obtain ⟨z, hz, rfl⟩ := List.mem_map.mp hy
    have hk := List.snd_lt_of_mem_zipIdx hz
    rw [List.length_reverse] at hk
    rw [slotsEnd] at hend
    rcases hx with hx | hx <;> rw [hx] <;> omega
  rw [savedOffsets, List.append_assoc]
  refine List.pairwise_append.mpr ⟨?_, List.pairwise_append.mpr ⟨?_, hrow, fun x hx y hy => .inl ?_⟩,
    fun x hx y hy => .inl ?_⟩
  · split <;> simp
  · split <;> simp
  · split at hx
    · obtain rfl := List.mem_singleton.mp hx
      exact hfst (.inr rfl) hy
    · cases hx
  · split at hx
    · obtain rfl := List.mem_singleton.mp hx
      rcases List.mem_append.mp hy with hy | hy
      · split at hy
        · obtain rfl := List.mem_singleton.mp hy
          rw [fpBytes, if_pos ‹_›]
        · cases hy
      · exact hfst (.inl rfl) hy
    · cases hx

/-- The registers that are saved, each once. -/
theorem savedOffsets_fst : F.savedOffsets.map Prod.fst = (if F.mf.frameInfo.hasCalls then [.RA] else []) ++
    (if hasFP F.mf then [.FP] else []) ++ (savedRegs F.isPhysRegUsed).reverse := by
  have hrow : ((savedRegs F.isPhysRegUsed).reverse.zipIdx.map fun x =>
      (x.1, alignUp (fixedEnd F.mf.frameInfo) 4 + 4 * x.2)).map Prod.fst = (savedRegs F.isPhysRegUsed).reverse := by
    rw [List.map_map]
    exact List.zipIdx_map_fst ..
  rw [savedOffsets, List.map_append, List.map_append, hrow]
  refine congrArg₂ (· ++ ·) (congrArg₂ (· ++ ·) ?_ ?_) rfl <;> split <;> rfl

/-- The spills change no register but `AT`. -/
theorem keeps_insertCSRSpills (mf : MachineFunction) {csi : List CalleeSavedInfo}
    (h : ∀ c ∈ csi, c.reg ∈ getCalleeSavedRegs) {s s' : State}
    (hs : run ((insertCSRSpills csi).flatMap (eliminateFrameIndex mf)) s = some s') : s.Keeps [.AT] s' := by
  induction csi generalizing s with
  | nil =>
    obtain rfl := Option.some.inj hs
    exact .refl
  | cons c csi ih =>
    rw [insertCSRSpills, List.map_cons, List.flatMap_cons, run_append] at hs
    obtain ⟨t, ht, hk, -⟩ := stores_spill mf (h c (List.mem_cons_self ..)) c.frameIdx s
    rw [ht, Option.bind_some] at hs
    intro r hr
    rw [ih (fun c hc => h c (List.mem_cons_of_mem _ hc)) hs r hr, hk r hr]

/-- A frame without bytes saves nothing, and there is no code before its body. -/
theorem entry_eq_nil (h : PrologueSkipped F.isPhysRegUsed F.mf) (hroom : F.size < 2 ^ 32) :
    F.entry = [] ∧ F.savedOffsets = [] ∧ F.size = 0 := by
  have h0 : F.size = 0 := by
    have := congrArg BitVec.toNat (stackWord_finished.symm.trans h.1)
    rwa [BitVec.toNat_ofNat, Nat.mod_eq_of_lt hroom] at this
  have hoff : F.savedOffsets = [] := List.eq_nil_iff_forall_not_mem.mpr fun x hx => by
    have := savedOffsets_le hx
    omega
  have hcsi : F.csi = [] := by
    rw [savedOffsets, List.append_eq_nil_iff, List.map_eq_nil_iff] at hoff
    exact List.reverse_eq_nil_iff.mp (csi_reverse.trans (by rw [hoff.2]; rfl))
  refine ⟨?_, hoff, h0⟩
  rw [entry, insertPrologEpilog_entry, show (insertPrologEpilog false F.isPhysRegUsed F.mf).csi = [] from hcsi,
    show (emitPrologue (layoutFrame F.isPhysRegUsed F.mf)).2 = [] from if_pos h]
  rfl

/-- The body is entered with its frame below `SP` and the registers saved. -/
structure Entered (F : Function) (s s₁ : State) : Prop where
  sp : s₁.reg .SP = F.base (s.reg .SP)
  fp : s₁.reg .FP = if hasFP F.mf then F.base (s.reg .SP) else s.reg .FP
  keeps : s.Keeps [.AT, .SP, .FP] s₁
  unchanged : Unchanged (F.slots s) s.mem s₁.mem
  saved : ∀ x ∈ F.savedOffsets, s₁.mem.readWord (F.base (s.reg .SP) + BitVec.ofNat 32 x.2) = s.reg x.1

/-- Words at offsets that are apart are apart. -/
theorem word_disjoint_of_offsets (b : Word) {i j n : Nat} (hi : i + 4 ≤ n) (hj : j + 4 ≤ n) (hn : n < 2 ^ 32)
    (h : j + 4 ≤ i ∨ i + 4 ≤ j) : (word (b + BitVec.ofNat 32 i)).Disjoint (word (b + BitVec.ofNat 32 j)) := by
  refine word_disjoint ?_ ?_ <;> bv_omega

theorem run_entry (h : F.Restorable) {s : State} (hroom : F.size < 2 ^ 32) :
    ∃ s₁, run F.entry s = some s₁ ∧ F.Entered s s₁ := by
  by_cases hskip : PrologueSkipped F.isPhysRegUsed F.mf
  · obtain ⟨hentry, hoff, h0⟩ := entry_eq_nil hskip hroom
    have hf : ¬hasFP F.mf = true := fun hf => by
      have hsize := F.size_eq
      rw [fpBytes, if_pos hf] at hsize
      omega
    have hbase : F.base (s.reg .SP) = s.reg .SP := by
      rw [base, h0]
      exact BitVec.sub_zero _
    exact ⟨s, by rw [hentry]; rfl, hbase.symm, (if_neg hf).symm, .refl, fun _ _ => rfl, by simp [hoff]⟩
  · obtain ⟨⟨s₂, hrun⟩, hst⟩ := stores_entry hskip s
    obtain ⟨s₁, h₁, he, hk, -⟩ := stores_emitPrologue (show ¬(stackWord (adjustRigelStackFrame
      (layoutFrame F.isPhysRegUsed F.mf)) = 0 ∧ _) from hskip) s
    have hrun' := hrun
    rw [insertPrologEpilog_entry, run_append, h₁, Option.bind_some] at hrun'
    have hk₂ := keeps_insertCSRSpills _ (csi_calleeSaved F.isPhysRegUsed F.mf) hrun'
    have hbase : s.reg .SP - stackWord (adjustRigelStackFrame (layoutFrame F.isPhysRegUsed F.mf)) =
        F.base (s.reg .SP) := by
      rw [base, ← stackWord_finished]
      rfl
    have heq := savedStores_eq h s
    have hpair : (stores F.entry s).Pairwise fun x y => (word x.address).Disjoint (word y.address) := by
      refine (hst.pairwise_iff fun {x y} hd a hy hx => hd a hx hy).mpr ?_
      rw [heq]
      refine List.pairwise_map.mpr (savedOffsets_apart.imp_of_mem fun {x y} hx hy hxy => ?_)
      exact word_disjoint_of_offsets _ (savedOffsets_le hx) (savedOffsets_le hy) hroom hxy
    refine ⟨s₂, hrun, ?_, ?_, fun r hr => ?_, ?_, fun x hx => ?_⟩
    · rw [hk₂ .SP (by decide), he.sp, hbase]
    · rw [hk₂ .FP (by decide), he.fp, hasFP_adjust, (layoutFrame_hasFP F.isPhysRegUsed F.mf).1, hbase]
    · rw [hk₂ r (by simp only [List.mem_cons, not_or] at hr ⊢; exact ⟨hr.1, List.not_mem_nil⟩), hk r hr]
    · intro a ha
      refine unchanged_run hrun a fun R hR => ha R ?_
      obtain ⟨x, hx, rfl⟩ := List.mem_map.mp hR
      exact List.mem_map.mpr ⟨x, hst.mem_iff.mp hx, rfl⟩
    · refine readWord_run hrun hpair (x := ⟨x.1, F.base (s.reg .SP) + BitVec.ofNat 32 x.2, s.reg x.1⟩)
        (hst.mem_iff.mpr ?_)
      rw [heq]
      exact List.mem_map_of_mem hx

/-- A reload loads its register from its slot, and changes no other than `AT`. -/
theorem run_reload (mf : MachineFunction) {r : Reg} (hr : r ∈ getCalleeSavedRegs) (fi : Int) (s : State) :
    ∃ s', run (eliminateFrameIndex mf (loadRegFromStackSlot r fi)) s = some s' ∧ s'.mem = s.mem ∧
      s.Keeps [.AT, r] s' ∧ s'.reg r = s.mem.readWord (fiAddress mf fi 0 s) := by
  obtain ⟨ha, -⟩ := allocatable_of_calleeSaved r hr
  have hi : loadRegFromStackSlot r fi = (FrameAccess.lw ⟨r, ha⟩).instr fi 0 := rfl
  have hmem : (fiState mf fi 0 s).mem = s.mem := by
    unfold fiState
    split <;> rfl
  have hrun := run_eliminateFrameIndex mf (FrameAccess.lw ⟨r, ha⟩) fi 0 s
  rw [← hi] at hrun
  refine ⟨_, hrun, hmem, ?_, ?_⟩
  · refine .setReg ?_ (by simp) _
    unfold fiState
    split
    · exact .refl
    · exact State.Keeps.refl.setReg (by simp) _
  · simp only [FrameAccess.effect, State.reg_setReg, (ne_of_allocatable ha).1, if_false, if_true, hmem]

/-- The reloads load the registers from their slots. -/
theorem run_reloads (mf : MachineFunction) (csi : List CalleeSavedInfo) (h : ∀ c ∈ csi, c.reg ∈ getCalleeSavedRegs)
    (hn : (csi.map (·.reg)).Nodup) (s : State) :
    ∃ s', run ((csi.map fun c => loadRegFromStackSlot c.reg c.frameIdx).flatMap (eliminateFrameIndex mf)) s =
      some s' ∧
      s'.mem = s.mem ∧ s.Keeps (.AT :: csi.map (·.reg)) s' ∧
      ∀ c ∈ csi, s'.reg c.reg = s.mem.readWord (fiAddress mf c.frameIdx 0 s) := by
  induction csi generalizing s with
  | nil => exact ⟨s, rfl, rfl, .refl, nofun⟩
  | cons c csi ih =>
    rw [List.map_cons, List.nodup_cons] at hn
    have hc := h c (List.mem_cons_self ..)
    obtain ⟨t, ht, hm, hk, hr⟩ := run_reload mf hc c.frameIdx s
    obtain ⟨u, hu, hm', hk', hr'⟩ := ih (fun c hc => h c (List.mem_cons_of_mem _ hc)) hn.2 t
    obtain ⟨-, hat, hsp, hfp, -⟩ := allocatable_of_calleeSaved _ hc
    refine ⟨u, by rw [List.map_cons, List.flatMap_cons, run_append, ht]; exact hu, hm'.trans hm, fun r hr => ?_, ?_⟩
    · simp only [List.map_cons, List.mem_cons, not_or] at hr
      rw [hk' r (by simp [hr]), hk r (by simp [hr])]
    · refine List.forall_mem_cons.mpr ⟨?_, fun d hd => ?_⟩
      · rw [hk' c.reg (by simp only [List.mem_cons, not_or]; exact ⟨hat, hn.1⟩), hr]
      · -- the frame register is not one of those that are loaded
        have haddr : fiAddress mf d.frameIdx 0 t = fiAddress mf d.frameIdx 0 s := by
          have hf : t.reg (getFrameRegister mf) = s.reg (getFrameRegister mf) := by
            refine hk _ ?_
            unfold getFrameRegister
            split
            · simp [Ne.symm hfp]
            · simp [Ne.symm hsp]
          simp only [fiAddress, hf, hk .SP (by simp [Ne.symm hsp])]
        rw [hr' d hd, hm, haddr]

/-- What an instruction leaves alone: all registers but its first operand, and memory if
it is no store. -/
theorem reg_exec {mi : MachineInstr} {s s' : State} (h : exec mi s = some s') {r : Reg}
    (hr : mi.operands.head? ≠ some (.reg r)) : s'.reg r = s.reg r := by
  have hset {d : Reg} (hd : r ≠ d) (v : Word) : (s.setReg d v).reg r = s.reg r :=
    (State.Keeps.refl.setReg (List.mem_singleton_self d) v) r (by simpa using hd)
  unfold exec at h
  split at h <;> cases h <;> first
    | rfl
    | exact hset (by rintro rfl; simp_all) _

/-- Instructions that write no other registers, and store nothing. -/
theorem keeps_run {rs : List Reg} {mis : List MachineInstr}
    (h : ∀ mi ∈ mis, (mi.opcode ≠ .sw ∧ mi.opcode ≠ .swfp) ∧ ∀ r, mi.operands.head? = some (.reg r) → r ∈ rs)
    {s s' : State} (hs : run mis s = some s') : s'.mem = s.mem ∧ s.Keeps rs s' := by
  refine ⟨?_, fun r hr => ?_⟩
  · rw [mem_run hs, stores_eq_nil (fun mi hmi => (h mi hmi).1) s]
    rfl
  · induction mis generalizing s with
    | nil => exact congrArg (State.reg · r) (Option.some.inj hs).symm
    | cons mi mis ih =>
      obtain ⟨t, ht, hrun⟩ := Option.bind_eq_some_iff.mp hs
      rw [ih (fun x hx => h x (List.mem_cons_of_mem _ hx)) hrun]
      exact reg_exec ht fun he => hr ((h mi (List.mem_cons_self ..)).2 r he)

/-- The epilogue. -/
theorem keeps_emitEpilogue {mf : MachineFunction} {s s' : State} (h : run (emitEpilogue mf) s = some s') :
    s'.mem = s.mem ∧ s.Keeps [.AT, .SP, .FP, .RA] s' := by
  refine keeps_run (fun mi hmi => ?_) h
  have hgive (w : Word) (hmi : mi ∈ giveBack w) : (mi.opcode ≠ .sw ∧ mi.opcode ≠ .swfp) ∧
      ∀ r, mi.operands.head? = some (.reg r) → r ∈ [Reg.AT, .SP, .FP, .RA] := by
    unfold giveBack at hmi
    split at hmi <;> simp only [List.mem_cons, List.not_mem_nil, or_false] at hmi
    · subst hmi; simp
    · rcases hmi with rfl | rfl | rfl <;> simp
  have hra (hmi : mi ∈ accessRA .lw mf.functionInfo.raStackOffset) : (mi.opcode ≠ .sw ∧ mi.opcode ≠ .swfp) ∧
      ∀ r, mi.operands.head? = some (.reg r) → r ∈ [Reg.AT, .SP, .FP, .RA] := by
    unfold accessRA at hmi
    split at hmi <;> simp only [List.mem_cons, List.not_mem_nil, or_false] at hmi
    · subst hmi; simp
    · rcases hmi with rfl | rfl | rfl | rfl <;> simp
  rcases List.mem_append.mp hmi with hmi | hmi
  · split at hmi
    · simp only [restoreFP, List.mem_cons, List.not_mem_nil, or_false] at hmi
      rcases hmi with rfl | rfl <;> simp
    · cases hmi
  · split at hmi
    · cases hmi
    · rcases List.mem_append.mp hmi with hmi | hmi
      · split at hmi
        · exact hra hmi
        · cases hmi
      · exact hgive _ hmi

theorem hasFP_finished : hasFP F.finished = hasFP F.mf := hasFP_finishFrame ..

/-- The frame register is the base that `FP` and `SP` are, where they are in use. -/
theorem reg_frameRegister_finished {s : State} {base : Word} (hf : hasFP F.mf = true → s.reg .FP = base)
    (hv : F.mf.frameInfo.hasVarSizedObjects = false → s.reg .SP = base) :
    s.reg (getFrameRegister F.finished) = base := by
  rw [getFrameRegister, hasFP_finished]
  split
  · exact hf ‹_›
  · rename_i hnf
    rw [hasFP, Bool.or_eq_true, not_or, Bool.not_eq_true, Bool.not_eq_true] at hnf
    exact hv hnf.2

/-- Reloads are made at the addresses of the spills. -/
theorem fiAddress_slot (h : F.Restorable) {s : State} {base : Word} (hf : hasFP F.mf = true → s.reg .FP = base)
    (hv : F.mf.frameInfo.hasVarSizedObjects = false → s.reg .SP = base) {k : Nat}
    (hk : k < (savedRegs F.isPhysRegUsed).length) :
    fiAddress F.finished (F.mf.frameInfo.objects.length + ((savedRegs F.isPhysRegUsed).length - 1 - k) : Nat) 0 s =
      base + BitVec.ofNat 32 (alignUp (fixedEnd F.mf.frameInfo) 4 + 4 * k) := by
  have hend : alignUp (fixedEnd F.mf.frameInfo) 4 + 4 * (savedRegs F.isPhysRegUsed).length ≤ 2 ^ 31 := h.saved
  have hsp : F.mf.frameInfo.hasVarSizedObjects = true →
      alignUp (fixedEnd F.mf.frameInfo) 4 + 4 * (savedRegs F.isPhysRegUsed).length ≤ 2 ^ 15 := h.near
  simp only [fiAddress, frameOffset_slot h hk, Int.add_zero]
  rw [toInt32_of_lt (by omega)]
  split
  · rw [reg_frameRegister_finished hf hv, BitVec.ofInt_natCast]
  · rename_i hfar
    rw [isInt16_iff] at hfar
    rw [hv (by by_contra hvar; have := hsp (by simpa using hvar); omega), BitVec.ofInt_natCast]

theorem csi_reverse_reg : F.csi.reverse.map (·.reg) = (savedRegs F.isPhysRegUsed).reverse := by
  rw [csi_reverse, List.map_map]
  exact List.zipIdx_map_fst ..

/-- The code behind the body loads the registers from their offsets, and gives the
frame back. -/
theorem run_exit (h : F.Restorable) (hroom : F.size < 2 ^ 32) (s : State) (base : Word)
    (hf : hasFP F.mf = true → s.reg .FP = base)
    (hv : F.mf.frameInfo.hasVarSizedObjects = false → s.reg .SP = base) :
    ∃ s', run F.exit s = some s' ∧ s'.mem = s.mem ∧ s'.reg .SP = base + BitVec.ofNat 32 F.size ∧
      (∀ x ∈ F.savedOffsets, s'.reg x.1 = s.mem.readWord (base + BitVec.ofNat 32 x.2)) ∧
      ∀ r ∉ .AT :: .SP :: F.savedOffsets.map Prod.fst, s'.reg r = s.reg r := by
  obtain ⟨t, ht, hm, hk, hload⟩ := run_reloads F.finished F.csi.reverse
    (fun c hc => csi_calleeSaved F.isPhysRegUsed F.mf c (List.mem_reverse.mp hc))
    (by rw [csi_reverse_reg]; exact List.nodup_reverse.mpr (savedRegs_nodup _)) s
  obtain ⟨u, hu, hl⟩ := run_emitEpilogue F.finished t
  obtain ⟨hm', hkeep⟩ := keeps_emitEpilogue hu
  rw [csi_reverse_reg] at hk
  have hreserved {r : Reg} (hr : r ∉ getCalleeSavedRegs) (ha : r ≠ .AT) : t.reg r = s.reg r :=
    hk r (by simp only [List.mem_cons, List.mem_reverse, not_or]; exact ⟨ha, fun hs => hr (mem_savedRegs hs)⟩)
  have hframe : t.reg (getFrameRegister F.finished) = base :=
    reg_frameRegister_finished (fun h => (hreserved (by decide) (by decide)).trans (hf h))
      fun h => (hreserved (by decide) (by decide)).trans (hv h)
  have hsize := F.size_eq
  refine ⟨u, by rw [exit, insertCSRRestores, ← List.map_reverse, run_append, ht]; exact hu, hm'.trans hm, ?_, ?_, ?_⟩
  · rw [hl.sp, hframe, stackWord_finished]
  · intro x hx
    rcases mem_savedOffsets hx with ⟨rfl, hc⟩ | ⟨rfl, hfp⟩ | ⟨k, hk', he⟩
    · have h0 : stackWord F.finished ≠ 0 := fun h0 => by
        have := congrArg BitVec.toNat (stackWord_finished.symm.trans h0)
        rw [BitVec.toNat_ofNat, Nat.mod_eq_of_lt hroom, hsize, raBytes, if_pos hc] at this
        exact absurd this (by simp)
      rw [hl.ra, if_pos ⟨(hasCalls_finishFrame ..).trans hc, h0⟩, hm, hframe, raAddress_finished hc]
    · rw [hl.fp, if_pos (hasFP_finished.trans hfp), hm, hframe, fpAddress_finished h hfp]
    · -- a callee-saved register, which the epilogue keeps
      obtain ⟨-, hat, hsp, hfp, hra⟩ := allocatable_of_calleeSaved _
        (mem_savedRegs (List.mem_reverse.mp (List.mem_of_getElem? hk')))
      have hc : ⟨x.1, F.mf.frameInfo.objects.length + ((savedRegs F.isPhysRegUsed).length - 1 - k)⟩ ∈
          F.csi.reverse := by
        rw [csi_reverse]
        exact List.mem_map.mpr ⟨(x.1, k), List.mk_mem_zipIdx_iff_getElem?.mpr hk', rfl⟩
      rw [hkeep x.1 (by simp [hat, hsp, hfp, hra]), hload _ hc, fiAddress_slot h hf hv (lt_of_getElem?_savedRegs hk'),
        he]
  · intro r hr
    rw [savedOffsets_fst] at hr
    simp only [List.mem_cons, List.mem_append, List.mem_reverse, not_or] at hr
    obtain ⟨hat, hsp, ⟨hra, hfp⟩, hs⟩ := hr
    have ht' : t.reg r = s.reg r := hk r (by simp [hat, hs])
    by_cases hrf : r = .FP
    · subst hrf
      have hnf : hasFP F.mf = false := by
        by_contra hf
        exact hfp (by simp [hf])
      rw [hl.fp, hasFP_finished, hnf, if_neg (by decide), ht']
    · by_cases hrr : r = .RA
      · subst hrr
        have hnc : F.mf.frameInfo.hasCalls = false := by
          by_contra hc
          exact hra (by simp [hc])
        rw [hl.ra, finished, hasCalls_finishFrame, hnc, if_neg (by simp), ht']
      · rw [hkeep r (by simp [hat, hsp, hrf, hrr]), ht']

/-! ## Calls are transparent -/

theorem Own.refl {kept : List Region} {base : Word} {s : State} (h : (s.reg .SP).toNat ≤ base.toNat) :
    F.Own kept base s s :=
  ⟨rfl, fun _ => rfl, h, fun _ => rfl, fun _ _ _ => rfl, fun _ _ _ _ => rfl⟩

theorem Own.trans {kept : List Region} {base : Word} {s t u : State} (h : F.Own kept base s t)
    (h' : F.Own kept base t u) : F.Own kept base s u where
  fp := h'.fp.trans h.fp
  sp := fun hv => (h'.sp hv).trans (h.sp hv)
  sp_le := h'.sp_le
  ra := fun hc => (h'.ra hc).trans (h.ra hc)
  unused := fun r hr hu => (h'.unused r hr hu).trans (h.unused r hr hu)
  kept := fun R hR a ha => (h'.kept R hR a ha).trans (h.kept R hR a ha)

end Function

/-- The regions lie at or above an address, and do not wrap around. -/
def Above (b : Word) (kept : List Region) : Prop :=
  ∀ R ∈ kept, b.toNat ≤ R.base.toNat ∧ R.base.toNat + R.len ≤ 2 ^ 32

/-- What a call leaves as it was, for its caller and for the functions up the tree. -/
structure Transparent (kept : List Region) (s s' : State) : Prop where
  regs : ∀ r ∈ [Reg.SP, .FP, .RA] ++ getCalleeSavedRegs, s'.reg r = s.reg r
  kept : ∀ R ∈ kept, ∀ a, R.Contains a → s'.mem a = s.mem a

namespace Function

variable {F : Function}

theorem toNat_base {sp : Word} (hroom : F.size ≤ sp.toNat) : (F.base sp).toNat = sp.toNat - F.size := by
  have := sp.isLt
  rw [base, BitVec.toNat_sub, BitVec.toNat_ofNat]
  omega

/-- The slots are between the base of the frame and `SP` on entry. -/
theorem slots_within (h : F.Restorable) {s : State} (hroom : F.size ≤ (s.reg .SP).toNat) {R : Region}
    (hR : R ∈ F.slots s) : ∃ x ∈ F.savedOffsets, R = word (F.base (s.reg .SP) + BitVec.ofNat 32 x.2) ∧
      (F.base (s.reg .SP)).toNat ≤ R.base.toNat ∧ R.base.toNat + R.len ≤ (s.reg .SP).toNat := by
  rw [slots, savedStores_eq h, List.map_map] at hR
  obtain ⟨x, hx, rfl⟩ := List.mem_map.mp hR
  have hle := savedOffsets_le hx
  have hb := toNat_base hroom
  have hlt := (s.reg .SP).isLt
  refine ⟨x, hx, rfl, ?_⟩
  simp only [Function.comp_apply, BitVec.toNat_add, BitVec.toNat_ofNat]
  omega

/-- A call is transparent if its body leaves the slots alone, and the words above. -/
theorem transparent (h : F.Restorable) {kept : List Region} {s s₁ s₂ s₃ : State}
    (hroom : F.size ≤ (s.reg .SP).toNat) (habove : Above (s.reg .SP) kept) (h₁ : run F.entry s = some s₁)
    (hbody : F.Own (F.slots s ++ kept) (F.base (s.reg .SP)) s₁ s₂) (h₃ : run F.exit s₂ = some s₃) :
    Transparent kept s s₃ := by
  have hlt : F.size < 2 ^ 32 := hroom.trans_lt (s.reg .SP).isLt
  obtain ⟨t, ht, he⟩ := run_entry h (s := s) hlt
  obtain rfl := Option.some.inj (ht.symm.trans h₁)
  obtain ⟨u, hu, hmem, hsp, hload, hkeep⟩ := run_exit h hlt s₂ (F.base (s.reg .SP))
    (fun hf => by rw [hbody.fp, he.fp, if_pos hf]) (fun hv => by rw [hbody.sp hv, he.sp])
  obtain rfl := Option.some.inj (hu.symm.trans h₃)
  -- a register that is saved is loaded from its slot, and another one is not written
  have hreg (r : Reg) (hne : r ≠ .AT ∧ r ≠ .SP)
      (hother : r ∉ F.savedOffsets.map Prod.fst → s₂.reg r = s.reg r) : u.reg r = s.reg r := by
    by_cases hr : r ∈ F.savedOffsets.map Prod.fst
    · obtain ⟨x, hx, rfl⟩ := List.mem_map.mp hr
      have hslot : word (F.base (s.reg .SP) + BitVec.ofNat 32 x.2) ∈ F.slots s ++ kept := by
        refine List.mem_append_left _ ?_
        rw [slots, savedStores_eq h, List.map_map]
        exact List.mem_map.mpr ⟨x, hx, rfl⟩
      rw [hload x hx, Mem.readWord_congr fun a ha => hbody.kept _ hslot a ha, he.saved x hx]
    · rw [hkeep r (by simp only [List.mem_cons, not_or]; exact ⟨hne.1, hne.2, hr⟩), hother hr]
  refine ⟨fun r hr => ?_, fun R hR a ha => ?_⟩
  · simp only [List.cons_append, List.nil_append, List.mem_cons] at hr
    rcases hr with rfl | rfl | rfl | hr
    · rw [hsp, base, BitVec.sub_add_cancel]
    · refine hreg _ (by decide) fun hn => ?_
      have hf : ¬hasFP F.mf = true := fun hf => hn (by rw [savedOffsets_fst]; simp [hf])
      rw [hbody.fp, he.fp, if_neg hf]
    · refine hreg _ (by decide) fun hn => ?_
      have hc : ¬F.mf.frameInfo.hasCalls = true := fun hc => hn (by rw [savedOffsets_fst]; simp [hc])
      rw [hbody.ra (by simpa using hc), he.keeps .RA (by decide)]
    · obtain ⟨-, hat, hsp', hfp, -⟩ := allocatable_of_calleeSaved r hr
      refine hreg r ⟨hat, hsp'⟩ fun hn => ?_
      have hu : ¬F.isPhysRegUsed r = true := fun hu => hn (by
        rw [savedOffsets_fst]
        exact List.mem_append_right _ (List.mem_reverse.mpr (List.mem_filter.mpr ⟨hr, hu⟩)))
      rw [hbody.unused r hr (by simpa using hu), he.keeps r (by simp [hat, hsp', hfp])]
  · rw [hmem, hbody.kept R (List.mem_append_right _ hR) a ha]
    refine he.unchanged a fun S hS hSa => ?_
    obtain ⟨-, -, -, -, hend⟩ := slots_within h hroom hS
    exact Region.disjoint_of_le (hend.trans (habove R hR).1) (habove R hR).2 a hSa ha

end Function

/-- What an execution keeps: a call is transparent, and a body does what it may do by
itself. -/
def Task.Keeps (kept : List Region) : Task → State → State → Prop
  | .call _, s, s' => Above (s.reg .SP) kept → Transparent kept s s'
  | .body F base, s, s' => (s.reg .SP).toNat ≤ base.toNat → Above base kept → F.Own kept base s s'

/-- The body of a call is entered with its frame below what is kept. -/
theorem Function.above {F : Function} (h : F.Restorable) (kept : List Region) {s : State}
    (hroom : F.size ≤ (s.reg .SP).toNat) (habove : Above (s.reg .SP) kept) :
    Above (F.base (s.reg .SP)) (F.slots s ++ kept) := by
  have hb := Function.toNat_base hroom
  intro R hR
  rcases List.mem_append.mp hR with hR | hR
  · obtain ⟨-, -, -, hle, hend⟩ := Function.slots_within h hroom hR
    exact ⟨hle, hend.trans (Nat.le_of_lt (s.reg .SP).isLt)⟩
  · have := habove R hR
    exact ⟨by omega, this.2⟩

/-- By induction over the tree of calls. -/
theorem Execution.keeps {program : Function → Prop} (h : ∀ F, program F → F.Restorable) {kept : List Region}
    {task : Task} {s s' : State} (hx : Execution program kept task s s') : task.Keeps kept s s' := by
  induction hx with
  | @call F kept s s₁ s₂ s₃ hF hroom h₁ _ h₃ ih =>
    intro habove
    have hres := h F hF
    have hb := Function.toNat_base hroom
    obtain ⟨t, ht, he⟩ := Function.run_entry hres (s := s) (hroom.trans_lt (s.reg .SP).isLt)
    obtain rfl := Option.some.inj (ht.symm.trans h₁)
    exact Function.transparent hres hroom habove h₁
      (ih (Nat.le_of_eq (congrArg _ he.sp)) (Function.above hres _ hroom habove)) h₃
  | done => exact fun hsp _ => .refl hsp
  | own hown _ ih => exact fun _ habove => hown.trans (ih hown.sp_le habove)
  | @nested F G kept base ra s t u hc _ _ ihcall ih =>
    intro hsp habove
    have hsp' : (s.setReg .RA ra).reg .SP = s.reg .SP := by simp
    have ht := ihcall fun R hR => ⟨by rw [hsp']; exact hsp.trans (habove R hR).1, (habove R hR).2⟩
    have hreg (r : Reg) (hr : r ∈ [Reg.SP, .FP, .RA] ++ getCalleeSavedRegs) (hne : r ≠ .RA) (hz : r ≠ .ZERO) :
        t.reg r = s.reg r := by
      rw [ht.regs r hr, State.reg_setReg, if_neg hz, if_neg hne]
    have hcs (r : Reg) (hr : r ∈ getCalleeSavedRegs) : t.reg r = s.reg r := by
      obtain ⟨ha, -, -, -, hra⟩ := allocatable_of_calleeSaved r hr
      exact hreg r (List.mem_append_right _ hr) hra (ne_of_allocatable ha).1
    have hspt : t.reg .SP = s.reg .SP := hreg .SP (by decide) (by decide) (by decide)
    have hown : F.Own kept base s t :=
      ⟨hreg .FP (by decide) (by decide) (by decide), fun _ => hspt, by rw [hspt]; exact hsp,
        fun hn => absurd (hc.symm.trans hn) (by decide), fun r hr _ => hcs r hr, ht.kept⟩
    exact hown.trans (ih hown.sp_le habove)

/-- A call returns if its body ends. -/
theorem Execution.exists_call (program : Function → Prop) (h : ∀ F, program F → F.Restorable) {F : Function}
    (hF : program F) (kept : List Region) {s : State} (hroom : F.size ≤ (s.reg .SP).toNat)
    (habove : Above (s.reg .SP) kept) (hbody : ∀ s₁, F.Entered s s₁ →
      ∃ s₂, Execution program (F.slots s ++ kept) (.body F (F.base (s.reg .SP))) s₁ s₂) :
    ∃ s', Execution program kept (.call F) s s' := by
  have hlt : F.size < 2 ^ 32 := hroom.trans_lt (s.reg .SP).isLt
  obtain ⟨s₁, h₁, he⟩ := Function.run_entry (h F hF) (s := s) hlt
  obtain ⟨s₂, hx⟩ := hbody s₁ he
  have hown := hx.keeps h (Nat.le_of_eq (congrArg _ he.sp)) (Function.above (h F hF) kept hroom habove)
  obtain ⟨s₃, h₃, -⟩ := Function.run_exit (h F hF) hlt s₂ (F.base (s.reg .SP))
    (fun hf => by rw [hown.fp, he.fp, if_pos hf]) (fun hv => by rw [hown.sp hv, he.sp])
  exact ⟨s₃, .call hF hroom h₁ hx h₃⟩

/-- In a program whose frames are all restorable, a call returns with `SP`, `FP`, `RA` and the
callee-saved registers as its caller had them, whatever is called in turn and to any
depth, and with the words above `SP` that the functions up the tree have saved
registers in. -/
theorem call_preserves {program : Function → Prop} (h : ∀ F, program F → F.Restorable) {kept : List Region}
    {F : Function} {s s' : State} (hx : Execution program kept (.call F) s s') (habove : Above (s.reg .SP) kept) :
    Transparent kept s s' :=
  hx.keeps h habove

/-- A function that uses `S0` and has calls. -/
def savingFunction : Function := ⟨callingFunction.mf, (· == .S0), callingFunction.created⟩

theorem savingFunction_restorable : savingFunction.Restorable := ⟨by decide, by decide, by decide⟩

/-- It overwrites `S0` and calls itself once. -/
theorem call_preserves_savingFunction : ∃ s',
    Execution (· = savingFunction) [word 0x2000] (.call savingFunction) (stateOf 0x1000 0 5 fun _ => 0) s' ∧
      Transparent [word 0x2000] (stateOf 0x1000 0 5 fun _ => 0) s' := by
  have h : ∀ F, F = savingFunction → F.Restorable := fun _ hF => hF ▸ savingFunction_restorable
  have habove : Above 0x1000 [word 0x2000] := by
    intro R hR
    obtain rfl := List.mem_singleton.mp hR
    decide
  have hsize : savingFunction.size = 12 := by decide
  obtain ⟨s', hx⟩ := Execution.exists_call (· = savingFunction) h rfl [word 0x2000]
    (s := stateOf 0x1000 0 5 fun _ => 0) (by rw [hsize]; decide) habove fun s₁ he => by
      have hab := Function.above savingFunction_restorable [word 0x2000]
        (s := stateOf 0x1000 0 5 fun _ => 0) (by rw [hsize]; decide) habove
      have hsp₁ : s₁.reg .SP = 0xFF4 := he.sp.trans (by rw [Function.base, hsize]; decide)
      have hsp₂ : ((s₁.setReg .S0 7).setReg .RA 0x400).reg .SP = 0xFF4 := by simp [hsp₁]
      obtain ⟨t, ht⟩ := Execution.exists_call (· = savingFunction) h rfl
        (savingFunction.slots (stateOf 0x1000 0 5 fun _ => 0) ++ [word 0x2000])
        (s := (s₁.setReg .S0 7).setReg .RA 0x400)
        (by rw [hsp₂, hsize]; decide) (by rw [hsp₂, ← hsp₁, he.sp]; exact hab) fun s₂ _ => ⟨s₂, .done⟩
      refine ⟨t, .own (t := s₁.setReg .S0 7) ⟨by simp, fun _ => by simp, ?_, fun _ => by simp, ?_, fun _ _ _ _ => rfl⟩
        (.nested rfl ht .done)⟩
      · rw [← he.sp]
        simp
      · intro r hr hu
        have hne : r ≠ .S0 := by
          rintro rfl
          cases hu
        rw [State.reg_setReg, if_neg hne]
        split <;> simp [*]
  exact ⟨s', hx, call_preserves h hx habove⟩

end Rigel
