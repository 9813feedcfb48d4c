import RigelCodegen.Call.Convention
import RigelCodegen.Flow.DeadInstructions

/-!
# Returned values

`LowerReturn` copies the words of a result to `V0` and `V1`, where `LowerCallResult`
takes them from in the caller, and the first return that is lowered makes these the
live-outs of the function. In a function with an `sret` argument it copies the pointer,
which `LowerFormalArguments` has put in a virtual register, to `V0`, too, but no return
makes this a live-out.

As long as instructions are only added, all of this does what it is for
(`Lowered.returns`). `DeadMachineInstructionElim` keeps the words of the results, but
deletes the copy of an `sret` pointer: `returnsSurvive_iff`.
-/

namespace Rigel.Return

open Word32 Liveness DeadElim

/-- The registers of `RetCC_Rigel`. -/
def retRegs : List Reg := [.V0, .V1]

/-- `RetCC_Rigel`: no result is promoted, and there are no more than two. -/
def retCCRigel (st : CCState) (vt : MVT) : Option CCState :=
  if vt = .i32 ∨ vt = .f32 then
    match st.allocateReg retRegs with
    | (some r, st) => some (st.addLoc ⟨vt, vt, .reg r⟩)
    | (none, _) => none
  else none

/-- `AnalyzeReturn`, with `RetCC_Rigel`. -/
def analyzeReturn (outs : List MVT) : Option CCState := outs.foldlM retCCRigel {}

/-- `AnalyzeCallResult`, with `RetCC_Rigel`. -/
def analyzeCallResult (ins : List MVT) : Option CCState := ins.foldlM retCCRigel {}

/-- The signature of a function, whose results can be assigned. A function with an
`sret` argument returns nothing, and the argument is the first one. -/
structure Signature where
  args : List Arg
  results : List MVT
  hasStructRetAttr : Bool
  assignable : (analyzeReturn results).isSome = true
  sret_void : hasStructRetAttr = true → results = []
  sret_first : hasStructRetAttr = true → args.head?.map Arg.vt = some .i32

/-! ## Lowering -/

/-- What the lowering of a function keeps in `MachineRegisterInfo`, in
`RigelFunctionInfo` and in `MachineFrameInfo`. -/
structure LowerState where
  liveOuts : List Reg := []
  sRetReturnReg : Option Nat := none
  nextVReg : Nat
  nextFI : Nat
  deriving DecidableEq, Repr

def LowerState.createVirtualRegister (st : LowerState) : Nat × LowerState :=
  (st.nextVReg, { st with nextVReg := st.nextVReg + 1 })

/-- The part of `LowerFormalArguments` for an `sret` argument: `InVals[0]` is copied
from its register, and to the virtual register of the pointer, which is made if there
is none yet. -/
def lowerFormalArguments (sig : Signature) (st : LowerState) : Option (List MI × LowerState) :=
  if sig.hasStructRetAttr then
    match (analyze sig.args).locs with
    | ⟨_, _, .reg r⟩ :: _ =>
      let (inVal, st) := st.createVirtualRegister
      let (reg, st) := st.sRetReturnReg.elim st.createVirtualRegister fun reg => (reg, st)
      some ([.copy (.virt inVal) (.phys r), .copy (.virt reg) (.virt inVal)], { st with sRetReturnReg := some reg })
    | _ => none
  else some ([], st)

/-- A value as an `i32`: `BIT_CONVERT` of an `f32` is expanded to a store to a stack
temporary and a load. -/
def bitConvert (vt : MVT) (v : Nat) (st : LowerState) : Option (List MI × Nat × LowerState) :=
  match vt with
  | .f32 =>
    let fi := st.nextFI
    let (w, st) := st.createVirtualRegister
    some ([.swfp (.virt v) fi, .lw (.virt w) fi], w, { st with nextFI := fi + 1 })
  | .i32 => some ([], v, st)
  | _ => none

/-- The loop of `LowerReturn`: conversions, and the copies, which are glued together. -/
def copyResults : List CCValAssign → List Nat → LowerState → Option (List MI × List MI × LowerState)
  | [], _, st => some ([], [], st)
  | ⟨vt, _, .reg r⟩ :: vas, v :: vs, st =>
    (bitConvert vt v st).bind fun (conv, src, st) => (copyResults vas vs st).map fun (convs, copies, st) =>
      (conv ++ convs, .copy (.phys r) (.virt src) :: copies, st)
  | _, _, _ => none

def regLoc? (va : CCValAssign) : Option Reg :=
  match va.loc with
  | .reg r => some r
  | .mem _ => none

/-- The first return that is lowered adds the live-outs. -/
def LowerState.addLiveOuts (st : LowerState) (rvLocs : List CCValAssign) : LowerState :=
  if st.liveOuts.isEmpty then { st with liveOuts := rvLocs.filterMap regLoc? } else st

/-- The copy of the `sret` pointer. -/
def sretCopy (sig : Signature) (st : LowerState) : Option (List MI) :=
  if sig.hasStructRetAttr then st.sRetReturnReg.map fun reg => [.copy (.phys .V0) (.virt reg)] else some []

/-- `LowerReturn`, but for `RET` itself. -/
def lowerReturn (sig : Signature) (outVals : List Nat) (st : LowerState) : Option (List MI × LowerState) :=
  (analyzeReturn sig.results).bind fun cc =>
    (copyResults cc.locs outVals (st.addLiveOuts cc.locs)).bind fun (convs, copies, st) =>
      (sretCopy sig st).map fun copy => (convs ++ copies ++ copy, st)

/-- The returns of the blocks `ls`, one after the other. -/
def lowerReturns (sig : Signature) (outVals : Nat → List Nat) :
    List Nat → LowerState → Option (List (Nat × List MI) × LowerState)
  | [], st => some ([], st)
  | l :: ls, st =>
    (lowerReturn sig (outVals l) st).bind fun (code, st) =>
      (lowerReturns sig outVals ls st).map fun (codes, st) => ((l, code) :: codes, st)

/-- A function before its `sret` argument and its returns are lowered, with the values
that each block returns. -/
structure Function (sig : Signature) where
  blocks : List Block
  outVals : Nat → List Nat
  nextVReg : Nat
  nextFI : Nat
  labels_nodup : (blocks.map Block.label).Nodup
  entry_no_preds : ∀ b ∈ blocks, ∀ l ∈ b.term.successors, blocks.head?.map Block.label ≠ some l
  outVals_length : ∀ b ∈ blocks, b.term = .ret → (outVals b.label).length = sig.results.length
  outVals_lt : ∀ b ∈ blocks, ∀ v ∈ outVals b.label, v < nextVReg
  phis_lt : ∀ b ∈ blocks, ∀ p ∈ b.phis, p.dst < nextVReg
  defs_lt : ∀ b ∈ blocks, ∀ mi ∈ b.instrs, ∀ v, .virt v ∈ mi.defs → v < nextVReg
  uses_lt : ∀ b ∈ blocks, ∀ v, .virt v ∈ b.uses → v < nextVReg
  noPhysLiveIn : NoPhysLiveIn [] blocks

namespace Function

variable {sig : Signature}

def returnLabels (f : Function sig) : List Nat := (f.blocks.filter (·.term.isReturn)).map Block.label

/-- A block of the function, with the code for the `sret` argument in front and the
code for its return behind. -/
def lowerBlock (f : Function sig) (entry : List MI) (codes : List (Nat × List MI)) (b : Block) : Block :=
  { b with instrs := (if f.blocks.head?.map Block.label = some b.label then entry else []) ++ b.instrs ++
    (codes.lookup b.label).getD [] }

/-- The function, with its returns lowered in an order. -/
def lower (f : Function sig) (order : List Nat) : Option MFunction :=
  (lowerFormalArguments sig { nextVReg := f.nextVReg, nextFI := f.nextFI }).bind fun (entry, st) =>
    (lowerReturns sig f.outVals order st).map fun (codes, st) =>
      ⟨f.blocks.map (f.lowerBlock entry codes), st.liveOuts⟩

end Function

/-- The copies of `LowerCallResult`, and the registers they are to. -/
def copyFromRegs : List CCValAssign → Nat → Option (List MI × List Nat)
  | [], _ => some ([], [])
  | ⟨_, _, .reg r⟩ :: vas, next => (copyFromRegs vas (next + 1)).map fun (code, inVals) =>
    (.copy (.virt next) (.phys r) :: code, next :: inVals)
  | _, _ => none

/-- `LowerCallResult`; `next` is the next virtual register of the caller. -/
def lowerCallResult (ins : List MVT) (next : Nat) : Option (List MI × List Nat) :=
  (analyzeCallResult ins).bind fun cc => copyFromRegs cc.locs next

/-- The registers of the results. -/
def resultRegs (sig : Signature) : List Reg := retRegs.take sig.results.length

/-- The location of a result. -/
def resultLoc (vt : MVT) (r : Reg) : CCValAssign := ⟨vt, vt, .reg r⟩

/-- What can be assigned, and where it goes. -/
theorem analyzeReturn_eq_some {vts : List MVT} {cc : CCState} (h : analyzeReturn vts = some cc) :
    vts.length ≤ 2 ∧ (∀ vt ∈ vts, vt = .i32 ∨ vt = .f32) ∧
      cc.locs = List.zipWith resultLoc vts (retRegs.take vts.length) := by
  match vts with
  | [] => exact ⟨Nat.zero_le 2, nofun, by cases h; rfl⟩
  | [a] => cases a <;> cases h <;> exact ⟨by decide, by decide, rfl⟩
  | [a, b] => cases a <;> cases b <;> cases h <;> exact ⟨by decide, by decide, rfl⟩
  | a :: b :: c :: vts => cases a <;> cases b <;> cases c <;> cases h

section Signatures

variable (sig : Signature)

theorem exists_analyzeReturn : ∃ cc, analyzeReturn sig.results = some cc := Option.isSome_iff_exists.mp sig.assignable

theorem length_resultRegs : sig.results.length = (resultRegs sig).length := by
  obtain ⟨cc, hcc⟩ := exists_analyzeReturn sig
  have hlen := (analyzeReturn_eq_some hcc).1
  simp only [resultRegs, retRegs, List.length_take, List.length_cons, List.length_nil]
  omega

theorem nodup_resultRegs : (resultRegs sig).Nodup :=
  (by decide : retRegs.Nodup).sublist (List.take_sublist _ _)

theorem sret_loc (h : sig.hasStructRetAttr = true) :
    ∃ vas, (analyze sig.args).locs = ⟨.i32, .i32, .reg .A0⟩ :: vas := by
  have hfirst := sig.sret_first h
  rw [analyze_locs]
  cases hargs : sig.args with
  | nil => rw [hargs] at hfirst; cases hfirst
  | cons a args =>
    rw [hargs] at hfirst
    rw [List.mapIdx_cons, Option.some.inj hfirst]
    exact ⟨_, rfl⟩

end Signatures

section Copies

variable {σ : Type} {S : Sem σ}

theorem run_copy_cons (dst src : MReg) (mis : List MI) (s : MState σ) :
    (lang S).run (.copy dst src :: mis) s = (lang S).run mis (set s dst (s.regs src)) := rfl

/-- The copies of a return are glued together, and read only virtual registers. -/
def copiesTo (rs : List Reg) (srcs : List Nat) : List MI :=
  List.zipWith (fun r src => .copy (.phys r) (.virt src)) rs srcs

theorem copiesTo_cons (r : Reg) (rs : List Reg) (src : Nat) (srcs : List Nat) :
    copiesTo (r :: rs) (src :: srcs) = .copy (.phys r) (.virt src) :: copiesTo rs srcs := rfl

theorem copiesTo_mem {rs : List Reg} {srcs : List Nat} {mi : MI} (h : mi ∈ copiesTo rs srcs) :
    ∃ r ∈ rs, ∃ src, mi = .copy (.phys r) (.virt src) := by
  obtain ⟨k, hk, rfl⟩ := List.mem_iff_getElem.mp h
  rw [copiesTo, List.length_zipWith] at hk
  exact ⟨rs[k], List.getElem_mem _, srcs[k], List.getElem_zipWith⟩

theorem copiesTo_defs {rs : List Reg} {srcs : List Nat} (hlen : rs.length = srcs.length) {r : Reg} (hr : r ∈ rs) :
    ∃ mi ∈ copiesTo rs srcs, .phys r ∈ mi.defs := by
  obtain ⟨k, hk, rfl⟩ := List.mem_iff_getElem.mp hr
  have hk' : k < (copiesTo rs srcs).length := by
    rw [copiesTo, List.length_zipWith]
    omega
  refine ⟨(copiesTo rs srcs)[k], List.getElem_mem hk', ?_⟩
  simp only [copiesTo, List.getElem_zipWith]
  exact List.mem_singleton_self _

theorem run_copiesTo {rs : List Reg} {srcs : List Nat} (hrs : rs.Nodup) (hlen : rs.length = srcs.length)
    (s : MState σ) : rs.map (fun r => ((lang S).run (copiesTo rs srcs) s).regs (.phys r)) =
      srcs.map fun v => s.regs (.virt v) := by
  induction rs generalizing srcs s with
  | nil => cases srcs <;> first | rfl | cases hlen
  | cons r rs ih =>
    cases srcs with
    | nil => cases hlen
    | cons src srcs =>
      rw [List.nodup_cons] at hrs
      -- the other copies are to other registers
      have hhead (t : MState σ) : ((lang S).run (copiesTo rs srcs) t).regs (.phys r) = t.regs (.phys r) := by
        refine Lang.run_regs (fun mi hmi hr => ?_) t
        obtain ⟨r', hr', src', rfl⟩ := copiesTo_mem hmi
        exact hrs.1 (MReg.phys.inj (List.mem_singleton.mp hr) ▸ hr')
      rw [copiesTo_cons, run_copy_cons, List.map_cons, List.map_cons, hhead, set_regs_self,
        ih hrs.2 (Nat.succ.inj hlen)]
      exact congrArg _ (List.map_congr_left fun v _ => set_regs_ne s _ nofun)

/-- A conversion keeps every register below the next one, and the value is in its
result. -/
structure Converts (st st' : LowerState) (code : List MI) : Prop where
  liveOuts : st'.liveOuts = st.liveOuts
  sRetReturnReg : st'.sRetReturnReg = st.sRetReturnReg
  nextVReg : st.nextVReg ≤ st'.nextVReg
  defs : ∀ mi ∈ code, ∀ x ∈ mi.defs, ∃ v, x = .virt v ∧ st.nextVReg ≤ v
  uses : ∀ mi ∈ code, ∀ r, .phys r ∉ mi.uses

theorem Converts.run_virt {st st' : LowerState} {code : List MI} (h : Converts st st' code) {v : Nat}
    (hv : v < st.nextVReg) (s : MState σ) : ((lang S).run code s).regs (.virt v) = s.regs (.virt v) := by
  refine Lang.run_regs (fun mi hmi hd => ?_) s
  obtain ⟨w, hw, hle⟩ := h.defs mi hmi _ hd
  cases hw
  omega

theorem Converts.nil (st : LowerState) : Converts st st [] :=
  ⟨rfl, rfl, Nat.le_refl _, List.forall_mem_nil _, List.forall_mem_nil _⟩

theorem Converts.append {st₁ st₂ st₃ : LowerState} {code code' : List MI} (h : Converts st₁ st₂ code)
    (h' : Converts st₂ st₃ code') : Converts st₁ st₃ (code ++ code') where
  liveOuts := h'.liveOuts.trans h.liveOuts
  sRetReturnReg := h'.sRetReturnReg.trans h.sRetReturnReg
  nextVReg := h.nextVReg.trans h'.nextVReg
  defs := List.forall_mem_append.mpr ⟨h.defs, fun mi hmi x hx =>
    have ⟨v, hv, hle⟩ := h'.defs mi hmi x hx
    ⟨v, hv, h.nextVReg.trans hle⟩⟩
  uses := List.forall_mem_append.mpr ⟨h.uses, h'.uses⟩

/-- What the conversion of an `i32` or an `f32` leaves has the same bits. -/
theorem bitConvert_spec {vt : MVT} (hvt : vt = .i32 ∨ vt = .f32) {v : Nat} {st : LowerState} (hv : v < st.nextVReg) :
    ∃ conv src st', bitConvert vt v st = some (conv, src, st') ∧ Converts st st' conv ∧ src < st'.nextVReg ∧
      ∀ (σ : Type) (S : Sem σ) (s : MState σ), ((lang S).run conv s).regs (.virt src) = s.regs (.virt v) := by
  rcases hvt with rfl | rfl
  · exact ⟨[], v, st, rfl, .nil st, hv, fun _ _ _ => rfl⟩
  · refine ⟨_, _, _, rfl, ⟨rfl, rfl, Nat.le_succ _, fun mi hmi x hx => ?_, fun mi hmi r hr => ?_⟩, Nat.lt_succ_self _,
      fun _ _ _ => ?_⟩
    · simp only [List.mem_cons, List.not_mem_nil, or_false] at hmi
      rcases hmi with rfl | rfl
      · cases hx
      · exact ⟨_, List.mem_singleton.mp hx, Nat.le_refl _⟩
    · simp only [List.mem_cons, List.not_mem_nil, or_false] at hmi
      rcases hmi with rfl | rfl
      · cases List.mem_singleton.mp hr
      · cases hr
    · exact (if_pos rfl).trans (if_pos rfl)

theorem copyResults_spec {vts : List MVT} (hvts : ∀ vt ∈ vts, vt = .i32 ∨ vt = .f32) {rs : List Reg} {vs : List Nat}
    (hrs : vts.length = rs.length) (hlen : vs.length = vts.length) {st : LowerState}
    (hvs : ∀ v ∈ vs, v < st.nextVReg) :
    ∃ convs srcs st', copyResults (List.zipWith resultLoc vts rs) vs st = some (convs, copiesTo rs srcs, st') ∧
      Converts st st' convs ∧ rs.length = srcs.length ∧
      ∀ (σ : Type) (S : Sem σ) (s : MState σ),
        srcs.map (fun v => ((lang S).run convs s).regs (.virt v)) = vs.map fun v => s.regs (.virt v) := by
  induction vts generalizing rs vs st with
  | nil =>
    obtain rfl : rs = [] := List.eq_nil_of_length_eq_zero hrs.symm
    obtain rfl : vs = [] := List.eq_nil_of_length_eq_zero hlen
    exact ⟨[], [], st, rfl, .nil st, rfl, fun _ _ _ => rfl⟩
  | cons vt vts ih =>
    obtain ⟨r, rs, rfl⟩ := List.exists_cons_of_length_eq_add_one hrs.symm
    obtain ⟨v, vs, rfl⟩ := List.exists_cons_of_length_eq_add_one hlen
    obtain ⟨conv, src, st₁, hconv, hc, hsrc, hval⟩ := bitConvert_spec (hvts vt (.head _)) (hvs v (.head _))
    obtain ⟨convs, srcs, st₂, hcopies, hcs, hl, hvals⟩ := ih (fun t ht => hvts t (.tail _ ht)) (Nat.succ.inj hrs)
      (Nat.succ.inj hlen) (fun w hw => (hvs w (.tail _ hw)).trans_le hc.nextVReg)
    refine ⟨conv ++ convs, src :: srcs, st₂, ?_, hc.append hcs, congrArg Nat.succ hl, fun σ S s => ?_⟩
    · rw [List.zipWith_cons_cons, resultLoc, copyResults, hconv, Option.bind_some]
      simp only [hcopies]
      rfl
    · rw [List.map_cons, List.map_cons, Lang.run_append, hcs.run_virt hsrc, hval, hvals]
      -- the values of the other words are kept by the first conversion
      exact congrArg _ (List.map_congr_left fun w hw => hc.run_virt (hvs w (.tail _ hw)) s)

/-- The caller reads the words of the results from the registers that they are in. -/
theorem copyFromRegs_spec {vts : List MVT} {rs : List Reg} (hrs : vts.length = rs.length) (next : Nat) :
    ∃ code inVals, copyFromRegs (List.zipWith resultLoc vts rs) next = some (code, inVals) ∧
      (∀ mi ∈ code, ∀ x ∈ mi.defs, ∃ v, x = .virt v ∧ next ≤ v) ∧
      ∀ (σ : Type) (S : Sem σ) (s : MState σ),
        inVals.map (fun v => ((lang S).run code s).regs (.virt v)) = rs.map fun r => s.regs (.phys r) := by
  induction vts generalizing rs next with
  | nil =>
    obtain rfl : rs = [] := List.eq_nil_of_length_eq_zero hrs.symm
    exact ⟨[], [], rfl, List.forall_mem_nil _, fun _ _ _ => rfl⟩
  | cons vt vts ih =>
    obtain ⟨r, rs, rfl⟩ := List.exists_cons_of_length_eq_add_one hrs.symm
    obtain ⟨code, inVals, hcode, hdefs, hvals⟩ := ih (Nat.succ.inj hrs) (next + 1)
    refine ⟨.copy (.virt next) (.phys r) :: code, next :: inVals, ?_, List.forall_mem_cons.mpr ⟨?_, ?_⟩,
      fun σ S s => ?_⟩
    · rw [List.zipWith_cons_cons, resultLoc, copyFromRegs, hcode]
      rfl
    · exact fun x hx => ⟨next, List.mem_singleton.mp hx, Nat.le_refl _⟩
    · exact fun mi hmi x hx =>
        have ⟨v, hv, hle⟩ := hdefs mi hmi x hx
        ⟨v, hv, Nat.le_of_succ_le hle⟩
    · have hhead : ∀ t : MState σ, ((lang S).run code t).regs (.virt next) = t.regs (.virt next) := fun t => by
        refine Lang.run_regs (fun mi hmi hd => ?_) t
        obtain ⟨v, hv, hle⟩ := hdefs mi hmi _ hd
        cases hv
        omega
      rw [run_copy_cons, List.map_cons, List.map_cons, hhead, set_regs_self, hvals]
      exact congrArg _ (List.map_congr_left fun r' _ => set_regs_ne s _ nofun)

end Copies

/-! ## The code of a return -/

/-- What the code of a return does; `reg` is the virtual register of the pointer. -/
structure ReturnCode (sig : Signature) (vals : List Nat) (reg : Option Nat) (code : List MI) : Prop where
  results : ∀ (σ : Type) (S : Sem σ) (s : MState σ),
    (resultRegs sig).map (fun r => ((lang S).run code s).regs (.phys r)) = vals.map fun v => s.regs (.virt v)
  sret : sig.hasStructRetAttr = true → ∀ v, reg = some v → ∀ (σ : Type) (S : Sem σ) (s : MState σ),
    ((lang S).run code s).regs (.phys .V0) = s.regs (.virt v)
  uses : ∀ mi ∈ code, ∀ r, .phys r ∉ mi.uses
  defs : ∀ r ∈ resultRegs sig, ∃ mi ∈ code, .phys r ∈ mi.defs

theorem filterMap_regLoc? {vts : List MVT} {rs : List Reg} (h : vts.length = rs.length) :
    (List.zipWith resultLoc vts rs).filterMap regLoc? = rs := by
  induction vts generalizing rs with
  | nil => exact (List.eq_nil_of_length_eq_zero h.symm).symm
  | cons vt vts ih =>
    obtain ⟨r, rs, rfl⟩ := List.exists_cons_of_length_eq_add_one h.symm
    exact congrArg (r :: ·) (ih (Nat.succ.inj h))

theorem addLiveOuts_eq {sig : Signature} {st : LowerState} (h : st.liveOuts = [] ∨ st.liveOuts = resultRegs sig) :
    st.addLiveOuts (List.zipWith resultLoc sig.results (resultRegs sig)) =
      { st with liveOuts := resultRegs sig } := by
  rw [LowerState.addLiveOuts, filterMap_regLoc? (length_resultRegs sig)]
  split
  · rfl
  · rename_i hne
    rw [← h.resolve_left fun h => hne (h ▸ rfl)]

theorem lowerReturn_spec {sig : Signature} {vals : List Nat} {st : LowerState}
    (hlen : vals.length = sig.results.length) (hlt : ∀ v ∈ vals, v < st.nextVReg)
    (hreg : sig.hasStructRetAttr = true → st.sRetReturnReg.isSome = true)
    (hlive : st.liveOuts = [] ∨ st.liveOuts = resultRegs sig) :
    ∃ code st', lowerReturn sig vals st = some (code, st') ∧ ReturnCode sig vals st.sRetReturnReg code ∧
      st'.liveOuts = resultRegs sig ∧ st'.sRetReturnReg = st.sRetReturnReg ∧ st.nextVReg ≤ st'.nextVReg := by
  obtain ⟨cc, hcc⟩ := exists_analyzeReturn sig
  obtain ⟨-, htypes, hlocs⟩ := analyzeReturn_eq_some hcc
  rw [← resultRegs] at hlocs
  obtain ⟨st₀, hst₀⟩ : ∃ st₀ : LowerState, st₀ = { st with liveOuts := resultRegs sig } := ⟨_, rfl⟩
  obtain ⟨convs, srcs, st', hcopies, hconv, hsrcs, hvals⟩ := copyResults_spec htypes (length_resultRegs sig) hlen
    (fun v hv => show v < st₀.nextVReg by rw [hst₀]; exact hlt v hv)
  have hlower : lowerReturn sig vals st =
      (sretCopy sig st').map fun copy => (convs ++ copiesTo (resultRegs sig) srcs ++ copy, st') := by
    rw [lowerReturn, hcc, Option.bind_some, hlocs, addLiveOuts_eq hlive, ← hst₀, hcopies]
    rfl
  have huses : ∀ mi ∈ copiesTo (resultRegs sig) srcs, ∀ r, .phys r ∉ mi.uses := fun mi hmi r hr => by
    obtain ⟨r', -, src, rfl⟩ := copiesTo_mem hmi
    cases List.mem_singleton.mp hr
  have hst' : st'.liveOuts = resultRegs sig ∧ st'.sRetReturnReg = st.sRetReturnReg ∧ st.nextVReg ≤ st'.nextVReg := by
    have h := And.intro hconv.liveOuts (And.intro hconv.sRetReturnReg hconv.nextVReg)
    rwa [hst₀] at h
  cases hs : sig.hasStructRetAttr with
  | false =>
    rw [sretCopy, hs] at hlower
    refine ⟨_, _, hlower, ⟨fun σ S s => ?_, fun h => ?_, ?_, fun r hr => ?_⟩, hst'⟩
    · rw [List.append_nil, Lang.run_append, run_copiesTo (nodup_resultRegs sig) hsrcs]
      exact hvals σ S s
    · rw [hs] at h
      cases h
    · exact List.forall_mem_append.mpr ⟨List.forall_mem_append.mpr ⟨hconv.uses, huses⟩, List.forall_mem_nil _⟩
    · obtain ⟨mi, hmi, hd⟩ := copiesTo_defs hsrcs hr
      exact ⟨mi, List.mem_append_left _ (List.mem_append_right _ hmi), hd⟩
  | true =>
    -- there are no results, so the copy of the pointer is all there is
    obtain ⟨reg, hreg⟩ := Option.isSome_iff_exists.mp (hreg hs)
    have hnil : resultRegs sig = [] := by rw [resultRegs, sig.sret_void hs]; rfl
    have hvals : vals = [] := List.eq_nil_of_length_eq_zero (by rw [hlen, sig.sret_void hs]; rfl)
    have hconvs : convs = [] := by
      rw [sig.sret_void hs] at hcopies
      exact (Prod.mk.inj (Option.some.inj hcopies)).1.symm
    rw [sretCopy, if_pos hs, hst'.2.1, hreg, hnil, hconvs] at hlower
    refine ⟨_, _, hlower, ⟨fun σ S s => ?_, fun _ v hv σ S s => ?_, ?_, fun r hr => ?_⟩, hst'⟩
    · rw [hnil, hvals]
      rfl
    · rw [hreg] at hv
      cases hv
      exact set_regs_self s (.phys .V0) (s.regs (.virt reg))
    · intro mi hmi r hr
      obtain rfl : mi = .copy (.phys .V0) (.virt reg) := List.mem_singleton.mp hmi
      cases List.mem_singleton.mp hr
    · rw [hnil] at hr
      cases hr

/-- The returns of some blocks: every one has its code, and there is no other code. -/
theorem lowerReturns_spec {sig : Signature} {outVals : Nat → List Nat} {n : Nat} {ls : List Nat} {st : LowerState}
    (hvals : ∀ l ∈ ls, (outVals l).length = sig.results.length ∧ ∀ v ∈ outVals l, v < n) (hn : n ≤ st.nextVReg)
    (hreg : sig.hasStructRetAttr = true → st.sRetReturnReg.isSome = true)
    (hlive : st.liveOuts = [] ∨ st.liveOuts = resultRegs sig) :
    ∃ codes st', lowerReturns sig outVals ls st = some (codes, st') ∧ (ls ≠ [] → st'.liveOuts = resultRegs sig) ∧
      (∀ l ∈ ls, ∃ code, codes.lookup l = some code ∧ ReturnCode sig (outVals l) st.sRetReturnReg code) ∧
      ∀ l, l ∉ ls → codes.lookup l = none := by
  induction ls generalizing st with
  | nil => exact ⟨[], st, rfl, fun h => (h rfl).elim, nofun, fun _ _ => rfl⟩
  | cons l ls ih =>
    obtain ⟨hlen, hlt⟩ := hvals l (.head _)
    obtain ⟨code, st₁, hcode, hspec, hlive₁, hreg₁, hn₁⟩ :=
      lowerReturn_spec hlen (fun v hv => (hlt v hv).trans_le hn) hreg hlive
    obtain ⟨codes, st₂, hcodes, hlive₂, hin, hout⟩ := ih (fun k hk => hvals k (.tail _ hk)) (hn.trans hn₁)
      (fun h => hreg₁ ▸ hreg h) (.inr hlive₁)
    refine ⟨(l, code) :: codes, st₂, ?_, fun _ => ?_, fun k hk => ?_, fun k hk => ?_⟩
    · rw [lowerReturns, hcode, Option.bind_some]
      simp only [hcodes]
      rfl
    · cases ls with
      | nil =>
        cases hcodes
        exact hlive₁
      | cons k ks => exact hlive₂ (List.cons_ne_nil k ks)
    · by_cases hkl : k = l
      · subst hkl
        exact ⟨code, List.lookup_cons_self, hspec⟩
      · rw [List.lookup_cons, beq_eq_false_iff_ne.mpr hkl]
        exact hreg₁ ▸ hin k (List.mem_of_ne_of_mem hkl hk)
    · rw [List.mem_cons, not_or] at hk
      rw [List.lookup_cons, beq_eq_false_iff_ne.mpr hk.1]
      exact hout k hk.2

/-- The code for the `sret` argument: it only defines new registers, and puts the pointer
in `reg`. -/
structure EntryCode (n : Nat) (reg : Option Nat) (entry : List MI) : Prop where
  defs : ∀ mi ∈ entry, ∀ x ∈ mi.defs, ∃ v, x = .virt v ∧ n ≤ v
  rest : ∀ (σ : Type) (S : Sem σ) (s : MState σ), ((lang S).run entry s).rest = s.rest
  pointer : ∀ v, reg = some v → n ≤ v ∧ ∀ (σ : Type) (S : Sem σ) (s : MState σ),
    ((lang S).run entry s).regs (.virt v) = s.regs (.phys .A0)

theorem lowerFormalArguments_spec (sig : Signature) (n fi : Nat) :
    ∃ entry st, lowerFormalArguments sig { nextVReg := n, nextFI := fi } = some (entry, st) ∧
      EntryCode n st.sRetReturnReg entry ∧ n ≤ st.nextVReg ∧ st.liveOuts = [] ∧
      (sig.hasStructRetAttr = true → st.sRetReturnReg.isSome = true) ∧
      (sig.hasStructRetAttr = false → entry = []) := by
  rw [lowerFormalArguments]
  cases hs : sig.hasStructRetAttr with
  | false =>
    exact ⟨[], _, rfl, ⟨List.forall_mem_nil _, fun _ _ _ => rfl, nofun⟩, Nat.le_refl n, rfl, nofun, fun _ => rfl⟩
  | true =>
    obtain ⟨vas, hloc⟩ := sret_loc sig hs
    rw [hloc]
    refine ⟨_, _, rfl, ⟨List.forall_mem_cons.mpr ⟨?_, List.forall_mem_singleton.mpr ?_⟩, fun _ _ _ => rfl, ?_⟩,
      Nat.le_add_right n 2, rfl, fun _ => rfl, nofun⟩
    · exact fun x hx => ⟨n, List.mem_singleton.mp hx, Nat.le_refl n⟩
    · exact fun x hx => ⟨n + 1, List.mem_singleton.mp hx, Nat.le_succ n⟩
    · intro v hv
      cases hv
      refine ⟨Nat.le_succ n, fun σ S s => ?_⟩
      simp only [run_copy_cons, set_regs_self]
      exact set_regs_self (set s (.virt n) (s.regs (.phys .A0))) (.virt (n + 1)) (s.regs (.phys .A0))

/-- A function whose lowering went well. -/
structure Lowered {sig : Signature} (f : Function sig) (entry : List MI) (codes : List (Nat × List MI))
    (reg : Option Nat) : Prop where
  entry : EntryCode f.nextVReg reg entry
  reg_isSome : sig.hasStructRetAttr = true → reg.isSome = true
  ret : ∀ b ∈ f.blocks, b.term = .ret →
    ∃ code, codes.lookup b.label = some code ∧ ReturnCode sig (f.outVals b.label) reg code
  br : ∀ b ∈ f.blocks, b.term ≠ .ret → codes.lookup b.label = none

theorem mem_returnLabels {sig : Signature} (f : Function sig) {b : Block} (hb : b ∈ f.blocks) :
    b.label ∈ f.returnLabels ↔ b.term = .ret := by
  simp only [Function.returnLabels, List.mem_map, List.mem_filter]
  constructor
  · rintro ⟨b', ⟨hb', hret⟩, hlabel⟩
    rw [List.inj_on_of_nodup_map f.labels_nodup hb' hb hlabel] at hret
    cases hterm : b.term with
    | ret => rfl
    | br n uses successors =>
      rw [hterm] at hret
      cases hret
  · exact fun hret => ⟨b, ⟨hb, by rw [hret]; rfl⟩, rfl⟩

/-- Returns can be lowered in any order. -/
theorem lower_spec {sig : Signature} (f : Function sig) {order : List Nat} (horder : order.Perm f.returnLabels) :
    ∃ entry codes reg liveOuts, f.lower order = some ⟨f.blocks.map (f.lowerBlock entry codes), liveOuts⟩ ∧
      Lowered f entry codes reg ∧ ((∃ b ∈ f.blocks, b.term = .ret) → liveOuts = resultRegs sig) ∧
      (sig.hasStructRetAttr = false → entry = []) := by
  obtain ⟨entry, st, hentry, hspec, hn, hlive, hreg, hnil⟩ := lowerFormalArguments_spec sig f.nextVReg f.nextFI
  have hvals : ∀ l ∈ order, (f.outVals l).length = sig.results.length ∧ ∀ v ∈ f.outVals l, v < f.nextVReg := by
    intro l hl
    obtain ⟨b, hb, rfl⟩ := List.mem_map.mp (horder.mem_iff.mp hl)
    have hb' := List.mem_of_mem_filter hb
    exact ⟨f.outVals_length b hb' ((mem_returnLabels f hb').mp (horder.mem_iff.mp hl)), f.outVals_lt b hb'⟩
  obtain ⟨codes, st', hcodes, hlive', hin, hout⟩ := lowerReturns_spec hvals hn hreg (.inl hlive)
  refine ⟨entry, codes, st.sRetReturnReg, st'.liveOuts, ?_, ⟨hspec, hreg, fun b hb hret => ?_, fun b hb hbr => ?_⟩,
    fun ⟨b, hb, hret⟩ => hlive' ?_, hnil⟩
  · rw [Function.lower, hentry, Option.bind_some]
    simp only [hcodes]
    rfl
  · exact hin _ (horder.mem_iff.mpr ((mem_returnLabels f hb).mpr hret))
  · exact hout _ fun h => hbr ((mem_returnLabels f hb).mp (horder.mem_iff.mp h))
  · exact List.ne_nil_of_mem (horder.mem_iff.mpr ((mem_returnLabels f hb).mpr hret))

section Simulation

variable {σ : Type} {S : Sem σ}

/-- The registers of a function before its lowering. -/
def below (n : Nat) : Set MReg
  | .phys _ => True
  | .virt v => v < n

/-- Code that only defines new registers, and writes no memory. -/
theorem agree_below_run {n : Nat} {mis : List MI} (hdefs : ∀ mi ∈ mis, ∀ x ∈ mi.defs, ∃ v, x = .virt v ∧ n ≤ v)
    {s : MState σ} (hrest : ((lang S).run mis s).rest = s.rest) : Agree (below n) s ((lang S).run mis s) := by
  refine ⟨fun x hx => (Lang.run_regs (fun mi hmi hd => ?_) s).symm, hrest.symm⟩
  obtain ⟨v, rfl, hle⟩ := hdefs mi hmi x hd
  exact Nat.not_lt.mpr hle hx

theorem phiValues_congr {pred : Option Nat} {ps : List Phi} {s t : MState σ}
    (h : ∀ p ∈ ps, ∀ x ∈ p.uses, s.regs x = t.regs x) : phiValues pred s ps = phiValues pred t ps := by
  induction ps with
  | nil => rfl
  | cons p ps ih =>
    rw [phiValues, phiValues, ih fun q hq => h q (.tail _ hq)]
    refine Option.bind_congr fun x hx => ?_
    rw [h p (.head _) _ (p.mem_uses hx)]

theorem phiValues_dst {pred : Option Nat} {ps : List Phi} {s : MState σ} {ws : List (Nat × Word)}
    (h : phiValues pred s ps = some ws) : ∀ w ∈ ws, ∃ p ∈ ps, w.1 = p.dst := by
  induction ps generalizing ws with
  | nil =>
    cases h
    exact List.forall_mem_nil _
  | cons p ps ih =>
    obtain ⟨x, -, hws⟩ := Option.bind_eq_some_iff.mp h
    obtain ⟨ws', hps, rfl⟩ := Option.map_eq_some_iff.mp hws
    refine List.forall_mem_cons.mpr ⟨⟨p, .head _, rfl⟩, fun w hw => ?_⟩
    obtain ⟨q, hq, hdst⟩ := ih hps w hw
    exact ⟨q, .tail _ hq, hdst⟩

theorem setAll_agree {L : Set MReg} (ws : List (Nat × Word)) {s t : MState σ} (h : Agree L s t) :
    Agree L (setAll s ws) (setAll t ws) := by
  induction ws generalizing s t with
  | nil => exact h
  | cons w ws ih => exact ih (set_agree _ _ (h.mono fun _ hx => hx.1))

theorem setAll_regs {ws : List (Nat × Word)} {x : MReg} (h : ∀ w ∈ ws, x ≠ .virt w.1) (s : MState σ) :
    (setAll s ws).regs x = s.regs x := by
  induction ws generalizing s with
  | nil => rfl
  | cons w ws ih => exact (ih (fun v hv => h v (.tail _ hv)) _).trans (set_regs_ne s _ (h w (.head _)))

variable {sig : Signature} {f : Function sig} {entry : List MI} {codes : List (Nat × List MI)} {reg : Option Nat}

/-- A state where block `l` is entered: it is the first one of the function, or the
pointer is in its register. -/
def PointerAt (f : Function sig) (reg : Option Nat) (s₀ : MState σ) (l : Nat) (s : MState σ) : Prop :=
  if f.blocks.head?.map Block.label = some l then s = s₀
  else ∀ v, reg = some v → s.regs (.virt v) = s₀.regs (.phys .A0)

theorem uses_below {b : Block} (hb : b ∈ f.blocks) {x : MReg} (hx : x ∈ b.uses) : x ∈ below f.nextVReg := by
  cases x with
  | phys r => trivial
  | virt v => exact f.uses_lt b hb v hx

/-- What is in front of a block puts the pointer in its register, or keeps it there. -/
theorem Lowered.front (h : Lowered f entry codes reg) {b : Block} (hb : b ∈ f.blocks) {pred : Option Nat}
    {s₀ s s' : MState σ} {ws : List (Nat × Word)} (hws : phiValues pred s b.phis = some ws)
    (hptr : PointerAt f reg s₀ b.label s') {front : List MI}
    (hfront : front = if f.blocks.head?.map Block.label = some b.label then entry else []) :
    Agree (below f.nextVReg) (setAll s' ws) ((lang S).run front (setAll s' ws)) ∧
      ∀ v, reg = some v → ((lang S).run front (setAll s' ws)).regs (.virt v) = s₀.regs (.phys .A0) := by
  have hdst : ∀ w ∈ ws, w.1 < f.nextVReg := fun w hw => by
    obtain ⟨p, hp, hdst⟩ := phiValues_dst hws w hw
    rw [hdst]
    exact f.phis_lt b hb p hp
  rw [PointerAt] at hptr
  split at hptr
  · rename_i hentry
    rw [if_pos hentry] at hfront
    subst hfront hptr
    refine ⟨agree_below_run h.entry.defs (h.entry.rest _ _ _), fun v hv => ?_⟩
    rw [(h.entry.pointer v hv).2, setAll_regs fun _ _ h => by cases h]
  · rename_i hentry
    rw [if_neg hentry] at hfront
    subst hfront
    refine ⟨.refl _ _, fun v hv => (setAll_regs (fun w hw hvw => ?_) s').trans (hptr v hv)⟩
    cases hvw
    exact Nat.not_lt.mpr (h.entry.pointer _ hv).1 (hdst w hw)

/-- A block does the same, up to the code of its return. -/
theorem Lowered.exec (h : Lowered f entry codes reg) {b : Block} (hb : b ∈ f.blocks) {pred : Option Nat}
    {s₀ s s' t : MState σ} (hs : Agree (below f.nextVReg) s s') (hptr : PointerAt f reg s₀ b.label s')
    (ht : b.exec S pred s = some t) :
    ∃ t', (f.lowerBlock entry codes b).exec S pred s' = some ((lang S).run ((codes.lookup b.label).getD []) t') ∧
      Agree (below f.nextVReg) t t' ∧ ∀ v, reg = some v → t'.regs (.virt v) = s₀.regs (.phys .A0) := by
  obtain ⟨ws, hws, rfl⟩ := Option.map_eq_some_iff.mp ht
  have hws' : phiValues pred s' b.phis = some ws := by
    rw [← hws]
    refine (phiValues_congr fun p hp x hx => hs.regs x (uses_below hb ?_)).symm
    exact mem_uses.mpr (.inl (List.mem_flatMap.mpr ⟨p, hp, hx⟩))
  obtain ⟨hfront, hpointer⟩ := h.front (S := S) hb hws hptr rfl
  refine ⟨_, ?_, Lang.run_agree (fun mi hmi x hx => uses_below hb ?_) ((setAll_agree ws hs).trans hfront),
    fun v hv => (Lang.run_regs (fun mi hmi hd => ?_) _).trans (hpointer v hv)⟩
  · rw [Block.exec, Function.lowerBlock, hws', Option.map_some, Lang.run_append, Lang.run_append]
  · exact mem_uses.mpr (.inr (.inl (List.mem_flatMap.mpr ⟨mi, hmi, hx⟩)))
  · exact Nat.not_lt.mpr (h.entry.pointer v hv).1 (f.defs_lt b hb mi hmi v hd)

theorem getBlock?_lowered (l : Nat) : getBlock? (f.blocks.map (f.lowerBlock entry codes)) l =
    (getBlock? f.blocks l).map (f.lowerBlock entry codes) := by
  have hlabel : ∀ b, (f.lowerBlock entry codes b).label = b.label := fun _ => rfl
  rw [getBlock?, Blocks.block?_map hlabel, getBlock?]

/-- Every execution up to a block is one of the function as it is lowered. -/
theorem Lowered.enters (h : Lowered f entry codes reg) {s₀ s : MState σ} {pred : Option Nat} {l : Nat}
    (hs : Enters S f.blocks s₀ pred l s) :
    ∃ s', Enters S (f.blocks.map (f.lowerBlock entry codes)) s₀ pred l s' ∧ Agree (below f.nextVReg) s s' ∧
      PointerAt f reg s₀ l s' := by
  induction hs with
  | @entry b hb =>
    refine ⟨s₀, .entry (b := f.lowerBlock entry codes b) ?_, .refl _ _, ?_⟩
    · rw [List.head?_map, hb]
      rfl
    · rw [PointerAt, hb, Option.map_some, if_pos rfl]
  | @next pred l l' n s t b uses successors _ hb ht hterm hl' ih =>
    obtain ⟨s', hs', hagree, hptr⟩ := ih
    obtain ⟨hmem, hlabel⟩ := Blocks.mem_of_block? hb
    obtain ⟨t', ht', hagree', hptr'⟩ := h.exec hmem hagree (hlabel ▸ hptr) ht
    have hcode : (codes.lookup b.label).getD [] = [] := by
      rw [h.br b hmem fun hret => by rw [hret] at hterm; cases hterm]
      rfl
    have huses : uses.map t.regs = uses.map t'.regs := List.map_congr_left fun x hx =>
      hagree'.regs x (uses_below hmem (mem_uses.mpr (.inr (.inr (by rwa [hterm])))))
    have hsucc : l' ∈ b.term.successors := by
      rw [hterm]
      exact List.mem_of_getElem? hl'
    rw [hcode] at ht'
    have hb' : getBlock? (f.blocks.map (f.lowerBlock entry codes)) l = some (f.lowerBlock entry codes b) := by
      rw [getBlock?_lowered, hb, Option.map_some]
    refine ⟨t', .next hs' hb' ht' hterm (by rw [← huses, hl']), hagree', ?_⟩
    · rw [PointerAt, if_neg (f.entry_no_preds b hmem l' hsucc)]
      exact hptr'

/-- The function returns as it is lowered: the words of the result are where the caller
reads them, and `V0` is the pointer if it has an `sret` argument. -/
theorem Lowered.returns (h : Lowered f entry codes reg) {s₀ s : MState σ} {l : Nat} (hs : Returns S f.blocks s₀ l s) :
    ∃ s', Returns S (f.blocks.map (f.lowerBlock entry codes)) s₀ l s' ∧
      (resultRegs sig).map (fun r => s'.regs (.phys r)) = (f.outVals l).map (fun v => s.regs (.virt v)) ∧
      (sig.hasStructRetAttr = true → s'.regs (.phys .V0) = s₀.regs (.phys .A0)) := by
  obtain ⟨pred, s₁, b, hs₁, hb, ht, hret⟩ := hs
  obtain ⟨s₁', hs₁', hagree, hptr⟩ := h.enters hs₁
  obtain ⟨hmem, rfl⟩ := Blocks.mem_of_block? hb
  obtain ⟨t', ht', hagree', hptr'⟩ := h.exec hmem hagree hptr ht
  obtain ⟨code, hcode, hspec⟩ := h.ret b hmem hret
  rw [hcode, Option.getD_some] at ht'
  refine ⟨_, ⟨pred, s₁', f.lowerBlock entry codes b, hs₁', by rw [getBlock?_lowered, hb, Option.map_some], ht', hret⟩,
    ?_, fun hsret => ?_⟩
  · rw [hspec.results]
    exact List.map_congr_left fun v hv => (hagree'.regs (.virt v) (f.outVals_lt b hmem v hv)).symm
  · obtain ⟨v, hv⟩ := Option.isSome_iff_exists.mp (h.reg_isSome hsret)
    rw [hspec.sret hsret v hv, hptr' v hv]

end Simulation

/-! ## Returns without dead instructions -/

/-- Returned values survive to the caller: for every function of the signature, and its
returns lowered in any order, an execution that returns also returns after dead
instructions are deleted. The caller's registers `c` are those of the function, and
`LowerCallResult` reads the values that the block returns from them; in a function with
an `sret` argument, `V0` is the pointer that was passed. -/
def ReturnsSurvive (sig : Signature) : Prop :=
  ∀ (f : Function sig) (order : List Nat), order.Perm f.returnLabels → ∃ F, f.lower order = some F ∧
    ∀ (σ : Type) (S : Sem σ) (s₀ s : MState σ) (l : Nat), Returns S f.blocks s₀ l s →
      ∃ s', Returns S (deadMachineInstructionElim F).blocks s₀ l s' ∧
        (∀ (c : MState σ) (next : Nat), (∀ r, c.regs (.phys r) = s'.regs (.phys r)) →
          ∃ code inVals, lowerCallResult sig.results next = some (code, inVals) ∧
            inVals.map (fun v => ((lang S).run code c).regs (.virt v)) =
              (f.outVals l).map fun v => s.regs (.virt v)) ∧
        (sig.hasStructRetAttr = true → s'.regs (.phys .V0) = s₀.regs (.phys .A0))

/-- The code of returns makes no more registers live into a block. -/
theorem Lowered.noPhysLiveIn {sig : Signature} {f : Function sig} {codes : List (Nat × List MI)} {reg : Option Nat}
    (h : Lowered f [] codes reg) {liveOuts : List Reg}
    (hlive : (∃ b ∈ f.blocks, b.term = .ret) → liveOuts = resultRegs sig) :
    NoPhysLiveIn liveOuts (f.blocks.map (f.lowerBlock [] codes)) := by
  intro b₁ hb₁ l hl b' hb' r hr
  obtain ⟨b, hb, rfl⟩ := List.mem_map.mp hb₁
  rw [getBlock?_lowered] at hb'
  obtain ⟨b₂, hb₂, rfl⟩ := Option.map_eq_some_iff.mp hb'
  have hmem : b₂ ∈ f.blocks := (Blocks.mem_of_block? hb₂).1
  refine f.noPhysLiveIn b hb l hl b₂ hb₂ r ?_
  rw [Block.physLiveIn, Function.lowerBlock, ite_self, List.nil_append, List.foldr_append] at hr
  refine foldr_liveBefore_mono (fun x hx => ?_) hr
  cases hterm : b₂.term with
  | br n uses successors =>
    have hbr : b₂.term ≠ .ret := fun he => by
      rw [hterm] at he
      cases he
    rw [h.br b₂ hmem hbr] at hx
    have hx : x ∈ exitLive liveOuts b₂.term := hx
    rwa [hterm] at hx
  | ret =>
    obtain ⟨code, hcode, hspec⟩ := h.ret b₂ hmem hterm
    rw [hcode, hterm, Option.getD_some] at hx
    obtain ⟨hx, hdefs⟩ := mem_foldr_liveBefore hspec.uses hx
    simp only [exitLive, Term.isReturn, if_true, List.mem_append, hlive ⟨b₂, hmem, hterm⟩] at hx
    rcases hx with (hx | hx) | hx
    · exact List.mem_append_left _ (List.mem_append_left _ hx)
    · -- the code defines the registers of the results
      obtain ⟨mi, hmi, hd⟩ := hspec.defs x hx
      exact (hdefs mi hmi hd).elim
    · exact List.mem_append_right _ hx

theorem returnsSurvive_of_not_sret {sig : Signature} (hsret : sig.hasStructRetAttr = false) : ReturnsSurvive sig := by
  intro f order horder
  obtain ⟨entry, codes, reg, liveOuts, hlower, h, hlive, hentry⟩ := lower_spec f horder
  obtain rfl : entry = [] := hentry hsret
  refine ⟨_, hlower, fun σ S s₀ s l hs => ?_⟩
  obtain ⟨s₁, hs₁, hresults, -⟩ := h.returns hs
  obtain ⟨s', hs', -, hregs⟩ := returns_dce (F := ⟨_, liveOuts⟩) (h.noPhysLiveIn hlive) hs₁
  refine ⟨s', hs', fun c next hc => ?_, fun h => by rw [hsret] at h; cases h⟩
  obtain ⟨cc, hcc⟩ := exists_analyzeReturn sig
  obtain ⟨code, inVals, hcode, -, hvals⟩ := copyFromRegs_spec (length_resultRegs sig) next
  refine ⟨code, inVals, ?_, ?_⟩
  · rw [lowerCallResult, show analyzeCallResult sig.results = some cc from hcc, Option.bind_some,
      (analyzeReturn_eq_some hcc).2.2]
    exact hcode
  · rw [hvals, ← hresults]
    refine List.map_congr_left fun r hr => ?_
    obtain ⟨-, -, b, -, hb, -, hret⟩ := hs
    have hlo : liveOuts = resultRegs sig := hlive ⟨b, List.mem_of_find?_eq_some hb, hret⟩
    rw [hc, hregs r (List.mem_append_right _ (hlo ▸ hr))]

/-- A function that returns at once. -/
def returnAtOnce (sig : Signature) (h : sig.hasStructRetAttr = true) : Function sig where
  blocks := [⟨0, [], [], .ret⟩]
  outVals _ := []
  nextVReg := 0
  nextFI := 0
  labels_nodup := List.nodup_singleton 0
  entry_no_preds := List.forall_mem_singleton.mpr nofun
  outVals_length := List.forall_mem_singleton.mpr fun _ => by rw [sig.sret_void h]; rfl
  outVals_lt := List.forall_mem_singleton.mpr nofun
  phis_lt := List.forall_mem_singleton.mpr nofun
  defs_lt := List.forall_mem_singleton.mpr nofun
  uses_lt := List.forall_mem_singleton.mpr fun v hv => by simp [Block.uses, Term.uses] at hv
  noPhysLiveIn := List.forall_mem_singleton.mpr nofun

theorem lower_returnAtOnce (sig : Signature) (h : sig.hasStructRetAttr = true) :
    (returnAtOnce sig h).lower [0] = some ⟨[⟨0, [], [.copy (.virt 0) (.phys .A0), .copy (.virt 1) (.virt 0),
      .copy (.phys .V0) (.virt 1)], .ret⟩], []⟩ := by
  obtain ⟨vas, hloc⟩ := sret_loc sig h
  simp only [Function.lower, lowerFormalArguments, if_pos h, hloc, Option.bind_some, lowerReturns, lowerReturn,
    sig.sret_void h, sretCopy]
  rfl

/-- Nothing is left of it. -/
theorem dce_returnAtOnce : deadMachineInstructionElim ⟨[⟨0, [], [.copy (.virt 0) (.phys .A0),
    .copy (.virt 1) (.virt 0), .copy (.phys .V0) (.virt 1)], .ret⟩], []⟩ = ⟨[⟨0, [], [], .ret⟩], []⟩ := by decide

/-- Instructions that do nothing. -/
def nopSem : Sem Unit := ⟨fun _ _ _ m => (fun _ => 0, m), fun _ _ => 0, fun _ _ _ _ _ => rfl⟩

theorem enters_of_ret {σ : Type} {S : Sem σ} {b : Block} (hb : b.term = .ret) {s₀ s : MState σ} {pred : Option Nat}
    {l : Nat} (h : Enters S [b] s₀ pred l s) : s = s₀ := by
  cases h with
  | entry => rfl
  | next _ hget _ hterm =>
    obtain rfl := List.mem_singleton.mp (Blocks.mem_of_block? hget).1
    rw [hb] at hterm
    cases hterm

/-- If a function with an `sret` argument returns at once, `V0` is what it was. -/
theorem not_returnsSurvive {sig : Signature} (h : sig.hasStructRetAttr = true) : ¬ ReturnsSurvive sig := by
  intro hsurvive
  obtain ⟨F, hF, hreturns⟩ := hsurvive (returnAtOnce sig h) [0] (.refl _)
  rw [lower_returnAtOnce] at hF
  obtain rfl := Option.some.inj hF
  -- `A0` is 1, and every other register 0
  obtain ⟨s₀, hs₀⟩ : ∃ s₀ : MState Unit, s₀ = ⟨fun x => if x = .phys .A0 then 1 else 0, fun _ => 0, ()⟩ := ⟨_, rfl⟩
  have hreturn : Returns nopSem (returnAtOnce sig h).blocks s₀ 0 s₀ :=
    ⟨none, s₀, ⟨0, [], [], .ret⟩, .entry (b := ⟨0, [], [], .ret⟩) rfl, rfl, rfl, rfl⟩
  obtain ⟨s', hs', -, hptr⟩ := hreturns Unit nopSem s₀ s₀ 0 hreturn
  rw [dce_returnAtOnce] at hs'
  obtain ⟨pred, s, b, hs, hb, ht, -⟩ := hs'
  obtain rfl : s = s₀ := enters_of_ret rfl hs
  obtain rfl : ⟨0, [], [], .ret⟩ = b := Option.some.inj hb
  obtain rfl : s = s' := Option.some.inj ht
  have hptr := hptr h
  rw [hs₀] at hptr
  exact absurd hptr (by decide)

/-- Returned values survive if and only if the function has no `sret` argument. -/
theorem returnsSurvive_iff (sig : Signature) : ReturnsSurvive sig ↔ sig.hasStructRetAttr = false := by
  refine ⟨fun h => ?_, returnsSurvive_of_not_sret⟩
  rw [← Bool.not_eq_true]
  exact fun hs => not_returnsSurvive hs h

/-- A function whose only argument is the pointer of a structure to return. -/
def structReturn : Signature where
  args := [{}]
  results := []
  hasStructRetAttr := true
  assignable := rfl
  sret_void _ := rfl
  sret_first _ := rfl

theorem structReturn_lost : ¬ ReturnsSurvive structReturn := not_returnsSurvive rfl

end Rigel.Return
