import RigelCodegen.Call.Agreement

/-!
# Variadic arguments

A variadic call stores its stack words behind 32 bytes for the registers; the
callee stores the registers of variadic words there, and `va_start` yields the
address of the first object it stored them in. `vaStart_iff` says for which
calls `va_arg` finds the variadic words.
-/

namespace Rigel

open Word32
open MachineFunction (Later)

/-- A variadic call, with at least one named word. -/
structure VariadicCall where
  named : List Arg
  variadic : List Arg
  named_pos : 1 ≤ named.length

def VariadicCall.sig (call : VariadicCall) : Signature where
  isVarArg := true
  named := call.named
  variadic := call.variadic
  variadic_eq := nofun

@[simp] theorem VariadicCall.sig_isVarArg (call : VariadicCall) : call.sig.isVarArg = true := rfl

@[simp] theorem VariadicCall.sig_named (call : VariadicCall) : call.sig.named = call.named := rfl

section Effects

variable {sig : Signature}

/-- The home slots, and the registers that are stored in them. -/
def Callee.homeWrites (D : Callee sig) (t' : State) : List (Word × Word) :=
  D.lowered.homes.map fun h => (fiAddress D.mf h.2 0 t', t'.reg h.1)

/-- The pointer that `LowerVASTART` stores. -/
def Callee.lowerVASTART (D : Callee sig) (t' : State) : Word :=
  fiAddress D.mf D.after.functionInfo.varArgsFrameIndex 0 t'

/-- Where word `k` is in memory: where the caller put it, or its home slot. -/
def wordAddress (C : Caller sig) (D : Callee sig) (s t' : State) (k : Nat) : Option Word :=
  C.places[k]?.bind fun pl => match pl with
    | .stack fi => some (fiAddress C.mf fi 0 s)
    | .reg r => (D.lowered.homes.find? (·.1 = r)).map fun h => fiAddress D.mf h.2 0 t'

end Effects

/-- What a function has allocated when it comes to `va_start`: nothing without
variable-sized objects. -/
structure Callee.Allocated {sig : Signature} (D : Callee sig) where
  bytes : Word
  bytes_eq : D.mf.frameInfo.hasVarSizedObjects = false → bytes = 0

/-- The pointers then, if the function is called with `sp`. -/
def Callee.Allocated.pointers {sig : Signature} {D : Callee sig} (a : D.Allocated) (sp : Word) :
    FramePointers D.mf where
  base := sp - stackWord D.mf
  sp := sp - stackWord D.mf - a.bytes
  sp_eq := fun h => by rw [a.bytes_eq h, sub_zero]

/-- In every caller whose `SP` is the base of its frame: each variadic word is in
memory, its number of words behind the pointer that is stored in `u`, when the
callee comes to `va_start`. -/
def VaStartFinds (call : VariadicCall) (D : Callee call.sig) (a : D.Allocated) : Prop :=
  ∀ (C : Caller call.sig) (p : FramePointers C.mf) (s t t' u : State) (vs : Nat → Word),
    p.sp = p.base → p.Holds s → Called C s vs t → D.BodyEntered (C.stackWrites s vs) t t' →
    (a.pointers (t.reg .SP)).Holds u →
    ∀ i < call.variadic.length,
      wordAddress C D s t' (call.named.length + i) = some (D.lowerVASTART u + BitVec.ofNat 32 (4 * i)) ∧
        (t'.mem.writes (D.homeWrites t')).readWord (D.lowerVASTART u + BitVec.ofNat 32 (4 * i)) =
          vs (call.named.length + i)

/-! ## The area of the words -/

/-- Words `lo` to `lo + len`, four bytes each from `sp`. -/
def argWords (sp : Word) (vs : Nat → Word) (lo len : Nat) : List (Word × Word) :=
  (List.range' lo len).map fun k => (sp + BitVec.ofNat 32 (4 * k), vs k)

theorem argWord_disjoint (sp : Word) {j k : Nat} (hlt : j < k) (hk : 4 * (k - j) + 4 ≤ 2 ^ 32) :
    (word (sp + BitVec.ofNat 32 (4 * j))).Disjoint (word (sp + BitVec.ofNat 32 (4 * k))) := by
  have hsp := sp.isLt
  refine word_disjoint ?_ ?_ <;> simp only [BitVec.toNat_sub, BitVec.toNat_add, BitVec.toNat_ofNat] <;> omega

theorem mem_argWords {sp : Word} {vs : Nat → Word} {lo len k : Nat} (h : lo ≤ k ∧ k < lo + len) :
    (sp + BitVec.ofNat 32 (4 * k), vs k) ∈ argWords sp vs lo len :=
  List.mem_map_of_mem (List.mem_range'_1.mpr h)

theorem argWords_pairwise (sp : Word) (vs : Nat → Word) (lo : Nat) {len : Nat} (h : 4 * len ≤ 2 ^ 32) :
    (argWords sp vs lo len).Pairwise fun w w' => (word w.1).Disjoint (word w'.1) := by
  rw [argWords, List.pairwise_map]
  refine List.Pairwise.imp_of_mem (fun {a b} ha hb hlt => ?_) (List.pairwise_lt_range' (s := lo) (n := len))
  rw [List.mem_range'_1] at ha hb
  exact argWord_disjoint sp hlt (by omega)

theorem readWord_argWords (m : Mem) (sp : Word) (vs : Nat → Word) {lo len k : Nat} (hk : lo ≤ k ∧ k < lo + len)
    (hlt : 4 * len ≤ 2 ^ 32) :
    (m.writes (argWords sp vs lo len)).readWord (sp + BitVec.ofNat 32 (4 * k)) = vs k := by
  have := Mem.readWord_writes (m := m) (argWords_pairwise sp vs lo hlt) (mem_argWords hk)
  exact this

theorem argOffset_variadic {k : Nat} (h8 : 8 ≤ k) : argOffset true k = 4 * k % 2 ^ 32 := by
  rw [argOffset, firstStackArgLoc, if_pos rfl, show 32 + 4 * (k - 8) = 4 * k by omega]

/-- The home slot of word `n + j`, `n` words being named. -/
theorem Callee.fiAddress_home {sig : Signature} (D : Callee sig) {sp : Word} {t' : State} (ht : (D.entry sp).Holds t')
    {j : Nat} (hj : j < (homeRegs sig.isVarArg sig.named.length).length) :
    fiAddress D.mf (.negSucc (sig.named.length - 8 + j)) 0 t' = sp + BitVec.ofNat 32 (4 * (sig.named.length + j)) := by
  have hn := (lt_of_lt_homeRegs hj).2
  refine D.fiAddress_of_neg ((D.getObjectOffset_recorded (List.mem_append_right _ (List.mem_map.mpr
    ⟨j, List.mem_range.mpr hj, rfl⟩))).trans ?_) (by omega) ht
  show -(4 + ((sig.named.length + j : Nat) : Int) * 4) = _
  omega

/-- The register of word `k` has home slot `k - n`. -/
theorem find_home {n k : Nat} (h1 : 1 ≤ n) (hnk : n ≤ k) (h8 : k < 8) :
    ((homeRegs true n).mapIdx fun j r => (r, Int.negSucc (n - 8 + j))).find? (·.1 = argRegs[k]) =
      some (argRegs[k], Int.negSucc (n - 8 + (k - n))) := by
  have : ∀ n k : Fin 8, 1 ≤ n.val → n.val ≤ k.val →
      ((homeRegs true n).mapIdx fun j r => (r, Int.negSucc (n - 8 + j))).find? (·.1 = argRegs[k.val]) =
        some (argRegs[k.val], Int.negSucc (n - 8 + (k - n))) := by decide
  exact this ⟨n, hnk.trans_lt h8⟩ ⟨k, h8⟩ h1 hnk

section Homes

variable {call : VariadicCall} (D : Callee call.sig) {sp : Word} {t' : State} (ht : (D.entry sp).Holds t')
  (hn : call.named.length ≤ 7)
include hn

theorem homeRegs_eq : homeRegs call.sig.isVarArg call.sig.named.length = argRegs.drop call.named.length :=
  if_pos ⟨rfl, call.named_pos, Nat.le_succ_of_le hn⟩

theorem length_homeRegs : (homeRegs call.sig.isVarArg call.sig.named.length).length = 8 - call.named.length := by
  rw [homeRegs_eq hn, List.length_drop]; rfl

include ht

/-- The registers are stored in the order of their words. -/
theorem homeWrites_eq : D.homeWrites t' =
    argWords sp (fun k => (argRegs[k]?.map t'.reg).getD 0) call.named.length (8 - call.named.length) := by
  rw [Callee.homeWrites, Callee.lowered, (lowerFormalArguments_spec ..).2.1, argWords]
  refine List.ext_getElem? fun j => ?_
  rw [List.getElem?_map, List.getElem?_map, List.getElem?_mapIdx]
  rcases Nat.lt_or_ge j (8 - call.named.length) with hj | hj
  · have hj' : j < (homeRegs call.sig.isVarArg call.sig.named.length).length := by rw [length_homeRegs hn]; exact hj
    have hr : (homeRegs call.sig.isVarArg call.sig.named.length)[j]? = argRegs[call.named.length + j]? := by
      rw [homeRegs_eq hn, List.getElem?_drop]
    rw [hr, List.getElem?_eq_getElem (show call.named.length + j < argRegs.length from (by omega : _ < 8)),
      List.getElem?_range' hj, Nat.one_mul]
    simp only [Option.map_some, Option.some.injEq, Prod.mk.injEq, Option.getD_some,
      List.getElem?_eq_getElem (show call.named.length + j < argRegs.length from (by omega : _ < 8)), and_true]
    have hf := D.fiAddress_home ht hj'
    exact hf
  · rw [List.getElem?_eq_none (by rw [length_homeRegs hn]; exact hj), List.getElem?_eq_none (by
      rw [List.length_range']; exact hj)]
    rfl

end Homes

/-- No register is stored if all have named words. -/
theorem homeRegs_of_le {call : VariadicCall} (hn : 8 ≤ call.named.length) :
    homeRegs call.sig.isVarArg call.sig.named.length = [] := by
  rw [homeRegs]
  split
  · rename_i h
    rw [show call.sig.named.length = 8 from Nat.le_antisymm h.2.2 hn]
    rfl
  · rfl

theorem homeWrites_of_le {call : VariadicCall} (D : Callee call.sig) (hn : 8 ≤ call.named.length) (t' : State) :
    D.homeWrites t' = [] := by
  rw [Callee.homeWrites, Callee.lowered, (lowerFormalArguments_spec ..).2.1, homeRegs_of_le hn]
  rfl

section Pointer

variable {call : VariadicCall} {D : Callee call.sig} {a : D.Allocated} {sp : Word} {u : State}

/-- Object 0 of the callee has come to lie `w` bytes above `SP` at the call. -/
def Callee.ObjectZeroAt (D : Callee call.sig) (a : D.Allocated) (w : Nat) : Prop :=
  BitVec.ofInt 32 (frameOffset D.mf 0) =
    stackWord D.mf + BitVec.ofNat 32 w + if isInt16 (frameOffset D.mf 0) then 0 else a.bytes

/-- That is not so for an object in the frame, if the frame, what is allocated and
the words have room in memory. -/
theorem Callee.not_objectZeroAt {w : Nat} (hw : 0 < w)
    (hobj : 0 ≤ D.mf.frameInfo.getObjectOffset 0 ∧
      D.mf.frameInfo.getObjectOffset 0 ≤ D.mf.frameInfo.stackSize)
    (hroom : D.mf.frameInfo.stackSize + w + a.bytes.toNat < 2 ^ 31) : ¬D.ObjectZeroAt a w := by
  intro h
  have hoff : frameOffset D.mf 0 = D.mf.frameInfo.getObjectOffset 0 := by
    rw [frameOffset, toInt32_of_lt (x := D.mf.frameInfo.getObjectOffset 0) (by omega)]
    exact if_neg (by omega)
  rw [ObjectZeroAt, hoff, stackWord] at h
  split at h
  · rw [add_zero] at h
    have hn := congrArg BitVec.toNat h
    simp only [BitVec.toNat_ofInt, BitVec.toNat_add, BitVec.toNat_ofNat] at hn
    omega
  · have hn := congrArg BitVec.toNat h
    simp only [BitVec.toNat_ofInt, BitVec.toNat_add, BitVec.toNat_ofNat] at hn
    omega

/-- The pointer is from the frame register, or from `SP` if the offset is not one of
16 bits. -/
theorem Callee.Allocated.lowerVASTART_eq (hu : (a.pointers sp).Holds u) :
    D.lowerVASTART u = sp - stackWord D.mf +
        BitVec.ofInt 32 (frameOffset D.mf D.after.functionInfo.varArgsFrameIndex) -
      if isInt16 (frameOffset D.mf D.after.functionInfo.varArgsFrameIndex) then 0 else a.bytes := by
  simp only [Callee.lowerVASTART, fiAddress, Int.add_zero, toInt32_frameOffset, hu.frameRegister, hu.1,
    Callee.Allocated.pointers]
  split
  · rw [sub_zero]
  · exact sub_add_eq_add_sub ..

/-- The home slot of the first variadic word is what the pointer is of. -/
theorem frameOffset_varArgsFrameIndex (hn : call.named.length ≤ 7) :
    frameOffset D.mf D.after.functionInfo.varArgsFrameIndex =
      toInt32 (D.mf.frameInfo.stackSize + 4 * call.named.length : Nat) := by
  have h0 : 0 < (homeRegs call.sig.isVarArg call.sig.named.length).length := by rw [length_homeRegs hn]; omega
  have hfi : D.after.functionInfo.varArgsFrameIndex = .negSucc (call.sig.named.length - 8 + 0) := by
    rw [D.functionInfo_after, formalInfo, if_neg (List.ne_nil_of_length_pos h0)]
    rfl
  have hoff := D.getObjectOffset_recorded (x := ⟨.negSucc (call.sig.named.length - 8 + 0), _⟩)
    (List.mem_append_right _ (List.mem_map.mpr ⟨0, List.mem_range.mpr h0, rfl⟩))
  simp only [VariadicCall.sig_named] at hfi hoff
  rw [hfi, frameOffset, hoff, toInt32_of_lt (by omega), if_pos (by omega)]
  refine BitVec.toInt_inj.mpr ?_
  rw [BitVec.ofInt_add, ofInt_toInt32, ← BitVec.ofInt_add]
  exact congrArg (BitVec.ofInt 32) (by omega)

/-- The pointer is the address of the first variadic word, if that has a home slot
that is addressed from the frame register, or nothing is allocated. -/
theorem lowerVASTART_eq_iff (hu : (a.pointers sp).Holds u) :
    D.lowerVASTART u = sp + BitVec.ofNat 32 (4 * call.named.length) ↔
      if call.named.length ≤ 7 then
        isInt16 (toInt32 (D.mf.frameInfo.stackSize + 4 * call.named.length : Nat)) = true ∨ a.bytes = 0
      else D.ObjectZeroAt a (4 * call.named.length) := by
  rw [a.lowerVASTART_eq hu]
  by_cases hn : call.named.length ≤ 7
  · rw [if_pos hn]
    have hbase : sp - stackWord D.mf +
        BitVec.ofInt 32 (toInt32 (D.mf.frameInfo.stackSize + 4 * call.named.length : Nat)) =
          sp + BitVec.ofNat 32 (4 * call.named.length) := by
      rw [ofInt_toInt32, BitVec.ofInt_natCast, BitVec.ofNat_add, ← BitVec.add_assoc, stackWord,
        BitVec.sub_add_cancel]
    rw [frameOffset_varArgsFrameIndex hn, hbase]
    split
    · rename_i hnear
      rw [sub_zero]
      exact iff_of_true rfl (.inl hnear)
    · rename_i hfar
      rw [or_iff_right hfar]
      exact sub_eq_self
  · rw [if_neg hn]
    have hfi : D.after.functionInfo.varArgsFrameIndex = 0 := by
      rw [D.functionInfo_after, formalInfo, homeRegs_of_le (by omega)]
      rfl
    rw [hfi, Callee.ObjectZeroAt]
    generalize (if isInt16 (frameOffset D.mf 0) = true then (0 : Word) else a.bytes) = y
    generalize BitVec.ofInt 32 (frameOffset D.mf 0) = x
    constructor <;> intro h <;> bv_omega

end Pointer

/-! ## Words that are found -/

section Found

variable {call : VariadicCall} {C : Caller call.sig} {D : Callee call.sig} {p : FramePointers C.mf}
  {s t t' : State} {vs : Nat → Word} (hsp : p.sp = p.base) (hs : p.Holds s)
include hsp hs

theorem fiAddress_stackWord {k : Nat} (h8 : 8 ≤ k) (hk : k < call.sig.outs.length) (hlt : 4 * k % 2 ^ 32 < 2 ^ 31) :
    fiAddress C.mf (.negSucc (C.fixedBefore + (k - 8))) 0 s = p.base + BitVec.ofNat 32 (4 * k) := by
  have ho : argOffset call.sig.isVarArg k = 4 * k % 2 ^ 32 := argOffset_variadic h8
  have hmod : BitVec.ofNat 32 (4 * k % 2 ^ 32) = BitVec.ofNat 32 (4 * k) := BitVec.eq_of_toNat_eq (Nat.mod_mod ..)
  rw [C.fiAddress_of_lt h8 hk (by omega) hs, ho, hsp, ite_self, hmod]

/-- From one of them on, the stack words are in their order from `SP`. -/
theorem stackWrites_eq (vs : Nat → Word) {lo len : Nat} (h8 : 8 ≤ lo) (hlen : lo + len = call.sig.outs.length)
    (hlt : ∀ k, lo ≤ k → k < lo + len → 4 * k % 2 ^ 32 < 2 ^ 31) :
    ∃ ws, C.stackWrites s vs = ws ++ argWords p.base vs lo len := by
  have hplaces : C.places.zipIdx =
      (List.range' 0 lo ++ List.range' lo len).map fun k => (argPlace C.fixedBefore k, k) := by
    have hrange : List.range' 0 lo ++ List.range' lo len = List.range call.sig.outs.length := by
      rw [← hlen, List.range_eq_range', ← List.range'_append_1, Nat.zero_add]
    rw [hrange]
    refine List.ext_getElem? fun k => ?_
    have hlen : C.places.length = call.sig.outs.length := by
      rw [Caller.places, (callLowered ..).places, List.length_map, List.length_range]
    rcases Nat.lt_or_ge k call.sig.outs.length with hk | hk
    · rw [List.getElem?_zipIdx, C.places_getElem? hk, List.getElem?_map, List.getElem?_range hk, Nat.zero_add]; rfl
    · rw [List.getElem?_eq_none (by rw [List.length_zipIdx, hlen]; exact hk),
        List.getElem?_eq_none (by rw [List.length_map, List.length_range]; exact hk)]
  have hwords : ((List.range' lo len).map fun k => (argPlace C.fixedBefore k, k)).filterMap (C.stackWrite s vs) =
      argWords p.base vs lo len := by
    rw [List.filterMap_map, argWords, ← List.filterMap_eq_map]
    refine List.filterMap_congr fun k hk => ?_
    rw [List.mem_range'_1] at hk
    simp only [Function.comp_apply, Caller.stackWrite, argPlace_of_le _ (h8.trans hk.1),
      fiAddress_stackWord hsp hs (h8.trans hk.1) (hk.2.trans_eq hlen) (hlt k hk.1 hk.2)]
  exact ⟨_, by rw [Caller.stackWrites, hplaces, List.map_append, List.filterMap_append, hwords]⟩

/-- Every variadic word is where its number says. -/
theorem wordAddress_eq (ht : (D.entry p.base).Holds t') {k : Nat} (hnk : call.named.length ≤ k)
    (hk : k < call.sig.outs.length) (hlt : 8 ≤ k → 4 * k % 2 ^ 32 < 2 ^ 31) :
    wordAddress C D s t' k = some (p.base + BitVec.ofNat 32 (4 * k)) := by
  rw [wordAddress, C.places_getElem? hk]
  rcases Nat.lt_or_ge k 8 with h8 | h8
  · have hn : call.named.length ≤ 7 := by omega
    have hj : k - call.named.length < (homeRegs call.sig.isVarArg call.sig.named.length).length := by
      rw [length_homeRegs hn]; omega
    simp only [Option.bind_some, argPlace, List.getElem?_eq_getElem (show k < argRegs.length from h8)]
    rw [Callee.lowered, (lowerFormalArguments_spec ..).2.1]
    have hf := D.fiAddress_home ht hj
    simp only [VariadicCall.sig_named, Nat.add_sub_cancel' hnk] at hf
    refine (congrArg (Option.map _) (find_home call.named_pos hnk h8)).trans ?_
    rw [Option.map_some, hf]
  · simp only [Option.bind_some, argPlace_of_le _ h8]
    rw [fiAddress_stackWord hsp hs h8 hk (hlt h8)]

/-- And it is there: stored from its register, or as the caller stored it. -/
theorem readWord_variadic (hc : Called C s vs t) (he : D.BodyEntered (C.stackWrites s vs) t t')
    (hlt : 4 * call.named.length % 2 ^ 32 + 4 * call.variadic.length ≤ 2 ^ 31) {k : Nat}
    (hnk : call.named.length ≤ k) (hk : k < call.sig.outs.length) :
    (t'.mem.writes (D.homeWrites t')).readWord (p.base + BitVec.ofNat 32 (4 * k)) = vs k := by
  have ht : (D.entry p.base).Holds t' := by rw [← hsp, ← hs.1, ← hc.sp]; exact he.holds
  have houts : call.sig.outs.length = call.named.length + call.variadic.length := List.length_append ..
  rcases Nat.lt_or_ge k 8 with h8 | h8
  · have hn : call.named.length ≤ 7 := by omega
    have hreg : (argRegs[k]?.map t'.reg).getD 0 = vs k := by
      have hk8 : argRegs[k]? = some argRegs[k] := List.getElem?_eq_getElem h8
      rw [hk8, Option.map_some, Option.getD_some, he.regs _ (List.getElem_mem h8)]
      refine hc.regs k _ ?_
      rw [C.places_getElem? hk, argPlace, hk8]
    rw [homeWrites_eq D ht hn, ← hreg]
    exact readWord_argWords _ _ (fun k => (argRegs[k]?.map t'.reg).getD 0) ⟨hnk, by omega⟩ (by omega)
  · have hlen : max call.named.length 8 + (call.sig.outs.length - max call.named.length 8) = call.sig.outs.length := by
      omega
    obtain ⟨ws, hws⟩ := stackWrites_eq hsp hs vs (Nat.le_max_right ..) hlen (by omega)
    have hmem : (p.base + BitVec.ofNat 32 (4 * k), vs k) ∈ C.stackWrites s vs := by
      rw [hws]
      exact List.mem_append_right _ (mem_argWords ⟨by omega, by omega⟩)
    have hhomes : ∀ w ∈ D.homeWrites t', (word (p.base + BitVec.ofNat 32 (4 * k))).Disjoint (word w.1) := by
      intro w hw
      rcases Nat.lt_or_ge 7 call.named.length with hn | hn
      · rw [homeWrites_of_le D hn] at hw
        cases hw
      · rw [homeWrites_eq D ht hn] at hw
        obtain ⟨j, hj, rfl⟩ := List.mem_map.mp hw
        rw [List.mem_range'_1] at hj
        exact (argWord_disjoint _ (show j < k by omega) (by omega)).symm
    rw [Mem.readWord_writes_of_disjoint hhomes, Mem.readWord_congr (he.mem _ hmem), hc.mem, hws, Mem.writes_append]
    exact readWord_argWords _ _ _ ⟨by omega, by omega⟩ (by omega)

end Found

section NotFound

variable {call : VariadicCall} {D : Callee call.sig} {a : D.Allocated}

/-- Every caller can be run, from `SP` = 0. -/
theorem VaStartFinds.address_eq (h : VaStartFinds call D a) (C : Caller call.sig) {i : Nat}
    (hi : i < call.variadic.length) :
    ∃ s t' u, (⟨0, 0, fun _ => rfl⟩ : FramePointers C.mf).Holds s ∧ (D.entry 0).Holds t' ∧ (a.pointers 0).Holds u ∧
      wordAddress C D s t' (call.named.length + i) = some (D.lowerVASTART u + BitVec.ofNat 32 (4 * i)) := by
  let p : FramePointers C.mf := ⟨0, 0, fun _ => rfl⟩
  have hu := stateOf_holds (a.pointers 0) 0 fun _ => 0
  exact ⟨_, _, _, stateOf_holds p 0 fun _ => 0, stateOf_holds .., hu,
    (h C p _ _ _ _ _ rfl (stateOf_holds ..) (called_stateOf ..) (bodyEntered_stateOf ..) hu i hi).1⟩

/-- A variadic word whose offset is negative as an `int` is looked for in the
frame of the caller's caller, and where depends on the size of the caller's. -/
theorem VaStartFinds.argOffset_lt (h : VaStartFinds call D a) {i : Nat} (hi : i < call.variadic.length)
    (h8 : 8 ≤ call.named.length + i) : argOffset true (call.named.length + i) < 2 ^ 31 := by
  by_contra ho
  have hk : call.named.length + i < call.sig.outs.length := by
    rw [Signature.outs, List.length_append]; exact Nat.add_lt_add_left hi _
  have haddr (C : Caller call.sig) : ∃ u, (a.pointers 0).Holds u ∧
      0 + stackWord C.mf - BitVec.ofNat 32 (4 + argOffset true (call.named.length + i)) =
        D.lowerVASTART u + BitVec.ofNat 32 (4 * i) := by
    obtain ⟨s, t', u, hs, -, hu, he⟩ := h.address_eq C hi
    rw [wordAddress, C.places_getElem? hk, argPlace_of_le _ h8] at he
    refine ⟨u, hu, ?_⟩
    exact (C.fiAddress_of_ge h8 hk (Nat.le_of_not_lt ho) hs rfl).symm.trans (Option.some.inj he)
  obtain ⟨u₁, hu₁, h₁⟩ := haddr (Caller.plain call.sig true)
  obtain ⟨u₂, hu₂, h₂⟩ := haddr (Caller.plain call.sig false)
  refine Caller.stackWord_plain_ne call.sig ?_
  rw [a.lowerVASTART_eq hu₁, ← a.lowerVASTART_eq hu₂, ← h₂] at h₁
  bv_omega

/-- So they all end within 2³¹ bytes. -/
theorem VaStartFinds.words_le (h : VaStartFinds call D a) (hm : 0 < call.variadic.length) :
    4 * call.named.length % 2 ^ 32 + 4 * call.variadic.length ≤ 2 ^ 31 := by
  have hlt {i : Nat} (hi : i < call.variadic.length) (h8 : 8 ≤ call.named.length + i) :
      4 * (call.named.length + i) % 2 ^ 32 < 2 ^ 31 := by
    rw [← argOffset_variadic h8]
    exact h.argOffset_lt hi h8
  by_contra hgt
  have hfirst : 4 * call.named.length % 2 ^ 32 < 2 ^ 31 := by
    rcases Nat.lt_or_ge call.named.length 8 with hn | hn
    · omega
    · exact hlt hm hn
  -- the word at offset 2³¹
  have := hlt (i := (2 ^ 31 - 4 * call.named.length % 2 ^ 32) / 4) (by omega) (by omega)
  omega

/-- And the pointer is the address of the first. -/
theorem VaStartFinds.lowerVASTART_eq (h : VaStartFinds call D a) (hm : 0 < call.variadic.length) :
    ∃ u, (a.pointers 0).Holds u ∧ D.lowerVASTART u = 0 + BitVec.ofNat 32 (4 * call.named.length) := by
  have hk : call.named.length + 0 < call.sig.outs.length := by
    rw [Signature.outs, List.length_append]; exact Nat.add_lt_add_left hm _
  have hle := h.words_le hm
  obtain ⟨s, t', u, hs, ht, hu, he⟩ := h.address_eq (Caller.plain call.sig true) hm
  rw [wordAddress_eq (p := ⟨0, 0, fun _ => rfl⟩) rfl hs ht (Nat.le_add_right ..) hk fun _ => by omega] at he
  exact ⟨u, hu, ((Option.some.inj he).trans (BitVec.add_zero _)).symm⟩

end NotFound

/-- `va_arg` finds the variadic words of a call if and only if there are none, or no
offset is negative as an `int`, and the first has a home slot that is addressed
from the frame register, or nothing is allocated. With eight named words there is
no home slot, and object 0 would have to lie where the word is. -/
theorem vaStart_iff (call : VariadicCall) (D : Callee call.sig) (a : D.Allocated) :
    VaStartFinds call D a ↔ call.variadic = [] ∨
      4 * call.named.length % 2 ^ 32 + 4 * call.variadic.length ≤ 2 ^ 31 ∧
        if call.named.length ≤ 7 then
          isInt16 (toInt32 (D.mf.frameInfo.stackSize + 4 * call.named.length : Nat)) = true ∨ a.bytes = 0
        else D.ObjectZeroAt a (4 * call.named.length) := by
  have houts : call.sig.outs.length = call.named.length + call.variadic.length := List.length_append ..
  constructor
  · intro h
    rcases Nat.eq_zero_or_pos call.variadic.length with h0 | hm
    · exact .inl (List.length_eq_zero_iff.mp h0)
    · obtain ⟨u, hu, hptr⟩ := h.lowerVASTART_eq hm
      exact .inr ⟨h.words_le hm, (lowerVASTART_eq_iff hu).mp hptr⟩
  · rintro (h | ⟨hlt, hptr⟩) C p s t t' u vs hsp hs hc he hu i hi
    · rw [h] at hi; cases hi
    · have hbase : t.reg .SP = p.base := by rw [hc.sp, hs.1, hsp]
      have ht : (D.entry p.base).Holds t' := by rw [← hbase]; exact he.holds
      have haddr : D.lowerVASTART u + BitVec.ofNat 32 (4 * i) =
          p.base + BitVec.ofNat 32 (4 * (call.named.length + i)) := by
        rw [(lowerVASTART_eq_iff hu).mpr hptr, hbase, BitVec.add_assoc, ← BitVec.ofNat_add, Nat.mul_add]
      rw [haddr]
      exact ⟨wordAddress_eq hsp hs ht (Nat.le_add_right ..) (by omega) fun _ => by omega,
        readWord_variadic hsp hs hc he hlt (Nat.le_add_right ..) (by omega)⟩

/-- Eight named words and a variadic one. -/
def ninthVariadic : VariadicCall where
  named := List.replicate 8 {}
  variadic := [{}]
  named_pos := by decide

/-- The variadic word is on the stack, and the pointer stays the index 0. -/
theorem ninthVariadic_not_found :
    ¬VaStartFinds ninthVariadic (Callee.plain ninthVariadic.sig true) ⟨0, fun _ => rfl⟩ := by
  intro h
  obtain ⟨u, hu, hptr⟩ := h.lowerVASTART_eq (by decide)
  exact absurd ((lowerVASTART_eq_iff hu).mp hptr) (by unfold Callee.ObjectZeroAt; decide)

end Rigel
