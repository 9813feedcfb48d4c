import RigelCodegen.Call.Agreement

/-!
# Aggregates passed by value

An argument with the `byval` flag is the address of an aggregate, of which the
callee is to get a copy. The flag has no part in `CC_Rigel`, `LowerCall` or
`LowerFormalArguments` (`lowerCall_clearFlags`, `lowerFormalArguments_clearFlags`):
the address itself is passed, as any other word, and `byVal_copied_iff` says
which writes of a callee leave the caller's aggregates alone.
-/

namespace Rigel

open Word32

/-- `CalculateStackSlotSize`, which nothing calls: the bytes of the stack that
an argument needs. -/
def calculateStackSlotSize (argVT : MVT) (flags : ArgFlags) (ptrByteSize : Nat) : Nat :=
  let argSize := if flags.isByVal then flags.byValSize else argVT.getSizeInBits / 8
  (argSize + ptrByteSize - 1) / ptrByteSize * ptrByteSize

/-- The argument as it is without its flags. -/
def Arg.clearFlags (a : Arg) : Arg := { a with flags := {} }

theorem analyze_clearFlags (args : List Arg) : (analyze (args.map Arg.clearFlags)).locs = (analyze args).locs := by
  rw [analyze_locs, analyze_locs]
  refine List.ext_getElem? fun k => ?_
  rw [List.getElem?_mapIdx, List.getElem?_mapIdx, List.getElem?_map, Option.map_map]
  rfl

/-- The caller does the same without the flags. -/
theorem lowerCall_clearFlags (mf : MachineFunction) (isVarArg : Bool) (outs : List Arg) :
    lowerCall mf isVarArg (outs.map Arg.clearFlags) = lowerCall mf isVarArg outs := by
  simp only [lowerCall, analyze_clearFlags]

/-- And so does the callee. -/
theorem lowerFormalArguments_clearFlags (mf : MachineFunction) (isVarArg : Bool) (ins : List Arg) :
    lowerFormalArguments mf isVarArg (ins.map Arg.clearFlags) = lowerFormalArguments mf isVarArg ins := by
  simp only [lowerFormalArguments, analyze_clearFlags]

/-- The next argument on the stack is four bytes on, which is what an argument
needs unless it is an aggregate that is empty or of more than a word. -/
theorem slotSize_eq_four_iff (a : Arg) :
    calculateStackSlotSize a.vt a.flags 4 = 4 ↔
      (a.flags.isByVal = true → 1 ≤ a.flags.byValSize ∧ a.flags.byValSize ≤ 4) := by
  obtain ⟨vt, isByVal, n⟩ := a
  cases isByVal with
  | false => cases vt <;> simp [calculateStackSlotSize, MVT.getSizeInBits]
  | true =>
    simp only [calculateStackSlotSize, if_true, true_implies]
    omega

/-! ## Writes of the callee -/

/-- A byte of an aggregate passed by value. -/
structure ByValByte (sig : Signature) where
  arg : Fin sig.named.length
  byVal : sig.named[arg].flags.isByVal = true
  offset : Nat
  offset_lt : offset < sig.named[arg].flags.byValSize

namespace ByValByte

variable {sig : Signature}

/-- Where the byte is, if the words are `vs`. -/
def address (x : ByValByte sig) (vs : Nat → Word) : Word := vs x.arg + BitVec.ofNat 32 x.offset

end ByValByte

namespace Callee

variable {sig : Signature} (D : Callee sig)

/-- The word of parameter `k`, in the body. -/
def param (t' : State) (k : Nat) : Word :=
  match D.lowered.places[k]? with
  | some (.reg r) => t'.reg r
  | some (.stack fi) => t'.mem.readWord (fiAddress D.mf fi 0 t')
  | none => 0

/-- Memory after the callee has written the bytes through its parameters. -/
def writeParams (t' : State) (ws : List (ByValByte sig × Byte)) : Mem :=
  t'.mem.writeBytes (ws.map fun w => (w.1.address (D.param t'), w.2))

end Callee

/-- In every caller and callee, with any aggregates that are still there when
the body is entered: after the writes they are as before the call. -/
def ByValCopied (sig : Signature) (ws : List (ByValByte sig × Byte)) : Prop :=
  ∀ (C : Caller sig) (D : Callee sig) (p : FramePointers C.mf) (s t t' : State) (vs : Nat → Word),
    p.Holds s → Called C s vs t → D.BodyEntered (C.stackWrites s vs) t t' →
    (∀ x : ByValByte sig, t'.mem (x.address vs) = s.mem (x.address vs)) →
    ∀ x : ByValByte sig, D.writeParams t' ws (x.address vs) = s.mem (x.address vs)

/-- In memory that is full of one byte, with its word as every argument, it
does not matter where the parameters are taken from. -/
theorem ByValCopied.eq_of_concat {sig : Signature} {ws : List (ByValByte sig × Byte)} {w : ByValByte sig × Byte}
    (h : ByValCopied sig (ws ++ [w])) (b : Byte) : w.2 = b := by
  let C := Caller.plain sig false
  let D := Callee.plain sig false
  let p : FramePointers C.mf := ⟨0, 0, fun _ => rfl⟩
  let t' := stateOf (D.entry 0).sp (D.entry 0).base (Mem.repeated b) fun _ => b
  have hparam : D.param t' w.1.arg = Mem.repeated b := by
    rw [Callee.param, D.places_getElem? w.1.arg.isLt, argPlace]
    cases hr : argRegs[w.1.arg.val]? with
    | some r => exact stateOf_reg (argRegs_allocatable r (List.mem_of_getElem? hr))
    | none => rfl
  -- the words stored by the caller change nothing
  have hcalled := called_stateOf C p (Mem.repeated b) fun _ => b
  rw [Mem.writes_repeated b fun w hw => ?_] at hcalled
  · have := h C D p _ _ t' _ (stateOf_holds ..) hcalled (bodyEntered_stateOf ..) (fun _ => rfl) w.1
    rw [Callee.writeParams, List.map_append, List.map_singleton, ByValByte.address, ByValByte.address, hparam] at this
    exact (Mem.writeBytes_concat ..).symm.trans this
  · obtain ⟨k, -, -, rfl⟩ := Caller.mem_stackWrites hw
    rfl

/-- The aggregates of the caller are as before the call, whatever they hold, if
and only if the callee writes nothing through its parameters. -/
theorem byVal_copied_iff (sig : Signature) (ws : List (ByValByte sig × Byte)) : ByValCopied sig ws ↔ ws = [] := by
  constructor
  · intro h
    rcases List.eq_nil_or_concat ws with rfl | ⟨ws, w, rfl⟩
    · rfl
    · rw [List.concat_eq_append] at h
      have h0 := h.eq_of_concat 0
      rw [h.eq_of_concat 1] at h0
      exact absurd h0 (by decide)
  · rintro rfl C D p s t t' vs hs hc he hx
    exact hx

/-- A function of one aggregate of a word. -/
def oneAggregate : Signature := .fixed [{ flags := { isByVal := true, byValSize := 4 } }]

/-- The callee clears the first byte of its parameter. -/
theorem oneAggregate_not_copied : ¬ByValCopied oneAggregate [(⟨⟨0, by decide⟩, rfl, 0, by decide⟩, 0)] := fun h =>
  absurd (@ByValCopied.eq_of_concat _ [] _ h 1) (by decide)

end Rigel
