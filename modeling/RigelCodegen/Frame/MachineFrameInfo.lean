import RigelCodegen.Lib.Packing
import RigelCodegen.Target.Register

/-!
# Frame objects

`MachineFrameInfo`, the stack objects of a function, with
`RigelFunctionInfo`, what the target records beside it. A frame index is
negative for a fixed object, whose offset is given, and counts from 0 for the
others, which are laid out later; the fixed objects are listed in the order
they are created, so that object `k` of them has index `-(k + 1)`.

A `Frame` is a function with what its creation guarantees: every
operation that lowering and register allocation use makes a `Frame` of a
`Frame`. Sizes and offsets are numbers: a frame of 2⁶³ bytes overflows
`int64_t`, which is undefined.
-/

namespace Rigel

/-- The alignment `TargetFrameInfo` keeps, of the stack and of a leaf's. -/
def stackAlignment : Nat := 4

theorem four_pow : ∃ k < 32, 4 = 2 ^ k := ⟨2, by decide, rfl⟩

structure StackObject where
  spOffset : Int
  size : Nat
  alignment : Nat
  mayNeedSP : Bool
  alignment_pow : ∃ k < 32, alignment = 2 ^ k
  deriving DecidableEq, Repr

/-- The size of a dead object, `~0ULL`. -/
def deadSize : Nat := 2 ^ 64 - 1

def StackObject.isDead (o : StackObject) : Bool := o.size == deadSize

theorem StackObject.alignment_pos (o : StackObject) : 0 < o.alignment := by
  obtain ⟨k, -, h⟩ := o.alignment_pow
  rw [h]; exact Nat.two_pow_pos k

/-- `MinAlign(off, StackAlign)`: the alignment an offset leaves of that of the
stack. -/
def minAlign (off : Int) : Nat := if off % 4 = 0 then 4 else if off % 2 = 0 then 2 else 1

theorem minAlign_pow (off : Int) : ∃ k < 32, minAlign off = 2 ^ k := by
  unfold minAlign
  split
  · exact four_pow
  · split
    · exact ⟨1, by decide, rfl⟩
    · exact ⟨0, by decide, rfl⟩

theorem minAlign_dvd (off : Int) : (minAlign off : Int) ∣ off ∧ minAlign off ∣ 4 := by
  unfold minAlign
  split
  · exact ⟨Int.dvd_of_emod_eq_zero ‹_›, by decide⟩
  · split
    · exact ⟨Int.dvd_of_emod_eq_zero ‹_›, by decide⟩
    · exact ⟨one_dvd _, by decide⟩

structure MachineFrameInfo where
  fixedObjects : List StackObject := []
  objects : List StackObject := []
  hasVarSizedObjects : Bool := false
  stackSize : Nat := 0
  maxAlignment : Nat := 0
  adjustsStack : Bool := false
  hasCalls : Bool := false
  stackProtectorIdx : Option Nat := none
  maxCallFrameSize : Nat := 0
  deriving DecidableEq, Repr

namespace MachineFrameInfo

/-- The object of a frame index; `-(k + 1)` is `Int.negSucc k`. -/
def getObject (m : MachineFrameInfo) : Int → Option StackObject
  | .ofNat i => m.objects[i]?
  | .negSucc k => m.fixedObjects[k]?

def getObjectOffset (m : MachineFrameInfo) (fi : Int) : Int := ((m.getObject fi).map (·.spOffset)).getD 0

/-- `getObjectSize` and `getObjectAlignment` of a local index. -/
def getObjectSize (m : MachineFrameInfo) (i : Nat) : Nat := (m.objects[i]?.map (·.size)).getD 0

def getObjectAlignment (m : MachineFrameInfo) (i : Nat) : Nat := (m.objects[i]?.map (·.alignment)).getD 1

def isDeadObjectIndex (m : MachineFrameInfo) (i : Nat) : Bool := (m.objects[i]?.map (·.isDead)).getD true

def mayNeedStackProtector (m : MachineFrameInfo) (i : Nat) : Bool := (m.objects[i]?.map (·.mayNeedSP)).getD false

def setObjectOffset (m : MachineFrameInfo) (fi off : Int) : MachineFrameInfo :=
  match fi with
  | .ofNat i => { m with objects := m.objects.modify i fun o => { o with spOffset := off } }
  | .negSucc k => { m with fixedObjects := m.fixedObjects.modify k fun o => { o with spOffset := off } }

theorem getObject_setObjectOffset (m : MachineFrameInfo) (fi off fj : Int) :
    (m.setObjectOffset fi off).getObject fj =
      if fi = fj then (m.getObject fj).map fun o => { o with spOffset := off } else m.getObject fj := by
  cases fi <;> cases fj <;> simp only [setObjectOffset, getObject, List.getElem?_modify, Int.ofNat_eq_natCast,
    Int.negSucc.injEq, Int.natCast_inj, reduceCtorEq, if_false]
  all_goals split <;> simp

theorem getObjectOffset_setObjectOffset (m : MachineFrameInfo) {fi : Int} (h : (m.getObject fi).isSome = true)
    (off fj : Int) : (m.setObjectOffset fi off).getObjectOffset fj = if fi = fj then off else m.getObjectOffset fj := by
  simp only [getObjectOffset, getObject_setObjectOffset]
  split
  · subst fi
    obtain ⟨o, ho⟩ := Option.isSome_iff_exists.mp h
    simp [ho]
  · rfl

/-- `CreateFixedObject`, with the index of the object. -/
def createFixedObject (m : MachineFrameInfo) (size : Nat) (spOffset : Int) : Int × MachineFrameInfo :=
  (.negSucc m.fixedObjects.length,
    { m with fixedObjects := m.fixedObjects ++ [⟨spOffset, size, minAlign spOffset, false, minAlign_pow _⟩] })

/-- `CreateStackObject`, with the index of the object. -/
def createStackObject (m : MachineFrameInfo) (size alignment : Nat) (h : ∃ k < 32, alignment = 2 ^ k)
    (mayNeedSP : Bool) : Nat × MachineFrameInfo :=
  (m.objects.length,
    { m with objects := m.objects ++ [⟨0, size, alignment, mayNeedSP, h⟩],
             maxAlignment := max m.maxAlignment alignment })

/-- `CreateVariableSizedObject`: an object of size 0, whose offset means
nothing. -/
def createVariableSizedObject (m : MachineFrameInfo) (alignment : Nat) (h : ∃ k < 32, alignment = 2 ^ k) :
    Nat × MachineFrameInfo :=
  (m.objects.length,
    { m with hasVarSizedObjects := true
             objects := m.objects ++ [⟨0, 0, alignment, true, h⟩]
             maxAlignment := max m.maxAlignment alignment })

/-- `RemoveStackObject`: the object is dead. -/
def removeStackObject (m : MachineFrameInfo) (i : Nat) : MachineFrameInfo :=
  { m with objects := m.objects.modify i fun o => { o with size := deadSize } }

end MachineFrameInfo

/-- A frame index and the offset it gets in the prologue. -/
structure RigelFIHolder where
  fi : Int
  spOffset : Int
  deriving DecidableEq, Repr

structure RigelFunctionInfo where
  fpStackOffset : Int := 0
  raStackOffset : Int := 0
  cpuTopSavedRegOff : Int := 0
  fnLoadArgs : List RigelFIHolder := []
  fnStoreVarArgs : List RigelFIHolder := []
  varArgsFrameIndex : Int := 0
  deriving DecidableEq, Repr

namespace RigelFunctionInfo

def recordLoadArgsFI (r : RigelFunctionInfo) (fi spOffset : Int) : RigelFunctionInfo :=
  { r with fnLoadArgs := r.fnLoadArgs ++ [⟨fi, spOffset⟩] }

def recordStoreVarArgsFI (r : RigelFunctionInfo) (fi spOffset : Int) : RigelFunctionInfo :=
  { r with fnStoreVarArgs := r.fnStoreVarArgs ++ [⟨fi, spOffset⟩] }

/-- The offsets of `hs`, in place of the dummies. -/
def adjustFI (hs : List RigelFIHolder) (m : MachineFrameInfo) : MachineFrameInfo :=
  hs.foldl (fun m h => m.setObjectOffset h.fi h.spOffset) m

def adjustLoadArgsFI (r : RigelFunctionInfo) (m : MachineFrameInfo) : MachineFrameInfo :=
  adjustFI r.fnLoadArgs m

def adjustStoreVarArgsFI (r : RigelFunctionInfo) (m : MachineFrameInfo) : MachineFrameInfo :=
  adjustFI r.fnStoreVarArgs m

/-- Everything recorded in `LowerFormalArguments`. -/
def recorded (r : RigelFunctionInfo) : List RigelFIHolder := r.fnLoadArgs ++ r.fnStoreVarArgs

theorem recorded_first (r : RigelFunctionInfo) (fi : Int) :
    (if r.varArgsFrameIndex = 0 then { r with varArgsFrameIndex := fi } else r).recorded = r.recorded := by
  split <;> rfl

end RigelFunctionInfo

structure MachineFunction where
  frameInfo : MachineFrameInfo := {}
  functionInfo : RigelFunctionInfo := {}
  /-- The answer of `DisableFramePointerElim`. -/
  disableFramePointerElim : Bool := false
  deriving DecidableEq, Repr

def hasFP (mf : MachineFunction) : Bool := mf.disableFramePointerElim || mf.frameInfo.hasVarSizedObjects

def getFrameRegister (mf : MachineFunction) : Reg := if hasFP mf then .FP else .SP

/-! ## Frames as they are created -/

/-- The recorded indices are of fixed objects, each recorded once. -/
structure MachineFunction.Indexed (mf : MachineFunction) : Prop where
  recorded_fi : ∀ h ∈ mf.functionInfo.recorded, ∃ k < mf.frameInfo.fixedObjects.length, h.fi = .negSucc k
  recorded_nodup : (mf.functionInfo.recorded.map (·.fi)).Nodup

namespace MachineFunction.Indexed

variable {mf : MachineFunction} (h : mf.Indexed)
include h

/-- The index of a new fixed object is not recorded yet. -/
theorem fresh {k : Nat} (hk : mf.frameInfo.fixedObjects.length ≤ k) :
    Int.negSucc k ∉ mf.functionInfo.recorded.map (·.fi) := by
  intro hm
  obtain ⟨x, hx, he⟩ := List.mem_map.mp hm
  obtain ⟨j, hj, hf⟩ := h.recorded_fi x hx
  rw [hf, Int.negSucc.injEq] at he
  omega

theorem getObject_recorded {x : RigelFIHolder} (hx : x ∈ mf.functionInfo.recorded) :
    (mf.frameInfo.getObject x.fi).isSome = true := by
  obtain ⟨k, hk, hf⟩ := h.recorded_fi x hx
  rw [hf]
  simp [MachineFrameInfo.getObject, hk]

/-- More fixed objects, none of them recorded. -/
theorem mono {mf' : MachineFunction} (hr : mf'.functionInfo.recorded = mf.functionInfo.recorded)
    (hf : mf.frameInfo.fixedObjects <+: mf'.frameInfo.fixedObjects) : mf'.Indexed where
  recorded_fi := fun x hx => by
    obtain ⟨k, hk, he⟩ := h.recorded_fi x (hr ▸ hx)
    exact ⟨k, hk.trans_le hf.length_le, he⟩
  recorded_nodup := hr ▸ h.recorded_nodup

/-- One more fixed object, and its offset recorded, wherever in the list. -/
theorem record {size : Nat} {off : Int} {r : RigelFunctionInfo} {spOffset : Int}
    (hr : r.recorded.Perm (⟨.negSucc mf.frameInfo.fixedObjects.length, spOffset⟩ :: mf.functionInfo.recorded)) :
    Indexed { mf with frameInfo := (mf.frameInfo.createFixedObject size off).2, functionInfo := r } where
  recorded_fi := fun x hx => by
    simp only [MachineFrameInfo.createFixedObject, List.length_append, List.length_singleton]
    rcases List.mem_cons.mp (hr.mem_iff.mp hx) with rfl | hx
    · exact ⟨_, Nat.lt_succ_self _, rfl⟩
    · obtain ⟨k, hk, hf⟩ := h.recorded_fi x hx
      exact ⟨k, by omega, hf⟩
  recorded_nodup :=
    (hr.map _).nodup_iff.mpr (List.nodup_cons.mpr ⟨h.fresh (Nat.le_refl _), h.recorded_nodup⟩)

end MachineFunction.Indexed

/-- What the creation of its objects guarantees of a function. -/
structure MachineFunction.Created (mf : MachineFunction) : Prop where
  indexed : mf.Indexed
  fixed_offset : ∀ o ∈ mf.frameInfo.fixedObjects,
    0 ≤ o.spOffset ∧ (o.alignment : Int) ∣ o.spOffset ∧ o.alignment ∣ 4
  recorded_offset : ∀ h ∈ mf.functionInfo.recorded, ∃ w : Nat, h.spOffset = -(4 + 4 * w)
  object_offset : ∀ o ∈ mf.frameInfo.objects, 0 ≤ o.spOffset
  alignment_le : ∀ o ∈ mf.frameInfo.objects, o.alignment ≤ mf.frameInfo.maxAlignment
  maxAlignment_pow : mf.frameInfo.maxAlignment = 0 ∨ ∃ k < 32, mf.frameInfo.maxAlignment = 2 ^ k
  protector_live : ∀ i, mf.frameInfo.stackProtectorIdx = some i →
    ∃ o, mf.frameInfo.objects[i]? = some o ∧ o.isDead = false

/-- A function whose frame is still to be laid out. -/
structure Frame where
  mf : MachineFunction
  created : mf.Created

/-- `LowerCall` makes room for an outgoing argument. -/
def MachineFunction.outgoing (mf : MachineFunction) (size : Nat) (off : Int) : MachineFunction :=
  { mf with frameInfo := (mf.frameInfo.createFixedObject size off).2 }

/-- `LowerFormalArguments` on an argument on the stack: a dummy offset, and
the recorded one. -/
def MachineFunction.loadArg (mf : MachineFunction) (size : Nat) (spOffset : Int) : MachineFunction :=
  let (fi, m) := mf.frameInfo.createFixedObject size 0
  { mf with frameInfo := m, functionInfo := mf.functionInfo.recordLoadArgsFI fi spOffset }

/-- `LowerFormalArguments` on a register of a variadic function, with home
slot `stackLoc`. -/
def MachineFunction.storeVarArg (mf : MachineFunction) (stackLoc : Nat) : MachineFunction :=
  let (fi, m) := mf.frameInfo.createFixedObject 4 0
  let r := mf.functionInfo.recordStoreVarArgsFI fi (-(4 + stackLoc * 4))
  { mf with
    frameInfo := m
    functionInfo := if r.varArgsFrameIndex = 0 then { r with varArgsFrameIndex := fi } else r }

/-- A removed object keeps its offset and its alignment. -/
theorem mem_removeStackObject {m : MachineFrameInfo} {i : Nat} {o : StackObject}
    (ho : o ∈ (m.removeStackObject i).objects) :
    ∃ x ∈ m.objects, x.spOffset = o.spOffset ∧ x.alignment = o.alignment := by
  obtain ⟨j, hj⟩ := List.mem_iff_getElem?.mp ho
  rw [MachineFrameInfo.removeStackObject, List.getElem?_modify] at hj
  obtain ⟨x, hx, rfl⟩ := Option.map_eq_some_iff.mp hj
  refine ⟨x, List.mem_of_getElem? hx, ?_⟩
  split <;> exact ⟨rfl, rfl⟩

namespace MachineFunction.Created

theorem empty (b : Bool) : Created { disableFramePointerElim := b } where
  indexed := ⟨nofun, List.nodup_nil⟩
  fixed_offset := nofun
  recorded_offset := nofun
  object_offset := nofun
  alignment_le := nofun
  maxAlignment_pow := .inl rfl
  protector_live := nofun

variable {mf : MachineFunction} (h : mf.Created)
include h

theorem getObjectAlignment_le {i : Nat} (hi : i < mf.frameInfo.objects.length) :
    mf.frameInfo.getObjectAlignment i ≤ mf.frameInfo.maxAlignment := by
  rw [MachineFrameInfo.getObjectAlignment, List.getElem?_eq_getElem hi]
  exact h.alignment_le _ (List.getElem_mem hi)

theorem getObjectOffset_nonneg (i : Nat) : 0 ≤ mf.frameInfo.getObjectOffset i := by
  simp only [MachineFrameInfo.getObjectOffset, MachineFrameInfo.getObject]
  cases hi : mf.frameInfo.objects[i]? with
  | none => exact Int.le_refl _
  | some o => exact h.object_offset o (List.mem_of_getElem? hi)

theorem fixed_append {off : Int} (h0 : 0 ≤ off) (size : Nat) :
    ∀ o ∈ (mf.frameInfo.createFixedObject size off).2.fixedObjects,
    0 ≤ o.spOffset ∧ (o.alignment : Int) ∣ o.spOffset ∧ o.alignment ∣ 4 := by
  intro o ho
  rcases List.mem_append.mp ho with ho | ho
  · exact h.fixed_offset o ho
  · rw [List.mem_singleton] at ho
    subst ho
    exact ⟨h0, minAlign_dvd off⟩

theorem outgoing (size : Nat) {off : Int} (h0 : 0 ≤ off) : (mf.outgoing size off).Created where
  fixed_offset := h.fixed_append h0 size
  indexed := h.indexed.mono rfl (List.prefix_append ..)
  recorded_offset := h.recorded_offset
  object_offset := h.object_offset
  alignment_le := h.alignment_le
  maxAlignment_pow := h.maxAlignment_pow
  protector_live := h.protector_live

/-- One more fixed object with its offset recorded, wherever in the list. -/
theorem record {r : RigelFunctionInfo} {w : Nat}
    (hr : r.recorded.Perm (⟨.negSucc mf.frameInfo.fixedObjects.length, -(4 + 4 * w)⟩ :: mf.functionInfo.recorded)) :
    Created { mf with frameInfo := (mf.frameInfo.createFixedObject 4 0).2, functionInfo := r } where
  indexed := h.indexed.record hr
  fixed_offset := h.fixed_append (Int.le_refl 0) 4
  recorded_offset := fun x hx => by
    rcases List.mem_cons.mp (hr.mem_iff.mp hx) with rfl | hx
    · exact ⟨w, rfl⟩
    · exact h.recorded_offset x hx
  object_offset := h.object_offset
  alignment_le := h.alignment_le
  maxAlignment_pow := h.maxAlignment_pow
  protector_live := h.protector_live

theorem loadArg (w : Nat) : (mf.loadArg 4 (-(4 + 4 * w))).Created :=
  h.record (w := w) (by
    simp only [RigelFunctionInfo.recordLoadArgsFI, RigelFunctionInfo.recorded, List.append_assoc]
    exact List.perm_middle)

theorem storeVarArg (w : Nat) : (mf.storeVarArg w).Created :=
  h.record (w := w) (by
    rw [show (4 + 4 * (w : Int)) = 4 + w * 4 by omega, RigelFunctionInfo.recorded_first]
    simp only [RigelFunctionInfo.recordStoreVarArgsFI, RigelFunctionInfo.recorded, ← List.append_assoc]
    exact List.perm_append_singleton ..)

/-- An object more, alive and of any alignment. -/
theorem append {o : StackObject} {m : MachineFrameInfo} (hf : m.fixedObjects = mf.frameInfo.fixedObjects)
    (ho : m.objects = mf.frameInfo.objects ++ [o]) (h0 : o.spOffset = 0)
    (ha : m.maxAlignment = max mf.frameInfo.maxAlignment o.alignment)
    (hp : m.stackProtectorIdx = mf.frameInfo.stackProtectorIdx) : Created { mf with frameInfo := m } where
  indexed := h.indexed.mono rfl (by rw [hf])
  fixed_offset := by simpa only [hf] using h.fixed_offset
  recorded_offset := h.recorded_offset
  object_offset := fun x hx => by
    rcases List.mem_append.mp (ho ▸ hx) with hx | hx
    · exact h.object_offset x hx
    · rw [List.mem_singleton.mp hx, h0]
  alignment_le := fun x hx => by
    rw [ha]
    rcases List.mem_append.mp (ho ▸ hx) with hx | hx
    · exact (h.alignment_le x hx).trans (Nat.le_max_left ..)
    · rw [List.mem_singleton.mp hx]; exact Nat.le_max_right ..
  maxAlignment_pow := .inr (by
    rw [ha]
    rcases Nat.le_total mf.frameInfo.maxAlignment o.alignment with hle | hle
    · rw [Nat.max_eq_right hle]; exact o.alignment_pow
    · rw [Nat.max_eq_left hle]
      exact h.maxAlignment_pow.resolve_left fun h0 => by have := o.alignment_pos; omega)
  protector_live := fun i hi => by
    obtain ⟨x, hx, hl⟩ := h.protector_live i (hp ▸ hi)
    exact ⟨x, by rw [ho]; exact List.getElem?_append_left (List.getElem?_eq_some_iff.mp hx).1 ▸ hx, hl⟩

theorem createStackObject (size : Nat) {alignment : Nat} (ha : ∃ k < 32, alignment = 2 ^ k) (b : Bool) :
    Created { mf with frameInfo := (mf.frameInfo.createStackObject size alignment ha b).2 } :=
  h.append rfl rfl rfl rfl rfl

theorem createVariableSizedObject {alignment : Nat} (ha : ∃ k < 32, alignment = 2 ^ k) :
    Created { mf with frameInfo := (mf.frameInfo.createVariableSizedObject alignment ha).2 } :=
  h.append rfl rfl rfl rfl rfl

/-- An object dies, but not the stack protector. -/
theorem removeStackObject {i : Nat} (hi : mf.frameInfo.stackProtectorIdx ≠ some i) :
    Created { mf with frameInfo := mf.frameInfo.removeStackObject i } where
  indexed := h.indexed.mono rfl (List.prefix_refl _)
  fixed_offset := h.fixed_offset
  recorded_offset := h.recorded_offset
  object_offset := fun o ho => by
    obtain ⟨x, hx, he⟩ := mem_removeStackObject ho
    exact he.1 ▸ h.object_offset x hx
  alignment_le := fun o ho => by
    obtain ⟨x, hx, he⟩ := mem_removeStackObject ho
    exact he.2 ▸ h.alignment_le x hx
  maxAlignment_pow := h.maxAlignment_pow
  protector_live := fun j hj => by
    obtain ⟨o, ho, hl⟩ := h.protector_live j hj
    refine ⟨o, ?_, hl⟩
    rw [MachineFrameInfo.removeStackObject, List.getElem?_modify, ho]
    simp [show i ≠ j from fun e => hi (e ▸ hj)]

/-- An object becomes the stack protector. -/
theorem setStackProtectorIndex {i : Nat} {o : StackObject} (ho : mf.frameInfo.objects[i]? = some o)
    (hl : o.isDead = false) : Created { mf with frameInfo := { mf.frameInfo with stackProtectorIdx := some i } } :=
  { h with
    indexed := h.indexed.mono rfl (List.prefix_refl _)
    protector_live := fun _ hj => Option.some.inj hj ▸ ⟨o, ho, hl⟩ }

/-- The flags of a function say nothing of its objects. -/
theorem setFlags (adjustsStack hasCalls : Bool) (maxCallFrameSize : Nat) :
    Created { mf with frameInfo := { mf.frameInfo with adjustsStack, hasCalls, maxCallFrameSize } } :=
  { h with indexed := h.indexed.mono rfl (List.prefix_refl _) }

end MachineFunction.Created

end Rigel
