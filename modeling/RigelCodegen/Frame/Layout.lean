import RigelCodegen.Frame.MachineFrameInfo

/-!
# Frame layout

`PEI` up to the prologue (`layoutFrame`): the slots of the callee-saved
registers, and `calculateFrameObjectOffsets` for a stack that grows up. Its
loops run through the callee-saved slots downwards, the stack protector, the
objects next to it, and what is left (`layoutOrder`); together they place
every live object once (`mem_layoutOrder`, `layoutOrder_nodup`), as the
allocator of `Packing` does (`layoutObjects_packed`). `layoutFrame_laidOut`
sums up what is known of the frame then.
-/

namespace Rigel

open Packing

/-- `MinCSFrameIndex` and `MaxCSFrameIndex`. The former is `INT_MAX`, here
`none`, when no register is saved: no index reaches it. -/
structure CSFrameIndices where
  minCSFrameIndex : Option Nat := none
  maxCSFrameIndex : Nat := 0
  deriving DecidableEq, Repr

namespace CSFrameIndices

/-- `i >= MinCSFrameIndex && i <= MaxCSFrameIndex`. -/
def contains (cs : CSFrameIndices) (i : Nat) : Bool :=
  cs.minCSFrameIndex.any fun lo => lo ≤ i && i ≤ cs.maxCSFrameIndex

/-- The indices from `MaxCSFrameIndex` down to `MinCSFrameIndex`. -/
def down (cs : CSFrameIndices) : List Nat :=
  match cs.minCSFrameIndex with
  | none => []
  | some lo => (List.range' lo (cs.maxCSFrameIndex + 1 - lo)).reverse

/-- The indices with one more slot, `i`. -/
def insert (cs : CSFrameIndices) (i : Nat) : CSFrameIndices where
  minCSFrameIndex := some (match cs.minCSFrameIndex with
    | none => i
    | some lo => if i < lo then i else lo)
  maxCSFrameIndex := if cs.maxCSFrameIndex < i then i else cs.maxCSFrameIndex

end CSFrameIndices

/-- `calculateCalleeSavedRegisters`: a slot for each callee-saved register
that is used. -/
def calculateCalleeSavedRegisters (isPhysRegUsed : Reg → Bool) (m : MachineFrameInfo) :
    CSFrameIndices × MachineFrameInfo :=
  (getCalleeSavedRegs.filter isPhysRegUsed).foldl
    (fun c _ =>
      let (i, m) := c.2.createStackObject 4 (min 4 stackAlignment) four_pow false
      (c.1.insert i, m))
    ({}, m)

/-- The state of the loops: `Offset`, `MaxAlign` and the frame. -/
structure Layout where
  offset : Nat
  maxAlign : Nat
  frameInfo : MachineFrameInfo

/-- `AdjustStackOffset`. The loop over the callee-saved slots does the same,
but for `MaxAlign`, which is read after it. -/
def Layout.adjustStackOffset (l : Layout) (i : Nat) : Layout :=
  let align := l.frameInfo.getObjectAlignment i
  let offset := alignUp l.offset align
  { offset := offset + l.frameInfo.getObjectSize i
    maxAlign := max l.maxAlign align
    frameInfo := l.frameInfo.setObjectOffset i offset }

/-- The end of the last fixed object. -/
def fixedEnd (m : MachineFrameInfo) : Nat :=
  m.fixedObjects.reverse.foldl
    (fun off o => if (off : Int) < o.spOffset + o.size then (o.spOffset + o.size).toNat else off) 0

/-- The objects that come right after the stack protector. -/
def largeStackObjs (cs : CSFrameIndices) (m : MachineFrameInfo) : List Nat :=
  match m.stackProtectorIdx with
  | none => []
  | some p => (List.range m.objects.length).filter fun i =>
      !cs.contains i && !m.isDeadObjectIndex i && p != i && m.mayNeedStackProtector i

/-- The objects that are left then. -/
def otherStackObjs (cs : CSFrameIndices) (m : MachineFrameInfo) : List Nat :=
  (List.range m.objects.length).filter fun i =>
    !cs.contains i && !m.isDeadObjectIndex i && m.stackProtectorIdx != some i &&
      !(largeStackObjs cs m).contains i

/-- The four loops of `calculateFrameObjectOffsets`. There is no register
scavenger, and no local block is in use. -/
def layoutObjects (cs : CSFrameIndices) (m : MachineFrameInfo) : Layout :=
  let l := cs.down.foldl Layout.adjustStackOffset ⟨fixedEnd m, 0, m⟩
  let l := { l with maxAlign := l.frameInfo.maxAlignment }
  let l := m.stackProtectorIdx.toList.foldl Layout.adjustStackOffset l
  let l := (largeStackObjs cs m).foldl Layout.adjustStackOffset l
  (otherStackObjs cs m).foldl Layout.adjustStackOffset l

/-- `calculateFrameObjectOffsets`: the offsets, then the size of the stack,
with the call frame if it is reserved, rounded up. -/
def calculateFrameObjectOffsets (cs : CSFrameIndices) (mf : MachineFunction) : MachineFunction :=
  let l := layoutObjects cs mf.frameInfo
  let offset := if mf.frameInfo.adjustsStack && !hasFP mf then l.offset + mf.frameInfo.maxCallFrameSize
    else l.offset
  let stackAlign := max stackAlignment l.maxAlign
  { mf with frameInfo := { l.frameInfo with stackSize := alignUp offset stackAlign } }

/-! ## The loops as an allocator -/

namespace Layout

/-- The loops place objects one after the other. -/
def bump (l : Layout) : Bump Nat := ⟨l.offset, fun i => (l.frameInfo.getObjectOffset i).toNat⟩

/-- The same objects, wherever they are placed. -/
structure Similar (m m' : MachineFrameInfo) : Prop where
  length : m'.objects.length = m.objects.length
  size : m'.getObjectSize = m.getObjectSize
  alignment : m'.getObjectAlignment = m.getObjectAlignment
  dead : m'.isDeadObjectIndex = m.isDeadObjectIndex
  others : { m' with objects := m.objects } = m

theorem Similar.refl (m : MachineFrameInfo) : Similar m m := ⟨rfl, rfl, rfl, rfl, rfl⟩

theorem Similar.trans {m m' m'' : MachineFrameInfo} (h : Similar m m') (h' : Similar m' m'') : Similar m m'' where
  length := h'.length.trans h.length
  size := h'.size.trans h.size
  alignment := h'.alignment.trans h.alignment
  dead := h'.dead.trans h.dead
  others := by rw [← h.others, ← h'.others]

theorem similar_setObjectOffset (m : MachineFrameInfo) (i : Nat) (off : Int) :
    Similar m (m.setObjectOffset i off) where
  length := List.length_modify ..
  size := by
    funext j
    simp only [MachineFrameInfo.getObjectSize, MachineFrameInfo.setObjectOffset, List.getElem?_modify]
    cases m.objects[j]? <;> simp
    split <;> rfl
  alignment := by
    funext j
    simp only [MachineFrameInfo.getObjectAlignment, MachineFrameInfo.setObjectOffset, List.getElem?_modify]
    cases m.objects[j]? <;> simp
    split <;> rfl
  dead := by
    funext j
    simp only [MachineFrameInfo.isDeadObjectIndex, MachineFrameInfo.setObjectOffset, List.getElem?_modify]
    cases m.objects[j]? <;> simp
    split <;> rfl
  others := rfl

theorem similar_adjustStackOffset (l : Layout) (i : Nat) :
    Similar l.frameInfo (l.adjustStackOffset i).frameInfo := similar_setObjectOffset ..

theorem getObjectOffset_setObjectOffset (m : MachineFrameInfo) {i : Nat} (hi : i < m.objects.length) (off : Int)
    (j : Nat) : (m.setObjectOffset i off).getObjectOffset j = if i = j then off else m.getObjectOffset j := by
  rw [MachineFrameInfo.getObjectOffset_setObjectOffset _ (by simp [MachineFrameInfo.getObject, hi])]
  simp only [Int.natCast_inj]

theorem bump_adjustStackOffset (l : Layout) {i : Nat} (hi : i < l.frameInfo.objects.length) :
    (l.adjustStackOffset i).bump = l.bump.place l.frameInfo.getObjectSize l.frameInfo.getObjectAlignment i := by
  simp only [bump, adjustStackOffset, Bump.place, Bump.mk.injEq, true_and]
  funext j
  rw [getObjectOffset_setObjectOffset _ hi, Function.update_apply]
  split
  · subst i; simp
  · rw [if_neg (by omega)]

theorem similar_foldl (l : Layout) (is : List Nat) : Similar l.frameInfo (is.foldl adjustStackOffset l).frameInfo := by
  induction is generalizing l with
  | nil => exact .refl _
  | cons i is ih => exact (l.similar_adjustStackOffset i).trans (ih _)

/-- A loop is a run of the allocator. -/
theorem bump_foldl (l : Layout) (is : List Nat) (hi : ∀ i ∈ is, i < l.frameInfo.objects.length) :
    (is.foldl adjustStackOffset l).bump =
      is.foldl (Bump.place l.frameInfo.getObjectSize l.frameInfo.getObjectAlignment) l.bump := by
  induction is generalizing l with
  | nil => rfl
  | cons i is ih =>
    have hs := l.similar_adjustStackOffset i
    have := ih (l.adjustStackOffset i) fun j hj => hs.length ▸ hi j (List.mem_cons_of_mem _ hj)
    rwa [hs.size, hs.alignment, l.bump_adjustStackOffset (hi i (List.mem_cons_self ..))] at this

/-- The largest alignment stays the one recorded. -/
theorem maxAlign_foldl (l : Layout) (is : List Nat) (h : ∀ i ∈ is, l.frameInfo.getObjectAlignment i ≤ l.maxAlign) :
    (is.foldl adjustStackOffset l).maxAlign = l.maxAlign := by
  induction is generalizing l with
  | nil => rfl
  | cons i is ih =>
    have hm : (l.adjustStackOffset i).maxAlign = l.maxAlign := Nat.max_eq_left (h i (List.mem_cons_self ..))
    rw [List.foldl_cons, ih _ fun j hj => ?_, hm]
    rw [hm, (l.similar_adjustStackOffset i).alignment]
    exact h j (List.mem_cons_of_mem _ hj)

/-- `MaxAlign` has no part in where objects are placed. -/
theorem foldl_setMaxAlign (l : Layout) (x : Nat) (is : List Nat) :
    ∃ y, is.foldl adjustStackOffset { l with maxAlign := x } =
      { is.foldl adjustStackOffset l with maxAlign := y } := by
  induction is generalizing l x with
  | nil => exact ⟨x, rfl⟩
  | cons i is ih => exact ih (l.adjustStackOffset i) (max x (l.frameInfo.getObjectAlignment i))

/-- No loop places an object below the frame. -/
theorem nonneg_foldl (l : Layout) (is : List Nat) (hi : ∀ i ∈ is, i < l.frameInfo.objects.length)
    (h : ∀ i : Nat, 0 ≤ l.frameInfo.getObjectOffset i) (i : Nat) :
    0 ≤ (is.foldl adjustStackOffset l).frameInfo.getObjectOffset i := by
  induction is generalizing l with
  | nil => exact h i
  | cons j is ih =>
    refine ih _ (fun k hk => ?_) fun k => ?_
    · rw [(l.similar_adjustStackOffset j).length]
      exact hi k (List.mem_cons_of_mem _ hk)
    · rw [adjustStackOffset, getObjectOffset_setObjectOffset _ (hi j (List.mem_cons_self ..))]
      split
      · exact Int.natCast_nonneg _
      · exact h k

end Layout

/-- The order the loops place objects in. -/
def layoutOrder (cs : CSFrameIndices) (m : MachineFrameInfo) : List Nat :=
  cs.down ++ (m.stackProtectorIdx.toList ++ largeStackObjs cs m ++ otherStackObjs cs m)

theorem CSFrameIndices.mem_down {cs : CSFrameIndices} {i : Nat} : i ∈ cs.down ↔ cs.contains i = true := by
  unfold down contains
  cases cs.minCSFrameIndex with
  | none => simp
  | some lo =>
    rw [List.mem_reverse, List.mem_range'_1]
    simp only [Option.any_some, Bool.and_eq_true, decide_eq_true_eq]
    omega

theorem CSFrameIndices.down_nodup (cs : CSFrameIndices) : cs.down.Nodup := by
  unfold down
  split
  · exact List.nodup_nil
  · rw [List.nodup_reverse]; exact List.nodup_range'

section Order

variable {cs : CSFrameIndices} {m : MachineFrameInfo}

theorem mem_largeStackObjs {i : Nat} (h : i ∈ largeStackObjs cs m) :
    cs.contains i = false ∧ m.isDeadObjectIndex i = false ∧ m.stackProtectorIdx ≠ some i := by
  unfold largeStackObjs at h
  split at h
  · cases h
  · rename_i p hp
    simp only [List.mem_filter, Bool.and_eq_true, Bool.not_eq_true', bne_iff_ne] at h
    exact ⟨h.2.1.1.1, h.2.1.1.2, by rw [hp]; simpa using h.2.1.2⟩

theorem mem_otherStackObjs {i : Nat} : i ∈ otherStackObjs cs m ↔
    i < m.objects.length ∧ cs.contains i = false ∧ m.isDeadObjectIndex i = false ∧
      m.stackProtectorIdx ≠ some i ∧ i ∉ largeStackObjs cs m := by
  simp [otherStackObjs, and_assoc]

theorem lt_of_not_dead {i : Nat} (h : m.isDeadObjectIndex i = false) : i < m.objects.length := by
  by_contra hn
  simp [MachineFrameInfo.isDeadObjectIndex, List.getElem?_eq_none (Nat.le_of_not_lt hn)] at h

/-- Every live object is placed, and nothing else. -/
theorem mem_layoutOrder (hc : ∀ i, cs.contains i = true → m.isDeadObjectIndex i = false)
    (hp : ∀ p, m.stackProtectorIdx = some p → m.isDeadObjectIndex p = false) {i : Nat} :
    i ∈ layoutOrder cs m ↔ m.isDeadObjectIndex i = false := by
  simp only [layoutOrder, List.mem_append, CSFrameIndices.mem_down, Option.mem_toList,
    mem_otherStackObjs]
  constructor
  · rintro (h | (h | h) | h)
    · exact hc i h
    · exact hp i h
    · exact (mem_largeStackObjs h).2.1
    · exact h.2.2.1
  · intro h
    by_cases hcs : cs.contains i = true
    · exact .inl hcs
    · by_cases hpi : m.stackProtectorIdx = some i
      · exact .inr (.inl (.inl hpi))
      · by_cases hl : i ∈ largeStackObjs cs m
        · exact .inr (.inl (.inr hl))
        · exact .inr (.inr ⟨lt_of_not_dead h, by simpa using hcs, h, hpi, hl⟩)

/-- No object is placed twice. -/
theorem layoutOrder_nodup (hp : ∀ p, m.stackProtectorIdx = some p → cs.contains p = false) :
    (layoutOrder cs m).Nodup := by
  have hlarge : (largeStackObjs cs m).Nodup := by
    unfold largeStackObjs
    split
    · exact List.nodup_nil
    · exact List.nodup_range.filter _
  rw [layoutOrder, List.nodup_append, List.nodup_append, List.nodup_append]
  refine ⟨cs.down_nodup, ⟨⟨by cases m.stackProtectorIdx <;> simp, hlarge, ?_⟩, List.nodup_range.filter _, ?_⟩, ?_⟩
  · rintro i hi _ hj rfl
    exact (mem_largeStackObjs hj).2.2 (Option.mem_toList.mp hi)
  · rintro i hi _ hj rfl
    have ho := mem_otherStackObjs.mp hj
    rcases List.mem_append.mp hi with hi | hi
    · exact ho.2.2.2.1 (Option.mem_toList.mp hi)
    · exact ho.2.2.2.2 hi
  · rintro i hi _ hj rfl
    have hf : cs.contains i = false := by
      rcases List.mem_append.mp hj with hj | hj
      · rcases List.mem_append.mp hj with hj | hj
        · exact hp i (Option.mem_toList.mp hj)
        · exact (mem_largeStackObjs hj).1
      · exact (mem_otherStackObjs.mp hj).2.1
    rw [CSFrameIndices.mem_down, hf] at hi
    cases hi

end Order

/-- The bytes of an object. -/
def MachineFrameInfo.objectSpan (m : MachineFrameInfo) (i : Nat) : Span :=
  ⟨(m.getObjectOffset i).toNat, m.getObjectSize i⟩

section Objects

variable {cs : CSFrameIndices} {m : MachineFrameInfo}

/-- The three loops after the one over the callee-saved slots. -/
theorem layoutObjects_eq_foldl (cs : CSFrameIndices) (m : MachineFrameInfo) :
    layoutObjects cs m =
      (m.stackProtectorIdx.toList ++ largeStackObjs cs m ++ otherStackObjs cs m).foldl Layout.adjustStackOffset
        { cs.down.foldl Layout.adjustStackOffset ⟨fixedEnd m, 0, m⟩ with
          maxAlign := (cs.down.foldl Layout.adjustStackOffset ⟨fixedEnd m, 0, m⟩).frameInfo.maxAlignment } := by
  simp only [layoutObjects, List.foldl_append]

theorem layoutObjects_eq (cs : CSFrameIndices) (m : MachineFrameInfo) :
    ∃ y, layoutObjects cs m =
      { (layoutOrder cs m).foldl Layout.adjustStackOffset ⟨fixedEnd m, 0, m⟩ with maxAlign := y } := by
  obtain ⟨y, hy⟩ := Layout.foldl_setMaxAlign (cs.down.foldl Layout.adjustStackOffset ⟨fixedEnd m, 0, m⟩) _ _
  exact ⟨y, by rw [layoutObjects_eq_foldl, hy, layoutOrder, ← List.foldl_append]⟩

theorem layoutObjects_similar (cs : CSFrameIndices) (m : MachineFrameInfo) :
    Layout.Similar m (layoutObjects cs m).frameInfo := by
  obtain ⟨y, he⟩ := layoutObjects_eq cs m
  rw [he]
  exact Layout.similar_foldl ⟨fixedEnd m, 0, m⟩ _

/-- Every object is where an allocator that starts at the end of the fixed
objects puts it. -/
theorem layoutObjects_packed (hc : ∀ i, cs.contains i = true → m.isDeadObjectIndex i = false)
    (hp : ∀ p, m.stackProtectorIdx = some p → m.isDeadObjectIndex p = false ∧ cs.contains p = false) :
    Packed m.getObjectSize m.getObjectAlignment (fixedEnd m) (layoutOrder cs m).reverse (layoutObjects cs m).bump := by
  have hlt : ∀ i ∈ layoutOrder cs m, i < m.objects.length := fun i hi =>
    lt_of_not_dead ((mem_layoutOrder hc fun p h => (hp p h).1).mp hi)
  obtain ⟨y, he⟩ := layoutObjects_eq cs m
  have hb := Layout.bump_foldl ⟨fixedEnd m, 0, m⟩ _ hlt
  have hpos : ∀ i, 0 < m.getObjectAlignment i := fun i => by
    unfold MachineFrameInfo.getObjectAlignment
    cases m.objects[i]? with
    | none => exact Nat.one_pos
    | some o => exact o.alignment_pos
  have hpk := (Packed.nil m.getObjectSize m.getObjectAlignment (Layout.bump ⟨fixedEnd m, 0, m⟩)).places hpos
    (layoutOrder cs m) (layoutOrder_nodup fun p h => (hp p h).2) (by simp)
  rw [List.append_nil, ← hb] at hpk
  rw [he]
  exact hpk

theorem layoutObjects_maxAlign (h : ∀ i ∈ layoutOrder cs m, i < m.objects.length)
    (ha : ∀ i < m.objects.length, m.getObjectAlignment i ≤ m.maxAlignment) :
    (layoutObjects cs m).maxAlign = m.maxAlignment := by
  have hs := Layout.similar_foldl ⟨fixedEnd m, 0, m⟩ cs.down
  have hm : (cs.down.foldl Layout.adjustStackOffset ⟨fixedEnd m, 0, m⟩).frameInfo.maxAlignment = m.maxAlignment :=
    (congrArg MachineFrameInfo.maxAlignment hs.others :)
  rw [layoutObjects_eq_foldl, Layout.maxAlign_foldl, hm]
  intro i hi
  simp only [hs.alignment, hm]
  exact ha i (h i (List.mem_append_right _ hi))

theorem layoutObjects_nonneg (h : ∀ i ∈ layoutOrder cs m, i < m.objects.length)
    (h0 : ∀ i : Nat, 0 ≤ m.getObjectOffset i) (i : Nat) : 0 ≤ (layoutObjects cs m).frameInfo.getObjectOffset i := by
  obtain ⟨y, he⟩ := layoutObjects_eq cs m
  rw [he]
  exact Layout.nonneg_foldl ⟨fixedEnd m, 0, m⟩ _ h h0 i

end Objects

/-! ## The frame that PEI lays out -/

/-- `PEI`, up to the prologue. -/
def layoutFrame (isPhysRegUsed : Reg → Bool) (mf : MachineFunction) : MachineFunction :=
  let (cs, m) := calculateCalleeSavedRegisters isPhysRegUsed mf.frameInfo
  calculateFrameObjectOffsets cs { mf with frameInfo := m }

/-- The slot of a callee-saved register, as it is created. -/
def csSlot : StackObject := ⟨0, 4, min 4 stackAlignment, false, four_pow⟩

/-- After `k` callee-saved registers: `k` slots at the end of the objects, in
the order of their indices. -/
structure Saved (m : MachineFrameInfo) (k : Nat) (c : CSFrameIndices × MachineFrameInfo) : Prop where
  objects : c.2.objects = m.objects ++ List.replicate k csSlot
  others : { c.2 with objects := m.objects, maxAlignment := m.maxAlignment } = m
  indices : c.1 = if k = 0 then {} else ⟨some m.objects.length, m.objects.length + k - 1⟩

theorem Saved.step {m : MachineFrameInfo} {k : Nat} {c : CSFrameIndices × MachineFrameInfo} (h : Saved m k c) :
    Saved m (k + 1)
      (c.1.insert (c.2.createStackObject 4 (min 4 stackAlignment) four_pow false).1,
        (c.2.createStackObject 4 (min 4 stackAlignment) four_pow false).2) where
  objects := by
    rw [List.replicate_succ', ← List.append_assoc, ← h.objects]; rfl
  others := h.others
  indices := by
    have hlen : c.2.objects.length = m.objects.length + k := by rw [h.objects]; simp
    simp only [MachineFrameInfo.createStackObject, hlen, h.indices, CSFrameIndices.insert]
    rcases Nat.eq_zero_or_pos k with rfl | hk
    · simp only [if_true, Nat.zero_add, Nat.one_ne_zero, if_false, Nat.add_zero, CSFrameIndices.mk.injEq, true_and]
      split <;> omega
    · simp only [Nat.ne_of_gt hk, Nat.add_one_ne_zero, if_false, CSFrameIndices.mk.injEq, Option.some.injEq]
      constructor <;> split <;> omega

theorem calculateCalleeSavedRegisters_savedRegs (isPhysRegUsed : Reg → Bool) (m : MachineFrameInfo) :
    Saved m (getCalleeSavedRegs.filter isPhysRegUsed).length (calculateCalleeSavedRegisters isPhysRegUsed m) := by
  unfold calculateCalleeSavedRegisters
  have h0 : Saved m 0 (({}, m) : CSFrameIndices × _) := ⟨by simp, rfl, rfl⟩
  generalize getCalleeSavedRegs.filter isPhysRegUsed = rs
  generalize (({}, m) : CSFrameIndices × _) = c at h0 ⊢
  rw [← Nat.zero_add rs.length]
  generalize (0 : Nat) = k at h0
  induction rs generalizing k c with
  | nil => exact h0
  | cons r rs ih =>
    rw [List.length_cons, Nat.add_comm rs.length, ← Nat.add_assoc]
    exact ih _ _ h0.step

theorem calculateCalleeSavedRegisters_saved (isPhysRegUsed : Reg → Bool) (m : MachineFrameInfo) :
    ∃ k, Saved m k (calculateCalleeSavedRegisters isPhysRegUsed m) :=
  ⟨_, calculateCalleeSavedRegisters_savedRegs isPhysRegUsed m⟩

theorem calculateCalleeSavedRegisters_created (isPhysRegUsed : Reg → Bool) {mf : MachineFunction} (h : mf.Created) :
    MachineFunction.Created
      { mf with frameInfo := (calculateCalleeSavedRegisters isPhysRegUsed mf.frameInfo).2 } := by
  unfold calculateCalleeSavedRegisters
  have h0 : MachineFunction.Created { mf with frameInfo := (({}, mf.frameInfo) : CSFrameIndices × _).2 } := h
  generalize getCalleeSavedRegs.filter isPhysRegUsed = rs
  generalize (({}, mf.frameInfo) : CSFrameIndices × _) = c at h0 ⊢
  induction rs generalizing c with
  | nil => exact h0
  | cons r rs ih => exact ih _ (h0.createStackObject ..)

theorem Saved.contains {m : MachineFrameInfo} {k : Nat} {c : CSFrameIndices × MachineFrameInfo} (h : Saved m k c)
    {i : Nat} : c.1.contains i = true ↔ m.objects.length ≤ i ∧ i < m.objects.length + k := by
  rw [h.indices]
  split
  · subst k; simp [CSFrameIndices.contains]
  · simp only [CSFrameIndices.contains, Option.any_some, Bool.and_eq_true, decide_eq_true_eq]
    omega

/-- The callee-saved slots are live. -/
theorem Saved.live {m : MachineFrameInfo} {k : Nat} {c : CSFrameIndices × MachineFrameInfo} (h : Saved m k c)
    {i : Nat} (hi : c.1.contains i = true) : c.2.isDeadObjectIndex i = false := by
  have hi := h.contains.mp hi
  rw [MachineFrameInfo.isDeadObjectIndex, h.objects, List.getElem?_append_right hi.1, List.getElem?_replicate,
    if_pos (by omega)]
  rfl

/-- The stack protector is live and no callee-saved slot. -/
theorem Saved.protector {mf : MachineFunction} (hc : mf.Created) {k : Nat} {c : CSFrameIndices × MachineFrameInfo}
    (h : Saved mf.frameInfo k c) {p : Nat} (hp : c.2.stackProtectorIdx = some p) :
    c.2.isDeadObjectIndex p = false ∧ c.1.contains p = false := by
  have hidx : c.2.stackProtectorIdx = mf.frameInfo.stackProtectorIdx :=
    (congrArg MachineFrameInfo.stackProtectorIdx h.others :)
  obtain ⟨o, ho, hl⟩ := hc.protector_live p (hidx ▸ hp)
  have hlt := (List.getElem?_eq_some_iff.mp ho).1
  constructor
  · rw [MachineFrameInfo.isDeadObjectIndex, h.objects, List.getElem?_append_left hlt, ho]
    exact hl
  · rw [← Bool.not_eq_true, h.contains]; omega

/-- Objects that are placed are still as they were created. -/
theorem MachineFunction.Created.similar {mf : MachineFunction} (h : mf.Created) {m : MachineFrameInfo}
    (hs : Layout.Similar mf.frameInfo m) (h0 : ∀ i : Nat, 0 ≤ m.getObjectOffset i) :
    Created { mf with frameInfo := m } where
  indexed := h.indexed.mono rfl (by
    rw [show m.fixedObjects = mf.frameInfo.fixedObjects from (congrArg MachineFrameInfo.fixedObjects hs.others :)])
  fixed_offset := by
    have : m.fixedObjects = mf.frameInfo.fixedObjects := (congrArg MachineFrameInfo.fixedObjects hs.others :)
    simpa only [this] using h.fixed_offset
  recorded_offset := h.recorded_offset
  object_offset := fun o ho => by
    obtain ⟨i, hi⟩ := List.mem_iff_getElem?.mp ho
    have := h0 i
    simpa [MachineFrameInfo.getObjectOffset, MachineFrameInfo.getObject, hi] using this
  alignment_le := fun o ho => by
    obtain ⟨i, hi⟩ := List.mem_iff_getElem?.mp ho
    have ha : m.getObjectAlignment i = o.alignment := by simp [MachineFrameInfo.getObjectAlignment, hi]
    have hm : m.maxAlignment = mf.frameInfo.maxAlignment := (congrArg MachineFrameInfo.maxAlignment hs.others :)
    rw [← ha, hs.alignment, hm]
    exact h.getObjectAlignment_le (hs.length ▸ (List.getElem?_eq_some_iff.mp hi).1)
  maxAlignment_pow := by
    have hm : m.maxAlignment = mf.frameInfo.maxAlignment := (congrArg MachineFrameInfo.maxAlignment hs.others :)
    simpa only [hm] using h.maxAlignment_pow
  protector_live := fun p hp => by
    have hidx : m.stackProtectorIdx = mf.frameInfo.stackProtectorIdx :=
      (congrArg MachineFrameInfo.stackProtectorIdx hs.others :)
    obtain ⟨o, ho, hl⟩ := h.protector_live p (hidx ▸ hp)
    have hd : m.isDeadObjectIndex p = false := by
      rw [hs.dead]; simpa [MachineFrameInfo.isDeadObjectIndex, ho] using hl
    have hlt := lt_of_not_dead hd
    refine ⟨m.objects[p], List.getElem?_eq_getElem hlt, ?_⟩
    simpa [MachineFrameInfo.isDeadObjectIndex, List.getElem?_eq_getElem hlt] using hd

/-- The frame `PEI` hands to `adjustRigelStackFrame`. -/
structure MachineFunction.LaidOut (mf : MachineFunction) : Prop where
  created : mf.Created
  /-- Every live object lies between the fixed objects and the end. -/
  within : ∀ i, mf.frameInfo.isDeadObjectIndex i = false →
    (mf.frameInfo.objectSpan i).Within (fixedEnd mf.frameInfo) mf.frameInfo.stackSize
  disjoint : ∀ i j, mf.frameInfo.isDeadObjectIndex i = false → mf.frameInfo.isDeadObjectIndex j = false → i ≠ j →
    (mf.frameInfo.objectSpan i).Disjoint (mf.frameInfo.objectSpan j)
  aligned : ∀ i, mf.frameInfo.isDeadObjectIndex i = false →
    mf.frameInfo.getObjectAlignment i ∣ (mf.frameInfo.getObjectOffset i).toNat
  fixedEnd_le : fixedEnd mf.frameInfo ≤ mf.frameInfo.stackSize
  /-- The size is rounded up to the largest alignment. -/
  stackAlign_dvd : max stackAlignment mf.frameInfo.maxAlignment ∣ mf.frameInfo.stackSize

/-- What the size is rounded up to is a power of two, and at least 4. -/
theorem MachineFunction.Created.stackAlign_pow {mf : MachineFunction} (h : mf.Created) :
    ∃ k < 32, 2 ≤ k ∧ max stackAlignment mf.frameInfo.maxAlignment = 2 ^ k := by
  have h4 : stackAlignment = 2 ^ 2 := rfl
  rcases h.maxAlignment_pow with h0 | ⟨k, hlt, hk⟩
  · exact ⟨2, by decide, by decide, by rw [h0]; rfl⟩
  · rcases Nat.le_total k 2 with hle | hge
    · exact ⟨2, by decide, by decide, by rw [hk, h4, Nat.max_eq_left (Nat.pow_le_pow_right (by decide) hle)]⟩
    · exact ⟨k, hlt, hge, by rw [hk, h4, Nat.max_eq_right (Nat.pow_le_pow_right (by decide) hge)]⟩

theorem MachineFunction.LaidOut.four_dvd {mf : MachineFunction} (h : mf.LaidOut) : 4 ∣ mf.frameInfo.stackSize := by
  obtain ⟨k, -, hk, he⟩ := h.created.stackAlign_pow
  exact Nat.dvd_trans (he ▸ Nat.pow_dvd_pow 2 hk) h.stackAlign_dvd

theorem fixedEnd_eq_of_fixedObjects {m m' : MachineFrameInfo} (h : m'.fixedObjects = m.fixedObjects) :
    fixedEnd m' = fixedEnd m := by rw [fixedEnd, fixedEnd, h]

theorem layoutFrame_laidOut (isPhysRegUsed : Reg → Bool) {mf : MachineFunction} (h : mf.Created) :
    (layoutFrame isPhysRegUsed mf).LaidOut := by
  obtain ⟨k, hsv⟩ := calculateCalleeSavedRegisters_saved isPhysRegUsed mf.frameInfo
  have hc := calculateCalleeSavedRegisters_created isPhysRegUsed h
  unfold layoutFrame
  generalize calculateCalleeSavedRegisters isPhysRegUsed mf.frameInfo = c at hsv hc
  obtain ⟨cs, m⟩ := c
  have hcs := fun i => hsv.live (i := i)
  have hp := fun p => hsv.protector h (p := p)
  have hpk := layoutObjects_packed hcs hp
  have hs := layoutObjects_similar cs m
  have hmem {i : Nat} := mem_layoutOrder hcs (fun p h => (hp p h).1) (i := i)
  have hlt : ∀ i ∈ layoutOrder cs m, i < m.objects.length := fun i hi => lt_of_not_dead (hmem.mp hi)
  have hmax := layoutObjects_maxAlign hlt fun i hi => hc.getObjectAlignment_le hi
  have hsim := hc.similar hs (layoutObjects_nonneg hlt fun i => hc.getObjectOffset_nonneg i)
  have hfix : fixedEnd (layoutObjects cs m).frameInfo = fixedEnd m :=
    fixedEnd_eq_of_fixedObjects (congrArg MachineFrameInfo.fixedObjects hs.others :)
  have hm : (layoutObjects cs m).frameInfo.maxAlignment = m.maxAlignment :=
    (congrArg MachineFrameInfo.maxAlignment hs.others :)
  -- the size covers everything placed
  have hle : (layoutObjects cs m).offset ≤
      (calculateFrameObjectOffsets cs { mf with frameInfo := m }).frameInfo.stackSize := by
    refine le_trans ?_ (le_alignUp (lt_of_lt_of_le (by decide) (Nat.le_max_left ..)))
    split
    · exact Nat.le_add_right ..
    · exact Nat.le_refl _
  have hlive {i : Nat} (hi : (layoutObjects cs m).frameInfo.isDeadObjectIndex i = false) :
      i ∈ (layoutOrder cs m).reverse := by
    rw [hs.dead] at hi
    exact List.mem_reverse.mpr (hmem.mpr hi)
  refine ⟨{ hsim with indexed := hsim.indexed.mono rfl (List.prefix_refl _) }, fun i hi => ?_,
      fun i j hi hj hij => ?_, fun i hi => ?_, ?_, ?_⟩
  · have := hpk.within i (hlive hi)
    rw [← hs.size] at this
    exact this.mono (Nat.le_of_eq hfix) hle
  · have := hpk.disjoint i (hlive hi) j (hlive hj) hij
    rw [← hs.size] at this
    exact this
  · have := hpk.aligned i (hlive hi)
    rw [← hs.alignment] at this
    exact this
  · exact hfix.trans_le (hpk.le_next.trans hle)
  · show max stackAlignment (layoutObjects cs m).frameInfo.maxAlignment ∣ _
    rw [hm, ← hmax]
    exact dvd_alignUp ..

/-- The objects that are laid out are those of the function and the
callee-saved slots, but for their offsets. -/
theorem layoutFrame_objects (isPhysRegUsed : Reg → Bool) (mf : MachineFunction) :
    ∃ (k : Nat) (m : MachineFrameInfo), m.objects = mf.frameInfo.objects ++ List.replicate k csSlot ∧
      (layoutFrame isPhysRegUsed mf).frameInfo.getObjectSize = m.getObjectSize ∧
      (layoutFrame isPhysRegUsed mf).frameInfo.getObjectAlignment = m.getObjectAlignment ∧
      (layoutFrame isPhysRegUsed mf).frameInfo.isDeadObjectIndex = m.isDeadObjectIndex := by
  obtain ⟨k, hsv⟩ := calculateCalleeSavedRegisters_saved isPhysRegUsed mf.frameInfo
  have hs := layoutObjects_similar (calculateCalleeSavedRegisters isPhysRegUsed mf.frameInfo).1
    (calculateCalleeSavedRegisters isPhysRegUsed mf.frameInfo).2
  exact ⟨k, _, hsv.objects, hs.size, hs.alignment, hs.dead⟩

/-- All else of a function but its size stays. -/
theorem layoutFrame_others (isPhysRegUsed : Reg → Bool) (mf : MachineFunction) : ∃ os a n,
    layoutFrame isPhysRegUsed mf =
      { mf with frameInfo := { mf.frameInfo with objects := os, maxAlignment := a, stackSize := n } } := by
  obtain ⟨k, hsv⟩ := calculateCalleeSavedRegisters_saved isPhysRegUsed mf.frameInfo
  have hs := (layoutObjects_similar (calculateCalleeSavedRegisters isPhysRegUsed mf.frameInfo).1
    (calculateCalleeSavedRegisters isPhysRegUsed mf.frameInfo).2).others
  unfold layoutFrame calculateFrameObjectOffsets
  generalize calculateCalleeSavedRegisters isPhysRegUsed mf.frameInfo = c at hsv hs
  obtain ⟨cs, m⟩ := c
  have hsv := hsv.others
  have hm : { (layoutObjects cs m).frameInfo with
      objects := mf.frameInfo.objects, maxAlignment := mf.frameInfo.maxAlignment } = mf.frameInfo :=
    (congrArg (fun x : MachineFrameInfo =>
      { x with objects := mf.frameInfo.objects, maxAlignment := mf.frameInfo.maxAlignment }) hs).trans hsv
  have hn (n : Nat) : { (layoutObjects cs m).frameInfo with stackSize := n } = { mf.frameInfo with
      objects := (layoutObjects cs m).frameInfo.objects
      maxAlignment := (layoutObjects cs m).frameInfo.maxAlignment
      stackSize := n } := by rw [← hm]
  exact ⟨_, _, _, congrArg (fun x => { mf with frameInfo := x }) (hn _)⟩

theorem MachineFunction.Indexed.layoutFrame {mf : MachineFunction} (h : mf.Indexed) (isPhysRegUsed : Reg → Bool) :
    (layoutFrame isPhysRegUsed mf).Indexed := by
  obtain ⟨_, _, _, he⟩ := layoutFrame_others isPhysRegUsed mf
  rw [he]
  exact h.mono rfl (List.prefix_refl _)

theorem layoutFrame_hasFP (isPhysRegUsed : Reg → Bool) (mf : MachineFunction) :
    hasFP (layoutFrame isPhysRegUsed mf) = hasFP mf ∧
      (layoutFrame isPhysRegUsed mf).frameInfo.hasCalls = mf.frameInfo.hasCalls := by
  obtain ⟨_, _, _, h⟩ := layoutFrame_others isPhysRegUsed mf
  rw [h]
  exact ⟨rfl, rfl⟩

theorem MachineFrameInfo.getObjectAlignment_pos (m : MachineFrameInfo) (i : Nat) : 0 < m.getObjectAlignment i := by
  rw [getObjectAlignment]
  cases m.objects[i]? with
  | none => decide
  | some o => exact o.alignment_pos

theorem Layout.le_offset_foldl (l : Layout) (is : List Nat) : l.offset ≤ (is.foldl adjustStackOffset l).offset := by
  induction is generalizing l with
  | nil => exact Nat.le_refl _
  | cons i is ih =>
    refine le_trans ?_ (ih _)
    exact (le_alignUp (l.frameInfo.getObjectAlignment_pos i)).trans (Nat.le_add_right ..)

/-- The frame holds the fixed objects. -/
theorem fixedEnd_le_layoutFrame (isPhysRegUsed : Reg → Bool) (mf : MachineFunction) :
    fixedEnd mf.frameInfo ≤ (layoutFrame isPhysRegUsed mf).frameInfo.stackSize := by
  obtain ⟨k, hsv⟩ := calculateCalleeSavedRegisters_saved isPhysRegUsed mf.frameInfo
  unfold layoutFrame
  generalize calculateCalleeSavedRegisters isPhysRegUsed mf.frameInfo = c at hsv
  obtain ⟨cs, m⟩ := c
  have hfix : fixedEnd m = fixedEnd mf.frameInfo :=
    fixedEnd_eq_of_fixedObjects (congrArg MachineFrameInfo.fixedObjects hsv.others :)
  obtain ⟨y, hy⟩ := layoutObjects_eq cs m
  have hoffset : fixedEnd m ≤ (layoutObjects cs m).offset := by
    rw [hy]
    exact Layout.le_offset_foldl ⟨fixedEnd m, 0, m⟩ _
  refine (hfix.symm.le.trans hoffset).trans (le_trans ?_ (le_alignUp (lt_of_lt_of_le (by decide) (Nat.le_max_left ..))))
  split
  · exact Nat.le_add_right ..
  · exact Nat.le_refl _

/-- A function without locals that saves no register: its size is that of the
fixed objects. -/
theorem layoutFrame_of_nil {mf : MachineFunction} (ho : mf.frameInfo.objects = [])
    (hp : mf.frameInfo.stackProtectorIdx = none) (ha : mf.frameInfo.adjustsStack = false) :
    layoutFrame (fun _ => false) mf = { mf with frameInfo := { mf.frameInfo with
      stackSize := alignUp (fixedEnd mf.frameInfo) (max stackAlignment mf.frameInfo.maxAlignment) } } := by
  simp [layoutFrame, calculateCalleeSavedRegisters, calculateFrameObjectOffsets, layoutObjects, CSFrameIndices.down,
    largeStackObjs, otherStackObjs, ho, hp, ha]

/-- The callee-saved slots from the last one down. -/
theorem Saved.down {m : MachineFrameInfo} {k : Nat} {c : CSFrameIndices × MachineFrameInfo} (h : Saved m k c) :
    c.1.down = (List.range' m.objects.length k).reverse := by
  rw [h.indices, CSFrameIndices.down]
  split
  · rename_i hk
    split at hk
    · subst k; rfl
    · cases hk
  · rename_i lo hk
    split at hk
    · cases hk
    · obtain rfl := Option.some.inj hk
      rw [if_neg ‹_›]
      simp only
      congr 2
      omega

/-- A callee-saved slot is as a slot is created. -/
theorem Saved.slot {m : MachineFrameInfo} {k : Nat} {c : CSFrameIndices × MachineFrameInfo} (h : Saved m k c)
    {i : Nat} (hi : c.1.contains i = true) : c.2.getObjectSize i = 4 ∧ c.2.getObjectAlignment i = 4 := by
  have hi := h.contains.mp hi
  rw [MachineFrameInfo.getObjectSize, MachineFrameInfo.getObjectAlignment, h.objects,
    List.getElem?_append_right hi.1, List.getElem?_replicate, if_pos (by omega)]
  exact ⟨rfl, rfl⟩

/-- The slots of the callee-saved registers lie in a row behind the fixed
objects, that of the last register first. -/
theorem layoutFrame_csSlot (isPhysRegUsed : Reg → Bool) {mf : MachineFunction} (h : mf.Created) {j : Nat}
    (hj : j < (getCalleeSavedRegs.filter isPhysRegUsed).length) :
    (layoutFrame isPhysRegUsed mf).frameInfo.getObjectOffset (mf.frameInfo.objects.length + j : Nat) =
      (alignUp (fixedEnd mf.frameInfo) 4 + 4 * ((getCalleeSavedRegs.filter isPhysRegUsed).length - 1 - j) : Nat) := by
  have hsv := calculateCalleeSavedRegisters_savedRegs isPhysRegUsed mf.frameInfo
  have hcr := calculateCalleeSavedRegisters_created isPhysRegUsed h
  unfold layoutFrame
  generalize (getCalleeSavedRegs.filter isPhysRegUsed).length = k at hsv hj ⊢
  generalize calculateCalleeSavedRegisters isPhysRegUsed mf.frameInfo = c at hsv hcr
  obtain ⟨cs, m⟩ := c
  have hp := fun p => hsv.protector h (p := p)
  have hmem {i : Nat} := mem_layoutOrder (fun i => hsv.live (i := i)) (fun p h => (hp p h).1) (i := i)
  have hlt : ∀ i ∈ layoutOrder cs m, i < m.objects.length := fun i hi => lt_of_not_dead (hmem.mp hi)
  have hnd := layoutOrder_nodup fun p h => (hp p h).2
  have hfix : fixedEnd m = fixedEnd mf.frameInfo :=
    fixedEnd_eq_of_fixedObjects (congrArg MachineFrameInfo.fixedObjects hsv.others :)
  have hdown : cs.down[k - 1 - j]? = some (mf.frameInfo.objects.length + j) := by
    rw [hsv.down, List.getElem?_reverse (by rw [List.length_range']; omega), List.length_range',
      List.getElem?_range' (by omega)]
    simp only [Option.some.injEq]
    omega
  -- the slots are placed first, and nothing is placed twice
  have hstart : (layoutObjects cs m).bump.start (mf.frameInfo.objects.length + j) =
      alignUp (fixedEnd mf.frameInfo) 4 + 4 * (k - 1 - j) := by
    obtain ⟨y, he⟩ := layoutObjects_eq cs m
    rw [he,
      show Layout.bump { (layoutOrder cs m).foldl Layout.adjustStackOffset ⟨fixedEnd m, 0, m⟩ with maxAlign := y } =
        ((layoutOrder cs m).foldl Layout.adjustStackOffset ⟨fixedEnd m, 0, m⟩).bump from rfl, Layout.bump_foldl _ _ hlt,
      layoutOrder, List.foldl_append, Bump.start_places_of_notMem _ fun hm =>
        (List.nodup_append.mp hnd).2.2 _ (List.mem_of_getElem? hdown) _ hm rfl, ← hfix]
    have hslot := fun i (hi : i ∈ cs.down) => hsv.slot (CSFrameIndices.mem_down.mp hi)
    exact Bump.start_row (by decide) _ cs.down_nodup (fun i hi => (hslot i hi).1) (fun i hi => (hslot i hi).2) hdown
  have h0 := layoutObjects_nonneg hlt (fun i => hcr.getObjectOffset_nonneg i) (mf.frameInfo.objects.length + j)
  refine Eq.trans (b := (layoutObjects cs m).frameInfo.getObjectOffset (mf.frameInfo.objects.length + j : Nat)) rfl ?_
  rw [← hstart, Layout.bump, Int.toNat_of_nonneg h0]

/-- A loop that takes no room places empty objects only, where they are aligned
already. -/
theorem Layout.offset_foldl_eq_iff (l : Layout) (is : List Nat) : (is.foldl adjustStackOffset l).offset = l.offset ↔
    ∀ i ∈ is, l.frameInfo.getObjectSize i = 0 ∧ l.frameInfo.getObjectAlignment i ∣ l.offset := by
  induction is generalizing l with
  | nil => simp
  | cons i is ih =>
    have hs := l.similar_adjustStackOffset i
    have hup := le_alignUp (n := l.offset) (l.frameInfo.getObjectAlignment_pos i)
    have hstep : (l.adjustStackOffset i).offset =
        alignUp l.offset (l.frameInfo.getObjectAlignment i) + l.frameInfo.getObjectSize i := rfl
    rw [List.foldl_cons, List.forall_mem_cons]
    constructor
    · intro h
      have hle := (l.adjustStackOffset i).le_offset_foldl is
      have heq : (l.adjustStackOffset i).offset = l.offset := by omega
      have hd : l.frameInfo.getObjectAlignment i ∣ l.offset := by
        rw [show l.offset = alignUp l.offset (l.frameInfo.getObjectAlignment i) by omega]
        exact dvd_alignUp ..
      have hrest := (ih (l.adjustStackOffset i)).mp (h.trans heq.symm)
      rw [hs.size, hs.alignment, heq] at hrest
      exact ⟨⟨by omega, hd⟩, hrest⟩
    · rintro ⟨⟨h0, hd⟩, hrest⟩
      have heq : (l.adjustStackOffset i).offset = l.offset := by
        rw [hstep, alignUp_of_dvd (l.frameInfo.getObjectAlignment_pos i) hd, h0, Nat.add_zero]
      refine ((ih (l.adjustStackOffset i)).mpr ?_).trans heq
      rw [hs.size, hs.alignment, heq]
      exact hrest

/-- The slots of registers need no more alignment than the stack has. -/
theorem calculateCalleeSavedRegisters_maxAlignment (isPhysRegUsed : Reg → Bool) (m : MachineFrameInfo) :
    max stackAlignment (calculateCalleeSavedRegisters isPhysRegUsed m).2.maxAlignment =
      max stackAlignment m.maxAlignment := by
  unfold calculateCalleeSavedRegisters
  generalize getCalleeSavedRegs.filter isPhysRegUsed = rs
  rw [show m.maxAlignment = (({}, m) : CSFrameIndices × _).2.maxAlignment from rfl]
  generalize (({}, m) : CSFrameIndices × _) = c
  induction rs generalizing c with
  | nil => rfl
  | cons r rs ih =>
    refine (ih _).trans ?_
    simp only [MachineFrameInfo.createStackObject, stackAlignment]
    omega

/-- An alignment divides what the size is rounded up to. -/
theorem MachineFunction.Created.alignment_dvd {mf : MachineFunction} (h : mf.Created) {i : Nat}
    (hi : mf.frameInfo.isDeadObjectIndex i = false) :
    mf.frameInfo.getObjectAlignment i ∣ max stackAlignment mf.frameInfo.maxAlignment := by
  have hlt := lt_of_not_dead hi
  have hle := (h.getObjectAlignment_le hlt).trans (Nat.le_max_right stackAlignment _)
  obtain ⟨k, -, -, hk⟩ := h.stackAlign_pow
  obtain ⟨j, -, hj⟩ := mf.frameInfo.objects[i].alignment_pow
  have ha : mf.frameInfo.getObjectAlignment i = 2 ^ j := by
    rw [MachineFrameInfo.getObjectAlignment, List.getElem?_eq_getElem hlt]
    exact hj
  rw [hk, ha] at hle ⊢
  exact Nat.pow_dvd_pow 2 ((Nat.pow_le_pow_iff_right (by decide)).mp hle)

theorem layoutFrame_length (isPhysRegUsed : Reg → Bool) (mf : MachineFunction) :
    (layoutFrame isPhysRegUsed mf).frameInfo.objects.length =
      mf.frameInfo.objects.length + (getCalleeSavedRegs.filter isPhysRegUsed).length := by
  have hsv := (calculateCalleeSavedRegisters_savedRegs isPhysRegUsed mf.frameInfo).objects
  refine (layoutObjects_similar (calculateCalleeSavedRegisters isPhysRegUsed mf.frameInfo).1
    (calculateCalleeSavedRegisters isPhysRegUsed mf.frameInfo).2).length.trans ?_
  rw [hsv, List.length_append, List.length_replicate]

end Rigel
