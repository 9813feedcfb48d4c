import RigelCodegen.Flow.SSA
import RigelCodegen.Lib.Simulation

/-!
# Expanding a select

There is no conditional move, so `EmitInstrWithCustomInserter` splits the block
of a `Select_CC_to_i` or `Select_CC_to_f` pseudo behind it: a `BNZ` goes around an
empty block, and a PHI where both ways meet takes one value or the other. What is
behind the pseudo, the successors and the PHIs in them belong to the new block
(`transferSuccessorsAndUpdatePHIs`). `selectExpansion_correct` says that every
execution of the function is then the same.
-/

namespace Rigel.SSA

open Word32 Simulation

/-- `setMBB`, of every incoming block of a PHI that is `fromMBB`. -/
def Instr.setMBB (fromMBB toMBB : Nat) : Instr → Instr
  | phi dst incoming => phi dst (incoming.map fun v => (v.1, Blocks.rename fromMBB toMBB v.2))
  | i => i

def Block.addSuccessor (x : Block) (succ : Nat) : Block := { x with successors := x.successors ++ [succ] }

namespace MFunction

/-- A block is changed. -/
def modify (F : MFunction) (l : Nat) (g : Block → Block) : MFunction :=
  { F with blocks := F.blocks.map fun x => if x.label = l then g x else x }

/-- `CreateMachineBasicBlock`, twice, and `insert`, of both behind a block. -/
def insertAfter (F : MFunction) (l : Nat) : MFunction :=
  { blocks := F.blocks.flatMap fun x =>
      if x.label = l then [x, ⟨F.nextLabel, [], []⟩, ⟨F.nextLabel + 1, [], []⟩] else [x]
    nextLabel := F.nextLabel + 2 }

end MFunction

/-- The PHIs at the beginning of a block come from another block. -/
def updatePHIs (fromMBB toMBB : Nat) : List Instr → List Instr
  | [] => []
  | i :: is => if i.isPHI then i.setMBB fromMBB toMBB :: updatePHIs fromMBB toMBB is else i :: is

/-- `transferSuccessorsAndUpdatePHIs`. -/
def transferSuccessorsAndUpdatePHIs (F : MFunction) (toMBB fromMBB : Nat) : MFunction :=
  let succs := ((F.getBlock? fromMBB).map Block.successors).getD []
  if toMBB = fromMBB then F
  else
    { F with blocks := F.blocks.map fun x =>
        let succs' :=
          if x.label = toMBB then x.successors ++ succs else if x.label = fromMBB then [] else x.successors
        { x with
          instrs := if x.label ∈ succs then updatePHIs fromMBB toMBB x.instrs else x.instrs
          successors := succs' } }

/-- `EmitInstrWithCustomInserter`, of instruction `mi` of block `bb`: the function
and the block to go on with, or nothing where it asserts. -/
def emitInstrWithCustomInserter (F : MFunction) (bb : Nat) (mi : Nat) : Option (MFunction × Nat) :=
  (F.getBlock? bb).bind fun thisMBB =>
    match thisMBB.instrs[mi]? with
    | some (.selectCC _ dst cmpRes t f) =>
      let copy0MBB := F.nextLabel
      let sinkMBB := F.nextLabel + 1
      let F := F.insertAfter bb
      -- splice
      let F := F.modify sinkMBB fun x => { x with instrs := thisMBB.instrs.drop (mi + 1) }
      let F := F.modify bb fun x => { x with instrs := x.instrs.take (mi + 1) }
      let F := transferSuccessorsAndUpdatePHIs F sinkMBB bb
      let F := F.modify bb fun x => (x.addSuccessor copy0MBB).addSuccessor sinkMBB
      let F := F.modify bb fun x => { x with instrs := x.instrs ++ [.bnz cmpRes sinkMBB] }
      let F := F.modify copy0MBB fun x => x.addSuccessor sinkMBB
      let F := F.modify sinkMBB fun x => { x with instrs := .phi dst [(f, copy0MBB), (t, bb)] :: x.instrs }
      -- eraseFromParent
      let F := F.modify bb fun x => { x with instrs := x.instrs.eraseIdx mi }
      some (F, sinkMBB)
    | _ => none

/-- The next block is entered from that one. -/
def Outcome.rename (bb sinkMBB : Nat) : Outcome σ → Outcome σ
  | running c => .running { c with pred := c.pred.map (Blocks.rename bb sinkMBB) }
  | o => o

/-! ## The expanded function -/

theorem length_updatePHIs (fromMBB toMBB : Nat) (is : List Instr) :
    (updatePHIs fromMBB toMBB is).length = is.length := by
  induction is with
  | nil => rfl
  | cons i is ih =>
    rw [updatePHIs]
    split <;> simp [ih]

theorem updatePHIs_take (fromMBB toMBB : Nat) (n : Nat) (is : List Instr) :
    updatePHIs fromMBB toMBB (is.take n) = (updatePHIs fromMBB toMBB is).take n := by
  induction is generalizing n with
  | nil => simp [updatePHIs]
  | cons i is ih =>
    cases n with
    | zero => simp [updatePHIs]
    | succ n =>
      rw [List.take_succ_cons, updatePHIs, updatePHIs]
      split
      · rw [ih, List.take_succ_cons]
      · rfl

/-- A change of one block that keeps its number. -/
theorem MFunction.getBlock?_modify (F : MFunction) (l l' : Nat) {g : Block → Block}
    (hg : ∀ x, (g x).label = x.label) :
    (F.modify l g).getBlock? l' = (F.getBlock? l').map fun x => if x.label = l then g x else x :=
  Blocks.block?_map (fun x => by split <;> simp [hg]) F.blocks l'

/-- A select of a function. -/
structure Expansion (F : MFunction) where
  bb : Nat
  mi : Nat
  thisMBB : Block
  fp : Bool
  dst : Nat
  cmpRes : Nat
  t : Nat
  f : Nat
  getBlock : F.getBlock? bb = some thisMBB
  instr : thisMBB.instrs[mi]? = some (.selectCC fp dst cmpRes t f)

namespace Expansion

variable {F : MFunction} (e : Expansion F)

/-- The empty block. -/
def copy0MBB (_ : Expansion F) : Nat := F.nextLabel

/-- The block for what is behind the select. -/
def sinkMBB (_ : Expansion F) : Nat := F.nextLabel + 1

/-- The PHIs of the successors come from the new block. -/
def retarget (x : Block) : Block :=
  { x with instrs := if x.label ∈ e.thisMBB.successors then updatePHIs e.bb e.sinkMBB x.instrs else x.instrs }

/-- The block of the select, up to the branch. -/
def head (x : Block) : Block :=
  ⟨x.label, (e.retarget x).instrs.take e.mi ++ [.bnz e.cmpRes e.sinkMBB], [e.copy0MBB, e.sinkMBB]⟩

def copy0 : Block := ⟨e.copy0MBB, [], [e.sinkMBB]⟩

def sink : Block :=
  ⟨e.sinkMBB, .phi e.dst [(e.f, e.copy0MBB), (e.t, e.bb)] :: e.thisMBB.instrs.drop (e.mi + 1), e.thisMBB.successors⟩

/-- The blocks in place of one. -/
def expand (x : Block) : List Block :=
  if x.label = e.bb then [e.head x, e.copy0, e.sink] else [e.retarget x]

/-- The function after the expansion. -/
def result : MFunction := ⟨F.blocks.flatMap e.expand, F.nextLabel + 2⟩

theorem emit_cases {bb : Nat} {mi : Nat} {r : MFunction × Nat} (h : emitInstrWithCustomInserter F bb mi = some r) :
    ∃ e : Expansion F, e.bb = bb ∧ e.mi = mi := by
  rw [emitInstrWithCustomInserter] at h
  obtain ⟨thisMBB, hb, h⟩ := Option.bind_eq_some_iff.mp h
  split at h
  · exact ⟨⟨_, _, _, _, _, _, _, _, hb, ‹_›⟩, rfl, rfl⟩
  · cases h

/-- `transferSuccessorsAndUpdatePHIs`, of the successors that a block has. -/
theorem transfer_eq {F : MFunction} {toMBB fromMBB : Nat} {x : Block} (h : F.getBlock? fromMBB = some x)
    (hne : toMBB ≠ fromMBB) : transferSuccessorsAndUpdatePHIs F toMBB fromMBB =
      { F with blocks := F.blocks.map fun y =>
          { y with
            instrs := if y.label ∈ x.successors then updatePHIs fromMBB toMBB y.instrs else y.instrs
            successors := if y.label = toMBB then y.successors ++ x.successors else
              if y.label = fromMBB then [] else y.successors } } := by
  rw [transferSuccessorsAndUpdatePHIs, h]
  simp only [if_neg hne, Option.map_some, Option.getD_some]

theorem getBlock?_insertAfter (F : MFunction) (bb : Nat) {l : Nat} (hl : l < F.nextLabel) :
    (F.insertAfter bb).getBlock? l = F.getBlock? l := by
  have hblocks : (F.insertAfter bb).blocks =
      Blocks.grow Block.label bb id [⟨F.nextLabel, [], []⟩, ⟨F.nextLabel + 1, [], []⟩] F.blocks := by
    refine List.flatMap_congr fun x _ => ?_
    split <;> rfl
  have hid : ∀ x : Block, (id x).label = x.label := fun _ => rfl
  rw [MFunction.getBlock?, hblocks, Blocks.block?_grow hid, Option.map_id, id_eq, MFunction.getBlock?]
  simp only [List.forall_mem_cons, List.not_mem_nil, false_imp_iff, implies_true, and_true]
  omega

theorem mi_lt : e.mi < e.thisMBB.instrs.length := by
  obtain ⟨h, -⟩ := List.getElem?_eq_some_iff.mp e.instr
  exact h

theorem bb_lt {σ : Type} {S : Sem σ} (h : F.WellFormed S) : e.bb < F.nextLabel := by
  obtain ⟨hmem, hbb⟩ := Blocks.mem_of_block? e.getBlock
  exact hbb ▸ h.label_lt _ hmem

/-- The block of the select is the only one of its number. -/
theorem eq_thisMBB {σ : Type} {S : Sem σ} (h : F.WellFormed S) {x : Block} (hx : x ∈ F.blocks) (hl : x.label = e.bb) :
    x = e.thisMBB := by
  obtain ⟨hmem, hbb⟩ := Blocks.mem_of_block? e.getBlock
  exact List.inj_on_of_nodup_map h.labels_nodup hx hmem (hl.trans hbb.symm)

theorem length_retarget (x : Block) : (e.retarget x).instrs.length = x.instrs.length := by
  rw [retarget]
  simp only []
  split
  · rw [length_updatePHIs]
  · rfl

/-- The select is erased from the end of its block. -/
theorem head_instrs (x : Block) (h : e.mi < x.instrs.length) :
    ((if x.label ∈ e.thisMBB.successors then updatePHIs e.bb e.sinkMBB (x.instrs.take (e.mi + 1))
        else x.instrs.take (e.mi + 1)) ++ [Instr.bnz e.cmpRes e.sinkMBB]).eraseIdx e.mi =
      (e.retarget x).instrs.take e.mi ++ [.bnz e.cmpRes e.sinkMBB] := by
  have htake : (if x.label ∈ e.thisMBB.successors then updatePHIs e.bb e.sinkMBB (x.instrs.take (e.mi + 1))
      else x.instrs.take (e.mi + 1)) = (e.retarget x).instrs.take (e.mi + 1) := by
    rw [retarget, updatePHIs_take]
    simp only []
    split <;> rfl
  have hlen : ((e.retarget x).instrs.take (e.mi + 1)).length = e.mi + 1 := by
    rw [List.length_take, e.length_retarget, Nat.min_eq_left h]
  have herase : ((e.retarget x).instrs.take (e.mi + 1)).eraseIdx e.mi = (e.retarget x).instrs.take e.mi := by
    rw [List.eraseIdx_eq_take_drop_succ, List.drop_eq_nil_of_le (Nat.le_of_eq hlen), List.append_nil, List.take_take,
      Nat.min_eq_left (Nat.le_succ _)]
  rw [htake, List.eraseIdx_append_of_lt_length (Nat.lt_of_lt_of_eq (Nat.lt_succ_self _) hlen.symm), herase]

/-- The steps of `EmitInstrWithCustomInserter` together. -/
theorem emit_eq {σ : Type} {S : Sem σ} (h : F.WellFormed S) :
    emitInstrWithCustomInserter F e.bb e.mi = some (e.result, e.sinkMBB) := by
  obtain ⟨hmem, hbb⟩ := Blocks.mem_of_block? e.getBlock
  have hbb_lt := e.bb_lt h
  have hb₀ : e.bb ≠ F.nextLabel := by omega
  have hb₁ : e.bb ≠ F.nextLabel + 1 := by omega
  have hsink : F.nextLabel + 1 ∉ e.thisMBB.successors := fun hs => by
    have := h.successors_lt _ hmem _ hs
    omega
  have hget : (((F.insertAfter e.bb).modify (F.nextLabel + 1) fun x =>
      { x with instrs := e.thisMBB.instrs.drop (e.mi + 1) }).modify e.bb fun x =>
      { x with instrs := x.instrs.take (e.mi + 1) }).getBlock? e.bb =
        some { e.thisMBB with instrs := e.thisMBB.instrs.take (e.mi + 1) } := by
    rw [MFunction.getBlock?_modify, MFunction.getBlock?_modify, getBlock?_insertAfter F e.bb hbb_lt, e.getBlock]
    · simp [hbb, hb₁]
    · intro x; rfl
    · intro x; rfl
  rw [emitInstrWithCustomInserter, e.getBlock, Option.bind_some, e.instr]
  simp only []
  rw [transfer_eq hget (Ne.symm hb₁)]
  simp only [MFunction.modify, MFunction.insertAfter, List.map_flatMap, Option.some.injEq, Prod.mk.injEq]
  refine ⟨?_, rfl⟩
  rw [result]
  congr 1
  refine List.flatMap_congr fun x hx => ?_
  have hx_lt := h.label_lt x hx
  have hx₀ : x.label ≠ F.nextLabel := by omega
  have hx₁ : x.label ≠ F.nextLabel + 1 := by omega
  by_cases hxb : x.label = e.bb
  · have hlen : e.mi < x.instrs.length := by rw [e.eq_thisMBB h hx hxb]; exact e.mi_lt
    have hhead := e.head_instrs x hlen
    simp only [sinkMBB, hxb] at hhead
    simp [hxb, hb₀, hb₁, hb₀.symm, hb₁.symm, hsink, expand, head, copy0, sink, sinkMBB, copy0MBB, Block.addSuccessor,
      updatePHIs, hhead]
  · simp [hxb, hx₀, hx₁, expand, retarget, sinkMBB]

section Blocks

variable {σ : Type} {S : Sem σ}

/-- What a block is replaced by. -/
def main (x : Block) : Block := if x.label = e.bb then e.head x else e.retarget x

theorem label_main (x : Block) : (e.main x).label = x.label := by
  unfold main
  split <;> rfl

/-- The blocks of the result: the two new ones are behind that of the select. -/
theorem blocks_result : e.result.blocks = Blocks.grow Block.label e.bb e.main [e.copy0, e.sink] F.blocks := by
  refine List.flatMap_congr fun x _ => ?_
  rw [expand, main]
  split <;> rfl

theorem getBlock?_result {l : Nat} (hl : l < F.nextLabel) : e.result.getBlock? l = (F.getBlock? l).map e.main := by
  rw [MFunction.getBlock?, blocks_result, Blocks.block?_grow e.label_main, MFunction.getBlock?]
  simp only [List.forall_mem_cons, List.not_mem_nil, false_imp_iff, implies_true, and_true, copy0, sink, copy0MBB,
    sinkMBB]
  omega

/-- The layout after the expansion. -/
theorem labels_result : e.result.labels = Blocks.insertBehind e.bb [e.copy0MBB, e.sinkMBB] F.labels := by
  rw [MFunction.labels, blocks_result, Blocks.labels_grow e.label_main]
  rfl

theorem bb_mem_labels : e.bb ∈ F.labels := by
  obtain ⟨hmem, hlabel⟩ := Blocks.mem_of_block? e.getBlock
  exact List.mem_map.mpr ⟨_, hmem, hlabel⟩

theorem lt_of_mem_labels (h : F.WellFormed S) : ∀ l ∈ F.labels, l < F.nextLabel := by
  intro l hl
  obtain ⟨x, hx, rfl⟩ := List.mem_map.mp hl
  exact h.label_lt x hx

theorem notMem_labels (h : F.WellFormed S) {l : Nat} (hl : F.nextLabel ≤ l) : l ∉ F.labels :=
  fun hmem => Nat.not_lt_of_ge hl (lt_of_mem_labels h l hmem)

theorem getBlock?_copy0MBB (h : F.WellFormed S) : e.result.getBlock? e.copy0MBB = some e.copy0 := by
  rw [MFunction.getBlock?, blocks_result]
  exact Blocks.block?_grow_new e.label_main e.bb_mem_labels (notMem_labels h (Nat.le_refl _))
    (Blocks.block?_cons_self rfl _)

theorem getBlock?_sinkMBB (h : F.WellFormed S) : e.result.getBlock? e.sinkMBB = some e.sink := by
  have hne : e.copy0.label ≠ e.sinkMBB := Nat.ne_of_lt (Nat.lt_succ_self _)
  rw [MFunction.getBlock?, blocks_result]
  exact Blocks.block?_grow_new e.label_main e.bb_mem_labels (notMem_labels h (Nat.le_succ _))
    ((Blocks.block?_cons_ne hne _).trans (Blocks.block?_cons_self rfl _))

/-- A block that was there goes on to the one that it went on to. -/
theorem layoutSuccessor_other (h : F.WellFormed S) {x : Block} (hx : x ∈ F.blocks) (hne : x.label ≠ e.bb) :
    e.result.layoutSuccessor x.label = F.layoutSuccessor x.label := by
  have hlt := h.label_lt x hx
  rw [MFunction.layoutSuccessor, labels_result, Blocks.follower_insertBehind_of_ne hne, MFunction.layoutSuccessor]
  simp only [copy0MBB, sinkMBB, List.mem_cons, List.not_mem_nil, or_false]
  omega

/-- The block of the select goes on to the empty block. -/
theorem layoutSuccessor_bb : e.result.layoutSuccessor e.bb = some e.copy0MBB := by
  rw [MFunction.layoutSuccessor, labels_result, Blocks.follower_insertBehind_this e.bb_mem_labels]
  rfl

/-- The empty block goes on to the new block. -/
theorem layoutSuccessor_copy0MBB (h : F.WellFormed S) : e.result.layoutSuccessor e.copy0MBB = some e.sinkMBB := by
  rw [MFunction.layoutSuccessor, labels_result]
  exact Blocks.follower_insertBehind_new e.bb_mem_labels [] List.not_mem_nil
    (notMem_labels h (Nat.le_refl _))

/-- The new block goes on to what the block of the select went on to. -/
theorem layoutSuccessor_sinkMBB (h : F.WellFormed S) :
    e.result.layoutSuccessor e.sinkMBB = F.layoutSuccessor e.bb := by
  have hne : e.sinkMBB ∉ [e.copy0MBB] := by simp [copy0MBB, sinkMBB]
  rw [MFunction.layoutSuccessor, labels_result]
  exact Blocks.follower_insertBehind_new e.bb_mem_labels [e.copy0MBB] hne (notMem_labels h (Nat.le_succ _))

/-- A function in which the select is gone: a branch in its place goes around an empty
block, and both ways meet in a block with a PHI, what was behind the select and the
successors. Other blocks have only the blocks that their PHIs come from changed. -/
structure Diamond (F' : MFunction) : Prop where
  thisMBB : F'.getBlock? e.bb = some
    ⟨e.bb, (e.retarget e.thisMBB).instrs.take e.mi ++ [.bnz e.cmpRes e.sinkMBB], [e.copy0MBB, e.sinkMBB]⟩
  copy0MBB : F'.getBlock? e.copy0MBB = some ⟨e.copy0MBB, [], [e.sinkMBB]⟩
  sinkMBB : F'.getBlock? e.sinkMBB = some
    ⟨e.sinkMBB, .phi e.dst [(e.f, e.copy0MBB), (e.t, e.bb)] :: e.thisMBB.instrs.drop (e.mi + 1),
      e.thisMBB.successors⟩
  others : ∀ l < F.nextLabel, l ≠ e.bb → F'.getBlock? l = (F.getBlock? l).map e.retarget
  layout : F'.labels = Blocks.insertBehind e.bb [e.copy0MBB, e.sinkMBB] F.labels

theorem diamond_result (h : F.WellFormed S) : e.Diamond e.result where
  thisMBB := by
    have hbb := (Blocks.mem_of_block? e.getBlock).2
    rw [e.getBlock?_result (e.bb_lt h), e.getBlock, Option.map_some, main, if_pos hbb, head, hbb]
  copy0MBB := e.getBlock?_copy0MBB h
  sinkMBB := e.getBlock?_sinkMBB h
  others := by
    intro l hl hne
    rw [e.getBlock?_result hl]
    refine Option.map_congr fun x hx => ?_
    have hx : x.label ≠ e.bb := (Blocks.mem_of_block? hx).2 ▸ hne
    rw [main, if_neg hx]
  layout := e.labels_result

end Blocks

section Inputs

variable {σ : Type} {S : Sem σ}

/-- The PHIs of a successor read from the new block what they read from the
block of the select. -/
theorem phiValues_updatePHIs {is : List Instr}
    (hlt : ∀ dst incoming, .phi dst incoming ∈ is → ∀ v ∈ incoming, v.2 < F.nextLabel) {pred : Option Nat}
    (hpred : ∀ p ∈ pred, p < F.nextLabel) (s : MState σ) :
    phiValues (pred.map (Blocks.rename e.bb e.sinkMBB)) s (updatePHIs e.bb e.sinkMBB is) = phiValues pred s is := by
  induction is with
  | nil => rfl
  | cons i is ih =>
    cases i with
    | phi dst incoming =>
      have ih' := ih fun dst incoming hi => hlt dst incoming (.tail _ hi)
      have hfresh : ∀ l, l < F.nextLabel → l ≠ e.sinkMBB := fun l hl => Nat.ne_of_lt (Nat.lt_succ_of_lt hl)
      have hincoming : ∀ v ∈ incoming, v.2 ≠ e.sinkMBB := fun v hv => hfresh _ (hlt dst incoming (.head _) v hv)
      have hupd : updatePHIs e.bb e.sinkMBB (.phi dst incoming :: is) =
          .phi dst (incoming.map fun v => (v.1, Blocks.rename e.bb e.sinkMBB v.2)) ::
            updatePHIs e.bb e.sinkMBB is := rfl
      rw [hupd, phiValues, phiValues, ih', Blocks.incoming?_rename hincoming fun p hp => hfresh p (hpred p hp)]
    | _ => rfl

theorem dropWhile_updatePHIs (is : List Instr) :
    (updatePHIs e.bb e.sinkMBB is).dropWhile Instr.isPHI = is.dropWhile Instr.isPHI := by
  induction is with
  | nil => rfl
  | cons i is ih =>
    cases i with
    | phi dst incoming => exact ih
    | _ => rfl

/-- The PHIs of every block read the same. -/
theorem phiValues_retarget (h : F.WellFormed S) {x : Block} (hx : x ∈ F.blocks) {pred : Option Nat}
    (hpred : ∀ p ∈ pred, p < F.nextLabel) (hbb : pred = some e.bb → x.label ∈ e.thisMBB.successors) (s : MState σ) :
    phiValues (pred.map (Blocks.rename e.bb e.sinkMBB)) s (e.retarget x).instrs = phiValues pred s x.instrs := by
  rw [retarget]
  simp only []
  split
  · exact e.phiValues_updatePHIs (h.incoming_lt x hx) hpred s
  · rename_i hx
    have hid : pred.map (Blocks.rename e.bb e.sinkMBB) = pred := by
      cases pred with
      | none => rfl
      | some p =>
        have hp : p ≠ e.bb := fun hp => hx (hbb (by rw [hp]))
        rw [Option.map_some, Blocks.rename_of_ne hp]
    rw [hid]

theorem dropWhile_retarget (x : Block) :
    (e.retarget x).instrs.dropWhile Instr.isPHI = x.instrs.dropWhile Instr.isPHI := by
  rw [retarget]
  simp only []
  split
  · exact e.dropWhile_updatePHIs _
  · rfl

end Inputs

/-! ## Simulation -/

section Simulate

variable {σ : Type} {S : Sem σ}

/-- The block that is entered is one of the function, and a successor of the block
of the select if it is entered from that. -/
def Inv : Outcome σ → Prop
  | .running c => c.block < F.nextLabel ∧ (∀ p ∈ c.pred, p < F.nextLabel) ∧
      (c.pred = some e.bb → c.block ∈ e.thisMBB.successors)
  | _ => True

theorem inv_step (h : F.WellFormed S) {o : Outcome σ} : e.Inv (F.step S o) := by
  cases o with
  | running c =>
    rw [MFunction.step]
    cases hx : F.getBlock? c.block with
    | none => trivial
    | some x =>
      obtain ⟨hmem, hlabel⟩ := Blocks.mem_of_block? hx
      rw [Option.elim_some]
      cases hrun : x.run S (F.layoutSuccessor x.label) c.pred c.state with
      | running c' =>
        obtain ⟨hpred, hsucc⟩ := x.run_running h hmem hrun
        refine ⟨h.successors_lt x hmem _ hsucc, fun p hp => ?_, fun hbb => ?_⟩
        · obtain rfl : x.label = p := Option.some.inj (hpred.symm.trans hp)
          exact h.label_lt x hmem
        · rwa [← e.eq_thisMBB h hmem (Option.some.inj (hpred.symm.trans hbb))]
      | left s => trivial
      | stuck => trivial
  | left s => trivial
  | stuck => trivial

theorem outcome_rename {l : Nat} (hl : l ≠ e.bb) (next : Option Nat) (r : BlockEnd σ) :
    Outcome.rename e.bb e.sinkMBB (r.outcome l next) = r.outcome l next := by
  cases r with
  | goto t s => simp only [BlockEnd.outcome, Outcome.rename, Option.map_some, Blocks.rename_of_ne hl]
  | fallThrough s => cases next <;> simp only [BlockEnd.outcome, Outcome.rename, Option.elim_some, Option.elim_none,
      Option.map_some, Blocks.rename_of_ne hl]
  | leave s => rfl
  | stuck => rfl

theorem outcome_sinkMBB (next : Option Nat) (r : BlockEnd σ) :
    Outcome.rename e.bb e.sinkMBB (r.outcome e.bb next) = r.outcome e.sinkMBB next := by
  cases r with
  | goto t s => simp only [BlockEnd.outcome, Outcome.rename, Option.map_some, Blocks.rename_self]
  | fallThrough s => cases next <;> simp only [BlockEnd.outcome, Outcome.rename, Option.elim_some, Option.elim_none,
      Option.map_some, Blocks.rename_self]
  | leave s => rfl
  | stuck => rfl

/-- A block without the select is one block after the expansion. -/
theorem step_other (h : F.WellFormed S) {c : Config σ} (hc : e.Inv (.running c)) (hbb : c.block ≠ e.bb) :
    e.result.step S (Outcome.rename e.bb e.sinkMBB (.running c)) =
      Outcome.rename e.bb e.sinkMBB (F.step S (.running c)) := by
  rw [Outcome.rename, MFunction.step, MFunction.step, e.getBlock?_result hc.1]
  cases hx : F.getBlock? c.block with
  | none => rfl
  | some x =>
    obtain ⟨hmem, hlabel⟩ := Blocks.mem_of_block? hx
    have hne : x.label ≠ e.bb := hlabel ▸ hbb
    have hmain : e.main x = e.retarget x := if_neg hne
    have hphi := e.phiValues_retarget h hmem hc.2.1 (fun hp => hlabel ▸ hc.2.2 hp) c.state
    rw [Option.map_some, Option.elim_some, Option.elim_some, label_main, e.layoutSuccessor_other h hmem hne,
      Block.run, Block.run, hmain, hphi, dropWhile_retarget]
    cases phiValues c.pred c.state x.instrs with
    | none => rfl
    | some vs => exact (e.outcome_rename hne _ _).symm

/-- The pseudo. -/
def select : Instr := .selectCC e.fp e.dst e.cmpRes e.t e.f

/-- What is behind it. -/
def rest : List Instr := e.thisMBB.instrs.drop (e.mi + 1)

theorem instrs_eq : e.thisMBB.instrs = e.thisMBB.instrs.take e.mi ++ e.select :: e.rest := by
  obtain ⟨hlt, hget⟩ := List.getElem?_eq_some_iff.mp e.instr
  have hdrop := List.drop_eq_getElem_cons hlt
  rw [hget] at hdrop
  rw [select, rest, ← hdrop, List.take_append_drop]

/-- Before the branch is what was before the select, but for the PHIs. -/
theorem retarget_instrs_eq :
    (e.retarget e.thisMBB).instrs = (e.retarget e.thisMBB).instrs.take e.mi ++ e.select :: e.rest := by
  have hupd : ∀ is : List Instr, updatePHIs e.bb e.sinkMBB (is ++ e.select :: e.rest) =
      updatePHIs e.bb e.sinkMBB is ++ e.select :: e.rest := by
    intro is
    induction is with
    | nil => rfl
    | cons i is ih =>
      rw [List.cons_append, updatePHIs, updatePHIs, ih]
      split <;> rfl
  have hinstrs := e.instrs_eq
  rw [retarget]
  simp only []
  split
  · have hlen : (updatePHIs e.bb e.sinkMBB (e.thisMBB.instrs.take e.mi)).length = e.mi := by
      rw [length_updatePHIs, List.length_take, Nat.min_eq_left (Nat.le_of_lt e.mi_lt)]
    rw [← updatePHIs_take, ← hupd, ← hinstrs]
  · exact hinstrs

/-- The instructions of the block between its PHIs and the select. -/
def before : List Instr := ((e.retarget e.thisMBB).instrs.take e.mi).dropWhile Instr.isPHI

theorem dropWhile_thisMBB : e.thisMBB.instrs.dropWhile Instr.isPHI = e.before ++ e.select :: e.rest := by
  rw [← e.dropWhile_retarget, e.retarget_instrs_eq, dropWhile_append_cons _ rfl, before]

theorem dropWhile_head : (e.head e.thisMBB).instrs.dropWhile Instr.isPHI = e.before ++ [.bnz e.cmpRes e.sinkMBB] :=
  dropWhile_append_cons _ rfl _

/-- What stands before the select is no terminator, if terminators are last. -/
theorem not_terminator_of_pairwise {as bs : List Instr}
    (hlast : (as ++ e.select :: bs).Pairwise fun i j => i.isTerminator = true → j.isTerminator = true) :
    ∀ i ∈ as, i.isTerminator = false := by
  intro i hi
  have hselect := (List.pairwise_append.mp hlast).2.2 i hi e.select (.head _)
  by_contra ht
  exact nomatch hselect (by simpa using ht)

theorem not_terminator_before (h : F.WellFormed S) : ∀ i ∈ e.before, i.isTerminator = false := by
  have hlast := (h.terminators_last _ (Blocks.mem_of_block? e.getBlock).1).sublist
    (List.dropWhile_sublist Instr.isPHI)
  rw [e.dropWhile_thisMBB] at hlast
  exact e.not_terminator_of_pairwise hlast

theorem not_isPHI_rest (h : F.WellFormed S) : ∀ i ∈ e.rest, i.isPHI = false := by
  intro i hi
  have hfirst := h.phis_first _ (Blocks.mem_of_block? e.getBlock).1
  rw [e.instrs_eq, List.pairwise_append, List.pairwise_cons] at hfirst
  by_contra hp
  exact nomatch hfirst.2.1.1 i hi (by simpa using hp)

/-- The PHIs of the block of the select itself. -/
theorem phiValues_head (h : F.WellFormed S) {pred : Option Nat} (hpred : ∀ p ∈ pred, p < F.nextLabel)
    (hbb : pred = some e.bb → e.bb ∈ e.thisMBB.successors) (s : MState σ) :
    phiValues (pred.map (Blocks.rename e.bb e.sinkMBB)) s (e.head e.thisMBB).instrs =
      phiValues pred s e.thisMBB.instrs := by
  obtain ⟨hmem, hlabel⟩ := Blocks.mem_of_block? e.getBlock
  rw [← e.phiValues_retarget h hmem hpred (fun hp => hlabel ▸ hbb hp) s, e.retarget_instrs_eq,
    phiValues_append _ _ _ rfl, head, phiValues_append _ _ _ rfl]

/-- In the new block the PHI takes the value for the way that it is reached. -/
theorem run_sink (h : F.WellFormed S) (next : Option Nat) {p v : Nat} (s : MState σ)
    (hv : Blocks.incoming? [(e.f, e.copy0MBB), (e.t, e.bb)] (some p) = some v) :
    e.sink.run S next (some p) s = (execInstrs S e.rest (s.set e.dst (s.regs v))).outcome e.sinkMBB next := by
  have hrest := e.not_isPHI_rest h
  have hphi : phiValues (some p) s e.sink.instrs = some [(e.dst, s.regs v)] := by
    rw [sink, phiValues, hv, Option.bind_some]
    change (phiValues (some p) s e.rest).map _ = _
    rw [phiValues_of_not_isPHI hrest]
    rfl
  have hbody : e.sink.instrs.dropWhile Instr.isPHI = e.rest := dropWhile_of_not_isPHI hrest
  rw [Block.run, hphi, hbody]
  rfl

/-- The branch goes to the new block, or on to the empty one. -/
theorem run_head (h : F.WellFormed S) {pred : Option Nat} (hpred : ∀ p ∈ pred, p < F.nextLabel)
    (hbb : pred = some e.bb → e.bb ∈ e.thisMBB.successors) {s s' : MState σ} {vs : List (Nat × Word)}
    (hvs : phiValues pred s e.thisMBB.instrs = some vs)
    (hs' : execInstrs S e.before (s.setAll vs) = .fallThrough s') :
    (e.head e.thisMBB).run S (some e.copy0MBB) (pred.map (Blocks.rename e.bb e.sinkMBB)) s =
      .running ⟨some e.bb, if s'.regs e.cmpRes ≠ 0 then e.sinkMBB else e.copy0MBB, s'⟩ := by
  have hlabel : (e.head e.thisMBB).label = e.bb := (Blocks.mem_of_block? e.getBlock).2
  rw [Block.run, e.phiValues_head h hpred hbb, hvs, Option.elim_some, e.dropWhile_head, execInstrs_append, hs',
    hlabel]
  by_cases hcond : s'.regs e.cmpRes ≠ 0
  · simp only [execInstrs, Instr.isPHI, Bool.false_eq_true, if_false, Instr.transfer, if_pos hcond]
    rfl
  · simp only [execInstrs, Instr.isPHI, Bool.false_eq_true, if_false, Instr.transfer, if_neg hcond]
    rfl

theorem step_head (h : F.WellFormed S) (pred : Option Nat) (s : MState σ) :
    e.result.step S (.running ⟨pred, e.bb, s⟩) = (e.head e.thisMBB).run S (some e.copy0MBB) pred s := by
  obtain ⟨hmem, hlabel⟩ := Blocks.mem_of_block? e.getBlock
  rw [MFunction.step, e.getBlock?_result (e.bb_lt h), e.getBlock, Option.map_some, Option.elim_some, label_main,
    hlabel, e.layoutSuccessor_bb, main, if_pos hlabel]

/-- The empty block does nothing. -/
theorem step_copy0 (h : F.WellFormed S) (pred : Option Nat) (s : MState σ) :
    e.result.step S (.running ⟨pred, e.copy0MBB, s⟩) = .running ⟨some e.copy0MBB, e.sinkMBB, s⟩ := by
  have hnext : e.result.layoutSuccessor e.copy0.label = some e.sinkMBB := e.layoutSuccessor_copy0MBB h
  rw [MFunction.step, e.getBlock?_copy0MBB h, Option.elim_some, hnext]
  rfl

theorem step_sink (h : F.WellFormed S) {p v : Nat} (s : MState σ)
    (hv : Blocks.incoming? [(e.f, e.copy0MBB), (e.t, e.bb)] (some p) = some v) :
    e.result.step S (.running ⟨some p, e.sinkMBB, s⟩) =
      (execInstrs S e.rest (s.set e.dst (s.regs v))).outcome e.sinkMBB (F.layoutSuccessor e.bb) := by
  have hnext : e.result.layoutSuccessor e.sink.label = F.layoutSuccessor e.bb := e.layoutSuccessor_sinkMBB h
  rw [MFunction.step, e.getBlock?_sinkMBB h, Option.elim_some, hnext, e.run_sink h _ s hv]

/-- The block of the select is one, two or three blocks after the expansion. -/
theorem step_bb (h : F.WellFormed S) {pred : Option Nat} (hpred : ∀ p ∈ pred, p < F.nextLabel)
    (hbb : pred = some e.bb → e.bb ∈ e.thisMBB.successors) (s : MState σ) :
    ∃ j ≤ 2, (e.result.step S)^[j + 1] (.running ⟨pred.map (Blocks.rename e.bb e.sinkMBB), e.bb, s⟩) =
      Outcome.rename e.bb e.sinkMBB (F.step S (.running ⟨pred, e.bb, s⟩)) := by
  obtain ⟨hmem, hlabel⟩ := Blocks.mem_of_block? e.getBlock
  have hne : e.copy0MBB ≠ e.bb := Nat.ne_of_gt (e.bb_lt h)
  have horig : F.step S (.running ⟨pred, e.bb, s⟩) = e.thisMBB.run S (F.layoutSuccessor e.bb) pred s := by
    rw [MFunction.step, e.getBlock, Option.elim_some, hlabel]
  rw [horig, Block.run, e.dropWhile_thisMBB, hlabel]
  cases hvs : phiValues pred s e.thisMBB.instrs with
  | none =>
    refine ⟨0, Nat.zero_le 2, ?_⟩
    rw [Function.iterate_one, e.step_head h, Block.run, e.phiValues_head h hpred hbb, hvs]
    rfl
  | some vs =>
    rw [Option.elim_some, execInstrs_append]
    rcases execInstrs_of_not_terminator (S := S) (e.not_terminator_before h) (s.setAll vs) with ⟨s', hs'⟩ | hs'
    · have hsel : execInstrs S (e.select :: e.rest) s' = execInstrs S e.rest (e.select.effect S s') := rfl
      rw [hs']
      simp only [hsel, outcome_sinkMBB]
      by_cases hcond : s'.regs e.cmpRes ≠ 0
      · -- the branch is taken
        refine ⟨1, by decide, ?_⟩
        have hv : Blocks.incoming? [(e.f, e.copy0MBB), (e.t, e.bb)] (some e.bb) = some e.t := by
          simp [Blocks.incoming?, hne]
        rw [Function.iterate_succ_apply, Function.iterate_one, e.step_head h, e.run_head h hpred hbb hvs hs',
          if_pos hcond, e.step_sink h s' hv, select, Instr.effect, if_pos hcond]
      · refine ⟨2, Nat.le_refl 2, ?_⟩
        have hv : Blocks.incoming? [(e.f, e.copy0MBB), (e.t, e.bb)] (some e.copy0MBB) = some e.f := by
          simp [Blocks.incoming?]
        rw [Function.iterate_succ_apply, Function.iterate_succ_apply, Function.iterate_one, e.step_head h,
          e.run_head h hpred hbb hvs hs', if_neg hcond, e.step_copy0 h, e.step_sink h s' hv, select, Instr.effect,
          if_neg hcond]
    · refine ⟨0, Nat.zero_le 2, ?_⟩
      rw [Function.iterate_one, e.step_head h, Block.run, e.phiValues_head h hpred hbb, hvs, Option.elim_some,
        e.dropWhile_head, execInstrs_append, hs']
      rfl

/-- Every block of an execution is at most three after the expansion. -/
theorem simulates (h : F.WellFormed S) :
    Simulates (F.step S) (e.result.step S) (Outcome.rename e.bb e.sinkMBB) e.Inv 2 where
  inv _ _ := e.inv_step h
  steps o ho := by
    cases o with
    | running c =>
      by_cases hbb : c.block = e.bb
      · obtain ⟨pred, block, s⟩ := c
        obtain rfl : block = e.bb := hbb
        exact e.step_bb h ho.2.1 ho.2.2 s
      · exact ⟨0, Nat.zero_le 2, e.step_other h ho hbb⟩
    | left s => exact ⟨0, Nat.zero_le 2, rfl⟩
    | stuck => exact ⟨0, Nat.zero_le 2, rfl⟩

end Simulate

section WellFormed

variable {σ : Type} {S : Sem σ}

/-- The PHIs of the successors are what they were, but for the blocks that they come
from. -/
theorem map_retarget {β : Type} {f : Instr → β} (hf : ∀ i, f (i.setMBB e.bb e.sinkMBB) = f i) (x : Block) :
    (e.retarget x).instrs.map f = x.instrs.map f := by
  rw [retarget]
  simp only []
  split
  · induction x.instrs with
    | nil => rfl
    | cons i is ih =>
      rw [updatePHIs]
      split
      · rw [List.map_cons, List.map_cons, hf, ih]
      · rfl
  · rfl

theorem isPHI_setMBB (i : Instr) : (i.setMBB e.bb e.sinkMBB).isPHI = i.isPHI := by
  cases i <;> rfl

theorem isTerminator_setMBB (i : Instr) : (i.setMBB e.bb e.sinkMBB).isTerminator = i.isTerminator := by
  cases i <;> rfl

theorem transfer_setMBB (s : MState σ) (i : Instr) : (i.setMBB e.bb e.sinkMBB).transfer S s = i.transfer S s := by
  cases i <;> rfl

theorem phis_first_retarget {x : Block} (h : x.instrs.Pairwise fun i j => j.isPHI = true → i.isPHI = true) :
    (e.retarget x).instrs.Pairwise fun i j => j.isPHI = true → i.isPHI = true := by
  have hmap : (x.instrs.map Instr.isPHI).Pairwise fun i j => j = true → i = true := List.pairwise_map.mpr h
  rw [← e.map_retarget e.isPHI_setMBB] at hmap
  exact List.pairwise_map.mp hmap

theorem terminators_last_retarget {x : Block}
    (h : x.instrs.Pairwise fun i j => i.isTerminator = true → j.isTerminator = true) :
    (e.retarget x).instrs.Pairwise fun i j => i.isTerminator = true → j.isTerminator = true := by
  have hmap : (x.instrs.map Instr.isTerminator).Pairwise fun i j => i = true → j = true := List.pairwise_map.mpr h
  rw [← e.map_retarget e.isTerminator_setMBB] at hmap
  exact List.pairwise_map.mp hmap

theorem incoming_lt_updatePHIs {is : List Instr}
    (h : ∀ dst incoming, .phi dst incoming ∈ is → ∀ v ∈ incoming, v.2 < F.nextLabel + 2) :
    ∀ dst incoming, .phi dst incoming ∈ updatePHIs e.bb e.sinkMBB is → ∀ v ∈ incoming, v.2 < F.nextLabel + 2 := by
  induction is with
  | nil => exact h
  | cons i is ih =>
    rw [updatePHIs]
    split
    · intro dst incoming hi v hv
      rcases List.mem_cons.mp hi with hi | hi
      · cases i with
        | phi dst' incoming' =>
          obtain ⟨rfl, rfl⟩ := Instr.phi.inj hi
          obtain ⟨w, hw, rfl⟩ := List.mem_map.mp hv
          rw [Blocks.rename]
          split
          · exact Nat.lt_succ_self _
          · exact h _ _ (.head _) w hw
        | _ => cases hi
      · exact ih (fun dst incoming hi => h dst incoming (.tail _ hi)) dst incoming hi v hv
    · exact h

theorem incoming_lt_retarget {x : Block}
    (h : ∀ dst incoming, .phi dst incoming ∈ x.instrs → ∀ v ∈ incoming, v.2 < F.nextLabel) :
    ∀ dst incoming, .phi dst incoming ∈ (e.retarget x).instrs → ∀ v ∈ incoming, v.2 < F.nextLabel + 2 := by
  have hkeep : ∀ dst incoming, .phi dst incoming ∈ x.instrs → ∀ v ∈ incoming, v.2 < F.nextLabel + 2 :=
    fun dst incoming hi v hv => Nat.lt_add_right 2 (h dst incoming hi v hv)
  rw [retarget]
  simp only []
  split
  · exact e.incoming_lt_updatePHIs hkeep
  · exact hkeep

theorem mem_result {x : Block} (h : F.WellFormed S) (hx : x ∈ e.result.blocks) :
    (∃ y ∈ F.blocks, y.label ≠ e.bb ∧ x = e.retarget y) ∨ x = e.head e.thisMBB ∨ x = e.copy0 ∨ x = e.sink := by
  obtain ⟨y, hy, hx⟩ := List.mem_flatMap.mp hx
  rw [expand] at hx
  split at hx
  · rename_i hbb
    rw [e.eq_thisMBB h hy hbb] at hx
    simp only [List.mem_cons, List.not_mem_nil, or_false] at hx
    exact .inr hx
  · exact .inl ⟨y, hy, ‹_›, List.mem_singleton.mp hx⟩

theorem labels_nodup_result (h : F.WellFormed S) : e.result.labels.Nodup := by
  have hne : e.copy0MBB ∉ [e.sinkMBB] := by simp [copy0MBB, sinkMBB]
  rw [labels_result]
  refine Blocks.nodup_insertBehind h.labels_nodup (List.nodup_cons.mpr ⟨hne, List.nodup_singleton _⟩) ?_
  intro l hl
  rcases List.mem_cons.mp hl with rfl | hl
  · exact notMem_labels h (Nat.le_refl _)
  · obtain rfl := List.mem_singleton.mp hl
    exact notMem_labels h (Nat.le_succ _)

theorem transfer_take (h : F.WellFormed S) {i : Instr} (hi : i ∈ (e.retarget e.thisMBB).instrs.take e.mi)
    (s : MState σ) : i.transfer S s = none := by
  have hlast := e.terminators_last_retarget (h.terminators_last _ (Blocks.mem_of_block? e.getBlock).1)
  rw [e.retarget_instrs_eq] at hlast
  exact i.transfer_of_not_terminator (e.not_terminator_of_pairwise hlast i hi) s

/-- No instruction goes elsewhere, if none of those with the PHIs updated does. -/
theorem transfer_retarget {x : Block} {s : MState σ} (h : ∀ i ∈ (e.retarget x).instrs, i.transfer S s = none) :
    ∀ i ∈ x.instrs, i.transfer S s = none := by
  intro i hi
  have hmem : i.transfer S s ∈ (e.retarget x).instrs.map fun i => i.transfer S s := by
    rw [e.map_retarget (e.transfer_setMBB s)]
    exact List.mem_map.mpr ⟨i, hi, rfl⟩
  obtain ⟨j, hj, hij⟩ := List.mem_map.mp hmem
  rw [← hij, h j hj]

theorem target_retarget {x : Block} {s : MState σ} {i : Instr} (hi : i ∈ (e.retarget x).instrs) :
    ∃ j ∈ x.instrs, j.transfer S s = i.transfer S s := by
  have hmem : i.transfer S s ∈ x.instrs.map fun i => i.transfer S s := by
    rw [← e.map_retarget (e.transfer_setMBB s)]
    exact List.mem_map.mpr ⟨i, hi, rfl⟩
  obtain ⟨j, hj, hij⟩ := List.mem_map.mp hmem
  exact ⟨j, hj, hij⟩

section Fields

-- in each the cases are: another block, the head, the copy, the sink
variable (h : F.WellFormed S) {x : Block} (hx : x ∈ e.result.blocks)
include h hx

theorem label_lt_result : x.label < e.result.nextLabel := by
  have hlabel := (Blocks.mem_of_block? e.getBlock).2
  have hbb := e.bb_lt h
  rcases e.mem_result h hx with ⟨y, hy, -, rfl⟩ | rfl | rfl | rfl
  · exact Nat.lt_add_right 2 (h.label_lt y hy)
  · exact hlabel ▸ Nat.lt_add_right 2 hbb
  · exact Nat.lt_add_of_pos_right Nat.two_pos
  · exact Nat.lt_succ_self _

theorem incoming_lt_result :
    ∀ dst incoming, .phi dst incoming ∈ x.instrs → ∀ v ∈ incoming, v.2 < e.result.nextLabel := by
  have hthis := (Blocks.mem_of_block? e.getBlock).1
  have hbb := e.bb_lt h
  have hrest : ∀ i ∈ e.rest, i ∈ e.thisMBB.instrs := fun i hi => (List.drop_sublist _ _).subset hi
  rcases e.mem_result h hx with ⟨y, hy, -, rfl⟩ | rfl | rfl | rfl
  · exact e.incoming_lt_retarget (h.incoming_lt y hy)
  · intro dst incoming hi
    rcases List.mem_append.mp hi with hi | hi
    · exact e.incoming_lt_retarget (h.incoming_lt _ hthis) dst incoming ((List.take_sublist _ _).subset hi)
    · cases List.mem_singleton.mp hi
  · exact fun dst incoming hi => nomatch hi
  · intro dst incoming hi v hv
    rcases List.mem_cons.mp hi with hi | hi
    · obtain ⟨rfl, rfl⟩ := Instr.phi.inj hi
      simp only [List.mem_cons, List.not_mem_nil, or_false] at hv
      rcases hv with rfl | rfl
      · exact Nat.lt_add_of_pos_right Nat.two_pos
      · exact Nat.lt_add_right 2 hbb
    · exact Nat.lt_add_right 2 (h.incoming_lt _ hthis dst incoming (hrest _ hi) v hv)

theorem successors_lt_result : ∀ l ∈ x.successors, l < e.result.nextLabel := by
  have hthis := (Blocks.mem_of_block? e.getBlock).1
  rcases e.mem_result h hx with ⟨y, hy, -, rfl⟩ | rfl | rfl | rfl
  · exact fun l hl => Nat.lt_add_right 2 (h.successors_lt y hy l hl)
  · simp [result, head, copy0MBB, sinkMBB]
  · simp [result, copy0, sinkMBB]
  · exact fun l hl => Nat.lt_add_right 2 (h.successors_lt _ hthis l hl)

theorem phis_first_result : x.instrs.Pairwise fun i j => j.isPHI = true → i.isPHI = true := by
  have hthis := (Blocks.mem_of_block? e.getBlock).1
  rcases e.mem_result h hx with ⟨y, hy, -, rfl⟩ | rfl | rfl | rfl
  · exact e.phis_first_retarget (h.phis_first y hy)
  · refine List.pairwise_append.mpr ⟨(e.phis_first_retarget (h.phis_first _ hthis)).sublist (List.take_sublist _ _),
      List.pairwise_singleton _ _, fun i _ j hj hphi => ?_⟩
    rw [List.mem_singleton.mp hj] at hphi
    cases hphi
  · exact .nil
  · exact List.pairwise_cons.mpr ⟨fun _ _ _ => rfl, (h.phis_first _ hthis).sublist (List.drop_sublist _ _)⟩

theorem terminators_last_result : x.instrs.Pairwise fun i j => i.isTerminator = true → j.isTerminator = true := by
  have hthis := (Blocks.mem_of_block? e.getBlock).1
  rcases e.mem_result h hx with ⟨y, hy, -, rfl⟩ | rfl | rfl | rfl
  · exact e.terminators_last_retarget (h.terminators_last y hy)
  · refine List.pairwise_append.mpr
      ⟨(e.terminators_last_retarget (h.terminators_last _ hthis)).sublist (List.take_sublist _ _),
        List.pairwise_singleton _ _, fun i _ j hj _ => ?_⟩
    rw [List.mem_singleton.mp hj]
    rfl
  · exact .nil
  · exact List.pairwise_cons.mpr
      ⟨fun _ _ ht => (nomatch ht), (h.terminators_last _ hthis).sublist (List.drop_sublist _ _)⟩

theorem targets_result : ∀ i ∈ x.instrs, ∀ s l, i.transfer S s = some (some l) → l ∈ x.successors := by
  have hthis := (Blocks.mem_of_block? e.getBlock).1
  have hrest : ∀ i ∈ e.rest, i ∈ e.thisMBB.instrs := fun i hi => (List.drop_sublist _ _).subset hi
  rcases e.mem_result h hx with ⟨y, hy, -, rfl⟩ | rfl | rfl | rfl
  · intro i hi s l ht
    obtain ⟨j, hj, hij⟩ := e.target_retarget (S := S) (s := s) hi
    exact h.targets y hy j hj s l (hij.trans ht)
  · intro i hi s l ht
    rcases List.mem_append.mp hi with hi | hi
    · exact nomatch (e.transfer_take h hi s).symm.trans ht
    · obtain rfl := List.mem_singleton.mp hi
      rw [Instr.transfer] at ht
      split at ht
      · obtain rfl := Option.some.inj (Option.some.inj ht)
        exact .tail _ (.head _)
      · cases ht
  · exact fun i hi => nomatch hi
  · intro i hi s l ht
    rcases List.mem_cons.mp hi with rfl | hi
    · cases ht
    · exact h.targets _ hthis i (hrest i hi) s l ht

theorem fallThrough_result :
    ∀ s, (∀ i ∈ x.instrs, i.transfer S s = none) →
      ∀ l, e.result.layoutSuccessor x.label = some l → l ∈ x.successors := by
  obtain ⟨hthis, hlabel⟩ := Blocks.mem_of_block? e.getBlock
  have hinstrs := e.instrs_eq
  rcases e.mem_result h hx with ⟨y, hy, hne, rfl⟩ | rfl | rfl | rfl
  · intro s hs l hl
    rw [show (e.retarget y).label = y.label from rfl, e.layoutSuccessor_other h hy hne] at hl
    exact h.fallThrough y hy s (e.transfer_retarget hs) l hl
  · intro s _ l hl
    rw [show (e.head e.thisMBB).label = e.bb from hlabel, e.layoutSuccessor_bb] at hl
    obtain rfl := Option.some.inj hl
    exact .head _
  · intro s _ l hl
    rw [show e.copy0.label = e.copy0MBB from rfl, e.layoutSuccessor_copy0MBB h] at hl
    obtain rfl := Option.some.inj hl
    exact .head _
  · intro s hs l hl
    rw [show e.sink.label = e.sinkMBB from rfl, e.layoutSuccessor_sinkMBB h, ← hlabel] at hl
    refine h.fallThrough _ hthis s (fun i hi => ?_) l hl
    rw [hinstrs] at hi
    rcases List.mem_append.mp hi with hi | hi
    · have hlast := h.terminators_last _ hthis
      rw [hinstrs] at hlast
      exact i.transfer_of_not_terminator (e.not_terminator_of_pairwise hlast i hi) s
    · rcases List.mem_cons.mp hi with rfl | hi
      · rfl
      · exact hs i (.tail _ hi)

end Fields

/-- The expansion of a function is one. -/
theorem wellFormed_result (h : F.WellFormed S) : e.result.WellFormed S where
  labels_nodup := e.labels_nodup_result h
  label_lt := fun _ hx => e.label_lt_result h hx
  incoming_lt := fun _ hx => e.incoming_lt_result h hx
  successors_lt := fun _ hx => e.successors_lt_result h hx
  phis_first := fun _ hx => e.phis_first_result h hx
  terminators_last := fun _ hx => e.terminators_last_result h hx
  targets := fun _ hx => e.targets_result h hx
  fallThrough := fun _ hx => e.fallThrough_result h hx

end WellFormed

/-- An execution starts at the same block. -/
theorem start_result {σ : Type} (s : MState σ) : e.result.start s = Outcome.rename e.bb e.sinkMBB (F.start s) := by
  have hhead : e.result.blocks.head?.map Block.label = F.blocks.head?.map Block.label := by
    have hlabels := Blocks.head?_insertBehind e.bb [e.copy0MBB, e.sinkMBB] F.labels
    rwa [← e.labels_result, MFunction.labels, MFunction.labels, List.head?_map, List.head?_map] at hlabels
  rw [MFunction.start, MFunction.start]
  cases hF : F.blocks.head? <;> cases hR : e.result.blocks.head? <;>
    simp only [hF, hR, Option.map_some, Option.map_none, Option.some.injEq, reduceCtorEq] at hhead
  · rfl
  · rw [Option.elim_some, hhead]
    rfl

theorem inv_start {σ : Type} {S : Sem σ} (h : F.WellFormed S) (s : MState σ) : e.Inv (F.start s) := by
  rw [MFunction.start]
  cases hF : F.blocks.head? with
  | none => trivial
  | some x => exact ⟨h.label_lt x (List.mem_of_head? hF), fun p hp => (nomatch hp), fun hp => (nomatch hp)⟩

end Expansion

section Correct

variable {σ : Type}

/-- The executions of two functions from one state are the same, up to two more
blocks of the second; where the first is in a block behind `bb`, the second came
there from `sinkMBB`. -/
structure SameExecutions (S : Sem σ) (F F' : MFunction) (bb sinkMBB : Nat) (s : MState σ) : Prop where
  forward : ∀ n, ∃ m, n ≤ m ∧ (F'.step S)^[m] (F'.start s) = ((F.step S)^[n] (F.start s)).rename bb sinkMBB
  backward : ∀ m, ∃ n j, j ≤ 2 ∧ (F'.step S)^[m + j] (F'.start s) = ((F.step S)^[n] (F.start s)).rename bb sinkMBB

/-- The function is left in a state. -/
def Leaves (S : Sem σ) (F : MFunction) (s t : MState σ) : Prop := ∃ n, (F.step S)^[n] (F.start s) = .left t

theorem Expansion.leaves_result {S : Sem σ} {F : MFunction} (e : Expansion F) (h : F.WellFormed S) (s t : MState σ) :
    Leaves S e.result s t ↔ Leaves S F s t := by
  have hsim := e.simulates h
  have hinv := e.inv_start h s
  constructor
  · rintro ⟨m, hm⟩
    obtain ⟨n, j, -, hrun⟩ := hsim.backward hinv m
    have hleft : (e.result.step S)^[j] (.left t) = .left t := Function.iterate_fixed rfl j
    rw [← e.start_result, Nat.add_comm, Function.iterate_add_apply, hm, hleft] at hrun
    refine ⟨n, ?_⟩
    cases hn : (F.step S)^[n] (F.start s) <;> rw [hn] at hrun <;> cases hrun
    rfl
  · rintro ⟨n, hn⟩
    obtain ⟨m, -, hrun⟩ := hsim.forward hinv n
    rw [← e.start_result, hn] at hrun
    exact ⟨m, hrun⟩

/-- Selects are expanded one after the other. -/
inductive Expands : MFunction → MFunction → Prop
  | refl (F : MFunction) : Expands F F
  | step {F F' F'' : MFunction} {bb mi sinkMBB : Nat} : emitInstrWithCustomInserter F bb mi = some (F', sinkMBB) →
      Expands F' F'' → Expands F F''

/-- However many selects are expanded, in whatever order, the function is left in
the same states. -/
theorem leaves_of_expands {S : Sem σ} {F F' : MFunction} (h : F.WellFormed S) (hexp : Expands F F') :
    F'.WellFormed S ∧ ∀ s t, Leaves S F' s t ↔ Leaves S F s t := by
  induction hexp with
  | refl F => exact ⟨h, fun _ _ => Iff.rfl⟩
  | step hemit _ ih =>
    obtain ⟨e, rfl, rfl⟩ := Expansion.emit_cases hemit
    obtain ⟨rfl, -⟩ := Prod.mk.inj (Option.some.inj ((e.emit_eq h).symm.trans hemit))
    obtain ⟨hwf, hleaves⟩ := ih (e.wellFormed_result h)
    exact ⟨hwf, fun s t => (hleaves s t).trans (e.leaves_result h s t)⟩

/-- A select anywhere in a function is expanded: it is replaced by a branch and a PHI,
and the executions are the same. -/
theorem selectExpansion_correct (S : Sem σ) {F : MFunction} (h : F.WellFormed S) {bb mi : Nat} {thisMBB : Block}
    {fp : Bool} {dst cmpRes t f : Nat} (hbb : F.getBlock? bb = some thisMBB)
    (hmi : thisMBB.instrs[mi]? = some (.selectCC fp dst cmpRes t f)) :
    let e : Expansion F := ⟨bb, mi, thisMBB, fp, dst, cmpRes, t, f, hbb, hmi⟩
    emitInstrWithCustomInserter F bb mi = some (e.result, e.sinkMBB) ∧ e.Diamond e.result ∧
      e.result.WellFormed S ∧ ∀ s, SameExecutions S F e.result bb e.sinkMBB s := by
  intro e
  refine ⟨e.emit_eq h, e.diamond_result h, e.wellFormed_result h, fun s => ?_⟩
  have hsim := e.simulates h
  have hinv := e.inv_start h s
  exact
    { forward := by rw [e.start_result s]; exact hsim.forward hinv
      backward := by rw [e.start_result s]; exact hsim.backward hinv }

/-- A loop whose block has a select between its PHI and its branch. -/
def loopWithSelect : MFunction :=
  { blocks :=
      [⟨0, [], [1]⟩, ⟨1, [.phi 1 [(0, 0), (3, 1)], .selectCC false 2 1 0 1, .op 0, .bnz 2 1], [1, 2]⟩,
        ⟨2, [.terminator 0], []⟩]
    nextLabel := 3 }

/-- The instructions of the loop: it sets the register that the PHI reads. -/
def loopSem : Sem Unit := ⟨fun _ s => s.set 3 1, fun _ _ => some none⟩

theorem loopWithSelect_wellFormed : loopWithSelect.WellFormed loopSem where
  labels_nodup := by decide
  label_lt := by decide
  incoming_lt := by
    intro x hx dst incoming hi
    simp only [loopWithSelect, List.mem_cons, List.not_mem_nil, or_false] at hx
    rcases hx with rfl | rfl | rfl
    · cases hi
    · simp only [List.mem_cons, Instr.phi.injEq, reduceCtorEq, List.not_mem_nil, or_false] at hi
      obtain ⟨-, rfl⟩ := hi
      decide
    · simp at hi
  successors_lt := by decide
  phis_first := by decide
  terminators_last := by decide
  targets := by simp [loopWithSelect, loopSem, Instr.transfer]
  fallThrough := by
    intro x hx s _ l hl
    simp only [loopWithSelect, List.mem_cons, List.not_mem_nil, or_false] at hx
    rcases hx with rfl | rfl | rfl
    · obtain rfl : 1 = l := Option.some.inj hl
      decide
    · obtain rfl : 2 = l := Option.some.inj hl
      decide
    · cases hl

/-- The select of the loop. -/
def loopExpansion : Expansion loopWithSelect :=
  ⟨1, 1, ⟨1, [.phi 1 [(0, 0), (3, 1)], .selectCC false 2 1 0 1, .op 0, .bnz 2 1], [1, 2]⟩, false, 2, 1, 0, 1, rfl, rfl⟩

theorem selectExpansion_correct_loop :
    emitInstrWithCustomInserter loopWithSelect 1 1 = some (loopExpansion.result, 4) ∧
      loopExpansion.Diamond loopExpansion.result ∧ loopExpansion.result.WellFormed loopSem ∧
      ∀ s, SameExecutions loopSem loopWithSelect loopExpansion.result 1 4 s :=
  selectExpansion_correct loopSem loopWithSelect_wellFormed rfl rfl

end Correct

end Rigel.SSA
