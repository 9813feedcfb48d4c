import RigelCodegen.Lib.Simulation
import RigelCodegen.Lib.Blocks
import RigelCodegen.Flow.BranchAnalysis

/-!
# Critical edges

`SplitCriticalEdge` puts a new block on an edge between two others. The branches to
the second block go to the new one, `updateTerminator` mends the first block, whose
layout successor is now the new block, and the PHIs of the second block take their
values from there.

`updateTerminator_spec` says that a block with an exact list of successors is mended
for any layout successor, and `splitCriticalEdge_correct` that the function with the
new block has the same executions.
-/

namespace Rigel

/-- A PHI: its destination, and a register for each block that control may come from. -/
structure MPhi where
  dest : Nat
  incoming : List (Nat × Nat)
  deriving DecidableEq, Repr

/-- A basic block. -/
structure MBlock where
  number : Nat
  phis : List MPhi := []
  instrs : List BrInstr
  successors : List Nat
  deriving DecidableEq, Repr

/-- The blocks in layout order. -/
abbrev MFunc := List MBlock

def MFunc.numbers (mf : MFunc) : List Nat := mf.map MBlock.number

def MFunc.getBlock? (mf : MFunc) (n : Nat) : Option MBlock :=
  Blocks.block? MBlock.number mf n

/-- The layout successor of a block. -/
def MFunc.layoutSuccessor (mf : MFunc) (n : Nat) : Option Nat := Blocks.follower mf.numbers n

/-- The registers at the beginning of a block: its PHIs have the values that come with the edge. -/
def MBlock.enter (b : MBlock) (pred : Option Nat) (regs : Regs) : Regs := fun r =>
  match b.phis.find? fun phi => phi.dest == r with
  | none => regs r
  | some phi => ((Blocks.incoming? phi.incoming pred).map regs).getD (regs r)

/-- Before a block, or out of the function. -/
inductive EdgeConfig where
  | running (pred : Option Nat) (block : Nat) (regs : Regs)
  | left (s : Successor) (regs : Regs)

/-- What comes after a block. -/
def EdgeConfig.after (n : Nat) (regs : Regs) : Successor → EdgeConfig
  | .block s => .running (some n) s regs
  | s => .left s regs

/-- One block of an execution; without a block to execute it stays where it is. -/
def MFunc.step (E : Nat → Regs → Regs) (mf : MFunc) : EdgeConfig → EdgeConfig
  | .running pred n regs =>
    (mf.getBlock? n).elim (.running pred n regs) fun b =>
      .after n (effects E b.instrs (b.enter pred regs))
        (successor E (mf.layoutSuccessor n) b.instrs (b.enter pred regs))
  | c => c

/-! ## Splitting an edge -/

/-- `updateTerminator`, for a block with this layout successor; nothing where it asserts otherwise, or looks at a
successor that there is not. -/
def updateTerminator (layout : Option Nat) (b : MBlock) : Option (List BrInstr) :=
  if b.successors = [] then some b.instrs
  else
    let a := analyzeBranch b.instrs false
    let removed := (removeBranch b.instrs).1
    if a.failed then none
    else if a.cond = [] then
      match a.tbb with
      | some tbb => if layout = some tbb then some removed else some b.instrs
      | none =>
        b.successors.head?.bind fun tbb =>
          if layout ≠ some tbb then (insertBranch b.instrs (some tbb) none []).map Prod.fst else some b.instrs
    else
      match a.tbb, a.fbb with
      | some tbb, some fbb =>
        if layout = some tbb then
          match reverseBranchCondition a.cond with
          | none => some b.instrs
          | some cond => (insertBranch removed (some fbb) none cond).map Prod.fst
        else if layout = some fbb then (insertBranch removed (some tbb) none a.cond).map Prod.fst
        else some b.instrs
      | some tbb, none =>
        b.successors[0]?.bind fun first => b.successors[1]?.bind fun second =>
          let mbba := if first = tbb then second else first
          if layout = some tbb then
            match reverseBranchCondition a.cond with
            | none => (insertBranch b.instrs (some mbba) none []).map Prod.fst
            | some cond => (insertBranch removed (some mbba) none cond).map Prod.fst
          else if layout ≠ some mbba then (insertBranch removed (some tbb) (some mbba) a.cond).map Prod.fst
          else some b.instrs
      | none, _ => some b.instrs

/-- An operand that is a block is replaced. -/
def replaceBlock (old new : Nat) : BrOperand → BrOperand
  | .mbb b => .mbb (if b = old then new else b)
  | op => op

theorem wellTyped_replaceBlock (old new : Nat) {opcode : BrOpcode} {operands : List BrOperand}
    (h : WellTyped opcode operands = true) : WellTyped opcode (operands.map (replaceBlock old new)) = true := by
  unfold WellTyped at h
  split at h <;> first | (cases h; done) | rfl

/-- The uses of a block by an instruction are replaced. -/
def replaceUses (old new : Nat) (i : BrInstr) : BrInstr :=
  ⟨i.opcode, i.operands.map (replaceBlock old new), wellTyped_replaceBlock old new i.wellTyped⟩

/-- `ReplaceUsesOfBlockWith`, the instructions: it goes from the end to the first that is no terminator. -/
def replaceUsesOfBlockWith (old new : Nat) (mbb : List BrInstr) : List BrInstr :=
  ((mbb.reverse.takeWhile BrInstr.isUnpredicatedTerminator).map (replaceUses old new) ++
    mbb.reverse.dropWhile BrInstr.isUnpredicatedTerminator).reverse

/-- A PHI takes from `new` what it took from `old`. -/
def MPhi.setMBB (old new : Nat) (phi : MPhi) : MPhi :=
  { phi with incoming := phi.incoming.map fun v => (v.1, Blocks.rename old new v.2) }

/-- A block of the function with the new one, which is behind `this`. -/
def splitBlock (this succ nmbb : Nat) (instrs jump : List BrInstr) (successors : List Nat) (c : MBlock) :
    List MBlock :=
  let phis := if c.number = succ then c.phis.map (MPhi.setMBB this nmbb) else c.phis
  if c.number = this then
    [{ c with phis, instrs, successors }, { number := nmbb, instrs := jump, successors := [succ] }]
  else [{ c with phis }]

/-- `SplitCriticalEdge`, with the number of the new block; the function as it is where the block cannot be analysed,
and nothing where something asserts otherwise. -/
def splitCriticalEdge (mf : MFunc) (this succ nmbb : Nat) : Option MFunc :=
  (mf.getBlock? this).bind fun b =>
    if (analyzeBranch b.instrs false).failed then some mf
    else if succ ∉ b.successors then none
    else
      let successors := b.successors.erase succ ++ [nmbb]
      (updateTerminator (some nmbb) { b with instrs := replaceUsesOfBlockWith succ nmbb b.instrs, successors }).bind
        fun instrs =>
          (if mf.layoutSuccessor this = some succ then some []
            else (insertBranch [] (some succ) none []).map Prod.fst).map fun jump =>
              mf.flatMap (splitBlock this succ nmbb instrs jump successors)

section Update

variable {mbb : List BrInstr}

theorem analyzeTerminators_block (mbb dbg : List BrInstr) (last : BrInstr) (opc : BrOpcode) (rest : List BrInstr) :
    (analyzeTerminators mbb dbg last opc rest false).block = mbb := by
  simp only [analyzeTerminators, Bool.false_eq_true, if_false]
  repeat' split
  all_goals rfl

theorem analyzeBranch_block (mbb : List BrInstr) : (analyzeBranch mbb false).block = mbb := by
  unfold analyzeBranch
  repeat' split
  all_goals first | rfl | exact analyzeTerminators_block ..

theorem BrInstr.isUnpredicatedTerminator_of_analyzable {i : BrInstr} {opc : BrOpcode}
    (h : getAnalyzableBrOpc i.opcode = some opc) : i.isUnpredicatedTerminator = true := by
  by_contra hn
  rw [getAnalyzableBrOpc_of_not_terminator (by simpa using hn)] at h
  cases h

/-- The analysis of a block that ends in a terminator that can be analysed. -/
theorem analyzeBranch_append {t : BrInstr} (ht : getAnalyzableBrOpc t.opcode = some t.opcode) (mbb : List BrInstr) :
    analyzeBranch (mbb ++ [t]) false = analyzeTerminators (mbb ++ [t]) [] t t.opcode mbb.reverse false := by
  have hterm := t.isUnpredicatedTerminator_of_analyzable ht
  have hd := t.not_debugValue_of_terminator hterm
  have hrev : (mbb ++ [t]).reverse = t :: mbb.reverse := by simp
  rw [analyzeBranch, hrev, List.dropWhile_cons_of_neg (by simp [hd]), List.takeWhile_cons_of_neg (by simp [hd])]
  simp only [hterm, Bool.not_true, Bool.false_eq_true, if_false, ht]

/-- The first instruction before a terminator, if it is none, does not matter. -/
theorem analyzeTerminators_body {t : BrInstr} {rest : List BrInstr} {opc : BrOpcode}
    (h : ∀ i ∈ rest, i.isUnpredicatedTerminator = false) :
    analyzeTerminators mbb [] t opc rest false =
      if opc = .jmp then { tbb := t.target, block := mbb }
      else { tbb := (analyzeCondBr t opc).1, cond := (analyzeCondBr t opc).2, block := mbb } := by
  have hnone : (rest.head?.bind fun i => (getAnalyzableBrOpc i.opcode).map fun opc => (i, opc)) = none := by
    cases rest with
    | nil => rfl
    | cons i is =>
      rw [List.head?_cons, Option.bind_some, getAnalyzableBrOpc_of_not_terminator (h i (.head _))]
      rfl
  rw [analyzeTerminators, if_neg (by simp [any_terminator_body h]), hnone]

/-- The branch that is made of a condition is analysed as that condition. -/
theorem CondForm.analyzeCondBr_condBranch {cond : List BrOperand} (h : CondForm cond) (tbb : Nat) :
    ∃ br, Rigel.condBranch cond tbb = some br ∧ getAnalyzableBrOpc br.opcode = some br.opcode ∧
      br.opcode.isCond = true ∧ br.isUnpredicatedTerminator = true ∧
      analyzeCondBr br br.opcode = (some tbb, cond) := by
  cases h with
  | @two opc h a b =>
    cases opc <;> first | (cases h; done) | exact ⟨⟨_, [.reg a, .reg b, .mbb tbb], rfl⟩, rfl, rfl, rfl, rfl, rfl⟩
  | @one opc h a =>
    cases opc <;> first | (cases h; done) | exact ⟨⟨_, [.reg a, .mbb tbb], rfl⟩, rfl, rfl, rfl, rfl, rfl⟩

/-- What was inserted is found again. -/
theorem analyzeBranch_insertBranch {fbb : Option Nat} {cond : List BrOperand} (tbb : Nat)
    (hcond : CondForm cond ∨ cond = [] ∧ fbb = none) (h : ∀ i ∈ mbb, i.isUnpredicatedTerminator = false) :
    ∃ brs n, insertBranch mbb (some tbb) fbb cond = some (mbb ++ brs, n) ∧
      (∀ i ∈ brs, i.isUnpredicatedTerminator = true) ∧
      analyzeBranch (mbb ++ brs) false = { tbb := some tbb, fbb, cond, block := mbb ++ brs } := by
  have hrev : ∀ i ∈ mbb.reverse, i.isUnpredicatedTerminator = false := fun i hi => h i (List.mem_reverse.mp hi)
  rcases hcond with hform | ⟨rfl, rfl⟩
  · obtain ⟨br, hbr, hopc, hisCond, hterm, hcond⟩ := hform.analyzeCondBr_condBranch tbb
    have hne : br.opcode ≠ .jmp := fun he => by rw [he] at hisCond; cases hisCond
    have hlen : ¬(cond.length ≠ 3 ∧ cond.length ≠ 2 ∧ cond.length ≠ 0) := by cases hform <;> simp
    cases fbb with
    | none =>
      refine ⟨[br], 1, ?_, fun i hi => by rw [List.mem_singleton.mp hi, hterm], ?_⟩
      · rw [insertBranch, Option.bind_some, if_neg hlen]
        simp only [hform.ne_nil, if_false, hbr, Option.map_some]
      · rw [analyzeBranch_append hopc, analyzeTerminators_body hrev, if_neg hne, hcond]
    | some fbb =>
      refine ⟨[br, jmpTo fbb], 2, ?_, fun i hi => ?_, ?_⟩
      · rw [insertBranch, Option.bind_some, if_neg hlen, hbr]
        rfl
      · rcases List.mem_cons.mp hi with rfl | hi
        · exact hterm
        · rw [List.mem_singleton.mp hi]
          rfl
      · have hbody : mbb.reverse.head?.any BrInstr.isUnpredicatedTerminator = false := by
          have hany := any_terminator_body hrev fun _ => true
          simpa only [Bool.and_true] using hany
        rw [show mbb ++ [br, jmpTo fbb] = mbb ++ [br] ++ [jmpTo fbb] by simp, analyzeBranch_append rfl,
          show (mbb ++ [br]).reverse = br :: mbb.reverse by simp, analyzeTerminators]
        simp only [List.head?_cons, Option.any_some, hopc, Option.isNone_some, Bool.and_false, Bool.false_eq_true,
          if_false, Option.bind_some, Option.map_some, List.tail_cons, hbody, hne, hcond, jmpTo]
        rfl
  · refine ⟨[jmpTo tbb], 1, rfl, fun i hi => by rw [List.mem_singleton.mp hi]; rfl, ?_⟩
    rw [analyzeBranch_append rfl, analyzeTerminators_body hrev]
    rfl

/-- A block without terminators falls through. -/
theorem analyzeBranch_of_not_terminator (h : ∀ i ∈ mbb, i.isUnpredicatedTerminator = false) :
    analyzeBranch mbb false = { block := mbb } := by
  rw [analyzeBranch]
  split
  · rfl
  · next last rest hl =>
    have hmem : last ∈ mbb := by
      have hsub := (List.dropWhile_sublist BrInstr.isDebugValue (l := mbb.reverse)).subset (hl ▸ List.mem_cons_self)
      exact List.mem_reverse.mp hsub
    rw [if_pos (by rw [h last hmem]; rfl)]

end Update

/-- The blocks that a block goes to, by its analysis. -/
def Analysis.targets (a : Analysis) (layout : Option Nat) : List Nat :=
  match a.tbb with
  | none => layout.toList
  | some tbb => tbb :: if a.cond = [] then [] else (a.fbb.or layout).toList

/-- Where a block goes, by its analysis. -/
def Analysis.goes (a : Analysis) (layout : Option Nat) (regs : Regs) : Successor :=
  describes a.tbb a.fbb a.cond layout regs

section Rewrite

variable {layout layout' : Option Nat} {b : MBlock} {a : Analysis}

/-- An analysis says that a block goes to its successors, and has as many of them as it has targets. -/
structure Analysis.Fits (a : Analysis) (layout : Option Nat) (successors : List Nat) : Prop where
  cond : CondForm a.cond ∨ a.cond = [] ∧ a.fbb = none
  length : 1 + (if a.cond = [] then 0 else 1) = successors.length
  targets : ∀ s, s ∈ successors ↔ s ∈ a.targets layout
  falls : a.cond ≠ [] → a.fbb.or layout ≠ none

theorem Analysis.Fits.ne_nil {successors : List Nat} (h : a.Fits layout successors) : successors ≠ [] := by
  rintro rfl
  have := h.length
  rw [List.length_nil] at this
  omega

/-- A block with an exact list of successors, which can be analysed. -/
structure MBlock.Analyzed (layout : Option Nat) (b : MBlock) : Prop where
  terminators : TerminatorsLast b.instrs
  failed : (analyzeBranch b.instrs false).failed = false
  fits : (analyzeBranch b.instrs false).Fits layout b.successors

theorem MBlock.Analyzed.analysis (h : b.Analyzed layout) (E : Nat → Regs → Regs) :
    (analyzeBranch b.instrs false).Describes E b.instrs :=
  (analyzeBranch_spec h.terminators false).elim (fun hf => by rw [h.failed] at hf; cases hf.1) And.right

/-- A block whose instructions have been rewritten for another layout successor. -/
structure MBlock.Rewritten (layout layout' : Option Nat) (b : MBlock) (instrs : List BrInstr) : Prop where
  analyzed : MBlock.Analyzed layout' { b with instrs }
  successor_eq : ∀ E regs, successor E layout' instrs regs = successor E layout b.instrs regs
  effects_eq : ∀ E regs, effects E instrs regs = effects E b.instrs regs

/-- A block that does not have to be rewritten. -/
theorem MBlock.Analyzed.rewritten_self (h : b.Analyzed layout)
    (hfits : (analyzeBranch b.instrs false).Fits layout' b.successors)
    (hsame : ∀ regs, (analyzeBranch b.instrs false).goes layout' regs =
      (analyzeBranch b.instrs false).goes layout regs) : b.Rewritten layout layout' b.instrs :=
  have h' : MBlock.Analyzed layout' { b with instrs := b.instrs } :=
    ⟨h.terminators, h.failed, hfits⟩
  ⟨h',
    fun E regs => by
      rw [(h.analysis E).successor_eq, (h.analysis E).successor_eq]
      exact hsame _,
    fun _ _ => rfl⟩

theorem MBlock.Analyzed.not_terminator_removed (h : b.Analyzed layout) :
    ∀ i ∈ (removeBranch b.instrs).1, i.isUnpredicatedTerminator = false :=
  analyzeBranch_block b.instrs ▸ (h.analysis fun _ regs => regs).not_terminator_removed

/-- A block whose branches are removed, or replaced. -/
theorem MBlock.Analyzed.rewritten_append (h : b.Analyzed layout) {brs : List BrInstr} {a : Analysis}
    (ha : analyzeBranch ((removeBranch b.instrs).1 ++ brs) false = a) (hfailed : a.failed = false)
    (hbrs : ∀ i ∈ brs, i.isUnpredicatedTerminator = true) (hfits : a.Fits layout' b.successors)
    (hsame : ∀ regs, a.goes layout' regs = (analyzeBranch b.instrs false).goes layout regs) :
    b.Rewritten layout layout' ((removeBranch b.instrs).1 ++ brs) := by
  have hblock := analyzeBranch_block b.instrs
  have heff (E : Nat → Regs → Regs) (regs : Regs) :
      effects E ((removeBranch b.instrs).1 ++ brs) regs = effects E b.instrs regs := by
    rw [effects_append, effects_eq_self fun i hi => i.effect_of_terminator (hbrs i hi)]
    have hremoved := (h.analysis E).effects_removed regs
    rwa [hblock] at hremoved
  have h' : MBlock.Analyzed layout' { b with instrs := (removeBranch b.instrs).1 ++ brs } :=
    ⟨⟨_, brs, [], (List.append_nil _).symm, h.not_terminator_removed, hbrs, nofun⟩, ha ▸ hfailed, ha ▸ hfits⟩
  refine ⟨h', fun E regs => ?_, heff⟩
  rw [(h'.analysis E).successor_eq, (h.analysis E).successor_eq, heff, ha]
  exact hsame _

/-- A block whose branches are replaced. -/
theorem MBlock.Analyzed.rewritten_inserted (h : b.Analyzed layout) {tbb : Nat} {fbb : Option Nat}
    {cond : List BrOperand} (hfits : Analysis.Fits { tbb := some tbb, fbb, cond, block := [] } layout' b.successors)
    (hsame : ∀ regs, describes (some tbb) fbb cond layout' regs =
      (analyzeBranch b.instrs false).goes layout regs) :
    ∃ instrs, (insertBranch (removeBranch b.instrs).1 (some tbb) fbb cond).map Prod.fst = some instrs ∧
      b.Rewritten layout layout' instrs := by
  obtain ⟨brs, n, hins, hbrs, ha⟩ := analyzeBranch_insertBranch tbb hfits.cond h.not_terminator_removed
  exact ⟨_, by rw [hins]; rfl,
    h.rewritten_append ha rfl hbrs ⟨hfits.cond, hfits.length, hfits.targets, hfits.falls⟩ hsame⟩

/-- A block that goes to one of two others by a condition, with the branches that say so. -/
theorem MBlock.Analyzed.rewritten_branch (h : b.Analyzed layout) {tbb other : Nat} {fbb : Option Nat}
    {cond : List BrOperand} (hform : CondForm cond) (hlen : 2 = b.successors.length)
    (htargets : ∀ s, s ∈ b.successors ↔ s ∈ [tbb, other]) (hother : fbb.or layout' = some other)
    (hgoes : ∀ regs, (analyzeBranch b.instrs false).goes layout regs =
      .block (if condTaken cond regs then tbb else other)) :
    ∃ instrs, (insertBranch (removeBranch b.instrs).1 (some tbb) fbb cond).map Prod.fst = some instrs ∧
      b.Rewritten layout layout' instrs := by
  have hne := hform.ne_nil
  refine h.rewritten_inserted ⟨.inl hform, ?_, fun s => ?_, fun _ => ?_⟩ fun regs => ?_
  · simpa only [hne, if_false] using hlen
  · simp only [htargets, Analysis.targets, hne, if_false, hother, Option.toList_some]
  · rw [hother]
    nofun
  · rw [describes_of_or hother, hgoes]

/-- The condition is reversed where the first of the two blocks is the layout successor. -/
theorem MBlock.Analyzed.rewritten_reversed (h : b.Analyzed layout) {tbb other : Nat} {cond cond' : List BrOperand}
    (hform : CondForm cond') (htaken : ∀ regs, condTaken cond' regs = !condTaken cond regs)
    (hlen : 2 = b.successors.length) (htargets : ∀ s, s ∈ b.successors ↔ s ∈ [tbb, other])
    (hgoes : ∀ regs, (analyzeBranch b.instrs false).goes layout regs =
      .block (if condTaken cond regs then tbb else other)) :
    ∃ instrs, (insertBranch (removeBranch b.instrs).1 (some other) none cond').map Prod.fst = some instrs ∧
      b.Rewritten layout (some tbb) instrs := by
  refine h.rewritten_branch hform hlen (fun s => (htargets s).trans (List.Perm.swap _ _ _).mem_iff) rfl fun regs => ?_
  rw [hgoes, htaken]
  cases condTaken cond regs <;> rfl

/-- A block that ends in a jump. -/
theorem updateTerminator_jump (h : b.Analyzed layout) {tbb : Nat} (hcond : (analyzeBranch b.instrs false).cond = [])
    (htbb : (analyzeBranch b.instrs false).tbb = some tbb) (layout' : Option Nat) :
    ∃ instrs, updateTerminator layout' b = some instrs ∧ b.Rewritten layout layout' instrs := by
  have hlen := h.fits.length
  have htargets := h.fits.targets
  simp only [Analysis.targets, htbb, hcond, if_true] at hlen htargets
  have hgoes (l : Option Nat) (regs : Regs) : (analyzeBranch b.instrs false).goes l regs = .block tbb := by
    rw [Analysis.goes, htbb, hcond]
    rfl
  rw [updateTerminator, if_neg h.fits.ne_nil]
  simp only [h.failed, hcond, htbb, if_false, Bool.false_eq_true, if_true]
  split
  · next hl =>
    subst hl
    have ha : analyzeBranch ((removeBranch b.instrs).1 ++ []) false = { block := (removeBranch b.instrs).1 } := by
      rw [List.append_nil]
      exact analyzeBranch_of_not_terminator h.not_terminator_removed
    have hr : b.Rewritten layout (some tbb) ((removeBranch b.instrs).1 ++ []) :=
      h.rewritten_append ha rfl nofun ⟨.inr ⟨rfl, rfl⟩, hlen, htargets, fun hn => absurd rfl hn⟩
        fun regs => (hgoes layout regs).symm
    rw [List.append_nil] at hr
    exact ⟨_, rfl, hr⟩
  · refine ⟨_, rfl, h.rewritten_self ⟨h.fits.cond, h.fits.length, ?_, fun hn => absurd hcond hn⟩ fun regs => ?_⟩
    · simpa only [Analysis.targets, htbb, hcond, if_true] using htargets
    · rw [hgoes, hgoes]

/-- A block without branches. -/
theorem updateTerminator_fall (h : b.Analyzed layout) (htbb : (analyzeBranch b.instrs false).tbb = none)
    (layout' : Option Nat) :
    ∃ instrs, updateTerminator layout' b = some instrs ∧ b.Rewritten layout layout' instrs := by
  have hblock := analyzeBranch_block b.instrs
  have hd := h.analysis fun _ regs => regs
  obtain ⟨hcond, hbody⟩ := hd.target htbb
  have hremoved : (removeBranch b.instrs).1 = b.instrs := by
    rw [← hblock, hd.removeBranch_eq, List.filter_eq_self]
    intro i hi
    rw [hbody i hi]
    rfl
  have hlen := h.fits.length
  have htargets := h.fits.targets
  simp only [Analysis.targets, htbb, hcond, if_true] at hlen htargets
  obtain ⟨s, hs⟩ := List.length_eq_one_iff.mp hlen.symm
  have hl : layout = some s := Option.mem_toList.mp ((htargets s).mp (by rw [hs]; exact .head _))
  rw [updateTerminator, if_neg h.fits.ne_nil]
  simp only [h.failed, hcond, htbb, if_false, Bool.false_eq_true, if_true, hs,
    List.head?_cons, Option.bind_some]
  split
  · have hr : ∃ instrs, (insertBranch (removeBranch b.instrs).1 (some s) none []).map Prod.fst = some instrs ∧
        b.Rewritten layout layout' instrs := h.rewritten_inserted
      ⟨.inr ⟨rfl, rfl⟩, hlen, fun t => by rw [hs]; rfl, fun hn => absurd rfl hn⟩
      fun regs => by rw [Analysis.goes, htbb, hl]; rfl
    rwa [hremoved] at hr
  · next hl' =>
    obtain rfl : layout' = layout := (not_not.mp hl').trans hl.symm
    exact ⟨_, rfl, h.rewritten_self h.fits fun _ => rfl⟩

/-- A block that ends in a conditional branch and a jump. -/
theorem updateTerminator_twoWay (h : b.Analyzed layout) {tbb fbb : Nat}
    (hcond : (analyzeBranch b.instrs false).cond ≠ [])
    (htbb : (analyzeBranch b.instrs false).tbb = some tbb) (hfbb : (analyzeBranch b.instrs false).fbb = some fbb)
    (layout' : Option Nat) :
    ∃ instrs, updateTerminator layout' b = some instrs ∧ b.Rewritten layout layout' instrs := by
  have hform := h.fits.cond.resolve_right fun hn => hcond hn.1
  have hlen := h.fits.length
  have htargets := h.fits.targets
  simp only [Analysis.targets, htbb, hfbb, hcond, if_false, Option.some_or, Option.toList_some] at hlen htargets
  have hgoes (l : Option Nat) (regs : Regs) : (analyzeBranch b.instrs false).goes l regs =
      .block (if condTaken (analyzeBranch b.instrs false).cond regs then tbb else fbb) := by
    rw [Analysis.goes, htbb, hfbb]
    exact describes_of_or rfl _ _
  obtain ⟨cond', hrev, hform', htaken⟩ := hform.reverse
  rw [updateTerminator, if_neg h.fits.ne_nil]
  simp only [h.failed, hcond, htbb, hfbb, hrev, if_false, Bool.false_eq_true]
  split
  · next hl =>
    subst hl
    exact h.rewritten_reversed hform' htaken hlen htargets (hgoes _)
  · split
    · next hl =>
      subst hl
      exact h.rewritten_branch hform hlen htargets rfl (hgoes _)
    · refine ⟨_, rfl, h.rewritten_self ⟨h.fits.cond, h.fits.length, fun s => ?_, fun _ => ?_⟩
        fun regs => by rw [hgoes, hgoes]⟩
      · rw [htargets]
        simp only [Analysis.targets, htbb, hfbb, hcond, if_false, Option.some_or, Option.toList_some]
      · rw [hfbb]
        nofun

/-- A block that ends in a conditional branch and falls through. -/
theorem updateTerminator_oneWay (h : b.Analyzed layout) {tbb : Nat} (hcond : (analyzeBranch b.instrs false).cond ≠ [])
    (htbb : (analyzeBranch b.instrs false).tbb = some tbb) (hfbb : (analyzeBranch b.instrs false).fbb = none)
    (layout' : Option Nat) :
    ∃ instrs, updateTerminator layout' b = some instrs ∧ b.Rewritten layout layout' instrs := by
  have hform := h.fits.cond.resolve_right fun hn => hcond hn.1
  have hlen := h.fits.length
  have htargets := h.fits.targets
  have hfalls := h.fits.falls hcond
  rw [hfbb, Option.none_or] at hfalls
  obtain ⟨lo, rfl⟩ := Option.ne_none_iff_exists'.mp hfalls
  simp only [Analysis.targets, htbb, hfbb, hcond, if_false, Option.none_or, Option.toList_some] at hlen htargets
  have hgoes (l : Nat) (regs : Regs) : (analyzeBranch b.instrs false).goes (some l) regs =
      .block (if condTaken (analyzeBranch b.instrs false).cond regs then tbb else l) := by
    rw [Analysis.goes, htbb, hfbb]
    exact describes_of_or rfl _ _
  obtain ⟨cond', hrev, hform', htaken⟩ := hform.reverse
  obtain ⟨first, second, hs⟩ := List.length_eq_two.mp hlen.symm
  have hmbba : (if first = tbb then second else first) = lo := by
    simp only [hs, List.mem_cons, List.not_mem_nil, or_false] at htargets
    have h1 := htargets first
    have h2 := htargets second
    have h3 := htargets lo
    split <;> grind
  rw [updateTerminator, if_neg h.fits.ne_nil]
  simp only [h.failed, hcond, htbb, hfbb, hrev, if_false, Bool.false_eq_true, hs,
    List.getElem?_cons_zero, List.getElem?_cons_succ, Option.bind_some, hmbba]
  split
  · next hl =>
    subst hl
    exact h.rewritten_reversed hform' htaken hlen htargets (hgoes _)
  · split
    · exact h.rewritten_branch hform hlen htargets rfl (hgoes lo)
    · next hl =>
      obtain rfl : layout' = some lo := not_not.mp hl
      exact ⟨_, rfl, h.rewritten_self h.fits fun _ => rfl⟩

/-- A block with an exact list of successors is mended for any layout successor. -/
theorem updateTerminator_spec (h : b.Analyzed layout) (layout' : Option Nat) :
    ∃ instrs, updateTerminator layout' b = some instrs ∧ b.Rewritten layout layout' instrs := by
  cases htbb : (analyzeBranch b.instrs false).tbb with
  | none => exact updateTerminator_fall h htbb layout'
  | some tbb =>
    by_cases hcond : (analyzeBranch b.instrs false).cond = []
    · exact updateTerminator_jump h hcond htbb layout'
    · cases hfbb : (analyzeBranch b.instrs false).fbb with
      | some fbb => exact updateTerminator_twoWay h hcond htbb hfbb layout'
      | none => exact updateTerminator_oneWay h hcond htbb hfbb layout'

end Rewrite

section Replace

variable {old new : Nat}

/-- What a block is replaced by. -/
def redirect (old new b : Nat) : Nat := if b = old then new else b

/-- Where control goes when a block is replaced. -/
def Successor.redirect (old new : Nat) : Successor → Successor
  | .block b => .block (Rigel.redirect old new b)
  | s => s

/-- An analysis when a block is replaced. -/
structure Analysis.Redirected (old new : Nat) (a a' : Analysis) : Prop where
  failed : a'.failed = a.failed
  tbb : a'.tbb = a.tbb.map (redirect old new)
  fbb : a'.fbb = a.fbb.map (redirect old new)
  cond : a'.cond = a.cond

theorem getMBB_replaceBlock (op : BrOperand) :
    (replaceBlock old new op).getMBB = op.getMBB.map (redirect old new) := by
  cases op <;> rfl

theorem target_replaceUses (i : BrInstr) : (replaceUses old new i).target = i.target.map (redirect old new) := by
  rw [BrInstr.target, BrInstr.target, replaceUses, List.getLast?_map]
  cases i.operands.getLast? with
  | none => rfl
  | some op => exact getMBB_replaceBlock op

/-- The condition of a branch has no blocks. -/
theorem analyzeCondBr_replaceUses {i : BrInstr} (h : i.opcode.isCond = true) (opc : BrOpcode) :
    analyzeCondBr (replaceUses old new i) opc =
      ((analyzeCondBr i opc).1.map (redirect old new), (analyzeCondBr i opc).2) := by
  rw [analyzeCondBr, target_replaceUses]
  obtain ⟨a, b, t, ho, -⟩ | ⟨a, t, ho, -⟩ := i.operands_of_isCond h <;>
    simp only [analyzeCondBr, replaceUses, ho, List.map_cons, List.map_nil, replaceBlock, List.dropLast]

/-- The uses of a block by a terminator are replaced. -/
def retarget (old new : Nat) (i : BrInstr) : BrInstr :=
  if i.isUnpredicatedTerminator then replaceUses old new i else i

theorem opcode_retarget (i : BrInstr) : (retarget old new i).opcode = i.opcode := by
  rw [retarget]
  split <;> rfl

theorem isUnpredicatedTerminator_retarget (i : BrInstr) :
    (retarget old new i).isUnpredicatedTerminator = i.isUnpredicatedTerminator := by
  rw [BrInstr.isUnpredicatedTerminator, opcode_retarget, BrInstr.isUnpredicatedTerminator]

theorem retarget_of_analyzable {i : BrInstr} {opc : BrOpcode} (h : getAnalyzableBrOpc i.opcode = some opc) :
    retarget old new i = replaceUses old new i := by
  rw [retarget, if_pos (i.isUnpredicatedTerminator_of_analyzable h)]

theorem replaceUsesOfBlockWith_append {body ts : List BrInstr}
    (hbody : ∀ i ∈ body, i.isUnpredicatedTerminator = false) (hts : ∀ i ∈ ts, i.isUnpredicatedTerminator = true) :
    replaceUsesOfBlockWith old new (body ++ ts) = (body ++ ts).map (retarget old new) := by
  have hts' : ∀ i ∈ ts.reverse, i.isUnpredicatedTerminator = true := fun i hi => hts i (List.mem_reverse.mp hi)
  have htake : body.reverse.takeWhile BrInstr.isUnpredicatedTerminator = [] := by
    rw [List.takeWhile_eq_nil_iff]
    intro hpos
    rw [hbody _ (List.mem_reverse.mp (List.get_mem _ ⟨0, hpos⟩))]
    decide
  have hdrop : body.reverse.dropWhile BrInstr.isUnpredicatedTerminator = body.reverse := by
    have h := List.takeWhile_append_dropWhile (p := BrInstr.isUnpredicatedTerminator) (l := body.reverse)
    rwa [htake, List.nil_append] at h
  have hmap : ts.map (replaceUses old new) = ts.map (retarget old new) :=
    List.map_congr_left fun i hi => by rw [retarget, if_pos (hts i hi)]
  have hself : body.map (retarget old new) = body := by
    rw [List.map_congr_left (g := id) fun i hi => by rw [retarget, hbody i hi]; rfl, List.map_id]
  have hrev : (body ++ ts).reverse = ts.reverse ++ body.reverse := List.reverse_append
  have hlast : (body ++ ts).reverse.takeWhile BrInstr.isUnpredicatedTerminator = ts.reverse := by
    rw [hrev, List.takeWhile_append_of_pos hts', htake, List.append_nil]
  have hrest : (body ++ ts).reverse.dropWhile BrInstr.isUnpredicatedTerminator = body.reverse := by
    rw [hrev, List.dropWhile_append_of_pos hts', hdrop]
  calc replaceUsesOfBlockWith old new (body ++ ts)
      = (ts.reverse.map (replaceUses old new) ++ body.reverse).reverse := by rw [replaceUsesOfBlockWith, hlast, hrest]
    _ = body ++ ts.map (replaceUses old new) := by
        rw [List.reverse_append, List.reverse_reverse, List.map_reverse, List.reverse_reverse]
    _ = body.map (retarget old new) ++ ts.map (retarget old new) := by rw [hmap, hself]
    _ = (body ++ ts).map (retarget old new) := List.map_append.symm

theorem analyzeTerminators_retarget {mbb mbb' dbg dbg' rest : List BrInstr} {last : BrInstr} {opc : BrOpcode}
    (h : getAnalyzableBrOpc last.opcode = some opc) :
    (analyzeTerminators mbb dbg last opc rest false).Redirected old new
      (analyzeTerminators mbb' dbg' (retarget old new last) opc (rest.map (retarget old new)) false) := by
  obtain ⟨rfl, hkind⟩ := getAnalyzableBrOpc_eq h
  rw [retarget_of_analyzable h]
  have hlast : (replaceUses old new last).target = last.target.map (redirect old new) := target_replaceUses last
  have hhead (l : List BrInstr) : (l.map (retarget old new)).head?.any BrInstr.isUnpredicatedTerminator =
      l.head?.any BrInstr.isUnpredicatedTerminator := by
    cases l with
    | nil => rfl
    | cons i is => exact isUnpredicatedTerminator_retarget i
  -- One terminator: a jump, or a conditional branch.
  have hone : Analysis.Redirected old new
      (if last.opcode = .jmp then { tbb := last.target, block := mbb }
        else { tbb := (analyzeCondBr last last.opcode).1, cond := (analyzeCondBr last last.opcode).2, block := mbb })
      (if last.opcode = .jmp then { tbb := (replaceUses old new last).target, block := mbb' }
        else
          { tbb := (analyzeCondBr (replaceUses old new last) last.opcode).1
            cond := (analyzeCondBr (replaceUses old new last) last.opcode).2, block := mbb' }) := by
    split
    · exact ⟨rfl, hlast, rfl, rfl⟩
    · next hj =>
      rw [analyzeCondBr_replaceUses (hkind.resolve_left hj)]
      exact ⟨rfl, rfl, rfl, rfl⟩
  cases rest with
  | nil => exact hone
  | cons u rest =>
    cases hu : getAnalyzableBrOpc u.opcode with
    | none =>
      simp only [analyzeTerminators, List.map_cons, List.head?_cons, Option.any_some, Option.bind_some, hu,
        isUnpredicatedTerminator_retarget, opcode_retarget, Option.isNone_none, Bool.and_true, Option.map_none]
      cases u.isUnpredicatedTerminator with
      | true => exact ⟨rfl, rfl, rfl, rfl⟩
      | false => exact hone
    | some uOpc =>
      obtain ⟨rfl, hukind⟩ := getAnalyzableBrOpc_eq hu
      simp only [analyzeTerminators, List.map_cons, List.head?_cons, Option.any_some, Option.bind_some,
        List.tail_cons, isUnpredicatedTerminator_retarget, opcode_retarget, hhead, hu, Option.isNone_some,
        Bool.and_false, Bool.false_eq_true, if_false, Option.map_some]
      cases rest.head?.any BrInstr.isUnpredicatedTerminator with
      | true => exact ⟨rfl, rfl, rfl, rfl⟩
      | false =>
        by_cases hj : u.opcode = .jmp
        · simp only [hj, Bool.false_eq_true, if_false, if_true]
          exact ⟨rfl, rfl, rfl, rfl⟩
        · rw [retarget_of_analyzable hu, analyzeCondBr_replaceUses (hukind.resolve_left hj)]
          simp only [hj, Bool.false_eq_true, if_false]
          by_cases hl : last.opcode = .jmp
          · simp only [hl, ne_eq, not_true_eq_false, if_false]
            exact ⟨rfl, rfl, hlast, rfl⟩
          · simp only [hl, ne_eq, not_false_eq_true, if_true]
            exact ⟨rfl, rfl, rfl, rfl⟩

/-- A block is analysed as before, with other targets. -/
theorem analyzeBranch_retarget (mbb : List BrInstr) :
    (analyzeBranch mbb false).Redirected old new (analyzeBranch (mbb.map (retarget old new)) false) := by
  have hdbg : BrInstr.isDebugValue ∘ retarget old new = BrInstr.isDebugValue := by
    funext i
    rw [Function.comp_apply, BrInstr.isDebugValue, opcode_retarget, BrInstr.isDebugValue]
  rw [analyzeBranch, analyzeBranch, ← List.map_reverse, List.dropWhile_map, hdbg]
  cases mbb.reverse.dropWhile BrInstr.isDebugValue with
  | nil => exact ⟨rfl, rfl, rfl, rfl⟩
  | cons last rest =>
    simp only [List.map_cons, isUnpredicatedTerminator_retarget, opcode_retarget]
    split
    · exact ⟨rfl, rfl, rfl, rfl⟩
    · cases h : getAnalyzableBrOpc last.opcode with
      | none => exact ⟨rfl, rfl, rfl, rfl⟩
      | some opc => exact analyzeTerminators_retarget h

end Replace

/-! ## The first block of the edge -/

section Split

variable {old new : Nat} {layout : Option Nat} {a a' : Analysis} {b : MBlock}

/-- The terminators of a block are the last instructions. -/
def BranchesLast (mbb : List BrInstr) : Prop :=
  ∃ body ts, mbb = body ++ ts ∧ (∀ i ∈ body, BrInstr.isUnpredicatedTerminator i = false) ∧
    ∀ i ∈ ts, BrInstr.isUnpredicatedTerminator i = true

theorem BranchesLast.retarget {mbb : List BrInstr} (h : BranchesLast mbb) (old new : Nat) :
    replaceUsesOfBlockWith old new mbb = mbb.map (Rigel.retarget old new) ∧
      TerminatorsLast (mbb.map (Rigel.retarget old new)) := by
  obtain ⟨body, ts, rfl, hbody, hts⟩ := h
  refine ⟨replaceUsesOfBlockWith_append hbody hts, body.map (Rigel.retarget old new),
    ts.map (Rigel.retarget old new), [], by rw [List.append_nil, List.map_append], fun i hi => ?_, fun i hi => ?_,
    nofun⟩
  · obtain ⟨j, hj, rfl⟩ := List.mem_map.mp hi
    rw [isUnpredicatedTerminator_retarget, hbody j hj]
  · obtain ⟨j, hj, rfl⟩ := List.mem_map.mp hi
    rw [isUnpredicatedTerminator_retarget, hts j hj]

theorem effects_retarget (E : Nat → Regs → Regs) (mbb : List BrInstr) (regs : Regs) :
    effects E (mbb.map (retarget old new)) regs = effects E mbb regs := by
  have heff (i : BrInstr) : (retarget old new i).effect E = i.effect E := by
    funext regs
    rw [BrInstr.effect, opcode_retarget, BrInstr.effect]
  induction mbb generalizing regs with
  | nil => rfl
  | cons i is ih =>
    calc effects E ((i :: is).map (retarget old new)) regs
        = effects E (is.map (retarget old new)) ((retarget old new i).effect E regs) := rfl
      _ = effects E (is.map (retarget old new)) (i.effect E regs) := by rw [heff]
      _ = effects E is (i.effect E regs) := ih _
      _ = effects E (i :: is) regs := rfl

theorem Analysis.Redirected.targets (h : a.Redirected old new a') :
    a'.targets (layout.map (redirect old new)) = (a.targets layout).map (redirect old new) := by
  rw [Analysis.targets, Analysis.targets, h.tbb, h.fbb, h.cond]
  cases a.tbb with
  | none => cases layout <;> rfl
  | some tbb =>
    simp only [Option.map_some, List.map_cons]
    split
    · rfl
    · cases a.fbb <;> cases layout <;> rfl

/-- The redirected analysis says where control goes now. -/
theorem Analysis.Redirected.goes (h : a.Redirected old new a') (regs : Regs) :
    a'.goes (layout.map (redirect old new)) regs = (a.goes layout regs).redirect old new := by
  rw [Analysis.goes, Analysis.goes, h.tbb, h.fbb, h.cond]
  cases a.tbb with
  | none => cases layout <;> rfl
  | some tbb =>
    simp only [Option.map_some, describes]
    split
    · rfl
    · cases a.fbb <;> cases layout <;> rfl

/-- The new block takes the place of the old one among the successors. -/
theorem Analysis.Redirected.fits (h : a.Redirected old new a') {successors : List Nat}
    (hfits : a.Fits layout successors) (hn : successors.Nodup) (hold : old ∈ successors) :
    a'.Fits (layout.map (redirect old new)) (successors.erase old ++ [new]) where
  cond := by
    rw [h.cond, h.fbb]
    exact hfits.cond.imp_right fun hc => ⟨hc.1, by rw [hc.2]; rfl⟩
  length := by
    have hpos := List.length_pos_of_mem hold
    rw [h.cond, hfits.length, List.length_append, List.length_erase_of_mem hold, List.length_singleton]
    omega
  targets s := by
    rw [h.targets, List.mem_append, List.mem_singleton, hn.mem_erase_iff, List.mem_map]
    constructor
    · rintro (⟨hne, hs⟩ | rfl)
      · exact ⟨s, (hfits.targets s).mp hs, if_neg hne⟩
      · exact ⟨old, (hfits.targets old).mp hold, if_pos rfl⟩
    · rintro ⟨t, ht, rfl⟩
      by_cases hto : t = old
      · exact .inr (if_pos hto)
      · rw [redirect, if_neg hto]
        exact .inl ⟨hto, (hfits.targets t).mpr ht⟩
  falls hc := by
    have hfalls := hfits.falls (h.cond ▸ hc)
    rw [h.fbb, Ne, Option.or_eq_none_iff, Option.map_eq_none_iff, Option.map_eq_none_iff, ← Option.or_eq_none_iff]
    exact hfalls

/-- The first block of the edge goes to the new block where it went to the second one. -/
theorem MBlock.Analyzed.split (h : b.Analyzed layout) (hlast : BranchesLast b.instrs) (hn : b.successors.Nodup)
    (hold : old ∈ b.successors) (new : Nat) :
    ∃ instrs,
      updateTerminator (some new)
        { b with instrs := replaceUsesOfBlockWith old new b.instrs, successors := b.successors.erase old ++ [new] } =
          some instrs ∧
      MBlock.Analyzed (some new) { b with instrs, successors := b.successors.erase old ++ [new] } ∧
      (∀ E regs, successor E (some new) instrs regs = (successor E layout b.instrs regs).redirect old new) ∧
      ∀ E regs, effects E instrs regs = effects E b.instrs regs := by
  have ha : (analyzeBranch b.instrs false).Redirected old new
      (analyzeBranch (b.instrs.map (retarget old new)) false) := analyzeBranch_retarget b.instrs
  obtain ⟨huses, hterm⟩ := hlast.retarget old new
  rw [huses]
  have h' : MBlock.Analyzed (layout.map (redirect old new))
      { b with instrs := b.instrs.map (retarget old new), successors := b.successors.erase old ++ [new] } :=
    ⟨hterm, ha.failed.trans h.failed, ha.fits h.fits hn hold⟩
  obtain ⟨instrs, hupd, hr⟩ := updateTerminator_spec h' (some new)
  refine ⟨instrs, hupd, hr.analyzed, fun E regs => ?_,
    fun E regs => (hr.effects_eq E regs).trans (effects_retarget ..)⟩
  have hgoes := (h'.analysis E).successor_eq (layout.map (redirect old new)) regs
  rw [effects_retarget] at hgoes
  exact (hr.successor_eq E regs).trans (hgoes.trans ((ha.goes _).trans
    (congrArg (Successor.redirect old new) ((h.analysis E).successor_eq layout regs).symm)))

end Split

section Function

variable {mf : MFunc} {this succ nmbb : Nat} {b : MBlock} {E : Nat → Regs → Regs}

/-- The number of a new block is that of none, and nothing refers to it. -/
def MFunc.Fresh (mf : MFunc) (n : Nat) : Prop :=
  ∀ b ∈ mf, b.number ≠ n ∧ (∀ i ∈ b.instrs, BrOperand.mbb n ∉ i.operands) ∧
    ∀ phi ∈ b.phis, ∀ v ∈ phi.incoming, v.2 ≠ n

/-- An edge that can be split: the successors of its first block are distinct, and exactly those that it goes to. -/
structure SplitEdge (mf : MFunc) (this succ nmbb : Nat) (b : MBlock) : Prop where
  block : mf.getBlock? this = some b
  analyzed : b.Analyzed (mf.layoutSuccessor this)
  branchesLast : BranchesLast b.instrs
  nodup : b.successors.Nodup
  mem : succ ∈ b.successors
  fresh : mf.Fresh nmbb

/-- Where the first function has come from `this` to `succ`, the second has come from the new block. -/
def EdgeConfig.via (this succ nmbb : Nat) : EdgeConfig → EdgeConfig
  | .running pred n regs => .running (if n = succ ∧ pred = some this then some nmbb else pred) n regs
  | c => c

/-- The new block has not been reached. -/
def EdgeConfig.Avoids (nmbb : Nat) : EdgeConfig → Prop
  | .running pred n _ => n ≠ nmbb ∧ pred ≠ some nmbb
  | .left _ _ => True

/-- A block that an instruction transfers control to is an operand of it. -/
theorem BrInstr.mbb_mem_of_transfer {i : BrInstr} {regs : Regs} {t : Nat} (h : i.transfer regs = some (.block t)) :
    BrOperand.mbb t ∈ i.operands := by
  have htarget (h : i.target.map Successor.block = some (.block t)) : BrOperand.mbb t ∈ i.operands := by
    obtain ⟨u, hu, he⟩ := Option.map_eq_some_iff.mp h
    cases he
    obtain ⟨op, hop, hmbb⟩ := Option.bind_eq_some_iff.mp hu
    cases op <;> cases hmbb
    exact List.mem_of_getLast? hop
  unfold BrInstr.transfer at h
  split at h
  · exact htarget h
  · obtain ⟨a, -, ha⟩ := Option.map_eq_some_iff.mp h
    cases ha
  · cases h
  · cases h
  · cases h
  · split at h
    · exact htarget h
    · cases h

theorem successor_ne_fresh {layout : Option Nat} {is : List BrInstr} (h : ∀ i ∈ is, BrOperand.mbb nmbb ∉ i.operands)
    (hl : layout ≠ some nmbb) (regs : Regs) : successor E layout is regs ≠ .block nmbb := by
  induction is generalizing regs with
  | nil =>
    cases layout with
    | none => nofun
    | some l => exact fun he => hl (congrArg some (Successor.block.inj he))
  | cons i is ih =>
    rw [successor]
    cases ht : i.transfer regs with
    | none => exact ih (fun j hj => h j (.tail _ hj)) _
    | some s =>
      rintro rfl
      exact h i (.head _) (i.mbb_mem_of_transfer ht)

theorem avoids_step (h : mf.Fresh nmbb) {c : EdgeConfig} (hc : c.Avoids nmbb) : (mf.step E c).Avoids nmbb := by
  cases c with
  | left s regs => exact hc
  | running pred n regs =>
    rw [MFunc.step]
    cases hn : mf.getBlock? n with
    | none => exact hc
    | some x =>
      have hx := h x (Blocks.mem_of_block? hn).1
      have hl : mf.layoutSuccessor n ≠ some nmbb := fun he => by
        obtain ⟨y, hy, hyn⟩ := List.mem_map.mp (Blocks.mem_of_follower he)
        exact (h y hy).1 hyn
      have hs := successor_ne_fresh (E := E) hx.2.1 hl (x.enter pred regs)
      simp only [Option.elim_some]
      cases hgoes : successor E (mf.layoutSuccessor n) x.instrs (x.enter pred regs) with
      | block t => exact ⟨fun he => hs (hgoes.trans (congrArg _ he)), fun he => hc.1 (Option.some.inj he)⟩
      | indirect a => trivial
      | ret => trivial
      | fallsOff => trivial

end Function

section Result

variable {mf : MFunc} {this succ nmbb : Nat} {b : MBlock} {E : Nat → Regs → Regs} {instrs jump : List BrInstr}
  {successors : List Nat}

/-- A block of the first function in the second. -/
def keepBlock (this succ nmbb : Nat) (instrs : List BrInstr) (successors : List Nat) (c : MBlock) : MBlock :=
  let phis := if c.number = succ then c.phis.map (MPhi.setMBB this nmbb) else c.phis
  if c.number = this then { c with phis, instrs, successors } else { c with phis }

theorem keepBlock_number (c : MBlock) : (keepBlock this succ nmbb instrs successors c).number = c.number := by
  rw [keepBlock]
  split <;> rfl

theorem splitBlock_eq (c : MBlock) : splitBlock this succ nmbb instrs jump successors c =
    keepBlock this succ nmbb instrs successors c ::
      if c.number = this then [{ number := nmbb, instrs := jump, successors := [succ] }] else [] := by
  rw [splitBlock, keepBlock]
  split <;> rfl

/-- The new block is behind the first block of the edge. -/
theorem flatMap_splitBlock : mf.flatMap (splitBlock this succ nmbb instrs jump successors) =
    Blocks.grow MBlock.number this (keepBlock this succ nmbb instrs successors)
      [{ number := nmbb, instrs := jump, successors := [succ] }] mf :=
  List.flatMap_congr fun c _ => splitBlock_eq c

theorem numbers_result :
    MFunc.numbers (mf.flatMap (splitBlock this succ nmbb instrs jump successors)) =
      Blocks.insertBehind this [nmbb] mf.numbers := by
  rw [MFunc.numbers, flatMap_splitBlock, Blocks.labels_grow keepBlock_number]
  rfl

theorem getBlock?_result {n : Nat} (hn : n ≠ nmbb) :
    MFunc.getBlock? (mf.flatMap (splitBlock this succ nmbb instrs jump successors)) n =
      (mf.getBlock? n).map (keepBlock this succ nmbb instrs successors) := by
  rw [MFunc.getBlock?, flatMap_splitBlock, Blocks.block?_grow keepBlock_number, MFunc.getBlock?]
  intro c hc
  rw [List.mem_singleton.mp hc]
  exact hn.symm

theorem getBlock?_new (h : this ∈ mf.numbers) (hn : nmbb ∉ mf.numbers) :
    MFunc.getBlock? (mf.flatMap (splitBlock this succ nmbb instrs jump successors)) nmbb =
      some { number := nmbb, instrs := jump, successors := [succ] } := by
  rw [MFunc.getBlock?, flatMap_splitBlock]
  exact Blocks.block?_grow_new keepBlock_number h hn (Blocks.block?_cons_self rfl _)

/-- The PHIs take the same values from the new block as from the old one. -/
theorem enter_keepBlock (h : mf.Fresh nmbb) {c : MBlock} (hc : c ∈ mf) {pred : Option Nat} (hp : pred ≠ some nmbb)
    (regs : Regs) :
    (keepBlock this succ nmbb instrs successors c).enter
        (if c.number = succ ∧ pred = some this then some nmbb else pred) regs = c.enter pred regs := by
  have hphis : (keepBlock this succ nmbb instrs successors c).phis =
      if c.number = succ then c.phis.map (MPhi.setMBB this nmbb) else c.phis := by
    rw [keepBlock]
    split <;> rfl
  have hpred : (if pred = some this then some nmbb else pred) = pred.map (Blocks.rename this nmbb) := by
    cases pred with
    | none => rfl
    | some p => simp only [Option.some_inj, Option.map_some, Blocks.rename, apply_ite some]
  funext r
  rw [MBlock.enter, MBlock.enter, hphis]
  by_cases hs : c.number = succ
  · have hdest : ((fun phi : MPhi => phi.dest == r) ∘ MPhi.setMBB this nmbb) = fun phi => phi.dest == r := rfl
    simp only [hs, if_true, true_and, List.find?_map, hdest]
    cases hphi : c.phis.find? fun phi => phi.dest == r with
    | none => rfl
    | some phi =>
      have hvs := (h c hc).2.2 phi (List.mem_of_find?_eq_some hphi)
      have hp' : ∀ p ∈ pred, p ≠ nmbb := fun p hmem he => hp (he ▸ hmem)
      simp only [Option.map_some, MPhi.setMBB, hpred, Blocks.incoming?_rename hvs hp']
  · simp only [hs, if_false, false_and]

/-- The new block only goes on to the second block of the edge. -/
theorem jump_spec {layout : Option Nat} (nmbb : Nat)
    (h : (if layout = some succ then some [] else (insertBranch [] (some succ) none []).map Prod.fst) = some jump) :
    (∀ E regs, successor E layout jump regs = .block succ ∧ effects E jump regs = regs) ∧
      MBlock.Analyzed layout { number := nmbb, instrs := jump, successors := [succ] } := by
  split at h
  · next hl =>
    cases h
    subst hl
    exact ⟨fun E regs => ⟨rfl, rfl⟩,
      ⟨[], [], [], rfl, nofun, nofun, nofun⟩, rfl, .inr ⟨rfl, rfl⟩, rfl, fun s => Iff.rfl, fun hn => absurd rfl hn⟩
  · cases h
    refine ⟨fun E regs => ⟨rfl, rfl⟩, ⟨[], [jmpTo succ], [], rfl, nofun, fun i hi => ?_, nofun⟩, rfl, .inr ⟨rfl, rfl⟩,
      rfl, fun s => Iff.rfl, fun hn => absurd rfl hn⟩
    rw [List.mem_singleton.mp hi]
    rfl

end Result

/-! ## Executions of both functions -/

section Simulation

variable {mf : MFunc} {this succ nmbb : Nat} {b : MBlock} {instrs jump : List BrInstr} {successors : List Nat}

theorem keepBlock_instrs (c : MBlock) : (keepBlock this succ nmbb instrs successors c).instrs =
    if c.number = this then instrs else c.instrs := by
  rw [keepBlock]
  split <;> rfl

theorem SplitEdge.mem_numbers (h : SplitEdge mf this succ nmbb b) : this ∈ mf.numbers := by
  obtain ⟨hmem, hnum⟩ := Blocks.mem_of_block? h.block
  exact hnum ▸ List.mem_map_of_mem hmem

theorem SplitEdge.notMem_numbers (h : SplitEdge mf this succ nmbb b) : nmbb ∉ mf.numbers := by
  intro hmem
  obtain ⟨c, hc, hnum⟩ := List.mem_map.mp hmem
  exact (h.fresh c hc).1 hnum

theorem SplitEdge.this_ne (h : SplitEdge mf this succ nmbb b) : this ≠ nmbb := fun he =>
  h.notMem_numbers (he ▸ h.mem_numbers)

theorem SplitEdge.layoutSuccessor_this (h : SplitEdge mf this succ nmbb b) :
    MFunc.layoutSuccessor (mf.flatMap (splitBlock this succ nmbb instrs jump successors)) this = some nmbb := by
  rw [MFunc.layoutSuccessor, numbers_result, Blocks.follower_insertBehind_this h.mem_numbers]
  rfl

theorem SplitEdge.layoutSuccessor_new (h : SplitEdge mf this succ nmbb b) :
    MFunc.layoutSuccessor (mf.flatMap (splitBlock this succ nmbb instrs jump successors)) nmbb =
      mf.layoutSuccessor this := by
  rw [MFunc.layoutSuccessor, numbers_result]
  exact Blocks.follower_insertBehind_new h.mem_numbers [] List.not_mem_nil h.notMem_numbers

/-- The new block only takes control from the first block of the edge to the second. -/
theorem SplitEdge.step_new (h : SplitEdge mf this succ nmbb b) {E : Nat → Regs → Regs}
    (hjump : ∀ E regs, successor E (mf.layoutSuccessor this) jump regs = .block succ ∧ effects E jump regs = regs)
    (pred : Option Nat) (regs : Regs) :
    MFunc.step E (mf.flatMap (splitBlock this succ nmbb instrs jump successors)) (.running pred nmbb regs) =
      .running (some nmbb) succ regs := by
  rw [MFunc.step, getBlock?_new h.mem_numbers h.notMem_numbers, Option.elim_some, h.layoutSuccessor_new,
    (hjump E _).1, (hjump E _).2]
  rfl

theorem EdgeConfig.via_after {n : Nat} (hn : n ≠ this) (regs : Regs) (s : Successor) :
    EdgeConfig.via this succ nmbb (.after n regs s) = .after n regs s := by
  cases s with
  | block t => rw [EdgeConfig.after, EdgeConfig.via, if_neg fun hts => hn (Option.some.inj hts.2)]
  | indirect a => rfl
  | ret => rfl
  | fallsOff => rfl

theorem EdgeConfig.via_after_redirect {s : Successor} (hs : s ≠ .block succ) (regs : Regs) :
    EdgeConfig.via this succ nmbb (.after this regs s) = .after this regs (s.redirect succ nmbb) := by
  cases s with
  | block t =>
    have ht : t ≠ succ := fun he => hs (congrArg _ he)
    rw [Successor.redirect, redirect, if_neg ht, EdgeConfig.after, EdgeConfig.via, if_neg fun hts => ht hts.1]
  | indirect a => rfl
  | ret => rfl
  | fallsOff => rfl

/-- The second function executes a block of the first with the same registers. -/
theorem SplitEdge.step_kept (h : SplitEdge mf this succ nmbb b) {E : Nat → Regs → Regs} {pred : Option Nat} {n : Nat}
    {x : MBlock} (hx : mf.getBlock? n = some x) (hn : n ≠ nmbb) (hp : pred ≠ some nmbb) (regs : Regs) :
    MFunc.step E (mf.flatMap (splitBlock this succ nmbb instrs jump successors))
        (EdgeConfig.via this succ nmbb (.running pred n regs)) =
      .after n (effects E (if n = this then instrs else x.instrs) (x.enter pred regs))
        (successor E (MFunc.layoutSuccessor (mf.flatMap (splitBlock this succ nmbb instrs jump successors)) n)
          (if n = this then instrs else x.instrs) (x.enter pred regs)) := by
  obtain ⟨hmem, hnum⟩ := Blocks.mem_of_block? hx
  have henter : (keepBlock this succ nmbb instrs successors x).enter
      (if x.number = succ ∧ pred = some this then some nmbb else pred) regs = x.enter pred regs :=
    enter_keepBlock h.fresh hmem hp regs
  rw [hnum] at henter
  rw [EdgeConfig.via, MFunc.step, getBlock?_result hn, hx, Option.map_some, Option.elim_some, henter,
    keepBlock_instrs, hnum]

/-- The first block of the edge goes to the new block instead of the second one. -/
theorem SplitEdge.step_this (h : SplitEdge mf this succ nmbb b) {E : Nat → Regs → Regs}
    (hinstrs : ∀ E regs, successor E (some nmbb) instrs regs =
      (successor E (mf.layoutSuccessor this) b.instrs regs).redirect succ nmbb)
    (heffects : ∀ E regs, effects E instrs regs = effects E b.instrs regs)
    {pred : Option Nat} (hp : pred ≠ some nmbb) (regs : Regs) :
    MFunc.step E (mf.flatMap (splitBlock this succ nmbb instrs jump successors))
        (EdgeConfig.via this succ nmbb (.running pred this regs)) =
      .after this (effects E b.instrs (b.enter pred regs))
        ((successor E (mf.layoutSuccessor this) b.instrs (b.enter pred regs)).redirect succ nmbb) := by
  rw [h.step_kept h.block h.this_ne hp, if_pos rfl, h.layoutSuccessor_this, hinstrs, heffects]

/-- The other blocks do what they did. -/
theorem SplitEdge.step_other (h : SplitEdge mf this succ nmbb b) {E : Nat → Regs → Regs} {pred : Option Nat} {n : Nat}
    {x : MBlock} (hx : mf.getBlock? n = some x) (hthis : n ≠ this) (hn : n ≠ nmbb) (hp : pred ≠ some nmbb)
    (regs : Regs) :
    MFunc.step E (mf.flatMap (splitBlock this succ nmbb instrs jump successors))
        (EdgeConfig.via this succ nmbb (.running pred n regs)) =
      .after n (effects E x.instrs (x.enter pred regs))
        (successor E (mf.layoutSuccessor n) x.instrs (x.enter pred regs)) := by
  have hlayout : MFunc.layoutSuccessor (mf.flatMap (splitBlock this succ nmbb instrs jump successors)) n =
      mf.layoutSuccessor n := by
    have hnew : n ∉ [nmbb] := fun h => hn (List.mem_singleton.mp h)
    rw [MFunc.layoutSuccessor, numbers_result, Blocks.follower_insertBehind_of_ne hthis hnew,
      MFunc.layoutSuccessor]
  rw [h.step_kept hx hn hp, if_neg hthis, hlayout]

/-- A step of the first function is one of the second, or two over the edge. -/
theorem SplitEdge.simulates (h : SplitEdge mf this succ nmbb b) {E : Nat → Regs → Regs}
    (hinstrs : ∀ E regs, successor E (some nmbb) instrs regs =
      (successor E (mf.layoutSuccessor this) b.instrs regs).redirect succ nmbb)
    (heffects : ∀ E regs, effects E instrs regs = effects E b.instrs regs)
    (hjump : ∀ E regs, successor E (mf.layoutSuccessor this) jump regs = .block succ ∧ effects E jump regs = regs) :
    Simulation.Simulates (mf.step E)
      (MFunc.step E (mf.flatMap (splitBlock this succ nmbb instrs jump successors)))
      (EdgeConfig.via this succ nmbb) (EdgeConfig.Avoids nmbb) 1 where
  inv _ := avoids_step h.fresh
  steps c hc := by
    cases c with
    | left s regs => exact ⟨0, Nat.zero_le 1, rfl⟩
    | running pred n regs =>
      obtain ⟨hn, hp⟩ := hc
      rw [MFunc.step]
      cases hx : mf.getBlock? n with
      | none =>
        refine ⟨0, Nat.zero_le 1, ?_⟩
        rw [Function.iterate_one, EdgeConfig.via, MFunc.step, getBlock?_result hn, hx]
        rfl
      | some x =>
        rw [Option.elim_some]
        by_cases hthis : n = this
        · subst hthis
          obtain rfl : x = b := Option.some.inj (hx.symm.trans h.block)
          by_cases hs : successor E (mf.layoutSuccessor n) x.instrs (x.enter pred regs) = .block succ
          · -- Over the edge, the second function goes through the new block.
            refine ⟨1, Nat.le_refl 1, ?_⟩
            rw [Function.iterate_succ_apply, h.step_this hinstrs heffects hp, hs, Successor.redirect, redirect,
              if_pos rfl]
            refine (h.step_new hjump _ _).trans ?_
            rw [EdgeConfig.after, EdgeConfig.via, if_pos ⟨rfl, rfl⟩]
          · exact ⟨0, Nat.zero_le 1,
              (h.step_this hinstrs heffects hp regs).trans (EdgeConfig.via_after_redirect hs _).symm⟩
        · exact ⟨0, Nat.zero_le 1,
            (h.step_other hx hthis hn hp regs).trans (EdgeConfig.via_after hthis _ _).symm⟩

/-- The functions have the same executions from a block: every execution of the first, at every length, is one of the
second and the other way round, up to one more block of the second. -/
structure SameRuns (E : Nat → Regs → Regs) (mf mf' : MFunc) (this succ nmbb : Nat) (c : EdgeConfig) : Prop where
  forward : ∀ k, ∃ m, k ≤ m ∧ (mf'.step E)^[m] c = ((mf.step E)^[k] c).via this succ nmbb
  backward : ∀ m, ∃ k j, j ≤ 1 ∧ (mf'.step E)^[m + j] c = ((mf.step E)^[k] c).via this succ nmbb

/-- A block of a function goes to exactly its successors, as they are listed. -/
def MFunc.GoesTo (mf : MFunc) (n : Nat) (successors : List Nat) : Prop :=
  ∃ c, mf.getBlock? n = some c ∧ c.successors = successors ∧ c.Analyzed (mf.layoutSuccessor n)

/-- **Critical edges.** An edge is split without a failing assertion. The first block has the new one in the place of
the second among its successors, the new one has the second, and both lists are exact. From every block the function
does what it did before, whatever the instructions that are no branches do. -/
theorem splitCriticalEdge_correct (h : SplitEdge mf this succ nmbb b) :
    ∃ mf', splitCriticalEdge mf this succ nmbb = some mf' ∧
      mf'.GoesTo this (b.successors.erase succ ++ [nmbb]) ∧ mf'.GoesTo nmbb [succ] ∧
      ∀ E n regs, n ≠ nmbb → SameRuns E mf mf' this succ nmbb (.running none n regs) := by
  obtain ⟨instrs, hupdate, hanalyzed, hinstrs, heffects⟩ :=
    h.analyzed.split h.branchesLast h.nodup h.mem nmbb
  have hjump : ∃ jump, (if mf.layoutSuccessor this = some succ then some []
      else (insertBranch [] (some succ) none []).map Prod.fst) = some jump := by
    split <;> exact ⟨_, rfl⟩
  obtain ⟨jump, hjump⟩ := hjump
  obtain ⟨hgoes, hnew⟩ := jump_spec nmbb hjump
  refine ⟨mf.flatMap (splitBlock this succ nmbb instrs jump (b.successors.erase succ ++ [nmbb])), ?_,
    ⟨keepBlock this succ nmbb instrs (b.successors.erase succ ++ [nmbb]) b, ?_, ?_, ?_⟩,
    ⟨_, getBlock?_new h.mem_numbers h.notMem_numbers, rfl, ?_⟩, fun E n regs hn => ?_⟩
  · rw [splitCriticalEdge, h.block, Option.bind_some, if_neg (by rw [h.analyzed.failed]; decide),
      if_neg (not_not.mpr h.mem)]
    simp only [hupdate, Option.bind_some, hjump, Option.map_some]
  · rw [getBlock?_result h.this_ne, h.block]
    rfl
  · rw [keepBlock, if_pos (Blocks.mem_of_block? h.block).2]
  · rw [h.layoutSuccessor_this, keepBlock, if_pos (Blocks.mem_of_block? h.block).2]
    exact ⟨hanalyzed.terminators, hanalyzed.failed, hanalyzed.fits⟩
  · rw [h.layoutSuccessor_new]
    exact hnew
  · have hsim : Simulation.Simulates (mf.step E)
        (MFunc.step E (mf.flatMap (splitBlock this succ nmbb instrs jump (b.successors.erase succ ++ [nmbb]))))
        (EdgeConfig.via this succ nmbb) (EdgeConfig.Avoids nmbb) 1 := h.simulates hinstrs heffects hgoes
    have hstart : (EdgeConfig.running none n regs).Avoids nmbb := ⟨hn, nofun⟩
    have hvia : EdgeConfig.via this succ nmbb (.running none n regs) = .running none n regs := by
      rw [EdgeConfig.via, if_neg fun hc => nomatch hc.2]
    exact
      { forward := by
          have hf := hsim.forward hstart
          rwa [hvia] at hf
        backward := by
          have hb := hsim.backward hstart
          rwa [hvia] at hb }

/-- A branch over a block, both of which go on to a PHI. -/
def branchOverBlock : MFunc :=
  [{ number := 0, instrs := [⟨.other 0, [], rfl⟩, ⟨.bgt, [.reg 3, .mbb 2], rfl⟩], successors := [2, 1] },
    { number := 1, instrs := [⟨.other 1, [], rfl⟩], successors := [2] },
    { number := 2, phis := [⟨5, [(6, 0), (7, 1)]⟩], instrs := [⟨.ret, [], rfl⟩], successors := [] }]

theorem splitEdge_branchOverBlock : SplitEdge branchOverBlock 0 2 3
    { number := 0, instrs := [⟨.other 0, [], rfl⟩, ⟨.bgt, [.reg 3, .mbb 2], rfl⟩], successors := [2, 1] } where
  block := rfl
  analyzed := ⟨⟨[⟨.other 0, [], rfl⟩], [⟨.bgt, [.reg 3, .mbb 2], rfl⟩], [], rfl, by decide, by decide, nofun⟩, rfl,
    .inl (.one rfl 3), rfl, fun _ => Iff.rfl, nofun⟩
  branchesLast := ⟨[⟨.other 0, [], rfl⟩], [⟨.bgt, [.reg 3, .mbb 2], rfl⟩], rfl, by decide, by decide⟩
  nodup := by decide
  mem := by decide
  fresh := by unfold MFunc.Fresh; decide

theorem splitCriticalEdge_correct_branchOverBlock :
    ∃ mf', splitCriticalEdge branchOverBlock 0 2 3 = some mf' ∧ mf'.GoesTo 0 [1, 3] ∧ mf'.GoesTo 3 [2] ∧
      ∀ E n regs, n ≠ 3 → SameRuns E branchOverBlock mf' 0 2 3 (.running none n regs) :=
  splitCriticalEdge_correct splitEdge_branchOverBlock

end Simulation

end Rigel
