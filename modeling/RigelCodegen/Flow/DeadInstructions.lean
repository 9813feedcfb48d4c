import RigelCodegen.Lib.Blocks
import RigelCodegen.Lib.Liveness
import RigelCodegen.Lib.Word
import RigelCodegen.Target.Register

/-!
# Dead machine instructions

`DeadMachineInstructionElim`, which runs on machine functions in SSA form that also
use physical registers. It goes through the blocks from the last to the first, and
through each block from bottom to top. The physical registers that it starts a block
with are the reserved ones and, in a block that returns, the live-outs of the
function: so no other one may be live into a block that another block goes to
(`NoPhysLiveIn`), as none is after instruction selection.

An execution of the function is one without the instructions that are deleted
(`enters_dce`), and it returns with the same memory and the same values in reserved
and live-out registers (`returns_dce`).
-/

namespace Rigel.DeadElim

open Word32 Liveness

/-- A register operand, physical or virtual. -/
inductive MReg where
  | phys (r : Reg)
  | virt (v : Nat)
  deriving DecidableEq, Repr

def MReg.phys? : MReg → Option Reg
  | phys r => some r
  | virt _ => none

/-- What the description of an instruction says of it (`TargetInstrDesc`), and of
what it reads in memory. -/
structure InstrDesc where
  mayStore : Bool := false
  isCall : Bool := false
  hasUnmodeledSideEffects : Bool := false
  mayLoad : Bool := false
  isInvariantLoad : Bool := false
  hasVolatileMemoryRef : Bool := false
  deriving DecidableEq, Repr

/-- An instruction that is no PHI and no terminator; `swfp` and `lw` are the ones of a
stack temporary. -/
inductive MI where
  | copy (dst src : MReg)
  | swfp (src : MReg) (fi : Nat)
  | lw (dst : MReg) (fi : Nat)
  | other (n : Nat) (desc : InstrDesc) (defs uses : List MReg)
  deriving DecidableEq, Repr

namespace MI

def desc : MI → InstrDesc
  | copy .. => {}
  | swfp .. => { mayStore := true }
  | lw .. => { mayLoad := true }
  | other _ desc _ _ => desc

def defs : MI → List MReg
  | copy dst _ | lw dst _ => [dst]
  | swfp .. => []
  | other _ _ defs _ => defs

def uses : MI → List MReg
  | copy _ src | swfp src _ => [src]
  | lw .. => []
  | other _ _ _ uses => uses

end MI

/-- `isSafeToMove`, of an instruction that is no terminator and with no store seen. -/
def InstrDesc.isSafeToMove (d : InstrDesc) : Bool :=
  if d.mayStore || d.isCall then false
  else if d.hasUnmodeledSideEffects then false
  else if d.mayLoad && !d.isInvariantLoad then !d.hasVolatileMemoryRef
  else true

/-- A PHI, of virtual registers, each with the block that it comes from. -/
structure Phi where
  dst : Nat
  incoming : List (Nat × Nat)
  deriving DecidableEq, Repr

def Phi.uses (p : Phi) : List MReg := p.incoming.map fun x => .virt x.1

theorem Phi.mem_uses (p : Phi) {pred : Option Nat} {x : Nat} (h : Blocks.incoming? p.incoming pred = some x) :
    .virt x ∈ p.uses := by
  obtain ⟨v, hv, rfl⟩ := List.mem_map.mp (Blocks.mem_of_incoming? h)
  exact List.mem_map_of_mem hv

/-- How a block ends: with terminators that choose a successor, or with `RET`, which
uses `RA`. -/
inductive Term where
  | br (n : Nat) (uses : List MReg) (successors : List Nat)
  | ret
  deriving DecidableEq, Repr

namespace Term

def isReturn : Term → Bool
  | ret => true
  | br .. => false

def uses : Term → List MReg
  | br _ uses _ => uses
  | ret => [.phys .RA]

def successors : Term → List Nat
  | br _ _ successors => successors
  | ret => []

end Term

structure Block where
  label : Nat
  phis : List Phi
  instrs : List MI
  term : Term
  deriving DecidableEq, Repr

/-- The registers that are used, in a block and in blocks. -/
def Block.uses (b : Block) : List MReg := b.phis.flatMap Phi.uses ++ b.instrs.flatMap MI.uses ++ b.term.uses

def usesOf (bs : List Block) : List MReg := bs.flatMap Block.uses

/-- A function: its blocks in the order of the layout, and its live-outs. -/
structure MFunction where
  blocks : List Block
  liveOuts : List Reg
  deriving DecidableEq, Repr

def getBlock? (bs : List Block) (l : Nat) : Option Block := Blocks.block? Block.label bs l

/-! ## The pass -/

/-- `isDead`: `live` are the `LivePhysRegs`, and `used` the registers that have uses. -/
def isDead (live : List Reg) (used : List MReg) (mi : MI) : Bool :=
  mi.desc.isSafeToMove && mi.defs.all fun
    | .phys r => r ∉ live
    | .virt v => .virt v ∉ used

/-- The physical registers that an instruction defines are reset, and then the ones
that it uses are set. -/
def liveBefore (mi : MI) (live : List Reg) : List Reg :=
  live.filter (.phys · ∉ mi.defs) ++ mi.uses.filterMap MReg.phys?

/-- The scan of a block, from the bottom: `mis` are the instructions that are left,
the next one first, `kept` the ones that are kept below, and `outside` the registers
that are used elsewhere in the function. -/
def dceInstrs (outside : List MReg) : List MI → List Reg → List MI → List MI
  | [], _, kept => kept
  | mi :: mis, live, kept =>
    if isDead live (outside ++ (mi :: mis).flatMap MI.uses ++ kept.flatMap MI.uses) mi then
      dceInstrs outside mis live kept
    else dceInstrs outside mis (liveBefore mi live) (mi :: kept)

/-- The PHIs, in the same way. -/
def dcePhis (outside : List MReg) : List Phi → List Phi → List Phi
  | [], kept => kept
  | p :: ps, kept =>
    if .virt p.dst ∉ outside ++ (p :: ps).flatMap Phi.uses ++ kept.flatMap Phi.uses then dcePhis outside ps kept
    else dcePhis outside ps (p :: kept)

/-- The `LivePhysRegs` above the end of a block. -/
def exitLive (liveOuts : List Reg) (t : Term) : List Reg :=
  getReservedRegs ++ (if t.isReturn then liveOuts else []) ++ t.uses.filterMap MReg.phys?

/-- A block; `others` are the registers that are used in the other blocks. -/
def dceBlock (liveOuts : List Reg) (others : List MReg) (b : Block) : Block :=
  let instrs := dceInstrs (others ++ b.phis.flatMap Phi.uses ++ b.term.uses) b.instrs.reverse
    (exitLive liveOuts b.term) []
  let phis := dcePhis (others ++ instrs.flatMap MI.uses ++ b.term.uses) b.phis.reverse []
  { b with phis, instrs }

/-- The blocks that are left, the last one first, and the ones behind them. -/
def dceBlocks (liveOuts : List Reg) : List Block → List Block → List Block
  | [], done => done
  | b :: bs, done => dceBlocks liveOuts bs (dceBlock liveOuts (usesOf bs ++ usesOf done) b :: done)

/-- `DeadMachineInstructionElim::runOnMachineFunction`. -/
def deadMachineInstructionElim (F : MFunction) : MFunction :=
  { F with blocks := dceBlocks F.liveOuts F.blocks.reverse [] }

/-- What is not in registers: the stack temporaries, and the rest. -/
structure Memory (σ : Type) where
  slots : Nat → Word
  rest : σ

/-- What the other instructions do, and which successor terminators choose. The values
that an instruction defines are those of its definitions, in their order. -/
structure Sem (σ : Type) where
  eval : Nat → InstrDesc → List Word → Memory σ → (Nat → Word) × Memory σ
  branch : Nat → List Word → Nat
  /-- An instruction that is safe to move writes no memory. -/
  eval_safe (n : Nat) (d : InstrDesc) (ws : List Word) (m : Memory σ) : d.isSafeToMove = true → (eval n d ws m).2 = m

abbrev MState (σ : Type) := State MReg Word (Memory σ)

section Executions

variable {σ : Type} (S : Sem σ)

def set (s : MState σ) (r : MReg) (w : Word) : MState σ := { s with regs := fun x => if x = r then w else s.regs x }

@[simp] theorem set_regs_self (s : MState σ) (r : MReg) (w : Word) : (set s r w).regs r = w := if_pos rfl

theorem set_regs_ne (s : MState σ) {r x : MReg} (w : Word) (h : x ≠ r) : (set s r w).regs x = s.regs x := if_neg h

def MI.exec : MI → MState σ → MState σ
  | copy dst src, s => set s dst (s.regs src)
  | swfp src fi, s => { s with rest.slots := fun x => if x = fi then s.regs src else s.rest.slots x }
  | lw dst fi, s => set s dst (s.rest.slots fi)
  | other n desc defs uses, s =>
    let (ws, m) := S.eval n desc (uses.map s.regs) s.rest
    ⟨fun x => if x ∈ defs then ws (defs.idxOf x) else s.regs x, m⟩

/-- The values of the PHIs of a block that is entered from `pred`. -/
def phiValues (pred : Option Nat) (s : MState σ) : List Phi → Option (List (Nat × Word))
  | [] => some []
  | p :: ps =>
    (Blocks.incoming? p.incoming pred).bind fun x =>
      (phiValues pred s ps).map fun ws => (p.dst, s.regs (.virt x)) :: ws

def setAll (s : MState σ) (ws : List (Nat × Word)) : MState σ := ws.foldl (fun s w => set s (.virt w.1) w.2) s

theorem set_agree {L : Set MReg} {s t : MState σ} (r : MReg) (w : Word) (h : Agree {x | x ∈ L ∧ x ≠ r} s t) :
    Agree L (set s r w) (set t r w) := by
  refine ⟨fun x hx => ?_, h.rest⟩
  simp only [set]
  split
  · rfl
  · rename_i hne
    exact h.regs x ⟨hx, hne⟩

/-- The instructions, as what they define and use. -/
def lang : Lang MI MReg Word (Memory σ) where
  defs := MI.defs
  uses := MI.uses
  exec := MI.exec S
  exec_regs {i s r} hr := by
    cases i with
    | swfp src fi => rfl
    | copy dst src => exact if_neg fun h : r = dst => hr (List.mem_singleton.mpr h)
    | lw dst fi => exact if_neg fun h : r = dst => hr (List.mem_singleton.mpr h)
    | other n desc defs uses => exact if_neg hr
  exec_agree {i s t} h := by
    cases i with
    | swfp src fi =>
      have hsrc : s.regs src = t.regs src := h.regs src (List.mem_singleton_self src)
      exact ⟨nofun, by simp only [MI.exec, hsrc, h.rest]⟩
    | copy dst src =>
      have hsrc : s.regs src = t.regs src := h.regs src (List.mem_singleton_self src)
      simp only [MI.exec, hsrc]
      exact set_agree dst _ ⟨fun x hx => (hx.2 (List.mem_singleton.mp hx.1)).elim, h.rest⟩
    | lw dst fi =>
      simp only [MI.exec, h.rest]
      exact set_agree dst _ ⟨fun x hx => (hx.2 (List.mem_singleton.mp hx.1)).elim, h.rest⟩
    | other n desc defs uses =>
      have huses : uses.map s.regs = uses.map t.regs := List.map_congr_left h.regs
      simp only [MI.exec, huses, h.rest]
      exact ⟨fun x (hx : x ∈ defs) => (if_pos hx).trans (if_pos hx).symm, rfl⟩

/-- A block up to its terminators. -/
def Block.exec (b : Block) (pred : Option Nat) (s : MState σ) : Option (MState σ) :=
  (phiValues pred s b.phis).map fun ws => (lang S).run b.instrs (setAll s ws)

/-- Executions from `s₀`: block `l` is entered from `pred` in state `s`. -/
inductive Enters (bs : List Block) (s₀ : MState σ) : Option Nat → Nat → MState σ → Prop
  | entry {b : Block} : bs.head? = some b → Enters bs s₀ none b.label s₀
  | next {pred : Option Nat} {l l' n : Nat} {s s' : MState σ} {b : Block} {uses : List MReg} {successors : List Nat} :
    Enters bs s₀ pred l s → getBlock? bs l = some b → b.exec S pred s = some s' → b.term = .br n uses successors →
    successors[S.branch n (uses.map s'.regs)]? = some l' → Enters bs s₀ (some l) l' s'

/-- An execution from `s₀` returns from block `l` in state `s`. -/
def Returns (bs : List Block) (s₀ : MState σ) (l : Nat) (s : MState σ) : Prop :=
  ∃ pred s₁ b, Enters S bs s₀ pred l s₁ ∧ getBlock? bs l = some b ∧ b.exec S pred s₁ = some s ∧ b.term = .ret

end Executions

/-- The physical registers that are live into a block. -/
def Block.physLiveIn (liveOuts : List Reg) (b : Block) : List Reg :=
  b.instrs.foldr liveBefore (exitLive liveOuts b.term)

/-- No block that another one goes to has a physical register live into it that is not
reserved. -/
def NoPhysLiveIn (liveOuts : List Reg) (bs : List Block) : Prop :=
  ∀ b ∈ bs, ∀ l ∈ b.term.successors, ∀ b', getBlock? bs l = some b' →
    ∀ r ∈ b'.physLiveIn liveOuts, r ∈ getReservedRegs

/-! ## What is deleted -/

theorem mem_filterMap_phys? {r : Reg} {xs : List MReg} : r ∈ xs.filterMap MReg.phys? ↔ .phys r ∈ xs := by
  simp only [List.mem_filterMap]
  constructor
  · rintro ⟨x, hx, hr⟩
    cases x with
    | phys r' => exact Option.some.inj hr ▸ hx
    | virt v => cases hr
  · exact fun h => ⟨.phys r, h, rfl⟩

theorem mem_liveBefore {r : Reg} {mi : MI} {live : List Reg} :
    r ∈ liveBefore mi live ↔ .phys r ∈ mi.uses ∨ r ∈ live ∧ .phys r ∉ mi.defs := by
  rw [liveBefore, List.mem_append, mem_filterMap_phys?, List.mem_filter, decide_eq_true_eq]
  exact or_comm

theorem foldr_liveBefore_mono {mis : List MI} {live live' : List Reg} (h : ∀ r ∈ live, r ∈ live') {r : Reg}
    (hr : r ∈ mis.foldr liveBefore live) : r ∈ mis.foldr liveBefore live' := by
  induction mis generalizing r with
  | nil => exact h r hr
  | cons mi mis ih =>
    rw [List.foldr_cons, mem_liveBefore] at hr ⊢
    exact hr.imp_right (And.imp_left ih)

/-- Above instructions that only use virtual registers, only registers are live that
none of them defines. -/
theorem mem_foldr_liveBefore {mis : List MI} (huses : ∀ mi ∈ mis, ∀ r, .phys r ∉ mi.uses) {live : List Reg} {r : Reg}
    (hr : r ∈ mis.foldr liveBefore live) : r ∈ live ∧ ∀ mi ∈ mis, .phys r ∉ mi.defs := by
  induction mis with
  | nil => exact ⟨hr, nofun⟩
  | cons mi mis ih =>
    rw [List.foldr_cons, mem_liveBefore] at hr
    rcases hr with hr | ⟨hr, hd⟩
    · exact (huses mi (.head _) r hr).elim
    · have ⟨hlive, hdefs⟩ := ih (fun i hi => huses i (.tail _ hi)) hr
      exact ⟨hlive, List.forall_mem_cons.mpr ⟨hd, hdefs⟩⟩

/-- The registers that make up a set, from a list of physical ones and one for the
virtual ones. -/
def regSet (live : List Reg) (used : List MReg) : Set MReg
  | .phys r => r ∈ live
  | .virt v => .virt v ∈ used

theorem dceInstrs_uses {x : MReg} {outside : List MReg} {mis kept : List MI} {live : List Reg}
    (h : x ∈ (dceInstrs outside mis live kept).flatMap MI.uses) :
    x ∈ mis.flatMap MI.uses ∨ x ∈ kept.flatMap MI.uses := by
  induction mis generalizing live kept with
  | nil => exact .inr h
  | cons mi mis ih =>
    rw [dceInstrs] at h
    rw [List.flatMap_cons, List.mem_append]
    split at h
    · exact (ih h).imp_left .inr
    · rcases ih h with h | h
      · exact .inl (.inr h)
      · rw [List.flatMap_cons, List.mem_append] at h
        exact h.elim (fun h => .inl (.inl h)) .inr

theorem dcePhis_uses {x : MReg} {outside : List MReg} {ps kept : List Phi}
    (h : x ∈ (dcePhis outside ps kept).flatMap Phi.uses) :
    x ∈ ps.flatMap Phi.uses ∨ x ∈ kept.flatMap Phi.uses := by
  induction ps generalizing kept with
  | nil => exact .inr h
  | cons p ps ih =>
    rw [dcePhis] at h
    rw [List.flatMap_cons, List.mem_append]
    split at h
    · exact (ih h).imp_left .inr
    · rcases ih h with h | h
      · exact .inl (.inr h)
      · rw [List.flatMap_cons, List.mem_append] at h
        exact h.elim (fun h => .inl (.inl h)) .inr

theorem mem_uses {b : Block} {x : MReg} :
    x ∈ b.uses ↔ x ∈ b.phis.flatMap Phi.uses ∨ x ∈ b.instrs.flatMap MI.uses ∨ x ∈ b.term.uses := by
  rw [Block.uses, List.mem_append, List.mem_append, or_assoc]

theorem dceBlock_uses {x : MReg} {liveOuts : List Reg} {others : List MReg} {b : Block}
    (h : x ∈ (dceBlock liveOuts others b).uses) : x ∈ b.uses := by
  rw [mem_uses] at h ⊢
  refine h.imp (fun h => ?_) (Or.imp_left fun h => ?_)
  · simpa using dcePhis_uses h
  · simpa using dceInstrs_uses h

theorem dceBlocks_uses {x : MReg} {liveOuts : List Reg} {bs done : List Block}
    (h : x ∈ usesOf (dceBlocks liveOuts bs done)) : x ∈ usesOf bs ∨ x ∈ usesOf done := by
  induction bs generalizing done with
  | nil => exact .inr h
  | cons b bs ih =>
    rw [usesOf, List.flatMap_cons, List.mem_append]
    rcases ih h with h | h
    · exact .inl (.inr h)
    · rw [usesOf, List.flatMap_cons, List.mem_append] at h
      exact h.elim (fun h => .inl (.inl (dceBlock_uses h))) .inr

/-- PHIs, without ones of registers that are not used. -/
inductive PhisElim (used : List MReg) : List Phi → List Phi → Prop
  | nil : PhisElim used [] []
  | keep {ps ps' : List Phi} (p : Phi) : PhisElim used ps ps' → PhisElim used (p :: ps) (p :: ps')
  | drop {ps ps' : List Phi} {p : Phi} : .virt p.dst ∉ used → PhisElim used ps ps' → PhisElim used (p :: ps) ps'

/-- `used` has no virtual registers but the ones that are used outside or in what the
scan keeps. -/
theorem dcePhis_elim {used outside : List MReg} {ps kept qs : List Phi}
    (hused : ∀ v, .virt v ∈ used → .virt v ∈ outside ∨ .virt v ∈ (dcePhis outside ps kept).flatMap Phi.uses)
    (h : PhisElim used qs kept) : PhisElim used (ps.reverse ++ qs) (dcePhis outside ps kept) := by
  induction ps generalizing kept qs with
  | nil => exact h
  | cons p ps ih =>
    rw [List.reverse_cons, List.append_assoc, List.singleton_append]
    rw [dcePhis] at hused ⊢
    split at hused
    · rename_i hdead
      rw [if_pos hdead]
      refine ih hused (.drop (fun hp => hdead ?_) h)
      simp only [List.flatMap_cons, List.mem_append]
      exact (hused _ hp).elim (fun h => .inl (.inl h)) fun h =>
        (dcePhis_uses h).elim (fun h => .inl (.inr (.inr h))) .inr
    · rename_i hlive
      rw [if_neg hlive]
      exact ih hused (.keep p h)

section Deleted

variable {σ : Type} (S : Sem σ)

theorem phys_mem_live {L : Set MReg} {live : List Reg} (hL : ∀ r, .phys r ∈ L ↔ r ∈ live) (mis : List MI) (r : Reg) :
    .phys r ∈ (lang S).live mis L ↔ r ∈ mis.foldr liveBefore live := by
  induction mis generalizing r with
  | nil => exact hL r
  | cons mi mis ih =>
    rw [List.foldr_cons, mem_liveBefore, ← ih]
    exact Iff.rfl

/-- The instructions that may be deleted. -/
def Safe (mi : MI) : Prop := mi.desc.isSafeToMove = true

theorem dceInstrs_elim {L : Set MReg} {outside : List MReg} {mis kept is : List MI} {live : List Reg}
    (hL : ∀ v, .virt v ∈ L → .virt v ∈ outside ∨ .virt v ∈ (dceInstrs outside mis live kept).flatMap MI.uses)
    (hlive : ∀ r, .phys r ∈ (lang S).live kept L ↔ r ∈ live) (h : (lang S).Elim Safe L is kept) :
    (lang S).Elim Safe L (mis.reverse ++ is) (dceInstrs outside mis live kept) := by
  induction mis generalizing kept is live with
  | nil => exact h
  | cons mi mis ih =>
    rw [List.reverse_cons, List.append_assoc, List.singleton_append]
    rw [dceInstrs] at hL ⊢
    split at hL
    · rename_i hdead
      rw [if_pos hdead]
      rw [isDead, Bool.and_eq_true, List.all_eq_true] at hdead
      refine ih hL hlive (.drop hdead.1 (fun x hx hmem => ?_) h)
      cases x with
      | phys r => exact of_decide_eq_true (hdead.2 _ hx) ((hlive r).mp hmem)
      | virt v =>
        -- a virtual register that is live is used outside, or in what is kept in the end
        refine of_decide_eq_true (hdead.2 _ hx) ?_
        simp only [List.flatMap_cons, List.mem_append]
        rcases Lang.mem_live hmem with hv | ⟨i, hi, hv⟩
        · exact (hL v hv).elim (fun h => .inl (.inl h)) fun h =>
            (dceInstrs_uses h).elim (fun h => .inl (.inr (.inr h))) .inr
        · exact .inr (List.mem_flatMap.mpr ⟨i, hi, hv⟩)
    · rename_i hkeep
      rw [if_neg hkeep]
      refine ih hL (fun r => ?_) (.keep mi h)
      rw [mem_liveBefore, ← hlive r]
      exact Iff.rfl

/-- What is live at the end of a block: the virtual registers are those in `used`. -/
def exitSet (liveOuts : List Reg) (used : List MReg) (t : Term) : Set MReg := regSet (exitLive liveOuts t) used

/-- A block after the pass; `used` are the registers that are still used. -/
structure BlockElim (liveOuts : List Reg) (used : List MReg) (b b' : Block) : Prop where
  label : b'.label = b.label
  term : b'.term = b.term
  phis : PhisElim used b.phis b'.phis
  instrs : (lang S).Elim Safe (exitSet liveOuts used b.term) b.instrs b'.instrs

theorem dceBlock_elim {liveOuts : List Reg} {used others : List MReg} {b : Block}
    (hused : ∀ v, .virt v ∈ used → .virt v ∈ others ∨ .virt v ∈ (dceBlock liveOuts others b).uses) :
    BlockElim S liveOuts used b (dceBlock liveOuts others b) where
  label := rfl
  term := rfl
  phis := by
    have h : PhisElim used (b.phis.reverse.reverse ++ []) (dceBlock liveOuts others b).phis := by
      refine dcePhis_elim (fun v hv => ?_) .nil
      simp only [List.mem_append]
      rcases hused v hv with h | h
      · exact .inl (.inl (.inl h))
      · rcases mem_uses.mp h with h | h | h
        · exact .inr h
        · exact .inl (.inl (.inr h))
        · exact .inl (.inr h)
    rwa [List.reverse_reverse, List.append_nil] at h
  instrs := by
    have h : (lang S).Elim Safe (exitSet liveOuts used b.term) (b.instrs.reverse.reverse ++ [])
        (dceBlock liveOuts others b).instrs := by
      refine dceInstrs_elim S (fun v hv => ?_) (fun r => Iff.rfl) .nil
      simp only [List.mem_append]
      rcases hused v hv with h | h
      · exact .inl (.inl (.inl h))
      · rcases mem_uses.mp h with h | h | h
        · exact .inl (.inl (.inr (by simpa using dcePhis_uses h)))
        · exact .inr h
        · exact .inl (.inr h)
    rwa [List.reverse_reverse, List.append_nil] at h

theorem dceBlocks_elim {liveOuts : List Reg} {used : List MReg} {bs done ds : List Block}
    (hused : ∀ v, .virt v ∈ used → .virt v ∈ usesOf (dceBlocks liveOuts bs done))
    (h : List.Forall₂ (BlockElim S liveOuts used) ds done) :
    List.Forall₂ (BlockElim S liveOuts used) (bs.reverse ++ ds) (dceBlocks liveOuts bs done) := by
  induction bs generalizing done ds with
  | nil => exact h
  | cons b bs ih =>
    rw [List.reverse_cons, List.append_assoc, List.singleton_append]
    refine ih hused (.cons (dceBlock_elim S fun v hv => ?_) h)
    rw [List.mem_append]
    have h : .virt v ∈ usesOf (dceBlocks liveOuts bs (dceBlock liveOuts (usesOf bs ++ usesOf done) b :: done)) :=
      hused v hv
    rcases dceBlocks_uses h with h | h
    · exact .inl (.inl h)
    · rw [usesOf, List.flatMap_cons, List.mem_append] at h
      exact h.elim .inr fun h => .inl (.inr h)

/-- The blocks after the pass. -/
theorem dce_blocks (F : MFunction) :
    List.Forall₂ (BlockElim S F.liveOuts (usesOf (deadMachineInstructionElim F).blocks)) F.blocks
      (deadMachineInstructionElim F).blocks := by
  have h : List.Forall₂ _ (F.blocks.reverse.reverse ++ []) (deadMachineInstructionElim F).blocks :=
    dceBlocks_elim S (fun v hv => hv) .nil
  rwa [List.reverse_reverse, List.append_nil] at h

end Deleted

section Correct

variable {σ : Type} {S : Sem σ}

theorem MI.exec_safe {mi : MI} (h : Safe mi) (s : MState σ) : (mi.exec S s).rest = s.rest := by
  cases mi with
  | swfp => cases h
  | copy => rfl
  | lw => rfl
  | other n desc defs uses => exact S.eval_safe _ _ _ _ h

theorem phiValues_elim {used : List MReg} {pred : Option Nat} {ps ps' : List Phi} {s s' : MState σ}
    {ws : List (Nat × Word)} (h : PhisElim used ps ps') (huses : ∀ p ∈ ps', ∀ x ∈ p.uses, s.regs x = s'.regs x)
    (hws : phiValues pred s ps = some ws) : ∃ ws', phiValues pred s' ps' = some ws' ∧
      ∀ L : Set MReg, (∀ v, .virt v ∈ L → .virt v ∈ used) →
        ∀ t t' : MState σ, Agree L t t' → Agree L (setAll t ws) (setAll t' ws') := by
  induction h generalizing ws with
  | nil => exact ⟨[], rfl, fun L _ t t' ht => Option.some.inj hws ▸ ht⟩
  | keep p _ ih =>
    obtain ⟨x, hx, hws⟩ := Option.bind_eq_some_iff.mp hws
    obtain ⟨ws, hps, rfl⟩ := Option.map_eq_some_iff.mp hws
    obtain ⟨ws', hps', hagree⟩ := ih (fun q hq => huses q (.tail _ hq)) hps
    have hval : s.regs (.virt x) = s'.regs (.virt x) := huses p (.head _) _ (p.mem_uses hx)
    refine ⟨(p.dst, s'.regs (.virt x)) :: ws', by rw [phiValues, hx, hps']; rfl, fun L hL t t' ht => ?_⟩
    exact hagree L hL _ _ (hval ▸ set_agree _ _ (ht.mono fun _ hr => hr.1))
  | @drop _ _ p hdead _ ih =>
    obtain ⟨x, hx, hws⟩ := Option.bind_eq_some_iff.mp hws
    obtain ⟨ws, hps, rfl⟩ := Option.map_eq_some_iff.mp hws
    obtain ⟨ws', hps', hagree⟩ := ih huses hps
    refine ⟨ws', hps', fun L hL t t' ht => hagree L hL _ _ ⟨fun r hr => ?_, ht.rest⟩⟩
    exact (if_neg fun h : r = .virt p.dst => hdead (hL _ (h ▸ hr))).trans (ht.regs r hr)

/-- What is live where a block is entered. -/
def entrySet (S : Sem σ) (liveOuts : List Reg) (used : List MReg) (b : Block) : Set MReg
  | .phys r => .phys r ∈ (lang S).live b.instrs (exitSet liveOuts used b.term)
  | .virt v => .virt v ∈ used

theorem live_subset_entrySet {liveOuts : List Reg} {used : List MReg} {b : Block} (h : ∀ x ∈ b.uses, x ∈ used) :
    (lang S).live b.instrs (exitSet liveOuts used b.term) ⊆ entrySet S liveOuts used b := by
  intro x hx
  cases x with
  | phys r => exact hx
  | virt v =>
    rcases Lang.mem_live hx with hx | ⟨i, hi, hx⟩
    · exact hx
    · exact h _ (mem_uses.mpr (.inr (.inl (List.mem_flatMap.mpr ⟨i, hi, hx⟩))))

/-- A block does the same after the pass. -/
theorem BlockElim.exec {liveOuts : List Reg} {used : List MReg} {b b' : Block} {pred : Option Nat} {s s' t : MState σ}
    (h : BlockElim S liveOuts used b b') (huses : ∀ x ∈ b'.uses, x ∈ used)
    (hs : Agree (entrySet S liveOuts used b') s s') (ht : b.exec S pred s = some t) :
    ∃ t', b'.exec S pred s' = some t' ∧ Agree (exitSet liveOuts used b.term) t t' := by
  obtain ⟨ws, hws, rfl⟩ := Option.map_eq_some_iff.mp ht
  have hphis : ∀ p ∈ b'.phis, ∀ x ∈ p.uses, s.regs x = s'.regs x := fun p hp x hx => by
    have hmem := huses x (mem_uses.mpr (.inl (List.mem_flatMap.mpr ⟨p, hp, hx⟩)))
    obtain ⟨y, -, rfl⟩ := List.mem_map.mp hx
    exact hs.regs _ hmem
  obtain ⟨ws', hws', hagree⟩ := phiValues_elim h.phis hphis hws
  refine ⟨_, by rw [Block.exec, hws']; rfl, h.instrs.agree (fun _ => MI.exec_safe) ?_⟩
  refine (hagree _ (fun v hv => hv) _ _ hs).mono ?_
  rw [← h.term]
  exact live_subset_entrySet huses

theorem BlockElim.physLiveIn {liveOuts : List Reg} {used : List MReg} {b b' : Block}
    (h : BlockElim S liveOuts used b b') {r : Reg} (hr : .phys r ∈ entrySet S liveOuts used b') :
    r ∈ b.physLiveIn liveOuts := by
  have hr : .phys r ∈ (lang S).live b'.instrs (exitSet liveOuts used b.term) := by
    rw [← h.term]
    exact hr
  exact (phys_mem_live S (fun r => Iff.rfl) b.instrs r).mp (h.instrs.live_subset hr)

theorem head?_of_forall₂ {R : Block → Block → Prop} {bs bs' : List Block} (h : List.Forall₂ R bs bs') {b : Block}
    (hb : bs.head? = some b) : ∃ b', bs'.head? = some b' ∧ R b b' := by
  cases h with
  | nil => cases hb
  | cons h _ => exact ⟨_, rfl, Option.some.inj hb ▸ h⟩

theorem uses_mem_usesOf {bs : List Block} {l : Nat} {b : Block} (h : getBlock? bs l = some b) {x : MReg}
    (hx : x ∈ b.uses) : x ∈ usesOf bs :=
  List.mem_flatMap.mpr ⟨b, (Blocks.mem_of_block? h).1, hx⟩

section

variable {F : MFunction}

/-- What `s'` has in common with `s`, where block `l` is entered. -/
def EntryAgree (F : MFunction) (S : Sem σ) (l : Nat) (s s' : MState σ) : Prop :=
  ∀ b', getBlock? (deadMachineInstructionElim F).blocks l = some b' →
    Agree (entrySet S F.liveOuts (usesOf (deadMachineInstructionElim F).blocks) b') s s'

theorem EntryAgree.exec {pred : Option Nat} {l : Nat} {s s' t : MState σ} {b : Block} (h : EntryAgree F S l s s')
    (hb : getBlock? F.blocks l = some b) (ht : b.exec S pred s = some t) :
    ∃ b' t', getBlock? (deadMachineInstructionElim F).blocks l = some b' ∧ b'.term = b.term ∧
      b'.exec S pred s' = some t' ∧
        Agree (exitSet F.liveOuts (usesOf (deadMachineInstructionElim F).blocks) b.term) t t' := by
  obtain ⟨b', hb', helim⟩ := (Blocks.block?_of_forall₂ (fun _ _ h => h.label) (dce_blocks S F)).1 b hb
  obtain ⟨t', ht', hagree⟩ := helim.exec (fun x hx => uses_mem_usesOf hb' hx) (h b' hb') ht
  exact ⟨b', t', hb', helim.term, ht', hagree⟩

/-- Every execution up to a block is one after the pass. -/
theorem enters_dce (hF : NoPhysLiveIn F.liveOuts F.blocks) {s₀ s : MState σ} {pred : Option Nat} {l : Nat}
    (h : Enters S F.blocks s₀ pred l s) :
    ∃ s', Enters S (deadMachineInstructionElim F).blocks s₀ pred l s' ∧ EntryAgree F S l s s' := by
  induction h with
  | @entry b hb =>
    obtain ⟨b', hb', helim⟩ := head?_of_forall₂ (dce_blocks S F) hb
    exact ⟨s₀, helim.label ▸ .entry hb', fun _ _ => .refl _ _⟩
  | @next pred l l' n s t b uses successors _ hb ht hterm hl' ih =>
    obtain ⟨s', hs', hagree⟩ := ih
    obtain ⟨b', t', hb', hterm', ht', hexit⟩ := hagree.exec hb ht
    have huses : uses.map t.regs = uses.map t'.regs := List.map_congr_left fun x hx => by
      refine hexit.regs x ?_
      have hx' : x ∈ b.term.uses := by
        rw [hterm]
        exact hx
      cases x with
      | phys r => exact List.mem_append_right _ (mem_filterMap_phys?.mpr hx')
      | virt v => exact uses_mem_usesOf hb' (mem_uses.mpr (.inr (.inr (hterm'.symm ▸ hx'))))
    refine ⟨t', .next hs' hb' ht' (hterm'.trans hterm) (by rw [← huses, hl']),
      fun b₂' hb₂' => hexit.mono fun x hx => ?_⟩
    cases x with
    | virt v => exact hx
    | phys r =>
      obtain ⟨b₂, hb₂, helim⟩ := (Blocks.block?_of_forall₂ (fun _ _ h => h.label) (dce_blocks S F)).2 b₂' hb₂'
      have hsucc : l' ∈ b.term.successors := by
        rw [hterm]
        exact List.mem_of_getElem? hl'
      have hr := hF b (List.mem_of_find?_eq_some hb) l' hsucc b₂ hb₂ r (helim.physLiveIn hx)
      exact List.mem_append_left _ (List.mem_append_left _ hr)

/-- An execution that returns also returns after the pass: the memory is the same, and
the registers that are reserved or live out. -/
theorem returns_dce (hF : NoPhysLiveIn F.liveOuts F.blocks) {s₀ s : MState σ} {l : Nat}
    (h : Returns S F.blocks s₀ l s) : ∃ s', Returns S (deadMachineInstructionElim F).blocks s₀ l s' ∧ s'.rest = s.rest ∧
      ∀ r ∈ getReservedRegs ++ F.liveOuts, s'.regs (.phys r) = s.regs (.phys r) := by
  obtain ⟨pred, s₁, b, hs₁, hb, ht, hret⟩ := h
  obtain ⟨s₁', hs₁', hagree⟩ := enters_dce hF hs₁
  obtain ⟨b', t', hb', hterm', ht', hexit⟩ := hagree.exec hb ht
  refine ⟨t', ⟨pred, s₁', b', hs₁', hb', ht', hterm'.trans hret⟩, hexit.rest.symm, fun r hr => (hexit.regs _ ?_).symm⟩
  rw [hret]
  exact List.mem_append_left _ hr

end

end Correct

end Rigel.DeadElim
