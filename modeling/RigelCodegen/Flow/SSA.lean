import RigelCodegen.Lib.Blocks
import RigelCodegen.Lib.Word

/-!
# Machine functions in SSA form

A function is a list of blocks in the order of the layout, each with its PHIs
first, its terminators last, and the blocks that it can go to
(`MFunction.WellFormed`). An execution goes from block to block
(`MFunction.step`); the PHIs of a block depend on the block before.
-/

namespace Rigel.SSA

open Word32

/-- An instruction; virtual registers and basic blocks are numbers. -/
inductive Instr where
  | phi (dst : Nat) (incoming : List (Nat × Nat))
  /-- `Select_CC_to_f` if `fp`, else `Select_CC_to_i`. -/
  | selectCC (fp : Bool) (dst cmpRes t f : Nat)
  | bnz (r : Nat) (target : Nat)
  /-- Any other instruction, but for terminators. -/
  | op (n : Nat)
  /-- Any other terminator. -/
  | terminator (n : Nat)
  deriving DecidableEq, Repr

namespace Instr

def isPHI : Instr → Bool
  | phi .. => true
  | _ => false

def isTerminator : Instr → Bool
  | bnz .. | terminator _ => true
  | _ => false

end Instr

structure Block where
  label : Nat
  instrs : List Instr
  successors : List Nat
  deriving DecidableEq, Repr

/-- A function: its blocks in the order of the layout, and the number of the next
one that is created. -/
structure MFunction where
  blocks : List Block
  nextLabel : Nat
  deriving DecidableEq, Repr

namespace MFunction

def getBlock? (F : MFunction) (l : Nat) : Option Block := Blocks.block? Block.label F.blocks l

def labels (F : MFunction) : List Nat := F.blocks.map Block.label

end MFunction

/-! ## Executions -/

/-- The registers, and the rest of the state. -/
structure MState (σ : Type) where
  regs : Nat → Word
  rest : σ

namespace MState

variable {σ : Type}

def set (s : MState σ) (r : Nat) (v : Word) : MState σ := { s with regs := fun x => if x = r then v else s.regs x }

def setAll (s : MState σ) (vs : List (Nat × Word)) : MState σ := vs.foldl (fun s v => s.set v.1 v.2) s

end MState

/-- What the other instructions do; a terminator goes on, leaves the function, or
goes to a block. -/
structure Sem (σ : Type) where
  op : Nat → MState σ → MState σ
  terminator : Nat → MState σ → Option (Option Nat)

section Executions

variable {σ : Type} (S : Sem σ)

/-- Where an instruction goes, if it does not go on. -/
def Instr.transfer (s : MState σ) : Instr → Option (Option Nat)
  | bnz r target => if s.regs r ≠ 0 then some (some target) else none
  | terminator n => S.terminator n s
  | _ => none

/-- What an instruction does; a select takes one of two values. -/
def Instr.effect (s : MState σ) : Instr → MState σ
  | selectCC _ dst cmpRes t f => s.set dst (if s.regs cmpRes ≠ 0 then s.regs t else s.regs f)
  | op n => S.op n s
  | _ => s

/-- How the instructions of a block end. -/
inductive BlockEnd (σ : Type) where
  | goto (l : Nat) (s : MState σ)
  | fallThrough (s : MState σ)
  | leave (s : MState σ)
  | stuck

/-- Instructions one after the other; there are no PHIs among them. -/
def execInstrs : List Instr → MState σ → BlockEnd σ
  | [], s => .fallThrough s
  | i :: is, s =>
    if i.isPHI then .stuck
    else
      match i.transfer S s with
      | some (some l) => .goto l s
      | some none => .leave s
      | none => execInstrs is (i.effect S s)

/-- The values of the PHIs at the beginning of a block, all read before any of them
is written. -/
def phiValues (pred : Option Nat) (s : MState σ) : List Instr → Option (List (Nat × Word))
  | .phi dst incoming :: is =>
    (Blocks.incoming? incoming pred).bind fun v => (phiValues pred s is).map fun vs => (dst, s.regs v) :: vs
  | _ => some []

/-- The block that is entered, the one before it, and the state. -/
structure Config (σ : Type) where
  pred : Option Nat
  block : Nat
  state : MState σ

inductive Outcome (σ : Type) where
  | running (c : Config σ)
  | left (s : MState σ)
  | stuck

/-- Where control goes from block `l`, before `next` in the layout. -/
def BlockEnd.outcome (l : Nat) (next : Option Nat) : BlockEnd σ → Outcome σ
  | goto t s => .running ⟨some l, t, s⟩
  | fallThrough s => next.elim .stuck fun t => .running ⟨some l, t, s⟩
  | leave s => .left s
  | stuck => .stuck

/-- A block. -/
def Block.run (next : Option Nat) (x : Block) (pred : Option Nat) (s : MState σ) : Outcome σ :=
  (phiValues pred s x.instrs).elim .stuck fun vs =>
    (execInstrs S (x.instrs.dropWhile Instr.isPHI) (s.setAll vs)).outcome x.label next

/-- The block behind another in the layout. -/
def MFunction.layoutSuccessor (F : MFunction) (l : Nat) : Option Nat := Blocks.follower F.labels l

/-- One block of an execution. -/
def MFunction.step (F : MFunction) : Outcome σ → Outcome σ
  | .running c =>
    (F.getBlock? c.block).elim .stuck fun x => x.run S (F.layoutSuccessor x.label) c.pred c.state
  | o => o

/-- An execution starts at the first block. -/
def MFunction.start (F : MFunction) (s : MState σ) : Outcome σ :=
  F.blocks.head?.elim .stuck fun x => .running ⟨none, x.label, s⟩

end Executions

/-- The function is one: blocks have a number each, PHIs are first and terminators
last, and the successors of a block are the blocks that it can go to. -/
structure MFunction.WellFormed {σ : Type} (S : Sem σ) (F : MFunction) : Prop where
  labels_nodup : F.labels.Nodup
  label_lt : ∀ x ∈ F.blocks, x.label < F.nextLabel
  incoming_lt : ∀ x ∈ F.blocks, ∀ dst incoming, .phi dst incoming ∈ x.instrs → ∀ v ∈ incoming, v.2 < F.nextLabel
  successors_lt : ∀ x ∈ F.blocks, ∀ l ∈ x.successors, l < F.nextLabel
  phis_first : ∀ x ∈ F.blocks, x.instrs.Pairwise fun i j => j.isPHI = true → i.isPHI = true
  terminators_last : ∀ x ∈ F.blocks, x.instrs.Pairwise fun i j => i.isTerminator = true → j.isTerminator = true
  targets : ∀ x ∈ F.blocks, ∀ i ∈ x.instrs, ∀ s l, i.transfer S s = some (some l) → l ∈ x.successors
  fallThrough : ∀ x ∈ F.blocks, ∀ s, (∀ i ∈ x.instrs, i.transfer S s = none) →
    ∀ l, F.layoutSuccessor x.label = some l → l ∈ x.successors

section Steps

variable {σ : Type} {S : Sem σ}

theorem Instr.transfer_of_not_terminator {i : Instr} (h : i.isTerminator = false) (s : MState σ) :
    i.transfer S s = none := by
  cases i <;> first | rfl | cases h

theorem Instr.effect_of_terminator {i : Instr} (h : i.isTerminator = true) (s : MState σ) : i.effect S s = s := by
  cases i <;> first | rfl | cases h

theorem Instr.not_terminator_of_isPHI {i : Instr} (h : i.isPHI = true) : i.isTerminator = false := by
  cases i <;> first | rfl | cases h

/-- What is behind instructions is executed if they fall through. -/
theorem execInstrs_append (is is' : List Instr) (s : MState σ) : execInstrs S (is ++ is') s =
    match execInstrs S is s with
    | .fallThrough s' => execInstrs S is' s'
    | e => e := by
  induction is generalizing s with
  | nil => rfl
  | cons i is ih =>
    rw [List.cons_append, execInstrs, execInstrs]
    split
    · rfl
    · cases i.transfer S s with
      | none => exact ih _
      | some l => cases l <;> rfl

/-- Instructions that are no terminators fall through, if there are no PHIs among
them. -/
theorem execInstrs_of_not_terminator {is : List Instr} (h : ∀ i ∈ is, i.isTerminator = false) (s : MState σ) :
    (∃ s', execInstrs S is s = .fallThrough s') ∨ execInstrs S is s = .stuck := by
  induction is generalizing s with
  | nil => exact .inl ⟨s, rfl⟩
  | cons i is ih =>
    rw [execInstrs]
    split
    · exact .inr rfl
    · rw [i.transfer_of_not_terminator (h i (.head _))]
      exact ih (fun j hj => h j (.tail _ hj)) _

/-- A block only goes to targets of its instructions. -/
theorem execInstrs_goto {is : List Instr} {s s' : MState σ} {l : Nat} (h : execInstrs S is s = .goto l s') :
    ∃ i ∈ is, i.transfer S s' = some (some l) := by
  induction is generalizing s with
  | nil => cases h
  | cons i is ih =>
    rw [execInstrs] at h
    split at h
    · cases h
    · split at h
      · rename_i hi
        obtain ⟨rfl, rfl⟩ := BlockEnd.goto.inj h
        exact ⟨i, .head _, hi⟩
      · cases h
      · obtain ⟨j, hj, ht⟩ := ih h
        exact ⟨j, .tail _ hj, ht⟩

theorem execInstrs_terminators {is : List Instr} (h : ∀ i ∈ is, i.isTerminator = true) {s s' : MState σ}
    (hs : execInstrs S is s = .fallThrough s') : s' = s := by
  induction is with
  | nil => exact (BlockEnd.fallThrough.inj hs).symm
  | cons i is ih =>
    rw [execInstrs] at hs
    split at hs
    · cases hs
    · split at hs
      · cases hs
      · cases hs
      · rw [i.effect_of_terminator (h i (.head _))] at hs
        exact ih (fun j hj => h j (.tail _ hj)) hs

/-- If it falls through, no instruction goes elsewhere from the state that it ends
in: terminators are last, and do not change the state. -/
theorem execInstrs_fallThrough {is : List Instr} {s s' : MState σ}
    (hlast : is.Pairwise fun i j => i.isTerminator = true → j.isTerminator = true)
    (h : execInstrs S is s = .fallThrough s') : ∀ i ∈ is, i.transfer S s' = none := by
  induction is generalizing s with
  | nil => exact fun i hi => nomatch hi
  | cons i is ih =>
    rw [List.pairwise_cons] at hlast
    rw [execInstrs] at h
    split at h
    · cases h
    · split at h
      · cases h
      · cases h
      · rename_i hi
        intro j hj
        rcases List.mem_cons.mp hj with rfl | hj
        · cases ht : j.isTerminator with
          | false => exact j.transfer_of_not_terminator ht s'
          | true =>
            rw [j.effect_of_terminator ht] at h
            rwa [execInstrs_terminators (fun k hk => hlast.1 k hk ht) h]
        · exact ih hlast.2 h j hj

/-- The block that is entered next is a successor. -/
theorem Block.run_running {F : MFunction} (h : F.WellFormed S) {x : Block} (hx : x ∈ F.blocks) {pred : Option Nat}
    {s : MState σ} {c : Config σ} (hrun : x.run S (F.layoutSuccessor x.label) pred s = .running c) :
    c.pred = some x.label ∧ c.block ∈ x.successors := by
  have hphi : ∀ i ∈ x.instrs.takeWhile Instr.isPHI, ∀ s : MState σ, i.transfer S s = none := fun i hi s =>
    i.transfer_of_not_terminator (i.not_terminator_of_isPHI (List.mem_takeWhile_imp hi)) s
  rw [run] at hrun
  cases hvs : phiValues pred s x.instrs with
  | none => rw [hvs] at hrun; cases hrun
  | some vs =>
    rw [hvs, Option.elim_some] at hrun
    cases hend : execInstrs S (x.instrs.dropWhile Instr.isPHI) (s.setAll vs) with
    | goto l s' =>
      rw [hend] at hrun
      obtain rfl := Outcome.running.inj hrun
      obtain ⟨i, hi, ht⟩ := execInstrs_goto hend
      exact ⟨rfl, h.targets x hx i ((List.dropWhile_sublist _).subset hi) s' l ht⟩
    | fallThrough s' =>
      rw [hend, BlockEnd.outcome] at hrun
      cases hnext : F.layoutSuccessor x.label with
      | none => rw [hnext] at hrun; cases hrun
      | some l =>
        rw [hnext] at hrun
        obtain rfl := Outcome.running.inj hrun
        have hbody := execInstrs_fallThrough ((h.terminators_last x hx).sublist (List.dropWhile_sublist _)) hend
        refine ⟨rfl, h.fallThrough x hx s' (fun i hi => ?_) l hnext⟩
        rw [← List.takeWhile_append_dropWhile (p := Instr.isPHI) (l := x.instrs)] at hi
        exact (List.mem_append.mp hi).elim (fun hi => hphi i hi s') (hbody i)
    | leave s' => rw [hend] at hrun; cases hrun
    | stuck => rw [hend] at hrun; cases hrun

/-- Only the PHIs at the beginning are read. -/
theorem phiValues_append (pred : Option Nat) (s : MState σ) (is : List Instr) {i : Instr} (hi : i.isPHI = false)
    (is' : List Instr) : phiValues pred s (is ++ i :: is') = phiValues pred s is := by
  induction is with
  | nil => cases i <;> first | rfl | cases hi
  | cons j is ih =>
    cases j with
    | phi dst incoming => rw [List.cons_append, phiValues, phiValues, ih]
    | _ => rfl

theorem phiValues_of_not_isPHI {is : List Instr} (h : ∀ i ∈ is, i.isPHI = false) (pred : Option Nat) (s : MState σ) :
    phiValues pred s is = some [] := by
  cases is with
  | nil => rfl
  | cons i is => exact phiValues_append pred s [] (h i (.head _)) is

theorem dropWhile_of_not_isPHI {is : List Instr} (h : ∀ i ∈ is, i.isPHI = false) : is.dropWhile Instr.isPHI = is := by
  cases is with
  | nil => rfl
  | cons i is => rw [List.dropWhile_cons_of_neg (by simp [h i (.head _)])]

theorem dropWhile_append_cons (is : List Instr) {i : Instr} (hi : i.isPHI = false) (is' : List Instr) :
    (is ++ i :: is').dropWhile Instr.isPHI = is.dropWhile Instr.isPHI ++ i :: is' := by
  induction is with
  | nil => rw [List.nil_append, List.dropWhile_cons_of_neg (by simp [hi])]; rfl
  | cons j is ih =>
    cases hj : j.isPHI with
    | true => rw [List.cons_append, List.dropWhile_cons_of_pos hj, List.dropWhile_cons_of_pos hj, ih]
    | false =>
      rw [List.cons_append, List.dropWhile_cons_of_neg (by simp [hj]), List.dropWhile_cons_of_neg (by simp [hj])]
      rfl

end Steps

end Rigel.SSA
