import Mathlib.Data.List.Find
import Mathlib.Data.List.Flatten
import Mathlib.Data.List.Forall2
import Mathlib.Data.List.TakeWhile

/-!
# Blocks in a layout

A function as a list of blocks in the order of its layout, each with a label: the
block of a label (`block?`), and the label behind another (`follower`). `grow`
changes blocks in place and puts new ones behind one of them; labels are found
and followed as before, but for the new ones and the one before them. A PHI has a
value for each label that control may come from (`incoming?`).
-/

namespace Blocks

variable {K β : Type*} [DecidableEq K]

section Lookup

variable (label : β → K)

/-- The block of a label. -/
def block? (bs : List β) (l : K) : Option β := bs.find? fun b => label b = l

variable {label} {bs : List β} {b : β} {l : K}

theorem mem_of_block? (h : block? label bs l = some b) : b ∈ bs ∧ label b = l :=
  ⟨List.mem_of_find?_eq_some h, by simpa using List.find?_some h⟩

theorem block?_cons_self (h : label b = l) (bs : List β) : block? label (b :: bs) l = some b :=
  List.find?_cons_of_pos (by simpa using h)

theorem block?_cons_ne (h : label b ≠ l) (bs : List β) : block? label (b :: bs) l = block? label bs l :=
  List.find?_cons_of_neg (by simpa using h)

theorem block?_append_of_ne {new : List β} (h : ∀ b ∈ new, label b ≠ l) (bs : List β) :
    block? label (new ++ bs) l = block? label bs l := by
  induction new with
  | nil => rfl
  | cons b new ih =>
    obtain ⟨hb, hnew⟩ := List.forall_mem_cons.mp h
    rw [List.cons_append, block?_cons_ne hb, ih hnew]

theorem block?_append_of_eq_some {new : List β} (h : block? label new l = some b) (bs : List β) :
    block? label (new ++ bs) l = some b := by
  rw [block?, List.find?_append, ← block?, h, Option.some_or]

/-- Blocks that are changed in place. -/
theorem block?_map {f : β → β} (hf : ∀ b, label (f b) = label b) (bs : List β) (l : K) :
    block? label (bs.map f) l = (block? label bs l).map f := by
  rw [block?, List.find?_map, block?]
  congr 2
  funext b
  simp only [Function.comp_apply, hf]

/-- Blocks that are related one by one, and keep their labels. -/
theorem block?_of_forall₂ {R : β → β → Prop} (hlabel : ∀ b b', R b b' → label b' = label b) {bs' : List β}
    (h : List.Forall₂ R bs bs') :
    (∀ b, block? label bs l = some b → ∃ b', block? label bs' l = some b' ∧ R b b') ∧
      ∀ b', block? label bs' l = some b' → ∃ b, block? label bs l = some b ∧ R b b' := by
  induction h with
  | nil => exact ⟨nofun, nofun⟩
  | @cons b b' bs bs' hb _ ih =>
    by_cases hl : label b = l
    · rw [block?_cons_self hl, block?_cons_self ((hlabel b b' hb).trans hl)]
      exact ⟨fun x hx => ⟨b', rfl, Option.some.inj hx ▸ hb⟩, fun x hx => ⟨b, rfl, Option.some.inj hx ▸ hb⟩⟩
    · rw [block?_cons_ne hl, block?_cons_ne fun h => hl ((hlabel b b' hb).symm.trans h)]
      exact ih

end Lookup

/-! ## Followers -/

/-- What is behind a label. -/
def follower (ls : List K) (l : K) : Option K := (ls.dropWhile (· != l)).tail.head?

/-- New labels behind one. -/
def insertBehind (this : K) (new ls : List K) : List K := ls.flatMap fun l => l :: if l = this then new else []

section Follower

variable {ls new : List K} {l m this : K}

theorem follower_cons_self (ls : List K) (l : K) : follower (l :: ls) l = ls.head? := by simp [follower]

theorem follower_cons_ne (h : m ≠ l) (ls : List K) : follower (m :: ls) l = follower ls l := by simp [follower, h]

theorem follower_append_of_notMem (h : l ∉ new) (ls : List K) : follower (new ++ ls) l = follower ls l := by
  induction new with
  | nil => rfl
  | cons m new ih =>
    obtain ⟨hm, hnew⟩ := not_or.mp (List.mem_cons.not.mp h)
    rw [List.cons_append, follower_cons_ne (Ne.symm hm), ih hnew]

theorem follower_append_cons (h : l ∉ new) (ls : List K) : follower (new ++ l :: ls) l = ls.head? := by
  rw [follower_append_of_notMem h, follower_cons_self]

theorem mem_of_follower (h : follower ls l = some m) : m ∈ ls :=
  (List.dropWhile_sublist _).subset (List.mem_of_mem_tail (List.mem_of_head? h))

theorem insertBehind_cons (this : K) (new : List K) (l : K) (ls : List K) :
    insertBehind this new (l :: ls) = l :: ((if l = this then new else []) ++ insertBehind this new ls) := rfl

theorem insertBehind_append (h : this ∉ ls) (new rest : List K) :
    insertBehind this new (ls ++ this :: rest) = ls ++ this :: (new ++ insertBehind this new rest) := by
  induction ls with
  | nil => rw [List.nil_append, insertBehind_cons, if_pos rfl, List.nil_append]
  | cons l ls ih =>
    obtain ⟨hl, hls⟩ := not_or.mp (List.mem_cons.not.mp h)
    rw [List.cons_append, insertBehind_cons, if_neg (Ne.symm hl), List.nil_append, ih hls, List.cons_append]

theorem head?_insertBehind (this : K) (new ls : List K) : (insertBehind this new ls).head? = ls.head? := by
  cases ls <;> rfl

/-- Others are followed as before. -/
theorem follower_insertBehind_of_ne (hl : l ≠ this) (hn : l ∉ new) :
    follower (insertBehind this new ls) l = follower ls l := by
  induction ls with
  | nil => rfl
  | cons m ls ih =>
    rw [insertBehind_cons]
    by_cases hm : m = l
    · rw [hm, follower_cons_self, follower_cons_self, if_neg hl, List.nil_append, head?_insertBehind]
    · have hnew : l ∉ if m = this then new else [] := by split <;> simp [hn]
      rw [follower_cons_ne hm, follower_cons_ne hm, follower_append_of_notMem hnew, ih]

/-- The one is followed by the first of the new ones. -/
theorem follower_insertBehind_this (h : this ∈ ls) :
    follower (insertBehind this new ls) this = new.head?.or (follower ls this) := by
  obtain ⟨pre, post, rfl, hpre⟩ := List.eq_append_cons_of_mem h
  rw [insertBehind_append hpre, follower_append_cons hpre, follower_append_cons hpre, List.head?_append,
    head?_insertBehind]

/-- A new one is followed by the next one, and the last one by what the one before
them was. -/
theorem follower_insertBehind_new (h : this ∈ ls) (pre : List K) {post : List K} (hpre : l ∉ pre) (hl : l ∉ ls) :
    follower (insertBehind this (pre ++ l :: post) ls) l = post.head?.or (follower ls this) := by
  obtain ⟨front, back, rfl, hfront⟩ := List.eq_append_cons_of_mem h
  have hbefore : l ∉ front ++ this :: pre := by
    rw [List.mem_append, List.mem_cons, not_or, not_or] at hl ⊢
    exact ⟨hl.1, hl.2.1, hpre⟩
  calc follower (insertBehind this (pre ++ l :: post) (front ++ this :: back)) l
      = follower ((front ++ this :: pre) ++ l :: (post ++ insertBehind this (pre ++ l :: post) back)) l := by
        rw [insertBehind_append hfront]
        simp only [List.append_assoc, List.cons_append]
    _ = post.head?.or back.head? := by
        rw [follower_append_cons hbefore, List.head?_append, head?_insertBehind]
    _ = _ := by rw [follower_append_cons hfront]

theorem insertBehind_of_notMem (h : this ∉ ls) (new : List K) : insertBehind this new ls = ls := by
  induction ls with
  | nil => rfl
  | cons l ls ih =>
    obtain ⟨hl, hls⟩ := not_or.mp (List.mem_cons.not.mp h)
    rw [insertBehind_cons, if_neg (Ne.symm hl), List.nil_append, ih hls]

/-- Labels are as different as they were. -/
theorem nodup_insertBehind (h : ls.Nodup) (hnew : new.Nodup) (hd : ∀ l ∈ new, l ∉ ls) :
    (insertBehind this new ls).Nodup := by
  by_cases hthis : this ∈ ls
  · obtain ⟨pre, post, rfl, hpre⟩ := List.eq_append_cons_of_mem hthis
    have hpost : this ∉ post := (List.nodup_cons.mp (List.nodup_append.mp h).2.1).1
    have hperm : (pre ++ this :: (new ++ post)).Perm (new ++ (pre ++ this :: post)) := by
      have hcomm := List.perm_append_comm_assoc (pre ++ [this]) new post
      rwa [List.append_assoc, List.append_assoc] at hcomm
    rw [insertBehind_append hpre, insertBehind_of_notMem hpost, hperm.nodup_iff, List.nodup_append]
    exact ⟨hnew, h, fun a ha b hb e => hd a ha (e ▸ hb)⟩
  · rwa [insertBehind_of_notMem hthis]

end Follower

/-! ## New blocks -/

section Grow

variable (label : β → K) (this : K) (keep : β → β) (new : List β)

/-- Every block is changed, and new ones come behind one. -/
def grow (bs : List β) : List β := bs.flatMap fun b => keep b :: if label b = this then new else []

variable {label this keep new} {bs : List β} {l : K} (hkeep : ∀ b, label (keep b) = label b)
include hkeep

theorem labels_grow : (grow label this keep new bs).map label = insertBehind this (new.map label) (bs.map label) := by
  rw [grow, insertBehind, List.map_flatMap, List.flatMap_map]
  refine List.flatMap_congr fun b _ => ?_
  rw [List.map_cons, hkeep, apply_ite (List.map label), List.map_nil]

theorem block?_grow (hl : ∀ b ∈ new, label b ≠ l) :
    block? label (grow label this keep new bs) l = (block? label bs l).map keep := by
  induction bs with
  | nil => rfl
  | cons b bs ih =>
    rw [grow, List.flatMap_cons, List.cons_append, ← grow]
    by_cases hb : label b = l
    · rw [block?_cons_self ((hkeep b).trans hb), block?_cons_self hb, Option.map_some]
    · have hnew : ∀ x ∈ if label b = this then new else [], label x ≠ l := by
        split
        · exact hl
        · nofun
      rw [block?_cons_ne fun h => hb ((hkeep b).symm.trans h), block?_cons_ne hb, block?_append_of_ne hnew, ih]

/-- A new block is found, if its label is new. -/
theorem block?_grow_new (h : this ∈ bs.map label) (hl : l ∉ bs.map label) {b : β} (hb : block? label new l = some b) :
    block? label (grow label this keep new bs) l = some b := by
  induction bs with
  | nil => cases h
  | cons c bs ih =>
    obtain ⟨hc, hbs⟩ := not_or.mp (List.mem_cons.not.mp hl)
    rw [grow, List.flatMap_cons, List.cons_append, ← grow, block?_cons_ne fun h => hc (h.symm.trans (hkeep c))]
    by_cases hthis : label c = this
    · rw [if_pos hthis, block?_append_of_eq_some hb]
    · rw [if_neg hthis, List.nil_append, ih ((List.mem_cons.mp h).resolve_left (Ne.symm hthis)) hbs]

end Grow

section Incoming

variable {V : Type*} {vs : List (V × K)} {pred : Option K} {v : V} {old new l m : K}

/-- The value that comes from a block. -/
def incoming? (vs : List (V × K)) (pred : Option K) : Option V := (vs.find? fun v => some v.2 = pred).map Prod.fst

theorem mem_of_incoming? (h : incoming? vs pred = some v) : v ∈ vs.map Prod.fst := by
  obtain ⟨w, hw, rfl⟩ := Option.map_eq_some_iff.mp h
  exact List.mem_map_of_mem (List.mem_of_find?_eq_some hw)

/-- One label for another. -/
def rename (old new l : K) : K := if l = old then new else l

theorem rename_self (old new : K) : rename old new old = new := if_pos rfl

theorem rename_of_ne (h : l ≠ old) : rename old new l = l := if_neg h

theorem rename_eq_rename_iff (hl : l ≠ new) (hm : m ≠ new) : rename old new l = rename old new m ↔ l = m := by
  constructor
  · intro h
    by_cases hlo : l = old <;> by_cases hmo : m = old
    · rw [hlo, hmo]
    · rw [hlo, rename_self, rename_of_ne hmo] at h
      exact absurd h.symm hm
    · rw [hmo, rename_self, rename_of_ne hlo] at h
      exact absurd h hl
    · rwa [rename_of_ne hlo, rename_of_ne hmo] at h
  · exact congrArg _

/-- A block that is renamed, on both sides, gives what it gave. -/
theorem incoming?_rename (hvs : ∀ v ∈ vs, v.2 ≠ new) (hp : ∀ p ∈ pred, p ≠ new) :
    incoming? (vs.map fun v => (v.1, rename old new v.2)) (pred.map (rename old new)) = incoming? vs pred := by
  have hsame : ∀ v ∈ vs, (some (rename old new v.2) = pred.map (rename old new)) ↔ some v.2 = pred := by
    intro v hv
    cases pred with
    | none => simp
    | some p =>
      rw [Option.map_some, Option.some_inj, Option.some_inj]
      exact rename_eq_rename_iff (hvs v hv) (hp p rfl)
  rw [incoming?, List.find?_map, Option.map_map, incoming?]
  congr 1
  exact List.find?_congr fun v hv => decide_eq_decide.mpr (hsame v hv)

end Incoming

end Blocks
