import RigelCodegen.Lib.Chain
import RigelCodegen.Lib.Word

/-!
# High parts before low parts

With addends in place, the addend of a `%hi` is split between its field and that of a
`%lo`, which the linker takes to be the next one of the same symbol. So the
assembler moves each `%hi` that is not followed by its `%lo` right before the best one
(`frobFixup`). A later move may put another high part between the two, if it is for the
same address: `Paired` allows for that, and is what the moves keep
(`frobChain_frobbed`) and bring about (`frobChain_paired`).
-/

namespace Rigel.Reloc

open Chain

/-- The relocations that are told apart here, and the others. -/
inductive RelocCode where
  | hi16S | mips16Hi16S | got16 | lo16 | mips16Lo16 | vtableInherit | vtableEntry
  | other (n : Nat)
  deriving DecidableEq, Repr

/-- A symbol, by its number; sections have symbols too. -/
abbrev Symbol := Nat

/-- A section, by its number. -/
abbrev Seg := Nat

/-- A fixup, with its own address (`ptr`) and that of the field it is for. -/
structure FixS where
  ptr : Nat
  rType : RelocCode
  addsy : Option Symbol
  offset : Int
  address : Word32.Word
  deriving DecidableEq, Repr

/-- `HAVE_IN_PLACE_ADDENDS`, `mips_pic == VXWORKS_PIC`, and `pic_need_relax` for a
symbol and a section, which only counts for `GOT16`. -/
structure Options where
  haveInPlaceAddends : Bool
  vxworksPic : Bool
  picNeedRelax : Option Symbol → Seg → Bool

/-- `reloc_needs_lo_p`. -/
def relocNeedsLoP (opts : Options) (reloc : RelocCode) : Bool :=
  opts.haveInPlaceAddends && (reloc == .hi16S || reloc == .mips16Hi16S || (reloc == .got16 && !opts.vxworksPic))

/-- Whether a relocation is a low part. -/
def RelocCode.isLo : RelocCode → Bool
  | lo16 | mips16Lo16 => true
  | _ => false

/-- `fixup_has_matching_lo_p`, with the next fixup. -/
def fixupHasMatchingLoP (f : FixS) : Option FixS → Bool
  | none => false
  | some next => next.rType.isLo && f.addsy == next.addsy && f.offset == next.offset

/-- `fx_next`, in the chain of a section. -/
def fxNext : List FixS → Nat → Option FixS
  | [], _ => none
  | f :: c, p => if f.ptr = p then c.head? else fxNext c p

/-! ## Moving high parts -/

/-- Whether `f` is chosen as the low part of `l` over the one chosen so far; `matchedLoP` says
whether `f` has a high part right before it. -/
def isBetterLo (l f : FixS) (matchedLoP : Bool) (loPos : Option FixS) : Bool :=
  f.rType.isLo && f.addsy == l.addsy && decide (l.offset ≤ f.offset) &&
    match loPos with
    | none => true
    | some lo => decide (f.offset < lo.offset) || (!matchedLoP && f.offset == lo.offset)

/-- The loop of `mips_frob_file` over the chain of a section: the low part that is chosen for `l`. -/
def findLo (opts : Options) (l : FixS) : List FixS → Bool → Option FixS → Option FixS
  | [], _, loPos => loPos
  | f :: c, matchedLoP, loPos =>
    findLo opts l c (relocNeedsLoP opts f.rType && fixupHasMatchingLoP f c.head?)
      (if isBetterLo l f matchedLoP loPos then some f else loPos)

/-- A turn of the loop of `mips_frob_file`, for the fixup at `p`: the chain of its section. -/
def frobFixup (opts : Options) (seg : Seg) (c : List FixS) (p : Nat) : List FixS :=
  match c.find? (·.ptr == p) with
  | none => c
  | some l =>
    if l.rType == .got16 && !opts.picNeedRelax l.addsy seg then c
    else if fixupHasMatchingLoP l (fxNext c p) then c
    else
      match findLo opts l c false none with
      | none => c
      | some lo =>
        let l := { l with offset := lo.offset }
        if (fxNext c p).map (·.ptr) = some lo.ptr then c.map fun f => if f.ptr = p then l else f
        else moveBefore FixS.ptr lo.ptr l c

/-- `mips_frob_file`, for one section: the fixups of `mips_hi_fixup_list` that are in it. -/
def frobChain (opts : Options) (seg : Seg) (hiFixups : List Nat) (c : List FixS) : List FixS :=
  hiFixups.foldl (frobFixup opts seg) c

/-- A low part that a high part matches. -/
def Matches (l f : FixS) : Prop := f.rType.isLo = true ∧ f.addsy = l.addsy ∧ l.offset ≤ f.offset

instance (l f : FixS) : Decidable (Matches l f) := inferInstanceAs (Decidable (_ ∧ _ ∧ _))

theorem matches_of_isBetterLo {l f : FixS} {matchedLoP : Bool} {loPos : Option FixS}
    (hb : isBetterLo l f matchedLoP loPos = true) : Matches l f := by
  simp only [isBetterLo, Bool.and_eq_true, beq_iff_eq, decide_eq_true_eq] at hb
  exact ⟨hb.1.1.1, hb.1.1.2, hb.1.2⟩

/-- What is kept of a fixup and the choice so far is no worse than either. -/
theorem exists_kept_le {l f : FixS} (matchedLoP : Bool) {loPos : Option FixS} {g : FixS}
    (hg : (g = f ∧ Matches l f) ∨ loPos = some g) :
    ∃ lo, (if isBetterLo l f matchedLoP loPos then some f else loPos) = some lo ∧ lo.offset ≤ g.offset := by
  split
  · rename_i hb
    refine ⟨f, rfl, ?_⟩
    rcases hg with ⟨rfl, -⟩ | rfl
    · exact le_refl _
    · simp only [isBetterLo, Bool.and_eq_true, Bool.or_eq_true, decide_eq_true_eq, beq_iff_eq] at hb
      omega
  · rename_i hb
    rcases hg with ⟨rfl, hm⟩ | rfl
    · cases loPos with
      | none => simp [isBetterLo, hm.1, hm.2.1, hm.2.2] at hb
      | some lo =>
        refine ⟨lo, rfl, ?_⟩
        simp only [isBetterLo, hm.1, hm.2.1, hm.2.2, beq_self_eq_true, decide_true, Bool.and_true, Bool.true_and,
          Bool.or_eq_true, decide_eq_true_eq, not_or] at hb
        omega
    · exact ⟨g, rfl, le_refl _⟩

/-- The one that is chosen matches, and has the least offset of those that do; if none
is chosen, none does. -/
theorem findLo_spec (opts : Options) (l : FixS) (c : List FixS) (matchedLoP : Bool) (loPos : Option FixS)
    (h : ∀ lo, loPos = some lo → Matches l lo) :
    (∀ lo, findLo opts l c matchedLoP loPos = some lo →
      (lo ∈ c ∨ loPos = some lo) ∧ Matches l lo ∧ ∀ f, (f ∈ c ∧ Matches l f) ∨ loPos = some f →
        lo.offset ≤ f.offset) ∧
    (findLo opts l c matchedLoP loPos = none → loPos = none ∧ ∀ f ∈ c, ¬Matches l f) := by
  induction c generalizing matchedLoP loPos with
  | nil =>
    refine ⟨fun lo hlo => ?_, fun hn => ⟨hn, nofun⟩⟩
    have hlo : loPos = some lo := hlo
    refine ⟨.inr hlo, h lo hlo, fun f hf => ?_⟩
    rcases hf with ⟨hf, -⟩ | hf
    · cases hf
    · rw [Option.some.inj (hlo.symm.trans hf)]
  | cons f c ih =>
    have hnew : ∀ lo, (if isBetterLo l f matchedLoP loPos then some f else loPos) = some lo → Matches l lo := by
      intro lo hlo
      split at hlo
      · obtain rfl := Option.some.inj hlo
        exact matches_of_isBetterLo ‹_›
      · exact h lo hlo
    obtain ⟨hsome, hnone⟩ := ih (relocNeedsLoP opts f.rType && fixupHasMatchingLoP f c.head?) _ hnew
    refine ⟨fun lo hlo => ?_, fun hn => ?_⟩
    · obtain ⟨hmem, hmatch, hmin⟩ := hsome lo hlo
      have hkept {g : FixS} (hg : (g = f ∧ Matches l f) ∨ loPos = some g) : lo.offset ≤ g.offset := by
        obtain ⟨lo', hlo', hle'⟩ := exists_kept_le matchedLoP hg
        exact (hmin lo' (.inr hlo')).trans hle'
      refine ⟨?_, hmatch, fun g hg => ?_⟩
      · rcases hmem with hmem | hmem
        · exact .inl (List.mem_cons_of_mem _ hmem)
        · split at hmem
          · exact .inl (Option.some.inj hmem ▸ List.mem_cons_self ..)
          · exact .inr hmem
      · rcases hg with ⟨hg, hm⟩ | hg
        · rcases List.mem_cons.mp hg with rfl | hg
          · exact hkept (.inl ⟨rfl, hm⟩)
          · exact hmin g (.inl ⟨hg, hm⟩)
        · exact hkept (.inr hg)
    · obtain ⟨hnew', hc⟩ := hnone hn
      have hno {g : FixS} (hg : (g = f ∧ Matches l f) ∨ loPos = some g) : False := by
        obtain ⟨lo, hlo, -⟩ := exists_kept_le matchedLoP hg
        rw [hnew'] at hlo
        cases hlo
      refine ⟨Option.eq_none_iff_forall_ne_some.mpr fun g hg => hno (.inr hg), fun g hg hm => ?_⟩
      rcases List.mem_cons.mp hg with rfl | hg
      · exact hno (.inl ⟨rfl, hm⟩)
      · exact hc g hg hm

/-! ## What a high part leads to -/

/-- Fixups are told apart by their addresses. -/
def Distinct (c : List FixS) : Prop := (c.map FixS.ptr).Nodup

/-- Another high part for the same low part. -/
def Companion (opts : Options) (x z : FixS) : Prop :=
  relocNeedsLoP opts z.rType = true ∧ z.addsy = x.addsy ∧ z.offset = x.offset

/-- A low part for the same address. -/
def Partner (x y : FixS) : Prop := y.rType.isLo = true ∧ y.addsy = x.addsy ∧ y.offset = x.offset

/-- Only high parts for the same address stand between the fixup at `p` and a low part for it. -/
def Paired (opts : Options) (p : Nat) (c : List FixS) : Prop := Leads FixS.ptr (Companion opts) Partner p c

/-- A low part that matches, of the least offset. -/
structure IsBest (c : List FixS) (l f : FixS) : Prop where
  mem : f ∈ c
  matched : Matches l f
  least : ∀ g ∈ c, Matches l g → f.offset ≤ g.offset

theorem not_relocNeedsLoP_of_isLo (opts : Options) {reloc : RelocCode} (h : reloc.isLo = true) :
    relocNeedsLoP opts reloc = false := by
  cases reloc <;> simp_all [RelocCode.isLo, relocNeedsLoP]

theorem fixupHasMatchingLoP_iff {f : FixS} {next : Option FixS} :
    fixupHasMatchingLoP f next = true ↔ ∃ lo, next = some lo ∧ Partner f lo := by
  cases next with
  | none => simp [fixupHasMatchingLoP]
  | some lo =>
    simp [fixupHasMatchingLoP, Partner, and_assoc, eq_comm (a := f.addsy), eq_comm (a := f.offset)]

/-- The next of a fixup, by its place. -/
theorem fxNext_append {pre post : List FixS} {l : FixS} (h : ∀ f ∈ pre, f.ptr ≠ l.ptr) :
    fxNext (pre ++ l :: post) l.ptr = post.head? := by
  induction pre with
  | nil => simp [fxNext]
  | cons f pre ih =>
    rw [List.forall_mem_cons] at h
    rw [List.cons_append, fxNext, if_neg h.1, ih h.2]

/-- A fixup has one place. -/
theorem split_of_mem {c : List FixS} (hn : Distinct c) {l : FixS} (hl : l ∈ c) :
    ∃ pre post, c = pre ++ l :: post ∧ (∀ f ∈ pre, f.ptr ≠ l.ptr) ∧ ∀ f ∈ post, f.ptr ≠ l.ptr := by
  obtain ⟨pre, post, rfl⟩ := List.append_of_mem hl
  rw [Distinct, List.map_append, List.map_cons, List.nodup_middle, List.nodup_cons, ← List.map_append] at hn
  have h {f : FixS} (hf : f ∈ pre ++ post) : f.ptr ≠ l.ptr := fun e => hn.1 (e ▸ List.mem_map_of_mem hf)
  exact ⟨pre, post, rfl, fun f hf => h (List.mem_append_left _ hf), fun f hf => h (List.mem_append_right _ hf)⟩

theorem eq_of_ptr_eq {c : List FixS} (hn : Distinct c) {f g : FixS} (hf : f ∈ c) (hg : g ∈ c)
    (h : f.ptr = g.ptr) : f = g :=
  List.inj_on_of_nodup_map hn hf hg h

theorem find?_ptr {c : List FixS} (hn : Distinct c) {l : FixS} (hl : l ∈ c) :
    c.find? (·.ptr == l.ptr) = some l := by
  cases h : c.find? (·.ptr == l.ptr) with
  | none => exact absurd (List.find?_eq_none.mp h l hl) (by simp)
  | some f => rw [eq_of_ptr_eq hn (List.mem_of_find?_eq_some h) hl (by simpa using List.find?_some h)]

/-- A fixup right before its low part is paired. -/
theorem paired_of_fxNext (opts : Options) {c : List FixS} (hn : Distinct c) {l : FixS} (hl : l ∈ c)
    (h : fixupHasMatchingLoP l (fxNext c l.ptr) = true) : Paired opts l.ptr c := by
  obtain ⟨pre, post, rfl, hpre, -⟩ := split_of_mem hn hl
  rw [fxNext_append hpre] at h
  obtain ⟨lo, hlo, hp⟩ := fixupHasMatchingLoP_iff.mp h
  obtain ⟨post, rfl⟩ : ∃ post', post = lo :: post' := by
    cases post with
    | nil => cases hlo
    | cons f post => exact ⟨post, by rw [Option.some.inj hlo]⟩
  exact ⟨pre, l, lo :: post, rfl, rfl, .here hp⟩

/-- The low part that a paired fixup leads to. -/
theorem Paired.exists_partner {opts : Options} {p : Nat} {c : List FixS} (hn : Distinct c)
    (h : Paired opts p c) {l : FixS} (hl : l ∈ c) (hp : l.ptr = p) : ∃ lo ∈ c, Partner l lo := by
  obtain ⟨pre, x, post, rfl, hx, hf⟩ := h
  obtain rfl := eq_of_ptr_eq hn hl (List.mem_append_right _ (List.mem_cons_self ..)) (hp.trans hx.symm)
  have hsome (post : List FixS) (hf : Followed (Companion opts l) (Partner l) post) : ∃ lo ∈ post, Partner l lo := by
    induction hf with
    | here hy => exact ⟨_, List.mem_cons_self .., hy⟩
    | there _ _ ih =>
      obtain ⟨lo, hlo, hq⟩ := ih
      exact ⟨lo, List.mem_cons_of_mem _ hlo, hq⟩
  obtain ⟨lo, hlo, hq⟩ := hsome post hf
  exact ⟨lo, List.mem_append_right _ (List.mem_cons_of_mem _ hlo), hq⟩

/-- Putting a fixup before the one that follows it leaves it where it is. -/
theorem moveBefore_fxNext {c : List FixS} (hn : Distinct c) {l lo : FixS} (hl : l ∈ c) {o : Int}
    (hlo : (fxNext c l.ptr).map FixS.ptr = some lo.ptr) :
    (c.map fun f => if f.ptr = l.ptr then { l with offset := o } else f) =
      moveBefore FixS.ptr lo.ptr { l with offset := o } c := by
  obtain ⟨pre, post, rfl, hpre, hpost⟩ := split_of_mem hn hl
  rw [fxNext_append hpre] at hlo
  cases post with
  | nil => cases hlo
  | cons f post =>
    obtain hf : f.ptr = lo.ptr := Option.some.inj hlo
    have hmap {c : List FixS} (h : ∀ f ∈ c, f.ptr ≠ l.ptr) :
        (c.map fun f => if f.ptr = l.ptr then { l with offset := o } else f) = c :=
      (List.map_congr_left fun f hf => if_neg (h f hf)).trans (List.map_id' c)
    have hwithout {c : List FixS} (h : ∀ f ∈ c, f.ptr ≠ l.ptr) : without FixS.ptr l.ptr c = c :=
      List.filter_eq_self.mpr fun f hf => decide_eq_true (h f hf)
    have hfirst : ∀ g ∈ pre, g.ptr ≠ lo.ptr := by
      intro g hg e
      rw [Distinct, List.map_append, List.map_cons, List.map_cons, List.nodup_append] at hn
      exact hn.2.2 _ (List.mem_map_of_mem hg) lo.ptr (by simp [hf]) e
    have hrest : without FixS.ptr l.ptr (pre ++ l :: f :: post) = pre ++ f :: post := by
      rw [without_append, hwithout hpre, without, List.filter_cons_of_neg (by simp), ← without, hwithout hpost]
    calc (pre ++ l :: f :: post).map (fun f => if f.ptr = l.ptr then { l with offset := o } else f)
        = pre ++ { l with offset := o } :: f :: post := by
          rw [List.map_append, hmap hpre, List.map_cons, if_pos rfl, hmap hpost]
      _ = insertBefore FixS.ptr lo.ptr { l with offset := o } (pre ++ f :: post) := (insertBefore_eq hfirst hf).symm
      _ = moveBefore FixS.ptr lo.ptr { l with offset := o } (pre ++ l :: f :: post) := by rw [moveBefore, hrest]

/-- What a turn can do: nothing, or a move before the best low part. -/
theorem frobFixup_cases (opts : Options) (seg : Seg) {c : List FixS} (hn : Distinct c) {l : FixS} (hl : l ∈ c) :
    (frobFixup opts seg c l.ptr = c ∧ ((l.rType = .got16 ∧ opts.picNeedRelax l.addsy seg = false) ∨
      fixupHasMatchingLoP l (fxNext c l.ptr) = true ∨ ∀ f ∈ c, ¬Matches l f)) ∨
    ∃ lo, IsBest c l lo ∧ frobFixup opts seg c l.ptr = moveBefore FixS.ptr lo.ptr { l with offset := lo.offset } c :=
      by
  rw [frobFixup, find?_ptr hn hl]
  dsimp only
  split
  · rename_i h
    exact .inl ⟨rfl, .inl (by simpa using h)⟩
  · split
    · exact .inl ⟨rfl, .inr (.inl ‹_›)⟩
    · obtain ⟨hsome, hnone⟩ := findLo_spec opts l c false none (by simp)
      cases hlo : findLo opts l c false none with
      | none => exact .inl ⟨rfl, .inr (.inr (hnone hlo).2)⟩
      | some lo =>
        obtain ⟨hmem, hmatch, hmin⟩ := hsome lo hlo
        refine .inr ⟨lo, ⟨hmem.resolve_right (by simp), hmatch, fun g hg hm => hmin g (.inl ⟨hg, hm⟩)⟩, ?_⟩
        dsimp only
        split
        · exact moveBefore_fxNext hn hl ‹_›
        · rfl

/-- What the moves keep: the fixups, the order of those that are no high parts, the fixups that are paired; an
offset only becomes that of the best low part. -/
structure Frobbed (opts : Options) (c c' : List FixS) : Prop where
  ptrs : (c'.map FixS.ptr).Perm (c.map FixS.ptr)
  rest : (c'.filter fun f => !relocNeedsLoP opts f.rType) = c.filter fun f => !relocNeedsLoP opts f.rType
  kept : ∀ l ∈ c, ∃ l' ∈ c', l' = { l with offset := l'.offset } ∧
    (l'.offset = l.offset ∨ ∃ f, IsBest c l f ∧ l'.offset = f.offset)
  paired : ∀ p, Paired opts p c → Paired opts p c'

namespace Frobbed

variable {opts : Options}

theorem refl (c : List FixS) : Frobbed opts c c := ⟨.refl _, rfl, fun l hl => ⟨l, hl, rfl, .inl rfl⟩, fun _ h => h⟩

theorem nodup {c c' : List FixS} (h : Frobbed opts c c') (hn : Distinct c) : Distinct c' :=
  h.ptrs.nodup_iff.mpr hn

/-- The low parts are the same. -/
theorem mem_lo {c c' : List FixS} (h : Frobbed opts c c') {f : FixS} (hf : f.rType.isLo = true) : f ∈ c' ↔ f ∈ c := by
  have hmem (c : List FixS) : f ∈ c ↔ f ∈ c.filter fun f => !relocNeedsLoP opts f.rType := by
    simp [not_relocNeedsLoP_of_isLo opts hf]
  rw [hmem, hmem c, h.rest]

theorem isBest {c c' : List FixS} (h : Frobbed opts c c') {l f : FixS} : IsBest c' l f ↔ IsBest c l f := by
  refine ⟨fun hb => ?_, fun hb => ?_⟩
  · exact ⟨(h.mem_lo hb.matched.1).mp hb.mem, hb.matched, fun g hg hm => hb.least g ((h.mem_lo hm.1).mpr hg) hm⟩
  · exact ⟨(h.mem_lo hb.matched.1).mpr hb.mem, hb.matched, fun g hg hm => hb.least g ((h.mem_lo hm.1).mp hg) hm⟩

theorem trans {c c' c'' : List FixS} (h : Frobbed opts c c') (h' : Frobbed opts c' c'') : Frobbed opts c c'' := by
  refine ⟨h'.ptrs.trans h.ptrs, h'.rest.trans h.rest, fun l hl => ?_, fun p hp => h'.paired p (h.paired p hp)⟩
  obtain ⟨l', hl', he', ho'⟩ := h.kept l hl
  obtain ⟨l'', hl'', he'', ho''⟩ := h'.kept l' hl'
  refine ⟨l'', hl'', by rw [he'', he'], ?_⟩
  rcases ho'' with ho'' | ⟨g, hg, hgo⟩
  · rw [ho'']
    exact ho'
  · have hg := h.isBest.mp hg
    rcases ho' with ho' | ⟨f, hf, hfo⟩
    · have hll' : l' = l := by rw [he', ho']
      exact .inr ⟨g, hll' ▸ hg, hgo⟩
    · -- the best low part is still the best once the offset is its own
      have hsy : l'.addsy = l.addsy := by rw [he']
      refine .inr ⟨f, hf, hgo.trans (le_antisymm (hg.least f hf.mem ⟨hf.matched.1, ?_, le_of_eq hfo⟩) ?_)⟩
      · rw [hsy]
        exact hf.matched.2.1
      · rw [← hfo]
        exact hg.matched.2.2

/-- Each fixup was one before, of the same type. -/
theorem origin {c c' : List FixS} (h : Frobbed opts c c') (hn : Distinct c) {l' : FixS} (hl' : l' ∈ c') :
    ∃ l ∈ c, l' = { l with offset := l'.offset } := by
  obtain ⟨l, hl, hp⟩ := List.mem_map.mp (h.ptrs.mem_iff.mp (List.mem_map_of_mem hl'))
  obtain ⟨l'', hl'', he, -⟩ := h.kept l hl
  obtain rfl : l'' = l' := eq_of_ptr_eq (h.nodup hn) hl'' hl' (by rw [he]; exact hp)
  exact ⟨l, hl, he⟩

end Frobbed

theorem paired_moveBefore {opts : Options} {c : List FixS} (hn : Distinct c) {l lo : FixS} (hbest : IsBest c l lo)
    (hne : lo.ptr ≠ l.ptr) : Paired opts l.ptr (moveBefore FixS.ptr lo.ptr { l with offset := lo.offset } c) := by
  refine leads_moveBefore (x := { l with offset := lo.offset }) hbest.mem rfl hne fun z hz hzp => ?_
  rw [eq_of_ptr_eq hn hz hbest.mem hzp]
  exact ⟨hbest.matched.1, hbest.matched.2.1, rfl⟩

/-- A high part is not its low part. -/
theorem IsBest.ptr_ne {opts : Options} {c : List FixS} (hn : Distinct c) {l lo : FixS} (hbest : IsBest c l lo)
    (hl : l ∈ c) (hhigh : relocNeedsLoP opts l.rType = true) : lo.ptr ≠ l.ptr := fun e => by
  have hlo := not_relocNeedsLoP_of_isLo opts hbest.matched.1
  rw [eq_of_ptr_eq hn hbest.mem hl e, hhigh] at hlo
  cases hlo

/-- The step: a turn for a high part. -/
theorem frobFixup_frobbed (opts : Options) (seg : Seg) {c : List FixS} (hn : Distinct c) {l : FixS} (hl : l ∈ c)
    (hhigh : relocNeedsLoP opts l.rType = true) : Frobbed opts c (frobFixup opts seg c l.ptr) := by
  rcases frobFixup_cases opts seg hn hl with ⟨h, -⟩ | ⟨lo, hbest, h⟩
  · rw [h]
    exact .refl c
  rw [h]
  have hnotHigh {f : FixS} (hf : f.rType.isLo = true) : ¬relocNeedsLoP opts f.rType = true := by
    simp [not_relocNeedsLoP_of_isLo opts hf]
  have hne := hbest.ptr_ne hn hl hhigh
  have hother {f : FixS} (hf : f ∈ c) (hp : f.ptr = l.ptr) : f = l := eq_of_ptr_eq hn hf hl hp
  have hlo {f : FixS} (hf : f ∈ c) (hp : f.ptr = lo.ptr) : f = lo := eq_of_ptr_eq hn hf hbest.mem hp
  let l' := { l with offset := lo.offset }
  have hwithout : without FixS.ptr l.ptr (moveBefore FixS.ptr lo.ptr l' c) = without FixS.ptr l.ptr c :=
    without_moveBefore (x := l')
  have hperm : (moveBefore FixS.ptr lo.ptr l' c).Perm (l' :: without FixS.ptr l.ptr c) :=
    perm_moveBefore (x := l') hbest.mem rfl hne
  refine ⟨map_key_moveBefore hn hl rfl hbest.mem rfl hne, ?_, fun f hf => ?_, fun p hp => ?_⟩
  · -- the high part is the only one whose place changes
    have hsame (c' : List FixS) (h : ∀ f ∈ c', f.ptr = l.ptr → relocNeedsLoP opts f.rType = true) :
        (c'.filter fun f => !relocNeedsLoP opts f.rType) =
          (without FixS.ptr l.ptr c').filter fun f => !relocNeedsLoP opts f.rType := by
      rw [without, List.filter_filter]
      refine List.filter_congr fun f hf => ?_
      by_cases hp : f.ptr = l.ptr
      · simp [h f hf hp]
      · simp [hp]
    rw [hsame c fun f hf hp => hother hf hp ▸ hhigh, hsame _ fun f hf hp => ?_]
    · exact congrArg _ hwithout
    · rcases List.mem_cons.mp (hperm.mem_iff.mp hf) with rfl | hf
      · exact hhigh
      · exact absurd hp (mem_without.mp hf).2
  · by_cases hp : f.ptr = l.ptr
    · obtain rfl := hother hf hp
      exact ⟨_, hperm.mem_iff.mpr (List.mem_cons_self ..), rfl, .inr ⟨lo, hbest, rfl⟩⟩
    · exact ⟨f, hperm.mem_iff.mpr (List.mem_cons_of_mem _ (mem_without.mpr ⟨hf, hp⟩)), rfl, .inl rfl⟩
  · by_cases hpl : p = l.ptr
    · subst hpl
      exact paired_moveBefore hn hbest hne
    · exact hp.moveBefore hpl (fun y hy e h _ hq => hnotHigh (hother hy e ▸ hq.1) hhigh)
        (fun y hy e h _ hq => hnotHigh (hlo hy e ▸ hbest.matched.1) hq.1)
        fun h _ y hy e hq => ⟨hhigh, by rw [← hq.2.1, hlo hy e, hbest.matched.2.1], by rw [← hq.2.2, hlo hy e]⟩

/-- After its turn a high part is paired, if there is a low part. -/
theorem frobFixup_paired (opts : Options) (seg : Seg) {c : List FixS} (hn : Distinct c) {l f : FixS} (hl : l ∈ c)
    (hhigh : relocNeedsLoP opts l.rType = true) (hgot : l.rType = .got16 → opts.picNeedRelax l.addsy seg = true)
    (hf : f ∈ c) (hm : Matches l f) : Paired opts l.ptr (frobFixup opts seg c l.ptr) := by
  rcases frobFixup_cases opts seg hn hl with ⟨h, ⟨hg, hp⟩ | hnext | hnone⟩ | ⟨lo, hbest, h⟩
  · rw [hgot hg] at hp
    cases hp
  · rw [h]
    exact paired_of_fxNext opts hn hl hnext
  · exact absurd hm (hnone f hf)
  · rw [h]
    exact paired_moveBefore hn hbest (hbest.ptr_ne hn hl hhigh)

/-- A turn for a pointer that may be that of no fixup of the chain. -/
theorem frobFixup_frobbed_of_ptr (opts : Options) (seg : Seg) {c : List FixS} (hn : Distinct c) {p : Nat}
    (hhigh : ∀ l ∈ c, l.ptr = p → relocNeedsLoP opts l.rType = true) : Frobbed opts c (frobFixup opts seg c p) := by
  by_cases h : ∃ l ∈ c, l.ptr = p
  · obtain ⟨l, hl, rfl⟩ := h
    exact frobFixup_frobbed opts seg hn hl (hhigh l hl rfl)
  · have hnone : c.find? (·.ptr == p) = none :=
      List.find?_eq_none.mpr fun l hl hp => h ⟨l, hl, by simpa using hp⟩
    rw [frobFixup, hnone]
    exact .refl c

theorem Frobbed.high {opts : Options} {c c' : List FixS} (h : Frobbed opts c c') (hn : Distinct c) {p : Nat}
    (hhigh : ∀ l ∈ c, l.ptr = p → relocNeedsLoP opts l.rType = true) :
    ∀ l ∈ c', l.ptr = p → relocNeedsLoP opts l.rType = true := by
  intro l' hl' hp
  obtain ⟨l, hl, he⟩ := h.origin hn hl'
  rw [he] at hp ⊢
  exact hhigh l hl hp

/-- The run: a turn for each of a list of high parts. -/
theorem frobChain_frobbed (opts : Options) (seg : Seg) (ps : List Nat) {c : List FixS} (hn : Distinct c)
    (hhigh : ∀ p ∈ ps, ∀ l ∈ c, l.ptr = p → relocNeedsLoP opts l.rType = true) :
    Frobbed opts c (frobChain opts seg ps c) := by
  induction ps generalizing c with
  | nil => exact .refl c
  | cons p ps ih =>
    rw [List.forall_mem_cons] at hhigh
    have h := frobFixup_frobbed_of_ptr opts seg hn hhigh.1
    exact h.trans (ih (h.nodup hn) fun q hq => h.high hn (hhigh.2 q hq))

/-- Each high part of the list is paired in the end, if there is a low part. -/
theorem frobChain_paired (opts : Options) (seg : Seg) (ps : List Nat) {c : List FixS} (hn : Distinct c)
    (hhigh : ∀ p ∈ ps, ∀ l ∈ c, l.ptr = p → relocNeedsLoP opts l.rType = true) {l f : FixS} (hl : l ∈ c)
    (hps : l.ptr ∈ ps) (hgot : l.rType = .got16 → opts.picNeedRelax l.addsy seg = true) (hf : f ∈ c)
    (hm : Matches l f) :
    Paired opts l.ptr (frobChain opts seg ps c) := by
  induction ps generalizing c l f with
  | nil => cases hps
  | cons p ps ih =>
    have hhigh' := List.forall_mem_cons.mp hhigh
    have h := frobFixup_frobbed_of_ptr opts seg hn hhigh'.1
    have hrest : ∀ q ∈ ps, ∀ l ∈ frobFixup opts seg c p, l.ptr = q → relocNeedsLoP opts l.rType = true := fun q hq =>
      h.high hn (hhigh'.2 q hq)
    by_cases hp : l.ptr = p
    · subst hp
      exact (frobChain_frobbed opts seg ps (h.nodup hn) hrest).paired _
        (frobFixup_paired opts seg hn hl (hhigh'.1 l hl rfl) hgot hf hm)
    · obtain ⟨l', hl', he, ho⟩ := h.kept l hl
      obtain ⟨f', hf', hm'⟩ : ∃ f' ∈ frobFixup opts seg c p, Matches l' f' := by
        rw [he]
        rcases ho with ho | ⟨f', hbest, ho⟩
        · exact ⟨f, (h.mem_lo hm.1).mpr hf, hm.1, hm.2.1, ho ▸ hm.2.2⟩
        · exact ⟨f', (h.mem_lo hbest.matched.1).mpr hbest.mem, hbest.matched.1, hbest.matched.2.1, le_of_eq ho⟩
      have hptr : l'.ptr = l.ptr := by rw [he]
      have hpaired := ih (h.nodup hn) hrest hl' (hptr ▸ (List.mem_cons.mp hps).resolve_left hp)
        (fun hg => by rw [he] at hg ⊢; exact hgot hg) hf' hm'
      rw [hptr] at hpaired
      exact hpaired

end Rigel.Reloc
