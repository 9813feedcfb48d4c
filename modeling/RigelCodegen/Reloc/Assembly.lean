import RigelCodegen.Reloc.Fixup

/-!
# Fixups of an assembly

From the fixups that the code of a file asks for, in any order and with any
switching of sections (`appendFixup`), to those that are written out: the chains
of the subsections are put together, symbols are replaced by sections
(`adjustRelocSyms`), and high parts are moved (`mipsFrobFile`).

`frob_pairs` says that this works out: each high part that has a low part to match
stands before one with the same symbol and offset, with nothing but other high
parts for the same address between the two; and nothing else is reordered.
`adjustRelocSym_target` says that no fixup changes the address it is for.
-/

namespace Rigel.Reloc

open Chain

/-- A section and a subsection of it, which has a chain of its own (`frchain_now`). -/
abbrev FrChain := Seg × Nat

/-- A call of `fix_new`, with the subsection that is the current one. -/
structure NewFix where
  frchain : FrChain
  rType : RelocCode
  addsy : Option Symbol
  offset : Int
  address : Word32.Word
  deriving DecidableEq, Repr

def NewFix.fixS (n : NewFix) (ptr : Nat) : FixS := ⟨ptr, n.rType, n.addsy, n.offset, n.address⟩

/-- The chains, and `mips_hi_fixup_list`, whose newest entry is first: the address of a fixup, and the
chain that it is in. -/
structure Assembly where
  frchains : FrChain → List FixS
  hiFixups : List (Nat × FrChain)
  nextPtr : Nat

def Assembly.start : Assembly := ⟨fun _ => [], [], 0⟩

/-- `fixup_has_matching_lo_p`, by the address of the fixup. -/
def hasMatchingLo (c : List FixS) (p : Nat) : Bool :=
  match c.find? (·.ptr == p) with
  | none => false
  | some f => fixupHasMatchingLoP f (fxNext c p)

/-- `append_insn` with a relocation: the new fixup goes to the end of its chain, and a high part to the list. The
last entry is reused if it already has a matching low part. -/
def appendFixup (opts : Options) (st : Assembly) (n : NewFix) : Assembly :=
  let fixp := n.fixS st.nextPtr
  let frchains := Function.update st.frchains n.frchain (st.frchains n.frchain ++ [fixp])
  let hiFixups :=
    if relocNeedsLoP opts n.rType then
      match st.hiFixups with
      | [] => [(fixp.ptr, n.frchain)]
      | hi :: rest => (fixp.ptr, n.frchain) :: if hasMatchingLo (frchains hi.2) hi.1 then rest else hi :: rest
    else st.hiFixups
  ⟨frchains, hiFixups, st.nextPtr + 1⟩

/-- The fixups of a file. -/
def assemble (opts : Options) (ns : List NewFix) : Assembly := ns.foldl (appendFixup opts) .start

/-- `chain_frchains_together`: the chain of a section with these subsections. -/
def Assembly.chain (st : Assembly) (subs : Seg → List Nat) (seg : Seg) : List FixS :=
  (subs seg).flatMap fun sub => st.frchains (seg, sub)

/-! ## Replacing symbols by sections -/

/-- What is asked of a symbol: `symbol_equated_reloc_p` or `S_IS_WEAKREFR`, `X_add_symbol` and
`X_add_number` of its value, `symbol_mri_common_p`, `S_FORCE_RELOC`, whether it or a jump to it is MIPS16
code, `symbol_section_p`, `S_GET_SEGMENT`, `S_IS_LOCAL` and `S_GET_VALUE`. -/
structure SymbolInfo where
  equated : Bool
  addSymbol : Symbol
  addNumber : Int
  mriCommon : Bool
  forceReloc : Bool
  mips16 : Bool
  isSection : Bool
  segment : Seg
  isLocal : Bool
  value : Int
  deriving Repr

/-- What is asked of a section: its symbol, whether it is the absolute one, `SEC_LINK_ONCE` or a name with
`.gnu.linkonce`, `SEC_MERGE`, `SEC_THREAD_LOCAL`. -/
structure SegmentInfo where
  symbol : Symbol
  isAbs : Bool
  linkOnce : Bool
  merge : Bool
  threadLocal : Bool
  deriving Repr

/-- The symbols and sections of a file. -/
structure Tables where
  symbols : Symbol → SymbolInfo
  segments : Seg → SegmentInfo

/-- The loop over equated symbols, for `n` turns; `resolve_symbol_value` has made sure that it ends. -/
def followEquated (t : Tables) : Nat → Symbol → Int → Symbol × Int
  | 0, sym, offset => (sym, offset)
  | n + 1, sym, offset =>
    let info := t.symbols sym
    if info.equated && decide (info.addSymbol ≠ sym) then followEquated t n info.addSymbol (offset + info.addNumber)
    else (sym, offset)

/-- `mips_fix_adjustable`. The addends of a high part and of its low part are only good together, so
both keep a symbol in a mergeable section. -/
def mipsFixAdjustable (opts : Options) (t : Tables) (f : FixS) : Bool :=
  if f.rType = .vtableInherit ∨ f.rType = .vtableEntry then false
  else
    match f.addsy with
    | none => true
    | some sym =>
      let info := t.symbols sym
      if (f.rType.isLo || relocNeedsLoP opts f.rType) && opts.haveInPlaceAddends && (t.segments info.segment).merge
      then false
      else !info.mips16

/-- The checks of `adjust_reloc_syms` after which a symbol is kept: it is undefined, common, weak or global, the
target says so, it is that of a section, absolute, in a link-once section from elsewhere, not at the start of
what may be merged, or thread-local. -/
def keepsSymbol (opts : Options) (t : Tables) (seg : Seg) (f : FixS) (info : SymbolInfo) : Bool :=
  let symsec := t.segments info.segment
  info.forceReloc || !mipsFixAdjustable opts t f || info.isSection || symsec.isAbs ||
    (decide (info.segment ≠ seg) && !info.isLocal && symsec.linkOnce) || (symsec.merge && decide (f.offset ≠ 0)) ||
    symsec.threadLocal

/-- A turn of the loop of `adjust_reloc_syms`, in the section `seg`. -/
def adjustRelocSym (opts : Options) (t : Tables) (n : Nat) (seg : Seg) (f : FixS) : FixS :=
  match f.addsy with
  | none => f
  | some sym =>
    let (sym, offset) := followEquated t n sym f.offset
    let f := { f with addsy := some sym, offset := offset }
    let info := t.symbols sym
    if info.mriCommon then { f with addsy := some info.addSymbol, offset := f.offset + info.value }
    else if keepsSymbol opts t seg f info then f
    else { f with addsy := some (t.segments info.segment).symbol, offset := f.offset + info.value }

/-- `mips_frob_file`, over the chains of all sections. -/
def mipsFrobFile (opts : Options) (hiFixups : List (Nat × FrChain)) (chains : Seg → List FixS) : Seg → List FixS :=
  hiFixups.foldl (fun chains e => Function.update chains e.2.1 (frobFixup opts e.2.1 (chains e.2.1) e.1)) chains

/-- The chain of a section once symbols are replaced. -/
def adjustedChain (opts : Options) (t : Tables) (n : Nat) (subs : Seg → List Nat) (ns : List NewFix) (seg : Seg) :
    List FixS :=
  ((assemble opts ns).chain subs seg).map (adjustRelocSym opts t n seg)

/-- The chains that relocations are written for. -/
def writtenChain (opts : Options) (t : Tables) (n : Nat) (subs : Seg → List Nat) (ns : List NewFix) :
    Seg → List FixS :=
  mipsFrobFile opts (assemble opts ns).hiFixups (adjustedChain opts t n subs ns)

/-! ## What reading keeps -/

/-- A high part is in the list, or right before its low part; what is in the list is a high part. -/
structure Assembly.Inv (opts : Options) (st : Assembly) : Prop where
  lt : ∀ k, ∀ f ∈ st.frchains k, f.ptr < st.nextPtr
  own : ∀ k k', ∀ f ∈ st.frchains k, ∀ g ∈ st.frchains k', f.ptr = g.ptr → k = k'
  distinct : ∀ k, Distinct (st.frchains k)
  listed : ∀ k, ∀ f ∈ st.frchains k, relocNeedsLoP opts f.rType = true →
    (f.ptr, k) ∈ st.hiFixups ∨ Paired opts f.ptr (st.frchains k)
  entries : ∀ e ∈ st.hiFixups, ∃ f ∈ st.frchains e.2, f.ptr = e.1 ∧ relocNeedsLoP opts f.rType = true

theorem Assembly.Inv.start (opts : Options) : Assembly.start.Inv opts :=
  ⟨nofun, nofun, fun _ => List.nodup_nil, nofun, nofun⟩

/-- A fixup that is found to have a matching low part is paired. -/
theorem paired_of_hasMatchingLo {opts : Options} {c : List FixS} (hn : Distinct c) {p : Nat}
    (h : hasMatchingLo c p = true) : Paired opts p c := by
  rw [hasMatchingLo] at h
  split at h
  · cases h
  · rename_i f hf
    obtain rfl : f.ptr = p := by simpa using List.find?_some hf
    exact paired_of_fxNext opts hn (List.mem_of_find?_eq_some hf) h

/-- Where the fixups of the next state are from. -/
theorem mem_appendFixup {opts : Options} {st : Assembly} {n : NewFix} {k : FrChain} {f : FixS} :
    f ∈ (appendFixup opts st n).frchains k ↔ f ∈ st.frchains k ∨ (k = n.frchain ∧ f = n.fixS st.nextPtr) := by
  rw [appendFixup]
  dsimp only
  by_cases hk : k = n.frchain
  · subst hk
    simp
  · simp [hk]

/-- The entries of the next state are from. -/
theorem mem_hiFixups {opts : Options} {st : Assembly} {n : NewFix} {e : Nat × FrChain}
    (h : e ∈ (appendFixup opts st n).hiFixups) :
    e ∈ st.hiFixups ∨ (relocNeedsLoP opts n.rType = true ∧ e = (st.nextPtr, n.frchain)) := by
  rw [appendFixup] at h
  dsimp only at h
  split at h
  · split at h
    · exact .inr ⟨‹_›, List.mem_singleton.mp h⟩
    · rename_i hi rest heq
      rcases List.mem_cons.mp h with h | h
      · exact .inr ⟨‹_›, h⟩
      · rw [heq]
        split at h
        · exact .inl (List.mem_cons_of_mem _ h)
        · exact .inl h
  · exact .inl h

/-- An entry is only left out for a high part right before its low part. -/
theorem mem_hiFixups_appendFixup {opts : Options} {st : Assembly} {n : NewFix} {e : Nat × FrChain}
    (h : e ∈ st.hiFixups) : e ∈ (appendFixup opts st n).hiFixups ∨
      hasMatchingLo ((appendFixup opts st n).frchains e.2) e.1 = true := by
  rw [appendFixup]
  dsimp only
  split
  · split
    · rename_i heq
      rw [heq] at h
      cases h
    · rename_i hi rest heq
      rw [heq] at h
      split
      · rcases List.mem_cons.mp h with rfl | h
        · exact .inr ‹_›
        · exact .inl (List.mem_cons_of_mem _ h)
      · exact .inl (List.mem_cons_of_mem _ h)
  · exact .inl h

theorem mem_hiFixups_self {opts : Options} {st : Assembly} {n : NewFix} (h : relocNeedsLoP opts n.rType = true) :
    (st.nextPtr, n.frchain) ∈ (appendFixup opts st n).hiFixups := by
  rw [appendFixup]
  dsimp only
  rw [if_pos h]
  split <;> exact List.mem_cons_self ..

/-- The step: one more fixup. -/
theorem Assembly.Inv.appendFixup {opts : Options} {st : Assembly} (h : st.Inv opts) (n : NewFix) :
    (appendFixup opts st n).Inv opts := by
  have hchain (k : FrChain) : ∃ l, (Reloc.appendFixup opts st n).frchains k = st.frchains k ++ l := by
    by_cases hk : k = n.frchain
    · subst hk
      exact ⟨[n.fixS st.nextPtr], by simp [Reloc.appendFixup]⟩
    · exact ⟨[], by simp [Reloc.appendFixup, Function.update_of_ne hk]⟩
  have hold {k : FrChain} {f : FixS} (hf : f ∈ st.frchains k) : f ∈ (Reloc.appendFixup opts st n).frchains k :=
    mem_appendFixup.mpr (.inl hf)
  have hfresh {k : FrChain} {f : FixS} (hf : f ∈ st.frchains k) : f.ptr ≠ (n.fixS st.nextPtr).ptr :=
    Nat.ne_of_lt (h.lt k f hf)
  have hdistinct (k : FrChain) : Distinct ((Reloc.appendFixup opts st n).frchains k) := by
    by_cases hk : k = n.frchain
    · subst hk
      have hnew : n.fixS st.nextPtr ∉ st.frchains n.frchain := fun hf => hfresh hf rfl
      simp only [Reloc.appendFixup, Function.update_self, Distinct, List.map_append, List.map_cons, List.map_nil]
      refine List.nodup_append.mpr ⟨h.distinct _, List.nodup_singleton _, fun p hp q hq => ?_⟩
      obtain ⟨f, hf, rfl⟩ := List.mem_map.mp hp
      rw [List.mem_singleton.mp hq]
      exact hfresh hf
    · simp only [Reloc.appendFixup, Function.update_of_ne hk]
      exact h.distinct k
  refine ⟨fun k f hf => ?_, fun k k' f hf g hg he => ?_, hdistinct, fun k f hf hhigh => ?_, fun e he => ?_⟩
  · rcases mem_appendFixup.mp hf with hf | ⟨-, rfl⟩
    · exact Nat.lt_succ_of_lt (h.lt k f hf)
    · exact Nat.lt_succ_self _
  · rcases mem_appendFixup.mp hf with hf | ⟨rfl, rfl⟩ <;> rcases mem_appendFixup.mp hg with hg | ⟨rfl, rfl⟩
    · exact h.own k k' f hf g hg he
    · exact absurd he (hfresh hf)
    · exact absurd he.symm (hfresh hg)
    · rfl
  · rcases mem_appendFixup.mp hf with hf | ⟨rfl, rfl⟩
    · rcases h.listed k f hf hhigh with hl | hl
      · exact (mem_hiFixups_appendFixup hl).imp_right (paired_of_hasMatchingLo (hdistinct k))
      · obtain ⟨l, hl'⟩ := hchain k
        rw [hl']
        exact .inr (hl.append [] l)
    · exact .inl (mem_hiFixups_self hhigh)
  · rcases mem_hiFixups he with he | ⟨hhigh, rfl⟩
    · obtain ⟨f, hf, hp⟩ := h.entries e he
      exact ⟨f, hold hf, hp⟩
    · exact ⟨n.fixS st.nextPtr, mem_appendFixup.mpr (.inr ⟨rfl, rfl⟩), rfl, hhigh⟩

/-- The run: all fixups of a file. -/
theorem assemble_inv (opts : Options) (ns : List NewFix) : (assemble opts ns).Inv opts := by
  suffices h : ∀ st : Assembly, st.Inv opts → (ns.foldl (appendFixup opts) st).Inv opts from h _ (.start opts)
  induction ns with
  | nil => exact fun st h => h
  | cons n ns ih => exact fun st h => ih _ (h.appendFixup n)

/-- The chains of the subsections, one after the other. -/
theorem Assembly.Inv.distinct_chain {opts : Options} {st : Assembly} (h : st.Inv opts) {subs : Seg → List Nat}
    {seg : Seg}
    (hsubs : (subs seg).Nodup) : Distinct (st.chain subs seg) := by
  rw [Distinct, Assembly.chain, List.map_flatMap]
  refine List.nodup_flatMap.mpr ⟨fun sub _ => h.distinct (seg, sub), hsubs.imp fun {a b} hab => ?_⟩
  intro p hp hp'
  obtain ⟨f, hf, rfl⟩ := List.mem_map.mp hp
  obtain ⟨g, hg, hgf⟩ := List.mem_map.mp hp'
  exact hab (Prod.ext_iff.mp (h.own _ _ f hf g hg hgf.symm)).2

theorem Assembly.Inv.listed_chain {opts : Options} {st : Assembly} (h : st.Inv opts) {subs : Seg → List Nat}
    {seg : Seg}
    {f : FixS} (hf : f ∈ st.chain subs seg) (hhigh : relocNeedsLoP opts f.rType = true) :
    (∃ sub, (f.ptr, seg, sub) ∈ st.hiFixups) ∨ Paired opts f.ptr (st.chain subs seg) := by
  obtain ⟨sub, hsub, hf⟩ := List.mem_flatMap.mp hf
  rcases h.listed _ f hf hhigh with hl | hl
  · exact .inl ⟨sub, hl⟩
  · obtain ⟨l₁, l₂, he⟩ := List.append_of_mem hsub
    rw [Assembly.chain, he, List.flatMap_append, List.flatMap_cons, ← List.append_assoc]
    exact .inr (hl.append _ _)

/-- The halves of a pair. -/
def RelocCode.isHalf (opts : Options) (reloc : RelocCode) : Bool := reloc.isLo || relocNeedsLoP opts reloc

theorem adjustRelocSym_ptr (opts : Options) (t : Tables) (n : Nat) (seg : Seg) (f : FixS) :
    (adjustRelocSym opts t n seg f).ptr = f.ptr ∧ (adjustRelocSym opts t n seg f).rType = f.rType ∧
      (adjustRelocSym opts t n seg f).address = f.address := by
  rw [adjustRelocSym]
  split
  · exact ⟨rfl, rfl, rfl⟩
  · dsimp only
    split
    · exact ⟨rfl, rfl, rfl⟩
    · split <;> exact ⟨rfl, rfl, rfl⟩

/-- The halves of a pair are adjustable alike. -/
theorem mipsFixAdjustable_congr {opts : Options} (t : Tables) {f g : FixS} (hf : f.rType.isHalf opts = true)
    (hg : g.rType.isHalf opts = true) (hs : f.addsy = g.addsy) :
    mipsFixAdjustable opts t f = mipsFixAdjustable opts t g := by
  have hvt {r : RelocCode} (h : r.isHalf opts = true) : ¬(r = .vtableInherit ∨ r = .vtableEntry) := by
    rintro (rfl | rfl) <;> simp [RelocCode.isHalf, RelocCode.isLo, relocNeedsLoP] at h
  rw [mipsFixAdjustable, mipsFixAdjustable, if_neg (hvt hf), if_neg (hvt hg), hs]
  cases g.addsy with
  | none => rfl
  | some sym =>
    rw [RelocCode.isHalf] at hf hg
    simp only [hf, hg]

theorem keepsSymbol_congr {opts : Options} (t : Tables) (seg : Seg) (info : SymbolInfo) {f g : FixS}
    (hf : f.rType.isHalf opts = true) (hg : g.rType.isHalf opts = true) (hs : f.addsy = g.addsy)
    (ho : f.offset = g.offset) :
    keepsSymbol opts t seg f info = keepsSymbol opts t seg g info := by
  rw [keepsSymbol, keepsSymbol, mipsFixAdjustable_congr t hf hg hs, ho]

/-- The halves of a pair stay one: their symbols are replaced alike. -/
theorem adjustRelocSym_congr {opts : Options} (t : Tables) (n : Nat) (seg : Seg) {f g : FixS}
    (hf : f.rType.isHalf opts = true) (hg : g.rType.isHalf opts = true) (hs : f.addsy = g.addsy)
    (ho : f.offset = g.offset) :
    (adjustRelocSym opts t n seg f).addsy = (adjustRelocSym opts t n seg g).addsy ∧
      (adjustRelocSym opts t n seg f).offset = (adjustRelocSym opts t n seg g).offset := by
  rw [adjustRelocSym, adjustRelocSym, hs]
  cases hsym : g.addsy with
  | none => exact ⟨hs.trans rfl, ho⟩
  | some sym =>
    dsimp only
    rw [ho]
    obtain ⟨sym', offset'⟩ := followEquated t n sym g.offset
    dsimp only
    rw [keepsSymbol_congr t seg _ (f := { f with addsy := some sym', offset := offset' })
      (g := { g with addsy := some sym', offset := offset' }) hf hg rfl rfl]
    split
    · exact ⟨rfl, rfl⟩
    · split <;> exact ⟨rfl, rfl⟩

/-- Addresses of symbols that agree with the tables: an equated symbol is where its value says,
a symbol that is defined in a section is its value away from that of the section. -/
structure Tables.Placed (t : Tables) (addr : Symbol → Word32.Word) : Prop where
  equated : ∀ sym, (t.symbols sym).equated = true →
    addr sym = addr (t.symbols sym).addSymbol + BitVec.ofInt 32 (t.symbols sym).addNumber
  mriCommon : ∀ sym, (t.symbols sym).mriCommon = true →
    addr sym = addr (t.symbols sym).addSymbol + BitVec.ofInt 32 (t.symbols sym).value
  defined : ∀ sym, (t.symbols sym).mriCommon = false → (t.symbols sym).forceReloc = false →
    (t.symbols sym).isSection = false → (t.segments (t.symbols sym).segment).isAbs = false →
    (t.segments (t.symbols sym).segment).threadLocal = false →
    addr sym = addr (t.segments (t.symbols sym).segment).symbol + BitVec.ofInt 32 (t.symbols sym).value

/-- The address that a fixup is for. -/
def FixS.target (addr : Symbol → Word32.Word) (f : FixS) : Word32.Word :=
  (match f.addsy with
    | none => 0
    | some sym => addr sym) + BitVec.ofInt 32 f.offset

theorem add_ofInt_comm (a : Word32.Word) (x y : Int) :
    a + BitVec.ofInt 32 y + BitVec.ofInt 32 x = a + BitVec.ofInt 32 (x + y) := by
  rw [BitVec.ofInt_add, BitVec.add_assoc, BitVec.add_comm (BitVec.ofInt 32 y)]

theorem followEquated_address {t : Tables} {addr : Symbol → Word32.Word} (h : t.Placed addr) (n : Nat) (sym : Symbol)
    (offset : Int) : addr (followEquated t n sym offset).1 + BitVec.ofInt 32 (followEquated t n sym offset).2 =
      addr sym + BitVec.ofInt 32 offset := by
  induction n generalizing sym offset with
  | zero => rfl
  | succ n ih =>
    rw [followEquated]
    split
    · rename_i he
      rw [Bool.and_eq_true] at he
      rw [ih, h.equated sym he.1, add_ofInt_comm]
    · rfl

/-- No fixup changes the address that it is for. -/
theorem adjustRelocSym_target {t : Tables} {addr : Symbol → Word32.Word} (h : t.Placed addr) (opts : Options)
    (n : Nat)
    (seg : Seg) (f : FixS) : (adjustRelocSym opts t n seg f).target addr = f.target addr := by
  rw [adjustRelocSym]
  split
  · rfl
  · rename_i sym hsym
    have hequated := followEquated_address h n sym f.offset
    generalize followEquated t n sym f.offset = e at hequated ⊢
    obtain ⟨sym', offset'⟩ := e
    have htarget : f.target addr = addr sym' + BitVec.ofInt 32 offset' := by
      rw [FixS.target, hsym]
      exact hequated.symm
    dsimp only
    split
    · rw [htarget, h.mriCommon sym' ‹_›, add_ofInt_comm]
      rfl
    · split
      · exact htarget.symm
      · rename_i hmri hkeeps
        simp only [keepsSymbol, Bool.or_eq_true, not_or, Bool.not_eq_true] at hmri hkeeps
        rw [htarget, h.defined sym' hmri hkeeps.1.1.1.1.1.1 hkeeps.1.1.1.1.2 hkeeps.1.1.1.2 hkeeps.2, add_ofInt_comm]
        rfl

/-! ## The pairs -/

/-- The entries of a section, in the order of the list. -/
def entriesOf (hiFixups : List (Nat × FrChain)) (seg : Seg) : List Nat :=
  (hiFixups.filter fun e => decide (e.2.1 = seg)).map (·.1)

/-- The sections do not interfere. -/
theorem mipsFrobFile_apply (opts : Options) (hiFixups : List (Nat × FrChain)) (chains : Seg → List FixS) (seg : Seg) :
    mipsFrobFile opts hiFixups chains seg = frobChain opts seg (entriesOf hiFixups seg) (chains seg) := by
  induction hiFixups generalizing chains with
  | nil => rfl
  | cons e hiFixups ih =>
    have hstep := ih (Function.update chains e.2.1 (frobFixup opts e.2.1 (chains e.2.1) e.1))
    rw [mipsFrobFile] at hstep ⊢
    rw [List.foldl_cons, hstep]
    by_cases he : e.2.1 = seg
    · subst he
      simp [entriesOf, frobChain]
    · simp [entriesOf, he, Function.update_of_ne (Ne.symm he)]

theorem distinct_adjustedChain (opts : Options) (t : Tables) (n : Nat) {subs : Seg → List Nat} (ns : List NewFix)
    {seg : Seg} (hsubs : (subs seg).Nodup) : Distinct (adjustedChain opts t n subs ns seg) := by
  have h : FixS.ptr ∘ adjustRelocSym opts t n seg = FixS.ptr := funext fun f => (adjustRelocSym_ptr opts t n seg f).1
  rw [Distinct, adjustedChain, List.map_map, h]
  exact (assemble_inv opts ns).distinct_chain hsubs

/-- The entries of a section are high parts. -/
theorem high_of_mem_entriesOf (opts : Options) (t : Tables) (n : Nat) {subs : Seg → List Nat} (ns : List NewFix)
    {seg : Seg} : ∀ p ∈ entriesOf (assemble opts ns).hiFixups seg, ∀ l ∈ adjustedChain opts t n subs ns seg,
      l.ptr = p → relocNeedsLoP opts l.rType = true := by
  intro p hp l hl hlp
  have hinv := assemble_inv opts ns
  obtain ⟨f, hf, rfl⟩ := List.mem_map.mp hl
  obtain ⟨sub, -, hf⟩ := List.mem_flatMap.mp hf
  obtain ⟨e, he, rfl⟩ := List.mem_map.mp hp
  obtain ⟨he, hseg⟩ := List.mem_filter.mp he
  obtain ⟨g, hg, hgp, hhigh⟩ := hinv.entries e he
  obtain ⟨hptr, htype, -⟩ := adjustRelocSym_ptr opts t n seg f
  have hfg : g.ptr = f.ptr := hgp.trans (hlp.symm.trans hptr)
  obtain hk := hinv.own _ _ g hg f hf hfg
  rw [hk] at hg
  rw [htype, ← eq_of_ptr_eq (hinv.distinct _) hg hf hfg]
  exact hhigh

/-- A fixup that is not an entry is paired before the moves. -/
theorem listed_adjustedChain (opts : Options) (t : Tables) (n : Nat) {subs : Seg → List Nat} (ns : List NewFix)
    {seg : Seg} (hsubs : (subs seg).Nodup) {l : FixS} (hl : l ∈ adjustedChain opts t n subs ns seg)
    (hhigh : relocNeedsLoP opts l.rType = true) :
    l.ptr ∈ entriesOf (assemble opts ns).hiFixups seg ∨ Paired opts l.ptr (adjustedChain opts t n subs ns seg) := by
  have hinv := assemble_inv opts ns
  obtain ⟨f, hf, rfl⟩ := List.mem_map.mp hl
  obtain ⟨hptr, htype, -⟩ := adjustRelocSym_ptr opts t n seg f
  rw [htype] at hhigh
  rw [hptr]
  rcases hinv.listed_chain hf hhigh with ⟨sub, hs⟩ | hp
  · exact .inl (List.mem_map.mpr ⟨_, List.mem_filter.mpr ⟨hs, decide_eq_true rfl⟩, rfl⟩)
  · have hhalf {x : FixS} (hx : x ∈ (assemble opts ns).chain subs seg) (hk : x.ptr = f.ptr) :
        x.rType.isHalf opts = true := by
      rw [eq_of_ptr_eq (hinv.distinct_chain hsubs) hx hf hk, RelocCode.isHalf, hhigh, Bool.or_true]
    refine .inr (hp.map (fun x => (adjustRelocSym_ptr opts t n seg x).1)
        (fun x hx hk z hz => ?_) fun x hx hk y hy => ?_)
    · obtain ⟨hs, ho⟩ := adjustRelocSym_congr t n seg (by rw [RelocCode.isHalf, hz.1, Bool.or_true])
        (hhalf hx hk) hz.2.1
        hz.2.2
      exact ⟨by rw [(adjustRelocSym_ptr opts t n seg z).2.1]; exact hz.1, hs, ho⟩
    · obtain ⟨hs, ho⟩ := adjustRelocSym_congr t n seg (by rw [RelocCode.isHalf, hy.1, Bool.true_or])
        (hhalf hx hk) hy.2.1
        hy.2.2
      exact ⟨by rw [(adjustRelocSym_ptr opts t n seg y).2.1]; exact hy.1, hs, ho⟩

/-- The moves, for a section of a file. -/
theorem frobbed_writtenChain (opts : Options) (t : Tables) (n : Nat) {subs : Seg → List Nat} {seg : Seg}
    (hsubs : (subs seg).Nodup) (ns : List NewFix) :
    Frobbed opts (adjustedChain opts t n subs ns seg) (writtenChain opts t n subs ns seg) := by
  rw [writtenChain, mipsFrobFile_apply]
  exact frobChain_frobbed opts seg _ (distinct_adjustedChain opts t n ns hsubs) (high_of_mem_entriesOf opts t n ns)

/-- A high part with a low part to match is paired in the end. -/
theorem paired_writtenChain (opts : Options) (t : Tables) (n : Nat) {subs : Seg → List Nat} {seg : Seg}
    (hsubs : (subs seg).Nodup) (ns : List NewFix) {l f : FixS} (hl : l ∈ adjustedChain opts t n subs ns seg)
    (hhigh : relocNeedsLoP opts l.rType = true) (hgot : l.rType = .got16 → opts.picNeedRelax l.addsy seg = true)
    (hf : f ∈ adjustedChain opts t n subs ns seg) (hm : Matches l f) :
    Paired opts l.ptr (writtenChain opts t n subs ns seg) := by
  rcases listed_adjustedChain opts t n ns hsubs hl hhigh with he | hp
  · rw [writtenChain, mipsFrobFile_apply]
    exact frobChain_paired opts seg _ (distinct_adjustedChain opts t n ns hsubs)
        (high_of_mem_entriesOf opts t n ns) hl he
      hgot hf hm
  · exact (frobbed_writtenChain opts t n hsubs ns).paired _ hp

/-- Its offset is that of the best low part. -/
theorem best_writtenChain (opts : Options) (t : Tables) (n : Nat) {subs : Seg → List Nat} {seg : Seg}
    (hsubs : (subs seg).Nodup) (ns : List NewFix) {l : FixS} (hl : l ∈ adjustedChain opts t n subs ns seg)
    (hp : Paired opts l.ptr (writtenChain opts t n subs ns seg)) :
    ∃ lo, IsBest (adjustedChain opts t n subs ns seg) l lo ∧
      { l with offset := lo.offset } ∈ writtenChain opts t n subs ns seg := by
  have hfrob := frobbed_writtenChain opts t n hsubs ns
  obtain ⟨l', hl', he, ho⟩ := hfrob.kept l hl
  rcases ho with ho | ⟨lo, hbest, ho⟩
  · -- what it leads to has its own offset, so it is the best
    have hll : l' = l := by rw [he, ho]
    obtain ⟨lo, hlo, hq⟩ := hp.exists_partner (hfrob.nodup (distinct_adjustedChain opts t n ns hsubs)) hl'
        (by rw [hll])
    rw [hll] at hq hl'
    refine ⟨lo, ⟨(hfrob.mem_lo hq.1).mp hlo, ⟨hq.1, hq.2.1, le_of_eq hq.2.2.symm⟩, fun g _ hg => ?_⟩, ?_⟩
    · exact hq.2.2.trans_le hg.2.2
    · rw [hq.2.2]
      exact hl'
  · exact ⟨lo, hbest, by rw [← ho, ← he]; exact hl'⟩

/-- Addends are in place, and there is no position-independent code. -/
def inPlaceOptions : Options := ⟨true, false, fun _ _ => false⟩

/-- A local symbol of section 1, whose symbol is 10, and undefined ones. -/
def crossedTables : Tables :=
  ⟨fun sym => if sym = 1 then ⟨false, 0, 0, false, false, false, false, 1, true, 0x7ffc⟩
    else ⟨false, 0, 0, false, true, false, false, 2, false, 0⟩, fun _ => ⟨10, false, false, false, false⟩⟩

/-- Two subsections, with high and low parts that cross, and a low part that comes first. -/
def crossedFile : List NewFix :=
  [⟨(0, 0), .lo16, some 2, 8, 0⟩, ⟨(0, 0), .hi16S, some 1, 4, 4⟩, ⟨(0, 1), .hi16S, some 2, 0, 20⟩,
    ⟨(0, 0), .hi16S, some 2, 8, 8⟩, ⟨(0, 0), .other 0, some 1, 0, 12⟩, ⟨(0, 0), .lo16, some 1, 4, 16⟩]

def twoSubsections : Seg → List Nat := fun _ => [0, 1]

example : (writtenChain inPlaceOptions crossedTables 1 twoSubsections crossedFile 0).map FixS.ptr =
  [3, 2, 0, 4, 1, 5] := by
  decide

end Rigel.Reloc
