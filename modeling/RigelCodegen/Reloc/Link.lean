import RigelCodegen.Lib.Memory
import RigelCodegen.Reloc.Assembly
import RigelCodegen.Select.Address

/-!
# Addresses through assembler and linker

What becomes of a `%hi` and its `%lo`. The assembler writes their addends to the
fields of the instructions: that of a high part once the next low part is seen
(`installReloc`), as it depends on the sign of what is in the low part. The linker reads
an addend back from both fields, that of a high part with the field of the next
low part of the same symbol, and writes the halves of the address
(`relocateOne`).

`link_pair` puts this together with the moves of the assembler: however the code
was ordered, the fields of a `%hi` and of a `%lo` of the same symbol and offset end
up as the halves of the address, which is their sum for an instruction that
sign-extends the lower one.
-/

namespace Rigel.Reloc

open Word32 Chain

/-- `arelent`; the address is that in the section. -/
structure Arelent where
  howto : RelocCode
  sym : Symbol
  address : Word
  addend : Word
  deriving DecidableEq, Repr

/-- Whether `fixup_segment` and `md_apply_fix` are done with a fixup: there is no symbol, or it is absolute. -/
def fxDone (t : Tables) (f : FixS) : Bool :=
  match f.addsy with
  | none => true
  | some sym => (t.segments (t.symbols sym).segment).isAbs

/-- `tc_gen_reloc`, for what is left. -/
def tcGenReloc (t : Tables) (f : FixS) : Option Arelent :=
  match f.addsy with
  | none => none
  | some sym => if fxDone t f then none else some ⟨f.rType, sym, f.address, BitVec.ofInt 32 f.offset⟩

/-- The howto of a relocation, as far as it matters. -/
structure Howto where
  rightshift : Nat
  srcMask : Word
  dstMask : Word

/-- `R_MIPS_HI16` -/
def hi16Howto : Howto := ⟨16, 0xffff, 0xffff⟩

/-- `R_MIPS_LO16` -/
def lo16Howto : Howto := ⟨0, 0xffff, 0xffff⟩

/-- `_bfd_relocate_contents`, on the word. -/
def relocateContents (howto : Howto) (relocation x : Word) : Word :=
  (x &&& ~~~howto.dstMask) ||| (((x &&& howto.srcMask) + (relocation >>> howto.rightshift)) &&& howto.dstMask)

/-- The contents of the section and `mips_hi16_list`. -/
structure Installed where
  mem : Mem
  hi16List : List Arelent

/-- `_bfd_mips_elf_generic_reloc`, where sections still start at zero. -/
def genericReloc (howto : Howto) (rel : Arelent) (mem : Mem) : Mem :=
  mem.writeWord rel.address (relocateContents howto rel.addend (mem.readWord rel.address))

/-- The loop of `_bfd_mips_elf_lo16_reloc`: a high part is installed with the field of its low part in mind. -/
def installHi16 (vallo : Word) (mem : Mem) (hi : Arelent) : Mem :=
  genericReloc hi16Howto { hi with addend := hi.addend + ((vallo + 0x8000) &&& 0xffff) } mem

/-- `install_reloc`. Other relocations do what `others` says to the word that they are for. -/
def installReloc (others : Arelent → Word → Word) (st : Installed) (rel : Arelent) : Installed :=
  match rel.howto with
  | .hi16S => { st with hi16List := rel :: st.hi16List }
  | .lo16 =>
    let vallo := st.mem.readWord rel.address
    ⟨genericReloc lo16Howto rel (st.hi16List.foldl (installHi16 vallo) st.mem), []⟩
  | _ => { st with mem := st.mem.writeWord rel.address (others rel (st.mem.readWord rel.address)) }

/-- `write_relocs`: the contents of the section. -/
def writeRelocs (others : Arelent → Word → Word) (mem : Mem) (rels : List Arelent) : Mem :=
  (rels.foldl (installReloc others) ⟨mem, []⟩).mem

/-! ## The linker -/

/-- `mips_elf_next_relocation` -/
def nextRelocation (howto : RelocCode) (sym : Symbol) (rels : List Arelent) : Option Arelent :=
  rels.find? fun rel => rel.howto == howto && rel.sym == sym

/-- `mips_elf_high` -/
def mipsElfHigh (value : Word) : Word := ((value + 0x8000) >>> 16) &&& 0xffff

/-- `mips_elf_perform_relocation`, for a field of 16 bits. -/
def performRelocation (value x : Word) : Word := (x &&& ~~~0xffff) ||| (value &&& 0xffff)

/-- A turn of the loop of `_bfd_mips_elf_relocate_section`, at the first of `rels`: the word that is written. -/
def relocateOne (others : Arelent → Word → Word) (addr : Symbol → Word) (rel : Arelent) (rels : List Arelent)
    (mem : Mem) : Word :=
  let x := mem.readWord rel.address
  match rel.howto with
  | .hi16S =>
    let addend := x &&& 0xffff
    let addend :=
      match nextRelocation .lo16 rel.sym (rel :: rels) with
      | none => addend
      | some lo => (addend <<< 16) + ((mem.readWord lo.address &&& 0xffff).setWidth 16).signExtend 32
    performRelocation (mipsElfHigh (addend + addr rel.sym) &&& 0xffff) x
  | .lo16 => performRelocation ((addr rel.sym + (x &&& 0xffff)) &&& 0xffff) x
  | _ => others rel x

/-- `_bfd_mips_elf_relocate_section`, with the symbols at their addresses. -/
def relocateSection (others : Arelent → Word → Word) (addr : Symbol → Word) : List Arelent → Mem → Mem
  | [], mem => mem
  | rel :: rels, mem =>
    relocateSection others addr rels (mem.writeWord rel.address (relocateOne others addr rel rels mem))

theorem and_mask_eq_zext (x : Word) : x &&& 0xffff = zext (x.setWidth 16) := by
  apply BitVec.eq_of_toNat_eq
  rw [toNat_zext, BitVec.toNat_and, BitVec.toNat_setWidth, show (0xffff : Word).toNat = 2 ^ 16 - 1 from rfl,
    Nat.and_two_pow_sub_one_eq_mod]

theorem zext_shiftLeft (h : Half) : zext h <<< 16 = upper h := by
  apply BitVec.eq_of_toNat_eq
  rw [BitVec.toNat_shiftLeft, toNat_zext, upper, BitVec.toNat_append, Nat.shiftLeft_eq]
  have hlt := h.isLt
  rw [BitVec.toNat_ofNat, Nat.zero_mod, Nat.or_zero]
  omega

theorem setWidth_masked (x v : Word) : ((x &&& ~~~0xffff) ||| (v &&& 0xffff)).setWidth 16 = v.setWidth 16 := by
  rw [BitVec.setWidth_or, setWidth_and_mask, BitVec.setWidth_and]
  simp

theorem extract_masked (x v : Word) : ((x &&& ~~~0xffff) ||| (v &&& 0xffff)).extractLsb' 16 16 =
    x.extractLsb' 16 16 := by
  have h1 : (~~~0xffff : Word).extractLsb' 16 16 = BitVec.allOnes 16 := by decide
  have h2 : (0xffff : Word).extractLsb' 16 16 = 0#16 := by decide
  calc ((x &&& ~~~0xffff) ||| (v &&& 0xffff)).extractLsb' 16 16
      = (x.extractLsb' 16 16 &&& BitVec.allOnes 16) ||| (v.extractLsb' 16 16 &&& 0#16) := by
        rw [BitVec.extractLsb'_or, BitVec.extractLsb'_and, BitVec.extractLsb'_and, h1, h2]
    _ = x.extractLsb' 16 16 := by rw [BitVec.and_allOnes, BitVec.and_zero, BitVec.or_zero]

/-- The field is added to, the rest of the word stays. -/
theorem setWidth_relocateContents (n : Nat) (relocation x : Word) :
    (relocateContents ⟨n, 0xffff, 0xffff⟩ relocation x).setWidth 16 =
      x.setWidth 16 + (relocation >>> n).setWidth 16 := by
  rw [relocateContents, setWidth_masked, BitVec.setWidth_add _ _ (by decide), setWidth_and_mask]

theorem extract_relocateContents (n : Nat) (relocation x : Word) :
    (relocateContents ⟨n, 0xffff, 0xffff⟩ relocation x).extractLsb' 16 16 = x.extractLsb' 16 16 :=
  extract_masked ..

theorem setWidth_performRelocation (value x : Word) : (performRelocation value x).setWidth 16 = value.setWidth 16 :=
  setWidth_masked ..

theorem extract_performRelocation (value x : Word) :
    (performRelocation value x).extractLsb' 16 16 = x.extractLsb' 16 16 :=
  extract_masked ..

/-! ## What the assembler installs -/

/-- The words of two relocations have no byte in common. -/
def Arelent.Apart (r r' : Arelent) : Prop := (word r.address).Disjoint (word r'.address)

theorem Arelent.Apart.symm {r r' : Arelent} (h : r.Apart r') : r'.Apart r := fun a ha hb => h a hb ha

theorem readWord_genericReloc_of_apart {howto : Howto} {r r' : Arelent} {mem : Mem} (h : r.Apart r') :
    (genericReloc howto r' mem).readWord r.address = mem.readWord r.address :=
  Mem.readWord_writeWord_of_disjoint h

theorem readWord_installHi16_of_apart {vallo : Word} {r hi : Arelent} {mem : Mem} (h : r.Apart hi) :
    (installHi16 vallo mem hi).readWord r.address = mem.readWord r.address := by
  rw [installHi16, genericReloc]
  exact Mem.readWord_writeWord_of_disjoint h

/-- The word of a high part, installed with a low part whose field is zero. -/
def installedHi16 (mem : Mem) (hi : Arelent) : Word :=
  relocateContents hi16Howto (hi.addend + 0x8000) (mem.readWord hi.address)

theorem readWord_installHi16s_of_apart {vallo : Word} {his : List Arelent} {mem : Mem} {r : Arelent}
    (h : ∀ hi ∈ his, r.Apart hi) : (his.foldl (installHi16 vallo) mem).readWord r.address = mem.readWord r.address :=
    by
  induction his generalizing mem with
  | nil => rfl
  | cons hi his ih =>
    rw [List.forall_mem_cons] at h
    rw [List.foldl_cons, ih h.2, readWord_installHi16_of_apart h.1]

/-- All high parts that wait are installed. -/
theorem readWord_installHi16s {vallo : Word} (hv : vallo.setWidth 16 = 0#16) {his : List Arelent} {mem : Mem}
    (hap : his.Pairwise Arelent.Apart) {hi : Arelent} (hmem : hi ∈ his) :
    (his.foldl (installHi16 vallo) mem).readWord hi.address = installedHi16 mem hi := by
  have hvallo : (vallo + 0x8000) &&& 0xffff = 0x8000 := by
    rw [and_mask_eq_zext, BitVec.setWidth_add _ _ (by decide), hv]
    rfl
  induction his generalizing mem with
  | nil => cases hmem
  | cons r his ih =>
    rw [List.pairwise_cons] at hap
    rw [List.foldl_cons]
    rcases List.mem_cons.mp hmem with rfl | hmem
    · rw [readWord_installHi16s_of_apart hap.1, installHi16, hvallo, genericReloc]
      exact Mem.readWord_writeWord ..
    · rw [ih hap.2 hmem, installedHi16, installedHi16, readWord_installHi16_of_apart (hap.1 hi hmem).symm]

variable (others : Arelent → Word → Word)

/-- A word that is apart from all that is left to install stays. -/
theorem readWord_installReloc_of_apart {st : Installed} {rel r : Arelent} (hrel : r.Apart rel)
    (hlist : ∀ hi ∈ st.hi16List, r.Apart hi) :
    (installReloc others st rel).mem.readWord r.address = st.mem.readWord r.address := by
  rw [installReloc]
  split
  · rfl
  · exact (readWord_genericReloc_of_apart hrel).trans (readWord_installHi16s_of_apart hlist)
  · exact Mem.readWord_writeWord_of_disjoint hrel

/-- What is left to install is apart after a step if it was before. -/
theorem pairwise_installReloc {st : Installed} {rel : Arelent} {rels : List Arelent}
    (hap : (st.hi16List ++ rel :: rels).Pairwise Arelent.Apart) :
    ((installReloc others st rel).hi16List ++ rels).Pairwise Arelent.Apart := by
  have hsymm : ∀ {r r' : Arelent}, r.Apart r' → r'.Apart r := Arelent.Apart.symm
  rw [installReloc]
  split
  · exact (List.perm_middle.pairwise_iff hsymm).mp hap
  · exact hap.sublist (List.sublist_append_of_sublist_right (List.sublist_cons_self ..))
  · exact hap.sublist (List.Sublist.append (List.Sublist.refl _) (List.sublist_cons_self ..))

theorem mem_hi16List_installReloc {st : Installed} {rel r : Arelent}
    (h : r ∈ (installReloc others st rel).hi16List) : r = rel ∨ r ∈ st.hi16List := by
  rw [installReloc] at h
  split at h
  · exact List.mem_cons.mp h
  · cases h
  · exact .inr h

theorem readWord_install_of_apart {st : Installed} {rels : List Arelent} {r : Arelent}
    (hrels : ∀ rel ∈ rels, r.Apart rel)
    (hlist : ∀ hi ∈ st.hi16List, r.Apart hi) :
    (rels.foldl (installReloc others) st).mem.readWord r.address = st.mem.readWord r.address := by
  induction rels generalizing st with
  | nil => rfl
  | cons rel rels ih =>
    rw [List.forall_mem_cons] at hrels
    rw [List.foldl_cons, ih hrels.2, readWord_installReloc_of_apart others hrels.1 hlist]
    intro hi hhi
    rcases mem_hi16List_installReloc others hhi with rfl | hhi
    · exact hrels.1
    · exact hlist hi hhi

/-- The fields of low parts start at zero. -/
def ZeroLo (mem : Mem) (rels : List Arelent) : Prop :=
  ∀ rel ∈ rels, rel.howto = .lo16 → (mem.readWord rel.address).setWidth 16 = 0#16

/-- A step leaves alone what comes later. -/
theorem readWord_installReloc_later {st : Installed} {rel r : Arelent} {rels : List Arelent}
    (hap : (st.hi16List ++ rel :: rels).Pairwise Arelent.Apart) (hr : r ∈ rels) :
    (installReloc others st rel).mem.readWord r.address = st.mem.readWord r.address := by
  rw [List.pairwise_append, List.pairwise_cons] at hap
  exact readWord_installReloc_of_apart others (hap.2.1.1 r hr).symm fun hi hhi =>
    (hap.2.2 hi hhi r (List.mem_cons_of_mem _ hr)).symm

theorem ZeroLo.installReloc {st : Installed} {rel : Arelent} {rels : List Arelent}
    (hap : (st.hi16List ++ rel :: rels).Pairwise Arelent.Apart) (h : ZeroLo st.mem (rel :: rels)) :
    ZeroLo (installReloc others st rel).mem rels := fun r hr hlo => by
  rw [readWord_installReloc_later others hap hr]
  exact h r (List.mem_cons_of_mem _ hr) hlo

/-- A high part that waits is installed if a low part is left. -/
theorem readWord_install_pending {st : Installed} {rels : List Arelent} (hzero : ZeroLo st.mem rels)
    (hap : (st.hi16List ++ rels).Pairwise Arelent.Apart) {hi : Arelent} (hhi : hi ∈ st.hi16List)
    (hlo : ∃ rel ∈ rels, rel.howto = .lo16) :
    (rels.foldl (installReloc others) st).mem.readWord hi.address = installedHi16 st.mem hi := by
  induction rels generalizing st with
  | nil =>
    obtain ⟨_, h, -⟩ := hlo
    cases h
  | cons rel rels ih =>
    have hap' := pairwise_installReloc others hap
    have hzero' := hzero.installReloc others hap
    have happend := List.pairwise_append.mp hap
    have hirel : hi.Apart rel := happend.2.2 hi hhi rel (List.mem_cons_self ..)
    have hrels : ∀ r ∈ rels, hi.Apart r := fun r hr => happend.2.2 hi hhi r (List.mem_cons_of_mem _ hr)
    by_cases hlo' : rel.howto = .lo16
    · -- the list is emptied here
      rw [List.foldl_cons, readWord_install_of_apart others hrels (by simp [installReloc, hlo'])]
      simp only [installReloc, hlo']
      rw [readWord_genericReloc_of_apart hirel]
      exact readWord_installHi16s (hzero rel (List.mem_cons_self ..) hlo') happend.1 hhi
    · obtain ⟨lo, hmem, hl⟩ := hlo
      have hmem : lo ∈ rels := (List.mem_cons.mp hmem).resolve_left fun e => hlo' (e ▸ hl)
      have hkept : hi ∈ (installReloc others st rel).hi16List ∧
          (installReloc others st rel).mem.readWord hi.address = st.mem.readWord hi.address := by
        rw [installReloc]
        split
        · exact ⟨List.mem_cons_of_mem _ hhi, rfl⟩
        · contradiction
        · exact ⟨hhi, Mem.readWord_writeWord_of_disjoint hirel⟩
      rw [List.foldl_cons, ih hzero' hap' hkept.1 ⟨lo, hmem, hl⟩, installedHi16, installedHi16, hkept.2]

/-- A low part, and a high part with a low part behind it, have their addends in their fields. -/
theorem readWord_install (st : Installed) {pre post : List Arelent} {rel : Arelent}
    (hzero : ZeroLo st.mem (pre ++ rel :: post)) (hap :
    (st.hi16List ++ (pre ++ rel :: post)).Pairwise Arelent.Apart) :
    (rel.howto = .lo16 → ((pre ++ rel :: post).foldl (installReloc others) st).mem.readWord rel.address =
      relocateContents lo16Howto rel.addend (st.mem.readWord rel.address)) ∧
    (rel.howto = .hi16S → (∃ lo ∈ post, lo.howto = .lo16) →
      ((pre ++ rel :: post).foldl (installReloc others) st).mem.readWord rel.address = installedHi16 st.mem rel) := by
  induction pre generalizing st with
  | nil =>
    have hap' := pairwise_installReloc others hap
    have hzero' := hzero.installReloc others hap
    have happend := List.pairwise_append.mp hap
    have hlater := (List.pairwise_cons.mp happend.2.1).1
    rw [List.nil_append, List.foldl_cons]
    refine ⟨fun h => ?_, fun h hlo => ?_⟩
    · rw [readWord_install_of_apart others hlater (by simp [installReloc, h])]
      simp only [installReloc, h, genericReloc]
      rw [Mem.readWord_writeWord, readWord_installHi16s_of_apart]
      exact fun hi hhi => (happend.2.2 hi hhi rel (List.mem_cons_self ..)).symm
    · rw [readWord_install_pending others hzero' hap' (by simp [installReloc, h]) hlo]
      simp only [installReloc, h]
  | cons r pre ih =>
    have hmem : rel ∈ pre ++ rel :: post := List.mem_append_right _ (List.mem_cons_self ..)
    have hstep := readWord_installReloc_later others hap hmem
    have h := ih _ (hzero.installReloc others hap) (pairwise_installReloc others hap)
    rw [List.cons_append, List.foldl_cons]
    rw [installedHi16, hstep] at h
    exact h

theorem writeRelocs_lo {mem : Mem} {rels : List Arelent} (hzero : ZeroLo mem rels)
    (hap : rels.Pairwise Arelent.Apart) {rel : Arelent} (hrel : rel ∈ rels) (hlo : rel.howto = .lo16) :
    ((writeRelocs others mem rels).readWord rel.address).setWidth 16 = Reloc.lo16.resolve rel.addend ∧
      ((writeRelocs others mem rels).readWord rel.address).extractLsb' 16 16 =
        (mem.readWord rel.address).extractLsb' 16 16 := by
  have hfield := hzero rel hrel hlo
  obtain ⟨pre, post, rfl⟩ := List.append_of_mem hrel
  have h := (readWord_install others ⟨mem, []⟩ hzero hap).1 hlo
  rw [writeRelocs, h, lo16Howto]
  refine ⟨?_, extract_relocateContents ..⟩
  rw [setWidth_relocateContents, hfield]
  simp [Reloc.resolve]

theorem writeRelocs_hi {mem : Mem} {pre post : List Arelent} {rel : Arelent} (hzero : ZeroLo mem (pre ++ rel :: post))
    (hap : (pre ++ rel :: post).Pairwise Arelent.Apart) (hhi : rel.howto = .hi16S)
    (hlo : ∃ lo ∈ post, lo.howto = .lo16) (hfield : (mem.readWord rel.address).setWidth 16 = 0#16) :
    ((writeRelocs others mem (pre ++ rel :: post)).readWord rel.address).setWidth 16 =
      Reloc.hi16S.resolve rel.addend ∧
      ((writeRelocs others mem (pre ++ rel :: post)).readWord rel.address).extractLsb' 16 16 =
        (mem.readWord rel.address).extractLsb' 16 16 := by
  have h := (readWord_install others ⟨mem, []⟩ hzero hap).2 hhi hlo
  rw [writeRelocs, h, installedHi16, hi16Howto]
  refine ⟨?_, extract_relocateContents ..⟩
  rw [setWidth_relocateContents, hfield, BitVec.zero_add]
  rfl

/-! ## What the linker relocates -/

variable {others} {addr : Symbol → Word}

theorem readWord_relocateSection_of_apart {rels : List Arelent} {mem : Mem} {r : Arelent}
    (h : ∀ rel ∈ rels, r.Apart rel) : (relocateSection others addr rels mem).readWord r.address =
    mem.readWord r.address := by
  induction rels generalizing mem with
  | nil => rfl
  | cons rel rels ih =>
    rw [List.forall_mem_cons] at h
    rw [relocateSection, ih h.2]
    exact Mem.readWord_writeWord_of_disjoint h.1

/-- Only the words of the relocation and of those behind it are read. -/
theorem relocateOne_congr {rel : Arelent} {rels : List Arelent} {mem mem' : Mem}
    (h : ∀ r ∈ rel :: rels, mem.readWord r.address = mem'.readWord r.address) :
    relocateOne others addr rel rels mem = relocateOne others addr rel rels mem' := by
  rw [relocateOne, relocateOne, h rel (List.mem_cons_self ..)]
  cases hn : nextRelocation .lo16 rel.sym (rel :: rels) with
  | none => rfl
  | some lo => simp only [h lo (List.mem_of_find?_eq_some hn)]

/-- A relocation reads what the assembler has left, also if others are done before. -/
theorem readWord_relocateSection {pre post : List Arelent} {rel : Arelent} {mem : Mem}
    (hap : (pre ++ rel :: post).Pairwise Arelent.Apart) :
    (relocateSection others addr (pre ++ rel :: post) mem).readWord rel.address =
      relocateOne others addr rel post mem := by
  induction pre generalizing mem with
  | nil =>
    rw [List.nil_append, relocateSection, readWord_relocateSection_of_apart (List.pairwise_cons.mp hap).1]
    exact Mem.readWord_writeWord ..
  | cons r pre ih =>
    rw [List.cons_append, List.pairwise_cons] at hap
    rw [List.cons_append, relocateSection, ih hap.2]
    refine relocateOne_congr fun r' hr' => Mem.readWord_writeWord_of_disjoint ?_
    exact Arelent.Apart.symm (hap.1 r' (List.mem_append_right _ hr'))

/-- A low part gets the lower half of the address. -/
theorem setWidth_relocateOne_lo {rel : Arelent} {rels : List Arelent} {mem : Mem} (hlo : rel.howto = .lo16)
    {addend : Word} (hrel : (mem.readWord rel.address).setWidth 16 = addend.setWidth 16) :
    (relocateOne others addr rel rels mem).setWidth 16 = Reloc.lo16.resolve (addr rel.sym + addend) := by
  simp only [relocateOne, hlo]
  rw [setWidth_performRelocation, setWidth_and_mask, BitVec.setWidth_add _ _ (by decide), setWidth_and_mask, hrel,
    Reloc.resolve, BitVec.setWidth_add _ _ (by decide)]

/-- A high part gets the upper half, if both fields have the halves of the addend. -/
theorem setWidth_relocateOne_hi {rel lo : Arelent} {rels : List Arelent} {mem : Mem} (hhi : rel.howto = .hi16S)
    (hnext : nextRelocation .lo16 rel.sym rels = some lo) {addend : Word}
    (hrel : (mem.readWord rel.address).setWidth 16 = Reloc.hi16S.resolve addend)
    (hlo : (mem.readWord lo.address).setWidth 16 = Reloc.lo16.resolve addend) :
    (relocateOne others addr rel rels mem).setWidth 16 = Reloc.hi16S.resolve (addr rel.sym + addend) := by
  have hself : nextRelocation .lo16 rel.sym (rel :: rels) = some lo := by
    rw [nextRelocation, List.find?_cons_of_neg (by simp [hhi])]
    exact hnext
  have haddend : ((mem.readWord rel.address &&& 0xffff) <<< 16) +
      ((mem.readWord lo.address &&& 0xffff).setWidth 16).signExtend 32 = addend := by
    rw [setWidth_and_mask, hlo, and_mask_eq_zext, hrel, zext_shiftLeft]
    exact upper_add_sext addend
  simp only [relocateOne, hhi, hself]
  rw [haddend, setWidth_performRelocation, setWidth_and_mask, mipsElfHigh, setWidth_and_mask, BitVec.add_comm addend]
  rfl

/-- The rest of the word is as it was. -/
theorem extract_relocateOne {rel : Arelent} {rels : List Arelent} {mem : Mem}
    (h : rel.howto = .hi16S ∨ rel.howto = .lo16) :
    (relocateOne others addr rel rels mem).extractLsb' 16 16 = (mem.readWord rel.address).extractLsb' 16 16 := by
  rcases h with h | h <;> simp only [relocateOne, h, extract_performRelocation]

/-- What the linker makes of the section, the relocations having been written. -/
def linkRelocs (others others' : Arelent → Word → Word) (addr : Symbol → Word) (mem : Mem) (rels : List Arelent) :
    Mem :=
  relocateSection others' addr rels (writeRelocs others mem rels)

variable (others) {others' : Arelent → Word → Word}

theorem linkRelocs_lo {mem : Mem} {rels : List Arelent} (hzero : ZeroLo mem rels) (hap : rels.Pairwise Arelent.Apart)
    {rel : Arelent} (hrel : rel ∈ rels) (hlo : rel.howto = .lo16) :
    ((linkRelocs others others' addr mem rels).readWord rel.address).setWidth 16 =
        Reloc.lo16.resolve (addr rel.sym + rel.addend) ∧
      ((linkRelocs others others' addr mem rels).readWord rel.address).extractLsb' 16 16 =
        (mem.readWord rel.address).extractLsb' 16 16 := by
  obtain ⟨hfield, hrest⟩ := writeRelocs_lo others hzero hap hrel hlo
  obtain ⟨pre, post, rfl⟩ := List.append_of_mem hrel
  rw [linkRelocs, readWord_relocateSection hap, extract_relocateOne (.inr hlo)]
  exact ⟨setWidth_relocateOne_lo hlo hfield, hrest⟩

theorem linkRelocs_hi {mem : Mem} {pre post : List Arelent} {rel lo : Arelent}
    (hzero : ZeroLo mem (pre ++ rel :: post))
    (hap : (pre ++ rel :: post).Pairwise Arelent.Apart) (hhi : rel.howto = .hi16S)
    (hfield : (mem.readWord rel.address).setWidth 16 = 0#16) (hnext : nextRelocation .lo16 rel.sym post = some lo)
    (haddend : lo.addend = rel.addend) :
    ((linkRelocs others others' addr mem (pre ++ rel :: post)).readWord rel.address).setWidth 16 =
        Reloc.hi16S.resolve (addr rel.sym + rel.addend) ∧
      ((linkRelocs others others' addr mem (pre ++ rel :: post)).readWord rel.address).extractLsb' 16 16 =
        (mem.readWord rel.address).extractLsb' 16 16 := by
  have hmem : lo ∈ post := List.mem_of_find?_eq_some hnext
  have hlo : lo.howto = .lo16 := by
    have h := List.find?_some hnext
    simp only [Bool.and_eq_true, beq_iff_eq] at h
    exact h.1
  obtain ⟨hhigh, hrest⟩ := writeRelocs_hi others hzero hap hhi ⟨lo, hmem, hlo⟩ hfield
  obtain ⟨hlow, -⟩ := writeRelocs_lo others hzero hap
    (List.mem_append_right _ (List.mem_cons_of_mem _ hmem)) hlo
  rw [linkRelocs, readWord_relocateSection hap, extract_relocateOne (.inl hhi)]
  exact ⟨setWidth_relocateOne_hi hhi hnext hhigh (haddend ▸ hlow), hrest⟩

theorem tcGenReloc_eq {t : Tables} {f : FixS} {rel : Arelent} (h : tcGenReloc t f = some rel) :
    rel.howto = f.rType ∧ rel.address = f.address ∧ rel.addend = BitVec.ofInt 32 f.offset ∧ f.addsy = some rel.sym :=
      by
  rw [tcGenReloc] at h
  split at h
  · cases h
  · split at h
    · cases h
    · obtain rfl := Option.some.inj h
      exact ⟨rfl, rfl, rfl, ‹_›⟩

/-- The target of a relocation is that of its fixup. -/
theorem target_eq {t : Tables} {f : FixS} {rel : Arelent} (h : tcGenReloc t f = some rel) :
    f.target addr = addr rel.sym + rel.addend := by
  obtain ⟨-, -, haddend, hsym⟩ := tcGenReloc_eq h
  rw [FixS.target, hsym, haddend]

theorem fxDone_of_tcGenReloc {t : Tables} {f : FixS} {rel : Arelent} (h : tcGenReloc t f = some rel) :
    fxDone t f = false := by
  rw [tcGenReloc] at h
  split at h
  · cases h
  · split at h
    · cases h
    · exact Bool.eq_false_iff.mpr ‹_›

theorem exists_tcGenReloc {t : Tables} {f : FixS} (h : fxDone t f = false) : ∃ rel, tcGenReloc t f = some rel := by
  rw [tcGenReloc]
  cases hs : f.addsy with
  | none =>
    rw [fxDone, hs] at h
    cases h
  | some sym => exact ⟨_, if_neg (by simp [h])⟩

/-- Whether a fixup is done depends on its symbol. -/
theorem tcGenReloc_of_addsy_eq {t : Tables} {f g : FixS} {rel : Arelent} (h : tcGenReloc t f = some rel)
    (hs : g.addsy = f.addsy) : tcGenReloc t g = some ⟨g.rType, rel.sym, g.address, BitVec.ofInt 32 g.offset⟩ := by
  have hd : fxDone t g = fxDone t f := by
    rw [fxDone, fxDone, hs]
  rw [tcGenReloc] at h ⊢
  rw [hs]
  split at h
  · cases h
  · rename_i sym hsym
    split at h
    · cases h
    · obtain rfl := Option.some.inj h
      rw [if_neg (hd ▸ ‹_›)]

/-- A pair is one among the relocations too. -/
theorem nextRelocation_of_followed {opts : Options} {t : Tables} {x : FixS} {post : List FixS} {rel : Arelent}
    (hx : tcGenReloc t x = some rel) (h16 : ∀ f ∈ post, f.rType ≠ .mips16Lo16)
    (h : Followed (Companion opts x) (Partner x) post) :
    ∃ lo, nextRelocation .lo16 rel.sym (post.filterMap (tcGenReloc t)) = some lo ∧ lo.addend = rel.addend := by
  induction h with
  | @here y post hy =>
    have hlo : y.rType = .lo16 := by
      have h16 := h16 y (List.mem_cons_self ..)
      have hy := hy.1
      cases hr : y.rType <;> simp_all [RelocCode.isLo]
    rw [List.filterMap_cons_some (tcGenReloc_of_addsy_eq hx hy.2.1)]
    exact ⟨_, List.find?_cons_of_pos (by simp [hlo]), by rw [(tcGenReloc_eq hx).2.2.1, hy.2.2]⟩
  | @there z post hz _ ih =>
    obtain ⟨lo, hn, ha⟩ := ih fun f hf => h16 f (List.mem_cons_of_mem _ hf)
    have hne : z.rType ≠ .lo16 := fun e => by
      have := hz.1
      rw [e, not_relocNeedsLoP_of_isLo opts rfl] at this
      cases this
    rw [List.filterMap_cons_some (tcGenReloc_of_addsy_eq hx hz.2.1)]
    exact ⟨lo, by rw [nextRelocation, List.find?_cons_of_neg (by simp [hne])]; exact hn, ha⟩

/-- The fields of different fixups have no byte in common. -/
def FieldsApart (c : List FixS) : Prop :=
  ∀ f ∈ c, ∀ g ∈ c, f.ptr ≠ g.ptr → (word f.address).Disjoint (word g.address)

/-- The fields of the halves are zero, as the assembler leaves them in an instruction with a relocation. -/
def ZeroFields (t : Tables) (mem : Mem) (c : List FixS) : Prop :=
  ∀ f ∈ c, f.rType = .hi16S ∨ f.rType = .lo16 → fxDone t f = false → (mem.readWord f.address).setWidth 16 = 0#16

theorem FieldsApart.pairwise {t : Tables} {c : List FixS} (h : FieldsApart c) (hn : Distinct c) :
    (c.filterMap (tcGenReloc t)).Pairwise Arelent.Apart := by
  refine List.pairwise_filterMap.mpr ((List.pairwise_map.mp hn).imp_of_mem fun
      {f g} hf hg hne rel hrel rel' hrel' => ?_)
  rw [Arelent.Apart, (tcGenReloc_eq hrel).2.1, (tcGenReloc_eq hrel').2.1]
  exact h f hf g hg hne

theorem ZeroFields.zeroLo {t : Tables} {mem : Mem} {c : List FixS} (h : ZeroFields t mem c) :
    ZeroLo mem (c.filterMap (tcGenReloc t)) := fun rel hrel hlo => by
  obtain ⟨f, hf, hfrel⟩ := List.mem_filterMap.mp hrel
  obtain ⟨hhowto, haddr, -⟩ := tcGenReloc_eq hfrel
  rw [haddr]
  exact h f hf (.inr (hhowto.symm.trans hlo)) (fxDone_of_tcGenReloc hfrel)

/-- A half of an address: `LO16`, or a `HI16_S` that is paired. -/
def IsHalf (opts : Options) (c : List FixS) (f : FixS) : Reloc → Prop
  | .lo16 => f.rType = .lo16
  | .hi16S => f.rType = .hi16S ∧ Paired opts f.ptr c

/-- The word of a half, when all is linked. -/
theorem linkRelocs_half {opts : Options} {t : Tables} {mem : Mem} {c : List FixS} (hn : Distinct c)
    (hap : FieldsApart c) (hzero : ZeroFields t mem c) (h16 : ∀ f ∈ c, f.rType ≠ .mips16Lo16) {f : FixS} (hf : f ∈ c)
    (hdone : fxDone t f = false) {half : Reloc} (hhalf : IsHalf opts c f half) :
    ((linkRelocs others others' addr mem (c.filterMap (tcGenReloc t))).readWord f.address).setWidth 16 =
        half.resolve (f.target addr) ∧
      ((linkRelocs others others' addr mem (c.filterMap (tcGenReloc t))).readWord f.address).extractLsb' 16 16 =
        (mem.readWord f.address).extractLsb' 16 16 := by
  obtain ⟨rel, hrel⟩ := exists_tcGenReloc hdone
  obtain ⟨hhowto, haddr, -⟩ := tcGenReloc_eq hrel
  have hpair := hap.pairwise (t := t) hn
  have hlo := hzero.zeroLo
  rw [target_eq hrel, ← haddr]
  cases half with
  | lo16 => exact linkRelocs_lo others hlo hpair (List.mem_filterMap.mpr ⟨f, hf, hrel⟩) (hhowto.trans hhalf)
  | hi16S =>
    obtain ⟨htype, pre, x, post, rfl, hx, hfollowed⟩ := hhalf
    obtain rfl : f = x := eq_of_ptr_eq hn hf (List.mem_append_right _ (List.mem_cons_self ..)) hx.symm
    obtain ⟨lo, hnext, hloaddend⟩ := nextRelocation_of_followed hrel
      (fun g hg => h16 g (List.mem_append_right _ (List.mem_cons_of_mem _ hg))) hfollowed
    rw [List.filterMap_append, List.filterMap_cons_some hrel] at hpair hlo ⊢
    exact linkRelocs_hi others hlo hpair (hhowto.trans htype) (haddr ▸ hzero f hf (.inl htype) hdone) hnext
      hloaddend

/-- A file whose section `seg` can be linked: its addends are in place, its subsections are different, the fields of
its fixups are apart, those of the halves that are left to the linker start at zero, and no low part is one of MIPS16
code. -/
structure Linkable (opts : Options) (t : Tables) (n : Nat) (subs : Seg → List Nat) (seg : Seg) (ns : List NewFix)
    (mem : Mem) : Prop where
  inPlace : opts.haveInPlaceAddends = true
  nodup : (subs seg).Nodup
  apart : FieldsApart ((assemble opts ns).chain subs seg)
  zero : ZeroFields t mem (adjustedChain opts t n subs ns seg)
  no16 : ∀ f ∈ (assemble opts ns).chain subs seg, f.rType ≠ .mips16Lo16

/-- The contents of the section, assembled and linked. -/
def linkedSection (others others' : Arelent → Word → Word) (opts : Options) (t : Tables) (n : Nat)
    (subs : Seg → List Nat) (seg : Seg) (ns : List NewFix) (addr : Symbol → Word) (mem : Mem) : Mem :=
  linkRelocs others others' addr mem ((writtenChain opts t n subs ns seg).filterMap (tcGenReloc t))

/-- Where a fixup of the written chain is from. -/
theorem origin_writtenChain {opts : Options} {t : Tables} {n : Nat} {subs : Seg → List Nat} {seg : Seg}
    {ns : List NewFix}
    (hsubs : (subs seg).Nodup) {f : FixS} (hf : f ∈ writtenChain opts t n subs ns seg) :
    ∃ g ∈ (assemble opts ns).chain subs seg, g.ptr = f.ptr ∧ g.rType = f.rType ∧ g.address = f.address ∧
      f.addsy = (adjustRelocSym opts t n seg g).addsy := by
  obtain ⟨l, hl, he⟩ := (frobbed_writtenChain opts t n hsubs ns).origin (distinct_adjustedChain opts t n ns hsubs) hf
  obtain ⟨g, hg, rfl⟩ := List.mem_map.mp hl
  obtain ⟨hp, ht, ha⟩ := adjustRelocSym_ptr opts t n seg g
  rw [he]
  exact ⟨g, hg, hp.symm, ht.symm, ha.symm, rfl⟩

section

variable (others' addr) {opts : Options} {t : Tables} {n : Nat} {subs : Seg → List Nat} {seg : Seg}
    {ns : List NewFix} {mem : Mem}

/-- The word of a half that is written, when all is linked. -/
theorem linkedSection_half (h : Linkable opts t n subs seg ns mem) {f : FixS}
    (hf : f ∈ writtenChain opts t n subs ns seg) (hdone : fxDone t f = false) (half : Reloc)
    (hhalf : IsHalf opts (writtenChain opts t n subs ns seg) f half) :
    ((linkedSection others others' opts t n subs seg ns addr mem).readWord f.address).setWidth 16 =
        half.resolve (f.target addr) ∧
      ((linkedSection others others' opts t n subs seg ns addr mem).readWord f.address).extractLsb' 16 16 =
        (mem.readWord f.address).extractLsb' 16 16 := by
  have hdistinct := (frobbed_writtenChain opts t n h.nodup ns).nodup (distinct_adjustedChain opts t n ns h.nodup)
  refine linkRelocs_half others hdistinct (fun f hf g hg hne => ?_) (fun f hf hr hd => ?_) (fun f hf => ?_) hf hdone
    hhalf
  · obtain ⟨f', hf', hp, -, ha, -⟩ := origin_writtenChain h.nodup hf
    obtain ⟨g', hg', hp', -, ha', -⟩ := origin_writtenChain h.nodup hg
    rw [← ha, ← ha']
    exact h.apart f' hf' g' hg' (by rw [hp, hp']; exact hne)
  · obtain ⟨g, hg, -, ht, ha, hs⟩ := origin_writtenChain h.nodup hf
    obtain ⟨-, ht', ha'⟩ := adjustRelocSym_ptr opts t n seg g
    rw [fxDone, hs] at hd
    rw [← ha, ← ha']
    exact h.zero _ (List.mem_map_of_mem hg) (ht'.trans ht ▸ hr) hd
  · obtain ⟨g, hg, -, ht, -⟩ := origin_writtenChain h.nodup hf
    rw [← ht]
    exact h.no16 g hg

/-- Two instructions with the halves of `S` in their fields, and nothing else changed. -/
structure PairLinked (mem mem' : Mem) (hi lo S : Word) : Prop where
  high : (mem'.readWord hi).setWidth 16 = Reloc.hi16S.resolve S
  low : (mem'.readWord lo).setWidth 16 = Reloc.lo16.resolve S
  highRest : (mem'.readWord hi).extractLsb' 16 16 = (mem.readWord hi).extractLsb' 16 16
  lowRest : (mem'.readWord lo).extractLsb' 16 16 = (mem.readWord lo).extractLsb' 16 16

/-- What the two instructions add up to. -/
theorem PairLinked.sum {mem' : Mem} {hi lo S : Word} (h : PairLinked mem mem' hi lo S) :
    upper ((mem'.readWord hi).setWidth 16) + sext ((mem'.readWord lo).setWidth 16) = S := by
  rw [h.high, h.low, upper_add_sext]

/-- A high part and its best low part are linked as a pair. -/
theorem pairLinked_best (h : Linkable opts t n subs seg ns mem) {l lo : FixS}
    (hl : l ∈ adjustedChain opts t n subs ns seg) (hhi : l.rType = .hi16S) (hdone : fxDone t l = false)
    (hbest : IsBest (adjustedChain opts t n subs ns seg) l lo) :
    PairLinked mem (linkedSection others others' opts t n subs seg ns addr mem) l.address lo.address
      (lo.target addr) := by
  have hhigh : relocNeedsLoP opts l.rType = true := by
    simp [relocNeedsLoP, h.inPlace, hhi]
  have hgot : l.rType = .got16 → opts.picNeedRelax l.addsy seg = true := fun e => by
    rw [hhi] at e
    cases e
  have hpaired := paired_writtenChain opts t n h.nodup ns hl hhigh hgot hbest.mem hbest.matched
  obtain ⟨lo', hbest', hl'⟩ := best_writtenChain opts t n h.nodup ns hl hpaired
  have hoffset : lo'.offset = lo.offset :=
    le_antisymm (hbest'.least lo hbest.mem hbest.matched) (hbest.least lo' hbest'.mem hbest'.matched)
  rw [hoffset] at hl'
  have hlo : lo.rType = .lo16 := by
    obtain ⟨g, hg, he⟩ := List.mem_map.mp hbest.mem
    have hne := h.no16 g hg
    rw [← (adjustRelocSym_ptr opts t n seg g).2.1, he] at hne
    have hislo := hbest.matched.1
    cases hr : lo.rType <;> simp_all [RelocCode.isLo]
  have hlo' := ((frobbed_writtenChain opts t n h.nodup ns).mem_lo hbest.matched.1).mpr hbest.mem
  have htarget : FixS.target addr { l with offset := lo.offset } = lo.target addr := by
    rw [FixS.target, FixS.target, hbest.matched.2.1]
  have hdone' : fxDone t lo = false := by
    rw [fxDone, hbest.matched.2.1, ← fxDone]
    exact hdone
  obtain ⟨h1, h2⟩ := linkedSection_half others addr others' h hl' hdone .hi16S ⟨hhi, hpaired⟩
  obtain ⟨h3, h4⟩ := linkedSection_half others addr others' h hlo' hdone' .lo16 hlo
  exact ⟨htarget ▸ h1, h3, h2, h4⟩

variable {addr}

/-- The best low part, by the code. -/
theorem pairLinked_code (h : Linkable opts t n subs seg ns mem) (hplaced : t.Placed addr) {hi lo : FixS}
    (hhi : hi ∈ (assemble opts ns).chain subs seg) (htype : hi.rType = .hi16S)
    (hdone : fxDone t (adjustRelocSym opts t n seg hi) = false)
    (hbest : IsBest (adjustedChain opts t n subs ns seg) (adjustRelocSym opts t n seg hi)
      (adjustRelocSym opts t n seg lo)) :
    PairLinked mem (linkedSection others others' opts t n subs seg ns addr mem) hi.address lo.address
      (lo.target addr) := by
  obtain ⟨-, ht, ha⟩ := adjustRelocSym_ptr opts t n seg hi
  have h := pairLinked_best others addr others' h (List.mem_map_of_mem hhi)
    (ht.trans htype) hdone hbest
  rw [ha, (adjustRelocSym_ptr opts t n seg lo).2.2, adjustRelocSym_target hplaced] at h
  exact h

/-- Where the linker puts the symbols of `crossedTables`. -/
def crossedAddresses (sym : Symbol) : Word :=
  if sym = 1 then 0x10007ffc else if sym = 2 then 0x20007ff8 else 0x10000000

theorem placed_crossedTables : crossedTables.Placed crossedAddresses := by
  refine ⟨fun sym h => ?_, fun sym h => ?_, fun sym _ h _ _ _ => ?_⟩
  · by_cases hs : sym = 1 <;> simp [crossedTables, hs] at h
  · by_cases hs : sym = 1 <;> simp [crossedTables, hs] at h
  · by_cases hs : sym = 1
    · subst hs
      decide
    · simp [crossedTables, hs] at h

theorem linkable_crossedFile :
    Linkable inPlaceOptions crossedTables 1 twoSubsections 0 crossedFile (fun _ => 0) := by
  refine ⟨rfl, by decide, fun f hf g hg hne => ?_, fun f _ _ _ => by simp only [Mem.readWord]; rfl, by decide⟩
  have h : ∀ f ∈ (assemble inPlaceOptions crossedFile).chain twoSubsections 0,
      ∀ g ∈ (assemble inPlaceOptions crossedFile).chain twoSubsections 0, f.ptr ≠ g.ptr →
        4 ≤ (g.address - f.address).toNat ∧ 4 ≤ (f.address - g.address).toNat := by
    decide
  exact word_disjoint (h f hf g hg hne).1 (h f hf g hg hne).2

end

end Rigel.Reloc
