import RigelCodegen.Asm.Emit
import RigelCodegen.Asm.Line

/-!
# Malformed lines

`mips_ip` puts back the character behind the mnemonic when it reports an error, so
that `md_assemble` reports the whole line. It puts it back where its pointer `s`
is, which is right only if `s` is still at the operands; of a mnemonic that is
found up to a period, the period is never put back.

`mipsIpLine_diagnosed_iff` says for which lines it neither fails an assertion nor
leaves a damaged line behind an error (`SourceLine.Diagnosable`): a condition on
the text of the line and the entries of its mnemonic.
-/

namespace Rigel

open Word32 Op

/-- The same, without the places. -/
def ArgsEnd.forget : ArgsEnd → ArgResult
  | accept σ => .accept σ
  | mismatch _ _ σ => .mismatch σ
  | abort => .abort

def LineResult.forget : LineResult → IpResult
  | assembled op σ _ => .assembled op σ
  | error σ _ => .error σ
  | abort => .abort

section Forget

variable {o : AsmOptions} {P : ExpressionParser}

theorem forget_finish {r : ArgResult} {s : List Char} {n : Nat} {k : List Char → AsmState → ArgsEnd}
    {k' : List Char → AsmState → ArgResult} (h : ∀ s σ, (k s σ).forget = k' s σ) :
    (r.finish s n k).forget = r.andThen k' := by
  cases r with
  | next s' σ => exact h s' σ
  | accept σ | mismatch σ | abort => rfl

theorem parseLine_forget (more : Bool) (args s : List Char) (σ : AsmState) :
    (parseLine o P more args s σ).forget = parseArgs o P more args s σ := by
  induction args using operandChars_induction generalizing s σ with
  | nil =>
    rw [parseLine, parseArgs]
    split <;> rfl
  | extension c args ih =>
    rw [parseLine, parseArgs]
    exact forget_finish ih
  | operand c args h ih =>
    rw [parseLine_cons h, parseArgs.eq_3 _ _ _ _ _ _ _ h]
    exact forget_finish ih

/-- The entries from a name on. -/
def StartsWith (name : List Char) (ops : List MipsOpcode) : Prop := ∀ op ∈ ops.head?, op.name.toList = name

theorem startsWith_hashFind (mips_opcodes : List MipsOpcode) (name : List Char) :
    StartsWith name (hashFind mips_opcodes name) := by
  intro op hop
  have := List.head?_dropWhile_not (fun op : MipsOpcode => op.name.toList != name) mips_opcodes
  rw [show mips_opcodes.dropWhile (fun op => op.name.toList != name) = hashFind mips_opcodes name from rfl, hop] at this
  simpa using this

theorem StartsWith.more {name : List Char} {op : MipsOpcode} {ops : List MipsOpcode} (h : StartsWith name (op :: ops))
    (hm : hasMore op ops = true) : StartsWith name ops ∧ ops ≠ [] := by
  cases ops with
  | nil => cases hm
  | cons next ops =>
    refine ⟨fun op' hop' => ?_, nofun⟩
    cases hop'
    rw [beq_iff_eq.mp hm]
    exact h op rfl

theorem tryLine_forget {saveC : Option Char} {argsStart buf : List Char} {ops : List MipsOpcode}
    (h : StartsWith (cString buf) ops) (σ : AsmState) :
    (tryLine o P saveC argsStart buf ops σ).forget = tryEntries o P argsStart ops σ := by
  induction ops generalizing σ with
  | nil => rfl
  | cons op ops ih =>
    have hname : ¬op.name.toList ≠ cString buf := not_not.mpr (h op rfl)
    rw [tryLine, if_neg hname, tryEntries]
    split
    · rw [← parseLine_forget]
      cases parseLine o P (hasMore op ops) op.args argsStart (σ.create op) with
      | accept σ' => rfl
      | abort => rfl
      | mismatch s n σ' =>
        simp only [ArgsEnd.forget]
        split
        · rename_i hm
          exact ih (h.more hm).1 _
        · rfl
    · split
      · rename_i hm
        exact ih (h.more hm).1 _
      · rfl

end Forget

/-! ## The entry that decides -/

/-- The entries of a name, if the first one is. -/
def named (name : List Char) (ops : List MipsOpcode) : List MipsOpcode := ops.takeWhile fun op => op.name.toList == name

theorem StartsWith.named_cons {name : List Char} {op : MipsOpcode} {ops : List MipsOpcode}
    (h : StartsWith name (op :: ops)) : named name (op :: ops) = op :: named name ops :=
  List.takeWhile_cons_of_pos (beq_iff_eq.mpr (h op rfl))

/-- Another entry of the name comes next. -/
theorem StartsWith.hasMore_eq {name : List Char} {op : MipsOpcode} {ops : List MipsOpcode}
    (h : StartsWith name (op :: ops)) : hasMore op ops = !(named name ops).isEmpty := by
  cases ops with
  | nil => rfl
  | cons next ops =>
    have hn : op.name.toList = name := h op rfl
    rw [hasMore, named, List.takeWhile_cons, ← hn]
    by_cases he : next.name = op.name
    · rw [he, beq_self_eq_true, beq_self_eq_true, if_pos rfl]
      rfl
    · have hlist : ¬next.name.toList = op.name.toList := fun h => he (String.toList_inj.mp h)
      rw [beq_eq_false_iff_ne.mpr he, beq_eq_false_iff_ne.mpr hlist]
      rfl

section Tried

variable (o : AsmOptions) (P : ExpressionParser)

/-- The entry does not take the line, and comes to no missing comma; and there is
another one. -/
def PassedOver (more : Bool) (args s : List Char) : Prop :=
  more = true ∧ ¬Accepts o P more args s ∧ ¬MissesComma o P more args s

/-- An entry is tried: it is supported, and those before it that are, are passed
over. Whether others come behind it is `more`. -/
def Tries (es : List MipsOpcode) (s : List Char) (op : MipsOpcode) (more : Bool) : Prop :=
  ∃ pre post, es = pre ++ op :: post ∧ o.isSupported op = true ∧ more = !post.isEmpty ∧
    ∀ e ∈ pre, o.isSupported e = true → PassedOver o P true e.args s

/-- The entry decides: it is the only one that is tried and not passed over. -/
structure Decides (es : List MipsOpcode) (s : List Char) (op : MipsOpcode) (more : Bool) : Prop where
  tries : Tries o P es s op more
  last : ¬PassedOver o P more op.args s
  others : ∀ op' more', Tries o P es s op' more' → op' = op ∧ more' = more ∨ PassedOver o P more' op'.args s

/-- No entry decides: each that is tried is passed over, and the last one is
unsupported. -/
def Undecided (es : List MipsOpcode) (s : List Char) : Prop :=
  ∀ op more, Tries o P es s op more → PassedOver o P more op.args s

end Tried

section Decides

variable {o : AsmOptions} {P : ExpressionParser} {es : List MipsOpcode} {s : List Char} {e op : MipsOpcode}
  {more : Bool}

theorem not_isEmpty_of_ne_nil (h : es ≠ []) : (!es.isEmpty) = true := by simpa using h

theorem Tries.mem (h : Tries o P es s op more) : op ∈ es := by
  obtain ⟨pre, post, rfl, -⟩ := h
  exact List.mem_append_right pre (.head post)

/-- The first entry is tried, or one behind it. -/
theorem tries_cons : Tries o P (e :: es) s op more ↔ (op = e ∧ more = !es.isEmpty ∧ o.isSupported e = true) ∨
    (o.isSupported e = true → PassedOver o P true e.args s) ∧ Tries o P es s op more := by
  constructor
  · rintro ⟨pre, post, hes, hs, hm, hpre⟩
    cases pre with
    | nil =>
      obtain ⟨rfl, rfl⟩ := List.cons.inj hes
      exact .inl ⟨rfl, hm, hs⟩
    | cons e' pre =>
      obtain ⟨rfl, rfl⟩ := List.cons.inj hes
      exact .inr ⟨hpre e (.head pre), pre, post, rfl, hs, hm, fun e' he' => hpre e' (.tail e he')⟩
  · rintro (⟨rfl, hm, hs⟩ | ⟨he, pre, post, rfl, hs, hm, hpre⟩)
    · exact ⟨[], es, rfl, hs, hm, nofun⟩
    · exact ⟨e :: pre, post, rfl, hs, hm, List.forall_mem_cons.mpr ⟨he, hpre⟩⟩

/-- A supported entry that is not passed over decides. -/
theorem decides_here (hs : o.isSupported e = true) (h : ¬PassedOver o P (!es.isEmpty) e.args s) :
    Decides o P (e :: es) s e (!es.isEmpty) where
  tries := tries_cons.mpr (.inl ⟨rfl, rfl, hs⟩)
  last := h
  others := by
    intro op' more' ht
    rcases tries_cons.mp ht with ⟨rfl, rfl, -⟩ | ⟨hp, ht⟩
    · exact .inl ⟨rfl, rfl⟩
    · rw [not_isEmpty_of_ne_nil (List.ne_nil_of_mem ht.mem)] at h
      exact absurd (hp hs) h

/-- What decides is behind an entry that is unsupported or passed over. -/
theorem Decides.cons (h : Decides o P es s op more) (he : o.isSupported e = true → PassedOver o P true e.args s) :
    Decides o P (e :: es) s op more where
  tries := tries_cons.mpr (.inr ⟨he, h.tries⟩)
  last := h.last
  others := by
    intro op' more' ht
    rcases tries_cons.mp ht with ⟨rfl, rfl, hs⟩ | ⟨-, ht⟩
    · rw [not_isEmpty_of_ne_nil (List.ne_nil_of_mem h.tries.mem)]
      exact .inr (he hs)
    · exact h.others op' more' ht

theorem Undecided.cons (h : Undecided o P es s) (hne : es ≠ [])
    (he : o.isSupported e = true → PassedOver o P true e.args s) : Undecided o P (e :: es) s := by
  intro op more ht
  rcases tries_cons.mp ht with ⟨rfl, rfl, hs⟩ | ⟨-, ht⟩
  · rw [not_isEmpty_of_ne_nil hne]
    exact he hs
  · exact h op more ht

end Decides

/-- What becomes of the line at an entry that is not passed over. -/
def ArgsEnd.outcome (saveC : Option Char) (buf : List Char) (op : MipsOpcode) : ArgsEnd → LineResult
  | accept σ => .assembled op σ buf
  | mismatch t n σ => .error { σ with insnError := some "illegal operands" } (restore saveC (position buf t + n) buf)
  | abort => .abort

section Outcome

variable (o : AsmOptions) (P : ExpressionParser) (saveC : Option Char) (argsStart buf : List Char)

/-- What is behind what becomes of the line: an entry decides, or it is an error
at the start of the operands. -/
def LineResult.Decided (es : List MipsOpcode) (r : LineResult) : Prop :=
  (∃ op more σ, Decides o P es argsStart op more ∧ σ.insnError = none ∧
    r = (parseLine o P more op.args argsStart σ).outcome saveC buf op) ∨
  Undecided o P es argsStart ∧ ∃ σ, σ.insnError ≠ none ∧ r = .error σ (restore saveC (position buf argsStart) buf)

end Outcome

section Outcome

variable {o : AsmOptions} {P : LineParser} {saveC : Option Char} {argsStart buf : List Char}

theorem LineResult.Decided.cons {P : ExpressionParser} {es : List MipsOpcode} {r : LineResult}
    (h : r.Decided o P saveC argsStart buf es) (hne : es ≠ []) {e : MipsOpcode}
    (he : o.isSupported e = true → PassedOver o P true e.args argsStart) :
    r.Decided o P saveC argsStart buf (e :: es) := by
  rcases h with ⟨op, more, σ, hd, hσ, hr⟩ | ⟨hu, hr⟩
  · exact .inl ⟨op, more, σ, hd.cons he, hσ, hr⟩
  · exact .inr ⟨hu.cons hne he, hr⟩

/-- An entry is passed over if it does not match, and there is another one. -/
theorem passedOver_iff {more : Bool} {args : List Char} (h : handledArgs args = true) (σ : AsmState) :
    PassedOver o P.toExpressionParser more args argsStart ↔
      more = true ∧ ∃ t n σ', parseLine o P.toExpressionParser more args argsStart σ = .mismatch t n σ' := by
  rw [PassedOver, accepts_iff h σ, missesComma_iff h σ]
  refine and_congr_right fun _ => ?_
  cases parseLine o P.toExpressionParser more args argsStart σ <;> simp

/-- The loop over the entries. -/
theorem tryLine_decided {ops : List MipsOpcode} (hops : ∀ op ∈ ops, handledArgs op.args = true)
    (h : StartsWith (cString buf) ops) (hne : ops ≠ []) (σ : AsmState) :
    (tryLine o P.toExpressionParser saveC argsStart buf ops σ).Decided o P.toExpressionParser saveC argsStart buf
      (named (cString buf) ops) := by
  induction ops generalizing σ with
  | nil => exact absurd rfl hne
  | cons op ops ih =>
    have hname : ¬op.name.toList ≠ cString buf := not_not.mpr (h op rfl)
    obtain ⟨hargs, hops⟩ := List.forall_mem_cons.mp hops
    have hmore := h.hasMore_eq
    rw [h.named_cons, tryLine, if_neg hname]
    -- an entry that is unsupported or passed over leaves it to those behind it
    have hbehind (hm : hasMore op ops = true)
        (hpass : o.isSupported op = true → PassedOver o P.toExpressionParser true op.args argsStart) (σ : AsmState) :
        (tryLine o P.toExpressionParser saveC argsStart buf ops σ).Decided o P.toExpressionParser saveC argsStart buf
          (op :: named (cString buf) ops) := by
      obtain ⟨hstart, hne⟩ := h.more hm
      refine (ih hops hstart hne σ).cons (fun he => ?_) hpass
      rw [he] at hmore
      exact Bool.false_ne_true (hmore.symm.trans hm)
    split
    · rename_i hs
      have hover : PassedOver o P.toExpressionParser (hasMore op ops) op.args argsStart ↔ _ :=
        passedOver_iff hargs (σ.create op)
      have hhere (hn : ¬PassedOver o P.toExpressionParser (hasMore op ops) op.args argsStart) :
          Decides o P.toExpressionParser (op :: named (cString buf) ops) argsStart op (hasMore op ops) := by
        rw [hmore] at hn ⊢
        exact decides_here hs hn
      cases hp : parseLine o P.toExpressionParser (hasMore op ops) op.args argsStart (σ.create op) with
      | accept σ' =>
        refine .inl ⟨op, _, _, hhere fun h => ?_, rfl, by rw [hp]; rfl⟩
        obtain ⟨-, t, n, σ'', he⟩ := hover.mp h
        exact nomatch hp.symm.trans he
      | abort =>
        refine .inl ⟨op, _, _, hhere fun h => ?_, rfl, by rw [hp]; rfl⟩
        obtain ⟨-, t, n, σ'', he⟩ := hover.mp h
        exact nomatch hp.symm.trans he
      | mismatch t n σ' =>
        simp only
        split
        · rename_i hm
          refine hbehind hm (fun _ => ?_) _
          rw [← hm]
          exact hover.mpr ⟨hm, t, n, σ', hp⟩
        · rename_i hm
          exact .inl ⟨op, _, _, hhere fun h => hm h.1, rfl, by rw [hp]; rfl⟩
    · rename_i hs
      split
      · exact hbehind ‹_› (fun h => absurd h hs) σ
      · rename_i hm
        refine .inr ⟨fun op' more ht => ?_, _, Option.some_ne_none _, rfl⟩
        rcases tries_cons.mp ht with ⟨-, -, hs'⟩ | ⟨-, ht⟩
        · exact absurd hs' hs
        · rw [hmore, not_isEmpty_of_ne_nil (List.ne_nil_of_mem ht.mem)] at hm
          exact absurd rfl hm

end Outcome

namespace SourceLine

variable (line : SourceLine)

theorem length_buffer : line.buffer.length = line.text.length + 1 := by simp [buffer]

theorem word_prefix : line.word <+: line.text := List.takeWhile_prefix _

theorem stem_prefix : line.stem <+: line.text := List.takeWhile_prefix _

/-- What follows the word is a space. -/
theorem isSpace_of_getElem? {d : Char} (h : line.text[line.word.length]? = some d) : isSpace d = true := by
  have hd := List.head?_dropWhile_not (fun c => !isSpace c) line.text
  have happ : line.text = line.word ++ line.text.dropWhile fun c => !isSpace c := List.takeWhile_append_dropWhile.symm
  rw [happ, List.getElem?_append_right (Nat.le_refl _), Nat.sub_self, ← List.head?_eq_getElem?] at h
  rw [h] at hd
  simpa using hd

/-- A cut at the end is none. -/
theorem set_length_nul : line.buffer.set line.text.length nul = line.buffer := by
  rw [buffer, List.set_append_right _ _ (Nat.le_refl _), Nat.sub_self]
  rfl

theorem buffer_getElem? {k : Nat} {c : Char} (h : line.text[k]? = some c) : line.buffer[k]? = some c := by
  rw [buffer, List.getElem?_append_left (List.getElem?_eq_some_iff.mp h).1, h]

theorem ne_nul {k : Nat} {c : Char} (h : line.text[k]? = some c) : c ≠ nul :=
  fun he => line.noNul (he ▸ List.mem_of_getElem? h)

/-- The string of a cut line. -/
theorem cString_set {w : List Char} (h : w <+: line.text) : cString (line.buffer.set w.length nul) = w := by
  obtain ⟨r, hr⟩ := h
  have hw : ∀ c ∈ w, (c != nul) = true := fun c hc =>
    bne_iff_ne.mpr fun he => line.noNul (he ▸ hr ▸ List.mem_append_left r hc)
  rw [cString, buffer, ← hr, List.append_assoc, List.set_append_right _ _ (Nat.le_refl _), Nat.sub_self,
    List.takeWhile_append_of_pos hw]
  cases r <;> simp

/-- A cut line. -/
theorem cut_getElem? {k : Nat} {c : Char} (h : line.text[k]? = some c) : (line.buffer.set k nul)[k]? = some nul :=
  List.getElem?_set_self (List.getElem?_eq_some_iff.mp (line.buffer_getElem? h)).1

/-- A buffer with another character is not that of the line. -/
theorem ne_buffer {k : Nat} {c d : Char} (h : line.text[k]? = some c) {buf : List Char} (hd : buf[k]? = some d)
    (hne : d ≠ c) : buf ≠ line.buffer := by
  rintro rfl
  exact hne (Option.some.inj (hd.symm.trans (line.buffer_getElem? h)))

theorem set_ne_buffer {k : Nat} {c : Char} (h : line.text[k]? = some c) : line.buffer.set k nul ≠ line.buffer :=
  line.ne_buffer h (line.cut_getElem? h) (line.ne_nul h).symm

/-- The character is put back where it was. -/
theorem restore_iff {k s : Nat} {c : Char} (h : line.text[k]? = some c) :
    restore (some c) s (line.buffer.set k nul) = line.buffer ↔ s - 1 = k := by
  constructor
  · intro he
    by_contra hne
    exact line.ne_buffer h ((List.getElem?_set_ne hne).trans (line.cut_getElem? h)) (line.ne_nul h).symm he
  · rintro rfl
    obtain ⟨_, hc⟩ := List.getElem?_eq_some_iff.mp (line.buffer_getElem? h)
    rw [restore, List.set_set, ← hc, List.set_getElem_self]

/-- Another character is not. -/
theorem restore_ne {k : Nat} {c : Char} (h : line.text[k]? = some c) {saveC : Option Char} (hc : ∀ d ∈ saveC, d ≠ c)
    (s : Nat) : restore saveC s (line.buffer.set k nul) ≠ line.buffer := by
  cases saveC with
  | none => exact line.set_ne_buffer h
  | some d =>
    by_cases hs : s - 1 = k
    · have hlt := (List.getElem?_eq_some_iff.mp (line.buffer_getElem? h)).1
      refine line.ne_buffer h ?_ (hc d rfl)
      rw [restore, hs]
      exact List.getElem?_set_self (by simpa using hlt)
    · exact line.ne_buffer h ((List.getElem?_set_ne hs).trans (line.cut_getElem? h)) (line.ne_nul h).symm

end SourceLine

/-! ## Lines that are diagnosed -/

/-- The entries of a name in a table. -/
def entriesOf (mips_opcodes : List MipsOpcode) (name : List Char) : List MipsOpcode :=
  named name (hashFind mips_opcodes name)

/-- The operands of a line do not come to a missing comma of an entry. If there is
a space to be put back, the last entry stops only before anything is read, and no
expression of a `+I` is other than absolute in a line that is accepted. -/
def DoesNoDamage (o : AsmOptions) (P : ExpressionParser) (line : SourceLine) (args : List Char) (more : Bool) : Prop :=
  ¬MissesComma o P more args line.operands ∧
    (line.HasSpace → (more = false → StopsOnlyAtStart o P args line.operands) ∧
      (Accepts o P more args line.operands → AllAbsolute o P more args line.operands))

/-- The condition. Of a mnemonic that is in the table as it stands, no entry that
is tried does damage. A mnemonic with a period that is not in the table is
diagnosed only if the line is accepted. -/
def SourceLine.Diagnosable (o : AsmOptions) (P : ExpressionParser) (T : OpcodeTable) (line : SourceLine) : Prop :=
  if entriesOf T.opcodes line.word ≠ [] then
    ∀ op more, Tries o P (entriesOf T.opcodes line.word) line.operands op more → DoesNoDamage o P line op.args more
  else
    line.HasPeriod → ∃ op more, Tries o P (entriesOf T.opcodes line.stem) line.stemOperands op more ∧
      Accepts o P more op.args line.stemOperands ∧ AllAbsolute o P more op.args line.stemOperands

/-- A name that is found has an entry. -/
theorem entriesOf_eq_nil {mips_opcodes : List MipsOpcode} {name : List Char} :
    entriesOf mips_opcodes name = [] ↔ hashFind mips_opcodes name = [] := by
  have hstart := startsWith_hashFind mips_opcodes name
  rw [entriesOf]
  cases h : hashFind mips_opcodes name with
  | nil => exact iff_of_true rfl rfl
  | cons op ops =>
    rw [h] at hstart
    rw [hstart.named_cons]
    exact iff_of_false nofun nofun

section Diagnosed

variable {o : AsmOptions} {P : LineParser} (T : OpcodeTable) (line : SourceLine)

theorem OpcodeTable.handled_of_mem {name : List Char} {op : MipsOpcode} (h : op ∈ hashFind T.opcodes name) :
    handledArgs op.args = true := T.handled op ((List.dropWhile_suffix _).subset h)

theorem Tries.handled {name s : List Char} {op : MipsOpcode} {more : Bool}
    (h : Tries o P.toExpressionParser (entriesOf T.opcodes name) s op more) : handledArgs op.args = true :=
  T.handled_of_mem ((List.takeWhile_prefix _).subset h.mem)

/-- What becomes of the line, of the entries of a prefix that is looked up. -/
theorem tryLine_cut_decided {w : List Char} (hw : w <+: line.text) (hne : hashFind T.opcodes w ≠ []) (s : List Char) :
    (tryLine o P.toExpressionParser line.text[line.word.length]? s (line.buffer.set w.length nul)
      (hashFind T.opcodes w) {}).Decided o P.toExpressionParser line.text[line.word.length]? s
        (line.buffer.set w.length nul) (entriesOf T.opcodes w) := by
  have hcut : cString (line.buffer.set w.length nul) = w := line.cString_set hw
  have h : StartsWith (cString (line.buffer.set w.length nul)) (hashFind T.opcodes w) := by
    rw [hcut]
    exact startsWith_hashFind _ _
  have hd := @tryLine_decided o P line.text[line.word.length]? s _ _ (fun op hop => T.handled_of_mem hop) h hne {}
  rwa [hcut] at hd

/-- The lookup of the word cuts the line behind it, if it does not end there. -/
theorem cut_word :
    (if (line.text[line.word.length]?).isSome then line.buffer.set line.word.length nul else line.buffer) =
    line.buffer.set line.word.length nul := by
  split
  · rfl
  · rename_i h
    have hle := line.word_prefix.length_le
    have : line.word.length = line.text.length := by
      rw [Option.not_isSome_iff_eq_none, List.getElem?_eq_none_iff] at h
      omega
    rw [this, line.set_length_nul]

/-- Of a stem, the line is diagnosed if it is accepted. -/
theorem stem_diagnosed_iff (hp : line.HasPeriod) (hne : hashFind T.opcodes line.stem ≠ []) :
    (tryLine o P.toExpressionParser line.text[line.word.length]? line.stemOperands
      (line.buffer.set line.stem.length nul) (hashFind T.opcodes line.stem) {}).Diagnosed line ↔
    ∃ op more, Tries o P.toExpressionParser (entriesOf T.opcodes line.stem) line.stemOperands op more ∧
      Accepts o P.toExpressionParser more op.args line.stemOperands ∧
      AllAbsolute o P.toExpressionParser more op.args line.stemOperands := by
  have hrestore : ∀ s, restore line.text[line.word.length]? s (line.buffer.set line.stem.length nul) ≠ line.buffer :=
    line.restore_ne hp fun d hd he => absurd (line.isSpace_of_getElem? hd) (by rw [he]; decide)
  rcases tryLine_cut_decided T line line.stem_prefix hne line.stemOperands with
    ⟨op, more, σ₀, hd, hσ, he⟩ | ⟨hu, σ', -, he⟩
  · rw [he]
    have hargs := hd.tries.handled T
    -- an entry that accepts the line is the one that decides
    have hother {op' : MipsOpcode} {more' : Bool}
        (ht : Tries o P.toExpressionParser (entriesOf T.opcodes line.stem) line.stemOperands op' more')
        (ha : Accepts o P.toExpressionParser more' op'.args line.stemOperands) : op' = op ∧ more' = more :=
      (hd.others _ _ ht).resolve_right fun hp => hp.2.1 ha
    cases hp' : parseLine o P.toExpressionParser more op.args line.stemOperands σ₀ with
    | accept σ' =>
      have hcut := line.set_ne_buffer hp
      have habs := allAbsolute_iff hargs hp' hσ
      constructor
      · intro h
        have hnone : σ'.insnError = none := not_not.mp fun hn => hcut (h hn)
        exact ⟨op, more, hd.tries, (accepts_iff hargs σ₀).mpr ⟨σ', hp'⟩, habs.mpr hnone⟩
      · rintro ⟨op', more', ht, ha, hall⟩ hn
        obtain ⟨rfl, rfl⟩ := hother ht ha
        exact absurd (habs.mp hall) hn
    | mismatch t n σ' =>
      refine ⟨fun h => absurd h.2 (hrestore _), ?_⟩
      rintro ⟨op', more', ht, ha, -⟩
      obtain ⟨rfl, rfl⟩ := hother ht ha
      obtain ⟨σ₂, he⟩ := (accepts_iff hargs σ₀).mp ha
      exact nomatch hp'.symm.trans he
    | abort =>
      refine ⟨False.elim, ?_⟩
      rintro ⟨op', more', ht, ha, -⟩
      obtain ⟨rfl, rfl⟩ := hother ht ha
      obtain ⟨σ₂, he⟩ := (accepts_iff hargs σ₀).mp ha
      exact nomatch hp'.symm.trans he
  · rw [he]
    refine ⟨fun h => absurd h.2 (hrestore _), ?_⟩
    rintro ⟨op, more, ht, ha, -⟩
    exact absurd ha (hu op more ht).2.1

/-- A place in the operands, in the cut line. -/
theorem position_cut (t : List Char) (k : Nat) :
    position (line.buffer.set k nul) t = line.text.length - t.length := by
  rw [position, List.length_set, line.length_buffer]
  omega

/-- The space is put back at the operands, and nowhere else behind them. -/
theorem restore_operands_iff {c : Char} (h : line.text[line.word.length]? = some c) {t : List Char} (n : Nat)
    (ht : t <:+ line.operands) :
    restore (some c) (position (line.buffer.set line.word.length nul) t + n) (line.buffer.set line.word.length nul) =
      line.buffer ↔ t = line.operands ∧ n = 0 := by
  have hlt := (List.getElem?_eq_some_iff.mp h).1
  have hlen : line.operands.length = line.text.length - line.word.length - 1 := by
    rw [SourceLine.operands, List.length_tail, List.length_drop]
  have hle := ht.length_le
  rw [line.restore_iff h, position_cut]
  constructor
  · intro he
    exact ⟨ht.eq_of_length (by omega), by omega⟩
  · rintro ⟨rfl, rfl⟩
    omega

/-- Without a space, nothing is overwritten. -/
theorem cut_of_not_hasSpace (hs : ¬line.HasSpace) :
    line.text[line.word.length]? = none ∧ line.buffer.set line.word.length nul = line.buffer := by
  have hlen : line.word.length = line.text.length := Nat.le_antisymm line.word_prefix.length_le (not_lt.mp hs)
  exact ⟨List.getElem?_eq_none_iff.mpr hlen.ge, by rw [hlen, line.set_length_nul]⟩

/-- The entry that decides. -/
theorem outcome_diagnosed_iff {op : MipsOpcode} (hargs : handledArgs op.args = true) {more : Bool} {σ : AsmState}
    (hσ : σ.insnError = none) (hlast : ¬PassedOver o P.toExpressionParser more op.args line.operands) :
    ((parseLine o P.toExpressionParser more op.args line.operands σ).outcome line.text[line.word.length]?
      (line.buffer.set line.word.length nul) op).Diagnosed line ↔
        DoesNoDamage o P.toExpressionParser line op.args more := by
  have hmiss : MissesComma o P.toExpressionParser more op.args line.operands ↔ _ := missesComma_iff hargs σ
  have hacc : Accepts o P.toExpressionParser more op.args line.operands ↔ _ := accepts_iff hargs σ
  cases hp : parseLine o P.toExpressionParser more op.args line.operands σ with
  | accept σ' =>
    have hm : ¬MissesComma o P.toExpressionParser more op.args line.operands :=
      fun h => nomatch hp.symm.trans (hmiss.mp h)
    have habs := allAbsolute_iff hargs hp hσ
    by_cases hs : line.HasSpace
    · have hcut := line.set_ne_buffer (List.getElem?_eq_getElem hs)
      constructor
      · intro h
        refine ⟨hm, fun _ => ⟨fun hf => ?_, fun _ => habs.mpr (not_not.mp fun hn => hcut (h hn))⟩⟩
        subst hf
        exact stopsOnlyAtStart_accept hargs hp
      · intro h hn
        exact absurd (habs.mp ((h.2 hs).2 (hacc.mpr ⟨σ', hp⟩))) hn
    · exact ⟨fun _ => ⟨hm, fun h => absurd h hs⟩, fun _ _ => (cut_of_not_hasSpace line hs).2⟩
  | mismatch t n σ' =>
    obtain rfl : more = false := by
      cases more
      · rfl
      · exact absurd ((passedOver_iff hargs σ).mpr ⟨rfl, t, n, σ', hp⟩) hlast
    have hm : ¬MissesComma o P.toExpressionParser false op.args line.operands :=
      fun h => nomatch hp.symm.trans (hmiss.mp h)
    have ha : ¬Accepts o P.toExpressionParser false op.args line.operands := fun h => by
      obtain ⟨σ₁, he⟩ := hacc.mp h
      exact nomatch hp.symm.trans he
    by_cases hs : line.HasSpace
    · have hstop := stopsOnlyAtStart_mismatch hargs hp
      have hrest := restore_operands_iff line (List.getElem?_eq_getElem hs) n (suffix_of_mismatch hargs hp)
      rw [← List.getElem?_eq_getElem hs] at hrest
      constructor
      · exact fun h => ⟨hm, fun _ => ⟨fun _ => hstop.mpr (hrest.mp h.2), fun h => absurd h ha⟩⟩
      · exact fun h => ⟨Option.some_ne_none _, hrest.mpr (hstop.mp ((h.2 hs).1 rfl))⟩
    · refine ⟨fun _ => ⟨hm, fun h => absurd h hs⟩, fun _ => ⟨Option.some_ne_none _, ?_⟩⟩
      rw [(cut_of_not_hasSpace line hs).1, (cut_of_not_hasSpace line hs).2]
      rfl
  | abort => exact ⟨False.elim, fun h => h.1 (hmiss.mpr hp)⟩

/-- An entry that is passed over does no damage. -/
theorem PassedOver.doesNoDamage {args : List Char} {more : Bool}
    (h : PassedOver o P.toExpressionParser more args line.operands) :
    DoesNoDamage o P.toExpressionParser line args more :=
  ⟨h.2.2, fun _ => ⟨fun hf => (Bool.false_ne_true (hf.symm.trans h.1)).elim, fun ha => absurd ha h.2.1⟩⟩

/-- Of a word, the line is diagnosed if no entry that is tried does damage. -/
theorem word_diagnosed_iff (hne : hashFind T.opcodes line.word ≠ []) :
    (tryLine o P.toExpressionParser line.text[line.word.length]? line.operands (line.buffer.set line.word.length nul)
      (hashFind T.opcodes line.word) {}).Diagnosed line ↔
    ∀ op more, Tries o P.toExpressionParser (entriesOf T.opcodes line.word) line.operands op more →
      DoesNoDamage o P.toExpressionParser line op.args more := by
  rcases tryLine_cut_decided T line line.word_prefix hne line.operands with
    ⟨op, more, σ₀, hd, hσ, he⟩ | ⟨hu, σ', hσ', he⟩
  · rw [he, outcome_diagnosed_iff line (hd.tries.handled T) hσ hd.last]
    refine ⟨fun h op' more' ht => ?_, fun h => h op more hd.tries⟩
    rcases hd.others op' more' ht with ⟨rfl, rfl⟩ | hp
    · exact h
    · exact hp.doesNoDamage
  · rw [he]
    refine ⟨fun _ op more ht => (hu op more ht).doesNoDamage, fun _ => ⟨hσ', ?_⟩⟩
    by_cases hs : line.HasSpace
    · have hc := List.getElem?_eq_getElem hs
      rw [hc]
      exact (restore_operands_iff line hc 0 List.suffix_rfl).mpr ⟨rfl, rfl⟩
    · rw [(cut_of_not_hasSpace line hs).1, (cut_of_not_hasSpace line hs).2]
      rfl

/-- If the word is not found, the space is put back. -/
theorem restore_word : restore line.text[line.word.length]? (line.word.length + 1)
    (line.buffer.set line.word.length nul) = line.buffer := by
  by_cases hs : line.HasSpace
  · rw [List.getElem?_eq_getElem hs, line.restore_iff (List.getElem?_eq_getElem hs)]
    rfl
  · rw [(cut_of_not_hasSpace line hs).1, (cut_of_not_hasSpace line hs).2]
    rfl

/-- `mips_ip` diagnoses a line or assembles it, without failing an assertion and
with the line intact behind an error, if and only if it is diagnosable. -/
theorem mipsIpLine_diagnosed_iff (o : AsmOptions) (P : LineParser) :
    (mipsIpLine o P.toExpressionParser T.opcodes line).Diagnosed line ↔ line.Diagnosable o P.toExpressionParser T := by
  rw [mipsIpLine, SourceLine.Diagnosable]
  simp only [cut_word, restore_word, ne_eq, entriesOf_eq_nil]
  split
  · exact word_diagnosed_iff T line ‹_›
  · split
    · rename_i hp
      simp only [hp, forall_const]
      split
      · exact stem_diagnosed_iff T line hp ‹_›
      · rename_i hnil
        refine ⟨fun h => absurd h.2 (line.set_ne_buffer hp), ?_⟩
        rintro ⟨op, more, ht, -⟩
        have hmem := ht.mem
        rw [entriesOf_eq_nil.mpr (not_not.mp hnil)] at hmem
        cases hmem
    · rename_i hp
      exact ⟨fun _ h => absurd h hp, fun _ => ⟨Option.some_ne_none _, rfl⟩⟩

/-- Without the buffer, it is `mipsIp`. -/
theorem mipsIpLine_forget (o : AsmOptions) (P : ExpressionParser) :
    (mipsIpLine o P T.opcodes line).forget = mipsIp o P T.opcodes line.text := by
  have hword : line.text.takeWhile (fun c => !isSpace c) = line.word := rfl
  have hstem : line.text.takeWhile (fun c => !isSpace c && c != '.') = line.stem := rfl
  have hcut {w : List Char} (hw : w <+: line.text) :
      StartsWith (cString (line.buffer.set w.length nul)) (hashFind T.opcodes w) := by
    rw [line.cString_set hw]
    exact startsWith_hashFind _ _
  rw [mipsIpLine, mipsIp, splitMnemonic]
  simp only [cut_word, restore_word, hword, hstem, List.head?_drop]
  split
  · exact tryLine_forget (hcut line.word_prefix) {}
  · by_cases hp : line.HasPeriod
    · by_cases hne : hashFind T.opcodes line.stem = []
      · simp [hp, hne, LineResult.forget]
      · rw [if_pos hp, if_pos hne, if_pos ⟨hp, hne⟩]
        exact tryLine_forget (hcut line.stem_prefix) {}
    · rw [if_neg hp, if_neg fun h => hp h.1]
      rfl

end Diagnosed

/-- What `md_assemble` reports. -/
def LineResult.report : LineResult → Option (String × List Char)
  | assembled _ σ buf | error σ buf => σ.insnError.map fun e => (e, cString buf)
  | abort => none

/-- If a line is diagnosed, the whole line is reported. -/
theorem LineResult.Diagnosed.report {line : SourceLine} {r : LineResult} (h : r.Diagnosed line) {e : String}
    {text : List Char} (hr : r.report = some (e, text)) : text = line.text := by
  have hbuf : cString line.buffer = line.text := by
    rw [← line.set_length_nul, line.cString_set List.prefix_rfl]
  cases r with
  | assembled op σ buf =>
    obtain ⟨e', he, hpair⟩ := Option.map_eq_some_iff.mp hr
    rw [← (Prod.mk.inj hpair).2, h (by rw [he]; exact Option.some_ne_none _), hbuf]
  | error σ buf =>
    obtain ⟨e', he, hpair⟩ := Option.map_eq_some_iff.mp hr
    rw [← (Prod.mk.inj hpair).2, h.2, hbuf]
  | abort => cases hr

theorem decimalNumbers_suffix (s : List Char) : (decimalNumbers.getExpression s).rest <:+ s := by
  simp only [decimalNumbers, apply_ite Parsed.rest]
  generalize (if s.head? = some '-' then 1 else 0) = sign
  split
  · exact List.suffix_rfl
  · exact List.drop_suffix _ _

/-- `decimalNumbers` ends in its text. -/
def decimalLine : LineParser where
  toExpressionParser := decimalNumbers
  getExpression_suffix := decimalNumbers_suffix
  getSmallExpression_suffix := decimalNumbers_suffix

/-- A table with `add` alone. -/
def addTable : OpcodeTable where
  opcodes := [addEntry]
  valid := by decide
  handled := by decide

/-- What is made of a line by `addTable`. -/
def addLine (line : SourceLine) : LineResult :=
  mipsIpLine rigelOptions decimalLine.toExpressionParser addTable.opcodes line

/-- Too few operands. -/
def fewOperands : SourceLine := ⟨"add $1".toList, by decide⟩

/-- Text behind the operands. -/
def trailingText : SourceLine := ⟨"add $1,$2,$3 x".toList, by decide⟩

/-- An unknown mnemonic with a period. -/
def unknownMnemonic : SourceLine := ⟨"sub.x $1".toList, by decide⟩

/-- The first one misses a comma; of the others the mnemonic is all that is left
to report. -/
theorem malformedLines_not_diagnosed :
    ¬(addLine fewOperands).Diagnosed fewOperands ∧ ¬(addLine trailingText).Diagnosed trailingText ∧
      ¬(addLine unknownMnemonic).Diagnosed unknownMnemonic := by
  refine ⟨?_, ?_, ?_⟩ <;> decide +kernel

end Rigel
