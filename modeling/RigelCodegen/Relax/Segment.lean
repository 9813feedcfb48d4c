import Mathlib.Data.List.Chain
import RigelCodegen.Lib.Fixpoint
import RigelCodegen.Relax.Fragment

/-!
# Relaxation

`relax_segment` puts the fragments of a section one after the other by their
estimated sizes, and then passes over them until none grows. `write_object_file`
does this for all sections, in rounds, until no address changes.

`relaxed_layout` is about what comes out: the sizes are those for the addresses that
come out, in every section, although each of them was computed with addresses that
were about to change.
-/

namespace Rigel.Relax

variable {w : Nat}

/-- The fragments of a section and the reports, after the first loop of `relax_segment`: an address for each. -/
def firstGuess (opts : Options) (k : Nat) (segs : Segments w) :
    List (Frag w) → List (Frag w) → BitVec w → List (Frag w) × List String
  | _, [], _ => ([], [])
  | before, f :: rest, address =>
    let f := { f with frAddress := address }
    let e := estimate opts k (Segments.addresses (segs.set k (before ++ f :: rest))) f
    let (frags, reports) := firstGuess opts k segs (before ++ [e.frag]) rest (address + f.frFix + e.size)
    (e.frag :: frags, e.reports ++ reports)

/-- What a pass leaves: the fragments, whether one has grown (`stretched`), `ret`, and the reports. -/
structure Pass (w : Nat) where
  frags : List (Frag w)
  stretched : Bool := false
  again : Bool := false
  reports : List String := []
  deriving DecidableEq, Repr

/-- A pass over the fragments after `before`. A fragment sees those before it where they are now, and those after it
where they were. -/
def relaxFrags (opts : Options) (k pass : Nat) (segs : Segments w) :
    List (Frag w) → List (Frag w) → BitVec w → Pass w
  | _, [], _ => { frags := [] }
  | before, f :: rest, stretch =>
    let f' := { f with frAddress := f.frAddress + stretch }
    let r := relaxFrag opts k pass (Segments.addresses (segs.set k (before ++ f' :: rest))) f.frAddress stretch f'
      (rest.head?.map Frag.frAddress)
    let p := relaxFrags opts k pass segs (before ++ [r.frag]) rest (stretch + r.growth)
    { frags := r.frag :: p.frags, stretched := r.growth != 0 || p.stretched, again := r.again || p.again,
      reports := r.reports ++ p.reports }

/-- Why there is no result: a fatal error, or the rounds are not over yet. -/
inductive Stop where
  | fatal (message : String)
  | running
  deriving DecidableEq, Repr

/-- The body of the `do` loop of `relax_segment`. -/
def relaxPass (opts : Options) (k pass : Nat) (segs : Segments w) (s : Pass w) : Except Stop (Pass w × Bool) :=
  let p := relaxFrags opts k pass segs [] s.frags 0
  .ok (⟨p.frags, p.stretched, s.again || p.again, s.reports ++ p.reports⟩, p.stretched)

/-- `max_iterations`. The loop is a `do` loop, so there is one pass at least. -/
def maxIterations (fragCount : Nat) : Nat := max 1 (fragCount * fragCount)

/-- `relax_segment`: the new fragments of a section, and `ret`. -/
def relaxSegment (opts : Options) (k pass : Nat) (segs : Segments w) : Except Stop (Pass w) :=
  let (frags, reports) := firstGuess opts k segs [] (segs.getD k []) 0
  match untilQuiet (relaxPass opts k pass segs)
      (.fatal "Infinite loop encountered whilst attempting to compute the addresses of symbols in section %s")
      (maxIterations frags.length) { frags, reports } with
  | .error e => .error e
  | .ok s =>
    .ok
      { s with
        frags := s.frags.map fun f => { f with lastFrAddress := f.frAddress }
        again := s.again || s.frags.any fun f => f.lastFrAddress != f.frAddress }

/-! ## All sections -/

/-- `bfd_map_over_sections (stdoutput, relax_seg, &rsi)`: the chains, the reports, and `rsi.changed`. -/
def relaxSections (opts : Options) (pass : Nat) :
    List Nat → Segments w → List String → Except Stop (Segments w × List String × Bool)
  | [], segs, reports => .ok (segs, reports, false)
  | k :: ks, segs, reports =>
    match relaxSegment opts k pass segs with
    | .error e => .error e
    | .ok r =>
      match relaxSections opts pass ks (segs.set k r.frags) (reports ++ r.reports) with
      | .error e => .error e
      | .ok (segs', reports', changed) => .ok (segs', reports', r.again || changed)

/-- The chains between two rounds, with `rsi.pass`. -/
structure Round (w : Nat) where
  segs : Segments w
  pass : Nat := 0
  reports : List String := []
  deriving DecidableEq, Repr

/-- The body of the `while` loop of `write_object_file`. -/
def relaxRound (opts : Options) (s : Round w) : Except Stop (Round w × Bool) :=
  match relaxSections opts s.pass (List.range s.segs.length) s.segs s.reports with
  | .error e => .error e
  | .ok (segs, reports, changed) => .ok (⟨segs, s.pass + 1, reports⟩, changed)

/-- The loop, for so many rounds. -/
def relaxAll (opts : Options) (rounds : Nat) (segs : Segments w) : Except Stop (Round w) :=
  untilQuiet (relaxRound opts) .running rounds { segs }

/-! ## Chains of fragments -/

/-- Each fragment with the address of the next one. -/
def Follows (P : Frag w → BitVec w → Prop) (frags : List (Frag w)) : Prop :=
  frags.IsChain fun f g => P f g.frAddress

theorem follows_cons {P : Frag w → BitVec w → Prop} {f : Frag w} {frags : List (Frag w)} :
    Follows P (f :: frags) ↔ (∀ a ∈ frags.head?.map Frag.frAddress, P f a) ∧ Follows P frags := by
  rw [Follows, List.isChain_cons]
  refine and_congr ⟨fun h a ha => ?_, fun h g hg => h _ (Option.mem_map_of_mem _ hg)⟩ Iff.rfl
  obtain ⟨g, hg, rfl⟩ := Option.mem_map.mp ha
  exact h g hg

/-- What symbols are looked up in depends on the addresses only. -/
theorem addresses_congr {segs segs' : Segments w}
    (h : segs.map (List.map Frag.frAddress) = segs'.map (List.map Frag.frAddress)) :
    segs.addresses = segs'.addresses := by
  have hget : ∀ (segs : Segments w) (k i : Nat), segs.addresses k i =
      (((segs.map (List.map Frag.frAddress))[k]?.getD [])[i]?).getD 0 := by
    intro segs k i
    rw [Segments.addresses, List.getD_eq_getElem?_getD, List.getElem?_map]
    cases segs[k]? with
    | none => rfl
    | some frags =>
      rw [Option.map_some, Option.getD_some, Option.getD_some, List.getElem?_map]
      cases frags[i]? <;> rfl
  funext k i
  rw [hget, hget, h]

theorem addresses_set_congr {segs : Segments w} {k : Nat} {frags frags' : List (Frag w)}
    (h : frags.map Frag.frAddress = frags'.map Frag.frAddress) :
    Segments.addresses (segs.set k frags) = Segments.addresses (segs.set k frags') :=
  addresses_congr (by rw [List.map_set, List.map_set, h])

/-- Replacing a section by a like one. -/
theorem map_set_eq {β : Type} {g : List (Frag w) → β} {segs : Segments w} {k : Nat} {frags : List (Frag w)}
    (h : g frags = g (segs.getD k [])) : (segs.set k frags).map g = segs.map g := by
  rw [List.map_set, h, ← List.map_set]
  by_cases hk : k < segs.length
  · rw [List.getD_eq_getElem?_getD, List.getElem?_eq_getElem hk, Option.getD_some, List.set_getElem_self]
  · rw [List.set_eq_of_length_le (not_lt.mp hk)]

theorem getD_set_self {segs : Segments w} {k : Nat} (hk : k < segs.length) (frags : List (Frag w)) :
    List.getD (segs.set k frags) k [] = frags := by
  rw [List.getD_eq_getElem?_getD, List.getElem?_set_self hk, Option.getD_some]

theorem getD_set_ne {segs : Segments w} {j k : Nat} (h : k ≠ j) (frags : List (Frag w)) :
    List.getD (segs.set k frags) j [] = segs.getD j [] := by
  rw [List.getD_eq_getElem?_getD, List.getElem?_set_ne h, List.getD_eq_getElem?_getD]

section Passes

variable {opts : Options} {k pass : Nat} {segs : Segments w}

/-- The first loop leaves all shapes. -/
theorem firstGuess_shape (opts : Options) (k : Nat) (segs : Segments w) (before rest : List (Frag w))
    (address : BitVec w) :
    (firstGuess opts k segs before rest address).1.map Frag.shape = rest.map Frag.shape ∧
      (firstGuess opts k segs before rest address).1.map Frag.lastFrAddress = rest.map Frag.lastFrAddress := by
  induction rest generalizing before address with
  | nil => exact ⟨rfl, rfl⟩
  | cons f rest ih =>
    obtain ⟨-, -, hlast, hshape⟩ := estimate_frag opts k
      (Segments.addresses (segs.set k (before ++ { f with frAddress := address } :: rest)))
      { f with frAddress := address }
    simp only [firstGuess, List.map_cons, ih, hlast, hshape, shape_setAddress, and_self]

/-- After the first loop, each fragment whose size is known ends where the next one begins. -/
theorem firstGuess_follows {before rest : List (Frag w)} {address : BitVec w}
    (h : (firstGuess opts k segs before rest address).2 = []) :
    Follows Linked (firstGuess opts k segs before rest address).1 ∧
      ∀ a ∈ (firstGuess opts k segs before rest address).1.head?.map Frag.frAddress, a = address := by
  induction rest generalizing before address with
  | nil => exact ⟨.nil, fun a ha => absurd ha (Option.not_mem_none a)⟩
  | cons f rest ih =>
    simp only [firstGuess, List.append_eq_nil_iff] at h ⊢
    obtain ⟨hchain, hhead⟩ := ih h.2
    refine ⟨follows_cons.mpr ⟨fun a ha => ?_, hchain⟩, fun a ha => ?_⟩
    · rw [hhead a ha]
      exact linked_estimate _ h.1
    · rw [← Option.some.inj ha]
      exact (estimate_frag ..).1

/-- What a pass does where nothing is reported: shapes stay, the first fragment moves by the stretch, and where a
fragment ended the next one begins, it still does. -/
theorem relaxFrags_follows {before rest : List (Frag w)} {stretch : BitVec w}
    (h : (relaxFrags opts k pass segs before rest stretch).reports = []) (hl : Follows Linked rest) :
    (relaxFrags opts k pass segs before rest stretch).frags.map Frag.shape = rest.map Frag.shape ∧
      (relaxFrags opts k pass segs before rest stretch).frags.head?.map Frag.frAddress =
        rest.head?.map (·.frAddress + stretch) ∧
      Follows Linked (relaxFrags opts k pass segs before rest stretch).frags := by
  induction rest generalizing before stretch with
  | nil => exact ⟨rfl, rfl, .nil⟩
  | cons f rest ih =>
    simp only [relaxFrags, List.append_eq_nil_iff] at h ⊢
    rw [follows_cons] at hl
    obtain ⟨hshape, hhead, hchain⟩ := ih h.2 hl.2
    refine ⟨?_, ?_, follows_cons.mpr ⟨fun a ha => ?_, hchain⟩⟩
    · rw [List.map_cons, List.map_cons, hshape, relaxFrag_shape h.1, shape_setAddress]
    · exact congrArg some (relaxFrag_frAddress _ _ _ _).1
    · rw [hhead] at ha
      obtain ⟨g, hg, rfl⟩ := Option.mem_map.mp ha
      rw [← BitVec.add_assoc]
      have hnext : rest.head?.map Frag.frAddress = some g.frAddress := by rw [Option.mem_def.mp hg]; rfl
      rw [hnext] at h ⊢
      exact linked_relaxFrag rfl h.1 (hl.1 _ hnext)

/-- A pass leaves what the last call left behind. -/
theorem relaxFrags_last (opts : Options) (k pass : Nat) (segs : Segments w) (before rest : List (Frag w))
    (stretch : BitVec w) :
    (relaxFrags opts k pass segs before rest stretch).frags.map Frag.lastFrAddress = rest.map Frag.lastFrAddress := by
  induction rest generalizing before stretch with
  | nil => rfl
  | cons f rest ih => simp only [relaxFrags, List.map_cons, ih, (relaxFrag_frAddress _ _ _ _).2]

/-- A pass in which nothing grows is one at every fragment, with nothing moved. -/
theorem relaxFrags_cons_quiet {before rest : List (Frag w)} {f : Frag w}
    (h : (relaxFrags opts k pass segs before (f :: rest) 0).stretched = false) :
    ∃ r p, r = relaxFrag opts k pass (Segments.addresses (segs.set k (before ++ f :: rest))) f.frAddress 0 f
        (rest.head?.map Frag.frAddress) ∧
      p = relaxFrags opts k pass segs (before ++ [r.frag]) rest 0 ∧ r.growth = 0 ∧ p.stretched = false ∧
      relaxFrags opts k pass segs before (f :: rest) 0 =
        ⟨r.frag :: p.frags, false, r.again || p.again, r.reports ++ p.reports⟩ := by
  refine ⟨_, _, rfl, rfl, ?_⟩
  simp only [relaxFrags, Bool.or_eq_false_iff, bne_eq_false_iff_eq, add_zero, zero_add] at h ⊢
  obtain ⟨hgrow, hrest⟩ := h
  rw [hgrow] at hrest ⊢
  exact ⟨rfl, hrest, by rw [hrest]; rfl⟩

/-- A pass in which nothing grows moves nothing. -/
theorem relaxFrags_frAddress {before rest : List (Frag w)}
    (h : (relaxFrags opts k pass segs before rest 0).stretched = false) :
    (relaxFrags opts k pass segs before rest 0).frags.map Frag.frAddress = rest.map Frag.frAddress := by
  induction rest generalizing before with
  | nil => rfl
  | cons f rest ih =>
    obtain ⟨r, p, hr, rfl, -, hp, he⟩ := relaxFrags_cons_quiet h
    rw [he, List.map_cons, List.map_cons, ih hp, hr, (relaxFrag_frAddress _ _ _ _).1]

/-- After a pass in which nothing grows, each fragment has its final place. -/
theorem relaxFrags_placed {before rest : List (Frag w)}
    (h : (relaxFrags opts k pass segs before rest 0).reports = [])
    (hquiet : (relaxFrags opts k pass segs before rest 0).stretched = false)
    (hagain : (relaxFrags opts k pass segs before rest 0).again = false) (hl : Follows Linked rest) :
    Follows (Placed opts k (Segments.addresses (segs.set k (before ++ rest))))
      (relaxFrags opts k pass segs before rest 0).frags := by
  induction rest generalizing before with
  | nil => exact .nil
  | cons f rest ih =>
    obtain ⟨r, p, hr, rfl, hgrow, hp, he⟩ := relaxFrags_cons_quiet hquiet
    simp only [he, Bool.or_eq_false_iff, List.append_eq_nil_iff] at h hagain
    rw [follows_cons] at hl
    rw [he]
    refine follows_cons.mpr ⟨fun a ha => ?_, ?_⟩
    · have hnext : rest.head?.map Frag.frAddress = some a := by
        rw [← List.head?_map, ← relaxFrags_frAddress hp, List.head?_map]
        exact ha
      rw [hnext] at hr
      subst hr
      exact placed_relaxFrag h.1 hagain.1 hgrow (hl.1 a hnext)
    · have hsame : Segments.addresses (segs.set k (before ++ [r.frag] ++ rest)) =
          Segments.addresses (segs.set k (before ++ f :: rest)) := by
        refine addresses_set_congr ?_
        simp only [List.map_append, List.map_cons, List.append_assoc, List.cons_append, List.nil_append, hr,
          (relaxFrag_frAddress _ _ _ _).1]
      rw [← hsame]
      exact ih h.2 hp hagain.2 hl.2

/-- What is known of the fragments between two passes of a call, as long as nothing has been reported. -/
structure Laid (frags : List (Frag w)) (s : Pass w) : Prop where
  shape : s.frags.map Frag.shape = frags.map Frag.shape
  follows : Follows Linked s.frags
  head : ∀ a ∈ s.frags.head?.map Frag.frAddress, a = 0

theorem relaxPass_laid {frags : List (Frag w)} {s t : Pass w} {busy : Bool}
    (hs : (s.reports = [] → Laid frags s) ∧ s.frags.map Frag.lastFrAddress = frags.map Frag.lastFrAddress)
    (h : relaxPass opts k pass segs s = .ok (t, busy)) :
    (t.reports = [] → Laid frags t) ∧ t.frags.map Frag.lastFrAddress = frags.map Frag.lastFrAddress := by
  obtain ⟨rfl, -⟩ := Prod.mk.inj (Except.ok.inj h)
  refine ⟨fun hr => ?_, (relaxFrags_last ..).trans hs.2⟩
  obtain ⟨hr, hp⟩ := List.append_eq_nil_iff.mp hr
  obtain ⟨hshape, hfollows, hhead⟩ := hs.1 hr
  obtain ⟨hshape', hhead', hfollows'⟩ := relaxFrags_follows hp hfollows
  refine ⟨hshape'.trans hshape, hfollows', fun a ha => ?_⟩
  rw [hhead'] at ha
  simp only [add_zero] at ha
  exact hhead a ha

/-- The last pass of a call, in which nothing has grown. -/
theorem relaxSegment_ok {r : Pass w} (h : relaxSegment opts k pass segs = .ok r) :
    ∃ s t : Pass w, (s.reports = [] → Laid (segs.getD k []) s) ∧
      s.frags.map Frag.lastFrAddress = (segs.getD k []).map Frag.lastFrAddress ∧
      relaxPass opts k pass segs s = .ok (t, false) ∧
      r = { t with
        frags := t.frags.map fun f => { f with lastFrAddress := f.frAddress }
        again := t.again || t.frags.any fun f => f.lastFrAddress != f.frAddress } := by
  simp only [relaxSegment] at h
  split at h
  · cases h
  · next t ht =>
    have hguess := firstGuess_shape opts k segs [] (segs.getD k []) 0
    obtain ⟨s, ⟨hlaid, hlast⟩, hs⟩ := exists_quiet_step (fun _ _ _ => relaxPass_laid)
      ⟨fun hr => ⟨hguess.1, (firstGuess_follows hr).1, (firstGuess_follows hr).2⟩, hguess.2⟩ ht
    exact ⟨s, t, hlaid, hlast, hs, (Except.ok.inj h).symm⟩

/-- A call leaves all shapes if nothing is reported. -/
theorem relaxSegment_shape {r : Pass w} (h : relaxSegment opts k pass segs = .ok r) (hr : r.reports = []) :
    r.frags.map Frag.shape = (segs.getD k []).map Frag.shape := by
  obtain ⟨s, t, hlaid, hlast, hs, rfl⟩ := relaxSegment_ok h
  have ht := (relaxPass_laid ⟨hlaid, hlast⟩ hs).1 hr
  rw [← ht.shape, List.map_map]
  exact List.map_congr_left fun f _ => shape_setLast f _

/-- A call notes the addresses that it leaves. -/
theorem relaxSegment_last {r : Pass w} (h : relaxSegment opts k pass segs = .ok r) :
    r.frags.map Frag.lastFrAddress = r.frags.map Frag.frAddress := by
  obtain ⟨s, t, -, -, -, rfl⟩ := relaxSegment_ok h
  simp only [List.map_map]
  rfl

theorem placed_setLast {addrs : Addresses w} {f : Frag w} {a b : BitVec w} (h : Placed opts k addrs f b) :
    Placed opts k addrs { f with lastFrAddress := a } b := by
  rcases f with ⟨_, _, _, _, _, _, sub⟩
  cases sub <;> exact h

/-- A call that changes no address leaves all fragments in their final places. -/
theorem relaxSegment_quiet {r : Pass w} (h : relaxSegment opts k pass segs = .ok r) (hr : r.reports = [])
    (hagain : r.again = false) :
    r.frags.map Frag.frAddress = (segs.getD k []).map Frag.lastFrAddress ∧
      Follows (Placed opts k (Segments.addresses (segs.set k r.frags))) r.frags ∧
      ∀ a ∈ r.frags.head?.map Frag.frAddress, a = 0 := by
  obtain ⟨s, t, hlaid, hlast, hs, rfl⟩ := relaxSegment_ok h
  have hlaid' := (relaxPass_laid ⟨hlaid, hlast⟩ hs).1 hr
  obtain ⟨rfl, hquiet⟩ := Prod.mk.inj (Except.ok.inj hs)
  simp only [Bool.or_eq_false_iff, List.any_eq_false, bne_iff_ne, ne_eq, not_not] at hagain
  obtain ⟨⟨-, hagain⟩, hsame⟩ := hagain
  obtain ⟨hrs, hrp⟩ := List.append_eq_nil_iff.mp hr
  have haddr := relaxFrags_frAddress hquiet
  have hset : ∀ l : List (Frag w), (l.map fun f => { f with lastFrAddress := f.frAddress }).map Frag.frAddress =
      l.map Frag.frAddress := fun l => by rw [List.map_map]; rfl
  refine ⟨?_, ?_, ?_⟩
  · calc _ = (relaxFrags opts k pass segs [] s.frags 0).frags.map Frag.frAddress := hset _
      _ = (relaxFrags opts k pass segs [] s.frags 0).frags.map Frag.lastFrAddress :=
          List.map_congr_left fun f hf => (hsame f hf).symm
      _ = s.frags.map Frag.lastFrAddress := relaxFrags_last opts k pass segs [] s.frags 0
      _ = (segs.getD k []).map Frag.lastFrAddress := hlast
  · rw [addresses_set_congr ((hset _).trans haddr)]
    exact List.isChain_map_of_isChain _ (fun f g hfg => placed_setLast hfg)
      (relaxFrags_placed hrp hquiet hagain (hlaid hrs).follows)
  · rw [← List.head?_map, hset, List.head?_map]
    exact hlaid'.head

end Passes

/-! ## Rounds -/

/-- The addresses are those that were noted. -/
def Settled (segs : Segments w) : Prop :=
  ∀ k, (segs.getD k []).map Frag.lastFrAddress = (segs.getD k []).map Frag.frAddress

theorem Settled.set {segs : Segments w} (h : Settled segs) {k : Nat} {frags : List (Frag w)}
    (hf : frags.map Frag.lastFrAddress = frags.map Frag.frAddress) : Settled (segs.set k frags) := by
  intro j
  by_cases hj : k = j
  · subst hj
    by_cases hk : k < segs.length
    · rw [getD_set_self hk, hf]
    · rw [List.set_eq_of_length_le (not_lt.mp hk)]
      exact h k
  · rw [getD_set_ne hj]
    exact h j

/-- A section that is laid out from address 0 on, for good. -/
def Final (opts : Options) (k : Nat) (addrs : Addresses w) (frags : List (Frag w)) : Prop :=
  Follows (Placed opts k addrs) frags ∧ ∀ a ∈ frags.head?.map Frag.frAddress, a = 0

section Rounds

variable {opts : Options} {pass : Nat}

/-- What a round keeps. -/
theorem relaxSections_keeps {ks : List Nat} {segs segs' : Segments w} {reports reports' : List String}
    {changed : Bool} (h : relaxSections opts pass ks segs reports = .ok (segs', reports', changed))
    (hs : Settled segs) :
    Settled segs' ∧ (reports' = [] → reports = [] ∧
      segs'.map (List.map Frag.shape) = segs.map (List.map Frag.shape)) := by
  induction ks generalizing segs reports changed with
  | nil =>
    simp only [relaxSections, Except.ok.injEq, Prod.mk.injEq] at h
    obtain ⟨rfl, rfl, -⟩ := h
    exact ⟨hs, fun hr => ⟨hr, rfl⟩⟩
  | cons k ks ih =>
    simp only [relaxSections] at h
    split at h
    · cases h
    · next r hseg =>
      split at h
      · cases h
      · next segs₁ reports₁ changed₁ hrest =>
        cases h
        obtain ⟨hset, hshape⟩ := ih hrest (hs.set (relaxSegment_last hseg))
        refine ⟨hset, fun hr => ?_⟩
        obtain ⟨hreports, hmap⟩ := hshape hr
        obtain ⟨hreports, hrr⟩ := List.append_eq_nil_iff.mp hreports
        exact ⟨hreports, hmap.trans (map_set_eq (relaxSegment_shape hseg hrr))⟩

/-- A round that changes nothing leaves each section laid out for good, with the addresses that there were. -/
theorem relaxSections_quiet {ks : List Nat} {segs segs' : Segments w} {reports reports' : List String}
    (h : relaxSections opts pass ks segs reports = .ok (segs', reports', false)) (hr : reports' = [])
    (hs : Settled segs) (hks : ks.Nodup) (hlt : ∀ k ∈ ks, k < segs.length) :
    segs'.addresses = segs.addresses ∧ (∀ j ∉ ks, segs'.getD j [] = segs.getD j []) ∧
      ∀ k ∈ ks, Final opts k segs.addresses (segs'.getD k []) := by
  induction ks generalizing segs reports with
  | nil =>
    simp only [relaxSections, Except.ok.injEq, Prod.mk.injEq] at h
    obtain ⟨rfl, -, -⟩ := h
    exact ⟨rfl, fun _ _ => rfl, fun k hk => absurd hk List.not_mem_nil⟩
  | cons k ks ih =>
    simp only [relaxSections] at h
    split at h
    · cases h
    · next r hseg =>
      split at h
      · cases h
      · next segs₁ reports₁ changed₁ hrest =>
        simp only [Except.ok.injEq, Prod.mk.injEq, Bool.or_eq_false_iff] at h
        obtain ⟨rfl, rfl, hagain, rfl⟩ := h
        obtain ⟨hk, hks⟩ := List.nodup_cons.mp hks
        have hset : Settled (segs.set k r.frags) := hs.set (relaxSegment_last hseg)
        obtain ⟨hr₀, -⟩ := (relaxSections_keeps hrest hset).2 hr
        obtain ⟨haddr, hplaced, hhead⟩ := relaxSegment_quiet hseg (List.append_eq_nil_iff.mp hr₀).2 hagain
        have hsame : Segments.addresses (segs.set k r.frags) = segs.addresses :=
          addresses_congr (map_set_eq (haddr.trans (hs k)))
        obtain ⟨haddr', hother, hfinal⟩ := ih hrest hset hks fun j hj => by
          rw [List.length_set]
          exact hlt j (.tail _ hj)
        rw [hsame] at haddr' hfinal hplaced
        refine ⟨haddr', fun j hj => ?_, fun j hj => ?_⟩
        · obtain ⟨hjk, hjks⟩ := not_or.mp (mt List.mem_cons.mpr hj)
          rw [hother j hjks, getD_set_ne (Ne.symm hjk)]
        · rcases List.mem_cons.mp hj with rfl | hj
          · rw [hother j hk, getD_set_self (hlt j (.head _))]
            exact ⟨hplaced, hhead⟩
          · exact hfinal j hj

/-- What is known of the chains between two rounds: the addresses are noted, and the fragments are the same as long as
nothing has been reported. -/
structure Kept (segs : Segments w) (s : Round w) : Prop where
  settled : Settled s.segs
  shape : s.reports = [] → s.segs.map (List.map Frag.shape) = segs.map (List.map Frag.shape)

theorem relaxRound_kept {segs : Segments w} {s t : Round w} {busy : Bool} (hs : Kept segs s)
    (h : relaxRound opts s = .ok (t, busy)) : Kept segs t := by
  simp only [relaxRound] at h
  split at h
  · cases h
  · next segs' reports' changed hsec =>
    cases h
    obtain ⟨hset, hshape⟩ := relaxSections_keeps hsec hs.settled
    exact ⟨hset, fun hr => (hshape hr).2.trans (hs.shape (hshape hr).1)⟩

theorem settled_of_new {segs : Segments w}
    (hnew : ∀ frags ∈ segs, ∀ f ∈ frags, f.frAddress = 0 ∧ f.lastFrAddress = 0) : Settled segs := by
  intro k
  refine List.map_congr_left fun f hf => ?_
  by_cases hk : k < segs.length
  · rw [List.getD_eq_getElem?_getD, List.getElem?_eq_getElem hk, Option.getD_some] at hf
    obtain ⟨haddr, hlast⟩ := hnew _ (List.getElem_mem hk) f hf
    rw [haddr, hlast]
  · rw [List.getD_eq_getElem?_getD, List.getElem?_eq_none (not_lt.mp hk)] at hf
    cases hf

/-- What the rounds come to. -/
theorem relaxAll_final {rounds : Nat} {segs : Segments w} {s : Round w}
    (hnew : ∀ frags ∈ segs, ∀ f ∈ frags, f.frAddress = 0 ∧ f.lastFrAddress = 0)
    (h : relaxAll opts rounds segs = .ok s) (hr : s.reports = []) :
    s.segs.map (List.map Frag.shape) = segs.map (List.map Frag.shape) ∧
      ∀ k < segs.length, Final opts k s.segs.addresses (s.segs.getD k []) := by
  have hstart : Kept segs { segs } := ⟨settled_of_new hnew, fun _ => rfl⟩
  obtain ⟨s₀, hs₀, hquiet⟩ := exists_quiet_step (fun _ _ _ => relaxRound_kept) hstart h
  have hshape := (relaxRound_kept hs₀ hquiet).shape hr
  refine ⟨hshape, fun k hk => ?_⟩
  simp only [relaxRound] at hquiet
  split at hquiet
  · cases hquiet
  · next segs' reports' changed hsec =>
    cases hquiet
    have hlen : s₀.segs.length = segs.length := by
      have hl := congrArg List.length (hs₀.shape ((relaxSections_keeps hsec hs₀.settled).2 hr).1)
      rwa [List.length_map, List.length_map] at hl
    obtain ⟨haddr, -, hfinal⟩ :=
      relaxSections_quiet hsec hr hs₀.settled List.nodup_range fun k => List.mem_range.mp
    rw [haddr]
    exact hfinal k (List.mem_range.mpr (hlen ▸ hk))

end Rounds

/-- A branch to a target in its section is short if and only if `md_apply_fix` finds the target in range. -/
def BranchFits (k : Nat) (addrs : Addresses w) (f : Frag w) : Prop :=
  ∀ insn uncond likely link toofar target, f.frSubtype = .branch insn uncond likely link toofar →
    f.target k addrs = some target →
    (toofar = false ↔ inBranchRange (resolvedFix insn f.frAddress f.frFix target).value = true)

theorem branchFits_of_placed (hw : 32 ≤ w) {opts : Options} {k : Nat} {addrs : Addresses w} {f : Frag w}
    {next : BitVec w} (h : Placed opts k addrs f next) : BranchFits k addrs f := by
  intro insn uncond likely link toofar target hsub htarget
  rw [Placed, hsub] at h
  have hfar : isTooFar (some ⟨f.frAddress, f.frFix, f.target k addrs, uncond, likely, link, toofar⟩) = toofar :=
    congrArg Prod.snd h.1
  rw [← hfar, ← Bool.not_eq_true, isTooFar_iff hw htarget, Bool.not_eq_false]
  rfl

/-- After an alignment whose padding is not too much, the low bits of the address are clear. -/
def AlignmentMet (f : Frag w) (next : BitVec w) : Prop :=
  ∀ max, f.frSubtype = .align max →
    (max = 0 ∨ (relaxAlign (f.frAddress + f.frFix) f.frOffset).toNat ≤ max.toNat) →
    next &&& alignMask f.frOffset = 0

theorem add_relaxAlign_and (address alignment : BitVec w) :
    (address + relaxAlign address alignment) &&& alignMask alignment = 0 := by
  rw [relaxAlign, add_sub_cancel, BitVec.and_assoc, BitVec.and_comm (~~~alignMask alignment), BitVec.and_not_self]
  exact BitVec.and_zero

theorem alignmentMet_of_placed {opts : Options} {k : Nat} {addrs : Addresses w} {f : Frag w} {next : BitVec w}
    (h : Placed opts k addrs f next) : AlignmentMet f next := by
  intro max hsub hmax
  have hl : Linked f next := by
    rw [Placed, hsub] at h
    exact h
  have hpad : f.padding max (f.frAddress + f.frFix) = relaxAlign (f.frAddress + f.frFix) f.frOffset :=
    if_neg fun hn => hmax.elim hn.1 fun hle => absurd hn.2 (not_lt.mpr hle)
  have hnext := hl _ (by rw [Frag.size?, hsub]; rfl)
  rw [hnext, hpad]
  exact add_relaxAlign_and ..

/-- A loop whose branch back is too far, code that is aligned, a `.org`, and data with the size of the code. -/
def farLoop : Segments 32 :=
  [[{ frFix := 6, frVar := 1, frOffset := 0x30000, frSubtype := .fill },
      { frFix := 2, frVar := 1, frOffset := 3, frSubtype := .align 0 },
      { frFix := 0, frVar := 4, frSymbol := some (.label 0 0 0),
        frSubtype := .branch 0x14400000 false false false false },
      { frFix := 4, frVar := 1, frOffset := 0x40000, frSubtype := .org },
      { frFix := 8, frVar := 0, frSubtype := .fill }],
    [{ frFix := 4, frVar := 1, frSymbol := some (.subtract (.label 0 3 0) (.label 0 2 0)), frSubtype := .space },
      { frFix := 0, frVar := 0, frSubtype := .fill }]]

/-- The loop and the data where they come to be. -/
def farLoopPlaced : Round 32 where
  segs :=
    [[{ frFix := 6, frVar := 1, frOffset := 0x30000, frSubtype := .fill },
        { frAddress := 0x30006, lastFrAddress := 0x30006, frFix := 2, frVar := 1, frOffset := 3,
          frSubtype := .align 0 },
        { frAddress := 0x30008, lastFrAddress := 0x30008, frFix := 0, frVar := 12, frSymbol := some (.label 0 0 0),
          frSubtype := .branch 0x14400000 false false false true },
        { frAddress := 0x30014, lastFrAddress := 0x30014, frFix := 4, frVar := 1, frOffset := 0x40000,
          frSubtype := .org },
        { frAddress := 0x40000, lastFrAddress := 0x40000, frFix := 8, frVar := 0, frSubtype := .fill }],
      [{ frFix := 4, frVar := 1, frSymbol := some (.subtract (.label 0 3 0) (.label 0 2 0)), frSubtype := .space },
        { frAddress := 16, lastFrAddress := 16, frFix := 0, frVar := 0, frSubtype := .fill }]]
  pass := 2

theorem relaxAll_farLoop : relaxAll ⟨true, false, false⟩ 2 farLoop = .ok farLoopPlaced := by decide +kernel

theorem new_farLoop : ∀ frags ∈ farLoop, ∀ f ∈ frags, f.frAddress = 0 ∧ f.lastFrAddress = 0 := by decide

end Rigel.Relax
