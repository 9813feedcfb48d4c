import Mathlib.Logic.Function.Basic
import Mathlib.Tactic.NormNum

/-!
# Packing

Ranges of numbers (`Span`), rounding up to an alignment (`alignUp`), and an
allocator that places one item after the other (`Bump`). Whatever is placed,
in whatever order, lies between the bound it started from and where the next
item would go, is aligned, and overlaps nothing placed before it (`Packed`);
`Packed.place` is one step and `Packed.places` a run.
-/

namespace Packing

/-- The numbers from `start` on, `len` of them. -/
structure Span where
  start : Nat
  len : Nat
  deriving DecidableEq, Repr

namespace Span

def stop (s : Span) : Nat := s.start + s.len

/-- One ends before the other starts. -/
def Disjoint (s t : Span) : Prop := s.stop ≤ t.start ∨ t.stop ≤ s.start

instance (s t : Span) : Decidable (s.Disjoint t) := inferInstanceAs (Decidable (_ ∨ _))

/-- The span lies in `[lo, hi)`. -/
def Within (s : Span) (lo hi : Nat) : Prop := lo ≤ s.start ∧ s.stop ≤ hi

instance (s : Span) (lo hi : Nat) : Decidable (s.Within lo hi) := inferInstanceAs (Decidable (_ ∧ _))

theorem Disjoint.symm {s t : Span} (h : s.Disjoint t) : t.Disjoint s := Or.symm h

theorem Within.mono {s : Span} {lo lo' hi hi' : Nat} (h : s.Within lo hi) (hl : lo' ≤ lo) (hh : hi ≤ hi') :
    s.Within lo' hi' := ⟨hl.trans h.1, h.2.trans hh⟩

end Span

/-- The next multiple of `a`. -/
def alignUp (n a : Nat) : Nat := (n + a - 1) / a * a

theorem dvd_alignUp (n a : Nat) : a ∣ alignUp n a := Nat.dvd_mul_left a _

theorem le_alignUp {n a : Nat} (ha : 0 < a) : n ≤ alignUp n a := by
  have h := Nat.div_add_mod (n + a - 1) a
  have hm := Nat.mod_lt (n + a - 1) ha
  rw [alignUp, Nat.mul_comm]
  omega

theorem alignUp_of_dvd {n a : Nat} (ha : 0 < a) (h : a ∣ n) : alignUp n a = n := by
  obtain ⟨k, rfl⟩ := h
  rw [alignUp, show a * k + a - 1 = a - 1 + a * k by omega, Nat.add_mul_div_left _ _ ha,
    Nat.div_eq_of_lt (by omega), Nat.zero_add, Nat.mul_comm]

/-- Nothing is added to a smaller number if it is the one, and aligned. -/
theorem alignUp_eq_iff {n m a : Nat} (ha : 0 < a) (h : m ≤ n) : alignUp n a = m ↔ n = m ∧ a ∣ m := by
  constructor
  · intro he
    have hle := le_alignUp (n := n) ha
    exact ⟨by omega, he ▸ dvd_alignUp n a⟩
  · rintro ⟨rfl, hd⟩
    exact alignUp_of_dvd ha hd

/-! ## One item after the other -/

/-- Where the next item goes, before it is aligned, and where each item is. -/
structure Bump (ι : Type) where
  next : Nat
  start : ι → Nat

section

variable {ι : Type} (size align : ι → Nat)

def Bump.span (b : Bump ι) (i : ι) : Span := ⟨b.start i, size i⟩

/-- What holds of the items placed so far, from `lo` on. -/
structure Packed (lo : Nat) (is : List ι) (b : Bump ι) : Prop where
  le_next : lo ≤ b.next
  within : ∀ i ∈ is, (b.span size i).Within lo b.next
  aligned : ∀ i ∈ is, align i ∣ b.start i
  disjoint : ∀ i ∈ is, ∀ j ∈ is, i ≠ j → (b.span size i).Disjoint (b.span size j)

/-- Nothing is placed yet. -/
theorem Packed.nil (b : Bump ι) : Packed size align b.next [] b :=
  ⟨Nat.le_refl _, nofun, nofun, nofun⟩

end

variable {ι : Type} [DecidableEq ι] (size align : ι → Nat)

/-- Item `i` is placed at the next multiple of its alignment. -/
def Bump.place (b : Bump ι) (i : ι) : Bump ι where
  next := alignUp b.next (align i) + size i
  start := Function.update b.start i (alignUp b.next (align i))

variable {size align}

theorem Bump.place_start_self (b : Bump ι) (i : ι) :
    (b.place size align i).start i = alignUp b.next (align i) := Function.update_self ..

theorem Bump.place_start_of_ne (b : Bump ι) {i j : ι} (h : j ≠ i) :
    (b.place size align i).start j = b.start j := Function.update_of_ne h ..

theorem Bump.place_span_of_ne (b : Bump ι) {i j : ι} (h : j ≠ i) :
    (b.place size align i).span size j = b.span size j := by
  simp only [span, place, Function.update_of_ne h]

/-- The item placed next starts after everything placed so far. -/
theorem Packed.place {lo : Nat} {is : List ι} {b : Bump ι} (h : Packed size align lo is b) {i : ι}
    (ha : 0 < align i) (hi : i ∉ is) : Packed size align lo (i :: is) (b.place size align i) := by
  have hup : b.next ≤ alignUp b.next (align i) := le_alignUp ha
  have hne : ∀ j ∈ is, j ≠ i := fun j hj e => hi (e ▸ hj)
  have hnew : (b.place size align i).span size i = ⟨alignUp b.next (align i), size i⟩ := by
    rw [Bump.span, b.place_start_self]
  have hold : ∀ j ∈ is, ((b.place size align i).span size i).Disjoint ((b.place size align i).span size j) := by
    intro j hj
    rw [hnew, b.place_span_of_ne (hne j hj)]
    exact .inr ((h.within j hj).2.trans hup)
  refine ⟨h.le_next.trans (hup.trans (Nat.le_add_right ..)), ?_, ?_, ?_⟩
  · intro j hj
    rcases List.mem_cons.mp hj with rfl | hj
    · rw [hnew]; exact ⟨h.le_next.trans hup, Nat.le_refl _⟩
    · rw [b.place_span_of_ne (hne j hj)]
      exact (h.within j hj).mono (Nat.le_refl _) (hup.trans (Nat.le_add_right ..))
  · intro j hj
    rcases List.mem_cons.mp hj with rfl | hj
    · rw [b.place_start_self]; exact dvd_alignUp ..
    · rw [b.place_start_of_ne (hne j hj)]
      exact h.aligned j hj
  · intro j hj k hk hjk
    rcases List.mem_cons.mp hj with rfl | hj' <;> rcases List.mem_cons.mp hk with rfl | hk'
    · exact absurd rfl hjk
    · exact hold k hk'
    · exact (hold j hj').symm
    · rw [b.place_span_of_ne (hne j hj'), b.place_span_of_ne (hne k hk')]
      exact h.disjoint j hj' k hk' hjk

/-- Items placed one after the other, none of them twice. -/
theorem Packed.places {lo : Nat} {is : List ι} {b : Bump ι} (h : Packed size align lo is b)
    (ha : ∀ i, 0 < align i) (order : List ι) (hn : order.Nodup) (hd : ∀ i ∈ order, i ∉ is) :
    Packed size align lo (order.reverse ++ is) (order.foldl (Bump.place size align) b) := by
  induction order generalizing is b with
  | nil => exact h
  | cons i order ih =>
    rw [List.nodup_cons] at hn
    have hstep := h.place (ha i) (hd i (List.mem_cons_self ..))
    have := ih hstep hn.2 fun j hj hm => by
      rcases List.mem_cons.mp hm with rfl | hm
      · exact hn.1 hj
      · exact hd j (List.mem_cons_of_mem _ hj) hm
    simpa using this

/-- An item that is not placed again stays. -/
theorem Bump.start_places_of_notMem (b : Bump ι) {is : List ι} {j : ι} (h : j ∉ is) :
    (is.foldl (Bump.place size align) b).start j = b.start j := by
  induction is generalizing b with
  | nil => rfl
  | cons i is ih =>
    rw [List.mem_cons, not_or] at h
    rw [List.foldl_cons, ih _ h.2, b.place_start_of_ne h.1]

/-- Items of one size, which is their alignment, lie next to each other. -/
theorem Bump.start_row {c : Nat} (hc : 0 < c) (b : Bump ι) {is : List ι} (hn : is.Nodup)
    (hs : ∀ i ∈ is, size i = c) (ha : ∀ i ∈ is, align i = c) {k : Nat} {j : ι} (hk : is[k]? = some j) :
    (is.foldl (Bump.place size align) b).start j = alignUp b.next c + c * k := by
  induction is generalizing b k with
  | nil => cases hk
  | cons i is ih =>
    rw [List.nodup_cons] at hn
    have hi := ha i (List.mem_cons_self ..)
    cases k with
    | zero =>
      obtain rfl := Option.some.inj hk
      rw [List.foldl_cons, Bump.start_places_of_notMem _ hn.1, b.place_start_self, hi, Nat.mul_zero, Nat.add_zero]
    | succ k =>
      have hnext : (b.place size align i).next = alignUp b.next c + c := by
        rw [Bump.place, hi, hs i (List.mem_cons_self ..)]
      rw [List.foldl_cons, ih _ hn.2 (fun x hx => hs x (List.mem_cons_of_mem _ hx))
        (fun x hx => ha x (List.mem_cons_of_mem _ hx)) hk, hnext,
        alignUp_of_dvd hc ((Nat.dvd_add_right (dvd_alignUp ..)).mpr (Nat.dvd_refl c)), Nat.mul_succ]
      omega

end Packing
