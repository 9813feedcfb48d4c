import Mathlib.Data.List.Nodup

/-!
# Elements moved before others

Lists of elements that are told apart by their keys, as a chain of records is by
their addresses. `moveBefore` takes an element out of its place and puts it, or
a new version of it, right before another. An element leads to a target
(`Leads`) if only companions of it stand between the two: `leads_moveBefore` and
`Leads.moveBefore` say what a move does to that, for the element that is moved
and for the others.
-/

namespace Chain

variable {α κ : Type} [DecidableEq κ] {key : α → κ}

/-- `x` is put before the element with key `k`. -/
def insertBefore (key : α → κ) (k : κ) (x : α) : List α → List α
  | [] => []
  | y :: l => if key y = k then x :: y :: l else y :: insertBefore key k x l

/-- The elements with other keys. -/
def without (key : α → κ) (k : κ) (l : List α) : List α := l.filter fun y => key y ≠ k

/-- `x` is taken out of its place and put before the element with key `k`. -/
def moveBefore (key : α → κ) (k : κ) (x : α) (l : List α) : List α := insertBefore key k x (without key (key x) l)

theorem mem_without {k : κ} {l : List α} {y : α} : y ∈ without key k l ↔ y ∈ l ∧ key y ≠ k := by
  simp [without]

theorem without_append (k : κ) (l l' : List α) : without key k (l ++ l') = without key k l ++ without key k l' :=
  List.filter_append ..

theorem without_cons_of_ne {k : κ} {x : α} (h : key x ≠ k) (l : List α) :
    without key k (x :: l) = x :: without key k l := by
  simp [without, h]

/-- The element is found. -/
theorem insertBefore_eq {k : κ} {x y : α} {l l' : List α} (hl : ∀ z ∈ l, key z ≠ k) (hy : key y = k) :
    insertBefore key k x (l ++ y :: l') = l ++ x :: y :: l' := by
  induction l with
  | nil => simp [insertBefore, hy]
  | cons z l ih =>
    rw [List.forall_mem_cons] at hl
    rw [List.cons_append, insertBefore, if_neg hl.1, ih hl.2]
    rfl

theorem insertBefore_append_of_mem {k : κ} {x y : α} {l l' : List α} (hy : y ∈ l) (hk : key y = k) :
    insertBefore key k x (l ++ l') = insertBefore key k x l ++ l' := by
  induction l with
  | nil => cases hy
  | cons z l ih =>
    rw [List.cons_append, insertBefore, insertBefore]
    split
    · rfl
    · rcases List.mem_cons.mp hy with rfl | hy
      · contradiction
      · rw [ih hy, List.cons_append]

theorem insertBefore_append_of_notMem {k : κ} {x : α} {l : List α} (hl : ∀ z ∈ l, key z ≠ k) (l' : List α) :
    insertBefore key k x (l ++ l') = l ++ insertBefore key k x l' := by
  induction l with
  | nil => rfl
  | cons z l ih =>
    rw [List.forall_mem_cons] at hl
    rw [List.cons_append, insertBefore, if_neg hl.1, ih hl.2]
    rfl

/-- Where an element with key `k` is first. -/
theorem exists_split {k : κ} {l : List α} {y : α} (hy : y ∈ l) (hk : key y = k) :
    ∃ pre z post, l = pre ++ z :: post ∧ key z = k ∧ ∀ w ∈ pre, key w ≠ k := by
  induction l with
  | nil => cases hy
  | cons z l ih =>
    by_cases hz : key z = k
    · exact ⟨[], z, l, rfl, hz, nofun⟩
    · rcases List.mem_cons.mp hy with rfl | hy
      · exact absurd hk hz
      · obtain ⟨pre, w, post, rfl, hw, hpre⟩ := ih hy
        exact ⟨z :: pre, w, post, rfl, hw, List.forall_mem_cons.mpr ⟨hz, hpre⟩⟩

/-- A move to an element of the list. -/
theorem moveBefore_split {k : κ} {x y : α} {l : List α} (hy : y ∈ l) (hk : key y = k) (hne : k ≠ key x) :
    ∃ pre z post, without key (key x) l = pre ++ z :: post ∧ key z = k ∧
      moveBefore key k x l = pre ++ x :: z :: post := by
  obtain ⟨pre, z, post, he, hz, hpre⟩ := exists_split (mem_without.mpr ⟨hy, fun e => hne (hk.symm.trans e)⟩) hk
  exact ⟨pre, z, post, he, hz, by rw [moveBefore, he, insertBefore_eq hpre hz]⟩

/-- The others keep their order. -/
theorem without_moveBefore {k : κ} {x : α} {l : List α} :
    without key (key x) (moveBefore key k x l) = without key (key x) l := by
  have h (l : List α) : without key (key x) (insertBefore key k x l) = without key (key x) l := by
    induction l with
    | nil => rfl
    | cons y l ih =>
      rw [insertBefore]
      split
      · simp [without]
      · by_cases hy : key y = key x
        · simpa [without, hy] using ih
        · rw [without_cons_of_ne hy, without_cons_of_ne hy, ih]
  rw [moveBefore, h]
  simp [without]

/-- Nothing but the element changes. -/
theorem perm_moveBefore {k : κ} {x y : α} {l : List α} (hy : y ∈ l) (hk : key y = k) (hne : k ≠ key x) :
    (moveBefore key k x l).Perm (x :: without key (key x) l) := by
  obtain ⟨pre, z, post, he, -, hm⟩ := moveBefore_split hy hk hne
  rw [hm, he]
  exact List.perm_middle

theorem perm_cons_without {x : α} {l : List α} (hn : (l.map key).Nodup) (hx : x ∈ l) :
    (x :: without key (key x) l).Perm l := by
  induction l with
  | nil => cases hx
  | cons y l ih =>
    rw [List.map_cons, List.nodup_cons] at hn
    rcases List.mem_cons.mp hx with rfl | hx
    · have hl : without key (key x) l = l := by
        refine List.filter_eq_self.mpr fun z hz => decide_eq_true fun he => hn.1 ?_
        rw [← he]
        exact List.mem_map_of_mem hz
      rw [show without key (key x) (x :: l) = without key (key x) l by simp [without], hl]
    · have hne : key y ≠ key x := fun e => hn.1 (e.symm ▸ List.mem_map_of_mem hx)
      rw [without_cons_of_ne hne]
      exact (List.Perm.swap ..).trans ((ih hn.2 hx).cons y)

/-- The keys are those of the list. -/
theorem map_key_moveBefore {k : κ} {x x' y : α} {l : List α} (hn : (l.map key).Nodup) (hx : x ∈ l)
    (hx' : key x' = key x) (hy : y ∈ l) (hk : key y = k) (hne : k ≠ key x) :
    ((moveBefore key k x' l).map key).Perm (l.map key) := by
  refine ((perm_moveBefore hy hk (hx' ▸ hne)).map key).trans ?_
  rw [List.map_cons, hx', ← List.map_cons]
  exact (perm_cons_without hn hx).map key

/-! ## Leading to a target -/

/-- Only companions stand before a target. -/
inductive Followed (P Q : α → Prop) : List α → Prop
  | here {y : α} {l : List α} : Q y → Followed P Q (y :: l)
  | there {z : α} {l : List α} : P z → Followed P Q l → Followed P Q (z :: l)

namespace Followed

variable {P Q : α → Prop}

/-- An element that is no target is taken out. -/
theorem without {k : κ} {l : List α} (h : Followed P Q l) (hk : ∀ y ∈ l, key y = k → ¬Q y) :
    Followed P Q (Chain.without key k l) := by
  induction h with
  | @here y l hy =>
    rw [without_cons_of_ne fun e => hk y (List.mem_cons_self ..) e hy]
    exact .here hy
  | @there z l hz _ ih =>
    have ih := ih fun y hy => hk y (List.mem_cons_of_mem _ hy)
    by_cases he : key z = k
    · rw [show Chain.without key k (z :: l) = Chain.without key k l by simp [Chain.without, he]]
      exact ih
    · rw [without_cons_of_ne he]
      exact .there hz ih

/-- One is put in before an element that is no companion: it is one itself if that
element is the target. -/
theorem insertBefore {k : κ} {x : α} {l : List α} (h : Followed P Q l) (hk : ∀ y ∈ l, key y = k → ¬P y)
    (hx : ∀ y ∈ l, key y = k → Q y → P x) : Followed P Q (Chain.insertBefore key k x l) := by
  induction h with
  | @here y l hy =>
    rw [Chain.insertBefore]
    split
    · exact .there (hx y (List.mem_cons_self ..) ‹_› hy) (.here hy)
    · exact .here hy
  | @there z l hz _ ih =>
    rw [Chain.insertBefore, if_neg fun e => hk z (List.mem_cons_self ..) e hz]
    exact .there hz (ih (fun y hy => hk y (List.mem_cons_of_mem _ hy)) fun y hy => hx y (List.mem_cons_of_mem _ hy))

theorem append {l : List α} (h : Followed P Q l) (l' : List α) : Followed P Q (l ++ l') := by
  induction h with
  | here hy => exact .here hy
  | there hz _ ih => exact .there hz ih

theorem map {P' Q' : α → Prop} {f : α → α} (hP : ∀ x, P x → P' (f x)) (hQ : ∀ x, Q x → Q' (f x)) {l : List α}
    (h : Followed P Q l) : Followed P' Q' (l.map f) := by
  induction h with
  | here hy => exact .here (hQ _ hy)
  | there hz _ ih => exact .there (hP _ hz) ih

end Followed

/-- The element with key `k` leads to a target of its own. -/
def Leads (key : α → κ) (P Q : α → α → Prop) (k : κ) (l : List α) : Prop :=
  ∃ pre x post, l = pre ++ x :: post ∧ key x = k ∧ Followed (P x) (Q x) post

variable {P Q : α → α → Prop}

/-- An element that is moved before a target of its leads to it. -/
theorem leads_moveBefore {k : κ} {x y : α} {l : List α} (hy : y ∈ l) (hk : key y = k) (hne : k ≠ key x)
    (hq : ∀ z ∈ l, key z = k → Q x z) : Leads key P Q (key x) (moveBefore key k x l) := by
  obtain ⟨pre, z, post, he, hz, hm⟩ := moveBefore_split hy hk hne
  have hzl : z ∈ l := (mem_without.mp (he ▸ List.mem_append_right _ (List.mem_cons_self ..))).1
  exact ⟨pre, x, z :: post, hm, rfl, .here (hq z hzl hz)⟩

/-- Another element still leads to its target after a move, if what is moved is no
target, and is a companion where it is moved before a target. -/
theorem Leads.moveBefore {j k : κ} {x : α} {l : List α} (h : Leads key P Q j l) (hj : j ≠ key x)
    (hx : ∀ y ∈ l, key y = key x → ∀ h ∈ l, ¬Q h y) (hk : ∀ y ∈ l, key y = k → ∀ h ∈ l, ¬P h y)
    (hp : ∀ h ∈ l, ∀ y ∈ l, key y = k → Q h y → P h x) : Leads key P Q j (Chain.moveBefore key k x l) := by
  obtain ⟨pre, h, post, rfl, rfl, hf⟩ := h
  have hmem : h ∈ pre ++ h :: post := List.mem_append_right _ (List.mem_cons_self ..)
  have hpost {y : α} (hy : y ∈ post) : y ∈ pre ++ h :: post := List.mem_append_right _ (List.mem_cons_of_mem _ hy)
  have hf' : Followed (P h) (Q h) (without key (key x) post) := hf.without fun y hy e => hx y (hpost hy) e h hmem
  rw [Chain.moveBefore, without_append, without_cons_of_ne hj]
  by_cases hin : ∃ y ∈ without key (key x) pre, key y = k
  · obtain ⟨y, hy, hyk⟩ := hin
    rw [insertBefore_append_of_mem hy hyk]
    exact ⟨_, h, _, rfl, rfl, hf'⟩
  · have hout : ∀ y ∈ without key (key x) pre, key y ≠ k := fun y hy e => hin ⟨y, hy, e⟩
    rw [insertBefore_append_of_notMem hout, insertBefore]
    split
    · exact ⟨_ ++ [x], h, _, by rw [List.append_assoc]; rfl, rfl, hf'⟩
    · refine ⟨_, h, _, rfl, rfl, hf'.insertBefore (fun y hy e => ?_) fun y hy e hq => ?_⟩
      · exact hk y (hpost (mem_without.mp hy).1) e h hmem
      · exact hp h hmem y (hpost (mem_without.mp hy).1) e hq

omit [DecidableEq κ] in
/-- A longer list changes nothing for an element that leads to a target. -/
theorem Leads.append {k : κ} {l : List α} (h : Leads key P Q k l) (l₁ l₂ : List α) :
    Leads key P Q k (l₁ ++ l ++ l₂) := by
  obtain ⟨pre, x, post, rfl, hx, hf⟩ := h
  exact ⟨l₁ ++ pre, x, post ++ l₂, by simp, hx, hf.append l₂⟩

omit [DecidableEq κ] in
/-- Nor does changing the elements, if those that belong together are changed alike. -/
theorem Leads.map {k : κ} {l : List α} (h : Leads key P Q k l) {f : α → α} (hkey : ∀ x, key (f x) = key x)
    (hP : ∀ x ∈ l, key x = k → ∀ z, P x z → P (f x) (f z)) (hQ : ∀ x ∈ l, key x = k → ∀ y, Q x y → Q (f x) (f y)) :
    Leads key P Q k (l.map f) := by
  obtain ⟨pre, x, post, rfl, rfl, hf⟩ := h
  have hx : x ∈ pre ++ x :: post := List.mem_append_right _ (List.mem_cons_self ..)
  exact ⟨pre.map f, f x, post.map f, by simp, hkey x, hf.map (hP x hx rfl) (hQ x hx rfl)⟩

end Chain
