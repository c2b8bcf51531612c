import Mathlib.Data.List.Basic
import Mathlib.Data.List.Nodup
import Mathlib.Order.Lattice

/-!
# Stable insertion sort by a descending key

`insertDesc` puts an element before the first one with a smaller key, and
`sortDesc` inserts the elements of a list one after the other. The result is
sorted by non-increasing key, has the same elements, and keeps the relative
order of elements with the same key.

`Precedes l a b` says that `a` stands before `b` in `l`. For a list without
duplicates, `precedes_sortDesc_iff` describes the sorted order completely.
-/

namespace StableSort

variable {α κ : Type*}

/-! ## The order in which the elements of a list stand -/

/-- `a` stands strictly before `b` in `l`. -/
def Precedes (l : List α) (a b : α) : Prop := [a, b].Sublist l

instance [DecidableEq α] (l : List α) (a b : α) : Decidable (Precedes l a b) :=
  inferInstanceAs (Decidable ([a, b].Sublist l))

theorem Precedes.mem_left {l : List α} {a b : α} (h : Precedes l a b) : a ∈ l :=
  h.subset (by simp)

theorem Precedes.mem_right {l : List α} {a b : α} (h : Precedes l a b) : b ∈ l :=
  h.subset (by simp)

theorem precedes_cons_iff {l : List α} {x a b : α} :
    Precedes (x :: l) a b ↔ (a = x ∧ b ∈ l) ∨ Precedes l a b := by
  constructor
  · intro h
    cases h with
    | cons _ h => exact Or.inr h
    | cons_cons _ h => exact Or.inl ⟨rfl, List.singleton_sublist.mp h⟩
  · rintro (⟨rfl, hb⟩ | h)
    · exact List.Sublist.cons_cons a (List.singleton_sublist.mpr hb)
    · exact List.Sublist.cons x h

theorem precedes_total {l : List α} {a b : α} (ha : a ∈ l) (hb : b ∈ l) (hne : a ≠ b) :
    Precedes l a b ∨ Precedes l b a := by
  induction l with
  | nil => simp at ha
  | cons x l ih =>
      simp only [precedes_cons_iff]
      rcases List.mem_cons.mp ha with rfl | ha' <;> rcases List.mem_cons.mp hb with rfl | hb'
      · exact absurd rfl hne
      · exact Or.inl (Or.inl ⟨rfl, hb'⟩)
      · exact Or.inr (Or.inl ⟨rfl, ha'⟩)
      · exact (ih ha' hb').imp Or.inr Or.inr

theorem Precedes.trans {l : List α} {a b c : α} (hnd : l.Nodup) (hab : Precedes l a b)
    (hbc : Precedes l b c) : Precedes l a c := by
  induction l with
  | nil => exact absurd hab.mem_left (by simp)
  | cons x l ih =>
      rw [List.nodup_cons] at hnd
      simp only [precedes_cons_iff] at hab hbc ⊢
      rcases hbc with ⟨rfl, hc⟩ | hbc
      · rcases hab with ⟨rfl, hb⟩ | hab
        · exact Or.inl ⟨rfl, hc⟩
        · -- the head of the list would stand behind another element
          exact absurd hab.mem_right hnd.1
      · rcases hab with ⟨rfl, _⟩ | hab
        · exact Or.inl ⟨rfl, hbc.mem_right⟩
        · exact Or.inr (ih hnd.2 hab hbc)

/-- The elements that pass a test stand in the same order as before. -/
theorem precedes_filter_iff {l : List α} {p : α → Bool} {a b : α} :
    Precedes (l.filter p) a b ↔ Precedes l a b ∧ p a ∧ p b := by
  induction l with
  | nil => simp [Precedes]
  | cons x l ih =>
      by_cases hx : p x
      · rw [List.filter_cons_of_pos hx, precedes_cons_iff, precedes_cons_iff, ih, List.mem_filter]
        constructor
        · rintro (⟨rfl, hb, hpb⟩ | ⟨h, hp⟩)
          · exact ⟨Or.inl ⟨rfl, hb⟩, hx, hpb⟩
          · exact ⟨Or.inr h, hp⟩
        · rintro ⟨⟨rfl, hb⟩ | h, hpa, hpb⟩
          · exact Or.inl ⟨rfl, hb, hpb⟩
          · exact Or.inr ⟨h, hpa, hpb⟩
      · rw [List.filter_cons_of_neg hx, ih, precedes_cons_iff]
        constructor
        · exact fun ⟨h, hp⟩ => ⟨Or.inr h, hp⟩
        · rintro ⟨⟨rfl, _⟩ | h, hp⟩
          · exact absurd hp.1 hx
          · exact ⟨h, hp⟩

theorem precedes_map_iff {l : List α} {f : α → κ} {u v : κ} :
    Precedes (l.map f) u v ↔ ∃ a b, Precedes l a b ∧ u = f a ∧ v = f b := by
  unfold Precedes
  rw [List.sublist_map_iff]
  constructor
  · rintro ⟨l', hsub, heq⟩
    rcases l' with _ | ⟨a, _ | ⟨b, _ | ⟨c, l'⟩⟩⟩
    all_goals simp at heq
    exact ⟨a, b, hsub, heq⟩
  · rintro ⟨a, b, hsub, rfl, rfl⟩
    exact ⟨[a, b], hsub, rfl⟩

theorem precedes_append_iff {l m : List α} {a b : α} :
    Precedes (l ++ m) a b ↔ Precedes l a b ∨ (a ∈ l ∧ b ∈ m) ∨ Precedes m a b := by
  induction l with
  | nil => simp [Precedes]
  | cons x l ih =>
      simp only [List.cons_append, precedes_cons_iff, ih, List.mem_append, List.mem_cons]
      constructor
      · rintro (⟨rfl, hb | hb⟩ | h | ⟨ha, hb⟩ | h)
        · exact Or.inl (Or.inl ⟨rfl, hb⟩)
        · exact Or.inr (Or.inl ⟨Or.inl rfl, hb⟩)
        · exact Or.inl (Or.inr h)
        · exact Or.inr (Or.inl ⟨Or.inr ha, hb⟩)
        · exact Or.inr (Or.inr h)
      · rintro ((⟨rfl, hb⟩ | h) | ⟨rfl | ha, hb⟩ | h)
        · exact Or.inl ⟨rfl, Or.inl hb⟩
        · exact Or.inr (Or.inl h)
        · exact Or.inl ⟨rfl, Or.inr hb⟩
        · exact Or.inr (Or.inr (Or.inl ⟨ha, hb⟩))
        · exact Or.inr (Or.inr (Or.inr h))

/-- Nothing comes after the last element. -/
theorem not_precedes_getLast {l : List α} {m b : α} (hnd : l.Nodup) (hm : l.getLast? = some m) :
    ¬ Precedes l m b := by
  rcases List.getLast?_eq_some_iff.mp hm with ⟨init, rfl⟩
  intro h
  rcases precedes_append_iff.mp h with h | ⟨hmem, _⟩ | h
  · exact (List.nodup_append.mp hnd).2.2 m h.mem_left m (List.mem_singleton_self m) rfl
  · exact (List.nodup_append.mp hnd).2.2 m hmem m (List.mem_singleton_self m) rfl
  · exact absurd (List.Sublist.length_le h) (by simp)

/-! ## Insertion sort -/

variable [LinearOrder κ] (key : α → κ)

/-- Insert `x` before the first element whose key is smaller. -/
def insertDesc (x : α) : List α → List α
  | [] => [x]
  | y :: ys => if key y < key x then x :: y :: ys else y :: insertDesc x ys

/-- Insert the elements one after the other into a list that starts empty. -/
def sortDesc (l : List α) : List α :=
  l.foldl (fun sorted x => insertDesc key x sorted) []

/-- Sorted by non-increasing key. -/
def Descending (l : List α) : Prop := l.Pairwise fun a b => key b ≤ key a

theorem insertDesc_perm (x : α) (l : List α) : (insertDesc key x l).Perm (x :: l) := by
  induction l with
  | nil => exact List.Perm.refl _
  | cons y l ih =>
      by_cases h : key y < key x
      · simp [insertDesc, h]
      · simpa [insertDesc, h] using (ih.cons y).trans (List.Perm.swap x y l)

theorem insertDesc_descending {l : List α} (x : α) (hl : Descending key l) :
    Descending key (insertDesc key x l) := by
  induction l with
  | nil => simp [insertDesc, Descending]
  | cons y l ih =>
      have hy := List.pairwise_cons.mp hl
      by_cases h : key y < key x
      · rw [insertDesc, if_pos h]
        refine List.pairwise_cons.mpr ⟨fun b hb => ?_, hl⟩
        rcases List.mem_cons.mp hb with rfl | hb
        · exact h.le
        · exact (hy.1 b hb).trans h.le
      · rw [insertDesc, if_neg h]
        refine List.pairwise_cons.mpr ⟨fun b hb => ?_, ih hy.2⟩
        rcases List.mem_cons.mp ((insertDesc_perm key x l).mem_iff.mp hb) with rfl | hb
        · exact not_lt.mp h
        · exact hy.1 b hb

/-- Among the elements of its key, the inserted element comes last. -/
theorem insertDesc_filter {l : List α} (x : α) (hl : Descending key l) (k : κ) :
    (insertDesc key x l).filter (fun a => key a = k) =
      l.filter (fun a => key a = k) ++ [x].filter (fun a => key a = k) := by
  induction l with
  | nil => simp [insertDesc]
  | cons y l ih =>
      have hy := List.pairwise_cons.mp hl
      by_cases h : key y < key x
      · rw [insertDesc, if_pos h]
        by_cases hx : key x = k
        · -- everything from `y` on has a smaller key than `k`
          have hnone : (y :: l).filter (fun a => key a = k) = [] := by
            refine List.filter_eq_nil_iff.mpr fun b hb => ?_
            rcases List.mem_cons.mp hb with rfl | hb
            · simpa using (hx ▸ h).ne
            · simpa using ((hy.1 b hb).trans_lt (hx ▸ h)).ne
          rw [List.filter_cons_of_pos (by simpa using hx), hnone]
          simp [hx]
        · simp [hx]
      · rw [insertDesc, if_neg h, List.filter_cons, List.filter_cons, ih hy.2]
        split <;> simp

/-- What the loop over the elements keeps: the sorted part is descending, holds
the elements seen so far and, for each key, in the order they were seen. -/
theorem foldl_insertDesc (l sorted : List α) (hs : Descending key sorted) :
    Descending key (l.foldl (fun sorted x => insertDesc key x sorted) sorted) ∧
    (l.foldl (fun sorted x => insertDesc key x sorted) sorted).Perm (sorted ++ l) ∧
    ∀ k, (l.foldl (fun sorted x => insertDesc key x sorted) sorted).filter
        (fun a => key a = k) = (sorted ++ l).filter fun a => key a = k := by
  induction l generalizing sorted with
  | nil => simpa using hs
  | cons x l ih =>
      rcases ih (insertDesc key x sorted) (insertDesc_descending key x hs) with
        ⟨hdesc, hperm, hfilter⟩
      refine ⟨hdesc, hperm.trans ?_, fun k => ?_⟩
      · have hins : (insertDesc key x sorted ++ l).Perm (x :: sorted ++ l) :=
          (insertDesc_perm key x sorted).append_right l
        exact hins.trans List.perm_middle.symm
      · rw [List.foldl_cons, hfilter k, List.filter_append, insertDesc_filter key x hs,
          List.append_assoc, ← List.filter_append, ← List.filter_append, List.singleton_append]

theorem sortDesc_descending (l : List α) : Descending key (sortDesc key l) :=
  (foldl_insertDesc key l [] List.Pairwise.nil).1

theorem sortDesc_perm (l : List α) : (sortDesc key l).Perm l :=
  (foldl_insertDesc key l [] List.Pairwise.nil).2.1

theorem sortDesc_filter (l : List α) (k : κ) :
    (sortDesc key l).filter (fun a => key a = k) = l.filter fun a => key a = k :=
  (foldl_insertDesc key l [] List.Pairwise.nil).2.2 k

/-- The sorted order: a larger key first, and equal keys as in the input. -/
theorem precedes_sortDesc_iff {l : List α} {a b : α} (hnd : l.Nodup) (ha : a ∈ l) (hb : b ∈ l) :
    Precedes (sortDesc key l) a b ↔
      key b < key a ∨ (key a = key b ∧ Precedes l a b) := by
  have hnd' : (sortDesc key l).Nodup := (sortDesc_perm key l).nodup_iff.mpr hnd
  have ha' : a ∈ sortDesc key l := (sortDesc_perm key l).mem_iff.mpr ha
  have hb' : b ∈ sortDesc key l := (sortDesc_perm key l).mem_iff.mpr hb
  have hle : ∀ {x y : α}, Precedes (sortDesc key l) x y → key y ≤ key x := by
    intro x y h
    have hpair : [x, y].Pairwise fun a b => key b ≤ key a := (sortDesc_descending key l).sublist h
    simpa using hpair
  have hsame : key a = key b → (Precedes (sortDesc key l) a b ↔ Precedes l a b) := by
    intro heq
    -- among the elements of this key nothing has moved
    have hiff : ∀ m : List α, Precedes (m.filter fun x => key x = key b) a b ↔
        Precedes m a b := fun m => by simp [precedes_filter_iff, heq]
    rw [← hiff, sortDesc_filter, hiff]
  constructor
  · intro h
    rcases (hle h).lt_or_eq with hlt | heq
    · exact Or.inl hlt
    · exact Or.inr ⟨heq.symm, (hsame heq.symm).mp h⟩
  · rintro (hlt | ⟨heq, h⟩)
    · have hne : a ≠ b := fun hab => absurd hlt (hab ▸ lt_irrefl _)
      rcases precedes_total ha' hb' hne with h | h
      · exact h
      · exact absurd (hle h) (not_le.mpr hlt)
    · exact (hsame heq).mpr h

end StableSort
