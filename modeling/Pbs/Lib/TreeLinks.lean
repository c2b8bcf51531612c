import Mathlib.Data.List.Nodup
import Mathlib.Logic.Function.Basic

/-!
# Trees of linked cells

Every cell has a link to its first child, to its next sibling and to its parent.
`Linked m f parent first tail` says that the siblings that start at `first` and
end where the link to the next one is `tail` are the forest `f` of cells below
`parent`. The lemmas say what a change of one link does to it. A forest is given
as a binary tree: a first node, the forest of its children, and the rest of the
siblings.
-/

namespace TreeLinks

variable {α : Type*}

/-! ## Forests -/

/-- A list of trees. -/
inductive Forest (α : Type*) where
  | nil
  | node (a : α) (children rest : Forest α)

namespace Forest

/-- A node stands before its children, and these before its next sibling. -/
def preorder : Forest α → List α
  | nil => []
  | node a children rest => a :: (children.preorder ++ rest.preorder)

def append : Forest α → Forest α → Forest α
  | nil, g => g
  | node a children rest, g => node a children (rest.append g)

/-- The last of the siblings. -/
def last : Forest α → Option α
  | nil => none
  | node a _ nil => some a
  | node _ _ (node b children rest) => last (node b children rest)

@[simp] theorem preorder_nil : (nil : Forest α).preorder = [] := rfl

@[simp] theorem preorder_node (a : α) (c r : Forest α) :
    (node a c r).preorder = a :: (c.preorder ++ r.preorder) := rfl

@[simp] theorem nil_append (g : Forest α) : nil.append g = g := rfl

@[simp] theorem node_append (a : α) (c r g : Forest α) :
    (node a c r).append g = node a c (r.append g) := rfl

@[simp] theorem preorder_append (f g : Forest α) :
    (f.append g).preorder = f.preorder ++ g.preorder := by
  induction f with
  | nil => rfl
  | node a c r _ ih => simp [ih]

theorem last_node (a : α) (c r : Forest α) : (node a c r).last = r.last.or (some a) := by
  induction r generalizing a c with
  | nil => rfl
  | node b c' r' _ ih =>
      show (node b c' r').last = _
      rw [ih, Option.or_assoc, Option.some_or]

@[simp] theorem preorder_eq_nil {f : Forest α} : f.preorder = [] ↔ f = nil := by
  cases f with
  | nil => simp
  | node a c r => simp

theorem last_eq_none_iff {f : Forest α} : f.last = none ↔ f = nil := by
  cases f with
  | nil => simp [last]
  | node a c r => simp [last_node]

theorem last_mem {f : Forest α} {a : α} (h : f.last = some a) : a ∈ f.preorder := by
  induction f with
  | nil => simp [last] at h
  | node b c r _ ih =>
      cases r with
      | nil => simp_all [last]
      | node d c' r' =>
          have hmem := ih h
          simp only [preorder_node, List.mem_cons, List.mem_append] at hmem ⊢
          tauto

end Forest

open Forest

/-! ## Cells -/

/-- The links of every cell. -/
structure Links (α : Type*) where
  next : α → Option α
  list : α → Option α
  parent : α → Option α

/-- The cells from `first` on, below `parent`, up to the one that is followed by
`tail`. -/
def Linked (m : Links α) : Forest α → Option α → Option α → Option α → Prop
  | nil, _, first, tail => first = tail
  | node a children rest, parent, first, tail =>
      first = some a ∧ m.parent a = parent ∧ Linked m children (some a) (m.list a) none ∧
        Linked m rest parent (m.next a) tail

variable {m m' : Links α} {f g c r : Forest α} {parent first tail : Option α} {a : α}

theorem linked_append : Linked m (f.append g) parent first tail ↔
    ∃ mid, Linked m f parent first mid ∧ Linked m g parent mid tail := by
  induction f generalizing first with
  | nil => simp [Linked]
  | node a c r _ ih => simp [Linked, ih, and_assoc]

/-- The links of other cells do not matter. -/
theorem Linked.congr (h : Linked m f parent first tail)
    (hsame : ∀ a ∈ f.preorder,
      m'.next a = m.next a ∧ m'.list a = m.list a ∧ m'.parent a = m.parent a) :
    Linked m' f parent first tail := by
  induction f generalizing parent first tail with
  | nil => exact h
  | node a c r ihc ihr =>
      rcases h with ⟨hfirst, hparent, hc, hr⟩
      rcases hsame a (by simp) with ⟨hnext', hlist', hparent'⟩
      have hsamec : ∀ b ∈ c.preorder,
          m'.next b = m.next b ∧ m'.list b = m.list b ∧ m'.parent b = m.parent b :=
        fun b hb => hsame b (by simp [hb])
      have hsamer : ∀ b ∈ r.preorder,
          m'.next b = m.next b ∧ m'.list b = m.list b ∧ m'.parent b = m.parent b :=
        fun b hb => hsame b (by simp [hb])
      refine ⟨hfirst, hparent'.trans hparent, ?_, ?_⟩
      · rw [hlist']
        exact ihc hc hsamec
      · rw [hnext']
        exact ihr hr hsamer

theorem Linked.first_eq_none_iff (h : Linked m f parent first none) : first = none ↔ f = nil := by
  cases f with
  | nil => simpa [Linked] using h
  | node a c r => simp [h.1]

theorem Linked.next_last (h : Linked m f parent first tail) (hlast : f.last = some a) :
    m.next a = tail := by
  induction f generalizing first with
  | nil => simp [last] at hlast
  | node b c r _ ih =>
      cases r with
      | nil =>
          rw [last, Option.some_inj] at hlast
          rw [← hlast]
          exact h.2.2.2
      | node d c' r' => exact ih h.2.2.2 hlast

/-- Only cells of `s` may have changed. -/
def SameOutside (s : List α) (m m' : Links α) : Prop :=
  ∀ a, a ∉ s → m'.next a = m.next a ∧ m'.list a = m.list a ∧ m'.parent a = m.parent a

theorem SameOutside.refl (s : List α) (m : Links α) : SameOutside s m m :=
  fun _ _ => ⟨rfl, rfl, rfl⟩

theorem SameOutside.trans {s : List α} {m₁ m₂ m₃ : Links α} (h : SameOutside s m₁ m₂)
    (h' : SameOutside s m₂ m₃) : SameOutside s m₁ m₃ := by
  intro a ha
  rcases h a ha with ⟨hn, hl, hp⟩
  rcases h' a ha with ⟨hn', hl', hp'⟩
  exact ⟨hn'.trans hn, hl'.trans hl, hp'.trans hp⟩

theorem SameOutside.mono {s t : List α} (h : SameOutside s m m') (hst : s ⊆ t) :
    SameOutside t m m' :=
  fun a ha => h a fun hmem => ha (hst hmem)

theorem Linked.outside {s : List α} (h : Linked m f parent first tail) (hs : SameOutside s m m')
    (hdisj : ∀ a ∈ f.preorder, a ∉ s) : Linked m' f parent first tail :=
  h.congr fun a ha => hs a (hdisj a ha)

/-- What happens at a cell outside does not matter. -/
theorem Linked.outside_cell (h : Linked m f parent first tail) (hs : SameOutside [a] m m')
    (ha : a ∉ f.preorder) : Linked m' f parent first tail := by
  refine h.outside hs fun b hb hmem => ?_
  rw [List.mem_singleton] at hmem
  exact ha (hmem ▸ hb)

/-! ## Changing links -/

variable [DecidableEq α]

def Links.setNext (m : Links α) (a : α) (x : Option α) : Links α :=
  { m with next := Function.update m.next a x }

def Links.setList (m : Links α) (a : α) (x : Option α) : Links α :=
  { m with list := Function.update m.list a x }

def Links.setParent (m : Links α) (a : α) (x : Option α) : Links α :=
  { m with parent := Function.update m.parent a x }

section Updates

variable (m : Links α) (a b : α) (x : Option α)

@[simp] theorem Links.setNext_next : (m.setNext a x).next b = if b = a then x else m.next b :=
  Function.update_apply ..

@[simp] theorem Links.setNext_list : (m.setNext a x).list = m.list := rfl

@[simp] theorem Links.setNext_parent : (m.setNext a x).parent = m.parent := rfl

@[simp] theorem Links.setList_list : (m.setList a x).list b = if b = a then x else m.list b :=
  Function.update_apply ..

@[simp] theorem Links.setList_next : (m.setList a x).next = m.next := rfl

@[simp] theorem Links.setList_parent : (m.setList a x).parent = m.parent := rfl

@[simp] theorem Links.setParent_parent :
    (m.setParent a x).parent b = if b = a then x else m.parent b :=
  Function.update_apply ..

@[simp] theorem Links.setParent_next : (m.setParent a x).next = m.next := rfl

@[simp] theorem Links.setParent_list : (m.setParent a x).list = m.list := rfl

end Updates

theorem sameOutside_setNext (x : Option α) : SameOutside [a] m (m.setNext a x) := by
  intro b hb
  rw [List.mem_singleton] at hb
  simp [hb]

theorem sameOutside_setList (x : Option α) : SameOutside [a] m (m.setList a x) := by
  intro b hb
  rw [List.mem_singleton] at hb
  simp [hb]

theorem sameOutside_setParent (x : Option α) : SameOutside [a] m (m.setParent a x) := by
  intro b hb
  rw [List.mem_singleton] at hb
  simp [hb]

/-- The siblings may be cut off, or continued, after the last of them. -/
theorem Linked.setNext_last (h : Linked m f parent first tail) (hnodup : f.preorder.Nodup)
    (hlast : f.last = some a) (x : Option α) : Linked (m.setNext a x) f parent first x := by
  induction f generalizing first with
  | nil => simp [last] at hlast
  | node b c r _ ih =>
      rcases h with ⟨hfirst, hparent, hc, hr⟩
      have hnodup' := List.nodup_cons.mp hnodup
      have hdisj := (List.nodup_append.mp hnodup'.2).2.2
      cases r with
      | nil =>
          rw [last, Option.some_inj] at hlast
          subst hlast
          refine ⟨hfirst, hparent, ?_, by simp [Linked]⟩
          refine hc.outside_cell (sameOutside_setNext x) fun hmem => ?_
          exact hnodup'.1 (List.mem_append_left _ hmem)
      | node d c' r' =>
          have hmem : a ∈ (node d c' r').preorder := last_mem hlast
          have hba : b ≠ a := by
            rintro rfl
            exact hnodup'.1 (List.mem_append_right _ hmem)
          refine ⟨hfirst, hparent, ?_, ?_⟩
          · refine hc.outside_cell (sameOutside_setNext x) fun hmem' => ?_
            exact hdisj a hmem' a hmem rfl
          · rw [Links.setNext_next, if_neg hba]
            exact ih hr (List.nodup_append.mp hnodup'.2).2.1 hlast

end TreeLinks
