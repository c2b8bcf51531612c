import Mathlib.Data.List.Chain
import Mathlib.Data.List.Nodup
import Mathlib.Logic.Function.Basic
import Mathlib.Logic.Relation

/-!
# Circular doubly linked lists

Every cell has a link to the next and one to the previous cell. `Ring m a l` says
that from `a` the links run through the cells of `l` and back to `a`, with the
links in both directions inverse to each other. Inserting a cell before the
entry point of a ring and taking one out behind it are enough to describe every
change of a list, since a ring may be entered at any of its cells
(`ring_rotate`).
-/

namespace LinkedList

variable {α : Type*}

/-- The two links of every cell. -/
structure Links (α : Type*) where
  next : α → α
  prev : α → α

/-- `b` comes right after `a`. -/
def Adjacent (m : Links α) (a b : α) : Prop := m.next a = b ∧ m.prev b = a

instance [DecidableEq α] (m : Links α) : DecidableRel (Adjacent m) :=
  fun a b => inferInstanceAs (Decidable (m.next a = b ∧ m.prev b = a))

/-- The cells of a circular list, from the entry point `a` on. -/
structure Ring (m : Links α) (a : α) (l : List α) : Prop where
  nodup : (a :: l).Nodup
  adjacent : (a :: l ++ [a]).IsChain (Adjacent m)

/-! ## Reading a ring -/

variable {m m' : Links α} {a b : α} {l : List α}

theorem Ring.next_nil (h : Ring m a []) : m.next a = a ∧ m.prev a = a :=
  (List.isChain_cons_cons.mp h.adjacent).1

theorem Ring.next_cons (h : Ring m a (b :: l)) : m.next a = b :=
  (List.isChain_cons_cons.mp h.adjacent).1.1

/-- A cell that is linked to itself is the empty list. -/
theorem ring_nil_iff : Ring m a [] ↔ m.next a = a ∧ m.prev a = a := by
  constructor
  · exact fun h => h.next_nil
  · intro h
    exact ⟨List.nodup_singleton a, List.isChain_cons_cons.mpr ⟨h, List.IsChain.singleton a⟩⟩

theorem Ring.prev_cons {x : α} (h : Ring m a (x :: l)) : m.prev x = a :=
  (List.isChain_cons_cons.mp h.adjacent).1.2

/-- The entry point is followed by itself only when the list is empty. -/
theorem Ring.next_eq_self_iff (h : Ring m a l) : m.next a = a ↔ l = [] := by
  cases l with
  | nil => simpa using h.next_nil.1
  | cons b l =>
      have hne : b ≠ a := fun heq => (List.nodup_cons.mp h.nodup).1 (by simp [heq])
      simpa [h.next_cons] using hne

/-- A ring may be entered at any of its cells. -/
theorem ring_rotate {pre post : List α} :
    Ring m a (pre ++ b :: post) ↔ Ring m b (post ++ a :: pre) := by
  have hperm : (a :: (pre ++ b :: post)).Perm (b :: (post ++ a :: pre)) := by
    have hswap : (a :: pre ++ b :: post).Perm (b :: post ++ a :: pre) := List.perm_append_comm
    simpa using hswap
  have hchain : (a :: (pre ++ b :: post) ++ [a]).IsChain (Adjacent m) ↔
      (b :: (post ++ a :: pre) ++ [b]).IsChain (Adjacent m) := by
    -- both are the stretch from `a` to `b` and the one from `b` to `a`
    have hleft : (a :: (pre ++ b :: post) ++ [a]).IsChain (Adjacent m) ↔
        (a :: pre ++ [b]).IsChain (Adjacent m) ∧ (b :: post ++ [a]).IsChain (Adjacent m) := by
      have hsplit : a :: (pre ++ b :: post) ++ [a] = (a :: pre) ++ b :: (post ++ [a]) := by simp
      rw [hsplit]
      exact List.isChain_split
    have hright : (b :: (post ++ a :: pre) ++ [b]).IsChain (Adjacent m) ↔
        (b :: post ++ [a]).IsChain (Adjacent m) ∧ (a :: pre ++ [b]).IsChain (Adjacent m) := by
      have hsplit : b :: (post ++ a :: pre) ++ [b] = (b :: post) ++ a :: (pre ++ [b]) := by simp
      rw [hsplit]
      exact List.isChain_split
    rw [hleft, hright]
    exact and_comm
  constructor
  · intro h
    exact ⟨hperm.nodup_iff.mp h.nodup, hchain.mp h.adjacent⟩
  · intro h
    exact ⟨hperm.nodup_iff.mpr h.nodup, hchain.mpr h.adjacent⟩

theorem Ring.exists_next (h : Ring m a l) : ∃ k, l ++ [a] = m.next a :: k := by
  cases l with
  | nil => exact ⟨[], by rw [h.next_nil.1, List.nil_append]⟩
  | cons b l => exact ⟨l ++ [a], by rw [h.next_cons, List.cons_append]⟩

/-- What follows a cell inside the list. -/
theorem Ring.exists_next_of_split {pre post : List α} (h : Ring m a (pre ++ b :: post)) :
    ∃ k, post ++ [a] = m.next b :: k := by
  have hrot := ring_rotate.mp h
  cases post with
  | nil => exact ⟨[], by rw [hrot.next_cons, List.nil_append]⟩
  | cons c post => exact ⟨post ++ [a], by rw [hrot.next_cons, List.cons_append]⟩

/-- Following links from the entry point never leaves the ring. -/
theorem Ring.mem_of_next (h : Ring m a l) (hb : b ∈ a :: l) : m.next b ∈ a :: l := by
  rcases List.mem_cons.mp hb with rfl | hb
  · cases l with
    | nil => simp [h.next_nil.1]
    | cons c l => simp [h.next_cons]
  · rcases List.append_of_mem hb with ⟨pre, post, rfl⟩
    have hrot := ring_rotate.mp h
    cases post with
    | nil => simp [hrot.next_cons]
    | cons c post => simp [hrot.next_cons]

theorem Ring.prev_last (h : Ring m a (l ++ [b])) : m.prev a = b := by
  have hsplit : a :: (l ++ [b]) ++ [a] = (a :: l) ++ b :: [a] := by simp
  have hchain := h.adjacent
  rw [hsplit, List.isChain_split] at hchain
  exact (List.isChain_cons_cons.mp hchain.2).1.2

/-- The last cell of a ring is the one before the entry point. -/
theorem Ring.exists_last (h : Ring m a l) : ∃ init, a :: l = init ++ [m.prev a] := by
  rcases List.eq_nil_or_concat l with rfl | ⟨k, b, rfl⟩
  · exact ⟨[], by rw [h.next_nil.2, List.nil_append]⟩
  · rw [List.concat_eq_append] at h ⊢
    exact ⟨a :: k, by rw [h.prev_last, List.cons_append]⟩

theorem Ring.next_prev (h : Ring m a l) : m.next (m.prev a) = a := by
  rcases List.eq_nil_or_concat l with rfl | ⟨k, b, rfl⟩
  · rw [h.next_nil.2, h.next_nil.1]
  · rw [List.concat_eq_append] at h
    rw [h.prev_last]
    exact (ring_rotate.mp h).next_cons

theorem Ring.prev_mem (h : Ring m a l) (hb : b ∈ a :: l) : m.prev b ∈ a :: l := by
  have hentry : ∀ {c : α} {k : List α}, Ring m c k → m.prev c ∈ c :: k := by
    intro c k hk
    rcases List.eq_nil_or_concat k with rfl | ⟨k, d, rfl⟩
    · simp [hk.next_nil.2]
    · rw [List.concat_eq_append] at hk ⊢
      simp [hk.prev_last]
  rcases List.mem_cons.mp hb with rfl | hb
  · exact hentry h
  · rcases List.append_of_mem hb with ⟨pre, post, rfl⟩
    have hmem := hentry (ring_rotate.mp h)
    simp only [List.mem_cons, List.mem_append] at hmem ⊢
    tauto

/-- What links lead to from the entry point are the cells of the ring. -/
theorem Ring.reachable (h : Ring m a l)
    (hb : Relation.ReflTransGen (fun x y => y = m.next x ∨ y = m.prev x) a b) : b ∈ a :: l := by
  induction hb with
  | refl => exact List.mem_cons_self ..
  | tail _ hstep ih =>
      rcases hstep with rfl | rfl
      · exact h.mem_of_next ih
      · exact h.prev_mem ih

/-! ## Changing links -/

/-- A stretch of a list stays when the links along it stay. -/
theorem isChain_congr {l : List α} (h : l.IsChain (Adjacent m))
    (hnext : ∀ x ∈ l.dropLast, m'.next x = m.next x) (hprev : ∀ x ∈ l.tail, m'.prev x = m.prev x) :
    l.IsChain (Adjacent m') := by
  induction l with
  | nil => exact List.IsChain.nil
  | cons x l ih =>
      cases l with
      | nil => exact List.IsChain.singleton x
      | cons y l =>
          rcases List.isChain_cons_cons.mp h with ⟨⟨hxy, hyx⟩, hrest⟩
          refine List.isChain_cons_cons.mpr ⟨⟨?_, ?_⟩, ih hrest ?_ ?_⟩
          · rw [hnext x (by simp), hxy]
          · rw [hprev y (by simp), hyx]
          · intro z hz
            exact hnext z (List.mem_cons_of_mem x hz)
          · intro z hz
            exact hprev z (List.mem_of_mem_tail hz)

/-- Links of other cells do not matter for a ring. -/
theorem Ring.congr (h : Ring m a l) (hsame : ∀ x ∈ a :: l, m'.next x = m.next x ∧
    m'.prev x = m.prev x) : Ring m' a l where
  nodup := h.nodup
  adjacent := by
    refine isChain_congr h.adjacent (fun x hx => (hsame x ?_).1) fun x hx => (hsame x ?_).2
    · rwa [List.dropLast_concat] at hx
    · rw [List.cons_append, List.tail_cons, List.mem_append, List.mem_singleton] at hx
      exact List.mem_cons.mpr hx.symm

variable [DecidableEq α]

def Links.setNext (m : Links α) (x y : α) : Links α := { m with next := Function.update m.next x y }

def Links.setPrev (m : Links α) (x y : α) : Links α := { m with prev := Function.update m.prev x y }

@[simp] theorem Links.setNext_next (m : Links α) (x y z : α) :
    (m.setNext x y).next z = if z = x then y else m.next z :=
  Function.update_apply ..

@[simp] theorem Links.setNext_prev (m : Links α) (x y : α) : (m.setNext x y).prev = m.prev := rfl

@[simp] theorem Links.setPrev_prev (m : Links α) (x y z : α) :
    (m.setPrev x y).prev z = if z = x then y else m.prev z :=
  Function.update_apply ..

@[simp] theorem Links.setPrev_next (m : Links α) (x y : α) : (m.setPrev x y).next = m.next := rfl

/-- Put the cell `x` between `p` and `n`. -/
def Links.insert (m : Links α) (x p n : α) : Links α :=
  (((m.setPrev n x).setNext x n).setPrev x p).setNext p x

/-- Take the cell `x` out of its list and make it a list of its own. -/
def Links.remove (m : Links α) (x : α) : Links α :=
  (((m.setPrev (m.next x) (m.prev x)).setNext (m.prev x) (m.next x)).setNext x x).setPrev x x

/-- Let `a` take the place of the cell `b` in the list of `b`. -/
def Links.replace (m : Links α) (b a : α) : Links α :=
  (((m.setPrev a (m.prev b)).setNext a (m.next b)).setNext (m.prev b) a).setPrev (m.next b) a

/-- Inserting a new cell before the entry point appends it to the list. -/
theorem Ring.insert {x : α} (h : Ring m a l) (hx : x ∉ a :: l) :
    Ring (m.insert x (m.prev a) a) a (l ++ [x]) := by
  rcases h.exists_last with ⟨init, hinit⟩
  let p := m.prev a
  have hp : p ∈ a :: l := h.prev_mem (List.mem_cons_self ..)
  have hxa : x ≠ a := fun heq => hx (by simp [heq])
  have hxp : x ≠ p := fun heq => hx (heq ▸ hp)
  have hnodup := h.nodup
  refine ⟨?_, ?_⟩
  · rw [← List.cons_append]
    refine List.nodup_append.mpr ⟨h.nodup, List.nodup_singleton x, fun y hy z hz => ?_⟩
    rw [List.mem_singleton.mp hz]
    exact fun heq => hx (heq ▸ hy)
  · -- the stretch up to the old last cell is as before
    have hsplit : a :: (l ++ [x]) ++ [a] = init ++ p :: x :: [a] := by
      rw [← List.cons_append, hinit]
      simp [p]
    have hold : (init ++ [p]).IsChain (Adjacent m) := by
      have hchain := h.adjacent
      rw [hinit, List.append_assoc] at hchain
      exact (List.isChain_split.mp hchain).1
    rw [hsplit, List.isChain_append_cons_cons]
    refine ⟨isChain_congr hold (fun z hz => ?_) (fun z hz => ?_), ?_, ?_⟩
    · rw [List.dropLast_concat] at hz
      have hzmem : z ∈ a :: l := by
        rw [hinit]
        exact List.mem_append_left _ hz
      have hzx : z ≠ x := fun heq => hx (heq ▸ hzmem)
      have hzp : z ≠ p := by
        rw [hinit] at hnodup
        exact (List.nodup_append.mp hnodup).2.2 z hz p (List.mem_singleton_self p)
      simp [Links.insert, hzx, hzp, p]
    · rw [← hinit, List.tail_cons] at hz
      have hzx : z ≠ x := fun heq => hx (heq ▸ List.mem_cons_of_mem a hz)
      have hza : z ≠ a := fun heq => (List.nodup_cons.mp hnodup).1 (heq ▸ hz)
      simp [Links.insert, hzx, hza]
    · exact ⟨by simp [Links.insert, p], by simp [Links.insert, p]⟩
    · refine List.isChain_pair.mpr ⟨?_, ?_⟩
      · simp [Links.insert, hxp, p]
      · simp [Links.insert, hxa.symm]

/-- A new cell can be inserted before any cell of the list. -/
theorem Ring.insert_before {x : α} {pre post : List α} (h : Ring m a (pre ++ b :: post))
    (hx : x ∉ a :: (pre ++ b :: post)) :
    Ring (m.insert x (m.prev b) b) a (pre ++ x :: b :: post) := by
  have hxrot : x ∉ b :: (post ++ a :: pre) := by
    intro hmem
    apply hx
    simp only [List.mem_cons, List.mem_append] at hmem ⊢
    tauto
  have hins := (ring_rotate.mp h).insert hxrot
  have hsplit : pre ++ x :: b :: post = (pre ++ [x]) ++ b :: post := by simp
  rw [hsplit]
  rw [List.append_assoc, List.cons_append] at hins
  exact ring_rotate.mpr hins

/-- Other lists stay as they are when a cell is inserted. -/
theorem Ring.insert_other {x p n : α} (h : Ring m a l) (hx : x ∉ a :: l) (hp : p ∉ a :: l)
    (hn : n ∉ a :: l) : Ring (m.insert x p n) a l := by
  refine h.congr fun z hz => ?_
  have hzx : z ≠ x := fun heq => hx (heq ▸ hz)
  have hzp : z ≠ p := fun heq => hp (heq ▸ hz)
  have hzn : z ≠ n := fun heq => hn (heq ▸ hz)
  simp [Links.insert, hzx, hzp, hzn]

/-- The cell behind the entry point can be taken out. -/
theorem Ring.remove {x : α} (h : Ring m a (x :: l)) :
    Ring (m.remove x) a l ∧ Ring (m.remove x) x [] := by
  have hnodup := h.nodup
  have hxa : x ≠ a := fun heq => (List.nodup_cons.mp hnodup).1 (by simp [heq])
  have hprev := h.prev_cons
  refine ⟨⟨?_, ?_⟩, ring_nil_iff.mpr ⟨by simp [Links.remove], by simp [Links.remove]⟩⟩
  · exact hnodup.sublist (List.Sublist.cons_cons a (List.sublist_cons_self x l))
  · -- what follows `x` is `n`, which may be the entry point
    rcases List.exists_cons_of_ne_nil (l := l ++ [a]) (by simp) with ⟨n, rest, hrest⟩
    have hchain := h.adjacent
    rw [List.cons_append, List.cons_append, hrest] at hchain
    have hold := (List.isChain_cons_cons.mp (List.isChain_cons_cons.mp hchain).2)
    have hnext : m.next x = n := hold.1.1
    have hnodup' : (x :: n :: rest).Nodup := by
      rw [← hrest]
      have hperm : (x :: (l ++ [a])).Perm (a :: x :: l) := by
        have hswap : (x :: l ++ [a]).Perm ([a] ++ x :: l) := List.perm_append_comm
        simpa using hswap
      exact hperm.nodup_iff.mpr hnodup
    have hxn : n ≠ x := fun heq => (List.nodup_cons.mp hnodup').1 (by simp [heq])
    rw [List.cons_append, hrest]
    refine List.isChain_cons_cons.mpr
      ⟨⟨?_, ?_⟩, isChain_congr hold.2 (fun z hz => ?_) fun z hz => ?_⟩
    · simp [Links.remove, hprev, hnext, hxa.symm]
    · simp [Links.remove, hprev, hnext, hxn]
    · rw [← hrest, List.dropLast_concat] at hz
      have hza : z ≠ a := fun heq => (List.nodup_cons.mp hnodup).1 (by simp [← heq, hz])
      have hzx : z ≠ x := fun heq =>
        (List.nodup_cons.mp (List.nodup_cons.mp hnodup).2).1 (heq ▸ hz)
      simp [Links.remove, hprev, hza, hzx]
    · rw [List.tail_cons] at hz
      have hzx : z ≠ x := fun heq => (List.nodup_cons.mp hnodup').1 (by simp [← heq, hz])
      have hzn : z ≠ n := fun heq =>
        (List.nodup_cons.mp (List.nodup_cons.mp hnodup').2).1 (heq ▸ hz)
      simp [Links.remove, hnext, hzx, hzn]

/-- Other lists stay as they are when a cell is taken out. -/
theorem Ring.remove_other {x : α} {k : List α} (h : Ring m a l) (hx : Ring m b (x :: k))
    (hdisj : ∀ y ∈ a :: l, y ∉ b :: x :: k) : Ring (m.remove x) a l := by
  refine h.congr fun z hz => ?_
  have hxmem : x ∈ b :: x :: k := by simp
  have hzx : z ≠ x := fun heq => hdisj z hz (heq ▸ hxmem)
  have hzn : z ≠ m.next x := fun heq => hdisj z hz (heq ▸ hx.mem_of_next hxmem)
  have hzp : z ≠ m.prev x := fun heq => hdisj z hz (heq ▸ hx.prev_mem hxmem)
  simp [Links.remove, hzx, hzn, hzp]

/-- Another cell can take the place of the entry point of a list that is not
empty. -/
theorem Ring.replace {c : α} (h : Ring m b (c :: l)) (ha : a ∉ b :: c :: l) :
    Ring (m.replace b a) a (c :: l) := by
  let p := m.prev b
  have hnodup := (List.nodup_cons.mp h.nodup).2
  have hb : b ∉ c :: l := (List.nodup_cons.mp h.nodup).1
  have hac : a ∉ c :: l := fun hmem => ha (List.mem_cons_of_mem b hmem)
  have hnext : m.next b = c := h.next_cons
  -- the last cell of the list
  have hlast : ∃ init, c :: l = init ++ [p] := by
    rcases List.eq_nil_or_concat (c :: l) with hnil | ⟨init, d, hinit⟩
    · simp at hnil
    · rw [List.concat_eq_append] at hinit
      rw [hinit] at h
      exact ⟨init, by rw [hinit, show p = d from h.prev_last]⟩
  rcases hlast with ⟨init, hinit⟩
  have hp : p ∈ c :: l := by simp [hinit]
  have hap : a ≠ p := fun heq => hac (heq ▸ hp)
  have hca : c ≠ a := fun heq => hac (by simp [heq])
  have hold : (c :: l).IsChain (Adjacent m) := by
    have hchain : (c :: l ++ [b]).IsChain (Adjacent m) := (List.isChain_cons_cons.mp h.adjacent).2
    rw [hinit, List.append_assoc] at hchain
    rw [hinit]
    exact (List.isChain_split.mp hchain).1
  refine ⟨List.nodup_cons.mpr ⟨hac, hnodup⟩, ?_⟩
  have hnew : (c :: l).IsChain (Adjacent (m.replace b a)) := by
    refine isChain_congr hold (fun z hz => ?_) fun z hz => ?_
    · have hzmem : z ∈ c :: l := List.dropLast_subset _ hz
      rw [hinit, List.dropLast_concat] at hz
      have hza : z ≠ a := fun heq => hac (heq ▸ hzmem)
      have hzp : z ≠ m.prev b := by
        rw [hinit] at hnodup
        exact (List.nodup_append.mp hnodup).2.2 z hz p (List.mem_singleton_self p)
      simp [Links.replace, hza, hzp]
    · rw [List.tail_cons] at hz
      have hza : z ≠ a := fun heq => hac (by simp [← heq, hz])
      have hzc : z ≠ c := fun heq => (List.nodup_cons.mp hnodup).1 (heq ▸ hz)
      simp [Links.replace, hza, hnext, hzc]
  rw [List.cons_append, List.cons_append]
  refine List.isChain_cons_cons.mpr ⟨⟨?_, ?_⟩, ?_⟩
  · simp [Links.replace, hnext, show a ≠ m.prev b from hap]
  · simp [Links.replace, hnext]
  · rw [← List.cons_append, hinit, List.append_assoc]
    refine List.isChain_split.mpr ⟨hinit ▸ hnew, List.isChain_pair.mpr ⟨?_, ?_⟩⟩
    · simp [Links.replace, p]
    · simp [Links.replace, hnext, hca.symm, p]

end LinkedList
