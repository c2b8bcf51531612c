import Pbs.Lib.LinkedList
import Pbs.Deps.Writers

/-!
# `list_sort` on linked cells

The packages are linked through the `list_head` each of them holds. `list_sort`
moves them one by one from the list it is given to a local one, and at the end
lets the head it was given take the place of the local one. The cells are modelled
with their two links, and the functions of `list.h` as the assignments they make.
-/

namespace Pbs.Deps.Linked

open LinkedList StableSort Relation

/-! ## The cells and the functions of `list.h` -/

/-- The address of a `struct list_head`. -/
inductive ListHead where
  /-- `&package->list`. -/
  | package (p : PkgId)
  /-- The list head `list_sort` is called with. -/
  | packages
  /-- The list head on the stack of `list_sort`. -/
  | sorted
deriving DecidableEq

/-- `list_entry`: the package a cell is part of. A list head is part of none. -/
def listEntry : ListHead → Option PkgId
  | .package p => some p
  | .packages => none
  | .sorted => none

/-- `INIT_LIST_HEAD`. -/
def initListHead (m : Links ListHead) (list : ListHead) : Links ListHead :=
  (m.setNext list list).setPrev list list

/-- `__list_add`. -/
def listAddBetween (m : Links ListHead) (new prev next : ListHead) : Links ListHead :=
  (((m.setPrev next new).setNext new next).setPrev new prev).setNext prev new

/-- `list_add`. -/
def listAdd (m : Links ListHead) (new head : ListHead) : Links ListHead :=
  listAddBetween m new head (m.next head)

/-- `list_add_tail`. -/
def listAddTail (m : Links ListHead) (new head : ListHead) : Links ListHead :=
  listAddBetween m new (m.prev head) head

/-- `__list_del`. -/
def listDel (m : Links ListHead) (prev next : ListHead) : Links ListHead :=
  (m.setPrev next prev).setNext prev next

/-- `list_del_init`. -/
def listDelInit (m : Links ListHead) (entry : ListHead) : Links ListHead :=
  initListHead (listDel m (m.prev entry) (m.next entry)) entry

/-- `list_empty`. -/
def listEmpty (m : Links ListHead) (head : ListHead) : Bool := m.next head = head

/-! ## `list_sort` -/

/-- `-ENOTEMPTY`. -/
def enotempty : ℤ := -39

/-- The `list_for_each_entry` loop over `sorted`, from the cell `pkg` on. -/
def insertLoop (numdeps : PkgId → ℕ) (package : PkgId) (pos : ListHead) :
    ℕ → Links ListHead → ListHead → Option (Links ListHead)
  | 0, _, _ => none
  | fuel + 1, m, pkg =>
      if pkg = .sorted then some m
      else do
        let entry ← listEntry pkg
        if numdeps package > numdeps entry then
          some (listAdd m pos (m.prev pkg))
        else
          insertLoop numdeps package pos fuel m (m.next pkg)

/-- The body of the `list_for_each_safe` loop. -/
def moveEntry (numdeps : PkgId → ℕ) (fuel : ℕ) (m : Links ListHead) (pos : ListHead) :
    Option (Links ListHead) := do
  let package ← listEntry pos
  let m := listDelInit m pos
  let m ← insertLoop numdeps package pos fuel m (m.next .sorted)
  some (if listEmpty m pos then listAddTail m (.package package) .sorted else m)

/-- The `list_for_each_safe` loop over `head`, from the cell `pos` on. -/
def sortLoop (numdeps : PkgId → ℕ) :
    ℕ → Links ListHead → ListHead → ListHead → Option (Links ListHead)
  | 0, _, _, _ => none
  | fuel + 1, m, pos, n =>
      if pos = .packages then some m
      else do
        let m ← moveEntry numdeps fuel m pos
        sortLoop numdeps fuel m n (m.next n)

/-- The last four assignments: `head` takes the place of `sorted`. -/
def relink (m : Links ListHead) : Links ListHead :=
  let m := m.setPrev .packages (m.prev .sorted)
  let m := m.setNext .packages (m.next .sorted)
  let m := m.setNext (m.prev .packages) .packages
  m.setPrev (m.next .packages) .packages

/-- `list_sort`: the value returned, and the links it leaves. -/
def listSort (numdeps : PkgId → ℕ) (fuel : ℕ) (m : Links ListHead) :
    Option (ℤ × Links ListHead) := do
  let m := initListHead m .sorted
  if listEmpty m .packages then
    some (0, m)
  else
    let pivot ← listEntry (m.next .packages)
    let m := listDelInit m (.package pivot)
    let m := listAdd m (.package pivot) .sorted
    let m ← sortLoop numdeps fuel m (m.next .packages) (m.next (m.next .packages))
    if listEmpty m .packages then some (0, relink m) else some (enotempty, m)

/-! ## One pass of the inner loop -/

variable {numdeps : PkgId → ℕ} {m m' : Links ListHead} {pre post rest l : List PkgId}
  {p : PkgId} {pos : ListHead} {fuel : ℕ}

/-- The list with the head `a` holds the packages `l`. -/
def Holds (m : Links ListHead) (a : ListHead) (l : List PkgId) : Prop :=
  Ring m a (l.map .package)

theorem Holds.ring {a : ListHead} (h : Holds m a l) : Ring m a (l.map .package) := h

theorem Holds.nodup {a : ListHead} (h : Holds m a l) : l.Nodup :=
  (List.nodup_cons.mp h.ring.nodup).2.of_map

theorem Holds.listEmpty_iff {a : ListHead} (h : Holds m a l) : listEmpty m a ↔ l = [] := by
  rw [listEmpty, decide_eq_true_iff, h.ring.next_eq_self_iff, List.map_eq_nil_iff]

theorem holds_split {a : ListHead} {q : PkgId} : Holds m a (pre ++ q :: post) ↔
    Ring m a (pre.map .package ++ .package q :: post.map .package) := by
  rw [Holds, List.map_append, List.map_cons]

/-- What one round of the outer loop has achieved once `p` is in the sorted list:
the other lists are as they were. -/
structure Inserted (m m' : Links ListHead) (p : PkgId) (sorted sorted' : List PkgId) : Prop where
  holds : Holds m' .sorted sorted'
  other : ∀ {a k}, Ring m a k → (∀ y ∈ a :: k, y ∉ ListHead.sorted :: (p :: sorted).map .package) →
    Ring m' a k

/-- Inserting a package into the sorted list leaves the other lists alone. -/
theorem insert_apart {sorted : List PkgId} {prev next : ListHead}
    (hprev : prev ∈ ListHead.sorted :: sorted.map .package)
    (hnext : next ∈ ListHead.sorted :: sorted.map .package) {a : ListHead} {k : List ListHead}
    (hk : Ring m a k) (hdisj : ∀ y ∈ a :: k, y ∉ ListHead.sorted :: (p :: sorted).map .package) :
    Ring (m.insert (.package p) prev next) a k := by
  have hsub : ∀ y ∈ ListHead.sorted :: sorted.map .package,
      y ∈ ListHead.sorted :: (p :: sorted).map .package := by
    intro y hy
    simp only [List.map_cons, List.mem_cons] at hy ⊢
    tauto
  refine hk.insert_other ?_ ?_ ?_
  · exact fun hmem => hdisj _ hmem (by simp)
  · exact fun hmem => hdisj _ hmem (hsub _ hprev)
  · exact fun hmem => hdisj _ hmem (hsub _ hnext)

theorem inserted_before {q : PkgId} (h : Holds m .sorted (pre ++ q :: post))
    (hp : p ∉ pre ++ q :: post) :
    Inserted m (listAdd m (.package p) (m.prev (.package q))) p (pre ++ q :: post)
      (pre ++ p :: q :: post) := by
  have hring := holds_split.mp h
  have hrot := ring_rotate.mp hring
  have hadd : listAdd m (.package p) (m.prev (.package q)) =
      m.insert (.package p) (m.prev (.package q)) (.package q) := by
    rw [listAdd, hrot.next_prev]
    rfl
  have hfresh : ListHead.package p ∉
      ListHead.sorted :: (pre.map .package ++ .package q :: post.map .package) := by
    simpa using hp
  rw [hadd]
  constructor
  · exact holds_split.mpr (hring.insert_before hfresh)
  · intro a k hk hdisj
    have hcells : ListHead.sorted :: (pre.map .package ++ .package q :: post.map .package) =
        ListHead.sorted :: (pre ++ q :: post).map .package := by simp
    have hprev := hring.prev_mem (b := .package q) (by simp)
    have hnext : ListHead.package q ∈ ListHead.sorted :: (pre ++ q :: post).map .package := by simp
    rw [hcells] at hprev
    exact insert_apart hprev hnext hk hdisj

theorem inserted_last (h : Holds m .sorted pre) (hp : p ∉ pre) :
    Inserted m (listAddTail m (.package p) .sorted) p pre (pre ++ [p]) := by
  have hfresh : ListHead.package p ∉ ListHead.sorted :: pre.map .package := by simpa using hp
  have hadd : listAddTail m (.package p) .sorted =
      m.insert (.package p) (m.prev .sorted) .sorted := rfl
  rw [hadd]
  constructor
  · exact holds_split.mpr (h.ring.insert hfresh)
  · intro a k hk hdisj
    exact insert_apart (h.ring.prev_mem (List.mem_cons_self ..)) (List.mem_cons_self ..) hk hdisj

/-- The inner loop puts the package where `insertDesc` does, unless that is the
end of the list: then it changes nothing. -/
theorem insertLoop_spec (numdeps : PkgId → ℕ) (h : Holds m .sorted (pre ++ post))
    (hp : p ∉ pre ++ post) (hfuel : post.length < fuel)
    (hpos : ∃ k, post.map ListHead.package ++ [.sorted] = pos :: k) :
    ∃ m', insertLoop numdeps p (.package p) fuel m pos = some m' ∧
      (Inserted m m' p (pre ++ post) (pre ++ insertDesc numdeps p post) ∧
          m'.next (.package p) ≠ .package p ∨
        m' = m ∧ insertDesc numdeps p post = post ++ [p]) := by
  induction post generalizing pre pos fuel with
  | nil =>
      rcases hpos with ⟨k, hk⟩
      obtain ⟨fuel, rfl⟩ : ∃ k, fuel = k + 1 := ⟨fuel - 1, by simp at hfuel; omega⟩
      have hsorted : pos = .sorted := by simp at hk; exact hk.1.symm
      exact ⟨m, by simp [insertLoop, hsorted], Or.inr ⟨rfl, rfl⟩⟩
  | cons q post ih =>
      rcases hpos with ⟨k, hk⟩
      obtain ⟨fuel, rfl⟩ : ∃ k, fuel = k + 1 := ⟨fuel - 1, by simp at hfuel; omega⟩
      have hq : pos = .package q := by simp at hk; exact hk.1.symm
      subst hq
      by_cases hlt : numdeps q < numdeps p
      · have hins := inserted_before h hp
        refine ⟨listAdd m (.package p) (m.prev (.package q)), ?_, Or.inl ⟨?_, ?_⟩⟩
        · simp [insertLoop, listEntry, hlt]
        · rw [insertDesc, if_pos hlt]
          exact hins
        · -- the package is followed by the one it was put before
          rw [(ring_rotate.mp (holds_split.mp hins.holds)).next_cons]
          intro heq
          apply hp
          rw [ListHead.package.inj heq]
          simp
      · have hassoc : pre ++ q :: post = (pre ++ [q]) ++ post := by simp
        have hnext := (holds_split.mp h).exists_next_of_split
        have hstep : insertLoop numdeps p (.package p) (fuel + 1) m (.package q) =
            insertLoop numdeps p (.package p) fuel m (m.next (.package q)) := by
          simp [insertLoop, listEntry, hlt]
        rw [hassoc] at h hp
        have hfuel' : post.length < fuel := by simp at hfuel; omega
        rcases ih h hp hfuel' hnext with ⟨m', hm', hres⟩
        refine ⟨m', hstep.trans hm', ?_⟩
        rw [insertDesc, if_neg hlt]
        rcases hres with ⟨hins, hne⟩ | ⟨rfl, htail⟩
        · exact Or.inl ⟨by simpa using hins, hne⟩
        · exact Or.inr ⟨rfl, by simp [htail]⟩

/-! ## The outer loop -/

/-- One round of the outer loop moves the first package of the list to its place
in the sorted one. -/
theorem moveEntry_spec (numdeps : PkgId → ℕ) {done : List PkgId} (h : Holds m .packages (p :: rest))
    (hsorted : Holds m .sorted done) (hnodup : (done ++ p :: rest).Nodup)
    (hfuel : done.length < fuel) :
    ∃ m', moveEntry numdeps fuel m (.package p) = some m' ∧ Holds m' .packages rest ∧
      Holds m' .sorted (insertDesc numdeps p done) := by
  have hp : p ∉ done := fun hmem => (List.nodup_append.mp hnodup).2.2 p hmem p (by simp) rfl
  have hrest : ∀ q ∈ rest, q ∉ p :: done := by
    intro q hq hmem
    have hperm : (p :: done ++ rest).Nodup := by
      rw [List.cons_append]
      exact List.perm_middle.nodup_iff.mp hnodup
    exact (List.nodup_append.mp hperm).2.2 q hmem q hq rfl
  -- the package has left its list and stands alone
  have hdel : listDelInit m (.package p) = m.remove (.package p) := rfl
  have hring : Ring m .packages (.package p :: rest.map .package) := h
  rcases hring.remove with ⟨hleft, halone⟩
  have hother : Ring (m.remove (.package p)) .sorted (done.map .package) := by
    refine hsorted.ring.remove_other hring fun y hy hmem => ?_
    simp only [List.mem_cons, List.mem_map] at hy hmem
    rcases hy with rfl | ⟨q, hq, rfl⟩
    · simp at hmem
    · have hq' : q ∈ p :: rest := by simpa using hmem
      exact (List.nodup_append.mp hnodup).2.2 q hq q hq' rfl
  have hapart : ∀ y ∈ ListHead.packages :: rest.map ListHead.package,
      y ∉ ListHead.sorted :: (p :: done).map .package := by
    intro y hy hmem
    rcases List.mem_cons.mp hy with rfl | hy
    · simp at hmem
    · rcases List.mem_map.mp hy with ⟨q, hq, rfl⟩
      exact hrest q hq (by simpa using hmem)
  have hdone : Holds (m.remove (.package p)) .sorted ([] ++ done) := hother
  rcases insertLoop_spec numdeps hdone hp hfuel hother.exists_next with ⟨m', hm', hres⟩
  rcases hres with ⟨hins, hne⟩ | ⟨rfl, htail⟩
  · refine ⟨m', ?_, hins.other hleft hapart, hins.holds⟩
    simp [moveEntry, listEntry, hdel, hm', listEmpty, hne]
  · -- no cell of the sorted list has a smaller counter
    have hins := inserted_last hother hp
    refine ⟨listAddTail (m.remove (.package p)) (.package p) .sorted, ?_,
      hins.other hleft hapart, htail ▸ hins.holds⟩
    simp [moveEntry, listEntry, hdel, hm', listEmpty, halone.next_nil.1]

theorem sortLoop_spec (numdeps : PkgId → ℕ) {done : List PkgId} {n : ListHead}
    (h : Holds m .packages rest) (hsorted : Holds m .sorted done) (hnodup : (done ++ rest).Nodup)
    (hfuel : done.length + 2 * rest.length < fuel)
    (hpos : pos = m.next .packages) (hn : n = m.next pos) :
    ∃ m', sortLoop numdeps fuel m pos n = some m' ∧ Holds m' .packages [] ∧
      Holds m' .sorted (rest.foldl (fun sorted x => insertDesc numdeps x sorted) done) := by
  induction rest generalizing done m pos n fuel with
  | nil =>
      obtain ⟨fuel, rfl⟩ : ∃ k, fuel = k + 1 := ⟨fuel - 1, by omega⟩
      rw [h.ring.next_nil.1] at hpos
      exact ⟨m, by simp [sortLoop, hpos], h, hsorted⟩
  | cons p rest ih =>
      rw [List.length_cons] at hfuel
      obtain ⟨fuel, rfl⟩ : ∃ k, fuel = k + 1 := ⟨fuel - 1, by omega⟩
      have hring : Ring m .packages (.package p :: rest.map .package) := h
      rw [hring.next_cons] at hpos
      subst hpos
      rcases moveEntry_spec numdeps h hsorted hnodup (by omega : done.length < fuel)
        with ⟨m', hm', hleft, hdone⟩
      have hlen : (insertDesc numdeps p done).length = done.length + 1 :=
        (insertDesc_perm numdeps p done).length_eq
      have hnodup' : (insertDesc numdeps p done ++ rest).Nodup := by
        have hperm : (done ++ p :: rest).Perm (insertDesc numdeps p done ++ rest) :=
          List.perm_middle.trans ((insertDesc_perm numdeps p done).append_right rest).symm
        exact hperm.nodup_iff.mp hnodup
      -- the cell remembered as the next one is now the first of the list
      have hnext : n = m'.next .packages := by
        have hsplit : Ring m .packages ([] ++ .package p :: rest.map .package) := hring
        rcases hsplit.exists_next_of_split with ⟨k, hk⟩
        rcases hleft.ring.exists_next with ⟨k', hk'⟩
        rw [hk] at hk'
        rw [hn]
        exact (List.cons.inj hk').1
      have hfuel' : (insertDesc numdeps p done).length + 2 * rest.length < fuel := by omega
      rcases ih hleft hdone hnodup' hfuel' hnext rfl with ⟨m'', hm'', hend⟩
      refine ⟨m'', ?_, hend⟩
      rw [sortLoop, if_neg (by simp), hm']
      exact hm''

/-! ## The whole function -/

/-- A new list head is in no list. -/
theorem Holds.init (h : Holds m .packages l) :
    Holds (initListHead m .sorted) .packages l ∧ Holds (initListHead m .sorted) .sorted [] := by
  constructor
  · refine h.ring.congr fun y hy => ?_
    have hne : y ≠ .sorted := by
      rcases List.mem_cons.mp hy with rfl | hy
      · simp
      · rcases List.mem_map.mp hy with ⟨p, _, rfl⟩
        simp
    simp [initListHead, hne]
  · exact ring_nil_iff.mpr (by simp [initListHead])

theorem relink_eq_replace (h : m.prev .sorted ≠ .packages) :
    relink m = m.replace .sorted .packages := by
  simp [relink, Links.replace, h.symm]

theorem relink_spec (h : Holds m .sorted (p :: l)) : Holds (relink m) .packages (p :: l) := by
  have hring : Ring m .sorted (.package p :: l.map .package) := h
  have hprev : m.prev .sorted ∈ ListHead.sorted :: .package p :: l.map .package :=
    hring.prev_mem (List.mem_cons_self ..)
  have hne : m.prev .sorted ≠ .packages := by
    intro heq
    rw [heq] at hprev
    simp at hprev
  rw [relink_eq_replace hne]
  exact hring.replace (by simp)

/-- The first package becomes the sorted list. -/
theorem pivot_spec (h : Holds m .packages (p :: l)) (hsorted : Holds m .sorted []) :
    Holds (listAdd (listDelInit m (.package p)) (.package p) .sorted) .packages l ∧
      Holds (listAdd (listDelInit m (.package p)) (.package p) .sorted) .sorted [p] := by
  have hring : Ring m .packages (.package p :: l.map .package) := h
  have hdel : listDelInit m (.package p) = m.remove (.package p) := rfl
  have hapart : ∀ y ∈ ListHead.sorted :: ([] : List PkgId).map .package,
      y ∉ ListHead.packages :: .package p :: l.map .package := by simp
  have hleft := hring.remove.1
  have hother : Holds (listDelInit m (.package p)) .sorted [] := by
    rw [hdel]
    exact hsorted.ring.remove_other hring hapart
  have hpivot : Inserted (listDelInit m (.package p))
      (listAdd (listDelInit m (.package p)) (.package p) .sorted) p [] [p] := by
    -- in an empty list the first place is the last one
    have htail : listAdd (listDelInit m (.package p)) (.package p) .sorted =
        listAddTail (listDelInit m (.package p)) (.package p) .sorted := by
      rw [listAdd, listAddTail, hother.ring.next_nil.1, hother.ring.next_nil.2]
    rw [htail]
    exact inserted_last hother List.not_mem_nil
  refine ⟨hpivot.other hleft fun y hy => ?_, hpivot.holds⟩
  rcases List.mem_cons.mp hy with rfl | hy
  · simp
  · rcases List.mem_map.mp hy with ⟨q, hq, rfl⟩
    have hpq : q ≠ p := fun heq => (List.nodup_cons.mp h.nodup).1 (heq ▸ hq)
    simpa using hpq

/-- `list_sort` leaves the list that the insertion sort by `numdeps` makes. -/
theorem listSort_eq_sortDesc (numdeps : PkgId → ℕ) (h : Holds m .packages l)
    (hfuel : 2 * l.length < fuel) :
    ∃ m', listSort numdeps fuel m = some (0, m') ∧ Holds m' .packages (sortDesc numdeps l) := by
  rcases h.init with ⟨hinit, hsorted⟩
  cases l with
  | nil =>
      have hempty : listEmpty (initListHead m .sorted) .packages := hinit.listEmpty_iff.mpr rfl
      exact ⟨initListHead m .sorted, by simp [listSort, hempty], hinit⟩
  | cons p l =>
      have hne : ¬ listEmpty (initListHead m .sorted) .packages := by
        rw [hinit.listEmpty_iff]
        exact List.cons_ne_nil p l
      have hentry : listEntry ((initListHead m .sorted).next .packages) = some p := by
        have hring : Ring (initListHead m .sorted) .packages
            (.package p :: l.map .package) := hinit
        rw [hring.next_cons]
        rfl
      rcases pivot_spec hinit hsorted with ⟨hrest, hpivot⟩
      have hfuel' : [p].length + 2 * l.length < fuel := by
        simp only [List.length_cons, List.length_nil] at hfuel ⊢
        omega
      rcases sortLoop_spec numdeps hrest hpivot hinit.nodup hfuel' rfl rfl with
        ⟨m', hm', hend, hdone⟩
      have hempty : listEmpty m' .packages := hend.listEmpty_iff.mpr rfl
      refine ⟨relink m', by simp [listSort, hne, hentry, hm', hempty], ?_⟩
      -- the sorted list has the packages of the one given, so it is not empty
      have hsort : sortDesc numdeps (p :: l) =
          l.foldl (fun sorted x => insertDesc numdeps x sorted) [p] := rfl
      rw [← hsort] at hdone
      have hlen := (sortDesc_perm numdeps (p :: l)).length_eq
      cases heq : sortDesc numdeps (p :: l) with
      | nil =>
          rw [heq] at hlen
          simp at hlen
      | cons q k => exact relink_spec (heq ▸ hdone)

/-- `list_sort`, called on a well-formed list, returns zero. The list it leaves is
well-formed again and has the same packages, the ones with the larger `numdeps`
first and those with the same `numdeps` in the order in which they were. The
local list head cannot be reached from it. -/
theorem listSort_spec (numdeps : PkgId → ℕ) {m : Links ListHead} {l : List PkgId}
    (h : Ring m .packages (l.map .package)) :
    ∃ n, ∀ fuel, n ≤ fuel → ∃ m' l', listSort numdeps fuel m = some (0, m') ∧
      Ring m' .packages (l'.map .package) ∧ l'.Perm l ∧ Descending numdeps l' ∧
      (∀ k, l'.filter (fun p => numdeps p = k) = l.filter fun p => numdeps p = k) ∧
      ¬ ReflTransGen (fun x y => y = m'.next x ∨ y = m'.prev x) .packages .sorted := by
  refine ⟨2 * l.length + 1, fun fuel hle => ?_⟩
  rcases listSort_eq_sortDesc numdeps h (by omega : 2 * l.length < fuel) with ⟨m', hm', hholds⟩
  refine ⟨m', sortDesc numdeps l, hm', hholds, sortDesc_perm numdeps l,
    sortDesc_descending numdeps l, sortDesc_filter numdeps l, fun hreach => ?_⟩
  have hmem := hholds.ring.reachable hreach
  simp at hmem

/-- `A` and `C` are needed once, `B` twice. -/
def threePackages : Links ListHead where
  next
    | .packages => .package 0
    | .package 0 => .package 1
    | .package 1 => .package 2
    | .package 2 => .packages
    | list => list
  prev
    | .packages => .package 2
    | .package 2 => .package 1
    | .package 1 => .package 0
    | .package 0 => .packages
    | list => list

theorem listSort_spec_threePackages :
    ∃ n, ∀ fuel, n ≤ fuel → ∃ m' l',
      listSort (fun p => if p = 1 then 2 else 1) fuel threePackages = some (0, m') ∧
      Ring m' .packages (l'.map .package) ∧ l'.Perm [0, 1, 2] ∧
      Descending (fun p : PkgId => if p = 1 then 2 else 1) l' ∧
      (∀ k, l'.filter (fun p => (if p = 1 then 2 else 1) = k) =
        [0, 1, 2].filter fun p => (if p = 1 then 2 else 1) = k) ∧
      ¬ ReflTransGen (fun x y => y = m'.next x ∨ y = m'.prev x) .packages .sorted :=
  listSort_spec (fun p => if p = 1 then 2 else 1) ⟨by decide, by decide⟩

/-- What the model of the writers takes for `list_sort` is what it does to the
links. -/
theorem listSort_refines (ps : Packages) {m : Links ListHead}
    (h : Ring m .packages (ps.list.map .package)) :
    ∃ n, ∀ fuel, n ≤ fuel → ∃ m', listSort (fun p => (ps.node p).numdeps) fuel m = some (0, m') ∧
      Ring m' .packages ((Deps.listSort ps).list.map .package) := by
  refine ⟨2 * ps.list.length + 1, fun fuel hle => ?_⟩
  exact listSort_eq_sortDesc _ h (by omega : 2 * ps.list.length < fuel)

end Pbs.Deps.Linked
