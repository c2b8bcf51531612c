import Mathlib.Logic.Function.Basic
import Mathlib.Data.Nat.Notation

/-!
# Files with several names

A directory: names that lead to files, and the contents of the files. Creating,
writing, linking, renaming and removing are single steps. Two names may lead to
one file, and a file without a name can still be written by those who have it
open; `Apart` says that two names do not lead to one file.
-/

namespace Files

/-- The file behind every name, the contents of the files, and a number that
belongs to no file yet. -/
structure FileSystem (N D : Type*) where
  inode : N → Option ℕ
  data : ℕ → D
  next : ℕ
  inode_lt : ∀ n i, inode n = some i → i < next

namespace FileSystem

variable {N D : Type*}

/-- The contents behind a name. -/
def read (fs : FileSystem N D) (n : N) : Option D := (fs.inode n).map fs.data

/-- Two names do not lead to one file. -/
def Apart (fs : FileSystem N D) (n m : N) : Prop := ∀ i, fs.inode n = some i → fs.inode m ≠ some i

/-- Write a file that is open. -/
def write (fs : FileSystem N D) (i : ℕ) (d : D) : FileSystem N D :=
  { fs with data := Function.update fs.data i d }

/-- The file that opening a name for writing comes to: the one behind the name,
or a new one. -/
def slot (fs : FileSystem N D) (n : N) : ℕ := (fs.inode n).getD fs.next

section Names

variable {fs : FileSystem N D} {n m : N} {d : D} {i : ℕ}

theorem read_eq_none : fs.read n = none ↔ fs.inode n = none := Option.map_eq_none_iff

theorem read_of_inode (h : fs.inode n = some i) : fs.read n = some (fs.data i) := by
  simp [read, h]

theorem Apart.symm (h : fs.Apart n m) : fs.Apart m n := fun i hm hn => h i hn hm

theorem apart_of_none (h : fs.inode n = none) : fs.Apart n m := by
  intro i hn
  rw [h] at hn
  cases hn

/-- A new file has no other name. -/
theorem slot_ne (h : fs.Apart n m) (hm : fs.inode m = some i) : fs.slot n ≠ i := by
  unfold slot
  cases hn : fs.inode n with
  | none =>
      have hlt := fs.inode_lt m i hm
      show fs.next ≠ i
      omega
  | some j =>
      intro heq
      have hij : j = i := heq
      subst hij
      exact h j hn hm

@[simp] theorem inode_write : (fs.write i d).inode = fs.inode := rfl

@[simp] theorem data_write : (fs.write i d).data i = d := Function.update_self ..

theorem read_write_of_ne (h : fs.inode n ≠ some i) : (fs.write i d).read n = fs.read n := by
  unfold read
  rw [inode_write]
  cases hn : fs.inode n with
  | none => rfl
  | some j =>
      have hne : j ≠ i := by
        intro heq
        exact h (heq ▸ hn)
      simp [write, Function.update_of_ne hne]

end Names

variable [DecidableEq N]

/-- Open a file for writing, and write it from the start. -/
def create (fs : FileSystem N D) (n : N) (d : D) : FileSystem N D where
  inode := Function.update fs.inode n (some (fs.slot n))
  data := Function.update fs.data (fs.slot n) d
  next := fs.next + 1
  inode_lt m i h := by
    by_cases hm : m = n
    · subst hm
      rw [Function.update_self, Option.some.injEq] at h
      subst h
      unfold slot
      cases hi : fs.inode m with
      | none => exact Nat.lt_succ_self _
      | some i => exact Nat.lt_succ_of_lt (fs.inode_lt m i hi)
    · rw [Function.update_of_ne hm] at h
      exact Nat.lt_succ_of_lt (fs.inode_lt m i h)

/-- Let a name lead to the file behind another one. -/
def setLink (fs : FileSystem N D) (n m : N) : FileSystem N D :=
  { fs with
    inode := Function.update fs.inode m (fs.inode n)
    inode_lt := by
      intro k i h
      by_cases hk : k = m
      · rw [hk, Function.update_self] at h
        exact fs.inode_lt n i h
      · rw [Function.update_of_ne hk] at h
        exact fs.inode_lt k i h }

/-- Remove a name. -/
def unlink (fs : FileSystem N D) (n : N) : FileSystem N D :=
  { fs with
    inode := Function.update fs.inode n none
    inode_lt := by
      intro k i h
      by_cases hk : k = n
      · rw [hk, Function.update_self] at h
        cases h
      · rw [Function.update_of_ne hk] at h
        exact fs.inode_lt k i h }

/-- A hard link; the new name must be free. -/
def link (fs : FileSystem N D) (n m : N) : Option (FileSystem N D) :=
  if (fs.inode n).isSome ∧ fs.inode m = none then some (fs.setLink n m) else none

/-- Rename a file; what the new name led to is replaced. -/
def rename (fs : FileSystem N D) (n m : N) : Option (FileSystem N D) :=
  if (fs.inode n).isSome then some ((fs.setLink n m).unlink n) else none

/-! ## Names -/

section Operations

variable (fs : FileSystem N D) (n m : N) (d : D)

@[simp] theorem inode_create : (fs.create n d).inode n = some (fs.slot n) :=
  Function.update_self ..

@[simp] theorem inode_setLink : (fs.setLink n m).inode m = fs.inode n := Function.update_self ..

@[simp] theorem inode_unlink : (fs.unlink n).inode n = none := Function.update_self ..

end Operations

variable {fs : FileSystem N D} {n m k : N} {d : D} {i : ℕ}

theorem inode_create_of_ne (h : m ≠ n) : (fs.create n d).inode m = fs.inode m :=
  Function.update_of_ne h ..

theorem inode_setLink_of_ne (h : k ≠ m) : (fs.setLink n m).inode k = fs.inode k :=
  Function.update_of_ne h ..

theorem inode_unlink_of_ne (h : m ≠ n) : (fs.unlink n).inode m = fs.inode m :=
  Function.update_of_ne h ..

theorem link_eq_some {fs' : FileSystem N D} :
    fs.link n m = some fs' ↔ ((fs.inode n).isSome ∧ fs.inode m = none) ∧ fs.setLink n m = fs' := by
  unfold link
  rw [Option.ite_none_right_eq_some, Option.some.injEq]

theorem rename_eq_some {fs' : FileSystem N D} :
    fs.rename n m = some fs' ↔ (fs.inode n).isSome ∧ (fs.setLink n m).unlink n = fs' := by
  unfold rename
  rw [Option.ite_none_right_eq_some, Option.some.injEq]

/-! ## Contents -/

@[simp] theorem data_create : (fs.create n d).data (fs.slot n) = d := Function.update_self ..

@[simp] theorem read_create : (fs.create n d).read n = some d := by
  simp [read, create]

theorem read_create_of_apart (hne : m ≠ n) (h : fs.Apart n m) :
    (fs.create n d).read m = fs.read m := by
  unfold read
  rw [inode_create_of_ne hne]
  cases hm : fs.inode m with
  | none => rfl
  | some j =>
      have hslot := slot_ne h hm
      simp [create, Function.update_of_ne hslot.symm]

@[simp] theorem read_setLink : (fs.setLink n m).read m = fs.read n := by
  simp [read, setLink]

theorem read_setLink_of_ne (h : k ≠ m) : (fs.setLink n m).read k = fs.read k := by
  simp [read, setLink, Function.update_of_ne h]

@[simp] theorem read_unlink : (fs.unlink n).read n = none := by simp [read]

theorem read_unlink_of_ne (h : m ≠ n) : (fs.unlink n).read m = fs.read m := by
  simp [read, unlink, Function.update_of_ne h]

/-! ## Names apart -/

/-- Opening a file leaves names apart. -/
theorem Apart.create (h : fs.Apart n m) (hne : n ≠ m) : (fs.create k d).Apart n m := by
  intro i hn hm
  by_cases hnk : n = k
  · subst hnk
    rw [inode_create, Option.some.injEq] at hn
    rw [inode_create_of_ne hne.symm] at hm
    exact slot_ne h hm hn
  · rw [inode_create_of_ne hnk] at hn
    by_cases hmk : m = k
    · subst hmk
      rw [inode_create, Option.some.injEq] at hm
      exact slot_ne h.symm hn hm
    · rw [inode_create_of_ne hmk] at hm
      exact h i hn hm

/-- What holds of the old name holds of the new one. -/
theorem apart_setLink {a b : N} (hab : a ≠ b) (h : a ≠ m → b ≠ m → fs.Apart a b)
    (ha : a = m → fs.Apart n b) (hb : b = m → fs.Apart a n) : (fs.setLink n m).Apart a b := by
  intro i hia hib
  by_cases ham : a = m
  · have hbm : b ≠ m := fun heq => hab (ham.trans heq.symm)
    rw [ham, inode_setLink] at hia
    rw [inode_setLink_of_ne hbm] at hib
    exact ha ham i hia hib
  · rw [inode_setLink_of_ne ham] at hia
    by_cases hbm : b = m
    · rw [hbm, inode_setLink] at hib
      exact hb hbm i hia hib
    · rw [inode_setLink_of_ne hbm] at hib
      exact h ham hbm i hia hib

theorem Apart.unlink (h : fs.Apart n m) : (fs.unlink k).Apart n m := by
  intro i hn hm
  by_cases hnk : n = k
  · rw [hnk, inode_unlink] at hn
    cases hn
  by_cases hmk : m = k
  · rw [hmk, inode_unlink] at hm
    cases hm
  rw [inode_unlink_of_ne hnk] at hn
  rw [inode_unlink_of_ne hmk] at hm
  exact h i hn hm

end FileSystem

end Files
