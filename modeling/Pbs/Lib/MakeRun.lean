import Mathlib.Logic.Function.Basic
import Mathlib.Logic.Relation
import Mathlib.Algebra.Order.BigOperators.Group.List
import Mathlib.Algebra.Order.Ring.Nat

/-!
# Runs of make

One run of make over the targets that a goal needs, with as many recipes at a
time as there are jobs. A target is taken up once its prerequisites are brought
up to date; its recipe runs exactly when its file is missing or older than a
normal prerequisite. Order-only prerequisites only have to be brought up to
date first.

A recipe has an effect when it starts and one when it ends, and is free to leave
its file alone. Where recipes touch no file but their own (`OwnFiles`),

* every prerequisite of a target is brought up to date before its recipe starts
  (`Outcome.ready`),
* after a completed run no file is older than a normal prerequisite
  (`Outcome.consistent`), and
* from such a state on, a recipe runs exactly when its file is missing, a
  prerequisite without a rule is newer, or the file of a normal prerequisite
  changes in the same run (`Outcome.ran_iff`).
-/

namespace MakeRun

open Relation

/-- A makefile, as far as the targets that a goal needs are concerned, over the
states `S` of a file system. -/
structure Makefile (T S : Type*) where
  targets : List T
  normal : T → List T
  orderOnly : T → List T
  /-- the modification time of the file of a target -/
  mtime : S → T → Option ℕ
  /-- the modification times of the prerequisites that no rule makes -/
  sources : S → T → List (Option ℕ)
  /-- what a recipe does when it starts -/
  start : T → S → S
  /-- what it has done when it ends -/
  finish : T → S → S
  /-- the recipe may leave the file of the target alone -/
  lazy : T → Prop

/-- How far make has come with a target. -/
inductive Status where
  | waiting
  | running
  | kept
  | ran
deriving DecidableEq, Repr

/-- The target is brought up to date. -/
def Status.Settled (st : Status) : Prop := st = .kept ∨ st = .ran

/-- The recipe of the target has started. -/
def Status.Started (st : Status) : Prop := st = .running ∨ st = .ran

/-- The steps left for one target. -/
def Status.steps : Status → ℕ
  | .waiting => 2
  | .running => 1
  | .kept => 0
  | .ran => 0

/-- A moment of a run. -/
structure Run (T S : Type*) where
  status : T → Status
  files : S

variable {T S : Type*} (m : Makefile T S)

/-- A run that has just begun. -/
def Run.begin (T : Type*) {S : Type*} (files : S) : Run T S where
  status _ := .waiting
  files := files

namespace Makefile

/-- A prerequisite with this time outdates a file of the time `limit`. A missing
one counts as new. -/
def Newer (limit : ℕ) (time : Option ℕ) : Prop := ∀ t, time = some t → limit < t

/-- The file is missing or older than a normal prerequisite. -/
def Stale (files : S) (t : T) : Prop :=
  ∀ limit, m.mtime files t = some limit →
    (∃ time ∈ m.sources files t, Newer limit time) ∨
      ∃ u ∈ m.normal t, Newer limit (m.mtime files u)

/-- All prerequisites are brought up to date, and those without a rule exist. -/
def Ready (r : Run T S) (t : T) : Prop :=
  (∀ u ∈ m.normal t ++ m.orderOnly t, (r.status u).Settled) ∧
    ∀ time ∈ m.sources r.files t, time.isSome

/-- What make can do next. -/
inductive Step [DecidableEq T] (r : Run T S) : Run T S → Prop where
  | keep (t : T) : t ∈ m.targets → r.status t = .waiting → m.Ready r t → ¬ m.Stale r.files t →
      Step r { r with status := Function.update r.status t .kept }
  | start (t : T) : t ∈ m.targets → r.status t = .waiting → m.Ready r t → m.Stale r.files t →
      Step r ⟨Function.update r.status t .running, m.start t r.files⟩
  | finish (t : T) : t ∈ m.targets → r.status t = .running →
      Step r ⟨Function.update r.status t .ran, m.finish t r.files⟩

/-- The moments of a run that begins with these files. -/
def Runs [DecidableEq T] (files : S) (r : Run T S) : Prop :=
  ReflTransGen m.Step (Run.begin T files) r

/-- The run is successful: everything is brought up to date. -/
def Completed (r : Run T S) : Prop := ∀ t ∈ m.targets, (r.status t).Settled

/-- No file is older than a normal prerequisite. -/
def Consistent (files : S) : Prop :=
  ∀ t ∈ m.targets, ∀ limit, m.mtime files t = some limit →
    ∀ u ∈ m.normal t, ∃ time ≤ limit, m.mtime files u = some time

/-- Recipes touch no file but their own: they may remove it when they start, and
at the end it is new, or it is untouched, which is only for targets without a
prerequisite that has a rule. `clock` is the time that the next file gets. -/
structure OwnFiles (clock : S → ℕ) : Prop where
  closed : ∀ t ∈ m.targets, ∀ u ∈ m.normal t ++ m.orderOnly t, u ∈ m.targets
  start_clock : ∀ t s, clock s ≤ clock (m.start t s)
  finish_clock : ∀ t s, clock s < clock (m.finish t s)
  start_sources : ∀ t s u, m.sources (m.start t s) u = m.sources s u
  finish_sources : ∀ t s u, m.sources (m.finish t s) u = m.sources s u
  start_other : ∀ t ∈ m.targets, ∀ u ∈ m.targets, u ≠ t → ∀ s,
    m.mtime (m.start t s) u = m.mtime s u
  finish_other : ∀ t ∈ m.targets, ∀ u ∈ m.targets, u ≠ t → ∀ s,
    m.mtime (m.finish t s) u = m.mtime s u
  start_own : ∀ t ∈ m.targets, ∀ s,
    m.mtime (m.start t s) t = m.mtime s t ∨ m.mtime (m.start t s) t = none
  finish_own : ∀ t ∈ m.targets, ∀ s, m.mtime (m.finish t s) t = some (clock s) ∨
    (m.lazy t ∧ (m.mtime s t).isSome ∧ m.mtime (m.finish t s) t = m.mtime s t)
  lazy_normal : ∀ t ∈ m.targets, m.lazy t → m.normal t = []

/-- No file is from the future. -/
def Past (clock : S → ℕ) (files : S) : Prop :=
  ∀ t ∈ m.targets, ∀ time, m.mtime files t = some time → time < clock files

/-! ## What a run has done so far -/

/-- What made a target stale: its file at the beginning of the run, against the
prerequisites as they are now. -/
def Due (files : S) (r : Run T S) (t : T) : Prop :=
  ∀ limit, m.mtime files t = some limit →
    (∃ time ∈ m.sources files t, Newer limit time) ∨
      ∃ u ∈ m.normal t, Newer limit (m.mtime r.files u)

/-- The recipe has written the file in this run, and the normal prerequisites
are not newer. -/
def Rewritten (clock : S → ℕ) (files : S) (r : Run T S) (t : T) : Prop :=
  ∃ time, m.mtime r.files t = some time ∧ clock files ≤ time ∧
    ∀ u ∈ m.normal t, ∃ time' ≤ time, m.mtime r.files u = some time'

/-- The recipe has left the file alone. -/
def Untouched (files : S) (r : Run T S) (t : T) : Prop :=
  (m.mtime files t).isSome ∧ m.mtime r.files t = m.mtime files t

/-- What holds of a target, by how far make has come with it. -/
def Outcome (clock : S → ℕ) (files : S) (r : Run T S) (t : T) : Status → Prop
  | .waiting => m.mtime r.files t = m.mtime files t
  | .running => m.Ready r t ∧ m.Due files r t ∧
      (m.mtime r.files t = m.mtime files t ∨ m.mtime r.files t = none)
  | .kept => m.Ready r t ∧ ¬ m.Due files r t ∧ m.Untouched files r t
  | .ran => m.Ready r t ∧ m.Due files r t ∧
      (m.Rewritten clock files r t ∨ (m.lazy t ∧ m.Untouched files r t))

/-- The invariant of a run. -/
structure Progress (clock : S → ℕ) (files : S) (r : Run T S) : Prop where
  clock_le : clock files ≤ clock r.files
  sources : ∀ t, m.sources r.files t = m.sources files t
  past : m.Past clock r.files
  outcome : ∀ t ∈ m.targets, m.Outcome clock files r t (r.status t)

variable {m} {clock : S → ℕ} {files : S}

/-! ## One step -/

/-- What is brought up to date stays as it is. -/
structure Extends (m : Makefile T S) (r r' : Run T S) : Prop where
  sources : ∀ t, m.sources r'.files t = m.sources r.files t
  status : ∀ u ∈ m.targets, (r.status u).Settled → r'.status u = r.status u
  mtime : ∀ u ∈ m.targets, (r.status u).Settled → m.mtime r'.files u = m.mtime r.files u

section Frame

variable {r r' : Run T S} {t : T} (hclosed : ∀ u ∈ m.normal t ++ m.orderOnly t, u ∈ m.targets)
  (hext : Extends m r r')

include hclosed hext

theorem Ready.frame (h : m.Ready r t) : m.Ready r' t := by
  refine ⟨fun u hu => ?_, fun time htime => h.2 time (hext.sources t ▸ htime)⟩
  rw [hext.status u (hclosed u hu) (h.1 u hu)]
  exact h.1 u hu

/-- The normal prerequisites of a target that is ready keep their files. -/
theorem Ready.mtime_normal (h : m.Ready r t) :
    ∀ u ∈ m.normal t, m.mtime r'.files u = m.mtime r.files u := by
  intro u hu
  have hmem := List.mem_append_left (m.orderOnly t) hu
  exact hext.mtime u (hclosed u hmem) (h.1 u hmem)

theorem Ready.due_frame (h : m.Ready r t) : m.Due files r' t ↔ m.Due files r t := by
  refine forall_congr' fun limit => forall_congr' fun _ => or_congr_right ?_
  refine exists_congr fun u => and_congr_right fun hu => ?_
  rw [h.mtime_normal hclosed hext u hu]

theorem Ready.rewritten_frame (h : m.Ready r t) (hown : m.mtime r'.files t = m.mtime r.files t) :
    m.Rewritten clock files r' t ↔ m.Rewritten clock files r t := by
  unfold Rewritten
  rw [hown]
  refine exists_congr fun time => and_congr_right fun _ => and_congr_right fun _ => ?_
  refine forall_congr' fun u => forall_congr' fun hu => ?_
  rw [h.mtime_normal hclosed hext u hu]

theorem Outcome.frame (hown : m.mtime r'.files t = m.mtime r.files t) {st : Status}
    (h : m.Outcome clock files r t st) : m.Outcome clock files r' t st := by
  unfold Outcome Untouched at *
  rw [hown]
  cases st with
  | waiting => exact h
  | running => exact ⟨h.1.frame hclosed hext, (h.1.due_frame hclosed hext).mpr h.2.1, h.2.2⟩
  | kept =>
      exact ⟨h.1.frame hclosed hext, fun hdue => h.2.1 ((h.1.due_frame hclosed hext).mp hdue),
        h.2.2⟩
  | ran =>
      refine ⟨h.1.frame hclosed hext, (h.1.due_frame hclosed hext).mpr h.2.1, ?_⟩
      exact h.2.2.imp_left (h.1.rewritten_frame hclosed hext hown).mpr

end Frame

/-- The file of a target that is brought up to date exists. -/
theorem Outcome.isSome {r : Run T S} {t : T} {st : Status} (h : m.Outcome clock files r t st)
    (hst : st.Settled) : (m.mtime r.files t).isSome := by
  rcases hst with rfl | rfl
  · rw [h.2.2.2]
    exact h.2.2.1
  · rcases h.2.2 with ⟨time, htime, _⟩ | ⟨_, hexists, hsame⟩
    · rw [htime]
      rfl
    · rw [hsame]
      exact hexists

/-- Before the recipe of a target starts, all its prerequisites are brought up
to date. -/
theorem Outcome.ready {r : Run T S} {t : T} {st : Status} (h : m.Outcome clock files r t st)
    (hst : st.Started) : m.Ready r t := by
  rcases hst with rfl | rfl
  · exact h.1
  · exact h.1

theorem Progress.begin (hpast : m.Past clock files) :
    m.Progress clock files (Run.begin T files) where
  clock_le := Nat.le_refl _
  sources _ := rfl
  past := hpast
  outcome _ _ := rfl

/-- While a target waits, its file is as it was in the beginning. -/
theorem Progress.stale_iff {r : Run T S} (h : m.Progress clock files r) {t : T}
    (ht : t ∈ m.targets) (hwait : r.status t = .waiting) :
    m.Stale r.files t ↔ m.Due files r t := by
  have hsame := h.outcome t ht
  rw [hwait] at hsame
  simp only [Stale, Due, hsame.symm, h.sources]

variable [DecidableEq T]

/-- A step takes up or ends one target, and no other target changes. -/
theorem Step.extends (hown : m.OwnFiles clock) {r r' : Run T S} (h : m.Step r r') :
    Extends m r r' := by
  cases h with
  | keep t ht hwait =>
      refine ⟨fun _ => rfl, fun u hu hsettled => ?_, fun u hu _ => rfl⟩
      have hne : u ≠ t := fun heq => by simp [heq, hwait, Status.Settled] at hsettled
      exact Function.update_of_ne hne _ _
  | start t ht hwait =>
      refine ⟨hown.start_sources t r.files, fun u hu hsettled => ?_, fun u hu hsettled => ?_⟩
      all_goals have hne : u ≠ t := fun heq => by simp [heq, hwait, Status.Settled] at hsettled
      · exact Function.update_of_ne hne _ _
      · exact hown.start_other t ht u hu hne r.files
  | finish t ht hrun =>
      refine ⟨hown.finish_sources t r.files, fun u hu hsettled => ?_, fun u hu hsettled => ?_⟩
      all_goals have hne : u ≠ t := fun heq => by simp [heq, hrun, Status.Settled] at hsettled
      · exact Function.update_of_ne hne _ _
      · exact hown.finish_other t ht u hu hne r.files

/-- A step that gives one target a new status. -/
theorem Progress.advance (hown : m.OwnFiles clock) {r r' : Run T S} (h : m.Progress clock files r)
    (hext : Extends m r r') {t : T} {st : Status}
    (hstatus : r'.status = Function.update r.status t st) (hclock : clock r.files ≤ clock r'.files)
    (hother : ∀ u ∈ m.targets, u ≠ t → m.mtime r'.files u = m.mtime r.files u)
    (hpast : ∀ time, m.mtime r'.files t = some time → time < clock r'.files)
    (hout : m.Outcome clock files r' t st) : m.Progress clock files r' where
  clock_le := Nat.le_trans h.clock_le hclock
  sources u := (hext.sources u).trans (h.sources u)
  past u hu time htime := by
    by_cases hne : u = t
    · subst hne
      exact hpast time htime
    · rw [hother u hu hne] at htime
      exact Nat.lt_of_lt_of_le (h.past u hu time htime) hclock
  outcome u hu := by
    rw [hstatus]
    by_cases hne : u = t
    · subst hne
      rwa [Function.update_self]
    · rw [Function.update_of_ne hne]
      exact (h.outcome u hu).frame (hown.closed u hu) hext (hother u hu hne)

theorem Progress.step (hown : m.OwnFiles clock) {r r' : Run T S} (h : m.Progress clock files r)
    (hstep : m.Step r r') : m.Progress clock files r' := by
  have hext := hstep.extends hown
  cases hstep with
  | keep t ht hwait hready hfresh =>
      have hsame : m.mtime r.files t = m.mtime files t := by
        simpa [hwait, Outcome] using h.outcome t ht
      -- a target that is not there would be stale
      have hexists : (m.mtime r.files t).isSome := by
        refine Option.isSome_iff_ne_none.mpr fun hnone => hfresh ?_
        intro limit hlimit
        simp [hnone] at hlimit
      refine h.advance hown hext rfl (Nat.le_refl _) (fun u _ _ => rfl) (h.past t ht) ?_
      refine ⟨hready.frame (hown.closed t ht) hext, ?_, hsame ▸ hexists, hsame⟩
      rw [hready.due_frame (hown.closed t ht) hext, ← h.stale_iff ht hwait]
      exact hfresh
  | start t ht hwait hready hstale =>
      have hsame : m.mtime r.files t = m.mtime files t := by
        simpa [hwait, Outcome] using h.outcome t ht
      refine h.advance hown hext rfl (hown.start_clock t r.files)
        (fun u hu hne => hown.start_other t ht u hu hne r.files) ?_ ?_
      · intro time htime
        -- a recipe that has begun leaves its target alone, or has removed it
        rcases hown.start_own t ht r.files with hkept | hnone
        · rw [hkept] at htime
          exact Nat.lt_of_lt_of_le (h.past t ht time htime) (hown.start_clock t r.files)
        · simp [hnone] at htime
      · refine ⟨hready.frame (hown.closed t ht) hext, ?_, ?_⟩
        · rw [hready.due_frame (hown.closed t ht) hext, ← h.stale_iff ht hwait]
          exact hstale
        · exact hsame ▸ hown.start_own t ht r.files
  | finish t ht hrun =>
      have hout := h.outcome t ht
      rw [hrun] at hout
      rcases hout with ⟨hready, hdue, hkept⟩
      refine h.advance hown hext rfl (Nat.le_of_lt (hown.finish_clock t r.files))
        (fun u hu hne => hown.finish_other t ht u hu hne r.files) ?_ ?_
      · intro time htime
        rcases hown.finish_own t ht r.files with hnew | ⟨_, _, hsame⟩
        · rw [hnew] at htime
          exact Option.some.inj htime ▸ hown.finish_clock t r.files
        · rw [hsame] at htime
          exact Nat.lt_trans (h.past t ht time htime) (hown.finish_clock t r.files)
      · refine ⟨hready.frame (hown.closed t ht) hext,
          (hready.due_frame (hown.closed t ht) hext).mpr hdue, ?_⟩
        rcases hown.finish_own t ht r.files with hnew | ⟨hlazy, hexists, hsame⟩
        · -- the prerequisites are there, and older than the clock
          refine Or.inl ⟨clock r.files, hnew, h.clock_le, fun u hu => ?_⟩
          have hmem := List.mem_append_left (m.orderOnly t) hu
          have hu' := hown.closed t ht u hmem
          rcases Option.isSome_iff_exists.mp ((h.outcome u hu').isSome (hready.1 u hmem)) with
            ⟨time, htime⟩
          refine ⟨time, Nat.le_of_lt (h.past u hu' time htime), ?_⟩
          exact (hready.mtime_normal (hown.closed t ht) hext u hu).trans htime
        · refine Or.inr ⟨hlazy, ?_⟩
          rcases hkept with hkept | hnone
          · exact ⟨hkept ▸ hexists, hsame.trans hkept⟩
          · simp [hnone] at hexists

/-! ## Whole runs -/

theorem Runs.progress (hown : m.OwnFiles clock) (hpast : m.Past clock files) {r : Run T S}
    (h : m.Runs files r) : m.Progress clock files r := by
  induction h with
  | refl => exact Progress.begin hpast
  | tail _ hstep ih => exact ih.step hown hstep

/-- What is brought up to date stays as it is in the rest of the run. -/
theorem extends_of_steps (hown : m.OwnFiles clock) {r r' : Run T S}
    (h : ReflTransGen m.Step r r') : Extends m r r' := by
  induction h with
  | refl => exact ⟨fun _ => rfl, fun _ _ _ => rfl, fun _ _ _ => rfl⟩
  | tail _ hstep ih =>
      have hext := hstep.extends hown
      refine ⟨fun t => (hext.sources t).trans (ih.sources t), fun u hu hsettled => ?_,
        fun u hu hsettled => ?_⟩
      all_goals have hstatus := ih.status u hu hsettled
      · exact (hext.status u hu (hstatus ▸ hsettled)).trans hstatus
      · exact (hext.mtime u hu (hstatus ▸ hsettled)).trans (ih.mtime u hu hsettled)

omit [DecidableEq T] in
/-- A completed run leaves nothing older than a normal prerequisite, whatever it
began with. -/
theorem Progress.consistent (hown : m.OwnFiles clock) {r : Run T S}
    (h : m.Progress clock files r) (hdone : m.Completed r) : m.Consistent r.files := by
  intro t ht limit hlimit u hu
  have hout := h.outcome t ht
  rcases hdone t ht with hst | hst
  · rw [hst] at hout
    rcases hout with ⟨_, hfresh, _, hsame⟩
    -- a prerequisite that is missing or newer would have made the target stale
    refine Decidable.byContradiction fun hno => hfresh ?_
    intro limit' hlimit'
    rw [← hsame, hlimit, Option.some.injEq] at hlimit'
    subst hlimit'
    refine Or.inr ⟨u, hu, fun time htime => ?_⟩
    exact Nat.lt_of_not_le fun hle => hno ⟨time, hle, htime⟩
  · rw [hst] at hout
    rcases hout.2.2 with ⟨time, htime, _, hnormal⟩ | ⟨hlazy, _⟩
    · rw [hlimit, Option.some.injEq] at htime
      exact htime ▸ hnormal u hu
    · simp [hown.lazy_normal t ht hlazy] at hu

omit [DecidableEq T] in
/-- A run that begins with consistent files runs a recipe exactly when the file
is missing, older than a prerequisite without a rule, or the file of a normal
prerequisite changes. -/
theorem Progress.ran_iff (hown : m.OwnFiles clock) (hconsistent : m.Consistent files)
    (hpast : m.Past clock files) {r : Run T S} (h : m.Progress clock files r) {t : T}
    (ht : t ∈ m.targets) (hst : (r.status t).Settled) :
    r.status t = .ran ↔ ∀ limit, m.mtime files t = some limit →
      (∃ time ∈ m.sources files t, Newer limit time) ∨
        ∃ u ∈ m.normal t, m.mtime r.files u ≠ m.mtime files u := by
  have hout := h.outcome t ht
  constructor
  · intro hran limit hlimit
    rw [hran] at hout
    refine (hout.2.1 limit hlimit).imp_right fun ⟨u, hu, hnewer⟩ => ⟨u, hu, fun hsame => ?_⟩
    rcases hconsistent t ht limit hlimit u hu with ⟨time, hle, htime⟩
    exact absurd (hnewer time (hsame.trans htime)) (Nat.not_lt_of_le hle)
  · intro hcause
    refine hst.resolve_left fun hkept => ?_
    rw [hkept] at hout
    rcases hout with ⟨hready, hfresh, hexists, _⟩
    refine hfresh fun limit hlimit => (hcause limit hlimit).imp_right fun ⟨u, hu, hne⟩ => ?_
    -- a file that changed was rewritten in this run
    have hmem := List.mem_append_left (m.orderOnly t) hu
    have hu' := hown.closed t ht u hmem
    have hprereq := h.outcome u hu'
    have hnew : m.Rewritten clock files r u := by
      rcases hready.1 u hmem with hst | hst
      · rw [hst] at hprereq
        exact absurd hprereq.2.2.2 hne
      · rw [hst] at hprereq
        exact hprereq.2.2.resolve_right fun hleft => hne hleft.2.2
    rcases hnew with ⟨time, htime, hle, _⟩
    refine ⟨u, hu, fun time' htime' => ?_⟩
    rw [htime, Option.some.injEq] at htime'
    subst htime'
    exact Nat.lt_of_lt_of_le (hpast t ht limit hlimit) hle

omit [DecidableEq T] in
/-- Where the recipe does not leave the file alone, it runs exactly when the file
changes. -/
theorem Progress.ran_iff_changed (hpast : m.Past clock files) {r : Run T S}
    (h : m.Progress clock files r) {t : T} (ht : t ∈ m.targets) (hlazy : ¬ m.lazy t)
    (hst : (r.status t).Settled) :
    r.status t = .ran ↔ m.mtime r.files t ≠ m.mtime files t := by
  have hout := h.outcome t ht
  rcases hst with hst | hst
  · rw [hst] at hout ⊢
    simp [hout.2.2.2]
  · rw [hst] at hout ⊢
    rcases hout.2.2.resolve_right fun hleft => hlazy hleft.1 with ⟨time, htime, hle, _⟩
    refine ⟨fun _ hsame => ?_, fun _ => rfl⟩
    have hlt := hpast t ht time (hsame.symm.trans htime)
    omega

/-! ## Schedules -/

instance Newer.decidable (limit : ℕ) : ∀ time, Decidable (Newer limit time)
  | none => isTrue fun _ h => nomatch h
  | some t => decidable_of_iff (limit < t) ⟨fun h _ ht => Option.some.inj ht ▸ h, fun h => h t rfl⟩

instance Stale.decidable (files : S) (t : T) : Decidable (m.Stale files t) :=
  match h : m.mtime files t with
  | none => isTrue fun limit hlimit => by simp [h] at hlimit
  | some limit => decidable_of_iff
      ((∃ time ∈ m.sources files t, Newer limit time) ∨
        ∃ u ∈ m.normal t, Newer limit (m.mtime files u))
      ⟨fun hcause limit' hlimit' => by
        rw [h, Option.some.injEq] at hlimit'
        exact hlimit' ▸ hcause, fun hstale => hstale limit h⟩

instance Status.Settled.decidable (st : Status) : Decidable st.Settled :=
  inferInstanceAs (Decidable (_ ∨ _))

instance Ready.decidable (r : Run T S) (t : T) : Decidable (m.Ready r t) :=
  inferInstanceAs (Decidable (_ ∧ _))

variable (m) in
/-- Take up a target, or end its recipe. -/
def advance (r : Run T S) (t : T) : Option (Run T S) :=
  if t ∈ m.targets then
    match r.status t with
    | .waiting =>
        if m.Ready r t then
          if m.Stale r.files t then
            some ⟨Function.update r.status t .running, m.start t r.files⟩
          else some { r with status := Function.update r.status t .kept }
        else none
    | .running => some ⟨Function.update r.status t .ran, m.finish t r.files⟩
    | _ => none
  else none

variable (m) in
/-- Take the targets of a list one after the other. -/
def follow (schedule : List T) (r : Run T S) : Option (Run T S) := schedule.foldlM m.advance r

theorem step_of_advance {r r' : Run T S} {t : T} (h : m.advance r t = some r') : m.Step r r' := by
  unfold advance at h
  split at h
  · rename_i ht
    split at h
    · rename_i hwait
      split at h
      · rename_i hready
        split at h
        · rename_i hstale
          exact Option.some.inj h ▸ Step.start t ht hwait hready hstale
        · rename_i hfresh
          exact Option.some.inj h ▸ Step.keep t ht hwait hready hfresh
      · cases h
    · rename_i hrun
      exact Option.some.inj h ▸ Step.finish t ht hrun
    · cases h
  · cases h

theorem steps_of_follow {schedule : List T} {r r' : Run T S}
    (h : m.follow schedule r = some r') : ReflTransGen m.Step r r' := by
  induction schedule generalizing r with
  | nil => exact Option.some.inj h ▸ ReflTransGen.refl
  | cons t schedule ih =>
      rw [follow, List.foldlM_cons] at h
      rcases Option.bind_eq_some_iff.mp h with ⟨r₁, hstep, hrest⟩
      exact ReflTransGen.head (step_of_advance hstep) (ih hrest)

theorem steps_of_follow_getD {schedule : List T} {r : Run T S}
    (h : (m.follow schedule r).isSome) :
    ReflTransGen m.Step r ((m.follow schedule r).getD r) := by
  rcases Option.isSome_iff_exists.mp h with ⟨r', hr'⟩
  rw [hr', Option.getD_some]
  exact steps_of_follow hr'

instance Completed.decidable (r : Run T S) : Decidable (m.Completed r) :=
  List.decidableBAll (fun t => (r.status t).Settled) m.targets

/-! ## Runs come to an end -/

/-- Where prerequisites are of a smaller rank, an unfinished run can go on. -/
theorem exists_step {r : Run T S} {rank : T → ℕ}
    (hclosed : ∀ t ∈ m.targets, ∀ u ∈ m.normal t ++ m.orderOnly t, u ∈ m.targets)
    (hrank : ∀ t ∈ m.targets, ∀ u ∈ m.normal t ++ m.orderOnly t, rank u < rank t)
    (hsources : ∀ t ∈ m.targets, ∀ time ∈ m.sources r.files t, time.isSome)
    (hleft : ¬ m.Completed r) : ∃ r', m.Step r r' := by
  classical
  by_contra hstuck
  -- by induction on the rank, nothing but what is brought up to date is left
  have hall : ∀ n, ∀ t ∈ m.targets, rank t < n → (r.status t).Settled := by
    intro n
    induction n with
    | zero =>
        intro t _ hlt
        exact absurd hlt (Nat.not_lt_zero _)
    | succ n ih =>
        intro t ht hlt
        have hready : m.Ready r t := by
          refine ⟨fun u hu => ih u (hclosed t ht u hu) ?_, hsources t ht⟩
          have hsmaller := hrank t ht u hu
          omega
        cases hstatus : r.status t with
        | waiting =>
            by_cases hstale : m.Stale r.files t
            · exact absurd ⟨_, Step.start t ht hstatus hready hstale⟩ hstuck
            · exact absurd ⟨_, Step.keep t ht hstatus hready hstale⟩ hstuck
        | running => exact absurd ⟨_, Step.finish t ht hstatus⟩ hstuck
        | kept => exact Or.inl rfl
        | ran => exact Or.inr rfl
  exact hleft fun t ht => hall (rank t + 1) t ht (Nat.lt_succ_self _)

/-- The steps left for a list of targets. -/
def stepsLeft (r : Run T S) (l : List T) : ℕ := (l.map fun t => (r.status t).steps).sum

theorem Step.steps_lt {r r' : Run T S} (h : m.Step r r') :
    stepsLeft r' m.targets < stepsLeft r m.targets := by
  -- all steps give one target a status with fewer steps left
  have hone : ∃ t ∈ m.targets, ∃ st, r'.status = Function.update r.status t st ∧
      st.steps < (r.status t).steps := by
    cases h with
    | keep t ht hwait => exact ⟨t, ht, _, rfl, by rw [hwait]; decide⟩
    | start t ht hwait => exact ⟨t, ht, _, rfl, by rw [hwait]; decide⟩
    | finish t ht hrun => exact ⟨t, ht, _, rfl, by rw [hrun]; decide⟩
  rcases hone with ⟨t, ht, st, hstatus, hlt⟩
  have hle : ∀ u, (r'.status u).steps ≤ (r.status u).steps := by
    intro u
    rw [hstatus]
    by_cases hu : u = t
    · subst hu
      rw [Function.update_self]
      exact Nat.le_of_lt hlt
    · rw [Function.update_of_ne hu]
  refine List.sum_lt_sum _ _ (fun u _ => hle u) ⟨t, ht, ?_⟩
  rwa [hstatus, Function.update_self]

/-- Where prerequisites are of a smaller rank and sources exist, every run can
be completed. -/
theorem exists_completed (hown : m.OwnFiles clock) {rank : T → ℕ}
    (hrank : ∀ t ∈ m.targets, ∀ u ∈ m.normal t ++ m.orderOnly t, rank u < rank t)
    {r : Run T S} (hsources : ∀ t ∈ m.targets, ∀ time ∈ m.sources r.files t, time.isSome) :
    ∃ r', ReflTransGen m.Step r r' ∧ m.Completed r' := by
  induction hn : stepsLeft r m.targets using Nat.strongRecOn generalizing r with
  | _ n ih =>
      by_cases hdone : m.Completed r
      · exact ⟨r, ReflTransGen.refl, hdone⟩
      rcases exists_step hown.closed hrank hsources hdone with ⟨r', hstep⟩
      have hsources' : ∀ t ∈ m.targets, ∀ time ∈ m.sources r'.files t, time.isSome := by
        intro t ht
        rw [(hstep.extends hown).sources t]
        exact hsources t ht
      rcases ih _ (hn ▸ hstep.steps_lt) hsources' rfl with ⟨r'', hsteps, hdone'⟩
      exact ⟨r'', ReflTransGen.head hstep hsteps, hdone'⟩

end Makefile

end MakeRun
