import Pbs.Lib.MakeRun
import Pbs.Kconfig.Symbol

/-!
# The stages of one package

A package is built in stages, each of which leaves a stamp file behind. The
rules are spread over `scripts/Makefile.package` and the fragments in
`packages/`; the single-package targets of the main `Makefile` remove some stamps
and leave the rest to make. A call may fail or be interrupted at any time. The
rules from `.setup` to `.do-install` are those of `packages/autotools.mk`, which
most other packages repeat.

Besides the stamps, the model keeps when each stage was executed last. The rule
of `.strip` has no prerequisite, so make does not keep `.strip` behind
`.do-install`; all the other stages are in order after every successful call.
-/

namespace Pbs.Stages

open Kconfig MakeRun Relation

/-! ## Rules -/

/-- The stamp files of a package, and its files in `download`. -/
inductive Stage where
  | download (file : Text)
  | directory
  | chksum (file : Text)
  | checksum
  | unpack (tarball : Text)
  | extract
  | svnExport
  | gitClone
  | symlinkSource
  | setup
  | patch
  | configure
  | build
  | doInstall
  | configScripts
  | prune
  | strip
  | cleanup
  | binary
  | install
deriving DecidableEq, Repr

/-- Where the sources come from: the last of the conditionals that set
`setup-deps`. -/
inductive Origin where
  | tarballs
  | svn
  | git
  | localSource
deriving DecidableEq, Repr

/-- The variables of the `Makefile` of a package that the rules look at. -/
structure Package where
  tarballs : List Text
  files : List Text
  origin : Origin

namespace Package

variable (pkg : Package)

/-- `setup-deps`. -/
def setupDep : Stage :=
  match pkg.origin with
  | .tarballs => .extract
  | .svn => .svnExport
  | .git => .gitClone
  | .localSource => .symlinkSource

/-- The prerequisites of a stamp file. -/
def prereqs : Stage → List Stage
  | .download _ => []
  | .directory => []
  | .chksum file => [.download file]
  | .checksum => .directory :: (pkg.tarballs ++ pkg.files).map .chksum
  | .unpack tarball => [.download tarball]
  | .extract => .checksum :: pkg.tarballs.map .unpack
  | .svnExport => [.directory]
  | .gitClone => [.directory]
  | .symlinkSource => [.directory]
  | .setup => [pkg.setupDep]
  | .patch => [.setup]
  | .configure => [.patch]
  | .build => [.configure]
  | .doInstall => [.build]
  | .configScripts => [.doInstall]
  | .prune => [.doInstall]
  -- packages/strip.mk
  | .strip => []
  | .cleanup => [.configScripts, .prune, .strip]
  | .binary => [.doInstall, .cleanup]
  | .install => [.binary]

/-- The stages in front of `.setup`. -/
def fetchStages : List Stage :=
  match pkg.origin with
  | .tarballs =>
      (pkg.tarballs ++ pkg.files).map .download ++ [.directory] ++
        (pkg.tarballs ++ pkg.files).map .chksum ++ [.checksum] ++
        pkg.tarballs.map .unpack ++ [.extract]
  | .svn => [.directory, .svnExport]
  | .git => [.directory, .gitClone]
  | .localSource => [.directory, .symlinkSource]

/-- The stages that `.install` needs. -/
def stages : List Stage :=
  pkg.fetchStages ++ [.setup, .patch, .configure, .build, .doInstall, .configScripts, .prune,
    .strip, .cleanup, .binary, .install]

end Package

/-- The stamps of a package and their modification times. `begun` and `ended`
say when the last execution of a stage began, and when the last one that came to
an end did; they are 0 for a stage that never did. -/
structure Tree where
  clock : ℕ
  stamp : Stage → Option ℕ
  begun : Stage → ℕ
  ended : Stage → ℕ

/-- Nothing has been done yet. -/
def Tree.fresh : Tree where
  clock := 1
  stamp _ := none
  begun _ := 0
  ended _ := 0

def startStage (stage : Stage) (tree : Tree) : Tree :=
  { tree with clock := tree.clock + 1, begun := Function.update tree.begun stage tree.clock }

/-- The last command of every recipe is `$(call cmd,stamp)`. -/
def finishStage (stage : Stage) (tree : Tree) : Tree :=
  { tree with
    clock := tree.clock + 1
    stamp := Function.update tree.stamp stage (some tree.clock)
    ended := Function.update tree.ended stage tree.clock }

/-- The rules for the goal `install`. -/
def Package.makefile (pkg : Package) : Makefile Stage Tree where
  targets := pkg.stages
  normal := pkg.prereqs
  orderOnly _ := []
  mtime tree stage := tree.stamp stage
  sources _ _ := []
  start := startStage
  finish := finishStage
  lazy _ := False

/-! ## Single-package targets -/

/-- The targets of the main `Makefile` that go on to `install`. -/
inductive SingleTarget where
  | build
  | install
  | binary
  | rebuild
deriving DecidableEq, Repr

/-- The stamps that a target removes first; `rebuild` removes the directory of
the package. -/
def SingleTarget.removes : SingleTarget → Stage → Bool
  | .build, stage => stage = .build
  | .install, stage => stage = .doInstall || stage = .prune || stage = .strip
  | .binary, stage => stage = .binary
  | .rebuild, .download _ => false
  | .rebuild, _ => true

def Tree.remove (removed : Stage → Bool) (tree : Tree) : Tree :=
  { tree with stamp := fun stage => if removed stage then none else tree.stamp stage }

def SingleTarget.prepare (target : SingleTarget) (tree : Tree) : Tree :=
  tree.remove target.removes

/-- `%/clean`. -/
def Tree.clean (tree : Tree) : Tree := tree.remove SingleTarget.rebuild.removes

/-- A moment of a call of make. -/
abbrev Call := Run Stage Tree

/-- The moments of a call of `install` whose steps meet a condition. -/
def Package.Calls (pkg : Package) (meets : Call → Call → Prop) (tree : Tree) (r : Call) : Prop :=
  ReflTransGen (fun r r' => pkg.makefile.Step r r' ∧ meets r r') (Run.begin Stage tree) r

/-- What can come of a package by calls of its targets, each of which ends at
any moment. When make is interrupted, it deletes stamps whose recipes are running. -/
inductive History (pkg : Package) (meets : Call → Call → Prop) : Tree → Prop where
  | fresh : History pkg meets Tree.fresh
  | clean {tree : Tree} : History pkg meets tree → History pkg meets tree.clean
  | call (target : SingleTarget) {tree : Tree} {r : Call} (deleted : Stage → Bool) :
      History pkg meets tree → pkg.Calls meets (target.prepare tree) r →
      (∀ stage, deleted stage → r.status stage = .running) →
      History pkg meets (r.files.remove deleted)

/-! ## The order of the stages -/

/-- The stages right in front of a stage: in the order of the rules, with `.strip`
behind `.do-install` like its siblings `.prune` and `.config-scripts`. -/
def Package.before (pkg : Package) : Stage → List Stage
  | .checksum => [.directory]
  | .extract => [.checksum]
  | .svnExport => [.directory]
  | .gitClone => [.directory]
  | .symlinkSource => [.directory]
  | .setup => [pkg.setupDep]
  | .patch => [.setup]
  | .configure => [.patch]
  | .build => [.configure]
  | .doInstall => [.build]
  | .configScripts => [.doInstall]
  | .prune => [.doInstall]
  | .strip => [.doInstall]
  | .binary => [.configScripts, .prune, .strip]
  | .install => [.binary]
  | _ => []

/-- A stage precedes another one. -/
def Package.Precedes (pkg : Package) (stage stage' : Stage) : Prop :=
  TransGen (fun x y => x ∈ pkg.before y) stage stage'

/-- Both stages have been executed, the second one since the first one has: its
last execution began after the last execution of the first stage was over. -/
structure ExecutedAfter (tree : Tree) (stage stage' : Stage) : Prop where
  begun : 0 < tree.begun stage
  first : tree.begun stage ≤ tree.ended stage
  between : tree.ended stage ≤ tree.begun stage'
  second : tree.begun stage' ≤ tree.ended stage'

/-- After a successful call every stage has been executed after the stages that
precede it. -/
def InOrder (pkg : Package) (tree : Tree) : Prop :=
  ∀ stage' ∈ pkg.stages, ∀ stage, pkg.Precedes stage stage' → ExecutedAfter tree stage stage'

/-- `.do-install` starts only without a stamp of `.strip` and without its recipe
running, and the recipe of `.strip` not while that of `.do-install` is running. -/
structure StripInTurn (r r' : Call) : Prop where
  doInstall : r.status .doInstall = .waiting → r'.status .doInstall = .running →
    r.files.stamp .strip = none ∧ r.status .strip ≠ .running
  strip : r.status .strip = .waiting → r'.status .strip = .running →
    r.status .doInstall ≠ .running

/-! ## The invariant -/

variable {pkg : Package}

theorem ne_of_mem_prereqs {stage stage' : Stage} (h : stage ∈ pkg.prereqs stage') :
    stage ≠ stage' := by
  intro heq
  subst heq
  cases stage <;> simp [Package.prereqs] at h
  -- `.setup` is not among the stages that `setup-deps` may name
  unfold Package.setupDep at h
  cases horigin : pkg.origin <;> simp [horigin] at h

/-- A stamp is missing, or one of its prerequisites is missing or newer. -/
theorem stale_iff {tree : Tree} {stage : Stage} :
    pkg.makefile.Stale tree stage ↔ ∀ limit, tree.stamp stage = some limit →
      ∃ x ∈ pkg.prereqs stage, Makefile.Newer limit (tree.stamp x) := by
  refine forall_congr' fun limit => forall_congr' fun _ => ?_
  refine or_iff_right ?_
  rintro ⟨time, htime, _⟩
  cases htime

/-- What holds at every moment of a call. -/
structure Inv (pkg : Package) (r : Call) : Prop where
  past : ∀ x t, r.files.stamp x = some t → t < r.files.clock
  begun_lt : ∀ x, r.files.begun x < r.files.clock
  ended_lt : ∀ x, r.files.ended x < r.files.clock
  /-- a stamp has the time of the last execution that came to an end -/
  stamped : ∀ x t, r.files.stamp x = some t → r.files.ended x = t ∧ 0 < r.files.begun x
  /-- an execution that has not come to an end leaves the stage stale -/
  unfinished : ∀ x, r.files.ended x < r.files.begun x → pkg.makefile.Stale r.files x
  /-- no prerequisite was executed in the middle of an execution -/
  apart : ∀ x, ∀ y ∈ pkg.prereqs x, r.files.begun x ≤ r.files.ended x →
    r.files.ended y ≤ r.files.begun x ∨ r.files.ended x < r.files.ended y
  started : ∀ x, r.status x = .running → 0 < r.files.begun x
  running : ∀ x, r.status x = .running → ∀ y ∈ pkg.prereqs x,
    (r.status y).Settled ∧ r.files.ended y ≤ r.files.begun x

theorem Inv.fresh : Inv pkg (Run.begin Stage Tree.fresh) where
  past _ _ h := nomatch h
  begun_lt _ := Nat.one_pos
  ended_lt _ := Nat.one_pos
  stamped _ _ h := nomatch h
  unfinished _ h := absurd h (Nat.lt_irrefl 0)
  apart _ _ _ _ := Or.inl (Nat.le_refl 0)
  started _ h := nomatch h
  running _ h := nomatch h

/-- A call can end at any moment. -/
theorem Inv.quit {r : Call} (h : Inv pkg r) : Inv pkg (Run.begin Stage r.files) where
  past := h.past
  begun_lt := h.begun_lt
  ended_lt := h.ended_lt
  stamped := h.stamped
  unfinished := h.unfinished
  apart := h.apart
  started _ hrun := nomatch hrun
  running _ hrun := nomatch hrun

theorem stamp_of_remove {tree : Tree} {removed : Stage → Bool} {x : Stage} {t : ℕ}
    (h : (tree.remove removed).stamp x = some t) : tree.stamp x = some t := by
  simp only [Tree.remove] at h
  split at h
  · cases h
  · exact h

/-- Removing stamps makes more stages stale. -/
theorem Inv.remove {tree : Tree} (h : Inv pkg (Run.begin Stage tree)) (removed : Stage → Bool) :
    Inv pkg (Run.begin Stage (tree.remove removed)) where
  past x t ht := h.past x t (stamp_of_remove ht)
  begun_lt := h.begun_lt
  ended_lt := h.ended_lt
  stamped x t ht := h.stamped x t (stamp_of_remove ht)
  unfinished x hx := by
    rw [stale_iff]
    intro limit hlimit
    rcases stale_iff.mp (h.unfinished x hx) limit (stamp_of_remove hlimit) with ⟨y, hy, hnewer⟩
    exact ⟨y, hy, fun t ht => hnewer t (stamp_of_remove ht)⟩
  apart := h.apart
  started _ hrun := nomatch hrun
  running _ hrun := nomatch hrun

/-! ## One step of a call -/

/-- A target that a step takes up has no running or settled status before. -/
theorem update_settled {status : Stage → Status} {t y : Stage} {st : Status}
    (h : ¬ (status t).Settled) (hy : (status y).Settled) :
    (Function.update status t st y).Settled := by
  have hne : y ≠ t := by
    intro heq
    exact h (heq ▸ hy)
  rwa [Function.update_of_ne hne]

theorem Inv.keep {r : Call} (h : Inv pkg r) {t : Stage} (hwait : r.status t = .waiting) :
    Inv pkg { r with status := Function.update r.status t .kept } where
  past := h.past
  begun_lt := h.begun_lt
  ended_lt := h.ended_lt
  stamped := h.stamped
  unfinished := h.unfinished
  apart := h.apart
  started x hrun := by
    by_cases hxt : x = t
    · simp [hxt] at hrun
    · simp only [Function.update_of_ne hxt] at hrun
      exact h.started x hrun
  running x hrun y hy := by
    have hne : x ≠ t := by
      intro heq
      simp [heq] at hrun
    simp only [Function.update_of_ne hne] at hrun
    have hprereq := h.running x hrun y hy
    exact ⟨update_settled (by simp [hwait, Status.Settled]) hprereq.1, hprereq.2⟩

theorem Inv.start {r : Call} (h : Inv pkg r) {t : Stage} (hwait : r.status t = .waiting)
    (hready : pkg.makefile.Ready r t) (hstale : pkg.makefile.Stale r.files t) :
    Inv pkg ⟨Function.update r.status t .running, startStage t r.files⟩ where
  past x t' ht' := Nat.lt_succ_of_lt (h.past x t' ht')
  begun_lt x := by
    show Function.update r.files.begun t r.files.clock x < r.files.clock + 1
    have hlt := h.begun_lt x
    by_cases hx : x = t
    · subst hx
      rw [Function.update_self]
      omega
    · rw [Function.update_of_ne hx]
      omega
  ended_lt x := Nat.lt_succ_of_lt (h.ended_lt x)
  stamped x t' ht' := by
    refine ⟨(h.stamped x t' ht').1, ?_⟩
    show 0 < Function.update r.files.begun t r.files.clock x
    have hlt := h.begun_lt t
    by_cases hx : x = t
    · subst hx
      rw [Function.update_self]
      omega
    · rw [Function.update_of_ne hx]
      exact (h.stamped x t' ht').2
  unfinished x hx := by
    by_cases hxt : x = t
    · subst hxt
      exact hstale
    · refine h.unfinished x ?_
      simpa only [startStage, Function.update_of_ne hxt] using hx
  apart x y hy hx := by
    by_cases hxt : x = t
    · -- the execution has only begun
      subst hxt
      have hlt := h.ended_lt x
      simp only [startStage, Function.update_self] at hx
      omega
    · simp only [startStage, Function.update_of_ne hxt] at hx ⊢
      exact h.apart x y hy hx
  started x hrun := by
    have hlt := h.begun_lt t
    by_cases hxt : x = t
    · subst hxt
      simp only [startStage, Function.update_self]
      omega
    · simp only [startStage, Function.update_of_ne hxt] at hrun ⊢
      exact h.started x hrun
  running x hrun y hy := by
    have hnot : ¬ (r.status t).Settled := by simp [hwait, Status.Settled]
    by_cases hxt : x = t
    · subst hxt
      refine ⟨update_settled hnot (hready.1 y (List.mem_append_left _ hy)), ?_⟩
      simp only [startStage, Function.update_self]
      exact Nat.le_of_lt (h.ended_lt y)
    · simp only [Function.update_of_ne hxt] at hrun
      have hprereq := h.running x hrun y hy
      refine ⟨update_settled hnot hprereq.1, ?_⟩
      simp only [startStage, Function.update_of_ne hxt]
      exact hprereq.2

theorem Inv.finish {r : Call} (h : Inv pkg r) {t : Stage} (hrunning : r.status t = .running) :
    Inv pkg ⟨Function.update r.status t .ran, finishStage t r.files⟩ where
  past x t' ht' := by
    show t' < r.files.clock + 1
    by_cases hx : x = t
    · subst hx
      simp only [finishStage, Function.update_self, Option.some.injEq] at ht'
      omega
    · simp only [finishStage, Function.update_of_ne hx] at ht'
      have hlt := h.past x t' ht'
      omega
  begun_lt x := Nat.lt_succ_of_lt (h.begun_lt x)
  ended_lt x := by
    show Function.update r.files.ended t r.files.clock x < r.files.clock + 1
    have hlt := h.ended_lt x
    by_cases hx : x = t
    · subst hx
      rw [Function.update_self]
      omega
    · rw [Function.update_of_ne hx]
      omega
  stamped x t' ht' := by
    by_cases hxt : x = t
    · subst hxt
      simp only [finishStage, Function.update_self, Option.some.injEq] at ht' ⊢
      exact ⟨ht', h.started x hrunning⟩
    · simp only [finishStage, Function.update_of_ne hxt] at ht' ⊢
      exact h.stamped x t' ht'
  unfinished x hx := by
    by_cases hxt : x = t
    · subst hxt
      have hlt := h.begun_lt x
      simp only [finishStage, Function.update_self] at hx
      omega
    · simp only [finishStage, Function.update_of_ne hxt] at hx
      rw [stale_iff]
      intro limit hlimit
      simp only [finishStage, Function.update_of_ne hxt] at hlimit
      rcases stale_iff.mp (h.unfinished x hx) limit hlimit with ⟨y, hy, hnewer⟩
      refine ⟨y, hy, ?_⟩
      by_cases hyt : y = t
      · -- the stamp of the prerequisite is new
        subst hyt
        intro t' ht'
        have hlt := h.past x limit hlimit
        simp only [finishStage, Function.update_self, Option.some.injEq] at ht'
        omega
      · simpa only [finishStage, Function.update_of_ne hyt] using hnewer
  apart x y hy hx := by
    by_cases hxt : x = t
    · subst hxt
      left
      have hne := ne_of_mem_prereqs hy
      simp only [finishStage, Function.update_of_ne hne]
      exact (h.running x hrunning y hy).2
    · simp only [finishStage, Function.update_of_ne hxt] at hx ⊢
      by_cases hyt : y = t
      · subst hyt
        right
        rw [Function.update_self]
        exact h.ended_lt x
      · rw [Function.update_of_ne hyt]
        exact h.apart x y hy hx
  started x hrun := by
    by_cases hxt : x = t
    · simp [hxt] at hrun
    · simp only [Function.update_of_ne hxt] at hrun
      exact h.started x hrun
  running x hrun y hy := by
    have hnot : ¬ (r.status t).Settled := by simp [hrunning, Status.Settled]
    have hxt : x ≠ t := by
      intro heq
      simp [heq] at hrun
    simp only [Function.update_of_ne hxt] at hrun
    have hprereq := h.running x hrun y hy
    have hyt : y ≠ t := by
      intro heq
      exact hnot (heq ▸ hprereq.1)
    refine ⟨update_settled hnot hprereq.1, ?_⟩
    simp only [finishStage, Function.update_of_ne hyt]
    exact hprereq.2

theorem Inv.step {r r' : Call} (h : Inv pkg r) (hstep : pkg.makefile.Step r r') : Inv pkg r' := by
  cases hstep with
  | keep t _ hwait => exact h.keep hwait
  | start t _ hwait hready hstale => exact h.start hwait hready hstale
  | finish t _ hrunning => exact h.finish hrunning

/-! ## Whole calls -/

theorem Inv.runs {tree : Tree} (h : Inv pkg (Run.begin Stage tree)) {r : Call}
    (hruns : pkg.makefile.Runs tree r) : Inv pkg r := by
  induction hruns with
  | refl => exact h
  | tail _ hstep ih => exact ih.step hstep

theorem runs_of_calls {meets : Call → Call → Prop} {tree : Tree} {r : Call}
    (h : pkg.Calls meets tree r) : pkg.makefile.Runs tree r :=
  ReflTransGen.mono (fun _ _ hstep => hstep.1) _ _ h

theorem History.inv {meets : Call → Call → Prop} {tree : Tree} (h : History pkg meets tree) :
    Inv pkg (Run.begin Stage tree) := by
  induction h with
  | fresh => exact Inv.fresh
  | clean _ ih => exact ih.remove _
  | call target deleted _ hcalls _ ih =>
      exact ((ih.remove _).runs (runs_of_calls hcalls)).quit.remove deleted

theorem mem_stages_of_prereq {stage stage' : Stage} (hmem : stage' ∈ pkg.stages)
    (h : stage ∈ pkg.prereqs stage') : stage ∈ pkg.stages := by
  unfold Package.stages Package.fetchStages at *
  cases horigin : pkg.origin <;> cases stage' <;>
    simp [Package.prereqs, Package.setupDep, horigin] at h hmem ⊢ <;> aesop

theorem ownFiles (pkg : Package) : pkg.makefile.OwnFiles Tree.clock where
  closed t ht u hu := by
    rcases List.mem_append.mp hu with hu | hu
    · exact mem_stages_of_prereq ht hu
    · cases hu
  start_clock t tree := Nat.le_succ _
  finish_clock t tree := Nat.lt_succ_self _
  start_sources _ _ _ := rfl
  finish_sources _ _ _ := rfl
  start_other _ _ _ _ _ _ := rfl
  finish_other _ _ _ _ hne _ := Function.update_of_ne hne _ _
  start_own _ _ _ := Or.inl rfl
  finish_own _ _ _ := Or.inl (Function.update_self ..)
  lazy_normal _ _ hlazy := hlazy.elim

/-! ## Successful calls -/

section Success

variable {r : Call} (h : Inv pkg r) (hconsistent : pkg.makefile.Consistent r.files)
  (hstamps : ∀ x ∈ pkg.stages, (r.files.stamp x).isSome)

include h hconsistent hstamps

/-- The last execution of every stage has come to an end, and left its stamp. -/
theorem Inv.executed {x : Stage} (hx : x ∈ pkg.stages) :
    r.files.stamp x = some (r.files.ended x) ∧ 0 < r.files.begun x ∧
      r.files.begun x ≤ r.files.ended x := by
  obtain ⟨t, ht⟩ := Option.isSome_iff_exists.mp (hstamps x hx)
  obtain ⟨hended, hbegun⟩ := h.stamped x t ht
  refine ⟨by rw [ht, hended], hbegun, Nat.le_of_not_lt fun hlt => ?_⟩
  -- otherwise the stage would still be stale
  obtain ⟨y, hy, hnewer⟩ := stale_iff.mp (h.unfinished x hlt) t ht
  obtain ⟨time, hle, htime⟩ := hconsistent x hx t ht y hy
  have hgt := hnewer time htime
  omega

theorem Inv.executedAfter_prereq {x y : Stage} (hx : x ∈ pkg.stages) (hy : y ∈ pkg.prereqs x) :
    ExecutedAfter r.files y x := by
  obtain ⟨hstamp, _, hsecond⟩ := h.executed hconsistent hstamps hx
  obtain ⟨hstamp', hbegun, hfirst⟩ :=
    h.executed hconsistent hstamps (mem_stages_of_prereq hx hy)
  refine ⟨hbegun, hfirst, ?_, hsecond⟩
  rcases h.apart x y hy hsecond with hbetween | hlater
  · exact hbetween
  · -- the prerequisite is not newer
    obtain ⟨time, hle, htime⟩ := hconsistent x hx _ hstamp y hy
    have htime' : r.files.stamp y = some time := htime
    rw [hstamp', Option.some.injEq] at htime'
    omega

end Success

theorem ExecutedAfter.trans {tree : Tree} {x y z : Stage} (h : ExecutedAfter tree x y)
    (h' : ExecutedAfter tree y z) : ExecutedAfter tree x z where
  begun := h.begun
  first := h.first
  between := Nat.le_trans h.between (Nat.le_trans h'.first h'.between)
  second := h'.second

/-- The order of the stages is that of the rules, but for `.strip`. -/
theorem before_cases {x y : Stage} (h : y ∈ pkg.before x) :
    y ∈ pkg.prereqs x ∨ (x = .binary ∧ y ∈ pkg.prereqs .cleanup) ∨
      (x = .strip ∧ y = .doInstall) := by
  cases x <;> simp_all [Package.before, Package.prereqs]

theorem mem_stages_of_late {x : Stage}
    (h : x ∈ [Stage.doInstall, .strip, .cleanup]) : x ∈ pkg.stages := by
  refine List.mem_append_right _ ?_
  revert h
  simp +contextual [or_imp]

theorem progress_of_runs {tree : Tree} (h : Inv pkg (Run.begin Stage tree)) {r : Call}
    (hruns : pkg.makefile.Runs tree r) : pkg.makefile.Progress Tree.clock tree r :=
  hruns.progress (ownFiles pkg) fun x _ => h.past x

theorem stamp_isSome {tree : Tree} (h : Inv pkg (Run.begin Stage tree)) {r : Call}
    (hruns : pkg.makefile.Runs tree r) (hdone : pkg.makefile.Completed r) {x : Stage}
    (hx : x ∈ pkg.stages) : (r.files.stamp x).isSome :=
  ((progress_of_runs h hruns).outcome x hx).isSome (hdone x hx)

/-- Whatever has happened before, a successful call leaves the stages in order if
and only if `.strip` has been executed after `.do-install`. -/
theorem inOrder_iff_strip {tree : Tree} (h : Inv pkg (Run.begin Stage tree)) {r : Call}
    (hruns : pkg.makefile.Runs tree r) (hdone : pkg.makefile.Completed r) :
    InOrder pkg r.files ↔ r.files.ended .doInstall ≤ r.files.begun .strip := by
  have hinv := h.runs hruns
  have hconsistent := (progress_of_runs h hruns).consistent (ownFiles pkg) hdone
  have hstamps : ∀ x ∈ pkg.stages, (r.files.stamp x).isSome :=
    fun x hx => stamp_isSome h hruns hdone hx
  have hinstall : Stage.doInstall ∈ pkg.stages := mem_stages_of_late (by simp)
  have hstrip : Stage.strip ∈ pkg.stages := mem_stages_of_late (by simp)
  constructor
  · intro horder
    exact (horder .strip hstrip .doInstall
      (TransGen.single (by simp [Package.before]))).between
  intro hbetween
  have hprereq : ∀ {x y}, x ∈ pkg.stages → y ∈ pkg.prereqs x → ExecutedAfter r.files y x :=
    fun hx hy => hinv.executedAfter_prereq hconsistent hstamps hx hy
  have hbefore : ∀ x ∈ pkg.stages, ∀ y ∈ pkg.before x,
      y ∈ pkg.stages ∧ ExecutedAfter r.files y x := by
    intro x hx y hy
    rcases before_cases hy with hy | ⟨rfl, hy⟩ | ⟨rfl, rfl⟩
    · exact ⟨mem_stages_of_prereq hx hy, hprereq hx hy⟩
    · -- by way of `.cleanup`
      have hcleanup : Stage.cleanup ∈ pkg.stages := mem_stages_of_late (by simp)
      exact ⟨mem_stages_of_prereq hcleanup hy,
        (hprereq hcleanup hy).trans (hprereq hx (by simp [Package.prereqs]))⟩
    · obtain ⟨_, hbegun, hfirst⟩ := hinv.executed hconsistent hstamps hinstall
      obtain ⟨_, _, hsecond⟩ := hinv.executed hconsistent hstamps hstrip
      exact ⟨hinstall, hbegun, hfirst, hbetween, hsecond⟩
  intro x hx y hxy
  induction hxy with
  | single hy => exact (hbefore _ hx _ hy).2
  | tail _ hz ih =>
      obtain ⟨hz', hafter⟩ := hbefore _ hx _ hz
      exact (ih hz').trans hafter

/-! ## Stripping in turn -/

/-- What has been stripped, or is being stripped, is the outcome of the last
`.do-install`. -/
def Stripped (r : Call) : Prop :=
  r.files.stamp .strip ≠ none ∨ r.status .strip = .running →
    r.status .doInstall ≠ .running ∧ r.files.begun .doInstall ≤ r.files.begun .strip ∧
      r.files.ended .doInstall ≤ r.files.begun .strip

theorem Stripped.quit {r : Call} (h : Stripped r) (removed : Stage → Bool) :
    Stripped (Run.begin Stage (r.files.remove removed)) := by
  intro hstrip
  refine ⟨(nomatch ·), (h (Or.inl fun hnone => ?_)).2⟩
  rcases hstrip with hsome | hrun
  · refine hsome ?_
    show (if _ then none else r.files.stamp .strip) = none
    split
    · rfl
    · exact hnone
  · cases hrun

theorem Stripped.step {r r' : Call} (h : Stripped r) (hinv : Inv pkg r)
    (hstep : pkg.makefile.Step r r') (hmeets : StripInTurn r r') : Stripped r' := by
  intro hstrip
  have hne : Stage.strip ≠ .doInstall := by decide
  cases hstep with
  | keep t _ hwait =>
      have hold : r.files.stamp .strip ≠ none ∨ r.status .strip = .running := by
        refine hstrip.imp_right fun hrun => ?_
        by_cases heq : Stage.strip = t
        · subst heq
          simp at hrun
        · simpa only [Function.update_of_ne heq] using hrun
      refine ⟨fun hrun => ?_, (h hold).2⟩
      by_cases heq : Stage.doInstall = t
      · subst heq
        simp at hrun
      · simp only [Function.update_of_ne heq] at hrun
        exact (h hold).1 hrun
  | start t _ hwait hready hstale =>
      by_cases hstart : t = .strip
      · -- `.do-install` is not running, and all it ever did is past
        subst hstart
        have hidle := hmeets.strip hwait (by simp)
        simp only [Package.makefile, startStage, Function.update_self,
          Function.update_of_ne hne.symm]
        exact ⟨hidle, Nat.le_of_lt (hinv.begun_lt _), Nat.le_of_lt (hinv.ended_lt _)⟩
      · have hne' : Stage.strip ≠ t := fun heq => hstart heq.symm
        have hold : r.files.stamp .strip ≠ none ∨ r.status .strip = .running := by
          simpa only [Package.makefile, startStage, Function.update_of_ne hne'] using hstrip
        by_cases hinstall : t = .doInstall
        · -- it would start over the stripped files
          subst hinstall
          have hnone := hmeets.doInstall hwait (by simp)
          rcases hold with hstamp | hrun
          · exact absurd hnone.1 hstamp
          · exact absurd hrun hnone.2
        · have hne'' : Stage.doInstall ≠ t := fun heq => hinstall heq.symm
          simp only [Package.makefile, startStage, Function.update_of_ne hne',
            Function.update_of_ne hne'']
          exact h hold
  | finish t _ hrunning =>
      by_cases hinstall : t = .doInstall
      · -- while `.do-install` runs, nothing is stripped
        subst hinstall
        have hold : r.files.stamp .strip ≠ none ∨ r.status .strip = .running := by
          simpa only [Package.makefile, finishStage, Function.update_of_ne hne] using hstrip
        exact absurd hrunning (h hold).1
      · have hne' : Stage.doInstall ≠ t := fun heq => hinstall heq.symm
        have hold : r.files.stamp .strip ≠ none ∨ r.status .strip = .running := by
          by_cases hend : t = .strip
          · exact Or.inr (hend ▸ hrunning)
          · have hne'' : Stage.strip ≠ t := fun heq => hend heq.symm
            simpa only [Package.makefile, finishStage, Function.update_of_ne hne''] using hstrip
        simp only [Package.makefile, finishStage, Function.update_of_ne hne']
        exact h hold

theorem Stripped.calls {tree : Tree} (h : Stripped (Run.begin Stage tree))
    (hinv : Inv pkg (Run.begin Stage tree)) {r : Call} (hcalls : pkg.Calls StripInTurn tree r) :
    Stripped r := by
  induction hcalls with
  | refl => exact h
  | tail hinit hstep ih => exact ih.step (hinv.runs (runs_of_calls hinit)) hstep.1 hstep.2

theorem History.stripped {tree : Tree} (h : History pkg StripInTurn tree) :
    Stripped (Run.begin Stage tree) := by
  induction h with
  | fresh =>
      intro hstrip
      rcases hstrip with hsome | hrun
      · exact absurd rfl hsome
      · cases hrun
  | clean _ ih => exact ih.quit _
  | call target deleted htree hcalls _ ih =>
      exact ((ih.quit _).calls (htree.inv.remove _) hcalls).quit deleted

/-- `.strip` will not be executed again in this call, although `.do-install` has
been started since, or is not over yet. -/
structure Spoiled (r : Call) : Prop where
  shut : r.files.stamp .strip ≠ none ∨ r.status .strip ≠ .waiting
  early : r.files.begun .strip < r.files.begun .doInstall ∨
    r.files.begun .strip < r.files.ended .doInstall ∨ r.status .doInstall = .running

/-- A stage starts in one way only. -/
theorem start_of_running {r r' : Call} (hstep : pkg.makefile.Step r r') {x : Stage}
    (hwait : r.status x = .waiting) (hrun : r'.status x = .running) :
    r' = ⟨Function.update r.status x .running, startStage x r.files⟩ := by
  cases hstep with
  | start t _ _ _ _ =>
      by_cases hxt : x = t
      · subst hxt
        rfl
      · simp [Function.update_of_ne hxt, hwait] at hrun
  | keep t _ _ _ _ =>
      by_cases hxt : x = t
      · simp [hxt] at hrun
      · simp [Function.update_of_ne hxt, hwait] at hrun
  | finish t _ _ =>
      by_cases hxt : x = t
      · simp [hxt] at hrun
      · simp [Function.update_of_ne hxt, hwait] at hrun

/-- A step out of turn cannot be made good in the same call. -/
theorem spoiled_of_not_inTurn {r r' : Call} (hinv : Inv pkg r) (hstep : pkg.makefile.Step r r')
    (h : ¬ StripInTurn r r') : Spoiled r' := by
  have hne : Stage.strip ≠ .doInstall := by decide
  by_contra hspoiled
  refine h ⟨fun hwait hrun => ?_, fun hwait hrun hinstall => hspoiled ?_⟩
  · have hr' := start_of_running hstep hwait hrun
    subst hr'
    by_contra hout
    refine hspoiled ⟨?_, Or.inl ?_⟩
    · simp only [startStage, Function.update_of_ne hne]
      by_cases hnone : r.files.stamp .strip = none
      · right
        intro hstrip
        exact hout ⟨hnone, fun hrun' => by simp [hstrip] at hrun'⟩
      · exact Or.inl hnone
    · simp only [startStage, Function.update_self, Function.update_of_ne hne]
      exact hinv.begun_lt _
  · have hr' := start_of_running hstep hwait hrun
    subst hr'
    refine ⟨Or.inr (by simp), Or.inr (Or.inr ?_)⟩
    simpa only [Function.update_of_ne hne.symm] using hinstall

theorem Spoiled.step {r r' : Call} (h : Spoiled r) (hinv : Inv pkg r)
    (hstep : pkg.makefile.Step r r') : Spoiled r' := by
  have hne : Stage.strip ≠ .doInstall := by decide
  cases hstep with
  | keep t _ hwait =>
      refine ⟨?_, ?_⟩
      · by_cases hstrip : Stage.strip = t
        · subst hstrip
          exact Or.inr (by simp)
        · simpa only [Function.update_of_ne hstrip] using h.shut
      · refine h.early.imp_right (Or.imp_right fun hrun => ?_)
        have hinstall : Stage.doInstall ≠ t := by
          intro heq
          simp [← heq, hrun] at hwait
        simpa only [Function.update_of_ne hinstall] using hrun
  | start t _ hwait hready hstale =>
      have hstrip : Stage.strip ≠ t := by
        intro heq
        subst heq
        -- the stamp is there, and its rule has no prerequisite
        obtain ⟨limit, hlimit⟩ :=
          Option.ne_none_iff_exists'.mp (h.shut.resolve_right fun hshut => hshut hwait)
        obtain ⟨x, hx, _⟩ := stale_iff.mp hstale limit hlimit
        cases hx
      simp only [Package.makefile]
      refine ⟨by simpa only [startStage, Function.update_of_ne hstrip] using h.shut, ?_⟩
      by_cases hinstall : Stage.doInstall = t
      · subst hinstall
        left
        simp only [startStage, Function.update_self, Function.update_of_ne hne]
        exact hinv.begun_lt _
      · simpa only [startStage, Function.update_of_ne hstrip, Function.update_of_ne hinstall]
          using h.early
  | finish t _ hrunning =>
      simp only [Package.makefile]
      refine ⟨?_, ?_⟩
      · by_cases hstrip : Stage.strip = t
        · subst hstrip
          exact Or.inr (by simp)
        · simpa only [finishStage, Function.update_of_ne hstrip] using h.shut
      · by_cases hinstall : Stage.doInstall = t
        · subst hinstall
          right
          left
          simp only [finishStage, Function.update_self]
          exact hinv.begun_lt _
        · simpa only [finishStage, Function.update_of_ne hinstall] using h.early

/-- The steps of a call have all been in turn, or it is too late for `.strip`. -/
theorem calls_or_spoiled {tree : Tree} (hinv : Inv pkg (Run.begin Stage tree)) {r : Call}
    (hruns : pkg.makefile.Runs tree r) : pkg.Calls StripInTurn tree r ∨ Spoiled r := by
  induction hruns with
  | refl => exact Or.inl ReflTransGen.refl
  | @tail r r' hinit hstep ih =>
      have hinv' := hinv.runs hinit
      rcases ih with hcalls | hspoiled
      · by_cases hmeets : StripInTurn r r'
        · exact Or.inl (hcalls.tail ⟨hstep, hmeets⟩)
        · exact Or.inr (spoiled_of_not_inTurn hinv' hstep hmeets)
      · exact Or.inr (hspoiled.step hinv' hstep)

/-- As long as all the calls before have kept `.strip` in turn, a successful call
leaves the stages executed in order if and only if it has done so, too. -/
theorem stages_inOrder_iff (pkg : Package) {tree : Tree} (htree : History pkg StripInTurn tree)
    (target : SingleTarget) {r : Call} (hruns : pkg.makefile.Runs (target.prepare tree) r)
    (hdone : pkg.makefile.Completed r) :
    InOrder pkg r.files ↔ pkg.Calls StripInTurn (target.prepare tree) r := by
  have hstart := htree.inv.remove target.removes
  have hinstall : Stage.doInstall ∈ pkg.stages := mem_stages_of_late (by simp)
  have hstrip : Stage.strip ∈ pkg.stages := mem_stages_of_late (by simp)
  constructor
  · intro horder
    refine (calls_or_spoiled hstart hruns).resolve_right fun hspoiled => ?_
    have hafter := horder .strip hstrip .doInstall (TransGen.single (by simp [Package.before]))
    have hfirst := hafter.first
    have hbetween := hafter.between
    rcases hspoiled.early with hearly | hearly | hearly
    · omega
    · omega
    · have hsettled := hdone _ hinstall
      simp [hearly, Status.Settled] at hsettled
  · intro hcalls
    rw [inOrder_iff_strip hstart hruns hdone]
    have hstamp := stamp_isSome hstart hruns hdone hstrip
    have hstripped := (htree.stripped.quit _).calls hstart hcalls
    exact (hstripped (Or.inl (by simpa [Option.isSome_iff_ne_none] using hstamp))).2.2

/-! ## Two histories -/

instance StripInTurn.decidable (r r' : Call) : Decidable (StripInTurn r r') :=
  decidable_of_iff
    ((r.status .doInstall = .waiting → r'.status .doInstall = .running →
        r.files.stamp .strip = none ∧ r.status .strip ≠ .running) ∧
      (r.status .strip = .waiting → r'.status .strip = .running →
        r.status .doInstall ≠ .running))
    ⟨fun h => ⟨h.1, h.2⟩, fun h => ⟨h.doInstall, h.strip⟩⟩

/-- Take the stages of a list one after the other, if the steps meet a condition. -/
def Package.follow (pkg : Package) (meets : Call → Call → Prop) [DecidableRel meets]
    (schedule : List Stage) (r : Call) : Option Call :=
  schedule.foldlM (fun r t => (pkg.makefile.advance r t).filter (meets r ·)) r

theorem steps_of_follow {meets : Call → Call → Prop} [DecidableRel meets]
    {schedule : List Stage} {r r' : Call} (h : pkg.follow meets schedule r = some r') :
    ReflTransGen (fun r r' => pkg.makefile.Step r r' ∧ meets r r') r r' := by
  induction schedule generalizing r with
  | nil => exact Option.some.inj h ▸ ReflTransGen.refl
  | cons t schedule ih =>
      rw [Package.follow, List.foldlM_cons] at h
      rcases Option.bind_eq_some_iff.mp h with ⟨r₁, hstep, hrest⟩
      rw [Option.filter_eq_some_iff] at hstep
      exact ReflTransGen.head
        ⟨Makefile.step_of_advance hstep.1, of_decide_eq_true hstep.2⟩ (ih hrest)

/-- What a call of a target comes to when it follows a schedule. -/
def Package.callOf (pkg : Package) (meets : Call → Call → Prop) [DecidableRel meets]
    (schedule : List Stage) (tree : Tree) : Call :=
  (pkg.follow meets schedule (Run.begin Stage tree)).getD (Run.begin Stage tree)

theorem calls_callOf {meets : Call → Call → Prop} [DecidableRel meets]
    {schedule : List Stage} {tree : Tree} :
    pkg.Calls meets tree (pkg.callOf meets schedule tree) := by
  unfold Package.Calls Package.callOf
  cases hfollow : pkg.follow meets schedule (Run.begin Stage tree) with
  | none => exact ReflTransGen.refl
  | some r => exact steps_of_follow hfollow

/-- A package from a git repository. -/
def gitPackage : Package where
  tarballs := []
  files := []
  origin := .git

/-- One stage after the other. -/
def inSequence : List Stage := gitPackage.stages.flatMap fun stage => [stage, stage]

/-- The first call, from nothing. -/
def firstCall (meets : Call → Call → Prop) [DecidableRel meets] : Call :=
  gitPackage.callOf meets inSequence (SingleTarget.rebuild.prepare .fresh)

theorem stages_inOrder_iff_gitPackage :
    InOrder gitPackage (firstCall StripInTurn).files ↔
      gitPackage.Calls StripInTurn (SingleTarget.rebuild.prepare .fresh) (firstCall StripInTurn) :=
  stages_inOrder_iff gitPackage .fresh .rebuild (runs_of_calls calls_callOf) (by decide +kernel)

/-- What the first call leaves. -/
def builtTree : Tree := (firstCall fun _ _ => True).files.remove fun _ => false

/-- After `.build` has been removed, the stages behind it are executed again, but
the stamp of `.strip` is kept. -/
def buildCall : Call :=
  gitPackage.callOf (fun _ _ => True)
    [.directory, .gitClone, .setup, .patch, .configure, .build, .build, .doInstall, .doInstall,
      .configScripts, .configScripts, .prune, .prune, .strip, .cleanup, .cleanup, .binary, .binary,
      .install, .install] (SingleTarget.build.prepare builtTree)

/-- The target `build` packages files that are not stripped. -/
theorem gitPackage_not_stripped :
    ¬ ∀ (pkg : Package) (tree : Tree), History pkg (fun _ _ => True) tree →
      ∀ (target : SingleTarget) (r : Call), pkg.makefile.Runs (target.prepare tree) r →
        pkg.makefile.Completed r → InOrder pkg r.files := by
  intro h
  have hbuilt : History gitPackage (fun _ _ => True) builtTree :=
    .call .rebuild _ .fresh calls_callOf (by simp)
  have hdone : gitPackage.makefile.Completed buildCall := by decide +kernel
  have hprecedes : gitPackage.Precedes .doInstall .strip :=
    TransGen.single (by simp [Package.before])
  have hafter := h gitPackage builtTree hbuilt .build buildCall (runs_of_calls calls_callOf) hdone
    .strip (by decide) .doInstall hprecedes
  have hbefore : buildCall.files.begun .strip < buildCall.files.ended .doInstall := by
    decide +kernel
  exact absurd hafter.between (Nat.not_le_of_lt hbefore)

end Pbs.Stages
