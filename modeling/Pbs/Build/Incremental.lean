import Pbs.Lib.MakeRun
import Pbs.Deps.Makefile

/-!
# Incremental builds

`make build` brings `build/.install` up to date by the rules of `depends.mk` and
the recipes of `scripts/Makefile.platform`. The recipe of a package removes
`build/P` and everything below it, builds the package and stamps
`build/P/.install`. The recipe of `build/P.hash` writes the digest of the inputs
of the package, but leaves a file with that digest alone.
-/

namespace Pbs.Build

open Kconfig Deps MakeRun Walks Relation

/-! ## Files -/

/-- The files that the rules look at: those of the source tree, with contents
and modification times, and those below `build`. Every change takes the next
tick of the clock for its modification time. -/
structure Tree (Data Digest : Type) where
  clock : ℕ
  contents : Text → Data
  edited : Text → Option ℕ
  built : Text → Option ℕ
  /-- the contents of the `.hash` files -/
  recorded : Text → Digest

/-- The packages of `depends.mk`, and the two programs that the rules call. -/
structure Setup (Data Digest : Type) where
  packages : Packages
  /-- the prerequisites that `P/depends.mk` adds to `$(dep-hash-file)`, by its
  contents -/
  depends : Text → Data → List Text
  /-- `sha1sum $^ | sha1sum` -/
  sha1sum : List (Text × Data) → Digest

variable {Data Digest : Type}

/-- The edit of a file of the source tree. -/
def Tree.edit (tree : Tree Data Digest) (file : Text) (data : Data) : Tree Data Digest :=
  { tree with
    clock := tree.clock + 1
    contents := Function.update tree.contents file data
    edited := Function.update tree.edited file (some tree.clock) }

/-- `touch`. -/
def Tree.touch (tree : Tree Data Digest) (file : Text) : Tree Data Digest :=
  { tree with clock := tree.clock + 1, built := Function.update tree.built file (some tree.clock) }

/-- `rm -rf` of a directory below `build`. -/
def Tree.remove (tree : Tree Data Digest) (dir : Text) : Tree Data Digest :=
  { tree with built := fun file =>
      if (dir ++ ['/']).isPrefixOf file then none else tree.built file }

/-! ## Rules -/

/-- The targets of `make build`. -/
inductive Target where
  | all
  | install (p : PkgId)
  | hash (p : PkgId)
deriving DecidableEq, Repr

namespace Setup

variable (setup : Setup Data Digest)

/-- The packages with a rule. -/
def emittedIds : List PkgId :=
  setup.packages.list.filter fun p => emitted (setup.packages.node p)

/-- The packages with a rule and what their rules ask for. A package without a
rule gets the recipe of the pattern rule, without prerequisites. -/
def needed : List PkgId :=
  setup.emittedIds ++ setup.emittedIds.flatMap fun p => (setup.packages.node p).deps

def path (p : PkgId) : Text := (setup.packages.node p).path

/-- The file of a target. -/
def file : Target → Text
  | .all => text "build/.install"
  | .install p => installTarget (setup.path p)
  | .hash p => hashTarget (setup.path p)

/-- The inputs of a package: its `Makefile`, its `depends.mk` if there is one,
and what that one adds. -/
def inputs (tree : Tree Data Digest) (p : PkgId) : List Text :=
  let dependsFile := setup.path p ++ text "/depends.mk"
  (setup.path p ++ text "/Makefile") ::
    if (tree.edited dependsFile).isSome then
      dependsFile :: setup.depends (setup.path p) (tree.contents dependsFile)
    else []

/-- The digest of the inputs. -/
def digest (tree : Tree Data Digest) (p : PkgId) : Digest :=
  setup.sha1sum ((setup.inputs tree p).map fun file => (file, tree.contents file))

/-- The digest recorded in `build/P.hash`. -/
def hashed (tree : Tree Data Digest) (p : PkgId) : Option Digest :=
  (tree.built (setup.file (.hash p))).map fun _ => tree.recorded (setup.file (.hash p))

/-- What the recipe of a target does first. -/
def startRecipe : Target → Tree Data Digest → Tree Data Digest
  | .install p, tree => tree.remove (text "build/" ++ setup.path p)
  | _, tree => tree

/-- What the recipe of a target has done at the end. -/
def finishRecipe [DecidableEq Digest] : Target → Tree Data Digest → Tree Data Digest
  | .hash p, tree =>
      if setup.hashed tree p = some (setup.digest tree p) then
        { tree with clock := tree.clock + 1 }
      else
        let file := setup.file (.hash p)
        { tree.touch file with
          recorded := Function.update tree.recorded file (setup.digest tree p) }
  | target, tree => tree.touch (setup.file target)

/-- The rules for the goal `build`. -/
def makefile [DecidableEq Digest] : Makefile Target (Tree Data Digest) where
  targets := .all :: setup.emittedIds.map .hash ++ setup.needed.map .install
  normal
    | .all => setup.emittedIds.map .install
    | .install p =>
        if p ∈ setup.emittedIds then
          .hash p :: (normalDeps setup.packages (setup.packages.node p)).map .install
        else []
    | .hash _ => []
  orderOnly
    | .install p =>
        if p ∈ setup.emittedIds then
          (stableDeps setup.packages (setup.packages.node p)).map .install
        else []
    | _ => []
  mtime tree target := tree.built (setup.file target)
  sources tree
    | .hash p => (setup.inputs tree p).map tree.edited
    | _ => []
  start := setup.startRecipe
  finish := setup.finishRecipe
  lazy
    | .hash _ => True
    | _ => False

section Makefile

variable [DecidableEq Digest]

theorem makefile_mtime (tree : Tree Data Digest) (target : Target) :
    setup.makefile.mtime tree target = tree.built (setup.file target) := rfl

theorem makefile_start (target : Target) (tree : Tree Data Digest) :
    setup.makefile.start target tree = setup.startRecipe target tree := rfl

theorem makefile_finish (target : Target) (tree : Tree Data Digest) :
    setup.makefile.finish target tree = setup.finishRecipe target tree := rfl

theorem install_mem_targets {p : PkgId} :
    Target.install p ∈ setup.makefile.targets ↔ p ∈ setup.needed := by
  simp [makefile]

theorem hash_mem_targets {p : PkgId} :
    Target.hash p ∈ setup.makefile.targets ↔ p ∈ setup.emittedIds := by
  simp [makefile]

theorem mem_normal_install {p : PkgId} (hp : p ∈ setup.emittedIds) {u : Target} :
    u ∈ setup.makefile.normal (.install p) ↔
      u = .hash p ∨ ∃ d ∈ normalDeps setup.packages (setup.packages.node p), u = .install d := by
  simp [makefile, hp, eq_comm]

theorem mem_prereqs_install {p : PkgId} (hp : p ∈ setup.emittedIds) {u : Target} :
    u ∈ setup.makefile.normal (.install p) ++ setup.makefile.orderOnly (.install p) ↔
      u = .hash p ∨ ∃ d ∈ (setup.packages.node p).deps, u = .install d := by
  rw [List.mem_append, mem_normal_install setup hp]
  simp only [makefile, hp, if_true, List.mem_map, normalDeps, stableDeps, List.mem_filter]
  constructor
  · rintro ((h | ⟨d, ⟨hd, _⟩, rfl⟩) | ⟨d, ⟨hd, _⟩, rfl⟩)
    · exact Or.inl h
    · exact Or.inr ⟨d, hd, rfl⟩
    · exact Or.inr ⟨d, hd, rfl⟩
  · rintro (h | ⟨d, hd, rfl⟩)
    · exact Or.inl (Or.inl h)
    · cases hstable : (setup.packages.node d).stable with
      | true => exact Or.inr ⟨d, ⟨hd, hstable⟩, rfl⟩
      | false => exact Or.inl (Or.inr ⟨d, ⟨hd, by simp [hstable]⟩, rfl⟩)

end Makefile

/-- The rules are those that `write_depends` prints. -/
theorem makefile_installRule [DecidableEq Digest] {p : PkgId} (hp : p ∈ setup.emittedIds) :
    installRule setup.packages (setup.packages.node p) =
      ⟨[setup.file (.install p)], (setup.makefile.normal (.install p)).map setup.file,
        (setup.makefile.orderOnly (.install p)).map setup.file⟩ := by
  simp only [installRule, makefile, if_pos hp, List.map_cons, List.map_map]
  rfl

theorem makefile_buildInstallRule [DecidableEq Digest] :
    buildInstallRule setup.packages =
      ⟨[setup.file .all], (setup.makefile.normal .all).map setup.file, []⟩ := by
  simp only [buildInstallRule, makefile, emittedPackages, emittedIds, List.filter_map, List.map_map]
  rfl

/-! ## Recipes touch no other target -/

/-- No two packages share a path. -/
def DistinctPaths : Prop :=
  ∀ p ∈ setup.needed, ∀ q ∈ setup.needed, setup.path p = setup.path q → p = q

/-- No package lies below another. -/
def PathsApart : Prop :=
  ∀ p ∈ setup.needed, ∀ q ∈ setup.needed, ¬ setup.path p ++ ['/'] <+: setup.path q

theorem slash_prefix_append {dir name rest : Text} (hrest : '/' ∉ rest)
    (h : dir ++ ['/'] <+: name ++ rest) : dir ++ ['/'] <+: name := by
  rcases h with ⟨tail, htail⟩
  rcases List.append_eq_append_iff.mp htail with ⟨more, hname, _⟩ | ⟨more, hdir, hmore⟩
  · exact ⟨more, hname.symm⟩
  · -- the slash ends what is cut off from `rest`, so nothing is cut off
    cases more with
    | nil => exact ⟨[], by simpa using hdir⟩
    | cons c more =>
        have hlast := congrArg List.getLast? hdir
        simp only [List.getLast?_append, List.getLast?_singleton, Option.some_or] at hlast
        have hmem : '/' ∈ c :: more := by
          cases hl : (c :: more).getLast? with
          | none => simp at hl
          | some d =>
              rw [hl, Option.some_or, Option.some.injEq] at hlast
              exact hlast ▸ List.mem_of_getLast? hl
        exact absurd (hmore ▸ List.mem_append_left tail hmem) hrest

theorem slash_prefix_below {dir name rest : Text} (hrest : '/' ∉ rest)
    (h : dir ++ ['/'] <+: name ++ '/' :: rest) : dir = name ∨ dir ++ ['/'] <+: name := by
  have hcut : dir ++ ['/'] <+: name ++ ['/'] := by
    refine slash_prefix_append hrest ?_
    rwa [List.append_assoc]
  rcases List.prefix_concat_iff.mp hcut with heq | hbelow
  · exact Or.inl (List.append_cancel_right heq)
  · exact Or.inr hbelow

variable {setup}

theorem mem_needed {p : PkgId} (hp : p ∈ setup.emittedIds) : p ∈ setup.needed :=
  List.mem_append_left _ hp

/-- `rm -rf build/P` removes no file of another target. -/
theorem not_below (hdistinct : setup.DistinctPaths) (hapart : setup.PathsApart)
    [DecidableEq Digest] {p : PkgId} (hp : p ∈ setup.needed) {target : Target}
    (htarget : target ∈ setup.makefile.targets) (hne : target ≠ .install p) :
    ¬ text "build/" ++ setup.path p ++ ['/'] <+: setup.file target := by
  rw [List.append_assoc]
  intro hbelow
  cases target with
  | all =>
      have hsplit : setup.file .all = text "build/" ++ ([] ++ text ".install") := by rfl
      rw [hsplit, List.prefix_append_right_inj] at hbelow
      simpa using slash_prefix_append (by decide) hbelow
  | hash q =>
      have hq := (hash_mem_targets setup).mp htarget
      rw [file, hashTarget, List.append_assoc, List.prefix_append_right_inj] at hbelow
      exact hapart p hp q (mem_needed hq) (slash_prefix_append (by decide) hbelow)
  | install q =>
      have hq := (install_mem_targets setup).mp htarget
      have hslash : text "/.install" = '/' :: text ".install" := by rfl
      rw [file, installTarget, hslash, List.append_assoc, List.prefix_append_right_inj] at hbelow
      rcases slash_prefix_below (by decide) hbelow with heq | hbelow
      · exact hne (by rw [hdistinct p hp q hq heq])
      · exact hapart p hp q hq hbelow

theorem file_all_ne_install (p : PkgId) : setup.file .all ≠ setup.file (.install p) := by
  intro h
  have hlength := congrArg List.length h
  simp only [file, installTarget, List.length_append] at hlength
  have hall : (text "build/.install").length = 14 := by rfl
  have hstart : (text "build/").length = 6 := by rfl
  have hend : (text "/.install").length = 9 := by rfl
  omega

theorem file_hash_ne (p : PkgId) {target : Target} (h : ∀ q, target ≠ .hash q) :
    setup.file (.hash p) ≠ setup.file target := by
  intro heq
  have hsuffix : (text "/.install").isSuffixOf (setup.file target) = true := by
    cases target with
    | all => rfl
    | install q => exact install_installTarget _
    | hash q => exact absurd rfl (h q)
  rw [← heq, file, not_install_hashTarget] at hsuffix
  exact Bool.false_ne_true hsuffix

/-- No two targets share a file. -/
theorem file_inj (hdistinct : setup.DistinctPaths) [DecidableEq Digest] {a b : Target}
    (ha : a ∈ setup.makefile.targets) (hb : b ∈ setup.makefile.targets)
    (h : setup.file a = setup.file b) : a = b := by
  have hneeded : ∀ p, (Target.install p) ∈ setup.makefile.targets ∨
      (Target.hash p) ∈ setup.makefile.targets → p ∈ setup.needed := by
    intro p hp
    rcases hp with hp | hp
    · exact (install_mem_targets setup).mp hp
    · exact mem_needed ((hash_mem_targets setup).mp hp)
  cases a with
  | all =>
      cases b with
      | all => rfl
      | install q => exact absurd h (file_all_ne_install q)
      | hash q => exact absurd h.symm (file_hash_ne q (by simp))
  | install p =>
      cases b with
      | all => exact absurd h.symm (file_all_ne_install p)
      | install q =>
          have hpath := installTarget_injective h
          rw [hdistinct p (hneeded p (Or.inl ha)) q (hneeded q (Or.inl hb)) hpath]
      | hash q => exact absurd h.symm (file_hash_ne q (by simp))
  | hash p =>
      cases b with
      | all => exact absurd h (file_hash_ne p (by simp))
      | install q => exact absurd h (file_hash_ne p (by simp))
      | hash q =>
          simp only [file, hashTarget, List.append_assoc] at h
          have hpath := List.append_cancel_right (List.append_cancel_left h)
          rw [hdistinct p (hneeded p (Or.inr ha)) q (hneeded q (Or.inr hb)) hpath]

/-! ## The rules fit the library -/

theorem remove_other (hdistinct : setup.DistinctPaths) (hapart : setup.PathsApart)
    [DecidableEq Digest] {p : PkgId} (hp : p ∈ setup.needed) {target : Target}
    (htarget : target ∈ setup.makefile.targets) (hne : target ≠ .install p)
    (tree : Tree Data Digest) :
    (tree.remove (text "build/" ++ setup.path p)).built (setup.file target) =
      tree.built (setup.file target) := by
  refine if_neg fun h => not_below hdistinct hapart hp htarget hne ?_
  exact List.isPrefixOf_iff_prefix.mp h

/-- A recipe that does not leave its file alone touches it. -/
theorem finishRecipe_built [DecidableEq Digest] {target : Target} {tree : Tree Data Digest}
    (h : ∀ p, target = .hash p → setup.hashed tree p ≠ some (setup.digest tree p)) :
    (setup.finishRecipe target tree).built =
      Function.update tree.built (setup.file target) (some tree.clock) := by
  cases target with
  | all => rfl
  | install p => rfl
  | hash p => rw [finishRecipe, if_neg (h p rfl)]; rfl

theorem finishRecipe_left [DecidableEq Digest] {p : PkgId} {tree : Tree Data Digest}
    (h : setup.hashed tree p = some (setup.digest tree p)) :
    setup.finishRecipe (.hash p) tree = { tree with clock := tree.clock + 1 } :=
  if_pos h

/-- The recipes leave the source tree alone. -/
theorem finishRecipe_source [DecidableEq Digest] (target : Target) (tree : Tree Data Digest) :
    (setup.finishRecipe target tree).clock = tree.clock + 1 ∧
    (setup.finishRecipe target tree).contents = tree.contents ∧
    (setup.finishRecipe target tree).edited = tree.edited := by
  cases target with
  | all => exact ⟨rfl, rfl, rfl⟩
  | install p => exact ⟨rfl, rfl, rfl⟩
  | hash p =>
      by_cases h : setup.hashed tree p = some (setup.digest tree p)
      · rw [finishRecipe, if_pos h]
        exact ⟨rfl, rfl, rfl⟩
      · rw [finishRecipe, if_neg h]
        exact ⟨rfl, rfl, rfl⟩

theorem startRecipe_source (target : Target) (tree : Tree Data Digest) :
    (setup.startRecipe target tree).clock = tree.clock ∧
    (setup.startRecipe target tree).contents = tree.contents ∧
    (setup.startRecipe target tree).edited = tree.edited := by
  cases target <;> exact ⟨rfl, rfl, rfl⟩

/-- The inputs and their times depend on the source tree alone. -/
theorem inputs_congr {tree tree' : Tree Data Digest} (hcontents : tree'.contents = tree.contents)
    (hedited : tree'.edited = tree.edited) (p : PkgId) :
    setup.inputs tree' p = setup.inputs tree p := by
  simp only [inputs, hcontents, hedited]

theorem digest_congr {tree tree' : Tree Data Digest} (hcontents : tree'.contents = tree.contents)
    (hedited : tree'.edited = tree.edited) (p : PkgId) :
    setup.digest tree' p = setup.digest tree p := by
  simp only [digest, inputs_congr hcontents hedited, hcontents]

theorem sources_congr [DecidableEq Digest] {tree tree' : Tree Data Digest}
    (hcontents : tree'.contents = tree.contents) (hedited : tree'.edited = tree.edited)
    (target : Target) :
    setup.makefile.sources tree' target = setup.makefile.sources tree target := by
  cases target with
  | hash p => simp only [makefile, inputs_congr hcontents hedited, hedited]
  | all => rfl
  | install p => rfl

theorem makefile_closed [DecidableEq Digest] {t u : Target}
    (hu : u ∈ setup.makefile.normal t ++ setup.makefile.orderOnly t) :
    u ∈ setup.makefile.targets := by
  cases t with
  | all =>
      have hu' : u ∈ setup.emittedIds.map Target.install := by simpa [makefile] using hu
      rcases List.mem_map.mp hu' with ⟨q, hq, rfl⟩
      exact (install_mem_targets setup).mpr (mem_needed hq)
  | hash p => simp [makefile] at hu
  | install p =>
      by_cases hp : p ∈ setup.emittedIds
      · rcases (mem_prereqs_install setup hp).mp hu with rfl | ⟨d, hd, rfl⟩
        · exact (hash_mem_targets setup).mpr hp
        · -- the dependencies of a package with a rule are needed
          refine (install_mem_targets setup).mpr (List.mem_append_right _ ?_)
          exact List.mem_flatMap.mpr ⟨p, hp, hd⟩
      · simp [makefile, hp] at hu

theorem ownFiles (hdistinct : setup.DistinctPaths) (hapart : setup.PathsApart)
    [DecidableEq Digest] : setup.makefile.OwnFiles Tree.clock where
  closed _ _ _ hu := makefile_closed hu
  start_clock t tree := by
    rw [makefile_start, (startRecipe_source t tree).1]
  finish_clock t tree := by
    rw [makefile_finish, (finishRecipe_source t tree).1]
    exact Nat.lt_succ_self _
  start_sources t tree u :=
    sources_congr (startRecipe_source t tree).2.1 (startRecipe_source t tree).2.2 u
  finish_sources t tree u :=
    sources_congr (finishRecipe_source t tree).2.1 (finishRecipe_source t tree).2.2 u
  start_other t ht u hu hne tree := by
    cases t with
    | install p =>
        have hp := (install_mem_targets setup).mp ht
        exact remove_other hdistinct hapart hp hu hne tree
    | all => rfl
    | hash p => rfl
  finish_other t ht u hu hne tree := by
    have hfile : setup.file u ≠ setup.file t := fun h => hne (file_inj hdistinct hu ht h)
    by_cases hleft : ∃ p, t = .hash p ∧ setup.hashed tree p = some (setup.digest tree p)
    · -- a hash file that is right keeps its time
      rcases hleft with ⟨p, rfl, hp⟩
      rw [makefile_finish, finishRecipe_left hp]
      rfl
    · rw [makefile_finish, makefile_mtime, finishRecipe_built fun p ht hp => hleft ⟨p, ht, hp⟩]
      exact Function.update_of_ne hfile _ _
  start_own t _ tree := by
    cases t with
    | install p =>
        -- the recipe begins with removing the directory of the package
        have hbelow : (text "build/" ++ setup.path p ++ ['/']).isPrefixOf
            (setup.file (.install p)) = true := by
          rw [List.isPrefixOf_iff_prefix]
          exact ⟨text ".install", by simp [file, installTarget, text]⟩
        exact Or.inr (if_pos hbelow)
    | all => exact Or.inl rfl
    | hash p => exact Or.inl rfl
  finish_own t _ tree := by
    by_cases hleft : ∃ p, t = .hash p ∧ setup.hashed tree p = some (setup.digest tree p)
    · rcases hleft with ⟨p, rfl, hp⟩
      refine Or.inr ⟨trivial, ?_, by rw [makefile_finish, finishRecipe_left hp]; rfl⟩
      show (tree.built (setup.file (.hash p))).isSome
      cases hbuilt : tree.built (setup.file (.hash p)) with
      | none => simp [hashed, hbuilt] at hp
      | some time => rfl
    · refine Or.inl ?_
      rw [makefile_finish, makefile_mtime, finishRecipe_built fun p ht hp => hleft ⟨p, ht, hp⟩]
      exact Function.update_self ..
  lazy_normal t _ hlazy := by
    cases t with
    | hash p => rfl
    | all => exact hlazy.elim
    | install p => exact hlazy.elim

/-! ## The hash files -/

section Hash

variable [DecidableEq Digest]

/-- The recipe of a target changes no other file. -/
theorem finishRecipe_other {target : Target} {file : Text} (h : file ≠ setup.file target)
    (tree : Tree Data Digest) :
    (setup.finishRecipe target tree).built file = tree.built file ∧
    (setup.finishRecipe target tree).recorded file = tree.recorded file := by
  cases target with
  | all => exact ⟨Function.update_of_ne h _ _, rfl⟩
  | install p => exact ⟨Function.update_of_ne h _ _, rfl⟩
  | hash p =>
      by_cases hleft : setup.hashed tree p = some (setup.digest tree p)
      · rw [finishRecipe_left hleft]
        exact ⟨rfl, rfl⟩
      · rw [finishRecipe, if_neg hleft]
        exact ⟨Function.update_of_ne h _ _, Function.update_of_ne h _ _⟩

/-- The hash file is as it was in the beginning. -/
def HashKept (setup : Setup Data Digest) (tree : Tree Data Digest)
    (r : Run Target (Tree Data Digest)) (p : PkgId) : Prop :=
  r.files.built (setup.file (.hash p)) = tree.built (setup.file (.hash p)) ∧
  r.files.recorded (setup.file (.hash p)) = tree.recorded (setup.file (.hash p))

/-- What a run has done to the hash files: the digest is written by the recipe,
and only where it differs from the one recorded. -/
structure Hashing (setup : Setup Data Digest) (tree : Tree Data Digest)
    (r : Run Target (Tree Data Digest)) : Prop where
  contents : r.files.contents = tree.contents
  edited : r.files.edited = tree.edited
  clock : tree.clock ≤ r.files.clock
  kept : ∀ p ∈ setup.emittedIds,
    setup.hashed tree p = some (setup.digest tree p) ∨ r.status (.hash p) ≠ .ran →
    HashKept setup tree r p
  written : ∀ p ∈ setup.emittedIds, setup.hashed tree p ≠ some (setup.digest tree p) →
    r.status (.hash p) = .ran →
    (∃ time, r.files.built (setup.file (.hash p)) = some time ∧ tree.clock ≤ time) ∧
      r.files.recorded (setup.file (.hash p)) = setup.digest tree p

omit [DecidableEq Digest] in
theorem HashKept.hashed {tree : Tree Data Digest} {r : Run Target (Tree Data Digest)} {p : PkgId}
    (h : HashKept setup tree r p) : setup.hashed r.files p = setup.hashed tree p := by
  simp only [Setup.hashed, h.1, h.2]

omit [DecidableEq Digest] in
/-- A step that leaves the hash files alone, and ends no hash recipe. -/
theorem Hashing.frame {tree : Tree Data Digest} {r r' : Run Target (Tree Data Digest)}
    (h : Hashing setup tree r) (hcontents : r'.files.contents = r.files.contents)
    (hedited : r'.files.edited = r.files.edited) (hclock : r.files.clock ≤ r'.files.clock)
    (hstatus : ∀ p ∈ setup.emittedIds,
      r'.status (.hash p) = .ran ↔ r.status (.hash p) = .ran)
    (hfiles : ∀ p ∈ setup.emittedIds, HashKept setup r.files r' p) :
    Hashing setup tree r' where
  contents := hcontents.trans h.contents
  edited := hedited.trans h.edited
  clock := Nat.le_trans h.clock hclock
  kept p hp hcase := by
    have hkept := h.kept p hp (hcase.imp_right fun hne hran => hne ((hstatus p hp).mpr hran))
    exact ⟨(hfiles p hp).1.trans hkept.1, (hfiles p hp).2.trans hkept.2⟩
  written p hp hdiffers hran := by
    rw [(hfiles p hp).1, (hfiles p hp).2]
    exact h.written p hp hdiffers ((hstatus p hp).mp hran)

theorem Hashing.step (hdistinct : setup.DistinctPaths) (hapart : setup.PathsApart)
    {tree : Tree Data Digest} {r r' : Run Target (Tree Data Digest)} (h : Hashing setup tree r)
    (hstep : setup.makefile.Step r r') : Hashing setup tree r' := by
  -- a status that was and is not `ran` does not matter
  have hupdate : ∀ {t : Target} {st : Status}, r.status t ≠ .ran → st ≠ .ran → ∀ p,
      Function.update r.status t st (.hash p) = .ran ↔ r.status (.hash p) = .ran := by
    intro t st hold hnew p
    by_cases hp : Target.hash p = t
    · subst hp
      simp [hold, hnew]
    · rw [Function.update_of_ne hp]
  cases hstep with
  | keep t ht hwait =>
      exact h.frame rfl rfl (Nat.le_refl _)
        (fun p _ => hupdate (by simp [hwait]) (by simp) p) fun _ _ => ⟨rfl, rfl⟩
  | start t ht hwait =>
      have hsource := @startRecipe_source Data Digest setup t r.files
      refine h.frame hsource.2.1 hsource.2.2 (Nat.le_of_eq hsource.1.symm)
        (fun p _ => hupdate (by simp [hwait]) (by simp) p) fun p hp => ?_
      cases t with
      | install q =>
          refine ⟨?_, rfl⟩
          exact remove_other hdistinct hapart ((install_mem_targets setup).mp ht)
            ((hash_mem_targets setup).mpr hp) (by simp) r.files
      | all => exact ⟨rfl, rfl⟩
      | hash q => exact ⟨rfl, rfl⟩
  | finish t ht hrun =>
      have hsource := @finishRecipe_source Data Digest setup _ t r.files
      have hclock : r.files.clock ≤ (setup.finishRecipe t r.files).clock := by
        rw [hsource.1]
        exact Nat.le_succ _
      have hother : ∀ p ∈ setup.emittedIds, Target.hash p ≠ t →
          HashKept setup r.files
            ⟨Function.update r.status t .ran, setup.finishRecipe t r.files⟩ p := by
        intro p hp hne
        refine finishRecipe_other (fun hfile => hne ?_) r.files
        exact file_inj hdistinct ((hash_mem_targets setup).mpr hp) ht hfile
      have hdigest := fun p => @digest_congr _ _ setup _ _ h.contents h.edited p
      refine ⟨hsource.2.1.trans h.contents, hsource.2.2.trans h.edited,
        Nat.le_trans h.clock hclock, fun p hp hcase => ?_, fun p hp hdiffers hran => ?_⟩
      · by_cases hpt : Target.hash p = t
        · subst hpt
          -- the digest is the recorded one, so the recipe leaves the file alone
          have hsame := hcase.resolve_right fun hne => hne (Function.update_self ..)
          have hkept := h.kept p hp (Or.inl hsame)
          rw [← hkept.hashed, ← hdigest p] at hsame
          unfold HashKept
          rw [makefile_finish, finishRecipe_left hsame]
          exact hkept
        · have hstatus : Function.update r.status t .ran (.hash p) = r.status (.hash p) :=
            Function.update_of_ne hpt _ _
          have hkept := h.kept p hp (hcase.imp_right fun hne hran => hne (hstatus.trans hran))
          exact ⟨(hother p hp hpt).1.trans hkept.1, (hother p hp hpt).2.trans hkept.2⟩
      · by_cases hpt : Target.hash p = t
        · subst hpt
          have hkept := h.kept p hp (Or.inr (by simp [hrun]))
          rw [← hkept.hashed, ← hdigest p] at hdiffers
          rw [makefile_finish, finishRecipe, if_neg hdiffers]
          refine ⟨⟨r.files.clock, Function.update_self .., h.clock⟩, ?_⟩
          exact (Function.update_self ..).trans (hdigest p)
        · have hstatus : Function.update r.status t .ran (.hash p) = r.status (.hash p) :=
            Function.update_of_ne hpt _ _
          rcases h.written p hp hdiffers (hstatus.symm.trans hran) with ⟨⟨time, htime, hle⟩, hrec⟩
          exact ⟨⟨time, (hother p hp hpt).1.trans htime, hle⟩, (hother p hp hpt).2.trans hrec⟩

theorem Hashing.run (hdistinct : setup.DistinctPaths) (hapart : setup.PathsApart)
    {tree : Tree Data Digest} {r : Run Target (Tree Data Digest)}
    (h : setup.makefile.Runs tree r) : Hashing setup tree r := by
  induction h with
  | refl =>
      exact ⟨rfl, rfl, Nat.le_refl _, fun _ _ _ => ⟨rfl, rfl⟩, fun _ _ _ hran => nomatch hran⟩
  | tail _ hstep ih => exact ih.step hdistinct hapart hstep

end Hash

/-! ## Histories -/

section History

variable [DecidableEq Digest]

/-- Nothing built, then edits of the source tree and successful builds, in any
order. -/
inductive History (setup : Setup Data Digest) : Tree Data Digest → Prop where
  | clean (tree : Tree Data Digest) : (∀ file, tree.built file = none) →
      (∀ file time, tree.edited file = some time → time < tree.clock) → History setup tree
  | edit (file : Text) (data : Data) {tree : Tree Data Digest} : History setup tree →
      History setup (tree.edit file data)
  | build {tree : Tree Data Digest} {r : Run Target (Tree Data Digest)} : History setup tree →
      setup.makefile.Runs tree r → setup.makefile.Completed r → History setup r.files

/-- The invariant between builds. A hash file that is not older than the inputs
holds their digest. -/
structure Sound (setup : Setup Data Digest) (tree : Tree Data Digest) : Prop where
  past : setup.makefile.Past Tree.clock tree
  edited : ∀ file time, tree.edited file = some time → time < tree.clock
  consistent : setup.makefile.Consistent tree
  hashed : ∀ p ∈ setup.emittedIds, ∀ limit,
    tree.built (setup.file (.hash p)) = some limit →
    (∀ file ∈ setup.inputs tree p, ∃ time ≤ limit, tree.edited file = some time) →
    setup.hashed tree p = some (setup.digest tree p)

omit [DecidableEq Digest] in
/-- An edit of a file that is not an input afterwards changes no input. -/
theorem inputs_edit {tree : Tree Data Digest} {file : Text} {data : Data} {p : PkgId}
    (h : file ∉ setup.inputs (tree.edit file data) p) :
    setup.inputs (tree.edit file data) p = setup.inputs tree p := by
  have hne : setup.path p ++ text "/depends.mk" ≠ file := by
    rintro rfl
    refine h (List.mem_cons_of_mem _ ?_)
    simp [Tree.edit]
  simp only [inputs, Tree.edit, Function.update_of_ne hne]

theorem Sound.edit {tree : Tree Data Digest} (h : Sound setup tree) (file : Text) (data : Data) :
    Sound setup (tree.edit file data) where
  past t ht time htime := Nat.lt_succ_of_lt (h.past t ht time htime)
  edited other time htime := by
    show time < tree.clock + 1
    by_cases hother : other = file
    · subst hother
      have htime' : tree.clock = time := by simpa [Tree.edit] using htime
      omega
    · have htime' : tree.edited other = some time := by
        simpa [Tree.edit, Function.update_of_ne hother] using htime
      have hlt := h.edited other time htime'
      omega
  consistent := h.consistent
  hashed p hp limit hlimit hinputs := by
    have hlt : limit < tree.clock := h.past (.hash p) ((hash_mem_targets setup).mpr hp) limit hlimit
    have hnot : file ∉ setup.inputs (tree.edit file data) p := by
      intro hmem
      -- the edited file is newer than the hash file
      rcases hinputs file hmem with ⟨time, hle, htime⟩
      have htime' : tree.clock = time := by simpa [Tree.edit] using htime
      omega
    have hsame := inputs_edit hnot
    have hne : ∀ other ∈ setup.inputs tree p, other ≠ file := by
      rintro other hmem rfl
      exact hnot (hsame ▸ hmem)
    have hdigest : setup.digest (tree.edit file data) p = setup.digest tree p := by
      rw [digest, hsame]
      refine congrArg setup.sha1sum (List.map_congr_left fun other hother => ?_)
      simp [Tree.edit, Function.update_of_ne (hne other hother)]
    rw [hdigest]
    refine h.hashed p hp limit hlimit fun other hother => ?_
    rcases hinputs other (hsame ▸ hother) with ⟨time, hle, htime⟩
    refine ⟨time, hle, ?_⟩
    simpa [Tree.edit, Function.update_of_ne (hne other hother)] using htime

theorem Sound.clean {tree : Tree Data Digest} (hbuilt : ∀ file, tree.built file = none)
    (hedited : ∀ file time, tree.edited file = some time → time < tree.clock) :
    Sound setup tree where
  past t _ time htime := by simp [makefile_mtime, hbuilt] at htime
  edited := hedited
  consistent t _ limit hlimit := by simp [makefile_mtime, hbuilt] at hlimit
  hashed p _ limit hlimit := by simp [hbuilt] at hlimit

section Run

variable (hdistinct : setup.DistinctPaths) (hapart : setup.PathsApart) {tree : Tree Data Digest}
  (htree : Sound setup tree) {r : Run Target (Tree Data Digest)}
  (hrun : setup.makefile.Runs tree r)

include hdistinct hapart htree hrun

theorem progress_of_runs : setup.makefile.Progress Tree.clock tree r :=
  hrun.progress (ownFiles hdistinct hapart) htree.past

/-- The hash file of a package changes exactly when the digest of its inputs is
not the one recorded. -/
theorem hash_changes_iff {p : PkgId} (hp : p ∈ setup.emittedIds)
    (hst : (r.status (.hash p)).Settled) :
    r.files.built (setup.file (.hash p)) ≠ tree.built (setup.file (.hash p)) ↔
      setup.hashed tree p ≠ some (setup.digest tree p) := by
  have hmem := (hash_mem_targets setup).mpr hp
  have hhashing := Hashing.run hdistinct hapart hrun
  constructor
  · intro hchanged hsame
    exact hchanged (hhashing.kept p hp (Or.inl hsame)).1
  · intro hdiffers
    rcases hst with hkept | hran
    · -- the file is not older than the inputs, so it holds their digest
      have hout := (progress_of_runs hdistinct hapart htree hrun).outcome _ hmem
      rw [hkept] at hout
      refine absurd (Decidable.byContradiction fun hne => hout.2.1 ?_) hdiffers
      intro limit hlimit
      refine Or.inl (Decidable.byContradiction fun hnot => hne ?_)
      refine htree.hashed p hp limit hlimit fun file hfile => ?_
      refine Decidable.byContradiction fun hnewer =>
        hnot ⟨tree.edited file, ?_, fun time htime => ?_⟩
      · exact List.mem_map.mpr ⟨file, hfile, rfl⟩
      · exact Nat.lt_of_not_le fun hle => hnewer ⟨time, hle, htime⟩
    · -- the file has been written in this run
      rcases (hhashing.written p hp hdiffers hran).1 with ⟨time, htime, hle⟩
      intro hsame
      have hlt := htree.past _ hmem time (hsame.symm.trans htime)
      omega

theorem Sound.build (hdone : setup.makefile.Completed r) : Sound setup r.files := by
  have hprogress := progress_of_runs hdistinct hapart htree hrun
  have hhashing := Hashing.run hdistinct hapart hrun
  refine ⟨hprogress.past, fun file time htime => ?_,
    hprogress.consistent (ownFiles hdistinct hapart) hdone, fun p hp limit hlimit hinputs => ?_⟩
  · rw [hhashing.edited] at htime
    exact Nat.lt_of_lt_of_le (htree.edited file time htime) hhashing.clock
  · rw [digest_congr hhashing.contents hhashing.edited]
    by_cases hsame : setup.hashed tree p = some (setup.digest tree p)
    · exact (hhashing.kept p hp (Or.inl hsame)).hashed.trans hsame
    · -- either the recipe has written the digest, or the file is as old as it was
      by_cases hran : r.status (.hash p) = .ran
      · simp only [Setup.hashed, hlimit, Option.map_some, (hhashing.written p hp hsame hran).2]
      · have hkept := hhashing.kept p hp (Or.inr hran)
        refine absurd (htree.hashed p hp limit (hkept.1.symm.trans hlimit) ?_) hsame
        rw [inputs_congr hhashing.contents hhashing.edited, hhashing.edited] at hinputs
        exact hinputs

end Run

/-- The invariant holds after any history. -/
theorem History.sound (hdistinct : setup.DistinctPaths) (hapart : setup.PathsApart)
    {tree : Tree Data Digest} (h : History setup tree) : Sound setup tree := by
  induction h with
  | clean tree hbuilt hedited => exact Sound.clean hbuilt hedited
  | edit file data _ ih => exact ih.edit file data
  | build _ hrun hdone ih => exact ih.build hdistinct hapart hrun hdone

end History

/-! ## The builds of a history -/

section Build

variable [DecidableEq Digest]

/-- What may make a build execute the recipe of `build/P/.install`: the stamp is
missing, the digest of the inputs is not the one recorded, or the recipe of a
dependency that is not stable is executed in the same build. -/
def Rebuilds (setup : Setup Data Digest) (tree : Tree Data Digest)
    (r : Run Target (Tree Data Digest)) (p : PkgId) : Prop :=
  tree.built (setup.file (.install p)) = none ∨
  setup.hashed tree p ≠ some (setup.digest tree p) ∨
  ∃ d ∈ normalDeps setup.packages (setup.packages.node p), r.status (.install d) = .ran

theorem install_ran_iff (hdistinct : setup.DistinctPaths) (hapart : setup.PathsApart)
    {tree : Tree Data Digest} (htree : Sound setup tree) {r : Run Target (Tree Data Digest)}
    (hrun : setup.makefile.Runs tree r) {p : PkgId} (hp : p ∈ setup.emittedIds)
    (hdone : setup.makefile.Completed r) :
    r.status (.install p) = .ran ↔ setup.Rebuilds tree r p := by
  have hown := ownFiles hdistinct hapart
  have hprogress := progress_of_runs hdistinct hapart htree hrun
  have hmem := (install_mem_targets setup).mpr (mem_needed hp)
  have hhash := hash_changes_iff hdistinct hapart htree hrun hp
    (hdone _ ((hash_mem_targets setup).mpr hp))
  -- a stamp of another package is newer exactly when its recipe was executed
  have hdep : ∀ d ∈ normalDeps setup.packages (setup.packages.node p),
      r.status (.install d) = .ran ↔
        r.files.built (setup.file (.install d)) ≠ tree.built (setup.file (.install d)) := by
    intro d hd
    have hd' : Target.install d ∈ setup.makefile.targets := makefile_closed
      (List.mem_append_left _ ((mem_normal_install setup hp).mpr (Or.inr ⟨d, hd, rfl⟩)))
    exact hprogress.ran_iff_changed htree.past hd' id (hdone _ hd')
  rw [hprogress.ran_iff hown htree.consistent htree.past hmem (hdone _ hmem), Rebuilds, ← hhash]
  constructor
  · intro hcause
    cases hstamp : tree.built (setup.file (.install p)) with
    | none => exact Or.inl rfl
    | some limit =>
        rcases hcause limit hstamp with ⟨time, htime, _⟩ | ⟨u, hu, hchanged⟩
        · exact absurd htime List.not_mem_nil
        · rcases (mem_normal_install setup hp).mp hu with rfl | ⟨d, hd, rfl⟩
          · exact Or.inr (Or.inl hchanged)
          · exact Or.inr (Or.inr ⟨d, hd, (hdep d hd).mpr hchanged⟩)
  · intro hcause limit hlimit
    rcases hcause with hnone | hchanged | ⟨d, hd, hran⟩
    · rw [makefile_mtime, hnone] at hlimit
      cases hlimit
    · exact Or.inr ⟨.hash p, (mem_normal_install setup hp).mpr (Or.inl rfl), hchanged⟩
    · refine Or.inr ⟨.install d, (mem_normal_install setup hp).mpr (Or.inr ⟨d, hd, rfl⟩), ?_⟩
      exact (hdep d hd).mp hran

/-- Without a cycle of dependencies the targets can be ranked. -/
theorem exists_rank (hacyclic : AcyclicOn (fun p => (setup.packages.node p).deps) setup.needed) :
    ∃ rank : Target → ℕ, ∀ t ∈ setup.makefile.targets,
      ∀ u ∈ setup.makefile.normal t ++ setup.makefile.orderOnly t, rank u < rank t := by
  -- only the packages with a rule have prerequisites
  let succ : PkgId → List PkgId := fun p =>
    if p ∈ setup.emittedIds then (setup.packages.node p).deps else []
  have hclosed : ∀ p ∈ setup.needed, ∀ d ∈ succ p, d ∈ setup.needed := by
    intro p _ d hd
    by_cases hp : p ∈ setup.emittedIds
    · simp only [succ, if_pos hp] at hd
      exact List.mem_append_right _ (List.mem_flatMap.mpr ⟨p, hp, hd⟩)
    · simp [succ, if_neg hp] at hd
  have hedge : ∀ a b, Edge succ a b →
      TransGen (Edge fun p => (setup.packages.node p).deps) a b := by
    intro a b hab
    by_cases ha : a ∈ setup.emittedIds
    · simp only [Edge, succ, if_pos ha] at hab
      exact TransGen.single hab
    · simp [Edge, succ, if_neg ha] at hab
  rcases exists_rank_of_acyclic hclosed (hacyclic.of_edge hedge) with ⟨n, rank, hrank⟩
  -- the hash files come before all packages, and the rule for all of them after
  refine ⟨fun
    | .all => n + 2
    | .install p => rank p + 1
    | .hash _ => 0, fun t ht u hu => ?_⟩
  cases t with
  | all =>
      have hu' : u ∈ setup.emittedIds.map Target.install := by simpa [makefile] using hu
      rcases List.mem_map.mp hu' with ⟨q, hq, rfl⟩
      have hle := (hrank q (mem_needed hq)).1
      show rank q + 1 < n + 2
      omega
  | hash p => simp [makefile] at hu
  | install p =>
      by_cases hp : p ∈ setup.emittedIds
      · rcases (mem_prereqs_install setup hp).mp hu with rfl | ⟨d, hd, rfl⟩
        · exact Nat.succ_pos _
        · have hlt := (hrank p (mem_needed hp)).2 d (by simpa [succ, hp] using hd)
          show rank d + 1 < rank p + 1
          omega
      · simp [makefile, hp] at hu

/-- After any history, with no package below another: a build can be completed
if the inputs exist. When the recipe of a package starts, those of its
dependencies are through with, and it is executed exactly when the stamp is
missing, the digest is not the recorded one, or the recipe of a dependency that
is not stable is executed. -/
theorem build_executes_iff (setup : Setup Data Digest) (hdistinct : setup.DistinctPaths)
    (hapart : setup.PathsApart)
    (hacyclic : AcyclicOn (fun p => (setup.packages.node p).deps) setup.needed)
    (tree : Tree Data Digest) (htree : History setup tree) :
    ((∀ p ∈ setup.emittedIds, ∀ file ∈ setup.inputs tree p, (tree.edited file).isSome) →
      ∃ r, setup.makefile.Runs tree r ∧ setup.makefile.Completed r) ∧
    ∀ r, setup.makefile.Runs tree r → ∀ p ∈ setup.emittedIds,
      ((r.status (.install p)).Started → ∀ d ∈ (setup.packages.node p).deps,
        (r.status (.install d)).Settled ∧
        ∀ r', ReflTransGen setup.makefile.Step r r' →
          r'.status (.install d) = r.status (.install d)) ∧
      (setup.makefile.Completed r →
        (r.status (.install p) = .ran ↔ setup.Rebuilds tree r p)) := by
  have hown := ownFiles hdistinct hapart
  have hsound := htree.sound hdistinct hapart
  refine ⟨fun hinputs => ?_, fun r hrun p hp => ⟨fun hstarted d hd => ?_, fun hdone => ?_⟩⟩
  · rcases exists_rank hacyclic with ⟨rank, hrank⟩
    refine Makefile.exists_completed hown hrank fun t ht time htime => ?_
    cases t with
    | hash p =>
        rcases List.mem_map.mp htime with ⟨file, hfile, rfl⟩
        exact hinputs p ((hash_mem_targets setup).mp ht) file hfile
    | all => cases htime
    | install p => cases htime
  -- what is settled stays so, whatever make does next
  · have hprogress := progress_of_runs hdistinct hapart hsound hrun
    have hready := (hprogress.outcome _ ((install_mem_targets setup).mpr (mem_needed hp))).ready
      hstarted
    have hu := (mem_prereqs_install setup hp).mpr (Or.inr ⟨d, hd, rfl⟩)
    refine ⟨hready.1 _ hu, fun r' hsteps => ?_⟩
    exact (Makefile.extends_of_steps hown hsteps).status _ (makefile_closed hu) (hready.1 _ hu)
  · exact install_ran_iff hdistinct hapart hsound hrun hp hdone

/-! ## Two builds that show the difference -/

/-- A package that depends on another one, and the source files of both. -/
def twoPackages : Setup ℕ (List (Text × ℕ)) where
  packages := Packages.ofTable [tablePackage false 'a' [1], tablePackage false 'b' []]
  depends _ _ := []
  sha1sum := id

/-- Two packages of which the second lies below the first. -/
def nestedPaths : Setup ℕ (List (Text × ℕ)) where
  packages := Packages.ofTable
    [tablePackage false 'a' [], { tablePackage false 'b' [] with path := ['a', '/', 'b'] }]
  depends _ _ := []
  sha1sum := id

/-- Nothing is built, and every file of the source tree is there. -/
def freshTree : Tree ℕ (List (Text × ℕ)) where
  clock := 1
  contents _ := 0
  edited file := if (text "/Makefile").isSuffixOf file then some 0 else none
  built _ := none
  recorded _ := []

theorem freshTree_history (setup : Setup ℕ (List (Text × ℕ))) : History setup freshTree := by
  refine History.clean freshTree (fun _ => rfl) fun file time htime => ?_
  simp only [freshTree, Option.ite_none_right_eq_some, Option.some.injEq] at htime
  exact htime.2 ▸ Nat.one_pos

/-- Everything is built. -/
def builtPackages : Run Target (Tree ℕ (List (Text × ℕ))) :=
  (twoPackages.makefile.follow [.hash 1, .hash 1, .hash 0, .hash 0, .install 1, .install 1,
    .install 0, .install 0, .all, .all] (Run.begin Target freshTree)).getD
    (Run.begin Target freshTree)

/-- After that, the first package is edited, and everything is built again. -/
def changedTree : Tree ℕ (List (Text × ℕ)) := builtPackages.files.edit (text "a/Makefile") 1

def rebuiltPackages : Run Target (Tree ℕ (List (Text × ℕ))) :=
  (twoPackages.makefile.follow [.hash 0, .hash 0, .hash 1, .install 1, .install 0, .install 0,
    .all, .all] (Run.begin Target changedTree)).getD (Run.begin Target changedTree)

/-- Only the first package is built again: the digest of the other one is the one recorded. -/
theorem build_executes_iff_twoPackages :
    twoPackages.makefile.Runs changedTree rebuiltPackages ∧
      rebuiltPackages.status (.install 0) = .ran ∧
      twoPackages.Rebuilds changedTree rebuiltPackages 0 ∧
      rebuiltPackages.status (.install 1) = .kept ∧
      ¬ twoPackages.Rebuilds changedTree rebuiltPackages 1 := by
  have hbounded : ∀ p ∈ twoPackages.needed,
      Bounded (fun p => (twoPackages.packages.node p).deps) 2 p := by decide
  have hfirst : twoPackages.makefile.Runs freshTree builtPackages :=
    Makefile.steps_of_follow_getD (by decide +kernel)
  have hchanged : History twoPackages changedTree :=
    .edit _ _ ((freshTree_history twoPackages).build hfirst (by decide +kernel))
  have hsecond : twoPackages.makefile.Runs changedTree rebuiltPackages :=
    Makefile.steps_of_follow_getD (by decide +kernel)
  have hdone : twoPackages.makefile.Completed rebuiltPackages := by decide +kernel
  have hran : rebuiltPackages.status (.install 0) = .ran := by decide +kernel
  have hkept : rebuiltPackages.status (.install 1) = .kept := by decide +kernel
  have hiff := fun p hp => ((build_executes_iff twoPackages (by unfold DistinctPaths; decide)
    (by unfold PathsApart; decide) (fun p hp => (hbounded p hp).not_cycle) changedTree
    hchanged).2 rebuiltPackages hsecond p hp).2 hdone
  refine ⟨hsecond, hran, (hiff 0 (by decide)).mp hran, hkept, ?_⟩
  rw [← hiff 1 (by decide), hkept]
  decide

/-- The first build takes the packages in their order. -/
def firstBuild : Run Target (Tree ℕ (List (Text × ℕ))) :=
  (nestedPaths.makefile.follow [.hash 0, .hash 0, .install 0, .install 0,
    .hash 1, .hash 1, .install 1, .install 1, .all, .all] (Run.begin Target freshTree)).getD
    (Run.begin Target freshTree)

/-- After the first build, the first package is edited. -/
def editedTree : Tree ℕ (List (Text × ℕ)) := firstBuild.files.edit (text "a/Makefile") 1

def secondBuild : Run Target (Tree ℕ (List (Text × ℕ))) :=
  (nestedPaths.makefile.follow [.hash 0, .hash 0, .hash 1, .install 0, .install 0,
    .install 1, .install 1, .all, .all] (Run.begin Target editedTree)).getD
    (Run.begin Target editedTree)

/-- The recipe of the first package removes the stamp of the second one, which
is built again although nothing calls for it. -/
theorem nestedPaths_rebuilt :
    ¬ ∀ (setup : Setup ℕ (List (Text × ℕ))), Function.Injective setup.sha1sum →
      setup.DistinctPaths → AcyclicOn (fun p => (setup.packages.node p).deps) setup.needed →
      ∀ tree, History setup tree → ∀ r, setup.makefile.Runs tree r →
        setup.makefile.Completed r → ∀ p ∈ setup.emittedIds,
          (r.status (.install p) = .ran ↔ setup.Rebuilds tree r p) := by
  intro h
  have hbounded : ∀ p ∈ nestedPaths.needed,
      Bounded (fun p => (nestedPaths.packages.node p).deps) 1 p := by decide
  have hacyclic := fun p hp => (hbounded p hp).not_cycle
  have hfirst : nestedPaths.makefile.Runs freshTree firstBuild :=
    Makefile.steps_of_follow_getD (by decide +kernel)
  have hedited : History nestedPaths editedTree :=
    .edit _ _ ((freshTree_history nestedPaths).build hfirst (by decide +kernel))
  have hsecond : nestedPaths.makefile.Runs editedTree secondBuild :=
    Makefile.steps_of_follow_getD (by decide +kernel)
  have hran : secondBuild.status (.install 1) = .ran := by decide +kernel
  have hstamp : (editedTree.built (nestedPaths.file (.install 1))).isSome := by decide +kernel
  have hdigest : nestedPaths.hashed editedTree 1 = some (nestedPaths.digest editedTree 1) := by
    decide +kernel
  have hcause := (h nestedPaths Function.injective_id (by unfold DistinctPaths; decide) hacyclic _
    hedited _ hsecond (by decide +kernel) 1 (by decide)).mp hran
  rcases hcause with hnone | hdiffers | ⟨d, hd, _⟩
  · simp [hnone] at hstamp
  · exact hdiffers hdigest
  · have hnodeps : normalDeps nestedPaths.packages (nestedPaths.packages.node 1) = [] := by rfl
    simp [hnodeps] at hd

end Build

end Setup

end Pbs.Build
