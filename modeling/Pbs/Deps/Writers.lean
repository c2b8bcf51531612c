import Pbs.Lib.StableSort
import Pbs.Deps.ResolveDeps
import Pbs.Deps.BuildDeps

/-!
# The files that `deps.c` writes

`write_depends` prints the rules of `depends.mk`; `write_compat` sorts the
packages and prints `depends-dirs.mk`. The last section puts the functions
together as `main` calls them.
-/

namespace Pbs.Deps

open Kconfig StableSort Walks

/-! ## `depends.mk` -/

/-- The dependencies printed as normal prerequisites. -/
def normalDeps (ps : Packages) (package : Package) : List PkgId :=
  package.deps.filter fun dep => !(ps.node dep).stable

/-- The dependencies printed after the bar. -/
def stableDeps (ps : Packages) (package : Package) : List PkgId :=
  package.deps.filter fun dep => (ps.node dep).stable

/-- The packages that the passes of `write_depends` do not skip. -/
def emittedPackages (ps : Packages) : List Package :=
  (ps.list.map ps.node).filter emitted

/-- `" \\\n\tbuild/%s/.install"`. -/
def writePrereq (path : Text) : Text :=
  text " \\\n\tbuild/" ++ path ++ text "/.install"

/-- The rule of one package. -/
def writeRule (ps : Packages) (package : Package) : Text :=
  let haveStable := package.deps.any fun dep => (ps.node dep).stable
  text "build/" ++ package.path ++ text "/.install: \\\n" ++
    text "\tbuild/" ++ package.path ++ text ".hash" ++
    (normalDeps ps package).flatMap (fun dep => writePrereq (ps.node dep).path) ++
    (if haveStable then
      text " |" ++ (stableDeps ps package).flatMap fun dep => writePrereq (ps.node dep).path
    else []) ++
    text "\n\n"

/-- The line that ties the hash of a package to its `depends.mk`. -/
def writeHashLine (package : Package) : Text :=
  text "build/" ++ package.path ++ text ".hash: $(wildcard $(srctree)/" ++ package.path ++
    text "/depends.mk)\n"

/-- The lines that include the `depends.mk` of a package. -/
def writeInclude (package : Package) : Text :=
  text "\n" ++
    text "dep-hash-file := build/" ++ package.path ++ text ".hash\n" ++
    text "dep-obj := " ++ package.path ++ text "\n" ++
    text "-include " ++ package.path ++ text "/depends.mk\n"

/-- `write_depends`: the contents of the file. -/
def writeDepends (ps : Packages) : Text :=
  (emittedPackages ps).flatMap (writeRule ps) ++
    text "build/.install:" ++
    (emittedPackages ps).flatMap (fun package => writePrereq package.path) ++
    text "\n\n" ++
    text "build/%.hash: %/Makefile\n" ++
    text "\t$(call cmd,hash_file)\n" ++
    text "\n" ++
    (emittedPackages ps).flatMap writeHashLine ++
    (emittedPackages ps).flatMap writeInclude

/-! ## `depends-dirs.mk` -/

/-- `list_sort`. -/
def listSort (ps : Packages) : Packages :=
  { ps with list := sortDesc (fun p => (ps.node p).numdeps) ps.list }

/-- The packages of the first pass over `depends-dirs`. -/
def ordinaryPackages (ps : Packages) : List PkgId :=
  ps.list.filter fun p => !((ps.node p).virtual || (ps.node p).platform)

/-- The packages of `depends-platforms`, and of the second pass over
`depends-dirs`. -/
def dependsPlatforms (ps : Packages) : List PkgId :=
  ps.list.filter fun p => (ps.node p).platform && !platformHasChild (ps.node p)

/-- The packages of `depends-dirs`, in the order in which they are printed. -/
def dependsDirs (ps : Packages) : List PkgId :=
  ordinaryPackages ps ++ dependsPlatforms ps

/-- `master`: the last platform printed. -/
def masterPlatform (ps : Packages) : Option PkgId :=
  (dependsPlatforms ps).getLast?

/-- `write_compat`: the contents of the file. -/
def writeCompat (ps : Packages) : Text :=
  let ps := listSort ps
  text "depends-dirs =" ++
    (dependsDirs ps).flatMap (fun p => text " \\\n\t" ++ (ps.node p).path) ++
    text "\n\ndepends-platforms =" ++
    (dependsPlatforms ps).flatMap (fun p => text " \\\n\t" ++ (ps.node p).path) ++
    match masterPlatform ps with
    | some master => text "\n\nmaster-platform = " ++ (ps.node master).path ++ text "\n"
    | none => []

/-! ## `main` -/

/-- The list of packages that `main` hands to the writers. -/
def processPackages (width fuel : ℕ) (cf : Conf) : Option Packages := do
  let (packages, stable) := createPackageList cf
  let packages ← buildDeps cf stable packages
  resolveDeps width fuel packages

/-- The packages of the menu, with the dependencies that the selects call for
and the flags that the names call for. -/
def selectGraph (cf : Conf) : Packages :=
  let packages := (createPackageList cf).1
  { packages with
    node := fun p =>
      { packages.node p with
        deps := needs cf packages p
        stable := packages.list.contains p &&
          (createPackageList cf).2.any fun s => packageDepends cf (packages.node p) s
        parent := packages.list.contains p &&
          symbolIsParent cf packages (packages.node p).symbol } }

/-- `build_deps` computes the graph of the selects. -/
theorem buildDeps_eq_selectGraph {cf : Conf} {ps : Packages}
    (h : buildDeps cf (createPackageList cf).2 (createPackageList cf).1 = some ps) :
    ps = selectGraph cf := by
  have hc := createPackageList_created cf
  have hg := buildDeps_grown h
  have hflags : ∀ p, ((createPackageList cf).1.node p).stable = false ∧
      ((createPackageList cf).1.node p).parent = false := by
    intro p
    by_cases hp : p ∈ (createPackageList cf).1.list
    · rw [hc.node p hp]
      exact ⟨rfl, rfl⟩
    · rw [hc.unlisted p hp]
      exact ⟨rfl, rfl⟩
  refine Packages.ext (funext fun p => ?_) hg.list
  have hdeps := hg.deps p
  have hstable := hg.stable p
  have hparent := hg.parent p
  rw [hc.deps p, List.nil_append] at hdeps
  rw [(hflags p).1, Bool.false_or] at hstable
  rw [(hflags p).2, Bool.false_or] at hparent
  exact Package.ext (hg.symbol p) hdeps (hg.numdeps p) (hg.virtual p) (hg.platform p) hstable
    hparent (hg.path p)

theorem selectGraph_closed (cf : Conf) (p : PkgId) :
    ∀ q ∈ ((selectGraph cf).node p).deps, q ∈ (selectGraph cf).list := by
  intro q hq
  rcases List.mem_flatMap.mp hq with ⟨q', hq', hmem⟩
  rw [List.eq_of_mem_replicate hmem]
  exact hq'

/-- The list that `main` hands to the writers is the resolved graph of the
selects. -/
theorem processPackages_spec {width fuel : ℕ} {cf : Conf} {ps : Packages}
    (h : processPackages width fuel cf = some ps) :
    ResolvedDeps width fuel (selectGraph cf) ps := by
  rcases Option.bind_eq_some_iff.mp h with ⟨ps₁, hbuild, hresolve⟩
  rw [buildDeps_eq_selectGraph hbuild] at hresolve
  exact resolveDeps_spec (createPackageList_created cf).nodup hresolve

/-- With a `STABLE_ABI` entry and without a cycle of selects, `main` gets as
far as the writers. -/
theorem processPackages_of_acyclic (width : ℕ) {cf : Conf}
    (hstable : (createPackageList cf).2.isSome)
    (hacyclic : AcyclicOn (fun p => ((selectGraph cf).node p).deps) (selectGraph cf).list) :
    ∃ n, ∀ fuel, n ≤ fuel → (processPackages width fuel cf).isSome := by
  rcases resolveDeps_of_acyclic width (fun p _ => selectGraph_closed cf p)
    (acyclicOn_resolvedDeps hacyclic) with ⟨n, hn⟩
  refine ⟨n, fun fuel hle => ?_⟩
  have hbuild := (buildDeps_isSome_iff cf (createPackageList cf).2 (createPackageList cf).1).mpr
    (Or.inl hstable)
  rcases Option.isSome_iff_exists.mp hbuild with ⟨ps, hps⟩
  have hresolve := hn fuel hle
  rw [← buildDeps_eq_selectGraph hps] at hresolve
  simpa [processPackages, hps] using hresolve

end Pbs.Deps
