import Mathlib.Data.List.Count
import Pbs.Deps.Package

/-!
# Collecting dependencies from reverse dependencies

`build_deps` walks the packages. For each package `Q` it collects the packages
named by the leaves of `Q`'s `rev_dep` expression and appends `Q` to the
dependencies of each of them. `activeLeaves` says which leaves count, and
`dependents` which packages they name; `buildDeps_deps` is the resulting list
of dependencies of every package.
-/

namespace Pbs.Deps

open Kconfig

/-! ## The functions of `deps.c` -/

/-- `build_package_deps_expr`: the value of the expression, and the list `deps`
with the packages found appended. The candidates below a node are collected in
a list of their own, which is spliced or dropped by the value of the node. -/
def buildPackageDepsExpr (cf : Conf) (ps : Packages) :
    Expr → List PkgId → Tristate × List PkgId
  | .and left right, deps =>
      let (leftVal, newDeps) := buildPackageDepsExpr cf ps left []
      let (rightVal, newDeps) := buildPackageDepsExpr cf ps right newDeps
      let val := exprAnd leftVal rightVal
      (val, if val ≠ .no then deps ++ newDeps else deps)
  | .or left right, deps =>
      let (leftVal, newDeps) := buildPackageDepsExpr cf ps left []
      let newDeps := if leftVal = .no then [] else newDeps
      let (rightVal, newDeps) := buildPackageDepsExpr cf ps right newDeps
      let val := exprOr leftVal rightVal
      (val, if val ≠ .no then deps ++ newDeps else deps)
  | .not left, deps =>
      let (val, newDeps) := buildPackageDepsExpr cf ps left []
      let val := exprNot val
      (val, if val ≠ .no then deps ++ newDeps else deps)
  | .symbol s, deps =>
      let val := (cf.curr s).tri
      if val ≠ .no then
        match findPackage ps s with
        | some dep => (val, deps ++ [dep])
        | none => (val, deps)
      else (val, deps)
  -- "WARNING: Unhandled expression type"
  | .equal _ _, deps => (.no, deps)
  | .unequal _ _, deps => (.no, deps)

/-- `build_package_deps`: every package found gets `package` as its last
dependency. -/
def buildPackageDeps (cf : Conf) (ps : Packages) (package : PkgId) : Packages :=
  match (cf.sym (ps.node package).symbol).revDep with
  | none => ps
  | some e =>
      (buildPackageDepsExpr cf ps e []).2.foldl
        (fun ps pkg => ps.modify pkg fun node => { node with deps := node.deps ++ [package] }) ps

/-- `package_depends`. -/
def packageDepends (cf : Conf) (package : Package) (symbol : SymId) : Bool :=
  findSymbol package.symbol (cf.sym symbol).revDep

/-- The body of the loop in `build_deps`, for a tree that has a `STABLE_ABI`
entry. -/
def buildDepsStep (cf : Conf) (stable : SymId) (ps : Packages) (p : PkgId) : Packages :=
  let ps :=
    if packageDepends cf (ps.node p) stable then
      ps.modify p fun node => { node with stable := true }
    else ps
  let ps := buildPackageDeps cf ps p
  if symbolIsParent cf ps (ps.node p).symbol then
    ps.modify p fun node => { node with parent := true }
  else ps

/-- `build_deps`. Without a `STABLE_ABI` entry `stable` is a null pointer, which
`package_depends` reads as soon as there is a package. -/
def buildDeps (cf : Conf) (stable : Option SymId) (ps : Packages) : Option Packages :=
  match stable with
  | some stable => some (ps.list.foldl (buildDepsStep cf stable) ps)
  | none => if ps.list.isEmpty then some ps else none

/-! ## Which leaves count -/

/-- The value `build_package_deps_expr` gives to an expression. -/
def depsExprValue (cf : Conf) : Expr → Tristate
  | .and left right => exprAnd (depsExprValue cf left) (depsExprValue cf right)
  | .or left right => exprOr (depsExprValue cf left) (depsExprValue cf right)
  | .not left => exprNot (depsExprValue cf left)
  | .symbol s => (cf.curr s).tri
  | .equal _ _ => .no
  | .unequal _ _ => .no

/-- The symbols at the active leaves, from left to right: the leaf and every
node above it have a value other than no. -/
def activeLeaves (cf : Conf) (e : Expr) : List SymId :=
  if depsExprValue cf e = .no then []
  else match e with
    | .and left right => activeLeaves cf left ++ activeLeaves cf right
    | .or left right => activeLeaves cf left ++ activeLeaves cf right
    | .not left => activeLeaves cf left
    | .symbol s => [s]
    | .equal _ _ => []
    | .unequal _ _ => []

theorem activeLeaves_eq_nil {cf : Conf} {e : Expr} (h : depsExprValue cf e = .no) :
    activeLeaves cf e = [] := by
  unfold activeLeaves
  exact if_pos h

/-- The packages that an active leaf of a package's `rev_dep` names. -/
def dependents (cf : Conf) (ps : Packages) (q : PkgId) : List PkgId :=
  match (cf.sym (ps.node q).symbol).revDep with
  | none => []
  | some e => (activeLeaves cf e).filterMap (findPackage ps)

/-- The dependencies a package is meant to get: over the listed packages in
list order, one entry for each leaf that names it. -/
def needs (cf : Conf) (ps : Packages) (p : PkgId) : List PkgId :=
  ps.list.flatMap fun q => List.replicate ((dependents cf ps q).count p) q

/-! ## One expression -/

theorem buildPackageDepsExpr_value (cf : Conf) (ps : Packages) (e : Expr) (deps : List PkgId) :
    (buildPackageDepsExpr cf ps e deps).1 = depsExprValue cf e := by
  induction e generalizing deps with
  | symbol s =>
      simp only [buildPackageDepsExpr, depsExprValue]
      split
      · split <;> rfl
      · rfl
  | not left ih => simp only [buildPackageDepsExpr, depsExprValue, ih]
  | and left right ihl ihr => simp only [buildPackageDepsExpr, depsExprValue, ihl, ihr]
  | or left right ihl ihr => simp only [buildPackageDepsExpr, depsExprValue, ihl, ihr]
  | equal l r => rfl
  | unequal l r => rfl

/-- The recursion appends exactly the packages of the active leaves. -/
theorem buildPackageDepsExpr_eq (cf : Conf) (ps : Packages) (e : Expr) (deps : List PkgId) :
    buildPackageDepsExpr cf ps e deps =
      (depsExprValue cf e, deps ++ (activeLeaves cf e).filterMap (findPackage ps)) := by
  refine Prod.ext (buildPackageDepsExpr_value cf ps e deps) ?_
  induction e generalizing deps with
  | symbol s =>
      by_cases hno : (cf.curr s).tri = .no
      · simp [buildPackageDepsExpr, activeLeaves, depsExprValue, hno]
      · cases hfind : findPackage ps s <;>
          simp [buildPackageDepsExpr, activeLeaves, depsExprValue, hno, hfind]
  | not left ih =>
      by_cases hno : depsExprValue cf (.not left) = .no
      · -- what was collected below is dropped again
        rw [activeLeaves_eq_nil hno]
        rw [depsExprValue] at hno
        simp [buildPackageDepsExpr, buildPackageDepsExpr_value, hno]
      · rw [activeLeaves, if_neg hno]
        rw [depsExprValue] at hno
        simp [buildPackageDepsExpr, buildPackageDepsExpr_value, hno, ih]
  | and left right ihl ihr =>
      by_cases hno : depsExprValue cf (.and left right) = .no
      · rw [activeLeaves_eq_nil hno]
        rw [depsExprValue] at hno
        simp [buildPackageDepsExpr, buildPackageDepsExpr_value, hno]
      · rw [activeLeaves, if_neg hno]
        rw [depsExprValue] at hno
        simp [buildPackageDepsExpr, buildPackageDepsExpr_value, hno, ihl, ihr]
  | or left right ihl ihr =>
      by_cases hno : depsExprValue cf (.or left right) = .no
      · rw [activeLeaves_eq_nil hno]
        rw [depsExprValue] at hno
        simp [buildPackageDepsExpr, buildPackageDepsExpr_value, hno]
      · rw [activeLeaves, if_neg hno]
        rw [depsExprValue] at hno
        by_cases hleft : depsExprValue cf left = .no
        · -- nothing was collected on the left, so nothing is lost
          rw [hleft] at hno
          simp [buildPackageDepsExpr, buildPackageDepsExpr_value, hno, ihr, hleft,
            activeLeaves_eq_nil hleft]
        · simp [buildPackageDepsExpr, buildPackageDepsExpr_value, hno, ihl, ihr, hleft]
  | equal l r => simp [buildPackageDepsExpr, activeLeaves, depsExprValue]
  | unequal l r => simp [buildPackageDepsExpr, activeLeaves, depsExprValue]

/-! ## One package -/

/-- What a step keeps of every package: all but the dependencies and the flags
that `build_deps` sets. -/
structure SameShape (ps ps' : Packages) : Prop where
  list : ps'.list = ps.list
  symbol : ∀ p, (ps'.node p).symbol = (ps.node p).symbol
  path : ∀ p, (ps'.node p).path = (ps.node p).path
  numdeps : ∀ p, (ps'.node p).numdeps = (ps.node p).numdeps
  virtual : ∀ p, (ps'.node p).virtual = (ps.node p).virtual
  platform : ∀ p, (ps'.node p).platform = (ps.node p).platform

theorem SameShape.refl (ps : Packages) : SameShape ps ps :=
  ⟨rfl, fun _ => rfl, fun _ => rfl, fun _ => rfl, fun _ => rfl, fun _ => rfl⟩

theorem SameShape.trans {ps ps' ps'' : Packages} (h : SameShape ps ps')
    (h' : SameShape ps' ps'') : SameShape ps ps'' where
  list := h'.list.trans h.list
  symbol p := (h'.symbol p).trans (h.symbol p)
  path p := (h'.path p).trans (h.path p)
  numdeps p := (h'.numdeps p).trans (h.numdeps p)
  virtual p := (h'.virtual p).trans (h.virtual p)
  platform p := (h'.platform p).trans (h.platform p)

theorem SameShape.findPackage {ps ps' : Packages} (h : SameShape ps ps') (s : SymId) :
    findPackage ps' s = findPackage ps s := by
  simp only [Deps.findPackage, h.list, h.symbol]

theorem SameShape.dependents {ps ps' : Packages} (h : SameShape ps ps') (cf : Conf) (q : PkgId) :
    dependents cf ps' q = dependents cf ps q := by
  have hfind : Deps.findPackage ps' = Deps.findPackage ps := funext h.findPackage
  simp only [Deps.dependents, h.symbol, hfind]

theorem SameShape.packageDepends {ps ps' : Packages} (h : SameShape ps ps') (cf : Conf)
    (p : PkgId) (s : SymId) :
    packageDepends cf (ps'.node p) s = packageDepends cf (ps.node p) s := by
  simp only [Deps.packageDepends, h.symbol]

theorem SameShape.symbolIsParent {ps ps' : Packages} (h : SameShape ps ps') (cf : Conf)
    (s : SymId) : symbolIsParent cf ps' s = symbolIsParent cf ps s := by
  simp only [Deps.symbolIsParent, h.list, h.symbol]

/-- What a part of `build_deps` does: it appends dependencies and sets flags. -/
structure Grown (ps ps' : Packages) (added : PkgId → List PkgId) (stable parent : PkgId → Bool) :
    Prop extends SameShape ps ps' where
  deps : ∀ p, (ps'.node p).deps = (ps.node p).deps ++ added p
  stable : ∀ p, (ps'.node p).stable = ((ps.node p).stable || stable p)
  parent : ∀ p, (ps'.node p).parent = ((ps.node p).parent || parent p)

theorem Grown.refl (ps : Packages) :
    Grown ps ps (fun _ => []) (fun _ => false) fun _ => false where
  toSameShape := SameShape.refl ps
  deps _ := (List.append_nil _).symm
  stable _ := (Bool.or_false _).symm
  parent _ := (Bool.or_false _).symm

theorem Grown.trans {ps ps' ps'' : Packages} {added added' : PkgId → List PkgId}
    {stable stable' parent parent' : PkgId → Bool} (h : Grown ps ps' added stable parent)
    (h' : Grown ps' ps'' added' stable' parent') :
    Grown ps ps'' (fun p => added p ++ added' p) (fun p => stable p || stable' p)
      fun p => parent p || parent' p where
  toSameShape := h.toSameShape.trans h'.toSameShape
  deps p := by rw [h'.deps, h.deps, List.append_assoc]
  stable p := by rw [h'.stable, h.stable, Bool.or_assoc]
  parent p := by rw [h'.parent, h.parent, Bool.or_assoc]

/-- The three changes of a single package. -/
theorem Grown.modify (ps : Packages) (q : PkgId) (added : List PkgId) (stable parent : Bool) :
    Grown ps
      (ps.modify q fun node =>
        { node with
          deps := node.deps ++ added
          stable := node.stable || stable
          parent := node.parent || parent })
      (fun p => if p = q then added else []) (fun p => p == q && stable)
      fun p => p == q && parent where
  list := rfl
  symbol p := Packages.modify_field Package.symbol ps q p _ rfl
  path p := Packages.modify_field Package.path ps q p _ rfl
  numdeps p := Packages.modify_field Package.numdeps ps q p _ rfl
  virtual p := Packages.modify_field Package.virtual ps q p _ rfl
  platform p := Packages.modify_field Package.platform ps q p _ rfl
  deps p := by
    by_cases hp : p = q
    · subst hp
      simp
    · simp [Packages.modify_node_ne ps _ hp, hp]
  stable p := by
    by_cases hp : p = q
    · subst hp
      simp
    · simp [Packages.modify_node_ne ps _ hp, hp]
  parent p := by
    by_cases hp : p = q
    · subst hp
      simp
    · simp [Packages.modify_node_ne ps _ hp, hp]

theorem Grown.setStable (ps : Packages) (q : PkgId) (b : Bool) :
    Grown ps (if b then ps.modify q fun node => { node with stable := true } else ps)
      (fun _ => []) (fun p => p == q && b) fun _ => false := by
  cases b with
  | false => simpa using Grown.refl ps
  | true => simpa using Grown.modify ps q [] true false

theorem Grown.setParent (ps : Packages) (q : PkgId) (b : Bool) :
    Grown ps (if b then ps.modify q fun node => { node with parent := true } else ps)
      (fun _ => []) (fun _ => false) fun p => p == q && b := by
  cases b with
  | false => simpa using Grown.refl ps
  | true => simpa using Grown.modify ps q [] false true

/-- Moving the collected nodes: each occurrence of a package in the collected
list appends one entry to its dependencies. -/
theorem foldl_addDep (package : PkgId) (found : List PkgId) (ps : Packages) :
    Grown ps
      (found.foldl (fun ps pkg =>
        ps.modify pkg fun node => { node with deps := node.deps ++ [package] }) ps)
      (fun p => List.replicate (found.count p) package) (fun _ => false) fun _ => false := by
  induction found generalizing ps with
  | nil => exact Grown.refl ps
  | cons d found ih =>
      have hfirst := Grown.modify ps d [package] false false
      simp only [Bool.or_false, Bool.and_false] at hfirst
      have hadded : (fun p => (if p = d then [package] else []) ++
          List.replicate (found.count p) package) =
          fun p => List.replicate ((d :: found).count p) package := by
        funext p
        by_cases hp : p = d
        · subst hp
          simp [List.replicate_succ]
        · simp [hp, List.count_cons_of_ne (Ne.symm hp)]
      exact hadded ▸ hfirst.trans (ih _)

theorem buildPackageDeps_grown (cf : Conf) (ps : Packages) (q : PkgId) :
    Grown ps (buildPackageDeps cf ps q)
      (fun p => List.replicate ((dependents cf ps q).count p) q) (fun _ => false)
      fun _ => false := by
  cases hrev : (cf.sym (ps.node q).symbol).revDep with
  | none => simpa [buildPackageDeps, dependents, hrev] using Grown.refl ps
  | some e =>
      have hfound : (buildPackageDepsExpr cf ps e []).2 = dependents cf ps q := by
        simp [buildPackageDepsExpr_eq, dependents, hrev]
      simpa [buildPackageDeps, hrev, hfound] using foldl_addDep q (dependents cf ps q) ps

theorem Grown.congr {ps ps' : Packages} {added added' : PkgId → List PkgId}
    {stable stable' parent parent' : PkgId → Bool} (h : Grown ps ps' added stable parent)
    (hadded : ∀ p, added' p = added p) (hstable : ∀ p, stable' p = stable p)
    (hparent : ∀ p, parent' p = parent p) : Grown ps ps' added' stable' parent' where
  toSameShape := h.toSameShape
  deps p := by rw [h.deps, hadded]
  stable p := by rw [h.stable, hstable]
  parent p := by rw [h.parent, hparent]

/-- A flag that is only computed for `q` itself. -/
theorem beq_and_eq (p q : PkgId) (f : PkgId → Bool) : (p == q && f p) = (p == q && f q) := by
  cases hp : p == q with
  | true => rw [eq_of_beq hp]
  | false => rfl

/-- One round of the loop: the dependencies on `q`, and the two flags of `q`. -/
theorem buildDepsStep_grown (cf : Conf) (stable : SymId) (ps : Packages) (q : PkgId) :
    Grown ps (buildDepsStep cf stable ps q)
      (fun p => List.replicate ((dependents cf ps q).count p) q)
      (fun p => p == q && packageDepends cf (ps.node p) stable)
      fun p => p == q && symbolIsParent cf ps (ps.node p).symbol := by
  let ps₁ :=
    if packageDepends cf (ps.node q) stable then
      ps.modify q fun node => { node with stable := true }
    else ps
  have h₁ := Grown.setStable ps q (packageDepends cf (ps.node q) stable)
  let ps₂ := buildPackageDeps cf ps₁ q
  have h₂ := h₁.trans (buildPackageDeps_grown cf ps₁ q)
  have h₃ := h₂.trans (Grown.setParent ps₂ q (symbolIsParent cf ps₂ (ps₂.node q).symbol))
  refine h₃.congr (fun p => ?_) (fun p => ?_) fun p => ?_
  · -- the flag set first is not looked at by the collection
    simp [ps₁, h₁.toSameShape.dependents]
  · rw [Bool.or_false, Bool.or_false, beq_and_eq p q fun p => packageDepends cf (ps.node p) stable]
  · rw [h₂.toSameShape.symbolIsParent, h₂.symbol,
      beq_and_eq p q fun p => symbolIsParent cf ps (ps.node p).symbol]
    rfl

/-! ## The loop over the packages -/

/-- The loop invariant: after the packages in `qs`, each dependency list has
grown by the entries these packages contribute, and their flags are set. -/
theorem foldl_buildDepsStep (cf : Conf) (stable : SymId) (qs : List PkgId) (ps : Packages) :
    Grown ps (qs.foldl (buildDepsStep cf stable) ps)
      (fun p => qs.flatMap fun q => List.replicate ((dependents cf ps q).count p) q)
      (fun p => qs.contains p && packageDepends cf (ps.node p) stable)
      fun p => qs.contains p && symbolIsParent cf ps (ps.node p).symbol := by
  induction qs generalizing ps with
  | nil => simpa using Grown.refl ps
  | cons q qs ih =>
      have h₁ := buildDepsStep_grown cf stable ps q
      refine (h₁.trans (ih _)).congr (fun p => ?_) (fun p => ?_) fun p => ?_
      · simp only [h₁.toSameShape.dependents, List.flatMap_cons]
      · rw [h₁.toSameShape.packageDepends, List.contains_cons, Bool.and_or_distrib_right]
      · rw [h₁.toSameShape.symbolIsParent, h₁.symbol, List.contains_cons,
          Bool.and_or_distrib_right]

/-- `build_deps` appends to every package's dependencies what it needs, sets the
flags of the listed packages, and keeps everything else. -/
theorem buildDeps_grown {cf : Conf} {stable : Option SymId} {ps ps' : Packages}
    (h : buildDeps cf stable ps = some ps') :
    Grown ps ps' (needs cf ps)
      (fun p => ps.list.contains p && stable.any fun s => packageDepends cf (ps.node p) s)
      fun p => ps.list.contains p && symbolIsParent cf ps (ps.node p).symbol := by
  cases stable with
  | some stable =>
      cases h
      exact foldl_buildDepsStep cf stable ps.list ps
  | none =>
      by_cases hempty : ps.list = []
      · simp only [buildDeps, hempty, List.isEmpty_nil, if_true, Option.some.injEq] at h
        subst h
        have hneeds : needs cf ps = fun _ => [] := funext fun p => by simp [needs, hempty]
        simpa [hneeds, hempty] using Grown.refl ps
      · simp [buildDeps, hempty] at h

/-- `build_deps` reads the null pointer exactly when there are packages but no
`STABLE_ABI` entry. -/
theorem buildDeps_isSome_iff (cf : Conf) (stable : Option SymId) (ps : Packages) :
    (buildDeps cf stable ps).isSome ↔ stable.isSome ∨ ps.list = [] := by
  cases stable with
  | some stable => simp [buildDeps]
  | none => by_cases hempty : ps.list = [] <;> simp [buildDeps, hempty]

theorem filterMap_findPackage_count {ps : Packages}
    (hdistinct : ∀ p ∈ ps.list, ∀ q ∈ ps.list,
      (ps.node p).symbol = (ps.node q).symbol → p = q)
    {p : PkgId} (hp : p ∈ ps.list) (syms : List SymId) :
    (syms.filterMap (findPackage ps)).count p = syms.count (ps.node p).symbol := by
  induction syms with
  | nil => rfl
  | cons s syms ih =>
      have hs := findPackage_eq_some_iff hdistinct hp s
      cases hfind : findPackage ps s with
      | none =>
          have hne : s ≠ (ps.node p).symbol := fun h => by simp [hs.mpr h] at hfind
          rw [List.filterMap_cons_none hfind, ih, List.count_cons_of_ne hne]
      | some q =>
          rw [List.filterMap_cons_some hfind]
          by_cases hq : q = p
          · subst hq
            rw [hs.mp hfind, List.count_cons_self, List.count_cons_self, ih]
          · have hne : s ≠ (ps.node p).symbol := fun h => by
              rw [hs.mpr h, Option.some.injEq] at hfind
              exact hq hfind.symm
            rw [List.count_cons_of_ne hq, List.count_cons_of_ne hne, ih]

/-- The active leaves of a package's `rev_dep` expression that name the symbol
of `p`. -/
def activeLeavesNaming (cf : Conf) (ps : Packages) (q p : PkgId) : List SymId :=
  match (cf.sym (ps.node q).symbol).revDep with
  | none => []
  | some e => (activeLeaves cf e).filter (· == (ps.node p).symbol)

/-- The dependencies that `build_deps` computes: over the packages in list
order, one entry for each active leaf that names the package's symbol. An
expression with the value no leaves the list passed in as it was, and nothing
but dependencies and flags changes. Only without a `STABLE_ABI` entry there is
no result, as soon as there is a package. -/
theorem buildDeps_exact (cf : Conf) (stable : Option SymId) (ps : Packages)
    (hdistinct : ∀ p ∈ ps.list, ∀ q ∈ ps.list,
      (ps.node p).symbol = (ps.node q).symbol → p = q)
    (hempty : ∀ p ∈ ps.list, (ps.node p).deps = []) :
    ((buildDeps cf stable ps).isSome ↔ stable.isSome ∨ ps.list = []) ∧
    (∀ e deps, (buildPackageDepsExpr cf ps e deps).1 = .no →
      (buildPackageDepsExpr cf ps e deps).2 = deps) ∧
    ∀ ps', buildDeps cf stable ps = some ps' →
      (∀ p ∈ ps.list, (ps'.node p).deps =
        ps.list.flatMap fun q => (activeLeavesNaming cf ps q p).map fun _ => q) ∧
      ps'.list = ps.list ∧
      ∀ p, (ps'.node p).numdeps = (ps.node p).numdeps ∧ (ps'.node p).path = (ps.node p).path ∧
        (ps'.node p).symbol = (ps.node p).symbol := by
  refine ⟨buildDeps_isSome_iff cf stable ps, fun e deps hno => ?_, fun ps' h => ?_⟩
  · rw [buildPackageDepsExpr_eq] at hno ⊢
    rw [activeLeaves_eq_nil hno, List.filterMap_nil, List.append_nil]
  · have hgrown := buildDeps_grown h
    refine ⟨fun p hp => ?_, hgrown.list,
      fun p => ⟨hgrown.numdeps p, hgrown.path p, hgrown.symbol p⟩⟩
    rw [hgrown.deps p, hempty p hp, List.nil_append, needs]
    refine congrArg (ps.list.flatMap ·) (funext fun q => ?_)
    cases hrev : (cf.sym (ps.node q).symbol).revDep with
    | none => simp [dependents, activeLeavesNaming, hrev]
    | some e =>
        simp only [dependents, activeLeavesNaming, hrev,
          filterMap_findPackage_count hdistinct hp, List.map_const', List.count_eq_length_filter]

/-- `A` selects `B` twice, once under a condition on `B`. -/
def twoPackages : Conf := Conf.ofTable
  [boolSymbol (packagePrefix ++ ['A']) none none,
    boolSymbol (packagePrefix ++ ['B']) none
      (some (.or (.symbol 0) (.and (.symbol 0) (.symbol 1)))),
    boolSymbol stableAbiName none none]
  [.mk (some 0) ['a', '/', 'K'] [], .mk (some 1) ['b', '/', 'K'] [],
    .mk (some 2) ['K'] []]

theorem buildDeps_exact_twoPackages :
    ∃ ps', buildDeps twoPackages (some 2) (createPackageList twoPackages).1 = some ps' ∧
      (ps'.node 0).deps = [1, 1] := by
  have hexact := buildDeps_exact twoPackages (some 2) (createPackageList twoPackages).1
    (by decide) (by decide)
  obtain ⟨ps', hps'⟩ := Option.isSome_iff_exists.mp (hexact.1.mpr (Or.inl rfl))
  exact ⟨ps', hps', ((hexact.2.2 ps' hps').1 0 (by decide)).trans (by decide)⟩

end Pbs.Deps
