import Pbs.Deps.Selects

/-!
# Evaluating a `rev_dep`

Three functions go over the same expressions: the configurator's
`expr_calc_value`, `build_package_deps_expr`, which evaluates on the side and
takes comparisons for no, and `find_symbol`, which does not evaluate at all.
-/

namespace Pbs.Deps

open Kconfig

/-! ## Comparisons -/

/-- The expression with `symbol_no` in place of every comparison. -/
def withoutComparisons (symbolNo : SymId) : Expr → Expr
  | .symbol s => .symbol s
  | .not e => .not (withoutComparisons symbolNo e)
  | .and l r => .and (withoutComparisons symbolNo l) (withoutComparisons symbolNo r)
  | .or l r => .or (withoutComparisons symbolNo l) (withoutComparisons symbolNo r)
  | .equal _ _ => .symbol symbolNo
  | .unequal _ _ => .symbol symbolNo

/-- `build_package_deps_expr` gives the expression the value that the
configurator gives it, so it does not take an enabled select for a disabled
one. -/
structure AgreesWithConfigurator (cf : Conf) (ps : Packages) (e : Expr) : Prop where
  value : ∀ deps, (buildPackageDepsExpr cf ps e deps).1 = exprCalcValue cf (some e)
  enabled : exprCalcValue cf (some e) ≠ .no →
    ∀ deps, (buildPackageDepsExpr cf ps e deps).1 ≠ .no

/-- The value of `build_package_deps_expr` is the configurator's value of the
expression without its comparisons. -/
theorem depsExprValue_eq {cf : Conf} {symbolNo : SymId} (hno : (cf.curr symbolNo).tri = .no)
    (e : Expr) :
    depsExprValue cf e = exprCalcValue cf (some (withoutComparisons symbolNo e)) := by
  unfold exprCalcValue
  induction e with
  | symbol s => rfl
  | not e ih => rw [depsExprValue, ih]; rfl
  | and l r ihl ihr => rw [depsExprValue, ihl, ihr]; rfl
  | or l r ihl ihr => rw [depsExprValue, ihl, ihr]; rfl
  | equal l r => exact hno.symm
  | unequal l r => exact hno.symm

/-- The two evaluators agree on an expression exactly when its comparisons could
be false without a change of its value. -/
theorem agreesWithConfigurator_iff {cf : Conf} (ps : Packages) {symbolNo : SymId}
    (hno : (cf.curr symbolNo).tri = .no) (e : Expr) :
    AgreesWithConfigurator cf ps e ↔
      exprCalcValue cf (some (withoutComparisons symbolNo e)) = exprCalcValue cf (some e) := by
  rw [← depsExprValue_eq hno]
  constructor
  · intro h
    rw [← buildPackageDepsExpr_value cf ps e [], h.value]
  · intro heq
    have hvalue : ∀ deps, (buildPackageDepsExpr cf ps e deps).1 = exprCalcValue cf (some e) := by
      intro deps
      rw [buildPackageDepsExpr_value, heq]
    exact ⟨hvalue, fun hne deps => by rwa [hvalue]⟩

/-- `A` selects `Q` if the string `ARCH` is "arm", which it is. -/
def comparedSelect : ParseState where
  transform _ := id
  eliminateDups _ := id
  transBool _ := id
  symbols := [0, 1, 2, 3, 4]
  sym
    | 0 => ⟨some (packagePrefix ++ ['A']), .boolean, false, false, true,
        [⟨.select, some (.equal 2 3), some (.expr (.symbol 1))⟩], none, none⟩
    | 1 => ⟨some (packagePrefix ++ ['Q']), .boolean, false, false, true, [], none, none⟩
    | 2 => ⟨some ['A', 'R', 'C', 'H'], .string, false, false, true, [], none, none⟩
    | 3 => ⟨some ['a', 'r', 'm'], .unknown, false, false, false, [], none, none⟩
    | _ => ⟨none, .unknown, false, false, false, [], none, none⟩
  symbolMod := 5
  entries :=
    [.mk (some 0) ['a', '/', 'K'] none
        [⟨.select, some (.equal 2 3), some (.expr (.symbol 1))⟩] [],
      .mk (some 1) ['q', '/', 'K'] none [] [],
      .mk (some 2) ['K'] none [] []]

/-- `symbol_no` is symbol 4. -/
def comparedSelectValues : SymId → SymbolValue
  | 0 | 1 => ⟨[], .yes⟩
  | 2 | 3 => ⟨['a', 'r', 'm'], .no⟩
  | _ => ⟨[], .no⟩

theorem agreesWithConfigurator_iff_comparedSelect :
    AgreesWithConfigurator (confParse comparedSelect comparedSelectValues) Packages.empty
        (.and (.symbol 0) (.equal 2 3)) ↔
      exprCalcValue (confParse comparedSelect comparedSelectValues)
          (some (withoutComparisons 4 (.and (.symbol 0) (.equal 2 3)))) =
        exprCalcValue (confParse comparedSelect comparedSelectValues)
          (some (.and (.symbol 0) (.equal 2 3))) :=
  agreesWithConfigurator_iff Packages.empty rfl (.and (.symbol 0) (.equal 2 3))

/-- The select enables `Q` in the configuration, and is taken for disabled. -/
theorem comparedSelect_not_agrees :
    ¬ ∀ (st : ParseState) (curr : SymId → SymbolValue) (q : SymId) (e : Expr) (ps : Packages),
      st.revDepOf q = some e → AgreesWithConfigurator (confParse st curr) ps e := by
  intro h
  have hrev : comparedSelect.revDepOf 1 = some (.and (.symbol 0) (.equal 2 3)) := by rfl
  have hagree := h comparedSelect comparedSelectValues 1 _ Packages.empty hrev
  have hvalue := hagree.value []
  revert hvalue
  decide

/-! ## Marking stable packages -/

/-- `build_deps` comes to an end and marks the packages whose symbols stand at an
active leaf of the `rev_dep` of `STABLE_ABI`. -/
def MarksActiveLeaves (cf : Conf) (stable : Option SymId) (ps : Packages) : Prop :=
  ∃ ps', buildDeps cf stable ps = some ps' ∧ ∀ p ∈ ps.list,
    ((ps'.node p).stable ↔
      ∃ s, stable = some s ∧ (ps.node p).symbol ∈ namedBy cf (cf.sym s).revDep)

/-- A package whose symbol is named in the `rev_dep` of `STABLE_ABI` is named
there outside the parts that have the value no. -/
def NamedInLiveParts (cf : Conf) (stable : SymId) (ps : Packages) : Prop :=
  ∀ p ∈ ps.list, findSymbol (ps.node p).symbol (cf.sym stable).revDep →
    (ps.node p).symbol ∈ namedBy cf (cf.sym stable).revDep

/-- An active leaf is a leaf. -/
theorem findSymbol_of_mem_activeLeaves {cf : Conf} {e : Expr} {s : SymId}
    (h : s ∈ activeLeaves cf e) : findSymbol s (some e) := by
  unfold findSymbol
  induction e with
  | symbol t =>
      unfold activeLeaves at h
      split at h
      · simp at h
      · simpa [findSymbol.go] using h
  | not e ih =>
      unfold activeLeaves at h
      split at h
      · simp at h
      · exact ih h
  | and l r ihl ihr =>
      unfold activeLeaves at h
      split at h
      · simp at h
      · simp only [findSymbol.go, Bool.or_eq_true]
        exact (List.mem_append.mp h).imp ihl ihr
  | or l r ihl ihr =>
      unfold activeLeaves at h
      split at h
      · simp at h
      · simp only [findSymbol.go, Bool.or_eq_true]
        exact (List.mem_append.mp h).imp ihl ihr
  | equal l r => simp [activeLeaves] at h
  | unequal l r => simp [activeLeaves] at h

theorem findSymbol_of_mem_namedBy {cf : Conf} {e : Option Expr} {s : SymId}
    (h : s ∈ namedBy cf e) : findSymbol s e := by
  cases e with
  | none => simp [namedBy] at h
  | some e => exact findSymbol_of_mem_activeLeaves h

/-- The symbols at active leaves are those whose packages
`build_package_deps_expr` lists. -/
theorem mem_activeLeaves_iff_listed (cf : Conf) {ps : Packages} {p : PkgId} (hp : p ∈ ps.list)
    (e : Expr) :
    (ps.node p).symbol ∈ activeLeaves cf e ↔
      ∃ q ∈ (buildPackageDepsExpr cf ps e []).2, (ps.node q).symbol = (ps.node p).symbol := by
  rw [buildPackageDepsExpr_eq, List.nil_append]
  simp only [List.mem_filterMap]
  constructor
  · intro hs
    cases hfind : findPackage ps (ps.node p).symbol with
    | none => simpa using List.find?_eq_none.mp hfind p hp
    | some q => exact ⟨q, ⟨_, hs, hfind⟩, findPackage_symbol hfind⟩
  · rintro ⟨q, ⟨s, hs, hfind⟩, hq⟩
    rw [← hq, findPackage_symbol hfind]
    exact hs

/-- The packages marked are those that the `rev_dep` of `STABLE_ABI` names
anywhere. -/
theorem buildDeps_stable_iff {cf : Conf} {s : SymId} {ps' : Packages}
    (h : buildDeps cf (some s) (createPackageList cf).1 = some ps') {p : PkgId}
    (hp : p ∈ (createPackageList cf).1.list) :
    (ps'.node p).stable ↔
      findSymbol ((createPackageList cf).1.node p).symbol (cf.sym s).revDep := by
  have hstart : ((createPackageList cf).1.node p).stable = false := by
    rw [(createPackageList_created cf).node p hp]
    rfl
  rw [(buildDeps_grown h).stable p, hstart]
  simp [hp, packageDepends]

/-- The marks are right exactly when the expression names no listed package in
dead parts only, and the tree has a `STABLE_ABI` entry or no package at all. -/
theorem buildDeps_marksActiveLeaves_iff (cf : Conf) :
    (MarksActiveLeaves cf (createPackageList cf).2 (createPackageList cf).1 ↔
      ((createPackageList cf).2 = none → (createPackageList cf).1.list = []) ∧
      ∀ s, (createPackageList cf).2 = some s → NamedInLiveParts cf s (createPackageList cf).1) ∧
    ∀ p ∈ (createPackageList cf).1.list, ∀ e,
      (((createPackageList cf).1.node p).symbol ∈ activeLeaves cf e ↔
        ∃ q ∈ (buildPackageDepsExpr cf (createPackageList cf).1 e []).2,
          ((createPackageList cf).1.node q).symbol =
            ((createPackageList cf).1.node p).symbol) := by
  refine ⟨?_, fun p hp e => mem_activeLeaves_iff_listed cf hp e⟩
  cases hstable : (createPackageList cf).2 with
  | none =>
      -- without `STABLE_ABI` the null pointer is met at the first package
      constructor
      · rintro ⟨ps', hps', _⟩
        have hsome := (buildDeps_isSome_iff cf none _).mp (Option.isSome_of_eq_some hps')
        exact ⟨fun _ => by simpa using hsome, fun s hs => by simp at hs⟩
      · rintro ⟨hnil, _⟩
        refine ⟨(createPackageList cf).1, by simp [buildDeps, hnil rfl], fun p hp => ?_⟩
        rw [hnil rfl] at hp
        simp at hp
  | some s =>
      let ps := (createPackageList cf).1
      have hbuilt : buildDeps cf (some s) ps = some (ps.list.foldl (buildDepsStep cf s) ps) := rfl
      have hmarked : ∀ p ∈ ps.list, ((ps.list.foldl (buildDepsStep cf s) ps).node p).stable ↔
          findSymbol (ps.node p).symbol (cf.sym s).revDep :=
        fun p hp => buildDeps_stable_iff hbuilt hp
      simp only [reduceCtorEq, false_implies, true_and, Option.some.injEq, forall_eq',
        MarksActiveLeaves, buildDeps, exists_eq_left']
      constructor
      · intro h p hp hfind
        exact (h p hp).mp ((hmarked p hp).mpr hfind)
      · intro h p hp
        rw [hmarked p hp]
        exact ⟨h p hp, findSymbol_of_mem_namedBy⟩

/-- `A` selects `STABLE_ABI` if `B`, which is off. -/
def disabledStable : ParseState where
  transform _ := id
  eliminateDups _ := id
  transBool _ := id
  symbols := [0, 1, 2]
  sym := (Conf.ofTable
    [boolSymbol (packagePrefix ++ ['A']) none none,
      boolSymbol ['B'] none none,
      boolSymbol stableAbiName none none] []).sym
  symbolMod := 3
  entries :=
    [.mk (some 0) ['a', '/', 'K'] none
        [⟨.select, some (.symbol 1), some (.expr (.symbol 2))⟩] [],
      .mk (some 1) ['K'] none [] [],
      .mk (some 2) ['K'] none [] []]

/-- Only `A` is enabled. -/
def onlyFirst : SymId → SymbolValue
  | 0 => ⟨[], .yes⟩
  | _ => ⟨[], .no⟩

/-- `A` is marked although its select is disabled. -/
theorem disabledStable_not_marked :
    ¬ ∀ (st : ParseState) (curr : SymId → SymbolValue),
      MarksActiveLeaves (confParse st curr) (createPackageList (confParse st curr)).2
        (createPackageList (confParse st curr)).1 := by
  intro h
  rcases h disabledStable onlyFirst with ⟨ps', hps', hmarks⟩
  have hstable : (createPackageList (confParse disabledStable onlyFirst)).2 = some 2 := by rfl
  rw [hstable] at hps' hmarks
  have hmem : 0 ∈ (createPackageList (confParse disabledStable onlyFirst)).1.list := by decide
  have hmarked := (buildDeps_stable_iff hps' hmem).mpr (by decide)
  rcases (hmarks 0 hmem).mp hmarked with ⟨s, hs, hnamed⟩
  cases hs
  revert hnamed
  decide

end Pbs.Deps
