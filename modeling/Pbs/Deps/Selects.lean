import Pbs.Kconfig.Menu
import Pbs.Deps.BuildDeps

/-!
# Which selects an edge comes from

`build_deps` sees only the disjunction that `menu_finalize` folded together. The
active leaves of the disjunction are those of its members, so an edge can be
traced back to a select, but the leaf may belong to the condition of the select
as well as be its selector.
-/

namespace Pbs.Deps

open Kconfig

/-- The symbols at the active leaves of an expression that may be missing. -/
def namedBy (cf : Conf) : Option Expr → List SymId
  | none => []
  | some e => activeLeaves cf e

theorem dependents_eq (cf : Conf) (ps : Packages) (q : PkgId) :
    dependents cf ps q =
      (namedBy cf (cf.sym (ps.node q).symbol).revDep).filterMap (findPackage ps) := by
  unfold dependents namedBy
  cases (cf.sym (ps.node q).symbol).revDep <;> rfl

theorem mem_activeLeaves_or (cf : Conf) (l r : Expr) (s : SymId) :
    s ∈ activeLeaves cf (.or l r) ↔ s ∈ activeLeaves cf l ∨ s ∈ activeLeaves cf r := by
  by_cases hno : depsExprValue cf (.or l r) = .no
  · -- a disjunction with the value no has only such members
    have hmembers := exprOr_eq_no.mp hno
    rw [activeLeaves_eq_nil hno, activeLeaves_eq_nil hmembers.1, activeLeaves_eq_nil hmembers.2]
    simp
  · rw [activeLeaves, if_neg hno, List.mem_append]

theorem mem_namedBy_allocOr (cf : Conf) (e1 e2 : Option Expr) (s : SymId) :
    s ∈ namedBy cf (exprAllocOr e1 e2) ↔ s ∈ namedBy cf e1 ∨ s ∈ namedBy cf e2 := by
  cases e1 <;> cases e2 <;> simp [exprAllocOr, namedBy, mem_activeLeaves_or]

/-- The leaves of a `rev_dep` are those of the members that were added. -/
theorem mem_namedBy_foldl (cf : Conf) (symbolMod : SymId) (revs : List RevDep)
    (acc : Option Expr) (s : SymId) :
    s ∈ namedBy cf (revs.foldl (fun acc rev => exprAllocOr acc (rev.expr symbolMod)) acc) ↔
      s ∈ namedBy cf acc ∨ ∃ rev ∈ revs, s ∈ namedBy cf (rev.expr symbolMod) := by
  induction revs generalizing acc with
  | nil => simp
  | cons rev revs ih =>
      -- the accumulator is one of the members
      rw [List.foldl_cons, ih, mem_namedBy_allocOr]
      simp only [List.mem_cons, exists_eq_or_imp, or_assoc]

theorem mem_namedBy_revDepOf (cf : Conf) (st : ParseState) (t s : SymId) :
    s ∈ namedBy cf (st.revDepOf t) ↔
      ∃ rev ∈ st.revDeps, rev.target = t ∧ s ∈ namedBy cf (rev.expr st.symbolMod) := by
  have hnone : s ∉ namedBy cf none := List.not_mem_nil
  simp only [ParseState.revDepOf, mem_namedBy_foldl, hnone, false_or, List.mem_filter,
    decide_eq_true_eq, and_assoc]

/-! ## Edges and selects -/

/-- An enabled select of `q` accounts for a dependency of `p` on `q`: the
selector is the symbol of `p`, or depends directly on it and `p` is no
platform. -/
def SelectedFor (st : ParseState) (cf : Conf) (ps : Packages) (p q : PkgId) : Prop :=
  ∃ sel, st.HasSelect sel ∧ sel.target = (ps.node q).symbol ∧ sel.Enabled cf ∧
    (sel.selector = (ps.node p).symbol ∨
      (symbolIsPlatform (cf.sym (ps.node p).symbol) = false ∧
        exprContainsSymbol (cf.sym sel.selector).dirDep (ps.node p).symbol))

theorem mem_needs {cf : Conf} {ps : Packages} {p q : PkgId} :
    q ∈ needs cf ps p ↔ q ∈ ps.list ∧ p ∈ dependents cf ps q := by
  simp only [needs, List.mem_flatMap, List.mem_replicate]
  constructor
  · rintro ⟨q', hq', hcount, rfl⟩
    exact ⟨hq', List.count_pos_iff.mp (Nat.pos_of_ne_zero hcount)⟩
  · rintro ⟨hq, hp⟩
    exact ⟨q, hq, Nat.ne_of_gt (List.count_pos_iff.mpr hp), rfl⟩

/-- The edges to `q` are the packages that an active leaf of a member of its
`rev_dep` names. -/
theorem mem_needs_confParse {st : ParseState} {curr : SymId → SymbolValue} {ps : Packages}
    {p q : PkgId} :
    q ∈ needs (confParse st curr) ps p ↔ q ∈ ps.list ∧ ∃ rev ∈ st.revDeps,
      rev.target = (ps.node q).symbol ∧
      ∃ s ∈ namedBy (confParse st curr) (rev.expr st.symbolMod), findPackage ps s = some p := by
  rw [mem_needs, dependents_eq, List.mem_filterMap]
  refine and_congr_right fun _ => ?_
  constructor
  · rintro ⟨s, hs, hfind⟩
    rcases (mem_namedBy_revDepOf _ st _ s).mp hs with ⟨rev, hrev, htarget, hs⟩
    exact ⟨rev, hrev, htarget, s, hs, hfind⟩
  · rintro ⟨rev, hrev, htarget, s, hs, hfind⟩
    exact ⟨s, (mem_namedBy_revDepOf _ st _ s).mpr ⟨rev, hrev, htarget, hs⟩, hfind⟩

/-- Every listed package that a select of `q` names at an active leaf, as its
selector or in its folded condition, and every one that the prompt of a choice
names, is accounted for by an enabled select. -/
def LeavesSelect (st : ParseState) (cf : Conf) (ps : Packages) : Prop :=
  ∀ q ∈ ps.list, ∀ rev ∈ st.revDeps, rev.target = (ps.node q).symbol →
    ∀ s ∈ namedBy cf (rev.expr st.symbolMod), ∀ p, findPackage ps s = some p →
      SelectedFor st cf ps p q

/-- The edges of `build_deps` come from selects exactly when the conditions of
the selects name no listed package but their selectors and what these depend
on. -/
theorem buildDeps_selectedFor_iff (st : ParseState) (curr : SymId → SymbolValue)
    (ps : Packages)
    (h : buildDeps (confParse st curr) (createPackageList (confParse st curr)).2
      (createPackageList (confParse st curr)).1 = some ps) :
    (∀ p ∈ ps.list, ∀ q ∈ (ps.node p).deps, SelectedFor st (confParse st curr) ps p q) ↔
      LeavesSelect st (confParse st curr) (createPackageList (confParse st curr)).1 := by
  let cf := confParse st curr
  let start := (createPackageList cf).1
  have hgrown := buildDeps_grown h
  have hdeps : ∀ p, (ps.node p).deps = needs cf start p := fun p => by
    rw [hgrown.deps p, (createPackageList_created cf).deps p, List.nil_append]
  have hselected : ∀ p q, SelectedFor st cf ps p q ↔ SelectedFor st cf start p q := fun p q => by
    simp only [SelectedFor, start, cf, hgrown.symbol]
  constructor
  · intro hall q hq rev hrev htarget s hs p hfind
    refine (hselected p q).mp (hall p (hgrown.list ▸ findPackage_mem hfind) q ?_)
    rw [hdeps, mem_needs_confParse]
    exact ⟨hq, rev, hrev, htarget, s, hs, hfind⟩
  · intro hleaves p _ q hq
    rw [hdeps, mem_needs_confParse] at hq
    rcases hq with ⟨hq, rev, hrev, htarget, s, hs, hfind⟩
    exact (hselected p q).mpr (hleaves q hq rev hrev htarget s hs p hfind)

/-- `A` selects `Q` if `B`; all three are enabled. -/
def conditionalSelect : ParseState where
  transform _ := id
  eliminateDups _ := id
  transBool _ := id
  symbols := [0, 1, 2, 3]
  sym := (Conf.ofTable
    [boolSymbol (packagePrefix ++ ['A']) none none,
      boolSymbol (packagePrefix ++ ['B']) none none,
      boolSymbol (packagePrefix ++ ['Q']) none none,
      boolSymbol stableAbiName none none] []).sym
  symbolMod := 4
  entries :=
    [.mk (some 0) ['a', '/', 'K'] none
        [⟨.select, some (.symbol 1), some (.expr (.symbol 2))⟩] [],
      .mk (some 1) ['b', '/', 'K'] none [] [],
      .mk (some 2) ['q', '/', 'K'] none [] [],
      .mk (some 3) ['K'] none [] []]

/-- Every symbol has the value yes. -/
def allYes : SymId → SymbolValue := fun _ => ⟨[], .yes⟩

/-- `build_deps` on a tree in which every symbol is enabled. -/
def allYesDeps (st : ParseState) (stable : SymId) : Packages :=
  (createPackageList (confParse st allYes)).1.list.foldl
    (buildDepsStep (confParse st allYes) stable) (createPackageList (confParse st allYes)).1

theorem buildDeps_selectedFor_iff_conditionalSelect :
    (∀ p ∈ (allYesDeps conditionalSelect 3).list,
      ∀ q ∈ ((allYesDeps conditionalSelect 3).node p).deps,
        SelectedFor conditionalSelect (confParse conditionalSelect allYes)
          (allYesDeps conditionalSelect 3) p q) ↔
      LeavesSelect conditionalSelect (confParse conditionalSelect allYes)
        (createPackageList (confParse conditionalSelect allYes)).1 :=
  buildDeps_selectedFor_iff conditionalSelect allYes (allYesDeps conditionalSelect 3) (by rfl)

/-- The condition of the select gives `B` a dependency on `Q`. -/
theorem conditionalSelect_not_selectedFor :
    ¬ ∀ (st : ParseState) (curr : SymId → SymbolValue) (ps : Packages),
      buildDeps (confParse st curr) (createPackageList (confParse st curr)).2
        (createPackageList (confParse st curr)).1 = some ps →
      ∀ p ∈ ps.list, ∀ q ∈ (ps.node p).deps, SelectedFor st (confParse st curr) ps p q := by
  intro h
  have hmem : 1 ∈ (allYesDeps conditionalSelect 3).list := by decide
  have hdep : 2 ∈ ((allYesDeps conditionalSelect 3).node 1).deps := by decide
  rcases h conditionalSelect allYes (allYesDeps conditionalSelect 3) (by rfl) 1 hmem 2 hdep with
    ⟨sel, hsel, _, _, hselector⟩
  -- the only select of the tree is that of `A`
  have hrevs : conditionalSelect.revDeps = [.select ⟨0, 2, some (.symbol 1)⟩] := by rfl
  rw [ParseState.HasSelect, hrevs, List.mem_singleton, RevDep.select.injEq] at hsel
  subst hsel
  revert hselector
  decide

end Pbs.Deps
