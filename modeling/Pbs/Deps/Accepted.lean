import Pbs.Kconfig.SymCheck
import Pbs.Deps.Selects
import Pbs.Deps.Writers

/-!
# Accepted trees and cycles of packages

`count_package_deps` has no memory of where it has been, so it relies on the
check of `conf_parse` to refuse the trees whose selects form a cycle. That check
refuses none, so the recursion ends exactly for the configurations without a
cycle of enabled packages.
-/

namespace Pbs.Deps

open Kconfig Walks Relation

/-- `p` needs `q`: both are packages of the menu, and an active leaf of the
`rev_dep` of `q` names `p`. -/
def NeedsEdge (cf : Conf) (p q : PkgId) : Prop :=
  q ∈ (createPackageList cf).1.list ∧ p ∈ dependents cf (createPackageList cf).1 q

/-- No package of the menu is reached from itself by active leaves. -/
def NoCycleOfNeeds (cf : Conf) : Prop :=
  ∀ p ∈ (createPackageList cf).1.list, ¬ TransGen (NeedsEdge cf) p p

/-- The graph of `build_deps` has no cycle, and the recursion of `resolve_deps`
over it comes to an end. -/
def FiniteToProcess (width : ℕ) (cf : Conf) : Prop :=
  ∀ ps, buildDeps cf (createPackageList cf).2 (createPackageList cf).1 = some ps →
    AcyclicOn (fun p => (ps.node p).deps) ps.list ∧
    ∃ n, ∀ fuel, n ≤ fuel → (resolveDeps width fuel ps).isSome

theorem needsEdge_eq (cf : Conf) :
    NeedsEdge cf = Edge (fun p => ((selectGraph cf).node p).deps) :=
  funext fun _ => funext fun _ => propext mem_needs.symm

theorem acyclicOn_selectGraph_iff (cf : Conf) :
    AcyclicOn (fun p => ((selectGraph cf).node p).deps) (selectGraph cf).list ↔
      NoCycleOfNeeds cf := by
  unfold AcyclicOn NoCycleOfNeeds
  rw [needsEdge_eq]
  rfl

/-- Without a `STABLE_ABI` entry and with a package in the menu the program gets
no graph. -/
theorem finiteToProcess_iff (width : ℕ) (cf : Conf) :
    FiniteToProcess width cf ↔
      ((createPackageList cf).2.isSome → NoCycleOfNeeds cf) := by
  rw [← acyclicOn_selectGraph_iff]
  constructor
  · intro h hstable
    have hbuild := (buildDeps_isSome_iff cf (createPackageList cf).2 (createPackageList cf).1).mpr
      (Or.inl hstable)
    rcases Option.isSome_iff_exists.mp hbuild with ⟨ps, hps⟩
    have hacyclic := (h ps hps).1
    rwa [buildDeps_eq_selectGraph hps] at hacyclic
  · intro h ps hps
    have hacyclic : AcyclicOn (fun p => ((selectGraph cf).node p).deps) (selectGraph cf).list := by
      intro p hp
      refine h ?_ p hp
      rcases (buildDeps_isSome_iff cf _ _).mp (Option.isSome_of_eq_some hps) with hstable | hnil
      · exact hstable
      · -- the null pointer is not read, and there is nothing to count
        have hlist : (selectGraph cf).list = [] := hnil
        simp [hlist] at hp
    rw [buildDeps_eq_selectGraph hps]
    exact ⟨hacyclic, resolveDeps_of_acyclic width (fun p _ => selectGraph_closed cf p)
      (acyclicOn_resolvedDeps hacyclic)⟩

/-- Every tree is accepted, so the accepted configurations that are finite to
process are those without a cycle of enabled packages. -/
theorem accepted_finiteToProcess_iff (width : ℕ) {cf : Conf} {table : List SymId}
    (hcf : ChoicesLinked cf table) :
    (∃ n, ∀ fuel, n ≤ fuel → zconfnerrs cf fuel = some 0) ∧
    ((Accepted cf → FiniteToProcess width cf) ↔
      ((createPackageList cf).2.isSome → NoCycleOfNeeds cf)) := by
  rcases zconfnerrs_eq_zero hcf with ⟨n, hn⟩
  have haccepted : Accepted cf := ⟨n, hn n (Nat.le_refl n)⟩
  refine ⟨⟨n, hn⟩, ?_⟩
  rw [← finiteToProcess_iff]
  exact ⟨fun h => h haccepted, fun h _ => h⟩

/-- A `select` without a condition. -/
def selectProperty (target : SymId) : Property := ⟨.select, none, some (.expr (.symbol target))⟩

/-- `A` and `B` select each other; both are enabled. -/
def mutualSelects : ParseState where
  transform _ := id
  eliminateDups _ := id
  transBool _ := id
  symbols := [0, 1, 2]
  sym
    | 0 => ⟨some (packagePrefix ++ ['A']), .boolean, false, false, true, [selectProperty 1],
        none, none⟩
    | 1 => ⟨some (packagePrefix ++ ['B']), .boolean, false, false, true, [selectProperty 0],
        none, none⟩
    | 2 => ⟨some stableAbiName, .boolean, false, false, true, [], none, none⟩
    | _ => ⟨none, .unknown, false, false, false, [], none, none⟩
  symbolMod := 3
  entries :=
    [.mk (some 0) ['a', '/', 'K'] none [selectProperty 1] [],
      .mk (some 1) ['b', '/', 'K'] none [selectProperty 0] [],
      .mk (some 2) ['K'] none [] []]

/-- The tree has no choices. -/
theorem mutualSelects_choicesLinked : ChoicesLinked (confParse mutualSelects allYes) [0, 1, 2] := by
  have hplain : ∀ s, ((confParse mutualSelects allYes).sym s).choiceval = false ∧
      ((confParse mutualSelects allYes).sym s).choice = false ∧
      (((confParse mutualSelects allYes).sym s).prop = [] ∨ s ∈ [0, 1])
    | 0 => ⟨rfl, rfl, Or.inr (by simp)⟩
    | 1 => ⟨rfl, rfl, Or.inr (by simp)⟩
    | 2 => ⟨rfl, rfl, Or.inl rfl⟩
    | _ + 3 => ⟨rfl, rfl, Or.inl rfl⟩
  refine ⟨fun v hv => ?_, fun c hc _ => ?_, fun s hs => ⟨?_, ?_, (hplain s).2.1⟩⟩
  · simp [(hplain v).1] at hv
  · simp [(hplain c).2.1] at hc
  · have hrevs : mutualSelects.revDeps = [.select ⟨0, 1, none⟩, .select ⟨1, 0, none⟩] := by rfl
    have hne : 1 ≠ s ∧ 0 ≠ s := ⟨fun h => hs (by simp [← h]), fun h => hs (by simp [← h])⟩
    show mutualSelects.revDepOf s = none
    rw [ParseState.revDepOf, hrevs]
    simp [RevDep.target, hne.1, hne.2]
  · refine (hplain s).2.2.resolve_right fun hmem => hs ?_
    rcases List.mem_cons.mp hmem with rfl | hmem
    · simp
    · simp [List.mem_singleton.mp hmem]

theorem accepted_finiteToProcess_iff_mutualSelects :
    (∃ n, ∀ fuel, n ≤ fuel → zconfnerrs (confParse mutualSelects allYes) fuel = some 0) ∧
    ((Accepted (confParse mutualSelects allYes) →
        FiniteToProcess 64 (confParse mutualSelects allYes)) ↔
      ((createPackageList (confParse mutualSelects allYes)).2.isSome →
        NoCycleOfNeeds (confParse mutualSelects allYes))) :=
  accepted_finiteToProcess_iff 64 mutualSelects_choicesLinked

/-- The check counts no error, and the two packages depend on each other. -/
theorem mutualSelects_not_finite :
    ¬ ∀ (st : ParseState) (curr : SymId → SymbolValue) (table : List SymId),
      ChoicesLinked (confParse st curr) table → Accepted (confParse st curr) →
      FiniteToProcess 64 (confParse st curr) := by
  intro h
  have haccepted : Accepted (confParse mutualSelects allYes) := ⟨3, by decide⟩
  have hfinite := h mutualSelects allYes [0, 1, 2] mutualSelects_choicesLinked haccepted
  have hgraph := (hfinite (allYesDeps mutualSelects 2) (by rfl)).1
  have hmem : 0 ∈ (allYesDeps mutualSelects 2).list := by decide
  have hab : 1 ∈ ((allYesDeps mutualSelects 2).node 0).deps := by decide
  have hba : 0 ∈ ((allYesDeps mutualSelects 2).node 1).deps := by decide
  exact hgraph 0 hmem (TransGen.tail (TransGen.single hab) hba)

end Pbs.Deps
