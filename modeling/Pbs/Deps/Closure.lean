import Pbs.Deps.Writers

/-!
# Every printed prerequisite has a rule

A prerequisite that `write_depends` prints has a rule of its own exactly when
no dependency of a printed package is left on a virtual package or on a platform
that gives way to a child. `resolve_deps` brings this about for the dependencies
in whose place it puts a package with a rule, and for no others.
-/

namespace Pbs.Deps

open Kconfig Walks Relation

/-- The paths in the `.install` prerequisites of a package, in front of the bar
and after it. -/
def printedPrereqs (ps : Packages) (package : Package) : List Text :=
  (normalDeps ps package ++ stableDeps ps package).map fun dep => (ps.node dep).path

/-- Every prerequisite printed in a rule has a rule itself; in particular no
dependency of a printed package is virtual or a suppressed platform. -/
structure ClosedRules (ps : Packages) : Prop where
  prereqs : ∀ p ∈ ps.list, emitted (ps.node p) → ∀ path ∈ printedPrereqs ps (ps.node p),
    ∃ t ∈ ps.list, emitted (ps.node t) ∧ (ps.node t).path = path
  deps : ∀ p ∈ ps.list, emitted (ps.node p) → ∀ d ∈ (ps.node p).deps,
    (ps.node d).virtual = false ∧ platformHasChild (ps.node d) = false

/-- In the place of everything that a printed package needs stands a package
with a rule. -/
def ProvidedWithRules (ps : Packages) : Prop :=
  ∀ p ∈ ps.list, emitted (ps.node p) → ∀ q ∈ (ps.node p).deps,
    ∃ t, Provides ps p q t ∧ emitted (ps.node t)

theorem emitted_iff {package : Package} :
    emitted package ↔ package.virtual = false ∧ platformHasChild package = false := by
  simp [emitted]

theorem mem_printedPrereqs {ps : Packages} {package : Package} {path : Text} :
    path ∈ printedPrereqs ps package ↔ ∃ d ∈ package.deps, (ps.node d).path = path := by
  have hmem : ∀ d, d ∈ normalDeps ps package ++ stableDeps ps package ↔ d ∈ package.deps := by
    intro d
    cases hd : (ps.node d).stable <;> simp [normalDeps, stableDeps, hd]
  simp only [printedPrereqs, List.mem_map, hmem]

theorem ResolvedDeps.emitted {width fuel : ℕ} {ps ps' : Packages}
    (h : ResolvedDeps width fuel ps ps') (p : PkgId) :
    emitted (ps'.node p) = emitted (ps.node p) := by
  rw [h.node p]
  rfl

/-- With listed dependencies the paths are covered as soon as the packages
are. -/
theorem closedRules_iff {ps : Packages}
    (hclosed : ∀ p ∈ ps.list, ∀ q ∈ (ps.node p).deps, q ∈ ps.list) :
    ClosedRules ps ↔
      ∀ p ∈ ps.list, emitted (ps.node p) → ∀ d ∈ (ps.node p).deps, emitted (ps.node d) := by
  constructor
  · intro h p hp hemitted d hd
    exact emitted_iff.mpr (h.deps p hp hemitted d hd)
  · intro h
    refine ⟨fun p hp hemitted path hpath => ?_, fun p hp hemitted d hd =>
      emitted_iff.mp (h p hp hemitted d hd)⟩
    rcases mem_printedPrereqs.mp hpath with ⟨d, hd, rfl⟩
    exact ⟨d, hclosed p hp d hd, h p hp hemitted d hd, rfl⟩

/-- All that stands in the place of the dependencies is emitted exactly when all
that is left of them is: the only one that is dropped is the package itself. -/
theorem ResolvedDeps.emitted_deps_iff {width fuel : ℕ} {ps ps' : Packages}
    (h : ResolvedDeps width fuel ps ps') {p : PkgId} (hp : p ∈ ps.list)
    (hemitted : Deps.emitted (ps.node p)) :
    (∀ d ∈ (ps'.node p).deps, Deps.emitted (ps'.node d)) ↔
      ∀ q ∈ (ps.node p).deps, ∃ t, Provides ps p q t ∧ Deps.emitted (ps.node t) := by
  simp only [h.emitted, h.mem_deps_iff hp]
  constructor
  · intro hall q hq
    rcases h.provides hp q hq with ⟨t, ht⟩
    by_cases htp : t = p
    · -- `p` itself is dropped from its dependencies, but it has a rule
      exact ⟨t, ht, htp ▸ hemitted⟩
    · exact ⟨t, ht, hall t ⟨htp, q, hq, ht⟩⟩
  · rintro hall d ⟨_, q, hq, hd⟩
    rcases hall q hq with ⟨t, ht, htemitted⟩
    exact hd.unique ht ▸ htemitted

theorem ResolvedDeps.closed {width fuel : ℕ} {ps ps' : Packages}
    (h : ResolvedDeps width fuel ps ps')
    (hclosed : ∀ p ∈ ps.list, ∀ q ∈ (ps.node p).deps, q ∈ ps.list) :
    ∀ p ∈ ps'.list, ∀ d ∈ (ps'.node p).deps, d ∈ ps'.list := by
  intro p hp d hd
  rw [h.list] at hp ⊢
  rcases (h.mem_deps_iff hp d).mp hd with ⟨_, q, hq, hprov⟩
  exact hprov.mem hclosed (hclosed p hp q hq)

/-- A package that selects a virtual package, which selects a virtual package,
which selects a package; the four stand in this order. -/
def nestedVirtuals : Conf := Conf.ofTable
  [boolSymbol (packagePrefix ++ ['P']) none none,
    boolSymbol (virtualPrefix ++ ['V']) none (some (.symbol 0)),
    boolSymbol (virtualPrefix ++ ['W']) none (some (.symbol 1)),
    boolSymbol (packagePrefix ++ ['R']) none (some (.symbol 2)),
    boolSymbol stableAbiName none none]
  [.mk (some 0) ['p', '/', 'K'] [], .mk (some 1) ['v', '/', 'K'] [],
    .mk (some 2) ['w', '/', 'K'] [], .mk (some 3) ['r', '/', 'K'] [],
    .mk (some 4) ['K'] []]

theorem nestedVirtuals_acyclic :
    AcyclicOn (fun p => ((selectGraph nestedVirtuals).node p).deps)
      (selectGraph nestedVirtuals).list := by
  have hb : ∀ p ∈ (selectGraph nestedVirtuals).list,
      Bounded (fun p => ((selectGraph nestedVirtuals).node p).deps) 4 p := by decide
  exact fun p hp => (hb p hp).not_cycle

end Pbs.Deps
