import Pbs.Deps.ResolveDeps

/-!
# What `resolve_deps` counts, and packages that provide what they need

The counter of a package is the number of walks that end in it. The recursion
that counts them follows every edge, so it comes to no end at a package that
depends on itself, although the loop after it is prepared to drop such
dependencies.
-/

namespace Pbs.Deps

open Walks Relation

/-! ## The counters -/

/-- The first loop of `resolve_deps`, on counters that start at zero: the counter
of a package is the number of non-empty walks that start at a listed package and
end in it, modulo the width of the counter. -/
theorem countPackageDeps_numdeps (width : ℕ) {ps : Packages} (hnodup : ps.list.Nodup)
    (hclosed : ∀ p ∈ ps.list, ∀ q ∈ (ps.node p).deps, q ∈ ps.list)
    (hzero : ∀ p ∈ ps.list, (ps.node p).numdeps = 0)
    (hacyclic : AcyclicOn (resolvedDeps ps) ps.list) :
    ∃ n, ∀ fuel, n ≤ fuel →
      ∃ ps', ps.list.foldlM (countPackageDeps width fuel) ps = some ps' ∧
        ps'.list = ps.list ∧
        ∀ q ∈ ps.list, (walkSet (resolvedDeps ps) ps.list q).Finite ∧
          (ps'.node q).numdeps = (walkSet (resolvedDeps ps) ps.list q).ncard % 2 ^ width := by
  rcases bounded_of_acyclic (resolvedDeps_closed hclosed) hacyclic with ⟨n, hn⟩
  refine ⟨n, fun fuel hle => ?_⟩
  have hb : ∀ p ∈ ps.list, Bounded (resolvedDeps ps) fuel p :=
    fun p hp => (hn p hp).succ_of_le hle
  rcases (foldlM_countPackageDeps ps.list ps).1 hb with ⟨ps', hps', hcounted⟩
  refine ⟨ps', hps', hcounted.list, fun q hq => ⟨finite_walks q hb, ?_⟩⟩
  have hmod := hcounted.numdeps q
  have hsmall := hcounted.small q (by rw [hzero q hq]; exact Nat.two_pow_pos width)
  rw [hzero q hq, Nat.zero_add, ← ncard_walks q hnodup hb] at hmod
  rw [← Nat.mod_eq_of_lt hsmall]
  exact hmod

/-- `A` depends twice on the virtual package `V`, and both depend on `B`. -/
def doubleEdge : Packages := Packages.ofTable
  [tablePackage false 'a' [1, 1, 2], tablePackage true 'v' [2], tablePackage false 'b' []]

theorem countPackageDeps_numdeps_doubleEdge :
    ∃ n, ∀ fuel, n ≤ fuel →
      ∃ ps', doubleEdge.list.foldlM (countPackageDeps 64 fuel) doubleEdge = some ps' ∧
        ps'.list = doubleEdge.list ∧
        ∀ q ∈ doubleEdge.list, (walkSet (resolvedDeps doubleEdge) doubleEdge.list q).Finite ∧
          (ps'.node q).numdeps =
            (walkSet (resolvedDeps doubleEdge) doubleEdge.list q).ncard % 2 ^ 64 := by
  have hbounded : ∀ p ∈ doubleEdge.list, Bounded (resolvedDeps doubleEdge) 3 p := by decide
  exact countPackageDeps_numdeps 64 (by decide) (by decide) (by decide)
    fun p hp => (hbounded p hp).not_cycle

/-! ## Packages that depend on themselves -/

/-- A list whose graph has no cycles but those of a single package. -/
structure SelfLoopsOnly (ps : Packages) : Prop where
  nodup : ps.list.Nodup
  closed : ∀ p ∈ ps.list, ∀ q ∈ (ps.node p).deps, q ∈ ps.list
  acyclic : AcyclicOn (fun p => (resolvedDeps ps p).filter (· ≠ p)) ps.list

/-- `resolve_deps` comes to an end, every dependency is resolved, and those on the
package itself are gone. -/
def ResolvesSelfProviders (width : ℕ) (ps : Packages) : Prop :=
  ∃ n, ∀ fuel, n ≤ fuel → ∃ ps', resolveDeps width fuel ps = some ps' ∧ ps'.list = ps.list ∧
    ∀ p ∈ ps.list, (ps'.node p).deps = (resolvedDeps ps p).filter (· ≠ p)

/-- No virtual package that stands before a package that depends on it, or that
depends on itself, has a first dependency that has a provider. -/
def ProvidersResolved (ps : Packages) : Prop :=
  ∀ p ∈ ps.list, ∀ q ∈ (ps.node p).deps, ps.list.idxOf q ≤ ps.list.idxOf p →
    ∀ h, provider ps q = some h → provider ps h = none

/-- The one-step resolution is what stands in for a dependency, unless a package
that is resolved before puts a second step in front. -/
theorem provides_resolve_iff {ps : Packages} {n : ℕ} {p q : PkgId}
    (hb : ∀ h, provider ps q = some h → Bounded (resolvedDeps ps) n h) :
    Provides ps p q (packageResolveVirtual ps q) ↔
      (ps.list.idxOf q ≤ ps.list.idxOf p → ∀ h, provider ps q = some h →
        provider ps h = none) := by
  rw [packageResolveVirtual_eq]
  cases hq : provider ps q with
  | none => simpa using Provides.here hq
  | some h =>
      have hcycle := not_provider_cycle (hb h hq)
      simp only [Option.getD_some, Option.some.injEq, forall_eq']
      constructor
      · intro hprov hle
        cases hprov with
        | here hnone => simp [hq] at hnone
        | first _ hlt => exact absurd hlt (Nat.not_lt.mpr hle)
        | chain hq' _ hrest =>
            cases Option.some.inj (hq.symm.trans hq')
            -- `h` stands for itself, which no chain of providers gives back
            cases hrest with
            | here hnone => exact hnone
            | first hself _ => exact (hcycle (TransGen.single hself)).elim
            | chain hh _ hback => exact absurd rfl (hback.ne_of_provider (hb h hq) hh)
      · intro hnone
        by_cases hle : ps.list.idxOf q ≤ ps.list.idxOf p
        · exact Provides.chain hq hle (Provides.here (hnone hle))
        · exact Provides.first hq (Nat.lt_of_not_le hle)

theorem resolvedDeps_filter {ps : Packages} {p : PkgId} (hloop : ¬ Edge (resolvedDeps ps) p p) :
    (resolvedDeps ps p).filter (· ≠ p) = resolvedDeps ps p := by
  refine List.filter_eq_self.mpr fun d hd => ?_
  have hne : d ≠ p := fun heq => hloop (heq ▸ hd)
  simpa using hne

/-- What stands in for the dependencies of `p`, when none of it is `p`, is their
one-step resolution exactly if it is so for each of them. -/
theorem filter_eq_resolvedDeps_iff {ps : Packages} {p : PkgId} {ys : List PkgId}
    (hloop : ¬ Edge (resolvedDeps ps) p p)
    (hys : List.Forall₂ (Provides ps p) (ps.node p).deps ys) :
    ys.filter (· ≠ p) = (resolvedDeps ps p).filter (· ≠ p) ↔
      ∀ q ∈ (ps.node p).deps, Provides ps p q (packageResolveVirtual ps q) := by
  rw [resolvedDeps_filter hloop]
  constructor
  · intro heq
    -- nothing is dropped, since as many dependencies are left
    have hlen : (ys.filter (· ≠ p)).length = ys.length := by
      rw [heq, resolvedDeps, List.length_map, hys.length_eq]
    rw [List.length_filter_eq_length_iff] at hlen
    rw [List.filter_eq_self.mpr hlen] at heq
    rw [heq, resolvedDeps, List.forall₂_map_right_iff, List.forall₂_same] at hys
    exact hys
  · intro hprov
    have hsame : List.Forall₂ (Provides ps p) (ps.node p).deps (resolvedDeps ps p) := by
      rw [resolvedDeps, List.forall₂_map_right_iff, List.forall₂_same]
      exact hprov
    have heq : ys = resolvedDeps ps p := by
      have hunique : Relator.RightUnique (Provides ps p) := fun _ _ _ h h' => h.unique h'
      exact hunique.forall₂ hys hsame
    rw [heq, resolvedDeps_filter hloop]

/-- Where the only cycles are self-loops, `resolve_deps` does what it is meant to
exactly for the lists that have none, and in which no second step of resolution
is made. -/
theorem resolveDeps_selfProviders_iff (width : ℕ) {ps : Packages} (h : SelfLoopsOnly ps) :
    ResolvesSelfProviders width ps ↔
      (∀ p ∈ ps.list, ¬ Edge (resolvedDeps ps) p p) ∧ ProvidersResolved ps := by
  have hspec : ∀ {fuel ps'}, resolveDeps width fuel ps = some ps' →
      ∀ p ∈ ps.list, ((ps'.node p).deps = (resolvedDeps ps p).filter (· ≠ p) ↔
        ∀ q ∈ (ps.node p).deps, ps.list.idxOf q ≤ ps.list.idxOf p →
          ∀ h, provider ps q = some h → provider ps h = none) := by
    intro fuel ps' hps' p hp
    have hres := resolveDeps_spec h.nodup hps'
    rcases hres.deps p hp with ⟨ys, hys, hdeps⟩
    rw [hdeps, filter_eq_resolvedDeps_iff
      (fun hself => (hres.bounded p hp).not_cycle (TransGen.single hself)) hys]
    refine forall₂_congr fun q hq => provides_resolve_iff fun h' hh' => hres.bounded h' ?_
    rcases (provider_eq_some hh').2 with ⟨tail, htail⟩
    exact h.closed q (h.closed p hp q hq) h' (by simp [htail])
  constructor
  · rintro ⟨n, hn⟩
    rcases hn n (Nat.le_refl n) with ⟨ps', hps', _, hdeps⟩
    refine ⟨fun p hp hself => ?_, fun p hp => (hspec hps' p hp).mp (hdeps p hp)⟩
    -- the recursion has ended, so there is no loop
    have hb := (resolveDeps_spec h.nodup hps').bounded p hp
    exact hb.not_cycle (TransGen.single hself)
  · rintro ⟨hloop, hresolved⟩
    have hacyclic := acyclicOn_of_no_loops (resolvedDeps_closed h.closed) h.acyclic hloop
    rcases resolveDeps_of_acyclic width h.closed hacyclic with ⟨n, hn⟩
    refine ⟨n, fun fuel hle => ?_⟩
    rcases Option.isSome_iff_exists.mp (hn fuel hle) with ⟨ps', hps'⟩
    exact ⟨ps', hps', (resolveDeps_spec h.nodup hps').list,
      fun p hp => (hspec hps' p hp).mpr (hresolved p hp)⟩

/-- `P` depends on the virtual package `V`, which it provides itself. -/
def selfProvider : Packages := Packages.ofTable
  [tablePackage false 'p' [1], tablePackage true 'v' [0]]

theorem selfProvider_selfLoopsOnly : SelfLoopsOnly selfProvider := by
  have hbounded : ∀ p ∈ selfProvider.list,
      Bounded (fun p => (resolvedDeps selfProvider p).filter (· ≠ p)) 2 p := by decide
  exact ⟨by decide, by decide, fun p hp => (hbounded p hp).not_cycle⟩

theorem resolveDeps_selfProviders_iff_selfProvider :
    ResolvesSelfProviders 64 selfProvider ↔
      (∀ p ∈ selfProvider.list, ¬ Edge (resolvedDeps selfProvider) p p) ∧
        ProvidersResolved selfProvider :=
  resolveDeps_selfProviders_iff 64 selfProvider_selfLoopsOnly

/-- The count from `P` comes back to `P` and does not end. -/
theorem selfProvider_not_resolved :
    ¬ ∀ ps : Packages, SelfLoopsOnly ps → ResolvesSelfProviders 64 ps := by
  intro h
  rcases h selfProvider selfProvider_selfLoopsOnly with ⟨n, hn⟩
  rcases hn n (Nat.le_refl n) with ⟨ps', hps', _⟩
  have hmem : 0 ∈ selfProvider.list := by decide
  have hloop : Edge (resolvedDeps selfProvider) 0 0 := by
    show 0 ∈ resolvedDeps selfProvider 0
    decide
  have hb := (resolveDeps_spec (by decide) hps').bounded 0 hmem
  exact hb.not_cycle (TransGen.single hloop)

end Pbs.Deps
