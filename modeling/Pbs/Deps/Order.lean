import Pbs.Deps.Writers

/-!
# The order of `depends-dirs`

`write_compat` sorts by the counters that `resolve_deps` leaves, and nothing
else. The counter of a package is the number of walks that end in it, which
grows along every walk of the graph that was counted. A dependency left after
resolving is reached by such a walk unless it is a virtual package that has a
provider of its own.
-/

namespace Pbs.Deps

open StableSort Walks Relation

/-- The order that the build expects: dependencies first, platforms last, and no
platform on top of the master platform. -/
structure TopologicalOrder (ps : Packages) : Prop where
  deps : ∀ p ∈ ps.list, ∀ d ∈ (ps.node p).deps, Precedes ps.list d p
  printed : ∀ p ∈ dependsDirs ps, ∀ d ∈ dependsDirs ps, d ∈ (ps.node p).deps →
    (ps.node p).platform ∨ ¬ (ps.node d).platform → Precedes (dependsDirs ps) d p
  platforms : ∀ p ∈ dependsDirs ps, ∀ q ∈ dependsDirs ps,
    ¬ (ps.node p).platform → (ps.node q).platform → Precedes (dependsDirs ps) p q
  master : ∀ m, masterPlatform ps = some m → ∀ p ∈ dependsPlatforms ps,
    ¬ TransGen (Edge fun p => (ps.node p).deps) p m

/-- Where a virtual package with a provider of its own stands in for something
that `p` needs, more walks end in it than in `p`, or as many and it stands
before `p` in the list. -/
def ProvidersCountHigher (n : ℕ) (ps : Packages) : Prop :=
  ∀ p ∈ ps.list, ∀ q ∈ (ps.node p).deps, ∀ d, Provides ps p q d → d ≠ p →
    (provider ps d).isSome →
    totalPaths (resolvedDeps ps) n ps.list p < totalPaths (resolvedDeps ps) n ps.list d ∨
      (totalPaths (resolvedDeps ps) n ps.list d = totalPaths (resolvedDeps ps) n ps.list p ∧
        Precedes ps.list d p)

/-! ## Walks to what stands in for a dependency -/

theorem edge_of_provider_none {ps : Packages} {a q : PkgId} (hq : q ∈ (ps.node a).deps)
    (hprov : provider ps q = none) : Edge (resolvedDeps ps) a q :=
  List.mem_map.mpr ⟨q, hq, by rw [packageResolveVirtual_eq, hprov, Option.getD_none]⟩

theorem edge_of_provider_some {ps : Packages} {a q h : PkgId} (hq : q ∈ (ps.node a).deps)
    (hprov : provider ps q = some h) : Edge (resolvedDeps ps) a h :=
  List.mem_map.mpr ⟨q, hq, by rw [packageResolveVirtual_eq, hprov, Option.getD_some]⟩

theorem mem_deps_of_provider {ps : Packages} {q h : PkgId} (hprov : provider ps q = some h) :
    h ∈ (ps.node q).deps := by
  rcases (provider_eq_some hprov).2 with ⟨tail, htail⟩
  simp [htail]

/-- The end of a chain of providers is reached from everything that depends on
the first or on the second package of the chain: the edges of the graph skip
every other package. -/
theorem Provides.walk {ps : Packages} {p q t : PkgId} (h : Provides ps p q t)
    (ht : provider ps t = none) :
    (∀ a, q ∈ (ps.node a).deps → TransGen (Edge (resolvedDeps ps)) a t) ∧
    ∀ q', provider ps q = some q' → ∀ a, q' ∈ (ps.node a).deps →
      TransGen (Edge (resolvedDeps ps)) a t := by
  induction h with
  | here hq =>
      refine ⟨fun a ha => TransGen.single (edge_of_provider_none ha hq), fun q' hq' => ?_⟩
      simp [hq] at hq'
  | first hq _ =>
      -- the edge from `a` skips `q`
      refine ⟨fun a ha => TransGen.single (edge_of_provider_some ha hq), fun q' hq' a ha => ?_⟩
      cases Option.some.inj (hq.symm.trans hq')
      exact TransGen.single (edge_of_provider_none ha ht)
  | @chain p q h t hq _ hprov ih =>
      constructor
      · intro a ha
        have hedge := edge_of_provider_some ha hq
        cases hh : provider ps h with
        | none =>
            have heq : t = h := hprov.unique (Provides.here hh)
            exact heq ▸ TransGen.single hedge
        -- the edge stops at `h`, whose own edge skips the provider of `h`
        | some h' => exact TransGen.head hedge ((ih ht).2 h' hh h (mem_deps_of_provider hh))
      · intro q' hq' a ha
        cases Option.some.inj (hq.symm.trans hq')
        exact (ih ht).1 a ha

/-! ## The sorted list -/

/-- With counters that start at zero and do not overflow, the counters are the
numbers of walks. -/
theorem ResolvedDeps.numdeps_eq {width fuel : ℕ} {ps ps' : Packages}
    (h : ResolvedDeps width fuel ps ps') {p : PkgId} (hzero : (ps.node p).numdeps = 0)
    (hsmall : totalPaths (resolvedDeps ps) fuel ps.list p < 2 ^ width) :
    (ps'.node p).numdeps = totalPaths (resolvedDeps ps) fuel ps.list p := by
  have hmod := h.numdeps p
  rw [hzero, Nat.zero_add] at hmod
  have hlt := h.small p (by rw [hzero]; exact Nat.two_pow_pos width)
  exact hmod.eq_of_lt_of_lt hlt hsmall

theorem nodup_listSort {ps : Packages} (hnodup : ps.list.Nodup) : (listSort ps).list.Nodup :=
  (sortDesc_perm _ ps.list).nodup_iff.mpr hnodup

theorem mem_listSort {ps : Packages} {p : PkgId} : p ∈ (listSort ps).list ↔ p ∈ ps.list :=
  (sortDesc_perm _ ps.list).mem_iff

theorem mem_ordinaryPackages {ps : Packages} {p : PkgId} :
    p ∈ ordinaryPackages ps ↔
      p ∈ ps.list ∧ ¬ (ps.node p).virtual ∧ ¬ (ps.node p).platform := by
  simp [ordinaryPackages]

theorem mem_dependsPlatforms {ps : Packages} {p : PkgId} :
    p ∈ dependsPlatforms ps ↔
      p ∈ ps.list ∧ (ps.node p).platform ∧ ¬ platformHasChild (ps.node p) := by
  simp [dependsPlatforms]

/-- A printed package that is not a platform is printed in the first pass. -/
theorem mem_ordinaryPackages_of_printed {ps : Packages} {p : PkgId} (hp : p ∈ dependsDirs ps)
    (hplat : ¬ (ps.node p).platform) : p ∈ ordinaryPackages ps := by
  rcases List.mem_append.mp hp with hp | hp
  · exact hp
  · exact absurd (mem_dependsPlatforms.mp hp).2.1 hplat

/-- A printed platform is printed in the second pass. -/
theorem mem_dependsPlatforms_of_printed {ps : Packages} {p : PkgId} (hp : p ∈ dependsDirs ps)
    (hplat : (ps.node p).platform) : p ∈ dependsPlatforms ps := by
  rcases List.mem_append.mp hp with hp | hp
  · exact absurd hplat (mem_ordinaryPackages.mp hp).2.2
  · exact hp

/-- Along a walk of dependencies the packages stand further and further
forward. -/
theorem precedes_of_transGen {ps : Packages} (hnodup : ps.list.Nodup)
    (hdeps : ∀ p ∈ ps.list, ∀ d ∈ (ps.node p).deps, Precedes ps.list d p) {p d : PkgId}
    (hp : p ∈ ps.list) (h : TransGen (Edge fun p => (ps.node p).deps) p d) :
    Precedes ps.list d p := by
  induction h with
  | single hstep => exact hdeps p hp _ hstep
  | tail _ hstep ih => exact (hdeps _ ih.mem_left _ hstep).trans hnodup ih

/-- The printed order follows from the order of the list. -/
theorem topologicalOrder_of_deps {ps : Packages} (hnodup : ps.list.Nodup)
    (hdeps : ∀ p ∈ ps.list, ∀ d ∈ (ps.node p).deps, Precedes ps.list d p) :
    TopologicalOrder ps where
  deps := hdeps
  printed := by
    intro p hp d hd hpd hplat
    by_cases hdplat : (ps.node d).platform
    · -- both are printed in the second pass
      have hp' := mem_dependsPlatforms_of_printed hp (hplat.resolve_right (not_not.mpr hdplat))
      have hd' := mem_dependsPlatforms_of_printed hd hdplat
      have hlist := hdeps p (mem_dependsPlatforms.mp hp').1 d hpd
      refine precedes_append_iff.mpr (Or.inr (Or.inr (precedes_filter_iff.mpr ⟨hlist, ?_, ?_⟩)))
      · exact (List.mem_filter.mp hd').2
      · exact (List.mem_filter.mp hp').2
    · -- `d` is printed in the first pass, `p` in the first or in the second one
      have hd' := mem_ordinaryPackages_of_printed hd hdplat
      rcases List.mem_append.mp hp with hp' | hp'
      · have hlist := hdeps p (mem_ordinaryPackages.mp hp').1 d hpd
        refine precedes_append_iff.mpr (Or.inl (precedes_filter_iff.mpr ⟨hlist, ?_, ?_⟩))
        · exact (List.mem_filter.mp hd').2
        · exact (List.mem_filter.mp hp').2
      · exact precedes_append_iff.mpr (Or.inr (Or.inl ⟨hd', hp'⟩))
  platforms := by
    intro p hp q hq hpplat hqplat
    exact precedes_append_iff.mpr (Or.inr (Or.inl
      ⟨mem_ordinaryPackages_of_printed hp hpplat, mem_dependsPlatforms_of_printed hq hqplat⟩))
  master := by
    intro m hm p hp hwalk
    -- the master platform would stand before `p`, but it is the last one
    have hlist := precedes_of_transGen hnodup hdeps (mem_dependsPlatforms.mp hp).1 hwalk
    have hm' : m ∈ dependsPlatforms ps := List.mem_of_getLast? hm
    refine not_precedes_getLast (hnodup.filter _) hm (precedes_filter_iff.mpr ⟨hlist, ?_, ?_⟩)
    · exact (List.mem_filter.mp hm').2
    · exact (List.mem_filter.mp hp).2

/-- The sorted list has a dependency before its package exactly when more walks
end in it, or as many and it stood there before. -/
theorem ResolvedDeps.precedes_iff {width fuel : ℕ} {ps ps' : Packages}
    (h : ResolvedDeps width fuel ps ps') (hnodup : ps.list.Nodup)
    (hzero : ∀ p ∈ ps.list, (ps.node p).numdeps = 0)
    (hsmall : ∀ p ∈ ps.list, totalPaths (resolvedDeps ps) fuel ps.list p < 2 ^ width)
    {p d : PkgId} (hp : p ∈ ps.list) (hd : d ∈ ps.list) :
    Precedes (listSort ps').list d p ↔
      totalPaths (resolvedDeps ps) fuel ps.list p < totalPaths (resolvedDeps ps) fuel ps.list d ∨
      (totalPaths (resolvedDeps ps) fuel ps.list d = totalPaths (resolvedDeps ps) fuel ps.list p ∧
        Precedes ps.list d p) := by
  rw [← h.numdeps_eq (hzero p hp) (hsmall p hp), ← h.numdeps_eq (hzero d hd) (hsmall d hd)]
  rw [← h.list] at hnodup hp hd ⊢
  exact precedes_sortDesc_iff _ hnodup hd hp

/-- The sorted list is in topological order exactly when the virtual packages
that stay behind as dependencies are counted often enough. For every other
dependency the counters see to it. -/
theorem listSort_topologicalOrder_iff (width : ℕ) (ps : Packages) (hnodup : ps.list.Nodup)
    (hclosed : ∀ p ∈ ps.list, ∀ q ∈ (ps.node p).deps, q ∈ ps.list)
    (hzero : ∀ p ∈ ps.list, (ps.node p).numdeps = 0)
    (hacyclic : AcyclicOn (resolvedDeps ps) ps.list)
    (hsmall : ∀ n, ∀ p ∈ ps.list, totalPaths (resolvedDeps ps) n ps.list p < 2 ^ width) :
    (∃ n, ∀ fuel, n ≤ fuel → (resolveDeps width fuel ps).isSome) ∧
    ∀ fuel ps', resolveDeps width fuel ps = some ps' →
      (TopologicalOrder (listSort ps') ↔ ProvidersCountHigher fuel ps) := by
  refine ⟨resolveDeps_of_acyclic width hclosed hacyclic, fun fuel ps' hrun => ?_⟩
  have h := resolveDeps_spec hnodup hrun
  have hmem : ∀ p, p ∈ (listSort ps').list ↔ p ∈ ps.list := fun p => by rw [mem_listSort, h.list]
  have hprec : ∀ p ∈ ps.list, ∀ d ∈ ps.list, Precedes (listSort ps').list d p ↔ _ :=
    fun p hp d hd => h.precedes_iff hnodup hzero (hsmall fuel) hp hd
  constructor
  · intro htop p hp q hq d hprov hne _
    have hd : d ∈ (ps'.node p).deps := (h.mem_deps_iff hp d).mpr ⟨hne, q, hq, hprov⟩
    have hdmem : d ∈ ps.list := hprov.mem hclosed (hclosed p hp q hq)
    exact (hprec p hp d hdmem).mp (htop.deps p ((hmem p).mpr hp) d hd)
  · intro hcount
    have hnodup' : (listSort ps').list.Nodup := nodup_listSort (h.list ▸ hnodup)
    refine topologicalOrder_of_deps hnodup' fun p hp d hd => ?_
    rw [hmem] at hp
    rcases (h.mem_deps_iff hp d).mp hd with ⟨hne, q, hq, hprov⟩
    have hdmem : d ∈ ps.list := hprov.mem hclosed (hclosed p hp q hq)
    rw [hprec p hp d hdmem]
    cases hdprov : provider ps d with
    | none =>
        -- the counter grows along the walk from `p` to `d`
        have hwalk := (hprov.walk hdprov).1 p hq
        exact Or.inl (totalPaths_lt_of_transGen (resolvedDeps_closed hclosed) h.bounded hp hwalk).2
    | some d' => exact hcount p hp q hq d hprov hne (by rw [hdprov]; rfl)

/-- The package `p` depends on `q`, which stands before it, and from there a
chain of providers leads over `h` and `i` to `r`. Two packages depend on `p`. -/
def providerChain : Packages := Packages.ofTable
  [tablePackage true 'q' [4], tablePackage false 'p' [0], tablePackage false 'x' [1],
    tablePackage false 'y' [1], tablePackage true 'h' [5], tablePackage true 'i' [6],
    tablePackage false 'r' []]

theorem providerChain_bounded :
    ∀ p ∈ providerChain.list, Bounded (resolvedDeps providerChain) 4 p := by decide

theorem providerChain_acyclic : AcyclicOn (resolvedDeps providerChain) providerChain.list :=
  fun p hp => (providerChain_bounded p hp).not_cycle

theorem providerChain_small (n : ℕ) : ∀ p ∈ providerChain.list,
    totalPaths (resolvedDeps providerChain) n providerChain.list p < 2 ^ 64 := by
  have hbelow : ∀ n < 5, ∀ p ∈ providerChain.list,
      totalPaths (resolvedDeps providerChain) n providerChain.list p < 2 ^ 64 := by
    decide +kernel
  intro p hp
  by_cases hn : n < 5
  · exact hbelow n hn p hp
  · rw [totalPaths_eq providerChain_bounded (by omega)]
    exact hbelow 4 (by decide) p hp

theorem listSort_topologicalOrder_iff_providerChain :
    (∃ n, ∀ fuel, n ≤ fuel → (resolveDeps 64 fuel providerChain).isSome) ∧
    ∀ fuel ps', resolveDeps 64 fuel providerChain = some ps' →
      (TopologicalOrder (listSort ps') ↔ ProvidersCountHigher fuel providerChain) :=
  listSort_topologicalOrder_iff 64 providerChain (by decide) (by decide) (by decide)
    providerChain_acyclic providerChain_small

/-- The dependency of `p` ends as one on `i`, in which fewer walks end. -/
theorem providerChain_not_sorted :
    ¬ ∀ (ps : Packages) (fuel : ℕ) (ps' : Packages), ps.list.Nodup →
      (∀ p ∈ ps.list, ∀ q ∈ (ps.node p).deps, q ∈ ps.list) →
      (∀ p ∈ ps.list, (ps.node p).numdeps = 0) →
      AcyclicOn (resolvedDeps ps) ps.list →
      (∀ n, ∀ p ∈ ps.list, totalPaths (resolvedDeps ps) n ps.list p < 2 ^ 64) →
      resolveDeps 64 fuel ps = some ps' → TopologicalOrder (listSort ps') := by
  intro h
  have hrun : (resolveDeps 64 4 providerChain).isSome := by decide +kernel
  have hleft : ∀ ps' ∈ resolveDeps 64 4 providerChain,
      1 ∈ (listSort ps').list ∧ 5 ∈ ((listSort ps').node 1).deps ∧
        ¬ Precedes (listSort ps').list 5 1 := by
    decide +kernel
  rcases Option.isSome_iff_exists.mp hrun with ⟨ps', hps'⟩
  rcases hleft ps' hps' with ⟨hmem, hdep, hnot⟩
  have htop := h providerChain 4 ps' (by decide) (by decide) (by decide) providerChain_acyclic
    providerChain_small hps'
  exact hnot (htop.deps 1 hmem 5 hdep)

end Pbs.Deps
