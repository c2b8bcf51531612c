import Mathlib.Data.Nat.ModEq
import Mathlib.Data.List.Forall2
import Pbs.Lib.Walks
import Pbs.Deps.Package

/-!
# Counting and resolving dependencies

`resolve_deps` first counts, by an unguarded recursion, how often a package is
reached from the others, and then replaces every dependency on a virtual package
by the first dependency of that package. The replacement is done in place: a
virtual package that stands earlier in the list has its own first dependency
already replaced. `Provides` describes the outcome on the lists as they were
before.
-/

namespace Pbs.Deps

open Walks Relation

/-! ## The functions of `deps.c` -/

/-- `package_resolve_virtual`: the first dependency of a virtual package. -/
def packageResolveVirtual (ps : Packages) (package : PkgId) : PkgId :=
  if (ps.node package).virtual then
    match (ps.node package).deps with
    | [] => package
    | dep :: _ => dep
  else package

/-- The body of the loop in `count_package_deps`, where `numdeps` is a word of
`width` bits. -/
def countDep (width : ℕ) (count : Packages → PkgId → Option Packages) (ps : Packages)
    (dep : PkgId) : Option Packages :=
  let pkg := packageResolveVirtual ps dep
  (count ps pkg).map fun ps =>
    ps.modify pkg fun node => { node with numdeps := (node.numdeps + 1) % 2 ^ width }

/-- `count_package_deps`, with a bound on the depth of the recursion. -/
def countPackageDeps (width : ℕ) : ℕ → Packages → PkgId → Option Packages
  | 0, _, _ => none
  | fuel + 1, ps, package =>
      (ps.node package).deps.foldlM (countDep width (countPackageDeps width fuel)) ps

/-- The inner loop of `resolve_deps`: `done` is the part of the dependencies of
`package` that is rewritten, the second list the part still to come. Both are in
the heap while a dependency is resolved. -/
def resolvePackageDeps (package : PkgId) : Packages → List PkgId → List PkgId → Packages
  | ps, done, [] => ps.modify package fun node => { node with deps := done }
  | ps, done, dep :: rest =>
      let ps := ps.modify package fun node => { node with deps := done ++ dep :: rest }
      let pkg := packageResolveVirtual ps dep
      if pkg = package then resolvePackageDeps package ps done rest
      else resolvePackageDeps package ps (done ++ [pkg]) rest

/-- `resolve_deps`. -/
def resolveDeps (width fuel : ℕ) (ps : Packages) : Option Packages :=
  (ps.list.foldlM (countPackageDeps width fuel) ps).map fun ps =>
    ps.list.foldl (fun ps package =>
      resolvePackageDeps package ps [] (ps.node package).deps) ps

/-! ## The graph that is counted -/

/-- The package that `package_resolve_virtual` puts in place of a virtual
package, if there is one. -/
def provider (ps : Packages) (q : PkgId) : Option PkgId :=
  if (ps.node q).virtual then (ps.node q).deps.head? else none

theorem packageResolveVirtual_eq (ps : Packages) (q : PkgId) :
    packageResolveVirtual ps q = (provider ps q).getD q := by
  unfold packageResolveVirtual provider
  cases (ps.node q).virtual with
  | false => rfl
  | true => cases (ps.node q).deps <;> rfl

/-- The packages that `count_package_deps` visits from a package. -/
def resolvedDeps (ps : Packages) (p : PkgId) : List PkgId :=
  (ps.node p).deps.map (packageResolveVirtual ps)

theorem provider_eq_some {ps : Packages} {q h : PkgId} (hq : provider ps q = some h) :
    (ps.node q).virtual ∧ ∃ tail, (ps.node q).deps = h :: tail := by
  unfold provider at hq
  split at hq
  · exact ⟨‹_›, List.head?_eq_some_iff.mp hq⟩
  · cases hq

theorem provider_eq_none {ps : Packages} {q : PkgId} :
    provider ps q = none ↔ ((ps.node q).virtual → (ps.node q).deps = []) := by
  unfold provider
  split <;> simp [*]

/-- Two provider steps are one edge of the graph, since the dependency in the
middle is resolved. -/
theorem resolvedDeps_of_two_providers {ps : Packages} {a b c : PkgId}
    (hab : provider ps a = some b) (hbc : provider ps b = some c) :
    Edge (resolvedDeps ps) a c := by
  rcases (provider_eq_some hab).2 with ⟨tail, htail⟩
  refine List.mem_map.mpr ⟨b, by simp [htail], ?_⟩
  rw [packageResolveVirtual_eq, hbc, Option.getD_some]

/-- An edge of the graph is one or two dependencies. -/
theorem transGen_deps_of_resolvedDeps {ps : Packages} {a b : PkgId}
    (h : Edge (resolvedDeps ps) a b) : TransGen (Edge fun p => (ps.node p).deps) a b := by
  rcases List.mem_map.mp h with ⟨d, hd, rfl⟩
  rw [packageResolveVirtual_eq]
  cases hprov : provider ps d with
  | none => exact TransGen.single hd
  | some prov =>
      rcases (provider_eq_some hprov).2 with ⟨tail, htail⟩
      have hprov' : prov ∈ (ps.node d).deps := by simp [htail]
      exact TransGen.tail (TransGen.single hd) hprov'

theorem resolvedDeps_closed {ps : Packages}
    (hclosed : ∀ p ∈ ps.list, ∀ q ∈ (ps.node p).deps, q ∈ ps.list) :
    ∀ p ∈ ps.list, ∀ q ∈ resolvedDeps ps p, q ∈ ps.list :=
  fun _ hp _ hq => mem_of_transGen hclosed hp (transGen_deps_of_resolvedDeps hq)

theorem acyclicOn_resolvedDeps {ps : Packages}
    (hacyclic : AcyclicOn (fun p => (ps.node p).deps) ps.list) :
    AcyclicOn (resolvedDeps ps) ps.list :=
  hacyclic.of_edge fun _ _ => transGen_deps_of_resolvedDeps

/-- A package from which the count ends is not its own provider in any number of
steps. -/
theorem not_provider_cycle {ps : Packages} {n : ℕ} {q : PkgId}
    (hb : Bounded (resolvedDeps ps) n q) :
    ¬ TransGen (fun a b => provider ps a = some b) q q :=
  hb.not_cycle_of_two_steps fun _ _ _ => resolvedDeps_of_two_providers

/-! ## Counting -/

/-- The heap `ps'` is `ps` with `f p` added to the counter of every `p`. -/
structure Counted (width : ℕ) (ps ps' : Packages) (f : PkgId → ℕ) : Prop where
  list : ps'.list = ps.list
  node : ∀ p, ps'.node p = { ps.node p with numdeps := (ps'.node p).numdeps }
  numdeps : ∀ p, (ps'.node p).numdeps ≡ (ps.node p).numdeps + f p [MOD 2 ^ width]
  small : ∀ p, (ps.node p).numdeps < 2 ^ width → (ps'.node p).numdeps < 2 ^ width

variable {width : ℕ}

theorem Counted.refl (ps : Packages) : Counted width ps ps fun _ => 0 :=
  ⟨rfl, fun _ => rfl, fun _ => Nat.ModEq.refl _, fun _ h => h⟩

theorem Counted.trans {ps ps' ps'' : Packages} {f g : PkgId → ℕ} (h : Counted width ps ps' f)
    (h' : Counted width ps' ps'' g) : Counted width ps ps'' fun p => f p + g p where
  list := h'.list.trans h.list
  node p := by rw [h'.node p, h.node p]
  numdeps p := by
    rw [← Nat.add_assoc]
    exact (h'.numdeps p).trans ((h.numdeps p).add_right _)
  small p hp := h'.small p (h.small p hp)

theorem Counted.virtual {ps ps' : Packages} {f : PkgId → ℕ} (h : Counted width ps ps' f)
    (p : PkgId) : (ps'.node p).virtual = (ps.node p).virtual := by
  rw [h.node p]

theorem Counted.deps {ps ps' : Packages} {f : PkgId → ℕ} (h : Counted width ps ps' f)
    (p : PkgId) : (ps'.node p).deps = (ps.node p).deps := by
  rw [h.node p]

theorem Counted.provider {ps ps' : Packages} {f : PkgId → ℕ} (h : Counted width ps ps' f) :
    provider ps' = provider ps := by
  funext q
  simp only [Deps.provider, h.virtual, h.deps]

theorem Counted.resolve {ps ps' : Packages} {f : PkgId → ℕ} (h : Counted width ps ps' f) :
    packageResolveVirtual ps' = packageResolveVirtual ps := by
  funext q
  rw [packageResolveVirtual_eq, packageResolveVirtual_eq, h.provider]

theorem Counted.resolvedDeps {ps ps' : Packages} {f : PkgId → ℕ} (h : Counted width ps ps' f) :
    resolvedDeps ps' = resolvedDeps ps := by
  funext q
  simp only [Deps.resolvedDeps, h.resolve, h.deps]

/-- Adding one to the counter of `pkg`. -/
theorem Counted.increment (ps : Packages) (pkg : PkgId) :
    Counted width ps
      (ps.modify pkg fun node => { node with numdeps := (node.numdeps + 1) % 2 ^ width })
      fun t => if pkg = t then 1 else 0 where
  list := rfl
  node p := by
    by_cases hp : p = pkg
    · subst hp
      simp
    · rw [Packages.modify_node_ne ps _ hp]
  numdeps p := by
    by_cases hp : p = pkg
    · subst hp
      simpa using Nat.mod_modEq _ _
    · rw [Packages.modify_node_ne ps _ hp, if_neg (Ne.symm hp), Nat.add_zero]
  small p hlt := by
    by_cases hp : p = pkg
    · subst hp
      simpa using Nat.mod_lt _ (Nat.two_pow_pos width)
    · rwa [Packages.modify_node_ne ps _ hp]

/-- What a recursion with `fuel` levels does, started anywhere: it ends exactly
when the walks are bounded, and adds the number of walks. -/
def Counts (width fuel : ℕ) (count : Packages → PkgId → Option Packages) : Prop :=
  ∀ ps p, (Bounded (resolvedDeps ps) fuel p →
      ∃ ps', count ps p = some ps' ∧ Counted width ps ps' (paths (resolvedDeps ps) fuel p)) ∧
    ((count ps p).isSome → Bounded (resolvedDeps ps) fuel p)

/-- The loop of `count_package_deps` adds what its iterations add. -/
theorem foldlM_countDep {fuel : ℕ} {count : Packages → PkgId → Option Packages}
    (hcount : Counts width fuel count) (deps : List PkgId) (ps : Packages)
    (hb : ∀ d ∈ deps, Bounded (resolvedDeps ps) fuel (packageResolveVirtual ps d)) :
    ∃ ps', deps.foldlM (countDep width count) ps = some ps' ∧
      Counted width ps ps' fun t => ((deps.map (packageResolveVirtual ps)).map fun b =>
        (if b = t then 1 else 0) + paths (resolvedDeps ps) fuel b t).sum := by
  induction deps generalizing ps with
  | nil => exact ⟨ps, rfl, Counted.refl ps⟩
  | cons d deps ih =>
      let pkg := packageResolveVirtual ps d
      rcases (hcount ps pkg).1 (hb d (List.mem_cons_self ..)) with ⟨ps₁, hps₁, h₁⟩
      have h₂ := h₁.trans (Counted.increment ps₁ pkg)
      -- counting leaves the graph alone, so the bounds of the rest still hold
      rcases ih _ (fun e he => by
        rw [h₂.resolvedDeps, h₂.resolve]
        exact hb e (List.mem_cons_of_mem d he)) with ⟨ps₃, hps₃, h₃⟩
      refine ⟨ps₃, ?_, ?_⟩
      · rw [List.foldlM_cons, countDep, hps₁]
        exact hps₃
      · have hsum := h₂.trans h₃
        rw [h₂.resolvedDeps, h₂.resolve] at hsum
        refine ⟨hsum.list, hsum.node, fun p => ?_, hsum.small⟩
        have hp := hsum.numdeps p
        simp only [List.map_cons, List.sum_cons]
        rwa [Nat.add_comm (if pkg = p then 1 else 0)]

/-- A loop that ends has ended in each of its iterations. -/
theorem bounded_of_foldlM_countDep {fuel : ℕ} {count : Packages → PkgId → Option Packages}
    (hcount : Counts width fuel count) (deps : List PkgId) (ps : Packages)
    (h : (deps.foldlM (countDep width count) ps).isSome) :
    ∀ d ∈ deps, Bounded (resolvedDeps ps) fuel (packageResolveVirtual ps d) := by
  induction deps generalizing ps with
  | nil => simp
  | cons d deps ih =>
      let pkg := packageResolveVirtual ps d
      cases hpkg : count ps pkg with
      | none =>
          have hnone : (d :: deps).foldlM (countDep width count) ps = none := by
            rw [List.foldlM_cons, countDep, hpkg]
            rfl
          simp [hnone] at h
      | some ps₁ =>
          have hd : Bounded (resolvedDeps ps) fuel pkg := (hcount ps pkg).2 (by simp [hpkg])
          rcases (hcount ps pkg).1 hd with ⟨ps₁', hps₁', h₁⟩
          have heq : ps₁' = ps₁ := Option.some.inj (hps₁'.symm.trans hpkg)
          subst heq
          -- the rest of the loop ran on the counted heap, which has the same graph
          have h₂ := h₁.trans (Counted.increment ps₁' pkg)
          rw [List.foldlM_cons, countDep, hpkg] at h
          have hrest := ih _ h
          rw [h₂.resolvedDeps, h₂.resolve] at hrest
          intro e he
          rcases List.mem_cons.mp he with rfl | he
          · exact hd
          · exact hrest e he

theorem countPackageDeps_counts (width fuel : ℕ) :
    Counts width fuel (countPackageDeps width fuel) := by
  induction fuel with
  | zero => exact fun _ _ => ⟨fun h => h.elim, fun h => by simp [countPackageDeps] at h⟩
  | succ fuel ih =>
      intro ps p
      constructor
      · intro hb
        have hb' : ∀ d ∈ (ps.node p).deps,
            Bounded (resolvedDeps ps) fuel (packageResolveVirtual ps d) :=
          fun d hd => hb _ (List.mem_map.mpr ⟨d, hd, rfl⟩)
        exact foldlM_countDep ih _ ps hb'
      · intro h b hb
        rcases List.mem_map.mp hb with ⟨d, hd, rfl⟩
        exact bounded_of_foldlM_countDep ih _ ps h d hd

/-- The first loop of `resolve_deps`. -/
theorem foldlM_countPackageDeps {fuel : ℕ} (list : List PkgId) (ps : Packages) :
    ((∀ p ∈ list, Bounded (resolvedDeps ps) fuel p) →
      ∃ ps', list.foldlM (countPackageDeps width fuel) ps = some ps' ∧
        Counted width ps ps' (totalPaths (resolvedDeps ps) fuel list)) ∧
    ((list.foldlM (countPackageDeps width fuel) ps).isSome →
      ∀ p ∈ list, Bounded (resolvedDeps ps) fuel p) := by
  induction list generalizing ps with
  | nil => exact ⟨fun _ => ⟨ps, rfl, Counted.refl ps⟩, by simp⟩
  | cons p list ih =>
      have hp := countPackageDeps_counts width fuel ps p
      constructor
      · intro hb
        rcases hp.1 (hb p (List.mem_cons_self ..)) with ⟨ps₁, hps₁, h₁⟩
        have hrest := (ih ps₁).1
        -- counting changes no dependency, so the rest is counted in the same graph
        rw [h₁.resolvedDeps] at hrest
        rcases hrest fun q hq => hb q (List.mem_cons_of_mem p hq) with ⟨ps₂, hps₂, h₂⟩
        refine ⟨ps₂, ?_, ?_⟩
        · rw [List.foldlM_cons, hps₁]
          exact hps₂
        · have htotal : (fun t => paths (resolvedDeps ps) fuel p t +
              totalPaths (resolvedDeps ps) fuel list t) =
              totalPaths (resolvedDeps ps) fuel (p :: list) :=
            funext fun t => by simp [totalPaths]
          exact htotal ▸ h₁.trans h₂
      · intro h
        cases hcount : countPackageDeps width fuel ps p with
        | none => simp [hcount] at h
        | some ps₁ =>
            have hb := hp.2 (by simp [hcount])
            rcases hp.1 hb with ⟨ps₁', hps₁', h₁⟩
            have heq : ps₁' = ps₁ := Option.some.inj (hps₁'.symm.trans hcount)
            subst heq
            rw [List.foldlM_cons, hcount] at h
            have hrest := (ih ps₁').2 h
            rw [h₁.resolvedDeps] at hrest
            intro q hq
            rcases List.mem_cons.mp hq with rfl | hq
            · exact hb
            · exact hrest q hq

/-! ## Resolving -/

/-- The package that takes the place of `q` in the dependencies of `p`. A
package without a provider stays. A virtual package that stands after `p` in the
list is replaced by its provider; one that does not has had its own provider
replaced before, or is `p` itself. -/
inductive Provides (ps : Packages) : PkgId → PkgId → PkgId → Prop
  | here {p q} : provider ps q = none → Provides ps p q q
  | first {p q h} : provider ps q = some h → ps.list.idxOf p < ps.list.idxOf q →
      Provides ps p q h
  | chain {p q h t} : provider ps q = some h → ps.list.idxOf q ≤ ps.list.idxOf p →
      Provides ps q h t → Provides ps p q t

theorem Provides.providers {ps : Packages} {p q t : PkgId} (h : Provides ps p q t) :
    ReflTransGen (fun a b => provider ps a = some b) q t := by
  induction h with
  | here _ => exact ReflTransGen.refl
  | first hq _ => exact ReflTransGen.single hq
  | chain hq _ _ ih => exact ReflTransGen.head hq ih

/-- What stands in for the provider of a package is not the package itself. -/
theorem Provides.ne_of_provider {ps : Packages} {n : ℕ} {p q h t : PkgId}
    (hb : Bounded (resolvedDeps ps) n q) (hq : provider ps q = some h)
    (ht : Provides ps p h t) : t ≠ q := by
  rintro rfl
  exact not_provider_cycle hb (TransGen.head' hq ht.providers)

theorem Provides.mem {ps : Packages}
    (hclosed : ∀ p ∈ ps.list, ∀ q ∈ (ps.node p).deps, q ∈ ps.list) {p q t : PkgId}
    (h : Provides ps p q t) (hq : q ∈ ps.list) : t ∈ ps.list := by
  have hstep : ∀ {a b}, a ∈ ps.list → provider ps a = some b → b ∈ ps.list := by
    intro a b ha hab
    rcases (provider_eq_some hab).2 with ⟨tail, htail⟩
    exact hclosed a ha b (by simp [htail])
  induction h with
  | here _ => exact hq
  | first hprov _ => exact hstep hq hprov
  | chain hprov _ _ ih => exact ih (hstep hq hprov)

theorem Provides.unique {ps : Packages} {p q t t' : PkgId} (h : Provides ps p q t)
    (h' : Provides ps p q t') : t = t' := by
  induction h with
  | here hq =>
      cases h' with
      | here _ => rfl
      | first hq' _ => simp [hq] at hq'
      | chain hq' _ _ => simp [hq] at hq'
  | first hq hlt =>
      cases h' with
      | here hq' => simp [hq] at hq'
      | first hq' _ => exact Option.some.inj (hq.symm.trans hq')
      | chain _ hle _ => exact absurd hlt (Nat.not_lt.mpr hle)
  | chain hq hle _ ih =>
      cases h' with
      | here hq' => simp [hq] at hq'
      | first _ hlt => exact absurd hlt (Nat.not_lt.mpr hle)
      | chain hq' _ h' =>
          cases Option.some.inj (hq.symm.trans hq')
          exact ih h'

/-- The heap `ps'` in the middle of the second loop of `resolve_deps`, started
on `ps`: the packages in `done` are finished, the others as they were. -/
structure Resolving (ps ps' : Packages) (done : List PkgId) : Prop where
  list : ps'.list = ps.list
  todo : ∀ q, q ∉ done → ps'.node q = ps.node q
  resolved : ∀ q ∈ done, ∃ ys, List.Forall₂ (Provides ps q) (ps.node q).deps ys ∧
    ps'.node q = { ps.node q with deps := ys.filter (· ≠ q) }

/-- The heap `ps'` in the middle of the loop over the dependencies of `p`. -/
structure Rewriting (ps ps' : Packages) (done : List PkgId) (p : PkgId) : Prop where
  list : ps'.list = ps.list
  todo : ∀ q, q ∉ done → q ≠ p → ps'.node q = ps.node q
  resolved : ∀ q ∈ done, ∃ ys, List.Forall₂ (Provides ps q) (ps.node q).deps ys ∧
    ps'.node q = { ps.node q with deps := ys.filter (· ≠ q) }
  node : ps'.node p = { ps.node p with deps := (ps'.node p).deps }

theorem Resolving.rewriting {ps ps' : Packages} {done : List PkgId} {p : PkgId}
    (h : Resolving ps ps' done) (hp : p ∉ done) : Rewriting ps ps' done p where
  list := h.list
  todo q hq _ := h.todo q hq
  resolved := h.resolved
  node := by rw [h.todo p hp]

/-- Only the dependencies of `p` change. -/
theorem Rewriting.modify {ps ps' : Packages} {done : List PkgId} {p : PkgId}
    (h : Rewriting ps ps' done p) (hp : p ∉ done) (deps : List PkgId) :
    Rewriting ps (ps'.modify p fun node => { node with deps := deps }) done p where
  list := h.list
  todo q hq hne := by
    rw [Packages.modify_node_ne ps' _ hne]
    exact h.todo q hq hne
  resolved q hq := by
    have hne : q ≠ p := fun heq => hp (heq ▸ hq)
    rw [Packages.modify_node_ne ps' _ hne]
    exact h.resolved q hq
  node := by
    rw [Packages.modify_node_self, h.node]

theorem Rewriting.finish {ps ps' : Packages} {done ys : List PkgId} {p : PkgId}
    (h : Rewriting ps ps' done p) (hp : p ∉ done)
    (hys : List.Forall₂ (Provides ps p) (ps.node p).deps ys) :
    Resolving ps (ps'.modify p fun node => { node with deps := ys.filter (· ≠ p) })
      (done ++ [p]) where
  list := h.list
  todo q hq := by
    simp only [List.mem_append, List.mem_singleton, not_or] at hq
    exact (h.modify hp _).todo q hq.1 hq.2
  resolved q hq := by
    rcases List.mem_append.mp hq with hq | hq
    · exact (h.modify hp _).resolved q hq
    · rw [List.mem_singleton.mp hq, Packages.modify_node_self, h.node]
      exact ⟨ys, hys, rfl⟩

/-- A rewritten list of dependencies starts with what stands in for the
provider, since that is never the package itself. -/
theorem head_of_rewritten {ps : Packages} {n : ℕ} {q h : PkgId} {seen ys : List PkgId}
    (hb : Bounded (resolvedDeps ps) n q) (hq : provider ps q = some h)
    (hys : List.Forall₂ (Provides ps q) (h :: seen) ys) (rest : List PkgId) :
    ∃ t tail, ys.filter (· ≠ q) ++ rest = t :: tail ∧ Provides ps q h t := by
  cases hys with
  | @cons _ t _ ys ht hys =>
      refine ⟨t, ys.filter (· ≠ q) ++ rest, ?_, ht⟩
      rw [List.filter_cons_of_pos (by simpa using ht.ne_of_provider hb hq), List.cons_append]

theorem packageResolveVirtual_of_head {ps : Packages} {q t : PkgId} {tail : List PkgId}
    (hvirtual : (ps.node q).virtual) (hdeps : (ps.node q).deps = t :: tail) :
    packageResolveVirtual ps q = t := by
  simp [packageResolveVirtual, hvirtual, hdeps]

theorem Rewriting.virtual {ps ps' : Packages} {done : List PkgId} {p : PkgId}
    (h : Rewriting ps ps' done p) (q : PkgId) :
    (ps'.node q).virtual = (ps.node q).virtual := by
  by_cases hq : q ∈ done
  · rcases h.resolved q hq with ⟨ys, _, hnode⟩
    rw [hnode]
  · by_cases hqp : q = p
    · rw [hqp, h.node]
    · rw [h.todo q hq hqp]

theorem not_mem_done {list done post : List PkgId} {p : PkgId} (hnodup : list.Nodup)
    (hlist : list = done ++ p :: post) : p ∉ done := by
  intro hmem
  rw [hlist, List.nodup_append] at hnodup
  exact hnodup.2.2 p hmem p (List.mem_cons_self ..) rfl

/-- Resolving the next dependency `d` of `p` in the half rewritten heap. -/
theorem Rewriting.resolve {ps ps' : Packages} {done post seen ys rest : List PkgId} {p d : PkgId}
    (h : Rewriting ps ps' done p) (hlist : ps.list = done ++ p :: post)
    (hnodup : ps.list.Nodup) (hb : ∀ q ∈ ps.list, ∃ n, Bounded (resolvedDeps ps) n q)
    (hdeps : (ps.node p).deps = seen ++ d :: rest)
    (hys : List.Forall₂ (Provides ps p) seen ys)
    (hp : (ps'.node p).deps = ys.filter (· ≠ p) ++ d :: rest) :
    Provides ps p d (packageResolveVirtual ps' d) := by
  have hpmem := not_mem_done hnodup hlist
  have hidx : ps.list.idxOf p = done.length := by
    rw [hlist, List.idxOf_append_of_notMem hpmem, List.idxOf_cons_self, Nat.add_zero]
  cases hprov : provider ps d with
  | none =>
      -- `d` is not virtual or has no dependency, then and now
      have hnone : provider ps' d = none := by
        rw [provider_eq_none] at hprov ⊢
        intro hvirtual
        rw [h.virtual] at hvirtual
        have hnil := hprov hvirtual
        by_cases hdp : d = p
        · subst hdp
          simp [hdeps] at hnil
        · by_cases hdone : d ∈ done
          · rcases h.resolved d hdone with ⟨ys', hys', hnode⟩
            rw [hnil, List.forall₂_nil_left_iff] at hys'
            simp [hnode, hys']
          · rw [h.todo d hdone hdp, hnil]
      rw [packageResolveVirtual_eq, hnone]
      exact Provides.here hprov
  | some prov =>
      rcases provider_eq_some hprov with ⟨hvirtual, tail, htail⟩
      rw [← h.virtual] at hvirtual
      by_cases hdp : d = p
      · -- the package itself: its own first dependency is rewritten already
        subst hdp
        rcases hb d (by simp [hlist]) with ⟨n, hn⟩
        cases seen with
        | nil =>
            rw [htail, List.nil_append, List.cons.injEq] at hdeps
            exact absurd (hdeps.1 ▸ hprov) fun hself =>
              not_provider_cycle hn (TransGen.single hself)
        | cons s seen =>
            rw [htail, List.cons_append, List.cons.injEq] at hdeps
            rw [← hdeps.1] at hys
            rcases head_of_rewritten hn hprov hys (d :: rest) with ⟨t, _, hhead, ht⟩
            rw [packageResolveVirtual_of_head hvirtual (hp.trans hhead)]
            exact Provides.chain hprov (Nat.le_refl _) ht
      · by_cases hdone : d ∈ done
        · -- a finished package: its first dependency has been replaced
          rcases hb d (by simp [hlist, hdone]) with ⟨n, hn⟩
          rcases h.resolved d hdone with ⟨ys', hys', hnode⟩
          rw [htail] at hys'
          rcases head_of_rewritten hn hprov hys' [] with ⟨t, _, hhead, ht⟩
          rw [List.append_nil] at hhead
          rw [packageResolveVirtual_of_head hvirtual (by rw [hnode]; exact hhead)]
          refine Provides.chain hprov ?_ ht
          rw [hidx, hlist, List.idxOf_append_of_mem hdone]
          exact (List.idxOf_lt_length_of_mem hdone).le
        · -- a package still to come, or not listed at all
          rw [packageResolveVirtual_of_head hvirtual (by rw [h.todo d hdone hdp]; exact htail)]
          refine Provides.first hprov ?_
          rw [hidx, hlist, List.idxOf_append_of_notMem hdone,
            List.idxOf_cons_ne _ (Ne.symm hdp)]
          omega

/-- The loop over the dependencies of one package. -/
theorem resolvePackageDeps_spec {ps ps' : Packages} {done post seen ys rest : List PkgId}
    {p : PkgId} (h : Rewriting ps ps' done p) (hlist : ps.list = done ++ p :: post)
    (hnodup : ps.list.Nodup) (hb : ∀ q ∈ ps.list, ∃ n, Bounded (resolvedDeps ps) n q)
    (hdeps : (ps.node p).deps = seen ++ rest)
    (hys : List.Forall₂ (Provides ps p) seen ys) :
    Resolving ps (resolvePackageDeps p ps' (ys.filter (· ≠ p)) rest) (done ++ [p]) := by
  have hpmem := not_mem_done hnodup hlist
  induction rest generalizing ps' seen ys with
  | nil =>
      rw [List.append_nil] at hdeps
      exact h.finish hpmem (hdeps ▸ hys)
  | cons d rest ih =>
      -- `d` is looked up in the heap that already holds the dependencies kept so far
      have h₁ := h.modify hpmem (ys.filter (· ≠ p) ++ d :: rest)
      have ht := h₁.resolve hlist hnodup hb hdeps hys (by rw [Packages.modify_node_self])
      have hys' := List.rel_append hys (List.Forall₂.cons ht List.Forall₂.nil)
      have hdeps' : (ps.node p).deps = (seen ++ [d]) ++ rest := by
        rw [hdeps, List.append_assoc, List.singleton_append]
      have hrest := ih h₁ hdeps' hys'
      rw [List.filter_append] at hrest
      simp only [resolvePackageDeps]
      split
      · rename_i heq
        rw [List.filter_cons_of_neg (by simpa using heq), List.filter_nil, List.append_nil] at hrest
        exact hrest
      · rename_i hne
        rw [List.filter_cons_of_pos (by simpa using hne), List.filter_nil] at hrest
        exact hrest

/-- The second loop of `resolve_deps`. -/
theorem foldl_resolvePackageDeps {ps ps' : Packages} {done post : List PkgId}
    (h : Resolving ps ps' done) (hlist : ps.list = done ++ post)
    (hnodup : ps.list.Nodup) (hb : ∀ q ∈ ps.list, ∃ n, Bounded (resolvedDeps ps) n q) :
    Resolving ps (post.foldl (fun ps package =>
      resolvePackageDeps package ps [] (ps.node package).deps) ps') ps.list := by
  induction post generalizing ps' done with
  | nil =>
      rw [List.append_nil] at hlist
      exact hlist ▸ h
  | cons p post ih =>
      have hp := not_mem_done hnodup hlist
      -- nothing of `p` has been rewritten yet
      have hdeps : (ps.node p).deps = [] ++ (ps.node p).deps := rfl
      have hstep := resolvePackageDeps_spec (h.rewriting hp) hlist hnodup hb hdeps
        List.Forall₂.nil
      have hlist' : ps.list = (done ++ [p]) ++ post := by
        rw [hlist, List.append_assoc, List.singleton_append]
      rw [List.foldl_cons, h.todo p hp]
      exact ih hstep hlist'

/-! ## What `resolve_deps` leaves -/

/-- What stands in for a package depends on the order of the list and on the
providers only. -/
theorem Provides.congr {ps ps' : Packages} (hlist : ps'.list = ps.list)
    (hprovider : provider ps' = provider ps) {p q t : PkgId} (h : Provides ps' p q t) :
    Provides ps p q t := by
  induction h with
  | here hq => exact Provides.here (hprovider ▸ hq)
  | first hq hlt => exact Provides.first (hprovider ▸ hq) (hlist ▸ hlt)
  | chain hq hle _ ih => exact Provides.chain (hprovider ▸ hq) (hlist ▸ hle) ih

/-- The result of `resolve_deps`: the walks it counted are bounded, every
counter has grown by the number of walks that end in its package, and every
dependency is replaced by what stands in for it, or dropped when that is the
package itself. -/
structure ResolvedDeps (width fuel : ℕ) (ps ps' : Packages) : Prop where
  list : ps'.list = ps.list
  bounded : ∀ p ∈ ps.list, Bounded (resolvedDeps ps) fuel p
  node : ∀ p, ps'.node p =
    { ps.node p with deps := (ps'.node p).deps, numdeps := (ps'.node p).numdeps }
  deps : ∀ p ∈ ps.list, ∃ ys, List.Forall₂ (Provides ps p) (ps.node p).deps ys ∧
    (ps'.node p).deps = ys.filter (· ≠ p)
  numdeps : ∀ p, (ps'.node p).numdeps ≡
    (ps.node p).numdeps + totalPaths (resolvedDeps ps) fuel ps.list p [MOD 2 ^ width]
  small : ∀ p, (ps.node p).numdeps < 2 ^ width → (ps'.node p).numdeps < 2 ^ width

theorem Resolving.node {ps ps' : Packages} {done : List PkgId} (h : Resolving ps ps' done)
    (p : PkgId) : ps'.node p = { ps.node p with deps := (ps'.node p).deps } := by
  by_cases hp : p ∈ done
  · rcases h.resolved p hp with ⟨ys, _, hnode⟩
    rw [hnode]
  · rw [h.todo p hp]

/-- `resolve_deps` comes to an end exactly when the walks from every listed
package are bounded by the depth of the recursion. -/
theorem resolveDeps_isSome_iff (width fuel : ℕ) (ps : Packages) :
    (resolveDeps width fuel ps).isSome ↔ ∀ p ∈ ps.list, Bounded (resolvedDeps ps) fuel p := by
  have hcount := @foldlM_countPackageDeps width fuel ps.list ps
  rw [resolveDeps, Option.isSome_map]
  constructor
  · exact hcount.2
  · intro hb
    rcases hcount.1 hb with ⟨ps', hps', _⟩
    rw [hps']
    rfl

/-- An acyclic graph is resolved. -/
theorem resolveDeps_of_acyclic (width : ℕ) {ps : Packages}
    (hclosed : ∀ p ∈ ps.list, ∀ q ∈ (ps.node p).deps, q ∈ ps.list)
    (hacyclic : AcyclicOn (resolvedDeps ps) ps.list) :
    ∃ n, ∀ fuel, n ≤ fuel → (resolveDeps width fuel ps).isSome := by
  rcases bounded_of_acyclic (resolvedDeps_closed hclosed) hacyclic with ⟨n, hn⟩
  refine ⟨n, fun fuel hle => ?_⟩
  rw [resolveDeps_isSome_iff]
  exact fun p hp => (hn p hp).succ_of_le hle

theorem resolveDeps_spec {fuel : ℕ} {ps ps' : Packages} (hnodup : ps.list.Nodup)
    (h : resolveDeps width fuel ps = some ps') : ResolvedDeps width fuel ps ps' := by
  have hb := (resolveDeps_isSome_iff width fuel ps).mp (by rw [h]; rfl)
  rcases (foldlM_countPackageDeps ps.list ps).1 hb with ⟨ps₁, hps₁, h₁⟩
  rw [resolveDeps, hps₁, Option.map_some, Option.some.injEq] at h
  -- the second loop starts on the counted heap, which has the same providers
  have hb₁ : ∀ q ∈ ps₁.list, ∃ n, Bounded (resolvedDeps ps₁) n q := by
    intro q hq
    rw [h₁.resolvedDeps]
    exact ⟨fuel, hb q (h₁.list ▸ hq)⟩
  have hstart : Resolving ps₁ ps₁ [] := ⟨rfl, fun _ _ => rfl, fun q hq => by simp at hq⟩
  have h₂ := foldl_resolvePackageDeps hstart (List.nil_append _).symm
    (h₁.list ▸ hnodup) hb₁
  rw [h] at h₂
  exact {
    list := h₂.list.trans h₁.list
    bounded := hb
    node := fun p => by rw [h₂.node p, h₁.node p]
    deps := fun p hp => by
      rcases h₂.resolved p (h₁.list ▸ hp) with ⟨ys, hys, hnode⟩
      rw [h₁.deps] at hys
      exact ⟨ys, hys.imp fun _ _ => Provides.congr h₁.list h₁.provider, by rw [hnode]⟩
    numdeps := fun p => by
      rw [h₂.node p]
      exact h₁.numdeps p
    small := fun p hp => by
      rw [h₂.node p]
      exact h₁.small p hp }

theorem exists_of_forall₂ {α β : Type*} {R : α → β → Prop} {l : List α} {u : List β}
    (h : List.Forall₂ R l u) :
    (∀ a ∈ l, ∃ b ∈ u, R a b) ∧ ∀ b ∈ u, ∃ a ∈ l, R a b := by
  induction h with
  | nil => simp
  | @cons a b l u hab _ ih =>
      constructor
      · intro x hx
        rcases List.mem_cons.mp hx with rfl | hx
        · exact ⟨b, List.mem_cons_self .., hab⟩
        · rcases ih.1 x hx with ⟨y, hy, hxy⟩
          exact ⟨y, List.mem_cons_of_mem b hy, hxy⟩
      · intro y hy
        rcases List.mem_cons.mp hy with rfl | hy
        · exact ⟨a, List.mem_cons_self .., hab⟩
        · rcases ih.2 y hy with ⟨x, hx, hxy⟩
          exact ⟨x, List.mem_cons_of_mem a hx, hxy⟩

/-- Something stands in for every dependency of a listed package. -/
theorem ResolvedDeps.provides {fuel : ℕ} {ps ps' : Packages}
    (h : ResolvedDeps width fuel ps ps') {p : PkgId} (hp : p ∈ ps.list) :
    ∀ q ∈ (ps.node p).deps, ∃ t, Provides ps p q t := by
  intro q hq
  rcases h.deps p hp with ⟨ys, hys, _⟩
  rcases (exists_of_forall₂ hys).1 q hq with ⟨t, _, ht⟩
  exact ⟨t, ht⟩

/-- The dependencies left are what stands in for the old ones, the package
itself excepted. -/
theorem ResolvedDeps.mem_deps_iff {fuel : ℕ} {ps ps' : Packages}
    (h : ResolvedDeps width fuel ps ps') {p : PkgId} (hp : p ∈ ps.list) (d : PkgId) :
    d ∈ (ps'.node p).deps ↔ d ≠ p ∧ ∃ q ∈ (ps.node p).deps, Provides ps p q d := by
  rcases h.deps p hp with ⟨ys, hys, hdeps⟩
  rw [hdeps, List.mem_filter, decide_eq_true_eq]
  constructor
  · rintro ⟨hd, hne⟩
    exact ⟨hne, (exists_of_forall₂ hys).2 d hd⟩
  · rintro ⟨hne, q, hq, hprov⟩
    rcases (exists_of_forall₂ hys).1 q hq with ⟨t, ht, hprov'⟩
    rw [hprov.unique hprov']
    exact ⟨ht, hprov.unique hprov' ▸ hne⟩

end Pbs.Deps
