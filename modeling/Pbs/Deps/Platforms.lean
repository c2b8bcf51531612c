import Pbs.Deps.Order

/-!
# Platforms with a child

A platform is left out of the files when another platform refines it, as
`PLATFORM_GENERIC_NOSY` refines `PLATFORM_GENERIC`. `symbol_is_parent` decides
this by the names, and takes every longer name with the same beginning for a
child.
-/

namespace Pbs.Deps

open Kconfig

/-! ## Names -/

/-- `other` is `name` with something added. -/
def Extends (name other : Text) : Prop := ∃ suffix, suffix ≠ [] ∧ other = name ++ suffix

/-- `other` lies below `name` in the hierarchy of names. -/
def Below (name other : Text) : Prop := ∃ suffix, suffix ≠ [] ∧ other = name ++ '_' :: suffix

theorem Below.extends {name other : Text} (h : Below name other) : Extends name other := by
  rcases h with ⟨suffix, _, rfl⟩
  exact ⟨'_' :: suffix, by simp, rfl⟩

theorem extends_iff (name other : Text) :
    (name.isPrefixOf other && decide (name.length < other.length)) = true ↔
      Extends name other := by
  rw [Bool.and_eq_true, List.isPrefixOf_iff_prefix, decide_eq_true_eq]
  constructor
  · rintro ⟨⟨suffix, rfl⟩, hlt⟩
    refine ⟨suffix, ?_, rfl⟩
    rintro rfl
    simp at hlt
  · rintro ⟨suffix, hne, rfl⟩
    refine ⟨List.prefix_append name suffix, ?_⟩
    have hpos := List.length_pos_iff.mpr hne
    rw [List.length_append]
    omega

/-- Another listed platform has a name that is related to the name of `p`. -/
def HasPlatform (cf : Conf) (ps : Packages) (related : Text → Text → Prop) (p : PkgId) : Prop :=
  ∃ q ∈ ps.list, q ≠ p ∧ (ps.node q).platform ∧
    ∃ name other, (cf.sym (ps.node p).symbol).name = some name ∧
      (cf.sym (ps.node q).symbol).name = some other ∧ related name other

theorem symbolIsParent_iff (cf : Conf) (ps : Packages) (symbol : SymId) :
    symbolIsParent cf ps symbol ↔ ∃ q ∈ ps.list, ∃ name other, (cf.sym symbol).name = some name ∧
      (cf.sym (ps.node q).symbol).name = some other ∧ Extends name other := by
  unfold symbolIsParent
  cases hname : (cf.sym symbol).name with
  | none => simp
  | some name =>
      simp only [List.any_eq_true, Option.some.injEq]
      refine exists_congr fun q => and_congr_right fun _ => ?_
      cases hother : (cf.sym (ps.node q).symbol).name with
      | none => simp
      | some other => simp [← extends_iff]

/-- What extends the name of a platform is the name of a platform. -/
theorem nameStarts_of_extends {name other start : Text} (hname : nameStarts start (some name))
    (h : Extends name other) : nameStarts start (some other) := by
  rcases h with ⟨suffix, _, rfl⟩
  unfold nameStarts at hname ⊢
  rw [List.isPrefixOf_iff_prefix] at hname ⊢
  exact hname.trans (List.prefix_append name suffix)

/-! ## The three outputs -/

/-- The packages of the list are as `package_create` makes them. -/
def NewPackages (cf : Conf) (ps : Packages) : Prop :=
  ∀ p ∈ ps.list, ps.node p = packageCreate cf (ps.node p).symbol (ps.node p).path

/-- The file `depends.mk`, `depends-dirs` and `depends-platforms`, written from
`ps'`, each leave out exactly the platforms of the list `ps` below which another
listed platform lies. -/
def LeavesOutParents (cf : Conf) (ps ps' : Packages) : Prop :=
  ∀ p ∈ ps.list, (ps.node p).platform →
    (ps'.node p ∉ emittedPackages ps' ↔ HasPlatform cf ps Below p) ∧
    (p ∉ dependsDirs (listSort ps') ↔ HasPlatform cf ps Below p) ∧
    (p ∉ dependsPlatforms (listSort ps') ↔ HasPlatform cf ps Below p)

/-- Where the name of a platform has an extension, it has one that lies below
it. -/
def ExtensionsLieBelow (cf : Conf) (ps : Packages) : Prop :=
  ∀ p ∈ ps.list, (ps.node p).platform → HasPlatform cf ps Extends p → HasPlatform cf ps Below p

theorem HasPlatform.extends {cf : Conf} {ps : Packages} {p : PkgId}
    (h : HasPlatform cf ps Below p) : HasPlatform cf ps Extends p := by
  rcases h with ⟨q, hq, hne, hplat, name, other, hname, hother, hbelow⟩
  exact ⟨q, hq, hne, hplat, name, other, hname, hother, hbelow.extends⟩

/-- For a platform, the packages that `symbol_is_parent` looks for are other
platforms. -/
theorem symbolIsParent_platform_iff {cf : Conf} {ps : Packages} (hnew : NewPackages cf ps)
    {p : PkgId} (hp : p ∈ ps.list) (hplat : (ps.node p).platform) :
    symbolIsParent cf ps (ps.node p).symbol ↔ HasPlatform cf ps Extends p := by
  rw [symbolIsParent_iff]
  constructor
  · rintro ⟨q, hq, name, other, hname, hother, hext⟩
    refine ⟨q, hq, ?_, ?_, name, other, hname, hother, hext⟩
    · rintro rfl
      -- no name extends itself
      rcases hext with ⟨suffix, hne, heq⟩
      rw [Option.some.inj (hname.symm.trans hother)] at heq
      exact hne (List.append_cancel_left (heq.symm.trans (List.append_nil other).symm))
    · have hstart : nameStarts platformPrefix (some name) := by
        rw [hnew p hp, packageCreate, hname] at hplat
        exact hplat
      rw [hnew q hq, packageCreate, hother]
      exact nameStarts_of_extends hstart hext
  · rintro ⟨q, hq, _, _, hrelated⟩
    exact ⟨q, hq, hrelated⟩

/-- A platform is no virtual package. -/
theorem not_virtual_of_platform {cf : Conf} {ps : Packages} (hnew : NewPackages cf ps)
    {p : PkgId} (hp : p ∈ ps.list) (hplat : (ps.node p).platform) :
    (ps.node p).virtual = false := by
  rw [hnew p hp, packageCreate] at hplat ⊢
  cases hname : (cf.sym (ps.node p).symbol).name with
  | none => rfl
  | some name =>
      simp only [hname, nameStarts, List.isPrefixOf_iff_prefix] at hplat ⊢
      rcases hplat with ⟨rest, rfl⟩
      rfl

/-- What the passes over the list do with a platform depends on the flag that
`build_deps` sets. -/
theorem leftOut_iff {ps : Packages} {p : PkgId} (hp : p ∈ ps.list)
    (hplat : (ps.node p).platform) (hvirtual : (ps.node p).virtual = false) :
    (ps.node p ∉ emittedPackages ps ↔ (ps.node p).parent) ∧
    (p ∉ dependsDirs (listSort ps) ↔ (ps.node p).parent) ∧
    (p ∉ dependsPlatforms (listSort ps) ↔ (ps.node p).parent) := by
  have hmem : ps.node p ∈ ps.list.map ps.node := List.mem_map.mpr ⟨p, hp, rfl⟩
  have hplatforms : p ∉ dependsPlatforms (listSort ps) ↔ (ps.node p).parent := by
    have hsort : (listSort ps).node p = ps.node p := rfl
    rw [mem_dependsPlatforms, mem_listSort, hsort]
    simp [hp, hplat, platformHasChild]
  refine ⟨?_, ?_, hplatforms⟩
  · unfold emittedPackages
    rw [List.mem_filter]
    simp [hmem, emitted, hvirtual, platformHasChild, hplat]
  · -- a platform is not printed in the first pass
    have hordinary : p ∉ ordinaryPackages (listSort ps) :=
      fun h => (mem_ordinaryPackages.mp h).2.2 hplat
    unfold dependsDirs
    rw [List.mem_append, not_or]
    exact ⟨fun h => hplatforms.mp h.2, fun h => ⟨hordinary, hplatforms.mpr h⟩⟩

/-- The platforms left out are the ones with a platform below them exactly when
no platform is extended by others only. -/
theorem leavesOutParents_iff {cf : Conf} {stable : Option SymId} {width fuel : ℕ}
    {ps ps₁ ps₂ : Packages} (hnew : NewPackages cf ps) (hnodup : ps.list.Nodup)
    (hbuild : buildDeps cf stable ps = some ps₁)
    (hresolve : resolveDeps width fuel ps₁ = some ps₂) :
    LeavesOutParents cf ps ps₂ ↔ ExtensionsLieBelow cf ps := by
  have hgrown := buildDeps_grown hbuild
  have hres := resolveDeps_spec (by rw [hgrown.list]; exact hnodup) hresolve
  -- all three writers leave out the platforms with the mark `parent`
  have hout : ∀ p ∈ ps.list, (ps.node p).platform →
      (ps₂.node p ∉ emittedPackages ps₂ ↔ HasPlatform cf ps Extends p) ∧
      (p ∉ dependsDirs (listSort ps₂) ↔ HasPlatform cf ps Extends p) ∧
      (p ∉ dependsPlatforms (listSort ps₂) ↔ HasPlatform cf ps Extends p) := by
    intro p hp hplat
    have hp₂ : p ∈ ps₂.list := by rwa [hres.list, hgrown.list]
    have hplat₂ : (ps₂.node p).platform := by
      rw [hres.node p]
      exact (hgrown.platform p).trans hplat
    have hvirtual₂ : (ps₂.node p).virtual = false := by
      rw [hres.node p]
      exact (hgrown.virtual p).trans (not_virtual_of_platform hnew hp hplat)
    have hparent : (ps₂.node p).parent ↔ HasPlatform cf ps Extends p := by
      rw [hres.node p, ← symbolIsParent_platform_iff hnew hp hplat]
      show (ps₁.node p).parent = true ↔ _
      rw [hgrown.parent p]
      have hstart : (ps.node p).parent = false := by
        rw [hnew p hp]
        rfl
      simp [hstart, hp]
    rw [← hparent]
    exact leftOut_iff hp₂ hplat₂ hvirtual₂
  constructor
  · intro h p hp hplat hext
    exact (h p hp hplat).1.mp ((hout p hp hplat).1.mpr hext)
  · intro h p hp hplat
    have hsame : HasPlatform cf ps Extends p ↔ HasPlatform cf ps Below p :=
      ⟨h p hp hplat, HasPlatform.extends⟩
    rw [← hsame]
    exact hout p hp hplat

/-- Two platforms, of which the name of one happens to start with the name of
the other. -/
def twoTegras : Conf := Conf.ofTable
  [boolSymbol (text "PLATFORM_TEGRA") none none, boolSymbol (text "PLATFORM_TEGRA2") none none,
    boolSymbol stableAbiName none none]
  [.mk (some 0) ['a', '/', 'K'] [], .mk (some 1) ['b', '/', 'K'] [], .mk (some 2) ['K'] []]

/-- The packages of `twoTegras`. -/
def twoTegrasList : Packages := (createPackageList twoTegras).1

/-- The same with the dependencies and flags set and resolved. -/
def twoTegrasBuilt : Packages := twoTegrasList.list.foldl (buildDepsStep twoTegras 2) twoTegrasList

theorem twoTegras_built : buildDeps twoTegras (some 2) twoTegrasList = some twoTegrasBuilt := by
  rfl

theorem twoTegras_resolves : (resolveDeps 64 1 twoTegrasBuilt).isSome := by
  rw [resolveDeps_isSome_iff]
  decide

theorem leavesOutParents_iff_twoTegras :
    LeavesOutParents twoTegras twoTegrasList
        ((resolveDeps 64 1 twoTegrasBuilt).get twoTegras_resolves) ↔
      ExtensionsLieBelow twoTegras twoTegrasList :=
  leavesOutParents_iff (createPackageList_created twoTegras).node
    (createPackageList_created twoTegras).nodup twoTegras_built
    (Option.some_get twoTegras_resolves).symm

/-- `PLATFORM_TEGRA` is dropped from the files. -/
theorem twoTegras_not_leavesOutParents :
    ¬ ∀ (cf : Conf) (ps : Packages), processPackages 64 1 cf = some ps →
      LeavesOutParents cf (createPackageList cf).1 ps := by
  intro h
  rcases Option.isSome_iff_exists.mp twoTegras_resolves with ⟨ps, hps⟩
  have hparents := h twoTegras ps hps
  have hmem : 0 ∈ twoTegrasList.list := by decide
  have hout := (hparents 0 hmem (by decide)).2.2
  -- the second platform makes the first one a parent
  have hflag : (twoTegrasBuilt.node 0).parent := by decide
  have hres := resolveDeps_spec (by decide) hps
  have hps0 : (ps.node 0).parent = (twoTegrasBuilt.node 0).parent := by rw [hres.node 0]
  have hleft : 0 ∉ dependsPlatforms (listSort ps) := by
    intro hin
    have hchild := (mem_dependsPlatforms.mp hin).2
    have hsort : (listSort ps).node 0 = ps.node 0 := rfl
    rw [hsort] at hchild
    exact hchild.2 (by rw [platformHasChild, hps0, hflag, hchild.1]; rfl)
  -- but neither name lies below the other
  rcases hout.mp hleft with ⟨q, hq, hne, _, name, other, hname, hother, suffix, _, heq⟩
  have hq' : q = 0 ∨ q = 1 := by
    revert hq
    have hlist : twoTegrasList.list = [0, 1] := by decide
    rw [show (createPackageList twoTegras).1.list = [0, 1] from hlist]
    simp
  rcases hq' with rfl | rfl
  · exact hne rfl
  · cases hname
    cases hother
    revert heq
    simp [text]

end Pbs.Deps
