import Pbs.Deps.Closure
import Pbs.Deps.Selects

/-!
# Building what a virtual package selects

A virtual package is built by building what it selects. In the rules of
`depends.mk` only one of these packages takes its place, so the others come
before a package only if they are reached in some other way.
-/

namespace Pbs.Deps

open Kconfig Walks Relation

/-! ## Selecting through virtual packages -/

/-- The symbol selects another one under a true condition. -/
def EnabledSelect (st : ParseState) (cf : Conf) (s t : SymId) : Prop :=
  ∃ sel, st.HasSelect sel ∧ sel.selector = s ∧ sel.target = t ∧ sel.Enabled cf

/-- An enabled virtual package. -/
def VirtualSymbol (cf : Conf) (v : SymId) : Prop :=
  nameStarts virtualPrefix (cf.sym v).name ∧ (cf.curr v).tri ≠ .no

instance (cf : Conf) (v : SymId) : Decidable (VirtualSymbol cf v) :=
  inferInstanceAs (Decidable (_ ∧ _))

/-- A virtual package selects something, directly or through further virtual
packages. -/
inductive SelectsThrough (st : ParseState) (cf : Conf) : SymId → SymId → Prop
  | direct {v t} : VirtualSymbol cf v → EnabledSelect st cf v t → SelectsThrough st cf v t
  | further {v w t} : VirtualSymbol cf v → EnabledSelect st cf v w →
      SelectsThrough st cf w t → SelectsThrough st cf v t

/-- The package `p` selects a virtual package that selects `r`. -/
def NeedsThroughVirtual (st : ParseState) (cf : Conf) (ps : Packages) (p r : PkgId) : Prop :=
  (ps.node p).virtual = false ∧ (ps.node r).virtual = false ∧ r ≠ p ∧
    ∃ v, EnabledSelect st cf (ps.node p).symbol v ∧ SelectsThrough st cf v (ps.node r).symbol

/-! ## The prerequisites of `.install` -/

/-- A rule for `build/x/.install` with the prerequisite `build/y/.install` is
printed. -/
def InstallEdge (ps : Packages) (x y : Text) : Prop :=
  ∃ p ∈ ps.list, emitted (ps.node p) ∧ (ps.node p).path = x ∧ y ∈ printedPrereqs ps (ps.node p)

/-- Virtual packages are transparent: what `p` needs through them is a
prerequisite of `p`. -/
def Transparent (st : ParseState) (cf : Conf) (ps : Packages) : Prop :=
  ∀ p ∈ ps.list, ∀ r ∈ ps.list, NeedsThroughVirtual st cf ps p r →
    TransGen (InstallEdge ps) (ps.node p).path (ps.node r).path

/-- A step from a package with a rule to what stands in the place of something
that it needs. -/
def ProviderEdge (ps : Packages) (x y : Text) : Prop :=
  ∃ p ∈ ps.list, emitted (ps.node p) ∧ (ps.node p).path = x ∧
    ∃ q ∈ (ps.node p).deps, ∃ d, Provides ps p q d ∧ d ≠ p ∧ (ps.node d).path = y

/-- What a package needs through virtual packages is reached by such steps. -/
def ReachedByProviders (st : ParseState) (cf : Conf) (ps : Packages) : Prop :=
  ∀ p ∈ ps.list, ∀ r ∈ ps.list, NeedsThroughVirtual st cf ps p r →
    TransGen (ProviderEdge ps) (ps.node p).path (ps.node r).path

theorem ResolvedDeps.installEdge_iff {width fuel : ℕ} {ps ps' : Packages}
    (h : ResolvedDeps width fuel ps ps') (x y : Text) :
    InstallEdge ps' x y ↔ ProviderEdge ps x y := by
  have hpath : ∀ p, (ps'.node p).path = (ps.node p).path := fun p => by rw [h.node p]
  simp only [InstallEdge, ProviderEdge, mem_printedPrereqs, h.list, h.emitted, hpath]
  refine exists_congr fun p => and_congr_right fun hp => ?_
  refine and_congr_right fun _ => and_congr_right fun _ => ?_
  constructor
  · rintro ⟨d, hd, hy⟩
    rcases (h.mem_deps_iff hp d).mp hd with ⟨hne, q, hq, hprov⟩
    exact ⟨q, hq, d, hprov, hne, hy⟩
  · rintro ⟨q, hq, d, hprov, hne, hy⟩
    exact ⟨d, (h.mem_deps_iff hp d).mpr ⟨hne, q, hq, hprov⟩, hy⟩

theorem ResolvedDeps.needsThroughVirtual_iff {width fuel : ℕ} {ps ps' : Packages}
    (h : ResolvedDeps width fuel ps ps') (st : ParseState) (cf : Conf) (p r : PkgId) :
    NeedsThroughVirtual st cf ps' p r ↔ NeedsThroughVirtual st cf ps p r := by
  unfold NeedsThroughVirtual
  rw [h.node p, h.node r]

/-- `P` selects `V`, and `V` selects both `R` and `S`. -/
def twoProviders : ParseState where
  transform _ := id
  eliminateDups _ := id
  transBool _ := id
  symbols := [0, 1, 2, 3, 4]
  sym := (Conf.ofTable
    [boolSymbol (packagePrefix ++ ['P']) none none,
      boolSymbol (virtualPrefix ++ ['V']) none none,
      boolSymbol (packagePrefix ++ ['R']) none none,
      boolSymbol (packagePrefix ++ ['S']) none none,
      boolSymbol stableAbiName none none] []).sym
  symbolMod := 5
  entries :=
    [.mk (some 0) ['p', '/', 'K'] none [⟨.select, none, some (.expr (.symbol 1))⟩] [],
      .mk (some 1) ['v', '/', 'K'] none
        [⟨.select, none, some (.expr (.symbol 2))⟩,
          ⟨.select, none, some (.expr (.symbol 3))⟩] [],
      .mk (some 2) ['r', '/', 'K'] none [] [],
      .mk (some 3) ['s', '/', 'K'] none [] [],
      .mk (some 4) ['K'] none [] []]

theorem twoProviders_acyclic :
    AcyclicOn (fun p => ((selectGraph (confParse twoProviders allYes)).node p).deps)
      (selectGraph (confParse twoProviders allYes)).list := by
  have hb : ∀ p ∈ (selectGraph (confParse twoProviders allYes)).list,
      Bounded (fun p => ((selectGraph (confParse twoProviders allYes)).node p).deps) 3 p := by
    decide +kernel
  exact fun p hp => (hb p hp).not_cycle

end Pbs.Deps
