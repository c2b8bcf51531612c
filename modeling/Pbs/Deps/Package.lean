import Mathlib.Logic.Function.Basic
import Pbs.Kconfig.Symbol

/-!
# The package list of `deps.c`

Packages are heap nodes that refer to each other by pointer, so a `Packages`
value is a heap of `Package` nodes together with the order in which the list
links them. Every function of the model changes single nodes with
`Packages.modify` and leaves the order alone, except for `listSort`.
-/

namespace Pbs.Deps

open Kconfig

/-- `struct package *`. -/
abbrev PkgId := ℕ

/-- `struct package`; the four bits of `flags` are fields of their own. -/
@[ext] structure Package where
  symbol : SymId
  deps : List PkgId
  numdeps : ℕ
  virtual : Bool
  platform : Bool
  stable : Bool
  parent : Bool
  path : Text
deriving DecidableEq, Repr

/-- The heap of packages and the list that starts at `packages`. -/
@[ext] structure Packages where
  node : PkgId → Package
  list : List PkgId

/-- Change one package in place. -/
def Packages.modify (ps : Packages) (p : PkgId) (f : Package → Package) : Packages :=
  { ps with node := Function.update ps.node p (f (ps.node p)) }

@[simp] theorem Packages.modify_node_self (ps : Packages) (p : PkgId) (f : Package → Package) :
    (ps.modify p f).node p = f (ps.node p) :=
  Function.update_self ..

theorem Packages.modify_node_ne (ps : Packages) {p q : PkgId} (f : Package → Package)
    (h : q ≠ p) : (ps.modify p f).node q = ps.node q :=
  Function.update_of_ne h ..

/-- A field that the change keeps is kept for every package. -/
theorem Packages.modify_field {β : Type} (field : Package → β) (ps : Packages) (p q : PkgId)
    (f : Package → Package) (h : field (f (ps.node p)) = field (ps.node p)) :
    field ((ps.modify p f).node q) = field (ps.node q) := by
  by_cases hq : q = p
  · subst hq
    rw [Packages.modify_node_self, h]
  · rw [Packages.modify_node_ne ps f hq]

/-- A list given by a table of packages. -/
def Packages.ofTable (table : List Package) : Packages where
  node p := table.getD p ⟨0, [], 0, false, false, false, false, []⟩
  list := List.range table.length

/-- A package with the given dependencies. -/
def tablePackage (virtual : Bool) (name : Char) (deps : List PkgId) : Package :=
  ⟨0, deps, 0, virtual, false, false, false, [name]⟩

/-! ## Names of symbols -/

def virtualPrefix : Text := ['V', 'I', 'R', 'T', 'U', 'A', 'L', '_']

def platformPrefix : Text := ['P', 'L', 'A', 'T', 'F', 'O', 'R', 'M', '_']

def packagePrefix : Text := ['P', 'A', 'C', 'K', 'A', 'G', 'E', '_']

def stableAbiName : Text := ['S', 'T', 'A', 'B', 'L', 'E', '_', 'A', 'B', 'I']

/-- `strncmp(name, prefix, strlen(prefix)) == 0`, false for a missing name. -/
def nameStarts (start : Text) : Option Text → Bool
  | none => false
  | some name => start.isPrefixOf name

/-- `symbol_is_package`. -/
def symbolIsPackage (symbol : Symbol) : Bool :=
  nameStarts packagePrefix symbol.name || nameStarts platformPrefix symbol.name ||
    nameStarts virtualPrefix symbol.name

/-- `symbol_is_platform`. -/
def symbolIsPlatform (symbol : Symbol) : Bool :=
  nameStarts platformPrefix symbol.name

/-- `symbol_is_stable_abi`. -/
def symbolIsStableAbi (symbol : Symbol) : Bool :=
  symbol.name == some stableAbiName

/-- `symbol_is_parent`: some listed package's name properly extends the
symbol's name. -/
def symbolIsParent (cf : Conf) (ps : Packages) (symbol : SymId) : Bool :=
  match (cf.sym symbol).name with
  | none => false
  | some name => ps.list.any fun p =>
      match (cf.sym (ps.node p).symbol).name with
      | none => false
      | some other => name.isPrefixOf other && decide (name.length < other.length)

/-! ## Packages -/

/-- `package_create`. -/
def packageCreate (cf : Conf) (symbol : SymId) (path : Text) : Package where
  symbol := symbol
  deps := []
  numdeps := 0
  virtual := nameStarts virtualPrefix (cf.sym symbol).name
  platform := nameStarts platformPrefix (cf.sym symbol).name
  stable := false
  parent := false
  path := path

/-- `platform_has_child`. -/
def platformHasChild (package : Package) : Bool :=
  package.platform && package.parent

/-- The writers skip virtual packages and platforms with a child. -/
def emitted (package : Package) : Bool :=
  !(package.virtual || platformHasChild package)

/-- `find_package`: the first listed package of a symbol. -/
def findPackage (ps : Packages) (symbol : SymId) : Option PkgId :=
  ps.list.find? fun p => (ps.node p).symbol == symbol

theorem findPackage_mem {ps : Packages} {symbol : SymId} {p : PkgId}
    (h : findPackage ps symbol = some p) : p ∈ ps.list :=
  List.mem_of_find?_eq_some h

theorem findPackage_symbol {ps : Packages} {symbol : SymId} {p : PkgId}
    (h : findPackage ps symbol = some p) : (ps.node p).symbol = symbol := by
  simpa using List.find?_some h

/-- With one package for each symbol, the first one is the only one. -/
theorem findPackage_eq_some_iff {ps : Packages}
    (hdistinct : ∀ p ∈ ps.list, ∀ q ∈ ps.list,
      (ps.node p).symbol = (ps.node q).symbol → p = q)
    {p : PkgId} (hp : p ∈ ps.list) (symbol : SymId) :
    findPackage ps symbol = some p ↔ symbol = (ps.node p).symbol := by
  constructor
  · exact fun h => (findPackage_symbol h).symm
  · intro h
    cases hfind : findPackage ps symbol with
    | none => exact absurd (List.find?_eq_none.mp hfind p hp) (by simp [h])
    | some q =>
        have hq := findPackage_symbol hfind
        rw [hdistinct q (findPackage_mem hfind) p hp (hq.trans h)]

/-! ## Creating the list -/

/-- `check_deps`: the dependencies of an entry name no package that is not a
platform. -/
def checkDeps (cf : Conf) : Option Expr → Bool
  | none => true
  | some e => go e
where
  go : Expr → Bool
    | .and l r => go l && go r
    | .or l r => go l && go r
    | .not e => go e
    | .symbol s => !(symbolIsPackage (cf.sym s) && !symbolIsPlatform (cf.sym s))
    | .equal _ _ => true
    | .unequal _ _ => true

/-- A path that begins with this many slashes, as far as these: exactly two of
them stay. -/
def rootSlashes (count : ℕ) : Text := if count = 2 then ['/', '/'] else ['/']

/-- `dirname` of the C library. -/
def dirname (path : Text) : Text :=
  let trimmed := path.reverse.dropWhile (· == '/')
  if path.isEmpty then ['.']
  else if trimmed.isEmpty then rootSlashes path.length
  else
    let parent := trimmed.dropWhile (· != '/')
    if parent.isEmpty then ['.']
    else
      let dir := parent.dropWhile (· == '/')
      if dir.isEmpty then rootSlashes parent.length else dir.reverse

/-- `package_create_from_menu`: a package for an entry whose symbol has the
value yes, is no choice value (platforms aside) and passes `check_deps`. -/
def packageCreateFromMenu (cf : Conf) (s : SymId) (file : Text) : Option Package :=
  let symbol := cf.sym s
  match symbol.type with
  | .boolean | .tristate =>
      if (cf.curr s).tri = .yes then
        if (symbol.choice || symbol.choiceval) && !symbolIsPlatform symbol then none
        else if !checkDeps cf symbol.dirDep then none
        else some (packageCreate cf s (dirname file))
      else none
  | _ => none

mutual

/-- The entries below a menu in the order in which the walk over `list`,
`next` and `parent` visits them. -/
def Menu.walk : Menu → List (Option SymId × Text)
  | .mk sym file list => (sym, file) :: Menu.walkList list

def Menu.walkList : List Menu → List (Option SymId × Text)
  | [] => []
  | menu :: rest => Menu.walk menu ++ Menu.walkList rest

end

/-- Append a new package at the end of the list. -/
def Packages.push (ps : Packages) (package : Package) : Packages :=
  { node := Function.update ps.node ps.list.length package
    list := ps.list ++ [ps.list.length] }

/-- The empty list. The node of an address that is not allocated yet is never
read. -/
def Packages.empty : Packages where
  node _ := ⟨0, [], 0, false, false, false, false, []⟩
  list := []

/-- One entry of the walk in `create_package_list`: the list so far and
`stable`, the last `STABLE_ABI` symbol met. -/
def createPackageStep (cf : Conf) (st : Packages × Option SymId)
    (entry : Option SymId × Text) : Packages × Option SymId :=
  match entry.1 with
  | none => st
  | some s =>
      let packages :=
        if symbolIsPackage (cf.sym s) then
          match packageCreateFromMenu cf s entry.2 with
          | some package => st.1.push package
          | none => st.1
        else st.1
      (packages, if symbolIsStableAbi (cf.sym s) then some s else st.2)

/-- `create_package_list`, with the value it leaves in `stable`. -/
def createPackageList (cf : Conf) : Packages × Option SymId :=
  (Menu.walkList cf.rootmenu).foldl (createPackageStep cf) (Packages.empty, none)

/-! ## What `create_package_list` leaves -/

/-- A list as `create_package_list` builds it: no package is linked twice,
addresses are handed out in list order, every package is as `package_create`
made it, for a symbol with the value yes, and nothing else is in the heap. -/
structure Created (cf : Conf) (ps : Packages) : Prop where
  nodup : ps.list.Nodup
  fresh : ∀ p ∈ ps.list, p < ps.list.length
  node : ∀ p ∈ ps.list, ps.node p = packageCreate cf (ps.node p).symbol (ps.node p).path
  enabled : ∀ p ∈ ps.list, (cf.curr (ps.node p).symbol).tri = .yes
  unlisted : ∀ p, p ∉ ps.list → ps.node p = Packages.empty.node p

theorem Created.deps {cf : Conf} {ps : Packages} (h : Created cf ps) (p : PkgId) :
    (ps.node p).deps = [] := by
  by_cases hp : p ∈ ps.list
  · rw [h.node p hp]
    rfl
  · rw [h.unlisted p hp]
    rfl

theorem Created.empty (cf : Conf) : Created cf Packages.empty := by
  constructor <;> simp [Packages.empty]

theorem packageCreateFromMenu_spec {cf : Conf} {s : SymId} {file : Text} {package : Package}
    (h : packageCreateFromMenu cf s file = some package) :
    package = packageCreate cf s (dirname file) ∧ (cf.curr s).tri = .yes := by
  cases htype : (cf.sym s).type <;> simp [packageCreateFromMenu, htype] at h
  all_goals exact ⟨h.2.2.2.symm, h.1⟩

theorem Packages.push_node_self (ps : Packages) (package : Package) :
    (ps.push package).node ps.list.length = package :=
  Function.update_self ..

theorem Packages.push_node_mem {cf : Conf} {ps : Packages} (package : Package)
    (h : Created cf ps) {p : PkgId} (hp : p ∈ ps.list) :
    (ps.push package).node p = ps.node p :=
  Function.update_of_ne (Nat.ne_of_lt (h.fresh p hp)) ..

theorem Created.push {cf : Conf} {ps : Packages} {s : SymId} {file : Text} {package : Package}
    (h : Created cf ps) (hpkg : packageCreateFromMenu cf s file = some package) :
    Created cf (ps.push package) := by
  rcases packageCreateFromMenu_spec hpkg with ⟨rfl, hyes⟩
  -- the new package has the number after the last one
  have hmem : ∀ p ∈ (ps.push (packageCreate cf s (dirname file))).list,
      p ∈ ps.list ∨ p = ps.list.length := by
    intro p hp
    simpa [Packages.push] using hp
  constructor
  · have hne : ∀ p ∈ ps.list, p ≠ ps.list.length := fun p hp => Nat.ne_of_lt (h.fresh p hp)
    simpa [Packages.push, List.nodup_append, h.nodup] using hne
  · intro p hp
    have hlen : (ps.push (packageCreate cf s (dirname file))).list.length =
        ps.list.length + 1 := by simp [Packages.push]
    rw [hlen]
    rcases hmem p hp with hp | rfl
    · exact Nat.lt_succ_of_lt (h.fresh p hp)
    · exact Nat.lt_succ_self _
  · intro p hp
    rcases hmem p hp with hp | rfl
    · rw [Packages.push_node_mem _ h hp]
      exact h.node p hp
    · rw [Packages.push_node_self]
      rfl
  · intro p hp
    rcases hmem p hp with hp | rfl
    · rw [Packages.push_node_mem _ h hp]
      exact h.enabled p hp
    · rw [Packages.push_node_self]
      exact hyes
  · intro p hp
    simp only [Packages.push, List.mem_append, List.mem_singleton, not_or] at hp
    rw [← h.unlisted p hp.1]
    exact Function.update_of_ne hp.2 ..

/-- One entry of the walk keeps the shape of the list. -/
theorem createPackageStep_created {cf : Conf} {st : Packages × Option SymId}
    (entry : Option SymId × Text) (h : Created cf st.1) :
    Created cf (createPackageStep cf st entry).1 := by
  rcases entry with ⟨_ | s, file⟩
  · exact h
  · by_cases hpkg : symbolIsPackage (cf.sym s)
    · cases hcreate : packageCreateFromMenu cf s file with
      | none => simpa [createPackageStep, hpkg, hcreate] using h
      | some package => simpa [createPackageStep, hpkg, hcreate] using h.push hcreate
    · simpa [createPackageStep, hpkg] using h

theorem createPackageList_created (cf : Conf) : Created cf (createPackageList cf).1 := by
  suffices h : ∀ (entries : List (Option SymId × Text)) (st : Packages × Option SymId),
      Created cf st.1 → Created cf (entries.foldl (createPackageStep cf) st).1 from
    h _ _ (Created.empty cf)
  intro entries
  induction entries with
  | nil => exact fun _ h => h
  | cons entry entries ih => exact fun st h => ih _ (createPackageStep_created entry h)

end Pbs.Deps
