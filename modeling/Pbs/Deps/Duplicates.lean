import Mathlib.Data.List.Count
import Pbs.Deps.Writers

/-!
# Symbols with several entries

The walk of `create_package_list` makes a package for every menu entry of an
admitted symbol, while `find_package` looks for the first package of a symbol.
A symbol that a platform gives defaults for has an entry there as well.
-/

namespace Pbs.Deps

open Kconfig

/-! ## The symbols of the list -/

/-- `create_package_list` makes packages of the symbol. -/
def admits (cf : Conf) (s : SymId) : Bool :=
  symbolIsPackage (cf.sym s) && (packageCreateFromMenu cf s []).isSome

/-- The symbol of an entry, if `create_package_list` makes a package for it. -/
def admittedSymbol (cf : Conf) (entry : Option SymId × Text) : Option SymId :=
  entry.1.filter (admits cf)

/-- Whether there is a package does not depend on the file of the entry. -/
theorem packageCreateFromMenu_isSome (cf : Conf) (s : SymId) (file : Text) :
    (packageCreateFromMenu cf s file).isSome = (packageCreateFromMenu cf s []).isSome := by
  cases htype : (cf.sym s).type <;>
    simp only [packageCreateFromMenu, htype, apply_ite Option.isSome, Option.isSome_some,
      Option.isSome_none]

/-- The symbols of the listed packages, in list order. -/
def Packages.symbols (ps : Packages) : List SymId := ps.list.map fun p => (ps.node p).symbol

theorem Packages.push_symbols {cf : Conf} {ps : Packages} (h : Created cf ps)
    (package : Package) : (ps.push package).symbols = ps.symbols ++ [package.symbol] := by
  have hold : ps.list.map (fun p => ((ps.push package).node p).symbol) = ps.symbols :=
    List.map_congr_left fun p hp => by rw [Packages.push_node_mem package h hp]
  show (ps.list ++ [ps.list.length]).map (fun p => ((ps.push package).node p).symbol) = _
  rw [List.map_append, hold, List.map_singleton, Packages.push_node_self]

/-- One entry of the walk adds its symbol if it is admitted. -/
theorem createPackageStep_symbols {cf : Conf} {st : Packages × Option SymId}
    (entry : Option SymId × Text) (h : Created cf st.1) :
    (createPackageStep cf st entry).1.symbols =
      st.1.symbols ++ (admittedSymbol cf entry).toList := by
  rcases entry with ⟨_ | s, file⟩
  · exact (List.append_nil _).symm
  · have hsome := packageCreateFromMenu_isSome cf s file
    by_cases hpkg : symbolIsPackage (cf.sym s)
    · cases hcreate : packageCreateFromMenu cf s file with
      | none =>
          have hadmits : admits cf s = false := by
            rw [admits, ← hsome, hcreate, Option.isSome_none, Bool.and_false]
          simp [createPackageStep, admittedSymbol, hpkg, hcreate, hadmits]
      | some package =>
          have hadmits : admits cf s = true := by
            rw [admits, ← hsome, hcreate, hpkg, Option.isSome_some, Bool.and_true]
          have hsymbol : package.symbol = s := by
            rw [(packageCreateFromMenu_spec hcreate).1]
            rfl
          simp [createPackageStep, hpkg, hcreate, admittedSymbol, Option.filter, hadmits,
            Packages.push_symbols h, hsymbol]
    · have hadmits : admits cf s = false := by
        rw [admits, Bool.and_eq_false_iff]
        exact Or.inl (Bool.eq_false_iff.mpr hpkg)
      simp [createPackageStep, admittedSymbol, hpkg, hadmits]

/-- The list has a package for every entry of an admitted symbol, in the order
of the walk. -/
theorem createPackageList_symbols (cf : Conf) :
    (createPackageList cf).1.symbols =
      (Menu.walkList cf.rootmenu).filterMap (admittedSymbol cf) := by
  suffices h : ∀ (entries : List (Option SymId × Text)) (st : Packages × Option SymId),
      Created cf st.1 → (entries.foldl (createPackageStep cf) st).1.symbols =
        st.1.symbols ++ entries.filterMap (admittedSymbol cf) from
    h _ _ (Created.empty cf)
  intro entries
  induction entries with
  | nil => exact fun st _ => (List.append_nil _).symm
  | cons entry entries ih =>
      intro st h
      rw [List.foldl_cons, ih _ (createPackageStep_created entry h),
        createPackageStep_symbols entry h, List.append_assoc]
      cases hentry : admittedSymbol cf entry <;> simp [hentry]

/-- The number of packages of a symbol is the number of its entries. -/
theorem count_symbols (cf : Conf) (s : SymId) :
    (createPackageList cf).1.symbols.count s =
      if admits cf s then (Menu.walkList cf.rootmenu).countP fun entry => entry.1 == some s
      else 0 := by
  rw [createPackageList_symbols]
  generalize Menu.walkList cf.rootmenu = entries
  induction entries with
  | nil => simp
  | cons entry entries ih =>
      rcases entry with ⟨_ | t, file⟩
      · have hentry : admittedSymbol cf (none, file) = none := rfl
        rw [List.filterMap_cons_none hentry, List.countP_cons, ih]
        simp
      · by_cases hadmits : admits cf t
        · have hentry : admittedSymbol cf (some t, file) = some t := if_pos hadmits
          rw [List.filterMap_cons_some hentry, List.count_cons, List.countP_cons, ih]
          by_cases hts : t = s
          · subst hts
            simp [hadmits]
          · simp [hts]
        · have hentry : admittedSymbol cf (some t, file) = none := if_neg hadmits
          rw [List.filterMap_cons_none hentry, List.countP_cons, ih]
          by_cases hts : t = s
          · subst hts
            simp [hadmits]
          · simp [hts]

/-! ## One package for each symbol -/

/-- The symbol has an entry in the menu and is admitted. -/
def Admitted (cf : Conf) (s : SymId) : Prop :=
  admits cf s ∧ ∃ entry ∈ Menu.walkList cf.rootmenu, entry.1 = some s

/-- Every admitted symbol has exactly one package, so all that refers to a
package by its symbol refers to that one: `find_package`, the dependencies, and
with them the paths in the rules. -/
structure OnePackagePerSymbol (cf : Conf) : Prop where
  unique : ∀ s, Admitted cf s → ∃ p,
    (createPackageList cf).1.list.filter
      (fun q => ((createPackageList cf).1.node q).symbol = s) = [p]
  found : ∀ p ∈ (createPackageList cf).1.list,
    findPackage (createPackageList cf).1 ((createPackageList cf).1.node p).symbol = some p
  deps : ∀ ps, buildDeps cf (createPackageList cf).2 (createPackageList cf).1 = some ps →
    ∀ p ∈ ps.list, ∀ d ∈ (ps.node p).deps, findPackage ps (ps.node d).symbol = some d
  path : ∀ p ∈ (createPackageList cf).1.list, ∀ q ∈ (createPackageList cf).1.list,
    ((createPackageList cf).1.node p).symbol = ((createPackageList cf).1.node q).symbol →
    ((createPackageList cf).1.node p).path = ((createPackageList cf).1.node q).path

/-- No admitted symbol has two entries in the menu. -/
def EntriesDistinct (cf : Conf) : Prop :=
  ∀ s, Admitted cf s → (Menu.walkList cf.rootmenu).countP (fun entry => entry.1 == some s) = 1

theorem length_filter_symbol (ps : Packages) (s : SymId) :
    (ps.list.filter fun q => (ps.node q).symbol = s).length = ps.symbols.count s := by
  unfold Packages.symbols
  rw [List.count, List.countP_map, List.countP_eq_length_filter]
  rfl

theorem symbols_nodup {cf : Conf} (h : EntriesDistinct cf) :
    (createPackageList cf).1.symbols.Nodup := by
  refine List.nodup_iff_count_le_one.mpr fun s => ?_
  rw [count_symbols]
  split
  · rename_i hadmits
    by_cases hentry : ∃ entry ∈ Menu.walkList cf.rootmenu, entry.1 = some s
    · exact (h s ⟨hadmits, hentry⟩).le
    · have hnone : (Menu.walkList cf.rootmenu).countP (fun entry => entry.1 == some s) = 0 := by
        refine List.countP_eq_zero.mpr fun entry hmem heq => hentry ⟨entry, hmem, ?_⟩
        simpa using heq
      omega
  · exact Nat.zero_le 1

/-- Every admitted symbol has one package exactly when every admitted symbol has
one entry. -/
theorem onePackagePerSymbol_iff (cf : Conf) : OnePackagePerSymbol cf ↔ EntriesDistinct cf := by
  let ps := (createPackageList cf).1
  constructor
  · intro h s hs
    rcases h.unique s hs with ⟨p, hp⟩
    have hlen := length_filter_symbol ps s
    rw [hp, List.length_singleton, count_symbols, if_pos hs.1] at hlen
    exact hlen.symm
  · intro h
    have hdistinct : ∀ p ∈ ps.list, ∀ q ∈ ps.list,
        (ps.node p).symbol = (ps.node q).symbol → p = q :=
      fun p hp q hq heq => List.inj_on_of_nodup_map (symbols_nodup h) hp hq heq
    have hfound : ∀ p ∈ ps.list, findPackage ps (ps.node p).symbol = some p :=
      fun p hp => (findPackage_eq_some_iff hdistinct hp _).mpr rfl
    refine ⟨fun s hs => ?_, hfound, fun ps' hps' p _ d hd => ?_, fun p hp q hq heq => ?_⟩
    · have hlen := length_filter_symbol ps s
      rw [count_symbols, if_pos hs.1, h s hs] at hlen
      exact List.length_eq_one_iff.mp hlen
    · -- what `build_deps` adds are listed packages
      have hgrown := buildDeps_grown hps'
      rw [hgrown.deps, (createPackageList_created cf).deps, List.nil_append] at hd
      rw [hgrown.toSameShape.findPackage, hgrown.symbol]
      rcases List.mem_flatMap.mp hd with ⟨q, hq, hmem⟩
      rw [List.eq_of_mem_replicate hmem]
      exact hfound q hq
    · rw [hdistinct p hp q hq heq]

/-- A platform that gives a default for `PACKAGE_A` before `PACKAGE_A` itself. -/
def platformDefault : Conf := Conf.ofTable
  [boolSymbol (text "PACKAGE_A") none none, boolSymbol stableAbiName none none]
  [.mk (some 0) (text "platforms/p/Kconfig") [], .mk (some 0) (text "packages/a/Kconfig") [],
    .mk (some 1) ['K'] []]

/-- There are two packages of `PACKAGE_A`, with different paths. -/
theorem platformDefault_two_packages : ¬ ∀ cf : Conf, OnePackagePerSymbol cf := by
  intro h
  have hpath := (h platformDefault).path 0 (by decide) 1 (by decide) (by decide)
  revert hpath
  decide

end Pbs.Deps
