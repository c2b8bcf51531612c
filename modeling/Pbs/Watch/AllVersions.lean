import Pbs.Watch.FailedScan

/-!
# All versions

With `--all`, `process_line` should return what is found in every directory that can be
reached by choosing any match of every pattern. `collect_paths` has only the first of
several paths when it comes to the next component, so lower matches count for the last
component only.
-/

namespace Pbs.Watch

open CNumber (Text)
open Descent

/-- A line of which the site has the form `scheme://host/path`. -/
structure SiteLine where
  line : Text
  search : Search
  isSearch : searchOf line = .ok search

/-- The versions of the files in a directory. -/
def versionsIn (site : Site) (options : Options) (search : Search) (path : Text) :
    Set LooseVersion :=
  {v | ∃ versions, v ∈ versions ∧
    site.processRecursive (search.base ++ path) search.pattern options true = some versions}

/-- The versions below a path, with components that are still to be chosen. -/
def VersionsBelow (site : Site) (options : Options) (search : Search) (dirs : List Text)
    (path : Text) : Set LooseVersion :=
  Below (versionsIn site options search) (steps site options search.base dirs) path

/-- `--all` -/
def Options.listAll (options : Options) : Options := { options with all := true }

/-- All versions in all directories that can be reached are returned, and no others. -/
def ListsAll (site : Site) (options : Options) (line : SiteLine) : Prop :=
  ∃ versions, processLine site options.listAll line.line = .ok versions ∧
    ∀ v, v ∈ versions ↔
      v ∈ VersionsBelow site options.listAll line.search line.search.dirs []

theorem mem_collectVersions {site : Site} {base pattern : Text} {options : Options}
    (hall : options.all = true) {paths : List Text} {v : LooseVersion} :
    v ∈ collectVersions site base options pattern paths ↔
      ∃ path ∈ paths, ∃ versions, v ∈ versions ∧
        site.processRecursive (base ++ path) pattern options true = some versions := by
  induction paths with
  | nil => simp [collectVersions]
  | cons path paths ih =>
      rw [collectVersions]
      cases hfound : site.processRecursive (base ++ path) pattern options true with
      | none => simp [ih, hfound]
      | some versions => simp [ih, hall, hfound]

/-- The versions are all returned exactly when the descent is complete. -/
theorem listsAll_iff_complete (site : Site) (options : Options) (line : SiteLine) :
    ListsAll site options line ↔
      Complete (versionsIn site options.listAll line.search)
        (steps site options.listAll line.search.base line.search.dirs) [] := by
  have hmem : ∀ paths v,
      v ∈ collectVersions site line.search.base options.listAll line.search.pattern paths ↔
        ∃ path ∈ paths, v ∈ versionsIn site options.listAll line.search path :=
    fun paths v => mem_collectVersions rfl
  constructor
  · rintro ⟨versions, hversions, hall⟩
    rcases (processLine_eq_ok line.isSearch).mp hversions with ⟨paths, hpaths, rfl⟩
    exact ⟨paths, hpaths, fun v hv => (hmem paths v).mp ((hall v).mpr hv)⟩
  · rintro ⟨paths, hpaths, hall⟩
    refine ⟨_, (processLine_eq_ok line.isSearch).mpr ⟨paths, hpaths, rfl⟩, fun v => ?_⟩
    rw [hmem]
    constructor
    · rintro ⟨path, hpath, hv⟩
      exact ⟨path, subset_reach hpaths hpath, hv⟩
    · exact hall v

/-- Where components follow a pattern, there is a match, and all that is below any match
is also below the highest. -/
def HighestSuffices (site : Site) (options : Options) (search : Search) : Prop :=
  ∀ before pattern after, search.dirs = before ++ pattern :: after → after ≠ [] →
    isPattern pattern → ∀ path, HighestPath site options search.base before path →
      ∃ highest, (processPath site search.base options pattern path).head? = some highest ∧
        ∀ other ∈ processPath site search.base options pattern path,
          VersionsBelow site options search after other ⊆
            VersionsBelow site options search after highest

/-- There are no lower matches to go on with if only the last directory may be a
pattern. -/
theorem highestSuffices_of_literal {search : Search}
    (h : ∀ dir ∈ search.dirs.dropLast, isPattern dir = false) (site : Site) (options : Options) :
    HighestSuffices site options search := by
  intro before pattern after hsplit hafter hpattern
  rw [h pattern (mem_dropLast_of_split hsplit hafter)] at hpattern
  cases hpattern

/-- All versions are returned exactly if the highest matches lead to all of them. -/
theorem listsAll_iff (site : Site) (options : Options) (line : SiteLine) :
    ListsAll site options line ↔ HighestSuffices site options.listAll line.search := by
  rw [listsAll_iff_complete, descend_complete_iff, steps, alongSteps_map]
  constructor
  · intro h before pattern after hsplit hafter _ path hpath
    exact h before pattern after hsplit hafter path hpath
  · intro h before pattern after hsplit hafter path hpath
    by_cases hpattern : isPattern pattern = true
    · exact h before pattern after hsplit hafter hpattern path hpath
    · -- a literal component leaves no choice
      have hstep : processPath site line.search.base options.listAll pattern path =
          [path ++ '/' :: pattern] := by
        rw [processPath, if_neg hpattern]
      rw [hstep]
      refine ⟨_, rfl, fun other hother => ?_⟩
      rw [List.mem_singleton.mp hother]

/-- Two directories of releases, and a file in the older one. -/
def olderRelease : Site where
  processRecursive url _ _ final :=
    if final then
      if url = "http://host/1.0/src".toList then some [⟨"1.0.5".toList, by decide⟩] else none
    else some [⟨"1.0".toList, by decide⟩, ⟨"2.0".toList, by decide⟩]
  ne_nil := by
    intro url pattern options final
    split
    · split <;> simp
    · simp

/-- The file in the older directory is not listed. -/
theorem twoLevels_not_listsAll : ¬ ∀ site options line, ListsAll site options line := by
  intro h
  rcases h olderRelease ⟨false, false, none, none, none⟩
    ⟨twoLevels, twoLevelsSearch, searchOf_twoLevels⟩ with ⟨versions, hversions, hall⟩
  have hnone : processLine olderRelease (Options.listAll ⟨false, false, none, none, none⟩)
      twoLevels = .ok [] := by
    decide +kernel
  rw [hnone] at hversions
  cases hversions
  have hpath : "/1.0/src".toList ∈ reach (steps olderRelease
      (Options.listAll ⟨false, false, none, none, none⟩) twoLevelsSearch.base
        twoLevelsSearch.dirs) [] := by
    decide +kernel
  have hmem := (hall ⟨"1.0.5".toList, by decide⟩).mpr
    ⟨_, hpath, [⟨"1.0.5".toList, by decide⟩], List.mem_singleton_self _, rfl⟩
  cases hmem

end Pbs.Watch
