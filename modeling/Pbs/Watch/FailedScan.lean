import Pbs.Watch.Script

/-!
# Failed scans

Whether a scan finds nothing or cannot go on makes a difference: the script ends with
the status 2 in the first case, but an exception ends it with the status of a new
version. `collect_paths` raises one where a pattern has no match and further components
follow.
-/

namespace Pbs.Watch

open CNumber (Text)
open Descent

/-! ## The steps of a search -/

/-- One component after the other. -/
def steps (site : Site) (options : Options) (base : Text) (dirs : List Text) :
    List (Text → List Text) :=
  dirs.map (processPath site base options)

/-- The components lead to a path, with the highest match of every pattern. -/
def HighestPath (site : Site) (options : Options) (base : Text) (dirs : List Text)
    (path : Text) : Prop :=
  Follows (steps site options base dirs) [] path

theorem foldlM_collect (site : Site) (base : Text) (options : Options) (dirs paths : List Text) :
    dirs.foldlM (fun paths pattern =>
        match paths with
        | [] => .error (.exception "IndexError".toList)
        | path :: _ => .ok (processPath site base options pattern path)) paths =
      match descend (steps site options base dirs) paths with
      | none => (.error (.exception "IndexError".toList) : Except Stop (List Text))
      | some paths => .ok paths := by
  induction dirs generalizing paths with
  | nil => rfl
  | cons pattern dirs ih =>
      cases paths with
      | nil => rfl
      | cons path paths =>
          rw [List.foldlM_cons, steps, List.map_cons, descend]
          exact ih _

/-- `collect_paths` is a descent. -/
theorem collectPaths_eq (site : Site) (base : Text) (options : Options) (dirs : List Text) :
    collectPaths site base options dirs =
      match descend (steps site options base dirs) [[]] with
      | none => .error (.exception "IndexError".toList)
      | some paths => .ok paths :=
  foldlM_collect site base options dirs [[]]

theorem collectPaths_eq_ok {site : Site} {base : Text} {options : Options}
    {dirs paths : List Text} :
    collectPaths site base options dirs = .ok paths ↔
      descend (steps site options base dirs) [[]] = some paths := by
  rw [collectPaths_eq]
  cases descend (steps site options base dirs) [[]] with
  | none => simp
  | some paths => simp

theorem processLine_eq_ok {site : Site} {options : Options} {line : Text} {search : Search}
    (h : searchOf line = .ok search) {versions : List LooseVersion} :
    processLine site options line = .ok versions ↔
      ∃ paths, descend (steps site options search.base search.dirs) [[]] = some paths ∧
        versions = collectVersions site search.base options search.pattern paths := by
  have hline : processLine site options line =
      (collectPaths site search.base options search.dirs >>= fun paths =>
        .ok (collectVersions site search.base options search.pattern paths)) := by
    rw [processLine, h]
    rfl
  rw [hline]
  cases hcollect : collectPaths site search.base options search.dirs with
  | error stop =>
      constructor
      · intro hversions
        cases hversions
      · rintro ⟨paths, hpaths, _⟩
        rw [collectPaths_eq_ok.mpr hpaths] at hcollect
        cases hcollect
  | ok paths =>
      have hpaths := collectPaths_eq_ok.mp hcollect
      constructor
      · intro hversions
        cases hversions
        exact ⟨paths, hpaths, rfl⟩
      · rintro ⟨paths', hpaths', rfl⟩
        rw [hpaths] at hpaths'
        cases hpaths'
        rfl

/-- Nothing is below a pattern exactly when the site lists no match. -/
theorem processPath_ne_nil {site : Site} {base : Text} {options : Options} {pattern path : Text} :
    processPath site base options pattern path ≠ [] ↔
      (isPattern pattern → site.processRecursive (base ++ path) pattern options false ≠ none) := by
  rw [processPath]
  by_cases hpattern : isPattern pattern = true
  · rw [if_pos hpattern]
    have hne := site.ne_nil (base ++ path) pattern options false
    cases hfound : site.processRecursive (base ++ path) pattern options false with
    | none => simp [hpattern]
    | some versions =>
        have hsorted : sortReverse versions ≠ [] := by
          intro hnil
          have hperm := StableSort.sortDesc_perm LooseVersion.version versions
          rw [← sortReverse, hnil] at hperm
          exact hne (by rw [hfound, List.nil_perm.mp hperm])
        simp [hsorted]
  · simp [hpattern]

/-- A match is listed wherever components follow a pattern. -/
def GoesOn (site : Site) (options : Options) (search : Search) : Prop :=
  ∀ before pattern after, search.dirs = before ++ pattern :: after → after ≠ [] →
    isPattern pattern → ∀ path, HighestPath site options search.base before path →
      site.processRecursive (search.base ++ path) pattern options false ≠ none

/-- A line is processed to the end exactly when its search goes on. -/
theorem processLine_returns_iff {site : Site} {options : Options} {line : Text} {search : Search}
    (h : searchOf line = .ok search) :
    (∃ versions, processLine site options line = .ok versions) ↔ GoesOn site options search := by
  have hdescend : (∃ versions, processLine site options line = .ok versions) ↔
      ∃ paths, descend (steps site options search.base search.dirs) [[]] = some paths := by
    constructor
    · rintro ⟨versions, hversions⟩
      rcases (processLine_eq_ok h).mp hversions with ⟨paths, hpaths, _⟩
      exact ⟨paths, hpaths⟩
    · rintro ⟨paths, hpaths⟩
      exact ⟨_, (processLine_eq_ok h).mpr ⟨paths, hpaths, rfl⟩⟩
  rw [hdescend, descend_isSome_iff, steps, alongSteps_map]
  constructor
  · intro hsteps before pattern after hsplit hafter hpattern path hpath
    exact processPath_ne_nil.mp (hsteps before pattern after hsplit hafter path hpath) hpattern
  · intro hgoes before pattern after hsplit hafter path hpath
    exact processPath_ne_nil.mpr fun hpattern =>
      hgoes before pattern after hsplit hafter hpattern path hpath

theorem mem_dropLast_of_split {dirs before after : List Text} {dir : Text}
    (h : dirs = before ++ dir :: after) (hafter : after ≠ []) : dir ∈ dirs.dropLast := by
  rw [h, List.dropLast_append_cons, List.dropLast_cons_of_ne_nil hafter]
  simp

/-- Literal components lead somewhere, whatever the site. -/
theorem exists_follows_of_literal (site : Site) (options : Options) (base : Text)
    {dirs : List Text} (h : ∀ dir ∈ dirs, isPattern dir = false) (start : Text) :
    ∃ path, Follows (steps site options base dirs) start path := by
  induction dirs generalizing start with
  | nil => exact ⟨start, .nil⟩
  | cons dir dirs ih =>
      rcases ih (fun d hd => h d (List.mem_cons_of_mem _ hd)) (start ++ '/' :: dir) with
        ⟨path, hpath⟩
      have hliteral := h dir (List.mem_cons_self ..)
      refine ⟨path, .cons ?_ hpath⟩
      simp [processPath, hliteral]

/-- A site at which nothing can be retrieved. -/
def unreachable : Site where
  processRecursive _ _ _ _ := none
  ne_nil := by simp

/-- A search goes on at every site exactly if its last directory is the only one that
may be a pattern. -/
theorem goesOn_all_iff (options : Options) (search : Search) :
    (∀ site, GoesOn site options search) ↔
      ∀ dir ∈ search.dirs.dropLast, isPattern dir = false := by
  constructor
  · intro h
    by_contra hsome
    push Not at hsome
    rcases hsome with ⟨dir, hdir, hpattern⟩
    have hfound : (search.dirs.dropLast.find? isPattern).isSome :=
      List.find?_isSome.mpr ⟨dir, hdir, by simpa using hpattern⟩
    rcases Option.isSome_iff_exists.mp hfound with ⟨first, hfirst⟩
    rcases List.find?_eq_some_iff_append.mp hfirst with ⟨hisPattern, before, after, hsplit, hbefore⟩
    have hne : search.dirs ≠ [] := by
      intro hnil
      rw [hnil] at hdir
      cases hdir
    have hdirs : search.dirs = before ++ first :: (after ++ [search.dirs.getLast hne]) := by
      rw [← List.cons_append, ← List.append_assoc, ← hsplit, List.dropLast_append_getLast hne]
    -- the components before the first pattern are literal
    have hliteral : ∀ d ∈ before, isPattern d = false := fun d hd => by simpa using hbefore d hd
    rcases exists_follows_of_literal unreachable options search.base hliteral [] with ⟨path, hpath⟩
    exact h unreachable before first _ hdirs (by simp) hisPattern path hpath rfl
  · intro h site before pattern after hsplit hafter hpattern
    rw [h pattern (mem_dropLast_of_split hsplit hafter)] at hpattern
    cases hpattern

/-! ## Watch files -/

/-- A watch file of version 3, of which every site has the form `scheme://host/path`. -/
structure WatchFile where
  lines : List Text
  version3 : ∀ line ∈ lines, ∀ number, readLine line = .version number → number = "3".toList
  sites : ∀ line ∈ lines, ∀ text, readLine line = .site text → ∃ search, searchOf text = .ok search

/-- The lines with sites, and the options that are set when it is their turn. -/
def siteLines (options : Options) : List Text → List (Options × Text)
  | [] => []
  | line :: lines =>
      match readLine line with
      | .site text => (options, text) :: siteLines options lines
      | other => siteLines (other.set options) lines

def WatchFile.siteLines (file : WatchFile) (options : Options) : List (Options × Text) :=
  Watch.siteLines { options with versionSeparator := none, releaseScheme := none } file.lines

/-- A scan does not fail by itself: all sites are looked at, and if there is nothing to
find at them, the status says so. -/
structure ScanSafe (site : Site) (options : Options) (file : WatchFile) : Prop where
  returns : ∀ call ∈ file.siteLines options,
    ∃ versions, processLine site call.1 call.2 = .ok versions
  nothing : (∀ call ∈ file.siteLines options, ∀ versions,
      processLine site call.1 call.2 = .ok versions → versions = []) →
    (main site options file.lines).status = 2 ∧
      ∀ obj version pinned, cmdWatch obj version pinned (main site options file.lines) =
        "package scan failed: ".toList ++ obj ++ ": 1".toList

theorem mem_siteLines {options : Options} {lines : List Text} {call : Options × Text}
    (h : call ∈ siteLines options lines) : ∃ line ∈ lines, readLine line = .site call.2 := by
  induction lines generalizing options with
  | nil => cases h
  | cons line lines ih =>
      rw [siteLines] at h
      split at h
      · rename_i text hline
        rcases List.mem_cons.mp h with rfl | h
        · exact ⟨line, List.mem_cons_self .., hline⟩
        · rcases ih h with ⟨line', hmem, hline'⟩
          exact ⟨line', List.mem_cons_of_mem _ hmem, hline'⟩
      · rcases ih h with ⟨line', hmem, hline'⟩
        exact ⟨line', List.mem_cons_of_mem _ hmem, hline'⟩

/-- Nothing is found at all: the run lemma, by induction on the lines. -/
theorem processLines_nothing {site : Site} {options : Options} {lines : List Text}
    (hversion : ∀ line ∈ lines, ∀ number, readLine line = .version number → number = "3".toList)
    (hnothing : ∀ call ∈ siteLines options lines, processLine site call.1 call.2 = .ok []) :
    processLines site options none lines = .ok none := by
  induction lines generalizing options with
  | nil => rfl
  | cons line lines ih =>
      have hrest := fun line' (hmem : line' ∈ lines) => hversion line' (List.mem_cons_of_mem _ hmem)
      rw [siteLines] at hnothing
      rw [processLines]
      split
      · rename_i number hline
        rw [hline] at hnothing
        rw [if_neg (not_not_intro (hversion line (List.mem_cons_self ..) number hline))]
        exact ih hrest hnothing
      · rename_i text hline
        rw [hline] at hnothing
        have hempty := hnothing (options, text) (List.mem_cons_self ..)
        have hlater := ih hrest fun call hcall => hnothing call (List.mem_cons_of_mem _ hcall)
        simp only [hempty, bind, Except.bind]
        exact hlater
      · rename_i hother hsite
        refine ih hrest ?_
        split at hnothing
        · rename_i text hline
          exact absurd hline (hsite text)
        · exact hnothing

theorem main_nothing {site : Site} {options : Options} {file : WatchFile}
    (h : ∀ call ∈ file.siteLines options, processLine site call.1 call.2 = .ok []) :
    main site options file.lines = ⟨2, []⟩ := by
  have hlines := processLines_nothing file.version3 h
  rw [main, processFile, hlines]
  rfl

/-- Scans do not fail exactly as long as every search of the file goes on. -/
theorem scanSafe_iff (site : Site) (options : Options) (file : WatchFile) :
    ScanSafe site options file ↔
      ∀ call ∈ file.siteLines options, ∀ search, searchOf call.2 = .ok search →
        GoesOn site call.1 search := by
  constructor
  · intro h call hcall search hsearch
    exact (processLine_returns_iff hsearch).mp (h.returns call hcall)
  · intro h
    have hreturns : ∀ call ∈ file.siteLines options,
        ∃ versions, processLine site call.1 call.2 = .ok versions := by
      intro call hcall
      rcases mem_siteLines hcall with ⟨line, hmem, hline⟩
      rcases file.sites line hmem call.2 hline with ⟨search, hsearch⟩
      exact (processLine_returns_iff hsearch).mpr (h call hcall search hsearch)
    refine ⟨hreturns, fun hnothing => ?_⟩
    have hempty : ∀ call ∈ file.siteLines options, processLine site call.1 call.2 = .ok [] := by
      intro call hcall
      rcases hreturns call hcall with ⟨versions, hversions⟩
      rw [hversions, hnothing call hcall versions hversions]
    rw [main_nothing hempty]
    exact ⟨rfl, fun obj version pinned => rfl⟩

/-- A site with a pattern for a directory. -/
def twoLevels : Text := "http://host/(.*)/src/foo-(.*)".toList

def twoLevelsSearch : Search :=
  ⟨"http://host".toList, ["(.*)".toList, "src".toList], "foo-(.*)".toList⟩

theorem readLine_twoLevels : readLine twoLevels = .site twoLevels := by decide +kernel

theorem searchOf_twoLevels : searchOf twoLevels = .ok twoLevelsSearch := by decide +kernel

/-- The scan ends with an exception, and a new version is reported. -/
theorem twoLevels_not_scanSafe : ¬ ∀ site options file, ScanSafe site options file := by
  intro h
  have hsafe := h unreachable ⟨false, true, none, none, none⟩ {
    lines := [twoLevels]
    version3 := by
      intro line hline number hread
      rw [List.mem_singleton.mp hline, readLine_twoLevels] at hread
      cases hread
    sites := by
      intro line hline text hread
      rw [List.mem_singleton.mp hline, readLine_twoLevels] at hread
      cases hread
      exact ⟨_, searchOf_twoLevels⟩ }
  have hcall := hsafe.returns (⟨false, true, none, none, none⟩, twoLevels) (by
    rw [WatchFile.siteLines, siteLines, readLine_twoLevels]
    exact List.mem_cons_self ..)
  have hgoes := (processLine_returns_iff searchOf_twoLevels).mp hcall
  exact hgoes [] "(.*)".toList ["src".toList] rfl (List.cons_ne_nil _ _) (by decide) [] .nil rfl

end Pbs.Watch
