import Pbs.Lib.MakeSyntax
import Pbs.Deps.Writers

/-!
# Reading `depends.mk` back

The text that `write_depends` prints is read by the rules of make's syntax. The
rules for `.install` targets come out as they are meant: one for each package
that is printed, with its dependencies on the right side of the bar, and one for
all of them.
-/

namespace Pbs.Deps

open Kconfig
open MakeSyntax hiding Text

/-! ## The rules that are meant -/

def installTarget (path : Text) : Text :=
  text "build/" ++ path ++ text "/.install"

def hashTarget (path : Text) : Text :=
  text "build/" ++ path ++ text ".hash"

/-- The rule of one package. -/
def installRule (ps : Packages) (package : Package) : Rule where
  targets := [installTarget package.path]
  normal := hashTarget package.path ::
    (normalDeps ps package).map fun dep => installTarget (ps.node dep).path
  orderOnly := (stableDeps ps package).map fun dep => installTarget (ps.node dep).path

/-- The rule for all packages. -/
def buildInstallRule (ps : Packages) : Rule where
  targets := [text "build/.install"]
  normal := (emittedPackages ps).map fun package => installTarget package.path
  orderOnly := []

/-- A target ends in `/.install`. -/
def isInstallRule (rule : Rule) : Bool :=
  rule.targets.any fun target => (text "/.install").isSuffixOf target

/-! ## The logical lines -/

theorem word_installTarget {path : Text} (h : Word path) : Word (installTarget path) :=
  (Word.append_left (by decide) h).append (by decide)

theorem word_hashTarget {path : Text} (h : Word path) : Word (hashTarget path) :=
  (Word.append_left (by decide) h).append (by decide)

/-- The logical line of a list of prerequisites. -/
def prereqLine (paths : List Text) : Text :=
  (paths.map installTarget).flatMap fun target => ' ' :: ' ' :: '\t' :: target

theorem joinContinuations_writePrereq {path : Text} (h : Word path) (rest : Text) :
    joinContinuations (writePrereq path ++ rest) =
      ' ' :: ' ' :: '\t' :: installTarget path ++ joinContinuations rest := by
  have hstart : text " \\\n\tbuild/" = ' ' :: '\\' :: '\n' :: '\t' :: text "build/" := by rfl
  have htext : writePrereq path ++ rest =
      ' ' :: '\\' :: '\n' :: '\t' :: (installTarget path ++ rest) := by
    simpa only [writePrereq, installTarget, List.append_assoc, List.cons_append] using
      congrArg (· ++ (path ++ (text "/.install" ++ rest))) hstart
  have hplain : '\\' ∉ installTarget path := (word_installTarget h).plain.not_mem (by decide)
  rw [htext, joinContinuations_cons (by decide), joinContinuations_newline,
    joinContinuations_cons (by decide), joinContinuations_append hplain]
  rfl

theorem joinContinuations_prereqs {α : Type*} (l : List α) (path : α → Text)
    (h : ∀ x ∈ l.map path, Word x) (rest : Text) :
    joinContinuations ((l.flatMap fun a => writePrereq (path a)) ++ rest) =
      prereqLine (l.map path) ++ joinContinuations rest := by
  induction l with
  | nil => rfl
  | cons a l ih =>
      rw [List.map_cons, List.forall_mem_cons] at h
      rw [List.flatMap_cons, List.append_assoc, joinContinuations_writePrereq h.1, ih h.2]
      simp [prereqLine]

/-- The paths of a package and of its dependencies are words. -/
structure WordPaths (ps : Packages) (package : Package) : Prop where
  path : Word package.path
  deps : ∀ dep ∈ package.deps, Word (ps.node dep).path

theorem WordPaths.normal {ps : Packages} {package : Package} (h : WordPaths ps package) :
    ∀ path ∈ (normalDeps ps package).map fun dep => (ps.node dep).path, Word path := by
  intro path hpath
  obtain ⟨dep, hdep, rfl⟩ := List.mem_map.mp hpath
  exact h.deps dep (List.mem_filter.mp hdep).1

theorem WordPaths.stable {ps : Packages} {package : Package} (h : WordPaths ps package) :
    ∀ path ∈ (stableDeps ps package).map fun dep => (ps.node dep).path, Word path := by
  intro path hpath
  obtain ⟨dep, hdep, rfl⟩ := List.mem_map.mp hpath
  exact h.deps dep (List.mem_filter.mp hdep).1

/-- What make reads in a list of prerequisites. -/
theorem words_prereqLine {paths : List Text} (h : ∀ path ∈ paths, Word path) (start : Text) :
    words (start ++ prereqLine paths) = words start ++ paths.map installTarget := by
  refine words_flatMap _ (fun w hw => ?_) start
  obtain ⟨path, hpath, rfl⟩ := List.mem_map.mp hw
  exact word_installTarget (h path hpath)

/-- The characters of a list of prerequisites. -/
theorem mem_prereqLine {paths : List Text} (hpaths : ∀ path ∈ paths, Word path) {c : Char}
    (hc : c ∈ prereqLine paths) : c ≠ '\n' ∧ isMeta c = false := by
  rcases List.mem_flatMap.mp hc with ⟨target, htarget, hc⟩
  rcases List.mem_map.mp htarget with ⟨path, hpath, rfl⟩
  simp only [List.mem_cons] at hc
  rcases hc with rfl | rfl | rfl | hc
  · decide
  · decide
  · decide
  · exact ((word_installTarget (hpaths path hpath)).plain c hc).2

/-- The prerequisites in front of the bar. -/
def normalLine (ps : Packages) (package : Package) : Text :=
  ' ' :: ' ' :: '\t' :: hashTarget package.path ++
    prereqLine ((normalDeps ps package).map fun dep => (ps.node dep).path)

/-- What follows the colon in the rule of a package. -/
def rulePrereqs (ps : Packages) (package : Package) : Text :=
  normalLine ps package ++
    if package.deps.any fun dep => (ps.node dep).stable then
      ' ' :: '|' :: prereqLine ((stableDeps ps package).map fun dep => (ps.node dep).path)
    else []

/-- The characters in front of the bar. -/
theorem mem_normalLine {ps : Packages} {package : Package} (h : WordPaths ps package) {c : Char}
    (hc : c ∈ normalLine ps package) : c ≠ '\n' ∧ isMeta c = false := by
  rcases List.mem_append.mp hc with hc | hc
  · simp only [List.mem_cons] at hc
    rcases hc with rfl | rfl | rfl | hc
    · decide
    · decide
    · decide
    · exact ((word_hashTarget h.path).plain c hc).2
  · exact mem_prereqLine h.normal hc

theorem mem_rulePrereqs {ps : Packages} {package : Package} (h : WordPaths ps package) {c : Char}
    (hc : c ∈ rulePrereqs ps package) : c ≠ '\n' ∧ (isMeta c = false ∨ c = '|') := by
  rcases List.mem_append.mp hc with hc | hc
  · exact (mem_normalLine h hc).imp_right Or.inl
  · split at hc
    · simp only [List.mem_cons] at hc
      rcases hc with rfl | rfl | hc
      · decide
      · decide
      · exact (mem_prereqLine h.stable hc).imp_right Or.inl
    · simp at hc

/-- The part after the bar. -/
def writeStable (ps : Packages) (package : Package) : Text :=
  if package.deps.any fun dep => (ps.node dep).stable then
    text " |" ++ (stableDeps ps package).flatMap fun dep => writePrereq (ps.node dep).path
  else []

theorem joinContinuations_writeStable {ps : Packages} {package : Package}
    (h : WordPaths ps package) (rest : Text) :
    joinContinuations (writeStable ps package ++ '\n' :: rest) =
      (if package.deps.any fun dep => (ps.node dep).stable then
        ' ' :: '|' :: prereqLine ((stableDeps ps package).map fun dep => (ps.node dep).path)
      else []) ++ '\n' :: joinContinuations rest := by
  have hbar : text " |" = [' ', '|'] := by rfl
  unfold writeStable
  split
  · rw [hbar, List.append_assoc, joinContinuations_append (by decide),
      joinContinuations_prereqs _ _ h.stable, joinContinuations_cons (by decide)]
    rfl
  · exact joinContinuations_cons (by decide) rest

/-- The rule of a package is one logical line. -/
theorem isLine_writeRule {ps : Packages} {package : Package} (h : WordPaths ps package) :
    ∃ start, writeRule ps package = start ++ ['\n'] ∧
      IsLine start (installTarget package.path ++ ':' :: rulePrereqs ps package) := by
  have hinstall := (word_installTarget h.path).plain
  have hhash := (word_hashTarget h.path).plain
  have hcolon : text "/.install: \\\n" = text "/.install" ++ [':', ' ', '\\', '\n'] := by rfl
  have htab : text "\tbuild/" = '\t' :: text "build/" := by rfl
  have hend : text "\n\n" = ['\n', '\n'] := by rfl
  -- the text, with the characters that the reader stops at set apart
  refine ⟨installTarget package.path ++ ':' :: ' ' :: '\\' :: '\n' :: '\t' ::
    (hashTarget package.path ++
      ((normalDeps ps package).flatMap (fun dep => writePrereq (ps.node dep).path) ++
        (writeStable ps package ++ ['\n']))), ?_, ?_, ?_, ?_⟩
  · rw [writeRule, hcolon, htab, hend]
    simp only [installTarget, hashTarget, writeStable, List.append_assoc, List.cons_append,
      List.nil_append]
  · intro rest
    simp only [List.append_assoc, List.cons_append, List.nil_append]
    rw [joinContinuations_append (hinstall.not_mem (by decide)),
      joinContinuations_cons (by decide), joinContinuations_cons (by decide),
      joinContinuations_newline, joinContinuations_cons (by decide),
      joinContinuations_append (hhash.not_mem (by decide)),
      joinContinuations_prereqs _ _ h.normal, joinContinuations_writeStable h]
    simp only [rulePrereqs, normalLine, List.append_assoc, List.cons_append]
  · simp only [List.mem_append, List.mem_cons, not_or]
    exact ⟨hinstall.not_mem (by decide), by decide, fun hc => (mem_rulePrereqs h hc).1 rfl⟩
  · have hhead : (installTarget package.path ++ ':' :: rulePrereqs ps package).head? =
        some 'b' := by rfl
    rw [hhead]
    decide

/-- What make reads in front of the bar. -/
theorem words_normalLine {ps : Packages} {package : Package} (h : WordPaths ps package) :
    words (normalLine ps package) = (installRule ps package).normal := by
  rw [normalLine, words_prereqLine h.normal, words_cons (by decide), words_cons (by decide),
    words_cons (by decide), (word_hashTarget h.path).words_eq, List.map_map]
  rfl

/-- What make reads after the bar. -/
theorem words_stableLine {ps : Packages} {package : Package} (h : WordPaths ps package) :
    words (prereqLine ((stableDeps ps package).map fun dep => (ps.node dep).path)) =
      (installRule ps package).orderOnly := by
  have hwords := words_prereqLine h.stable []
  rw [List.nil_append, words_nil, List.nil_append, List.map_map] at hwords
  exact hwords

/-- A character without a meaning ends no part of a rule. -/
theorem ne_of_not_meta {c : Char} (hc : isMeta c = false) :
    c ≠ '#' ∧ c ≠ '$' ∧ c ≠ ';' ∧ c ≠ '|' := by
  refine ⟨?_, ?_, ?_, ?_⟩
  all_goals
    rintro rfl
    exact absurd hc (by decide)

theorem parseRule_rulePrereqs {env : Text → Text} {ps : Packages} {package : Package}
    (h : WordPaths ps package) :
    parseRule env (installTarget package.path) (rulePrereqs ps package) =
      installRule ps package := by
  have htarget := word_installTarget h.path
  by_cases hstable : package.deps.any fun dep => (ps.node dep).stable
  · -- the bar is the first one, so the rule is split there
    have hsplit : rulePrereqs ps package = (normalLine ps package ++ [' ']) ++
        '|' :: prereqLine ((stableDeps ps package).map fun dep => (ps.node dep).path) := by
      simp [rulePrereqs, hstable]
    rw [hsplit, parseRule_orderOnly htarget, words_append (by decide), words_nil,
      List.append_nil, words_normalLine h, words_stableLine h]
    · rfl
    · intro c hc
      rcases List.mem_append.mp hc with hc | hc
      · exact (ne_of_not_meta (mem_normalLine h hc).2).2
      · rw [List.mem_singleton.mp hc]
        decide
    · intro c hc
      have hplain := ne_of_not_meta (mem_prereqLine h.stable hc).2
      exact ⟨hplain.2.1, hplain.2.2.1⟩
  · have hnone : stableDeps ps package = [] := by
      simpa [stableDeps, List.filter_eq_nil_iff] using hstable
    have hsplit : rulePrereqs ps package = normalLine ps package := by
      simp [rulePrereqs, hstable]
    rw [hsplit, parseRule_normal htarget fun c hc => (ne_of_not_meta (mem_normalLine h hc).2).2,
      words_normalLine h]
    simp [installRule, hnone]

/-- The rule of a package is read as it is meant. -/
theorem reads_writeRule {env : Text → Text} {ps : Packages} {package : Package}
    (h : WordPaths ps package) :
    Reads env (writeRule ps package) [.rule (installRule ps package)] := by
  rcases isLine_writeRule h with ⟨start, hstart, hline⟩
  have hcomment : '#' ∉ rulePrereqs ps package := by
    intro hc
    rcases (mem_rulePrereqs h hc).2 with hmeta | hbar
    · exact absurd hmeta (by decide)
    · exact absurd hbar (by decide)
  have hstmt : parseStatement env (installTarget package.path ++ ':' :: rulePrereqs ps package) =
      some (.rule (installRule ps package)) := by
    rw [parseStatement_rule (word_installTarget h.path) hcomment
      (Or.inr ⟨' ', _, rfl, by decide⟩), parseRule_rulePrereqs h]
  rw [hstart]
  exact (hline.reads_item hstmt).append reads_newline

/-! ## The rest of the file -/

/-- The rule for all packages is read as it is meant. -/
theorem reads_buildInstall {env : Text → Text} {ps : Packages}
    (h : ∀ package ∈ emittedPackages ps, Word package.path) :
    Reads env
      (text "build/.install:" ++
        (emittedPackages ps).flatMap (fun package => writePrereq package.path) ++ text "\n\n")
      [.rule (buildInstallRule ps)] := by
  let paths := (emittedPackages ps).map Package.path
  have hpaths : ∀ path ∈ paths, Word path := by
    intro path hpath
    rcases List.mem_map.mp hpath with ⟨package, hpackage, rfl⟩
    exact h package hpackage
  have htarget : Word (text "build/.install") := ⟨by decide, by decide⟩
  have hcolon : text "build/.install:" = text "build/.install" ++ [':'] := by rfl
  have hend : text "\n\n" = ['\n', '\n'] := by rfl
  have hline : IsLine (text "build/.install" ++ ':' ::
      ((emittedPackages ps).flatMap (fun package => writePrereq package.path) ++ ['\n']))
      (text "build/.install" ++ ':' :: prereqLine paths) := by
    constructor
    · intro rest
      simp only [List.append_assoc, List.cons_append, List.nil_append]
      rw [joinContinuations_append (htarget.plain.not_mem (by decide)),
        joinContinuations_cons (by decide), joinContinuations_prereqs _ _ hpaths,
        joinContinuations_cons (by decide)]
    · simp only [List.mem_append, List.mem_cons, not_or]
      exact ⟨htarget.plain.not_mem (by decide), by decide,
        fun hc => (mem_prereqLine hpaths hc).1 rfl⟩
    · have hhead : (text "build/.install" ++ ':' :: prereqLine paths).head? = some 'b' := by rfl
      rw [hhead]
      decide
  have hplain : ∀ c ∈ prereqLine paths, c ≠ '#' ∧ c ≠ '$' ∧ c ≠ ';' ∧ c ≠ '|' :=
    fun c hc => ne_of_not_meta (mem_prereqLine hpaths hc).2
  have hblank : prereqLine paths = [] ∨ ∃ c rest, prereqLine paths = c :: rest ∧ isBlank c := by
    cases paths with
    | nil => exact Or.inl rfl
    | cons path paths => exact Or.inr ⟨' ', _, rfl, by decide⟩
  have hwords : words (prereqLine paths) = (buildInstallRule ps).normal := by
    have hflat := words_prereqLine hpaths []
    rw [List.nil_append, words_nil, List.nil_append, List.map_map] at hflat
    exact hflat
  have hstmt : parseStatement env (text "build/.install" ++ ':' :: prereqLine paths) =
      some (.rule (buildInstallRule ps)) := by
    rw [parseStatement_rule htarget (fun hc => (hplain _ hc).1 rfl) hblank,
      parseRule_normal htarget fun c hc => (hplain c hc).2, hwords]
    rfl
  rw [hcolon, hend]
  simpa only [List.append_assoc, List.cons_append, List.nil_append, List.append_nil] using
    (hline.reads_item hstmt).append reads_newline

/-- The pattern rule for the hashes. -/
theorem reads_hashRule {env : Text → Text} :
    Reads env (text "build/%.hash: %/Makefile\n" ++ text "\t$(call cmd,hash_file)\n")
      [.rule ⟨[text "build/%.hash"], [text "%/Makefile"], []⟩,
        .recipe (text "$(call cmd,hash_file)")] := by
  have hline : IsLine (text "build/%.hash: %/Makefile" ++ ['\n'])
      (text "build/%.hash: %/Makefile") :=
    IsLine.of_not_mem (by decide) (by decide) (by decide)
  have htext : text "build/%.hash: %/Makefile\n" = text "build/%.hash: %/Makefile" ++ ['\n'] := by
    rfl
  rw [htext]
  refine hline.reads_recipe (by rfl) (fun rest => ?_) (by decide)
  rw [joinContinuations_append (by decide)]
  rfl

/-- The characters of a line around a path that end no line and start no
comment. -/
theorem not_mem_around {path : Text} (h : Word path) {start stop : Text} {c : Char}
    (hc : c = '\n' ∨ c = '\\' ∨ c = '#') (hstart : c ∉ start) (hstop : c ∉ stop) :
    c ∉ start ++ path ++ stop := by
  have hpath : c ∉ path := by
    rcases hc with rfl | rfl | rfl
    · exact h.plain.not_mem (by decide)
    · exact h.plain.not_mem (by decide)
    · exact h.plain.not_mem (by decide)
  simp [hstart, hpath, hstop]

/-- A line around a path is a logical line. -/
theorem isLine_around {path : Text} (h : Word path) (start stop : Text)
    (hstart : '\n' ∉ start ∧ '\\' ∉ start) (hstop : '\n' ∉ stop ∧ '\\' ∉ stop)
    (htab : ∃ c rest, start = c :: rest ∧ c ≠ '\t') :
    IsLine (start ++ path ++ stop ++ ['\n']) (start ++ path ++ stop) := by
  refine IsLine.of_not_mem (not_mem_around h (by decide) hstart.2 hstop.2)
    (not_mem_around h (by decide) hstart.1 hstop.1) ?_
  rcases htab with ⟨c, rest, rfl, hc⟩
  simpa using hc

/-- The line that ties a hash to a `depends.mk` is a rule for the hash. -/
theorem reads_writeHashLine {env : Text → Text} {package : Package} (h : Word package.path) :
    ∃ rule, Reads env (writeHashLine package) [.rule rule] ∧
      rule.targets = [hashTarget package.path] := by
  have htarget := word_hashTarget h
  let after : Text := ' ' :: text "$(wildcard $(srctree)/" ++ package.path ++ text "/depends.mk)"
  have hcolon : text ".hash: $(wildcard $(srctree)/" =
      text ".hash" ++ ':' :: ' ' :: text "$(wildcard $(srctree)/" := by rfl
  have hend : text "/depends.mk)\n" = text "/depends.mk)" ++ ['\n'] := by rfl
  have hafter : ∀ c, c = '\n' ∨ c = '\\' ∨ c = '#' → c ∉ after := by
    intro c hc
    have hlit : c ∉ ' ' :: text "$(wildcard $(srctree)/" ∧ c ∉ text "/depends.mk)" := by
      rcases hc with rfl | rfl | rfl <;> decide
    exact not_mem_around h hc hlit.1 hlit.2
  have hline : IsLine (hashTarget package.path ++ ':' :: after ++ ['\n'])
      (hashTarget package.path ++ ':' :: after) := by
    refine IsLine.of_not_mem ?_ ?_ ?_
    · simp [htarget.plain.not_mem (c := '\\') (by decide), hafter '\\' (by decide)]
    · simp [htarget.plain.not_mem (c := '\n') (by decide), hafter '\n' (by decide)]
    · have hhead : (hashTarget package.path ++ ':' :: after).head? = some 'b' := by rfl
      rw [hhead]
      decide
  refine ⟨parseRule env (hashTarget package.path) after, ?_, parseRule_targets htarget after⟩
  have hreads := hline.reads_item (@parseStatement_rule env _ _ htarget
    (hafter '#' (by decide)) (Or.inr ⟨' ', _, rfl, by decide⟩))
  rw [writeHashLine, hcolon, hend]
  simpa only [hashTarget, after, List.append_assoc, List.cons_append, List.nil_append] using hreads

/-- An assignment with a path in its value. -/
theorem reads_assign {env : Text → Text} {path name : Text} (h : Word path) (hname : Word name)
    (hinclude : name ∉ includeWords) (start stop : Text)
    (hstart : '\n' ∉ start ∧ '\\' ∉ start ∧ '#' ∉ start)
    (hstop : '\n' ∉ stop ∧ '\\' ∉ stop ∧ '#' ∉ stop) :
    ∃ value, Reads env (name ++ ' ' :: ':' :: '=' :: start ++ path ++ stop ++ ['\n'])
      [.assign (trim (name ++ [' '])) value] := by
  have hline : IsLine (name ++ ' ' :: ':' :: '=' :: start ++ path ++ stop ++ ['\n'])
      (name ++ ' ' :: ':' :: '=' :: start ++ path ++ stop) := by
    refine isLine_around h _ _ ⟨?_, ?_⟩ ⟨hstop.1, hstop.2.1⟩ ?_
    · simp [hname.plain.not_mem (c := '\n') (by decide), hstart.1]
    · simp [hname.plain.not_mem (c := '\\') (by decide), hstart.2.1]
    · cases hcons : name with
      | nil => exact absurd hcons hname.nonempty
      | cons c rest =>
          refine ⟨c, _, rfl, fun htab => ?_⟩
          have hblank := (hname.plain c (by simp [hcons])).1
          simp [htab, isBlank] at hblank
  have hcomment := not_mem_around h (by decide) hstart.2.2 hstop.2.2
  have hstmt := @parseStatement_assign env name _ hname hinclude hcomment
  refine ⟨trim (start ++ path ++ stop), hline.reads_item ?_⟩
  simpa only [List.append_assoc, List.cons_append] using hstmt

/-- The lines that include a `depends.mk` hold no rule. -/
theorem reads_writeInclude {env : Text → Text} {package : Package} (h : Word package.path) :
    ∃ items, Reads env (writeInclude package) items ∧ rules items = [] := by
  have hhashFile : Word (text "dep-hash-file") := ⟨by decide, by decide⟩
  have hobjName : Word (text "dep-obj") := ⟨by decide, by decide⟩
  have hincludeWord : Word (text "-include") := ⟨by decide, by decide⟩
  rcases @reads_assign env _ _ h hhashFile (by decide) (text " build/") (text ".hash")
    (by decide) (by decide) with ⟨hashFile, hhash⟩
  rcases @reads_assign env _ _ h hobjName (by decide) [' '] [] (by decide) (by decide) with
    ⟨obj, hobj⟩
  have hinclude : Reads env (text "-include " ++ package.path ++ text "/depends.mk" ++ ['\n'])
      [.include (words (package.path ++ text "/depends.mk"))] := by
    refine (isLine_around h (text "-include ") (text "/depends.mk") (by decide) (by decide)
      ⟨'-', _, rfl, by decide⟩).reads_item ?_
    have hcomment := @not_mem_around _ h [] (text "/depends.mk") '#' (by decide) (by decide)
      (by decide)
    exact @parseStatement_include env _ _ hincludeWord (by decide) hcomment
  have hhashText : text "dep-hash-file := build/" =
      text "dep-hash-file" ++ ' ' :: ':' :: '=' :: text " build/" := by rfl
  have hobjText : text "dep-obj := " = text "dep-obj" ++ ' ' :: ':' :: '=' :: [' '] := by rfl
  have hhashEnd : text ".hash\n" = text ".hash" ++ ['\n'] := by rfl
  have hincludeEnd : text "/depends.mk\n" = text "/depends.mk" ++ ['\n'] := by rfl
  have hnewline : text "\n" = ['\n'] := by rfl
  have hreads := ((reads_newline.append hhash).append hobj).append hinclude
  have htext : writeInclude package =
      ['\n'] ++ (text "dep-hash-file" ++ ' ' :: ':' :: '=' :: text " build/" ++ package.path ++
        text ".hash" ++ ['\n']) ++
      (text "dep-obj" ++ ' ' :: ':' :: '=' :: [' '] ++ package.path ++ [] ++ ['\n']) ++
      (text "-include " ++ package.path ++ text "/depends.mk" ++ ['\n']) := by
    rw [writeInclude, hhashText, hobjText, hhashEnd, hincludeEnd, hnewline]
    simp only [List.append_assoc, List.cons_append, List.nil_append]
  exact ⟨_, htext ▸ hreads, rfl⟩

/-! ## The whole file -/

/-- Pieces that each are read as rules with a property are read as such rules. -/
theorem reads_flatMap_rules {env : Text → Text} {P : Rule → Prop} (l : List Package)
    (f : Package → Text)
    (h : ∀ package ∈ l, ∃ items, Reads env (f package) items ∧ ∀ r ∈ rules items, P r) :
    ∃ items, Reads env (l.flatMap f) items ∧ ∀ r ∈ rules items, P r := by
  induction l with
  | nil => exact ⟨[], Reads.nil, by simp [rules]⟩
  | cons package l ih =>
      rcases h package (List.mem_cons_self ..) with ⟨items, hitems, hP⟩
      rcases ih fun q hq => h q (List.mem_cons_of_mem package hq) with ⟨items', hitems', hP'⟩
      refine ⟨items ++ items', hitems.append hitems', fun r hr => ?_⟩
      rw [rules, List.filterMap_append, List.mem_append] at hr
      exact hr.elim (hP r) (hP' r)

theorem not_install_hashTarget (path : Text) :
    (text "/.install").isSuffixOf (hashTarget path) = false := by
  rw [← Bool.not_eq_true, List.isSuffixOf_iff_suffix]
  rintro ⟨start, hstart⟩
  -- the last characters differ
  have hinstall : text "/.install" = text "/.instal" ++ ['l'] := by rfl
  have hhash : text ".hash" = text ".has" ++ ['h'] := by rfl
  rw [hashTarget, hinstall, hhash, ← List.append_assoc, ← List.append_assoc] at hstart
  have hlast := congrArg List.getLast? hstart
  simp at hlast

theorem install_installTarget (path : Text) :
    (text "/.install").isSuffixOf (installTarget path) = true := by
  rw [List.isSuffixOf_iff_suffix]
  exact List.suffix_append ..

theorem installTarget_injective : Function.Injective installTarget := by
  intro x y hxy
  simp only [installTarget, List.append_assoc] at hxy
  exact List.append_cancel_right (List.append_cancel_left hxy)

/-- The rules that make reads in the file. -/
theorem rules_writeDepends {env : Text → Text} {ps : Packages}
    (h : ∀ package ∈ emittedPackages ps, WordPaths ps package) :
    ∃ others, rules (parse env (writeDepends ps)) =
      (emittedPackages ps).map (installRule ps) ++ [buildInstallRule ps] ++ others ∧
      ∀ r ∈ others, isInstallRule r = false := by
  have hpath : ∀ package ∈ emittedPackages ps, Word package.path := fun q hq => (h q hq).path
  have hinstall : Reads env ((emittedPackages ps).flatMap (writeRule ps))
      ((emittedPackages ps).flatMap fun package => [.rule (installRule ps package)]) :=
    Reads.flatMap fun package hpackage => reads_writeRule (h package hpackage)
  rcases @reads_flatMap_rules env (fun r => isInstallRule r = false) (emittedPackages ps)
    writeHashLine fun package hpackage => by
      rcases @reads_writeHashLine env _ (hpath package hpackage) with ⟨rule, hrule, htargets⟩
      refine ⟨_, hrule, fun r hr => ?_⟩
      have hr' : r = rule := by simpa [rules, Item.rule?] using hr
      simp [hr', isInstallRule, htargets, not_install_hashTarget] with
    ⟨hashItems, hhash, hhashRules⟩
  rcases @reads_flatMap_rules env (fun r => isInstallRule r = false) (emittedPackages ps)
    writeInclude fun package hpackage => by
      rcases @reads_writeInclude env _ (hpath package hpackage) with ⟨items, hitems, hrules⟩
      exact ⟨items, hitems, by simp [hrules]⟩ with
    ⟨includeItems, hinclude, hincludeRules⟩
  have hnewline : Reads env (text "\n") [] := reads_newline
  have hreads := ((((hinstall.append (reads_buildInstall hpath)).append reads_hashRule).append
    hnewline).append hhash).append hinclude
  have hparse : parse env (writeDepends ps) =
      (emittedPackages ps).flatMap (fun package => [.rule (installRule ps package)]) ++
        .rule (buildInstallRule ps) :: .rule ⟨[text "build/%.hash"], [text "%/Makefile"], []⟩ ::
          .recipe (text "$(call cmd,hash_file)") :: (hashItems ++ includeItems) := by
    simpa only [writeDepends, List.append_assoc, List.cons_append, List.nil_append] using
      hreads.parse
  -- besides the rules that are meant there are those for the hashes
  refine ⟨⟨[text "build/%.hash"], [text "%/Makefile"], []⟩ ::
    (rules hashItems ++ rules includeItems), ?_, ?_⟩
  · rw [hparse]
    have hrecipe : Item.rule? (.recipe (text "$(call cmd,hash_file)")) = none := rfl
    simp [rules, Item.rule?, List.filterMap_flatMap, List.map_eq_flatMap,
      List.filterMap_cons_none hrecipe]
  · intro r hr
    simp only [List.mem_cons, List.mem_append] at hr
    rcases hr with rfl | hr | hr
    · decide
    · exact hhashRules r hr
    · exact hincludeRules r hr

/-- Exactly one element of a list has the key of a given one, if the keys
differ. -/
theorem filter_eq_singleton {α β : Type*} [DecidableEq β] {l : List α} {key : α → β}
    (hl : (l.map key).Nodup) {a : α} (ha : a ∈ l) : l.filter (fun b => key b = key a) = [a] := by
  induction l with
  | nil => simp at ha
  | cons b l ih =>
      rw [List.map_cons, List.nodup_cons] at hl
      rcases List.mem_cons.mp ha with rfl | ha
      · have hnone : l.filter (fun b => key b = key a) = [] := by
          refine List.filter_eq_nil_iff.mpr fun b hb => ?_
          simpa using fun heq : key b = key a => hl.1 (heq ▸ List.mem_map_of_mem hb)
        simp [hnone]
      · have hne : key b ≠ key a := fun heq => hl.1 (heq ▸ List.mem_map_of_mem ha)
        simp [hne, ih hl.2 ha]

/-- Reading `depends.mk` back: the `.install` rules are those of the packages
that are not skipped and the rule for all of them, and each of these packages
has exactly one. -/
theorem parse_writeDepends (env : Text → Text) (ps : Packages)
    (hclosed : ∀ p ∈ ps.list, ∀ d ∈ (ps.node p).deps, d ∈ ps.list)
    (hword : ∀ p ∈ ps.list, Word (ps.node p).path)
    (hdistinct : (ps.list.map fun p => (ps.node p).path).Nodup) :
    (rules (parse env (writeDepends ps))).filter isInstallRule =
      (emittedPackages ps).map (installRule ps) ++ [buildInstallRule ps] ∧
    ∀ package ∈ emittedPackages ps,
      (rules (parse env (writeDepends ps))).filter
        (fun rule => installTarget package.path ∈ rule.targets) = [installRule ps package] := by
  have hlisted : ∀ package ∈ emittedPackages ps, ∃ p ∈ ps.list, ps.node p = package := by
    intro package hpackage
    exact List.mem_map.mp (List.mem_filter.mp hpackage).1
  have hpaths : ∀ package ∈ emittedPackages ps, WordPaths ps package := by
    intro package hpackage
    rcases hlisted package hpackage with ⟨p, hp, rfl⟩
    exact ⟨hword p hp, fun d hd => hword d (hclosed p hp d hd)⟩
  rcases @rules_writeDepends env ps hpaths with ⟨others, hrules, hothers⟩
  have hinstall : ∀ package, isInstallRule (installRule ps package) := fun package => by
    simp [isInstallRule, installRule, install_installTarget]
  have hall : isInstallRule (buildInstallRule ps) = true := by rfl
  have hfirst : (rules (parse env (writeDepends ps))).filter isInstallRule =
      (emittedPackages ps).map (installRule ps) ++ [buildInstallRule ps] := by
    have hnone : others.filter isInstallRule = [] :=
      List.filter_eq_nil_iff.mpr fun r hr => by simp [hothers r hr]
    have hsome : ((emittedPackages ps).map (installRule ps)).filter isInstallRule =
        (emittedPackages ps).map (installRule ps) :=
      List.filter_eq_self.mpr fun r hr => by
        rcases List.mem_map.mp hr with ⟨package, _, rfl⟩
        exact hinstall package
    rw [hrules, List.filter_append, List.filter_append, hnone, hsome, List.append_nil,
      List.filter_singleton, hall]
    rfl
  refine ⟨hfirst, fun package hpackage => ?_⟩
  -- only an `.install` rule has the target
  have honly : (rules (parse env (writeDepends ps))).filter
      (fun rule => installTarget package.path ∈ rule.targets) =
      ((rules (parse env (writeDepends ps))).filter isInstallRule).filter
        (fun rule => installTarget package.path ∈ rule.targets) := by
    rw [List.filter_filter]
    refine List.filter_congr fun r _ => ?_
    by_cases hr : installTarget package.path ∈ r.targets
    · have hinstallRule : isInstallRule r :=
        List.any_eq_true.mpr ⟨_, hr, install_installTarget package.path⟩
      simp [hr, hinstallRule]
    · simp [hr]
  have hbuild : installTarget package.path ∉ (buildInstallRule ps).targets := by
    intro hmem
    -- the path is not empty, so the target is longer
    have hlength := congrArg List.length (List.mem_singleton.mp hmem)
    have hne := List.length_pos_iff.mpr (hpaths package hpackage).path.nonempty
    have hlong : (installTarget package.path).length = package.path.length + 15 := by
      simp [installTarget, text, Nat.add_comm, Nat.add_left_comm]
    have hshort : (text "build/.install").length = 14 := by rfl
    omega
  have hkey : (fun rule : Rule => decide (installTarget package.path ∈ rule.targets)) ∘
      installRule ps = fun other => decide (other.path = package.path) := by
    funext other
    simp [installRule, installTarget_injective.eq_iff, eq_comm]
  have hnodup : ((emittedPackages ps).map Package.path).Nodup := by
    have hsub : ((emittedPackages ps).map Package.path).Sublist
        (ps.list.map fun p => (ps.node p).path) := by
      have hmap := (List.filter_sublist (p := emitted) (l := ps.list.map ps.node)).map Package.path
      rwa [List.map_map] at hmap
    exact hdistinct.sublist hsub
  rw [honly, hfirst, List.filter_append, List.filter_map, hkey,
    filter_eq_singleton hnodup hpackage, List.filter_singleton]
  simp [hbuild]

/-- `a` depends on `b` and on the stable package `c`. -/
def stableDependency : Packages := Packages.ofTable
  [tablePackage false 'a' [1, 2], tablePackage false 'b' [],
    { tablePackage false 'c' [] with stable := true }]

theorem parse_writeDepends_stableDependency :
    (rules (parse id (writeDepends stableDependency))).filter isInstallRule =
      (emittedPackages stableDependency).map (installRule stableDependency) ++
        [buildInstallRule stableDependency] ∧
    ∀ package ∈ emittedPackages stableDependency,
      (rules (parse id (writeDepends stableDependency))).filter
        (fun rule => installTarget package.path ∈ rule.targets) =
        [installRule stableDependency package] :=
  parse_writeDepends id stableDependency (by decide) (by decide) (by decide)

end Pbs.Deps
