import Pbs.Kconfig.Source
import Mathlib.Data.List.Forall2
import Mathlib.Logic.Relation

/-!
# What a `glob_source` line means

A `source` line for each path that matches would be read in the order in which
`glob` returns the paths. The buffers of a `glob_source` line are all pushed before
the first of them is read, and without a match the parse ends. So the two mean the
same for a single match, and only then.
-/

namespace Pbs.Kconfig.Zconf

/-! ## `glob_source` and `source` -/

/-- The environment in which a file has other lines. -/
def Environment.replace (env : Environment) (file : Text) (lines : List Line) : Environment :=
  { env with fopen := fun other => if other = file then some lines else env.fopen other }

/-- `glob_source` means the sources it matches, for patterns for which `glob` finds
`result`: wherever such a line stands, the parse comes to the same end with a
`source` line for each path. -/
def MeansSources (result : GlobResult) : Prop :=
  ∀ (env : Environment) (name file pattern : Text) (before after : List Line),
    env.fopen file = some (before ++ .globSource pattern :: after) →
    globResults env pattern = result →
    ∀ r, ParsesTo env name r ↔
      ParsesTo (env.replace file (before ++ result.pathv.map .source ++ after)) name r

/-! ## A single match -/

variable {env env' : Environment} {st st' : ParseState} {name file pattern path : Text}
  {line : Line} {lines : List Line}

/-- A `glob_source` line may have been replaced by a `source` line. -/
inductive Replaced (pattern path : Text) : List Line → List Line → Prop where
  | same (lines : List Line) : Replaced pattern path lines lines
  | there (before after : List Line) :
      Replaced pattern path (before ++ .globSource pattern :: after)
        (before ++ .source path :: after)

/-- Two states in which the same has been read, and what is left to read is the same
up to the replaced line. -/
structure Matches (pattern path : Text) (st st' : ParseState) : Prop where
  buffers : List.Forall₂ (Replaced pattern path) st.buffers st'.buffers
  rest : st' = { st with buffers := st'.buffers }

/-- Steps that end alike or lead to states that match. -/
inductive Agree (pattern path : Text) :
    Except ParseResult ParseState → Except ParseResult ParseState → Prop where
  | error (result : ParseResult) : Agree pattern path (.error result) (.error result)
  | ok {st st' : ParseState} (h : Matches pattern path st st') :
      Agree pattern path (.ok st) (.ok st')

theorem Matches.of_buffers {buffers : List (List Line)}
    (h : List.Forall₂ (Replaced pattern path) st.buffers buffers) :
    Matches pattern path st { st with buffers := buffers } := ⟨h, rfl⟩

theorem runStatement_agree (h : Matches pattern path st st') (line : Line) :
    Agree pattern path (runStatement st line) (runStatement st' line) := by
  rcases h with ⟨hbuffers, hrest⟩
  rw [hrest]
  cases line with
  | mainmenu prompt => exact .error _
  | entry kind data => exact .ok (.of_buffers hbuffers)
  | block kind data =>
      cases kind with
      | ifBlock => exact .ok (.of_buffers hbuffers)
      | choice =>
          simp only [runStatement]
          split
          · exact .error _
          · exact .ok (.of_buffers hbuffers)
      | menu =>
          simp only [runStatement]
          split
          · exact .error _
          · exact .ok (.of_buffers hbuffers)
  | option kind data =>
      simp only [runStatement]
      split
      · exact .error _
      · exact .ok (.of_buffers hbuffers)
  | endBlock kind =>
      have hend : zconfEndtoken { st with buffers := st'.buffers } kind = zconfEndtoken st kind :=
        rfl
      simp only [runStatement, hend]
      cases zconfEndtoken st kind with
      | true => exact .ok (.of_buffers hbuffers)
      | false => exact .error _
  | source path => exact .error _
  | globSource pattern => exact .error _
  | invalid => exact .error _

/-- The files are the same up to the replaced line. -/
structure SameFiles (pattern path : Text) (env env' : Environment) : Prop where
  fopen : ∀ name, Option.Rel (Replaced pattern path) (env.fopen name) (env'.fopen name)
  glob : env'.glob = env.glob
  srctree : env'.srctree = env.srctree

theorem SameFiles.zconfFopen (h : SameFiles pattern path env env') (name : Text) :
    Option.Rel (Replaced pattern path) (zconfFopen env name) (zconfFopen env' name) := by
  have hname := h.fopen name
  unfold Zconf.zconfFopen
  rw [h.srctree]
  cases hlines : env.fopen name <;> cases hlines' : env'.fopen name <;>
    rw [hlines, hlines'] at hname <;> cases hname
  · -- the file is looked for below `srctree`
    dsimp only
    split
    · exact .none
    · split
      · exact h.fopen _
      · exact .none
  · rename_i hreplaced
    exact .some hreplaced

theorem SameFiles.globResults (h : SameFiles pattern path env env') (other : Text) :
    globResults env' other = globResults env other := by
  rw [Zconf.globResults, Zconf.globResults, h.glob, h.srctree]

theorem zconfNextfile_agree (hfiles : SameFiles pattern path env env')
    (h : Matches pattern path st st') (name : Text) :
    Agree pattern path (zconfNextfile env st name) (zconfNextfile env' st' name) := by
  rcases h with ⟨hbuffers, hrest⟩
  rw [hrest]
  have hname := hfiles.zconfFopen name
  cases hlines : zconfFopen env name <;> cases hlines' : zconfFopen env' name <;>
    rw [hlines, hlines'] at hname <;> cases hname
  · simp only [zconfNextfile, hlines, hlines']
    exact .error _
  · rename_i hreplaced
    simp only [zconfNextfile, hlines, hlines']
    split
    · exact .error _
    · split
      · exact .error _
      · exact .ok (.of_buffers (.cons hreplaced hbuffers))

theorem foldlM_zconfNextfile_agree (hfiles : SameFiles pattern path env env')
    (h : Matches pattern path st st') (names : List Text) :
    Agree pattern path (names.foldlM (zconfNextfile env) st)
      (names.foldlM (zconfNextfile env') st') := by
  induction names generalizing st st' with
  | nil => exact .ok h
  | cons name names ih =>
      rw [List.foldlM_cons, List.foldlM_cons]
      cases hr : zconfNextfile env st name <;> cases hr' : zconfNextfile env' st' name <;>
        have hagree := zconfNextfile_agree hfiles h name <;> rw [hr, hr'] at hagree <;>
        cases hagree
      · exact .error _
      · rename_i hmatch
        exact ih hmatch

theorem Matches.finish (h : Matches pattern path st st') : st'.finish = st.finish := by
  rw [h.rest]
  rfl

theorem Matches.accept (h : Matches pattern path st st') : st'.accept = st.accept := by
  rw [h.rest]
  rfl

theorem Matches.closed (h : Matches pattern path st st') :
    Matches pattern path { st with options := none } { st' with options := none } := by
  refine ⟨h.buffers, ?_⟩
  rw [h.rest]

theorem Matches.begin (h : Matches pattern path st st') :
    Matches pattern path { st with begun := true } { st' with begun := true } := by
  refine ⟨h.buffers, ?_⟩
  rw [h.rest]

theorem Matches.currentFile (h : Matches pattern path st st') :
    st'.currentFile = st.currentFile := by
  rw [h.rest]

theorem Matches.read {buffers buffers' : List (List Line)} (h : Matches pattern path st st')
    (hbuffers : List.Forall₂ (Replaced pattern path) buffers buffers') :
    Matches pattern path { st.flush with buffers := buffers }
      { st'.flush with buffers := buffers' } := by
  refine ⟨hbuffers, ?_⟩
  rw [h.rest]
  unfold ParseState.flush
  dsimp only
  split <;> rfl

theorem runLine_agree (hfiles : SameFiles pattern path env env')
    (h : Matches pattern path st st') (line : Line) :
    Agree pattern path (runLine env st line) (runLine env' st' line) := by
  have hbegun := h.begin
  have hclosed := hbegun.closed
  cases line with
  | mainmenu prompt =>
      rw [h.rest]
      simp only [runLine, mainmenuStmt]
      split
      · exact .error _
      · exact .ok (.of_buffers h.buffers)
  | source name => exact zconfNextfile_agree hfiles hclosed name
  | globSource other =>
      simp only [runLine, globSourceStmt, hfiles.globResults, hbegun.accept]
      split
      · exact .error _
      · exact foldlM_zconfNextfile_agree hfiles hclosed _
  | entry kind data => exact runStatement_agree hbegun (.entry kind data)
  | block kind data => exact runStatement_agree hbegun (.block kind data)
  | option kind data => exact runStatement_agree hbegun (.option kind data)
  | endBlock kind => exact runStatement_agree hbegun (.endBlock kind)
  | invalid => exact runStatement_agree hbegun .invalid

/-- With a single match, the line pushes the same buffer as a `source` line. -/
theorem globSource_agree (hfiles : SameFiles pattern path env env')
    (hresult : (globResults env pattern).pathv = [path]) (h : Matches pattern path st st') :
    Agree pattern path (runLine env st (.globSource pattern))
      (runLine env' st' (.source path)) := by
  have hclosed := h.begin.closed
  have hpush : runLine env st (.globSource pattern) =
      [path].foldlM (zconfNextfile env) { st with begun := true, options := none } := by
    cases hglob : globResults env pattern with
    | noMatch =>
        rw [hglob] at hresult
        exact absurd hresult (by simp [GlobResult.pathv])
    | paths pathv nodup =>
        rw [hglob] at hresult
        simp only [GlobResult.pathv] at hresult
        simp only [runLine, globSourceStmt, hglob, hresult]
  have hsource : runLine env' st' (.source path) =
      [path].foldlM (zconfNextfile env') { st' with begun := true, options := none } := by
    simp only [runLine, sourceStmt, List.foldlM_cons, List.foldlM_nil]
    exact (bind_pure _).symm
  rw [hpush, hsource]
  exact foldlM_zconfNextfile_agree hfiles hclosed [path]

theorem step_agree (hfiles : SameFiles pattern path env env')
    (hresult : (globResults env pattern).pathv = [path]) (h : Matches pattern path st st') :
    Agree pattern path (step env st) (step env' st') := by
  have hbuffers := h.buffers
  unfold step
  rw [h.finish, h.currentFile]
  rcases hst : st.buffers with _ | ⟨lines, buffers⟩ <;>
    rcases hst' : st'.buffers with _ | ⟨lines', buffers'⟩ <;>
    rw [hst, hst'] at hbuffers <;> cases hbuffers
  · exact .error _
  · rename_i hlines hrest
    -- what is read is the same line, or the line that has been replaced
    have hline : ∀ {line : Line} {rest rest' : List Line}, Replaced pattern path rest rest' →
        Agree pattern path (runLine env { st.flush with buffers := rest :: buffers } line)
          (runLine env' { st'.flush with buffers := rest' :: buffers' } line) :=
      fun hreplaced => runLine_agree hfiles (h.read (.cons hreplaced hrest)) _
    cases hlines with
    | same =>
        cases lines with
        | nil =>
            cases hfile : st.currentFile with
            | none => exact .error _
            | some name =>
                refine .ok ⟨?_, ?_⟩
                · simpa [zconfEndfile, hst, hst'] using hrest
                · rw [h.rest]
                  rfl
        | cons line rest => exact hline (.same rest)
    | there before after =>
        cases before with
        | nil =>
            exact globSource_agree hfiles hresult (h.read (.cons (.same after) hrest))
        | cons line before => exact hline (.there before after)

theorem zconfparse_agree (hfiles : SameFiles pattern path env env')
    (hresult : (globResults env pattern).pathv = [path]) (h : Matches pattern path st st')
    (fuel : ℕ) : zconfparse env fuel st = zconfparse env' fuel st' := by
  induction fuel generalizing st st' with
  | zero => rfl
  | succ fuel ih =>
      have hagree := step_agree hfiles hresult h
      unfold zconfparse
      cases hstep : step env st <;> cases hstep' : step env' st' <;>
        rw [hstep, hstep'] at hagree <;> cases hagree
      · rfl
      · rename_i hmatch
        exact ih hmatch

theorem sameFiles_replace {before after : List Line}
    (hfile : env.fopen file = some (before ++ .globSource pattern :: after)) :
    SameFiles pattern path env (env.replace file (before ++ .source path :: after)) := by
  refine ⟨fun other => ?_, rfl, rfl⟩
  unfold Environment.replace
  dsimp only
  split
  · rename_i heq
    rw [heq, hfile]
    exact .some (.there before after)
  · cases env.fopen other with
    | none => exact .none
    | some lines => exact .some (.same lines)

theorem confParse_agree {before after : List Line}
    (hfile : env.fopen file = some (before ++ .globSource pattern :: after))
    (hresult : (globResults env pattern).pathv = [path]) (fuel : ℕ) (name : Text) :
    confParse env fuel name =
      confParse (env.replace file (before ++ .source path :: after)) fuel name := by
  have hfiles : SameFiles pattern path env (env.replace file (before ++ .source path :: after)) :=
    sameFiles_replace hfile
  have hname := hfiles.zconfFopen name
  unfold confParse zconfInitscan
  generalize zconfFopen env name = lines at hname
  generalize zconfFopen (env.replace file (before ++ .source path :: after)) name = lines' at hname
  cases hname with
  | none => rfl
  | some hreplaced =>
      exact zconfparse_agree hfiles hresult (.of_buffers (.cons hreplaced .nil)) fuel

/-! ## The end of a parse -/

theorem zconfparse_mono {fuel : ℕ} {result : ParseResult}
    (h : zconfparse env fuel st = some result) (more : ℕ) :
    zconfparse env (fuel + more) st = some result := by
  induction fuel generalizing st with
  | zero => exact absurd h (by simp [zconfparse])
  | succ fuel ih =>
      rw [Nat.add_right_comm]
      unfold zconfparse at h ⊢
      cases hstep : step env st with
      | error r =>
          rw [hstep] at h
          exact h
      | ok st' =>
          rw [hstep] at h
          exact ih h

theorem ParsesTo.unique {r r' : ParseResult} (h : ParsesTo env name r)
    (h' : ParsesTo env name r') : r = r' := by
  rcases h with ⟨fuel, hfuel⟩
  rcases h' with ⟨fuel', hfuel'⟩
  unfold confParse at hfuel hfuel'
  cases hscan : zconfInitscan env name with
  | none =>
      rw [hscan] at hfuel hfuel'
      exact Option.some_inj.mp (hfuel.symm.trans hfuel')
  | some st =>
      rw [hscan] at hfuel hfuel'
      have hmono := zconfparse_mono hfuel fuel'
      have hmono' := zconfparse_mono hfuel' fuel
      rw [Nat.add_comm] at hmono'
      exact Option.some_inj.mp (hmono.symm.trans hmono')

/-- Steps that do not end the parse. -/
def Steps (env : Environment) : ParseState → ParseState → Prop :=
  Relation.ReflTransGen fun st st' => step env st = .ok st'

theorem Steps.parses {result : ParseResult} (h : Steps env st st')
    (hend : ∃ fuel, zconfparse env fuel st' = some result) :
    ∃ fuel, zconfparse env fuel st = some result := by
  induction h using Relation.ReflTransGen.head_induction_on with
  | refl => exact hend
  | head hstep _ ih =>
      rcases ih with ⟨fuel, hfuel⟩
      refine ⟨fuel + 1, ?_⟩
      unfold zconfparse
      rw [hstep]
      exact hfuel

/-- At the end of the first file the parse ends. -/
theorem zconfparse_end (env : Environment) (hbuffers : st.buffers = [[]])
    (hfile : st.currentFile = some name)
    (hparent : (st.file name).parent = none) (hpending : st.pendingIf = none)
    (hblocks : st.blocks = []) :
    ∃ fuel, zconfparse env fuel st = some (.parsed st.events) := by
  refine ⟨2, ?_⟩
  have hstep : step env st = .ok (zconfEndfile st name) := by
    simp [step, hbuffers, hfile]
  have hend : step env (zconfEndfile st name) = .error (.parsed st.events) := by
    simp [step, zconfEndfile, hbuffers, hparent, ParseState.finish, ParseState.setFile, hpending,
      hblocks]
  simp [zconfparse, hstep, hend]

/-! ## Files with a single entry -/

/-- The file `main` has a `glob_source` line, and every other file has one entry. -/
def oneEntryEach (main pattern : Text) (result : GlobResult) : Environment where
  fopen other := if other = main then some [.globSource pattern] else some [.entry .config []]
  glob _ := result
  srctree := none

/-- The entry that is read from a file. -/
def entryOf (file : Text) : Event := .entry .config (some file) []

/-- What stays the same while files are read: no block is opened, and the files keep
their parents. -/
structure Reading (st st' : ParseState) (files : List Text) : Prop where
  events : st'.events = st.events ++ files.map entryOf
  blocks : st'.blocks = st.blocks
  pendingIf : st'.pendingIf = st.pendingIf

theorem Reading.trans {st'' : ParseState} {files files' : List Text} (h : Reading st st' files)
    (h' : Reading st' st'' files') : Reading st st'' (files ++ files') := by
  refine ⟨?_, h'.blocks.trans h.blocks, h'.pendingIf.trans h.pendingIf⟩
  rw [h'.events, h.events, List.map_append, List.append_assoc]

/-- A file with one entry is read to its end. -/
theorem steps_entry (env : Environment) {buffers : List (List Line)}
    (hbuffers : st.buffers = [.entry .config []] :: buffers) (hfile : st.currentFile = some name)
    (hpending : st.pendingIf = none) :
    ∃ st', Steps env st st' ∧ Reading st st' [name] ∧ st'.buffers = buffers ∧
      st'.currentFile = (st.file name).parent ∧
      (∀ other, (st'.file other).parent = (st.file other).parent) ∧
      ∀ other, other ≠ name → st'.file other = st.file other := by
  let st₁ : ParseState := { st with
    buffers := [] :: buffers
    begun := true
    options := some .config
    events := st.events ++ [entryOf name] }
  have hstep : step env st = .ok st₁ := by
    simp [step, hbuffers, ParseState.flush, hpending, runLine, runStatement, EntryKind.options,
      hfile, st₁, entryOf]
  have hend : step env st₁ = .ok (zconfEndfile st₁ name) := by
    simp [step, st₁, hfile]
  refine ⟨zconfEndfile st₁ name, ?_, ⟨rfl, rfl, rfl⟩, rfl, rfl, fun other => ?_,
    fun other hne => ?_⟩
  · have hfirst : Steps env st st₁ := .single hstep
    exact hfirst.tail hend
  · by_cases hother : other = name
    · simp [zconfEndfile, ParseState.setFile, hother, st₁]
    · simp [zconfEndfile, ParseState.setFile, hother, st₁]
  · simp [zconfEndfile, ParseState.setFile, hne, st₁]

/-- The files on the stack, from the one that is being read down to `base`. -/
def Stacked (file : Text → File) (base : Option Text) : List Text → Option Text → Prop
  | [], current => current = base
  | name :: names, current => current = some name ∧ Stacked file base names (file name).parent

theorem Stacked.congr {file file' : Text → File} {base current : Option Text} {names : List Text}
    (h : Stacked file base names current)
    (hsame : ∀ other ∈ names, (file' other).parent = (file other).parent) :
    Stacked file' base names current := by
  induction names generalizing current with
  | nil => exact h
  | cons other names ih =>
      refine ⟨h.1, ?_⟩
      rw [hsame other (by simp)]
      exact ih h.2 fun x hx => hsame x (by simp [hx])

/-- The files on the stack are read from the top. -/
theorem steps_stacked (env : Environment) {base : Option Text} {buffers : List (List Line)}
    (names : List Text)
    (hstack : Stacked st.file base names st.currentFile)
    (hbuffers : st.buffers = names.map (fun _ => [.entry .config []]) ++ buffers)
    (hpending : st.pendingIf = none) :
    ∃ st', Steps env st st' ∧ Reading st st' names ∧ st'.buffers = buffers ∧
      st'.currentFile = base ∧ ∀ other, (st'.file other).parent = (st.file other).parent := by
  induction names generalizing st with
  | nil => exact ⟨st, .refl, ⟨by simp, rfl, rfl⟩, by simpa using hbuffers, hstack, fun _ => rfl⟩
  | cons name names ih =>
      rcases steps_entry env hbuffers hstack.1 hpending with
        ⟨st₁, hsteps, hread, hbuf, hcur, hparent, _⟩
      have hstack' : Stacked st₁.file base names st₁.currentFile := by
        rw [hcur]
        exact hstack.2.congr fun other _ => hparent other
      rcases ih hstack' hbuf (hread.pendingIf.trans hpending) with
        ⟨st₂, hsteps', hread', hbuf', hcur', hparent'⟩
      refine ⟨st₂, hsteps.trans hsteps', ?_, hbuf', hcur', fun other => ?_⟩
      · exact hread.trans hread'
      · rw [hparent', hparent]

section

variable {main : Text} {result : GlobResult}

theorem zconfFopen_oneEntryEach (hne : name ≠ main) :
    zconfFopen (oneEntryEach main pattern result) name = some [.entry .config []] := by
  simp [zconfFopen, oneEntryEach, hne]

/-- The buffers of the paths are pushed one on the other. -/
theorem foldlM_zconfNextfile_stacked {base : Option Text} {read : List Text} (pathv : List Text)
    (hnodup : pathv.Nodup) (hmain : main ∉ pathv)
    (hnew : ∀ p ∈ pathv, (st.file p).busy = false ∧ (st.file p).scanned = false ∧ p ∉ read)
    (hstack : Stacked st.file base read st.currentFile) :
    ∃ st', pathv.foldlM (zconfNextfile (oneEntryEach main pattern result)) st = .ok st' ∧
      Reading st st' [] ∧ Stacked st'.file base (pathv.reverse ++ read) st'.currentFile ∧
      st'.buffers = pathv.reverse.map (fun _ => [.entry .config []]) ++ st.buffers ∧
      (st'.file main).parent = (st.file main).parent := by
  induction pathv generalizing st read with
  | nil => exact ⟨st, rfl, ⟨by simp, rfl, rfl⟩, hstack, rfl, rfl⟩
  | cons p pathv ih =>
      rcases hnew p (by simp) with ⟨hbusy, hscanned, hread⟩
      have hpmain : p ≠ main := fun heq => hmain (by simp [heq])
      have hp := List.nodup_cons.mp hnodup
      let st₁ : ParseState :=
        { st.setFile p { st.file p with busy := true, parent := st.currentFile } with
          buffers := [.entry .config []] :: st.buffers
          currentFile := some p }
      have hnext : zconfNextfile (oneEntryEach main pattern result) st p = .ok st₁ := by
        simp [zconfNextfile, zconfFopen_oneEntryEach hpmain, hbusy, hscanned, st₁]
      have hother : ∀ other, other ≠ p → st₁.file other = st.file other := by
        intro other hne
        simp [st₁, ParseState.setFile, hne]
      -- a path comes once, so the files that follow are still untouched
      have hnew' : ∀ q ∈ pathv, (st₁.file q).busy = false ∧ (st₁.file q).scanned = false ∧
          q ∉ p :: read := by
        intro q hq
        have hne : q ≠ p := fun heq => hp.1 (heq ▸ hq)
        rcases hnew q (by simp [hq]) with ⟨hbusy', hscanned', hread'⟩
        rw [hother q hne]
        exact ⟨hbusy', hscanned', by simp [hne, hread']⟩
      have hstack' : Stacked st₁.file base (p :: read) st₁.currentFile := by
        refine ⟨rfl, ?_⟩
        have hparent : (st₁.file p).parent = st.currentFile := by
          simp [st₁, ParseState.setFile]
        rw [hparent]
        exact hstack.congr fun other hmem => by
          rw [hother other fun heq => hread (heq ▸ hmem)]
      rcases ih hp.2 (fun hmem => hmain (List.mem_cons_of_mem p hmem)) hnew' hstack' with
        ⟨st₂, hfold, hreading, hstack₂, hbuf, hparent⟩
      refine ⟨st₂, ?_, ⟨hreading.events, hreading.blocks, hreading.pendingIf⟩, ?_, ?_, ?_⟩
      · rw [List.foldlM_cons, hnext]
        exact hfold
      · rw [List.reverse_cons, List.append_assoc]
        exact hstack₂
      · rw [hbuf]
        simp [st₁]
      · rw [hparent, hother main hpmain.symm]

/-- The `source` lines are read one after the other. -/
theorem steps_sources (lines : List Line) {buffers : List (List Line)} (pathv : List Text)
    (hnodup : pathv.Nodup) (hmain : main ∉ pathv)
    (hnew : ∀ p ∈ pathv, (st.file p).busy = false ∧ (st.file p).scanned = false)
    (hbuffers : st.buffers = pathv.map .source :: buffers) (hfile : st.currentFile = some main)
    (hpending : st.pendingIf = none) :
    ∃ st', Steps ((oneEntryEach main pattern result).replace main lines) st st' ∧
      Reading st st' pathv ∧ st'.buffers = [] :: buffers ∧ st'.currentFile = some main ∧
      (st'.file main).parent = (st.file main).parent := by
  induction pathv generalizing st with
  | nil => exact ⟨st, .refl, ⟨by simp, rfl, rfl⟩, hbuffers, hfile, rfl⟩
  | cons p pathv ih =>
      rcases hnew p (by simp) with ⟨hbusy, hscanned⟩
      have hpmain : p ≠ main := fun heq => hmain (by simp [heq])
      have hp := List.nodup_cons.mp hnodup
      let st₁ : ParseState :=
        { st.setFile p { st.file p with busy := true, parent := some main } with
          buffers := [.entry .config []] :: pathv.map .source :: buffers
          currentFile := some p
          begun := true
          options := none }
      have hopen : zconfFopen ((oneEntryEach main pattern result).replace main lines) p =
          some [.entry .config []] := by
        simp [zconfFopen, oneEntryEach, Environment.replace, hpmain]
      have hstep : step ((oneEntryEach main pattern result).replace main lines) st = .ok st₁ := by
        simp [step, hbuffers, ParseState.flush, hpending, runLine, sourceStmt, zconfNextfile,
          hopen, hbusy, hscanned, st₁, hfile, ParseState.setFile]
      -- the file is read to its end before the next line of `main`
      rcases steps_entry ((oneEntryEach main pattern result).replace main lines)
          (rfl : st₁.buffers = _) rfl hpending with
        ⟨st₂, hsteps, hread, hbuf, hcur, hparent, hother⟩
      have hfile₁ : ∀ other, other ≠ p → st₁.file other = st.file other := by
        intro other hne
        simp [st₁, ParseState.setFile, hne]
      have hnew' : ∀ q ∈ pathv, (st₂.file q).busy = false ∧ (st₂.file q).scanned = false := by
        intro q hq
        have hne : q ≠ p := fun heq => hp.1 (heq ▸ hq)
        rw [hother q hne, hfile₁ q hne]
        exact hnew q (by simp [hq])
      have hcur' : st₂.currentFile = some main := by
        rw [hcur]
        simp [st₁, ParseState.setFile]
      rcases ih hp.2 (fun hmem => hmain (List.mem_cons_of_mem p hmem)) hnew' hbuf hcur'
          (hread.pendingIf.trans hpending) with ⟨st₃, hsteps', hread', hbuf', hcur₃, hparent'⟩
      have hfirst : Steps ((oneEntryEach main pattern result).replace main lines) st st₁ :=
        .single hstep
      refine ⟨st₃, (hfirst.trans hsteps).trans hsteps', ?_, hbuf', hcur₃, ?_⟩
      · have hread₁ : Reading st st₂ [p] := ⟨hread.events, hread.blocks, hread.pendingIf⟩
        exact hread₁.trans hread'
      · rw [hparent', hparent, hfile₁ main hpmain.symm]

/-- What `zconf_initscan` leaves for a file with these lines. -/
def scanState (main : Text) (lines : List Line) : ParseState where
  buffers := [lines]
  file other := ⟨other = main, false, none⟩
  currentFile := some main
  begun := false
  blocks := []
  options := none
  pendingIf := none
  events := []

theorem scanState_new (lines : List Line) {pathv : List Text} (hmain : main ∉ pathv) :
    ∀ p ∈ pathv, ((scanState main lines).file p).busy = false ∧
      ((scanState main lines).file p).scanned = false := by
  intro p hp
  have hne : p ≠ main := fun heq => hmain (heq ▸ hp)
  simp [scanState, hne]

/-- The paths that match are read from the last to the first. -/
theorem oneEntryEach_parsesTo (pathv : List Text) (hnodup : pathv.Nodup) (hmain : main ∉ pathv) :
    ParsesTo (oneEntryEach main pattern (.paths pathv hnodup)) main
      (.parsed (pathv.reverse.map entryOf)) := by
  let env := oneEntryEach main pattern (.paths pathv hnodup)
  have hscan : zconfInitscan env main = some (scanState main [.globSource pattern]) := by
    simp [zconfInitscan, zconfFopen, env, oneEntryEach, scanState]
  -- the line itself has been read
  let st₀ : ParseState := { scanState main [] with begun := true }
  have hnew : ∀ p ∈ pathv, (st₀.file p).busy = false ∧ (st₀.file p).scanned = false ∧
      p ∉ ([] : List Text) := by
    intro p hp
    rcases scanState_new [] hmain p hp with ⟨hbusy, hscanned⟩
    exact ⟨hbusy, hscanned, List.not_mem_nil⟩
  have hstack : Stacked st₀.file (some main) [] st₀.currentFile := rfl
  rcases foldlM_zconfNextfile_stacked pathv hnodup hmain hnew hstack with
    ⟨st₁, hfold, hread, hstack₁, hbuf, hparent⟩
  have hstep : step env (scanState main [.globSource pattern]) = .ok st₁ := hfold
  rw [List.append_nil] at hstack₁
  rcases steps_stacked env pathv.reverse hstack₁ hbuf hread.pendingIf with
    ⟨st₂, hsteps, hread', hbuf', hcur, hparent'⟩
  have hevents : st₂.events = pathv.reverse.map entryOf := (hread.trans hread').events
  have hfirst : Steps env (scanState main [.globSource pattern]) st₁ := .single hstep
  have hend := zconfparse_end env hbuf' hcur
    ((hparent' main).trans hparent) (hread'.pendingIf.trans hread.pendingIf)
    (hread'.blocks.trans hread.blocks)
  rw [hevents] at hend
  rcases Steps.parses (hfirst.trans hsteps) hend with ⟨fuel, hfuel⟩
  refine ⟨fuel, ?_⟩
  unfold confParse
  rw [hscan]
  exact hfuel

theorem oneEntryEach_replace_parsesTo (pathv : List Text) (hnodup : pathv.Nodup)
    (hmain : main ∉ pathv) :
    ParsesTo ((oneEntryEach main pattern (.paths pathv hnodup)).replace main
      (pathv.map .source)) main (.parsed (pathv.map entryOf)) := by
  let env := (oneEntryEach main pattern (.paths pathv hnodup)).replace main (pathv.map .source)
  have hscan : zconfInitscan env main = some (scanState main (pathv.map .source)) := by
    simp [zconfInitscan, zconfFopen, env, Environment.replace, scanState]
  rcases steps_sources (pathv.map .source) pathv hnodup hmain (scanState_new _ hmain) rfl rfl rfl
    with ⟨st₁, hsteps, hread, hbuf, hcur, hparent⟩
  have hevents : st₁.events = pathv.map entryOf := hread.events
  have hend := zconfparse_end env hbuf hcur hparent hread.pendingIf hread.blocks
  rw [hevents] at hend
  rcases hsteps.parses hend with ⟨fuel, hfuel⟩
  refine ⟨fuel, ?_⟩
  unfold confParse
  rw [hscan]
  exact hfuel

end

/-! ## The matches for which `glob_source` means the sources -/

/-- A name that none of the paths has. -/
def otherName (pathv : List Text) : Text := pathv.flatten ++ text "K"

theorem otherName_not_mem (pathv : List Text) : otherName pathv ∉ pathv := by
  intro hmem
  have hlen := (List.sublist_flatten_of_mem hmem).length_le
  simp only [otherName, text, List.length_append, List.length_flatten] at hlen
  exact Nat.not_succ_le_self _ hlen

/-- Nothing is read behind a pattern without a match. -/
def noMatchEnvironment : Environment where
  fopen name := if name = text "Kconfig" then
    some [.globSource (text "*"), .entry .config (text "A")] else none
  glob _ := .noMatch
  srctree := none

theorem noMatch_not_meansSources : ¬ MeansSources .noMatch := by
  intro h
  have hiff := h noMatchEnvironment (text "Kconfig") (text "Kconfig") (text "*") []
    [.entry .config (text "A")] rfl rfl (.parsed [])
  have hdropped : ParsesTo noMatchEnvironment (text "Kconfig") (.parsed []) := ⟨1, by decide⟩
  have hremoved : ParsesTo (noMatchEnvironment.replace (text "Kconfig")
      [.entry .config (text "A")]) (text "Kconfig")
      (.parsed [.entry .config (some (text "Kconfig")) (text "A")]) := ⟨3, by decide⟩
  exact absurd ((hiff.mp hdropped).unique hremoved) (by decide)

/-- An option behind the line belongs to no entry, as if there had been a file. -/
def noPathsEnvironment : Environment where
  fopen name := if name = text "Kconfig" then
    some [.entry .config (text "A"), .globSource (text "*"), .option .prompt (text "a")] else none
  glob _ := .paths [] List.nodup_nil
  srctree := none

theorem noPaths_not_meansSources (nodup : ([] : List Text).Nodup) :
    ¬ MeansSources (.paths [] nodup) := by
  intro h
  have hiff := h noPathsEnvironment (text "Kconfig") (text "Kconfig") (text "*")
    [.entry .config (text "A")] [.option .prompt (text "a")] rfl rfl .failed
  have hfailed : ParsesTo noPathsEnvironment (text "Kconfig") .failed := ⟨3, by decide⟩
  have hremoved : ParsesTo (noPathsEnvironment.replace (text "Kconfig")
      [.entry .config (text "A"), .option .prompt (text "a")]) (text "Kconfig")
      (.parsed [.entry .config (some (text "Kconfig")) (text "A"), .option .prompt (text "a")]) :=
    ⟨4, by decide⟩
  exact absurd ((hiff.mp hfailed).unique hremoved) (by decide)

theorem map_entryOf_injective : Function.Injective (List.map entryOf) :=
  List.map_injective_iff.mpr fun file file' h => by simpa [entryOf] using h

/-- Two matches are read in the wrong order. -/
theorem twoPaths_not_meansSources {p q : Text} {pathv : List Text}
    (nodup : (p :: q :: pathv).Nodup) : ¬ MeansSources (.paths (p :: q :: pathv) nodup) := by
  intro h
  let main := otherName (p :: q :: pathv)
  have hmain : main ∉ p :: q :: pathv := otherName_not_mem _
  have hfile : (oneEntryEach main [] (.paths (p :: q :: pathv) nodup)).fopen main =
      some ([] ++ .globSource [] :: []) := by simp [oneEntryEach]
  have hiff := h _ main main [] [] [] hfile rfl (.parsed ((p :: q :: pathv).reverse.map entryOf))
  have hbackwards := hiff.mp (oneEntryEach_parsesTo _ nodup hmain)
  rw [List.nil_append, List.append_nil] at hbackwards
  have heq := hbackwards.unique (oneEntryEach_replace_parsesTo _ nodup hmain)
  have hrev : (p :: q :: pathv).reverse = p :: q :: pathv :=
    map_entryOf_injective (ParseResult.parsed.inj heq)
  -- the last path would be the first one, too
  have hlast : (p :: q :: pathv).getLast? = some p := by
    rw [← List.head?_reverse, hrev]
    rfl
  have hmem : p ∈ q :: pathv := by
    rw [List.getLast?_cons_cons] at hlast
    exact List.mem_of_getLast? hlast
  exact (List.nodup_cons.mp nodup).1 hmem

/-- A `glob_source` line means the sources it matches exactly when there is a single
one. -/
theorem meansSources_iff (result : GlobResult) :
    MeansSources result ↔ ∃ path, result.pathv = [path] := by
  constructor
  · intro h
    cases result with
    | noMatch => exact absurd h noMatch_not_meansSources
    | paths pathv nodup =>
        rcases pathv with _ | ⟨p, _ | ⟨q, pathv⟩⟩
        · exact absurd h (noPaths_not_meansSources nodup)
        · exact ⟨p, rfl⟩
        · exact absurd h (twoPaths_not_meansSources nodup)
  · rintro ⟨path, hpath⟩ env name file pattern before after hfile hresult r
    have hsingle : (globResults env pattern).pathv = [path] := by rw [hresult, hpath]
    have hlines : before ++ result.pathv.map .source ++ after =
        before ++ .source path :: after := by simp [hpath]
    rw [hlines]
    exact exists_congr fun fuel => by rw [confParse_agree hfile hsingle fuel name]

/-- Two platforms, each with one entry. -/
def twoPlatforms : Environment where
  fopen name :=
    if name = text "Kconfig" then some [.globSource (text "platforms/*/Kconfig")]
    else if name = text "platforms/a/Kconfig" then some [.entry .config (text "A")]
    else if name = text "platforms/b/Kconfig" then some [.entry .config (text "B")]
    else none
  glob _ := .paths [text "platforms/a/Kconfig", text "platforms/b/Kconfig"] (by decide)
  srctree := none

/-- The entry of the second platform comes first. -/
theorem twoPlatforms_backwards : ¬ ∀ result, MeansSources result := by
  intro h
  have hiff := h (.paths [text "platforms/a/Kconfig", text "platforms/b/Kconfig"] (by decide))
    twoPlatforms (text "Kconfig") (text "Kconfig") (text "platforms/*/Kconfig") [] [] rfl rfl
    (.parsed [.entry .config (some (text "platforms/b/Kconfig")) (text "B"),
      .entry .config (some (text "platforms/a/Kconfig")) (text "A")])
  have hglob : ParsesTo twoPlatforms (text "Kconfig")
      (.parsed [.entry .config (some (text "platforms/b/Kconfig")) (text "B"),
        .entry .config (some (text "platforms/a/Kconfig")) (text "A")]) := ⟨7, by decide +kernel⟩
  have hsources : ParsesTo (twoPlatforms.replace (text "Kconfig")
      [.source (text "platforms/a/Kconfig"), .source (text "platforms/b/Kconfig")])
      (text "Kconfig")
      (.parsed [.entry .config (some (text "platforms/a/Kconfig")) (text "A"),
        .entry .config (some (text "platforms/b/Kconfig")) (text "B")]) := ⟨8, by decide +kernel⟩
  exact absurd ((hiff.mp hglob).unique hsources) (by decide)

end Pbs.Kconfig.Zconf
