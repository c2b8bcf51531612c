import Pbs.Kconfig.Symbol
import Mathlib.Data.List.Nodup

/-!
# Reading Kconfig files

The lexer keeps a stack of buffers, one for each file that is being read, and the
parser pushes another one when it has read a `source` line. A `glob_source` line
pushes a buffer for every path that matches its pattern. The model reads line by
line: what the grammar accepts where, which file an entry is recorded for, and how
the flags of the files and the stacks change. A parse that ends in `exit(1)` has
failed, whatever it has read.
-/

namespace Pbs.Kconfig.Zconf

/-! ## Lines -/

/-- The blocks that end with a line of their own. -/
inductive BlockKind where
  | choice
  | ifBlock
  | menu
deriving DecidableEq

/-- `config` and `menuconfig` lines, and `comment` lines. -/
inductive EntryKind where
  | config
  | comment
deriving DecidableEq

/-- The lines that may follow the first line of an entry. -/
inductive OptionKind where
  /-- `T_TYPE`; a choice takes `bool` and `tristate` only. -/
  | type (choiceType : Bool)
  | prompt
  /-- `T_DEFAULT`; a choice takes a `default` with a single word only. -/
  | default (word : Bool)
  | select
  | range
  /-- `T_OPTION` -/
  | option
  | dependsOn
  | optional
  | visible
  /-- `help`, with the text below it -/
  | help
deriving DecidableEq

/-- A line of a Kconfig file. `data` is what follows the keyword. Lines without a
statement are left out. -/
inductive Line where
  | mainmenu (prompt : Text)
  | entry (kind : EntryKind) (data : Text)
  | block (kind : BlockKind) (data : Text)
  | option (kind : OptionKind) (data : Text)
  | endBlock (kind : BlockKind)
  | source (path : Text)
  | globSource (pattern : Text)
  /-- A line that is no statement. -/
  | invalid
deriving DecidableEq

/-- The list of options the next line may continue. -/
inductive OptionList where
  /-- `config_option_list` -/
  | config
  /-- `choice_option_list` -/
  | choice
  /-- `visibility_list` -/
  | visibility
  /-- `depends_list` -/
  | depends
deriving DecidableEq

/-- The list that goes on after an option, if the option may stand in the list. -/
def OptionList.next : OptionList → OptionKind → Option OptionList
  | .config, .optional => none
  | .config, .visible => none
  | .config, _ => some .config
  | .choice, .type true => some .choice
  | .choice, .prompt => some .choice
  | .choice, .default true => some .choice
  | .choice, .dependsOn => some .choice
  | .choice, .optional => some .choice
  | .choice, .help => some .choice
  | .choice, _ => none
  | .visibility, .visible => some .visibility
  | .visibility, .dependsOn => some .depends
  | .visibility, _ => none
  | .depends, .dependsOn => some .depends
  | .depends, _ => none

def EntryKind.options : EntryKind → OptionList
  | .config => .config
  | .comment => .depends

def BlockKind.options : BlockKind → Option OptionList
  | .choice => some .choice
  | .ifBlock => none
  | .menu => some .visibility

/-! ## The state of the parser -/

/-- What the actions of the grammar have done to the menus. An entry is recorded
with the name of the current file. -/
inductive Event where
  /-- The prompt of `rootmenu`. -/
  | mainmenu (prompt : Text)
  | entry (kind : EntryKind) (file : Option Text) (data : Text)
  | block (kind : BlockKind) (file : Option Text) (data : Text)
  | option (kind : OptionKind) (data : Text)
  | endBlock
deriving DecidableEq

/-- `struct file`. -/
structure File where
  /-- `FILE_BUSY` -/
  busy : Bool
  /-- `FILE_SCANNED` -/
  scanned : Bool
  parent : Option Text

/-- How `conf_parse` ends: with `exit(1)`, or with the menus that have been built. -/
inductive ParseResult where
  | failed
  | parsed (events : List Event)
deriving DecidableEq

structure ParseState where
  /-- The rest of every file on the stack of `current_buf`. -/
  buffers : List (List Line)
  /-- `file_lookup` -/
  file : Text → File
  currentFile : Option Text
  /-- Something has been read: `mainmenu` comes before everything else. -/
  begun : Bool
  /-- The open blocks, with the files of their entries. -/
  blocks : List (BlockKind × Option Text)
  options : Option OptionList
  /-- An `if` line, until the parser has looked at what follows it. -/
  pendingIf : Option Text
  events : List Event

/-- What `glob` finds: nothing (`GLOB_NOMATCH`), or the paths in `gl_pathv`. -/
inductive GlobResult where
  | noMatch
  | paths (pathv : List Text) (nodup : pathv.Nodup)

def GlobResult.pathv : GlobResult → List Text
  | .noMatch => []
  | .paths pathv _ => pathv

/-- What is outside the parser. -/
structure Environment where
  /-- `fopen`, and the lines of the file. -/
  fopen : Text → Option (List Line)
  glob : Text → GlobResult
  /-- `getenv(SRCTREE)` -/
  srctree : Option Text

/-! ## Files -/

/-- `zconf_fopen`. -/
def zconfFopen (env : Environment) (name : Text) : Option (List Line) :=
  match env.fopen name with
  | some lines => some lines
  | none =>
      if name.head? = some '/' then none
      else match env.srctree with
        | some srctree => env.fopen (srctree ++ text "/" ++ name)
        | none => none

def ParseState.setFile (st : ParseState) (name : Text) (file : File) : ParseState :=
  { st with file := fun other => if other = name then file else st.file other }

/-- `zconf_nextfile`. -/
def zconfNextfile (env : Environment) (st : ParseState) (name : Text) :
    Except ParseResult ParseState :=
  match zconfFopen env name with
  | none => .error .failed
  | some lines =>
      if (st.file name).busy then .error .failed
      else if (st.file name).scanned then .error .failed
      else .ok { st.setFile name { st.file name with busy := true, parent := st.currentFile } with
        buffers := lines :: st.buffers
        currentFile := some name }

/-- `zconf_endfile`, at the end of the file `name`. -/
def zconfEndfile (st : ParseState) (name : Text) : ParseState :=
  { st.setFile name { st.file name with scanned := true, busy := false } with
    buffers := st.buffers.tail
    currentFile := (st.file name).parent }

/-- `PATH_MAX`. -/
def pathMax : ℕ := 4096

/-- The two calls of `glob` in `glob_source_stmt`. -/
def globResults (env : Environment) (pattern : Text) : GlobResult :=
  match env.glob pattern with
  | .paths pathv nodup => .paths pathv nodup
  | .noMatch =>
      match env.srctree with
      | some srctree => env.glob ((srctree ++ text "/" ++ pattern).take pathMax)
      | none => .noMatch

/-! ## Statements -/

/-- An `if` entry is added once the parser has seen the token behind it. -/
def ParseState.flush (st : ParseState) : ParseState :=
  match st.pendingIf with
  | none => st
  | some data =>
      { st with
        blocks := (.ifBlock, st.currentFile) :: st.blocks
        pendingIf := none
        events := st.events ++ [.block .ifBlock st.currentFile data] }

/-- `YYACCEPT`: the blocks that are still open end without an error. -/
def ParseState.accept (st : ParseState) : ParseResult :=
  .parsed (st.events ++ st.blocks.map fun _ => .endBlock)

/-- The end of the first file. A block that is still open is a syntax error, which
`zconfnerrs` counts. An `if` that would be added now belongs to no file, and
reporting that makes the parser crash. -/
def ParseState.finish (st : ParseState) : ParseResult :=
  if st.pendingIf.isSome ∨ st.blocks ≠ [] then .failed else .parsed st.events

/-- `zconf_endtoken`: whether the innermost block is of this kind and has been
opened in this file. -/
def zconfEndtoken (st : ParseState) (kind : BlockKind) : Bool :=
  st.blocks.head? = some (kind, st.currentFile)

/-- `mainmenu_stmt`. -/
def mainmenuStmt (st : ParseState) (prompt : Text) : Except ParseResult ParseState :=
  if st.begun then .error .failed
  else .ok { st with begun := true, events := st.events ++ [.mainmenu prompt] }

/-- A statement that involves no other file. -/
def runStatement (st : ParseState) : Line → Except ParseResult ParseState
  | .entry kind data =>
      .ok { st with
        options := some kind.options
        events := st.events ++ [.entry kind st.currentFile data] }
  | .block .ifBlock data => .ok { st with options := none, pendingIf := some data }
  | .block kind data =>
      -- a choice holds neither menus nor choices
      if (st.blocks.head?.map Prod.fst) = some .choice then .error .failed
      else .ok { st with
        blocks := (kind, st.currentFile) :: st.blocks
        options := kind.options
        events := st.events ++ [.block kind st.currentFile data] }
  | .option kind data =>
      match st.options.bind (·.next kind) with
      | none => .error .failed
      | some options =>
          .ok { st with options := some options, events := st.events ++ [.option kind data] }
  | .endBlock kind =>
      if zconfEndtoken st kind then
        .ok { st with
          blocks := st.blocks.tail
          options := none
          events := st.events ++ [.endBlock] }
      else .error .failed
  | _ => .error .failed

/-- `source_stmt`. -/
def sourceStmt (env : Environment) (st : ParseState) (path : Text) :
    Except ParseResult ParseState :=
  zconfNextfile env { st with options := none } path

/-- `glob_source_stmt`. Without a match the parse is accepted as it stands. -/
def globSourceStmt (env : Environment) (st : ParseState) (pattern : Text) :
    Except ParseResult ParseState :=
  match globResults env pattern with
  | .noMatch => .error st.accept
  | .paths pathv _ => pathv.foldlM (zconfNextfile env) { st with options := none }

def runLine (env : Environment) (st : ParseState) : Line → Except ParseResult ParseState
  | .mainmenu prompt => mainmenuStmt st prompt
  | .source path => sourceStmt env { st with begun := true } path
  | .globSource pattern => globSourceStmt env { st with begun := true } pattern
  | line => runStatement { st with begun := true } line

/-- Read the next line, or the end of a file. -/
def step (env : Environment) (st : ParseState) : Except ParseResult ParseState :=
  match st.buffers, st.currentFile with
  | (line :: lines) :: buffers, _ => runLine env { st.flush with buffers := lines :: buffers } line
  | [] :: _, some name => .ok (zconfEndfile st name)
  | _, _ => .error st.finish

def zconfparse (env : Environment) : ℕ → ParseState → Option ParseResult
  | 0, _ => none
  | fuel + 1, st =>
      match step env st with
      | .error result => some result
      | .ok st => zconfparse env fuel st

/-- `zconf_initscan`. -/
def zconfInitscan (env : Environment) (name : Text) : Option ParseState :=
  (zconfFopen env name).map fun lines =>
    { buffers := [lines]
      file := fun other => ⟨other = name, false, none⟩
      currentFile := some name
      begun := false
      blocks := []
      options := none
      pendingIf := none
      events := [] }

/-- `conf_parse`, as far as the menus it builds. -/
def confParse (env : Environment) (fuel : ℕ) (name : Text) : Option ParseResult :=
  match zconfInitscan env name with
  | none => some .failed
  | some st => zconfparse env fuel st

/-- `conf_parse` comes to an end with this result. -/
def ParsesTo (env : Environment) (name : Text) (result : ParseResult) : Prop :=
  ∃ fuel, confParse env fuel name = some result

end Pbs.Kconfig.Zconf
