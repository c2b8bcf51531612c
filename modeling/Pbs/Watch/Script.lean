import Pbs.Lib.CNumber
import Pbs.Lib.Descent
import Pbs.Lib.StableSort
import Mathlib.Data.Char
import Mathlib.Data.List.DropRight
import Mathlib.Data.List.Lex
import Mathlib.Data.Sum.Order

/-!
# Watching for new versions

`scripts/watch` looks for the versions of a package at the sites of its watch file. A
site is a URL of which the components of the path may be patterns: `collect_paths`
expands them one after the other, with the versions that `process_recursive` finds in
the listing of a directory. What there is to find on the web is a parameter (`Site`).

The exit status says whether there is a new version; `cmd-watch` of
`scripts/Makefile.watch` goes by it. Exceptions end the script with the status 1.
-/

namespace Pbs.Watch

open CNumber StableSort

/-! ## Versions -/

inductive CharClass where
  | digit
  | lower
  | dot
  | other
deriving DecidableEq

def charClass (c : Char) : CharClass :=
  if c.isDigit then .digit else if c.isLower then .lower else if c = '.' then .dot else .other

/-- `component_re.split`, without the dots. -/
def components (vstring : Text) : List Text :=
  (vstring.splitBy fun a b => charClass a = charClass b).filter fun piece =>
    piece.head?.map charClass ≠ some .dot

/-- Numbers are less than strings. -/
def component (piece : Text) : ℕ ⊕ₗ Text :=
  if piece.all Char.isDigit then toLex (.inl (decimalValue piece)) else toLex (.inr piece)

/-- `LooseVersion` -/
structure LooseVersion where
  vstring : Text
  nonempty : vstring ≠ []
deriving DecidableEq

/-- The list by which versions are compared. -/
def LooseVersion.version (v : LooseVersion) : List (ℕ ⊕ₗ Text) :=
  (components v.vstring).map component

/-- `sorted(versions)` -/
def sorted (versions : List LooseVersion) : List LooseVersion :=
  sortDesc (fun v => OrderDual.toDual v.version) versions

/-- `versions.sort(reverse=True)` -/
def sortReverse (versions : List LooseVersion) : List LooseVersion :=
  sortDesc LooseVersion.version versions

/-! ## Sites -/

/-- The options, and what a watch file sets. -/
structure Options where
  all : Bool
  quiet : Bool
  version : Option LooseVersion
  versionSeparator : Option Text
  releaseScheme : Option Text

/-- What `process_recursive` finds: nothing if the page cannot be retrieved, or nothing
on it matches. -/
structure Site where
  processRecursive : Text → Text → Options → Bool → Option (List LooseVersion)
  ne_nil : ∀ url pattern options final, processRecursive url pattern options final ≠ some []

/-- `re.search('\(.*\)', pattern)` -/
def isPattern (pattern : Text) : Bool := ')' ∈ pattern.dropWhile (· ≠ '(')

/-- `process_path` -/
def processPath (site : Site) (base : Text) (options : Options) (pattern path : Text) : List Text :=
  if isPattern pattern then
    match site.processRecursive (base ++ path) pattern options false with
    | none => []
    | some versions => (sortReverse versions).map fun v => path ++ '/' :: v.vstring
  else [path ++ '/' :: pattern]

/-- How the script stops: by `sys.exit`, or with an exception. -/
inductive Stop where
  | exit (status : ℕ) (stdout : Text)
  | exception (name : Text)
deriving DecidableEq

/-- `collect_paths`: every component is looked for below the first path. -/
def collectPaths (site : Site) (base : Text) (options : Options) (dirs : List Text) :
    Except Stop (List Text) :=
  dirs.foldlM (fun paths pattern =>
    match paths with
    | [] => .error (.exception "IndexError".toList)
    | path :: _ => .ok (processPath site base options pattern path)) [[]]

/-! ## Lines -/

def isWordChar (c : Char) : Bool := c.isAlphanum || c == '_'

/-- `line.split()` -/
def split (line : Text) : List Text := (line.splitOnP isSpace).filter (· ≠ [])

/-- The groups of `^(\w+://[^/]+)/(.*)$`. -/
def siteGroups (site : Text) : Option (Text × Text) :=
  match site.dropWhile isWordChar with
  | ':' :: '/' :: '/' :: rest =>
      match rest.dropWhile (· ≠ '/') with
      | '/' :: path =>
          let scheme := site.takeWhile isWordChar
          let host := rest.takeWhile (· ≠ '/')
          if scheme ≠ [] ∧ host ≠ [] then some (scheme ++ "://".toList ++ host, path) else none
      | _ => none
  | _ => none

/-- A pattern that ends in the name of one compression stands for all of them. -/
def anyCompression (pattern : Text) : Text :=
  match ["gz", "bz2", "xz", "lz", "lzma", "Z"].find? fun ext =>
      ("\\.tar\\.".toList ++ ext.toList).isSuffixOf pattern with
  | none => pattern
  | some ext =>
      pattern.take (pattern.length - ("\\.tar\\.".toList ++ ext.toList).length) ++
        "\\.tar\\.(gz|bz2|xz|lz|lzma|Z)".toList

/-- What a line says to look for: the components of directories, and the pattern of the
files in them. -/
structure Search where
  base : Text
  dirs : List Text
  pattern : Text
deriving DecidableEq

/-- The first half of `process_line`. -/
def searchOf (line : Text) : Except Stop Search :=
  match split line with
  | [] => .error (.exception "IndexError".toList)
  | site :: parts =>
      match siteGroups site with
      | none => .error (.exception "AttributeError".toList)
      | some (group1, group2) =>
          let base :=
            if group1 = "http://sf.net".toList then "https://qa.debian.org/watch/sf.php".toList
            else group1
          let dirs := group2.splitOnP (· == '/')
          match parts with
          | [] => .ok ⟨base, dirs.dropLast, anyCompression (dirs.getLast?.getD [])⟩
          | pattern :: _ => .ok ⟨base, dirs, anyCompression pattern⟩

/-- The second half: the versions below the paths, or below the first one that has any. -/
def collectVersions (site : Site) (base : Text) (options : Options) (pattern : Text) :
    List Text → List LooseVersion
  | [] => []
  | path :: paths =>
      match site.processRecursive (base ++ path) pattern options true with
      | none => collectVersions site base options pattern paths
      | some versions =>
          if options.all then versions ++ collectVersions site base options pattern paths
          else versions

/-- `process_line` -/
def processLine (site : Site) (options : Options) (line : Text) :
    Except Stop (List LooseVersion) := do
  let search ← searchOf line
  let paths ← collectPaths site search.base options search.dirs
  return collectVersions site search.base options search.pattern paths

/-! ## Watch files -/

/-- What a line of a watch file is for. -/
inductive Line where
  | version (number : Text)
  | versionSeparator (text : Text)
  | releaseScheme (text : Text)
  | blank
  | site (line : Text)
deriving DecidableEq

/-- `line.strip()` -/
def strip (line : Text) : Text := (line.dropWhile isSpace).rdropWhile isSpace

/-- What follows, if the line begins with a key. -/
def valueOf (key : String) (line : Text) : Option Text :=
  if key.toList.isPrefixOf line then some (line.drop key.length) else none

def readLine (line : Text) : Line :=
  let line := strip line
  match (valueOf "version=" line).map (·.takeWhile Char.isDigit) with
  | some (d :: number) => .version (d :: number)
  | _ =>
      match valueOf "version_separator=" line with
      | some (c :: text) => .versionSeparator (c :: text)
      | _ =>
          match valueOf "release_scheme=" line with
          | some (c :: text) => .releaseScheme (c :: text)
          | _ => if line = [] then .blank else .site line

/-- The options behind a line. -/
def Line.set (options : Options) : Line → Options
  | .versionSeparator text => { options with versionSeparator := some text }
  | .releaseScheme text => { options with releaseScheme := some text }
  | _ => options

/-- The loop of `process_file`. -/
def processLines (site : Site) (options : Options) (result : Option (List LooseVersion)) :
    List Text → Except Stop (Option (List LooseVersion))
  | [] => .ok result
  | line :: lines =>
      match readLine line with
      | .version number =>
          if number ≠ "3".toList then
            .error (.exit 1 ("Invalid version ".toList ++ number ++
              ": Only version 3 watchfiles supported.\n".toList))
          else processLines site options result lines
      | .site line => do
          let versions ← processLine site options line
          let result := if versions = [] then result else some (result.getD [] ++ versions)
          processLines site options result lines
      | other => processLines site (other.set options) result lines

/-- `process_file` -/
def processFile (site : Site) (options : Options) (lines : List Text) :
    Except Stop (Option (List LooseVersion)) := do
  let options := { options with versionSeparator := none, releaseScheme := none }
  let result ← processLines site options none lines
  return result.map sorted

/-! ## The script -/

structure Run where
  status : ℕ
  stdout : Text
deriving DecidableEq

/-- `print` -/
def print (quiet : Bool) (heading text : Text) : Text :=
  (if quiet then [] else heading) ++ text ++ ['\n']

/-- `str.join(', ', …)` -/
def joinVersions (versions : List LooseVersion) : Text :=
  (versions.map LooseVersion.vstring).intersperse ", ".toList |>.flatten

/-- `main`, with one file for its argument. -/
def main (site : Site) (options : Options) (lines : List Text) : Run :=
  match processFile site options lines with
  | .error (.exit status stdout) => ⟨status, stdout⟩
  | .error (.exception _) => ⟨1, []⟩
  | .ok none => ⟨2, []⟩
  | .ok (some versions) =>
      match options.version with
      | some current =>
          let latest := versions.foldl (fun latest ver =>
            if latest.version < ver.version then ver else latest) current
          if current.version ≠ latest.version then
            ⟨1, print options.quiet "New upstream version: ".toList latest.vstring⟩
          else ⟨0, []⟩
      | none =>
          let latest := (versions.getLast?.map LooseVersion.vstring).getD []
          if options.all then
            ⟨0, print false "Available upstream versions: ".toList (joinVersions versions)⟩
          else ⟨0, print options.quiet "Latest upstream version: ".toList latest⟩

/-- `cmd-watch` of `Makefile.watch`: what it reports of a run. A watch file with a range
of digits in brackets is taken to pin the version. -/
def cmdWatch (obj version : Text) (pinned : Bool) (run : Run) : Text :=
  if run.status = 0 then
    if pinned then "package is up-to-date (probably pinned!): ".toList ++ obj
    else "package is up-to-date: ".toList ++ obj
  else if run.status = 1 then
    "new version available: ".toList ++ obj ++ " (current: ".toList ++ version ++
      ", new: ".toList ++
      run.stdout.rdropWhile (· == '\n') ++ ")".toList
  else "package scan failed: ".toList ++ obj ++ ": 1".toList

end Pbs.Watch
