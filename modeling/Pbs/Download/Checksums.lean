import Pbs.Lib.Regex
import Mathlib.Data.Bool.AllAny
import Mathlib.Data.List.Nodup
import Mathlib.Data.List.Perm.Basic

/-!
# Checksums of downloads

`cmd_checksum_sha256` of `scripts/Makefile.package` looks up the checksum of a file with
`grep`: it takes all lines in which the pattern `download/NAME` is found, wherever
it is found, and a dot in the name stands for any character. What it does for one file
therefore depends on the lines of others. With `GENERATE_CHECKSUMS`, the lines that
have been found are replaced by one for the file.

A file has one line at most. `sha256sum` is a parameter, and so is the order of
`sort -V`.
-/

namespace Pbs.Download.Sha256

open Regexes

/-! ## Files and lines -/

/-- A sha256 digest, as `sha256sum` prints it. -/
structure Digest where
  text : Text
  isHex : ∀ c ∈ text, c.isDigit || ('a' ≤ c && c ≤ 'f')
  length_eq : text.length = 64
deriving DecidableEq

/-- `digest  path` -/
structure Line where
  digest : Digest
  path : Text
deriving DecidableEq

def Line.text (l : Line) : Text := l.digest.text ++ [' ', ' '] ++ l.path

/-- The characters of file names. Of these, only the dot has a meaning for `grep`, and
none for the shell. -/
def isNameChar (c : Char) : Bool :=
  c.isAlphanum || c == '.' || c == '_' || c == '+' || c == '-' || c == ',' || c == '@' || c == '~'

structure FileName where
  name : Text
  isName : ∀ c ∈ name, isNameChar c
  nonempty : name ≠ []
deriving DecidableEq

/-- `download/$*` -/
def FileName.path (f : FileName) : Text := ['d', 'o', 'w', 'n', 'l', 'o', 'a', 'd', '/'] ++ f.name

theorem FileName.path_injective : Function.Injective FileName.path := by
  intro f g h
  have hname : f.name = g.name := List.append_cancel_left h
  cases f
  cases g
  simp_all

/-- The files below the source tree, and their digests. -/
structure Disk where
  Content : Type
  file : Text → Option Content
  sha256 : Content → Digest

/-! ## The commands -/

/-- The basic regular expression of a text without special characters but dots. -/
def bre (pattern : Text) : Regex :=
  pattern.foldr (fun c r => .seq (if c = '.' then Regex.any else .char (· == c)) r) .eps

/-- `grep download/$*` finds the line. -/
def selects (f : FileName) (l : Line) : Bool := found (bre f.path) l.text

/-- The listed file exists, and its digest is the one on the line. -/
def Disk.good (disk : Disk) (l : Line) : Bool :=
  match disk.file l.path with
  | none => false
  | some content => disk.sha256 content = l.digest

/-- `sha256sum -c --status` -/
def sha256sumCheck (disk : Disk) (lines : List Line) : Bool :=
  lines ≠ [] && lines.all disk.good

/-- `sha256sum path` -/
def sha256sum (disk : Disk) (path : Text) : Option Line :=
  (disk.file path).map fun content => ⟨disk.sha256 content, path⟩

/-- `cmd_checksum_sha256`, with what it prints when it fails. -/
def cmdChecksumSha256 (disk : Disk) (checksums : List Line) (f : FileName) : Except Text Unit :=
  if sha256sumCheck disk (checksums.filter (selects f)) then .ok ()
  else .error ("sha256sum: checksum of ".toList ++ f.path ++ " did NOT match".toList)

/-- `cmd_checksum_sha256`, where `GENERATE_CHECKSUMS` is set: the checksums afterwards. -/
def generateChecksumSha256 (sortV : List Line → List Line) (disk : Disk) (checksums : List Line)
    (f : FileName) : List Line :=
  if sha256sumCheck disk (checksums.filter (selects f)) then checksums
  else sortV (checksums.filter (fun l => !selects f l) ++ (sha256sum disk f.path).toList)

/-! ## Which lines are found -/

theorem matches_bre (text : Text) : Matches (bre text) text := by
  induction text with
  | nil => exact .eps
  | cons c text ih =>
      refine .seq (x := [c]) ?_ ih
      by_cases hc : c = '.'
      · rw [if_pos hc]
        exact .char rfl
      · rw [if_neg hc]
        exact .char (by simp)

/-- The line of a file is among the lines that are found. -/
theorem selects_own {f : FileName} {l : Line} (h : l.path = f.path) : selects f l = true := by
  refine found_iff.mpr ⟨l.digest.text ++ [' ', ' '], f.path, [], ?_, matches_bre _⟩
  rw [Line.text, h, List.append_nil]

theorem sha256sumCheck_iff {disk : Disk} {checksums : List Line} {f : FileName} :
    sha256sumCheck disk (checksums.filter (selects f)) = true ↔
      (∃ l ∈ checksums, selects f l) ∧ ∀ l ∈ checksums, selects f l → disk.good l := by
  rw [sha256sumCheck, Bool.and_eq_true, List.all_eq_true]
  refine and_congr ?_ ?_
  · rw [decide_eq_true_eq, Ne, List.filter_eq_nil_iff]
    simp
  · simp only [List.mem_filter, and_imp]

/-! ## Verification -/

/-- A checksums file, with one line for every path at most. -/
structure Checksums where
  lines : List Line
  nodup : (lines.map Line.path).Nodup

/-- The command succeeds if and only if the file has a line, and its digest is the one
on it. -/
def Verifies (disk : Disk) (checksums : Checksums) (f : FileName) : Prop :=
  cmdChecksumSha256 disk checksums.lines f = .ok () ↔
    ∃ l ∈ checksums.lines, l.path = f.path ∧ disk.good l

theorem Checksums.eq_of_path (checksums : Checksums) {l l' : Line} (hl : l ∈ checksums.lines)
    (hl' : l' ∈ checksums.lines) (h : l.path = l'.path) : l = l' :=
  List.inj_on_of_nodup_map checksums.nodup hl hl' h

theorem cmdChecksumSha256_eq_ok {disk : Disk} {checksums : List Line} {f : FileName} :
    cmdChecksumSha256 disk checksums f = .ok () ↔
      (∃ l ∈ checksums, selects f l) ∧ ∀ l ∈ checksums, selects f l → disk.good l := by
  rw [← sha256sumCheck_iff, cmdChecksumSha256]
  by_cases h : sha256sumCheck disk (checksums.filter (selects f)) = true
  · simp [h]
  · simp [h]

/-- A file is verified exactly when the other lines that are found agree with its own:
if its line is good, they are good; if it has none, there are no such lines, or one of
them is not good. -/
theorem verifies_iff (disk : Disk) (checksums : Checksums) (f : FileName) :
    Verifies disk checksums f ↔
      ((∃ own ∈ checksums.lines, own.path = f.path ∧ disk.good own) →
        ∀ l ∈ checksums.lines, selects f l → disk.good l) ∧
      ((∀ l ∈ checksums.lines, l.path ≠ f.path) →
        (∃ l ∈ checksums.lines, selects f l) →
          ∃ l ∈ checksums.lines, selects f l ∧ ¬ disk.good l) := by
  rw [Verifies, cmdChecksumSha256_eq_ok]
  constructor
  · intro h
    refine ⟨fun hown => (h.mpr hown).2, fun hunlisted hfound => ?_⟩
    by_contra hnone
    have hall : ∀ l ∈ checksums.lines, selects f l → disk.good l := by
      intro l hl hselects
      by_contra hbad
      exact hnone ⟨l, hl, hselects, hbad⟩
    rcases h.mp ⟨hfound, hall⟩ with ⟨l, hl, hpath, _⟩
    exact hunlisted l hl hpath
  · rintro ⟨hgood, hunlisted⟩
    constructor
    · rintro ⟨hfound, hall⟩
      by_contra hown
      have hpath : ∀ l ∈ checksums.lines, l.path ≠ f.path := by
        intro l hl heq
        exact hown ⟨l, hl, heq, hall l hl (selects_own heq)⟩
      rcases hunlisted hpath hfound with ⟨l, hl, hselects, hbad⟩
      exact hbad (hall l hl hselects)
    · rintro ⟨own, hmem, hpath, hown⟩
      exact ⟨⟨own, hmem, selects_own hpath⟩, hgood ⟨own, hmem, hpath, hown⟩⟩

/-- The digest of the empty file. -/
def emptyDigest : Digest where
  text := "e3b0c44298fc1c149afbf4c8996fb92427ae41e4649b934ca495991b7852b855".toList
  isHex := List.all_iff_forall_prop.mp (by decide +kernel)
  length_eq := by decide +kernel

/-- Empty files, whatever their names. -/
def emptyFiles : Disk where
  Content := Unit
  file _ := some ()
  sha256 _ := emptyDigest

theorem emptyFiles_good (path : Text) : emptyFiles.good ⟨emptyDigest, path⟩ = true := by
  simp [Disk.good, emptyFiles]

def fooTar : FileName := ⟨"foo.tar".toList, List.all_iff_forall_prop.mp (by decide), by decide⟩

def fooTarGz : FileName := ⟨"foo.tar.gz".toList, List.all_iff_forall_prop.mp (by decide),
  by decide⟩

theorem selects_fooTarGz (digest : Digest) : selects fooTar ⟨digest, fooTarGz.path⟩ = true := by
  refine found_iff.mpr ⟨digest.text ++ [' ', ' '], fooTar.path, ".gz".toList, ?_, matches_bre _⟩
  rw [Line.text, List.append_assoc _ fooTar.path]
  rfl

/-- `foo.tar.gz` is listed, but not `foo.tar`. -/
theorem fooTar_not_verifies : ¬ ∀ disk checksums f, Verifies disk checksums f := by
  intro h
  have hfoo := h emptyFiles ⟨[⟨emptyDigest, fooTarGz.path⟩], by decide⟩ fooTar
  rw [Verifies, cmdChecksumSha256_eq_ok] at hfoo
  have hgood : ∀ l ∈ [(⟨emptyDigest, fooTarGz.path⟩ : Line)], selects fooTar l →
      emptyFiles.good l := by
    intro l hl _
    rw [List.mem_singleton.mp hl]
    exact emptyFiles_good _
  rcases hfoo.mp ⟨⟨_, List.mem_singleton_self _, selects_fooTarGz _⟩, hgood⟩ with
    ⟨l, hl, hpath, _⟩
  rw [List.mem_singleton.mp hl] at hpath
  exact absurd hpath (by decide +kernel)

/-! ## Regeneration -/

/-- A file that has been downloaded. -/
structure Downloaded (disk : Disk) where
  file : FileName
  exists_file : (disk.file file.path).isSome

/-- The line of a file. -/
def Downloaded.line {disk : Disk} (f : Downloaded disk) : Line :=
  ⟨disk.sha256 ((disk.file f.file.path).get f.exists_file), f.file.path⟩

/-- The lines of all other files are the same, and the file has one line, with the
digest of what has been downloaded. -/
def Regenerated {disk : Disk} (f : Downloaded disk) (before after : List Line) : Prop :=
  (after.filter fun l => l.path ≠ f.file.path).Perm
      (before.filter fun l => l.path ≠ f.file.path) ∧
    after.filter (fun l => l.path = f.file.path) = [f.line]

section Generate

variable (sortV : List Line → List Line) (disk : Disk)

/-- The checksums after the command has been run for one file after the other. -/
def generateAll (checksums : List Line) (fs : List (Downloaded disk)) : List Line :=
  fs.foldl (fun checksums f => generateChecksumSha256 sortV disk checksums f.file) checksums

/-- In every order of the files, each of them is regenerated when it is its turn, and
in the end the lines are the same. -/
def RegeneratesAll (checksums : Checksums) (fs : List (Downloaded disk)) : Prop :=
  (∀ order before f after, order.Perm fs → order = before ++ f :: after →
    Regenerated f (generateAll sortV disk checksums.lines before)
      (generateAll sortV disk checksums.lines (before ++ [f]))) ∧
  ∀ order order', order.Perm fs → order'.Perm fs →
    ∀ l, l ∈ generateAll sortV disk checksums.lines order ↔
      l ∈ generateAll sortV disk checksums.lines order'

/-- No other line is found, or the file has a line and all that are found are good. -/
def Isolated (checksums : List Line) (f : FileName) : Prop :=
  (∀ l ∈ checksums, selects f l → l.path = f.path) ∨
    (∃ l ∈ checksums, l.path = f.path) ∧ ∀ l ∈ checksums, selects f l → disk.good l

end Generate

section Step

variable {sortV : List Line → List Line} {disk : Disk}

theorem Downloaded.sha256sum_eq (f : Downloaded disk) :
    sha256sum disk f.file.path = some f.line := by
  rw [sha256sum, Option.map_eq_some_iff]
  exact ⟨_, (Option.some_get f.exists_file).symm, rfl⟩

/-- The good line of a file is the one that `sha256sum` prints. -/
theorem Downloaded.good_iff (f : Downloaded disk) {l : Line} (hl : l.path = f.file.path) :
    disk.good l ↔ l = f.line := by
  rw [Disk.good, hl]
  rcases Option.isSome_iff_exists.mp f.exists_file with ⟨content, hcontent⟩
  have hline : f.line = ⟨disk.sha256 content, f.file.path⟩ := by simp [Downloaded.line, hcontent]
  rw [hcontent, hline]
  cases l
  simp_all [eq_comm]

theorem regenerated_iff_perm {f : Downloaded disk} {before after : List Line} :
    Regenerated f before after ↔
      after.Perm (f.line :: before.filter fun l => l.path ≠ f.file.path) := by
  have hown : ∀ l : Line, (!decide (l.path = f.file.path)) = decide (l.path ≠ f.file.path) := by
    intro l
    simp
  constructor
  · rintro ⟨hothers, hline⟩
    have hsplit := List.filter_append_perm (fun l : Line => decide (l.path = f.file.path)) after
    simp only [hown, hline] at hsplit
    exact hsplit.symm.trans (hothers.cons _)
  · intro h
    refine ⟨?_, ?_⟩
    · have hfilter := h.filter fun l => decide (l.path ≠ f.file.path)
      rw [List.filter_cons_of_neg (by simp [Downloaded.line]), List.filter_filter] at hfilter
      simpa using hfilter
    · have hfilter := h.filter fun l => decide (l.path = f.file.path)
      rw [List.filter_cons_of_pos (by simp [Downloaded.line]), List.filter_filter] at hfilter
      have hnil : (before.filter fun l => decide (l.path = f.file.path) &&
          decide (l.path ≠ f.file.path)) = [] := by
        rw [List.filter_eq_nil_iff]
        simp
      rw [hnil] at hfilter
      exact List.perm_singleton.mp hfilter

/-- A line is one of the others, or that of the file. -/
theorem perm_own_others {f : Downloaded disk} {checksums : List Line}
    (hnd : (checksums.map Line.path).Nodup) (hown : f.line ∈ checksums) :
    checksums.Perm (f.line :: checksums.filter fun l => l.path ≠ f.file.path) := by
  have hlines : checksums.Nodup := List.Nodup.of_map _ hnd
  refine (List.perm_ext_iff_of_nodup hlines ?_).mpr fun l => ?_
  · refine List.nodup_cons.mpr ⟨fun hmem => ?_, hlines.filter _⟩
    have hpath := (List.mem_filter.mp hmem).2
    simp [Downloaded.line] at hpath
  · rw [List.mem_cons, List.mem_filter, decide_eq_true_eq]
    constructor
    · intro hl
      by_cases hpath : l.path = f.file.path
      · exact Or.inl (List.inj_on_of_nodup_map hnd hl hown hpath)
      · exact Or.inr ⟨hl, hpath⟩
    · rintro (rfl | ⟨hl, _⟩)
      · exact hown
      · exact hl

/-- `grep -v` leaves the lines of the other files if `grep` finds none of them. -/
theorem filter_not_selects {checksums : List Line} {f : FileName}
    (h : ∀ l ∈ checksums, selects f l → l.path = f.path) :
    (checksums.filter fun l => !selects f l) = checksums.filter fun l => l.path ≠ f.path := by
  refine List.filter_congr fun l hl => ?_
  by_cases hpath : l.path = f.path
  · simp [hpath, selects_own hpath]
  · have hnot : selects f l = false := by
      by_contra hselects
      exact hpath (h l hl (by simpa using hselects))
    simp [hpath, hnot]

variable (hperm : ∀ lines, (sortV lines).Perm lines)

include hperm

/-- What one call of the command does. -/
theorem generate_regenerated_iff {checksums : List Line} (hnd : (checksums.map Line.path).Nodup)
    (f : Downloaded disk) :
    Regenerated f checksums (generateChecksumSha256 sortV disk checksums f.file) ↔
      Isolated disk checksums f.file := by
  rw [regenerated_iff_perm, generateChecksumSha256]
  -- where the check passes nothing is written, and else the lines that match are replaced
  by_cases hcheck : sha256sumCheck disk (checksums.filter (selects f.file)) = true
  · rw [if_pos hcheck]
    rcases sha256sumCheck_iff.mp hcheck with ⟨⟨found, hfound, hselects⟩, hgood⟩
    constructor
    · intro h
      have hline : f.line ∈ checksums := h.symm.subset (List.mem_cons_self ..)
      exact Or.inr ⟨⟨f.line, hline, rfl⟩, hgood⟩
    · intro h
      have hown : ∃ l ∈ checksums, l.path = f.file.path := by
        rcases h with h | h
        · exact ⟨found, hfound, h found hfound hselects⟩
        · exact h.1
      rcases hown with ⟨own, hmem, hpath⟩
      have hline : own = f.line := (f.good_iff hpath).mp (hgood own hmem (selects_own hpath))
      exact perm_own_others hnd (hline ▸ hmem)
  · rw [if_neg hcheck, f.sha256sum_eq]
    have hsorted := hperm (checksums.filter (fun l => !selects f.file l) ++ (some f.line).toList)
    constructor
    · intro h
      refine Or.inl fun l hl hselects => ?_
      by_contra hpath
      have hmem : l ∈ f.line :: checksums.filter fun l => l.path ≠ f.file.path :=
        List.mem_cons_of_mem _ (List.mem_filter.mpr ⟨hl, by simpa using hpath⟩)
      rcases List.mem_append.mp (hsorted.subset (h.symm.subset hmem)) with hkept | hown
      · simp [hselects] at hkept
      · have hline : l = f.line := List.mem_singleton.mp hown
        exact hpath (hline ▸ rfl)
    · rintro (h | ⟨⟨own, hmem, hpath⟩, hgood⟩)
      · rw [filter_not_selects h] at hsorted ⊢
        exact hsorted.trans (List.perm_append_singleton ..)
      · exact absurd (sha256sumCheck_iff.mpr ⟨⟨own, hmem, selects_own hpath⟩, hgood⟩) hcheck

end Step

/-! ## Several files -/

section Run

variable {sortV : List Line → List Line} {disk : Disk} {checksums : Checksums}

/-- The lines after some files have been regenerated. -/
structure Progress (checksums : Checksums) (fs : List (Downloaded disk)) (lines : List Line) :
    Prop where
  nodup : (lines.map Line.path).Nodup
  mem_iff : ∀ l, l ∈ lines ↔
    (l ∈ checksums.lines ∧ ∀ f ∈ fs, l.path ≠ f.file.path) ∨ ∃ f ∈ fs, l = f.line

theorem Progress.begin :
    Progress checksums ([] : List (Downloaded disk)) checksums.lines where
  nodup := checksums.nodup
  mem_iff l := by simp

theorem Downloaded.line_eq {f g : Downloaded disk} (h : f.file.path = g.file.path) :
    f.line = g.line := by
  have hfile : f.file = g.file := FileName.path_injective h
  cases f
  cases g
  cases hfile
  rfl

theorem Progress.step {fs : List (Downloaded disk)} {lines lines' : List Line}
    (h : Progress checksums fs lines) {f : Downloaded disk} (hstep : Regenerated f lines lines') :
    Progress checksums (fs ++ [f]) lines' := by
  have hperm := regenerated_iff_perm.mp hstep
  constructor
  · rw [(hperm.map Line.path).nodup_iff, List.map_cons, List.nodup_cons]
    refine ⟨fun hmem => ?_, ?_⟩
    · rcases List.mem_map.mp hmem with ⟨l, hl, hpath⟩
      have hother := (List.mem_filter.mp hl).2
      rw [decide_eq_true_eq] at hother
      exact hother hpath
    · exact h.nodup.sublist (List.filter_sublist.map _)
  · intro l
    rw [hperm.mem_iff, List.mem_cons, List.mem_filter, h.mem_iff l, decide_eq_true_eq]
    constructor
    · rintro (rfl | ⟨⟨hl, hothers⟩ | ⟨g, hg, rfl⟩, hpath⟩)
      · exact Or.inr ⟨f, by simp, rfl⟩
      · refine Or.inl ⟨hl, fun g hg => ?_⟩
        rcases List.mem_append.mp hg with hg | hg
        · exact hothers g hg
        · exact List.mem_singleton.mp hg ▸ hpath
      · exact Or.inr ⟨g, List.mem_append_left _ hg, rfl⟩
    · rintro (⟨hl, hothers⟩ | ⟨g, hg, rfl⟩)
      · refine Or.inr ⟨Or.inl ⟨hl, fun g hg => hothers g (List.mem_append_left _ hg)⟩, ?_⟩
        exact hothers f (by simp)
      · by_cases hpath : g.file.path = f.file.path
        · exact Or.inl (Downloaded.line_eq hpath)
        · rcases List.mem_append.mp hg with hg | hg
          · exact Or.inr ⟨Or.inr ⟨g, hg, rfl⟩, hpath⟩
          · exact absurd (by rw [List.mem_singleton.mp hg]) hpath

/-- The lines that may come to stand beside that of a file are not found with it, or the
file has a line and what is found at the beginning is good. -/
def IsolatedAmong (disk : Disk) (checksums : Checksums) (fs : List (Downloaded disk))
    (f : Downloaded disk) : Prop :=
  (∀ l ∈ checksums.lines ++ fs.map Downloaded.line, selects f.file l → l.path = f.file.path) ∨
    (∃ l ∈ checksums.lines, l.path = f.file.path) ∧
      ∀ l ∈ checksums.lines, selects f.file l → disk.good l

@[simp]
theorem generateAll_nil (sortV : List Line → List Line) (lines : List Line) :
    generateAll sortV disk lines [] = lines :=
  rfl

theorem generateAll_concat (sortV : List Line → List Line) (lines : List Line)
    (fs : List (Downloaded disk)) (f : Downloaded disk) :
    generateAll sortV disk lines (fs ++ [f]) =
      generateChecksumSha256 sortV disk (generateAll sortV disk lines fs) f.file := by
  rw [generateAll, List.foldl_append]
  rfl

theorem Downloaded.good_line (f : Downloaded disk) : disk.good f.line :=
  (f.good_iff rfl).mpr rfl

/-- The condition on a file goes on to hold while others are regenerated. -/
theorem Progress.isolated {fs done : List (Downloaded disk)} {lines : List Line}
    (h : Progress checksums done lines) (hdone : done ⊆ fs) {f : Downloaded disk}
    (hf : IsolatedAmong disk checksums fs f) : Isolated disk lines f.file := by
  rcases hf with hf | ⟨⟨own, hmem, hpath⟩, hgood⟩
  · refine Or.inl fun l hl => hf l ?_
    rcases (h.mem_iff l).mp hl with ⟨hl, _⟩ | ⟨g, hg, rfl⟩
    · exact List.mem_append_left _ hl
    · exact List.mem_append_right _ (List.mem_map_of_mem (hdone hg))
  · refine Or.inr ⟨?_, fun l hl hselects => ?_⟩
    · by_cases hnew : ∃ g ∈ done, own.path = g.file.path
      · rcases hnew with ⟨g, hg, hown⟩
        exact ⟨g.line, (h.mem_iff _).mpr (Or.inr ⟨g, hg, rfl⟩), hown.symm.trans hpath⟩
      · refine ⟨own, (h.mem_iff _).mpr (Or.inl ⟨hmem, fun g hg heq => ?_⟩), hpath⟩
        exact hnew ⟨g, hg, heq⟩
    · rcases (h.mem_iff l).mp hl with ⟨hl, _⟩ | ⟨g, _, rfl⟩
      · exact hgood l hl hselects
      · exact g.good_line

variable (hperm : ∀ lines, (sortV lines).Perm lines)

include hperm

theorem regenerated_of_isolated {fs done : List (Downloaded disk)} {lines : List Line}
    (h : Progress checksums done lines) (hdone : done ⊆ fs) {f : Downloaded disk}
    (hf : IsolatedAmong disk checksums fs f) :
    Regenerated f lines (generateChecksumSha256 sortV disk lines f.file) :=
  (generate_regenerated_iff hperm h.nodup f).mpr (h.isolated hdone hf)

/-- The run lemma, by induction on the files that have been regenerated. -/
theorem Progress.generateAll {fs : List (Downloaded disk)}
    (hfs : ∀ f ∈ fs, IsolatedAmong disk checksums fs f) (done : List (Downloaded disk))
    (hdone : done ⊆ fs) :
    Progress checksums done (generateAll sortV disk checksums.lines done) := by
  induction done using List.reverseRecOn with
  | nil => exact Progress.begin
  | append_singleton done f ih =>
      have hbefore : done ⊆ fs := fun g hg => hdone (List.mem_append_left _ hg)
      have hf : f ∈ fs := hdone (by simp)
      rw [generateAll_concat]
      exact (ih hbefore).step (regenerated_of_isolated hperm (ih hbefore) hbefore (hfs f hf))

theorem RegeneratesAll.of_isolated {fs : List (Downloaded disk)}
    (hfs : ∀ f ∈ fs, IsolatedAmong disk checksums fs f) :
    RegeneratesAll sortV disk checksums fs := by
  constructor
  · intro order before f after horder hsplit
    have hbefore : before ⊆ fs := by
      intro g hg
      exact horder.subset (hsplit ▸ List.mem_append_left _ hg)
    have hf : f ∈ fs := horder.subset (by simp [hsplit])
    rw [generateAll_concat]
    exact regenerated_of_isolated hperm (Progress.generateAll hperm hfs before hbefore) hbefore
      (hfs f hf)
  · intro order order' horder horder' l
    have hprogress := Progress.generateAll hperm hfs order horder.subset
    have hprogress' := Progress.generateAll hperm hfs order' horder'.subset
    have hmem : ∀ f, f ∈ order ↔ f ∈ order' := fun f => (horder.trans horder'.symm).mem_iff
    rw [hprogress.mem_iff, hprogress'.mem_iff]
    simp only [hmem]

/-- The file that comes first is isolated in the checksums file itself. -/
theorem RegeneratesAll.isolated_first {f : Downloaded disk} {rest fs : List (Downloaded disk)}
    (h : RegeneratesAll sortV disk checksums fs) (horder : (f :: rest).Perm fs) :
    Isolated disk checksums.lines f.file ∧
      Progress checksums [f] (generateAll sortV disk checksums.lines [f]) := by
  have hstep := h.1 (f :: rest) [] f rest horder rfl
  refine ⟨?_, Progress.begin.step hstep⟩
  rw [generateAll_concat, generateAll_nil] at hstep
  exact (generate_regenerated_iff hperm checksums.nodup f).mp hstep

/-- The file that comes second is isolated where the first has been regenerated. -/
theorem RegeneratesAll.isolated_second {f g : Downloaded disk}
    {rest fs : List (Downloaded disk)} (h : RegeneratesAll sortV disk checksums fs)
    (horder : (g :: f :: rest).Perm fs) :
    Isolated disk (generateAll sortV disk checksums.lines [g]) f.file := by
  have hprogress := (h.isolated_first hperm horder).2
  have hstep := h.1 (g :: f :: rest) [g] f rest horder rfl
  rw [generateAll_concat] at hstep
  exact (generate_regenerated_iff hperm hprogress.nodup f).mp hstep

theorem RegeneratesAll.isolatedAmong {fs : List (Downloaded disk)}
    (h : RegeneratesAll sortV disk checksums fs) {f : Downloaded disk} (hf : f ∈ fs) :
    IsolatedAmong disk checksums fs f := by
  rcases List.append_of_mem hf with ⟨as, bs, hsplit⟩
  have horder : (f :: (as ++ bs)).Perm fs := hsplit ▸ List.perm_middle.symm
  rcases (h.isolated_first hperm horder).1 with hown | hgood
  · by_cases hlines : ∀ g ∈ fs, selects f.file g.line → g.line.path = f.file.path
    · refine Or.inl fun l hl => ?_
      rcases List.mem_append.mp hl with hl | hl
      · exact hown l hl
      · rcases List.mem_map.mp hl with ⟨g, hg, rfl⟩
        exact hlines g hg
    · -- the line of another file is found: it may come first
      push Not at hlines
      rcases hlines with ⟨g, hg, hselects, hpath⟩
      have hne : g ≠ f := by
        rintro rfl
        exact hpath rfl
      have hg' : g ∈ as ++ bs := by
        rcases List.mem_cons.mp (horder.symm.subset hg) with heq | hg'
        · exact absurd heq hne
        · exact hg'
      rcases List.append_of_mem hg' with ⟨cs, ds, hsplit'⟩
      have hrest : (g :: (cs ++ ds)).Perm (as ++ bs) := hsplit' ▸ List.perm_middle.symm
      have hfirst : (g :: f :: (cs ++ ds)).Perm fs :=
        (List.Perm.swap ..).trans ((hrest.cons f).trans horder)
      have hprogress := (h.isolated_first hperm hfirst).2
      have hline : g.line ∈ generateAll sortV disk checksums.lines [g] :=
        (hprogress.mem_iff _).mpr (Or.inr ⟨g, List.mem_singleton_self g, rfl⟩)
      rcases h.isolated_second hperm hfirst with hfound | ⟨⟨own, hmem, hown'⟩, hgood⟩
      · exact absurd (hfound _ hline hselects) hpath
      · have hold : own ∈ checksums.lines := by
          rcases (hprogress.mem_iff own).mp hmem with ⟨hold, _⟩ | ⟨g', hg', rfl⟩
          · exact hold
          · rw [List.mem_singleton.mp hg'] at hown'
            exact absurd hown' hpath
        refine Or.inr ⟨⟨own, hold, hown'⟩, fun l hl hselected => ?_⟩
        have heq : l = own := checksums.eq_of_path hl hold ((hown l hl hselected).trans hown'.symm)
        rw [heq]
        exact hgood own hmem (selects_own hown')
  · exact Or.inr hgood

/-- The files of a list are regenerated in any order exactly when `grep` finds for each
of them no line of another path, now or once the others have been regenerated, or the
file has a line and all that are found for it are good from the beginning. -/
theorem regeneratesAll_iff (checksums : Checksums) (fs : List (Downloaded disk)) :
    RegeneratesAll sortV disk checksums fs ↔ ∀ f ∈ fs, IsolatedAmong disk checksums fs f :=
  ⟨fun h _ hf => h.isolatedAmong hperm hf, RegeneratesAll.of_isolated hperm⟩

end Run

/-- The lines of `foo.tar` and `foo.tar.gz` are both good, so both stay. -/
theorem regeneratesAll_fooTar :
    RegeneratesAll id emptyFiles
      ⟨[⟨emptyDigest, fooTar.path⟩, ⟨emptyDigest, fooTarGz.path⟩], by decide +kernel⟩
      [⟨fooTar, rfl⟩, ⟨fooTarGz, rfl⟩] := by
  refine (regeneratesAll_iff (fun lines => List.Perm.refl lines) _ _).mpr fun f hf => ?_
  refine Or.inr ⟨?_, fun l hl _ => ?_⟩
  · rcases List.mem_pair.mp hf with rfl | rfl
    · exact ⟨_, List.mem_cons_self .., rfl⟩
    · exact ⟨_, List.mem_cons_of_mem _ (List.mem_singleton_self _), rfl⟩
  · rcases List.mem_pair.mp hl with rfl | rfl
    · exact emptyFiles_good _
    · exact emptyFiles_good _

/-- The good line of `foo.tar.gz` is found for `foo.tar`, which then gets none. -/
theorem fooTar_not_regeneratesAll :
    ¬ ∀ (sortV : List Line → List Line), (∀ lines, (sortV lines).Perm lines) →
      ∀ disk checksums (fs : List (Downloaded disk)), RegeneratesAll sortV disk checksums fs := by
  intro h
  have hperm : ∀ lines : List Line, (id lines).Perm lines := fun lines => List.Perm.refl lines
  have hfoo := h id hperm emptyFiles ⟨[⟨emptyDigest, fooTarGz.path⟩], by decide⟩ [⟨fooTar, rfl⟩]
  have hpath : fooTarGz.path ≠ fooTar.path := by decide +kernel
  rcases (hfoo.isolated_first hperm (List.Perm.refl _)).1 with hown | ⟨⟨own, hmem, hown⟩, _⟩
  · exact hpath (hown _ (List.mem_singleton_self _) (selects_fooTarGz _))
  · rw [List.mem_singleton.mp hmem] at hown
    exact hpath hown

end Pbs.Download.Sha256
