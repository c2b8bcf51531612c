import Pbs.Lib.MakeText

/-!
# The URL of a download

`scripts/Makefile.package` lists what a package downloads in `TARBALLS` and `FILES`. A
file is named after the end of its entry, or after what follows `;filename=`. When it
is to be fetched, only this name is left: `dlurl` takes the first of `remote-files`
that ends with it.
-/

namespace Pbs.Download.Urls

open MakeSyntax MakeText

/-! ## Makefile.package -/

def filenameMark : Text := [';', 'f', 'i', 'l', 'e', 'n', 'a', 'm', 'e', '=']

/-- `url-filename` -/
def urlFilename (entry : Text) : Text :=
  lastword (subst ['/'] [' '] (subst filenameMark [' '] entry))

/-- `url-pathname` -/
def urlPathname (entry : Text) : Text :=
  firstword (subst filenameMark [' '] entry)

/-- A word of `TARBALLS` or `FILES`. It has a URL and a file name. -/
structure Entry where
  text : Text
  isWord : IsWord text
  url_ne : urlPathname text ≠ []
  filename_ne : urlFilename text ≠ []

/-- The variables that a package sets. -/
structure Package where
  location : Text
  tarballs : List Entry
  files : List Entry
  not_blank : ∀ c ∈ location, isBlank c = false

namespace Package

variable (p : Package)

/-- `remote-files` -/
def remoteFiles : Text :=
  addprefix (p.location ++ ['/']) (unwords (p.tarballs.map Entry.text)) ++
    ' ' :: unwords (p.files.map Entry.text)

/-- `dlurl`, in the rule for the local file with this stem. -/
def dlurl (stem : Text) : Text :=
  urlPathname (filter ('%' :: stem) p.remoteFiles)

/-! ## What is expected of it -/

/-- A file that is downloaded, and its entry in `remote-files`. -/
structure Remote where
  filename : Text
  text : Text
deriving DecidableEq

def tarball (e : Entry) : Remote := ⟨urlFilename e.text, (p.location ++ ['/']) ++ e.text⟩

def file (e : Entry) : Remote := ⟨urlFilename e.text, e.text⟩

def remotes : List Remote := p.tarballs.map p.tarball ++ p.files.map file

/-- The files have different names. -/
def DistinctNames : Prop := (p.remotes.map Remote.filename).Nodup

/-- Every file is fetched from the URL of its entry. -/
def SelectsUrls : Prop := ∀ r ∈ p.remotes, p.dlurl r.filename = urlPathname r.text

/-- The first entry of `remote-files` that ends with the name of the file. -/
def firstMatch (filename : Text) : Option Remote :=
  p.remotes.find? fun r => filename.isSuffixOf r.text

/-! ## The words of remote-files -/

theorem words_remoteFiles : words p.remoteFiles = p.remotes.map Remote.text := by
  have hentries : ∀ es : List Entry, ∀ w ∈ es.map Entry.text, IsWord w := by
    intro es w hw
    rcases List.mem_map.mp hw with ⟨e, _, rfl⟩
    exact e.isWord
  have hlocation : ∀ c ∈ p.location ++ ['/'], isBlank c = false := by
    intro c hc
    rcases List.mem_append.mp hc with hc | hc
    · exact p.not_blank c hc
    · rw [List.mem_singleton.mp hc]
      rfl
  rw [remoteFiles, words_append (by decide), words_addprefix hlocation,
    words_unwords (hentries _), words_unwords (hentries _), remotes, List.map_append,
    List.map_map, List.map_map, List.map_map]
  rfl

/-- Every entry of `remote-files` has a URL. -/
theorem urlPathname_ne {r : Remote} (hr : r ∈ p.remotes) :
    words (subst filenameMark [' '] r.text) ≠ [] := by
  rcases List.mem_append.mp hr with hr | hr
  · rcases List.mem_map.mp hr with ⟨e, _, rfl⟩
    have hslash : (p.tarball e).text = p.location ++ '/' :: e.text := by simp [tarball]
    rw [hslash, subst_append (by decide) (by decide)]
    exact words_ne_nil (c := '/') (by simp) (by decide)
  · rcases List.mem_map.mp hr with ⟨e, _, rfl⟩
    intro h
    have hurl := e.url_ne
    rw [urlPathname, firstword] at hurl
    exact hurl (by rw [show e.text = (file e).text from rfl, h]; rfl)

/-- `dlurl` takes the URL of the first entry that matches. -/
theorem dlurl_eq (stem : Text) :
    p.dlurl stem = ((p.firstMatch stem).map fun r => urlPathname r.text).getD [] := by
  have hmatch : ∀ w, patternMatches ('%' :: stem) w = stem.isSuffixOf w := by
    intro w
    rw [Bool.eq_iff_iff, patternMatches_percent, List.isSuffixOf_iff_suffix]
  have hwords : (words p.remoteFiles).filter (patternMatches ('%' :: stem)) =
      (p.remotes.filter fun r => stem.isSuffixOf r.text).map Remote.text := by
    rw [words_remoteFiles, List.filter_map]
    refine congrArg _ (List.filter_congr fun r _ => ?_)
    exact hmatch r.text
  rw [dlurl, urlPathname, firstword, filter, words_subst_unwords (by decide) (by decide), hwords,
    firstMatch, ← List.head?_filter]
  cases hfilter : p.remotes.filter fun r => stem.isSuffixOf r.text with
  | nil => rfl
  | cons r rest =>
      have hmem : r ∈ p.remotes := List.mem_of_mem_filter (hfilter ▸ List.mem_cons_self ..)
      rcases List.exists_cons_of_ne_nil (p.urlPathname_ne hmem) with ⟨w, ws, hw⟩
      rw [List.map_cons, List.flatMap_cons, hw, List.head?_cons, Option.map_some, Option.getD_some,
        urlPathname, firstword, hw]
      rfl

/-- The right URLs are selected exactly when for every file, an entry ends with its
name, and the first one that does has its URL. -/
theorem selectsUrls_iff : p.SelectsUrls ↔ ∀ r ∈ p.remotes, ∃ first,
    p.firstMatch r.filename = some first ∧ urlPathname first.text = urlPathname r.text := by
  refine forall_congr' fun r => forall_congr' fun hr => ?_
  rw [dlurl_eq]
  cases hfirst : p.firstMatch r.filename with
  | none =>
      constructor
      · intro h
        have hne := p.urlPathname_ne hr
        rcases List.exists_cons_of_ne_nil hne with ⟨w, ws, hw⟩
        have hword := isWord_of_mem_words (hw ▸ List.mem_cons_self .. :
          w ∈ words (subst filenameMark [' '] r.text))
        rw [urlPathname, firstword, hw] at h
        exact absurd h.symm hword.nonempty
      · rintro ⟨first, h, _⟩
        cases h
  | some first => simp

/-- No entry ends with the name of a file behind it, and every entry ends with the name
of its own. -/
theorem selectsUrls_of_pairwise (hown : ∀ r ∈ p.remotes, r.filename <:+ r.text)
    (hothers : p.remotes.Pairwise fun r r' => ¬ r'.filename <:+ r.text) : p.SelectsUrls := by
  rw [selectsUrls_iff]
  intro r hr
  refine ⟨r, ?_, rfl⟩
  rcases List.append_of_mem hr with ⟨before, after, hsplit⟩
  rw [firstMatch, hsplit, List.find?_append]
  rw [hsplit, List.pairwise_append] at hothers
  have hbefore : before.find? (fun r' => r.filename.isSuffixOf r'.text) = none := by
    refine List.find?_eq_none.mpr fun r' hr' h => ?_
    exact hothers.2.2 r' hr' r (List.mem_cons_self ..) (List.isSuffixOf_iff_suffix.mp h)
  have hmatch : r.filename.isSuffixOf r.text = true :=
    List.isSuffixOf_iff_suffix.mpr (hown r hr)
  rw [hbefore, List.find?_cons, hmatch]
  rfl

end Package

/-- A library in front of a program whose name ends its own: `libpng.tar`, `png.tar`. -/
def libraryFirst : Package where
  location := "http://host".toList
  tarballs := [⟨"libpng.tar".toList, by decide, by decide, by decide⟩,
    ⟨"png.tar".toList, by decide, by decide, by decide⟩]
  files := []
  not_blank := List.all_iff_forall_prop.mp (by decide)

theorem libraryFirst_not_selectsUrls : ¬ ∀ p : Package, p.DistinctNames → p.SelectsUrls := by
  intro h
  have hdistinct : libraryFirst.DistinctNames := by
    unfold Package.DistinctNames
    decide +kernel
  have hurl := h libraryFirst hdistinct ⟨"png.tar".toList, "http://host/png.tar".toList⟩
    (by decide +kernel)
  exact absurd hurl (by decide +kernel)

end Pbs.Download.Urls
