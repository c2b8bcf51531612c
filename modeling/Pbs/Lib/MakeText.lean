import Pbs.Lib.MakeSyntax
import Mathlib.Data.Bool.AllAny
import Mathlib.Data.List.Basic

/-!
# The text functions of make

`firstword`, `word`, `wordlist`, `addprefix`, `filter` and `subst` on texts. The
functions that return words put a blank between them (`unwords`), so that what they
return is described by its words (`words_unwords`).
-/

namespace MakeText

open MakeSyntax

/-! ## Words -/

/-- A text between blanks. -/
structure IsWord (w : Text) : Prop where
  not_blank : ∀ c ∈ w, isBlank c = false
  nonempty : w ≠ []

instance (w : Text) : Decidable (IsWord w) :=
  decidable_of_iff ((w.all fun c => decide (isBlank c = false)) = true ∧ w ≠ [])
    ⟨fun h => ⟨List.all_iff_forall_prop.mp h.1, h.2⟩,
      fun h => ⟨List.all_iff_forall_prop.mpr h.not_blank, h.nonempty⟩⟩

/-- The words with a blank between any two of them. -/
def unwords : List Text → Text
  | [] => []
  | [w] => w
  | w :: v :: ws => w ++ ' ' :: unwords (v :: ws)

theorem IsWord.words_eq {w : Text} (hw : IsWord w) : words w = [w] := by
  have hsplit : w.splitOnP isBlank = [w] := List.splitOnP_eq_singleton hw.not_blank
  simp [words, hsplit, hw.nonempty]

/-- The words of a text are words. -/
theorem isWord_of_mem_words {text w : Text} (h : w ∈ words text) : IsWord w := by
  have hmem := List.mem_filter.mp h
  refine ⟨?_, by simpa using hmem.2⟩
  exact fun c hc => (of_mem_splitOnP hmem.1 c hc).2

/-- A text with a character that is no blank has a word. -/
theorem words_ne_nil {text : Text} {c : Char} (hmem : c ∈ text) (hc : isBlank c = false) :
    words text ≠ [] := by
  induction text with
  | nil => cases hmem
  | cons d text ih =>
      by_cases hd : isBlank d = true
      · rw [words_cons hd]
        rcases List.mem_cons.mp hmem with rfl | hmem
        · exact absurd hd (by simp [hc])
        · exact ih hmem
      · rcases List.exists_cons_of_ne_nil (List.splitOnP_ne_nil isBlank text) with ⟨u, us, hus⟩
        rw [words, List.splitOnP_cons_eq_if_modifyHead, if_neg hd, hus, List.modifyHead_cons,
          List.filter_cons_of_pos (by simp)]
        exact List.cons_ne_nil _ _

theorem words_unwords {ws : List Text} (hws : ∀ w ∈ ws, IsWord w) : words (unwords ws) = ws := by
  induction ws with
  | nil => exact words_nil
  | cons w ws ih =>
      have hw := hws w (List.mem_cons_self ..)
      cases ws with
      | nil => exact hw.words_eq
      | cons v ws =>
          rw [unwords, words_append (by decide), hw.words_eq,
            ih fun u hu => hws u (List.mem_cons_of_mem w hu)]
          rfl

/-! ## Choosing words -/

/-- `$(firstword text)` -/
def firstword (text : Text) : Text := (words text).headD []

/-- `$(lastword text)` -/
def lastword (text : Text) : Text := (words text).getLastD []

/-- `$(word n,text)` -/
def word (n : ℕ) (text : Text) : Text := (words text)[n - 1]?.getD []

/-- `$(wordlist first,last,text)` -/
def wordlist (first last : ℕ) (text : Text) : Text :=
  unwords (((words text).take last).drop (first - 1))

theorem words_wordlist (first last : ℕ) (text : Text) :
    words (wordlist first last text) = ((words text).take last).drop (first - 1) := by
  refine words_unwords fun w hw => ?_
  exact isWord_of_mem_words (List.mem_of_mem_take (List.mem_of_mem_drop hw))

/-- All words but the first. -/
theorem words_wordlist_two (text : Text) :
    words (wordlist 2 (words text).length text) = (words text).tail := by
  rw [words_wordlist, List.take_length, List.drop_one]

/-! ## Changing words -/

/-- `$(addprefix p,text)` -/
def addprefix (p text : Text) : Text := unwords ((words text).map (p ++ ·))

theorem words_addprefix {p : Text} (hp : ∀ c ∈ p, isBlank c = false) (text : Text) :
    words ( addprefix p text) = (words text).map (p ++ ·) := by
  refine words_unwords fun w hw => ?_
  rcases List.mem_map.mp hw with ⟨v, hv, rfl⟩
  have hword := isWord_of_mem_words hv
  refine ⟨fun c hc => ?_, fun h => hword.nonempty (List.append_eq_nil_iff.mp h).2⟩
  rcases List.mem_append.mp hc with hc | hc
  · exact hp c hc
  · exact hword.not_blank c hc

/-- A word matches a pattern: what the first `%` stands for is free. -/
def patternMatches (pattern w : Text) : Bool :=
  match pattern.dropWhile (· ≠ '%') with
  | [] => w == pattern
  | _ :: stop =>
      let start := pattern.takeWhile (· ≠ '%')
      start.isPrefixOf w && stop.isSuffixOf w && decide (start.length + stop.length ≤ w.length)

/-- `$(filter pattern,text)` -/
def filter (pattern text : Text) : Text :=
  unwords ((words text).filter (patternMatches pattern))

/-- `%` in front of a text: the words that end with it. -/
theorem patternMatches_percent (stop w : Text) :
    patternMatches ('%' :: stop) w = true ↔ stop <:+ w := by
  have hdrop : ('%' :: stop).dropWhile (· ≠ '%') = '%' :: stop := by simp
  have htake : ('%' :: stop).takeWhile (· ≠ '%') = [] := by simp
  rw [patternMatches, hdrop]
  simp only [htake, List.isPrefixOf_nil_left, Bool.true_and, Bool.and_eq_true,
    List.isSuffixOf_iff_suffix, decide_eq_true_eq, List.length_nil, Nat.zero_add,
    and_iff_left_iff_imp]
  exact fun h => h.length_le

/-! ## Substitution -/

/-- Replace `old`, from the left to the right; the first `skip` characters belong to
an occurrence that has been replaced. -/
def substFrom (old new : Text) : ℕ → Text → Text
  | _, [] => []
  | skip + 1, _ :: rest => substFrom old new skip rest
  | 0, c :: rest =>
      if old.isPrefixOf (c :: rest) then new ++ substFrom old new (old.length - 1) rest
      else c :: substFrom old new 0 rest

/-- `$(subst old,new,text)` -/
def subst (old new text : Text) : Text := substFrom old new 0 text

/-- A prefix does not extend over a character that it does not contain. -/
theorem prefix_append_cons {old : Text} {c : Char} (hc : c ∉ old) (x y : Text) :
    old <+: x ++ c :: y ↔ old <+: x := by
  constructor
  · rintro ⟨rest, hrest⟩
    rcases List.append_eq_append_iff.mp hrest with ⟨mid, hx, _⟩ | ⟨mid, hold, hmid⟩
    · exact ⟨mid, hx.symm⟩
    · cases mid with
      | nil => exact ⟨[], by rw [hold, List.append_nil, List.append_nil]⟩
      | cons d mid =>
          have hd : d = c := (List.cons.inj hmid).1.symm
          exact absurd (hold ▸ List.mem_append_right x (hd ▸ List.mem_cons_self ..)) hc
  · exact fun h => h.trans (List.prefix_append x _)

theorem substFrom_cons (old new : Text) (c : Char) (rest : Text) :
    substFrom old new 0 (c :: rest) =
      if old.isPrefixOf (c :: rest) then new ++ substFrom old new (old.length - 1) rest
      else c :: substFrom old new 0 rest := rfl

theorem substFrom_append {old new : Text} (hold : old ≠ []) {c : Char} (hc : c ∉ old) (x y : Text)
    {skip : ℕ} (hskip : skip ≤ x.length) :
    substFrom old new skip (x ++ c :: y) = substFrom old new skip x ++ c :: subst old new y := by
  induction x generalizing skip with
  | nil =>
      have hzero : skip = 0 := by simpa using hskip
      have hprefix : ¬ old.isPrefixOf (c :: y) = true := by
        rw [List.isPrefixOf_iff_prefix, ← List.nil_append (c :: y), prefix_append_cons hc,
          List.prefix_nil]
        exact hold
      rw [hzero, List.nil_append, substFrom_cons, if_neg hprefix]
      rfl
  | cons d x ih =>
      rw [List.length_cons] at hskip
      cases skip with
      | succ skip => exact ih (by omega)
      | zero =>
          rw [List.cons_append, substFrom_cons, substFrom_cons]
          by_cases hprefix : old <+: d :: x
          · have hlength := hprefix.length_le
            have hprefix' : old <+: d :: (x ++ c :: y) :=
              (prefix_append_cons hc (d :: x) y).mpr hprefix
            rw [if_pos (List.isPrefixOf_iff_prefix.mpr hprefix),
              if_pos (List.isPrefixOf_iff_prefix.mpr hprefix'), ih (by simp at hlength; omega),
              List.append_assoc]
          · have hprefix' : ¬ old <+: d :: (x ++ c :: y) :=
              fun h => hprefix ((prefix_append_cons hc (d :: x) y).mp h)
            rw [if_neg (mt List.isPrefixOf_iff_prefix.mp hprefix),
              if_neg (mt List.isPrefixOf_iff_prefix.mp hprefix'), ih (Nat.zero_le _)]
            rfl

/-- What is replaced in two texts with a blank between them. -/
theorem subst_append {old new : Text} (hold : old ≠ []) {c : Char} (hc : c ∉ old) (x y : Text) :
    subst old new (x ++ c :: y) = subst old new x ++ c :: subst old new y :=
  substFrom_append hold hc x y (Nat.zero_le _)

/-- The words of a text in which something has been replaced. -/
theorem words_subst_unwords {old new : Text} (hold : old ≠ []) (hblank : ' ' ∉ old)
    (ws : List Text) :
    words (subst old new (unwords ws)) = ws.flatMap fun w => words (subst old new w) := by
  induction ws with
  | nil => exact words_nil
  | cons w ws ih =>
      cases ws with
      | nil => simp [unwords]
      | cons v ws =>
          rw [unwords, subst_append hold hblank, words_append (by decide), ih, List.flatMap_cons,
            List.flatMap_cons, List.flatMap_cons]

end MakeText
