import Mathlib.Data.List.TakeWhile
import Mathlib.Data.Nat.Notation

/-!
# The syntax of makefiles

A reader for the part of make's syntax that consists of logical lines: variable
definitions, `include` lines, rules with order-only prerequisites, and recipe
lines. The expansion of a variable reference `$(…)` is a parameter, so that facts
proved about the reader hold for every environment and file system.

A `Word` is a non-empty text without white space and without any character that
has a meaning in make's syntax. Text that is put together from words and blanks
is read back word by word (`words_append`, `breakAt_append`).
-/

namespace MakeSyntax

abbrev Text := List Char

/-! ## Characters and words -/

def isBlank (c : Char) : Bool :=
  c == ' ' || c == '\t' || c == '\r' || c == '\x0b' || c == '\x0c'

/-- The characters with a meaning in targets and prerequisites. -/
def isMeta (c : Char) : Bool :=
  c == ':' || c == '=' || c == '#' || c == '$' || c == '%' || c == '|' || c == ';' ||
    c == '\\' || c == '&' || c == '(' || c == ')' || c == '*' || c == '?' || c == '[' ||
    c == '~'

/-- No white space and no character with a meaning. -/
def Plain (w : Text) : Prop :=
  ∀ c ∈ w, isBlank c = false ∧ c ≠ '\n' ∧ isMeta c = false

instance (w : Text) : Decidable (Plain w) :=
  List.decidableBAll (fun c => isBlank c = false ∧ c ≠ '\n' ∧ isMeta c = false) w

/-- A text that is one word wherever it stands. -/
structure Word (w : Text) : Prop where
  plain : Plain w
  nonempty : w ≠ []

instance (w : Text) : Decidable (Word w) :=
  decidable_of_iff (Plain w ∧ w ≠ []) ⟨fun h => ⟨h.1, h.2⟩, fun h => ⟨h.plain, h.nonempty⟩⟩

/-! ## Lines -/

/-- A backslash at the end of a line joins the next line; an escaped backslash
does not. -/
def joinContinuations : Text → Text
  | '\\' :: '\n' :: rest => ' ' :: joinContinuations rest
  | '\\' :: '\\' :: rest => '\\' :: '\\' :: joinContinuations rest
  | c :: rest => c :: joinContinuations rest
  | [] => []

def splitLines (text : Text) : List Text :=
  text.splitOnP (· == '\n')

def logicalLines (text : Text) : List Text :=
  splitLines (joinContinuations text)

/-! ## Words of a line -/

/-- The words between the blanks. -/
def words (text : Text) : List Text :=
  (text.splitOnP isBlank).filter (· ≠ [])

/-- Break a text at the first character that passes a test and is not part of a
variable reference; `depth` counts the open parentheses. -/
def breakAt (stop : Char → Bool) : ℕ → Text → Option (Text × Char × Text)
  | _, [] => none
  | 0, '$' :: '(' :: rest =>
      (breakAt stop 1 rest).map fun (before, c, after) => ('$' :: '(' :: before, c, after)
  | 0, c :: rest =>
      if stop c then some ([], c, rest)
      else (breakAt stop 0 rest).map fun (before, d, after) => (c :: before, d, after)
  | depth + 1, c :: rest =>
      let depth' := if c = '(' then depth + 2 else if c = ')' then depth else depth + 1
      (breakAt stop depth' rest).map fun (before, d, after) => (c :: before, d, after)

/-- Replace every reference `$(…)` by its value; `env` is given the text between
the parentheses. -/
def expand (env : Text → Text) : ℕ → Text → Text → Text
  | _, _, [] => []
  | 0, _, '$' :: '(' :: rest => expand env 1 [] rest
  | 0, acc, c :: rest => c :: expand env 0 acc rest
  | depth + 1, acc, c :: rest =>
      if c = ')' ∧ depth = 0 then env acc.reverse ++ expand env 0 [] rest
      else
        let depth' := if c = '(' then depth + 2 else if c = ')' then depth else depth + 1
        expand env depth' (c :: acc) rest

/-! ## Statements -/

/-- A rule, without its recipe. -/
structure Rule where
  targets : List Text
  normal : List Text
  orderOnly : List Text
deriving DecidableEq, Repr

inductive Item where
  | rule (rule : Rule)
  | recipe (text : Text)
  | assign (name value : Text)
  | include (files : List Text)
  | other (text : Text)
deriving DecidableEq, Repr

def stripComment (line : Text) : Text :=
  line.takeWhile (· ≠ '#')

def trim (text : Text) : Text :=
  ((text.dropWhile isBlank).reverse.dropWhile isBlank).reverse

/-- The rule with the given text in front of its colon and behind it; a recipe
may follow a semicolon. -/
def parseRule (env : Text → Text) (before after : Text) : Rule :=
  let prereqs := expand env 0 [] (after.takeWhile (· ≠ ';'))
  let normal := prereqs.takeWhile (· ≠ '|')
  { targets := words (expand env 0 [] before)
    normal := words normal
    orderOnly := words (prereqs.drop (normal.length + 1)) }

def includeWords : List Text :=
  [['i', 'n', 'c', 'l', 'u', 'd', 'e'], ['-', 'i', 'n', 'c', 'l', 'u', 'd', 'e'],
    ['s', 'i', 'n', 'c', 'l', 'u', 'd', 'e']]

/-- A logical line that is not part of a recipe. -/
def parseStatement (env : Text → Text) (line : Text) : Option Item :=
  let line := stripComment line
  match words line with
  | [] => none
  | first :: rest =>
      if first ∈ includeWords then some (.include rest)
      else match breakAt (fun c => c == ':' || c == '=') 0 line with
        | some (before, ':', '=' :: value) => some (.assign (trim before) (trim value))
        | some (before, ':', after) => some (.rule (parseRule env before after))
        | some (before, _, value) => some (.assign (trim before) (trim value))
        | none => some (.other line)

/-- Read the lines one after the other; `inRule` says that a line that starts
with a tab belongs to the recipe of a rule. -/
def parseLines (env : Text → Text) : Bool → List Text → List Item
  | _, [] => []
  | inRule, line :: lines =>
      match inRule, line with
      | true, '\t' :: text => .recipe text :: parseLines env true lines
      | _, _ =>
          match parseStatement env line with
          | none => parseLines env inRule lines
          | some (Item.rule r) => .rule r :: parseLines env true lines
          | some item => item :: parseLines env false lines

/-- The contents of a makefile. -/
def parse (env : Text → Text) (text : Text) : List Item :=
  parseLines env false (logicalLines text)

def Item.rule? : Item → Option Rule
  | .rule r => some r
  | _ => none

/-- The rules of a makefile. -/
def rules (items : List Item) : List Rule :=
  items.filterMap Item.rule?

/-! ## Words -/

theorem Plain.append {x y : Text} (hx : Plain x) (hy : Plain y) : Plain (x ++ y) := by
  intro c hc
  rcases List.mem_append.mp hc with hc | hc
  · exact hx c hc
  · exact hy c hc

theorem Word.append {x y : Text} (hx : Word x) (hy : Plain y) : Word (x ++ y) where
  plain := hx.plain.append hy
  nonempty h := hx.nonempty (List.append_eq_nil_iff.mp h).1

theorem Word.append_left {x y : Text} (hx : Plain x) (hy : Word y) : Word (x ++ y) where
  plain := hx.append hy.plain
  nonempty h := hy.nonempty (List.append_eq_nil_iff.mp h).2

/-- A character with a meaning occurs in no plain text. -/
theorem Plain.not_mem {w : Text} (hw : Plain w) {c : Char}
    (hc : isBlank c = true ∨ c = '\n' ∨ isMeta c = true) : c ∉ w := by
  intro hmem
  rcases hw c hmem with ⟨hblank, hnewline, hmeta⟩
  rcases hc with hc | hc | hc
  · exact absurd hc (by simp [hblank])
  · exact hnewline hc
  · exact absurd hc (by simp [hmeta])

/-- The pieces of a text have its characters, but not those at which it is split. -/
theorem of_mem_splitOnP {p : Char → Bool} {text piece : Text} (h : piece ∈ text.splitOnP p) :
    ∀ c ∈ piece, c ∈ text ∧ p c = false := by
  induction text generalizing piece with
  | nil =>
      rw [List.splitOnP_nil, List.mem_singleton] at h
      simp [h]
  | cons d text ih =>
      have hrest : ∀ piece ∈ text.splitOnP p, ∀ c ∈ piece, c ∈ d :: text ∧ p c = false := by
        intro piece hpiece c hc
        exact ⟨List.mem_cons_of_mem d (ih hpiece c hc).1, (ih hpiece c hc).2⟩
      rw [List.splitOnP_cons_eq_if_modifyHead] at h
      by_cases hd : p d = true
      · rw [if_pos hd, List.mem_cons] at h
        rcases h with rfl | h
        · simp
        · exact hrest piece h
      · -- the first piece goes on with one more character
        rw [if_neg hd] at h
        rcases List.exists_cons_of_ne_nil (List.splitOnP_ne_nil p text) with ⟨u, us, hus⟩
        rw [hus, List.modifyHead_cons, List.mem_cons] at h
        rcases h with rfl | h
        · intro c hc
          rcases List.mem_cons.mp hc with rfl | hc
          · exact ⟨List.mem_cons_self .., by simpa using hd⟩
          · exact hrest u (hus ▸ List.mem_cons_self ..) c hc
        · exact hrest piece (hus ▸ List.mem_cons_of_mem u h)

@[simp] theorem words_nil : words [] = [] := by
  simp [words, List.splitOnP_nil]

/-- The words of a text with a blank in it. -/
theorem words_append {c : Char} (hc : isBlank c) (x y : Text) :
    words (x ++ c :: y) = words x ++ words y := by
  unfold words
  rw [List.splitOnP_append_cons x y hc, List.filter_append]

theorem words_cons {c : Char} (hc : isBlank c) (x : Text) : words (c :: x) = words x := by
  simpa using words_append hc [] x

theorem Word.words_eq {w : Text} (hw : Word w) : words w = [w] := by
  have hsplit : w.splitOnP isBlank = [w] :=
    List.splitOnP_eq_singleton fun c hc => (hw.plain c hc).1
  simp [words, hsplit, hw.nonempty]

/-- Words with three blanks in front of each are read one by one. -/
theorem words_flatMap (ws : List Text) (hws : ∀ w ∈ ws, Word w) (x : Text) :
    words (x ++ ws.flatMap fun w => ' ' :: ' ' :: '\t' :: w) = words x ++ ws := by
  induction ws generalizing x with
  | nil => simp
  | cons w ws ih =>
      have hsplit : x ++ (w :: ws).flatMap (fun w => ' ' :: ' ' :: '\t' :: w) =
          x ++ ' ' :: ((' ' :: '\t' :: w) ++ ws.flatMap fun w => ' ' :: ' ' :: '\t' :: w) := by
        simp
      rw [hsplit, words_append (by decide),
        ih (fun v hv => hws v (List.mem_cons_of_mem w hv)), words_cons (by decide),
        words_cons (by decide), (hws w (List.mem_cons_self ..)).words_eq]
      simp

/-! ## Lines and references -/

theorem joinContinuations_cons {c : Char} (hc : c ≠ '\\') (rest : Text) :
    joinContinuations (c :: rest) = c :: joinContinuations rest := by
  rw [joinContinuations]
  · exact fun rest' h => absurd h hc
  · exact fun rest' h => absurd h hc

theorem joinContinuations_newline (rest : Text) :
    joinContinuations ('\\' :: '\n' :: rest) = ' ' :: joinContinuations rest := by
  rw [joinContinuations]

/-- Nothing is joined in a text without a backslash. -/
theorem joinContinuations_append {x : Text} (hx : '\\' ∉ x) (rest : Text) :
    joinContinuations (x ++ rest) = x ++ joinContinuations rest := by
  induction x with
  | nil => rfl
  | cons c x ih =>
      rw [List.mem_cons, not_or] at hx
      rw [List.cons_append, joinContinuations_cons (Ne.symm hx.1), ih hx.2, List.cons_append]

theorem breakAt_append (stop : Char → Bool) {x : Text} {c : Char}
    (hx : ∀ d ∈ x, d ≠ '$' ∧ stop d = false) (hc : c ≠ '$' ∧ stop c = true) (rest : Text) :
    breakAt stop 0 (x ++ c :: rest) = some (x, c, rest) := by
  induction x with
  | nil =>
      rw [List.nil_append, breakAt, if_pos hc.2]
      exact fun rest' h => absurd h hc.1
  | cons d x ih =>
      have hd := hx d (List.mem_cons_self ..)
      rw [List.cons_append, breakAt, if_neg (by simp [hd.2]),
        ih fun e he => hx e (List.mem_cons_of_mem d he)]
      · rfl
      · exact fun rest' h => absurd h hd.1

theorem expand_of_not_mem (env : Text → Text) {x : Text} (hx : '$' ∉ x) (acc : Text) :
    expand env 0 acc x = x := by
  induction x with
  | nil => rfl
  | cons c x ih =>
      rw [List.mem_cons, not_or] at hx
      rw [expand, ih hx.2]
      exact fun rest h => absurd h (Ne.symm hx.1)

/-! ## Reading a text piece by piece -/

/-- Reading the text, up to a line break that it ends with, gives the items. -/
def Reads (env : Text → Text) (text : Text) (items : List Item) : Prop :=
  ∀ inRule rest, ∃ inRule', parseLines env inRule (logicalLines (text ++ rest)) =
    items ++ parseLines env inRule' (logicalLines rest)

variable {env : Text → Text}

theorem Reads.nil : Reads env [] [] :=
  fun inRule _ => ⟨inRule, rfl⟩

theorem Reads.append {x y : Text} {xs ys : List Item} (hx : Reads env x xs)
    (hy : Reads env y ys) : Reads env (x ++ y) (xs ++ ys) := by
  intro inRule rest
  rcases hx inRule (y ++ rest) with ⟨inRule₁, h₁⟩
  rcases hy inRule₁ rest with ⟨inRule₂, h₂⟩
  refine ⟨inRule₂, ?_⟩
  rw [List.append_assoc, h₁, h₂, List.append_assoc]

theorem Reads.flatMap {α : Type*} {l : List α} {f : α → Text} {g : α → List Item}
    (h : ∀ a ∈ l, Reads env (f a) (g a)) : Reads env (l.flatMap f) (l.flatMap g) := by
  induction l with
  | nil => exact Reads.nil
  | cons a l ih =>
      exact (h a (List.mem_cons_self ..)).append
        (ih fun b hb => h b (List.mem_cons_of_mem a hb))

/-- A whole file is read by reading its text. -/
theorem Reads.parse {text : Text} {items : List Item} (h : Reads env text items) :
    parse env text = items := by
  rcases h false [] with ⟨inRule', heq⟩
  rw [List.append_nil] at heq
  have hend : parseLines env inRule' (logicalLines []) = [] := by
    cases inRule' <;> rfl
  rw [MakeSyntax.parse, heq, hend, List.append_nil]

/-- The text is one logical line that does not belong to a recipe. -/
structure IsLine (text line : Text) : Prop where
  join : ∀ rest, joinContinuations (text ++ rest) = line ++ '\n' :: joinContinuations rest
  newline : '\n' ∉ line
  tab : line.head? ≠ some '\t'

theorem splitLines_line {line : Text} (h : '\n' ∉ line) : splitLines line = [line] := by
  refine List.splitOnP_eq_singleton fun c hc => ?_
  rw [beq_eq_false_iff_ne]
  rintro rfl
  exact h hc

theorem IsLine.logicalLines {text line : Text} (h : IsLine text line) (rest : Text) :
    logicalLines (text ++ rest) = line :: MakeSyntax.logicalLines rest := by
  rw [MakeSyntax.logicalLines, h.join, splitLines, List.splitOnP_append_cons line _ (by decide)]
  exact congrArg (· ++ _) (splitLines_line h.newline)

theorem IsLine.parseLines {text line : Text} (h : IsLine text line) (inRule : Bool)
    (lines : List Text) :
    MakeSyntax.parseLines env inRule (line :: lines) =
      match parseStatement env line with
      | none => MakeSyntax.parseLines env inRule lines
      | some (Item.rule r) => .rule r :: MakeSyntax.parseLines env true lines
      | some item => item :: MakeSyntax.parseLines env false lines := by
  rw [MakeSyntax.parseLines]
  intro rest _ hline
  exact absurd (congrArg List.head? hline) h.tab

/-- A logical line is read as the statement on it. -/
theorem IsLine.reads {text line : Text} (h : IsLine text line) :
    Reads env text (parseStatement env line).toList := by
  intro inRule rest
  rw [h.logicalLines, h.parseLines]
  cases hstmt : parseStatement env line with
  | none => exact ⟨inRule, rfl⟩
  | some item => cases item <;> exact ⟨_, rfl⟩

theorem IsLine.reads_item {text line : Text} {item : Item} (h : IsLine text line)
    (hstmt : parseStatement env line = some item) : Reads env text [item] := by
  have hreads := @IsLine.reads env text line h
  rwa [hstmt] at hreads

/-- An empty line is read as nothing. -/
theorem reads_newline : Reads env ['\n'] [] := by
  have h : IsLine ['\n'] [] := ⟨joinContinuations_cons (by decide), by simp, by simp⟩
  exact h.reads

/-- A physical line without a backslash is a logical line. -/
theorem IsLine.of_not_mem {line : Text} (hjoin : '\\' ∉ line) (hnewline : '\n' ∉ line)
    (htab : line.head? ≠ some '\t') : IsLine (line ++ ['\n']) line where
  join rest := by
    rw [List.append_assoc, joinContinuations_append hjoin, List.singleton_append,
      joinContinuations_cons (by decide)]
  newline := hnewline
  tab := htab

/-- A logical line and a recipe line after it. -/
theorem IsLine.reads_recipe {text line recipe recipeLine : Text} {r : Rule}
    (h : IsLine text line) (hstmt : parseStatement env line = some (.rule r))
    (hjoin : ∀ rest, joinContinuations (recipe ++ rest) =
      '\t' :: recipeLine ++ '\n' :: joinContinuations rest)
    (hnewline : '\n' ∉ recipeLine) :
    Reads env (text ++ recipe) [.rule r, .recipe recipeLine] := by
  intro inRule rest
  have hlines : MakeSyntax.logicalLines (recipe ++ rest) =
      ('\t' :: recipeLine) :: MakeSyntax.logicalLines rest := by
    have hline : splitLines ('\t' :: recipeLine) = ['\t' :: recipeLine] :=
      splitLines_line (by simpa using hnewline)
    rw [MakeSyntax.logicalLines, hjoin, splitLines,
      List.splitOnP_append_cons ('\t' :: recipeLine) _ (by decide)]
    exact congrArg (· ++ _) hline
  refine ⟨true, ?_⟩
  rw [List.append_assoc, h.logicalLines, h.parseLines, hstmt, hlines]
  rfl

/-! ## Reading a statement -/

theorem takeWhile_ne_of_not_mem {c : Char} {x : Text} (hx : c ∉ x) :
    x.takeWhile (· ≠ c) = x :=
  List.takeWhile_eq_self_iff.mpr fun d hd => by
    simpa using fun heq : d = c => hx (heq ▸ hd)

/-- The characters of a word end no part of a statement. -/
theorem Word.not_stop {w : Text} (hw : Word w) :
    ∀ c ∈ w, c ≠ '$' ∧ (c == ':' || c == '=') = false := by
  intro c hc
  rcases hw.plain c hc with ⟨_, _, hmeta⟩
  simp only [isMeta, Bool.or_eq_false_iff, beq_eq_false_iff_ne] at hmeta
  simp_all

/-- A line that starts with a word and a colon is a rule, unless the colon
belongs to an assignment. -/
theorem parseStatement_rule {target after : Text} (htarget : Word target)
    (hcomment : '#' ∉ after) (hblank : after = [] ∨ ∃ c rest, after = c :: rest ∧ isBlank c) :
    parseStatement env (target ++ ':' :: after) =
      some (.rule (parseRule env target after)) := by
  have hstrip : stripComment (target ++ ':' :: after) = target ++ ':' :: after := by
    refine takeWhile_ne_of_not_mem ?_
    simp [htarget.plain.not_mem (c := '#') (by decide), hcomment]
  -- the first word ends with the colon
  have hfirst : ∃ rest, words (target ++ ':' :: after) = (target ++ [':']) :: rest := by
    have hcolon : words (target ++ [':']) = [target ++ [':']] := by
      have hsplit : (target ++ [':']).splitOnP isBlank = [target ++ [':']] :=
        List.splitOnP_eq_singleton fun c hc => by
          rcases List.mem_append.mp hc with hc | hc
          · exact (htarget.plain c hc).1
          · rw [List.mem_singleton.mp hc]
            decide
      simp [words, hsplit]
    rcases hblank with rfl | ⟨c, rest, rfl, hc⟩
    · exact ⟨[], hcolon⟩
    · refine ⟨words rest, ?_⟩
      have hassoc : target ++ ':' :: c :: rest = (target ++ [':']) ++ c :: rest := by simp
      rw [hassoc, words_append hc, hcolon, List.singleton_append]
  rcases hfirst with ⟨rest, hwords⟩
  have hinclude : target ++ [':'] ∉ includeWords := by
    intro hmem
    have hnone : ∀ w ∈ includeWords, ':' ∉ w := by decide
    exact hnone _ hmem (by simp)
  have hbreak := breakAt_append (fun c => c == ':' || c == '=') htarget.not_stop
    (by decide : ':' ≠ '$' ∧ (':' == ':' || ':' == '=') = true) after
  rw [parseStatement]
  simp only [hstrip, hwords, hinclude, hbreak, if_false]
  rcases hblank with rfl | ⟨c, rest, rfl, hc⟩
  · rfl
  · have hne : c ≠ '=' := fun heq => by simp [heq, isBlank] at hc
    split
    · simp_all
    · simp_all
    · rename_i hcolon heq
      simp only [Option.some.injEq, Prod.mk.injEq] at heq
      exact absurd heq.2.1.symm hcolon
    · simp_all

/-- A line that starts with a word, a blank and `:=` is an assignment. -/
theorem parseStatement_assign {name value : Text} (hname : Word name)
    (hinclude : name ∉ includeWords) (hcomment : '#' ∉ value) :
    parseStatement env (name ++ ' ' :: ':' :: '=' :: value) =
      some (.assign (trim (name ++ [' '])) (trim value)) := by
  have hstrip : stripComment (name ++ ' ' :: ':' :: '=' :: value) =
      name ++ ' ' :: ':' :: '=' :: value := by
    refine takeWhile_ne_of_not_mem ?_
    simp [hname.plain.not_mem (c := '#') (by decide), hcomment]
  have hwords : words (name ++ ' ' :: ':' :: '=' :: value) =
      name :: words (':' :: '=' :: value) := by
    rw [words_append (by decide), hname.words_eq, List.singleton_append]
  have hbreak : breakAt (fun c => c == ':' || c == '=') 0
      (name ++ ' ' :: ':' :: '=' :: value) = some (name ++ [' '], ':', '=' :: value) := by
    have hstop : ∀ c ∈ name ++ [' '], c ≠ '$' ∧ (c == ':' || c == '=') = false := by
      intro c hc
      rcases List.mem_append.mp hc with hc | hc
      · exact hname.not_stop c hc
      · rw [List.mem_singleton.mp hc]
        decide
    have h := breakAt_append (fun c => c == ':' || c == '=') hstop
      (by decide : ':' ≠ '$' ∧ (':' == ':' || ':' == '=') = true) ('=' :: value)
    rwa [List.append_assoc] at h
  rw [parseStatement]
  simp only [hstrip, hwords, hinclude, hbreak, if_false]

/-- A line that starts with an include word includes files. -/
theorem parseStatement_include {word files : Text} (hword : Word word)
    (hinclude : word ∈ includeWords) (hcomment : '#' ∉ files) :
    parseStatement env (word ++ ' ' :: files) = some (.include (words files)) := by
  have hstrip : stripComment (word ++ ' ' :: files) = word ++ ' ' :: files := by
    refine takeWhile_ne_of_not_mem ?_
    simp [hword.plain.not_mem (c := '#') (by decide), hcomment]
  have hwords : words (word ++ ' ' :: files) = word :: words files := by
    rw [words_append (by decide), hword.words_eq, List.singleton_append]
  rw [parseStatement]
  simp only [hstrip, hwords, hinclude, if_true]

theorem parseRule_targets {target : Text} (htarget : Word target) (after : Text) :
    (parseRule env target after).targets = [target] := by
  rw [parseRule, expand_of_not_mem env (htarget.plain.not_mem (by decide)), htarget.words_eq]

/-- Prerequisites without a bar. -/
theorem parseRule_normal {target after : Text} (htarget : Word target)
    (hafter : ∀ c ∈ after, c ≠ '$' ∧ c ≠ ';' ∧ c ≠ '|') :
    parseRule env target after = ⟨[target], words after, []⟩ := by
  have hdollar : '$' ∉ after := fun h => (hafter _ h).1 rfl
  have hsemicolon : ';' ∉ after := fun h => (hafter _ h).2.1 rfl
  have hbar : '|' ∉ after := fun h => (hafter _ h).2.2 rfl
  have htargets := @parseRule_targets env target htarget after
  simp only [parseRule] at htargets ⊢
  rw [htargets, takeWhile_ne_of_not_mem hsemicolon, expand_of_not_mem env hdollar,
    takeWhile_ne_of_not_mem hbar, List.drop_eq_nil_of_le (Nat.le_succ _), words_nil]

/-- Prerequisites with a bar. -/
theorem parseRule_orderOnly {target normal orderOnly : Text} (htarget : Word target)
    (hnormal : ∀ c ∈ normal, c ≠ '$' ∧ c ≠ ';' ∧ c ≠ '|')
    (horder : ∀ c ∈ orderOnly, c ≠ '$' ∧ c ≠ ';') :
    parseRule env target (normal ++ '|' :: orderOnly) =
      ⟨[target], words normal, words orderOnly⟩ := by
  have hdollar : '$' ∉ normal ++ '|' :: orderOnly := by
    simp only [List.mem_append, List.mem_cons, not_or]
    exact ⟨fun h => (hnormal _ h).1 rfl, by decide, fun h => (horder _ h).1 rfl⟩
  have hsemicolon : ';' ∉ normal ++ '|' :: orderOnly := by
    simp only [List.mem_append, List.mem_cons, not_or]
    exact ⟨fun h => (hnormal _ h).2.1 rfl, by decide, fun h => (horder _ h).2 rfl⟩
  have hbar : '|' ∉ normal := fun h => (hnormal _ h).2.2 rfl
  have htake : (normal ++ '|' :: orderOnly).takeWhile (· ≠ '|') = normal := by
    rw [List.takeWhile_append_of_pos fun c hc => by
      simpa using fun heq : c = '|' => hbar (heq ▸ hc)]
    simp
  have htargets := @parseRule_targets env target htarget (normal ++ '|' :: orderOnly)
  simp only [parseRule] at htargets ⊢
  rw [htargets, takeWhile_ne_of_not_mem hsemicolon, expand_of_not_mem env hdollar, htake]
  simp

end MakeSyntax
