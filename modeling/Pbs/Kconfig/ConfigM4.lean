import Pbs.Kconfig.Symbol
import Pbs.Lib.Awk
import Pbs.Lib.Regex
import Mathlib.Data.Bool.AllAny

/-!
# Configuration for m4

`conf_write_autoconf` writes the values of the symbols to `auto.conf`, and
`config_m4.awk` makes a definition for m4 of every line. Its three rules look at the
same line without regard to each other, and none of them undoes what
`conf_write_string` does to quotes and backslashes.
-/

namespace Pbs.Kconfig.ConfigM4

open Regexes

/-! ## auto.conf -/

/-- The quotes of m4. -/
def openQuote : Char := '\x60'

def closeQuote : Char := '\x27'

def doubleQuote : Char := '\x22'

/-- The characters of the names of symbols. -/
def isWordChar (c : Char) : Bool :=
  c.isAlphanum || c == '_' || c == '-' || c == '/' || c == '.'

def isxdigit (c : Char) : Bool :=
  c.isDigit || ('a' ≤ c && c ≤ 'f') || ('A' ≤ c && c ≤ 'F')

/-- `sym_string_valid` -/
def symStringValid (type : SymbolType) (str : Text) : Bool :=
  match type with
  | .string => true
  | .int =>
      match (match str with
        | '-' :: str => str
        | _ => str) with
      | [] => false
      | ch :: str => ch.isDigit && !(ch == '0' && str != []) && str.all Char.isDigit
  | .hex =>
      let str := match str with
        | '0' :: 'x' :: str => str
        | '0' :: 'X' :: str => str
        | _ => str
      str != [] && str.all isxdigit
  | .boolean | .tristate =>
      match str with
      | [] => false
      | ch :: _ => ch ∈ text "yYmMnN"
  | .unknown | .other => false

/-- A symbol with a name and `SYMBOL_WRITE`. Its values are those that
`sym_get_tristate_value` and `sym_get_string_value` return. -/
structure WrittenSymbol where
  name : Text
  type : SymbolType
  tristateValue : Tristate
  stringValue : Text
  isName : ∀ c ∈ name, isWordChar c
  valid : type = .int ∨ type = .hex → symStringValid type stringValue
  unquoted : ∀ c ∈ stringValue, c ≠ openQuote ∧ c ≠ closeQuote

def WrittenSymbol.macroName (sym : WrittenSymbol) : Text := text "CONFIG_" ++ sym.name

/-- The loop of `conf_write_string`: a backslash in front of every quote and backslash. -/
def escape : Text → Text
  | [] => []
  | c :: str => if c = doubleQuote ∨ c = '\\' then '\\' :: c :: escape str else c :: escape str

/-- `conf_write_string`, where it does not write a header file. -/
def confWriteString (name str : Text) : Text :=
  text "CONFIG_" ++ name ++ text "=\"" ++ escape str ++ text "\"\n"

/-- `conf_write_symbol` -/
def confWriteSymbol (sym : WrittenSymbol) (writeNo : Bool) : Text :=
  match sym.type with
  | .boolean | .tristate =>
      match sym.tristateValue with
      | .no => if writeNo then text "# CONFIG_" ++ sym.name ++ text " is not set\n" else []
      | .mod => text "CONFIG_" ++ sym.name ++ text "=m\n"
      | .yes => text "CONFIG_" ++ sym.name ++ text "=y\n"
  | .string => confWriteString sym.name sym.stringValue
  | .hex | .int => text "CONFIG_" ++ sym.name ++ text "=" ++ sym.stringValue ++ text "\n"
  | .other | .unknown => []

/-- What goes into the file: the prompt of the root menu, the time (without the end of
the line that `ctime` gives it), and the symbols. -/
structure AutoConf where
  prompt : Text
  now : Text
  symbols : List WrittenSymbol
  prompt_line : '\n' ∉ prompt
  now_line : '\n' ∉ now
  distinct : (symbols.map WrittenSymbol.name).Nodup

/-- `conf_write_autoconf`: the text of `auto.conf`. -/
def confWriteAutoconf (conf : AutoConf) : Text :=
  text "#\n# Automatically generated make config: don't edit\n# " ++ conf.prompt ++ text "\n# " ++
    conf.now ++ text "\n#\n" ++ conf.symbols.flatMap (confWriteSymbol · false)

/-! ## config_m4.awk -/

/-- `CONFIG_.*` -/
def nameRegex : Regex := .seq (.lit (text "CONFIG_")) (.star .any)

/-- `(0x)?[0-9A-Fa-f]+` -/
def literalRegex : Regex := .seq (.opt (.lit (text "0x"))) (.plus (.char isxdigit))

/-- `FS` -/
def isFieldSeparator (c : Char) : Bool := c == '=' || c == ' ' || c == '\t'

/-- `/^CONFIG_.*=y/` -/
def isYes (record : Text) : Bool := ends (.seq nameRegex (.lit (text "=y"))) record ≠ []

/-- `match($0, /^(CONFIG_.*)="(.*)"/, m)` -/
def matchString (record : Text) : Option (Text × Text) :=
  match capture [nameRegex, .lit (text "=\""), .star .any, .lit (text "\"")] record with
  | some [m1, _, m2, _] => some (m1, m2)
  | _ => none

/-- `match($0, /^(CONFIG_.*)=((0x)?[0-9A-Fa-f]+)/, m)` -/
def matchLiteral (record : Text) : Option (Text × Text) :=
  match capture [nameRegex, .lit (text "="), literalRegex] record with
  | some [m1, _, m2] => some (m1, m2)
  | _ => none

def printDefineEmpty (name : Text) : Text :=
  text "m4_define(" ++ [openQuote] ++ name ++ [closeQuote] ++ text ")"

def printDefine (m : Text × Text) : Text :=
  text "m4_define(" ++ [openQuote] ++ m.1 ++ [closeQuote] ++ text "," ++ [openQuote] ++ m.2 ++
    [closeQuote] ++ text ")"

/-- `config_m4.awk` -/
def configM4Awk : Awk.Program Text where
  atBegin := [text "m4_divert(-1)"]
  rules := [
    fun record =>
      if isYes record then [printDefineEmpty (Awk.firstField isFieldSeparator record)] else [],
    fun record => (matchString record).toList.map printDefine,
    fun record => (matchLiteral record).toList.map printDefine]
  atEnd := [text "m4_divert(0)"]

/-- `cmd_gen_config_m4`: the text of `config.m4`. -/
def cmdGenConfigM4 (autoConf : Text) : Text := Awk.unlines (configM4Awk.run autoConf)

/-! ## What m4 reads -/

/-- A quoted argument without quotes in it, and what follows. -/
def readArgument : Text → Option (Text × Text)
  | [] => none
  | c :: line =>
      if c = openQuote then
        some (line.takeWhile (· ≠ closeQuote), (line.dropWhile (· ≠ closeQuote)).drop 1)
      else none

/-- The name and the text of a definition. -/
def readDefine (line : Text) : Option (Text × Text) :=
  if (text "m4_define(").isPrefixOf line then
    match readArgument (line.drop 10) with
    | none => none
    | some (name, rest) =>
        match rest with
        | [')'] => some (name, [])
        | ',' :: rest =>
            match readArgument rest with
            | some (body, [')']) => some (name, body)
            | _ => none
        | _ => none
  else none

def definitions (configM4 : Text) : List (Text × Text) :=
  (Awk.records configM4).filterMap readDefine

/-- The last definition of a name. -/
def lastOf (defs : List (Text × Text)) (name : Text) : Option Text := defs.reverse.lookup name

/-! ## What the definitions should be -/

/-- The definition of a symbol. -/
def WrittenSymbol.definition (sym : WrittenSymbol) : Option Text :=
  match sym.type with
  | .boolean | .tristate => if sym.tristateValue = .yes then some [] else none
  | .string | .int | .hex => some sym.stringValue
  | .other | .unknown => none

/-- The definition of any name. -/
def AutoConf.definition (conf : AutoConf) (name : Text) : Option Text :=
  (conf.symbols.find? fun sym => sym.macroName = name).bind WrittenSymbol.definition

/-- Every name has the definition that it should have. -/
def Translates (conf : AutoConf) : Prop :=
  ∀ name, lastOf (definitions (cmdGenConfigM4 (confWriteAutoconf conf))) name =
    conf.definition name

/-- The values that come through: strings without quotes, backslashes, ends of lines
and equals signs in front of digits, ints that are not negative, and hex literals that
do not begin with `0X`. -/
def WrittenSymbol.Plain (sym : WrittenSymbol) : Prop :=
  match sym.type with
  | .string =>
      doubleQuote ∉ sym.stringValue ∧ '\\' ∉ sym.stringValue ∧ '\n' ∉ sym.stringValue ∧
        ∀ c, isxdigit c → ¬ ['=', c] <:+: sym.stringValue
  | .int => ¬ text "-" <+: sym.stringValue
  | .hex => ¬ text "0X" <+: sym.stringValue
  | _ => True

/-! ## Literals -/

theorem int_of_valid {str : Text} (h : symStringValid .int str = true) :
    ∃ digits, digits ≠ [] ∧ (∀ c ∈ digits, isxdigit c = true) ∧
      (str = digits ∨ str = text "-" ++ digits) := by
  have hdigits : ∀ digits : Text, (match digits with
      | [] => false
      | ch :: rest => ch.isDigit && !(ch == '0' && rest != []) && rest.all Char.isDigit) = true →
      digits ≠ [] ∧ ∀ c ∈ digits, isxdigit c = true := by
    intro digits hvalid
    cases digits with
    | nil => cases hvalid
    | cons ch rest =>
        refine ⟨List.cons_ne_nil _ _, fun c hc => ?_⟩
        simp only [Bool.and_eq_true, List.all_eq_true] at hvalid
        rw [isxdigit]
        rcases List.mem_cons.mp hc with rfl | hc
        · rw [hvalid.1.1]
          rfl
        · rw [hvalid.2 c hc]
          rfl
  have hvalid := hdigits _ h
  split at hvalid
  · rename_i rest
    exact ⟨rest, hvalid.1, hvalid.2, Or.inr rfl⟩
  · exact ⟨str, hvalid.1, hvalid.2, Or.inl rfl⟩

theorem hex_of_valid {str : Text} (h : symStringValid .hex str = true) :
    ∃ digits, digits ≠ [] ∧ (∀ c ∈ digits, isxdigit c = true) ∧
      (str = digits ∨ str = text "0x" ++ digits ∨ str = text "0X" ++ digits) := by
  have hdigits : ∀ digits : Text, (digits != [] && digits.all isxdigit) = true →
      digits ≠ [] ∧ ∀ c ∈ digits, isxdigit c = true := by
    intro digits hvalid
    simpa using hvalid
  have hvalid := hdigits _ h
  split at hvalid
  · rename_i rest
    exact ⟨rest, hvalid.1, hvalid.2, Or.inr (Or.inl rfl)⟩
  · rename_i rest
    exact ⟨rest, hvalid.1, hvalid.2, Or.inr (Or.inr rfl)⟩
  · exact ⟨str, hvalid.1, hvalid.2, Or.inl rfl⟩

/-- A character without a place in a literal. -/
theorem not_mem_of_valid {type : SymbolType} {str : Text} (htype : type = .int ∨ type = .hex)
    (h : symStringValid type str = true) {c : Char} (hc : isxdigit c = false)
    (hother : c ∉ text "-xX") : c ∉ str := by
  have hdigits : ∀ digits : Text, (∀ d ∈ digits, isxdigit d = true) → c ∉ digits := by
    intro digits hall hmem
    rw [hall c hmem] at hc
    cases hc
  have hconst : ∀ d ∈ text "-0xX", d = '0' ∨ d ∈ text "-xX" :=
    List.all_iff_forall_prop.mp (by decide)
  have happend : ∀ front digits : Text, front ⊆ text "-0xX" →
      (∀ d ∈ digits, isxdigit d = true) → c ∉ front ++ digits := by
    intro front digits hfront hall hmem
    rcases List.mem_append.mp hmem with hmem | hmem
    · rcases hconst c (hfront hmem) with rfl | hmem
      · exact absurd hc (by decide)
      · exact hother hmem
    · exact hdigits digits hall hmem
  rcases htype with rfl | rfl
  · rcases int_of_valid h with ⟨digits, _, hall, rfl | rfl⟩
    · exact hdigits _ hall
    · exact happend _ digits (by simp [text]) hall
  · rcases hex_of_valid h with ⟨digits, _, hall, rfl | rfl | rfl⟩
    · exact hdigits _ hall
    · exact happend _ digits (by simp [text]) hall
    · exact happend _ digits (by simp [text]) hall

/-! ## Reading what has been printed -/

/-- A text without quotes of m4. -/
def Unquoted (x : Text) : Prop := ∀ c ∈ x, c ≠ openQuote ∧ c ≠ closeQuote

theorem Unquoted.subset {x y : Text} (hy : Unquoted y) (h : x ⊆ y) : Unquoted x :=
  fun c hc => hy c (h hc)

theorem readArgument_append {x : Text} (hx : Unquoted x) (rest : Text) :
    readArgument (openQuote :: (x ++ closeQuote :: rest)) = some (x, rest) := by
  have hpass : ∀ c ∈ x, (decide (c ≠ closeQuote)) = true := by
    intro c hc
    simpa using (hx c hc).2
  rw [readArgument, if_pos rfl, List.takeWhile_append_of_pos hpass,
    List.dropWhile_append_of_pos hpass]
  simp

theorem readDefine_printDefineEmpty {name : Text} (hname : Unquoted name) :
    readDefine (printDefineEmpty name) = some (name, []) := by
  have hline : printDefineEmpty name =
      text "m4_define(" ++ (openQuote :: (name ++ closeQuote :: [')'])) := by
    simp [printDefineEmpty, text]
  have hprefix : (text "m4_define(").isPrefixOf (printDefineEmpty name) = true := by
    rw [hline, List.isPrefixOf_iff_prefix]
    exact List.prefix_append ..
  have hdrop : (printDefineEmpty name).drop 10 = openQuote :: (name ++ closeQuote :: [')']) := by
    rw [hline]
    exact List.drop_left' rfl
  rw [readDefine, if_pos hprefix, hdrop, readArgument_append hname]
  rfl

theorem readDefine_printDefine {m : Text × Text} (hname : Unquoted m.1) (hbody : Unquoted m.2) :
    readDefine (printDefine m) = some m := by
  have hline : printDefine m = text "m4_define(" ++ (openQuote :: (m.1 ++ closeQuote ::
      (',' :: (openQuote :: (m.2 ++ closeQuote :: [')']))))) := by
    simp [printDefine, text]
  have hprefix : (text "m4_define(").isPrefixOf (printDefine m) = true := by
    rw [hline, List.isPrefixOf_iff_prefix]
    exact List.prefix_append ..
  have hdrop : (printDefine m).drop 10 = openQuote :: (m.1 ++ closeQuote ::
      (',' :: (openQuote :: (m.2 ++ closeQuote :: [')'])))) := by
    rw [hline]
    exact List.drop_left' rfl
  rw [readDefine, if_pos hprefix, hdrop, readArgument_append hname]
  simp only [readArgument_append hbody]

theorem readArgument_subset {line x rest : Text} (h : readArgument line = some (x, rest)) :
    x ⊆ line ∧ rest ⊆ line := by
  cases line with
  | nil => cases h
  | cons c line =>
      rw [readArgument] at h
      split at h
      · cases h
        have htake := List.takeWhile_subset (l := line) fun c => decide (c ≠ closeQuote)
        have hdrop := List.dropWhile_subset (l := line) fun c => decide (c ≠ closeQuote)
        constructor
        · intro d hd
          exact List.mem_cons_of_mem c (htake hd)
        · intro d hd
          exact List.mem_cons_of_mem c (hdrop (List.drop_subset _ _ hd))
      · cases h

/-- A definition has only characters of its line. -/
theorem readDefine_subset {line : Text} {m : Text × Text} (h : readDefine line = some m) :
    m.2 ⊆ line := by
  unfold readDefine at h
  split at h
  · split at h
    · cases h
    · rename_i name rest hname
      have hrest : rest ⊆ line :=
        fun d hd => List.drop_subset _ _ ((readArgument_subset hname).2 hd)
      split at h
      · cases h
        exact List.nil_subset _
      · split at h
        · rename_i body hbody
          cases h
          intro d hd
          exact hrest (List.mem_cons_of_mem _ ((readArgument_subset hbody).1 hd))
        · cases h
      · cases h
  · cases h

/-! ## What the rules find -/

theorem matches_nameRegex {x : Text} : Matches nameRegex x ↔ text "CONFIG_" <+: x := by
  rw [nameRegex, matches_seq]
  constructor
  · rintro ⟨y, z, rfl, hy, _⟩
    rw [matches_lit.mp hy]
    exact List.prefix_append ..
  · rintro ⟨z, rfl⟩
    exact ⟨_, z, rfl, matches_lit.mpr rfl, matches_star_any z⟩

theorem matches_literalRegex {x : Text} :
    Matches literalRegex x ↔
      ∃ y, (x = text "0x" ++ y ∨ x = y) ∧ y ≠ [] ∧ ∀ c ∈ y, isxdigit c = true := by
  rw [literalRegex, matches_seq]
  constructor
  · rintro ⟨z, y, rfl, hz, hy⟩
    rcases matches_opt.mp hz with hz | rfl
    · exact ⟨y, Or.inl (by rw [matches_lit.mp hz]), matches_plus_char.mp hy⟩
    · exact ⟨y, Or.inr rfl, matches_plus_char.mp hy⟩
  · rintro ⟨y, rfl | rfl, hy⟩
    · exact ⟨_, y, rfl, matches_opt.mpr (Or.inl (matches_lit.mpr rfl)), matches_plus_char.mpr hy⟩
    · exact ⟨[], x, rfl, matches_opt.mpr (Or.inr rfl), matches_plus_char.mpr hy⟩

/-- A literal begins with a digit. -/
theorem exists_cons_of_matches {x : Text} (h : Matches literalRegex x) :
    ∃ c y, x = c :: y ∧ isxdigit c = true := by
  rcases matches_literalRegex.mp h with ⟨y, rfl | rfl, hne, hy⟩
  · exact ⟨'0', _, rfl, by decide⟩
  · rcases List.exists_cons_of_ne_nil hne with ⟨c, z, rfl⟩
    exact ⟨c, z, rfl, hy c (List.mem_cons_self ..)⟩

theorem cuts_string {record : Text} {segments : List Text} :
    Cuts [nameRegex, .lit (text "=\""), .star .any, .lit (text "\"")] record segments ↔
      ∃ m1 m2 rest, segments = [m1, text "=\"", m2, text "\""] ∧ text "CONFIG_" <+: m1 ∧
        record = m1 ++ '=' :: doubleQuote :: (m2 ++ doubleQuote :: rest) := by
  constructor
  · intro h
    rcases h with _ | ⟨hname, _ | ⟨hequals, _ | ⟨_, _ | ⟨hquote, _ | _⟩⟩⟩⟩
    rw [matches_lit.mp hequals, matches_lit.mp hquote]
    exact ⟨_, _, _, rfl, matches_nameRegex.mp hname, rfl⟩
  · rintro ⟨m1, m2, rest, rfl, hname, rfl⟩
    exact .cons (matches_nameRegex.mpr hname) (.cons (matches_lit.mpr rfl)
      (.cons (matches_star_any m2) (.cons (matches_lit.mpr rfl) .nil)))

theorem cuts_literal {record : Text} {segments : List Text} :
    Cuts [nameRegex, .lit (text "="), literalRegex] record segments ↔
      ∃ m1 m2 rest, segments = [m1, text "=", m2] ∧ text "CONFIG_" <+: m1 ∧
        Matches literalRegex m2 ∧ record = m1 ++ '=' :: (m2 ++ rest) := by
  constructor
  · intro h
    rcases h with _ | ⟨hname, _ | ⟨hequals, _ | ⟨hliteral, _ | _⟩⟩⟩
    rw [matches_lit.mp hequals]
    exact ⟨_, _, _, rfl, matches_nameRegex.mp hname, hliteral, rfl⟩
  · rintro ⟨m1, m2, rest, rfl, hname, hliteral, rfl⟩
    exact .cons (matches_nameRegex.mpr hname) (.cons (matches_lit.mpr rfl) (.cons hliteral .nil))

theorem matchString_eq_some {record : Text} {m : Text × Text} (h : matchString record = some m) :
    text "CONFIG_" <+: m.1 ∧
      ∃ rest, record = m.1 ++ '=' :: doubleQuote :: (m.2 ++ doubleQuote :: rest) := by
  rw [matchString] at h
  split at h
  · rename_i hcapture
    rcases cuts_string.mp (cuts_of_capture hcapture) with ⟨m1, m2, rest, hsegments, hname, hrecord⟩
    cases hsegments
    cases h
    exact ⟨hname, rest, hrecord⟩
  · cases h

theorem matchLiteral_eq_some {record : Text} {m : Text × Text}
    (h : matchLiteral record = some m) :
    text "CONFIG_" <+: m.1 ∧ Matches literalRegex m.2 ∧
      ∃ rest, record = m.1 ++ '=' :: (m.2 ++ rest) := by
  rw [matchLiteral] at h
  split at h
  · rename_i hcapture
    rcases cuts_literal.mp (cuts_of_capture hcapture) with
      ⟨m1, m2, rest, hsegments, hname, hliteral, hrecord⟩
    cases hsegments
    cases h
    exact ⟨hname, hliteral, rest, hrecord⟩
  · cases h

/-- The rule for literals is tried wherever there is an equals sign. -/
theorem matchLiteral_eq_none {record : Text} :
    matchLiteral record = none ↔ ∀ m1 m2 rest, text "CONFIG_" <+: m1 →
      Matches literalRegex m2 → record ≠ m1 ++ '=' :: (m2 ++ rest) := by
  constructor
  · intro h m1 m2 rest hname hliteral hrecord
    have hcuts := cuts_literal.mpr ⟨m1, m2, rest, rfl, hname, hliteral, hrecord⟩
    rw [matchLiteral] at h
    split at h
    · cases h
    · rename_i hother
      cases hcapture : capture [nameRegex, .lit (text "="), literalRegex] record with
      | none => exact capture_eq_none.mp hcapture _ hcuts
      | some segments =>
          rcases cuts_literal.mp (cuts_of_capture hcapture) with ⟨x, y, _, rfl, _⟩
          exact hother _ _ _ hcapture
  · intro h
    cases hmatch : matchLiteral record with
    | none => rfl
    | some m =>
        rcases matchLiteral_eq_some hmatch with ⟨hname, hliteral, rest, hrecord⟩
        exact absurd hrecord (h m.1 m.2 rest hname hliteral)

theorem isYes_iff {record : Text} :
    isYes record = true ↔ ∃ m1 rest, text "CONFIG_" <+: m1 ∧ record = m1 ++ '=' :: 'y' :: rest := by
  have hends : isYes record = true ↔
      ∃ rest, rest ∈ ends (.seq nameRegex (.lit (text "=y"))) record := by
    rw [isYes, decide_eq_true_eq]
    exact ⟨List.exists_mem_of_ne_nil _, fun ⟨_, h⟩ => List.ne_nil_of_mem h⟩
  rw [hends]
  constructor
  · rintro ⟨rest, hrest⟩
    rcases mem_ends.mp hrest with ⟨x, rfl, hx⟩
    rcases matches_seq.mp hx with ⟨m1, y, rfl, hname, hy⟩
    rw [matches_lit.mp hy]
    exact ⟨m1, rest, matches_nameRegex.mp hname, by simp [text]⟩
  · rintro ⟨m1, rest, hname, rfl⟩
    refine ⟨rest, mem_ends.mpr ⟨m1 ++ text "=y", by simp [text], ?_⟩⟩
    exact .seq (matches_nameRegex.mpr hname) (matches_lit.mpr rfl)

/-! ## Definitions of a line -/

theorem matchString_subset {record : Text} {m : Text × Text} (h : matchString record = some m) :
    m.1 ⊆ record ∧ m.2 ⊆ record := by
  rcases matchString_eq_some h with ⟨_, rest, rfl⟩
  constructor
  · intro c hc
    simp [hc]
  · intro c hc
    simp [hc]

theorem matchLiteral_subset {record : Text} {m : Text × Text} (h : matchLiteral record = some m) :
    m.1 ⊆ record ∧ m.2 ⊆ record := by
  rcases matchLiteral_eq_some h with ⟨_, _, rest, rfl⟩
  constructor
  · intro c hc
    simp [hc]
  · intro c hc
    simp [hc]

theorem firstField_subset (record : Text) : Awk.firstField isFieldSeparator record ⊆ record :=
  List.takeWhile_subset _

theorem onRecord_eq (record : Text) :
    configM4Awk.onRecord record =
      (if isYes record then [printDefineEmpty (Awk.firstField isFieldSeparator record)] else []) ++
        ((matchString record).toList.map printDefine ++
          (matchLiteral record).toList.map printDefine) := by
  simp [Awk.Program.onRecord, configM4Awk]

/-- The lines that the rules print for a record. -/
theorem mem_onRecord {record line : Text} :
    line ∈ configM4Awk.onRecord record ↔
      (isYes record ∧ line = printDefineEmpty (Awk.firstField isFieldSeparator record)) ∨
        ∃ m, (matchString record = some m ∨ matchLiteral record = some m) ∧
          line = printDefine m := by
  rw [onRecord_eq, List.mem_append, List.mem_append, List.mem_map, List.mem_map]
  refine or_congr ?_ ?_
  · by_cases hyes : isYes record
    · simp [hyes]
    · simp [hyes]
  · simp only [Option.mem_toList]
    constructor
    · rintro (⟨m, hm, rfl⟩ | ⟨m, hm, rfl⟩)
      · exact ⟨m, Or.inl hm, rfl⟩
      · exact ⟨m, Or.inr hm, rfl⟩
    · rintro ⟨m, hm | hm, rfl⟩
      · exact Or.inl ⟨m, hm, rfl⟩
      · exact Or.inr ⟨m, hm, rfl⟩

theorem newline_not_mem_onRecord {record : Text} (h : '\n' ∉ record) :
    ∀ line ∈ configM4Awk.onRecord record, '\n' ∉ line := by
  have hdefine : ∀ m : Text × Text, m.1 ⊆ record → m.2 ⊆ record → '\n' ∉ printDefine m := by
    intro m hname hbody hmem
    have hchar : '\n' ∈ m.1 ∨ '\n' ∈ m.2 := by
      simpa [printDefine, text, openQuote, closeQuote] using hmem
    rcases hchar with hchar | hchar
    · exact h (hname hchar)
    · exact h (hbody hchar)
  intro line hline
  rcases mem_onRecord.mp hline with ⟨_, rfl⟩ | ⟨m, hm | hm, rfl⟩
  · intro hmem
    have hchar : '\n' ∈ Awk.firstField isFieldSeparator record := by
      simpa [printDefineEmpty, text, openQuote, closeQuote] using hmem
    exact h (firstField_subset record hchar)
  · exact hdefine m (matchString_subset hm).1 (matchString_subset hm).2
  · exact hdefine m (matchLiteral_subset hm).1 (matchLiteral_subset hm).2

/-- The definitions that m4 reads of what is printed for a line. -/
def defines (record : Text) : List (Text × Text) :=
  (configM4Awk.onRecord record).filterMap readDefine

theorem definitions_cmdGenConfigM4 (autoConf : Text) :
    definitions (cmdGenConfigM4 autoConf) = (Awk.records autoConf).flatMap defines := by
  have hlines : ∀ line ∈ configM4Awk.run autoConf, '\n' ∉ line := by
    intro line hline
    rcases List.mem_append.mp hline with hline | hend
    · rcases List.mem_append.mp hline with hbegin | hline
      · rw [List.mem_singleton.mp hbegin]
        decide
      · rcases List.mem_flatMap.mp hline with ⟨record, hrecord, hline⟩
        exact newline_not_mem_onRecord (Awk.of_mem_records hrecord).2 line hline
    · rw [List.mem_singleton.mp hend]
      decide
  have hbegin : configM4Awk.atBegin.filterMap readDefine = [] := by decide
  have hend : configM4Awk.atEnd.filterMap readDefine = [] := by decide
  rw [definitions, cmdGenConfigM4, Awk.records_unlines hlines, Awk.Program.run,
    List.filterMap_append, List.filterMap_append, hbegin, hend, List.filterMap_flatMap,
    List.nil_append, List.append_nil]
  rfl

theorem defines_eq {record : Text} (h : Unquoted record) :
    defines record =
      (if isYes record then [(Awk.firstField isFieldSeparator record, [])] else []) ++
        ((matchString record).toList ++ (matchLiteral record).toList) := by
  have hempty := readDefine_printDefineEmpty (h.subset (firstField_subset record))
  have hprint : ∀ found : Option (Text × Text),
      (∀ m, found = some m → m.1 ⊆ record ∧ m.2 ⊆ record) →
      (found.toList.map printDefine).filterMap readDefine = found.toList := by
    intro found hfound
    cases found with
    | none => rfl
    | some m =>
        have hread := readDefine_printDefine (h.subset (hfound m rfl).1) (h.subset (hfound m rfl).2)
        simp [hread]
  rw [defines, onRecord_eq, List.filterMap_append, List.filterMap_append,
    hprint _ fun _ => matchString_subset, hprint _ fun _ => matchLiteral_subset]
  by_cases hyes : isYes record = true
  · rw [if_pos hyes, if_pos hyes, List.filterMap_cons_some hempty]
    rfl
  · rw [if_neg hyes, if_neg hyes]
    rfl

theorem mem_defines {record : Text} (h : Unquoted record) {m : Text × Text} :
    m ∈ defines record ↔
      (isYes record ∧ m = (Awk.firstField isFieldSeparator record, [])) ∨
        matchString record = some m ∨ matchLiteral record = some m := by
  rw [defines_eq h, List.mem_append, List.mem_append, Option.mem_toList, Option.mem_toList]
  refine or_congr ?_ Iff.rfl
  by_cases hyes : isYes record = true
  · simp [hyes]
  · simp [hyes]

/-- Only lines of symbols are translated. -/
theorem defines_comment {record : Text} (h : ¬ text "CONFIG_" <+: record) :
    defines record = [] := by
  have hname : ∀ x y, text "CONFIG_" <+: x → record ≠ x ++ y := by
    rintro x y hx rfl
    exact h (hx.trans (List.prefix_append ..))
  have hnone : configM4Awk.onRecord record = [] := by
    refine List.eq_nil_iff_forall_not_mem.mpr fun line hline => ?_
    rcases mem_onRecord.mp hline with ⟨hyes, _⟩ | ⟨m, hm | hm, _⟩
    · rcases isYes_iff.mp hyes with ⟨m1, rest, hm1, hrecord⟩
      exact hname _ _ hm1 hrecord
    · rcases matchString_eq_some hm with ⟨hm1, rest, hrecord⟩
      exact hname _ _ hm1 hrecord
    · rcases matchLiteral_eq_some hm with ⟨hm1, _, rest, hrecord⟩
      exact hname _ _ hm1 hrecord
  rw [defines, hnone]
  rfl

end Pbs.Kconfig.ConfigM4
