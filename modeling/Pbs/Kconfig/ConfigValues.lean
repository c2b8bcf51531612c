import Pbs.Kconfig.ConfigM4
import Mathlib.Data.List.Nodup

/-!
# Values that come through to m4

The line of a symbol is its name, an equals sign and the value. Where the name is found
in it, and what the rules of `config_m4.awk` find behind the name, is worked out for
every kind of value, and from this what the definitions of all symbols together are.
-/

namespace Pbs.Kconfig.ConfigM4

open Regexes

/-! ## Strings -/

theorem mem_escape {str : Text} {c : Char} (h : c ∈ escape str) : c ∈ str ∨ c = '\\' := by
  induction str with
  | nil => cases h
  | cons d str ih =>
      rw [escape] at h
      split at h
      · rcases List.mem_cons.mp h with rfl | h
        · exact Or.inr rfl
        · rcases List.mem_cons.mp h with rfl | h
          · exact Or.inl (List.mem_cons_self ..)
          · exact (ih h).imp_left (List.mem_cons_of_mem d)
      · rcases List.mem_cons.mp h with rfl | h
        · exact Or.inl (List.mem_cons_self ..)
        · exact (ih h).imp_left (List.mem_cons_of_mem d)

theorem length_le_escape (str : Text) : str.length ≤ (escape str).length := by
  induction str with
  | nil => exact Nat.le_refl _
  | cons c str ih =>
      rw [escape]
      split
      · simp only [List.length_cons]
        omega
      · simp only [List.length_cons]
        omega

/-- Escaping changes every string in which there is something to escape. -/
theorem escape_eq_self {str : Text} : escape str = str ↔ doubleQuote ∉ str ∧ '\\' ∉ str := by
  induction str with
  | nil => simp [escape]
  | cons c str ih =>
      rw [escape]
      by_cases hc : c = doubleQuote ∨ c = '\\'
      · rw [if_pos hc]
        constructor
        · intro h
          have hlength := congrArg List.length h
          have hle := length_le_escape str
          simp only [List.length_cons] at hlength
          omega
        · rintro ⟨hquote, hbackslash⟩
          rcases hc with rfl | rfl
          · exact absurd (List.mem_cons_self ..) hquote
          · exact absurd (List.mem_cons_self ..) hbackslash
      · rw [if_neg hc, List.cons.injEq, ih, List.mem_cons, List.mem_cons]
        push Not at hc
        simp [hc.1.symm, hc.2.symm]

/-- In front of an escaped quote stands a backslash. -/
theorem getLast?_before_quote {str x y : Text} (h : escape str = x ++ doubleQuote :: y) :
    x.getLast? = some '\\' := by
  have hbackslash : '\\' ≠ doubleQuote := by decide
  induction str generalizing x with
  | nil => simp [escape] at h
  | cons c str ih =>
      rw [escape] at h
      split at h
      · rcases x with _ | ⟨d, _ | ⟨e, x⟩⟩
        · exact absurd (List.cons.inj h).1 hbackslash
        · rw [← (List.cons.inj h).1]
          rfl
        · have hrest := ih (List.cons.inj (List.cons.inj h).2).2
          rw [List.getLast?_cons, List.getLast?_cons, hrest]
          rfl
      · rename_i hc
        rcases x with _ | ⟨d, x⟩
        · exact absurd (Or.inl (List.cons.inj h).1) hc
        · rw [List.getLast?_cons, ih (List.cons.inj h).2]
          rfl

/-! ## The lines of the symbols -/

theorem isWordChar_of_mem_macroName {sym : WrittenSymbol} {c : Char} (h : c ∈ sym.macroName) :
    isWordChar c = true := by
  have hconfig : ∀ c ∈ text "CONFIG_", isWordChar c = true :=
    List.all_iff_forall_prop.mp (by decide)
  rcases List.mem_append.mp h with h | h
  · exact hconfig c h
  · exact sym.isName c h

theorem not_mem_macroName (sym : WrittenSymbol) {c : Char} (hc : isWordChar c = false) :
    c ∉ sym.macroName := by
  intro h
  rw [isWordChar_of_mem_macroName h] at hc
  cases hc

theorem config_prefix_macroName (sym : WrittenSymbol) : text "CONFIG_" <+: sym.macroName :=
  List.prefix_append ..

theorem unquoted_macroName (sym : WrittenSymbol) : Unquoted sym.macroName := by
  intro c hc
  constructor
  · rintro rfl
    exact not_mem_macroName sym (by decide) hc
  · rintro rfl
    exact not_mem_macroName sym (by decide) hc

theorem firstField_line (sym : WrittenSymbol) (rest : Text) :
    Awk.firstField isFieldSeparator (sym.macroName ++ '=' :: rest) = sym.macroName := by
  have hpass : ∀ c ∈ sym.macroName, (!isFieldSeparator c) = true := by
    intro c hc
    cases hseparator : isFieldSeparator c with
    | false => rfl
    | true =>
        rw [isFieldSeparator, Bool.or_eq_true, Bool.or_eq_true, beq_iff_eq, beq_iff_eq,
          beq_iff_eq] at hseparator
        rcases hseparator with (rfl | rfl) | rfl
        · exact absurd hc (not_mem_macroName sym (by decide))
        · exact absurd hc (not_mem_macroName sym (by decide))
        · exact absurd hc (not_mem_macroName sym (by decide))
  rw [Awk.firstField, List.takeWhile_append_of_pos hpass]
  simp [isFieldSeparator]

/-- Where a name is found in the line of a symbol: it is that of the symbol, or goes on
with the equals sign. -/
theorem name_of_line {sym : WrittenSymbol} {rest m1 rest' : Text}
    (h : sym.macroName ++ '=' :: rest = m1 ++ '=' :: rest') :
    (m1 = sym.macroName ∧ rest' = rest) ∨
      ∃ x, m1 = sym.macroName ++ '=' :: x ∧ rest = x ++ '=' :: rest' := by
  rcases List.append_eq_append_iff.mp h with ⟨x, hm1, hrest⟩ | ⟨x, hname, hrest⟩
  · rcases x with _ | ⟨c, x⟩
    · rw [List.append_nil] at hm1
      exact Or.inl ⟨hm1, (List.cons.inj hrest).2.symm⟩
    · rcases List.cons.inj hrest with ⟨rfl, hrest'⟩
      exact Or.inr ⟨x, hm1, hrest'⟩
  · rcases x with _ | ⟨c, x⟩
    · rw [List.append_nil] at hname
      exact Or.inl ⟨hname.symm, (List.cons.inj hrest).2⟩
    · rcases List.cons.inj hrest with ⟨rfl, _⟩
      have hequals : '=' ∈ sym.macroName := by simp [hname]
      exact absurd hequals (not_mem_macroName sym (by decide))

/-- A definition from the line of a symbol is of the symbol, or of no symbol at all. -/
theorem name_of_mem_defines {sym : WrittenSymbol} {rest : Text}
    (h : Unquoted (sym.macroName ++ '=' :: rest)) {m : Text × Text}
    (hm : m ∈ defines (sym.macroName ++ '=' :: rest)) : m.1 = sym.macroName ∨ '=' ∈ m.1 := by
  have hname : ∀ rest', sym.macroName ++ '=' :: rest = m.1 ++ '=' :: rest' →
      m.1 = sym.macroName ∨ '=' ∈ m.1 := by
    intro rest' hline
    rcases name_of_line hline with ⟨hm1, _⟩ | ⟨x, hm1, _⟩
    · exact Or.inl hm1
    · exact Or.inr (by simp [hm1])
  rcases (mem_defines h).mp hm with ⟨_, rfl⟩ | hm | hm
  · exact Or.inl (firstField_line sym rest)
  · rcases matchString_eq_some hm with ⟨_, rest', hline⟩
    exact hname _ hline
  · rcases matchLiteral_eq_some hm with ⟨_, _, rest', hline⟩
    exact hname _ hline

/-- What stands behind the equals sign. -/
def WrittenSymbol.written (sym : WrittenSymbol) : Option Text :=
  match sym.type with
  | .boolean | .tristate =>
      match sym.tristateValue with
      | .no => none
      | .mod => some (text "m")
      | .yes => some (text "y")
  | .string => some (doubleQuote :: (escape sym.stringValue ++ [doubleQuote]))
  | .hex | .int => some sym.stringValue
  | .other | .unknown => none

def WrittenSymbol.lines (sym : WrittenSymbol) : List Text :=
  sym.written.toList.map fun value => sym.macroName ++ '=' :: value

theorem confWriteSymbol_eq (sym : WrittenSymbol) :
    confWriteSymbol sym false = Awk.unlines sym.lines := by
  unfold confWriteSymbol WrittenSymbol.lines WrittenSymbol.written
  cases sym.type with
  | boolean => cases sym.tristateValue <;> simp [Awk.unlines, WrittenSymbol.macroName, text]
  | tristate => cases sym.tristateValue <;> simp [Awk.unlines, WrittenSymbol.macroName, text]
  | string =>
      simp [confWriteString, Awk.unlines, WrittenSymbol.macroName, text, doubleQuote]
  | _ => simp [Awk.unlines, WrittenSymbol.macroName, text]

theorem WrittenSymbol.written_of_bool {sym : WrittenSymbol}
    (htype : sym.type = .boolean ∨ sym.type = .tristate) :
    sym.written = match sym.tristateValue with
      | .no => none
      | .mod => some (text "m")
      | .yes => some (text "y") := by
  unfold WrittenSymbol.written
  rcases htype with htype | htype
  · rw [htype]
  · rw [htype]

theorem WrittenSymbol.definition_of_bool {sym : WrittenSymbol}
    (htype : sym.type = .boolean ∨ sym.type = .tristate) :
    sym.definition = if sym.tristateValue = .yes then some [] else none := by
  unfold WrittenSymbol.definition
  rcases htype with htype | htype
  · rw [htype]
  · rw [htype]

/-- The characters behind the equals sign. -/
theorem WrittenSymbol.mem_written {sym : WrittenSymbol} {value : Text}
    (h : sym.written = some value) {c : Char} (hc : c ∈ value) :
    c ∈ [doubleQuote, '\\', 'm', 'y'] ∨
      c ∈ sym.stringValue ∧ sym.definition = some sym.stringValue := by
  have hletter : sym.type = .boolean ∨ sym.type = .tristate →
      value = text "m" ∨ value = text "y" := by
    intro htype
    rw [written_of_bool htype] at h
    split at h
    · cases h
    · exact Or.inl (Option.some.inj h).symm
    · exact Or.inr (Option.some.inj h).symm
  have hconst : value = text "m" ∨ value = text "y" → c ∈ [doubleQuote, '\\', 'm', 'y'] := by
    rintro (rfl | rfl)
    · rw [List.mem_singleton.mp hc]
      decide
    · rw [List.mem_singleton.mp hc]
      decide
  cases htype : sym.type with
  | unknown => simp [WrittenSymbol.written, htype] at h
  | other => simp [WrittenSymbol.written, htype] at h
  | boolean => exact Or.inl (hconst (hletter (Or.inl htype)))
  | tristate => exact Or.inl (hconst (hletter (Or.inr htype)))
  | int =>
      have hvalue : sym.stringValue = value := by simpa [WrittenSymbol.written, htype] using h
      exact Or.inr ⟨hvalue ▸ hc, by simp [WrittenSymbol.definition, htype]⟩
  | hex =>
      have hvalue : sym.stringValue = value := by simpa [WrittenSymbol.written, htype] using h
      exact Or.inr ⟨hvalue ▸ hc, by simp [WrittenSymbol.definition, htype]⟩
  | string =>
      have hvalue : doubleQuote :: (escape sym.stringValue ++ [doubleQuote]) = value := by
        simpa [WrittenSymbol.written, htype] using h
      have hmem : c = doubleQuote ∨ c ∈ escape sym.stringValue := by
        rw [← hvalue] at hc
        simpa [or_comm] using hc
      rcases hmem with rfl | hmem
      · exact Or.inl (by simp)
      · rcases mem_escape hmem with hmem | rfl
        · exact Or.inr ⟨hmem, by simp [WrittenSymbol.definition, htype]⟩
        · exact Or.inl (by simp)

theorem WrittenSymbol.unquoted_written {sym : WrittenSymbol} {value : Text}
    (h : sym.written = some value) : Unquoted (sym.macroName ++ '=' :: value) := by
  have hconst : ∀ c ∈ ['=', doubleQuote, '\\', 'm', 'y'], c ≠ openQuote ∧ c ≠ closeQuote :=
    List.all_iff_forall_prop.mp (by decide)
  intro c hc
  rcases List.mem_append.mp hc with hc | hc
  · exact unquoted_macroName sym c hc
  · rcases List.mem_cons.mp hc with rfl | hc
    · exact hconst _ (List.mem_cons_self ..)
    · rcases mem_written h hc with hc | ⟨hc, _⟩
      · exact hconst c (List.mem_cons_of_mem _ hc)
      · exact sym.unquoted c hc

/-! ## Values without equals signs -/

section Unstructured

variable {sym : WrittenSymbol} {value : Text} (hequals : '=' ∉ value)

include hequals

theorem name_of_value {m1 rest : Text}
    (h : sym.macroName ++ '=' :: value = m1 ++ '=' :: rest) :
    m1 = sym.macroName ∧ rest = value := by
  rcases name_of_line h with hm1 | ⟨x, _, hvalue⟩
  · exact hm1
  · exact absurd (by simp [hvalue]) hequals

theorem isYes_of_value :
    isYes (sym.macroName ++ '=' :: value) = true ↔ text "y" <+: value := by
  rw [isYes_iff]
  constructor
  · rintro ⟨m1, rest, _, hline⟩
    rcases name_of_value hequals hline with ⟨_, rfl⟩
    exact ⟨rest, rfl⟩
  · rintro ⟨rest, rfl⟩
    exact ⟨_, rest, config_prefix_macroName sym, rfl⟩

theorem matchString_of_value (hquote : doubleQuote ∉ value) :
    matchString (sym.macroName ++ '=' :: value) = none := by
  cases hmatch : matchString (sym.macroName ++ '=' :: value) with
  | none => rfl
  | some m =>
      rcases matchString_eq_some hmatch with ⟨_, rest, hline⟩
      rcases name_of_value hequals hline with ⟨_, hvalue⟩
      exact absurd (by simp [← hvalue]) hquote

/-- A literal is found as a whole. -/
theorem matchLiteral_of_matches (h : Matches literalRegex value) :
    matchLiteral (sym.macroName ++ '=' :: value) = some (sym.macroName, value) := by
  have hcuts : Cuts [nameRegex, .lit (text "="), literalRegex] (sym.macroName ++ '=' :: value)
      [sym.macroName, text "=", value] :=
    cuts_literal.mpr ⟨_, _, [], rfl, config_prefix_macroName sym, h, by simp⟩
  rw [matchLiteral, capture_whole hcuts (by simp [text])]
  intro other hother hwhole
  rcases cuts_literal.mp hother with ⟨m1, m2, rest, rfl, _, _, hline⟩
  rcases name_of_value hequals hline with ⟨rfl, hvalue⟩
  have hrest : m2 = value := by simpa [text] using hwhole
  rw [hrest]

theorem matchLiteral_of_value {m : Text × Text}
    (h : matchLiteral (sym.macroName ++ '=' :: value) = some m) :
    m.1 = sym.macroName ∧ Matches literalRegex m.2 ∧ m.2 <+: value := by
  rcases matchLiteral_eq_some h with ⟨_, hliteral, rest, hline⟩
  rcases name_of_value hequals hline with ⟨hm1, hvalue⟩
  exact ⟨hm1, hliteral, rest, hvalue⟩

end Unstructured

/-! ## Values of strings -/

/-- The rule for strings takes all that is between the first and the last quote. -/
theorem matchString_of_string (sym : WrittenSymbol) (str : Text) :
    matchString (sym.macroName ++ '=' :: doubleQuote :: (escape str ++ [doubleQuote])) =
      some (sym.macroName, escape str) := by
  have hcuts : Cuts [nameRegex, .lit (text "=\""), .star .any, .lit (text "\"")]
      (sym.macroName ++ '=' :: doubleQuote :: (escape str ++ [doubleQuote]))
      [sym.macroName, text "=\"", escape str, text "\""] :=
    cuts_string.mpr ⟨_, _, [], rfl, config_prefix_macroName sym, rfl⟩
  have hquote : text "\"" = [doubleQuote] := rfl
  rw [matchString, capture_whole hcuts (by simp [text, doubleQuote])]
  intro other hother hwhole
  rcases cuts_string.mp hother with ⟨m1, m2, rest, rfl, _, hline⟩
  rcases name_of_line hline with ⟨rfl, _⟩ | ⟨x, _, hvalue⟩
  · have hm2 : m2 = escape str := by
      simpa [text, doubleQuote] using hwhole
    rw [hm2]
  · -- the quote behind the equals sign would be an escaped one
    exfalso
    rcases x with _ | ⟨c, x⟩
    · exact absurd (List.cons.inj hvalue).1 (by decide)
    · have hinner : escape str ++ [doubleQuote] =
          (x ++ ['=']) ++ doubleQuote :: (m2 ++ doubleQuote :: rest) := by
        rw [(List.cons.inj hvalue).2]
        simp
      rcases List.append_eq_append_iff.mp hinner with ⟨y, _, hlast⟩ | ⟨y, hescape, hlast⟩
      · have hlength := congrArg List.length hlast
        simp only [List.length_append, List.length_cons, List.length_nil] at hlength
        omega
      · rcases y with _ | ⟨d, y⟩
        · have hlength := congrArg List.length hlast
          simp only [List.length_append, List.length_cons, List.length_nil] at hlength
          omega
        · rcases List.cons.inj hlast with ⟨rfl, _⟩
          have hlast := getLast?_before_quote hescape
          rw [List.getLast?_append, List.getLast?_singleton] at hlast
          exact absurd (Option.some.inj hlast) (by decide)

/-- The rule for literals finds nothing behind the name of a string. -/
theorem equals_mem_of_matchLiteral {sym : WrittenSymbol} {str : Text} {m : Text × Text}
    (h : matchLiteral (sym.macroName ++ '=' :: doubleQuote :: str) = some m) : '=' ∈ m.1 := by
  rcases matchLiteral_eq_some h with ⟨_, hliteral, rest, hline⟩
  rcases name_of_line hline with ⟨_, hvalue⟩ | ⟨x, hm1, _⟩
  · rcases exists_cons_of_matches hliteral with ⟨c, y, hm2, hc⟩
    rw [hm2, List.cons_append] at hvalue
    rw [(List.cons.inj hvalue).1] at hc
    exact absurd hc (by decide)
  · simp [hm1]

/-- The rule for literals finds every equals sign in a string that stands in front of a
digit. -/
theorem matchLiteral_of_string (sym : WrittenSymbol) (str : Text) :
    matchLiteral (sym.macroName ++ '=' :: doubleQuote :: (str ++ [doubleQuote])) = none ↔
      ∀ c, isxdigit c → ¬ ['=', c] <:+: str := by
  have hnodigit : isxdigit doubleQuote = false := by decide
  rw [matchLiteral_eq_none]
  constructor
  · rintro h c hc ⟨x, y, rfl⟩
    have hname : text "CONFIG_" <+: sym.macroName ++ '=' :: doubleQuote :: x :=
      (config_prefix_macroName sym).trans (List.prefix_append ..)
    have hliteral : Matches literalRegex [c] := by
      refine matches_literalRegex.mpr ⟨[c], Or.inr rfl, by simp, fun d hd => ?_⟩
      rw [List.mem_singleton.mp hd]
      exact hc
    exact h _ _ (y ++ [doubleQuote]) hname hliteral (by simp)
  · intro h m1 m2 rest _ hliteral hline
    rcases exists_cons_of_matches hliteral with ⟨c, y, rfl, hc⟩
    rcases name_of_line hline with ⟨_, hvalue⟩ | ⟨x, _, hvalue⟩
    · rw [List.cons_append] at hvalue
      rw [(List.cons.inj hvalue).1, hnodigit] at hc
      cases hc
    · rcases x with _ | ⟨d, x⟩
      · exact absurd (List.cons.inj hvalue).1 (by decide)
      · have hinner : str ++ [doubleQuote] = (x ++ ['=', c]) ++ (y ++ rest) := by
          rw [(List.cons.inj hvalue).2]
          simp
        rcases List.append_eq_append_iff.mp hinner with ⟨z, hx, hlast⟩ | ⟨z, hstr, _⟩
        · rcases z with _ | ⟨e, z⟩
          · rw [List.append_nil] at hx
            exact h c hc ⟨x, [], by rw [← hx, List.append_nil]⟩
          · -- the digit would be the closing quote
            rcases List.cons.inj hlast with ⟨rfl, hz⟩
            rcases List.append_eq_nil_iff.mp hz.symm with ⟨rfl, _⟩
            have hchars := congrArg List.getLast? hx
            rw [List.getLast?_append, List.getLast?_append] at hchars
            simp only [List.getLast?_cons_cons, List.getLast?_singleton, Option.some_or] at hchars
            rw [Option.some.inj hchars, hnodigit] at hc
            cases hc
        · exact h c hc ⟨x, z, by rw [hstr]⟩

/-! ## The last definition -/

theorem lastOf_append (xs ys : List (Text × Text)) (name : Text) :
    lastOf (xs ++ ys) name = (lastOf ys name).or (lastOf xs name) := by
  rw [lastOf, List.reverse_append, List.lookup_append]
  rfl

theorem lastOf_eq_none {defs : List (Text × Text)} {name : Text} :
    lastOf defs name = none ↔ ∀ m ∈ defs, m.1 ≠ name := by
  rw [lastOf, List.lookup_eq_none_iff]
  simp only [List.mem_reverse, bne_iff_ne, ne_comm]

theorem mem_of_lastOf {defs : List (Text × Text)} {name body : Text}
    (h : lastOf defs name = some body) : (name, body) ∈ defs := by
  rcases List.lookup_eq_some_iff.mp h with ⟨xs, ys, hsplit, _⟩
  rw [← List.mem_reverse, hsplit]
  simp

theorem newline_not_mem_lastOf {configM4 name body : Text}
    (h : lastOf (definitions configM4) name = some body) : '\n' ∉ body := by
  rcases List.mem_filterMap.mp (mem_of_lastOf h) with ⟨line, hline, hread⟩
  exact fun hmem => (Awk.of_mem_records hline).2 (readDefine_subset hread hmem)

/-! ## Definitions of one symbol -/

def WrittenSymbol.defines (sym : WrittenSymbol) : List (Text × Text) :=
  sym.lines.flatMap ConfigM4.defines

theorem WrittenSymbol.name_of_mem_defines {sym : WrittenSymbol} {m : Text × Text}
    (h : m ∈ sym.defines) : m.1 = sym.macroName ∨ '=' ∈ m.1 := by
  rcases List.mem_flatMap.mp h with ⟨line, hline, hm⟩
  rcases List.mem_map.mp hline with ⟨value, hvalue, rfl⟩
  exact ConfigM4.name_of_mem_defines (unquoted_written (Option.mem_toList.mp hvalue)) hm

theorem WrittenSymbol.defines_eq {sym : WrittenSymbol} {value : Text}
    (h : sym.written = some value) :
    sym.defines = ConfigM4.defines (sym.macroName ++ '=' :: value) := by
  rw [WrittenSymbol.defines, WrittenSymbol.lines, h]
  simp

/-! ## Literals -/

/-- A valid literal is found as a whole if and only if it comes through. -/
theorem plain_iff_matches (sym : WrittenSymbol) (htype : sym.type = .int ∨ sym.type = .hex) :
    sym.Plain ↔ Matches literalRegex sym.stringValue := by
  have hvalid := sym.valid htype
  rw [WrittenSymbol.Plain, matches_literalRegex]
  rcases htype with htype | htype
  · rw [htype] at hvalid ⊢
    rcases int_of_valid hvalid with ⟨digits, hne, hall, heq⟩
    constructor
    · intro hplain
      rcases heq with heq | heq
      · exact ⟨digits, Or.inr heq, hne, hall⟩
      · exact absurd (heq ▸ List.prefix_append ..) hplain
    · rintro ⟨ds, hds, _, hall⟩ ⟨rest, hminus⟩
      rcases hds with hds | hds
      · rw [hds] at hminus
        exact absurd (List.cons.inj hminus).1 (by decide)
      · have hmem : '-' ∈ ds := by
          rw [← hds, ← hminus]
          exact List.mem_cons_self ..
        exact absurd (hall _ hmem) (by decide)
  · rw [htype] at hvalid ⊢
    rcases hex_of_valid hvalid with ⟨digits, hne, hall, heq⟩
    constructor
    · intro hplain
      rcases heq with heq | heq | heq
      · exact ⟨digits, Or.inr heq, hne, hall⟩
      · exact ⟨digits, Or.inl heq, hne, hall⟩
      · exact absurd (heq ▸ List.prefix_append ..) hplain
    · rintro ⟨ds, hds, _, hall⟩ ⟨rest, hupper⟩
      rcases hds with hds | hds
      · rw [hds] at hupper
        exact absurd (List.cons.inj (List.cons.inj hupper).2).1 (by decide)
      · have hmem : 'X' ∈ ds := by
          rw [← hds, ← hupper]
          exact List.mem_cons_of_mem _ (List.mem_cons_self ..)
        exact absurd (hall _ hmem) (by decide)

/-! ## What comes through of a symbol -/

/-- The line of the symbol is one, the symbol has its definition, and nothing else has. -/
structure WrittenSymbol.Translates (sym : WrittenSymbol) : Prop where
  one_line : ∀ line ∈ sym.lines, '\n' ∉ line
  definition : lastOf sym.defines sym.macroName = sym.definition
  only : ∀ m ∈ sym.defines, m.1 = sym.macroName

theorem newline_not_mem_lines {sym : WrittenSymbol} {value : Text}
    (h : sym.written = some value) (hvalue : '\n' ∉ value) : ∀ line ∈ sym.lines, '\n' ∉ line := by
  intro line hline hmem
  rw [WrittenSymbol.lines, h, Option.toList_some, List.map_singleton, List.mem_singleton] at hline
  rw [hline] at hmem
  rcases List.mem_append.mp hmem with hmem | hmem
  · exact not_mem_macroName sym (by decide) hmem
  · rcases List.mem_cons.mp hmem with hmem | hmem
    · exact absurd hmem (by decide)
    · exact hvalue hmem

/-- Without equals signs and quotes, two rules are left. -/
theorem defines_of_value {sym : WrittenSymbol} {value : Text} (h : sym.written = some value)
    (hequals : '=' ∉ value) (hquote : doubleQuote ∉ value) :
    sym.defines = (if text "y" <+: value then [(sym.macroName, [])] else []) ++
      (matchLiteral (sym.macroName ++ '=' :: value)).toList := by
  rw [sym.defines_eq h, ConfigM4.defines_eq (WrittenSymbol.unquoted_written h), firstField_line,
    matchString_of_value hequals hquote, Option.toList_none, List.nil_append]
  by_cases hyes : text "y" <+: value
  · rw [if_pos hyes, if_pos ((isYes_of_value hequals).mpr hyes)]
  · rw [if_neg hyes, if_neg fun h => hyes ((isYes_of_value hequals).mp h)]

theorem matchLiteral_of_head {sym : WrittenSymbol} {c : Char} {value : Text}
    (hequals : '=' ∉ c :: value) (hc : isxdigit c = false) :
    matchLiteral (sym.macroName ++ '=' :: c :: value) = none := by
  cases hmatch : matchLiteral (sym.macroName ++ '=' :: c :: value) with
  | none => rfl
  | some m =>
      rcases matchLiteral_of_value hequals hmatch with ⟨_, hliteral, rest, hvalue⟩
      rcases exists_cons_of_matches hliteral with ⟨d, y, hm2, hd⟩
      rw [hm2, List.cons_append] at hvalue
      rw [(List.cons.inj hvalue).1, hc] at hd
      cases hd

theorem translates_of_defines {sym : WrittenSymbol}
    (hline : ∀ line ∈ sym.lines, '\n' ∉ line)
    (hdefines : sym.defines = sym.definition.toList.map fun body => (sym.macroName, body)) :
    sym.Translates := by
  constructor
  · exact hline
  · rw [hdefines]
    cases sym.definition with
    | none => rfl
    | some body => simp [lastOf]
  · intro m hm
    rw [hdefines] at hm
    rcases List.mem_map.mp hm with ⟨body, _, rfl⟩
    rfl

theorem translates_of_yes (sym : WrittenSymbol) (hwritten : sym.written = some (text "y"))
    (hdefinition : sym.definition = some []) : sym.Translates := by
  have hliteral : matchLiteral (sym.macroName ++ '=' :: text "y") = none :=
    matchLiteral_of_head (by decide) (by decide)
  refine translates_of_defines (newline_not_mem_lines hwritten (by decide)) ?_
  rw [defines_of_value hwritten (by decide) (by decide), if_pos (List.prefix_refl _), hliteral,
    hdefinition]
  rfl

theorem translates_of_mod (sym : WrittenSymbol) (hwritten : sym.written = some (text "m"))
    (hdefinition : sym.definition = none) : sym.Translates := by
  have hliteral : matchLiteral (sym.macroName ++ '=' :: text "m") = none :=
    matchLiteral_of_head (by decide) (by decide)
  refine translates_of_defines (newline_not_mem_lines hwritten (by decide)) ?_
  rw [defines_of_value hwritten (by decide) (by decide), if_neg (by decide), hliteral,
    hdefinition]
  rfl

theorem translates_of_none (sym : WrittenSymbol) (hwritten : sym.written = none)
    (hdefinition : sym.definition = none) : sym.Translates := by
  have hlines : sym.lines = [] := by
    rw [WrittenSymbol.lines, hwritten]
    rfl
  refine translates_of_defines (by simp [hlines]) ?_
  rw [WrittenSymbol.defines, hlines, hdefinition]
  rfl

/-- Of a literal, the digits at the beginning come through. -/
theorem translates_literal_iff {sym : WrittenSymbol} (htype : sym.type = .int ∨ sym.type = .hex)
    (hwritten : sym.written = some sym.stringValue)
    (hdefinition : sym.definition = some sym.stringValue) :
    sym.Translates ↔ Matches literalRegex sym.stringValue := by
  have hvalid := sym.valid htype
  have hequals : '=' ∉ sym.stringValue := not_mem_of_valid htype hvalid (by decide) (by decide)
  have hquote : doubleQuote ∉ sym.stringValue :=
    not_mem_of_valid htype hvalid (by decide) (by decide)
  have hnewline : '\n' ∉ sym.stringValue := not_mem_of_valid htype hvalid (by decide) (by decide)
  have hyes : ¬ text "y" <+: sym.stringValue := by
    rintro ⟨rest, hrest⟩
    refine not_mem_of_valid htype hvalid (c := 'y') (by decide) (by decide) ?_
    rw [← hrest]
    exact List.mem_cons_self ..
  have hdefines : sym.defines =
      (matchLiteral (sym.macroName ++ '=' :: sym.stringValue)).toList := by
    rw [defines_of_value hwritten hequals hquote, if_neg hyes, List.nil_append]
  constructor
  · intro h
    have hlast := h.definition
    rw [hdefinition] at hlast
    have hmem := mem_of_lastOf hlast
    rw [hdefines, Option.mem_toList] at hmem
    exact (matchLiteral_of_value hequals hmem).2.1
  · intro h
    refine translates_of_defines (newline_not_mem_lines hwritten hnewline) ?_
    rw [hdefines, matchLiteral_of_matches hequals h, hdefinition]
    rfl

/-- The line of a string, without its end. -/
def WrittenSymbol.stringLine (sym : WrittenSymbol) : Text :=
  sym.macroName ++ '=' :: doubleQuote :: (escape sym.stringValue ++ [doubleQuote])

theorem name_ne_of_matchLiteral {sym : WrittenSymbol} {m : Text × Text}
    (h : matchLiteral sym.stringLine = some m) : m.1 ≠ sym.macroName := by
  intro heq
  have hmem := equals_mem_of_matchLiteral h
  rw [heq] at hmem
  exact not_mem_macroName sym (by decide) hmem

section String

variable {sym : WrittenSymbol}
    (hwritten : sym.written = some (doubleQuote :: (escape sym.stringValue ++ [doubleQuote])))

include hwritten

theorem defines_of_string :
    sym.defines = (if isYes sym.stringLine then [(sym.macroName, [])] else []) ++
      ([(sym.macroName, escape sym.stringValue)] ++ (matchLiteral sym.stringLine).toList) := by
  rw [sym.defines_eq hwritten, ConfigM4.defines_eq (WrittenSymbol.unquoted_written hwritten),
    firstField_line, matchString_of_string]
  rfl

/-- The last definition of a string is the escaped one. -/
theorem lastOf_of_string : lastOf sym.defines sym.macroName = some (escape sym.stringValue) := by
  have hnone : lastOf (matchLiteral sym.stringLine).toList sym.macroName = none :=
    lastOf_eq_none.mpr fun m hm => name_ne_of_matchLiteral (Option.mem_toList.mp hm)
  rw [defines_of_string hwritten, lastOf_append, lastOf_append, hnone]
  simp [lastOf]

theorem only_of_string_iff :
    (∀ m ∈ sym.defines, m.1 = sym.macroName) ↔ matchLiteral sym.stringLine = none := by
  rw [defines_of_string hwritten]
  constructor
  · intro h
    cases hmatch : matchLiteral sym.stringLine with
    | none => rfl
    | some m => exact absurd (h m (by simp [hmatch])) (name_ne_of_matchLiteral hmatch)
  · intro h m hm
    rw [h] at hm
    rcases List.mem_append.mp hm with hm | hm
    · split at hm
      · rw [List.mem_singleton.mp hm]
      · cases hm
    · rw [List.mem_singleton.mp hm]

/-- Strings come through where there is nothing to escape and no literal to find. -/
theorem translates_string_iff (hdefinition : sym.definition = some sym.stringValue) :
    sym.Translates ↔
      doubleQuote ∉ sym.stringValue ∧ '\\' ∉ sym.stringValue ∧ '\n' ∉ sym.stringValue ∧
        ∀ c, isxdigit c → ¬ ['=', c] <:+: sym.stringValue := by
  have hliteral : escape sym.stringValue = sym.stringValue →
      (matchLiteral sym.stringLine = none ↔
        ∀ c, isxdigit c → ¬ ['=', c] <:+: sym.stringValue) := by
    intro hescape
    rw [WrittenSymbol.stringLine, hescape]
    exact matchLiteral_of_string sym sym.stringValue
  constructor
  · intro h
    have hescape : escape sym.stringValue = sym.stringValue := by
      have heq := (lastOf_of_string hwritten).symm.trans (h.definition.trans hdefinition)
      exact Option.some.inj heq
    have hnewline : '\n' ∉ sym.stringValue := by
      intro hmem
      refine h.one_line _ (List.mem_map.mpr ⟨_, Option.mem_toList.mpr hwritten, rfl⟩) ?_
      rw [hescape]
      simp [hmem]
    have hnone := (only_of_string_iff hwritten).mp h.only
    exact ⟨(escape_eq_self.mp hescape).1, (escape_eq_self.mp hescape).2, hnewline,
      (hliteral hescape).mp hnone⟩
  · rintro ⟨hquote, hbackslash, hnewline, hnone⟩
    have hescape := escape_eq_self.mpr ⟨hquote, hbackslash⟩
    constructor
    · refine newline_not_mem_lines hwritten ?_
      rw [hescape]
      simpa [doubleQuote] using hnewline
    · rw [lastOf_of_string hwritten, hescape, hdefinition]
    · exact (only_of_string_iff hwritten).mpr ((hliteral hescape).mpr hnone)

end String

/-- A symbol is translated exactly when its value is one that comes through. -/
theorem translates_iff_plain (sym : WrittenSymbol) : sym.Translates ↔ sym.Plain := by
  have hbool : sym.type = .boolean ∨ sym.type = .tristate → sym.Translates := by
    intro htype
    have hwritten := WrittenSymbol.written_of_bool htype
    have hdefinition := WrittenSymbol.definition_of_bool htype
    cases hval : sym.tristateValue with
    | no =>
        rw [hval] at hwritten hdefinition
        exact translates_of_none sym hwritten hdefinition
    | mod =>
        rw [hval] at hwritten hdefinition
        exact translates_of_mod sym hwritten hdefinition
    | yes =>
        rw [hval] at hwritten hdefinition
        exact translates_of_yes sym hwritten hdefinition
  have hother : sym.type = .unknown ∨ sym.type = .other → sym.Translates := by
    intro htype
    refine translates_of_none sym ?_ ?_
    · rcases htype with htype | htype <;> simp [WrittenSymbol.written, htype]
    · rcases htype with htype | htype <;> simp [WrittenSymbol.definition, htype]
  have hliteral : sym.type = .int ∨ sym.type = .hex → (sym.Translates ↔ sym.Plain) := by
    intro htype
    rw [plain_iff_matches sym htype]
    refine translates_literal_iff htype ?_ ?_
    · rcases htype with htype | htype <;> simp [WrittenSymbol.written, htype]
    · rcases htype with htype | htype <;> simp [WrittenSymbol.definition, htype]
  cases htype : sym.type with
  | unknown => simp [WrittenSymbol.Plain, htype, hother (Or.inl htype)]
  | boolean => simp [WrittenSymbol.Plain, htype, hbool (Or.inl htype)]
  | tristate => simp [WrittenSymbol.Plain, htype, hbool (Or.inr htype)]
  | int => exact hliteral (Or.inl htype)
  | hex => exact hliteral (Or.inr htype)
  | string =>
      rw [translates_string_iff (by simp [WrittenSymbol.written, htype])
        (by simp [WrittenSymbol.definition, htype])]
      simp [WrittenSymbol.Plain, htype]
  | other => simp [WrittenSymbol.Plain, htype, hother (Or.inr htype)]

/-! ## All symbols -/

/-- The lines at the beginning of the file. -/
def AutoConf.heading (conf : AutoConf) : List Text :=
  [text "#", text "# Automatically generated make config: don't edit", text "# " ++ conf.prompt,
    text "# " ++ conf.now, text "#"]

theorem confWriteAutoconf_eq (conf : AutoConf) :
    confWriteAutoconf conf =
      Awk.unlines (conf.heading ++ conf.symbols.flatMap WrittenSymbol.lines) := by
  have hsymbols : conf.symbols.flatMap (confWriteSymbol · false) =
      Awk.unlines (conf.symbols.flatMap WrittenSymbol.lines) := by
    rw [Awk.unlines, List.flatMap_assoc]
    exact List.flatMap_congr fun sym _ => confWriteSymbol_eq sym
  rw [confWriteAutoconf, hsymbols]
  simp [Awk.unlines, AutoConf.heading, text]

theorem AutoConf.defines_heading (conf : AutoConf) :
    conf.heading.flatMap ConfigM4.defines = [] := by
  have hcomment : ∀ rest, ConfigM4.defines ('#' :: rest) = [] := by
    intro rest
    refine defines_comment ?_
    rintro ⟨x, hx⟩
    exact absurd (List.cons.inj hx).1 (by decide)
  simp [AutoConf.heading, text, hcomment]

/-- Where every symbol has a line of its own, the definitions are those of the
symbols. -/
theorem AutoConf.definitions_eq {conf : AutoConf}
    (h : ∀ sym ∈ conf.symbols, ∀ line ∈ sym.lines, '\n' ∉ line) :
    definitions (cmdGenConfigM4 (confWriteAutoconf conf)) =
      conf.symbols.flatMap WrittenSymbol.defines := by
  have hheading : ∀ line ∈ conf.heading, '\n' ∉ line := by
    have hprompt := conf.prompt_line
    have hnow := conf.now_line
    simp [AutoConf.heading, text, hprompt, hnow]
  have hlines : ∀ line ∈ conf.heading ++ conf.symbols.flatMap WrittenSymbol.lines,
      '\n' ∉ line := by
    intro line hline
    rcases List.mem_append.mp hline with hline | hline
    · exact hheading line hline
    · rcases List.mem_flatMap.mp hline with ⟨sym, hsym, hline⟩
      exact h sym hsym line hline
  rw [definitions_cmdGenConfigM4, confWriteAutoconf_eq, Awk.records_unlines hlines,
    List.flatMap_append, conf.defines_heading, List.nil_append, List.flatMap_assoc]
  rfl

section Names

variable {conf : AutoConf} {sym : WrittenSymbol} (hsym : sym ∈ conf.symbols)

include hsym

theorem AutoConf.eq_of_macroName {other : WrittenSymbol} (hother : other ∈ conf.symbols)
    (h : other.macroName = sym.macroName) : other = sym :=
  List.inj_on_of_nodup_map conf.distinct hother hsym (List.append_cancel_left h)

theorem AutoConf.definition_of_mem : conf.definition sym.macroName = sym.definition := by
  have hfind : conf.symbols.find? (fun other => other.macroName = sym.macroName) = some sym := by
    cases hfound : conf.symbols.find? (fun other => other.macroName = sym.macroName) with
    | none =>
        have hnone := List.find?_eq_none.mp hfound sym hsym
        simp at hnone
    | some other =>
        have hname := List.find?_some hfound
        rw [conf.eq_of_macroName hsym (List.mem_of_find?_eq_some hfound) (by simpa using hname)]
  rw [AutoConf.definition, hfind]
  rfl

/-- What is defined for a symbol comes from its own line. -/
theorem AutoConf.lastOf_of_mem :
    lastOf (conf.symbols.flatMap WrittenSymbol.defines) sym.macroName =
      lastOf sym.defines sym.macroName := by
  rcases List.append_of_mem hsym with ⟨before, after, hsplit⟩
  have hdistinct := conf.distinct
  rw [hsplit, List.map_append, List.map_cons, List.nodup_append, List.nodup_cons] at hdistinct
  have hnone : ∀ others : List WrittenSymbol, (∀ other ∈ others, other.name ≠ sym.name) →
      lastOf (others.flatMap WrittenSymbol.defines) sym.macroName = none := by
    intro others hothers
    refine lastOf_eq_none.mpr fun m hm heq => ?_
    rcases List.mem_flatMap.mp hm with ⟨other, hother, hm⟩
    rcases WrittenSymbol.name_of_mem_defines hm with hname | hname
    · exact hothers other hother (List.append_cancel_left (hname.symm.trans heq))
    · rw [heq] at hname
      exact not_mem_macroName sym (by decide) hname
  have hbefore := hnone before fun other hother heq =>
    hdistinct.2.2 _ (List.mem_map_of_mem hother) _ (List.mem_cons_self ..) heq
  have hafter := hnone after fun other hother heq =>
    hdistinct.2.1.1 (heq ▸ List.mem_map_of_mem hother)
  rw [hsplit, List.flatMap_append, List.flatMap_cons, lastOf_append, lastOf_append, hbefore, hafter,
    Option.none_or, Option.or_none]

end Names

theorem AutoConf.definition_eq_none {conf : AutoConf} {name : Text}
    (h : ∀ sym ∈ conf.symbols, sym.macroName ≠ name) : conf.definition name = none := by
  have hfind : conf.symbols.find? (fun sym => sym.macroName = name) = none := by
    refine List.find?_eq_none.mpr fun sym hsym => ?_
    simpa using h sym hsym
  rw [AutoConf.definition, hfind]
  rfl

theorem translates_of_symbols {conf : AutoConf} (h : ∀ sym ∈ conf.symbols, sym.Translates) :
    Translates conf := by
  intro name
  rw [AutoConf.definitions_eq fun sym hsym => (h sym hsym).one_line]
  by_cases hname : ∃ sym ∈ conf.symbols, sym.macroName = name
  · rcases hname with ⟨sym, hsym, rfl⟩
    rw [AutoConf.lastOf_of_mem hsym, AutoConf.definition_of_mem hsym]
    exact (h sym hsym).definition
  · push Not at hname
    rw [AutoConf.definition_eq_none hname]
    refine lastOf_eq_none.mpr fun m hm heq => ?_
    rcases List.mem_flatMap.mp hm with ⟨sym, hsym, hm⟩
    exact hname sym hsym (((h sym hsym).only m hm).symm.trans heq)

/-- A value with the end of a line in it is in no definition. -/
theorem one_line_of_translates {conf : AutoConf} (h : Translates conf) {sym : WrittenSymbol}
    (hsym : sym ∈ conf.symbols) : ∀ line ∈ sym.lines, '\n' ∉ line := by
  intro line hline
  rcases List.mem_map.mp hline with ⟨value, hvalue, _⟩
  rw [Option.mem_toList] at hvalue
  refine newline_not_mem_lines hvalue (fun hmem => ?_) line hline
  rcases WrittenSymbol.mem_written hvalue hmem with hconst | ⟨hnewline, hdefinition⟩
  · exact absurd hconst (by decide)
  · have hlast := h sym.macroName
    rw [AutoConf.definition_of_mem hsym, hdefinition] at hlast
    exact newline_not_mem_lastOf hlast hnewline

theorem symbols_of_translates {conf : AutoConf} (h : Translates conf) {sym : WrittenSymbol}
    (hsym : sym ∈ conf.symbols) : sym.Translates := by
  have hdefinitions := AutoConf.definitions_eq fun sym hsym => one_line_of_translates h hsym
  constructor
  · exact one_line_of_translates h hsym
  · have hlast := h sym.macroName
    rw [hdefinitions, AutoConf.lastOf_of_mem hsym, AutoConf.definition_of_mem hsym] at hlast
    exact hlast
  · intro m hm
    rcases WrittenSymbol.name_of_mem_defines hm with hname | hequals
    · exact hname
    · -- a name that no symbol has
      have hother : ∀ other ∈ conf.symbols, other.macroName ≠ m.1 := by
        intro other _ heq
        rw [← heq] at hequals
        exact not_mem_macroName other (by decide) hequals
      have hnone := h m.1
      rw [hdefinitions, AutoConf.definition_eq_none hother] at hnone
      exact absurd rfl (lastOf_eq_none.mp hnone m (List.mem_flatMap.mpr ⟨sym, hsym, hm⟩))

/-- The configuration comes through to m4 exactly when the value of every symbol does. -/
theorem translates_iff (conf : AutoConf) : Translates conf ↔ ∀ sym ∈ conf.symbols, sym.Plain := by
  constructor
  · intro h sym hsym
    exact (translates_iff_plain sym).mp (symbols_of_translates h hsym)
  · intro h
    exact translates_of_symbols fun sym hsym => (translates_iff_plain sym).mpr (h sym hsym)

/-- `CONFIG_X=-5` has no definition. -/
theorem negative_not_translates : ¬ ∀ conf, Translates conf := by
  intro h
  have hconf := h {
    prompt := []
    now := []
    symbols := [{
      name := text "X"
      type := .int
      tristateValue := .no
      stringValue := text "-5"
      isName := List.all_iff_forall_prop.mp (by decide)
      valid := by decide
      unquoted := List.all_iff_forall_prop.mp (by decide) }]
    prompt_line := by decide
    now_line := by decide
    distinct := by decide }
  have hplain := (translates_iff_plain _).mp (symbols_of_translates hconf (List.mem_cons_self ..))
  exact hplain (List.prefix_append (text "-") (text "5"))

end Pbs.Kconfig.ConfigM4
