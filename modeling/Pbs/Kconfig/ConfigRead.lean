import Pbs.Kconfig.ConfigValues
import Pbs.Kconfig.ConfigWrite
import Pbs.Kconfig.SymFacts
import Pbs.Lib.CLines

/-!
# Reading the configuration

`conf_read_simple` for `S_DEF_USER`: it forgets what the user has set, reads the file line by
line, and sets `def[S_DEF_USER]` of the symbols that it finds there. A symbol that stands for a
value of a choice changes what is set for the choice. Every line that `conf_write` has written
for a symbol sets this symbol to the value in it (`confReadLine_symbol`).

The symbols with the type `S_OTHER`, which come up when `auto.conf` is read, are not part of
the model.
-/

namespace Pbs.Kconfig

open CLines (cutAt cutEnd fgetsLines)
open ConfigM4 (escape symStringValid isWordChar)

/-! ## State -/

/-- The warnings, with the symbol and the text that they name. -/
inductive ReadWarning where
  | reassigning (s : SymId)
  | invalidValue (p : Text) (s : SymId)
  | invalidString
  | unexpectedData
  | inconsistentChoice (s : SymId)
  | changesChoice (s : SymId)

/-- `changes` counts the calls of `sym_add_change_count`. -/
structure ReadState where
  user : UserValues
  warnings : List ReadWarning
  changes : ℕ

namespace ReadState

def warn (w : ReadWarning) (rs : ReadState) : ReadState :=
  { rs with warnings := rs.warnings ++ [w] }

/-- Set `def[def].tri` and the flag. -/
def setTri (s : SymId) (tri : Tristate) (rs : ReadState) : ReadState :=
  { rs with user := { rs.user with
      has := Function.update rs.user.has s true
      tri := Function.update rs.user.tri s tri } }

/-- Set `def[def].val` and the flag. -/
def setVal (s : SymId) (val : Text) (rs : ReadState) : ReadState :=
  { rs with user := { rs.user with
      has := Function.update rs.user.has s true
      val := Function.update rs.user.val s val } }

end ReadState

/-! ## Lines -/

/-- The loop of `conf_set_sym_val` behind the opening quote, up to the closing one. -/
def unescape : Text → Option Text
  | [] => none
  | '\x22' :: _ => some []
  | ['\\'] => none
  | '\\' :: c :: rest => (unescape rest).map (c :: ·)
  | c :: rest => (unescape rest).map (c :: ·)

/-- The value of a line: the end of the line is cut off. -/
def cutLine (p : Text) : Text :=
  if '\n' ∈ p then
    let p2 := cutEnd '\n' p
    if p2.getLast? = some '\r' then p2.dropLast else p2
  else p

section Read

variable (st : Setup) (isConst : SymId → Bool)

/-- The case of `S_BOOLEAN` in `conf_set_sym_val`. -/
def setBoolean (s : SymId) (p : Text) (rs : ReadState) : ReadState :=
  match p.head? with
  | some 'y' => rs.setTri s .yes
  | some 'n' => rs.setTri s .no
  | _ => rs.warn (.invalidValue p s)

/-- `conf_set_sym_val`. The second result is what it returns. -/
def confSetSymVal (s : SymId) (p : Text) (rs : ReadState) : ReadState × Bool :=
  match (st.sym s).type with
  | .tristate => (if p.head? = some 'm' then rs.setTri s .mod else setBoolean s p rs, false)
  | .boolean => (setBoolean s p rs, false)
  | .string =>
      match p with
      | '\x22' :: p =>
          match unescape p with
          | none => (rs.warn .invalidString, true)
          | some val => (rs.setVal s val, false)
      | _ => (rs, false)
  | .int | .hex =>
      if symStringValid (st.sym s).type p then (rs.setVal s p, false)
      else (rs.warn (.invalidValue p s), true)
  | .unknown | .other => (rs, false)

/-- `sym_find`. -/
def symFind (name : Text) : Option SymId :=
  if name = ['y'] then some symbolYes
  else if name = ['m'] then some symbolMod
  else if name = ['n'] then some symbolNo
  else st.symbols.find? fun s => (st.sym s).name = some name ∧ !isConst s

/-- What is set for a choice when one of its values is. -/
def setChoice (s c : SymId) (rs : ReadState) : ReadState :=
  let rs :=
    match rs.user.tri s with
    | .no => rs
    | .mod =>
        if rs.user.tri c = Tristate.yes then
          let rs := rs.warn (.inconsistentChoice s)
          { rs with user := { rs.user with has := Function.update rs.user.has c false } }
        else rs
    | .yes =>
        let rs := if rs.user.tri c ≠ Tristate.no then rs.warn (.changesChoice s) else rs
        { rs with user := { rs.user with choice := Function.update rs.user.choice c (some s) } }
  { rs with user := { rs.user with
      tri := Function.update rs.user.tri c (exprOr (rs.user.tri c) (rs.user.tri s)) } }

/-- From the label `setsym` on. -/
def setSym (s : SymId) (rs : ReadState) : Option ReadState :=
  if (st.sym s).choiceval then (st.choiceOf s).map fun c => setChoice s c rs else some rs

/-- `conf_warning` where the symbol has been set before. -/
def warnReassigning (s : SymId) (rs : ReadState) : ReadState :=
  if rs.user.has s then rs.warn (.reassigning s) else rs

/-- A line that says that a symbol is not set. -/
def readUnset (name : Text) (rs : ReadState) : Option ReadState :=
  match symFind st isConst name with
  | none => some { rs with changes := rs.changes + 1 }
  | some s =>
      let rs := warnReassigning s rs
      match (st.sym s).type with
      | .boolean | .tristate => setSym st s (rs.setTri s .no)
      | _ => setSym st s rs

/-- A line with a value. -/
def readValue (name p : Text) (rs : ReadState) : Option ReadState :=
  match symFind st isConst name with
  | none => some { rs with changes := rs.changes + 1 }
  | some s =>
      let (rs, failed) := confSetSymVal st s (cutLine p) (warnReassigning s rs)
      if failed then some rs else setSym st s rs

/-- The body of the loop of `conf_read_simple`. -/
def confReadLine (rs : ReadState) (line : Text) : Option ReadState :=
  match line with
  | '#' :: rest =>
      match ((text "CONFIG_").isPrefixOf? (rest.drop 1)).bind (cutAt ' ') with
      | none => some rs
      | some (name, p) =>
          if (text "is not set").isPrefixOf p then readUnset st isConst name rs else some rs
  | _ =>
      match (text "CONFIG_").isPrefixOf? line with
      | some rest =>
          match cutAt '=' rest with
          | none => some rs
          | some (name, p) => readValue st isConst name p rs
      | none =>
          if line.head? = some '\r' ∨ line.head? = some '\n' then some rs
          else some (rs.warn .unexpectedData)

/-- The symbols before anything is read: choices count as set. -/
def resetUser (user : UserValues) : UserValues where
  has s := if st.symbols.contains s then (st.sym s).choice else user.has s
  tri s := if st.symbols.contains s then .no else user.tri s
  val s := if st.symbols.contains s then [] else user.val s
  choice s := if st.symbols.contains s then none else user.choice s

/-- The loop of `conf_read_simple`. -/
def readLines (lines : List Text) (rs : ReadState) : Option ReadState :=
  lines.foldlM (confReadLine st isConst) rs

/-- `conf_read_simple`, where the file can be opened: what the user has set then, and the state
after the value of `modules_sym` is calculated. -/
def confReadSimple (fuel : ℕ) (file : Text) (cs : CalcState) : Option (ReadState × CalcState) := do
  let cs := cs.clearValid st
  let rs ← readLines st isConst (fgetsLines 1023 file) ⟨resetUser st st.user, [], 0⟩
  let (_, cs) ← calcModules (st.withUser rs.user) fuel cs
  return (rs, cs)

end Read

/-! ## Lines that are written -/

/-- What `conf_write_string` escapes is read back. -/
theorem unescape_escape (str rest : Text) : unescape (escape str ++ '\x22' :: rest) = some str := by
  induction str with
  | nil => rfl
  | cons c str ih =>
      rw [escape]
      by_cases hc : c = ConfigM4.doubleQuote ∨ c = '\\'
      · rw [if_pos hc]
        show (unescape (escape str ++ '\x22' :: rest)).map (c :: ·) = some (c :: str)
        rw [ih]
        rfl
      · rw [if_neg hc]
        rw [not_or] at hc
        have hplain : unescape (c :: (escape str ++ '\x22' :: rest)) =
            (unescape (escape str ++ '\x22' :: rest)).map (c :: ·) := by
          rw [unescape]
          · exact hc.1
          · intro h
            exact absurd h hc.2
          · intro _ _ h
            exact absurd h hc.2
        rw [List.cons_append, hplain, ih]
        rfl

theorem cutLine_append {p : Text} (hline : '\n' ∉ p) (hreturn : p.getLast? ≠ some '\r') :
    cutLine (p ++ ['\n']) = p := by
  unfold cutLine
  rw [if_pos (by simp), CLines.cutEnd_append hline, if_neg hreturn]

/-- What can stand in a heading. -/
def Quiet (prompt : Text) : Prop :=
  '\n' ∉ prompt ∧ prompt.length + 3 ≤ 1023 ∧ ¬ text "CONFIG_" <+: prompt

variable {st : Setup} {isConst : SymId → Bool} {v : Values} {rank : SymId → ℕ}

theorem isPrefixOf?_append (l l' : Text) : l.isPrefixOf? (l ++ l') = some l' :=
  List.isPrefixOf?_eq_some_iff_append_eq.mpr rfl

theorem config_eq : text "CONFIG_" = ['C', 'O', 'N', 'F', 'I', 'G', '_'] := by decide

/-- Comments are passed over. -/
theorem confReadLine_quiet {prompt : Text} (h : Quiet prompt) (rs : ReadState) :
    confReadLine st isConst rs (text "# " ++ prompt ++ text "\n") = some rs := by
  have hnone : (text "CONFIG_").isPrefixOf? (prompt ++ ['\n']) = none := by
    cases hp : (text "CONFIG_").isPrefixOf? (prompt ++ ['\n']) with
    | none => rfl
    | some rest =>
        have hbegins : text "CONFIG_" <+: prompt ++ ['\n'] :=
          ⟨rest, List.isPrefixOf?_eq_some_iff_append_eq.mp hp⟩
        rcases List.prefix_concat_iff.mp hbegins with heq | hbegins
        · have hlast : '\n' ∈ text "CONFIG_" := by
            rw [heq]
            simp
          exact absurd hlast (by decide)
        · exact absurd hbegins h.2.2
  show (match ((text "CONFIG_").isPrefixOf? (prompt ++ ['\n'])).bind (cutAt ' ') with
    | none => some rs
    | some (name, p) =>
        if (text "is not set").isPrefixOf p then readUnset st isConst name rs else some rs) =
          some rs
  rw [hnone]
  rfl

theorem confReadLine_empty (rs : ReadState) :
    confReadLine st isConst rs ['\n'] = some rs ∧
      confReadLine st isConst rs ['#', '\n'] = some rs :=
  ⟨rfl, rfl⟩

theorem confReadLine_unset {name : Text} (hname : ' ' ∉ name) (rs : ReadState) :
    confReadLine st isConst rs (text "# CONFIG_" ++ name ++ text " is not set\n") =
      readUnset st isConst name rs := by
  have hline : text "# CONFIG_" ++ name ++ text " is not set\n" =
      '#' :: ' ' :: (text "CONFIG_" ++ (name ++ ' ' :: text "is not set\n")) := by
    rw [List.append_assoc]
    rfl
  rw [hline, confReadLine, List.drop_succ_cons, List.drop_zero, isPrefixOf?_append,
    Option.bind_some, CLines.cutAt_append hname]
  exact if_pos (by decide)

theorem confReadLine_value {name : Text} (hname : '=' ∉ name) (p : Text) (rs : ReadState) :
    confReadLine st isConst rs (text "CONFIG_" ++ name ++ text "=" ++ p) =
      readValue st isConst name p rs := by
  have hline : text "CONFIG_" ++ name ++ text "=" ++ p = text "CONFIG_" ++ (name ++ '=' :: p) := by
    simp [text]
  have hbegins := isPrefixOf?_append (text "CONFIG_") (name ++ '=' :: p)
  rw [hline]
  unfold confReadLine
  split
  case h_1 rest heq =>
    rw [config_eq] at heq
    cases heq
  case h_2 =>
    rw [hbegins]
    simp only [CLines.cutAt_append hname]

/-- What the line of a symbol comes to: the value in it is set, unless it is no number where one
is needed. -/
def setTo (st : Setup) (s : SymId) (value : SymbolValue) (rs : ReadState) : Option ReadState :=
  let rs := warnReassigning s rs
  match (st.sym s).type with
  | .boolean | .tristate => setSym st s (rs.setTri s value.tri)
  | .string => setSym st s (rs.setVal s value.val)
  | .int | .hex =>
      if symStringValid (st.sym s).type value.val then setSym st s (rs.setVal s value.val)
      else some (rs.warn (.invalidValue value.val s))
  | .unknown | .other => some rs

/-- The names of symbols are found again. -/
structure Named (st : Setup) (isConst : SymId → Bool) (s : SymId) (name : Text) : Prop where
  eq : (st.sym s).name = some name
  word : ∀ c ∈ name, isWordChar c
  find : symFind st isConst name = some s

theorem Named.not_mem {s : SymId} {name : Text} (h : Named st isConst s name) {c : Char}
    (hc : isWordChar c = false) : c ∉ name := by
  intro hmem
  rw [h.word c hmem] at hc
  cases hc

theorem readUnset_symbol {s : SymId} {name : Text} (h : Named st isConst s name)
    (htype : (st.sym s).type = .boolean ∨ (st.sym s).type = .tristate) (rs : ReadState) :
    readUnset st isConst name rs = setSym st s ((warnReassigning s rs).setTri s .no) := by
  unfold readUnset
  rw [h.find]
  rcases htype with htype | htype <;> simp only [htype]

theorem readValue_symbol {s : SymId} {name p : Text} (h : Named st isConst s name)
    (hline : '\n' ∉ p) (hreturn : p.getLast? ≠ some '\r') (rs : ReadState) :
    readValue st isConst name (p ++ ['\n']) rs =
      if (confSetSymVal st s p (warnReassigning s rs)).2 then
        some (confSetSymVal st s p (warnReassigning s rs)).1
      else setSym st s (confSetSymVal st s p (warnReassigning s rs)).1 := by
  unfold readValue
  rw [h.find, cutLine_append hline hreturn]

/-- The value of a line stands behind its `=`. -/
theorem confReadLine_named {s : SymId} {name p : Text} (h : Named st isConst s name) (hp : '\n' ∉ p)
    (hlast : p.getLast? ≠ some '\r') (rs : ReadState) :
    confReadLine st isConst rs (text "CONFIG_" ++ name ++ text "=" ++ (p ++ ['\n'])) =
      if (confSetSymVal st s p (warnReassigning s rs)).2 then
        some (confSetSymVal st s p (warnReassigning s rs)).1
      else setSym st s (confSetSymVal st s p (warnReassigning s rs)).1 := by
  have hequals := h.not_mem (c := '=') (by decide)
  rw [confReadLine_value hequals, readValue_symbol h hp hlast]

theorem confReadLine_tristate {s : SymId} {name : Text} (h : Named st isConst s name)
    {value : SymbolValue} (htype : (st.sym s).type = .boolean ∨ (st.sym s).type = .tristate)
    (hbool : (st.sym s).type = .boolean → value.tri ≠ .mod) (rs : ReadState) :
    confReadLine st isConst rs (confWriteLine (st.sym s) value) =
      setSym st s ((warnReassigning s rs).setTri s value.tri) := by
  cases hvalue : value.tri with
  | no =>
      -- `n` has no value in the file, only a comment
      have hspace := h.not_mem (c := ' ') (by decide)
      have hwrite : confWriteLine (st.sym s) value = text "# CONFIG_" ++ name ++
          text " is not set\n" := by
        rcases htype with htype | htype <;> simp only [confWriteLine, htype, h.eq, hvalue] <;> rfl
      rw [hwrite, confReadLine_unset hspace, readUnset_symbol h htype]
  | mod =>
      have htristate : (st.sym s).type = .tristate :=
        htype.resolve_left fun hboolean => hbool hboolean hvalue
      have hwrite : confWriteLine (st.sym s) value =
          text "CONFIG_" ++ name ++ text "=" ++ (['m'] ++ ['\n']) := by
        simp only [confWriteLine, htristate, h.eq, hvalue]
        simp [text]
      rw [hwrite, confReadLine_named h (by decide) (by decide)]
      simp only [confSetSymVal, htristate]
      rfl
  | yes =>
      have hwrite : confWriteLine (st.sym s) value =
          text "CONFIG_" ++ name ++ text "=" ++ (['y'] ++ ['\n']) := by
        rcases htype with htype | htype <;> simp only [confWriteLine, htype, h.eq, hvalue] <;>
          simp [text]
      rw [hwrite, confReadLine_named h (by decide) (by decide)]
      rcases htype with htype | htype <;> simp only [confSetSymVal, htype] <;> rfl

theorem confReadLine_number {s : SymId} {name : Text} (h : Named st isConst s name)
    {value : SymbolValue} (htype : (st.sym s).type = .int ∨ (st.sym s).type = .hex)
    (hline : '\n' ∉ value.val) (hreturn : value.val.getLast? ≠ some '\r') (rs : ReadState) :
    confReadLine st isConst rs (confWriteLine (st.sym s) value) =
      if symStringValid (st.sym s).type value.val then
        setSym st s ((warnReassigning s rs).setVal s value.val)
      else some ((warnReassigning s rs).warn (.invalidValue value.val s)) := by
  have hwrite : confWriteLine (st.sym s) value =
      text "CONFIG_" ++ name ++ text "=" ++ (value.val ++ ['\n']) := by
    rcases htype with htype | htype <;> simp only [confWriteLine, htype, h.eq] <;> simp [text]
  rw [hwrite, confReadLine_named h hline hreturn]
  have hset : confSetSymVal st s value.val (warnReassigning s rs) =
      if symStringValid (st.sym s).type value.val then
        ((warnReassigning s rs).setVal s value.val, false)
      else ((warnReassigning s rs).warn (.invalidValue value.val s), true) := by
    rcases htype with htype | htype <;> simp only [confSetSymVal, htype]
  rw [hset]
  split <;> rfl

theorem confReadLine_string {s : SymId} {name : Text} (h : Named st isConst s name)
    {value : SymbolValue} (htype : (st.sym s).type = .string) (hline : '\n' ∉ value.val)
    (rs : ReadState) :
    confReadLine st isConst rs (confWriteLine (st.sym s) value) =
      setSym st s ((warnReassigning s rs).setVal s value.val) := by
  have hwrite : confWriteLine (st.sym s) value = text "CONFIG_" ++ name ++ text "=" ++
      (('\x22' :: (escape value.val ++ ['\x22'])) ++ ['\n']) := by
    simp only [confWriteLine, htype, h.eq, ConfigM4.confWriteString]
    simp [text]
  have hescape : '\n' ∉ escape value.val := by
    intro hmem
    rcases ConfigM4.mem_escape hmem with hmem | hmem
    · exact hline hmem
    · exact absurd hmem (by decide)
  rw [hwrite, confReadLine_named h]
  · have hset : confSetSymVal st s ('\x22' :: (escape value.val ++ ['\x22']))
        (warnReassigning s rs) =
        ((warnReassigning s rs).setVal s value.val, false) := by
      simp only [confSetSymVal, htype, unescape_escape]
    rw [hset]
    rfl
  · simp [hescape]
  · -- a carriage return in the text is followed by the closing quote
    rw [← List.cons_append, List.getLast?_concat]
    decide

/-- A line that `conf_write` has written is read back. -/
theorem confReadLine_symbol {s : SymId} {name : Text} (h : Named st isConst s name)
    (htype : Typed st s) {value : SymbolValue} (hline : '\n' ∉ value.val)
    (hreturn : (st.sym s).type = .int ∨ (st.sym s).type = .hex → value.val.getLast? ≠ some '\r')
    (hbool : (st.sym s).type = .boolean → value.tri ≠ .mod) (rs : ReadState) :
    confReadLine st isConst rs (confWriteLine (st.sym s) value) = setTo st s value rs := by
  unfold setTo
  cases htypes : (st.sym s).type with
  | boolean => exact confReadLine_tristate h (.inl htypes) hbool rs
  | tristate => exact confReadLine_tristate h (.inr htypes) hbool rs
  | int => rw [confReadLine_number h (.inl htypes) hline (hreturn (.inl htypes)), htypes]
  | hex => rw [confReadLine_number h (.inr htypes) hline (hreturn (.inr htypes)), htypes]
  | string => exact confReadLine_string h htypes hline rs
  | unknown => exact absurd htypes htype.1
  | other => exact absurd htypes htype.2

end Pbs.Kconfig
