import Pbs.Kconfig.ConfigRead
import Pbs.Kconfig.SymUser

/-!
# Saving and loading

A configuration that `conf_write` has written and `conf_read_simple` has read again: what the
user has set then is the value of every symbol that has a line (`Loaded`), and for a choice the
value that has been `y`. Each line keeps this for the symbols that have been read so far
(`setTo_loaded`), so it holds at the end of the file (`readLines_file`).
-/

namespace Pbs.Kconfig

open CLines (Fits fgetsLines)
open ConfigM4 (escape symStringValid)

variable {st : Setup} {isConst : SymId → Bool} {v : Values} {rank : SymId → ℕ}

/-! ## What is set by lines -/

/-- The value of a symbol is one that `conf_set_sym_val` takes. -/
def Recorded (st : Setup) (v : Values) (s : SymId) : Prop :=
  (st.sym s).type = .int ∨ (st.sym s).type = .hex → symStringValid (st.sym s).type (v.curr s).val

/-- `s` is a value of the choice `c`, and set. -/
def Elected (st : Setup) (v : Values) (c s : SymId) : Prop :=
  (st.sym s).choiceval ∧ st.choiceOf s = some c ∧ (v.curr s).tri = .yes

/-- What is set for a choice when the lines of the symbols in `done` have been read. -/
structure LoadedChoice (st : Setup) (v : Values) (done : List SymId) (user : UserValues)
    (c : SymId) : Prop where
  has : user.has c
  mod : user.tri c ≠ .mod
  yes : user.tri c = .yes ↔ ∃ s ∈ done, Elected st v c s
  chosen : ∀ s ∈ user.choice c, s ∈ done ∧ Elected st v c s
  found : user.tri c = .yes → user.choice c ≠ none

/-- What is set when the lines of the symbols in `done` have been read. -/
structure Loaded (st : Setup) (v : Values) (done : List SymId) (user : UserValues) : Prop where
  has : ∀ s ∈ st.symbols, (st.sym s).choice = false → (user.has s ↔ s ∈ done ∧ Recorded st v s)
  tri : ∀ s ∈ st.symbols, (st.sym s).type = .boolean ∨ (st.sym s).type = .tristate →
    (st.sym s).choice = false → user.has s → user.tri s = (v.curr s).tri
  val : ∀ s ∈ st.symbols, (st.sym s).type ≠ .boolean → (st.sym s).type ≠ .tristate →
    (st.sym s).choice = false → user.has s → user.val s = (v.curr s).val
  choice : ∀ c ∈ st.symbols, (st.sym c).choice → LoadedChoice st v done user c

/-- The line of one symbol. -/
theorem Loaded.step {done : List SymId} {user user' : UserValues} {s : SymId}
    (h : Loaded st v done user)
    (hother : ∀ t, (st.sym t).choice = false → t ≠ s →
      user'.has t = user.has t ∧ user'.tri t = user.tri t ∧ user'.val t = user.val t)
    (hhas : user'.has s ↔ Recorded st v s)
    (htri : (st.sym s).type = .boolean ∨ (st.sym s).type = .tristate → user'.has s →
      user'.tri s = (v.curr s).tri)
    (hval : (st.sym s).type ≠ .boolean → (st.sym s).type ≠ .tristate → user'.has s →
      user'.val s = (v.curr s).val)
    (hchoice : ∀ c ∈ st.symbols, (st.sym c).choice → LoadedChoice st v (s :: done) user' c) :
    Loaded st v (s :: done) user' where
  has t ht htchoice := by
    by_cases hts : t = s
    · subst hts
      rw [hhas]
      simp
    · rw [(hother t htchoice hts).1, h.has t ht htchoice, List.mem_cons, or_iff_right hts]
  tri t ht htype htchoice htset := by
    by_cases hts : t = s
    · subst hts
      exact htri htype htset
    · rw [(hother t htchoice hts).1] at htset
      rw [(hother t htchoice hts).2.1]
      exact h.tri t ht htype htchoice htset
  val t ht hbool htristate htchoice htset := by
    by_cases hts : t = s
    · subst hts
      exact hval hbool htristate htset
    · rw [(hother t htchoice hts).1] at htset
      rw [(hother t htchoice hts).2.2]
      exact h.val t ht hbool htristate htchoice htset
  choice := hchoice

/-- A symbol that is no choice value leaves the choices as they are. -/
theorem LoadedChoice.cons {done : List SymId} {user user' : UserValues} {s c : SymId}
    (h : LoadedChoice st v done user c) (hs : ¬ Elected st v c s) (hhas : user'.has c = user.has c)
    (htri : user'.tri c = user.tri c) (hchoice : user'.choice c = user.choice c) :
    LoadedChoice st v (s :: done) user' c where
  has := hhas.trans h.has
  mod := htri ▸ h.mod
  yes := by
    rw [htri, h.yes]
    constructor
    · rintro ⟨t, ht, helected⟩
      exact ⟨t, List.mem_cons_of_mem _ ht, helected⟩
    · rintro ⟨t, ht, helected⟩
      rcases List.mem_cons.mp ht with rfl | ht
      · exact absurd helected hs
      · exact ⟨t, ht, helected⟩
  chosen t ht := by
    rw [hchoice] at ht
    exact ⟨List.mem_cons_of_mem _ (h.chosen t ht).1, (h.chosen t ht).2⟩
  found hyes := by
    rw [htri] at hyes
    rw [hchoice]
    exact h.found hyes

theorem user_warnReassigning (s : SymId) (rs : ReadState) :
    (warnReassigning s rs).user = rs.user := by
  unfold warnReassigning
  split <;> rfl

/-- A symbol that has a line in the file when it is shown: only choices and symbols with
`SYMBOL_AUTO`, such as `modules_sym` and `UNAME_RELEASE`, never have one. -/
structure Written (st : Setup) (s : SymId) : Prop where
  mem : s ∈ st.symbols
  typed : Typed st s
  choice : (st.sym s).choice = false
  auto : st.auto s = false

/-- What `conf_write` can save, with the values `v`: every symbol that has a line has a menu and a
name that can be found, every line fits into the buffer of `conf_read_simple`, no heading looks like
a symbol, what the user has set is valid, symbols from the environment have no prompt, and choices
are boolean. -/
structure Saveable (st : Setup) (isConst : SymId → Bool) (menus : List WrittenMenu) (v : Values) :
    Prop where
  known : ∀ menu ∈ menus, ∀ s ∈ menu.sym, s ∈ st.symbols
  shown : ∀ s, Written st s → ∃ menu ∈ menus, menu.sym = some s
  heading : ∀ menu ∈ menus, ∀ prompt ∈ menu.prompt, Quiet prompt.1
  name : ∀ s, Written st s → ∃ name, Named st isConst s name
  line : ∀ s, Written st s →
    '\n' ∉ (v.curr s).val ∧ (confWriteLine (st.sym s) (v.curr s)).length ≤ 1023
  number : ∀ s, Written st s → (st.sym s).type = .int ∨ (st.sym s).type = .hex →
    (v.curr s).val.getLast? ≠ some '\r'
  user : ∀ s ∈ st.symbols, (st.sym s).type = .int ∨ (st.sym s).type = .hex → st.user.has s →
    symStringValid (st.sym s).type (st.user.val s)
  auto : ∀ s ∈ st.symbols, st.auto s → (st.sym s).prompts = []
  choices : BooleanChoices st
  value : ∀ s, (st.sym s).choiceval → st.auto s = false

/-- Only symbols that have a line are in the file. -/
theorem Writes.listed {menus : List WrittenMenu} {items : List Item} {done done' : SymId → Bool}
    (h : Writes st v menus done items done') (hsave : Saveable st isConst menus v) {s : SymId}
    (hs : .symbol s ∈ items) (htyped : Typed st s) : Written st s := by
  obtain ⟨hchoice, menu, hmenu, hsym⟩ := h.symbol s hs
  have hmem := hsave.known menu hmenu s hsym
  refine ⟨hmem, htyped, hchoice, ?_⟩
  cases hval : (st.sym s).choiceval with
  | true => exact hsave.value s hval
  | false => exact (((h.line s hchoice ⟨menu, hmenu, hsym⟩).plain hmem htyped hval).mp hs).1

section Lines

variable {menus : List WrittenMenu} {done : List SymId} {rs : ReadState} {s : SymId}

theorem not_elected_of_plain {c : SymId} (hval : (st.sym s).choiceval = false) :
    ¬ Elected st v c s :=
  fun h => absurd (h.1.symm.trans hval) (by decide)

theorem ne_of_choice {c : SymId} (hc : (st.sym c).choice)
    (hchoice : (st.sym s).choice = false) : c ≠ s := by
  rintro rfl
  exact absurd (hc.symm.trans hchoice) (by decide)

section Plain

variable (h : Loaded st v done rs.user) (hchoice : (st.sym s).choice = false)
  (hval : (st.sym s).choiceval = false)
include h hchoice hval

/-- The line of a boolean or tristate symbol that is no choice value. -/
theorem Loaded.setTri (htype : (st.sym s).type = .boolean ∨ (st.sym s).type = .tristate) :
    Loaded st v (s :: done) ((warnReassigning s rs).setTri s (v.curr s).tri).user := by
  have huser : ((warnReassigning s rs).setTri s (v.curr s).tri).user =
      { rs.user with
        has := Function.update rs.user.has s true
        tri := Function.update rs.user.tri s (v.curr s).tri } := by
    rw [ReadState.setTri, user_warnReassigning]
  rw [huser]
  apply h.step
  · intro t _ hts
    exact ⟨Function.update_of_ne hts .., Function.update_of_ne hts .., rfl⟩
  · refine iff_of_true (Function.update_self ..) ?_
    intro hnumber
    rcases htype with htype | htype <;> simp [htype] at hnumber
  · intro _ _
    exact Function.update_self ..
  · intro hbool htristate
    exact (htype.elim hbool htristate).elim
  · intro c hc hcchoice
    -- no choice elects the symbol, so what its values have set for it stays
    have hne := ne_of_choice hcchoice hchoice
    exact (h.choice c hc hcchoice).cons (not_elected_of_plain hval) (Function.update_of_ne hne ..)
      (Function.update_of_ne hne ..) rfl

/-- The line of a number or a string. -/
theorem Loaded.setVal (hrecorded : Recorded st v s) (hbool : (st.sym s).type ≠ .boolean)
    (htristate : (st.sym s).type ≠ .tristate) :
    Loaded st v (s :: done) ((warnReassigning s rs).setVal s (v.curr s).val).user := by
  have huser : ((warnReassigning s rs).setVal s (v.curr s).val).user =
      { rs.user with
        has := Function.update rs.user.has s true
        val := Function.update rs.user.val s (v.curr s).val } := by
    rw [ReadState.setVal, user_warnReassigning]
  rw [huser]
  apply h.step
  · intro t _ hts
    exact ⟨Function.update_of_ne hts .., rfl, Function.update_of_ne hts ..⟩
  · exact iff_of_true (Function.update_self ..) hrecorded
  · intro htype
    exact (htype.elim hbool htristate).elim
  · intro _ _ _
    exact Function.update_self ..
  · intro c hc hcchoice
    exact (h.choice c hc hcchoice).cons (not_elected_of_plain hval)
      (Function.update_of_ne (ne_of_choice hcchoice hchoice) ..) rfl rfl

omit hchoice in
/-- A line that is refused sets nothing. -/
theorem Loaded.refuse (hunset : rs.user.has s = false) (hnot : ¬ Recorded st v s) :
    Loaded st v (s :: done) (warnReassigning s rs).user := by
  rw [user_warnReassigning]
  apply h.step
  · exact fun t _ _ => ⟨rfl, rfl, rfl⟩
  · exact iff_of_false (by simp [hunset]) hnot
  · intro _ hset
    rw [hunset] at hset
    cases hset
  · intro _ _ hset
    rw [hunset] at hset
    cases hset
  · intro c hc hcchoice
    exact (h.choice c hc hcchoice).cons (not_elected_of_plain hval) rfl rfl rfl

/-- The line of a symbol that is no choice value. -/
theorem setTo_plain (htyped : Typed st s) (hold : rs.user.has s → Recorded st v s) :
    ∃ rs', setTo st s (v.curr s) rs = some rs' ∧ Loaded st v (s :: done) rs'.user := by
  have hsym : ∀ rs, setSym st s rs = some rs := fun rs => if_neg (by simp [hval])
  have hnumber : (st.sym s).type = .int ∨ (st.sym s).type = .hex →
      ∃ rs', (if symStringValid (st.sym s).type (v.curr s).val then
          setSym st s ((warnReassigning s rs).setVal s (v.curr s).val)
        else some ((warnReassigning s rs).warn (.invalidValue (v.curr s).val s))) = some rs' ∧
        Loaded st v (s :: done) rs'.user := by
    intro htype
    by_cases hvalid : symStringValid (st.sym s).type (v.curr s).val = true
    · rw [if_pos hvalid, hsym]
      refine ⟨_, rfl, h.setVal hchoice hval (fun _ => hvalid) ?_ ?_⟩ <;>
        rcases htype with htype | htype <;> simp [htype]
    · rw [if_neg hvalid]
      have hnotrecorded : ¬ Recorded st v s := fun hrecorded => hvalid (hrecorded htype)
      have hunset : rs.user.has s = false := by
        by_contra hset
        exact hnotrecorded (hold (by simpa using hset))
      exact ⟨_, rfl, h.refuse hval hunset hnotrecorded⟩
  unfold setTo
  cases htype : (st.sym s).type with
  | boolean => exact ⟨_, hsym _, h.setTri hchoice hval (.inl htype)⟩
  | tristate => exact ⟨_, hsym _, h.setTri hchoice hval (.inr htype)⟩
  | string =>
      refine ⟨_, hsym _, h.setVal hchoice hval ?_ (by simp [htype]) (by simp [htype])⟩
      intro hnumber
      simp [htype] at hnumber
  | int =>
      have hresult := hnumber (.inl htype)
      rw [htype] at hresult
      exact hresult
  | hex =>
      have hresult := hnumber (.inr htype)
      rw [htype] at hresult
      exact hresult
  | unknown => exact absurd htype htyped.1
  | other => exact absurd htype htyped.2

end Plain

/-- What a value of a choice that is set or not sets for the choice. -/
theorem user_setChoice {c : SymId} (hmod : rs.user.tri s ≠ .mod) :
    (setChoice s c rs).user =
      ⟨rs.user.has,
        Function.update rs.user.tri c (exprOr (rs.user.tri c) (rs.user.tri s)),
        rs.user.val,
        if rs.user.tri s = .yes then Function.update rs.user.choice c (some s)
          else rs.user.choice⟩ := by
  unfold setChoice
  cases htri : rs.user.tri s with
  | no => simp only [htri, reduceCtorEq, if_false]
  | mod => exact absurd htri hmod
  | yes =>
      simp only [if_true]
      split <;> simp only [ReadState.warn, htri]

/-- What the line of a value sets. -/
theorem user_setChoice_line {c : SymId} {tri : Tristate} (hne : c ≠ s) (hmod : tri ≠ .mod) :
    (setChoice s c ((warnReassigning s rs).setTri s tri)).user =
      ⟨Function.update rs.user.has s true,
        Function.update (Function.update rs.user.tri s tri) c (exprOr (rs.user.tri c) tri),
        rs.user.val,
        if tri = .yes then Function.update rs.user.choice c (some s) else rs.user.choice⟩ := by
  have huser : ((warnReassigning s rs).setTri s tri).user =
      ⟨Function.update rs.user.has s true, Function.update rs.user.tri s tri, rs.user.val,
        rs.user.choice⟩ := by
    rw [ReadState.setTri, user_warnReassigning]
  have htri : ((warnReassigning s rs).setTri s tri).user.tri s = tri := by
    rw [huser]
    exact Function.update_self ..
  have hold : ((warnReassigning s rs).setTri s tri).user.tri c = rs.user.tri c := by
    rw [huser]
    exact Function.update_of_ne hne ..
  have hmod' : ((warnReassigning s rs).setTri s tri).user.tri s ≠ .mod := by
    rw [htri]
    exact hmod
  rw [user_setChoice hmod', htri, hold, huser]

/-- The line of a value that is not set leaves the choices as they are, and so does any value for
the choices that it does not belong to. -/
theorem LoadedChoice.other {user' : UserValues} {c c' : SymId} {tri : Tristate}
    (h : LoadedChoice st v done rs.user c') (htri : (v.curr s).tri = tri)
    (hof : st.choiceOf s = some c) (hne : c' ≠ s) (hother : c' ≠ c ∨ tri = .no)
    (huser : user' = ⟨Function.update rs.user.has s true,
      Function.update (Function.update rs.user.tri s tri) c (exprOr (rs.user.tri c) tri),
      rs.user.val,
      if tri = .yes then Function.update rs.user.choice c (some s) else rs.user.choice⟩) :
    LoadedChoice st v (s :: done) user' c' := by
  subst huser
  apply h.cons
  · rintro ⟨_, hof', hyes⟩
    rcases hother with hother | rfl
    · exact hother (Option.some_inj.mp (hof'.symm.trans hof))
    · rw [htri] at hyes
      cases hyes
  · exact Function.update_of_ne hne ..
  · show Function.update (Function.update rs.user.tri s tri) c _ c' = rs.user.tri c'
    by_cases hsame : c' = c
    · subst hsame
      rw [Function.update_self, hother.resolve_left fun hne => hne rfl]
      cases rs.user.tri c' <;> rfl
    · rw [Function.update_of_ne hsame, Function.update_of_ne hne]
  · show (if tri = .yes then Function.update rs.user.choice c (some s) else rs.user.choice) c' = _
    rcases hother with hother | rfl
    · split
      · exact Function.update_of_ne hother ..
      · rfl
    · rfl

/-- The line of the value that is set. -/
theorem LoadedChoice.elected {user' : UserValues} {c : SymId} (h : LoadedChoice st v done rs.user c)
    (helected : Elected st v c s) (hne : c ≠ s)
    (huser : user' = ⟨Function.update rs.user.has s true,
      Function.update (Function.update rs.user.tri s .yes) c
        (exprOr (rs.user.tri c) .yes), rs.user.val,
      Function.update rs.user.choice c (some s)⟩) : LoadedChoice st v (s :: done) user' c := by
  have htri : user'.tri c = .yes := by
    rw [huser]
    show Function.update _ c _ c = _
    rw [Function.update_self]
    cases rs.user.tri c <;> rfl
  have hchoice : user'.choice c = some s := by
    rw [huser]
    exact Function.update_self ..
  constructor
  · rw [huser]
    exact (Function.update_of_ne hne ..).trans h.has
  · rw [htri]
    decide
  · exact iff_of_true htri ⟨s, List.mem_cons_self, helected⟩
  · intro d hd
    rw [hchoice] at hd
    obtain rfl : s = d := Option.some_inj.mp hd
    exact ⟨List.mem_cons_self, helected⟩
  · intro _
    rw [hchoice]
    exact Option.some_ne_none s

/-- The line of a choice value. -/
theorem setTo_value (h : Loaded st v done rs.user) {c : SymId} (htype : (st.sym s).type = .boolean)
    (hval : (st.sym s).choiceval) (hof : st.choiceOf s = some c) (hc : (st.sym c).choice)
    (hchoice : (st.sym s).choice = false) (hmod : (v.curr s).tri ≠ .mod) :
    ∃ rs', setTo st s (v.curr s) rs = some rs' ∧ Loaded st v (s :: done) rs'.user := by
  have hne : ∀ {t}, (st.sym t).choice → t ≠ s := fun ht => ne_of_choice ht hchoice
  refine ⟨setChoice s c ((warnReassigning s rs).setTri s (v.curr s).tri), ?_, ?_⟩
  · unfold setTo setSym
    simp only [htype, hof, if_pos hval]
    rfl
  · have huser : (setChoice s c ((warnReassigning s rs).setTri s (v.curr s).tri)).user = _ :=
      user_setChoice_line (hne hc) hmod
    generalize (setChoice s c ((warnReassigning s rs).setTri s (v.curr s).tri)).user =
      user' at huser
    apply h.step
    · intro t htchoice hts
      have htc : c ≠ t := ne_of_choice hc htchoice
      rw [huser]
      exact ⟨Function.update_of_ne hts ..,
        (Function.update_of_ne htc.symm ..).trans (Function.update_of_ne hts ..), rfl⟩
    · rw [huser]
      refine iff_of_true (Function.update_self ..) ?_
      intro hnumber
      simp [htype] at hnumber
    · intro _ _
      rw [huser]
      exact (Function.update_of_ne (hne hc).symm ..).trans (Function.update_self ..)
    · intro hbool
      exact absurd htype hbool
    · intro c' hc' hcchoice
      have hold := h.choice c' hc' hcchoice
      -- only the choice of the symbol may come to elect it
      by_cases hsame : c' = c
      · cases hvalue : (v.curr s).tri with
        | mod => exact absurd hvalue hmod
        | no => exact hold.other hvalue hof (hne hcchoice) (.inr rfl) (hvalue ▸ huser)
        | yes =>
            subst hsame
            rw [hvalue] at huser
            exact hold.elected ⟨hval, hof, hvalue⟩ (hne hcchoice) huser
      · exact hold.other rfl hof (hne hcchoice) (.inl hsame) huser

/-- The line of any symbol. -/
theorem setTo_loaded (hst : Resolved st) (hsave : Saveable st isConst menus v)
    (h : Loaded st v done rs.user) (hs : s ∈ st.symbols) (htyped : Typed st s)
    (hchoice : (st.sym s).choice = false)
    (hbool : (st.sym s).type = .boolean → (v.curr s).tri ≠ .mod) :
    ∃ rs', setTo st s (v.curr s) rs = some rs' ∧ Loaded st v (s :: done) rs'.user := by
  cases hval : (st.sym s).choiceval with
  | true =>
      obtain ⟨c, hof⟩ := Option.isSome_iff_exists.mp (hst.choiceOf s hval)
      obtain ⟨_, htype, _, hc⟩ := hsave.choices.value s hval
      exact setTo_value h htype hval hof (hc c hof).1 hchoice (hbool htype)
  | false => exact setTo_plain h hchoice hval htyped fun hset => ((h.has s hs hchoice).mp hset).2

end Lines

/-! ## The file -/

/-- A comment that fits into the buffer. -/
structure Comment (st : Setup) (isConst : SymId → Bool) (line : Text) : Prop where
  fits : Fits 1023 line
  skip : ∀ rs, confReadLine st isConst rs line = some rs

theorem comment_quiet {prompt : Text} (h : Quiet prompt) :
    Comment st isConst (text "# " ++ prompt ++ text "\n") where
  fits := by
    refine ⟨text "# " ++ prompt, rfl, ?_, ?_⟩
    · rw [List.mem_append, not_or]
      exact ⟨by decide, h.1⟩
    · have hlen : (text "# ").length = 2 := by decide
      rw [List.length_append, hlen]
      have := h.2.1
      omega
  skip := confReadLine_quiet h

theorem comment_empty : Comment st isConst (text "\n") :=
  ⟨⟨[], rfl, by decide, by decide⟩, fun rs => (confReadLine_empty rs).1⟩

theorem comment_mark : Comment st isConst (text "#\n") :=
  ⟨⟨['#'], rfl, by decide, by decide⟩, fun rs => (confReadLine_empty rs).2⟩

/-- The lines of a part. -/
def itemLines (st : Setup) (v : Values) : Item → List Text
  | .heading prompt => [text "\n", text "#\n", text "# " ++ prompt ++ text "\n", text "#\n"]
  | .symbol s => if confWriteLine (st.sym s) (v.curr s) = [] then []
      else [confWriteLine (st.sym s) (v.curr s)]

theorem flatten_itemLines (item : Item) : (itemLines st v item).flatten = item.text st v := by
  cases item with
  | heading prompt =>
      show text "\n" ++ (text "#\n" ++ (text "# " ++ prompt ++ text "\n" ++ (text "#\n" ++ []))) =
        text "\n#\n# " ++ prompt ++ text "\n#\n"
      simp [text]
  | symbol s =>
      show (if confWriteLine (st.sym s) (v.curr s) = [] then [] else _).flatten = confWriteLine _ _
      split
      case isTrue h => exact h.symm
      case isFalse => exact List.flatten_singleton

/-- The lines above the menus. -/
def fileHeadingLines (prompt : Text) (now : Option Text) : List Text :=
  text "#\n" ::
    (text "# " ++ text "Automatically generated make config: don't edit" ++ text "\n") ::
    (text "# " ++ prompt ++ text "\n") ::
    (now.toList.map (fun now => text "# " ++ now ++ text "\n") ++ [text "#\n"])

theorem flatten_fileHeadingLines (prompt : Text) (now : Option Text) :
    (fileHeadingLines prompt now).flatten = fileHeading prompt now := by
  unfold fileHeadingLines fileHeading
  cases now <;> simp [text]

theorem comment_fileHeading {prompt : Text} {now : Option Text} (hprompt : Quiet prompt)
    (hnow : ∀ now' ∈ now, Quiet now') :
    ∀ line ∈ fileHeadingLines prompt now, Comment st isConst line := by
  intro line hline
  have hauto : Quiet (text "Automatically generated make config: don't edit") := by
    refine ⟨by decide, by decide, ?_⟩
    rw [← List.isPrefixOf_iff_prefix]
    decide
  unfold fileHeadingLines at hline
  rw [List.mem_cons, List.mem_cons, List.mem_cons, List.mem_append, List.mem_map,
    List.mem_singleton] at hline
  rcases hline with rfl | rfl | rfl | ⟨now', hnow', rfl⟩ | rfl
  · exact comment_mark
  · exact comment_quiet hauto
  · exact comment_quiet hprompt
  · exact comment_quiet (hnow now' (Option.mem_toList.mp hnow'))
  · exact comment_mark

theorem readLines_comments {lines : List Text} (h : ∀ line ∈ lines, Comment st isConst line)
    (rs : ReadState) : readLines st isConst lines rs = some rs := by
  induction lines with
  | nil => rfl
  | cons line lines ih =>
      show (confReadLine st isConst rs line).bind (readLines st isConst lines) = some rs
      rw [(h line List.mem_cons_self).skip rs]
      exact ih fun line hline => h line (List.mem_cons_of_mem _ hline)

theorem readLines_append (lines lines' : List Text) (rs : ReadState) :
    readLines st isConst (lines ++ lines') rs =
      (readLines st isConst lines rs).bind (readLines st isConst lines') :=
  List.foldlM_append

/-- A symbol with a type has one line. -/
theorem confWriteLine_typed {s : SymId} {name : Text} (hname : Named st isConst s name)
    (htyped : Typed st s) {value : SymbolValue} (hval : '\n' ∉ value.val) :
    ∃ str, confWriteLine (st.sym s) value = str ++ ['\n'] ∧ '\n' ∉ str := by
  have hword : '\n' ∉ name := hname.not_mem (by decide)
  have hescape : '\n' ∉ escape value.val := by
    intro hmem
    rcases ConfigM4.mem_escape hmem with hmem | hmem
    · exact hval hmem
    · exact absurd hmem (by decide)
  have htri : (st.sym s).type = .boolean ∨ (st.sym s).type = .tristate →
      ∃ str, confWriteLine (st.sym s) value = str ++ ['\n'] ∧ '\n' ∉ str := by
    intro htype
    cases hvalue : value.tri with
    | no =>
        refine ⟨text "# CONFIG_" ++ name ++ text " is not set", ?_, by simp [text, hword]⟩
        rcases htype with htype | htype <;>
          simp only [confWriteLine, htype, hname.eq, hvalue, Option.getD_some] <;> simp [text]
    | mod =>
        refine ⟨text "CONFIG_" ++ name ++ text "=m", ?_, by simp [text, hword]⟩
        rcases htype with htype | htype <;>
          simp only [confWriteLine, htype, hname.eq, hvalue, Option.getD_some] <;> simp [text]
    | yes =>
        refine ⟨text "CONFIG_" ++ name ++ text "=y", ?_, by simp [text, hword]⟩
        rcases htype with htype | htype <;>
          simp only [confWriteLine, htype, hname.eq, hvalue, Option.getD_some] <;> simp [text]
  have hnumber : (st.sym s).type = .int ∨ (st.sym s).type = .hex →
      ∃ str, confWriteLine (st.sym s) value = str ++ ['\n'] ∧ '\n' ∉ str := by
    intro htype
    refine ⟨text "CONFIG_" ++ name ++ text "=" ++ value.val, ?_, by simp [text, hword, hval]⟩
    rcases htype with htype | htype <;>
      simp only [confWriteLine, htype, hname.eq, Option.getD_some] <;> simp [text]
  cases htype : (st.sym s).type with
  | boolean => exact htri (.inl htype)
  | tristate => exact htri (.inr htype)
  | int => exact hnumber (.inl htype)
  | hex => exact hnumber (.inr htype)
  | string =>
      refine ⟨text "CONFIG_" ++ name ++ text "=" ++
        '\x22' :: (escape value.val ++ ['\x22']), ?_, ?_⟩
      · simp only [confWriteLine, htype, hname.eq, Option.getD_some, ConfigM4.confWriteString]
        simp [text]
      · simp [text, hword, hescape]
  | unknown => exact absurd htype htyped.1
  | other => exact absurd htype htyped.2

theorem confWriteLine_untyped {s : SymId} (h : ¬ Typed st s) (value : SymbolValue) :
    confWriteLine (st.sym s) value = [] := by
  unfold Typed at h
  unfold confWriteLine
  revert h
  cases (st.sym s).type <;> simp

section Items

variable {menus : List WrittenMenu} (hst : Resolved st) (hsave : Saveable st isConst menus v)
  (hbool : ∀ s ∈ st.symbols, (st.sym s).type = .boolean → (v.curr s).tri ≠ .mod)
include hst hsave hbool

/-- The lines of one part. -/
theorem readLines_item {item : Item} {done : List SymId} {rs : ReadState}
    (hprompt : ∀ prompt, item = .heading prompt → Quiet prompt)
    (hsym : ∀ s, item = .symbol s → Typed st s → Written st s)
    (h : Loaded st v done rs.user) :
    ∃ rs' done', readLines st isConst (itemLines st v item) rs = some rs' ∧
      Loaded st v done' rs'.user ∧
      (∀ line ∈ itemLines st v item, Fits 1023 line) ∧
      ∀ s, s ∈ done' ↔ s ∈ done ∨ (item = .symbol s ∧ Typed st s) := by
  cases item with
  | heading prompt =>
      have hcomments : ∀ line ∈ itemLines st v (.heading prompt), Comment st isConst line := by
        intro line hline
        have hline : line = text "\n" ∨ line = text "#\n" ∨
            line = text "# " ++ prompt ++ text "\n" ∨ line = text "#\n" := by
          simpa [itemLines] using hline
        rcases hline with rfl | rfl | rfl | rfl
        · exact comment_empty
        · exact comment_mark
        · exact comment_quiet (hprompt prompt rfl)
        · exact comment_mark
      refine ⟨rs, done, readLines_comments hcomments rs, h,
        fun line hline => (hcomments line hline).fits, ?_⟩
      intro s
      simp
  | symbol s =>
      by_cases htyped : Typed st s
      · have hlisted := hsym s rfl htyped
        have hs := hlisted.mem
        have hchoice := hlisted.choice
        obtain ⟨name, hname⟩ := hsave.name s hlisted
        obtain ⟨hval, hlen⟩ := hsave.line s hlisted
        obtain ⟨str, hline, hstr⟩ := confWriteLine_typed hname htyped hval
        obtain ⟨rs', hset, hloaded⟩ := setTo_loaded hst hsave h hs htyped hchoice (hbool s hs)
        have hlines : itemLines st v (.symbol s) = [confWriteLine (st.sym s) (v.curr s)] := by
          apply if_neg
          rw [hline]
          exact List.append_ne_nil_of_right_ne_nil _ (by simp)
        rw [hlines]
        -- a line that fits the buffer is read as one
        refine ⟨rs', s :: done, ?_, hloaded, ?_, ?_⟩
        · show (confReadLine st isConst rs _).bind some = some rs'
          rw [confReadLine_symbol hname htyped hval (hsave.number s hlisted) (hbool s hs), hset]
          rfl
        · intro line hmem
          rw [List.mem_singleton.mp hmem]
          refine ⟨str, hline, hstr, ?_⟩
          rw [hline, List.length_append, List.length_singleton] at hlen
          omega
        · intro t
          have hother : Item.symbol s = .symbol t ↔ t = s := by
            rw [Item.symbol.injEq]
            exact eq_comm
          rw [List.mem_cons, hother, or_comm]
          constructor
          · rintro (ht | rfl)
            · exact .inl ht
            · exact .inr ⟨rfl, htyped⟩
          · rintro (ht | ⟨rfl, _⟩)
            · exact .inl ht
            · exact .inr rfl
      · have hlines : itemLines st v (.symbol s) = [] := if_pos (confWriteLine_untyped htyped _)
        rw [hlines]
        refine ⟨rs, done, rfl, h, fun line hline => (List.not_mem_nil hline).elim, ?_⟩
        intro t
        constructor
        · exact .inl
        · rintro (ht | ⟨heq, ht⟩)
          · exact ht
          · cases heq
            exact absurd ht htyped

/-- The lines of all parts. -/
theorem readLines_items {items : List Item} {done : List SymId} {rs : ReadState}
    (hprompt : ∀ prompt, .heading prompt ∈ items → Quiet prompt)
    (hsym : ∀ s, .symbol s ∈ items → Typed st s → Written st s)
    (h : Loaded st v done rs.user) :
    ∃ rs' done', readLines st isConst (items.flatMap (itemLines st v)) rs = some rs' ∧
      Loaded st v done' rs'.user ∧ (∀ line ∈ items.flatMap (itemLines st v), Fits 1023 line) ∧
      ∀ s, s ∈ done' ↔ s ∈ done ∨ (.symbol s ∈ items ∧ Typed st s) := by
  induction items generalizing done rs with
  | nil =>
      refine ⟨rs, done, rfl, h, fun line hline => (List.not_mem_nil hline).elim, ?_⟩
      simp
  | cons item items ih =>
      obtain ⟨rs', done', hrun, hloaded, hfits, hdone⟩ := readLines_item hst hsave hbool
        (fun prompt heq => hprompt prompt (heq ▸ List.mem_cons_self))
        (fun s heq => hsym s (heq ▸ List.mem_cons_self)) h
      obtain ⟨rs'', done'', hrun', hloaded', hfits', hdone'⟩ := ih
        (fun prompt hmem => hprompt prompt (List.mem_cons_of_mem _ hmem))
        (fun s hmem => hsym s (List.mem_cons_of_mem _ hmem)) hloaded
      refine ⟨rs'', done'', ?_, hloaded', ?_, ?_⟩
      · rw [List.flatMap_cons, readLines_append, hrun]
        exact hrun'
      · intro line hline
        rw [List.flatMap_cons] at hline
        exact (List.mem_append.mp hline).elim (hfits line) (hfits' line)
      · intro s
        rw [hdone', hdone, List.mem_cons, or_and_right, or_assoc, eq_comm]

end Items

/-! ## What is read back -/

/-- Before the first line. -/
theorem loaded_resetUser (st : Setup) (v : Values) (user : UserValues) :
    Loaded st v [] (resetUser st user) := by
  have hhas : ∀ s ∈ st.symbols, (resetUser st user).has s = (st.sym s).choice := by
    intro s hs
    exact if_pos (List.elem_eq_true_of_mem hs)
  have hunset : ∀ s ∈ st.symbols, (st.sym s).choice = false → ¬ (resetUser st user).has s := by
    intro s hs hchoice hset
    rw [hhas s hs, hchoice] at hset
    cases hset
  constructor
  · intro s hs hchoice
    exact iff_of_false (hunset s hs hchoice) fun h => List.not_mem_nil h.1
  · intro s hs _ hchoice hset
    exact absurd hset (hunset s hs hchoice)
  · intro s hs _ _ hchoice hset
    exact absurd hset (hunset s hs hchoice)
  · intro c hc hchoice
    have htri : (resetUser st user).tri c = .no := if_pos (List.elem_eq_true_of_mem hc)
    have hnone : (resetUser st user).choice c = none := if_pos (List.elem_eq_true_of_mem hc)
    constructor
    · rw [hhas c hc, hchoice]
    · rw [htri]
      decide
    · rw [htri]
      refine iff_of_false (by decide) ?_
      rintro ⟨s, hs, _⟩
      exact List.not_mem_nil hs
    · rw [hnone]
      exact fun s hs => absurd hs (Option.not_mem_none s)
    · rw [htri]
      exact fun hyes => absurd hyes (by decide)

/-- What the user has set, after a file that `conf_write` has written has been read: what the
symbols with a line had. -/
theorem readLines_file (hst : Resolved st) {menus : List WrittenMenu}
    (hsave : Saveable st isConst menus v)
    (hbool : ∀ s ∈ st.symbols, (st.sym s).type = .boolean → (v.curr s).tri ≠ .mod) {prompt : Text}
    {now : Option Text} (hprompt : Quiet prompt) (hnow : ∀ now' ∈ now, Quiet now')
    {items : List Item} {done done' : SymId → Bool} (hwrites : Writes st v menus done items done')
    (user : UserValues) :
    ∃ rs read, readLines st isConst
        (fgetsLines 1023 (fileHeading prompt now ++ items.flatMap (Item.text st v)))
        ⟨resetUser st user, [], 0⟩ = some rs ∧
      Loaded st v read rs.user ∧ ∀ s, s ∈ read ↔ .symbol s ∈ items ∧ Typed st s := by
  have hheading : ∀ line ∈ fileHeadingLines prompt now, Comment st isConst line :=
    comment_fileHeading hprompt hnow
  have hprompts : ∀ prompt, .heading prompt ∈ items → Quiet prompt := by
    intro prompt hmem
    obtain ⟨menu, hmenu, visible, hp⟩ := hwrites.heading prompt hmem
    exact hsave.heading menu hmenu _ hp
  have hsyms : ∀ s, .symbol s ∈ items → Typed st s → Written st s :=
    fun s hmem htyped => hwrites.listed hsave hmem htyped
  have hstart : Loaded st v [] (ReadState.user ⟨resetUser st user, [], 0⟩) :=
    loaded_resetUser st v user
  obtain ⟨rs, read, hrun, hloaded, hfits, hread⟩ :=
    readLines_items hst hsave hbool hprompts hsyms hstart
  have hfile : fileHeading prompt now ++ items.flatMap (Item.text st v) =
      (fileHeadingLines prompt now ++ items.flatMap (itemLines st v)).flatten := by
    rw [List.flatten_append, flatten_fileHeadingLines, List.flatMap_def, List.flatMap_def,
      List.flatten_flatten, List.map_map]
    congr 2
    exact List.map_congr_left fun item _ => (flatten_itemLines item).symm
  have hlines : ∀ line ∈ fileHeadingLines prompt now ++ items.flatMap (itemLines st v),
      Fits 1023 line := by
    intro line hline
    rcases List.mem_append.mp hline with hline | hline
    · exact (hheading line hline).fits
    · exact hfits line hline
  refine ⟨rs, read, ?_, hloaded, ?_⟩
  · rw [hfile, CLines.fgetsLines_flatten hlines, readLines_append, readLines_comments hheading]
    exact hrun
  · intro s
    rw [hread, or_iff_right (List.not_mem_nil)]

end Pbs.Kconfig
