import Pbs.Kconfig.ConfigM4
import Pbs.Kconfig.SymFlags

/-!
# Writing the configuration

`conf_write` walks over the menus and writes a line for every symbol with `SYMBOL_WRITE`, which
it clears. The values are calculated on the way, so what is in the file depends on flags that
change meanwhile; `confWriteMenus_spec` says which symbols have a line.
-/

namespace Pbs.Kconfig

open ConfigM4 (escape confWriteString)

/-! ## `conf_write` -/

/-- What `conf_write` looks at in a menu. The prompt is a text with a condition. -/
structure WrittenMenu where
  sym : Option SymId
  prompt : Option (Text × Option Expr)
  visibility : Option Expr

/-- `conf_write_symbol` with `write_no`. -/
def confWriteLine (sym : Symbol) (value : SymbolValue) : Text :=
  let name := sym.name.getD (text "(null)")
  match sym.type with
  | .boolean | .tristate =>
      match value.tri with
      | .no => text "# CONFIG_" ++ name ++ text " is not set\n"
      | .mod => text "CONFIG_" ++ name ++ text "=m\n"
      | .yes => text "CONFIG_" ++ name ++ text "=y\n"
  | .string => confWriteString name value.val
  | .hex | .int => text "CONFIG_" ++ name ++ text "=" ++ value.val ++ text "\n"
  | .other | .unknown => []

/-- The lines above the symbols of a menu. -/
def menuHeading (prompt : Text) : Text := text "\n#\n# " ++ prompt ++ text "\n#\n"

/-- The first lines of the file. `now` is the time, unless `KCONFIG_NOTIMESTAMP` is set. -/
def fileHeading (prompt : Text) (now : Option Text) : Text :=
  text "#\n# Automatically generated make config: don't edit\n# " ++ prompt ++ text "\n" ++
    (match now with
      | some now => text "# " ++ now ++ text "\n"
      | none => []) ++
    text "#\n"

section Write

variable (st : Setup) (value : SymId → CalcM Unit)

/-- `menu_is_visible` of a menu without a symbol. -/
def menuIsVisible (menu : WrittenMenu) : CalcM Bool :=
  match menu.prompt with
  | none => return false
  | some (_, visible) => do
      let visibility ← calcCondition st value menu.visibility
      if visibility = .no then return false
      else do
        let tri ← calcCondition st value visible
        return tri ≠ .no

/-- The body of the loop of `conf_write`. -/
def confWriteMenu (menu : WrittenMenu) : CalcM Text :=
  match menu.sym with
  | none => do
      let visible ← menuIsVisible st value menu
      return if visible then (menu.prompt.map fun prompt => menuHeading prompt.1).getD [] else []
  | some s =>
      if (st.sym s).choice then return []
      else do
        value s
        let cs ← get
        if cs.write s then do
          modify (·.setWrite s false)
          return confWriteLine (st.sym s) (cs.curr s)
        else return []

/-- The loop. -/
def confWriteMenus : List WrittenMenu → CalcM Text
  | [] => return []
  | menu :: rest => do
      let str ← confWriteMenu st value menu
      let str' ← confWriteMenus rest
      return str ++ str'

end Write

theorem confWriteMenu_choice {st : Setup} {value : SymId → CalcM Unit}
    {menu : WrittenMenu} {s : SymId}
    (hsym : menu.sym = some s) (hs : (st.sym s).choice) (cs : CalcState) :
    confWriteMenu st value menu cs = some ([], cs) := by
  unfold confWriteMenu
  rw [hsym]
  exact congrFun (if_pos hs) cs

/-- A symbol loses its flag when it is written. -/
theorem confWriteMenu_symbol {st : Setup} {value : SymId → CalcM Unit}
    {menu : WrittenMenu} {s : SymId}
    (hsym : menu.sym = some s) (hs : ¬ (st.sym s).choice) {cs cs' : CalcState}
    (hrun : value s cs = some ((), cs')) :
    confWriteMenu st value menu cs =
      some (if cs'.write s then (confWriteLine (st.sym s) (cs'.curr s), cs'.setWrite s false)
        else ([], cs')) := by
  unfold confWriteMenu
  rw [hsym]
  refine (congrFun (if_neg hs) cs).trans ?_
  show (value s cs).bind _ = _
  rw [hrun]
  show (if cs'.write s = true then _ else _ : CalcM Text) cs' = _
  split <;> rfl

/-- The text that `conf_write` writes. `changed` is `conf_get_changed`. -/
def confWrite (st : Setup) (fuel : ℕ) (changed : Bool) (prompt : Text) (now : Option Text)
    (menus : List WrittenMenu) : CalcM Text := do
  if changed then return fileHeading prompt now ++
    (← confWriteMenus st (symCalcValue st fuel) menus)
  else do
    symClearAllValid st fuel
    return fileHeading prompt now ++ (← confWriteMenus st (symCalcValue st fuel) menus)

/-- What is written for a symbol is the line that goes into `auto.conf`, which has no others. -/
theorem confWriteLine_eq (sym : ConfigM4.WrittenSymbol) (other : Symbol)
    (hname : other.name = some sym.name) (htype : other.type = sym.type) :
    confWriteLine other ⟨sym.stringValue, sym.tristateValue⟩ =
      ConfigM4.confWriteSymbol sym true := by
  unfold confWriteLine ConfigM4.confWriteSymbol
  rw [hname, htype]
  cases sym.type <;> cases sym.tristateValue <;> simp

/-! ## What is written -/

/-- The parts of the file below its heading. -/
inductive Item where
  | heading (prompt : Text)
  | symbol (s : SymId)

/-- The text of a part. -/
def Item.text (st : Setup) (v : Values) : Item → Text
  | .heading prompt => menuHeading prompt
  | .symbol s => confWriteLine (st.sym s) (v.curr s)

/-- Whether a symbol has a line, as far as its own fields decide it, where the symbols in `done`
have had theirs: a choice value that is visible has one when the choice has selected a value. -/
structure HasLine (st : Setup) (v : Values) (done : SymId → Bool) (s : SymId)
    (line : Prop) : Prop where
  plain : s ∈ st.symbols → Typed st s → (st.sym s).choiceval = false →
    (line ↔ st.auto s = false ∧ done s = false ∧ writeValue st v.curr s = true)
  value : s ∈ st.symbols → Typed st s → (st.sym s).choiceval → st.auto s = false → done s = false →
    visibleValue st v.curr s ≠ .no → ∀ c ∈ st.choiceOf s, c ∈ st.symbols →
      (st.sym c).choiceval = false → v.choice c ≠ none → (∃ values ∈ st.values c, s ∈ values) → line

section Spec

variable {st : Setup} {v : Values} {rank : SymId → ℕ} {done : SymId → Bool} {cs cs' : CalcState}

/-- The flag of a symbol that has its value. -/
theorem hasLine_write (hch : Choices st rank) (h : Sound (st.withAuto done) v cs) {s : SymId}
    (hs : cs.valid s) : HasLine st v done s (cs.write s = true) where
  plain hmem htype hval := by
    rw [(h.known s hs).write htype hval]
    show (!(st.auto s || done s) && writeValue st v.curr s) = true ↔ _
    simp [and_assoc]
  value hmem htype hval hauto hdone hvis c hc hcmem hcval hchosen := by
    rintro ⟨values, hvalues, hsv⟩
    -- the choice stands in the prompts, so it is calculated, too
    obtain ⟨prop, hprop⟩ := exists_prompt hvis
    have hcvalid : cs.valid c := by
      apply (h.flags s hs).prompts hmem htype c
      exact List.mem_flatMap.mpr ⟨prop, hprop, ((hch.choice s hval c hc).2 prop hprop).1⟩
    apply (h.flags c hcvalid).values hcmem hcval hchosen values hvalues s hsv hval ?_ hvis
    show (st.auto s || done s) = false
    rw [hauto, hdone]
    rfl

/-- What some menus add to the file. -/
structure Writes (st : Setup) (v : Values) (menus : List WrittenMenu) (done : SymId → Bool)
    (items : List Item) (done' : SymId → Bool) : Prop where
  heading : ∀ prompt, .heading prompt ∈ items →
    ∃ menu ∈ menus, ∃ visible, menu.prompt = some (prompt, visible)
  symbol : ∀ s, .symbol s ∈ items → (st.sym s).choice = false ∧ ∃ menu ∈ menus, menu.sym = some s
  added : ∀ s, done' s = true ↔ done s = true ∨ .symbol s ∈ items
  line : ∀ s, (st.sym s).choice = false → (∃ menu ∈ menus, menu.sym = some s) →
    HasLine st v done s (.symbol s ∈ items)

theorem Writes.append {menus menus' : List WrittenMenu} {items items' : List Item}
    {done' done'' : SymId → Bool} (h : Writes st v menus done items done')
    (h' : Writes st v menus' done' items' done'') :
    Writes st v (menus ++ menus') done (items ++ items') done'' where
  heading prompt hp := by
    rcases List.mem_append.mp hp with hp | hp
    · obtain ⟨menu, hmenu, hprompt⟩ := h.heading prompt hp
      exact ⟨menu, List.mem_append_left _ hmenu, hprompt⟩
    · obtain ⟨menu, hmenu, hprompt⟩ := h'.heading prompt hp
      exact ⟨menu, List.mem_append_right _ hmenu, hprompt⟩
  symbol s hs := by
    rcases List.mem_append.mp hs with hs | hs
    · obtain ⟨hchoice, menu, hmenu, hsym⟩ := h.symbol s hs
      exact ⟨hchoice, menu, List.mem_append_left _ hmenu, hsym⟩
    · obtain ⟨hchoice, menu, hmenu, hsym⟩ := h'.symbol s hs
      exact ⟨hchoice, menu, List.mem_append_right _ hmenu, hsym⟩
  added s := by
    rw [h'.added, h.added, List.mem_append, or_assoc]
  line s hchoice := by
    rintro ⟨menu, hmenu, hsym⟩
    have hmono : done s = true → done' s = true := fun hs => (h.added s).mpr (.inl hs)
    by_cases hfirst : ∃ menu ∈ menus, menu.sym = some s
    · have hline := h.line s hchoice hfirst
      constructor
      · intro hmem htype hval
        rw [List.mem_append, hline.plain hmem htype hval]
        constructor
        · rintro (hs | hs)
          · exact hs
          · -- a second line would need a flag that has been cleared
            have hcond := ((h'.line s hchoice (h'.symbol s hs).2).plain hmem htype hval).mp hs
            refine ⟨hcond.1, ?_, hcond.2.2⟩
            by_contra hdone
            exact absurd (hmono (by simpa using hdone)) (by simp [hcond.2.1])
        · exact .inl
      · intro hmem htype hval hauto hdone hvis c hc hcmem hcval hchosen hvalues
        exact List.mem_append_left _
          (hline.value hmem htype hval hauto hdone hvis c hc hcmem hcval hchosen hvalues)
    · have hnot : Item.symbol s ∉ items := fun hs => hfirst (h.symbol s hs).2
      have hsecond : ∃ menu ∈ menus', menu.sym = some s := by
        rcases List.mem_append.mp hmenu with hmenu | hmenu
        · exact absurd ⟨menu, hmenu, hsym⟩ hfirst
        · exact ⟨menu, hmenu, hsym⟩
      have hsame : done' s = done s := by
        rw [Bool.eq_iff_iff, h.added]
        exact or_iff_left hnot
      have hline := h'.line s hchoice hsecond
      constructor
      · intro hmem htype hval
        rw [List.mem_append, or_iff_right hnot, hline.plain hmem htype hval, hsame]
      · intro hmem htype hval hauto hdone hvis c hc hcmem hcval hchosen hvalues
        exact List.mem_append_right _
          (hline.value hmem htype hval hauto
            (hsame.trans hdone) hvis c hc hcmem hcval hchosen hvalues)

/-- What holds while the file is written. The symbols in `done` have had their lines. -/
structure Writing (st : Setup) (v : Values) (done : SymId → Bool) (cs : CalcState) : Prop where
  sound : Sound (st.withAuto done) v cs
  kept : Kept done cs
  modules : ∀ m ∈ st.modulesSym, cs.valid m

def writing (st : Setup) (v : Values) (done : SymId → Bool) : StateSpec.Regime CalcState where
  inv := Writing st v done
  step _ _ := True
  stuck := False
  refl _ := trivial
  trans _ _ := trivial

section Run

variable (hst : Resolved st) (hord : Ordered st rank) (hch : Choices st rank) (hv : Solves st v)
include hst hord hch hv

theorem symCalcValue_writing (s : SymId) :
    (writing st v done).Gives (fun _ => True) (symCalcValue st st.symbols.length s) fun _ cs =>
      cs.valid s := by
  intro cs h _
  obtain ⟨cs', hrun, hsound, hkept, hs, hmono⟩ := symCalcValue_done hst hord hch hv h.sound h.kept s
  rw [hrun]
  exact ⟨⟨hsound, hkept, fun m hm => hmono m (h.modules m hm)⟩, trivial, hs⟩

theorem menuIsVisible_writing (menu : WrittenMenu) :
    (writing st v done).Runs (menuIsVisible st (symCalcValue st st.symbols.length) menu) := by
  have hvalue : ∀ s, (writing st v done).Runs (symCalcValue st st.symbols.length s) := fun s =>
    (symCalcValue_writing hst hord hch hv s).of_post fun _ _ _ _ => trivial
  unfold menuIsVisible
  cases menu.prompt with
  | none => exact StateSpec.Regime.runs_pure _
  | some prompt =>
      apply (calcCondition_runs hvalue menu.visibility).bind
      intro visibility
      apply StateSpec.Regime.runs_ite (StateSpec.Regime.runs_pure _)
      apply (calcCondition_runs hvalue prompt.2).bind
      intro tri
      exact StateSpec.Regime.runs_pure _

/-- A menu without a symbol. -/
theorem confWriteMenu_none_spec {menu : WrittenMenu} (hsym : menu.sym = none)
    (h : Writing st v done cs) :
    ∃ items cs', confWriteMenu st (symCalcValue st st.symbols.length) menu cs =
        some (items.flatMap (Item.text st v), cs') ∧
      Writing st v done cs' ∧ Writes st v [menu] done items done := by
  unfold confWriteMenu
  rw [hsym]
  obtain ⟨visible, cs', hrun, hinv, _⟩ :=
    (menuIsVisible_writing hst hord hch hv menu).exists_run (fun h => h) h trivial
  refine ⟨if visible then (menu.prompt.map fun prompt => Item.heading prompt.1).toList else [],
    cs', ?_, hinv, ?_⟩
  · show (menuIsVisible _ _ _ _).bind _ = _
    rw [hrun]
    cases visible <;> cases menu.prompt <;> simp [Item.text] <;> rfl
  · constructor
    · intro prompt hp
      cases visible <;> cases hprompt : menu.prompt <;> simp [hprompt] at hp
      rw [hp]
      exact ⟨menu, List.mem_singleton.mpr rfl, _, hprompt⟩
    · intro s hs
      cases visible <;> cases hprompt : menu.prompt <;> simp [hprompt] at hs
    · intro s
      cases visible <;> cases menu.prompt <;> simp
    · rintro s _ ⟨_, hmenu, hs⟩
      rw [List.mem_singleton.mp hmenu, hsym] at hs
      cases hs

/-- A symbol that is no choice. It has a line if it has not had one, and is to be written. -/
theorem confWriteMenu_symbol_spec {menu : WrittenMenu} {s : SymId} (hsym : menu.sym = some s)
    (hchoice : ¬ (st.sym s).choice) (h : Writing st v done cs) :
    ∃ items done' cs', confWriteMenu st (symCalcValue st st.symbols.length) menu cs =
        some (items.flatMap (Item.text st v), cs') ∧
      Writing st v done' cs' ∧ Writes st v [menu] done items done' := by
  obtain ⟨_, cs', hrun, hinv, _, hs⟩ :=
    (symCalcValue_writing hst hord hch hv s).exists_run (fun h => h) h trivial
  have hline := hasLine_write hch hinv.sound hs
  have hmenu : ∃ other ∈ [menu], other.sym = some s := ⟨menu, List.mem_singleton.mpr rfl, hsym⟩
  have hother : ∀ t, (∃ other ∈ [menu], other.sym = some t) → t = s := by
    rintro t ⟨_, hmem, ht⟩
    rw [List.mem_singleton.mp hmem, hsym] at ht
    exact (Option.some_inj.mp ht).symm
  -- `SYMBOL_WRITE` is cleared with the line, so that a second menu of the symbol has none
  by_cases hwrite : cs'.write s = true
  · refine ⟨[.symbol s], insertDone done s, cs'.setWrite s false, ?_,
      ⟨hinv.sound.clearWrite, ?_, hinv.modules⟩, ?_⟩
    · rw [confWriteMenu_symbol hsym hchoice hrun, if_pos hwrite, (hinv.sound.known s hs).curr,
        List.flatMap_singleton]
      rfl
    · intro t ht
      have ht' : done t = true ∨ t = s := by simpa [insertDone] using ht
      rcases ht' with ht | rfl
      · exact hinv.kept t ht
      · exact hs
    · constructor
      · intro prompt hp
        cases List.mem_singleton.mp hp
      · intro t ht
        obtain rfl : t = s := by simpa using ht
        exact ⟨by simpa using hchoice, hmenu⟩
      · intro t
        simp [insertDone]
      · intro t ht hmem
        obtain rfl := hother t hmem
        have hmem : Item.symbol t ∈ [Item.symbol t] := List.mem_singleton.mpr rfl
        constructor
        · intro ht htype hval
          rw [← hline.plain ht htype hval]
          exact iff_of_true hmem hwrite
        · intros
          exact hmem
  · refine ⟨[], done, cs', ?_, hinv, ?_⟩
    · rw [confWriteMenu_symbol hsym hchoice hrun, if_neg hwrite]
      rfl
    · constructor
      · exact fun _ hp => (List.not_mem_nil hp).elim
      · exact fun _ hs => (List.not_mem_nil hs).elim
      · simp
      · intro t ht hmem
        obtain rfl := hother t hmem
        constructor
        · intro ht htype hval
          rw [← hline.plain ht htype hval]
          exact iff_of_false (List.not_mem_nil) hwrite
        · intro ht htype hval hauto hdone hvis c hc hcmem hcval hchosen hvalues
          exact absurd (hline.value ht htype hval hauto hdone hvis c hc hcmem hcval hchosen hvalues)
            hwrite

theorem confWriteMenu_spec (menu : WrittenMenu) (h : Writing st v done cs) :
    ∃ items done' cs', confWriteMenu st (symCalcValue st st.symbols.length) menu cs =
        some (items.flatMap (Item.text st v), cs') ∧
      Writing st v done' cs' ∧ Writes st v [menu] done items done' := by
  cases hsym : menu.sym with
  | none =>
      obtain ⟨items, cs', hrun⟩ := confWriteMenu_none_spec hst hord hch hv hsym h
      exact ⟨items, done, cs', hrun⟩
  | some s =>
      by_cases hchoice : (st.sym s).choice
      · -- a choice has no line, only its values have
        refine ⟨[], done, cs, confWriteMenu_choice hsym hchoice cs, h, ?_⟩
        constructor
        · exact fun _ hp => (List.not_mem_nil hp).elim
        · exact fun _ hs => (List.not_mem_nil hs).elim
        · simp
        · rintro t ht ⟨_, hmenu, hs⟩
          rw [List.mem_singleton.mp hmenu, hsym] at hs
          cases hs
          rw [hchoice] at ht
          cases ht
      · exact confWriteMenu_symbol_spec hst hord hch hv hsym hchoice h

/-- Which symbols have a line below the heading of the file. -/
theorem confWriteMenus_spec (menus : List WrittenMenu) (h : Writing st v done cs) :
    ∃ items done' cs', confWriteMenus st (symCalcValue st st.symbols.length) menus cs =
        some (items.flatMap (Item.text st v), cs') ∧
      Writing st v done' cs' ∧ Writes st v menus done items done' := by
  induction menus generalizing done cs with
  | nil =>
      refine ⟨[], done, cs, rfl, h, ?_⟩
      constructor
      · exact fun _ hp => (List.not_mem_nil hp).elim
      · exact fun _ hs => (List.not_mem_nil hs).elim
      · simp
      · rintro s _ ⟨_, hmenu, _⟩
        exact (List.not_mem_nil hmenu).elim
  | cons menu rest ih =>
      obtain ⟨items, done', cs', hrun, hinv, hwrites⟩ := confWriteMenu_spec hst hord hch hv menu h
      obtain ⟨items', done'', cs'', hrun', hinv', hwrites'⟩ := ih hinv
      refine ⟨items ++ items', done'', cs'', ?_, hinv', hwrites.append hwrites'⟩
      show (confWriteMenu _ _ _ _).bind _ = _
      rw [hrun]
      show (confWriteMenus _ _ _ _).bind _ = _
      rw [hrun', List.flatMap_append]
      rfl

omit hst hord hch hv in
theorem Sound.writing (h : Sound st v cs) (hmodules : ∀ m ∈ st.modulesSym, cs.valid m) :
    Writing st v (fun _ => false) cs := by
  have hst : st.withAuto (fun _ => false) = st := by
    simp [Setup.withAuto]
  refine ⟨?_, fun _ hs => absurd hs (by decide), hmodules⟩
  rw [hst]
  exact h

omit hst hord hch hv in
theorem Sound.idle (h : Sound st v cs) (hmodules : ∀ m ∈ st.modulesSym, cs.valid m) :
    Idle st v cs where
  const s hs := ⟨h.cover s hs, h.known s (h.cover s hs)⟩
  modules := h.modulesVal hmodules
  rev := h.rev

/-- `conf_write` comes to an end, and what is in the file. -/
theorem confWrite_spec (h : Sound st v cs) (hmodules : ∀ m ∈ st.modulesSym, cs.valid m)
    (changed : Bool) (prompt : Text) (now : Option Text) (menus : List WrittenMenu) :
    ∃ items done' cs', confWrite st st.symbols.length changed prompt now menus cs =
        some (fileHeading prompt now ++ items.flatMap (Item.text st v), cs') ∧
      Writing st v done' cs' ∧ Writes st v menus (fun _ => false) items done' := by
  unfold confWrite
  cases changed with
  | true =>
      obtain ⟨items, done', cs', hrun, hinv, hwrites⟩ :=
        confWriteMenus_spec hst hord hch hv menus (h.writing hmodules)
      refine ⟨items, done', cs', ?_, hinv, hwrites⟩
      show (confWriteMenus _ _ _ _).bind _ = _
      rw [hrun]
      rfl
  | false =>
      obtain ⟨cs1, hclear, hmodules1⟩ := symClearAllValid_exists hst h.cover
      have hsound := symClearAllValid_sound hord hch hv (h.idle hmodules) hclear
      obtain ⟨items, done', cs', hrun, hinv, hwrites⟩ :=
        confWriteMenus_spec hst hord hch hv menus (hsound.writing hmodules1)
      refine ⟨items, done', cs', ?_, hinv, hwrites⟩
      show (symClearAllValid _ _ _).bind _ = _
      rw [hclear]
      show (confWriteMenus _ _ _ _).bind _ = _
      rw [hrun]
      rfl

end Run

end Spec

end Pbs.Kconfig
