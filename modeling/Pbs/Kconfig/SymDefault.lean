import Pbs.Kconfig.SymRequests

/-!
# The default of a symbol

`sym_get_string_default` finds the text of the value that a symbol has when the user sets nothing
for it. `savedefconfig` leaves out the symbols that have this value. It does not look at ranges,
so for a number the two may differ (`symGetStringDefault_correct`).
-/

namespace Pbs.Kconfig

/-! ## sym_get_string_default -/

/-- The text for the value of a boolean or tristate symbol. -/
def tristateText : Tristate → Text
  | .no => ['n']
  | .mod => ['m']
  | .yes => ['y']

section Functions

variable (st : Setup) (value : SymId → CalcM Unit)

/-- The value and the text of a default. -/
def defaultValue (s : SymId) : Option (Property × Tristate) → CalcM (Tristate × Text)
  | none => return (.no, [])
  | some (prop, visible) =>
      if (st.sym s).type = .boolean ∨ (st.sym s).type = .tristate then do
        let tri ← calcCondition st value prop.value
        return (exprAnd tri visible, [])
      else
        match propGetSymbol prop with
        | none => return (.no, [])
        | some ds => do
            value ds
            return (.no, ((← get).curr ds).val)

/-- `m` becomes `y` without modules and for a boolean symbol. -/
def transposeMod (s : SymId) (val : Tristate) : CalcM Tristate :=
  if val = .mod ∧ (st.sym s).choiceval = false then do
    let modules ← deref st.modulesSym
    let cs ← get
    return if (cs.curr modules).tri = .no ∨ (st.sym s).type = .boolean then .yes else .mod
  else return liftMod (st.sym s).type val

end Functions

/-- `sym_get_string_default`. -/
def symGetStringDefault (st : Setup) (fuel : ℕ) (s : SymId) : CalcM Text := do
  symCalcVisibility st (symCalcValue st fuel) s
  calcModules st fuel
  let prop ← symGetDefaultProp st (symCalcValue st fuel) s
  let default ← defaultValue st (symCalcValue st fuel) s prop
  let cs ← get
  let val ← transposeMod st s (exprOr default.1 (cs.revTri s))
  return if (st.sym s).type = .boolean ∨ (st.sym s).type = .tristate then tristateText val
    else if (st.sym s).type = .int ∨ (st.sym s).type = .hex ∨ (st.sym s).type = .string then
      default.2
    else []

/-- The user sets nothing for a symbol. -/
def UserValues.unset (user : UserValues) (s : SymId) : UserValues :=
  { user with has := Function.update user.has s false }

/-! ## What has been calculated stays right -/

section Sound

variable {st : Setup} {v : Values} {cs : CalcState} {s : SymId}

theorem Sound.setVisible (h : Sound st v cs) :
    Sound st v (cs.setVisible s (visibleValue st v.curr s)) where
  known t ht := by
    have hagrees := h.known t ht
    refine ⟨hagrees.curr, hagrees.choice, ?_, hagrees.rev, hagrees.write⟩
    intro htyped
    by_cases hts : t = s
    · rw [hts]
      exact Function.update_self ..
    · exact (Function.update_of_ne hts ..).trans (hagrees.visible htyped)
  modules := h.modules
  rev := h.rev
  cover := h.cover
  flags t ht := ⟨(h.flags t ht).prompts, (h.flags t ht).values⟩

theorem Sound.setRevTri (h : Sound st v cs) (hval : (st.sym s).choiceval = false) :
    Sound st v (cs.setRevTri s (revValue st v.curr s)) where
  known t ht := by
    have hagrees := h.known t ht
    refine ⟨hagrees.curr, hagrees.choice, hagrees.visible, ?_, hagrees.write⟩
    intro htyped
    by_cases hts : t = s
    · rw [hts]
      exact Function.update_self ..
    · exact (Function.update_of_ne hts ..).trans (hagrees.rev htyped)
  modules := h.modules
  rev t ht := by
    have hts : t ≠ s := by
      rintro rfl
      exact absurd (ht.symm.trans hval) (by decide)
    exact (Function.update_of_ne hts ..).trans (h.rev t ht)
  cover := h.cover
  flags t ht := ⟨(h.flags t ht).prompts, (h.flags t ht).values⟩

theorem Sound.setDirTri (h : Sound st v cs) (dir : Tristate) : Sound st v (cs.setDirTri s dir) where
  known t ht :=
    ⟨(h.known t ht).curr, (h.known t ht).choice, (h.known t ht).visible, (h.known t ht).rev,
    (h.known t ht).write⟩
  modules := h.modules
  rev := h.rev
  cover := h.cover
  flags t ht := ⟨(h.flags t ht).prompts, (h.flags t ht).values⟩

end Sound

open StateSpec.Regime

section Gives

variable {st : Setup} {rank : SymId → ℕ} {v : Values} {s m : SymId}

variable (hst : Resolved st) (hord : Ordered st rank) (hch : Choices st rank) (hv : Solves st v)
include hst hord hch hv

/-- The visibility and the selects of a symbol that has been calculated are found again. -/
theorem symCalcVisibility_sounding (htyped : Typed st s) (hval : (st.sym s).choiceval = false) :
    (sounding st v).Gives (Valid [s]) (symCalcVisibility st (symCalcValue st st.symbols.length) s)
      fun _ => Valid [s] := by
  have hreads : ∀ t, Reads (sounding st v) (symCalcValue st st.symbols.length)
      (Valid [s]) v.curr t :=
    fun t => reads_sounding hst hord hch hv t
  apply Gives.bind (q := fun _ => Valid [s])
  · apply (anyPrompt_gives sounding_stable (sounding_stable [s]) _ _ fun _ _ t _ => hreads t).bind
    intro tri
    apply gives_modify
    rintro cs hinv ⟨rfl, _, hcs⟩
    -- what is found is what stands there already
    have hvis : liftVisible (st.sym s) cs.modulesVal (promptValue st v.curr (st.sym s).prompts) =
        visibleValue st v.curr s := by
      rw [hinv.modules]
      rfl
    show Sound st v (cs.setVisible s (liftVisible _ _ (promptValue st v.curr (st.sym s).prompts))) ∧
      _ ∧ _
    rw [hvis]
    exact ⟨hinv.setVisible, fun _ h => h, hcs⟩
  · intro _
    apply gives_ite
    · intro hval'
      exact absurd (hval'.symm.trans hval) (by decide)
    · intro _
      apply (calcCondition_gives sounding_stable (sounding_stable [s]) _ fun t _ => hreads t).bind
      intro dir
      apply Gives.bind (q := fun _ => Valid [s])
      · apply gives_modify
        rintro cs hinv ⟨_, _, hcs⟩
        exact ⟨hinv.setDirTri _, fun _ h => h, hcs⟩
      · intro _
        apply (calcRevDep_gives sounding_stable (sounding_stable [s]) _ fun t _ => hreads t).bind
        intro rev
        apply gives_modify
        rintro cs hinv ⟨rfl, _, hcs⟩
        have hvis : cs.visible s = visibleValue st v.curr s :=
          (hinv.known s (hcs s (by simp))).visible htyped
        have hrev : liftMod (symGetType (st.sym s) (cs.visible s) cs.modulesVal)
            (demanded st v.curr (st.sym s).revDep) = revValue st v.curr s := by
          rw [hvis, hinv.modules, revValue, if_neg (by simp [hval])]
          rfl
        rw [hrev]
        exact ⟨hinv.setRevTri hval, fun _ h => h, hcs⟩

theorem calcModules_sounding (hm : st.modulesSym = some m) :
    (sounding st v).Gives (Valid [s]) (calcModules st st.symbols.length) fun _ => Valid [m, s] := by
  unfold calcModules
  rw [hm]
  have hcalc := (symCalcValue_sounding hst hord hch hv m).of_pre (q := Valid [s])
    fun _ _ _ => trivial
  apply (hcalc.keep (sounding_stable [s])).of_post
  rintro _ cs _ ⟨hvalid, hcs⟩ t ht
  rcases List.mem_cons.mp ht with rfl | ht
  · exact hvalid
  · exact hcs t ht

omit hst hord hch hv in
theorem unset_not_asked : ¬ (visibleValue (st.withUser (st.user.unset s)) v.curr s ≠ .no ∧
    (st.withUser (st.user.unset s)).user.has s = true) := by
  rintro ⟨_, hhas⟩
  have hhas : Function.update st.user.has s false s = true := hhas
  rw [Function.update_self] at hhas
  cases hhas

omit hst hord hch hv in
/-- The default, as the user gets it who sets nothing. -/
theorem askedTristate_unset (hchoice : (st.sym s).choice = false) :
    askedTristate (st.withUser (st.user.unset s)) v.curr s =
      ((activeProp st v.curr .default s).map fun prop =>
        exprAnd (condition st v.curr prop.value) (condition st v.curr prop.visible)).getD .no := by
  refine (if_neg unset_not_asked).trans ((if_neg (by simp [Setup.withUser, hchoice])).trans ?_)
  -- conditions do not look at what the user has set
  cases hactive : activeProp st v.curr .default s with
  | none =>
      have hactive' : activeProp (st.withUser (st.user.unset s)) v.curr .default s = none := hactive
      rw [hactive']
      rfl
  | some prop =>
      have hactive' : activeProp (st.withUser (st.user.unset s)) v.curr .default s = some prop :=
        hactive
      rw [hactive']
      rfl

omit hst hord hch hv in
theorem askedText_unset :
    askedText (st.withUser (st.user.unset s)) v.curr s =
      (((activeProp st v.curr .default s).bind propGetSymbol).map
        fun ds => (v.curr ds).val).getD [] := by
  refine (if_neg unset_not_asked).trans ?_
  cases hds : (activeProp st v.curr .default s).bind propGetSymbol with
  | none =>
      have hds' :
          (activeProp (st.withUser (st.user.unset s)) v.curr .default s).bind propGetSymbol =
            none :=
        hds
      rw [hds']
      rfl
  | some ds =>
      have hds' :
          (activeProp (st.withUser (st.user.unset s)) v.curr .default s).bind propGetSymbol =
            some ds :=
        hds
      rw [hds']
      rfl

theorem defaultValue_sounding (hchoice : (st.sym s).choice = false) :
    (sounding st v).Gives (Valid [m, s])
      (defaultValue st (symCalcValue st st.symbols.length) s ((activeProp st v.curr .default s).map
        fun prop => (prop, condition st v.curr prop.visible)))
      fun default cs =>
        ((st.sym s).type = .boolean ∨ (st.sym s).type = .tristate →
          default.1 = askedTristate (st.withUser (st.user.unset s)) v.curr s) ∧
        (¬ ((st.sym s).type = .boolean ∨ (st.sym s).type = .tristate) →
          default.2 = askedText (st.withUser (st.user.unset s)) v.curr s) ∧ Valid [m, s] cs := by
  have hreads : ∀ t, Reads (sounding st v) (symCalcValue st st.symbols.length)
      (Valid [m, s]) v.curr t :=
    fun t => reads_sounding hst hord hch hv t
  rw [askedTristate_unset hchoice, askedText_unset]
  cases activeProp st v.curr .default s with
  | none =>
      apply gives_pure
      intro cs _ hcs
      exact ⟨fun _ => rfl, fun _ => rfl, hcs⟩
  | some prop =>
      apply gives_ite
      · intro htype
        apply (calcCondition_gives sounding_stable (sounding_stable [m, s]) _ fun t _ =>
          hreads t).bind
        intro tri
        apply gives_pure
        rintro cs _ ⟨rfl, _, hcs⟩
        exact ⟨fun _ => rfl, fun hnot => absurd htype hnot, hcs⟩
      · intro htype
        simp only [Option.bind_some]
        cases propGetSymbol prop with
        | none =>
            apply gives_pure
            intro cs _ hcs
            exact ⟨fun h => absurd h htype, fun _ => rfl, hcs⟩
        | some ds =>
            apply ((hreads ds).gives.keep (sounding_stable [m, s])).bind
            intro _
            apply gives_get
            rintro cs hinv ⟨hvalid, hcs⟩
            apply gives_pure
            rintro _ _ rfl
            refine ⟨fun h => absurd h htype, fun _ => ?_, hcs⟩
            exact congrArg SymbolValue.val (hinv.known ds hvalid).curr

omit hst hord hch hv in
theorem transposeMod_sounding (hm : st.modulesSym = some m) (hval : (st.sym s).choiceval = false)
    (val : Tristate) :
    (sounding st v).Gives (Valid [m, s]) (transposeMod st s val) fun val' cs =>
      ((st.sym s).type = .boolean ∨ (st.sym s).type = .tristate →
        val' = liftMod (typeValue st v.curr s) val) ∧ Valid [m, s] cs := by
  apply gives_ite
  · rintro ⟨rfl, _⟩
    apply (gives_deref (P := Valid [m, s]) (by simp [hm])).bind
    intro modules
    apply gives_of_fact
    intro hfound
    obtain rfl : m = modules := Option.some_inj.mp (hm.symm.trans hfound)
    apply gives_get
    intro cs hinv hcs
    apply gives_pure
    rintro now _ rfl
    refine ⟨?_, hcs⟩
    intro htype
    have hmodules : (now.curr m).tri = modulesValue st v.curr := by
      rw [(hinv.known m (hcs m (by simp))).curr, modulesValue, hm]
    rw [hmodules]
    rcases htype with htype | htype <;>
      by_cases hno : modulesValue st v.curr = .no <;>
      simp [liftMod, typeValue, symGetType, htype, hval, hno]
  · intro hnot
    apply gives_pure
    intro cs _ hcs
    refine ⟨?_, hcs⟩
    intro _
    have hmod : val ≠ .mod := fun hmod => hnot ⟨hmod, hval⟩
    simp [liftMod, hmod]

/-- The text of the value that a symbol has when the user sets nothing for it, before its range is
looked at. -/
def defaultText (st : Setup) (v : Values) (s : SymId) : Text :=
  if (st.sym s).type = .boolean ∨ (st.sym s).type = .tristate then
    tristateText (tristateValue (st.withUser (st.user.unset s)) v s)
  else if (st.sym s).type = .int ∨ (st.sym s).type = .hex ∨ (st.sym s).type = .string then
    askedText (st.withUser (st.user.unset s)) v.curr s
  else []

theorem symGetStringDefault_sounding (htyped : Typed st s) (hchoice : (st.sym s).choice = false)
    (hval : (st.sym s).choiceval = false) (hm : st.modulesSym = some m) :
    (sounding st v).Gives (Valid [s]) (symGetStringDefault st st.symbols.length s)
      fun str _ => str = defaultText st v s := by
  have hreads : ∀ t, Reads (sounding st v) (symCalcValue st st.symbols.length)
      (Valid [m, s]) v.curr t :=
    fun t => reads_sounding hst hord hch hv t
  apply (symCalcVisibility_sounding hst hord hch hv htyped hval).bind
  intro _
  apply (calcModules_sounding hst hord hch hv hm).bind
  intro _
  apply (firstVisible_correct sounding_stable (sounding_stable [m, s]) _ fun _ _ t _ =>
    hreads t).bind
  intro found
  apply gives_of_fact
  rintro rfl
  apply (defaultValue_sounding hst hord hch hv hchoice).bind
  intro default
  apply gives_of_fact
  intro htri
  apply gives_of_fact
  intro htext
  apply gives_get
  intro cs hinv hcs
  -- the symbol has been calculated, so its selects are known
  have hrev : cs.revTri s = revValue st v.curr s := (hinv.known s (hcs s (by simp))).rev htyped
  rw [hrev]
  refine Gives.bind ((transposeMod_sounding hm hval _).of_pre ?_) ?_
  · rintro _ _ rfl
    exact hcs
  · intro val
    apply gives_of_fact
    intro hlift
    apply gives_pure
    intro _ _ _
    unfold defaultText
    by_cases htype : (st.sym s).type = .boolean ∨ (st.sym s).type = .tristate
    · have hvalue : tristateValue (st.withUser (st.user.unset s)) v s = _ :=
        tristateValue_plain hval
      rw [if_pos htype, if_pos htype, hlift htype, htri htype, hvalue]
      rfl
    · rw [if_neg htype, if_neg htype, htext htype]

end Gives

section Default

variable {st : Setup} {rank : SymId → ℕ} {v : Values} {ss : Session} {s : SymId}
  {curr : SymId → SymbolValue}

theorem symGetStringValue_tristate
    (htype : (st.sym s).type = .boolean ∨ (st.sym s).type = .tristate) :
    symGetStringValue (st.conf curr) s = tristateText (curr s).tri := by
  rcases htype with htype | htype <;>
    simp only [symGetStringValue, Setup.conf, htype] <;>
    cases (curr s).tri <;> rfl

theorem symGetStringValue_text
    (htype : (st.sym s).type = .int ∨ (st.sym s).type = .hex ∨ (st.sym s).type = .string) :
    symGetStringValue (st.conf curr) s = (curr s).val := by
  rcases htype with htype | htype | htype <;> simp only [symGetStringValue, Setup.conf, htype]

/-- Only numbers have ranges. -/
theorem rangedText_of_no_base {val : Text} (h : numberBase (st.sym s).type = none) :
    rangedText st curr s val = val := by
  simp only [rangedText, h]

end Default

end Pbs.Kconfig
