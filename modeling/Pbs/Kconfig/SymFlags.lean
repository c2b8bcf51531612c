import Pbs.Kconfig.SymRun

/-!
# Flags that have been cleared

`conf_write` clears `SYMBOL_WRITE` of a symbol that it has written, between two calculations. A
symbol that has a value is not calculated again, so the calculations that follow are those of a
configuration in which its flag is not wanted (`symCalcValue_withAuto`), and what is known of
their results still holds.
-/

namespace Pbs.Kconfig

open StateSpec

/-- The same symbols, where some more of them never get `SYMBOL_WRITE`. -/
def Setup.withAuto (st : Setup) (done : SymId → Bool) : Setup :=
  { st with auto := fun s => st.auto s || done s }

@[simp] theorem Setup.withAuto_sym (st : Setup) (done : SymId → Bool) :
    (st.withAuto done).sym = st.sym := rfl

@[simp] theorem Setup.withAuto_user (st : Setup) (done : SymId → Bool) :
    (st.withAuto done).user = st.user := rfl

/-- The symbols of a set have their values. -/
def Kept (done : SymId → Bool) (cs : CalcState) : Prop := ∀ s, done s → cs.valid s

section Calc

variable {st : Setup} {done : SymId → Bool} {value value' : SymId → CalcM Unit}

/-- A change that leaves the values that are there. -/
theorem agree_modify_of_valid {g : CalcState → CalcState} (h : ∀ cs, (g cs).valid = cs.valid) :
    Agree (Kept done) (modify g : CalcM Unit) (modify g) := by
  apply agree_modify
  intro cs hcs s hs
  rw [h cs]
  exact hcs s hs

theorem agree_deref {α : Type} (p : Option α) : Agree (Kept done) (deref p) (deref p) := by
  cases p with
  | none => exact fun _ _ => ⟨rfl, fun _ hp => by cases hp⟩
  | some a => exact agree_pure a

variable (hvalue : ∀ s, Agree (Kept done) (value s) (value' s))
include hvalue

theorem calcExpr_agree (e : Expr) :
    Agree (Kept done) (calcExpr st value e) (calcExpr (st.withAuto done) value' e) := by
  induction e with
  | symbol s => exact (hvalue s).bind fun _ => agree_get fun _ => agree_pure _
  | and l r ihl ihr => exact ihl.bind fun _ => ihr.bind fun _ => agree_pure _
  | or l r ihl ihr => exact ihl.bind fun _ => ihr.bind fun _ => agree_pure _
  | not e ih => exact ih.bind fun _ => agree_pure _
  | equal l r =>
      exact (hvalue l).bind fun _ => (hvalue r).bind fun _ => agree_get fun _ => agree_pure _
  | unequal l r =>
      exact (hvalue l).bind fun _ => (hvalue r).bind fun _ => agree_get fun _ => agree_pure _

theorem calcCondition_agree (e : Option Expr) :
    Agree (Kept done) (calcCondition st value e) (calcCondition (st.withAuto done) value' e) := by
  cases e with
  | none => exact agree_pure _
  | some e => exact calcExpr_agree hvalue e

theorem firstVisible_agree (props : List Property) :
    Agree (Kept done) (firstVisible st value props)
      (firstVisible (st.withAuto done) value' props) := by
  induction props with
  | nil => exact agree_pure _
  | cons prop rest ih =>
      apply (calcCondition_agree hvalue prop.visible).bind
      intro tri
      exact agree_ite (fun _ => agree_pure _) fun _ => ih

theorem symGetRangeVal_agree (s : SymId) (base : ℕ) :
    Agree (Kept done) (symGetRangeVal st value s base)
      (symGetRangeVal (st.withAuto done) value' s base) :=
  (hvalue s).bind fun _ => agree_get fun _ => agree_pure _

theorem symValidateRange_agree (s : SymId) :
    Agree (Kept done) (symValidateRange st value s)
      (symValidateRange (st.withAuto done) value' s) := by
  unfold symValidateRange
  simp only [Setup.withAuto_sym]
  cases numberBase (st.sym s).type with
  | none => exact agree_pure _
  | some base =>
      apply (firstVisible_agree hvalue _).bind
      intro found
      cases found with
      | none => exact agree_pure _
      | some found =>
          apply agree_get
          intro cs
          apply (agree_deref _).bind
          intro bounds
          apply (symGetRangeVal_agree hvalue _ _).bind
          intro low
          apply agree_ite <;> intro _
          · apply (symGetRangeVal_agree hvalue _ _).bind
            intro high
            exact agree_ite (fun _ => agree_pure _) fun _ => agree_modify_of_valid fun _ => rfl
          · exact agree_modify_of_valid fun _ => rfl

theorem anyPrompt_agree (props : List Property) (tri : Tristate) :
    Agree (Kept done) (anyPrompt st value props tri)
      (anyPrompt (st.withAuto done) value' props tri) := by
  induction props generalizing tri with
  | nil => exact agree_pure _
  | cons prop rest ih =>
      apply (calcCondition_agree hvalue prop.visible).bind
      intro visible
      exact ih (exprOr tri visible)

theorem calcRevDep_agree (e : Option Expr) :
    Agree (Kept done) (calcRevDep st value e) (calcRevDep (st.withAuto done) value' e) := by
  cases e with
  | none => exact agree_pure _
  | some e => exact calcExpr_agree hvalue e

theorem symCalcVisibility_agree (s : SymId) :
    Agree (Kept done) (symCalcVisibility st value s)
      (symCalcVisibility (st.withAuto done) value' s) := by
  refine Agree.bind
    ((anyPrompt_agree hvalue _ _).bind fun _ => agree_modify_of_valid fun _ => rfl) ?_
  intro _
  refine agree_ite (fun _ => agree_pure _) fun _ => ?_
  apply (calcCondition_agree hvalue _).bind
  intro dir
  refine Agree.bind (agree_modify_of_valid ?dir) fun _ => ?_
  case dir => exact fun _ => rfl
  apply (calcRevDep_agree hvalue _).bind
  intro rev
  exact agree_modify_of_valid fun _ => rfl

theorem calcVisibilities_agree (values : List SymId) :
    Agree (Kept done) (calcVisibilities st value values)
      (calcVisibilities (st.withAuto done) value' values) := by
  induction values with
  | nil => exact agree_pure _
  | cons s rest ih => exact (symCalcVisibility_agree hvalue s).bind fun _ => ih

theorem visibleDefault_agree (props : List Property) :
    Agree (Kept done) (visibleDefault st value props)
      (visibleDefault (st.withAuto done) value' props) := by
  induction props with
  | nil => exact agree_pure _
  | cons prop rest ih =>
      apply (calcCondition_agree hvalue prop.visible).bind
      intro tri
      refine agree_ite (fun _ => ih) fun _ => ?_
      apply (agree_deref _).bind
      intro defSym
      exact agree_get fun cs => agree_ite (fun _ => agree_pure _) fun _ => ih

theorem symChoiceDefault_agree (s : SymId) :
    Agree (Kept done) (symChoiceDefault st value s)
      (symChoiceDefault (st.withAuto done) value' s) := by
  apply (visibleDefault_agree hvalue _).bind
  intro found
  cases found with
  | some defSym => exact agree_pure _
  | none => exact (agree_deref _).bind fun _ => agree_get fun _ => agree_pure _

theorem symCalcChoice_agree (s : SymId) :
    Agree (Kept done) (symCalcChoice st value s) (symCalcChoice (st.withAuto done) value' s) := by
  apply (agree_deref _).bind
  intro values
  apply (calcVisibilities_agree hvalue values).bind
  intro _
  apply agree_get
  intro cs
  simp only [Setup.withAuto_user]
  cases (st.user.choice s).filter fun defSym => cs.visible defSym ≠ .no with
  | some defSym => exact agree_pure _
  | none =>
      apply (symChoiceDefault_agree hvalue s).bind
      intro defSym
      refine Agree.bind (agree_modify_of_valid ?_) fun _ => agree_pure _
      intro cs
      split <;> rfl

theorem askedValue_agree (s : SymId) :
    Agree (Kept done) (askedValue st value s) (askedValue (st.withAuto done) value' s) := by
  apply Agree.bind (agree_modify_of_valid fun cs => valid_writeIf cs)
  intro _
  apply agree_get
  intro cs
  refine agree_ite (fun _ => agree_pure _) fun _ => ?_
  apply Agree.bind (agree_modify_of_valid fun cs => valid_writeIf cs)
  intro _
  refine agree_ite (fun _ => agree_pure _) fun _ => ?_
  apply (firstVisible_agree hvalue _).bind
  intro found
  cases found with
  | none => exact agree_pure _
  | some found =>
      refine Agree.bind (agree_modify_of_valid ?write) fun _ => ?_
      case write => exact fun _ => rfl
      exact (calcCondition_agree hvalue _).bind fun _ => agree_pure _

theorem newTristate_agree (s : SymId) :
    Agree (Kept done) (newTristate st value s) (newTristate (st.withAuto done) value' s) := by
  refine Agree.bind (agree_get fun cs => agree_ite (fun _ => ?_) fun _ => ?_) fun tri =>
    agree_get fun _ => agree_pure _
  · exact (agree_deref _).bind fun _ => agree_get fun _ => agree_pure _
  · exact (askedValue_agree hvalue s).bind fun _ => agree_get fun _ => agree_pure _

theorem newText_agree (s : SymId) :
    Agree (Kept done) (newText st value s) (newText (st.withAuto done) value' s) := by
  apply Agree.bind (agree_modify_of_valid fun cs => valid_writeIf cs)
  intro _
  apply agree_get
  intro cs
  refine agree_ite (fun _ => agree_pure _) fun _ => ?_
  apply (firstVisible_agree hvalue _).bind
  intro found
  cases found with
  | none => exact agree_pure _
  | some found =>
      simp only
      cases propGetSymbol found.1 with
      | none => exact agree_pure _
      | some ds =>
          refine Agree.bind (agree_modify_of_valid ?write) fun _ => ?_
          case write => exact fun _ => rfl
          exact (hvalue ds).bind fun _ => agree_get fun _ => agree_pure _

theorem selectValue_agree (s : SymId) (newval : SymbolValue) :
    Agree (Kept done) (selectValue st value s newval)
      (selectValue (st.withAuto done) value' s newval) := by
  exact agree_ite
    (fun _ => (symCalcChoice_agree hvalue s).bind fun _ => agree_modify_of_valid fun _ => rfl)
    fun _ => agree_pure _

omit hvalue in
theorem writeChoice_agree (s : SymId) :
    Agree (Kept done) (writeChoice st s) (writeChoice (st.withAuto done) s) := by
  refine agree_ite (fun _ => (agree_deref _).bind fun values => agree_modify_of_valid ?_)
    fun _ => agree_pure _
  intro cs
  unfold CalcState.writeValues
  split <;> rfl

theorem startValue_agree (s : SymId) (newval : SymbolValue) :
    Agree (Kept done) (startValue st value s newval)
      (startValue (st.withAuto done) value' s newval) := by
  apply Agree.bind (agree_modify_of_valid fun cs => by split <;> rfl)
  intro _
  apply (symCalcVisibility_agree hvalue s).bind
  intro _
  exact agree_modify_of_valid fun _ => rfl

/-- The flag `SYMBOL_AUTO` counts for the symbol that is calculated. -/
theorem finishValue_agree {s : SymId} (hs : done s = false) (old newval : SymbolValue) :
    Agree (Kept done) (finishValue st value s old newval)
      (finishValue (st.withAuto done) value' s old newval) := by
  refine Agree.bind (agree_modify_of_valid ?curr) fun _ => ?_
  case curr => exact fun _ => rfl
  apply (selectValue_agree hvalue s newval).bind
  intro _
  apply (symValidateRange_agree hvalue s).bind
  intro _
  apply Agree.bind (agree_modify_of_valid fun cs => by unfold CalcState.setModules; split <;> rfl)
  intro _
  apply (writeChoice_agree s).bind
  intro _
  have hauto : (st.withAuto done).auto s = st.auto s := by
    show (st.auto s || done s) = st.auto s
    rw [hs, Bool.or_false]
  rw [hauto]
  exact agree_modify_of_valid fun cs => by split <;> rfl

theorem calcBody_agree {s : SymId} (hs : done s = false) :
    Agree (Kept done) (calcBody st value s) (calcBody (st.withAuto done) value' s) := by
  apply agree_get
  intro cs
  have htext : Agree (Kept done)
      (do
        startValue st value s ⟨[], .no⟩
        let val ← newText st value s
        finishValue st value s (cs.curr s) ⟨val, .no⟩)
      (do
        startValue (st.withAuto done) value' s ⟨[], .no⟩
        let val ← newText (st.withAuto done) value' s
        finishValue (st.withAuto done) value' s (cs.curr s) ⟨val, .no⟩) :=
    (startValue_agree hvalue s _).bind fun _ => (newText_agree hvalue s).bind fun _ =>
      finishValue_agree hvalue hs _ _
  have htri : Agree (Kept done)
      (do
        startValue st value s ⟨['n'], .no⟩
        let tri ← newTristate st value s
        finishValue st value s (cs.curr s) ⟨['n'], tri⟩)
      (do
        startValue (st.withAuto done) value' s ⟨['n'], .no⟩
        let tri ← newTristate (st.withAuto done) value' s
        finishValue (st.withAuto done) value' s (cs.curr s) ⟨['n'], tri⟩) :=
    (startValue_agree hvalue s _).bind fun _ => (newTristate_agree hvalue s).bind fun _ =>
      finishValue_agree hvalue hs _ _
  have hnone : Agree (Kept done) (modify (·.setCurr s ⟨(st.sym s).name.getD [], .no⟩ none))
      (modify (·.setCurr s ⟨(st.sym s).name.getD [], .no⟩ none)) :=
    agree_modify_of_valid fun _ => rfl
  simp only [Setup.withAuto_sym]
  cases (st.sym s).type with
  | int | hex | string => exact htext
  | boolean | tristate => exact htri
  | unknown | other => exact hnone

end Calc

/-- Symbols that have a value may lose `SYMBOL_WRITE` without any effect on the others. -/
theorem symCalcValue_withAuto (st : Setup) (done : SymId → Bool) (fuel : ℕ) (s : SymId) :
    Agree (Kept done) (symCalcValue st fuel s) (symCalcValue (st.withAuto done) fuel s) := by
  induction fuel generalizing s with
  | zero =>
      intro cs hcs
      refine ⟨rfl, ?_⟩
      intro p hp
      by_cases hs : cs.valid s
      · rw [symCalcValue_valid 0 hs] at hp
        cases hp
        exact hcs
      · have hstuck : symCalcValue st 0 s cs = none := if_neg hs
        rw [hstuck] at hp
        cases hp
  | succ fuel ih =>
      intro cs hcs
      by_cases hs : cs.valid s
      · rw [symCalcValue_valid (fuel + 1) hs, symCalcValue_valid (fuel + 1) hs]
        refine ⟨rfl, ?_⟩
        intro p hp
        cases hp
        exact hcs
      · have hnot : done s = false := by
          by_contra hdone
          exact hs (hcs s (by simpa using hdone))
        have hrun : symCalcValue st (fuel + 1) s cs =
            calcBody st (symCalcValue st fuel) s (cs.setValid s) := if_neg hs
        have hrun' : symCalcValue (st.withAuto done) (fuel + 1) s cs =
            calcBody (st.withAuto done) (symCalcValue (st.withAuto done) fuel) s (cs.setValid s) :=
          if_neg hs
        rw [hrun, hrun']
        exact calcBody_agree ih hnot (cs.setValid s) fun t ht => valid_setValid s (hcs t ht)

/-! ## What is known of the results -/

variable {st : Setup} {v : Values} {rank : SymId → ℕ} {done : SymId → Bool}

theorem Solves.withAuto (hv : Solves st v) (done : SymId → Bool) : Solves (st.withAuto done) v := hv

theorem Ordered.withAuto (h : Ordered st rank) (done : SymId → Bool) :
    Ordered (st.withAuto done) rank :=
  ⟨h.prompt, h.dirDep, h.revDep, h.default, h.value, h.range, h.bounds, h.modules, h.boolean⟩

theorem Choices.withAuto (h : Choices st rank) (done : SymId → Bool) :
    Choices (st.withAuto done) rank :=
  ⟨h.type, h.value, h.choice, h.default, h.user⟩

/-- Add a symbol to a set. -/
def insertDone (done : SymId → Bool) (s : SymId) : SymId → Bool := fun t => done t || decide (t = s)

/-- `sym->flags &= ~SYMBOL_WRITE` for a symbol that has a value. -/
theorem Sound.clearWrite {cs : CalcState} {s : SymId} (h : Sound (st.withAuto done) v cs) :
    Sound (st.withAuto (insertDone done s)) v (cs.setWrite s false) where
  known t ht := by
    have hagrees := h.known t ht
    refine ⟨hagrees.curr, hagrees.choice, hagrees.visible, hagrees.rev, ?_⟩
    intro htype hval
    show Function.update cs.write s false t =
      (!(st.auto t || (done t || decide (t = s))) && writeValue st v.curr t)
    by_cases hts : t = s
    · simp [hts]
    · rw [Function.update_of_ne hts, hagrees.write htype hval]
      show (!(st.auto t || done t) && writeValue st v.curr t) = _
      simp [hts]
  modules := h.modules
  rev := h.rev
  cover := h.cover
  flags t ht := by
    have hflags := h.flags t ht
    refine ⟨hflags.prompts, ?_⟩
    intro hmem hnot hchosen values hvalues d hd hval hauto hvis
    have hauto' : (st.auto d || (done d || decide (d = s))) = false := hauto
    simp only [Bool.or_eq_false_iff, decide_eq_false_iff_not] at hauto'
    have hold : cs.write d = true := by
      apply hflags.values hmem hnot hchosen values hvalues d hd hval ?_ hvis
      show (st.auto d || done d) = false
      rw [hauto'.1, hauto'.2.1]
      rfl
    exact (Function.update_of_ne hauto'.2.2 ..).trans hold

/-- `sym_calc_value`, where flags have been cleared. -/
theorem symCalcValue_done (hst : Resolved st) (hord : Ordered st rank) (hch : Choices st rank)
    (hv : Solves st v) {cs : CalcState} (h : Sound (st.withAuto done) v cs) (hdone : Kept done cs)
    (s : SymId) :
    ∃ cs', symCalcValue st st.symbols.length s cs = some ((), cs') ∧
      Sound (st.withAuto done) v cs' ∧ Kept done cs' ∧ cs'.valid s ∧ ∀ t, cs.valid t →
        cs'.valid t := by
  obtain ⟨_, cs', hrun, _, _, _⟩ :=
    (symCalcValue_runs hst st.symbols.length s).exists_run (fun h => h)
    ⟨h.cover, List.countP_le_length⟩ trivial
  obtain ⟨heq, hkept⟩ := symCalcValue_withAuto st done st.symbols.length s cs hdone
  have hsound := symCalcValue_sound (hord.withAuto done) (hch.withAuto done) (hv.withAuto done) h
    (heq ▸ hrun)
  exact ⟨cs', hrun, hsound.1, hkept _ hrun, hsound.2⟩

end Pbs.Kconfig
