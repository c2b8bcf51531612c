import Pbs.Kconfig.SymSolve

/-!
# Runs of `sym_calc_value`

The rest of a calculation: the range of a number, the value of `modules_sym`, and the flag of what
is written. Together with `SymSolve` this is `calcBody_solves`, and the induction on the ranks
gives the values of all symbols that are asked for, in every order (`calcAll_solves`).
-/

namespace Pbs.Kconfig

open StateSpec StateSpec.Regime

section Own

variable {st : Setup} {v : Values} {rank : SymId → ℕ} {value : SymId → CalcM Unit}
  {s : SymId} {old newval : SymbolValue} {chosen : Option SymId} {write : Bool}

section Calc

variable (hord : Ordered st rank)
  (hvalue : ∀ t, rank t < rank s →
    (inner st v rank (rank s)).Gives (fun _ => True) (value t) fun _ cs => cs.valid t)
include hvalue

/-! ## sym_validate_range -/

theorem symGetRangeVal_gives {P : CalcState → Prop} (hP : (inner st v rank (rank s)).Stable P)
    {t : SymId} (ht : rank t < rank s) (base : ℕ) :
    (inner st v rank (rank s)).Gives P (symGetRangeVal st value t base) fun a cs =>
      a = boundValue st v.curr base t ∧ P cs :=
  rangeVal_gives hP (reads_below hvalue ht) base

include hord

/-- `sym_get_range_prop`. -/
theorem symGetRangeProp_gives {P : CalcState → Prop} (hP : (inner st v rank (rank s)).Stable P) :
    (calculating st v rank (rank s) (· = s)).Gives P (symGetRangeProp st value s) fun found cs =>
      found = ((activeProp st v.curr .range s).map fun prop =>
        (prop, condition st v.curr prop.visible)) ∧ P cs := by
  apply gives_of_inner
  apply firstVisible_correct stable_valid hP
  intro prop hprop t ht
  exact reads_below hvalue (hord.range s prop hprop t ht)

omit hord hvalue in
/-- The bound that a number misses takes its place. -/
theorem setText_gives (text : Text) :
    (calculating st v rank (rank s) (· = s)).Gives (At st v s old newval chosen write)
      (modify (·.setText s text)) fun _ cs => At st v s old ⟨text, newval.tri⟩ chosen write cs := by
  apply gives_touches
  intro cs _ hcs
  refine ⟨touches_setCurr s _ _ cs, ?_⟩
  rw [CalcState.setText, hcs.curr, hcs.choice]
  exact hcs.setCurr _ _

theorem symValidateRange_gives :
    (calculating st v rank (rank s) (· = s)).Gives (At st v s old newval chosen write)
      (symValidateRange st value s) fun _ cs =>
        At st v s old ⟨rangedText st v.curr s newval.val, newval.tri⟩ chosen write cs := by
  unfold symValidateRange rangedText
  cases numberBase (st.sym s).type with
  | none =>
      apply gives_pure
      intro cs _ hcs
      exact hcs
  | some base =>
      apply (symGetRangeProp_gives hord hvalue At.stable).bind
      intro found
      apply gives_of_fact
      rintro rfl
      cases hprop : activeProp st v.curr .range s with
      | none =>
          apply gives_pure
          intro cs _ hcs
          exact hcs
      | some prop =>
          apply gives_get
          intro cs _ hcs
          rw [hcs.curr]
          refine Gives.of_pre (p := At st v s old newval chosen write) ?_
            (by rintro _ _ rfl; exact hcs)
          apply (deref_gives _ prop.bounds).bind
          intro bounds
          apply gives_of_fact
          intro hbounds
          have hrank := hord.bounds s prop (activeProp_mem hprop) bounds hbounds
          simp only [Option.bind_some, hbounds]
          apply (gives_of_inner (symGetRangeVal_gives hvalue At.stable hrank.1 base)).bind
          intro low
          apply gives_of_fact
          rintro rfl
          have hnumber : readNumber base ⟨newval.val, .no⟩ = readNumber base newval := rfl
          simp only [hnumber]
          -- the upper bound is only read where the lower one is kept
          by_cases hlow : boundValue st v.curr base bounds.1 ≤ readNumber base newval
          · rw [if_pos hlow]
            apply (gives_of_inner (symGetRangeVal_gives hvalue At.stable hrank.2 base)).bind
            intro high
            apply gives_of_fact
            rintro rfl
            by_cases hhigh : readNumber base newval ≤ boundValue st v.curr base bounds.2
            · rw [if_pos hhigh]
              apply gives_pure
              intro cs _ hcs
              simpa only [if_pos hlow, if_pos hhigh] using hcs
            · rw [if_neg hhigh]
              simpa only [if_pos hlow, if_neg hhigh] using setText_gives _
          · rw [if_neg hlow]
            simpa only [if_neg hlow] using setText_gives _

end Calc

/-! ## The end of `sym_calc_value` -/

/-- The fields of a symbol once it is calculated, before `SYMBOL_AUTO` is looked at. -/
theorem At.agrees {cs : CalcState} (h : At st v s old (v.curr s) (v.choice s) write cs)
    (hwrite : write = (!st.auto s && writeValue st v.curr s)) : Agrees st v cs s where
  curr := h.curr
  choice := h.choice
  visible _ := h.visible
  rev _ := h.rev
  write _ hs := (h.write hs).trans hwrite

theorem At.modulesVal {cs : CalcState} (h : At st v s old (v.curr s) chosen write cs)
    (hs : st.modulesSym = some s) :
    (cs.setModules st s old).modulesVal = modulesValue st v.curr := by
  have hvalue : modulesValue st v.curr = (v.curr s).tri := by
    rw [modulesValue, hs]
  unfold CalcState.setModules
  by_cases hold : cs.curr s = old
  · -- nothing changes, and the old value is the value
    rw [if_neg fun hne => hne.1 hold]
    rcases h.modules hs with hmod | hmod
    · rw [hmod, hvalue, ← hold, h.curr]
    · exact hmod
  · rw [if_pos ⟨hold, hs⟩, hvalue]
    exact congrArg SymbolValue.tri h.curr

theorem setModules_of_ne (hs : st.modulesSym ≠ some s) (cs : CalcState) :
    cs.setModules st s old = cs := if_neg fun h => hs h.2

/-- `modules_val` is changed to the value of `modules_sym` only. -/
theorem setModules_gives :
    (calculating st v rank (rank s) (· = s)).Gives (At st v s old (v.curr s) chosen write)
      (modify (·.setModules st s old)) fun _ cs =>
        At st v s old (v.curr s) chosen write cs ∧
          (st.modulesSym = some s → cs.modulesVal = modulesValue st v.curr) := by
  apply gives_touches
  intro cs _ hcs
  by_cases hs : st.modulesSym = some s
  · have hmod := hcs.modulesVal hs
    have hrest : cs.setModules st s old =
        { cs with modulesVal := (cs.setModules st s old).modulesVal } := by
      unfold CalcState.setModules
      split <;> rfl
    rw [hrest]
    refine ⟨⟨fun _ h => h, .inr hmod, fun _ => rfl,
        fun t _ => ⟨id, rfl, rfl, .inl rfl, rfl, fun _ => rfl⟩, fun _ _ _ h => h⟩,
      ⟨hcs.valid, hcs.curr, hcs.choice, hcs.visible, hcs.rev, hcs.write, hcs.prompts,
        fun _ => .inr hmod⟩,
      fun _ => hmod⟩
  · rw [setModules_of_ne hs]
    exact ⟨Touches.refl s cs, hcs, fun h => absurd h hs⟩

/-- What is known at the end. -/
abbrev Ending (st : Setup) (v : Values) (s : SymId) (old value : SymbolValue)
    (chosen : Option SymId) (write : Bool) (cs : CalcState) : Prop :=
  At st v s old value chosen write cs ∧
    (st.modulesSym = some s → cs.modulesVal = modulesValue st v.curr)

/-- Where something has been selected, it is known which values are visible. -/
def Displayed (st : Setup) (v : Values) (s : SymId) (chosen : Option SymId)
    (cs : CalcState) : Prop :=
  chosen ≠ none → ∀ values ∈ st.values s, ∀ d ∈ values, (st.sym d).choiceval →
    cs.visible d = visibleValue st v.curr d

theorem Displayed.stable (hch : Choices st rank) (hs : (st.sym s).choice) :
    (calculating st v rank (rank s) (· = s)).Stable (Displayed st v s chosen) := by
  intro cs cs' _ _ hstep h hchosen values hvalues d hd hval
  have hrank := (hch.value s hs values hvalues d hd).2.2
  have hne : d ≠ s := by
    rintro rfl
    exact Nat.lt_irrefl _ hrank
  have hsame := hstep.same d (Nat.le_of_lt hrank) hne
  exact hsame.visible.elim (fun hvis => hvis.trans (h hchosen values hvalues d hd hval)) id

/-- The values of a choice that are visible have `SYMBOL_WRITE`. -/
def Listed (st : Setup) (v : Values) (s : SymId) (chosen : Option SymId) (cs : CalcState) : Prop :=
  (st.sym s).choiceval = false → chosen ≠ none →
    ∀ values ∈ st.values s, ∀ d ∈ values, (st.sym d).choiceval →
    visibleValue st v.curr d ≠ .no → cs.write d

/-- The last loop changes the flags of choice values only. -/
theorem writeChoice_gives (hch : Choices st rank)
    (hnone : (st.sym s).choice = false → chosen = none)
    (hwrite : (st.sym s).choiceval = false → chosen ≠ none → write = true) :
    (calculating st v rank (rank s) (· = s)).Gives
      (fun cs => Ending st v s old newval chosen write cs ∧ Displayed st v s chosen cs)
      (writeChoice st s)
      fun _ cs => Ending st v s old newval chosen write cs ∧ Listed st v s chosen cs := by
  apply gives_ite
  · intro hs
    apply (deref_gives _ (st.values s)).bind
    intro values
    apply gives_of_fact
    intro hvalues
    apply gives_touches
    intro cs _ hcs
    -- only the values of the choice get the flag, so what is known of others stays
    have hother : ∀ t, (st.sym t).choiceval = false →
        (cs.writeValues s values).write t = cs.write t := by
      intro t ht
      have hmem : t ∉ values := by
        intro hmem
        have hval := (hch.value s hs values hvalues t hmem).1
        exact absurd (hval.symm.trans ht) (by decide)
      unfold CalcState.writeValues
      split
      · show (cs.write t || values.contains t && _) = cs.write t
        simp [hmem]
      · rfl
    have hkeeps : KeepsWrite st cs (cs.writeValues s values) := by
      intro d _ _ hd
      unfold CalcState.writeValues
      split
      · show (cs.write d || values.contains d && _) = true
        simp [hd]
      · exact hd
    have hlisted : Listed st v s chosen (cs.writeValues s values) := by
      intro hnot hchosen values' hvalues' d hd hval hvis
      obtain rfl : values = values' := Option.some_inj.mp (hvalues.symm.trans hvalues')
      have hwritten : cs.write s = true := by
        rw [hcs.1.1.write hnot, hwrite hnot hchosen]
      have hshown := hcs.2 hchosen values hvalues d hd hval
      unfold CalcState.writeValues
      rw [if_pos hwritten]
      show (cs.write d || values.contains d && cs.visible d != .no) = true
      simp [hd, hshown, hvis]
    have hrest : cs.writeValues s values =
        { cs with write := (cs.writeValues s values).write } := by
      unfold CalcState.writeValues
      split <;> rfl
    rw [hrest] at hlisted ⊢
    exact ⟨⟨fun _ h => h, .inl rfl, fun _ => rfl,
        fun t _ => ⟨id, rfl, rfl, .inl rfl, rfl, hother t⟩,
        fun d hval hauto hd => hkeeps d hval hauto hd⟩,
      ⟨⟨hcs.1.1.valid, hcs.1.1.curr, hcs.1.1.choice, hcs.1.1.visible, hcs.1.1.rev,
        fun hval => (hother s hval).trans (hcs.1.1.write hval), hcs.1.1.prompts, hcs.1.1.modules⟩,
        hcs.1.2⟩, hlisted⟩
  · intro hs
    apply gives_pure
    intro cs _ hcs
    exact ⟨hcs.1, fun _ hchosen => absurd (hnone (by simpa using hs)) hchosen⟩

theorem setAuto_gives :
    (calculating st v rank (rank s) (· = s)).Gives
      (fun cs => Ending st v s old newval chosen write cs ∧ Listed st v s chosen cs)
      (modify fun cs => if st.auto s then cs.setWrite s false else cs) fun _ cs =>
        Ending st v s old newval chosen (!st.auto s && write) cs ∧ Listed st v s chosen cs := by
  apply gives_touches
  intro cs _ hcs
  by_cases hauto : st.auto s = true
  · rw [if_pos hauto, hauto]
    refine ⟨touches_setWrite (.inr (.inr hauto)) cs, ⟨hcs.1.1.setWrite false, hcs.1.2⟩, ?_⟩
    intro hnot hchosen values hvalues d hd hval hvis
    have hne : d ≠ s := by
      rintro rfl
      exact absurd (hval.symm.trans hnot) (by decide)
    exact (Function.update_of_ne hne ..).trans (hcs.2 hnot hchosen values hvalues d hd hval hvis)
  · rw [if_neg hauto, Bool.eq_false_iff.mpr hauto]
    exact ⟨Touches.refl s cs, hcs⟩

/-- What is left behind for a symbol once it is calculated. -/
structure Calculated (st : Setup) (v : Values) (s : SymId) (cs : CalcState) : Prop where
  agrees : Agrees st v cs s
  modules : st.modulesSym = some s → cs.modulesVal = modulesValue st v.curr
  flags : Flagged st v cs s

/-- The value of a choice, and what it selects. -/
def picked (st : Setup) (v : Values) (s : SymId) (newval : SymbolValue) :
    SymbolValue × Option SymId :=
  if (st.sym s).choice ∧ newval.tri = .yes then
    (⟨['n'], if selected st v s = none then .no else .yes⟩, selected st v s)
  else (newval, none)

section Calc

variable (hord : Ordered st rank) (hch : Choices st rank)
  (hvalue : ∀ t, rank t < rank s →
    (inner st v rank (rank s)).Gives (fun _ => True) (value t) fun _ cs => cs.valid t)
  (hself : ∀ t cs, cs.valid t → value t cs = some ((), cs))
  (hv : Solves st v) (hmem : s ∈ st.symbols)
include hord hch hvalue hself hv hmem

theorem selectValue_gives (hnew : (st.sym s).choice → newval = ⟨['n'], tristateValue st v s⟩) :
    (calculating st v rank (rank s) (· = s)).Gives (At st v s old newval none write)
      (selectValue st value s newval) fun _ cs =>
        At st v s old (picked st v s newval).1 (picked st v s newval).2 write cs ∧
          Displayed st v s (picked st v s newval).2 cs := by
  unfold picked
  apply gives_ite
  · intro hsel
    have hset : tristateValue st v s = .yes := by
      rw [← hsel.2, hnew hsel.1]
    have hvalue' : newval = ⟨['n'], .yes⟩ := by
      rw [hnew hsel.1, hset]
    rw [if_pos hsel, hvalue']
    cases hvalues : st.values s with
    | none =>
        -- without a list of values there is no result
        refine Gives.bind (q := fun _ _ => False)
          ((deref_gives _ (st.values s)).bind fun l => gives_of_fact fun hl => ?_)
            fun _ _ _ h => h.elim
        rw [hvalues] at hl
        cases hl
    | some values =>
        apply (symCalcChoice_gives hord hch hvalue hself hv hmem hsel.1 hset hvalues).bind
        intro picked
        apply gives_of_fact
        rintro rfl
        apply gives_touches
        intro cs _ hcs
        refine ⟨touches_setCurr s _ _ cs, ?_, ?_⟩
        · rw [hcs.1.curr]
          exact hcs.1.setCurr _ _
        · intro _ values' hvalues' d hd _
          obtain rfl : values = values' := Option.some_inj.mp (hvalues.symm.trans hvalues')
          exact hcs.2 d hd
  · intro hsel
    rw [if_neg hsel]
    apply gives_pure
    intro cs _ hcs
    exact ⟨hcs, fun hchosen => absurd rfl hchosen⟩

omit hord hvalue hself hv hmem in
/-- What selects a value is written. -/
theorem writeValue_of_picked (hnew : (st.sym s).choice → newval = ⟨['n'], tristateValue st v s⟩)
    (hnot : (st.sym s).choiceval = false) (hpicked : (picked st v s newval).2 ≠ none) :
    writeValue st v.curr s = true := by
  have hsel : (st.sym s).choice ∧ newval.tri = .yes := by
    by_contra hsel
    exact hpicked (congrArg Prod.snd (if_neg hsel))
  have hset : tristateValue st v s = .yes := by
    rw [← hsel.2, hnew hsel.1]
  by_contra hwrite
  have hvis : visibleValue st v.curr s = .no := by
    by_contra hvis
    simp [writeValue, hvis] at hwrite
  have hrev : revValue st v.curr s = .no := by
    by_contra hrev
    rcases hch.type s hsel.1 with htype | htype <;> simp [writeValue, hrev, htype] at hwrite
  have hasked : askedTristate st v.curr s = .no := by
    simp [askedTristate, hvis, hsel.1]
  rw [tristateValue, hasked, hrev, if_neg fun h => absurd (h.1.symm.trans hnot) (by decide)] at hset
  simp [exprOr, liftMod] at hset

theorem finishValue_gives {start : SymbolValue}
    (hnew : (st.sym s).choice → newval = ⟨['n'], tristateValue st v s⟩)
    (hsettled : settled st v s = (⟨rangedText st v.curr s (picked st v s newval).1.val,
      (picked st v s newval).1.tri⟩, (picked st v s newval).2)) :
    (calculating st v rank (rank s) (· = s)).Gives
      (At st v s old start none (writeValue st v.curr s)) (finishValue st value s old newval)
      fun _ cs => Calculated st v s cs := by
  have hcurr : v.curr s = ⟨rangedText st v.curr s (picked st v s newval).1.val,
      (picked st v s newval).1.tri⟩ := congrArg Prod.fst ((hv s hmem).trans hsettled)
  have hchosen : v.choice s = (picked st v s newval).2 :=
    congrArg Prod.snd ((hv s hmem).trans hsettled)
  -- only a choice elects a symbol
  have hnone : (st.sym s).choice = false → (picked st v s newval).2 = none := by
    intro hs
    exact congrArg Prod.snd (if_neg fun hsel => absurd (hs.symm.trans hsel.1) (by decide))
  have hdisplayed : (calculating st v rank (rank s) (· = s)).Stable
      (Displayed st v s (picked st v s newval).2) := by
    by_cases hs : (st.sym s).choice
    · exact Displayed.stable hch hs
    · intro cs cs' _ _ _ _ hpicked
      exact absurd (hnone (by simpa using hs)) hpicked
  apply Gives.bind (q := fun _ cs => At st v s old newval none (writeValue st v.curr s) cs)
  · apply gives_touches
    intro cs _ hcs
    exact ⟨touches_setCurr s _ _ cs, hcs.setCurr _ _⟩
  intro _
  apply (selectValue_gives hord hch hvalue hself hv hmem hnew).bind
  intro _
  apply ((symValidateRange_gives hord hvalue).and_stable hdisplayed).bind
  intro _
  rw [← hcurr]
  rw [← hchosen] at hdisplayed hnone ⊢
  apply (setModules_gives.and_stable hdisplayed).bind
  intro _
  apply (writeChoice_gives hch hnone ?_).bind
  · intro _
    apply setAuto_gives.of_post
    rintro _ cs _ ⟨⟨hcs, hmod⟩, hlisted⟩
    exact ⟨hcs.agrees rfl, hmod, fun _ _ => hcs.prompts,
      fun _ hnot hc values hvalues d hd hval _ hvis =>
      hlisted hnot hc values hvalues d hd hval hvis⟩
  · intro hnot hc
    rw [hchosen] at hc
    exact writeValue_of_picked hch hnew hnot hc

/-- A number or a string. -/
theorem calcText_solves (old : SymbolValue)
    (htype : (st.sym s).type = .int ∨ (st.sym s).type = .hex ∨ (st.sym s).type = .string) :
    (calculating st v rank (rank s) (· = s)).Gives
      (fun cs => cs.valid s ∧ ModulesKept st v s old cs)
      (do
        startValue st value s ⟨[], .no⟩
        let val ← newText st value s
        finishValue st value s old ⟨val, .no⟩)
      fun _ cs => Calculated st v s cs := by
  have hchoice : (st.sym s).choice = false := by
    by_contra hchoice
    rcases hch.type s (by simpa using hchoice) with h | h <;> rw [h] at htype <;> simp at htype
  apply (startValue_gives hord hvalue _).bind
  intro _
  apply (newText_gives hord hvalue htype hchoice).bind
  intro val
  apply gives_of_fact
  rintro rfl
  apply finishValue_gives hord hch hvalue hself hv hmem
  · intro h
    rw [hchoice] at h
    cases h
  · have hpicked : picked st v s ⟨askedText st v.curr s, .no⟩ =
        (⟨askedText st v.curr s, .no⟩, none) :=
      if_neg fun h => by simp at h
    rw [hpicked]
    rcases htype with h | h | h <;> simp only [settled, h]

/-- A boolean or tristate symbol. -/
theorem calcTristate_solves (old : SymbolValue)
    (htype : (st.sym s).type = .boolean ∨ (st.sym s).type = .tristate) :
    (calculating st v rank (rank s) (· = s)).Gives
      (fun cs => cs.valid s ∧ ModulesKept st v s old cs)
      (do
        startValue st value s ⟨['n'], .no⟩
        let tri ← newTristate st value s
        finishValue st value s old ⟨['n'], tri⟩)
      fun _ cs => Calculated st v s cs := by
  apply (startValue_gives hord hvalue _).bind
  intro _
  apply (newTristate_gives hord hvalue hch htype).bind
  intro tri
  apply gives_of_fact
  rintro rfl
  apply finishValue_gives hord hch hvalue hself hv hmem
  · intro _
    rfl
  · have hnone : numberBase (st.sym s).type = none := by
      rcases htype with h | h <;> rw [h] <;> rfl
    rw [rangedText, hnone]
    have hset : settled st v s = picked st v s ⟨['n'], tristateValue st v s⟩ := by
      rcases htype with h | h <;> simp only [settled, picked, h]
    rw [hset]

omit hch hvalue hself in
/-- A symbol without a type is a text of its own. -/
theorem calcUntyped_solves (old : SymbolValue)
    (htype : (st.sym s).type = .unknown ∨ (st.sym s).type = .other) :
    (calculating st v rank (rank s) (· = s)).Gives
      (fun cs => cs.valid s ∧ ModulesKept st v s old cs)
      (modify (·.setCurr s ⟨(st.sym s).name.getD [], .no⟩ none))
      fun _ cs => Calculated st v s cs := by
  have hset : settled st v s = (⟨(st.sym s).name.getD [], .no⟩, none) := by
    rcases htype with h | h <;> simp only [settled, h]
  have huntyped : ¬ Typed st s := fun h => htype.elim h.1 h.2
  have hcurr := (hv s hmem).trans hset
  apply gives_touches
  intro cs' _ _
  refine ⟨touches_setCurr s _ _ cs', ?_, ?_, ?_⟩
  · constructor
    · exact (Function.update_self ..).trans (congrArg Prod.fst hcurr).symm
    · exact (Function.update_self ..).trans (congrArg Prod.snd hcurr).symm
    · exact fun h => absurd h huntyped
    · exact fun h => absurd h huntyped
    · exact fun h => absurd h huntyped
  · intro hs
    rw [hord.boolean s hs] at htype
    simp at htype
  · constructor
    · exact fun _ h => absurd h huntyped
    · exact fun _ _ hc => absurd (congrArg Prod.snd hcurr) hc

/-- A symbol that is calculated agrees with the values. -/
theorem calcBody_solves :
    (calculating st v rank (rank s) (· = s)).Gives
      (fun cs => cs.valid s ∧ (st.modulesSym = some s →
        cs.modulesVal = (cs.curr s).tri ∨ cs.modulesVal = modulesValue st v.curr))
      (calcBody st value s) fun _ cs => Calculated st v s cs := by
  apply gives_get
  intro cs hinv hcs
  refine Gives.of_pre (p := fun cs' => cs'.valid s ∧ ModulesKept st v s (cs.curr s) cs') ?_ (by
    rintro _ _ rfl
    exact hcs)
  cases htype : (st.sym s).type with
  | int => exact calcText_solves hord hch hvalue hself hv hmem _ (.inl htype)
  | hex => exact calcText_solves hord hch hvalue hself hv hmem _ (.inr (.inl htype))
  | string => exact calcText_solves hord hch hvalue hself hv hmem _ (.inr (.inr htype))
  | boolean => exact calcTristate_solves hord hch hvalue hself hv hmem _ (.inl htype)
  | tristate => exact calcTristate_solves hord hch hvalue hself hv hmem _ (.inr htype)
  | unknown => exact calcUntyped_solves hord hv hmem _ (.inl htype)
  | other => exact calcUntyped_solves hord hv hmem _ (.inr htype)

end Calc

/-! ## Into the recursion and out of it -/

theorem valid_of_setValid {cs : CalcState} {s t : SymId} (h : (cs.setValid s).valid t)
    (hne : t ≠ s) :
    cs.valid t := by
  have hvalid : Function.update cs.valid s true t = true := h
  rwa [Function.update_of_ne hne] at hvalid

/-- Where a calculation of a symbol starts. -/
theorem Below.enter {r : ℕ} {cs : CalcState} (hinv : Below st v rank r cs) (hr : rank s < r) :
    Below st v rank (rank s) (cs.setValid s) where
  known t ht hvalid := by
    have hne : t ≠ s := by
      rintro rfl
      exact Nat.lt_irrefl _ ht
    have hagrees := hinv.known t (Nat.lt_trans ht hr) (valid_of_setValid hvalid hne)
    exact ⟨hagrees.curr, hagrees.choice, hagrees.visible, hagrees.rev, hagrees.write⟩
  modules := by
    rcases hinv.modules with hmod | hmod
    · exact .inl hmod
    · right
      exact ⟨fun t ht => Nat.lt_trans hr (hmod.1 t ht),
        fun m hm => Nat.le_trans (Nat.le_of_lt hr) (hmod.2 m hm)⟩
  rev := hinv.rev
  cover t ht := valid_setValid s (hinv.cover t ht)
  flags t ht hvalid := by
    have hne : t ≠ s := by
      rintro rfl
      exact Nat.lt_irrefl _ ht
    exact (hinv.flags t (Nat.lt_trans ht hr) (valid_of_setValid hvalid hne)).keeps
      (fun _ hu => valid_setValid s hu) fun _ _ _ h => h

/-- What is known outside is still known, and the symbol itself with it. -/
theorem known_leave {r : ℕ} {cs cs' : CalcState}
    (hknown : ∀ t, rank t < r → cs.valid t → Agrees st v cs t)
    (hinv' : Below st v rank (rank s) cs')
    (hstep : Changes st v rank (rank s) (· = s) (cs.setValid s) cs') (hagrees : Agrees st v cs' s)
    (t : SymId) (ht : rank t < r) (hvalid : cs'.valid t) : Agrees st v cs' t := by
  by_cases hts : t = s
  · rw [hts]
    exact hagrees
  · rcases Nat.lt_or_ge (rank t) (rank s) with hlt | hge
    · exact hinv'.known t hlt hvalid
    · have hsame := hstep.same t hge hts
      have hold := hknown t ht (valid_of_setValid (hsame.valid hvalid) hts)
      exact hold.same ⟨fun h => valid_of_setValid (hsame.valid h) hts, hsame.curr, hsame.choice,
        hsame.visible, hsame.rev, hsame.write⟩

theorem flags_leave {r : ℕ} {cs cs' : CalcState}
    (hflags : ∀ t, rank t < r → cs.valid t → Flagged st v cs t)
    (hinv' : Below st v rank (rank s) cs')
    (hstep : Changes st v rank (rank s) (· = s) (cs.setValid s) cs') (hflagged : Flagged st v cs' s)
    (t : SymId) (ht : rank t < r) (hvalid : cs'.valid t) : Flagged st v cs' t := by
  by_cases hts : t = s
  · rw [hts]
    exact hflagged
  · rcases Nat.lt_or_ge (rank t) (rank s) with hlt | hge
    · exact hinv'.flags t hlt hvalid
    · have hold := valid_of_setValid ((hstep.same t hge hts).valid hvalid) hts
      exact (hflags t ht hold).keeps (fun u hu => hstep.valid u (valid_setValid s hu)) hstep.write

/-- A symbol that agrees with the values is calculated, for everything of a larger rank. -/
theorem Below.leave {r : ℕ} {cs cs' : CalcState} (hinv : Below st v rank r cs) (hr : rank s < r)
    (hinv' : Below st v rank (rank s) cs')
    (hstep : Changes st v rank (rank s) (· = s) (cs.setValid s) cs')
    (hcalc : Calculated st v s cs') :
    Below st v rank r cs' ∧ Changes st v rank r (fun _ => False) cs cs' := by
  constructor
  · constructor
    · exact known_leave hinv.known hinv' hstep hcalc.agrees
    · rcases hstep.modules with hmod | hmod
      · rw [hmod]
        exact hinv.modules
      · exact .inl hmod
    · exact hinv'.rev
    · exact hinv'.cover
    · exact flags_leave hinv.flags hinv' hstep hcalc.flags
  · constructor
    · intro t ht
      exact hstep.valid t (valid_setValid s ht)
    · exact hstep.modules
    · intro t ht _
      have hne : t ≠ s := by
        rintro rfl
        omega
      have hsame := hstep.same t (by omega) hne
      exact ⟨fun hvalid => valid_of_setValid (hsame.valid hvalid) hne, hsame.curr, hsame.choice,
        hsame.visible, hsame.rev, hsame.write⟩
    · exact hstep.write

end Own

/-! ## The recursion -/

variable {st : Setup} {v : Values} {rank : SymId → ℕ}

theorem symCalcValue_valid (fuel : ℕ) {s : SymId} {cs : CalcState} (h : cs.valid s) :
    symCalcValue st fuel s cs = some ((), cs) := by
  cases fuel with
  | zero => exact if_pos h
  | succ fuel => exact if_pos h

theorem symCalcValue_gives (hord : Ordered st rank) (hch : Choices st rank) (hv : Solves st v)
    (fuel : ℕ) {s : SymId} {r : ℕ} (hr : rank s < r) :
    (inner st v rank r).Gives (fun _ => True) (symCalcValue st fuel s) fun _ cs => cs.valid s := by
  induction fuel generalizing s r with
  | zero =>
      intro cs hinv _
      by_cases hs : cs.valid s
      · rw [symCalcValue_valid 0 hs]
        exact ⟨hinv, (inner st v rank r).refl cs, hs⟩
      · have hrun : symCalcValue st 0 s cs = none := if_neg hs
        rw [hrun]
        exact trivial
  | succ fuel ih =>
      intro cs hinv _
      by_cases hs : cs.valid s
      · rw [symCalcValue_valid (fuel + 1) hs]
        exact ⟨hinv, (inner st v rank r).refl cs, hs⟩
      · have hmem : s ∈ st.symbols := by
          by_contra hmem
          exact hs (hinv.cover s hmem)
        have hbody := calcBody_solves hord hch (fun t ht => ih ht)
          (fun t cs ht => symCalcValue_valid fuel ht) hv hmem (cs.setValid s) (hinv.enter hr) ?_
        · have hrun : symCalcValue st (fuel + 1) s cs =
              calcBody st (symCalcValue st fuel) s (cs.setValid s) := if_neg hs
          rw [hrun]
          revert hbody
          cases calcBody st (symCalcValue st fuel) s (cs.setValid s) with
          | none => exact id
          | some p =>
              rintro ⟨hinv', hstep, hcalc⟩
              have hleave := hinv.leave hr hinv' hstep hcalc
              exact ⟨hleave.1, hleave.2, hstep.valid s (Function.update_self ..)⟩
        · refine ⟨Function.update_self .., ?_⟩
          intro hm
          -- below `r` the value of `modules_sym` is only asked for when it is there
          rcases hinv.modules with hmod | hmod
          · exact .inr hmod
          · exact absurd (hmod.2 s hm) (by omega)

/-! ## Runs -/

/-- A state in which every symbol that has a value has the right one. -/
structure Sound (st : Setup) (v : Values) (cs : CalcState) : Prop where
  known : ∀ s, cs.valid s → Agrees st v cs s
  modules : cs.modulesVal = modulesValue st v.curr
  rev : ∀ s, (st.sym s).choiceval → cs.revTri s = .no
  cover : ∀ s, s ∉ st.symbols → cs.valid s
  flags : ∀ s, cs.valid s → Flagged st v cs s

/-- The value of `modules_sym` where it is calculated. -/
theorem Sound.modulesVal {cs : CalcState} (h : Sound st v cs)
    (hmodules : ∀ m ∈ st.modulesSym, cs.valid m) :
    cs.modulesVal = modulesValue st cs.curr := by
  rw [h.modules, modulesValue, modulesValue]
  cases hm : st.modulesSym with
  | none => rfl
  | some m => exact congrArg SymbolValue.tri (h.known m (hmodules m hm)).curr.symm

theorem Sound.below {cs : CalcState} (h : Sound st v cs) (r : ℕ) : Below st v rank r cs :=
  ⟨fun s _ => h.known s, .inl h.modules, h.rev, h.cover, fun s _ => h.flags s⟩

section Runs

variable (hord : Ordered st rank) (hch : Choices st rank) (hv : Solves st v)
include hord hch hv

theorem symCalcValue_sound {fuel : ℕ} {s : SymId} {cs cs' : CalcState} (h : Sound st v cs)
    (hrun : symCalcValue st fuel s cs = some ((), cs')) :
    Sound st v cs' ∧ cs'.valid s ∧ ∀ t, cs.valid t → cs'.valid t := by
  have hgives : ∀ r, rank s < r →
      Below st v rank r cs' ∧ Changes st v rank r (fun _ => False) cs cs' ∧ cs'.valid s :=
    fun r hr => (symCalcValue_gives hord hch hv fuel hr).of_run (h.below r) trivial hrun
  have hlast := hgives (rank s + 1) (Nat.lt_succ_self _)
  refine ⟨⟨?_, ?_, hlast.1.rev, hlast.1.cover, ?_⟩, hlast.2.2, hlast.2.1.valid⟩
  · -- a symbol of any rank is known below a rank that is larger than both
    intro t ht
    exact (hgives (max (rank s) (rank t) + 1) (by omega)).1.known t (by omega) ht
  · rcases hlast.2.1.modules with hmod | hmod
    · exact hmod.trans h.modules
    · exact hmod
  · intro t ht
    exact (hgives (max (rank s) (rank t) + 1) (by omega)).1.flags t (by omega) ht

theorem calcAll_sound {fuel : ℕ} {l : List SymId} {cs cs' : CalcState} (h : Sound st v cs)
    (hrun : calcAll st fuel l cs = some ((), cs')) :
    Sound st v cs' ∧ (∀ s ∈ l, cs'.valid s) ∧ ∀ t, cs.valid t → cs'.valid t := by
  induction l generalizing cs with
  | nil =>
      cases hrun
      exact ⟨h, fun _ hs => (List.not_mem_nil hs).elim, fun _ ht => ht⟩
  | cons s rest ih =>
      have hbind : (symCalcValue st fuel s cs).bind (fun p => calcAll st fuel rest p.2) =
          some ((), cs') :=
        hrun
      obtain ⟨⟨_, cs1⟩, hfirst, hrest⟩ := Option.bind_eq_some_iff.mp hbind
      obtain ⟨hsound, hs, hmono⟩ := symCalcValue_sound hord hch hv h hfirst
      obtain ⟨hsound', hl, hmono'⟩ := ih hsound hrest
      refine ⟨hsound', ?_, fun t ht => hmono' t (hmono t ht)⟩
      intro t ht
      rcases List.mem_cons.mp ht with rfl | ht
      · exact hmono' t hs
      · exact hl t ht

end Runs

/-- What holds between runs, whatever the user has changed since the last one: symbols outside the
table, like the three constants, have their values, `modules_val` is the value of `modules_sym`,
and nothing has ever been selected for a choice value. -/
structure Idle (st : Setup) (v : Values) (cs : CalcState) : Prop where
  const : ∀ s, s ∉ st.symbols → cs.valid s ∧ Agrees st v cs s
  modules : cs.modulesVal = modulesValue st cs.curr
  rev : ∀ s, (st.sym s).choiceval → cs.revTri s = .no

theorem Idle.cleared {cs : CalcState} (h : Idle st v cs) {t : SymId}
    (ht : (cs.clearValid st).valid t) : Agrees st v (cs.clearValid st) t := by
  have hvalid : (cs.valid t && !st.symbols.contains t) = true := ht
  have hmem : t ∉ st.symbols := by simpa using (Bool.and_eq_true_iff.mp hvalid).2
  have hagrees := (h.const t hmem).2
  exact ⟨hagrees.curr, hagrees.choice, hagrees.visible, hagrees.rev, hagrees.write⟩

/-- What has a value after `sym_clear_all_valid` has started is not in the table. -/
theorem flagged_cleared {cs : CalcState} {t : SymId} (ht : (cs.clearValid st).valid t)
    (cs' : CalcState) :
    Flagged st v cs' t := by
  have hvalid : (cs.valid t && !st.symbols.contains t) = true := ht
  have hmem : t ∉ st.symbols := by simpa using (Bool.and_eq_true_iff.mp hvalid).2
  exact ⟨fun h => absurd h hmem, fun h => absurd h hmem⟩

theorem Idle.cover {cs : CalcState} (h : Idle st v cs) (t : SymId) (ht : t ∉ st.symbols) :
    (cs.clearValid st).valid t := by
  show (cs.valid t && !st.symbols.contains t) = true
  simpa [ht] using (h.const t ht).1

/-- Nothing that `modules_sym` depends on asks for its value. -/
theorem Idle.enter {cs : CalcState} (h : Idle st v cs) (hord : Ordered st rank) {m : SymId}
    (hm : st.modulesSym = some m) :
    Below st v rank (rank m) ((cs.clearValid st).setValid m) where
  known t ht hvalid := by
    have hne : t ≠ m := by
      rintro rfl
      exact Nat.lt_irrefl _ ht
    have hagrees := h.cleared (valid_of_setValid hvalid hne)
    exact ⟨hagrees.curr, hagrees.choice, hagrees.visible, hagrees.rev, hagrees.write⟩
  modules := by
    right
    refine ⟨fun t ht => hord.modules m hm t ht, ?_⟩
    intro m' hm'
    rw [Option.some_inj.mp (hm.symm.trans hm')]
  rev := h.rev
  cover t ht := valid_setValid m (h.cover t ht)
  flags t ht hvalid := by
    have hne : t ≠ m := by
      rintro rfl
      exact Nat.lt_irrefl _ ht
    exact flagged_cleared (valid_of_setValid hvalid hne) _

/-- `sym_clear_all_valid` leaves a state in which everything that has a value has the right one. -/
theorem symClearAllValid_sound (hord : Ordered st rank) (hch : Choices st rank) (hv : Solves st v)
    {fuel : ℕ} {cs cs' : CalcState} (h : Idle st v cs)
    (hrun : symClearAllValid st fuel cs = some ((), cs')) : Sound st v cs' := by
  have hsound : (cs.clearValid st).modulesVal = modulesValue st v.curr →
      Sound st v (cs.clearValid st) := fun hmod =>
    ⟨fun _ ht => h.cleared ht, hmod, h.rev, h.cover, fun _ ht => flagged_cleared ht _⟩
  have hrun' : calcModules st fuel (cs.clearValid st) = some ((), cs') := hrun
  unfold calcModules at hrun'
  cases hm : st.modulesSym with
  | none =>
      rw [hm] at hrun'
      cases hrun'
      apply hsound
      have hmod := h.modules
      rw [modulesValue, hm] at hmod ⊢
      exact hmod
  | some m =>
      rw [hm] at hrun'
      replace hrun' : symCalcValue st fuel m (cs.clearValid st) = some ((), cs') := hrun'
      have hmod : cs.modulesVal = (cs.curr m).tri := by
        have hmod := h.modules
        rwa [modulesValue, hm] at hmod
      -- `modules_sym` may be a constant, which is not cleared
      by_cases hmem : m ∈ st.symbols
      · have hinvalid : ¬ (cs.clearValid st).valid m := by
          show ¬ (cs.valid m && !st.symbols.contains m) = true
          simp [hmem]
        cases fuel with
        | zero =>
            have hstuck : symCalcValue st 0 m (cs.clearValid st) = none := if_neg hinvalid
            rw [hstuck] at hrun'
            cases hrun'
        | succ fuel =>
            -- it is calculated while `modules_val` is still the old value, which
            -- `calcBody_solves` allows
            have hbody : calcBody st (symCalcValue st fuel) m ((cs.clearValid st).setValid m) =
                some ((), cs') := (if_neg hinvalid).symm.trans hrun'
            have hout :=
              (calcBody_solves hord hch (fun t ht => symCalcValue_gives hord hch hv fuel ht)
              (fun t cs ht => symCalcValue_valid fuel ht) hv hmem).of_run (h.enter hord hm)
              ⟨Function.update_self .., fun _ => .inl hmod⟩ hbody
            obtain ⟨hinv', hstep, hcalc⟩ := hout
            refine ⟨?_, hcalc.modules hm, hinv'.rev, hinv'.cover, ?_⟩
            · intro t ht
              exact known_leave (r := rank t + 1) (fun u _ hu => h.cleared hu) hinv' hstep
                hcalc.agrees t (Nat.lt_succ_self _) ht
            · intro t ht
              exact flags_leave (r := rank t + 1) (fun u _ hu => flagged_cleared hu _) hinv' hstep
                hcalc.flags t (Nat.lt_succ_self _) ht
      · have hvalid := h.cover m hmem
        rw [symCalcValue_valid fuel hvalid] at hrun'
        cases hrun'
        apply hsound
        rw [modulesValue, hm]
        exact hmod.trans (congrArg SymbolValue.tri (h.const m hmem).2.curr)

/-- `sym_clear_all_valid` comes to an end, and calculates the value of `modules_sym`. -/
theorem symClearAllValid_exists (hst : Resolved st) {cs : CalcState}
    (hcover : ∀ s, s ∉ st.symbols → cs.valid s) :
    ∃ cs', symClearAllValid st st.symbols.length cs = some ((), cs') ∧
      ∀ m ∈ st.modulesSym, cs'.valid m := by
  have hinv := reaching_clearValid hcover
  show ∃ cs', calcModules st st.symbols.length (cs.clearValid st) = some ((), cs') ∧ _
  unfold calcModules
  cases hm : st.modulesSym with
  | none =>
      refine ⟨cs.clearValid st, rfl, ?_⟩
      intro m hm
      cases hm
  | some m =>
      obtain ⟨_, cs', hrun, _, _, hvalid⟩ :=
        (symCalcValue_runs hst st.symbols.length m).exists_run (fun h => h) hinv trivial
      refine ⟨cs', hrun, ?_⟩
      rintro _ ⟨⟩
      exact hvalid

/-- Whatever has been calculated before and whatever is asked for in which order: after
`sym_clear_all_valid`, `sym_calc_value` gives every symbol its value. -/
theorem calcAll_solves (hst : Resolved st) (hord : Ordered st rank) (hch : Choices st rank)
    (hv : Solves st v) {cs : CalcState} (h : Idle st v cs) (l : List SymId) :
    ∃ cs', (do symClearAllValid st st.symbols.length; calcAll st st.symbols.length l) cs =
        some ((), cs') ∧ Sound st v cs' ∧ ∀ s ∈ l, cs'.valid s := by
  have hcover : ∀ t, t ∉ st.symbols → cs.valid t := fun t ht => (h.const t ht).1
  obtain ⟨_, cs', hrun, _, _, hvalid⟩ :=
    (calcModules_calcAll_runs hst l).exists_run (fun h => h) (reaching_clearValid hcover) trivial
  have hbind : (symClearAllValid st st.symbols.length cs).bind
      (fun p => calcAll st st.symbols.length l p.2) = some ((), cs') := hrun
  obtain ⟨⟨_, cs1⟩, hfirst, hrest⟩ := Option.bind_eq_some_iff.mp hbind
  have hsound := (calcAll_sound hord hch hv (symClearAllValid_sound hord hch hv h hfirst) hrest).1
  exact ⟨cs', hrun, hsound, hvalid⟩

end Pbs.Kconfig
