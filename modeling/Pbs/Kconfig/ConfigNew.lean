import Pbs.Kconfig.SymDefault

/-!
# New symbols all at once

`conf_set_all_new_symbols` sets every symbol that the user has not set. This is how `allyesconfig`,
`allmodconfig` and `allnoconfig` come about. What such a configuration consists of is said by
`confSetAllNewSymbols_sets`: of what selects demand with `n`, and of all that is visible with `y`.
-/

namespace Pbs.Kconfig

/-! ## conf_set_all_new_symbols -/

/-- `enum conf_def_mode`, without `def_random`. -/
inductive ConfDefMode where
  | default
  | yes
  | mod
  | no

/-- What boolean and tristate symbols are set to. -/
def ConfDefMode.tri : ConfDefMode → Option Tristate
  | .default => none
  | .yes => some .yes
  | .mod => some .mod
  | .no => some .no

section Functions

variable (st : Setup) (fuel : ℕ)

/-- A symbol that the first loop sets: it is boolean or tristate, and has not been set. -/
def isNew (user : UserValues) (s : SymId) : Bool :=
  !user.has s && st.symbols.contains s && ((st.sym s).type = .boolean ∨ (st.sym s).type = .tristate)

/-- The first loop of `conf_set_all_new_symbols`. -/
def setNewSymbols (mode : ConfDefMode) (user : UserValues) : UserValues :=
  match mode.tri with
  | none => user
  | some tri => { user with
      has := fun s => user.has s || isNew st user s
      tri := fun s => if isNew st user s then tri else user.tri s }

/-- `set_all_choice_values`. -/
def setAllChoiceValues (c : SymId) (ss : Session) : Option Session := do
  let values ← st.values c
  -- the choice will be calculated again
  return { ss with
    user := { ss.user with
      has := Function.update ss.user.has c true
      tri := fun s => if values.contains s ∧ ¬ ss.user.has s then .no else ss.user.tri s }
    cs := { ss.cs with valid := Function.update ss.cs.valid c false } }

/-- The second loop of `conf_set_all_new_symbols`. -/
def setNewChoices : List SymId → Session → Option Session
  | [], ss => some ss
  | c :: rest, ss =>
      if ss.user.has c ∨ ¬ (st.sym c).choice then setNewChoices rest ss
      else do
        let ss ← ss.calc st fuel c
        let ss ← setAllChoiceValues st c ss
        setNewChoices rest ss

/-- `conf_set_all_new_symbols`. -/
def confSetAllNewSymbols (mode : ConfDefMode) (ss : Session) : Option Session := do
  let ss ← ss.clear st fuel (setNewSymbols st mode ss.user)
  setNewChoices st fuel st.symbols ss

end Functions

section New

variable {st : Setup} {rank : SymId → ℕ} {v : Values} {ss : Session} {s : SymId}
  {mode : ConfDefMode} {tri : Tristate} {user : UserValues}

theorem setNewSymbols_eq (hmode : mode.tri = some tri) : setNewSymbols st mode user = { user with
    has := fun s => user.has s || isNew st user s
    tri := fun s => if isNew st user s then tri else user.tri s } := by
  unfold setNewSymbols
  rw [hmode]

/-- Every boolean or tristate symbol counts as set. -/
theorem has_setNewSymbols (user : UserValues) (hmode : mode.tri = some tri) (hs : s ∈ st.symbols)
    (htype : (st.sym s).type = .boolean ∨ (st.sym s).type = .tristate) :
    (setNewSymbols st mode user).has s = true ∧
      (setNewSymbols st mode user).tri s = if user.has s then user.tri s else tri := by
  have hnew : isNew st user s = !user.has s := by
    rcases htype with htype | htype <;> simp [isNew, hs, htype]
  rw [setNewSymbols_eq hmode]
  show (user.has s || isNew st user s) = true ∧ (if isNew st user s then tri else user.tri s) = _
  rw [hnew]
  cases user.has s <;> simp

/-- The second loop has nothing to do where every choice is set. -/
theorem setNewChoices_set {fuel : ℕ} {l : List SymId}
    (h : ∀ c ∈ l, (st.sym c).choice → ss.user.has c) :
    setNewChoices st fuel l ss = some ss := by
  induction l with
  | nil => rfl
  | cons c rest ih =>
      have hskip : ss.user.has c ∨ ¬ (st.sym c).choice := by
        by_cases hchoice : (st.sym c).choice = true
        · exact .inl (h c List.mem_cons_self hchoice)
        · exact .inr hchoice
      exact (if_pos hskip).trans (ih fun c hc => h c (List.mem_cons_of_mem _ hc))

theorem liftMod_of_ne {type : SymbolType} (h : type = .boolean → tri ≠ .mod) :
    liftMod type tri = tri :=
  if_neg fun hmod => h hmod.2 hmod.1

/-- A symbol that is shown gets what it is set to, as far as its prompts allow, and at least what
selects demand. -/
theorem tri_setNewSymbols {user' : UserValues} (hv : Solves (st.withUser user') v)
    (hs : s ∈ st.symbols) (htype : (st.sym s).type = .boolean ∨ (st.sym s).type = .tristate)
    (hchoice : (st.sym s).choice = false) (hval : (st.sym s).choiceval = false) (hhas : user'.has s)
    (hvis : visibleValue st v.curr s ≠ .no) :
    (v.curr s).tri = liftMod (typeValue st v.curr s)
      (exprOr (exprAnd (user'.tri s) (visibleValue st v.curr s)) (revValue st v.curr s)) := by
  have hcurr : v.curr s = _ := congrArg Prod.fst ((hv s hs).trans (settled_plain htype hchoice))
  have hvalue : tristateValue (st.withUser user') v s = _ := tristateValue_plain hval
  have hasked : askedTristate (st.withUser user') v.curr s =
      exprAnd (user'.tri s) (visibleValue st v.curr s) := if_pos ⟨hvis, hhas⟩
  rw [hcurr, hvalue, hasked]
  rfl

/-- What selects demand is possible for the type. -/
theorem liftMod_no :
    liftMod (typeValue st v.curr s)
      (exprOr (exprAnd .no (visibleValue st v.curr s)) (revValue st v.curr s)) =
      revValue st v.curr s := by
  have hasked : exprOr (exprAnd .no (visibleValue st v.curr s)) (revValue st v.curr s) =
      revValue st v.curr s := by
    cases visibleValue st v.curr s <;> cases revValue st v.curr s <;> rfl
  rw [hasked]
  exact liftMod_of_ne revValue_ne_mod

theorem liftMod_yes :
    liftMod (typeValue st v.curr s)
      (exprOr (exprAnd .yes (visibleValue st v.curr s)) (revValue st v.curr s)) =
      exprOr (visibleValue st v.curr s) (revValue st v.curr s) := by
  have hasked : exprAnd .yes (visibleValue st v.curr s) = visibleValue st v.curr s := by
    cases visibleValue st v.curr s <;> rfl
  rw [hasked]
  apply liftMod_of_ne
  intro hboolean
  -- where `m` is not possible, neither the prompts nor the selects come to it
  have hvis := visibleValue_ne_mod hboolean
  have hrev := revValue_ne_mod hboolean
  revert hvis hrev
  cases visibleValue st v.curr s <;> cases revValue st v.curr s <;> simp [exprOr, Tristate.toNat]

/-- In `allnoconfig` a new symbol that is shown is what selects demand, and in `allyesconfig` it
is also all that its prompts allow. What the user has set counts as before. -/
theorem confSetAllNewSymbols_sets (hst : Resolved st) (hord : Ordered st rank)
    (huntyped : ∀ s, s ∉ st.symbols → ¬ Typed st s) (h : Coherent st rank v ss)
    (hmode : mode.tri = some tri) :
    ∃ ss', confSetAllNewSymbols st st.symbols.length mode ss = some ss' ∧
      ∀ s ∈ st.symbols, (st.sym s).type = .boolean ∨ (st.sym s).type = .tristate →
        (st.sym s).choice = false → (st.sym s).choiceval = false → ∃ cs',
          symCalcValue (st.withUser ss'.user) st.symbols.length s ss'.cs = some ((), cs') ∧
          (cs'.visible s ≠ .no →
            (cs'.curr s).tri = liftMod (symGetType (st.sym s) (cs'.visible s) cs'.modulesVal)
              (exprOr (exprAnd (if ss.user.has s then ss.user.tri s else tri) (cs'.visible s))
                (cs'.revTri s)) ∧
            (ss.user.has s = false → tri = .no → (cs'.curr s).tri = cs'.revTri s) ∧
            (ss.user.has s = false → tri = .yes →
              (cs'.curr s).tri = exprOr (cs'.visible s) (cs'.revTri s))) := by
  have hch' : Choices (st.withUser (setNewSymbols st mode ss.user)) rank := by
    apply choices_withUser h.choices
    rw [setNewSymbols_eq hmode]
  obtain ⟨ss', v', hclear, huser, _, hcoherent, _⟩ := h.clear hst hord huntyped hch'
  -- the first loop has set the choices, too
  have hloop : setNewChoices st st.symbols.length st.symbols ss' = some ss' := by
    apply setNewChoices_set
    intro c hc hchoice
    rw [huser]
    exact (has_setNewSymbols ss.user hmode hc (h.choices.type c hchoice)).1
  refine ⟨ss', ?_, ?_⟩
  · show (ss.clear _ _ _).bind _ = _
    rw [hclear]
    exact hloop
  · intro s hs htype hchoice hval
    obtain ⟨hhas, htri⟩ := has_setNewSymbols ss.user hmode hs htype
    rw [← huser] at hhas htri
    obtain ⟨_, cs', hcalc, hsound, _, hvalid⟩ := (symCalcValue_sounding (hst.withUser ss'.user)
      (hord.withUser ss'.user) hcoherent.choices hcoherent.solves s).exists_run (fun h => h)
      hcoherent.sound trivial
    have hagrees := hsound.known s hvalid
    have htyped : Typed st s := typed_of_tristate htype
    have hmodules : cs'.modulesVal = modulesValue st v'.curr := hsound.modules
    refine ⟨cs', hcalc, ?_⟩
    rw [hagrees.curr, hagrees.visible htyped, hagrees.rev htyped, hmodules]
    intro hvis
    have hvalue := tri_setNewSymbols hcoherent.solves hs htype hchoice hval hhas hvis
    rw [htri] at hvalue
    refine ⟨hvalue, ?_, ?_⟩
    · rintro hnew rfl
      rw [if_neg (by simp [hnew])] at hvalue
      exact hvalue.trans liftMod_no
    · rintro hnew rfl
      rw [if_neg (by simp [hnew])] at hvalue
      exact hvalue.trans liftMod_yes

end New

/-- `sample`, where the user has not set `FOO`. -/
def newSample : Setup := sample.withUser (sample.user.unset 4)

theorem confSetAllNewSymbols_sets_sample :
    ∃ cs ss' cs', (do symClearAllValid newSample 7; calcAll newSample 7 [3, 4, 5, 6, 7, 8, 9])
        sampleStart = some ((), cs) ∧
      confSetAllNewSymbols newSample 7 .yes ⟨newSample.user, newSample.user.has, cs⟩ = some ss' ∧
      symCalcValue (newSample.withUser ss'.user) 7 4 ss'.cs = some ((), cs') ∧
      cs'.visible 4 = .yes ∧ (cs'.curr 4).tri = exprOr (cs'.visible 4) (cs'.revTri 4) := by
  have hrest : Resting newSample sampleStart :=
    ⟨resting_sampleStart.valid, resting_sampleStart.choice, resting_sampleStart.untyped,
      resting_sampleStart.modules, resting_sampleStart.rev⟩
  have hst : Resolved newSample := resolved_sample.withUser _
  have hord : Ordered newSample sampleRank := ordered_sample.withUser _
  have hchoices : Choices (sample.withUser sample.user) sampleRank := choices_sample
  have hch : Choices newSample sampleRank := choices_withUser hchoices rfl
  obtain ⟨cs, hrun, hcoherent, _⟩ :=
    coherent_calcAll hst hord hch hrest (l := [3, 4, 5, 6, 7, 8, 9]) (by decide) newSample.user.has
  obtain ⟨ss', hset, hvalues⟩ := confSetAllNewSymbols_sets hst hord hrest.untyped hcoherent
    (show ConfDefMode.yes.tri = some .yes from rfl)
  have hunset : newSample.user.has 4 = false := rfl
  obtain ⟨cs', hcalc, hvalue⟩ := hvalues 4 (by decide) (by decide) rfl rfl
  have hshown : ∀ r ∈
      (do symClearAllValid newSample 7; calcAll newSample 7 [3, 4, 5, 6, 7, 8, 9]) sampleStart,
      ∀ ss' ∈ confSetAllNewSymbols newSample 7 .yes ⟨newSample.user, newSample.user.has, r.2⟩,
        ∀ r' ∈ symCalcValue (newSample.withUser ss'.user) 7 4 ss'.cs, r'.2.visible 4 = .yes := by
    decide +kernel
  have hvis : cs'.visible 4 = .yes := hshown _ hrun ss' hset _ hcalc
  refine ⟨cs, ss', cs', hrun, hset, hcalc, hvis, ?_⟩
  exact (hvalue (by rw [hvis]; decide)).2.2 hunset rfl

end Pbs.Kconfig
