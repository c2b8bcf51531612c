import Pbs.Kconfig.ConfigM4
import Pbs.Kconfig.SymFacts

/-!
# What the user sets and what the values are

`sym_calc_value` looks at what the user has set only within what the prompts allow. Which values
of a symbol come out again when they are set for it (`Settable`), and which changes of the user
values leave the value of a symbol or of a choice as it is.
-/

namespace Pbs.Kconfig

open ConfigM4 (symStringValid)

/-! ## Values that come out again -/

/-- A value that the user could have set for the symbol: within what its prompts allow or what is
selected, or, for a number, inside the range that it has with this value. -/
def Settable (st : Setup) (v : Values) (s : SymId) : Prop :=
  visibleValue st v.curr s = .no ∨
    match (st.sym s).type with
    | .boolean | .tristate => (st.sym s).choice ∨ (st.sym s).choiceval ∨
        (v.curr s).tri.toNat ≤ (visibleValue st v.curr s).toNat ∨
        (v.curr s).tri.toNat ≤ (revValue st v.curr s).toNat
    | .int | .hex => symStringValid (st.sym s).type (v.curr s).val →
        rangedText st v.curr s (v.curr s).val = (v.curr s).val
    | .string | .unknown | .other => True

section Plain

variable {st : Setup} {v : Values} {rank : SymId → ℕ} {user : UserValues} {s : SymId}

/-- What is set for a symbol that is not visible does not count. -/
theorem askedTristate_hidden (hvis : visibleValue st v.curr s = .no) :
    askedTristate (st.withUser user) v.curr s = askedTristate st v.curr s := by
  have hnot : ∀ set : Bool, ¬ (visibleValue st v.curr s ≠ .no ∧ set = true) := fun _ h => h.1 hvis
  unfold askedTristate
  exact (if_neg (hnot _)).trans (if_neg (hnot _)).symm

theorem askedText_hidden (hvis : visibleValue st v.curr s = .no) :
    askedText (st.withUser user) v.curr s = askedText st v.curr s := by
  have hnot : ∀ set : Bool, ¬ (visibleValue st v.curr s ≠ .no ∧ set = true) := fun _ h => h.1 hvis
  unfold askedText
  exact (if_neg (hnot _)).trans (if_neg (hnot _)).symm

theorem settled_plain (htype : (st.sym s).type = .boolean ∨ (st.sym s).type = .tristate)
    (hchoice : (st.sym s).choice = false) :
    settled st v s = (⟨['n'], tristateValue st v s⟩, none) := by
  have hnot : ¬ ((st.sym s).choice = true ∧ tristateValue st v s = .yes) := by
    rw [hchoice]
    exact fun h => absurd h.1 (by decide)
  rcases htype with htype | htype <;> simp only [settled, htype, if_neg hnot]

/-- A symbol that has its value gets it. -/
theorem settled_eq_curr (hv : Solves st v) (hs : s ∈ st.symbols)
    (htype : (st.sym s).type = .boolean ∨ (st.sym s).type = .tristate)
    (hchoice : (st.sym s).choice = false) : settled st v s = (v.curr s, none) := by
  have hplain : settled st v s = _ := settled_plain htype hchoice
  have hcurr : v.curr s = (settled st v s).1 := congrArg Prod.fst (hv s hs)
  rw [hcurr, hplain]

theorem settled_text
    (htype : (st.sym s).type = .int ∨ (st.sym s).type = .hex ∨ (st.sym s).type = .string) :
    settled st v s = (⟨rangedText st v.curr s (askedText st v.curr s), .no⟩, none) := by
  rcases htype with htype | htype | htype <;> simp only [settled, htype]

/-- A symbol that counts as boolean is visible or not. -/
theorem visibleValue_ne_mod (htype : typeValue st v.curr s = .boolean) :
    visibleValue st v.curr s ≠ .mod := by
  intro hmod
  unfold visibleValue liftVisible at hmod
  unfold typeValue symGetType at htype
  by_cases htristate : (st.sym s).type = .tristate
  · have hmodules : modulesValue st v.curr = .no := by
      by_contra hmodules
      rw [if_pos htristate, if_neg hmodules] at htype
      split at htype
      case isTrue hval =>
        unfold visibleValue liftVisible at hval
        rw [hval.2] at hmod
        cases hmod
      case isFalse => cases htype
    rw [hmodules] at hmod
    revert hmod
    cases promptValue st v.curr (st.sym s).prompts <;> simp
  · rw [if_neg htristate] at htype
    rw [htype] at hmod
    revert hmod
    cases promptValue st v.curr (st.sym s).prompts <;> simp

theorem revValue_ne_mod (htype : typeValue st v.curr s = .boolean) :
    revValue st v.curr s ≠ .mod := by
  unfold revValue
  rw [htype]
  split
  · decide
  · exact liftMod_boolean

/-- A value that is set again becomes what it was, where it is inside its bounds. -/
theorem liftMod_again {type : SymbolType} {tri visible rev : Tristate} (hle : rev.toNat ≤ tri.toNat)
    (htri : type = .boolean → tri ≠ .mod) (hvis : type = .boolean → visible ≠ .mod)
    (hrev : type = .boolean → rev ≠ .mod) :
    liftMod type (exprOr (exprAnd tri visible) rev) = tri ↔
      tri.toNat ≤ visible.toNat ∨ tri.toNat ≤ rev.toNat := by
  unfold liftMod
  by_cases htype : type = .boolean
  · have htri := htri htype
    have hvis := hvis htype
    have hrev := hrev htype
    revert hle htri hvis hrev
    cases tri <;> cases visible <;> cases rev <;> simp [htype, exprOr, exprAnd, Tristate.toNat]
  · revert hle
    cases tri <;> cases visible <;> cases rev <;> simp [htype, exprOr, exprAnd, Tristate.toNat]

theorem tristateValue_plain (hval : (st.sym s).choiceval = false) :
    tristateValue st v s =
      liftMod (typeValue st v.curr s)
        (exprOr (askedTristate st v.curr s) (revValue st v.curr s)) := by
  unfold tristateValue
  rw [if_neg (by simp [hval])]

/-- A boolean or tristate symbol. -/
theorem settled_plain_iff (hv : Solves st v) (hs : s ∈ st.symbols)
    (htype : (st.sym s).type = .boolean ∨ (st.sym s).type = .tristate)
    (hchoice : (st.sym s).choice = false) (hval : (st.sym s).choiceval = false)
    (huser : visibleValue st v.curr s ≠ .no → user.has s ∧ user.tri s = (v.curr s).tri) :
    settled (st.withUser user) v s = settled st v s ↔ Settable st v s := by
  have hsettable : Settable st v s ↔ visibleValue st v.curr s = .no ∨
      (v.curr s).tri.toNat ≤ (visibleValue st v.curr s).toNat ∨
      (v.curr s).tri.toNat ≤ (revValue st v.curr s).toNat := by
    unfold Settable
    rcases htype with htype | htype <;> simp [htype, hchoice, hval]
  have hvalue : tristateValue st v s = _ := tristateValue_plain hval
  have hvalue' : tristateValue (st.withUser user) v s = _ := tristateValue_plain hval
  have hcurr : (v.curr s).tri = tristateValue st v s := by
    have hsolve := (hv s hs).trans (settled_plain htype hchoice)
    rw [(Prod.mk.inj hsolve).1]
  have heq : settled (st.withUser user) v s = settled st v s ↔
      tristateValue (st.withUser user) v s = (v.curr s).tri := by
    have hnew : settled (st.withUser user) v s =
        (⟨['n'], tristateValue (st.withUser user) v s⟩, none) :=
      settled_plain htype hchoice
    rw [hnew, settled_plain htype hchoice, hcurr]
    simp
  rw [heq, hsettable, hvalue']
  show liftMod (typeValue st v.curr s) (exprOr _ (revValue st v.curr s)) = _ ↔ _
  -- where nothing is shown, what the user has set is not asked for
  by_cases hvis : visibleValue st v.curr s = .no
  · rw [askedTristate_hidden hvis]
    refine iff_of_true ?_ (.inl hvis)
    rw [hcurr, hvalue]
  · have hasked : askedTristate (st.withUser user) v.curr s =
        exprAnd (v.curr s).tri (visibleValue st v.curr s) := by
      rw [← (huser hvis).2]
      exact if_pos ⟨hvis, (huser hvis).1⟩
    rw [hasked, or_iff_right hvis]
    apply liftMod_again
    · rw [hcurr, hvalue]
      refine Nat.le_trans ?_ (le_liftMod _ _)
      unfold exprOr
      split
      case isTrue hlt => exact Nat.le_of_lt hlt
      case isFalse => exact Nat.le_refl _
    · intro hboolean
      rw [hcurr, hvalue, hboolean]
      exact liftMod_boolean
    · exact visibleValue_ne_mod
    · exact revValue_ne_mod

/-- A boolean value of a choice does not depend on what is set for it. -/
theorem settled_value (htype : (st.sym s).type = .boolean) (hchoice : (st.sym s).choice = false)
    (hval : (st.sym s).choiceval) : settled (st.withUser user) v s = settled st v s := by
  have htri : tristateValue (st.withUser user) v s = tristateValue st v s := by
    show liftMod (typeValue st v.curr s)
      (if (st.sym s).choiceval ∧ visibleValue st v.curr s = .yes then
        if (st.choiceOf s).bind v.choice = some s then Tristate.yes else .no
      else exprOr _ (revValue st v.curr s)) = tristateValue st v s
    unfold tristateValue
    by_cases hvis : visibleValue st v.curr s = .yes
    · exact congrArg (liftMod _) ((if_pos ⟨hval, hvis⟩).trans (if_pos ⟨hval, hvis⟩).symm)
    · have hno : visibleValue st v.curr s = .no := by
        by_contra hno
        exact hvis (visibleValue_boolean htype hno)
      rw [if_neg fun h => hvis h.2, if_neg fun h => hvis h.2, askedTristate_hidden hno]
  have hnew : settled (st.withUser user) v s =
      (⟨['n'], tristateValue (st.withUser user) v s⟩, none) :=
    settled_plain (.inl htype) hchoice
  rw [hnew, settled_plain (.inl htype) hchoice, htri]

theorem settled_choice_no {c : SymId} (htype : (st.sym c).type = .boolean)
    (hset : tristateValue st v c ≠ .yes) : settled st v c = (⟨['n'], .no⟩, none) := by
  have hlift : typeValue st v.curr c = .boolean := by
    simp [typeValue, symGetType, htype]
  have hno : tristateValue st v c = .no := by
    have hmod : tristateValue st v c ≠ .mod := by
      unfold tristateValue
      rw [hlift]
      exact liftMod_boolean
    revert hset hmod
    cases tristateValue st v c <;> simp
  simp only [settled, htype, hno, reduceCtorEq, and_false, if_false]

/-- A value within the bounds comes out as it is. -/
theorem liftMod_within {type : SymbolType} {tri visible rev : Tristate}
    (hlow : rev.toNat ≤ tri.toNat)
    (hhigh : tri.toNat ≤ visible.toNat) (hmod : type = .boolean → tri ≠ .mod) :
    liftMod type (exprOr (exprAnd tri visible) rev) = tri := by
  have hbounds : exprOr (exprAnd tri visible) rev = tri := by
    revert hlow hhigh
    cases tri <;> cases visible <;> cases rev <;> simp [exprOr, exprAnd, Tristate.toNat]
  rw [hbounds]
  exact if_neg fun h => hmod h.2 h.1

/-- What is set for a symbol within its bounds is the value that it gets. -/
theorem set_plain (hst : Resolved st) (hord : Ordered st rank) (hch : Choices st rank)
    (hv : Solves st v)
    {v' : Values} (hv' : Solves (st.withUser user) v') (hsame : SameConstants st v v')
    (hs : s ∈ st.symbols) (htype : (st.sym s).type = .boolean ∨ (st.sym s).type = .tristate)
    (hchoice : (st.sym s).choice = false) (hval : (st.sym s).choiceval = false)
    (hother : ∀ t, t ≠ s → st.user.Alike user t) (hhas : user.has s)
    (hvis : visibleValue st v.curr s ≠ .no)
    (hlow : (revValue st v.curr s).toNat ≤ (user.tri s).toNat)
    (hhigh : (user.tri s).toNat ≤ (visibleValue st v.curr s).toNat)
    (hmod : typeValue st v.curr s = .boolean → user.tri s ≠ .mod) :
    (v'.curr s).tri = user.tri s := by
  have hbelow : ∀ t, rank t < rank s → v.curr t = v'.curr t := by
    intro t ht
    refine (hv.congr_below hst hord hch hv' hsame (r := rank s) ?_ t ht).1
    intro u hu
    apply hother
    rintro rfl
    exact Nat.lt_irrefl _ hu
  have hvis' := visibleValue_congr hord hbelow
  have hcurr : v'.curr s = ⟨['n'], tristateValue (st.withUser user) v' s⟩ :=
    congrArg Prod.fst ((hv' s hs).trans (settled_plain htype hchoice))
  have hvalue : tristateValue (st.withUser user) v' s = _ := tristateValue_plain hval
  have hasked : askedTristate (st.withUser user) v'.curr s =
      exprAnd (user.tri s) (visibleValue st v.curr s) := by
    rw [hvis']
    exact if_pos ⟨hvis' ▸ hvis, hhas⟩
  rw [hcurr, hvalue, hasked]
  show liftMod (typeValue st v'.curr s) (exprOr _ (revValue st v'.curr s)) = _
  rw [← typeValue_congr hord hbelow, ← revValue_congr hord hbelow]
  exact liftMod_within hlow hhigh hmod

end Plain

/-! ## Choices -/

/-- The choices have boolean values without defaults, and all of these are in the table. -/
structure BooleanChoices (st : Setup) : Prop where
  choice : ∀ c, (st.sym c).choice → c ∈ st.symbols ∧ (st.sym c).type = .boolean ∧
    ∀ values ∈ st.values c, ∀ s ∈ values, s ∈ st.symbols
  value : ∀ s, (st.sym s).choiceval → s ∈ st.symbols ∧ (st.sym s).type = .boolean ∧
    (st.sym s).properties .default = [] ∧
    ∀ c ∈ st.choiceOf s, (st.sym c).choice ∧ ∃ values ∈ st.values c, s ∈ values

section Choice

variable {st : Setup} {v : Values} {rank : SymId → ℕ} {user : UserValues} {c : SymId}

/-- A choice is not a value of another one. -/
theorem choiceval_of_choice (hst : Resolved st) (hch : Choices st rank)
    (hchoice : (st.sym c).choice) :
    (st.sym c).choiceval = false := by
  by_contra hval
  have hval : (st.sym c).choiceval = true := by simpa using hval
  obtain ⟨c', hof⟩ := Option.isSome_iff_exists.mp (hst.choiceOf c hval)
  exact absurd (hchoice.symm.trans (hch.choice c hval c' hof).1) (by decide)

/-- The value of a choice, apart from what it selects. -/
theorem tristateValue_choice (hc : (st.sym c).choice) (hval : (st.sym c).choiceval = false)
    (htype : (st.sym c).type = .boolean) {v : Values} :
    tristateValue st v c = .yes ↔
      (visibleValue st v.curr c ≠ .no ∧ st.user.has c ∧ st.user.tri c ≠ .no) ∨
        revValue st v.curr c ≠ .no := by
  have hlift : typeValue st v.curr c = .boolean := by
    simp [typeValue, symGetType, htype]
  have hvis := visibleValue_ne_mod hlift
  unfold tristateValue
  rw [if_neg (by simp [hval]), hlift]
  unfold askedTristate
  rw [if_pos hc]
  by_cases hset : visibleValue st v.curr c ≠ .no ∧ st.user.has c
  · rw [if_pos hset]
    have hset' := hset.1
    revert hvis hset'
    simp only [hset.2, true_and]
    cases visibleValue st v.curr c <;> cases st.user.tri c <;> cases revValue st v.curr c <;>
      simp [liftMod, exprOr, exprAnd, Tristate.toNat]
  · rw [if_neg hset]
    have hnot : ¬ (visibleValue st v.curr c ≠ .no ∧ st.user.has c ∧ st.user.tri c ≠ .no) :=
      fun h => hset ⟨h.1, h.2.1⟩
    rw [or_iff_right hnot]
    cases revValue st v.curr c <;> simp [liftMod, exprOr, Tristate.toNat]

/-- What a choice has selected is a value that is visible. -/
theorem chosen_of_choice (hv : Solves st v) (hst : Resolved st) (hch : Choices st rank)
    (hbool : BooleanChoices st) (hchoice : (st.sym c).choice) {d : SymId}
    (hd : v.choice c = some d) :
    tristateValue st v c = .yes ∧ selected st v c = some d ∧ (st.sym d).choiceval ∧
      st.choiceOf d = some c ∧ (v.curr d).tri = .yes ∧
        visibleValue st (withChoice v c) d ≠ .no := by
  obtain ⟨hc, htype, hmem⟩ := hbool.choice c hchoice
  have hsolve := hv c hc
  have hset : tristateValue st v c = .yes := by
    by_contra hset
    rw [settled_choice_no htype hset] at hsolve
    have hnone : v.choice c = none := congrArg Prod.snd hsolve
    rw [hnone] at hd
    cases hd
  rw [settled_choice hch hchoice hset] at hsolve
  have hselected : selected st v c = some d := by
    rw [← hd]
    exact (congrArg Prod.snd hsolve).symm
  obtain ⟨values, hvalues⟩ := Option.isSome_iff_exists.mp (hst.values c hchoice)
  obtain ⟨hdvalues, hshown⟩ := mem_of_selected hch hchoice hvalues hselected
  obtain ⟨hval, hof, _⟩ := hch.value c hchoice values hvalues d hdvalues
  obtain ⟨hdmem, hdtype, hdefault, _⟩ := hbool.value d hval
  refine ⟨hset, hselected, hval, hof, ?_, hshown⟩
  rw [visibleValue_withChoice hch hv hc hchoice hset hvalues hdvalues] at hshown
  exact (hv.choice_value hch hdmem hdtype hval hof hdefault).mpr
    ⟨visibleValue_boolean hdtype hshown, hd⟩

/-- A value that is `y` has been selected. -/
theorem chosen_of_yes (hv : Solves st v) (hch : Choices st rank)
    (hbool : BooleanChoices st) {d : SymId}
    (hval : (st.sym d).choiceval) (hof : st.choiceOf d = some c) (hyes : (v.curr d).tri = .yes) :
    visibleValue st v.curr d = .yes ∧ v.choice c = some d := by
  obtain ⟨hd, htype, hdefault, _⟩ := hbool.value d hval
  exact (hv.choice_value hch hd htype hval hof hdefault).mp hyes

/-- A choice that has selected nothing would not select anything without the user either. -/
theorem selected_withUser_none {v : Values} (h : selected st v c = none)
    (hpicked : user.choice c = none) :
    selected (st.withUser user) v c = none := by
  unfold selected selection at h ⊢
  rw [Option.or_eq_none_iff] at h ⊢
  refine ⟨?_, h.2⟩
  show (user.choice c).filter _ = none
  rw [hpicked]
  rfl

theorem selected_withUser {v : Values} {d : SymId} (hpicked : user.choice c = some d)
    (hshown : visibleValue st (withChoice v c) d ≠ .no) :
    selected (st.withUser user) v c = some d := by
  unfold selected selection
  apply Option.or_eq_some_iff.mpr
  apply Or.inl
  show (user.choice c).filter _ = some d
  rw [hpicked]
  exact Option.filter_eq_some_iff.mpr ⟨rfl, decide_eq_true hshown⟩

/-- A choice that has selected a value is the same where the new user values select it, too. -/
theorem settled_chosen (hv : Solves st v) (hst : Resolved st) (hch : Choices st rank)
    (hch' : Choices (st.withUser user) rank) (hbool : BooleanChoices st)
    (hchoice : (st.sym c).choice) {d : SymId} (hd : v.choice c = some d)
    (huser : st.user.has c → st.user.tri c ≠ .no → user.has c ∧ user.tri c ≠ .no)
    (hselected' : selected (st.withUser user) v c = some d) :
    settled (st.withUser user) v c = settled st v c := by
  have htype := (hbool.choice c hchoice).2.1
  have hval := choiceval_of_choice hst hch hchoice
  obtain ⟨hset, hselected, _⟩ := chosen_of_choice hv hst hch hbool hchoice hd
  have hchoice' : ((st.withUser user).sym c).choice := hchoice
  have hset' : tristateValue (st.withUser user) v c = .yes := by
    apply (tristateValue_choice hchoice' hval htype).mpr
    rcases (tristateValue_choice hchoice hval htype).mp hset with ⟨hvis, hhas, htri⟩ | hrev
    · exact .inl ⟨hvis, huser hhas htri⟩
    · exact .inr hrev
  rw [settled_choice hch' hchoice hset', settled_choice hch hchoice hset, hselected, hselected']

/-- A choice that has selected nothing is the same where it is not set. -/
theorem settled_unchosen (hv : Solves st v) (hst : Resolved st) (hch : Choices st rank)
    (hch' : Choices (st.withUser user) rank) (hbool : BooleanChoices st)
    (hchoice : (st.sym c).choice)
    (hnone : v.choice c = none) (huser : user.has c → user.tri c = .no)
    (hselected' : selected st v c = none → selected (st.withUser user) v c = none) :
    settled (st.withUser user) v c = settled st v c := by
  obtain ⟨hc, htype, _⟩ := hbool.choice c hchoice
  have hval := choiceval_of_choice hst hch hchoice
  have hsolve := hv c hc
  have hselected : tristateValue st v c = .yes → selected st v c = none := by
    intro hset
    rw [settled_choice hch hchoice hset] at hsolve
    exact (congrArg Prod.snd hsolve).symm.trans hnone
  -- the choice is not `y`, or it is because it is selected, and then none of its values is visible
  have hsame : settled st v c = (⟨['n'], .no⟩, none) := by
    by_cases hset : tristateValue st v c = .yes
    · rw [settled_choice hch hchoice hset, hselected hset]
      rfl
    · exact settled_choice_no htype hset
  have hchoice' : ((st.withUser user).sym c).choice := hchoice
  rw [hsame]
  by_cases hset' : tristateValue (st.withUser user) v c = .yes
  · have hset : tristateValue st v c = .yes := by
      apply (tristateValue_choice hchoice hval htype).mpr
      rcases (tristateValue_choice hchoice' hval htype).mp hset' with ⟨_, hhas, htri⟩ | hrev
      · exact absurd (huser hhas) htri
      · exact .inr hrev
    rw [settled_choice hch' hchoice hset', hselected' (hselected hset)]
    rfl
  · exact settled_choice_no htype hset'

/-- A choice is `y` when it has selected a value. -/
theorem tri_of_choice (hv : Solves st v) (hch : Choices st rank) (hbool : BooleanChoices st)
    (hchoice : (st.sym c).choice) : (v.curr c).tri = if v.choice c = none then .no else .yes := by
  obtain ⟨hc, htype, _⟩ := hbool.choice c hchoice
  have hsolve := hv c hc
  by_cases hset : tristateValue st v c = .yes
  · rw [settled_choice hch hchoice hset] at hsolve
    have hcurr : v.curr c = ⟨['n'], if selected st v c = none then .no else .yes⟩ :=
      congrArg Prod.fst hsolve
    have hchosen : v.choice c = selected st v c := congrArg Prod.snd hsolve
    rw [hcurr, hchosen]
  · rw [settled_choice_no htype hset] at hsolve
    have hcurr : v.curr c = ⟨['n'], .no⟩ := congrArg Prod.fst hsolve
    have hchosen : v.choice c = none := congrArg Prod.snd hsolve
    rw [hcurr, hchosen]
    rfl

/-- What a choice would select depends on what has been selected in it by the user. -/
theorem selected_withUser_same {v : Values} (h : user.choice c = st.user.choice c) :
    selected (st.withUser user) v c = selected st v c := by
  unfold selected selection
  show ((user.choice c).filter _).or _ = _
  rw [h]
  rfl

theorem BooleanChoices.withUser (h : BooleanChoices st) (user : UserValues) :
    BooleanChoices (st.withUser user) :=
  ⟨h.choice, h.value⟩

/-- A value of a choice that is visible and set is selected. -/
theorem set_value (hst : Resolved st) (hord : Ordered st rank) (hch : Choices st rank)
    (hch' : Choices (st.withUser user) rank) (hbool : BooleanChoices st) (hv : Solves st v)
    {v' : Values} (hv' : Solves (st.withUser user) v') (hsame : SameConstants st v v') {s : SymId}
    (hval : (st.sym s).choiceval) (hof : st.choiceOf s = some c)
    (hvis : visibleValue st v.curr s = .yes)
    (hother : ∀ t, rank t < rank c → st.user.Alike user t) (hhas : user.has c)
    (htri : user.tri c = st.user.tri c) (hpicked : user.choice c = some s) :
    (v'.curr s).tri = .yes ∧ v'.choice c = some s := by
  obtain ⟨hs, hstype, hdefault, hc⟩ := hbool.value s hval
  obtain ⟨hchoice, values, hvalues, hmem⟩ := hc c hof
  obtain ⟨hc, htype, _⟩ := hbool.choice c hchoice
  have hchoice' : ((st.withUser user).sym c).choice := hchoice
  have hcval := choiceval_of_choice hst hch hchoice
  have hbelow : ∀ t, rank t < rank c → v.curr t = v'.curr t := fun t ht =>
    (hv.congr_below hst hord hch hv' hsame hother t ht).1
  -- the value is visible only while the choice is `y`, and the user has not taken this back
  have hset : tristateValue st v c = .yes := by
    by_contra hset
    have hcurr : v.curr c = ⟨['n'], .no⟩ :=
      congrArg Prod.fst ((hv c hc).trans (settled_choice_no htype hset))
    rw [visibleValue_of_choice_no hch hval hof (congrArg SymbolValue.tri hcurr)] at hvis
    cases hvis
  have hset' : tristateValue (st.withUser user) v' c = .yes := by
    apply (tristateValue_choice hchoice' hcval htype).mpr
    show (visibleValue st v'.curr c ≠ .no ∧ user.has c ∧ user.tri c ≠ .no) ∨
      revValue st v'.curr c ≠ .no
    rw [← visibleValue_congr hord hbelow, ← revValue_congr hord hbelow, htri]
    rcases (tristateValue_choice hchoice hcval htype).mp hset with ⟨hvis, _, hyes⟩ | hrev
    · exact .inl ⟨hvis, hhas, hyes⟩
    · exact .inr hrev
  have hshown : visibleValue st (withChoice v' c) s = .yes := by
    rw [← visibleValue_withChoice_congr hord hch hbelow hchoice hvalues hmem,
      visibleValue_withChoice hch hv hc hchoice hset hvalues hmem, hvis]
  have hselected : selected (st.withUser user) v' c = some s :=
    selected_withUser hpicked (by rw [hshown]; decide)
  have hchosen : v'.choice c = some s := by
    have hsolve := (hv' c hc).trans (settled_choice hch' hchoice' hset')
    rw [hselected] at hsolve
    exact congrArg Prod.snd hsolve
  have hvis' : visibleValue (st.withUser user) v'.curr s = .yes := by
    rw [← visibleValue_withChoice hch' hv' hc hchoice' hset' hvalues hmem]
    exact hshown
  exact ⟨(hv'.choice_value hch' hs hstype hval hof hdefault).mpr ⟨hvis', hchosen⟩, hchosen⟩

end Choice

/-! ## The example -/

theorem booleanChoices_sample : BooleanChoices sample where
  choice := sample_forall (p := fun c sym => sym.choice → c ∈ sample.symbols ∧ sym.type = .boolean ∧
    ∀ values ∈ sample.values c, ∀ s ∈ values, s ∈ sample.symbols) (by decide)
      (fun _ hs => by cases hs)
  value := sample_forall
    (p := fun s sym => sym.choiceval → s ∈ sample.symbols ∧ sym.type = .boolean ∧
    sym.properties .default = [] ∧ ∀ c ∈ sample.choiceOf s, (sample.sym c).choice ∧
      ∃ values ∈ sample.values c, s ∈ values) (by decide) (fun _ hs => by cases hs)

end Pbs.Kconfig
