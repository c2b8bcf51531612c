import Pbs.Kconfig.MenuFold
import Pbs.Kconfig.SymUnique

/-!
# What calculated symbols can be relied on for

When all symbols are calculated the state is `Consistent`: every symbol has the value that the
others give it. From this follow a boolean symbol that is never `m`, a select that is obeyed, a
choice in which exactly one value is set, and a number inside its range. Nothing of this
depends on the order in which the symbols are calculated.
-/

namespace Pbs.Kconfig

open CNumber

/-! ## Consistent states -/

/-- Every symbol has the value, the visibility and the selects that the others give it. -/
structure Consistent (st : Setup) (cs : CalcState) : Prop where
  solves : Solves st ⟨cs.curr, cs.choice⟩
  visible : ∀ s ∈ st.symbols, Typed st s → cs.visible s = visibleValue st cs.curr s
  rev : ∀ s ∈ st.symbols, Typed st s → cs.revTri s = revValue st cs.curr s

/-- What holds of the state between calculations. Symbols outside the table are constants. -/
structure Resting (st : Setup) (cs : CalcState) : Prop where
  valid : ∀ s, s ∉ st.symbols → cs.valid s
  choice : ∀ s, s ∉ st.symbols → cs.choice s = none
  untyped : ∀ s, s ∉ st.symbols → ¬ Typed st s
  modules : cs.modulesVal = modulesValue st cs.curr
  rev : ∀ s, (st.sym s).choiceval → cs.revTri s = .no

/-- The values of a state. -/
abbrev CalcState.values (cs : CalcState) : Values := ⟨cs.curr, cs.choice⟩

section Runs

variable {st : Setup} {rank : SymId → ℕ} {v : Values} {cs cs' : CalcState}

theorem Resting.idle (h : Resting st cs) (hv : SameConstants st v ⟨cs.curr, fun _ => none⟩) :
    Idle st v cs where
  const s hs := by
    refine ⟨h.valid s hs, (hv s hs).1.symm, ?_, ?_, ?_, ?_⟩
    · rw [h.choice s hs]
      exact (hv s hs).2.symm
    all_goals exact fun htyped => absurd htyped (h.untyped s hs)
  modules := h.modules
  rev := h.rev

/-- A state with all values is made of them. -/
theorem Sound.values (h : Sound st v cs) (hall : ∀ s, cs.valid s) : v = ⟨cs.curr, cs.choice⟩ := by
  cases v
  congr
  · exact funext fun s => (h.known s (hall s)).curr.symm
  · exact funext fun s => (h.known s (hall s)).choice.symm

theorem Sound.consistent (h : Sound st v cs) (hv : Solves st v) (hall : ∀ s, cs.valid s) :
    Consistent st cs := by
  have hvalues := h.values hall
  subst hvalues
  exact ⟨hv, fun s _ => (h.known s (hall s)).visible, fun s _ => (h.known s (hall s)).rev⟩

/-- The whole table calculated, in any order. -/
theorem calcAll_settles (hst : Resolved st) (hord : Ordered st rank) (hch : Choices st rank)
    (h : Resting st cs) {l : List SymId} (hl : ∀ s ∈ st.symbols, s ∈ l) :
    ∃ cs', (do symClearAllValid st st.symbols.length; calcAll st st.symbols.length l) cs =
      some ((), cs') ∧ Sound st cs'.values cs' ∧ (∀ s, cs'.valid s) ∧ Solves st cs'.values ∧
        SameConstants st cs'.values ⟨cs.curr, fun _ => none⟩ := by
  have hv := solution_solves hst hord hch cs.curr
  have hsame : SameConstants st (solution st rank cs.curr) ⟨cs.curr, fun _ => none⟩ :=
    fun s hs => solution_const hs
  obtain ⟨cs', hrun, hsound, hvalid⟩ := calcAll_solves hst hord hch hv (h.idle hsame) l
  have hall : ∀ s, cs'.valid s := by
    intro s
    by_cases hs : s ∈ st.symbols
    · exact hvalid s (hl s hs)
    · exact hsound.cover s hs
  have hvalues : solution st rank cs.curr = cs'.values := hsound.values hall
  rw [hvalues] at hv hsame hsound
  exact ⟨cs', hrun, hsound, hall, hv, hsame⟩

/-- What the state is between calculations. -/
theorem Sound.resting (h : Sound st v cs) (hconst : ∀ s, s ∉ st.symbols → v.choice s = none)
    (huntyped : ∀ s, s ∉ st.symbols → ¬ Typed st s) (hmodules : ∀ m ∈ st.modulesSym, cs.valid m) :
    Resting st cs where
  valid := h.cover
  choice s hs := (h.known s (h.cover s hs)).choice.trans (hconst s hs)
  untyped := huntyped
  modules := h.modulesVal hmodules
  rev := h.rev

theorem calcAll_consistent (hst : Resolved st) (hord : Ordered st rank) (hch : Choices st rank)
    (h : Resting st cs) {l : List SymId} (hl : ∀ s ∈ st.symbols, s ∈ l) :
    ∃ cs', (do symClearAllValid st st.symbols.length; calcAll st st.symbols.length l) cs =
      some ((), cs') ∧ Consistent st cs' ∧ Resting st cs' ∧
        ∀ s, s ∉ st.symbols → cs'.curr s = cs.curr s := by
  obtain ⟨cs', hrun, hsound, hall, hv, hsame⟩ := calcAll_settles hst hord hch h hl
  refine ⟨cs', hrun, hsound.consistent hv hall, ?_, fun s hs => (hsame s hs).1⟩
  exact hsound.resting (fun s hs => (hsame s hs).2) h.untyped fun m _ => hall m

end Runs

/-! ## Types -/

section Facts

variable {st : Setup} {rank : SymId → ℕ} {v : Values}

theorem liftMod_boolean {tri : Tristate} : liftMod .boolean tri ≠ .mod := by
  cases tri <;> decide

theorem le_liftMod (type : SymbolType) (tri : Tristate) : tri.toNat ≤ (liftMod type tri).toNat := by
  unfold liftMod
  split
  case isTrue h =>
    rw [h.1]
    decide
  case isFalse => exact Nat.le_refl _

/-- The value of a symbol that is not a choice. -/
theorem Solves.curr_eq (h : Solves st v) {s : SymId} (hs : s ∈ st.symbols)
    (htype : (st.sym s).type = .boolean ∨ (st.sym s).type = .tristate)
    (hchoice : (st.sym s).choice = false) :
    v.curr s = ⟨['n'], tristateValue st v s⟩ := by
  have hcurr : v.curr s = (settled st v s).1 := congrArg Prod.fst (h s hs)
  have hnot : ¬ ((st.sym s).choice = true ∧ tristateValue st v s = .yes) := by
    rw [hchoice]
    exact fun hc => absurd hc.1 (by decide)
  rw [hcurr]
  rcases htype with htype | htype <;> simp only [settled, htype, if_neg hnot]

/-- The value of a choice, and what it selects. -/
theorem Solves.choice_eq (h : Solves st v) {c : SymId} (hc : c ∈ st.symbols)
    (htype : (st.sym c).type = .boolean ∨ (st.sym c).type = .tristate)
    (hset : (st.sym c).choice ∧ tristateValue st v c = .yes) :
    v.curr c = ⟨['n'], if selected st v c = none then .no else .yes⟩ ∧
      v.choice c = selected st v c := by
  have hsolve := h c hc
  have hsettled : settled st v c =
      (⟨['n'], if selected st v c = none then .no else .yes⟩, selected st v c) := by
    rcases htype with htype | htype <;> simp only [settled, htype, if_pos hset]
  rw [hsettled] at hsolve
  exact ⟨congrArg Prod.fst hsolve, congrArg Prod.snd hsolve⟩

/-- A choice that is not `y` has the value from the user and the selects. -/
theorem Solves.choice_eq_of_ne (h : Solves st v) {c : SymId} (hc : c ∈ st.symbols)
    (htype : (st.sym c).type = .boolean ∨ (st.sym c).type = .tristate)
    (hset : ¬ ((st.sym c).choice ∧ tristateValue st v c = .yes)) :
    v.curr c = ⟨['n'], tristateValue st v c⟩ := by
  have hcurr : v.curr c = (settled st v c).1 := congrArg Prod.fst (h c hc)
  rw [hcurr]
  rcases htype with htype | htype <;> simp only [settled, htype, if_neg hset]

theorem Solves.curr_ne_mod (h : Solves st v) {s : SymId} (hs : s ∈ st.symbols)
    (htype : (st.sym s).type = .boolean ∨ (st.sym s).type = .tristate)
    (htri : tristateValue st v s ≠ .mod) : (v.curr s).tri ≠ .mod := by
  by_cases hset : (st.sym s).choice ∧ tristateValue st v s = .yes
  · rw [(h.choice_eq hs htype hset).1]
    show (if _ then Tristate.no else .yes) ≠ .mod
    split <;> decide
  · rw [h.choice_eq_of_ne hs htype hset]
    exact htri

/-- A boolean symbol is never `m`. -/
theorem Solves.boolean (h : Solves st v) {s : SymId} (hs : s ∈ st.symbols)
    (htype : (st.sym s).type = .boolean) : (v.curr s).tri ≠ .mod := by
  have hlift : typeValue st v.curr s = .boolean := by
    simp [typeValue, symGetType, htype]
  have htri : tristateValue st v s ≠ .mod := by
    rw [tristateValue, hlift]
    exact liftMod_boolean
  exact h.curr_ne_mod hs (.inl htype) htri

/-- Without modules a tristate symbol is not `m` either. -/
theorem Solves.tristate (h : Solves st v) (hmodules : modulesValue st v.curr = .no)
    {s : SymId} (hs : s ∈ st.symbols) (htype : (st.sym s).type = .tristate) :
    (v.curr s).tri ≠ .mod := by
  have hlift : typeValue st v.curr s = .boolean := by
    simp [typeValue, symGetType, htype, hmodules]
  have htri : tristateValue st v s ≠ .mod := by
    rw [tristateValue, hlift]
    exact liftMod_boolean
  exact h.curr_ne_mod hs (.inr htype) htri

/-- The selects of a symbol are obeyed. -/
theorem Solves.selects (h : Solves st v) {s : SymId} (hs : s ∈ st.symbols)
    (htype : (st.sym s).type = .boolean ∨ (st.sym s).type = .tristate)
    (hchoice : (st.sym s).choice = false) :
    (revValue st v.curr s).toNat ≤ (v.curr s).tri.toNat := by
  rw [h.curr_eq hs htype hchoice]
  refine Nat.le_trans ?_ (le_liftMod _ _)
  by_cases hval : (st.sym s).choiceval ∧ visibleValue st v.curr s = .yes
  · -- a choice value cannot be selected
    rw [revValue, if_pos hval.1]
    exact Nat.zero_le _
  · rw [if_neg hval]
    unfold exprOr
    split
    case isTrue hlt => exact Nat.le_of_lt hlt
    case isFalse => exact Nat.le_refl _

/-! ## Choices -/

/-- A boolean symbol is visible or not. -/
theorem visibleValue_boolean {curr : SymId → SymbolValue} {s : SymId}
    (htype : (st.sym s).type = .boolean) (hvis : visibleValue st curr s ≠ .no) :
    visibleValue st curr s = .yes := by
  unfold visibleValue liftVisible at hvis ⊢
  rw [htype] at hvis ⊢
  revert hvis
  cases promptValue st curr (st.sym s).prompts <;> simp

/-- A boolean value of a choice is set if it is the one that is selected. -/
theorem Solves.choice_value (h : Solves st v) (hch : Choices st rank) {s c : SymId}
    (hs : s ∈ st.symbols) (htype : (st.sym s).type = .boolean) (hval : (st.sym s).choiceval)
    (hof : st.choiceOf s = some c) (hdefault : (st.sym s).properties .default = []) :
    (v.curr s).tri = .yes ↔ visibleValue st v.curr s = .yes ∧ v.choice c = some s := by
  rw [h.curr_eq hs (.inl htype) (hch.choice s hval c hof).1]
  show liftMod _ (if (st.sym s).choiceval ∧ visibleValue st v.curr s = .yes then
    if (st.choiceOf s).bind v.choice = some s then Tristate.yes else .no else _) = .yes ↔ _
  rw [hof]
  by_cases hvis : visibleValue st v.curr s = .yes
  · rw [if_pos ⟨hval, hvis⟩]
    show liftMod _ (if v.choice c = some s then Tristate.yes else .no) = .yes ↔ _
    by_cases hsel : v.choice c = some s <;> simp [hsel, hvis, liftMod]
  · have hno : visibleValue st v.curr s = .no := by
      by_contra hno
      exact hvis (visibleValue_boolean htype hno)
    have hasked : askedTristate st v.curr s = .no := by
      simp [askedTristate, hno, activeProp, hdefault]
    have hrev : revValue st v.curr s = .no := by
      rw [revValue, if_pos hval]
    rw [if_neg fun hc => hvis hc.2, hasked, hrev]
    simp [hno, liftMod, exprOr]

/-- What is selected is a visible value of the choice. -/
theorem mem_of_selected (hch : Choices st rank) {c d : SymId} (hc : (st.sym c).choice)
    {values : List SymId} (hvalues : st.values c = some values)
    (hsel : selected st v c = some d) :
    d ∈ values ∧ visibleValue st (withChoice v c) d ≠ .no := by
  unfold selected selection at hsel
  rw [hvalues] at hsel
  rcases Option.or_eq_some_iff.mp hsel with huser | ⟨_, hrest⟩
  · obtain ⟨huser, hshown⟩ := Option.filter_eq_some_iff.mp huser
    exact ⟨hch.user c hc values hvalues d huser, of_decide_eq_true hshown⟩
  · rcases Option.or_eq_some_iff.mp hrest with hdefault | ⟨_, hfirst⟩
    · obtain ⟨prop, hprop, hfound⟩ := List.exists_of_findSome?_eq_some hdefault
      split at hfound
      case isTrue => cases hfound
      case isFalse =>
        obtain ⟨hsym, hshown⟩ := Option.filter_eq_some_iff.mp hfound
        exact ⟨hch.default c hc values hvalues prop hprop d hsym, of_decide_eq_true hshown⟩
    · have hshown := List.find?_some hfirst
      exact ⟨List.mem_of_find?_eq_some hfirst, of_decide_eq_true hshown⟩

/-- In a choice that is `y` exactly one value is set. -/
theorem Solves.choice_yes (h : Solves st v) (hch : Choices st rank) {c : SymId}
    (hc : c ∈ st.symbols) (hchoice : (st.sym c).choice) {values : List SymId}
    (hvalues : st.values c = some values)
    (hboolean : ∀ s ∈ values, s ∈ st.symbols ∧ (st.sym s).type = .boolean ∧
      (st.sym s).properties .default = [])
    (hyes : (v.curr c).tri = .yes) : ∃! s, s ∈ values ∧ (v.curr s).tri = .yes := by
  have htype := hch.type c hchoice
  have hset : tristateValue st v c = .yes := by
    by_contra hset
    rw [h.choice_eq_of_ne hc htype fun hboth => hset hboth.2] at hyes
    exact hset hyes
  obtain ⟨hcurr, hsel⟩ := h.choice_eq hc htype ⟨hchoice, hset⟩
  have hvalue : ∀ s ∈ values,
      ((v.curr s).tri = .yes ↔ visibleValue st v.curr s = .yes ∧ v.choice c = some s) := by
    intro s hs
    obtain ⟨hmem, hbool, hdefault⟩ := hboolean s hs
    obtain ⟨hval, hof, _⟩ := hch.value c hchoice values hvalues s hs
    exact h.choice_value hch hmem hbool hval hof hdefault
  cases hd : selected st v c with
  | none =>
      rw [hcurr, if_pos hd] at hyes
      cases hyes
  | some d =>
      rw [hd] at hsel
      obtain ⟨hmem, hshown⟩ := mem_of_selected hch hchoice hvalues hd
      rw [visibleValue_withChoice hch h hc hchoice hset hvalues hmem] at hshown
      have hvis := visibleValue_boolean (hboolean d hmem).2.1 hshown
      refine ⟨d, ⟨hmem, (hvalue d hmem).mpr ⟨hvis, hsel⟩⟩, ?_⟩
      rintro s ⟨hs, hyes⟩
      exact Option.some_inj.mp (((hvalue s hs).mp hyes).2.symm.trans hsel)

/-- In a choice that is `n` no value is set. -/
theorem Solves.choice_no (h : Solves st v) (hch : Choices st rank) {c : SymId}
    (hchoice : (st.sym c).choice) {values : List SymId} (hvalues : st.values c = some values)
    (hboolean : ∀ s ∈ values, s ∈ st.symbols ∧ (st.sym s).type = .boolean ∧
      (st.sym s).properties .default = [])
    (hno : (v.curr c).tri = .no) : ∀ s ∈ values, (v.curr s).tri = .no := by
  intro s hs
  obtain ⟨hmem, hbool, hdefault⟩ := hboolean s hs
  obtain ⟨hval, hof, _⟩ := hch.value c hchoice values hvalues s hs
  have hhidden : visibleValue st v.curr s = .no := visibleValue_of_choice_no hch hval hof hno
  have hyes : (v.curr s).tri ≠ .yes := by
    intro hyes
    have hvis := ((h.choice_value hch hmem hbool hval hof hdefault).mp hyes).1
    rw [hhidden] at hvis
    cases hvis
  have hmod := h.boolean hmem hbool
  revert hyes hmod
  cases (v.curr s).tri <;> simp

/-! ## Ranges -/

/-- A bound that is written is read back. -/
theorem readNumber_printNumber {type : SymbolType} {base : ℕ} (hbase : numberBase type = some base)
    {number : ℤ} (h : IsInt number) (tri : Tristate) :
    readNumber base ⟨printNumber type number, tri⟩ = number := by
  cases type with
  | int =>
      obtain rfl : 10 = base := Option.some_inj.mp hbase
      exact toInt_strtol_printDecimal h
  | hex =>
      obtain rfl : 16 = base := Option.some_inj.mp hbase
      exact toInt_strtol_printHex h
  | boolean | tristate | string | unknown | other => cases hbase

/-- A number with a range is inside it, whatever the user or a default asked for. -/
theorem Solves.inRange (h : Solves st v) {s : SymId} (hs : s ∈ st.symbols) {base : ℕ}
    (hbase : numberBase (st.sym s).type = some base) {prop : Property}
    (hprop : activeProp st v.curr .range s = some prop) {left right : SymId}
    (hbounds : prop.bounds = some (left, right))
    (hle : boundValue st v.curr base left ≤ boundValue st v.curr base right) :
    boundValue st v.curr base left ≤ readNumber base (v.curr s) ∧
      readNumber base (v.curr s) ≤ boundValue st v.curr base right := by
  have htext : v.curr s = ⟨rangedText st v.curr s (askedText st v.curr s), .no⟩ := by
    have hcurr : v.curr s = (settled st v s).1 := congrArg Prod.fst (h s hs)
    rw [hcurr]
    revert hbase
    cases htype : (st.sym s).type <;> intro hbase <;> simp only [settled, htype] <;> cases hbase
  have hint : ∀ t, IsInt (boundValue st v.curr base t) := fun t => isInt_toInt _
  rw [htext]
  generalize askedText st v.curr s = asked
  unfold rangedText
  rw [hbase]
  simp only [hprop, Option.bind_some, hbounds]
  split
  case isTrue hlow =>
    split
    case isTrue hhigh => exact ⟨hlow, hhigh⟩
    case isFalse =>
      rw [readNumber_printNumber hbase (hint right)]
      exact ⟨hle, Int.le_refl _⟩
  case isFalse =>
    rw [readNumber_printNumber hbase (hint left)]
    exact ⟨Int.le_refl _, hle⟩

end Facts

/-! ## After a calculation -/

variable {st : Setup} {rank : SymId → ℕ} {cs : CalcState}

/-- In a table without recursive dependencies a number is inside the range that applies to it, where
the bounds are in order: the first one whose condition is not `n`. -/
theorem calcAll_inRange (hst : Resolved st) (hord : Ordered st rank) (hch : Choices st rank)
    (h : Resting st cs) {l : List SymId} (hl : ∀ s ∈ st.symbols, s ∈ l) :
    ∃ cs', (do symClearAllValid st st.symbols.length; calcAll st st.symbols.length l) cs =
        some ((), cs') ∧
      ∀ s ∈ st.symbols, ∀ base ∈ numberBase (st.sym s).type,
        ∀ prop ∈ activeProp st cs'.curr .range s, ∀ bounds ∈ prop.bounds,
          boundValue st cs'.curr base bounds.1 ≤ boundValue st cs'.curr base bounds.2 →
            boundValue st cs'.curr base bounds.1 ≤ readNumber base (cs'.curr s) ∧
              readNumber base (cs'.curr s) ≤ boundValue st cs'.curr base bounds.2 := by
  obtain ⟨cs', hrun, hcons, _, _⟩ := calcAll_consistent hst hord hch h hl
  exact ⟨cs', hrun, fun s hs base hbase prop hprop bounds hbounds =>
    hcons.solves.inRange hs hbase hprop hbounds⟩

/-! ## From the tree to the value -/

/-- The constants in the state, and the types that `menu_finalize` has seen. -/
structure Constants (info : SymInfo) (st : Setup) (cs : CalcState) : Prop where
  type : ∀ s, (st.sym s).type = info.type s
  const : ∀ s, info.const s → s ∉ st.symbols ∧ info.type s = .unknown
  untyped : ∀ s, IsConstant s → info.type s = .unknown
  outside : symbolYes ∉ st.symbols ∧ symbolMod ∉ st.symbols ∧ symbolNo ∉ st.symbols
  yes : cs.curr symbolYes = ⟨['y'], .yes⟩
  mod : cs.curr symbolMod = ⟨['m'], .mod⟩
  no : cs.curr symbolNo = ⟨['n'], .no⟩
  distinct : ∀ s s', info.const s → info.const s' → (cs.curr s).val = (cs.curr s').val → s = s'

theorem symGetStringValue_unknown {curr : SymId → SymbolValue} {s : SymId}
    (h : (st.sym s).type = .unknown) : symGetStringValue (st.conf curr) s = (curr s).val := by
  have htype : ((st.conf curr).sym s).type = .unknown := h
  simp only [symGetStringValue, htype]
  rfl

/-- Calculated symbols have the values that rewriting relies on. -/
theorem Constants.wellTyped {info : SymInfo} {cs' : CalcState} (h : Constants info st cs)
    (hcons : Consistent st cs') (hrest : Resting st cs')
    (hconst : ∀ s, s ∉ st.symbols → cs'.curr s = cs.curr s) :
    WellTyped info (st.conf cs'.curr) := by
  have hyes := (hconst _ h.outside.1).trans h.yes
  have hmod := (hconst _ h.outside.2.1).trans h.mod
  have hno := (hconst _ h.outside.2.2).trans h.no
  have hstring : ∀ {s : SymId}, info.type s = .unknown →
      ∀ {value : SymbolValue}, cs'.curr s = value →
      symGetStringValue (st.conf cs'.curr) s = value.val := by
    intro s htype value hvalue
    rw [symGetStringValue_unknown ((h.type s).trans htype), hvalue]
  constructor
  · exact fun s _ => h.type s
  · exact h.untyped
  · exact congrArg SymbolValue.tri hyes
  · exact congrArg SymbolValue.tri hmod
  · exact congrArg SymbolValue.tri hno
  · exact hstring (h.untyped _ (.inl rfl)) hyes
  · exact hstring (h.untyped _ (.inr (.inl rfl))) hmod
  · exact hstring (h.untyped _ (.inr (.inr rfl))) hno
  · intro s hs
    have htype := (h.type s).trans hs
    by_cases hmem : s ∈ st.symbols
    · exact hcons.solves.boolean hmem htype
    · exact absurd ⟨by simp [htype], by simp [htype]⟩ (hrest.untyped s hmem)
  · intro s s' hs hs' heq
    rw [hstring (h.const s hs).2 rfl, hstring (h.const s' hs').2 rfl,
      hconst s (h.const s hs).1, hconst s' (h.const s' hs').1] at heq
    exact h.distinct s s' hs hs' heq

theorem demanded_eq (curr : SymId → SymbolValue) (e : Option Expr) :
    demanded st curr e = revDepValue (st.conf curr) e := by
  cases e <;> rfl

/-- Where the `rev_dep` of every symbol comes out of `menu_finalize` and `MODULES` is `n`, a
symbol is `y` whenever a select of it in the tree is: the selecting symbol and all the conditions
around the select up to a choice, with none of them rewritten. -/
theorem calcAll_selects (hst : Resolved st) (hord : Ordered st rank) (hch : Choices st rank)
    (h : Resting st cs) {l : List SymId} (hl : ∀ s ∈ st.symbols, s ∈ l) {const : SymId → Bool}
    {sym : SymId → Symbol} {entries : List Entry}
    (hconst : Constants ((parseState const st.symbols sym entries).symInfo const) st cs)
    (hrev : ∀ s, (st.sym s).revDep = (parseState const st.symbols sym entries).revDepOf s) :
    ∃ cs', (do symClearAllValid st st.symbols.length; calcAll st st.symbols.length l) cs =
        some ((), cs') ∧
      (modulesValue st cs'.curr = .no → ∀ s ∈ st.symbols,
        (st.sym s).type = .boolean ∨ (st.sym s).type = .tristate →
        (st.sym s).choice = false → (st.sym s).choiceval = false →
        askedFor ((parseState const st.symbols sym entries).asked (st.conf cs'.curr)) s = .yes →
        (cs'.curr s).tri = .yes) := by
  obtain ⟨cs', hrun, hcons, hrest, houtside⟩ := calcAll_consistent hst hord hch h hl
  refine ⟨cs', hrun, ?_⟩
  intro hmodules s hs htype hchoice hval hasked
  have hwell := hconst.wellTyped hcons hrest houtside
  -- without modules no symbol is `m`, which the rewriting of conditions relies on
  have hnomod : (st.conf cs'.curr).NoModules
      ((parseState const st.symbols sym entries).symInfo const) := by
    intro t ht
    have htristate := (hconst.type t).trans ht
    by_cases hmem : t ∈ st.symbols
    · exact hcons.solves.tristate hmodules hmem htristate
    · exact absurd ⟨by simp [htristate], by simp [htristate]⟩ (hrest.untyped t hmem)
  have hrefines := refines_revDepOf hwell hnomod s
  rw [hasked, ← hrev s, ← demanded_eq] at hrefines
  have hdemand : demanded st cs'.curr (st.sym s).revDep = .yes := by
    rcases hrefines with hmod | heq
    · cases hmod
    · exact heq.symm
  have hle := hcons.solves.selects hs htype hchoice
  rw [revValue, if_neg (by simp [hval]), hdemand] at hle
  have hyes : (liftMod (typeValue st cs'.curr s) .yes).toNat = 2 := by
    unfold liftMod
    split <;> rfl
  rw [hyes] at hle
  revert hle
  cases (cs'.curr s).tri <;> simp [Tristate.toNat]

/-! ## The example -/

theorem resting_sampleStart : Resting sample sampleStart where
  valid s hs := by
    show (!sample.symbols.contains s) = true
    simpa using hs
  choice _ _ := rfl
  untyped _ hs h := h.1 (untyped_sample hs)
  modules := rfl
  rev _ _ := rfl

theorem calcAll_inRange_sample :
    ∃ cs', (do symClearAllValid sample 7; calcAll sample 7 [3, 4, 5, 6, 7, 8, 9]) sampleStart =
        some ((), cs') ∧
      ∀ s ∈ sample.symbols, ∀ base ∈ numberBase (sample.sym s).type,
        ∀ prop ∈ activeProp sample cs'.curr .range s, ∀ bounds ∈ prop.bounds,
          boundValue sample cs'.curr base bounds.1 ≤ boundValue sample cs'.curr base bounds.2 →
            boundValue sample cs'.curr base bounds.1 ≤ readNumber base (cs'.curr s) ∧
              readNumber base (cs'.curr s) ≤ boundValue sample cs'.curr base bounds.2 :=
  calcAll_inRange resolved_sample ordered_sample choices_sample resting_sampleStart (by decide)

/-- The tree with the symbols of `sample`. -/
def sampleEntries : List Entry :=
  [.mk (some 3) [] none [⟨.prompt, none, none⟩] [],
    .mk (some 4) [] none
      [⟨.prompt, some (.symbol 3), none⟩, ⟨.select, none, some (.expr (.symbol 9))⟩] [],
    .mk (some 5) [] none [⟨.prompt, none, none⟩]
      [.mk (some 6) [] none [⟨.prompt, none, none⟩] [],
        .mk (some 7) [] none
          [⟨.prompt, none, none⟩, ⟨.select, none, some (.expr (.symbol 9))⟩] []],
    .mk (some 8) [] none [⟨.prompt, none, none⟩, ⟨.range, none, some (.list [10, 11])⟩] [],
    .mk (some 9) [] none [] []]

/-- `SYMBOL_CONST`. -/
def sampleIsConst (s : SymId) : Bool := [0, 1, 2, 10, 11].contains s

/-- The user of `sample` without `MODULES`. -/
def plainSample : Setup := sample.withUser { sample.user with has := fun s => s == 8 }

theorem types_sample :
    (parseState sampleIsConst sample.symbols sample.sym sampleEntries).types =
      fun s => (sample.sym s).type := rfl

theorem constants_sample :
    Constants ((parseState sampleIsConst sample.symbols sample.sym sampleEntries).symInfo
      sampleIsConst) plainSample sampleStart where
  type s := (congrFun types_sample s).symm
  const s hs := by
    have hout : s ∉ sample.symbols := by
      have hconst : ∀ s ∈ [0, 1, 2, 10, 11], s ∉ sample.symbols := by decide
      exact hconst s (by simpa [sampleIsConst, ParseState.symInfo] using hs)
    exact ⟨hout, (congrFun types_sample s).trans (untyped_sample hout)⟩
  untyped s hs := by
    refine (congrFun types_sample s).trans ?_
    rcases hs with rfl | rfl | rfl <;> rfl
  outside := by decide
  yes := rfl
  mod := rfl
  no := rfl
  distinct := by
    have hdistinct : ∀ s ∈ [0, 1, 2, 10, 11], ∀ s' ∈ [0, 1, 2, 10, 11],
        (sampleConst s).val = (sampleConst s').val → s = s' := by decide
    intro s s' hs hs'
    exact hdistinct s (by simpa [sampleIsConst, ParseState.symInfo] using hs) s'
      (by simpa [sampleIsConst, ParseState.symInfo] using hs')

/-- What is added to the `rev_dep` of `BAR`, and for the choice. -/
def sampleRevDeps : List RevDep :=
  [.select ⟨4, 9, none⟩, .select ⟨7, 9, some (.symbol 5)⟩, .choice 5 none]

theorem revDeps_sample :
    (parseState sampleIsConst sample.symbols sample.sym sampleEntries).revDeps = sampleRevDeps := by
  decide

theorem revDepOf_sample (s : SymId) :
    (sample.sym s).revDep =
      (parseState sampleIsConst sample.symbols sample.sym sampleEntries).revDepOf s := by
  rw [ParseState.revDepOf, revDeps_sample]
  rcases Nat.lt_or_ge s 10 with hs | hs
  · revert s
    decide
  · rw [sample_sym_of_ge hs, List.filter_eq_nil_iff.mpr]
    · rfl
    · intro rev hrev
      have htarget : ∀ rev ∈ sampleRevDeps, rev.target < 10 := by decide
      intro heq
      rw [← of_decide_eq_true heq] at hs
      exact absurd (htarget rev hrev) (Nat.not_lt.mpr hs)

theorem choices_plainSample : Choices plainSample sampleRank :=
  ⟨choices_sample.type, choices_sample.value, choices_sample.choice, choices_sample.default,
    choices_sample.user⟩

theorem resting_plainSample : Resting plainSample sampleStart :=
  ⟨resting_sampleStart.valid, resting_sampleStart.choice, resting_sampleStart.untyped,
    resting_sampleStart.modules, resting_sampleStart.rev⟩

/-- `MODULES` is `n`, and `TWO`, which its choice selects, selects `BAR`. -/
theorem calcAll_selects_sample :
    ∃ cs', (do symClearAllValid plainSample 7; calcAll plainSample 7 [9, 8, 7, 6, 5, 4, 3])
        sampleStart = some ((), cs') ∧
      askedFor ((parseState sampleIsConst sample.symbols sample.sym sampleEntries).asked
        (plainSample.conf cs'.curr)) 9 = .yes ∧ (cs'.curr 9).tri = .yes := by
  obtain ⟨cs', hrun, hselects⟩ := calcAll_selects (resolved_sample.withUser plainSample.user)
    (ordered_sample.withUser plainSample.user) choices_plainSample resting_plainSample
    (l := [9, 8, 7, 6, 5, 4, 3]) (by decide) constants_sample revDepOf_sample
  have hvalues : ∀ r ∈
      (do symClearAllValid plainSample 7; calcAll plainSample 7 [9, 8, 7, 6, 5, 4, 3]) sampleStart,
      modulesValue sample r.2.curr = .no ∧
        askedFor ((parseState sampleIsConst sample.symbols sample.sym sampleEntries).asked
          (plainSample.conf r.2.curr)) 9 = .yes := by
    decide +kernel
  obtain ⟨hmodules, hasked⟩ := hvalues _ hrun
  exact ⟨cs', hrun, hasked, hselects hmodules 9 (by decide) (by decide) rfl rfl hasked⟩

end Pbs.Kconfig
