import Pbs.Kconfig.SymUser

/-!
# Setting values

The front ends set values with `sym_set_tristate_value` and `sym_set_string_value`. A value that is
not the old one is checked first, and then nothing that has been calculated counts any more. The
old value is taken without a check, and what has been calculated stays. This is right only where the
symbol would get the value back (`Settable`): `Coherent` says that what has been calculated is
right for what the user has set, and it is kept where this condition is met.
-/

namespace Pbs.Kconfig

open CNumber (strtol toInt)
open ConfigM4 (symStringValid)

/-! ## The functions of `symbol.c` -/

/-- `def[S_DEF_USER]` of all symbols, and what has been calculated. Where a symbol is not `stored`,
its `def[S_DEF_USER].val` is a null pointer. -/
structure Session where
  user : UserValues
  stored : SymId → Bool
  cs : CalcState

section Set

variable (st : Setup) (fuel : ℕ)

/-- `sym_tristate_within_range`. -/
def symTristateWithinRange (s : SymId) (val : Tristate) (cs : CalcState) : Bool :=
  let type := symGetType (st.sym s) (cs.visible s) cs.modulesVal
  if cs.visible s = .no then false
  else if type ≠ .boolean ∧ type ≠ .tristate then false
  else if type = .boolean ∧ val = .mod then false
  else if (cs.visible s).toNat ≤ (cs.revTri s).toNat then false
  else if (st.sym s).choiceval ∧ cs.visible s = .yes then val = .yes
  else (cs.revTri s).toNat ≤ val.toNat ∧ val.toNat ≤ (cs.visible s).toNat

/-- What `sym_set_tristate_value` sets. With a value of a choice, the choice and all its values
that are visible count as set. -/
def userSetTristate (s : SymId) (val : Tristate) (cs : CalcState) (user : UserValues) :
    Option UserValues :=
  if (st.sym s).choiceval ∧ val = .yes then do
    let c ← st.choiceOf s
    let values ← st.values c
    return {
      has := fun t => user.has t || t == s || t == c || values.contains t && cs.visible t != .no
      tri := Function.update user.tri s val
      val := user.val
      choice := Function.update user.choice c (some s) }
  else
    return { user with
      has := Function.update user.has s true
      tri := Function.update user.tri s val }

/-- `sym_clear_all_valid`, after the user has set something. -/
def Session.clear (user : UserValues) (ss : Session) : Option Session := do
  let (_, cs) ← symClearAllValid (st.withUser user) fuel ss.cs
  return { ss with user := user, cs := cs }

/-- `sym_set_tristate_value`. -/
def symSetTristateValue (s : SymId) (val : Tristate) (ss : Session) : Option (Bool × Session) := do
  let oldval := (ss.cs.curr s).tri
  if oldval ≠ val ∧ ¬ symTristateWithinRange st s val ss.cs then return (false, ss)
  else do
    let user ← userSetTristate st s val ss.cs ss.user
    if oldval ≠ val then return (true, ← ss.clear st fuel user)
    else return (true, { ss with user := user })

/-- The order in which `sym_toggle_tristate_value` tries the values. -/
def toggled : Tristate → Tristate
  | .no => .mod
  | .mod => .yes
  | .yes => .no

/-- The loop of `sym_toggle_tristate_value`, with a bound on its rounds. -/
def toggleFrom (s : SymId) (oldval : Tristate) :
    ℕ → Tristate → Session → Option (Tristate × Session)
  | 0, _, _ => none
  | rounds + 1, newval, ss => do
      let (set, ss) ← symSetTristateValue st fuel s (toggled newval) ss
      if set ∨ oldval = toggled newval then return (toggled newval, ss)
      else toggleFrom s oldval rounds (toggled newval) ss

/-- `sym_toggle_tristate_value`. -/
def symToggleTristateValue (s : SymId) (ss : Session) : Option (Tristate × Session) :=
  toggleFrom st fuel s (ss.cs.curr s).tri 3 (ss.cs.curr s).tri ss

/-- The first character of a text, as a value. -/
def readTristate (str : Text) : Option Tristate :=
  match str.head? with
  | some 'y' | some 'Y' => some .yes
  | some 'm' | some 'M' => some .mod
  | some 'n' | some 'N' => some .no
  | _ => none

/-- `sym_string_within_range` for a text or a number. -/
def symStringWithinRange (value : SymId → CalcM Unit) (s : SymId) (str : Text) : CalcM Bool :=
  match numberBase (st.sym s).type with
  | none => return symStringValid (st.sym s).type str
  | some base =>
      if symStringValid (st.sym s).type str then do
        match ← symGetRangeProp st value s with
        | none => return true
        | some (prop, _) => do
            let val := readNumber base ⟨str, .no⟩
            let bounds ← deref prop.bounds
            let low ← symGetRangeVal st value bounds.1 base
            if low ≤ val then do
              let high ← symGetRangeVal st value bounds.2 base
              return val ≤ high
            else return false
      else return false

/-- Whether a number starts with `0x`. -/
def hasHexPrefix : Text → Bool
  | '0' :: 'x' :: _ => true
  | '0' :: 'X' :: _ => true
  | _ => false

/-- What `sym_set_string_value` stores. -/
def storedText (type : SymbolType) (newval : Text) : Text :=
  if type = .hex ∧ ¬ hasHexPrefix newval then '0' :: 'x' :: newval else newval

/-- `sym_set_string_value`, for a text that is within the range of its symbol. -/
def setText (s : SymId) (newval : Text) (ss : Session) : Option Session :=
  let has := Function.update ss.user.has s true
  let val := storedText (st.sym s).type newval
  -- nothing is stored again where it is the same text
  if val = newval ∧ ss.stored s ∧ ss.user.val s = newval then
    some { ss with user := { ss.user with has := has } }
  else
    Session.clear st fuel { ss.user with has := has, val := Function.update ss.user.val s val }
      { ss with stored := Function.update ss.stored s true }

/-- `sym_set_string_value`. -/
def symSetStringValue (s : SymId) (newval : Text) (ss : Session) : Option (Bool × Session) :=
  match (st.sym s).type with
  | .boolean | .tristate =>
      match readTristate newval with
      | some val => symSetTristateValue st fuel s val ss
      | none => some (false, ss)
  | _ => do
      let (within, cs) ← symStringWithinRange (st.withUser ss.user)
        (symCalcValue (st.withUser ss.user) fuel) s newval ss.cs
      let ss := { ss with cs := cs }
      if within then return (true, ← setText st fuel s newval ss)
      else return (false, ss)

end Set

/-! ## What has been calculated is right -/

/-- The values `v` are those for what the user has set, and whatever has been calculated has
them. -/
structure Coherent (st : Setup) (rank : SymId → ℕ) (v : Values) (ss : Session) : Prop where
  choices : Choices (st.withUser ss.user) rank
  solves : Solves (st.withUser ss.user) v
  sound : Sound (st.withUser ss.user) v ss.cs
  const : ∀ s, s ∉ st.symbols → v.choice s = none
  modules : ∀ m ∈ st.modulesSym, ss.cs.valid m

section Coherent

variable {st : Setup} {rank : SymId → ℕ} {v : Values} {ss : Session}

/-- Where the values stay the same, so does what has been calculated. -/
theorem Coherent.keep (h : Coherent st rank v ss) {user : UserValues}
    (hch : Choices (st.withUser user) rank) (hv : Solves (st.withUser user) v)
    (stored : SymId → Bool) :
    Coherent st rank v ⟨user, stored, ss.cs⟩ where
  choices := hch
  solves := hv
  sound := by
    refine ⟨?_, h.sound.modules, h.sound.rev, h.sound.cover, ?_⟩
    · intro s hs
      have hagrees := h.sound.known s hs
      exact ⟨hagrees.curr, hagrees.choice, hagrees.visible, hagrees.rev, hagrees.write⟩
    · intro s hs
      have hflags := h.sound.flags s hs
      exact ⟨hflags.prompts, hflags.values⟩
  const := h.const
  modules := h.modules

variable (hst : Resolved st) (hord : Ordered st rank)
    (huntyped : ∀ s, s ∉ st.symbols → ¬ Typed st s)
include hst hord huntyped

/-- After `sym_clear_all_valid` what has been calculated is right again, whatever the user has
set. -/
theorem Coherent.clear (h : Coherent st rank v ss) {user : UserValues}
    (hch : Choices (st.withUser user) rank) :
    ∃ ss' v', ss.clear st st.symbols.length user = some ss' ∧ ss'.user = user ∧
      ss'.stored = ss.stored ∧
      Coherent st rank v' ss' ∧ SameConstants st v v' := by
  have hv := solution_solves (hst.withUser user) (hord.withUser user) hch v.curr
  have hconst : ∀ s, s ∉ (st.withUser user).symbols →
      (solution (st.withUser user) rank v.curr).curr s = v.curr s ∧
        (solution (st.withUser user) rank v.curr).choice s = none := fun s hs => solution_const hs
  have hrest := h.sound.resting h.const huntyped h.modules
  have hidle : Idle (st.withUser user) (solution (st.withUser user) rank v.curr) ss.cs := by
    have hrest : Resting (st.withUser user) ss.cs :=
      ⟨hrest.valid, hrest.choice, hrest.untyped, hrest.modules, hrest.rev⟩
    apply hrest.idle
    intro s hs
    exact ⟨(hconst s hs).1.trans (h.sound.known s (h.sound.cover s hs)).curr.symm, (hconst s hs).2⟩
  obtain ⟨cs', hclear, hmodules⟩ := symClearAllValid_exists (hst.withUser user) h.sound.cover
  have hsound := symClearAllValid_sound (hord.withUser user) hch hv hidle hclear
  have hrun : symClearAllValid (st.withUser user) st.symbols.length ss.cs = some ((), cs') := hclear
  refine ⟨{ ss with user := user, cs := cs' }, solution (st.withUser user) rank v.curr,
    ?_, rfl, rfl, ⟨hch, hv, hsound, ?_, hmodules⟩, ?_⟩
  · show (symClearAllValid _ _ _).bind _ = _
    rw [hrun]
    rfl
  · exact fun s hs => (hconst s hs).2
  · intro s hs
    exact ⟨(hconst s hs).1.symm, (h.const s hs).trans (hconst s hs).2.symm⟩

end Coherent

/-! ## What is set -/

section User

variable {st : Setup} {rank : SymId → ℕ} {v : Values} {user user' : UserValues} {cs : CalcState}
  {s : SymId} {val : Tristate}

/-- A symbol is set alone. -/
structure SetAlone (user user' : UserValues) (s : SymId) (val : Tristate) : Prop where
  other : ∀ t, t ≠ s → user.Alike user' t
  has : user'.has s
  tri : user'.tri s = val
  choice : user'.choice = user.choice

/-- A value of a choice is set, together with the choice. -/
structure SetValue (st : Setup) (user user' : UserValues) (s c : SymId) : Prop where
  other : ∀ t, t ≠ s → t ≠ c → (∀ values ∈ st.values c, t ∉ values) → user.Alike user' t
  has : user'.has c
  tri : c ≠ s → user'.tri c = user.tri c
  choice : user'.choice = Function.update user.choice c (some s)

theorem userSetTristate_alone (h : ¬ ((st.sym s).choiceval = true ∧ val = .yes)) :
    ∃ user', userSetTristate st s val cs user = some user' ∧ SetAlone user user' s val := by
  refine ⟨_, if_neg h, ?_, Function.update_self .., Function.update_self .., rfl⟩
  intro t ht
  exact ⟨Function.update_of_ne ht .., Function.update_of_ne ht .., rfl, rfl⟩

theorem userSetTristate_value (hst : Resolved st) (hbool : BooleanChoices st)
    (hval : (st.sym s).choiceval) :
    ∃ user' c, userSetTristate st s .yes cs user = some user' ∧ st.choiceOf s = some c ∧
      SetValue st user user' s c := by
  obtain ⟨c, hof⟩ := Option.isSome_iff_exists.mp (hst.choiceOf s hval)
  obtain ⟨_, _, _, hc⟩ := hbool.value s hval
  obtain ⟨_, values, hvalues, _⟩ := hc c hof
  refine ⟨⟨fun t => user.has t || t == s || t == c || values.contains t && cs.visible t != .no,
    Function.update user.tri s .yes, user.val, Function.update user.choice c (some s)⟩,
      c, ?_, hof, ?_⟩
  · unfold userSetTristate
    have hvalues : st.values c = some values := hvalues
    rw [if_pos ⟨hval, rfl⟩, hof]
    show (st.values c).bind _ = _
    rw [hvalues]
    rfl
  · constructor
    · intro t hts htc hnot
      have hnot : t ∉ values := hnot values hvalues
      refine ⟨?_, Function.update_of_ne hts .., rfl, Function.update_of_ne htc ..⟩
      show (user.has t || t == s || t == c || values.contains t && cs.visible t != Tristate.no) =
        user.has t
      rw [beq_false_of_ne hts, beq_false_of_ne htc]
      simp [hnot]
    · simp
    · exact fun hne => Function.update_of_ne hne ..
    · rfl

/-- What is set for a choice is one of its values, as before. -/
theorem choices_withUser (hch : Choices (st.withUser user) rank) (h : user'.choice = user.choice) :
    Choices (st.withUser user') rank where
  type := hch.type
  value := hch.value
  choice := hch.choice
  default := hch.default
  user c hc values hvalues d hd := by
    have hd : d ∈ user'.choice c := hd
    rw [h] at hd
    exact hch.user c hc values hvalues d hd

theorem SetValue.withUser {c : SymId} (h : SetValue st user user' s c) (user'' : UserValues) :
    SetValue (st.withUser user'') user user' s c :=
  ⟨h.other, h.has, h.tri, h.choice⟩

theorem SetValue.choices {c : SymId} (h : SetValue st user user' s c) (hbool : BooleanChoices st)
    (hval : (st.sym s).choiceval) (hof : st.choiceOf s = some c)
    (hch : Choices (st.withUser user) rank) :
    Choices (st.withUser user') rank where
  type := hch.type
  value := hch.value
  choice := hch.choice
  default := hch.default
  user c' hc' values hvalues d hd := by
    have hd : d ∈ user'.choice c' := hd
    rw [h.choice] at hd
    by_cases hsame : c' = c
    · subst hsame
      rw [Function.update_self] at hd
      obtain rfl : s = d := Option.some_inj.mp hd
      obtain ⟨_, _, _, hc⟩ := hbool.value s hval
      obtain ⟨_, values', hvalues', hmem⟩ := hc c' hof
      obtain rfl : values = values' := Option.some_inj.mp (hvalues.symm.trans hvalues')
      exact hmem
    · rw [Function.update_of_ne hsame] at hd
      exact hch.user c' hc' values hvalues d hd

/-- A symbol for which the same is set gets the same. -/
theorem settled_alike (hst : Resolved st) (hord : Ordered st rank) (hch : Choices st rank)
    (huser : st.user.Alike user s) : settled (st.withUser user) v s = settled st v s :=
  (settled_congr hord hch huser (fun _ _ => rfl) hst fun _ _ => rfl).symm

/-- The values are the same where every symbol gets the same. -/
theorem solves_iff (hv : Solves st v) :
    Solves (st.withUser user) v ↔ ∀ t ∈ st.symbols,
      settled (st.withUser user) v t = settled st v t := by
  apply forall₂_congr
  intro t ht
  rw [← hv t ht]
  exact eq_comm

end User

/-! ## Setting the value that a symbol has -/

section Same

variable {st : Setup} {rank : SymId → ℕ} {v : Values} {user user' : UserValues} {s : SymId}
  {val : Tristate}
  (hst : Resolved st) (hord : Ordered st rank) (hch : Choices st rank) (hbool : BooleanChoices st)
  (hv : Solves st v)
include hst hord hch hbool hv

/-- A value of a choice that is `y` is set to `y`. -/
theorem SetValue.solves {c : SymId} (h : SetValue st st.user user' s c)
    (hch' : Choices (st.withUser user') rank) (hval : (st.sym s).choiceval)
    (hof : st.choiceOf s = some c) (hyes : (v.curr s).tri = .yes) :
    Solves (st.withUser user') v := by
  have hvalue : ∀ t, (st.sym t).choiceval → settled (st.withUser user') v t = settled st v t := by
    intro t ht
    obtain ⟨c', hof'⟩ := Option.isSome_iff_exists.mp (hst.choiceOf t ht)
    exact settled_value (hbool.value t ht).2.1 (hch.choice t ht c' hof').1 ht
  rw [solves_iff hv]
  intro t _
  by_cases htc : t = c
  · subst htc
    obtain ⟨_, hchosen⟩ := chosen_of_yes hv hch hbool hval hof hyes
    have hchoice := ((hbool.value s hval).2.2.2 t hof).1
    have hne : t ≠ s := by
      rintro rfl
      exact absurd (hchoice.symm.trans (hch.choice t hval t hof).1) (by decide)
    obtain ⟨_, _, _, _, _, hshown⟩ := chosen_of_choice hv hst hch hbool hchoice hchosen
    apply settled_chosen hv hst hch hch' hbool hchoice hchosen
    · intro _ htri
      rw [h.tri hne]
      exact ⟨h.has, htri⟩
    · apply selected_withUser _ hshown
      rw [h.choice]
      exact Function.update_self ..
  · by_cases hmem : t = s ∨ ∃ values ∈ st.values c, t ∈ values
    · apply hvalue
      rcases hmem with rfl | ⟨values, hvalues, ht⟩
      · exact hval
      · exact (hch.value c ((hbool.value s hval).2.2.2 c hof).1 values hvalues t ht).1
    · rw [not_or] at hmem
      apply settled_alike hst hord hch
      exact h.other t hmem.1 htc fun values hvalues ht => hmem.2 ⟨values, hvalues, ht⟩

/-- Any other symbol is set to the value that it has. -/
theorem SetAlone.solves_iff (h : SetAlone st.user user' s val)
    (hch' : Choices (st.withUser user') rank)
    (hs : s ∈ st.symbols) (htype : (st.sym s).type = .boolean ∨ (st.sym s).type = .tristate)
    (hval : (v.curr s).tri = val) : Solves (st.withUser user') v ↔ Settable st v s := by
  have hother : ∀ t, t ≠ s → settled (st.withUser user') v t = settled st v t := fun t ht =>
    settled_alike hst hord hch (h.other t ht)
  -- the others do not read what is set for `s`
  have hself : Solves (st.withUser user') v ↔ settled (st.withUser user') v s = settled st v s := by
    rw [Pbs.Kconfig.solves_iff hv]
    constructor
    · exact fun hall => hall s hs
    · intro heq t _
      by_cases hts : t = s
      · rw [hts]
        exact heq
      · exact hother t hts
  rw [hself]
  cases hchoice : (st.sym s).choice with
  | true =>
      have hsettable : Settable st v s := by
        refine .inr ?_
        rcases htype with htype | htype <;> simp only [htype] <;> exact .inl hchoice
      refine iff_of_true ?_ hsettable
      -- a choice keeps its value, as it has elected the same symbol as before
      have htri := tri_of_choice hv hch hbool hchoice
      have hsame : selected (st.withUser user') v s = selected st v s :=
        selected_withUser_same (congrFun h.choice s)
      cases hchosen : v.choice s with
      | none =>
          apply settled_unchosen hv hst hch hch' hbool hchoice hchosen
          · intro _
            rw [h.tri, ← hval, htri, hchosen]
            rfl
          · exact fun hselected => hsame.trans hselected
      | some d =>
          apply settled_chosen hv hst hch hch' hbool hchoice hchosen
          · intro _ _
            refine ⟨h.has, ?_⟩
            rw [h.tri, ← hval, htri, hchosen, if_neg (Option.some_ne_none d)]
            decide
          · exact hsame.trans (chosen_of_choice hv hst hch hbool hchoice hchosen).2.1
  | false =>
      cases hchoiceval : (st.sym s).choiceval with
      | true =>
          refine iff_of_true (settled_value (hbool.value s hchoiceval).2.1 hchoice hchoiceval)
            (.inr ?_)
          rcases htype with htype | htype <;> simp only [htype] <;> exact .inr (.inl hchoiceval)
      | false =>
          apply settled_plain_iff hv hs htype hchoice hchoiceval
          exact fun _ => ⟨h.has, h.tri.trans hval.symm⟩

end Same

/-! ## Setting another value -/

section Other

variable {st : Setup} {rank : SymId → ℕ} {v v' : Values} {user' : UserValues} {s : SymId}
  {val : Tristate}
  (hst : Resolved st) (hord : Ordered st rank) (hch : Choices st rank) (hv : Solves st v)
  (hv' : Solves (st.withUser user') v') (hsame : SameConstants st v v')
include hst hord hch hv hv' hsame

/-- A value of a choice that is set to `y` is `y`. -/
theorem SetValue.takes {c : SymId} (h : SetValue st st.user user' s c)
    (hch' : Choices (st.withUser user') rank) (hbool : BooleanChoices st)
    (hval : (st.sym s).choiceval) (hof : st.choiceOf s = some c)
    (hvis : visibleValue st v.curr s ≠ .no) : (v'.curr s).tri = .yes := by
  obtain ⟨_, htype, _, hc⟩ := hbool.value s hval
  obtain ⟨hchoice, values, hvalues, hmem⟩ := hc c hof
  have hrank : rank c < rank s := (hch.value c hchoice values hvalues s hmem).2.2
  have hne : c ≠ s := by
    rintro rfl
    exact Nat.lt_irrefl _ hrank
  -- nothing has been set for the symbols that the choice depends on
  have hother : ∀ t, rank t < rank c → st.user.Alike user' t := by
    intro t ht
    apply h.other
    · rintro rfl
      exact Nat.lt_asymm ht hrank
    · rintro rfl
      exact Nat.lt_irrefl _ ht
    · intro values hvalues hmem
      exact Nat.lt_asymm ht (hch.value c hchoice values hvalues t hmem).2.2
  have hpicked : user'.choice c = some s := by
    rw [h.choice]
    exact Function.update_self ..
  exact (set_value hst hord hch hch' hbool hv hv' hsame hval hof
    (visibleValue_boolean htype hvis) hother
    h.has (h.tri hne) hpicked).1

/-- Any other symbol gets the value to which it is set, where this is within its range. -/
theorem SetAlone.takes (h : SetAlone st.user user' s val) (hs : s ∈ st.symbols)
    (htype : (st.sym s).type = .boolean ∨ (st.sym s).type = .tristate)
    (hchoice : (st.sym s).choice = false) (hval : (st.sym s).choiceval = false)
    (hvis : visibleValue st v.curr s ≠ .no) (hlow : (revValue st v.curr s).toNat ≤ val.toNat)
    (hhigh : val.toNat ≤ (visibleValue st v.curr s).toNat)
    (hmod : typeValue st v.curr s = .boolean → val ≠ .mod) : (v'.curr s).tri = val := by
  rw [← h.tri] at hlow hhigh hmod ⊢
  exact set_plain hst hord hch hv hv' hsame hs htype hchoice hval h.other h.has hvis hlow hhigh hmod

end Other

/-! ## sym_set_tristate_value -/

section Tristate

variable {st : Setup} {rank : SymId → ℕ} {v : Values} {ss : Session} {s : SymId} {val : Tristate}

theorem typed_of_tristate (htype : (st.sym s).type = .boolean ∨ (st.sym s).type = .tristate) :
    Typed st s := by
  rcases htype with htype | htype <;> simp [Typed, htype]

/-- What `sym_tristate_within_range` has looked at. -/
theorem Coherent.withinRange (h : Coherent st rank v ss) (hs : ss.cs.valid s) (htyped : Typed st s)
    (hrange : symTristateWithinRange st s val ss.cs = true) :
    visibleValue st v.curr s ≠ .no ∧ (typeValue st v.curr s = .boolean → val ≠ .mod) ∧
      if (st.sym s).choiceval ∧ visibleValue st v.curr s = .yes then val = .yes
      else (revValue st v.curr s).toNat ≤ val.toNat ∧
        val.toNat ≤ (visibleValue st v.curr s).toNat := by
  have hagrees := h.sound.known s hs
  have hvis : ss.cs.visible s = visibleValue st v.curr s := hagrees.visible htyped
  have hrev : ss.cs.revTri s = revValue st v.curr s := hagrees.rev htyped
  have hmodules : ss.cs.modulesVal = modulesValue st v.curr := h.sound.modules
  unfold symTristateWithinRange at hrange
  rw [hvis, hrev, hmodules] at hrange
  simp only at hrange
  split at hrange
  · cases hrange
  · rename_i hshown
    split at hrange
    · cases hrange
    · split at hrange
      · cases hrange
      · rename_i hmod
        refine ⟨hshown, fun htype hval => hmod ⟨htype, hval⟩, ?_⟩
        split at hrange
        · cases hrange
        · split at hrange
          case isTrue hvalue =>
            rw [if_pos hvalue]
            exact of_decide_eq_true hrange
          case isFalse hvalue =>
            rw [if_neg hvalue]
            exact of_decide_eq_true hrange

/-- What a symbol has that is no choice value and gets the same again. -/
theorem SetAlone.settable {user' : UserValues} (hst : Resolved st) (hord : Ordered st rank)
    (hch : Choices st rank) (hv : Solves st v) (h : SetAlone st.user user' s val)
    (hs : s ∈ st.symbols) (htype : (st.sym s).type = .boolean ∨ (st.sym s).type = .tristate)
    (hval : (v.curr s).tri = val) {v' : Values} (hv' : Solves (st.withUser user') v')
    (hsame : SameConstants st v v') (hcurr : v'.curr s = v.curr s) : Settable st v s := by
  by_cases hplain : (st.sym s).choice = false ∧ (st.sym s).choiceval = false
  · obtain ⟨hchoice, hchoiceval⟩ := hplain
    have huser : ∀ t, rank t < rank s → st.user.Alike user' t := by
      intro t ht
      apply h.other
      rintro rfl
      exact Nat.lt_irrefl _ ht
    have hbelow : ∀ t, rank t < rank s → v.curr t = v'.curr t ∧
      v.choice t = v'.choice t := fun t ht =>
      hv.congr_below hst hord hch hv' hsame huser t ht
    have hcongr : settled (st.withUser user') v s = settled (st.withUser user') v' s :=
      settled_congr (hord.withUser user') (choices_withUser hch h.choice) ⟨rfl, rfl, rfl, rfl⟩
        (fun t ht => (hbelow t ht).1) (hst.withUser user') fun t ht => (hbelow t ht).2
    have hnew : settled (st.withUser user') v' s = (v'.curr s, none) :=
      settled_eq_curr hv' hs htype hchoice
    rw [← settled_plain_iff hv hs htype hchoice hchoiceval fun _ => ⟨h.has, h.tri.trans hval.symm⟩]
    rw [hcongr, hnew, hcurr, settled_eq_curr hv hs htype hchoice]
  · have hspecial : (st.sym s).choice = true ∨ (st.sym s).choiceval = true := by
      rw [Decidable.not_and_iff_or_not, Bool.not_eq_false, Bool.not_eq_false] at hplain
      exact hplain
    refine .inr ?_
    rcases htype with htype | htype <;> simp only [htype] <;> rcases hspecial
      with hspecial | hspecial
    · exact .inl hspecial
    · exact .inr (.inl hspecial)
    · exact .inl hspecial
    · exact .inr (.inl hspecial)

end Tristate

section Step

variable {st : Setup} {rank : SymId → ℕ} {v : Values} {ss : Session} {s : SymId} {val : Tristate}

/-- A value that is refused. -/
theorem symSetTristateValue_refused {fuel : ℕ} (hnew : (ss.cs.curr s).tri ≠ val)
    (hrange : ¬ symTristateWithinRange st s val ss.cs) :
    symSetTristateValue st fuel s val ss = some (false, ss) :=
  if_pos ⟨hnew, hrange⟩

variable (hst : Resolved st) (hord : Ordered st rank)
  (huntyped : ∀ s, s ∉ st.symbols → ¬ Typed st s)
  (hbool : BooleanChoices st) (h : Coherent st rank v ss) (hs : s ∈ st.symbols)
  (hvalid : ss.cs.valid s) (htype : (st.sym s).type = .boolean ∨ (st.sym s).type = .tristate)
include hst hord hbool h hs hvalid htype

include huntyped in
/-- A new value that is accepted. -/
theorem symSetTristateValue_new (hnew : (ss.cs.curr s).tri ≠ val)
    (hrange : symTristateWithinRange st s val ss.cs) :
    ∃ ss' v', symSetTristateValue st st.symbols.length s val ss = some (true, ss') ∧
      Coherent st rank v' ss' ∧ SameConstants st v v' ∧
      ((st.sym s).choice = false → (v'.curr s).tri = val) := by
  obtain ⟨hvis, hmod, hbounds⟩ := h.withinRange hvalid (typed_of_tristate htype) hrange
  have hst' := hst.withUser ss.user
  have hord' := hord.withUser ss.user
  have hbool' := hbool.withUser ss.user
  have hset : ∀ user, userSetTristate st s val ss.cs ss.user = some user →
      symSetTristateValue st st.symbols.length s val ss =
        (ss.clear st st.symbols.length user).map fun ss' => (true, ss') := by
    intro user huser
    refine (if_neg fun hrefuse => hrefuse.2 hrange).trans ?_
    rw [huser]
    refine (if_pos hnew).trans ?_
    show (ss.clear _ _ _).bind _ = _
    cases ss.clear st st.symbols.length user <;> rfl
  by_cases hvalue : (st.sym s).choiceval = true ∧ val = .yes
  · obtain ⟨hval, rfl⟩ := hvalue
    obtain ⟨user', c, huser, hof, hvalue⟩ := userSetTristate_value hst hbool hval
    have hch' := hvalue.choices hbool hval hof h.choices
    obtain ⟨ss', v', hclear, heq, _, hcoherent, hsame⟩ := h.clear hst hord huntyped hch'
    refine ⟨ss', v', ?_, hcoherent, hsame, ?_⟩
    · rw [hset user' huser, hclear]
      rfl
    · intro _
      have hv' : Solves ((st.withUser ss.user).withUser user') v' := heq ▸ hcoherent.solves
      exact SetValue.takes hst' hord' h.choices h.solves hv' hsame (hvalue.withUser ss.user) hch'
        hbool' hval hof hvis
  · obtain ⟨user', huser, halone⟩ : ∃ user', userSetTristate st s val ss.cs ss.user = some user' ∧
        SetAlone ss.user user' s val := userSetTristate_alone hvalue
    have hch' := choices_withUser h.choices halone.choice
    obtain ⟨ss', v', hclear, heq, _, hcoherent, hsame⟩ := h.clear hst hord huntyped hch'
    refine ⟨ss', v', ?_, hcoherent, hsame, ?_⟩
    · rw [hset user' huser, hclear]
      rfl
    · intro hchoice
      cases hval : (st.sym s).choiceval with
      | true =>
          -- a value of a choice that is shown can only be set to `y`
          have hshown := visibleValue_boolean (hbool.value s hval).2.1 hvis
          rw [if_pos ⟨hval, hshown⟩] at hbounds
          exact absurd ⟨hval, hbounds⟩ hvalue
      | false =>
          rw [if_neg (by simp [hval])] at hbounds
          have hv' : Solves ((st.withUser ss.user).withUser user') v' := heq ▸ hcoherent.solves
          exact SetAlone.takes hst' hord' h.choices h.solves hv' hsame halone hs htype
            hchoice hval hvis
            hbounds.1 hbounds.2 hmod

/-- The value that the symbol has. -/
theorem symSetTristateValue_old (hold : (ss.cs.curr s).tri = val) :
    ∃ ss', symSetTristateValue st st.symbols.length s val ss = some (true, ss') ∧ ss'.cs = ss.cs ∧
      Choices (st.withUser ss'.user) rank ∧
      (Settable (st.withUser ss.user) v s → Coherent st rank v ss') ∧
      ∀ v', Solves (st.withUser ss'.user) v' → SameConstants st v v' → v'.curr s = v.curr s →
        Settable (st.withUser ss.user) v s := by
  have hst' := hst.withUser ss.user
  have hord' := hord.withUser ss.user
  have hbool' := hbool.withUser ss.user
  have hval : (v.curr s).tri = val := by
    rw [← hold, (h.sound.known s hvalid).curr]
  have hset : ∀ user, userSetTristate st s val ss.cs ss.user = some user →
      symSetTristateValue st st.symbols.length s val ss =
        some (true, { ss with user := user }) := by
    intro user huser
    refine (if_neg fun hrefuse => hrefuse.1 hold).trans ?_
    rw [huser]
    exact if_neg fun hnew => hnew hold
  -- `yes` for a value of a choice is stored with the choice, too
  by_cases hvalue : (st.sym s).choiceval = true ∧ val = .yes
  · obtain ⟨hchoiceval, rfl⟩ := hvalue
    obtain ⟨user', c, huser, hof, hvalue⟩ := userSetTristate_value hst hbool hchoiceval
    have hch' := hvalue.choices hbool hchoiceval hof h.choices
    have hv' : Solves ((st.withUser ss.user).withUser user') v :=
      SetValue.solves hst' hord' h.choices hbool' h.solves (hvalue.withUser ss.user) hch' hchoiceval
        hof hval
    refine ⟨_, hset user' huser, rfl, hch', fun _ => h.keep hch' hv' ss.stored, ?_⟩
    intro _ _ _ _
    refine .inr ?_
    rcases htype with htype | htype <;> rw [Setup.withUser] <;> simp only [htype] <;>
      exact .inr (.inl hchoiceval)
  · obtain ⟨user', huser, halone⟩ : ∃ user', userSetTristate st s val ss.cs ss.user = some user' ∧
        SetAlone ss.user user' s val := userSetTristate_alone hvalue
    have hch' := choices_withUser h.choices halone.choice
    have hiff : Solves ((st.withUser ss.user).withUser user') v ↔
        Settable (st.withUser ss.user) v s :=
      SetAlone.solves_iff hst' hord' h.choices hbool' h.solves halone hch' hs htype hval
    refine ⟨_, hset user' huser, rfl, hch',
      fun hsettable => h.keep hch' (hiff.mpr hsettable) ss.stored, ?_⟩
    intro v' hv' hsame hcurr
    exact halone.settable hst' hord' h.choices h.solves hs htype hval hv' hsame hcurr

end Step

/-! ## sym_string_within_range -/

/-- What has been calculated stays so. -/
def CalcState.Extends (cs cs' : CalcState) : Prop :=
  ∀ s, cs.valid s → cs'.valid s

/-- Calculating where everything that has been calculated is right. -/
def sounding (st : Setup) (v : Values) : StateSpec.Regime CalcState where
  inv cs := Sound st v cs
  step := CalcState.Extends
  stuck := False
  refl _ _ h := h
  trans h h' s hs := h' s (h s hs)

/-- What `sym_string_within_range` comes to for a text or a number. -/
def textWithinRange (st : Setup) (curr : SymId → SymbolValue) (s : SymId) (str : Text) : Prop :=
  symStringValid (st.sym s).type str = true ∧
    ∀ base ∈ numberBase (st.sym s).type, ∀ prop ∈ activeProp st curr .range s,
      ∀ bounds ∈ prop.bounds, boundValue st curr base bounds.1 ≤ readNumber base ⟨str, .no⟩ ∧
        readNumber base ⟨str, .no⟩ ≤ boundValue st curr base bounds.2

instance (st : Setup) (curr : SymId → SymbolValue) (s : SymId) (str : Text) :
    Decidable (textWithinRange st curr s str) := by
  unfold textWithinRange
  infer_instance

section Text

open StateSpec.Regime

variable {st : Setup} {rank : SymId → ℕ} {v : Values} {s : SymId}

theorem sounding_stable (l : List SymId) : (sounding st v).Stable (Valid l) :=
  fun _ _ _ _ hstep h t ht => hstep t (h t ht)

/-- Every range has bounds, so the null pointer is not met. -/
theorem bounds_sounding (hst : Resolved st) {prop : Property}
    (hprop : prop ∈ (st.sym s).properties .range) (P : CalcState → Prop) :
    (sounding st v).Gives P (deref prop.bounds) fun bounds cs =>
      prop.bounds = some bounds ∧ P cs := by
  apply gives_deref
  intro hnone
  have hsome := hst.bounds s prop hprop
  rw [hnone] at hsome
  cases hsome

variable (hst : Resolved st) (hord : Ordered st rank) (hch : Choices st rank) (hv : Solves st v)
include hst hord hch hv

theorem symCalcValue_sounding (t : SymId) :
    (sounding st v).Gives (fun _ => True) (symCalcValue st st.symbols.length t)
      fun _ cs => cs.valid t := by
  intro cs h _
  obtain ⟨_, cs', hrun, _, _, _⟩ :=
    (symCalcValue_runs hst st.symbols.length t).exists_run (fun h => h)
    ⟨h.cover, List.countP_le_length⟩ trivial
  obtain ⟨hsound, ht, hmono⟩ := symCalcValue_sound hord hch hv h hrun
  rw [hrun]
  exact ⟨hsound, hmono, ht⟩

theorem reads_sounding {P : CalcState → Prop} (t : SymId) :
    Reads (sounding st v) (symCalcValue st st.symbols.length) P v.curr t where
  gives := (symCalcValue_sounding hst hord hch hv t).of_pre fun _ _ _ => trivial
  reads _ hinv _ hvalid := (hinv.known t hvalid).curr

theorem symStringWithinRange_gives (str : Text) :
    (sounding st v).Gives (fun _ => True)
      (symStringWithinRange st (symCalcValue st st.symbols.length) s str)
      fun within _ => within = true ↔ textWithinRange st v.curr s str := by
  have htrue : (sounding st v).Stable fun _ => True := fun _ _ _ _ _ _ => trivial
  have hreads : ∀ t,
      Reads (sounding st v) (symCalcValue st st.symbols.length) (fun _ => True) v.curr t :=
    fun t => reads_sounding hst hord hch hv t
  unfold symStringWithinRange textWithinRange
  cases hbase : numberBase (st.sym s).type with
  | none =>
      apply gives_pure
      intro _ _ _
      simp
  | some base =>
      apply gives_ite
      · intro hvalid
        apply (firstVisible_correct sounding_stable htrue _ fun prop _ t _ => hreads t).bind
        intro found
        apply gives_of_fact
        rintro rfl
        have hactive : activeProp st v.curr .range s =
          ((st.sym s).properties .range).find? fun prop =>
          condition st v.curr prop.visible ≠ .no := rfl
        rw [← hactive]
        cases hprop : activeProp st v.curr .range s with
        | none =>
            apply gives_pure
            intro _ _ _
            simp [hvalid]
        | some prop =>
            apply (bounds_sounding hst (activeProp_mem (v := v) hprop) _).bind
            rintro ⟨least, most⟩
            apply gives_of_fact
            intro hbounds
            apply (rangeVal_gives htrue (hreads least) base).bind
            intro low
            apply gives_of_fact
            rintro rfl
            -- the upper bound is only looked at where the lower one is kept
            apply gives_ite
            · intro hlow
              apply (rangeVal_gives htrue (hreads most) base).bind
              intro high
              apply gives_of_fact
              rintro rfl
              apply gives_pure
              intro _ _ _
              simp [hvalid, hbounds, hlow]
            · intro hlow
              apply gives_pure
              intro _ _ _
              simp [hvalid, hbounds, hlow]
      · intro hinvalid
        apply gives_pure
        intro _ _ _
        simp [hinvalid]

end Text

end Pbs.Kconfig
