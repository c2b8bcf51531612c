import Pbs.Kconfig.SymSession

/-!
# Requests of the front ends

A front end calculates the symbols that it shows, and sets what the user asks for. Between two
requests some symbols have been calculated and others have not, and a value that has been
calculated may be an old one. After any sequence of requests none is, as long as no symbol is set
to a value that it has now and would not get back (`run_fresh`).
-/

namespace Pbs.Kconfig

open CNumber (isSpace takeSign skipPrefix strtol_addPrefix toInt)
open ConfigM4 (symStringValid isxdigit)

/-! ## Requests -/

/-- What a front end asks for. -/
inductive Request where
  | calculate (s : SymId)
  | tristate (s : SymId) (val : Tristate)
  | toggle (s : SymId)
  | text (s : SymId) (newval : Text)

section Run

variable (st : Setup) (fuel : ℕ)

/-- `sym_calc_value`, for what the user has set. -/
def Session.calc (s : SymId) (ss : Session) : Option Session := do
  let (_, cs) ← symCalcValue (st.withUser ss.user) fuel s ss.cs
  return { ss with cs := cs }

def Request.handle : Request → Session → Option Session
  | .calculate s, ss => ss.calc st fuel s
  | .tristate s val, ss => (symSetTristateValue st fuel s val ss).map Prod.snd
  | .toggle s, ss => (symToggleTristateValue st fuel s ss).map Prod.snd
  | .text s newval, ss => (symSetStringValue st fuel s newval ss).map Prod.snd

/-- One request after the other. -/
def Session.run : List Request → Session → Option Session
  | [], ss => some ss
  | request :: rest, ss => (request.handle st fuel ss).bind (Session.run rest)

end Run

/-! ## Requests that are served well -/

section Proper

variable (st : Setup)

/-- A symbol that is set to the value that it has gets it again: it is not shown, or the value is
within what its prompts allow or what is selected, or it belongs to a choice. -/
def CalcState.Lasting (cs : CalcState) (s : SymId) : Prop :=
  cs.visible s = .no ∨ (st.sym s).choice ∨ (st.sym s).choiceval ∨
    (cs.curr s).tri.toNat ≤ (cs.visible s).toNat ∨ (cs.curr s).tri.toNat ≤ (cs.revTri s).toNat

/-- A boolean or tristate symbol that has been calculated. -/
structure Session.Shows (ss : Session) (s : SymId) : Prop where
  mem : s ∈ st.symbols
  type : (st.sym s).type = .boolean ∨ (st.sym s).type = .tristate
  valid : ss.cs.valid s

/-- A front end sets symbols that it shows. Where this is the value they have, they get it again. -/
structure Session.MaySet (ss : Session) (s : SymId) (val : Tristate) : Prop where
  shows : ss.Shows st s
  lasting : (ss.cs.curr s).tri = val → ss.cs.Lasting st s

/-- The text is not one that is stored although the user has not set the symbol: `conf_read` takes
only `SYMBOL_DEF_USER` away, and `sym_set_string_value` would then see nothing to change. -/
def Session.MayStore (ss : Session) (s : SymId) (newval : Text) : Prop :=
  ss.stored s → ss.user.val s = newval → ss.user.has s

/-- The value to which `sym_toggle_tristate_value` sets a symbol: the next one that is within its
range, or the one that it has. -/
def toggleTarget (s : SymId) (cs : CalcState) : Tristate :=
  let oldval := (cs.curr s).tri
  if symTristateWithinRange st s (toggled oldval) cs then toggled oldval
  else if symTristateWithinRange st s (toggled (toggled oldval)) cs then toggled (toggled oldval)
  else oldval

def Request.Proper (ss : Session) : Request → Prop
  | .calculate _ => True
  | .tristate s val => ss.MaySet st s val
  | .toggle s => ss.MaySet st s (toggleTarget st s ss.cs)
  | .text s newval =>
      if (st.sym s).type = .boolean ∨ (st.sym s).type = .tristate then
        ∀ val ∈ readTristate newval, ss.MaySet st s val
      else ss.MayStore s newval

/-- Every request is proper when it is its turn. -/
def ProperRun (fuel : ℕ) : List Request → Session → Prop
  | [], _ => True
  | request :: rest, ss =>
      request.Proper st ss ∧ ∀ ss' ∈ request.handle st fuel ss, ProperRun fuel rest ss'

instance (cs : CalcState) (s : SymId) : Decidable (cs.Lasting st s) := by
  unfold CalcState.Lasting
  infer_instance

instance (ss : Session) (s : SymId) : Decidable (ss.Shows st s) :=
  decidable_of_iff
    (s ∈ st.symbols ∧ ((st.sym s).type = .boolean ∨ (st.sym s).type = .tristate) ∧ ss.cs.valid s)
    ⟨fun h => ⟨h.1, h.2.1, h.2.2⟩, fun h => ⟨h.mem, h.type, h.valid⟩⟩

instance (ss : Session) (s : SymId) (val : Tristate) : Decidable (ss.MaySet st s val) :=
  decidable_of_iff (ss.Shows st s ∧ ((ss.cs.curr s).tri = val → ss.cs.Lasting st s))
    ⟨fun h => ⟨h.1, h.2⟩, fun h => ⟨h.shows, h.lasting⟩⟩

instance (ss : Session) (s : SymId) (newval : Text) : Decidable (ss.MayStore s newval) := by
  unfold Session.MayStore
  infer_instance

instance (ss : Session) : (request : Request) → Decidable (request.Proper st ss)
  | .calculate _ => isTrue trivial
  | .tristate s val => inferInstanceAs (Decidable (ss.MaySet st s val))
  | .toggle s => inferInstanceAs (Decidable (ss.MaySet st s (toggleTarget st s ss.cs)))
  | .text s newval => inferInstanceAs (Decidable
      (if (st.sym s).type = .boolean ∨ (st.sym s).type = .tristate then
        ∀ val ∈ readTristate newval, ss.MaySet st s val
      else ss.MayStore s newval))

instance decidableProperRun (fuel : ℕ) :
    (requests : List Request) → (ss : Session) → Decidable (ProperRun st fuel requests ss)
  | [], _ => isTrue trivial
  | request :: rest, ss =>
      have : DecidablePred (ProperRun st fuel rest) := decidableProperRun fuel rest
      inferInstanceAs (Decidable (request.Proper st ss ∧
        ∀ ss' ∈ request.handle st fuel ss, ProperRun st fuel rest ss'))

end Proper

section Coherent

variable {st : Setup} {rank : SymId → ℕ} {v : Values} {ss : Session} {s : SymId}

theorem Session.Shows.typed (h : ss.Shows st s) : Typed st s :=
  typed_of_tristate h.type

/-- What has been calculated says whether a value is settable. -/
theorem Coherent.settable_iff (h : Coherent st rank v ss) (hs : ss.Shows st s) :
    Settable (st.withUser ss.user) v s ↔ ss.cs.Lasting st s := by
  have hagrees := h.sound.known s hs.valid
  unfold Settable CalcState.Lasting
  rw [hagrees.curr, hagrees.visible hs.typed, hagrees.rev hs.typed]
  rcases hs.type with htype | htype <;> simp only [Setup.withUser, htype]

theorem Coherent.extend (h : Coherent st rank v ss) {cs : CalcState}
    (hsound : Sound (st.withUser ss.user) v cs) (hcs : ss.cs.Extends cs) :
    Coherent st rank v { ss with cs := cs } :=
  ⟨h.choices, h.solves, hsound, h.const, fun m hm => hcs m (h.modules m hm)⟩

variable (hst : Resolved st) (hord : Ordered st rank)
include hst hord

/-- What is calculated now is right, too. -/
theorem Coherent.calc (h : Coherent st rank v ss) (s : SymId) :
    ∃ cs', symCalcValue (st.withUser ss.user) st.symbols.length s ss.cs = some ((), cs') ∧
      Coherent st rank v { ss with cs := cs' } ∧ cs'.curr s = v.curr s ∧
        cs'.choice s = v.choice s := by
  obtain ⟨_, cs', hrun, hsound, hmono, hvalid⟩ :=
    (symCalcValue_sounding (hst.withUser ss.user) (hord.withUser ss.user) h.choices h.solves
      s).exists_run (fun h => h) h.sound trivial
  have hagrees := hsound.known s hvalid
  exact ⟨cs', hrun, h.extend hsound hmono, hagrees.curr, hagrees.choice⟩

/-- What is calculated from the start is right. -/
theorem coherent_calcAll (hch : Choices st rank) {cs : CalcState} (h : Resting st cs)
    {l : List SymId} (hl : ∀ s ∈ st.symbols, s ∈ l) (stored : SymId → Bool) :
    ∃ cs', (do symClearAllValid st st.symbols.length; calcAll st st.symbols.length l) cs =
        some ((), cs') ∧ Coherent st rank cs'.values ⟨st.user, stored, cs'⟩ ∧ ∀ s, cs'.valid s := by
  obtain ⟨cs', hrun, hsound, hvalid, hv, hsame⟩ := calcAll_settles hst hord hch h hl
  exact ⟨cs', hrun, ⟨hch, hv, hsound, fun s hs => (hsame s hs).2, fun m _ => hvalid m⟩, hvalid⟩

variable (huntyped : ∀ s, s ∉ st.symbols → ¬ Typed st s)
include huntyped

/-- The value that a symbol gets from the start, for what the user has set. -/
theorem Coherent.fresh (h : Coherent st rank v ss) {user : UserValues}
    (hch : Choices (st.withUser user) rank) :
    ∃ v', Solves (st.withUser user) v' ∧ SameConstants st v v' ∧ ∀ s, ∃ cs',
      (do symClearAllValid (st.withUser user) st.symbols.length
          symCalcValue (st.withUser user) st.symbols.length s) ss.cs = some ((), cs') ∧
        cs'.curr s = v'.curr s ∧ cs'.choice s = v'.choice s := by
  obtain ⟨ss', v', hclear, _, _, hcoherent, hsame⟩ := h.clear hst hord huntyped hch
  obtain ⟨⟨_, cs⟩, hrun, hss⟩ := Option.bind_eq_some_iff.mp hclear
  obtain rfl : { ss with user := user, cs := cs } = ss' := Option.some_inj.mp hss
  refine ⟨v', hcoherent.solves, hsame, ?_⟩
  intro s
  obtain ⟨cs', hcalc, _, hvalue⟩ := hcoherent.calc hst hord s
  refine ⟨cs', ?_, hvalue⟩
  show (symClearAllValid _ _ _).bind _ = _
  rw [hrun]
  exact hcalc

end Coherent

/-- The user of `sample` opens the menu: everything has been calculated. -/
theorem session_sample :
    ∃ cs, (do symClearAllValid sample 7; calcAll sample 7 [3, 4, 5, 6, 7, 8, 9]) sampleStart =
        some ((), cs) ∧
      Coherent sample sampleRank cs.values ⟨sample.user, sample.user.has, cs⟩ ∧ ∀ s, cs.valid s :=
  coherent_calcAll resolved_sample ordered_sample choices_sample resting_sampleStart (by decide)
    sample.user.has

/-! ## Setting a value -/

section Set

variable {st : Setup} {rank : SymId → ℕ} {v : Values} {ss : Session} {s : SymId} {val : Tristate}
  (hst : Resolved st) (hord : Ordered st rank) (huntyped : ∀ s, s ∉ st.symbols → ¬ Typed st s)
  (hbool : BooleanChoices st) (h : Coherent st rank v ss) (hs : ss.Shows st s)
include hst hord huntyped hbool h hs

end Set

/-- `MODULES`, `BAR`, and `FOO`, which is `y` by default but can only be set to `m` as long as `BAR`
is `m`. -/
def limitedSymbols : List Symbol :=
  [untypedSymbol, untypedSymbol, untypedSymbol,
    ⟨some (text "MODULES"), .boolean, false, false, true, [⟨.prompt, none, none⟩], none, none⟩,
    ⟨some (text "BAR"), .tristate, false, false, true, [⟨.prompt, none, none⟩], none, none⟩,
    ⟨some (text "FOO"), .tristate, false, false, true,
      [⟨.prompt, some (.symbol 4), none⟩, ⟨.default, none, some (.expr (.symbol 0))⟩], none, none⟩]

def limited : Setup := { sample with
  symbols := [3, 4, 5]
  sym := fun s => limitedSymbols.getD s untypedSymbol
  user := { sample.user with has := fun s => [3, 4].contains s } }

/-- `FOO` is set to `y`, which it is. It stays `y` for now, and is `m` once it is calculated
again. -/
example :
    ((do symClearAllValid limited 3; calcAll limited 3 [3, 4, 5])
        { CalcState.start limited with curr := sampleConst }).bind (fun r : Unit × CalcState =>
      (symSetTristateValue limited 3 5 .yes ⟨limited.user, limited.user.has, r.2⟩).bind fun set =>
        ((do symClearAllValid (limited.withUser set.2.user) 3
             symCalcValue (limited.withUser set.2.user) 3 5) r.2).map fun r' : Unit × CalcState =>
          ((set.2.cs.curr 5).tri, (r'.2.curr 5).tri)) = some (Tristate.yes, Tristate.mod) := by
  decide +kernel

/-! ## sym_toggle_tristate_value -/

section Toggle

variable {st : Setup} {fuel : ℕ} {ss : Session} {s : SymId} {val oldval : Tristate} {rounds : ℕ}

theorem toggled_ne (val : Tristate) : toggled val ≠ val ∧ toggled (toggled val) ≠ val := by
  cases val <;> decide

theorem toggled_three (val : Tristate) : toggled (toggled (toggled val)) = val := by
  cases val <;> rfl

/-- What is not refused is set, if there is a result at all. -/
theorem symSetTristateValue_accepts
    (h : (ss.cs.curr s).tri = val ∨ symTristateWithinRange st s val ss.cs) :
    symSetTristateValue st fuel s val ss =
      (symSetTristateValue st fuel s val ss).map fun r => (true, r.2) := by
  have hnot : ¬ ((ss.cs.curr s).tri ≠ val ∧ ¬ symTristateWithinRange st s val ss.cs) := by
    rintro ⟨hnew, hrange⟩
    exact h.elim hnew hrange
  unfold symSetTristateValue
  simp only [if_neg hnot]
  cases userSetTristate st s val ss.cs ss.user with
  | none => rfl
  | some user =>
      by_cases hold : (ss.cs.curr s).tri = val
      · simp [hold]
      · simp only [ne_eq, hold, not_false_eq_true, if_true]
        show (ss.clear st fuel user).bind _ = ((ss.clear st fuel user).bind _).map _
        cases ss.clear st fuel user <;> rfl

/-- A round that ends the loop. -/
theorem toggleFrom_accepts
    (h : (ss.cs.curr s).tri = toggled val ∨ symTristateWithinRange st s (toggled val) ss.cs) :
    toggleFrom st fuel s oldval (rounds + 1) val ss =
      (symSetTristateValue st fuel s (toggled val) ss).map fun r => (toggled val, r.2) := by
  show (symSetTristateValue st fuel s (toggled val) ss).bind _ = _
  rw [symSetTristateValue_accepts h]
  cases symSetTristateValue st fuel s (toggled val) ss <;> rfl

/-- A round that does not. -/
theorem toggleFrom_refused (hnew : (ss.cs.curr s).tri ≠ toggled val)
    (hrange : ¬ symTristateWithinRange st s (toggled val) ss.cs) (hold : oldval ≠ toggled val) :
    toggleFrom st fuel s oldval (rounds + 1) val ss =
      toggleFrom st fuel s oldval rounds (toggled val) ss := by
  show (symSetTristateValue st fuel s (toggled val) ss).bind _ = _
  rw [symSetTristateValue_refused hnew hrange]
  exact if_neg fun hset => hset.elim (fun hset => absurd hset (by decide)) hold

/-- Toggling a symbol sets it to a value that it may have, which is the old one only if the others
are refused. -/
theorem symToggleTristateValue_eq :
    symToggleTristateValue st fuel s ss =
      (symSetTristateValue st fuel s (toggleTarget st s ss.cs) ss).map fun r =>
        (toggleTarget st s ss.cs, r.2) := by
  have hfirst := (toggled_ne (ss.cs.curr s).tri).1.symm
  have hsecond := (toggled_ne (ss.cs.curr s).tri).2.symm
  unfold symToggleTristateValue toggleTarget
  by_cases hone : symTristateWithinRange st s (toggled (ss.cs.curr s).tri) ss.cs
  · rw [if_pos hone]
    exact toggleFrom_accepts (.inr hone)
  · rw [if_neg hone, toggleFrom_refused hfirst hone hfirst]
    by_cases htwo : symTristateWithinRange st s (toggled (toggled (ss.cs.curr s).tri)) ss.cs
    · rw [if_pos htwo]
      exact toggleFrom_accepts (.inr htwo)
    · -- the third value is the old one
      rw [if_neg htwo, toggleFrom_refused hsecond htwo hsecond]
      have hlast := toggled_three (ss.cs.curr s).tri
      rw [toggleFrom_accepts (.inl hlast.symm), hlast]

/-- The old value is set only if no other one is within the range. -/
theorem toggleTarget_eq_iff :
    toggleTarget st s ss.cs = (ss.cs.curr s).tri ↔
      ∀ val, symTristateWithinRange st s val ss.cs → val = (ss.cs.curr s).tri := by
  have hne := toggled_ne (ss.cs.curr s).tri
  have hall : ∀ oldval val : Tristate,
      val = oldval ∨ val = toggled oldval ∨ val = toggled (toggled oldval) := by
    intro oldval val
    cases oldval <;> cases val <;> decide
  unfold toggleTarget
  constructor
  · intro htarget val hrange
    rcases hall (ss.cs.curr s).tri val with rfl | rfl | rfl
    · rfl
    · rw [if_pos hrange] at htarget
      exact htarget
    · by_cases hone : symTristateWithinRange st s (toggled (ss.cs.curr s).tri) ss.cs
      · rw [if_pos hone] at htarget
        exact absurd htarget hne.1
      · rw [if_neg hone, if_pos hrange] at htarget
        exact htarget
  · intro hothers
    rw [if_neg fun hrange => hne.1 (hothers _ hrange),
      if_neg fun hrange => hne.2 (hothers _ hrange)]

theorem toggleTarget_within (hnew : toggleTarget st s ss.cs ≠ (ss.cs.curr s).tri) :
    symTristateWithinRange st s (toggleTarget st s ss.cs) ss.cs := by
  unfold toggleTarget at hnew ⊢
  dsimp only at hnew ⊢
  split
  case isTrue hone => exact hone
  case isFalse hone =>
    rw [if_neg hone] at hnew
    split
    case isTrue htwo => exact htwo
    case isFalse htwo => exact absurd (if_neg htwo) hnew

end Toggle

section Toggle

variable {st : Setup} {rank : SymId → ℕ} {v : Values} {ss : Session} {s : SymId}

end Toggle

section Number

theorem isxdigit_start {c : Char} (h : isxdigit c) : isSpace c = false ∧ c ≠ '+' ∧ c ≠ '-' := by
  refine ⟨?_, ?_, ?_⟩
  · by_contra hspace
    simp only [isSpace, Bool.not_eq_false, Bool.or_eq_true, beq_iff_eq] at hspace
    rcases hspace with ((((rfl | rfl) | rfl) | rfl) | rfl) | rfl <;> exact absurd h (by decide)
  · rintro rfl
    exact absurd h (by decide)
  · rintro rfl
    exact absurd h (by decide)

/-- What is stored is read as the number that was given. -/
theorem readNumber_storedText {type : SymbolType} {newval : Text} {base : ℕ}
    (hbase : numberBase type = some base) (hvalid : symStringValid type newval = true) :
    readNumber base ⟨storedText type newval, .no⟩ = readNumber base ⟨newval, .no⟩ := by
  unfold storedText
  split
  case isFalse => rfl
  case isTrue hadd =>
    obtain ⟨rfl, hadd⟩ := hadd
    obtain rfl : 16 = base := Option.some_inj.mp hbase
    obtain ⟨digits, hne, hdigits, htext⟩ := ConfigM4.hex_of_valid hvalid
    rcases htext with rfl | rfl | rfl
    · obtain ⟨c, rest, rfl⟩ := List.exists_cons_of_ne_nil hne
      obtain ⟨hspace, hplus, hminus⟩ := isxdigit_start (hdigits c (List.mem_cons_self ..))
      refine congrArg toInt (strtol_addPrefix ?_ ?_ ?_)
      · exact List.dropWhile_cons_of_neg (by simp [hspace])
      · rw [takeSign]
        · exact fun _ h => hplus (List.cons.inj h).1
        · exact fun _ h => hminus (List.cons.inj h).1
      · unfold skipPrefix
        split
        case h_1 heq =>
            rw [heq] at hadd
            exact absurd rfl hadd
        case h_2 heq =>
            rw [heq] at hadd
            exact absurd rfl hadd
        case h_3 => rfl
    · exact absurd rfl hadd
    · exact absurd rfl hadd

/-- A number within its range stays as it is. -/
theorem rangedText_within {st : Setup} {curr : SymId → SymbolValue} {s : SymId} {newval : Text}
    (h : textWithinRange st curr s newval) :
    rangedText st curr s (storedText (st.sym s).type newval) =
      storedText (st.sym s).type newval := by
  unfold rangedText
  cases hbase : numberBase (st.sym s).type with
  | none => rfl
  | some base =>
      cases hbounds : (activeProp st curr .range s).bind Property.bounds with
      | none => rfl
      | some bounds =>
          obtain ⟨prop, hprop, hbounds'⟩ := Option.bind_eq_some_iff.mp hbounds
          obtain ⟨hlow, hhigh⟩ := h.2 base hbase prop hprop bounds hbounds'
          simp only [readNumber_storedText hbase h.1, if_pos hlow, if_pos hhigh]

end Number

section Text

variable {st : Setup} {rank : SymId → ℕ} {v : Values} {ss : Session} {s : SymId} (newval : Text)

/-- A text is set for a symbol. -/
structure SetText (user user' : UserValues) (s : SymId) (val : Text) : Prop where
  other : ∀ t, t ≠ s → user.Alike user' t
  has : user'.has s
  val : user'.val s = val

theorem update_true {has : SymId → Bool} (h : has s) : Function.update has s true = has := by
  funext t
  by_cases hts : t = s
  · rw [hts, Function.update_self, h]
  · exact Function.update_of_ne hts ..

variable (hst : Resolved st) (hord : Ordered st rank)
  (huntyped : ∀ s, s ∉ st.symbols → ¬ Typed st s)
  (h : Coherent st rank v ss) (hstored : ss.MayStore s newval)
include hst hord huntyped h hstored

/-- After a text has been stored, what has been calculated is right. -/
theorem setText_coherent : ∃ ss' v', setText st st.symbols.length s newval ss = some ss' ∧
    Coherent st rank v' ss' ∧ SameConstants st v v' ∧
      SetText ss.user ss'.user s (storedText (st.sym s).type newval) := by
  by_cases hsame : storedText (st.sym s).type newval = newval ∧ ss.stored s = true ∧
    ss.user.val s = newval
  · -- the text is there already, and it counts as set
    have hhas := hstored hsame.2.1 hsame.2.2
    refine ⟨ss, v, ?_, h, fun _ _ => ⟨rfl, rfl⟩, ?_⟩
    · refine (if_pos hsame).trans ?_
      rw [update_true hhas]
    · exact ⟨fun _ _ => ⟨rfl, rfl, rfl, rfl⟩, hhas, hsame.2.2.trans hsame.1.symm⟩
  · let user' : UserValues := { ss.user with
      has := Function.update ss.user.has s true
      val := Function.update ss.user.val s (storedText (st.sym s).type newval) }
    have hclear : Coherent st rank v { ss with stored := Function.update ss.stored s true } :=
      ⟨h.choices, h.solves, h.sound, h.const, h.modules⟩
    have hch' : Choices (st.withUser user') rank := choices_withUser h.choices rfl
    obtain ⟨ss', v', hclear, huser, _, hcoherent, hconst⟩ := hclear.clear hst hord huntyped hch'
    refine ⟨ss', v', (if_neg hsame).trans hclear, hcoherent, hconst, ?_⟩
    rw [huser]
    refine ⟨?_, Function.update_self .., Function.update_self ..⟩
    intro t hts
    exact ⟨Function.update_of_ne hts .., rfl, Function.update_of_ne hts .., rfl⟩

theorem symSetStringValue_coherent (hbool : (st.sym s).type ≠ .boolean)
    (htri : (st.sym s).type ≠ .tristate) :
    ∃ set ss' v', symSetStringValue st st.symbols.length s newval ss = some (set, ss') ∧
      Coherent st rank v' ss' ∧ SameConstants st v v' ∧
      (set = true ↔ textWithinRange (st.withUser ss.user) v.curr s newval) ∧
      (set = true → SetText ss.user ss'.user s (storedText (st.sym s).type newval)) ∧
      (set = false → ss'.user = ss.user) := by
  obtain ⟨within, cs, hwithin, hsound, hcs, hiff⟩ :=
    (symStringWithinRange_gives (hst.withUser ss.user) (hord.withUser ss.user) h.choices h.solves
      (s := s) newval).exists_run (fun h => h) h.sound trivial
  have hrun : symSetStringValue st st.symbols.length s newval ss =
      if within then
        (setText st st.symbols.length s newval { ss with cs := cs }).map fun ss' => (true, ss')
      else some (false, { ss with cs := cs }) := by
    unfold symSetStringValue
    split
    · exact absurd ‹_› hbool
    · exact absurd ‹_› htri
    · show (symStringWithinRange _ _ _ _ _).bind _ = _
      have hwithin : symStringWithinRange (st.withUser ss.user)
          (symCalcValue (st.withUser ss.user) st.symbols.length) s newval ss.cs =
            some (within, cs) :=
        hwithin
      rw [hwithin]
      cases within with
      | true =>
          show (setText _ _ _ _ _).bind _ = (setText _ _ _ _ _).map _
          cases setText st st.symbols.length s newval { ss with cs := cs } <;> rfl
      | false => rfl
  have hnow := h.extend hsound hcs
  rw [hrun]
  cases within with
  | false =>
      refine ⟨false, { ss with cs := cs }, v, rfl, hnow, fun _ _ => ⟨rfl, rfl⟩, hiff, ?_,
        fun _ => rfl⟩
      exact fun hset => absurd hset (by decide)
  | true =>
      obtain ⟨ss', v', hset, hcoherent, hsame, htext⟩ :=
        setText_coherent newval hst hord huntyped hnow hstored
      refine ⟨true, ss', v', ?_, hcoherent, hsame, hiff, fun _ => htext, ?_⟩
      · rw [if_pos rfl, hset]
        rfl
      · exact fun hset => absurd hset (by decide)

end Text

section Run

variable {st : Setup} {rank : SymId → ℕ} {v : Values} {ss : Session} {s : SymId} {val : Tristate}
  (hst : Resolved st) (hord : Ordered st rank) (huntyped : ∀ s, s ∉ st.symbols → ¬ Typed st s)
  (hbool : BooleanChoices st)
include hst hord huntyped hbool

theorem symSetTristateValue_coherent (h : Coherent st rank v ss) (hset : ss.MaySet st s val) :
    ∃ set ss' v', symSetTristateValue st st.symbols.length s val ss = some (set, ss') ∧
      Coherent st rank v' ss' := by
  obtain ⟨hs, hlasting⟩ := hset
  by_cases hold : (ss.cs.curr s).tri = val
  · obtain ⟨ss', hrun, _, _, hkeep, _⟩ :=
      symSetTristateValue_old hst hord hbool h hs.mem hs.valid hs.type hold
    exact ⟨true, ss', v, hrun, hkeep ((h.settable_iff hs).mpr (hlasting hold))⟩
  · by_cases hrange : symTristateWithinRange st s val ss.cs
    · obtain ⟨ss', v', hrun, hcoherent, _, _⟩ :=
        symSetTristateValue_new hst hord huntyped hbool h hs.mem hs.valid hs.type hold hrange
      exact ⟨true, ss', v', hrun, hcoherent⟩
    · exact ⟨false, ss, v, symSetTristateValue_refused hold hrange, h⟩

/-- A proper request is served, and what has been calculated is right afterwards. -/
theorem Request.handle_coherent (h : Coherent st rank v ss) (request : Request)
    (hproper : request.Proper st ss) :
    ∃ ss' v', request.handle st st.symbols.length ss = some ss' ∧ Coherent st rank v' ss' := by
  cases request with
  | calculate s =>
      obtain ⟨cs', hcalc, hcoherent, _, _⟩ := h.calc hst hord s
      refine ⟨{ ss with cs := cs' }, v, ?_, hcoherent⟩
      show (symCalcValue _ _ _ _).bind _ = _
      rw [hcalc]
      rfl
  | tristate s val =>
      obtain ⟨set, ss', v', hrun, hcoherent⟩ :=
        symSetTristateValue_coherent hst hord huntyped hbool h hproper
      exact ⟨ss', v', congrArg (Option.map Prod.snd) hrun, hcoherent⟩
  | toggle s =>
      obtain ⟨set, ss', v', hrun, hcoherent⟩ :=
        symSetTristateValue_coherent hst hord huntyped hbool h hproper
      refine ⟨ss', v', ?_, hcoherent⟩
      show (symToggleTristateValue _ _ _ _).map Prod.snd = _
      rw [symToggleTristateValue_eq, hrun]
      rfl
  | text s newval =>
      by_cases htype : (st.sym s).type = .boolean ∨ (st.sym s).type = .tristate
      · simp only [Request.Proper, if_pos htype] at hproper
        show ∃ ss' v', (symSetStringValue st st.symbols.length s newval ss).map Prod.snd = _ ∧ _
        -- the text stands for a value, or is refused
        cases hread : readTristate newval with
        | none =>
            have hrun : symSetStringValue st st.symbols.length s newval ss = some (false, ss) := by
              rcases htype with htype | htype <;> simp only [symSetStringValue, htype, hread]
            exact ⟨ss, v, congrArg (Option.map Prod.snd) hrun, h⟩
        | some val =>
            have hrun : symSetStringValue st st.symbols.length s newval ss =
                symSetTristateValue st st.symbols.length s val ss := by
              rcases htype with htype | htype <;> simp only [symSetStringValue, htype, hread]
            obtain ⟨set, ss', v', hset, hcoherent⟩ :=
              symSetTristateValue_coherent hst hord huntyped hbool h (hproper val hread)
            exact ⟨ss', v', congrArg (Option.map Prod.snd) (hrun.trans hset), hcoherent⟩
      · simp only [Request.Proper, if_neg htype] at hproper
        rw [not_or] at htype
        obtain ⟨set, ss', v', hrun, hcoherent, _⟩ :=
          symSetStringValue_coherent newval hst hord huntyped h hproper htype.1 htype.2
        exact ⟨ss', v', congrArg (Option.map Prod.snd) hrun, hcoherent⟩

theorem run_coherent (requests : List Request) (h : Coherent st rank v ss)
    (hproper : ProperRun st st.symbols.length requests ss) :
    ∃ ss' v', Session.run st st.symbols.length requests ss = some ss' ∧
      Coherent st rank v' ss' := by
  induction requests generalizing v ss with
  | nil => exact ⟨ss, v, rfl, h⟩
  | cons request rest ih =>
      obtain ⟨hfirst, hrest⟩ := hproper
      obtain ⟨ss1, v1, hrun, hcoherent⟩ :=
        Request.handle_coherent hst hord huntyped hbool h request hfirst
      obtain ⟨ss', v', hrun', hcoherent'⟩ := ih hcoherent (hrest ss1 hrun)
      refine ⟨ss', v', ?_, hcoherent'⟩
      show (request.handle st st.symbols.length ss).bind _ = _
      rw [hrun]
      exact hrun'

end Run

end Pbs.Kconfig
