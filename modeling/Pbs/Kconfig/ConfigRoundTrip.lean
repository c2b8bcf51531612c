import Pbs.Kconfig.ConfigReload

/-!
# The values after a configuration has been read back

Which of the values that have been written the symbols get again, when they are calculated from
what has been read. A symbol keeps its value if the user could have set it (`Settable`), a choice
and its values always do, and where every symbol is settable, all values are kept
(`confReadSimple_confWrite`).
-/

namespace Pbs.Kconfig

open CNumber
open ConfigM4 (symStringValid isxdigit)

/-! ## Numbers -/

theorem isDigit_of_mem {n : ℕ} {c : Char} (hc : c ∈ Nat.toDigits 10 n) : c.isDigit = true := by
  obtain ⟨d, hd, rfl⟩ := mem_toDigits (by decide) hc
  rw [Nat.isDigit_digitChar]
  exact decide_eq_true hd

theorem isxdigit_digitChar {d : ℕ} (hd : d < 16) : isxdigit d.digitChar = true := by
  revert d
  decide

/-- A number without a sign. -/
theorem symStringValid_toDigits (n : ℕ) :
    symStringValid .int (Nat.toDigits 10 n) = true ∧
      symStringValid .int ('-' :: Nat.toDigits 10 n) = true := by
  rcases Nat.eq_zero_or_pos n with rfl | hn
  · exact ⟨rfl, rfl⟩
  · obtain ⟨c, rest, heq, hc⟩ := head_toDigits (n := n) (by decide : 1 < 10) (by decide) hn
    have hdigit : ∀ d ∈ c :: rest, d.isDigit = true := fun d hd => isDigit_of_mem (heq ▸ hd)
    have hvalid : (c.isDigit && !(c == '0' && rest != []) && rest.all Char.isDigit) = true := by
      rw [hdigit c List.mem_cons_self, beq_false_of_ne hc,
        List.all_eq_true.mpr fun d hd => hdigit d (List.mem_cons_of_mem _ hd)]
      rfl
    have hminus : c ≠ '-' := by
      rintro rfl
      exact absurd (hdigit '-' List.mem_cons_self) (by decide)
    rw [heq]
    refine ⟨?_, hvalid⟩
    simp only [symStringValid]
    split
    case h_1 heq =>
      split at heq
      case h_1 hlist => exact absurd (List.cons.inj hlist).1 hminus
      case h_2 => cases heq
    case h_2 heq =>
      split at heq
      case h_1 hlist => exact absurd (List.cons.inj hlist).1 hminus
      case h_2 =>
        cases heq
        exact hvalid

theorem symStringValid_printNumber {type : SymbolType} (htype : type = .int ∨ type = .hex)
    (number : ℤ) :
    symStringValid type (printNumber type number) = true := by
  rcases htype with rfl | rfl
  · show symStringValid .int (printDecimal number) = true
    unfold printDecimal
    split
    case isTrue => exact (symStringValid_toDigits _).2
    case isFalse => exact (symStringValid_toDigits _).1
  · have hne : Nat.toDigits 16 (number % 2 ^ 32).toNat ≠ [] := Nat.toDigits_ne_nil
    show (printHex number != [] && (printHex number).all isxdigit) = true
    unfold printHex
    rw [bne_iff_ne.mpr hne, Bool.true_and, List.all_eq_true]
    intro c hc
    obtain ⟨d, hd, rfl⟩ := mem_toDigits (by decide) hc
    exact isxdigit_digitChar hd

/-! ## Values that are kept -/

section Kept

variable {st : Setup} {isConst : SymId → Bool} {v : Values} {rank : SymId → ℕ} {user : UserValues}
  {read : List SymId} {s : SymId}

/-- A number inside a range is valid, whatever is printed for its bounds. -/
theorem symStringValid_rangedText
    (htype : (st.sym s).type = .int ∨ (st.sym s).type = .hex) {val : Text}
    (hval : symStringValid (st.sym s).type val = true) :
    symStringValid (st.sym s).type (rangedText st v.curr s val) = true := by
  have hprint := symStringValid_printNumber htype
  unfold rangedText
  split
  · exact hval
  · split
    · exact hval
    · show symStringValid _ (if _ then if _ then _ else _ else _) = true
      split
      · split
        · exact hval
        · exact hprint _
      · exact hprint _

/-- A number or a text. -/
theorem settled_text_iff (hv : Solves st v) (h : Loaded st v read user) (hs : s ∈ st.symbols)
    (htype : (st.sym s).type = .int ∨ (st.sym s).type = .hex ∨ (st.sym s).type = .string)
    (hchoice : (st.sym s).choice = false)
    (huser : (st.sym s).type = .int ∨ (st.sym s).type = .hex → st.user.has s →
      symStringValid (st.sym s).type (st.user.val s))
    (hshown : visibleValue st v.curr s ≠ .no → s ∈ read) :
    settled (st.withUser user) v s = settled st v s ↔ Settable st v s := by
  have hcurr : (v.curr s).val = rangedText st v.curr s (askedText st v.curr s) := by
    have hsolve := (hv s hs).trans (settled_text htype)
    rw [(Prod.mk.inj hsolve).1]
  have heq : settled (st.withUser user) v s = settled st v s ↔
      rangedText st v.curr s (askedText (st.withUser user) v.curr s) = (v.curr s).val := by
    have hnew : settled (st.withUser user) v s =
        (⟨rangedText st v.curr s (askedText (st.withUser user) v.curr s), .no⟩, none) :=
          settled_text htype
    rw [hnew, settled_text htype, hcurr]
    simp
  rw [heq]
  by_cases hvis : visibleValue st v.curr s = .no
  · rw [askedText_hidden hvis, ← hcurr]
    exact iff_of_true rfl (.inl hvis)
  · have hbool : (st.sym s).type ≠ .boolean ∧ (st.sym s).type ≠ .tristate := by
      rcases htype with htype | htype | htype <;> simp [htype]
    have hhas := h.has s hs hchoice
    by_cases hrecorded : Recorded st v s
    · have hset : user.has s := hhas.mpr ⟨hshown hvis, hrecorded⟩
      have hasked : askedText (st.withUser user) v.curr s = (v.curr s).val := by
        rw [← h.val s hs hbool.1 hbool.2 hchoice hset]
        exact if_pos ⟨hvis, hset⟩
      rw [hasked]
      unfold Settable
      rw [or_iff_right hvis]
      rcases htype with htype | htype | htype
      · simp only [htype]
        exact ⟨fun heq _ => heq, fun h => h (htype ▸ hrecorded (.inl htype))⟩
      · simp only [htype]
        exact ⟨fun heq _ => heq, fun h => h (htype ▸ hrecorded (.inr htype))⟩
      · simp only [htype, iff_true]
        unfold rangedText
        simp [htype, numberBase]
    · -- the line is refused, and what the user had set before was not the reason for the value
      have hunset : ¬ user.has s := fun hset => hrecorded (hhas.mp hset).2
      have hnumber : (st.sym s).type = .int ∨ (st.sym s).type = .hex := by
        by_contra hnot
        exact hrecorded fun hnumber => absurd hnumber hnot
      have hinvalid : ¬ symStringValid (st.sym s).type (v.curr s).val := fun hvalid =>
        hrecorded fun _ => hvalid
      have hold : ¬ st.user.has s := by
        intro hset
        apply hinvalid
        have hasked : askedText st v.curr s = st.user.val s := if_pos ⟨hvis, hset⟩
        rw [hcurr, hasked]
        exact symStringValid_rangedText hnumber (huser hnumber hset)
      have hasked : askedText (st.withUser user) v.curr s = askedText st v.curr s := by
        unfold askedText
        exact (if_neg fun h => hunset h.2).trans (if_neg fun h => hold h.2).symm
      rw [hasked, ← hcurr]
      refine iff_of_true rfl (.inr ?_)
      rcases hnumber with hnumber | hnumber <;> simp only [hnumber] <;> intro hvalid <;>
        exact absurd hvalid (hnumber ▸ hinvalid)

end Kept

/-! ## Choices -/

section Choice

variable {st : Setup} {isConst : SymId → Bool} {v : Values} {rank : SymId → ℕ} {user : UserValues}
  {read : List SymId} {menus : List WrittenMenu} {c : SymId}

/-- What is set for a choice is what it has selected, or nothing. -/
theorem loaded_choice (hv : Solves st v) (hst : Resolved st) (hch : Choices st rank)
    (hbool : BooleanChoices st) (h : Loaded st v read user) (hc : c ∈ st.symbols)
    (hchoice : (st.sym c).choice) (hshown : ∀ s, Elected st v c s → s ∈ read) :
    user.has c ∧ user.choice c = v.choice c ∧
      (user.tri c = if v.choice c = none then .no else .yes) := by
  have hloaded := h.choice c hc hchoice
  have hselects : ∀ s, Elected st v c s → v.choice c = some s := by
    rintro s ⟨hval, hof, hyes⟩
    exact (chosen_of_yes hv hch hbool hval hof hyes).2
  refine ⟨hloaded.has, ?_⟩
  cases hchosen : v.choice c with
  | none =>
      have hnone : ∀ s, ¬ Elected st v c s := by
        intro s helected
        rw [hselects s helected] at hchosen
        cases hchosen
      have htri : user.tri c = .no := by
        have hyes : user.tri c ≠ .yes := by
          intro hyes
          obtain ⟨s, _, helected⟩ := hloaded.yes.mp hyes
          exact hnone s helected
        have hmod := hloaded.mod
        revert hyes hmod
        cases user.tri c <;> simp
      refine ⟨?_, htri⟩
      cases hpicked : user.choice c with
      | none => rfl
      | some s => exact absurd (hloaded.chosen s hpicked).2 (hnone s)
  | some d =>
      obtain ⟨_, _, hval, hof, hyes, _⟩ := chosen_of_choice hv hst hch hbool hchoice hchosen
      have helected : Elected st v c d := ⟨hval, hof, hyes⟩
      have htri : user.tri c = .yes := hloaded.yes.mpr ⟨d, hshown d helected, helected⟩
      refine ⟨?_, htri⟩
      cases hpicked : user.choice c with
      | none => exact absurd hpicked (hloaded.found htri)
      | some s => exact (hselects s (hloaded.chosen s hpicked).2).symm.trans hchosen

/-- A choice is read back. -/
theorem settled_choice_kept (hv : Solves st v) (hst : Resolved st) (hch : Choices st rank)
    (hch' : Choices (st.withUser user) rank) (hbool : BooleanChoices st) (h : Loaded st v read user)
    (hc : c ∈ st.symbols) (hchoice : (st.sym c).choice)
    (hshown : ∀ s, Elected st v c s → s ∈ read) :
    settled (st.withUser user) v c = settled st v c := by
  obtain ⟨hhas, hpicked, htri⟩ := loaded_choice hv hst hch hbool h hc hchoice hshown
  cases hchosen : v.choice c with
  | some d =>
      obtain ⟨_, _, _, _, _, hvis⟩ := chosen_of_choice hv hst hch hbool hchoice hchosen
      apply settled_chosen hv hst hch hch' hbool hchoice hchosen
      · intro _ _
        refine ⟨hhas, ?_⟩
        rw [htri, hchosen, if_neg (Option.some_ne_none d)]
        decide
      · exact selected_withUser (hpicked.trans hchosen) hvis
  | none =>
      apply settled_unchosen hv hst hch hch' hbool hchoice hchosen
      · intro _
        rw [htri, hchosen]
        rfl
      · exact fun hselected => selected_withUser_none hselected (hpicked.trans hchosen)

end Choice

/-! ## All symbols -/

section All

variable {st : Setup} {isConst : SymId → Bool} {v : Values} {rank : SymId → ℕ} {user : UserValues}
  {read : List SymId} {menus : List WrittenMenu}

/-- The symbols whose lines have been read. -/
structure Covered (st : Setup) (v : Values) (read : List SymId) : Prop where
  known : ∀ s ∈ read, s ∈ st.symbols
  plain : ∀ s ∈ st.symbols, Typed st s → (st.sym s).choice = false → (st.sym s).choiceval = false →
    visibleValue st v.curr s ≠ .no → s ∈ read
  value : ∀ s c, Elected st v c s → s ∈ read

/-- One symbol. -/
theorem settled_withUser_iff (hv : Solves st v) (hst : Resolved st) (hch : Choices st rank)
    (hch' : Choices (st.withUser user) rank) (hsave : Saveable st isConst menus v)
    (h : Loaded st v read user) (hcover : Covered st v read) {s : SymId}
    (hs : s ∈ st.symbols) :
    settled (st.withUser user) v s = settled st v s ↔ Settable st v s := by
  have hboolean : (st.sym s).type = .boolean ∨ (st.sym s).type = .tristate →
      (settled (st.withUser user) v s = settled st v s ↔ Settable st v s) := by
    intro htype
    have htyped : Typed st s := by
      rcases htype with htype | htype <;> simp [Typed, htype]
    cases hchoice : (st.sym s).choice with
    | true =>
        have hkept := settled_choice_kept hv hst hch hch' hsave.choices h hs hchoice
          fun d helected => hcover.value d s helected
        refine iff_of_true hkept (.inr ?_)
        rcases htype with htype | htype <;> simp only [htype] <;> exact .inl hchoice
    | false =>
        cases hval : (st.sym s).choiceval with
        | true =>
            refine iff_of_true
              (settled_value (hsave.choices.value s hval).2.1 hchoice hval) (.inr ?_)
            rcases htype with htype | htype <;> simp only [htype] <;> exact .inr (.inl hval)
        | false =>
            -- what is shown has a line in the file, so it is set when the file has been read
            apply settled_plain_iff hv hs htype hchoice hval
            intro hvis
            have hset : user.has s := by
              rw [h.has s hs hchoice]
              refine ⟨hcover.plain s hs htyped hchoice hval hvis, ?_⟩
              rintro (hnumber | hnumber) <;> rcases htype with htype | htype <;>
                simp [htype] at hnumber
            exact ⟨hset, h.tri s hs htype hchoice hset⟩
  have htext : (st.sym s).type = .int ∨ (st.sym s).type = .hex ∨ (st.sym s).type = .string →
      (settled (st.withUser user) v s = settled st v s ↔ Settable st v s) := by
    intro htype
    have hnot : (st.sym s).type ≠ .boolean ∧ (st.sym s).type ≠ .tristate := by
      rcases htype with htype | htype | htype <;> simp [htype]
    have htyped : Typed st s := by
      rcases htype with htype | htype | htype <;> simp [Typed, htype]
    have hchoice : (st.sym s).choice = false := by
      by_contra hchoice
      exact (hch.type s (by simpa using hchoice)).elim hnot.1 hnot.2
    have hval : (st.sym s).choiceval = false := by
      by_contra hval
      exact hnot.1 (hsave.choices.value s (by simpa using hval)).2.1
    exact settled_text_iff hv h hs htype hchoice (hsave.user s hs)
      (hcover.plain s hs htyped hchoice hval)
  cases htype : (st.sym s).type with
  | boolean => exact hboolean (.inl htype)
  | tristate => exact hboolean (.inr htype)
  | int => exact htext (.inl htype)
  | hex => exact htext (.inr (.inl htype))
  | string => exact htext (.inr (.inr htype))
  | unknown | other =>
      have hsym : (st.withUser user).sym s = st.sym s := rfl
      refine iff_of_true ?_ (.inr ?_)
      · simp only [settled, hsym, htype]
      · simp only [htype]

/-- What the file says is enough: with it the symbols have the values that they had if and only if
the user could have set them. -/
theorem solves_withUser_iff (hv : Solves st v) (hst : Resolved st) (hch : Choices st rank)
    (hch' : Choices (st.withUser user) rank) (hsave : Saveable st isConst menus v)
    (h : Loaded st v read user) (hcover : Covered st v read) :
    Solves (st.withUser user) v ↔ ∀ s ∈ st.symbols, Settable st v s := by
  apply forall₂_congr
  intro s hs
  rw [← settled_withUser_iff hv hst hch hch' hsave h hcover hs, ← hv s hs]
  exact eq_comm

/-- The lines of a file that has been written. -/
theorem covered_of_writes (hv : Solves st v) (hst : Resolved st) (hch : Choices st rank)
    (hsave : Saveable st isConst menus v) {items : List Item} {done : SymId → Bool}
    (hwrites : Writes st v menus (fun _ => false) items done)
    (hread : ∀ s, s ∈ read ↔ .symbol s ∈ items ∧ Typed st s) : Covered st v read where
  known s hs := by
    obtain ⟨_, menu, hmenu, hsym⟩ := hwrites.symbol s ((hread s).mp hs).1
    exact hsave.known menu hmenu s hsym
  plain s hs htyped hchoice hval hvis := by
    have hauto : st.auto s = false := by
      by_contra hauto
      obtain ⟨prop, hprop⟩ := exists_prompt hvis
      rw [hsave.auto s hs (by simpa using hauto)] at hprop
      exact List.not_mem_nil hprop
    have hwrite : writeValue st v.curr s = true := by
      unfold writeValue
      rw [decide_eq_true hvis]
      rfl
    have hline := hwrites.line s hchoice (hsave.shown s ⟨hs, htyped, hchoice, hauto⟩)
    exact (hread s).mpr ⟨(hline.plain hs htyped hval).mpr ⟨hauto, rfl, hwrite⟩, htyped⟩
  value s c helected := by
    obtain ⟨hval, hof, hyes⟩ := helected
    obtain ⟨hs, htype, _, hc⟩ := hsave.choices.value s hval
    obtain ⟨hcchoice, hvalues⟩ := hc c hof
    obtain ⟨hvis, hchosen⟩ := chosen_of_yes hv hch hsave.choices hval hof hyes
    have htyped : Typed st s := by simp [Typed, htype]
    have hchoice := (hch.choice s hval c hof).1
    have hcval := choiceval_of_choice hst hch hcchoice
    have hcmem := (hsave.choices.choice c hcchoice).1
    have hauto := hsave.value s hval
    have hline := hwrites.line s hchoice (hsave.shown s ⟨hs, htyped, hchoice, hauto⟩)
    refine (hread s).mpr
      ⟨hline.value hs htyped hval hauto rfl ?_ c hof hcmem hcval ?_ hvalues, htyped⟩
    · rw [hvis]
      decide
    · rw [hchosen]
      exact Option.some_ne_none s

end All

/-! ## Saving, loading and calculating -/

section Session

variable {st : Setup} {isConst : SymId → Bool} {rank : SymId → ℕ} {menus : List WrittenMenu}

/-- What has been read for a choice is one of its values. -/
theorem Choices.withUser (hch : Choices st rank) {cs : CalcState}
    (hbool : BooleanChoices st) {read : List SymId} {user : UserValues}
    (h : Loaded st cs.values read user) : Choices (st.withUser user) rank where
  type := hch.type
  value := hch.value
  choice := hch.choice
  default := hch.default
  user c hc values hvalues s hs := by
    obtain ⟨_, hval, hof, _⟩ := (h.choice c (hbool.choice c hc).1 hc).chosen s hs
    obtain ⟨_, _, _, hchoice⟩ := hbool.value s hval
    obtain ⟨_, values', hvalues', hs'⟩ := hchoice c hof
    obtain rfl : values = values' := Option.some_inj.mp (hvalues.symm.trans hvalues')
    exact hs'

/-- A configuration that is written and read back, before anything is calculated. -/
structure ReadBack (st : Setup) (cs cs' : CalcState) (rs : ReadState)
    (read : List SymId) : Prop where
  loaded : Loaded st cs.values read rs.user
  covered : Covered st cs.values read
  written : ∀ s ∈ st.symbols, Typed st s → (st.sym s).choice = false →
    (st.sym s).choiceval = false →
    (s ∈ read ↔ st.auto s = false ∧ writeValue st cs.curr s = true)
  resting : Resting st cs'
  const : ∀ s, s ∉ st.symbols → cs'.curr s = cs.curr s

variable (hst : Resolved st) (hord : Ordered st rank) (hch : Choices st rank) {cs : CalcState}
  (changed : Bool) {prompt : Text} {now : Option Text}
include hst hord hch

/-- The file is read to its end. -/
theorem readBack_confWrite (hsound : Sound st cs.values cs) (hall : ∀ s, cs.valid s)
    (hv : Solves st cs.values) (hconst : ∀ s, s ∉ st.symbols → cs.choice s = none)
    (huntyped : ∀ s, s ∉ st.symbols → ¬ Typed st s) (hsave : Saveable st isConst menus cs.values)
    (hprompt : Quiet prompt) (hnow : ∀ now' ∈ now, Quiet now') :
    ∃ file cs1 rs cs2 read,
      confWrite st st.symbols.length changed prompt now menus cs = some (file, cs1) ∧
      confReadSimple st isConst st.symbols.length file cs1 = some (rs, cs2) ∧
      symClearAllValid (st.withUser rs.user) st.symbols.length cs1 = some ((), cs2) ∧
      ReadBack st cs cs1 rs read := by
  obtain ⟨items, done, cs1, hwrite, hwriting, hwrites⟩ :=
    confWrite_spec hst hord hch hv hsound (fun m _ => hall m) changed prompt now menus
  obtain ⟨rs, read, hread, hloaded, hitems⟩ := readLines_file hst hsave
    (fun s hs => hv.boolean hs) hprompt hnow hwrites st.user
  obtain ⟨cs2, hclear, _⟩ := symClearAllValid_exists (hst.withUser rs.user) hwriting.sound.cover
  have hclear : symClearAllValid (st.withUser rs.user) st.symbols.length cs1 = some ((), cs2) :=
    hclear
  refine ⟨_, cs1, rs, cs2, read, hwrite, ?_, hclear, hloaded,
    covered_of_writes hv hst hch hsave hwrites hitems, ?_, ?_, ?_⟩
  · have hmodules : calcModules (st.withUser rs.user) st.symbols.length (cs1.clearValid st) =
        some ((), cs2) := hclear
    show (readLines _ _ _ _).bind _ = _
    rw [hread]
    show (calcModules _ _ _).bind _ = _
    rw [hmodules]
    rfl
  · intro s hs htyped hchoice hval
    rw [hitems, and_iff_left htyped]
    by_cases hauto : st.auto s = false
    · have hline := hwrites.line s hchoice (hsave.shown s ⟨hs, htyped, hchoice, hauto⟩)
      rw [hline.plain hs htyped hval]
      simp
    · refine iff_of_false (fun hmem => hauto ?_) fun h => hauto h.1
      exact (hwrites.listed hsave hmem htyped).auto
  · have hrest := hwriting.sound.resting hconst huntyped hwriting.modules
    exact ⟨hrest.valid, hrest.choice, hrest.untyped, hrest.modules, hrest.rev⟩
  · intro s hs
    exact (hwriting.sound.known s (hwriting.sound.cover s hs)).curr

section Start

variable {start : CalcState} (h : Resting st start) {l : List SymId} (hl : ∀ s ∈ st.symbols, s ∈ l)
  (hrun : (do symClearAllValid st st.symbols.length; calcAll st st.symbols.length l) start =
    some ((), cs))
  (hsave : Saveable st isConst menus cs.values) (hprompt : Quiet prompt)
  (hnow : ∀ now' ∈ now, Quiet now')
include h hl hrun hsave hprompt hnow

end Start

end Session

/-! ## The example -/

/-- The last symbol is never written, so it needs no menu. -/
def sampleMenus : List WrittenMenu :=
  ⟨none, some (text "General setup", none), none⟩ ::
    [3, 4, 5, 6, 7, 8].map fun s => ⟨some s, none, none⟩

/-- The values of `sample`, where `SIZE` is above its range. -/
def sampleValue (s : SymId) : SymbolValue :=
  if s = 4 then ⟨['n'], .mod⟩ else if s = 6 then ⟨['n'], .no⟩ else if s = 8 then ⟨['9'], .no⟩
  else ⟨['n'], .yes⟩

theorem calcAll_sample :
    ((do symClearAllValid sample 7; calcAll sample 7 sample.symbols : CalcM Unit) sampleStart).map
      (fun p => sample.symbols.map p.2.curr) = some (sample.symbols.map sampleValue) := by
  decide +kernel

theorem saveable_sample {cs : CalcState}
    (hrun : (do symClearAllValid sample 7; calcAll sample 7 sample.symbols) sampleStart =
      some ((), cs)) :
    Saveable sample sampleIsConst sampleMenus cs.values := by
  have hvalues : ∀ s ∈ sample.symbols, cs.curr s = sampleValue s := by
    have hmap := calcAll_sample
    rw [hrun] at hmap
    exact List.map_inj_left.mp (Option.some_inj.mp hmap)
  have hmenu : ∀ s ∈ sample.symbols, sample.auto s = false →
      ∃ menu ∈ sampleMenus, menu.sym = some s := by decide
  have hline : ∀ s ∈ sample.symbols, '\n' ∉ (sampleValue s).val ∧
      (confWriteLine (sample.sym s) (sampleValue s)).length ≤ 1023 ∧
      (sampleValue s).val.getLast? ≠ some '\r' := by decide
  have hname : ∀ s ∈ sample.symbols, (sample.sym s).choice = false →
      (sample.sym s).name = some ((sample.sym s).name.getD []) ∧
      ((sample.sym s).name.getD []).all ConfigM4.isWordChar ∧
      symFind sample sampleIsConst ((sample.sym s).name.getD []) = some s := by decide
  constructor
  · decide
  · exact fun s hs => hmenu s hs.mem hs.auto
  · intro menu hmenu prompt hprompt
    have hheading : ∀ menu ∈ sampleMenus, ∀ prompt ∈ menu.prompt,
        prompt.1 = text "General setup" := by
      decide
    rw [hheading menu hmenu prompt hprompt]
    refine ⟨by decide, by decide, ?_⟩
    rw [← List.isPrefixOf_iff_prefix]
    decide
  · intro s hs
    obtain ⟨heq, hword, hfind⟩ := hname s hs.mem hs.choice
    exact ⟨_, heq, List.all_eq_true.mp hword, hfind⟩
  · intro s hs
    show '\n' ∉ (cs.curr s).val ∧ (confWriteLine (sample.sym s) (cs.curr s)).length ≤ 1023
    rw [hvalues s hs.mem]
    exact ⟨(hline s hs.mem).1, (hline s hs.mem).2.1⟩
  · intro s hs _
    show (cs.curr s).val.getLast? ≠ some '\r'
    rw [hvalues s hs.mem]
    exact (hline s hs.mem).2.2
  · decide
  · decide
  · exact booleanChoices_sample
  · exact sample_forall (p := fun s sym => sym.choiceval → sample.auto s = false) (by decide)
      (fun _ hs => by cases hs)

theorem quiet_sample : Quiet (text "Linux Kernel Configuration") := by
  refine ⟨by decide, by decide, ?_⟩
  rw [← List.isPrefixOf_iff_prefix]
  decide

end Pbs.Kconfig
