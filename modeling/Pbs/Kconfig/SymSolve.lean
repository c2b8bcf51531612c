import Mathlib.Data.List.Find
import Pbs.Kconfig.SymValue

/-!
# `sym_calc_value` finds the values

While a symbol is calculated, what is known of its own fields is an `At`; the symbols it asks for
cannot change them. Each function of `symbol.c` is followed from one `At` to the next, up to
a state in which the symbol agrees with the values.
-/

namespace Pbs.Kconfig

open StateSpec StateSpec.Regime

section Own

variable {st : Setup} {v : Values} {rank : SymId → ℕ} {value : SymId → CalcM Unit}

/-- A symbol of a smaller rank is read with its value. -/
theorem reads_below {r : ℕ} {P : CalcState → Prop}
    (hvalue : ∀ t, rank t < r →
      (inner st v rank r).Gives (fun _ => True) (value t) fun _ cs => cs.valid t)
    {t : SymId} (ht : rank t < r) : Reads (inner st v rank r) value P v.curr t where
  gives := (hvalue t ht).of_pre fun _ _ _ => trivial
  reads _ hinv _ hvalid := (hinv.known t ht hvalid).curr

/-! ## The symbol that is calculated -/

/-- The value of `modules_sym` is not lost: it is in `modules_val`, or in the old value of the
symbol. -/
def ModulesKept (st : Setup) (v : Values) (s : SymId) (old : SymbolValue) (cs : CalcState) : Prop :=
  st.modulesSym = some s → cs.modulesVal = old.tri ∨ cs.modulesVal = modulesValue st v.curr

/-- Before the visibility of a symbol is known. -/
structure Starting (st : Setup) (v : Values) (s : SymId) (old : SymbolValue) (cs : CalcState) :
    Prop where
  valid : cs.valid s
  write : (st.sym s).choiceval = false → cs.write s = false
  modules : ModulesKept st v s old cs

/-- The fields of a symbol with a visibility. -/
structure At (st : Setup) (v : Values) (s : SymId) (old value : SymbolValue) (chosen : Option SymId)
    (write : Bool) (cs : CalcState) : Prop where
  valid : cs.valid s
  curr : cs.curr s = value
  choice : cs.choice s = chosen
  visible : cs.visible s = visibleValue st v.curr s
  rev : cs.revTri s = revValue st v.curr s
  write : (st.sym s).choiceval = false → cs.write s = write
  prompts : Valid (promptSyms (st.sym s)) cs
  modules : ModulesKept st v s old cs

variable {s : SymId} {old newval : SymbolValue} {chosen : Option SymId} {write : Bool}

theorem ModulesKept.changes {r : ℕ} {free : SymId → Prop} {cs cs' : CalcState}
    (h : ModulesKept st v s old cs) (hstep : Changes st v rank r free cs cs') :
    ModulesKept st v s old cs' := by
  intro hs
  rcases hstep.modules with hmod | hmod
  · rw [hmod]
    exact h hs
  · exact .inr hmod

theorem Starting.stable : (inner st v rank (rank s)).Stable (Starting st v s old) := by
  intro cs cs' _ _ hstep h
  have hsame := hstep.same s (Nat.le_refl _) id
  exact ⟨hstep.valid s h.valid, fun hs => (hsame.write hs).trans (h.write hs),
    h.modules.changes hstep⟩

/-- What is known of a symbol stays while others are calculated. -/
theorem At.stable : (inner st v rank (rank s)).Stable (At st v s old newval chosen write) := by
  intro cs cs' hinv hinv' hstep h
  have hsame := hstep.same s (Nat.le_refl _) id
  exact
    { valid := hstep.valid s h.valid
      curr := hsame.curr.trans h.curr
      choice := hsame.choice.trans h.choice
      visible := hsame.visible.elim (fun hvis => hvis.trans h.visible) id
      rev := hsame.rev.trans h.rev
      write := fun hs => (hsame.write hs).trans (h.write hs)
      prompts := stable_valid _ cs cs' hinv hinv' hstep h.prompts
      modules := h.modules.changes hstep }

/-- `sym->curr = newval`. -/
theorem At.setCurr {cs : CalcState} (h : At st v s old newval chosen write cs)
    (newval' : SymbolValue)
    (chosen' : Option SymId) : At st v s old newval' chosen' write
    (cs.setCurr s newval' chosen') where
  valid := h.valid
  curr := Function.update_self ..
  choice := Function.update_self ..
  visible := h.visible
  rev := h.rev
  write := h.write
  prompts := h.prompts
  modules := h.modules

theorem At.setWrite {cs : CalcState} (h : At st v s old newval chosen write cs) (flag : Bool) :
    At st v s old newval chosen flag (cs.setWrite s flag) where
  valid := h.valid
  curr := h.curr
  choice := h.choice
  visible := h.visible
  rev := h.rev
  write _ := Function.update_self ..
  prompts := h.prompts
  modules := h.modules

theorem At.writeIf {cs : CalcState} (h : At st v s old newval chosen write cs) (cond : Prop)
    [Decidable cond] : At st v s old newval chosen (write || decide cond) (cs.writeIf s cond) := by
  unfold CalcState.writeIf
  split
  case isTrue hcond =>
    simpa [hcond] using h.setWrite true
  case isFalse hcond =>
    simpa [hcond] using h

theorem At.writeVisible {cs : CalcState} (h : At st v s old newval chosen write cs) :
    At st v s old newval chosen (write || visibleValue st v.curr s ≠ .no)
      (cs.writeIf s (cs.visible s ≠ .no)) := by
  simpa [h.visible] using h.writeIf (cs.visible s ≠ .no)

theorem At.writeRev {cs : CalcState} (h : At st v s old newval chosen write cs) :
    At st v s old newval chosen (write || revValue st v.curr s ≠ .no)
      (cs.writeIf s (cs.revTri s ≠ .no)) := by
  simpa [h.rev] using h.writeIf (cs.revTri s ≠ .no)

/-- The flag of a choice value is not known. -/
theorem At.of_choiceval {cs : CalcState} (h : At st v s old newval chosen write cs)
    (hs : (st.sym s).choiceval) (flag : Bool) : At st v s old newval chosen flag cs :=
  { h with write := fun hval => absurd (hs.symm.trans hval) (by decide) }

theorem touches_writeIf (s : SymId) (cond : Prop) [Decidable cond] (cs : CalcState) :
    Touches st v s cs (cs.writeIf s cond) := by
  unfold CalcState.writeIf
  split
  · exact touches_setWrite (.inl rfl) cs
  · exact Touches.refl s cs

/-- The value of `modules_sym` is there when the type of a tristate symbol is asked for. -/
theorem Below.modules_of_type {cs : CalcState}
    (hinv : Below st v rank (rank s) cs) (hs : (st.sym s).type = .tristate ∨ (st.sym s).choice) :
    cs.modulesVal = modulesValue st v.curr := by
  rcases hinv.modules with hmod | hmod
  · exact hmod
  · exact absurd (hmod.1 s hs) (Nat.lt_irrefl _)

theorem symGetType_eq {cs : CalcState} (hinv : Below st v rank (rank s) cs)
    (hvis : cs.visible s = visibleValue st v.curr s) :
    symGetType (st.sym s) (cs.visible s) cs.modulesVal = typeValue st v.curr s := by
  rw [typeValue, hvis]
  by_cases htype : (st.sym s).type = .tristate
  · rw [hinv.modules_of_type (.inl htype)]
  · simp [symGetType, htype]

theorem activeProp_mem {type : PropType} {prop : Property}
    (h : activeProp st v.curr type s = some prop) : prop ∈ (st.sym s).properties type :=
  List.mem_of_find?_eq_some h

theorem deref_gives {α : Type} {r : ℕ} {free : SymId → Prop} (P : CalcState → Prop) (p : Option α) :
    (calculating st v rank r free).Gives P (deref p) fun a cs => p = some a ∧ P cs :=
  gives_deref fun _ => trivial

/-- What is visible has a prompt. -/
theorem exists_prompt {curr : SymId → SymbolValue} (h : visibleValue st curr s ≠ .no) :
    ∃ prop, prop ∈ (st.sym s).prompts := by
  apply List.exists_mem_of_ne_nil
  intro hnil
  apply h
  rw [visibleValue, promptValue, hnil]
  simp [liftVisible]

theorem mem_exprSyms_value {prop : Property} {ds : SymId} (h : propGetSymbol prop = some ds) :
    ds ∈ exprSyms prop.value := by
  unfold propGetSymbol at h
  split at h
  case h_1 s heq =>
    cases h
    simp [Property.value, heq, exprSyms, Expr.syms]
  case h_2 => cases h

/-! ## sym_calc_visibility -/

/-- Before the selects of a symbol are known. -/
structure Seen (st : Setup) (v : Values) (s : SymId) (old : SymbolValue)
    (cs : CalcState) : Prop where
  starting : Starting st v s old cs
  visible : cs.visible s = visibleValue st v.curr s
  prompts : Valid (promptSyms (st.sym s)) cs

theorem Seen.stable : (inner st v rank (rank s)).Stable (Seen st v s old) := by
  intro cs cs' hinv hinv' hstep h
  have hsame := hstep.same s (Nat.le_refl _) id
  exact ⟨Starting.stable cs cs' hinv hinv' hstep h.starting,
    hsame.visible.elim (fun hvis => hvis.trans h.visible) id,
    stable_valid _ cs cs' hinv hinv' hstep h.prompts⟩

section Calc

variable (hord : Ordered st rank)
  (hvalue : ∀ t, rank t < rank s →
    (inner st v rank (rank s)).Gives (fun _ => True) (value t) fun _ cs => cs.valid t)
include hord hvalue

theorem calcPrompts_own :
    (calculating st v rank (rank s) (· = s)).Gives (Starting st v s old) (calcPrompts st value s)
      fun _ cs => Seen st v s old cs := by
  apply gives_of_inner
  refine (calcPrompts_gives (E := v.curr) Starting.stable ?_ ?_ rfl).of_post ?_
  · intro prop hprop t ht
    exact reads_below hvalue (hord.prompt s prop hprop t ht)
  · intro cs hinv htype
    exact hinv.modules_of_type (.inl htype)
  · rintro _ cs _ ⟨hvis, hvalid, hcs⟩
    exact ⟨hcs, hvis, hvalid⟩

theorem symCalcVisibility_own :
    (calculating st v rank (rank s) (· = s)).Gives (Starting st v s old)
      (symCalcVisibility st value s)
      fun _ cs => Seen st v s old cs ∧ cs.revTri s = revValue st v.curr s := by
  apply (calcPrompts_own hord hvalue).bind
  intro _
  apply gives_ite
  · -- the selects of a choice value are not looked at
    intro hval
    apply gives_pure
    intro cs hinv hcs
    refine ⟨hcs, ?_⟩
    rw [hinv.rev s hval, revValue, if_pos hval]
  · intro hval
    refine Gives.bind
      (gives_of_inner (calcCondition_gives stable_valid (E := v.curr) Seen.stable _ ?_)) ?_
    · intro t ht
      exact reads_below hvalue (hord.dirDep s t ht)
    intro dir
    apply Gives.bind (q := fun _ cs => Seen st v s old cs)
    · apply gives_modify
      rintro cs hinv ⟨_, _, hcs⟩
      have hsame : ∀ t, Same st v cs (cs.setDirTri s (if dir = .mod then .yes else dir)) t :=
        fun _ => ⟨id, rfl, rfl, .inl rfl, rfl, fun _ => rfl⟩
      have hstep := hinv.of_same (fun t => t = s) hsame (fun _ h => h) rfl rfl
      exact ⟨hstep.1, hstep.2, ⟨hcs.starting.valid, hcs.starting.write, hcs.starting.modules⟩,
        hcs.visible, hcs.prompts⟩
    · intro _
      refine Gives.bind
        (gives_of_inner (calcRevDep_gives stable_valid (E := v.curr) Seen.stable _ ?_)) ?_
      · intro t ht
        exact reads_below hvalue (hord.revDep s t ht)
      intro rev
      apply gives_touches
      rintro cs hinv ⟨rfl, _, hcs⟩
      refine ⟨touches_setRevTri (by simpa using hval) _ cs,
        ⟨⟨hcs.starting.valid, hcs.starting.write, hcs.starting.modules⟩, hcs.visible, hcs.prompts⟩,
          ?_⟩
      rw [revValue, if_neg hval, ← symGetType_eq hinv hcs.visible]
      exact Function.update_self ..

theorem startValue_gives (newval : SymbolValue) :
    (calculating st v rank (rank s) (· = s)).Gives
      (fun cs => cs.valid s ∧ ModulesKept st v s old cs) (startValue st value s newval)
      fun _ cs => At st v s old newval none false cs := by
  apply Gives.bind (q := fun _ cs => Starting st v s old cs)
  · apply gives_touches
    rintro cs _ ⟨hvalid, hmod⟩
    split
    case isTrue hval =>
      exact ⟨Touches.refl s cs, hvalid, fun h => absurd (hval.symm.trans h) (by decide), hmod⟩
    case isFalse hval =>
      exact ⟨touches_setWrite (.inr (.inl (by simpa using hval))) cs, hvalid,
        fun _ => Function.update_self .., hmod⟩
  · intro _
    apply (symCalcVisibility_own hord hvalue).bind
    intro _
    apply gives_touches
    rintro cs _ ⟨hcs, hrev⟩
    refine ⟨touches_setCurr s newval none cs, ?_⟩
    exact
      { valid := hcs.starting.valid
        curr := Function.update_self ..
        choice := Function.update_self ..
        visible := hcs.visible
        rev := hrev
        write := hcs.starting.write
        prompts := hcs.prompts
        modules := hcs.starting.modules }

/-! ## The new value -/

/-- `sym_get_default_prop`. -/
theorem symGetDefaultProp_gives {P : CalcState → Prop} (hP : (inner st v rank (rank s)).Stable P) :
    (calculating st v rank (rank s) (· = s)).Gives P (symGetDefaultProp st value s) fun found cs =>
      found = ((activeProp st v.curr .default s).map fun prop =>
        (prop, condition st v.curr prop.visible)) ∧ P cs := by
  apply gives_of_inner
  apply firstVisible_correct stable_valid hP
  intro prop hprop t ht
  exact reads_below hvalue (hord.default s prop hprop t ht)

theorem askedValue_gives (htype : (st.sym s).type = .boolean ∨ (st.sym s).type = .tristate) :
    (calculating st v rank (rank s) (· = s)).Gives (At st v s old newval none false)
      (askedValue st value s) fun a cs =>
        a = askedTristate st v.curr s ∧
          At st v s old newval none (writeValue st v.curr s) cs := by
  have hwrite : writeValue st v.curr s = (visibleValue st v.curr s ≠ .no ||
      (revValue st v.curr s ≠ .no || !(st.sym s).choice &&
        (activeProp st v.curr .default s).isSome)) := by
    rcases htype with htype | htype <;> simp [writeValue, htype]
  apply Gives.bind (q := fun _ cs =>
    At st v s old newval none (false || visibleValue st v.curr s ≠ .no) cs)
  · apply gives_touches
    intro cs _ hcs
    exact ⟨touches_writeIf s _ cs, hcs.writeVisible⟩
  intro _
  apply gives_get
  intro cs hinv hcs
  rw [hcs.visible]
  apply gives_ite
  · intro hset
    apply gives_pure
    rintro _ _ rfl
    refine ⟨by rw [askedTristate, if_pos hset], ?_⟩
    simpa [hwrite, hset.1] using hcs
  -- the user has set nothing that counts
  intro hset
  apply Gives.bind (q := fun _ cs => At st v s old newval none
    (false || visibleValue st v.curr s ≠ .no || revValue st v.curr s ≠ .no) cs)
  · apply gives_touches
    rintro cs _ rfl
    exact ⟨touches_writeIf s _ cs, hcs.writeRev⟩
  intro _
  apply gives_ite
  · intro hchoice
    apply gives_pure
    intro cs _ hcs
    refine ⟨by rw [askedTristate, if_neg hset, if_pos hchoice], ?_⟩
    simpa [hwrite, hchoice] using hcs
  intro hchoice
  apply (symGetDefaultProp_gives hord hvalue At.stable).bind
  intro found
  apply gives_of_fact
  rintro rfl
  cases hprop : activeProp st v.curr .default s with
  | none =>
      apply gives_pure
      intro cs _ hcs
      refine ⟨by rw [askedTristate, if_neg hset, if_neg hchoice, hprop], ?_⟩
      simpa [hwrite, hprop] using hcs
  | some prop =>
      apply Gives.bind (q := fun _ cs => At st v s old newval none true cs)
      · apply gives_touches
        intro cs _ hcs
        exact ⟨touches_setWrite (.inl rfl) cs, hcs.setWrite true⟩
      intro _
      refine Gives.bind
        (gives_of_inner (calcCondition_gives stable_valid (E := v.curr) At.stable _ ?_)) ?_
      · intro t ht
        exact reads_below hvalue
          (hord.value s (by simpa using hchoice) prop (activeProp_mem hprop) t ht)
      intro tri
      apply gives_pure
      rintro cs _ ⟨rfl, _, hcs⟩
      refine ⟨by rw [askedTristate, if_neg hset, if_neg hchoice, hprop], ?_⟩
      have hvalue : (st.sym s).choice = false := by simpa using hchoice
      simpa [hwrite, hprop, hvalue] using hcs

theorem newText_gives
    (hnumber : (st.sym s).type = .int ∨ (st.sym s).type = .hex ∨ (st.sym s).type = .string)
    (hchoice : (st.sym s).choice = false) :
    (calculating st v rank (rank s) (· = s)).Gives (At st v s old newval none false)
      (newText st value s) fun a cs =>
        a = askedText st v.curr s ∧ At st v s old newval none (writeValue st v.curr s) cs := by
  have hwrite : writeValue st v.curr s = (visibleValue st v.curr s ≠ .no ||
      ((activeProp st v.curr .default s).bind propGetSymbol).isSome) := by
    rcases hnumber with htype | htype | htype <;> simp [writeValue, htype]
  apply Gives.bind (q := fun _ cs =>
    At st v s old newval none (false || visibleValue st v.curr s ≠ .no) cs)
  · apply gives_touches
    intro cs _ hcs
    exact ⟨touches_writeIf s _ cs, hcs.writeVisible⟩
  intro _
  apply gives_get
  intro cs hinv hcs
  rw [hcs.visible]
  apply gives_ite
  · intro hset
    apply gives_pure
    rintro _ _ rfl
    refine ⟨by rw [askedText, if_pos hset], ?_⟩
    simpa [hwrite, hset.1] using hcs
  -- the user has set nothing that counts, so a default is looked for
  intro hset
  refine Gives.of_pre
    (p := At st v s old newval none (false || visibleValue st v.curr s ≠ .no)) ?_ ?_
  rotate_left
  · rintro _ _ rfl
    exact hcs
  apply (symGetDefaultProp_gives hord hvalue At.stable).bind
  intro found
  apply gives_of_fact
  rintro rfl
  cases hprop : activeProp st v.curr .default s with
  | none =>
      apply gives_pure
      intro cs _ hcs
      refine ⟨by rw [askedText, if_neg hset, hprop]; rfl, ?_⟩
      simpa [hwrite, hprop] using hcs
  | some prop =>
      rw [askedText, if_neg hset, hprop, Option.bind_some]
      simp only [Option.map_some]
      cases hsym : propGetSymbol prop with
      | none =>
          apply gives_pure
          intro cs _ hcs
          refine ⟨rfl, ?_⟩
          simpa [hwrite, hprop, hsym] using hcs
      | some ds =>
          have hds : rank ds < rank s :=
            hord.value s hchoice prop (activeProp_mem hprop) ds (mem_exprSyms_value hsym)
          apply Gives.bind (q := fun _ cs => At st v s old newval none true cs)
          · apply gives_touches
            intro cs _ hcs
            exact ⟨touches_setWrite (.inl rfl) cs, hcs.setWrite true⟩
          intro _
          apply Gives.bind (gives_of_inner ((reads_below hvalue hds).gives.keep At.stable))
          intro _
          apply gives_get
          rintro cs hinv ⟨hvalid, hcs⟩
          apply gives_pure
          rintro _ _ rfl
          refine ⟨by rw [(hinv.known ds hds hvalid).curr], ?_⟩
          simpa [hwrite, hprop, hsym] using hcs

omit hvalue in
/-- A choice value that is visible has its choice calculated already. -/
theorem chosenValue_gives (hch : Choices st rank)
    (hs : (st.sym s).choiceval) (hvis : visibleValue st v.curr s = .yes) :
    (calculating st v rank (rank s) (· = s)).Gives (At st v s old newval none write)
      (chosenValue st s) fun a cs =>
        a = (if (st.choiceOf s).bind v.choice = some s then .yes else .no) ∧
          At st v s old newval none write cs := by
  apply (deref_gives _ _).bind
  intro c
  apply gives_of_fact
  intro hc
  apply gives_get
  intro cs hinv hcs
  obtain ⟨prop, hprop⟩ := exists_prompt (hvis.trans_ne (by decide))
  have hmem : c ∈ exprSyms prop.visible := ((hch.choice s hs c hc).2 prop hprop).1
  have hrank : rank c < rank s := hord.prompt s prop hprop c hmem
  have hvalid : cs.valid c := hcs.prompts c (List.mem_flatMap.mpr ⟨prop, hprop, hmem⟩)
  apply gives_pure
  rintro _ _ rfl
  refine ⟨?_, hcs⟩
  rw [(hinv.known c hrank hvalid).choice, hc]
  rfl

theorem newTristate_gives (hch : Choices st rank)
    (htype : (st.sym s).type = .boolean ∨ (st.sym s).type = .tristate) :
    (calculating st v rank (rank s) (· = s)).Gives (At st v s old newval none false)
      (newTristate st value s) fun a cs =>
        a = tristateValue st v s ∧ At st v s old newval none (writeValue st v.curr s) cs := by
  apply Gives.bind (q := fun a cs => a =
    (if (st.sym s).choiceval ∧ visibleValue st v.curr s = .yes then
      if (st.choiceOf s).bind v.choice = some s then Tristate.yes else .no
    else exprOr (askedTristate st v.curr s) (revValue st v.curr s)) ∧
      At st v s old newval none (writeValue st v.curr s) cs)
  · apply gives_get
    intro cs hinv hcs
    rw [hcs.visible]
    refine Gives.of_pre (p := At st v s old newval none false) ?_ (by rintro _ _ rfl; exact hcs)
    apply gives_ite
    · intro hval
      rw [if_pos hval]
      apply (chosenValue_gives hord hch hval.1 hval.2).of_post
      rintro _ cs _ ⟨rfl, hcs⟩
      exact ⟨rfl, hcs.of_choiceval hval.1 _⟩
    · intro hval
      rw [if_neg hval]
      apply (askedValue_gives hord hvalue htype).bind
      intro tri
      apply gives_of_fact
      rintro rfl
      apply gives_get
      intro cs _ hcs
      apply gives_pure
      rintro _ _ rfl
      exact ⟨by rw [hcs.rev], hcs⟩
  · intro tri
    apply gives_of_fact
    rintro rfl
    apply gives_get
    intro cs hinv hcs
    apply gives_pure
    rintro _ _ rfl
    exact ⟨by rw [symGetType_eq hinv hcs.visible]; rfl, hcs⟩

end Calc

/-! ## sym_calc_choice -/

/-- The values while a choice is set. -/
def withChoice (v : Values) (c : SymId) : SymId → SymbolValue :=
  Function.update v.curr c ⟨['n'], .yes⟩

theorem modulesValue_withChoice (hord : Ordered st rank) (hs : (st.sym s).choice) :
    modulesValue st (withChoice v s) = modulesValue st v.curr := by
  unfold modulesValue
  cases hm : st.modulesSym with
  | none => rfl
  | some m =>
      have hne : m ≠ s := by
        rintro rfl
        exact Nat.lt_irrefl _ (hord.modules m hm m (.inr hs))
      show (withChoice v s m).tri = (v.curr m).tri
      rw [withChoice, Function.update_of_ne hne]

/-- A value of a choice that is not set is not visible. -/
theorem visibleValue_of_choice_no (hch : Choices st rank) {c : SymId} {curr : SymId → SymbolValue}
    (hs : (st.sym s).choiceval) (hc : st.choiceOf s = some c) (hno : (curr c).tri = .no) :
    visibleValue st curr s = .no := by
  have hprompts : ∀ props : List Property, (∀ prop ∈ props, prop ∈ (st.sym s).prompts) →
      promptValue st curr props = .no := by
    intro props hsub
    have hall : props.map (fun prop => condition st curr prop.visible) =
        List.replicate props.length .no := by
      rw [List.eq_replicate_iff]
      refine ⟨List.length_map .., ?_⟩
      intro tri htri
      obtain ⟨prop, hprop, rfl⟩ := List.mem_map.mp htri
      exact ((hch.choice s hs c hc).2 prop (hsub prop hprop)).2.2 curr hno
    rw [promptValue, hall]
    induction props.length with
    | zero => rfl
    | succ n ih => exact ih
  rw [visibleValue, hprompts _ fun _ h => h]
  simp [liftVisible]

theorem settled_choice (hch : Choices st rank) {c : SymId} (hc : (st.sym c).choice)
    (hset : tristateValue st v c = .yes) :
    settled st v c = (⟨['n'], if selected st v c = none then .no else .yes⟩, selected st v c) := by
  rcases hch.type c hc with htype | htype <;> simp [settled, htype, hc, hset]

/-- The values of a choice are as visible as they are while it is set: when it is not, none of
them was visible then. -/
theorem visibleValue_withChoice (hch : Choices st rank) (hv : Solves st v)
    {c : SymId} (hmem : c ∈ st.symbols) (hc : (st.sym c).choice)
    (hset : tristateValue st v c = .yes)
    {values : List SymId} (hvalues : st.values c = some values) (hs : s ∈ values) :
    visibleValue st (withChoice v c) s = visibleValue st v.curr s := by
  have hcurr := hv c hmem
  rw [settled_choice hch hc hset] at hcurr
  have hvalue := congrArg Prod.fst hcurr
  by_cases hsel : selected st v c = none
  · have hno : (v.curr c).tri = .no := by
      rw [show v.curr c = _ from hvalue, if_pos hsel]
    obtain ⟨hval, hof, _⟩ := hch.value c hc values hvalues s hs
    rw [visibleValue_of_choice_no hch hval hof hno]
    have hfirst : ((st.values c).getD []).find?
        (fun t => visibleValue st (withChoice v c) t ≠ .no) = none :=
      (Option.or_eq_none_iff.mp (Option.or_eq_none_iff.mp hsel).2).2
    rw [hvalues] at hfirst
    simpa using List.find?_eq_none.mp hfirst s hs
  · have hyes : v.curr c = ⟨['n'], .yes⟩ := by
      rw [show v.curr c = _ from hvalue, if_neg hsel]
    rw [withChoice, ← hyes, Function.update_eq_self]

/-- The visibility of some symbols is known. -/
def Shown (st : Setup) (v : Values) (l : List SymId) (cs : CalcState) : Prop :=
  ∀ t ∈ l, cs.visible t = visibleValue st v.curr t

theorem Shown.stable {r : ℕ} {l : List SymId} (hl : ∀ t ∈ l, r ≤ rank t) :
    (inner st v rank r).Stable (Shown st v l) := by
  intro cs cs' _ _ hstep h t ht
  exact (hstep.same t (hl t ht) id).visible.elim (fun hvis => hvis.trans (h t ht)) id

section Choice

variable (hord : Ordered st rank) (hch : Choices st rank)
  (hvalue : ∀ t, rank t < rank s →
    (inner st v rank (rank s)).Gives (fun _ => True) (value t) fun _ cs => cs.valid t)
  (hself : ∀ t cs, cs.valid t → value t cs = some ((), cs))

include hvalue hself in
/-- While the values of a choice are looked at, the choice itself reads as set. -/
theorem reads_withChoice {P : CalcState → Prop}
    (hP : ∀ cs, P cs → cs.valid s ∧ cs.curr s = ⟨['n'], .yes⟩) {t : SymId}
    (ht : t = s ∨ rank t < rank s) :
    Reads (inner st v rank (rank s)) value P (withChoice v s) t := by
  rcases ht with rfl | ht
  · constructor
    · intro cs hinv hcs
      rw [hself t cs (hP cs hcs).1]
      exact ⟨hinv, (inner st v rank (rank t)).refl cs, (hP cs hcs).1⟩
    · intro cs _ hcs _
      rw [withChoice, Function.update_self]
      exact (hP cs hcs).2
  · have hne : t ≠ s := by
      rintro rfl
      exact Nat.lt_irrefl _ ht
    have hbelow := reads_below (P := P) hvalue ht
    refine ⟨hbelow.gives, ?_⟩
    intro cs hinv hcs hvalid
    rw [withChoice, Function.update_of_ne hne]
    exact hbelow.reads cs hinv hcs hvalid

variable (hv : Solves st v) (hmem : s ∈ st.symbols) (hs : (st.sym s).choice)
  (hset : tristateValue st v s = .yes) {values : List SymId} (hvalues : st.values s = some values)
include hord hch hvalue hself hv hmem hs hset hvalues

theorem calcVisibilities_gives (old : SymbolValue) (write : Bool) (l done : List SymId)
    (hl : ∀ t ∈ l, t ∈ values) (hdone : ∀ t ∈ done, t ∈ values) :
    (inner st v rank (rank s)).Gives
      (fun cs => At st v s old ⟨['n'], .yes⟩ none write cs ∧ Shown st v done cs)
      (calcVisibilities st value l)
      fun _ cs => At st v s old ⟨['n'], .yes⟩ none write cs ∧ Shown st v (l ++ done) cs := by
  induction l generalizing done with
  | nil =>
      apply gives_pure
      intro cs _ hcs
      exact hcs
  | cons t rest ih =>
      have ht : t ∈ values := hl t List.mem_cons_self
      obtain ⟨hval, hof, _⟩ := hch.value s hs values hvalues t ht
      have hstable : (inner st v rank (rank s)).Stable fun cs =>
          At st v s old ⟨['n'], .yes⟩ none write cs ∧ Shown st v done cs :=
        At.stable.and (Shown.stable fun u hu =>
          Nat.le_of_lt (hch.value s hs values hvalues u (hdone u hu)).2.2)
      apply Gives.bind (q := fun _ cs =>
        At st v s old ⟨['n'], .yes⟩ none write cs ∧ Shown st v (t :: done) cs)
      · -- a choice value has no selects, so only its prompts count
        refine Gives.bind (q := fun _ cs =>
          At st v s old ⟨['n'], .yes⟩ none write cs ∧ Shown st v (t :: done) cs) ?_ fun _ => ?_
        · refine (calcPrompts_gives (E := withChoice v s) hstable ?_ ?_ ?_).of_post ?_
          · intro prop hprop u hu
            exact reads_withChoice hvalue hself (fun cs hcs => ⟨hcs.1.valid, hcs.1.curr⟩)
              (((hch.choice t hval s hof).2 prop hprop).2.1 u hu)
          · intro cs hinv _
            exact hinv.modules_of_type (.inr hs)
          · rw [← visibleValue_withChoice hch hv hmem hs hset hvalues ht,
              ← modulesValue_withChoice hord hs]
            rfl
          · rintro _ cs _ ⟨hvis, _, hcs, hshown⟩
            refine ⟨hcs, ?_⟩
            intro u hu
            rcases List.mem_cons.mp hu with rfl | hu
            · exact hvis
            · exact hshown u hu
        · rw [if_pos hval]
          exact gives_pure fun _ _ hcs => hcs
      · intro _
        apply (ih (t :: done) (fun u hu => hl u (List.mem_cons_of_mem _ hu)) ?_).of_post
        · rintro _ cs _ ⟨hcs, hshown⟩
          refine ⟨hcs, ?_⟩
          intro u hu
          apply hshown u
          simp only [List.cons_append, List.mem_cons, List.mem_append] at hu ⊢
          tauto
        · intro u hu
          rcases List.mem_cons.mp hu with rfl | hu
          · exact ht
          · exact hdone u hu

/-- What is known while a choice selects one of its values. -/
abbrev Picking (st : Setup) (v : Values) (s : SymId) (old : SymbolValue) (write : Bool)
    (values : List SymId) (cs : CalcState) : Prop :=
  At st v s old ⟨['n'], .yes⟩ none write cs ∧ Shown st v values cs

omit hord hvalue hself in
theorem Picking.visible {cs : CalcState} (h : Picking st v s old write values cs) {t : SymId}
    (ht : t ∈ values) : cs.visible t = visibleValue st (withChoice v s) t := by
  rw [visibleValue_withChoice hch hv hmem hs hset hvalues ht]
  exact h.2 t ht

theorem visibleDefault_gives (props : List Property)
    (hprops : ∀ prop ∈ props, prop ∈ (st.sym s).properties .default) :
    (inner st v rank (rank s)).Gives (Picking st v s old write values)
      (visibleDefault st value props) fun a cs =>
        a = props.findSome? (fun prop =>
          if condition st (withChoice v s) prop.visible = .no then none
          else (propGetSymbol prop).filter fun t => visibleValue st (withChoice v s) t ≠ .no) ∧
        Picking st v s old write values cs := by
  have hstable : (inner st v rank (rank s)).Stable (Picking st v s old write values) :=
    At.stable.and (Shown.stable fun t ht => Nat.le_of_lt (hch.value s hs values hvalues t ht).2.2)
  -- the choice has the value `y` while this runs, which is why conditions are read with
  -- `withChoice`
  induction props with
  | nil =>
      apply gives_pure
      intro cs _ hcs
      exact ⟨rfl, hcs⟩
  | cons prop rest ih =>
      have hrest := ih fun p hp => hprops p (List.mem_cons_of_mem _ hp)
      have hprop := hprops prop List.mem_cons_self
      refine Gives.bind
        (calcCondition_gives stable_valid (E := withChoice v s) hstable prop.visible ?_) ?_
      · intro t ht
        exact reads_withChoice hvalue hself (fun cs hcs => ⟨hcs.1.valid, hcs.1.curr⟩)
          (.inr (hord.default s prop hprop t ht))
      intro tri
      apply gives_of_fact
      rintro rfl
      by_cases hno : condition st (withChoice v s) prop.visible = .no
      · rw [if_pos hno]
        refine (hrest.of_pre fun cs _ hcs => hcs.2).of_post ?_
        rintro a cs _ ⟨rfl, hcs⟩
        exact ⟨by rw [List.findSome?_cons, if_pos hno], hcs⟩
      · rw [if_neg hno]
        apply (deref_gives _ (propGetSymbol prop)).bind
        intro d
        apply gives_of_fact
        intro hd
        apply gives_get
        intro cs hinv hcs
        have hvis := Picking.visible hch hv hmem hs hset hvalues hcs.2
          (hch.default s hs values hvalues prop hprop d hd)
        rw [hvis]
        apply gives_ite
        · intro hshown
          apply gives_pure
          rintro _ _ rfl
          refine ⟨?_, hcs.2⟩
          rw [List.findSome?_cons, if_neg hno, hd, Option.filter_some_pos (by simpa using hshown)]
        · intro hshown
          refine (hrest.of_pre ?_).of_post ?_
          · rintro _ _ rfl
            exact hcs.2
          · rintro a cs _ ⟨rfl, hcs⟩
            refine ⟨?_, hcs⟩
            rw [List.findSome?_cons, if_neg hno, hd, Option.filter_some_neg (by simpa using hshown)]

theorem symChoiceDefault_gives :
    (inner st v rank (rank s)).Gives (Picking st v s old write values)
      (symChoiceDefault st value s) fun a cs =>
        a = ((((st.sym s).properties .default).findSome? fun prop =>
            if condition st (withChoice v s) prop.visible = .no then none
            else (propGetSymbol prop).filter fun t => visibleValue st (withChoice v s) t ≠ .no).or
          (values.find? fun t => visibleValue st (withChoice v s) t ≠ .no)) ∧
        Picking st v s old write values cs := by
  apply (visibleDefault_gives hord hch hvalue hself hv hmem hs hset hvalues _ fun _ h => h).bind
  intro found
  apply gives_of_fact
  rintro rfl
  cases ((st.sym s).properties .default).findSome? _ with
  | some d =>
      apply gives_pure
      intro cs _ hcs
      exact ⟨rfl, hcs⟩
  -- no default is visible, so the first value that is
  | none =>
      apply (deref_gives _ (st.values s)).bind
      intro l
      apply gives_of_fact
      intro hl
      obtain rfl : values = l := Option.some_inj.mp (hvalues.symm.trans hl)
      apply gives_get
      intro cs _ hcs
      apply gives_pure
      rintro _ _ rfl
      refine ⟨?_, hcs⟩
      apply List.find?_congr
      intro t ht
      rw [hcs.visible hch hv hmem hs hset hvalues ht]

theorem symCalcChoice_gives :
    (calculating st v rank (rank s) (· = s)).Gives (At st v s old ⟨['n'], .yes⟩ none write)
      (symCalcChoice st value s) fun a cs => a = selected st v s ∧
        At st v s old ⟨['n'], if selected st v s = none then .no else .yes⟩ none write cs ∧
        Shown st v values cs := by
  apply (deref_gives _ (st.values s)).bind
  intro l
  apply gives_of_fact
  intro hl
  obtain rfl : values = l := Option.some_inj.mp (hvalues.symm.trans hl)
  apply Gives.bind (q := fun _ cs => Picking st v s old write values cs)
  · refine (gives_of_inner (calcVisibilities_gives hord hch hvalue hself hv hmem hs hset hvalues old
      write values [] (fun _ h => h) fun _ h => (List.not_mem_nil h).elim)).imp ?_ ?_
    · intro cs _ hcs
      exact ⟨hcs, fun t ht => (List.not_mem_nil ht).elim⟩
    · rintro _ cs _ ⟨hcs, hshown⟩
      exact ⟨hcs, fun t ht => hshown t (List.mem_append_left _ ht)⟩
  intro _
  apply gives_get
  intro cs _ hcs
  have huser : (st.user.choice s).filter (fun t => cs.visible t ≠ .no) =
      (st.user.choice s).filter fun t => visibleValue st (withChoice v s) t ≠ .no := by
    cases hu : st.user.choice s with
    | none => rfl
    | some t => simp only [Option.filter, hcs.visible hch hv hmem hs hset hvalues
        (hch.user s hs values hvalues t hu)]
  have hsel : selected st v s = ((st.user.choice s).filter fun t =>
      visibleValue st (withChoice v s) t ≠ .no).or
        ((((st.sym s).properties .default).findSome? fun prop =>
          if condition st (withChoice v s) prop.visible = .no then none
          else (propGetSymbol prop).filter fun t => visibleValue st (withChoice v s) t ≠ .no).or
          (values.find? fun t => visibleValue st (withChoice v s) t ≠ .no)) := by
    rw [selected, selection, hvalues]
    rfl
  rw [huser]
  cases hfirst : (st.user.choice s).filter fun t => visibleValue st (withChoice v s) t ≠ .no with
  | some t =>
      have hsome : selected st v s = some t := by
        rw [hsel, hfirst]
        rfl
      rw [hsome]
      apply gives_pure
      rintro _ _ rfl
      exact ⟨rfl, hcs⟩
  | none =>
      rw [hfirst, Option.none_or] at hsel
      refine Gives.of_pre (p := Picking st v s old write values) ?_ (by rintro _ _ rfl; exact hcs)
      apply (gives_of_inner
        (symChoiceDefault_gives hord hch hvalue hself hv hmem hs hset hvalues)).bind
      intro defSym
      apply gives_of_fact
      intro hdef
      obtain rfl : selected st v s = defSym := hsel.trans hdef.symm
      -- no choice? reset tristate value
      apply Gives.bind (q := fun _ cs =>
        At st v s old ⟨['n'], if selected st v s = none then .no else .yes⟩ none write cs ∧
          Shown st v values cs)
      · apply gives_touches
        intro cs _ hcs
        split
        case isTrue =>
          refine ⟨touches_setCurr s _ _ cs, ?_, hcs.2⟩
          rw [hcs.1.curr, hcs.1.choice]
          exact hcs.1.setCurr _ _
        case isFalse => exact ⟨Touches.refl s cs, hcs⟩
      · intro _
        apply gives_pure
        intro cs _ hcs
        exact ⟨rfl, hcs⟩

end Choice

end Own

end Pbs.Kconfig
