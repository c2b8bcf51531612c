import Pbs.Kconfig.SymRun

/-!
# The values of symbols exist once

What a symbol gets from the others depends on symbols of a smaller rank only (`settled_congr`), so
there is one assignment of values for what the user has set (`exists_solves`, `Solves.unique`), and
what the user sets for one symbol cannot change symbols of a smaller rank.
-/

namespace Pbs.Kconfig

theorem filter_congr {α : Type} {p q : α → Bool} {o : Option α} (h : ∀ a ∈ o, p a = q a) :
    o.filter p = o.filter q := by
  cases o with
  | none => rfl
  | some a =>
      rw [Option.filter_some, Option.filter_some, h a rfl]

theorem findSome?_congr {α β : Type} {f g : α → Option β} {l : List α} (h : ∀ a ∈ l, f a = g a) :
    l.findSome? f = l.findSome? g := by
  induction l with
  | nil => rfl
  | cons a rest ih =>
      rw [List.findSome?_cons, List.findSome?_cons, h a List.mem_cons_self,
        ih fun b hb => h b (List.mem_cons_of_mem _ hb)]

/-- The same symbols, after the user has set something. -/
def Setup.withUser (st : Setup) (user : UserValues) : Setup := { st with user := user }

theorem Resolved.withUser {st : Setup} (h : Resolved st) (user : UserValues) :
    Resolved (st.withUser user) :=
  ⟨h.values, h.choiceOf, h.default, h.bounds⟩

theorem Ordered.withUser {st : Setup} {rank : SymId → ℕ} (h : Ordered st rank) (user : UserValues) :
    Ordered (st.withUser user) rank :=
  ⟨h.prompt, h.dirDep, h.revDep, h.default, h.value, h.range, h.bounds, h.modules, h.boolean⟩

section Congruence

variable {st : Setup} {rank : SymId → ℕ} {curr curr' : SymId → SymbolValue}

/-- An expression has the value that its symbols give it. -/
theorem condition_congr {e : Option Expr} (h : ∀ t ∈ exprSyms e, curr t = curr' t) :
    condition st curr e = condition st curr' e := by
  cases e with
  | none => rfl
  | some e =>
      induction e with
      | symbol s => exact congrArg SymbolValue.tri (h s (List.mem_singleton.mpr rfl))
      | not e ih => exact congrArg exprNot (ih h)
      | and l r ihl ihr =>
          exact congrArg₂ exprAnd (ihl fun t ht => h t (List.mem_append_left _ ht))
            (ihr fun t ht => h t (List.mem_append_right _ ht))
      | or l r ihl ihr =>
          exact congrArg₂ exprOr (ihl fun t ht => h t (List.mem_append_left _ ht))
            (ihr fun t ht => h t (List.mem_append_right _ ht))
      | equal l r =>
          show (if _ = _ then _ else _) = (if _ = _ then _ else _)
          rw [symGetStringValue_congr (h l (by simp [exprSyms, Expr.syms])),
            symGetStringValue_congr (h r (by simp [exprSyms, Expr.syms]))]
      | unequal l r =>
          show (if _ = _ then _ else _) = (if _ = _ then _ else _)
          rw [symGetStringValue_congr (h l (by simp [exprSyms, Expr.syms])),
            symGetStringValue_congr (h r (by simp [exprSyms, Expr.syms]))]

/-- The value of `modules_sym` is the same for a symbol that can ask for it. -/
theorem modulesValue_congr (hord : Ordered st rank) {s : SymId}
    (h : ∀ t, rank t < rank s → curr t = curr' t)
    (hs : (st.sym s).type = .tristate ∨ (st.sym s).choice) :
    modulesValue st curr = modulesValue st curr' := by
  unfold modulesValue
  cases hm : st.modulesSym with
  | none => rfl
  | some m => exact congrArg SymbolValue.tri (h m (hord.modules m hm s hs))

theorem promptValue_congr {props : List Property}
    (h : ∀ prop ∈ props, ∀ t ∈ exprSyms prop.visible, curr t = curr' t) :
    promptValue st curr props = promptValue st curr' props := by
  unfold promptValue
  congr 1
  apply List.map_congr_left
  intro prop hprop
  exact condition_congr (h prop hprop)

theorem liftVisible_congr {sym : Symbol} {modulesVal modulesVal' tri : Tristate}
    (h : sym.type = .tristate → modulesVal = modulesVal') :
    liftVisible sym modulesVal tri = liftVisible sym modulesVal' tri := by
  by_cases htype : sym.type = .tristate
  · rw [h htype]
  · simp [liftVisible, htype]

theorem symGetType_congr {sym : Symbol} {visible modulesVal modulesVal' : Tristate}
    (h : sym.type = .tristate → modulesVal = modulesVal') :
    symGetType sym visible modulesVal = symGetType sym visible modulesVal' := by
  by_cases htype : sym.type = .tristate
  · rw [h htype]
  · simp [symGetType, htype]

variable (hord : Ordered st rank) {s : SymId} (h : ∀ t, rank t < rank s → curr t = curr' t)
include hord h

theorem visibleValue_congr : visibleValue st curr s = visibleValue st curr' s := by
  unfold visibleValue
  rw [promptValue_congr fun prop hprop t ht => h t (hord.prompt s prop hprop t ht)]
  exact liftVisible_congr fun htype => modulesValue_congr hord h (.inl htype)

theorem typeValue_congr : typeValue st curr s = typeValue st curr' s := by
  unfold typeValue
  rw [visibleValue_congr hord h]
  exact symGetType_congr fun htype => modulesValue_congr hord h (.inl htype)

theorem revValue_congr : revValue st curr s = revValue st curr' s := by
  unfold revValue
  rw [typeValue_congr hord h]
  have hdem : demanded st curr (st.sym s).revDep = demanded st curr' (st.sym s).revDep := by
    have hrev := hord.revDep s
    revert hrev
    cases (st.sym s).revDep with
    | none => exact fun _ => rfl
    | some e => exact fun hrev => condition_congr fun t ht => h t (hrev t ht)
  rw [hdem]

omit hord in
theorem activeProp_congr {type : PropType}
    (hprop : ∀ prop ∈ (st.sym s).properties type, ∀ t ∈ exprSyms prop.visible, rank t < rank s) :
    activeProp st curr type s = activeProp st curr' type s := by
  apply List.find?_congr
  intro prop hmem
  rw [condition_congr fun t ht => h t (hprop prop hmem t ht)]

end Congruence

/-- The user has set the same for a symbol. -/
structure UserValues.Alike (user user' : UserValues) (s : SymId) : Prop where
  has : user'.has s = user.has s
  tri : user'.tri s = user.tri s
  val : user'.val s = user.val s
  choice : user'.choice s = user.choice s

section Settled

variable {st : Setup} {rank : SymId → ℕ} {v v' : Values} {user : UserValues} {s : SymId}
  (hord : Ordered st rank) (hch : Choices st rank) (huser : st.user.Alike user s)
  (h : ∀ t, rank t < rank s → v.curr t = v'.curr t)
include hord h

include huser in
theorem askedTristate_congr :
    askedTristate st v.curr s = askedTristate (st.withUser user) v'.curr s := by
  have hvis := visibleValue_congr hord h
  have hprop := activeProp_congr h (hord.default s)
  show (if visibleValue st v.curr s ≠ .no ∧ st.user.has s then _ else _) =
    if visibleValue st v'.curr s ≠ .no ∧ user.has s then _ else _
  rw [hvis, huser.has]
  by_cases hset : visibleValue st v'.curr s ≠ .no ∧ st.user.has s
  · rw [if_pos hset, if_pos hset]
    exact congrArg₂ exprAnd huser.tri.symm rfl
  · rw [if_neg hset, if_neg hset]
    by_cases hchoice : (st.sym s).choice = true
    · exact (if_pos hchoice).trans (if_pos hchoice).symm
    · refine (if_neg hchoice).trans (Eq.trans ?_ (if_neg hchoice).symm)
      rw [hprop]
      cases hactive : activeProp st v'.curr .default s with
      | none =>
          have hactive' : activeProp (st.withUser user) v'.curr .default s = none := hactive
          rw [hactive']
      | some prop =>
          have hactive' : activeProp (st.withUser user) v'.curr .default s = some prop := hactive
          rw [hactive']
          have hmem := activeProp_mem (v := v') hactive
          have hvalue := hord.value s (by simpa using hchoice) prop hmem
          exact congrArg₂ exprAnd (condition_congr fun t ht => h t (hvalue t ht))
            (condition_congr fun t ht => h t (hord.default s prop hmem t ht))

include huser in
theorem askedText_congr (hchoice : (st.sym s).choice = false) :
    askedText st v.curr s = askedText (st.withUser user) v'.curr s := by
  have hvis := visibleValue_congr hord h
  have hprop := activeProp_congr h (hord.default s)
  show (if visibleValue st v.curr s ≠ .no ∧ st.user.has s then _ else _) =
    if visibleValue st v'.curr s ≠ .no ∧ user.has s then _ else _
  rw [hvis, huser.has]
  by_cases hset : visibleValue st v'.curr s ≠ .no ∧ st.user.has s
  · rw [if_pos hset, if_pos hset]
    exact huser.val.symm
  · rw [if_neg hset, if_neg hset]
    rw [hprop]
    cases hds : (activeProp st v'.curr .default s).bind propGetSymbol with
    | none =>
        have hds' : (activeProp (st.withUser user) v'.curr .default s).bind propGetSymbol = none :=
          hds
        rw [hds']
    | some ds =>
        have hds' : (activeProp (st.withUser user) v'.curr .default s).bind propGetSymbol =
          some ds := hds
        rw [hds']
        obtain ⟨prop, hactive, hsym⟩ := Option.bind_eq_some_iff.mp hds
        exact congrArg SymbolValue.val
          (h ds (hord.value s hchoice prop (activeProp_mem (v := v') hactive) ds
          (mem_exprSyms_value hsym)))

theorem rangedText_congr (val : Text) :
    rangedText st v.curr s val = rangedText (st.withUser user) v'.curr s val := by
  have hprop := activeProp_congr h (hord.range s)
  unfold rangedText
  have hsym : (st.withUser user).sym s = st.sym s := rfl
  rw [hsym]
  cases numberBase (st.sym s).type with
  | none => rfl
  | some base =>
      simp only [hprop]
      cases hbounds : (activeProp st v'.curr .range s).bind Property.bounds with
      | none =>
          have hbounds' :
              (activeProp (st.withUser user) v'.curr .range s).bind Property.bounds = none :=
            hbounds
          rw [hbounds']
      | some bounds =>
          have hbounds' : (activeProp (st.withUser user) v'.curr .range s).bind Property.bounds =
            some bounds := hbounds
          rw [hbounds']
          obtain ⟨prop, hactive, hprop⟩ := Option.bind_eq_some_iff.mp hbounds
          have hrank := hord.bounds s prop (activeProp_mem (v := v') hactive) bounds hprop
          have hbound : ∀ t, rank t < rank s →
              boundValue st v.curr base t = boundValue (st.withUser user) v'.curr base t := by
            intro t ht
            unfold boundValue
            rw [h t ht]
            rfl
          simp only [hbound _ hrank.1, hbound _ hrank.2]

include hch huser in
theorem tristateValue_congr (hchoice : ∀ t, rank t < rank s → v.choice t = v'.choice t) :
    tristateValue st v s = tristateValue (st.withUser user) v' s := by
  have hvis := visibleValue_congr hord h
  have htype : typeValue st v.curr s = typeValue (st.withUser user) v'.curr s :=
    typeValue_congr hord h
  have hrev : revValue st v.curr s = revValue (st.withUser user) v'.curr s := revValue_congr hord h
  have hasked := askedTristate_congr hord huser h
  unfold tristateValue
  rw [htype, hrev, hasked]
  show liftMod _ (if (st.sym s).choiceval ∧ visibleValue st v.curr s = .yes then
      if (st.choiceOf s).bind v.choice = some s then _ else _ else _) =
    liftMod _ (if (st.sym s).choiceval ∧ visibleValue st v'.curr s = .yes then
      if (st.choiceOf s).bind v'.choice = some s then _ else _ else _)
  rw [← hvis]
  by_cases hval : (st.sym s).choiceval ∧ visibleValue st v.curr s = .yes
  · have hsame : (st.choiceOf s).bind v.choice = (st.choiceOf s).bind v'.choice := by
      cases hc : st.choiceOf s with
      | none => rfl
      | some c =>
          obtain ⟨prop, hprop⟩ := exists_prompt (hval.2.trans_ne (by decide))
          exact hchoice c (hord.prompt s prop hprop c ((hch.choice s hval.1 c hc).2 prop hprop).1)
    rw [if_pos hval, if_pos hval, hsame]
  · rw [if_neg hval, if_neg hval]

omit hord in
theorem withChoice_congr {t : SymId} (ht : t = s ∨ rank t < rank s) :
    withChoice v s t = withChoice v' s t := by
  unfold withChoice
  rcases ht with rfl | ht
  · rw [Function.update_self, Function.update_self]
  · have hne : t ≠ s := by
      rintro rfl
      exact Nat.lt_irrefl _ ht
    rw [Function.update_of_ne hne, Function.update_of_ne hne]
    exact h t ht

include hch in
/-- While a choice is set, its values are as visible as the symbols before the choice make them. -/
theorem visibleValue_withChoice_congr (hs : (st.sym s).choice) {values : List SymId}
    (hvalues : st.values s = some values) {d : SymId} (hd : d ∈ values) :
    visibleValue st (withChoice v s) d = visibleValue st (withChoice v' s) d := by
  obtain ⟨hval, hof, _⟩ := hch.value s hs values hvalues d hd
  unfold visibleValue
  rw [modulesValue_withChoice hord hs, modulesValue_withChoice hord hs,
    modulesValue_congr hord h (.inr hs)]
  rw [promptValue_congr fun prop hprop t ht =>
    withChoice_congr h (((hch.choice d hval s hof).2 prop hprop).2.1 t ht)]

include hch huser in
theorem selected_congr (hst : Resolved st) (hs : (st.sym s).choice) :
    selected st v s = selected (st.withUser user) v' s := by
  obtain ⟨values, hvalues⟩ := Option.isSome_iff_exists.mp (hst.values s hs)
  have hshown : ∀ d ∈ values, visibleValue st (withChoice v s) d =
      visibleValue (st.withUser user) (withChoice v' s) d := fun d hd =>
    visibleValue_withChoice_congr hord hch h hs hvalues hd
  have hvalues' : (st.withUser user).values s = some values := hvalues
  unfold selected selection
  rw [hvalues, hvalues', show (st.withUser user).user.choice s = st.user.choice s from huser.choice]
  apply congrArg₂ Option.or
  · apply filter_congr
    intro d hd
    exact congrArg (fun tri : Tristate => decide (tri ≠ .no))
      (hshown d (hch.user s hs values hvalues d hd))
  · apply congrArg₂ Option.or
    · apply findSome?_congr
      intro prop hprop
      have hcond : condition st (withChoice v s) prop.visible =
          condition (st.withUser user) (withChoice v' s) prop.visible :=
        condition_congr fun t ht => withChoice_congr h (.inr (hord.default s prop hprop t ht))
      have hfilter :
          ((propGetSymbol prop).filter fun d => visibleValue st (withChoice v s) d ≠ .no) =
          (propGetSymbol prop).filter fun d =>
            visibleValue (st.withUser user) (withChoice v' s) d ≠ .no := by
        apply filter_congr
        intro d hd
        rw [hshown d (hch.default s hs values hvalues prop hprop d hd)]
      exact ite_congr (congrArg (· = Tristate.no) hcond) (fun _ => rfl) fun _ => hfilter
    · apply List.find?_congr
      intro d hd
      exact congrArg (fun tri : Tristate => decide (tri ≠ .no)) (hshown d hd)

include hch huser in
/-- What a symbol gets depends on what the user set for it, and on symbols of a smaller rank. -/
theorem settled_congr (hst : Resolved st)
    (hchoice : ∀ t, rank t < rank s → v.choice t = v'.choice t) :
    settled st v s = settled (st.withUser user) v' s := by
  have htext : (st.sym s).choice = false →
      ((⟨rangedText st v.curr s (askedText st v.curr s), .no⟩, none) : SymbolValue × Option SymId) =
        (⟨rangedText (st.withUser user) v'.curr s (askedText (st.withUser user) v'.curr s), .no⟩,
          none) := by
    intro hnot
    have hranged : rangedText st v.curr s (askedText st v.curr s) =
        rangedText (st.withUser user) v'.curr s (askedText st v.curr s) := rangedText_congr hord h _
    rw [hranged, askedText_congr hord huser h hnot]
  have hnumber : (st.sym s).type ≠ .boolean → (st.sym s).type ≠ .tristate →
      (st.sym s).choice = false := by
    intro hbool htri
    by_contra hs
    exact (hch.type s (by simpa using hs)).elim hbool htri
  have htri : (if (st.sym s).choice ∧ tristateValue st v s = .yes then
        ((⟨['n'], if selected st v s = none then Tristate.no else .yes⟩, selected st v s) :
          SymbolValue × Option SymId)
      else (⟨['n'], tristateValue st v s⟩, none)) =
      if (st.sym s).choice ∧ tristateValue (st.withUser user) v' s = .yes then
        (⟨['n'], if selected (st.withUser user) v' s = none then .no else .yes⟩,
          selected (st.withUser user) v' s)
      else (⟨['n'], tristateValue (st.withUser user) v' s⟩, none) := by
    rw [tristateValue_congr hord hch huser h hchoice]
    by_cases hs : (st.sym s).choice = true
    · rw [selected_congr hord hch huser h hst hs]
    · rw [if_neg fun hc => hs hc.1, if_neg fun hc => hs hc.1]
  have hsym : (st.withUser user).sym s = st.sym s := rfl
  unfold settled
  rw [hsym]
  cases htype : (st.sym s).type with
  | int | hex | string => exact htext (hnumber (by simp [htype]) (by simp [htype]))
  | boolean | tristate => exact htri
  | unknown | other => rfl

end Settled

/-! ## Existence -/

variable {st : Setup} {rank : SymId → ℕ}

/-- The values of the symbols with a rank below a number, from those that are outside the table. -/
def solveBelow (st : Setup) (rank : SymId → ℕ) (const : SymId → SymbolValue) : ℕ → Values
  | 0 => ⟨const, fun _ => none⟩
  | n + 1 =>
      let v := solveBelow st rank const n
      { curr := fun s => if s ∈ st.symbols ∧ rank s = n then (settled st v s).1 else v.curr s
        choice := fun s => if s ∈ st.symbols ∧ rank s = n then (settled st v s).2 else v.choice s }

/-- The values of all symbols. -/
def solution (st : Setup) (rank : SymId → ℕ) (const : SymId → SymbolValue) : Values where
  curr s := (solveBelow st rank const (rank s + 1)).curr s
  choice s := (solveBelow st rank const (rank s + 1)).choice s

theorem solveBelow_succ (const : SymId → SymbolValue) {n : ℕ} {s : SymId}
    (hs : ¬ (s ∈ st.symbols ∧ rank s = n)) :
    (solveBelow st rank const (n + 1)).curr s = (solveBelow st rank const n).curr s ∧
      (solveBelow st rank const (n + 1)).choice s = (solveBelow st rank const n).choice s :=
  ⟨if_neg hs, if_neg hs⟩

/-- Later steps leave a symbol alone. -/
theorem solveBelow_eq {const : SymId → SymbolValue} {n : ℕ} {s : SymId} (hn : rank s < n) :
    (solveBelow st rank const n).curr s = (solution st rank const).curr s ∧
      (solveBelow st rank const n).choice s = (solution st rank const).choice s := by
  induction n with
  | zero => exact absurd hn (Nat.not_lt_zero _)
  | succ n ih =>
      rcases Nat.lt_or_ge (rank s) n with hlt | hge
      · have hnot : ¬ (s ∈ st.symbols ∧ rank s = n) := fun h => Nat.ne_of_lt hlt h.2
        have hsucc := solveBelow_succ const hnot
        exact ⟨hsucc.1.trans (ih hlt).1, hsucc.2.trans (ih hlt).2⟩
      · obtain rfl : rank s = n := by omega
        exact ⟨rfl, rfl⟩

theorem solution_solves (hst : Resolved st) (hord : Ordered st rank) (hch : Choices st rank)
    (const : SymId → SymbolValue) : Solves st (solution st rank const) := by
  intro s hs
  have hstep : ((solution st rank const).curr s, (solution st rank const).choice s) =
      settled st (solveBelow st rank const (rank s)) s :=
    Prod.ext (if_pos ⟨hs, rfl⟩) (if_pos ⟨hs, rfl⟩)
  rw [hstep]
  have huser : st.user.Alike st.user s := ⟨rfl, rfl, rfl, rfl⟩
  exact settled_congr hord hch huser (fun t ht => (solveBelow_eq ht).1) hst fun t ht =>
    (solveBelow_eq ht).2

theorem solution_const {const : SymId → SymbolValue} {s : SymId} (hs : s ∉ st.symbols) :
    (solution st rank const).curr s = const s ∧ (solution st rank const).choice s = none := by
  have hbelow : ∀ n, (solveBelow st rank const n).curr s = const s ∧
      (solveBelow st rank const n).choice s = none := by
    intro n
    induction n with
    | zero => exact ⟨rfl, rfl⟩
    | succ n ih =>
        have hnot : ¬ (s ∈ st.symbols ∧ rank s = n) := fun h => hs h.1
        have hsucc := solveBelow_succ const hnot
        exact ⟨hsucc.1.trans ih.1, hsucc.2.trans ih.2⟩
  exact hbelow (rank s + 1)

/-! ## Uniqueness -/

/-- Symbols outside the table have the same values. -/
def SameConstants (st : Setup) (v v' : Values) : Prop :=
  ∀ s, s ∉ st.symbols → v.curr s = v'.curr s ∧ v.choice s = v'.choice s

/-- What the user sets for symbols from a rank on does not change those below. -/
theorem Solves.congr_below {v v' : Values} {user : UserValues} (hst : Resolved st)
    (hord : Ordered st rank) (hch : Choices st rank) (hv : Solves st v)
    (hv' : Solves (st.withUser user) v') (hsame : SameConstants st v v') {r : ℕ}
    (huser : ∀ t, rank t < r → st.user.Alike user t) (s : SymId) (hs : rank s < r) :
    v.curr s = v'.curr s ∧ v.choice s = v'.choice s := by
  induction hn : rank s using Nat.strongRecOn generalizing s with
  | ind n ih =>
      subst hn
      by_cases hmem : s ∈ st.symbols
      · have hbelow : ∀ t, rank t < rank s → v.curr t = v'.curr t ∧ v.choice t = v'.choice t :=
          fun t ht => ih (rank t) ht t (Nat.lt_trans ht hs) rfl
        have hcongr := settled_congr hord hch (huser s hs) (fun t ht => (hbelow t ht).1) hst
          fun t ht => (hbelow t ht).2
        have heq : (v.curr s, v.choice s) = (v'.curr s, v'.choice s) :=
          ((hv s hmem).trans hcongr).trans (hv' s hmem).symm
        exact ⟨congrArg Prod.fst heq, congrArg Prod.snd heq⟩
      · exact hsame s hmem

theorem Solves.unique {v v' : Values} (hst : Resolved st) (hord : Ordered st rank)
    (hch : Choices st rank) (hv : Solves st v) (hv' : Solves st v')
    (hsame : SameConstants st v v') :
    v = v' := by
  have hall : ∀ s, v.curr s = v'.curr s ∧ v.choice s = v'.choice s := fun s =>
    hv.congr_below hst hord hch hv' hsame (fun _ _ => ⟨rfl, rfl, rfl, rfl⟩) s
      (Nat.lt_succ_self _)
  cases v
  cases v'
  congr
  · exact funext fun s => (hall s).1
  · exact funext fun s => (hall s).2

/-- A constant, as far as the types of symbols go. -/
def untypedSymbol : Symbol := ⟨none, .unknown, false, false, false, [], none, none⟩

/-- Behind the constants: `MODULES`, a tristate symbol that selects the last one, a choice with two
values of which the second one selects it, too, a number with a range, and a symbol that is never
written. -/
def sampleSymbols : List Symbol :=
  [untypedSymbol, untypedSymbol, untypedSymbol,
    ⟨some (text "MODULES"), .boolean, false, false, true, [⟨.prompt, none, none⟩], none, none⟩,
    ⟨some (text "FOO"), .tristate, false, false, true,
      [⟨.prompt, some (.symbol 3), none⟩, ⟨.select, none, some (.expr (.symbol 9))⟩], none, none⟩,
    ⟨none, .boolean, true, false, false,
      [⟨.prompt, none, none⟩, ⟨.choice, none, some (.list [6, 7])⟩], none, some (.symbol 1)⟩,
    ⟨some (text "ONE"), .boolean, false, true, true,
      [⟨.prompt, some (.symbol 5), none⟩, ⟨.choice, none, some (.expr (.symbol 5))⟩], none, none⟩,
    ⟨some (text "TWO"), .boolean, false, true, true,
      [⟨.prompt, some (.symbol 5), none⟩, ⟨.select, some (.symbol 5), some (.expr (.symbol 9))⟩,
        ⟨.choice, none, some (.expr (.symbol 5))⟩], none, none⟩,
    ⟨some (text "SIZE"), .int, false, false, true,
      [⟨.prompt, none, none⟩, ⟨.range, none, some (.list [10, 11])⟩], none, none⟩,
    ⟨some (text "BAR"), .boolean, false, false, true, [], none,
      some (.or (.symbol 4) (.and (.symbol 7) (.symbol 5)))⟩]

def sample : Setup where
  symbols := [3, 4, 5, 6, 7, 8, 9]
  sym s := sampleSymbols.getD s untypedSymbol
  auto s := s == 9
  modulesSym := some 3
  user :=
    { has := fun s => [3, 4, 8].contains s
      tri := fun s => if s = 4 then .mod else .yes
      val := fun _ => text "20"
      choice := fun s => if s = 5 then some 7 else none }

/-- The constants `y`, `m` and `n`, and the bounds `1` and `9`. -/
def sampleConst (s : SymId) : SymbolValue :=
  if s = 0 then ⟨['y'], .yes⟩ else if s = 1 then ⟨['m'], .mod⟩ else if s = 2 then ⟨['n'], .no⟩
  else if s = 10 then ⟨['1'], .no⟩ else if s = 11 then ⟨['9'], .no⟩ else ⟨[], .no⟩

def sampleRank (s : SymId) : ℕ := if s < 10 then s else 0

theorem sample_sym_of_ge {s : SymId} (hs : 10 ≤ s) : sample.sym s = untypedSymbol :=
  congrArg (Option.getD · _) (List.getElem?_eq_none (l := sampleSymbols) hs)

/-- What holds of the symbols of the table and of a constant holds of all. -/
theorem sample_forall {p : SymId → Symbol → Prop} (htable : ∀ s < 10, p s (sample.sym s))
    (hempty : ∀ s, p s untypedSymbol) (s : SymId) : p s (sample.sym s) := by
  rcases Nat.lt_or_ge s 10 with hs | hs
  · exact htable s hs
  · rw [sample_sym_of_ge hs]
    exact hempty s

theorem resolved_sample : Resolved sample where
  values := sample_forall (p := fun s sym => sym.choice → (sample.values s).isSome) (by decide)
    (fun _ hs => by cases hs)
  choiceOf := sample_forall (p := fun s sym => sym.choiceval → (sample.choiceOf s).isSome)
    (by decide) (fun _ hs => by cases hs)
  default := sample_forall (p := fun _ sym => sym.choice →
    ∀ prop ∈ sym.properties .default, (propGetSymbol prop).isSome) (by decide)
      (fun _ hs => by cases hs)
  bounds := sample_forall (p := fun _ sym => ∀ prop ∈ sym.properties .range, prop.bounds.isSome)
    (by decide) (fun _ _ hprop => by cases hprop)

theorem ordered_sample : Ordered sample sampleRank where
  prompt := sample_forall (p := fun s sym => ∀ prop ∈ sym.prompts, ∀ t ∈ exprSyms prop.visible,
    sampleRank t < sampleRank s) (by decide) (fun _ _ hprop => by cases hprop)
  dirDep := sample_forall (p := fun s sym => ∀ t ∈ exprSyms sym.dirDep, sampleRank t < sampleRank s)
    (by decide) (fun _ _ ht => by cases ht)
  revDep := sample_forall (p := fun s sym => ∀ t ∈ exprSyms sym.revDep, sampleRank t < sampleRank s)
    (by decide) (fun _ _ ht => by cases ht)
  default := sample_forall (p := fun s sym => ∀ prop ∈ sym.properties .default,
    ∀ t ∈ exprSyms prop.visible, sampleRank t < sampleRank s) (by decide)
      (fun _ _ hprop => by cases hprop)
  value := sample_forall (p := fun s sym => sym.choice = false → ∀ prop ∈ sym.properties .default,
    ∀ t ∈ exprSyms prop.value, sampleRank t < sampleRank s) (by decide)
      (fun _ _ _ hprop => by cases hprop)
  range := sample_forall (p := fun s sym => ∀ prop ∈ sym.properties .range,
    ∀ t ∈ exprSyms prop.visible, sampleRank t < sampleRank s) (by decide)
      (fun _ _ hprop => by cases hprop)
  bounds := sample_forall (p := fun s sym => ∀ prop ∈ sym.properties .range, ∀ b ∈ prop.bounds,
    sampleRank b.1 < sampleRank s ∧ sampleRank b.2 < sampleRank s) (by decide)
    (fun _ _ hprop => by cases hprop)
  modules := by
    rintro _ ⟨⟩
    exact sample_forall (p := fun s sym => sym.type = .tristate ∨ sym.choice →
      sampleRank 3 < sampleRank s) (by decide) (fun _ hs => by simp [untypedSymbol] at hs)
  boolean := by
    rintro _ ⟨⟩
    rfl

theorem choices_sample : Choices sample sampleRank where
  type := sample_forall (p := fun _ sym => sym.choice → sym.type = .boolean ∨ sym.type = .tristate)
    (by decide) (fun _ hs => by cases hs)
  value := sample_forall (p := fun c sym => sym.choice → ∀ values ∈ sample.values c, ∀ s ∈ values,
    (sample.sym s).choiceval ∧ sample.choiceOf s = some c ∧ sampleRank c < sampleRank s) (by decide)
    (fun _ hs => by cases hs)
  choice := by
    intro s hs c hc
    have hvalue := sample_forall (p := fun s sym => sym.choiceval → sample.choiceOf s = some 5 ∧
      sym.choice = false ∧ ∀ prop ∈ sym.prompts, prop.visible = some (.symbol 5)) (by decide)
      (fun _ hs => by cases hs) s hs
    obtain rfl : 5 = c := Option.some_inj.mp (hvalue.1.symm.trans hc)
    refine ⟨hvalue.2.1, ?_⟩
    intro prop hprop
    rw [hvalue.2.2 prop hprop]
    refine ⟨List.mem_singleton.mpr rfl, ?_, fun _ hno => hno⟩
    intro t ht
    exact .inl (List.mem_singleton.mp ht)
  default := by
    intro c hc _ _ prop hprop
    have hnone := sample_forall (p := fun _ sym => sym.choice → sym.properties .default = [])
      (by decide) (fun _ hs => by cases hs) c hc
    rw [hnone] at hprop
    cases hprop
  user := sample_forall (p := fun c sym => sym.choice → ∀ values ∈ sample.values c,
    ∀ s ∈ sample.user.choice c, s ∈ values) (by decide) (fun _ hs => by cases hs)

/-- The state before anything is calculated. -/
def sampleStart : CalcState := { CalcState.start sample with curr := sampleConst }

theorem untyped_sample {s : SymId} (hs : s ∉ sample.symbols) : (sample.sym s).type = .unknown :=
  sample_forall (p := fun s sym => s ∉ sample.symbols → sym.type = .unknown) (by decide)
    (fun _ _ => rfl) s hs

theorem idle_sampleStart {v : Values} (hv : SameConstants sample v ⟨sampleConst, fun _ => none⟩) :
    Idle sample v sampleStart where
  const s hs := by
    have huntyped : ¬ Typed sample s := fun h => h.1 (untyped_sample hs)
    refine ⟨?_, (hv s hs).1.symm, (hv s hs).2.symm, ?_, ?_, ?_⟩
    · show (!sample.symbols.contains s) = true
      simpa using hs
    all_goals exact fun h => absurd h huntyped
  modules := rfl
  rev _ _ := rfl

end Pbs.Kconfig
