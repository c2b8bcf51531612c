import Pbs.Kconfig.SymCalc

/-!
# What the values of symbols are

`Solves` states the value of every symbol in terms of the values of others, with no flags and no
order: the visibility of the prompts, what the user has set within it, the first default that is
visible, the selects, the selected value of a choice, and the range of a number. Where
the symbols depend on each other in an order (`Ordered`), `sym_calc_value` finds these values,
whatever has been calculated before and whatever was left from earlier (`calcAll_solves`).
-/

namespace Pbs.Kconfig

open StateSpec StateSpec.Regime

/-! ## Values -/

/-- Values of the symbols, and what is selected in the choices. -/
structure Values where
  curr : SymId → SymbolValue
  choice : SymId → Option SymId

section Equations

variable (st : Setup) (curr : SymId → SymbolValue)

/-- The value of `modules_sym`. -/
def modulesValue : Tristate :=
  match st.modulesSym with
  | none => .no
  | some modules => (curr modules).tri

/-- The value of a condition. -/
def condition (e : Option Expr) : Tristate := exprCalcValue (st.conf curr) e

/-- The prompts of a symbol together. -/
def promptValue (props : List Property) : Tristate :=
  (props.map fun prop => condition st curr prop.visible).foldl exprOr .no

/-- How far a symbol may be set by the user. -/
def visibleValue (s : SymId) : Tristate :=
  liftVisible (st.sym s) (modulesValue st curr) (promptValue st curr (st.sym s).prompts)

/-- The type that counts for the value of a symbol. -/
def typeValue (s : SymId) : SymbolType :=
  symGetType (st.sym s) (visibleValue st curr s) (modulesValue st curr)

/-- The value of `rev_dep`, where a missing expression is `n`. -/
def demanded : Option Expr → Tristate
  | none => .no
  | some e => condition st curr (some e)

/-- The value that selects demand. Choice values cannot be selected. -/
def revValue (s : SymId) : Tristate :=
  if (st.sym s).choiceval then .no
  else liftMod (typeValue st curr s) (demanded st curr (st.sym s).revDep)

/-- The first property that is visible. -/
def activeProp (type : PropType) (s : SymId) : Option Property :=
  ((st.sym s).properties type).find? fun prop => condition st curr prop.visible ≠ .no

/-- What the user set, or the default. -/
def askedTristate (s : SymId) : Tristate :=
  if visibleValue st curr s ≠ .no ∧ st.user.has s then
    exprAnd (st.user.tri s) (visibleValue st curr s)
  else if (st.sym s).choice then .no
  else match activeProp st curr .default s with
    | none => .no
    | some prop => exprAnd (condition st curr prop.value) (condition st curr prop.visible)

/-- The same for a number or a string. -/
def askedText (s : SymId) : Text :=
  if visibleValue st curr s ≠ .no ∧ st.user.has s then st.user.val s
  else match (activeProp st curr .default s).bind propGetSymbol with
    | none => []
    | some ds => (curr ds).val

/-- The bound of a range that a text is read as in `sym_validate_range`. -/
def boundValue (base : ℕ) (s : SymId) : ℤ :=
  readNumber ((numberBase (st.sym s).type).getD base) (curr s)

/-- A number outside its range becomes the bound that it misses. -/
def rangedText (s : SymId) (val : Text) : Text :=
  match numberBase (st.sym s).type with
  | none => val
  | some base =>
    match (activeProp st curr .range s).bind Property.bounds with
    | none => val
    | some (left, right) =>
      let number := readNumber base ⟨val, .no⟩
      if boundValue st curr base left ≤ number then
        if number ≤ boundValue st curr base right then val
        else printNumber (st.sym s).type (boundValue st curr base right)
      else printNumber (st.sym s).type (boundValue st curr base left)

/-- The value that a choice selects among its values: what the user set, else the first default,
else the first value, always among those that are visible. -/
def selection (c : SymId) : Option SymId :=
  let shown (v : SymId) : Bool := visibleValue st curr v ≠ .no
  ((st.user.choice c).filter shown).or
    ((((st.sym c).properties .default).findSome? fun prop =>
        if condition st curr prop.visible = .no then none else (propGetSymbol prop).filter shown).or
      (((st.values c).getD []).find? shown))

end Equations

variable (st : Setup)

/-- The value of a boolean or tristate symbol, before anything is selected. -/
def tristateValue (v : Values) (s : SymId) : Tristate :=
  liftMod (typeValue st v.curr s)
    (if (st.sym s).choiceval ∧ visibleValue st v.curr s = .yes then
      if (st.choiceOf s).bind v.choice = some s then .yes else .no
    else exprOr (askedTristate st v.curr s) (revValue st v.curr s))

/-- What a choice selects, when it is set. -/
def selected (v : Values) (c : SymId) : Option SymId :=
  selection st (Function.update v.curr c ⟨['n'], .yes⟩) c

/-- The value of a symbol, and what it selects. -/
def settled (v : Values) (s : SymId) : SymbolValue × Option SymId :=
  match (st.sym s).type with
  | .int | .hex | .string => (⟨rangedText st v.curr s (askedText st v.curr s), .no⟩, none)
  | .boolean | .tristate =>
    if (st.sym s).choice ∧ tristateValue st v s = .yes then
      (⟨['n'], if selected st v s = none then .no else .yes⟩, selected st v s)
    else (⟨['n'], tristateValue st v s⟩, none)
  | .unknown | .other => (⟨(st.sym s).name.getD [], .no⟩, none)

/-- Every symbol has the value that the others give it. -/
def Solves (v : Values) : Prop :=
  ∀ s ∈ st.symbols, (v.curr s, v.choice s) = settled st v s

/-! ## The order of the symbols -/

/-- The symbols that an expression names. -/
def Expr.syms : Expr → List SymId
  | .symbol s => [s]
  | .not e => e.syms
  | .and l r => l.syms ++ r.syms
  | .or l r => l.syms ++ r.syms
  | .equal l r => [l, r]
  | .unequal l r => [l, r]

/-- The same for a pointer to an expression. -/
def exprSyms : Option Expr → List SymId
  | none => []
  | some e => e.syms

/-- A symbol depends on symbols of a smaller rank only. A default of a choice is one of its
values; it is not needed for the value of the choice. The value of `modules_sym`, a boolean
symbol, comes before everything that could ask for it. -/
structure Ordered (rank : SymId → ℕ) : Prop where
  prompt : ∀ s, ∀ prop ∈ (st.sym s).prompts, ∀ t ∈ exprSyms prop.visible, rank t < rank s
  dirDep : ∀ s, ∀ t ∈ exprSyms (st.sym s).dirDep, rank t < rank s
  revDep : ∀ s, ∀ t ∈ exprSyms (st.sym s).revDep, rank t < rank s
  default : ∀ s, ∀ prop ∈ (st.sym s).properties .default, ∀ t ∈ exprSyms prop.visible,
    rank t < rank s
  value : ∀ s, (st.sym s).choice = false → ∀ prop ∈ (st.sym s).properties .default,
    ∀ t ∈ exprSyms prop.value, rank t < rank s
  range : ∀ s, ∀ prop ∈ (st.sym s).properties .range, ∀ t ∈ exprSyms prop.visible, rank t < rank s
  bounds : ∀ s, ∀ prop ∈ (st.sym s).properties .range, ∀ b ∈ prop.bounds,
    rank b.1 < rank s ∧ rank b.2 < rank s
  modules : ∀ m ∈ st.modulesSym, ∀ s, (st.sym s).type = .tristate ∨ (st.sym s).choice →
    rank m < rank s
  boolean : ∀ m ∈ st.modulesSym, (st.sym m).type = .boolean

/-- What `menu_finalize` makes of a choice: its values know it and come after it, and each of
their prompts depends on the choice, and otherwise only on what comes before the choice. -/
structure Choices (rank : SymId → ℕ) : Prop where
  type : ∀ c, (st.sym c).choice → (st.sym c).type = .boolean ∨ (st.sym c).type = .tristate
  value : ∀ c, (st.sym c).choice → ∀ values ∈ st.values c, ∀ s ∈ values,
    (st.sym s).choiceval ∧ st.choiceOf s = some c ∧ rank c < rank s
  choice : ∀ s, (st.sym s).choiceval → ∀ c ∈ st.choiceOf s,
    (st.sym s).choice = false ∧ ∀ prop ∈ (st.sym s).prompts, c ∈ exprSyms prop.visible ∧
      (∀ t ∈ exprSyms prop.visible, t = c ∨ rank t < rank c) ∧
      ∀ curr, (curr c).tri = .no → condition st curr prop.visible = .no
  default : ∀ c, (st.sym c).choice → ∀ values ∈ st.values c,
    ∀ prop ∈ (st.sym c).properties .default, ∀ s ∈ propGetSymbol prop, s ∈ values
  user : ∀ c, (st.sym c).choice → ∀ values ∈ st.values c, ∀ s ∈ st.user.choice c, s ∈ values

/-! ## States that agree with the values -/

variable (v : Values)

/-- Symbols of these types have properties that count. -/
def Typed (s : SymId) : Prop := (st.sym s).type ≠ .unknown ∧ (st.sym s).type ≠ .other

/-- Whether a symbol is written to the configuration, as far as its value decides this. -/
def writeValue (curr : SymId → SymbolValue) (s : SymId) : Bool :=
  visibleValue st curr s ≠ .no ||
    (match (st.sym s).type with
      | .boolean | .tristate =>
          revValue st curr s ≠ .no || !(st.sym s).choice && (activeProp st curr .default s).isSome
      | _ => ((activeProp st curr .default s).bind propGetSymbol).isSome)

/-- The fields of a symbol are those that belong to the values. The flag `SYMBOL_WRITE` of a choice
value is never cleared, so nothing can be said about it. -/
structure Agrees (cs : CalcState) (s : SymId) : Prop where
  curr : cs.curr s = v.curr s
  choice : cs.choice s = v.choice s
  visible : Typed st s → cs.visible s = visibleValue st v.curr s
  rev : Typed st s → cs.revTri s = revValue st v.curr s
  write : Typed st s → (st.sym s).choiceval = false →
    cs.write s = (!st.auto s && writeValue st v.curr s)

/-- The fields of a symbol have not been changed. Only its visibility may have been found. -/
structure Same (cs cs' : CalcState) (s : SymId) : Prop where
  valid : cs'.valid s → cs.valid s
  curr : cs'.curr s = cs.curr s
  choice : cs'.choice s = cs.choice s
  visible : cs'.visible s = cs.visible s ∨ cs'.visible s = visibleValue st v.curr s
  rev : cs'.revTri s = cs.revTri s
  write : (st.sym s).choiceval = false → cs'.write s = cs.write s

theorem Same.refl (cs : CalcState) (s : SymId) : Same st v cs cs s :=
  ⟨id, rfl, rfl, .inl rfl, rfl, fun _ => rfl⟩

variable {st v} in
theorem Same.trans {cs cs' cs'' : CalcState} {s : SymId} (h : Same st v cs cs' s)
    (h' : Same st v cs' cs'' s) : Same st v cs cs'' s where
  valid hs := h.valid (h'.valid hs)
  curr := h'.curr.trans h.curr
  choice := h'.choice.trans h.choice
  visible := by
    rcases h'.visible with hvis | hvis
    · rw [hvis]
      exact h.visible
    · exact .inr hvis
  rev := h'.rev.trans h.rev
  write hs := (h'.write hs).trans (h.write hs)

variable {st v} in
theorem Agrees.same {cs cs' : CalcState} {s : SymId} (h : Agrees st v cs s)
    (hsame : Same st v cs cs' s) : Agrees st v cs' s where
  curr := hsame.curr.trans h.curr
  choice := hsame.choice.trans h.choice
  visible hs := hsame.visible.elim (fun hvis => hvis.trans (h.visible hs)) id
  rev hs := hsame.rev.trans (h.rev hs)
  write hs hval := (hsame.write hval).trans (h.write hs hval)

/-- The symbols in the prompts. -/
def promptSyms (sym : Symbol) : List SymId := sym.prompts.flatMap fun prop => exprSyms prop.visible

/-- All symbols of a list have their values. -/
def Valid (l : List SymId) (cs : CalcState) : Prop := ∀ s ∈ l, cs.valid s

/-- No choice value loses `SYMBOL_WRITE`. -/
def KeepsWrite (cs cs' : CalcState) : Prop :=
  ∀ d, (st.sym d).choiceval → st.auto d = false → cs.write d → cs'.write d

/-- What the calculation of a symbol leaves in the flags of others: what its prompts depend on
is calculated, and where it is a choice and has selected a value, all its values that are visible
have `SYMBOL_WRITE`. -/
structure Flagged (cs : CalcState) (s : SymId) : Prop where
  prompts : s ∈ st.symbols → Typed st s → Valid (promptSyms (st.sym s)) cs
  values : s ∈ st.symbols → (st.sym s).choiceval = false → v.choice s ≠ none →
    ∀ values ∈ st.values s, ∀ d ∈ values, (st.sym d).choiceval → st.auto d = false →
      visibleValue st v.curr d ≠ .no → cs.write d

variable {st v} in
theorem Flagged.keeps {cs cs' : CalcState} {s : SymId} (h : Flagged st v cs s)
    (hvalid : ∀ t, cs.valid t → cs'.valid t) (hwrite : KeepsWrite st cs cs') :
    Flagged st v cs' s where
  prompts hs htype t ht := hvalid t (h.prompts hs htype t ht)
  values hs hnot hchosen values hvalues d hd hval hauto hvis :=
    hwrite d hval hauto (h.values hs hnot hchosen values hvalues d hd hval hauto hvis)

/-- What holds while a symbol of rank `r` is calculated. As long as `modules_val` is not right,
neither `modules_sym` itself nor a symbol that could ask for it has a smaller rank. -/
structure Below (rank : SymId → ℕ) (r : ℕ) (cs : CalcState) : Prop where
  known : ∀ s, rank s < r → cs.valid s → Agrees st v cs s
  modules : cs.modulesVal = modulesValue st v.curr ∨
    (∀ s, (st.sym s).type = .tristate ∨ (st.sym s).choice → r < rank s) ∧
      ∀ m ∈ st.modulesSym, r ≤ rank m
  rev : ∀ s, (st.sym s).choiceval → cs.revTri s = .no
  cover : ∀ s, s ∉ st.symbols → cs.valid s
  flags : ∀ s, rank s < r → cs.valid s → Flagged st v cs s

/-- What may change meanwhile: symbols of a smaller rank get their values, and so do those
that are `free`. -/
structure Changes (rank : SymId → ℕ) (r : ℕ) (free : SymId → Prop) (cs cs' : CalcState) : Prop where
  valid : ∀ s, cs.valid s → cs'.valid s
  modules : cs'.modulesVal = cs.modulesVal ∨ cs'.modulesVal = modulesValue st v.curr
  same : ∀ s, r ≤ rank s → ¬ free s → Same st v cs cs' s
  write : KeepsWrite st cs cs'

/-- Calculating symbols of a rank below `r`. -/
def calculating (rank : SymId → ℕ) (r : ℕ) (free : SymId → Prop) : Regime CalcState where
  inv := Below st v rank r
  step := Changes st v rank r free
  stuck := True
  refl cs := ⟨fun _ h => h, .inl rfl, fun s _ _ => Same.refl st v cs s, fun _ _ _ h => h⟩
  trans h h' :=
    { valid := fun s hs => h'.valid s (h.valid s hs)
      modules := h'.modules.elim (fun hmod => hmod ▸ h.modules) .inr
      same := fun s hr hs => (h.same s hr hs).trans (h'.same s hr hs)
      write := fun d hval hauto hd => h'.write d hval hauto (h.write d hval hauto hd) }

section Correct

variable {st v} {rank : SymId → ℕ} {r : ℕ} {free : SymId → Prop} {value : SymId → CalcM Unit}

/-- The smaller regime, in which no symbol is free. -/
abbrev inner (st : Setup) (v : Values) (rank : SymId → ℕ) (r : ℕ) : Regime CalcState :=
  calculating st v rank r fun _ => False

theorem gives_of_inner {α : Type} {pre : CalcState → Prop} {x : CalcM α}
    {post : α → CalcState → Prop} (h : (inner st v rank r).Gives pre x post) :
    (calculating st v rank r free).Gives pre x post := by
  intro cs hinv hcs
  have hrun := h cs hinv hcs
  revert hrun
  cases x cs with
  | none => exact id
  | some p =>
      intro hrun
      exact ⟨hrun.1, ⟨hrun.2.1.valid, hrun.2.1.modules, fun s hr _ => hrun.2.1.same s hr id,
        hrun.2.1.write⟩, hrun.2.2⟩

theorem stable_valid (l : List SymId) : (calculating st v rank r free).Stable (Valid l) :=
  fun _ _ _ _ hstep h s hs => hstep.valid s (h s hs)

theorem Valid.append {l l' : List SymId} {cs : CalcState} (h : Valid l cs) (h' : Valid l' cs) :
    Valid (l ++ l') cs := by
  intro s hs
  rcases List.mem_append.mp hs with hs | hs
  · exact h s hs
  · exact h' s hs

/-! ## Expressions -/

/-- In the states with `P`, a symbol has the value `E` once it is calculated. -/
structure Reads (R : Regime CalcState) (value : SymId → CalcM Unit) (P : CalcState → Prop)
    (E : SymId → SymbolValue) (t : SymId) : Prop where
  gives : R.Gives P (value t) fun _ cs => cs.valid t
  reads : ∀ cs, R.inv cs → P cs → cs.valid t → cs.curr t = E t

variable {P : CalcState → Prop} {E : SymId → SymbolValue} {R : Regime CalcState}

/-- The result of an expression, and what is left behind. -/
def Found (P : CalcState → Prop) (result : Tristate) (l : List SymId) (a : Tristate)
    (cs : CalcState) : Prop :=
  a = result ∧ Valid l cs ∧ P cs

theorem symGetStringValue_congr {curr curr' : SymId → SymbolValue} {s : SymId}
    (h : curr s = curr' s) :
    symGetStringValue (st.conf curr) s = symGetStringValue (st.conf curr') s := by
  unfold symGetStringValue
  simp only [Setup.conf, h]

section Run

variable (hR : ∀ l, R.Stable (Valid l))
include hR

/-- Two expressions after each other. -/
theorem Found.two {x y : CalcM Tristate} {a b : Tristate} {l l' : List SymId}
    (hx : R.Gives P x (Found P a l)) (hy : R.Gives P y (Found P b l'))
    (f : Tristate → Tristate → Tristate) :
    R.Gives P (do let val1 ← x; let val2 ← y; return f val1 val2)
      (Found P (f a b) (l ++ l')) := by
  apply hx.bind
  intro val1
  apply Gives.bind (q := fun val2 cs => Found P b l' val2 cs ∧ val1 = a ∧ Valid l cs)
  · intro cs hinv hcs
    obtain ⟨rfl, hl, hP⟩ := hcs
    exact ((hy.and_stable (hR l)).of_post fun val2 cs _ h => ⟨h.1, rfl, h.2⟩) cs hinv ⟨hP, hl⟩
  · intro val2
    apply gives_pure
    rintro cs _ ⟨⟨rfl, hl', hP⟩, rfl, hl⟩
    exact ⟨rfl, hl.append hl', hP⟩

/-- Two symbols after each other, for a comparison. -/
theorem Found.compare {left right : SymId} (hP : R.Stable P)
    (hl : Reads R value P E left) (hr : Reads R value P E right)
    (f : Text → Text → Tristate) :
    R.Gives P
      (do
        value left
        value right
        let cf := st.conf (← get).curr
        return f (symGetStringValue cf left) (symGetStringValue cf right))
      (Found P (f (symGetStringValue (st.conf E) left) (symGetStringValue (st.conf E) right))
        [left, right]) := by
  apply (hl.gives.keep hP).bind
  intro _
  apply Gives.bind (q := fun _ cs => Valid [left, right] cs ∧ P cs)
  · apply ((hr.gives.keep hP).and_stable (hR [left])).imp
    · rintro cs _ ⟨hvalid, hcs⟩
      exact ⟨hcs, fun s hs => List.mem_singleton.mp hs ▸ hvalid⟩
    · rintro _ cs _ ⟨⟨hvalid, hcs⟩, hleft⟩
      exact ⟨hleft.append fun s hs => List.mem_singleton.mp hs ▸ hvalid, hcs⟩
  · intro _
    apply gives_get
    rintro cs hinv ⟨hvalid, hcs⟩
    apply gives_pure
    rintro _ _ rfl
    refine ⟨?_, hvalid, hcs⟩
    rw [symGetStringValue_congr (hl.reads _ hinv hcs (hvalid left (by simp))),
      symGetStringValue_congr (hr.reads _ hinv hcs (hvalid right (by simp)))]

theorem calcExpr_gives (hP : R.Stable P) (e : Expr)
    (h : ∀ t ∈ e.syms, Reads R value P E t) :
    R.Gives P (calcExpr st value e) (Found P (condition st E (some e)) e.syms) := by
  induction e with
  | symbol s =>
      have hs := h s (List.mem_singleton.mpr rfl)
      apply (hs.gives.keep hP).bind
      intro _
      apply gives_get
      rintro cs hinv ⟨hvalid, hcs⟩
      apply gives_pure
      rintro _ _ rfl
      refine ⟨?_, fun t ht => List.mem_singleton.mp ht ▸ hvalid, hcs⟩
      rw [hs.reads _ hinv hcs hvalid]
      rfl
  | not e ih =>
      apply (ih h).bind
      intro val1
      apply gives_pure
      rintro cs _ ⟨rfl, hvalid, hcs⟩
      exact ⟨rfl, hvalid, hcs⟩
  | and l r ihl ihr =>
      exact Found.two hR (ihl fun t ht => h t (List.mem_append_left _ ht))
        (ihr fun t ht => h t (List.mem_append_right _ ht)) exprAnd
  | or l r ihl ihr =>
      exact Found.two hR (ihl fun t ht => h t (List.mem_append_left _ ht))
        (ihr fun t ht => h t (List.mem_append_right _ ht)) exprOr
  | equal l r =>
      exact Found.compare hR hP (h l (by simp [Expr.syms])) (h r (by simp [Expr.syms]))
        fun str1 str2 => if str1 = str2 then .yes else .no
  | unequal l r =>
      exact Found.compare hR hP (h l (by simp [Expr.syms])) (h r (by simp [Expr.syms]))
        fun str1 str2 => if str1 = str2 then .no else .yes

theorem calcCondition_gives (hP : R.Stable P) (e : Option Expr)
    (h : ∀ t ∈ exprSyms e, Reads R value P E t) :
    R.Gives P (calcCondition st value e) (Found P (condition st E e) (exprSyms e)) := by
  cases e with
  | none =>
      apply gives_pure
      intro cs _ hcs
      exact ⟨rfl, fun t ht => (List.not_mem_nil ht).elim, hcs⟩
  | some e => exact calcExpr_gives hR hP e h

theorem calcRevDep_gives (hP : R.Stable P) (e : Option Expr)
    (h : ∀ t ∈ exprSyms e, Reads R value P E t) :
    R.Gives P (calcRevDep st value e)
      (Found P (demanded st E e) (exprSyms e)) := by
  cases e with
  | none =>
      apply gives_pure
      intro cs _ hcs
      exact ⟨rfl, fun t ht => (List.not_mem_nil ht).elim, hcs⟩
  | some e => exact calcExpr_gives hR hP e h

/-! ## Properties -/

theorem anyPrompt_gives (hP : R.Stable P) (props : List Property) (tri : Tristate)
    (h : ∀ prop ∈ props, ∀ t ∈ exprSyms prop.visible, Reads R value P E t) :
    R.Gives P (anyPrompt st value props tri)
      (Found P ((props.map fun prop => condition st E prop.visible).foldl exprOr tri)
        (props.flatMap fun prop => exprSyms prop.visible)) := by
  induction props generalizing tri with
  | nil =>
      apply gives_pure
      intro cs _ hcs
      exact ⟨rfl, fun t ht => (List.not_mem_nil ht).elim, hcs⟩
  | cons prop rest ih =>
      apply (calcCondition_gives hR hP prop.visible (h prop List.mem_cons_self)).bind
      intro visible
      rintro cs hinv ⟨rfl, hvalid, hcs⟩
      have hrest := ih (exprOr tri (condition st E prop.visible)) fun prop hprop =>
        h prop (List.mem_cons_of_mem _ hprop)
      refine ((hrest.and_stable (hR (exprSyms prop.visible))).of_post ?_) cs hinv ⟨hcs, hvalid⟩
      rintro a cs _ ⟨⟨rfl, hvalid', hcs⟩, hvalid⟩
      exact ⟨rfl, hvalid.append hvalid', hcs⟩

theorem firstVisible_correct (hP : R.Stable P) (props : List Property)
    (h : ∀ prop ∈ props, ∀ t ∈ exprSyms prop.visible, Reads R value P E t) :
    R.Gives P (firstVisible st value props) fun found cs =>
      found = ((props.find? fun prop => condition st E prop.visible ≠ .no).map fun prop =>
        (prop, condition st E prop.visible)) ∧ P cs := by
  induction props with
  | nil =>
      apply gives_pure
      intro cs _ hcs
      exact ⟨rfl, hcs⟩
  | cons prop rest ih =>
      apply (calcCondition_gives hR hP prop.visible (h prop List.mem_cons_self)).bind
      intro tri
      rintro cs hinv ⟨rfl, _, hcs⟩
      by_cases hno : condition st E prop.visible = .no
      · rw [if_neg (not_not_intro hno), List.find?_cons_of_neg (by simpa using hno)]
        exact ih (fun prop hprop => h prop (List.mem_cons_of_mem _ hprop)) cs hinv hcs
      · rw [if_pos hno, List.find?_cons_of_pos (by simpa using hno)]
        exact ⟨hinv, R.refl cs, rfl, hcs⟩

omit hR in
/-- A bound, when its symbol has a value. -/
theorem rangeVal_gives (hP : R.Stable P) {t : SymId} (h : Reads R value P E t) (base : ℕ) :
    R.Gives P (symGetRangeVal st value t base) fun a cs => a = boundValue st E base t ∧ P cs := by
  apply (h.gives.keep hP).bind
  intro _
  apply gives_get
  rintro cs hinv ⟨hvalid, hcs⟩
  apply gives_pure
  rintro _ _ rfl
  refine ⟨?_, hcs⟩
  rw [h.reads _ hinv hcs hvalid]
  rfl

end Run

/-! ## Changes of a state -/

/-- A change that leaves every symbol the same. -/
theorem Below.of_same (free : SymId → Prop) {cs cs' : CalcState} (hinv : Below st v rank r cs)
    (hsame : ∀ s, Same st v cs cs' s) (hvalid : ∀ s, cs.valid s → cs'.valid s)
    (hmod : cs'.modulesVal = cs.modulesVal) (hwrite : cs'.write = cs.write) :
    Below st v rank r cs' ∧ Changes st v rank r free cs cs' := by
  have hkeeps : KeepsWrite st cs cs' := by
    intro d _ _ hd
    rw [hwrite]
    exact hd
  constructor
  · constructor
    · intro s hs hv
      exact (hinv.known s hs ((hsame s).valid hv)).same (hsame s)
    · rw [hmod]
      exact hinv.modules
    · intro s hs
      rw [(hsame s).rev]
      exact hinv.rev s hs
    · intro s hs
      exact hvalid s (hinv.cover s hs)
    · intro s hs hv
      exact (hinv.flags s hs ((hsame s).valid hv)).keeps hvalid hkeeps
  · exact ⟨hvalid, .inl hmod, fun s _ _ => hsame s, hkeeps⟩

theorem same_setVisible {cs : CalcState} {s : SymId} {tri : Tristate}
    (htri : tri = visibleValue st v.curr s) (t : SymId) : Same st v cs (cs.setVisible s tri) t where
  valid := id
  curr := rfl
  choice := rfl
  visible := by
    by_cases hts : t = s
    · right
      rw [hts, ← htri]
      exact Function.update_self ..
    · left
      exact Function.update_of_ne hts ..
  rev := rfl
  write _ := rfl

/-- The fields of one symbol and of no other change. -/
structure Touches (st : Setup) (v : Values) (s : SymId) (cs cs' : CalcState) : Prop where
  valid : ∀ t, cs.valid t → cs'.valid t
  modules : cs'.modulesVal = cs.modulesVal ∨ cs'.modulesVal = modulesValue st v.curr
  rev : (st.sym s).choiceval → cs'.revTri s = cs.revTri s
  same : ∀ t, t ≠ s → Same st v cs cs' t
  write : KeepsWrite st cs cs'

/-- The symbol that is calculated may change. -/
theorem Below.of_touches {s : SymId} {cs cs' : CalcState} (hinv : Below st v rank (rank s) cs)
    (h : Touches st v s cs cs') :
    Below st v rank (rank s) cs' ∧ Changes st v rank (rank s) (· = s) cs cs' := by
  constructor
  · constructor
    · intro t ht hv
      have hts : t ≠ s := by
        rintro rfl
        exact Nat.lt_irrefl _ ht
      exact (hinv.known t ht ((h.same t hts).valid hv)).same (h.same t hts)
    · rcases h.modules with hmod | hmod
      · rw [hmod]
        exact hinv.modules
      · exact .inl hmod
    · intro t ht
      by_cases hts : t = s
      · subst hts
        rw [h.rev ht]
        exact hinv.rev t ht
      · rw [(h.same t hts).rev]
        exact hinv.rev t ht
    · intro t ht
      exact h.valid t (hinv.cover t ht)
    · intro t ht hv
      have hts : t ≠ s := by
        rintro rfl
        exact Nat.lt_irrefl _ ht
      exact (hinv.flags t ht ((h.same t hts).valid hv)).keeps h.valid h.write
  · exact ⟨h.valid, h.modules, fun t _ hts => h.same t hts, h.write⟩

theorem touches_setCurr (s : SymId) (newval : SymbolValue) (chosen : Option SymId)
    (cs : CalcState) :
    Touches st v s cs (cs.setCurr s newval chosen) where
  valid _ h := h
  modules := .inl rfl
  rev _ := rfl
  same _ ht :=
    { valid := id
      curr := Function.update_of_ne ht ..
      choice := Function.update_of_ne ht ..
      visible := .inl rfl
      rev := rfl
      write := fun _ => rfl }
  write _ _ _ h := h

/-- `SYMBOL_WRITE` of a choice value is set, but not cleared. -/
theorem touches_setWrite {s : SymId} {flag : Bool}
    (hs : flag = true ∨ (st.sym s).choiceval = false ∨ st.auto s = true) (cs : CalcState) :
    Touches st v s cs (cs.setWrite s flag) where
  valid _ h := h
  modules := .inl rfl
  rev _ := rfl
  same _ ht :=
    { valid := id
      curr := rfl
      choice := rfl
      visible := .inl rfl
      rev := rfl
      write := fun _ => Function.update_of_ne ht .. }
  write d hval hauto hd := by
    show Function.update cs.write s flag d = true
    by_cases hds : d = s
    · subst hds
      rw [Function.update_self]
      simpa [hval, hauto] using hs
    · rw [Function.update_of_ne hds]
      exact hd

theorem touches_setRevTri {s : SymId} (hs : (st.sym s).choiceval = false) (tri : Tristate)
    (cs : CalcState) : Touches st v s cs (cs.setRevTri s tri) where
  valid _ h := h
  modules := .inl rfl
  rev h := by
    rw [hs] at h
    cases h
  same _ ht :=
    { valid := id
      curr := rfl
      choice := rfl
      visible := .inl rfl
      rev := Function.update_of_ne ht ..
      write := fun _ => rfl }
  write _ _ _ h := h

theorem Touches.refl (s : SymId) (cs : CalcState) : Touches st v s cs cs where
  valid _ h := h
  modules := .inl rfl
  rev _ := rfl
  same t _ := Same.refl st v cs t
  write _ _ _ h := h

/-- A change of the symbol that is calculated, in a program. -/
theorem gives_touches {s : SymId} {pre : CalcState → Prop} {post : Unit → CalcState → Prop}
    {g : CalcState → CalcState}
    (h : ∀ cs, Below st v rank (rank s) cs → pre cs → Touches st v s cs (g cs) ∧ post () (g cs)) :
    (calculating st v rank (rank s) (· = s)).Gives pre (modify g) post := by
  apply gives_modify
  intro cs hinv hcs
  obtain ⟨htouch, hpost⟩ := h cs hinv hcs
  have hstep := hinv.of_touches htouch
  exact ⟨hstep.1, hstep.2, hpost⟩

/-! ## The visibility -/

theorem calcPrompts_gives {s : SymId} (hP : (inner st v rank r).Stable P)
    (hprompt : ∀ prop ∈ (st.sym s).prompts, ∀ t ∈ exprSyms prop.visible,
      Reads (inner st v rank r) value P E t)
    (hmod : ∀ cs, Below st v rank r cs → (st.sym s).type = .tristate →
      cs.modulesVal = modulesValue st v.curr)
    (hvis : liftVisible (st.sym s) (modulesValue st v.curr) (promptValue st E (st.sym s).prompts) =
      visibleValue st v.curr s) :
    (inner st v rank r).Gives P (calcPrompts st value s) fun _ cs =>
      cs.visible s = visibleValue st v.curr s ∧ Valid (promptSyms (st.sym s)) cs ∧ P cs := by
  apply (anyPrompt_gives stable_valid hP _ _ hprompt).bind
  intro tri
  apply gives_modify
  rintro cs hinv ⟨rfl, hvalid, hcs⟩
  -- the type decides whether the value of `modules_sym` counts
  have hlift : liftVisible (st.sym s) cs.modulesVal (promptValue st E (st.sym s).prompts) =
      visibleValue st v.curr s := by
    rw [← hvis]
    by_cases htype : (st.sym s).type = .tristate
    · rw [hmod cs hinv htype]
    · simp [liftVisible, htype]
  have hstep := hinv.of_same (fun _ => False) (same_setVisible hlift) (fun _ h => h) rfl rfl
  refine ⟨hstep.1, hstep.2, ?_, hvalid, hP _ _ hinv hstep.1 hstep.2 hcs⟩
  rw [← hlift]
  exact Function.update_self ..

end Correct

end Pbs.Kconfig
