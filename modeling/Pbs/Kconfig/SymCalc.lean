import Mathlib.Data.List.Count
import Mathlib.Logic.Function.Basic
import Pbs.Kconfig.SymCheck
import Pbs.Lib.CInteger
import Pbs.Lib.StateSpec

/-!
# Calculating the values of symbols

`sym_calc_value` of `symbol.c` and what it calls. The value of a symbol is kept with the
flag `SYMBOL_VALID`, and so is everything found on the way: the visibility, the bounds
from selects, and the value that a choice has selected. The flag is set before the value
is there, so a symbol that is met again while it is calculated answers with its default, and
the recursion ends on every graph of dependencies (`symCalcValue_returns`).

The flags `SYMBOL_CHANGED` and `MENU_CHANGED` and the warning about unmet dependencies are not
part of the model.
-/

namespace Pbs.Kconfig

open CNumber (strtol toInt printDecimal printHex)

deriving instance DecidableEq for SymbolValue

/-! ## State -/

/-- `def[S_DEF_USER]` of every symbol, where `has` is `SYMBOL_DEF_USER` and `choice` the value
that was set for a choice. -/
structure UserValues where
  has : SymId → Bool
  tri : SymId → Tristate
  val : SymId → Text
  choice : SymId → Option SymId

/-- What stays as it is while values are calculated. `auto` is `SYMBOL_AUTO`; the bounds of a
`P_RANGE` property are the two symbols of its list. -/
structure Setup where
  symbols : List SymId
  sym : SymId → Symbol
  auto : SymId → Bool
  modulesSym : Option SymId
  user : UserValues

/-- The fields of the symbols that `sym_calc_value` changes. `curr.val` of a choice is a
pointer to one of its values; this is `choice`. -/
structure CalcState where
  curr : SymId → SymbolValue
  choice : SymId → Option SymId
  visible : SymId → Tristate
  dirTri : SymId → Tristate
  revTri : SymId → Tristate
  valid : SymId → Bool
  write : SymId → Bool
  modulesVal : Tristate

namespace CalcState

/-- `sym->curr = newval`. -/
def setCurr (s : SymId) (value : SymbolValue) (chosen : Option SymId)
    (cs : CalcState) : CalcState :=
  { cs with curr := Function.update cs.curr s value, choice := Function.update cs.choice s chosen }

def setVisible (s : SymId) (tri : Tristate) (cs : CalcState) : CalcState :=
  { cs with visible := Function.update cs.visible s tri }

def setDirTri (s : SymId) (tri : Tristate) (cs : CalcState) : CalcState :=
  { cs with dirTri := Function.update cs.dirTri s tri }

def setRevTri (s : SymId) (tri : Tristate) (cs : CalcState) : CalcState :=
  { cs with revTri := Function.update cs.revTri s tri }

/-- `sym->flags |= SYMBOL_VALID`. -/
def setValid (s : SymId) (cs : CalcState) : CalcState :=
  { cs with valid := Function.update cs.valid s true }

/-- Set or clear `SYMBOL_WRITE`. -/
def setWrite (s : SymId) (flag : Bool) (cs : CalcState) : CalcState :=
  { cs with write := Function.update cs.write s flag }

end CalcState

/-- The symbols with some values. -/
def Setup.conf (st : Setup) (curr : SymId → SymbolValue) : Conf where
  symbols := st.symbols
  sym := st.sym
  curr := curr
  rootmenu := []

/-- Programs over the state. There is no result where the recursion is not through, or
follows a null pointer. -/
abbrev CalcM := StateT CalcState Option

/-- Follow a pointer. -/
def deref {α : Type} (p : Option α) : CalcM α := fun cs => p.map fun a => (a, cs)

/-! ## Properties -/

/-- `for_all_properties`. -/
def Symbol.properties (sym : Symbol) (type : PropType) : List Property :=
  sym.prop.filter fun prop => prop.type = type

/-- `for_all_prompts`: the properties with a text. -/
def Symbol.prompts (sym : Symbol) : List Property :=
  sym.prop.filter fun prop => prop.type matches .prompt | .menu | .comment

/-- `prop->expr`, as a condition. -/
def Property.value (prop : Property) : Option Expr :=
  match prop.expr with
  | some (.expr e) => some e
  | _ => none

/-- `prop->expr->left.sym` and `prop->expr->right.sym` of a range. -/
def Property.bounds (prop : Property) : Option (SymId × SymId) :=
  match prop.expr with
  | some (.list [left, right]) => some (left, right)
  | _ => none

/-- `prop_get_symbol(sym_get_choice_prop(sym))` of a choice value. -/
def Setup.choiceOf (st : Setup) (s : SymId) : Option SymId :=
  (symGetChoiceProp (st.sym s)).bind propGetSymbol

/-- The values of a choice. -/
def Setup.values (st : Setup) (s : SymId) : Option (List SymId) :=
  (symGetChoiceProp (st.sym s)).map choiceValues

/-- `sym_get_type`, for the visibility of the symbol and the value of the `modules` symbol. -/
def symGetType (sym : Symbol) (visible modulesVal : Tristate) : SymbolType :=
  if sym.type = .tristate then
    if sym.choiceval ∧ visible = .yes then .boolean
    else if modulesVal = .no then .boolean
    else .tristate
  else sym.type

/-- A boolean symbol is not `m`. -/
def liftMod (type : SymbolType) (tri : Tristate) : Tristate :=
  if tri = .mod ∧ type = .boolean then .yes else tri

/-! ## The functions of `symbol.c` -/

section Calc

variable (st : Setup) (value : SymId → CalcM Unit)

/-- `expr_calc_value`, over `sym_calc_value`. -/
def calcExpr : Expr → CalcM Tristate
  | .symbol s => do
      value s
      return ((← get).curr s).tri
  | .and left right => do
      let val1 ← calcExpr left
      let val2 ← calcExpr right
      return exprAnd val1 val2
  | .or left right => do
      let val1 ← calcExpr left
      let val2 ← calcExpr right
      return exprOr val1 val2
  | .not left => do
      let val1 ← calcExpr left
      return exprNot val1
  | .equal left right => do
      value left
      value right
      let cf := st.conf (← get).curr
      return if symGetStringValue cf left = symGetStringValue cf right then .yes else .no
  | .unequal left right => do
      value left
      value right
      let cf := st.conf (← get).curr
      return if symGetStringValue cf left = symGetStringValue cf right then .no else .yes

/-- The same for a pointer to an expression. -/
def calcCondition : Option Expr → CalcM Tristate
  | none => return .yes
  | some e => calcExpr st value e

/-- The first property that is visible, with its visibility. -/
def firstVisible : List Property → CalcM (Option (Property × Tristate))
  | [] => return none
  | prop :: rest => do
      let tri ← calcCondition st value prop.visible
      if tri ≠ .no then return some (prop, tri) else firstVisible rest

/-- `sym_get_default_prop`. -/
def symGetDefaultProp (s : SymId) : CalcM (Option (Property × Tristate)) :=
  firstVisible st value ((st.sym s).properties .default)

/-- `sym_get_range_prop`. -/
def symGetRangeProp (s : SymId) : CalcM (Option (Property × Tristate)) :=
  firstVisible st value ((st.sym s).properties .range)

/-- The base of the numbers of a type. -/
def numberBase : SymbolType → Option ℕ
  | .int => some 10
  | .hex => some 16
  | _ => none

/-- `strtol` on the value of a symbol. -/
def readNumber (base : ℕ) (value : SymbolValue) : ℤ := toInt (strtol base value.val)

/-- `sym_get_range_val`. -/
def symGetRangeVal (s : SymId) (base : ℕ) : CalcM ℤ := do
  value s
  return readNumber ((numberBase (st.sym s).type).getD base) ((← get).curr s)

/-- What `sym_validate_range` writes for a bound. -/
def printNumber (type : SymbolType) (number : ℤ) : Text :=
  if type = .int then printDecimal number else '0' :: 'x' :: printHex number

/-- `sym->curr.val = strdup(str)`. -/
def CalcState.setText (s : SymId) (val : Text) (cs : CalcState) : CalcState :=
  cs.setCurr s ⟨val, (cs.curr s).tri⟩ (cs.choice s)

/-- `sym_validate_range`. -/
def symValidateRange (s : SymId) : CalcM Unit :=
  match numberBase (st.sym s).type with
  | none => return
  | some base => do
      match ← symGetRangeProp st value s with
      | none => return
      | some (prop, _) => do
          let val := readNumber base ((← get).curr s)
          let bounds ← deref prop.bounds
          let low ← symGetRangeVal st value bounds.1 base
          if low ≤ val then do
            let high ← symGetRangeVal st value bounds.2 base
            if val ≤ high then return
            else modify (·.setText s (printNumber (st.sym s).type high))
          else modify (·.setText s (printNumber (st.sym s).type low))

/-- The value of `rev_dep`, where a missing expression is `n`. -/
def calcRevDep : Option Expr → CalcM Tristate
  | none => return .no
  | some e => calcExpr st value e

/-- The loop over the prompts in `sym_calc_visibility`. -/
def anyPrompt : List Property → Tristate → CalcM Tristate
  | [], tri => return tri
  | prop :: rest, tri => do
      let visible ← calcCondition st value prop.visible
      anyPrompt rest (exprOr tri visible)

/-- The visibility of a symbol, when its prompts have a value. -/
def liftVisible (sym : Symbol) (modulesVal tri : Tristate) : Tristate :=
  if tri = .mod ∧ (sym.type ≠ .tristate ∨ modulesVal = .no) then .yes else tri

/-- `sym_calc_visibility` for the prompts. -/
def calcPrompts (s : SymId) : CalcM Unit := do
  let tri ← anyPrompt st value (st.sym s).prompts .no
  modify fun cs => cs.setVisible s (liftVisible (st.sym s) cs.modulesVal tri)

/-- `sym_calc_visibility`. -/
def symCalcVisibility (s : SymId) : CalcM Unit := do
  calcPrompts st value s
  if (st.sym s).choiceval then return
  else do
    let dir ← calcCondition st value (st.sym s).dirDep
    modify (·.setDirTri s (if dir = .mod then .yes else dir))
    let rev ← calcRevDep st value (st.sym s).revDep
    modify fun cs =>
      cs.setRevTri s (liftMod (symGetType (st.sym s) (cs.visible s) cs.modulesVal) rev)

/-- The loop over the defaults in `sym_choice_default`. -/
def visibleDefault : List Property → CalcM (Option SymId)
  | [] => return none
  | prop :: rest => do
      let tri ← calcCondition st value prop.visible
      if tri = .no then visibleDefault rest
      else do
        let defSym ← deref (propGetSymbol prop)
        if (← get).visible defSym ≠ .no then return some defSym
        else visibleDefault rest

/-- `sym_choice_default`. -/
def symChoiceDefault (s : SymId) : CalcM (Option SymId) := do
  match ← visibleDefault st value ((st.sym s).properties .default) with
  | some defSym => return some defSym
  | none => do
      let values ← deref (st.values s)
      let cs ← get
      return values.find? fun defSym => cs.visible defSym ≠ .no

/-- The first loop of `sym_calc_choice`. -/
def calcVisibilities : List SymId → CalcM Unit
  | [] => return
  | s :: rest => do
      symCalcVisibility st value s
      calcVisibilities rest

/-- `sym_calc_choice`. -/
def symCalcChoice (s : SymId) : CalcM (Option SymId) := do
  let values ← deref (st.values s)
  calcVisibilities st value values
  let cs ← get
  match (st.user.choice s).filter fun defSym => cs.visible defSym ≠ .no with
  | some defSym => return some defSym
  | none => do
      let defSym ← symChoiceDefault st value s
      -- no choice? reset tristate value
      modify fun cs =>
        if defSym = none then cs.setCurr s ⟨(cs.curr s).val, .no⟩ (cs.choice s) else cs
      return defSym

/-- `sym->flags |= SYMBOL_WRITE` where a condition holds. -/
def CalcState.writeIf (s : SymId) (cond : Prop) [Decidable cond] (cs : CalcState) : CalcState :=
  if cond then cs.setWrite s true else cs

theorem valid_writeIf {s : SymId} {cond : Prop} [Decidable cond] (cs : CalcState) :
    (cs.writeIf s cond).valid = cs.valid := by
  unfold CalcState.writeIf
  split <;> rfl

/-- The value of a boolean or tristate symbol at `calc_newval`: what the user set, or the
default. -/
def askedValue (s : SymId) : CalcM Tristate := do
  modify fun cs => cs.writeIf s (cs.visible s ≠ .no)
  let cs ← get
  if cs.visible s ≠ .no ∧ st.user.has s then
    return exprAnd (st.user.tri s) (cs.visible s)
  else do
    modify fun cs => cs.writeIf s (cs.revTri s ≠ .no)
    if (st.sym s).choice then return .no
    else do
      match ← symGetDefaultProp st value s with
      | none => return .no
      | some (prop, visible) => do
          modify (·.setWrite s true)
          let tri ← calcCondition st value prop.value
          return exprAnd tri visible

/-- The same with the selects of the symbol. -/
def selectedValue (s : SymId) : CalcM Tristate := do
  let tri ← askedValue st value s
  let cs ← get
  return exprOr tri (cs.revTri s)

/-- The value of a choice value that is visible. -/
def chosenValue (s : SymId) : CalcM Tristate := do
  let choice ← deref (st.choiceOf s)
  let cs ← get
  return if cs.choice choice = some s then .yes else .no

/-- One of the two. -/
def decidedValue (s : SymId) : CalcM Tristate := do
  let cs ← get
  if (st.sym s).choiceval ∧ cs.visible s = .yes then chosenValue st s
  else selectedValue st value s

/-- The new value of a boolean or tristate symbol. -/
def newTristate (s : SymId) : CalcM Tristate := do
  let tri ← decidedValue st value s
  let cs ← get
  return liftMod (symGetType (st.sym s) (cs.visible s) cs.modulesVal) tri

/-- The new value of a number or a string. -/
def newText (s : SymId) : CalcM Text := do
  modify fun cs => cs.writeIf s (cs.visible s ≠ .no)
  let cs ← get
  if cs.visible s ≠ .no ∧ st.user.has s then return st.user.val s
  else do
    match ← symGetDefaultProp st value s with
    | none => return []
    | some (prop, _) =>
        match propGetSymbol prop with
        | none => return []
        | some ds => do
            modify (·.setWrite s true)
            value ds
            return ((← get).curr ds).val

/-- `modules_val = modules_sym->curr.tri`, where the value is not the old one. -/
def CalcState.setModules (s : SymId) (old : SymbolValue) (cs : CalcState) : CalcState :=
  if cs.curr s ≠ old ∧ st.modulesSym = some s then { cs with modulesVal := (cs.curr s).tri } else cs

/-- The flag `SYMBOL_WRITE` of the values of a choice. -/
def CalcState.writeValues (s : SymId) (values : List SymId) (cs : CalcState) : CalcState :=
  if cs.write s then
    { cs with write := fun v => cs.write v || values.contains v && cs.visible v != .no }
  else cs

/-- `sym->curr.val = sym_calc_choice(sym)`. -/
def selectValue (s : SymId) (newval : SymbolValue) : CalcM Unit :=
  if (st.sym s).choice ∧ newval.tri = .yes then do
    let chosen ← symCalcChoice st value s
    modify fun cs => cs.setCurr s (cs.curr s) chosen
  else return

/-- The last loop of `sym_calc_value`. -/
def writeChoice (s : SymId) : CalcM Unit :=
  if (st.sym s).choice then do
    let values ← deref (st.values s)
    modify (·.writeValues s values)
  else return

/-- What `sym_calc_value` does with the new value. -/
def finishValue (s : SymId) (old newval : SymbolValue) : CalcM Unit := do
  modify (·.setCurr s newval none)
  selectValue st value s newval
  symValidateRange st value s
  modify (·.setModules st s old)
  writeChoice st s
  modify fun cs => if st.auto s then cs.setWrite s false else cs

/-- Before a symbol with a type gets a new value. `newval` is the default for a symbol that is
met again. -/
def startValue (s : SymId) (newval : SymbolValue) : CalcM Unit := do
  modify fun cs => if (st.sym s).choiceval then cs else cs.setWrite s false
  symCalcVisibility st value s
  modify (·.setCurr s newval none)

/-- `sym_calc_value` behind the first lines. -/
def calcBody (s : SymId) : CalcM Unit := do
  let cs ← get
  let old := cs.curr s
  match (st.sym s).type with
  | .int | .hex | .string => do
      startValue st value s ⟨[], .no⟩
      let val ← newText st value s
      finishValue st value s old ⟨val, .no⟩
  | .boolean | .tristate => do
      startValue st value s ⟨['n'], .no⟩
      let tri ← newTristate st value s
      finishValue st value s old ⟨['n'], tri⟩
  | .unknown | .other =>
      modify (·.setCurr s ⟨(st.sym s).name.getD [], .no⟩ none)

/-- `sym_calc_value` behind the test of `SYMBOL_VALID`. -/
def calcSymbol (s : SymId) : CalcM Unit := do
  modify (·.setValid s)
  calcBody st value s

end Calc

/-- `sym_calc_value`, with a bound on the depth of the recursion. -/
def symCalcValue (st : Setup) : ℕ → SymId → CalcM Unit
  | 0, s => fun cs => if cs.valid s then some ((), cs) else none
  | fuel + 1, s => fun cs =>
      if cs.valid s then some ((), cs) else calcSymbol st (symCalcValue st fuel) s cs

/-- Clear `SYMBOL_VALID` of every symbol. -/
def CalcState.clearValid (st : Setup) (cs : CalcState) : CalcState :=
  { cs with valid := fun s => cs.valid s && !st.symbols.contains s }

/-- `sym_calc_value(modules_sym)`, which may be a null pointer. -/
def calcModules (st : Setup) (fuel : ℕ) : CalcM Unit :=
  match st.modulesSym with
  | none => return
  | some modules => symCalcValue st fuel modules

/-- `sym_clear_all_valid`. -/
def symClearAllValid (st : Setup) (fuel : ℕ) : CalcM Unit := do
  modify (·.clearValid st)
  calcModules st fuel

/-! ## The recursion ends -/

/-- The pointers that are followed: choices have a list of values, the values have their
choice, the defaults of a choice are symbols, and a range has two bounds. -/
structure Resolved (st : Setup) : Prop where
  values : ∀ s, (st.sym s).choice → (st.values s).isSome
  choiceOf : ∀ s, (st.sym s).choiceval → (st.choiceOf s).isSome
  default : ∀ s, (st.sym s).choice → ∀ prop ∈ (st.sym s).properties .default,
    (propGetSymbol prop).isSome
  bounds : ∀ s, ∀ prop ∈ (st.sym s).properties .range, prop.bounds.isSome

/-- The symbols that have no value yet, counted as in the check for recursive dependencies. -/
def unvalued (st : Setup) (cs : CalcState) : ℕ :=
  unchecked st.symbols ⟨cs.valid, cs.valid⟩

/-- No symbol loses its value, and at most `k` symbols have none yet. Symbols that are not in
the table, like the three constants, always have one. -/
def reaching (st : Setup) (k : ℕ) : StateSpec.Regime CalcState where
  inv cs := (∀ s, s ∉ st.symbols → cs.valid s) ∧ unvalued st cs ≤ k
  step cs cs' := ∀ s, cs.valid s → cs'.valid s
  stuck := False
  refl _ _ h := h
  trans h h' s hs := h' s (h s hs)

/-- The invariant is about the flags only. -/
theorem reaching_inv {st : Setup} {k : ℕ} {cs cs' : CalcState} (hinv : (reaching st k).inv cs)
    (h : ∀ s, cs.valid s → cs'.valid s) : (reaching st k).inv cs' :=
  ⟨fun s hs => h s (hinv.1 s hs), Nat.le_trans (unchecked_le h) hinv.2⟩

section Runs

open StateSpec.Regime

variable {st : Setup} {k : ℕ} {value : SymId → CalcM Unit}

theorem runs_modify_of_valid {g : CalcState → CalcState} (h : ∀ cs, (g cs).valid = cs.valid) :
    (reaching st k).Runs (modify g) := by
  apply runs_modify
  intro cs hinv
  have hstep : ∀ s, cs.valid s → (g cs).valid s := by
    intro s hs
    rw [h cs]
    exact hs
  exact ⟨reaching_inv hinv hstep, hstep⟩

theorem gives_deref {α : Type} {R : StateSpec.Regime CalcState} {P : CalcState → Prop}
    {p : Option α}
    (h : p = none → R.stuck) : R.Gives P (deref p) fun a cs => p = some a ∧ P cs := by
  intro cs hinv hcs
  cases p with
  | none => exact h rfl
  | some a => exact ⟨hinv, R.refl cs, rfl, hcs⟩

theorem runs_deref {α : Type} {p : Option α} (h : p.isSome) : (reaching st k).Runs (deref p) := by
  obtain ⟨a, rfl⟩ := Option.isSome_iff_exists.mp h
  exact runs_pure a

section Expr

variable {R : StateSpec.Regime CalcState} (hvalue : ∀ s, R.Runs (value s))
include hvalue

theorem calcExpr_runs (e : Expr) : R.Runs (calcExpr st value e) := by
  induction e with
  | symbol s => exact (hvalue s).bind fun _ => runs_get fun _ => runs_pure _
  | and l r ihl ihr => exact ihl.bind fun _ => ihr.bind fun _ => runs_pure _
  | or l r ihl ihr => exact ihl.bind fun _ => ihr.bind fun _ => runs_pure _
  | not e ih => exact ih.bind fun _ => runs_pure _
  | equal l r =>
      exact (hvalue l).bind fun _ => (hvalue r).bind fun _ => runs_get fun _ => runs_pure _
  | unequal l r =>
      exact (hvalue l).bind fun _ => (hvalue r).bind fun _ => runs_get fun _ => runs_pure _

theorem calcCondition_runs (e : Option Expr) : R.Runs (calcCondition st value e) := by
  cases e with
  | none => exact runs_pure _
  | some e => exact calcExpr_runs hvalue e

end Expr

variable (hvalue : ∀ s, (reaching st k).Runs (value s))
include hvalue

theorem firstVisible_gives (props : List Property) :
    (reaching st k).Gives (fun _ => True) (firstVisible st value props)
      fun found _ => ∀ p ∈ found, p.1 ∈ props := by
  induction props with
  | nil =>
      apply gives_pure
      intro cs _ _ p hp
      cases hp
  | cons prop rest ih =>
      apply Gives.bind (calcCondition_runs hvalue prop.visible)
      intro tri
      apply gives_ite <;> intro _
      · apply gives_pure
        intro cs _ _ p hp
        cases hp
        exact List.mem_cons_self
      · apply ih.of_post
        intro found cs _ hfound p hp
        exact List.mem_cons_of_mem _ (hfound p hp)

theorem firstVisible_runs (props : List Property) :
    (reaching st k).Runs (firstVisible st value props) :=
  (firstVisible_gives hvalue props).of_post fun _ _ _ _ => trivial

theorem symGetRangeVal_runs (s : SymId) (base : ℕ) :
    (reaching st k).Runs (symGetRangeVal st value s base) :=
  (hvalue s).bind fun _ => runs_get fun _ => runs_pure _

theorem anyPrompt_runs (props : List Property) (tri : Tristate) :
    (reaching st k).Runs (anyPrompt st value props tri) := by
  induction props generalizing tri with
  | nil => exact runs_pure _
  | cons prop rest ih =>
      apply (calcCondition_runs hvalue prop.visible).bind
      intro visible
      exact ih (exprOr tri visible)

theorem calcRevDep_runs (e : Option Expr) : (reaching st k).Runs (calcRevDep st value e) := by
  cases e with
  | none => exact runs_pure _
  | some e => exact calcExpr_runs hvalue e

theorem symCalcVisibility_runs (s : SymId) :
    (reaching st k).Runs (symCalcVisibility st value s) := by
  refine Runs.bind ((anyPrompt_runs hvalue _ _).bind fun _ => runs_modify_of_valid fun _ => rfl) ?_
  intro _
  apply runs_ite (runs_pure _)
  apply (calcCondition_runs hvalue _).bind
  intro dir
  apply Runs.bind (runs_modify_of_valid ?dir)
  case dir => intro cs; rfl
  intro _
  apply (calcRevDep_runs hvalue _).bind
  intro rev
  exact runs_modify_of_valid fun _ => rfl

theorem calcVisibilities_runs (values : List SymId) :
    (reaching st k).Runs (calcVisibilities st value values) := by
  induction values with
  | nil => exact runs_pure _
  | cons s rest ih => exact (symCalcVisibility_runs hvalue s).bind fun _ => ih

theorem visibleDefault_runs {props : List Property}
    (hprops : ∀ prop ∈ props, (propGetSymbol prop).isSome) :
    (reaching st k).Runs (visibleDefault st value props) := by
  induction props with
  | nil => exact runs_pure _
  | cons prop rest ih =>
      have hrest := ih fun prop hmem => hprops prop (List.mem_cons_of_mem _ hmem)
      apply (calcCondition_runs hvalue prop.visible).bind
      intro tri
      apply runs_ite hrest
      apply (runs_deref (hprops prop List.mem_cons_self)).bind
      intro defSym
      exact runs_get fun cs => runs_ite (runs_pure _) hrest

theorem askedValue_runs (s : SymId) : (reaching st k).Runs (askedValue st value s) := by
  apply Runs.bind (runs_modify_of_valid fun cs => valid_writeIf cs)
  intro _
  apply runs_get
  intro cs
  apply runs_ite (runs_pure _)
  apply Runs.bind (runs_modify_of_valid fun cs => valid_writeIf cs)
  intro _
  apply runs_ite (runs_pure _)
  apply (firstVisible_runs hvalue _).bind
  intro found
  cases found with
  | none => exact runs_pure _
  | some found =>
      apply Runs.bind (runs_modify_of_valid ?write)
      case write => intro cs; rfl
      intro _
      exact (calcCondition_runs hvalue _).bind fun _ => runs_pure _

theorem newText_runs (s : SymId) : (reaching st k).Runs (newText st value s) := by
  apply Runs.bind (runs_modify_of_valid fun cs => valid_writeIf cs)
  intro _
  apply runs_get
  intro cs
  apply runs_ite (runs_pure _)
  apply (firstVisible_runs hvalue _).bind
  intro found
  cases found with
  | none => exact runs_pure _
  | some found =>
      show (reaching st k).Runs (match propGetSymbol found.1 with | none => _ | some ds => _)
      cases propGetSymbol found.1 with
      | none => exact runs_pure _
      | some ds =>
          apply Runs.bind (runs_modify_of_valid ?write)
          case write => intro cs; rfl
          intro _
          exact (hvalue ds).bind fun _ => runs_get fun _ => runs_pure _

theorem symValidateRange_runs (hst : Resolved st) (s : SymId) :
    (reaching st k).Runs (symValidateRange st value s) := by
  unfold symValidateRange
  cases numberBase (st.sym s).type with
  | none => exact runs_pure _
  | some base =>
      apply (firstVisible_gives hvalue _).runs_bind
      intro found hfound
      cases found with
      | none => exact runs_pure _
      | some found =>
          apply runs_get
          intro cs
          apply (runs_deref (hst.bounds s _ (hfound _ rfl))).bind
          intro bounds
          apply (symGetRangeVal_runs hvalue _ _).bind
          intro low
          apply runs_ite
          · apply (symGetRangeVal_runs hvalue _ _).bind
            intro high
            exact runs_ite (runs_pure _) (runs_modify_of_valid fun _ => rfl)
          · exact runs_modify_of_valid fun _ => rfl

theorem symCalcChoice_runs (hst : Resolved st) {s : SymId} (hs : (st.sym s).choice) :
    (reaching st k).Runs (symCalcChoice st value s) := by
  apply (runs_deref (hst.values s hs)).bind
  intro values
  apply (calcVisibilities_runs hvalue values).bind
  intro _
  apply runs_get
  intro cs
  cases (st.user.choice s).filter fun defSym => cs.visible defSym ≠ .no with
  | some defSym => exact runs_pure _
  | none =>
      refine Runs.bind (Runs.bind (visibleDefault_runs hvalue (hst.default s hs)) ?_) fun defSym =>
        Runs.bind (runs_modify_of_valid ?_) fun _ => runs_pure _
      · intro found
        cases found with
        | some defSym => exact runs_pure _
        | none => exact (runs_deref (hst.values s hs)).bind fun _ => runs_get fun _ => runs_pure _
      · intro cs
        split <;> rfl

theorem newTristate_runs (hst : Resolved st) (s : SymId) :
    (reaching st k).Runs (newTristate st value s) := by
  refine Runs.bind (runs_get ?_) fun tri => runs_get fun _ => runs_pure _
  intro cs
  split
  case isTrue hval =>
    exact (runs_deref (hst.choiceOf s hval.1)).bind fun _ => runs_get fun _ => runs_pure _
  case isFalse => exact (askedValue_runs hvalue s).bind fun _ => runs_get fun _ => runs_pure _

theorem finishValue_runs (hst : Resolved st) (s : SymId) (old newval : SymbolValue) :
    (reaching st k).Runs (finishValue st value s old newval) := by
  refine Runs.bind (runs_modify_of_valid fun _ => rfl) ?_
  intro _
  apply Runs.bind (x := selectValue st value s newval) ?select
  case select =>
    unfold selectValue
    split
    case isTrue hsel =>
      exact (symCalcChoice_runs hvalue hst hsel.1).bind fun _ => runs_modify_of_valid fun _ => rfl
    case isFalse => exact runs_pure _
  intro _
  apply (symValidateRange_runs hvalue hst s).bind
  intro _
  apply Runs.bind (runs_modify_of_valid fun cs => by unfold CalcState.setModules; split <;> rfl)
  intro _
  apply Runs.bind (x := writeChoice st s) ?write
  case write =>
    unfold writeChoice
    split
    case isTrue hs =>
      apply (runs_deref (hst.values s hs)).bind
      intro values
      exact runs_modify_of_valid fun cs => by unfold CalcState.writeValues; split <;> rfl
    case isFalse => exact runs_pure _
  intro _
  exact runs_modify_of_valid fun cs => by split <;> rfl

theorem startValue_runs (s : SymId) (newval : SymbolValue) :
    (reaching st k).Runs (startValue st value s newval) := by
  apply Runs.bind (runs_modify_of_valid fun cs => by split <;> rfl)
  intro _
  apply (symCalcVisibility_runs hvalue s).bind
  intro _
  exact runs_modify_of_valid fun _ => rfl

theorem calcBody_runs (hst : Resolved st) (s : SymId) :
    (reaching st k).Runs (calcBody st value s) := by
  apply runs_get
  intro cs
  have htext : (reaching st k).Runs (do
      startValue st value s ⟨[], .no⟩
      let val ← newText st value s
      finishValue st value s (cs.curr s) ⟨val, .no⟩) :=
    (startValue_runs hvalue s _).bind fun _ => (newText_runs hvalue s).bind fun _ =>
      finishValue_runs hvalue hst s _ _
  have htri : (reaching st k).Runs (do
      startValue st value s ⟨['n'], .no⟩
      let tri ← newTristate st value s
      finishValue st value s (cs.curr s) ⟨['n'], tri⟩) :=
    (startValue_runs hvalue s _).bind fun _ => (newTristate_runs hvalue hst s).bind fun _ =>
      finishValue_runs hvalue hst s _ _
  have hnone : (reaching st k).Runs
      (modify (·.setCurr s ⟨(st.sym s).name.getD [], .no⟩ none)) :=
    runs_modify_of_valid fun _ => rfl
  cases (st.sym s).type with
  | int | hex | string => exact htext
  | boolean | tristate => exact htri
  | unknown | other => exact hnone

end Runs

theorem valid_setValid {cs : CalcState} (s : SymId) {t : SymId} (h : cs.valid t) :
    (cs.setValid s).valid t := by
  show Function.update cs.valid s true t = true
  by_cases hts : t = s
  · rw [hts, Function.update_self]
  · rw [Function.update_of_ne hts]
    exact h

/-- A symbol that is marked leaves one less. -/
theorem unvalued_setValid {st : Setup} {cs : CalcState} (hcover : ∀ t, t ∉ st.symbols → cs.valid t)
    {s : SymId} (hs : ¬ cs.valid s) : unvalued st (cs.setValid s) < unvalued st cs := by
  have hmem : s ∈ st.symbols := by
    by_contra hmem
    exact hs (hcover s hmem)
  exact unchecked_lt (fun _ => valid_setValid s) hmem (by simpa using hs) (Function.update_self ..)

/-- A symbol without a value is marked before anything is calculated for it, so there is one less
of them on every level of the recursion. -/
theorem symCalcValue_runs {st : Setup} (hst : Resolved st) (k : ℕ) (s : SymId) :
    (reaching st k).Gives (fun _ => True) (symCalcValue st k s) fun _ cs => cs.valid s := by
  induction k generalizing s with
  | zero =>
      intro cs hinv _
      by_cases hs : cs.valid s
      · have hrun : symCalcValue st 0 s cs = some ((), cs) := if_pos hs
        rw [hrun]
        exact ⟨hinv, fun _ h => h, hs⟩
      -- a symbol without a value would be one more than the bound allows
      · have hlt := unvalued_setValid hinv.1 hs
        have hk := hinv.2
        omega
  | succ k ih =>
      intro cs hinv _
      by_cases hs : cs.valid s
      · have hrun : symCalcValue st (k + 1) s cs = some ((), cs) := if_pos hs
        rw [hrun]
        exact ⟨hinv, fun _ h => h, hs⟩
      · have hinv' : (reaching st k).inv (cs.setValid s) := by
          constructor
          · intro t ht
            exact valid_setValid s (hinv.1 t ht)
          · have hlt := unvalued_setValid hinv.1 hs
            have hk := hinv.2
            omega
        have hbelow : ∀ t, (reaching st k).Runs (symCalcValue st k t) := fun t =>
          (ih t).of_post fun _ _ _ _ => trivial
        have hbody := calcBody_runs hbelow hst s _ hinv' trivial
        have hrun : symCalcValue st (k + 1) s cs =
            calcBody st (symCalcValue st k) s (cs.setValid s) :=
          if_neg hs
        rw [hrun]
        revert hbody
        cases calcBody st (symCalcValue st k) s (cs.setValid s) with
        | none => exact id
        | some r =>
            intro hbody
            have hstep : ∀ t, cs.valid t → r.2.valid t := fun t ht =>
              hbody.2.1 t (valid_setValid s ht)
            exact ⟨reaching_inv hinv hstep, hstep, hbody.2.1 s (Function.update_self ..)⟩

/-- `sym_calc_value` for some symbols, one after the other. -/
def calcAll (st : Setup) (fuel : ℕ) : List SymId → CalcM Unit
  | [] => return
  | s :: rest => do
      symCalcValue st fuel s
      calcAll st fuel rest

theorem calcAll_runs {st : Setup} (hst : Resolved st) (k : ℕ) (l : List SymId) :
    (reaching st k).Gives (fun _ => True) (calcAll st k l) fun _ cs => ∀ s ∈ l, cs.valid s := by
  induction l with
  | nil =>
      apply StateSpec.Regime.gives_pure
      intro cs _ _ s hs
      cases hs
  | cons s rest ih =>
      have hvalid : (reaching st k).Stable fun cs => cs.valid s := fun _ _ _ _ hstep => hstep s
      apply (symCalcValue_runs hst k s).bind
      intro _
      refine ((ih.and_stable hvalid).imp (fun _ _ hs => ⟨trivial, hs⟩) ?_)
      intro _ cs _ hcs t ht
      rcases List.mem_cons.mp ht with rfl | ht
      · exact hcs.2
      · exact hcs.1 t ht

theorem calcModules_runs {st : Setup} (hst : Resolved st) (k : ℕ) :
    (reaching st k).Runs (calcModules st k) := by
  unfold calcModules
  cases st.modulesSym with
  | none => exact StateSpec.Regime.runs_pure _
  | some modules => exact (symCalcValue_runs hst k modules).of_post fun _ _ _ _ => trivial

/-- After `sym_clear_all_valid` no more symbols are left to calculate than there are. -/
theorem reaching_clearValid {st : Setup} {cs : CalcState}
    (hcover : ∀ t, t ∉ st.symbols → cs.valid t) :
    (reaching st st.symbols.length).inv (cs.clearValid st) := by
  constructor
  · intro t ht
    show (cs.valid t && !st.symbols.contains t) = true
    simpa [ht] using hcover t ht
  · exact List.countP_le_length

theorem calcModules_calcAll_runs {st : Setup} (hst : Resolved st) (l : List SymId) :
    (reaching st st.symbols.length).Gives (fun _ => True)
      (do calcModules st st.symbols.length; calcAll st st.symbols.length l)
      fun _ cs => ∀ s ∈ l, cs.valid s :=
  StateSpec.Regime.Gives.bind (calcModules_runs hst _) fun _ => calcAll_runs hst _ l

/-- Whatever the symbols depend on, also on themselves, `sym_clear_all_valid` and then
`sym_calc_value` for any symbols come to an end, on a recursion no deeper than there are symbols. -/
theorem calcAll_returns {st : Setup} (hst : Resolved st) {cs : CalcState}
    (hcover : ∀ t, t ∉ st.symbols → cs.valid t) (l : List SymId) :
    ∃ cs', (do symClearAllValid st st.symbols.length; calcAll st st.symbols.length l) cs =
      some ((), cs') ∧ ∀ s ∈ l, cs'.valid s := by
  obtain ⟨_, cs', hrun, _, _, hvalid⟩ :=
    (calcModules_calcAll_runs hst l).exists_run (fun h => h) (reaching_clearValid hcover) trivial
  exact ⟨cs', hrun, hvalid⟩

/-- Two boolean symbols, each of which is visible when the other one is set. -/
def askingEachOther : Setup where
  symbols := [0, 1]
  sym s := ⟨some (text "FOO"), .boolean, false, false, true,
    [⟨.prompt, some (.symbol (1 - s)), none⟩], none, none⟩
  auto _ := false
  modulesSym := none
  user := ⟨fun _ => true, fun _ => .yes, fun _ => [], fun _ => none⟩

/-- The state before anything is calculated. -/
def CalcState.start (st : Setup) : CalcState where
  curr _ := ⟨[], .no⟩
  choice _ := none
  visible _ := .no
  dirTri _ := .no
  revTri _ := .no
  valid s := !st.symbols.contains s
  write _ := false
  modulesVal := .no

theorem resolved_askingEachOther : Resolved askingEachOther where
  values s hs := by cases hs
  choiceOf s hs := by cases hs
  default s hs := by cases hs
  bounds s prop hmem := by cases hmem

theorem calcAll_returns_askingEachOther :
    ∃ cs', (do symClearAllValid askingEachOther 2; calcAll askingEachOther 2 [0, 1])
      (CalcState.start askingEachOther) = some ((), cs') ∧ ∀ s ∈ [0, 1], cs'.valid s := by
  refine calcAll_returns resolved_askingEachOther ?_ [0, 1]
  intro t ht
  show (!askingEachOther.symbols.contains t) = true
  simpa using ht

end Pbs.Kconfig
