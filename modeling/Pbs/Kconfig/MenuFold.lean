import Pbs.Kconfig.ExprDups
import Pbs.Kconfig.Menu
import Mathlib.Data.List.Forall2

/-!
# What folding the dependencies means

`menu_finalize` with the functions of `expr.c` in the place of its parameters. The condition
that its first loop leaves in a property is compared with the conditions that stand in the tree:
those of the entry, of the property, and of everything around, up to a choice, whose value stands
for what is around it. As long as no tristate symbol is `m`, it has the value of all of them
together, wherever this is definite.
-/

namespace Pbs.Kconfig

variable {info : SymInfo} {cf : Conf} {st : ParseState} {known types types' final : Types}

/-- `conf_parse` before `menu_finalize`, with the functions of `expr.c`. -/
def parseState (const : SymId → Bool) (symbols : List SymId) (sym : SymId → Symbol)
    (entries : List Entry) : ParseState where
  transform types := Option.map fun e => (exprTransform ⟨types, const⟩ e).1
  eliminateDups types := Option.map (exprEliminateDups ⟨types, const⟩)
  transBool types := Option.map (exprTransBool ⟨types, const⟩)
  symbols := symbols
  sym := sym
  symbolMod := symbolMod
  entries := entries

/-- What is known of the symbols after `menu_finalize`. -/
def ParseState.symInfo (st : ParseState) (const : SymId → Bool) : SymInfo := ⟨st.types, const⟩

/-! ## Types -/

/-- A type that has been set stays. -/
def Types.Before (types types' : Types) : Prop :=
  ∀ s, types s = .unknown ∨ types s = types' s

theorem Types.Before.refl (types : Types) : types.Before types := fun _ => .inr rfl

theorem Types.Before.trans (h : known.Before types) (h' : types.Before types') :
    known.Before types' := by
  intro s
  rcases h s with hs | hs
  · exact .inl hs
  · rw [hs]
    exact h' s

theorem before_menuSetType (s : SymId) (type : SymbolType) (types : Types) :
    types.Before (menuSetType s type types) := by
  intro t
  unfold menuSetType
  split_ifs with hs
  · by_cases hts : t = s
    · exact .inl (hts ▸ hs)
    · exact .inr (Function.update_of_ne hts ..).symm
  · exact .inr rfl

theorem before_choiceTypes (st : ParseState) (sym : Option SymId) (list : List Entry)
    (types : Types) : types.Before (choiceTypes st sym list types) := by
  have hvalues : ∀ (choice : SymId) (values : List SymId) (types : Types), types.Before
      (values.foldl (fun types s => menuSetType s (types choice) types) types) := by
    intro choice values
    induction values with
    | nil => exact .refl
    | cons s values ih => exact fun types => (before_menuSetType s _ types).trans (ih _)
  unfold choiceTypes
  cases sym with
  | none => exact .refl types
  | some choice =>
      dsimp only
      split_ifs
      · refine Types.Before.trans ?_ (hvalues choice _ _)
        cases (list.filterMap Entry.sym).find? fun s => types s ≠ .unknown with
        | none => exact .refl types
        | some s => exact before_menuSetType choice _ types
      · exact .refl types

mutual

theorem before_typesAfter (st : ParseState) (types : Types) :
    ∀ entry : Entry, types.Before (entry.typesAfter st types)
  | .mk sym _ _ _ list => by
      rw [Entry.typesAfter]
      exact (before_choiceTypes st sym list types).trans (before_typesAfterAll st _ list)

theorem before_typesAfterAll (st : ParseState) (types : Types) :
    ∀ entries : List Entry, types.Before (typesAfterAll st types entries)
  | [] => .refl types
  | entry :: rest => by
      rw [typesAfterAll]
      exact (before_typesAfter st types entry).trans (before_typesAfterAll st _ rest)

end

/-- What holds with the types that `menu_finalize` leaves has held before. -/
theorem WellTyped.before {const : SymId → Bool} (h : WellTyped ⟨final, const⟩ cf)
    (hbefore : types.Before final) : WellTyped ⟨types, const⟩ cf where
  type s hs := by
    have heq := (hbefore s).resolve_left hs
    rw [show SymInfo.type ⟨types, const⟩ s = final s from heq]
    apply h.type
    rw [← show types s = SymInfo.type ⟨final, const⟩ s from heq]
    exact hs
  untyped s hs := by
    rcases hbefore s with hunknown | heq
    · exact hunknown
    · exact heq.trans (h.untyped s hs)
  yes := h.yes
  mod := h.mod
  no := h.no
  yes_string := h.yes_string
  mod_string := h.mod_string
  no_string := h.no_string
  boolean s hs := by
    rcases hbefore s with hunknown | heq
    · exact absurd (hunknown.symm.trans hs) (by decide)
    · exact h.boolean s (heq.symm.trans hs)
  const := h.const

/-- No tristate symbol is `m`. -/
def Conf.NoModules (info : SymInfo) (cf : Conf) : Prop :=
  ∀ s, info.type s = .tristate → (cf.curr s).tri ≠ .mod

theorem Conf.NoModules.before {const : SymId → Bool} (h : cf.NoModules ⟨final, const⟩)
    (hbefore : types.Before final) : cf.NoModules ⟨types, const⟩ := by
  intro s hs
  rcases hbefore s with hunknown | heq
  · exact absurd (hunknown.symm.trans hs) (by decide)
  · exact h s (heq.symm.trans hs)

/-- `FOO!=n` is `FOO` where this is not `m`. -/
theorem value_exprTransBool (h : WellTyped info cf) (hm : cf.NoModules info) (e : Expr) :
    (exprTransBool info e).value cf = e.value cf := by
  induction e with
  | and l r ihl ihr => exact congrArg₂ Junction.and.eval ihl ihr
  | or l r ihl ihr => exact congrArg₂ Junction.or.eval ihl ihr
  | not e ih => exact congrArg exprNot ih
  | unequal l r =>
      rw [exprTransBool]
      split_ifs with hlr
      · have hmod := hm l hlr.1
        rw [hlr.2, value_unequal, h.value_equal_no (.inr hlr.1), value_symbol]
        revert hmod
        cases (cf.curr l).tri <;> simp [exprNot]
      · rfl
  | symbol s => rfl
  | equal l r => rfl

/-! ## Conditions -/

/-- What a rewriting function does to the value of a condition. -/
def Rewrites (cf : Conf) (f : Option Expr → Option Expr) : Prop :=
  ∀ e, (exprCalcValue cf e).Refines (exprCalcValue cf (f e))

theorem rewrites_map {f : Expr → Expr} (hf : ∀ e : Expr, (e.value cf).Refines ((f e).value cf)) :
    Rewrites cf (Option.map f) := by
  intro e
  cases e with
  | none => exact .refl _
  | some e => exact hf e

/-- The functions that `menu_finalize` uses, as far as values go, with the types that it comes to
know. -/
structure ParseState.Keeps (st : ParseState) (cf : Conf) (final : Types) : Prop where
  transform : ∀ types : Types, types.Before final → Rewrites cf (st.transform types)
  eliminateDups : ∀ types : Types, types.Before final → Rewrites cf (st.eliminateDups types)
  transBool : ∀ types : Types, types.Before final → Rewrites cf (st.transBool types)

theorem parseState_keeps {const : SymId → Bool} (h : WellTyped ⟨final, const⟩ cf)
    (hm : cf.NoModules ⟨final, const⟩) (symbols : List SymId) (sym : SymId → Symbol)
    (entries : List Entry) : (parseState const symbols sym entries).Keeps cf final where
  transform _ hbefore :=
    rewrites_map fun e => .inr (value_exprTransform (h.before hbefore) e).symm
  eliminateDups _ hbefore := rewrites_map (exprEliminateDups_refines (h.before hbefore))
  transBool _ hbefore :=
    rewrites_map fun e => .inr (value_exprTransBool (h.before hbefore) (hm.before hbefore) e).symm

theorem exprCalcValue_exprAllocAnd (cf : Conf) (e1 e2 : Option Expr) :
    exprCalcValue cf (exprAllocAnd e1 e2) = exprAnd (exprCalcValue cf e1)
      (exprCalcValue cf e2) := by
  cases e1 with
  | none =>
      show exprCalcValue cf e2 = exprAnd .yes _
      cases exprCalcValue cf e2 <;> rfl
  | some e1 =>
      cases e2 with
      | none =>
          show exprCalcValue cf (some e1) = exprAnd _ .yes
          cases exprCalcValue cf (some e1) <;> rfl
      | some e2 => rfl

theorem Tristate.Refines.and {a a' b b' : Tristate} (ha : a.Refines a') (hb : b.Refines b') :
    (exprAnd a b).Refines (exprAnd a' b') := by
  have hfirst : (exprAnd a b).Refines (exprAnd a' b) := by
    rw [show exprAnd a b = Junction.and.eval b a from Junction.and.eval_comm a b,
      show exprAnd a' b = Junction.and.eval b a' from Junction.and.eval_comm a' b]
    exact ha.eval .and b
  exact hfirst.trans (hb.eval .and a')

/-- The conjunction of a condition that is folded already and one that is not. -/
theorem ParseState.Keeps.fold (h : st.Keeps cf final) (hknown : known.Before final)
    {parent : Tristate} {parentdep : Option Expr}
    (hparent : parent.Refines (exprCalcValue cf parentdep)) (dep : Option Expr) :
    (exprAnd parent (exprCalcValue cf dep)).Refines
      (exprCalcValue cf (baseDep st known parentdep dep)) := by
  refine Tristate.Refines.trans ?_ (h.eliminateDups known hknown _)
  rw [exprCalcValue_exprAllocAnd]
  exact hparent.and (h.transform known hknown dep)

/-! ## The tree -/

/-- The value of a property's own condition together with those around. -/
def conditionValue (cf : Conf) (base : Tristate) (prop : Property) : Tristate :=
  exprAnd base (exprCalcValue cf prop.visible)

/-- The value that holds for the entries below: of the choice, of the prompt's condition, or of the
entry's. -/
def belowValue (cf : Conf) (st : ParseState) (sym : Option SymId) (base : Tristate)
    (props : List Property) : Tristate :=
  match sym, menuPrompt props with
  | some s, prompt =>
      if (st.sym s).choice then (cf.curr s).tri
      else match prompt with
        | some prop => conditionValue cf base prop
        | none => base
  | none, some prop => conditionValue cf base prop
  | none, none => base

mutual

/-- For every property in an entry and below it, the value of the conditions in the tree that
apply to it. -/
def Entry.conditions (cf : Conf) (st : ParseState) (parent : Tristate) : Entry → List Tristate
  | .mk sym _ dep props list =>
      let base := exprAnd parent (exprCalcValue cf dep)
      props.map (conditionValue cf base) ++
        conditionsBelow cf st (belowValue cf st sym base props) list

def conditionsBelow (cf : Conf) (st : ParseState) (parent : Tristate) : List Entry → List Tristate
  | [] => []
  | entry :: rest => Entry.conditions cf st parent entry ++ conditionsBelow cf st parent rest

end

mutual

/-- For every property in an entry and below it, the value of the condition it has. -/
def Entry.visibles (cf : Conf) : Entry → List Tristate
  | .mk _ _ _ props list =>
      props.map (fun prop => exprCalcValue cf prop.visible) ++ visiblesBelow cf list

def visiblesBelow (cf : Conf) : List Entry → List Tristate
  | [] => []
  | entry :: rest => Entry.visibles cf entry ++ visiblesBelow cf rest

end

/-- The condition that the first loop of `menu_finalize` leaves in a property. -/
theorem ParseState.Keeps.visible (h : st.Keeps cf final) (hknown : known.Before final)
    {base : Tristate} {basedep : Option Expr} (hbase : base.Refines (exprCalcValue cf basedep))
    (sym : Option SymId) (prop : Property) :
    (conditionValue cf base prop).Refines
      (exprCalcValue cf (foldVisible st known sym basedep prop.visible)) := by
  have hfold : (conditionValue cf base prop).Refines _ := h.fold hknown hbase prop.visible
  unfold baseDep at hfold
  unfold foldVisible
  cases sym with
  | none => exact hfold
  | some s =>
      show (conditionValue cf base prop).Refines (exprCalcValue cf (if _ then _ else _))
      split_ifs
      · exact hfold
      · exact hfold.trans (h.transBool known hknown _)

theorem find?_map_of_comp {α : Type*} {p : α → Bool} {f : α → α} (hp : ∀ a, p (f a) = p a)
    (l : List α) : (l.map f).find? p = (l.find? p).map f := by
  rw [List.find?_map, show p ∘ f = p from funext hp]

/-- A changed condition does not change which property is the prompt. -/
theorem menuPrompt_map {f : Property → Property} (hf : ∀ prop, (f prop).type = prop.type)
    (props : List Property) : menuPrompt (props.map f) = (menuPrompt props).map f := by
  unfold menuPrompt
  rw [← List.map_reverse]
  apply find?_map_of_comp
  intro prop
  rw [hf]

/-- The properties of a folded entry. -/
abbrev foldProps (st : ParseState) (known : Types) (sym : Option SymId) (basedep : Option Expr)
    (props : List Property) : List Property :=
  props.map fun prop => { prop with visible := foldVisible st known sym basedep prop.visible }

theorem menuPrompt_foldProps (st : ParseState) (known : Types) (sym : Option SymId)
    (basedep : Option Expr) (props : List Property) :
    menuPrompt (foldProps st known sym basedep props) = (menuPrompt props).map fun prop =>
      { prop with visible := foldVisible st known sym basedep prop.visible } :=
  menuPrompt_map
    (f := fun prop => { prop with visible := foldVisible st known sym basedep prop.visible })
    (fun _ => rfl) props

/-- What holds for the entries below a folded one. -/
theorem ParseState.Keeps.below (h : st.Keeps cf final) (hknown : known.Before final)
    {base : Tristate} {basedep : Option Expr} (hbase : base.Refines (exprCalcValue cf basedep))
    (sym : Option SymId) (props : List Property) :
    (belowValue cf st sym base props).Refines
      (exprCalcValue cf (parentDep st sym basedep (foldProps st known sym basedep props))) := by
  unfold belowValue parentDep
  rw [menuPrompt_foldProps]
  cases sym with
  | none =>
      cases menuPrompt props with
      | none => exact hbase
      | some prop => exact h.visible hknown hbase none prop
  | some s =>
      simp only
      split_ifs
      · exact .refl _
      · cases menuPrompt props with
        | none => exact hbase
        | some prop => exact h.visible hknown hbase (some s) prop

mutual

/-- The types of what is below an entry are known before those after it. -/
theorem ParseState.Keeps.entry (h : st.Keeps cf final) {known : Types}
    (hknown : known.Before final) {parent : Tristate} {parentdep : Option Expr}
    (hparent : parent.Refines (exprCalcValue cf parentdep)) (types : Types) :
    ∀ entry : Entry, (entry.typesAfter st types).Before final →
      List.Forall₂ Tristate.Refines (entry.conditions cf st parent)
        ((foldEntry st known parentdep types entry).visibles cf)
  | .mk sym file dep props list, hafter => by
      rw [Entry.typesAfter] at hafter
      have hbelow := (before_typesAfterAll st (choiceTypes st sym list types) list).trans hafter
      have hbase := h.fold hknown hparent dep
      rw [Entry.conditions, foldEntry, Entry.visibles, List.map_map]
      refine List.rel_append ?_ (ParseState.Keeps.entries h hbelow
        (h.below hknown hbase sym props) (choiceTypes st sym list types) list hafter)
      rw [List.forall₂_map_left_iff, List.forall₂_map_right_iff, List.forall₂_same]
      intro prop _
      exact h.visible hknown hbase sym prop

theorem ParseState.Keeps.entries (h : st.Keeps cf final) {known : Types}
    (hknown : known.Before final) {parent : Tristate} {parentdep : Option Expr}
    (hparent : parent.Refines (exprCalcValue cf parentdep)) (types : Types) :
    ∀ entries : List Entry, (typesAfterAll st types entries).Before final →
      List.Forall₂ Tristate.Refines (conditionsBelow cf st parent entries)
        (visiblesBelow cf (foldEntries st known parentdep types entries))
  | [], _ => .nil
  | entry :: rest, hafter => by
      rw [typesAfterAll] at hafter
      have hentry := (before_typesAfterAll st (entry.typesAfter st types) rest).trans hafter
      rw [conditionsBelow, foldEntries, visiblesBelow]
      exact List.rel_append (ParseState.Keeps.entry h hknown hparent types entry hentry)
        (ParseState.Keeps.entries h hknown hparent _ rest hafter)

end

/-! ## Reverse dependencies -/

/-- What the selects of an entry ask for: the symbol, and the value of the selector together with
all conditions. -/
def Entry.asked (cf : Conf) (parent : Tristate) : Entry → List (SymId × Tristate)
  | .mk (some s) _ dep props _ =>
      let base := exprAnd parent (exprCalcValue cf dep)
      props.filterMap fun prop =>
        if prop.type = .select then
          (propGetSymbol prop).map fun target =>
            (target, exprAnd (cf.curr s).tri (conditionValue cf base prop))
        else none
  | .mk none _ _ _ _ => []

/-- What a choice that is not optional asks for itself. -/
def choiceAsked (cf : Conf) (st : ParseState) (base : Tristate) (sym : Option SymId)
    (props : List Property) : List (SymId × Tristate) :=
  match sym, menuPrompt props with
  | some s, some prompt =>
      if (st.sym s).optional then [] else [(s, exprAnd (conditionValue cf base prompt) .mod)]
  | _, _ => []

mutual

/-- What is asked for below an entry and for its choice. -/
def Entry.askedBelow (cf : Conf) (st : ParseState) (parent : Tristate) :
    Entry → List (SymId × Tristate)
  | .mk sym _ dep props list =>
      let base := exprAnd parent (exprCalcValue cf dep)
      let below := belowValue cf st sym base props
      list.flatMap (Entry.asked cf below) ++ askedBelow cf st below list ++
        choiceAsked cf st base sym props

def askedBelow (cf : Conf) (st : ParseState) (parent : Tristate) :
    List Entry → List (SymId × Tristate)
  | [] => []
  | entry :: rest => Entry.askedBelow cf st parent entry ++ askedBelow cf st parent rest

end

/-- All that is asked for in the tree. -/
def ParseState.asked (st : ParseState) (cf : Conf) : List (SymId × Tristate) :=
  st.entries.flatMap (Entry.asked cf .yes) ++ askedBelow cf st .yes st.entries

/-- The largest value that is asked for a symbol. -/
def askedFor (asked : List (SymId × Tristate)) (s : SymId) : Tristate :=
  (asked.filter (·.1 = s)).foldl (fun acc a => exprOr acc a.2) .no

/-- `rev_dep.tri` before it is adapted to the type. -/
def revDepValue (cf : Conf) (revDep : Option Expr) : Tristate :=
  match revDep with
  | none => .no
  | some e => e.value cf

/-- What is asked for, and what `menu_finalize` makes of it. -/
def Matches (cf : Conf) (asked : SymId × Tristate) (rev : RevDep) : Prop :=
  asked.1 = rev.target ∧ asked.2.Refines (exprCalcValue cf (rev.expr symbolMod))

theorem matches_select {s target : SymId} {value : Tristate} {cond : Option Expr}
    (hcond : value.Refines (exprCalcValue cf cond)) :
    Matches cf (target, exprAnd (cf.curr s).tri value) (.select ⟨s, target, cond⟩) := by
  refine ⟨rfl, ?_⟩
  rw [RevDep.expr, exprCalcValue_exprAllocAnd]
  exact (Tristate.Refines.refl _).and hcond

/-- The selects of one entry. -/
theorem ParseState.Keeps.asked (h : st.Keeps cf final) (hknown : known.Before final)
    {parent : Tristate} {parentdep : Option Expr}
    (hparent : parent.Refines (exprCalcValue cf parentdep)) (types : Types) (entry : Entry) :
    List.Forall₂ (Matches cf) (entry.asked cf parent)
      (foldEntry st known parentdep types entry).selects := by
  rcases entry with ⟨sym, file, dep, props, list⟩
  have hbase := h.fold hknown hparent dep
  rw [foldEntry]
  cases sym with
  | none => exact .nil
  | some s =>
      simp only [Entry.asked, Entry.selects]
      induction props with
      | nil => exact .nil
      | cons prop props ih =>
          simp only [List.map_cons, List.filterMap_cons]
          by_cases hselect : prop.type = .select
          · have hsym : ∀ visible, propGetSymbol { prop with visible := visible } =
                propGetSymbol prop := fun _ => rfl
            rw [if_pos hselect, if_pos hselect, hsym (foldVisible ..)]
            cases propGetSymbol prop with
            | none => exact ih
            | some target =>
                exact .cons (matches_select (h.visible hknown hbase (some s) prop)) ih
          · rw [if_neg hselect, if_neg hselect]
            exact ih

theorem ParseState.Keeps.asked_flatMap (h : st.Keeps cf final) (hknown : known.Before final)
    {parent : Tristate} {parentdep : Option Expr}
    (hparent : parent.Refines (exprCalcValue cf parentdep)) (types : Types)
    (entries : List Entry) :
    List.Forall₂ (Matches cf) (entries.flatMap (Entry.asked cf parent))
      ((foldEntries st known parentdep types entries).flatMap Entry.selects) := by
  induction entries generalizing types with
  | nil => exact .nil
  | cons entry rest ih =>
      rw [foldEntries, List.flatMap_cons, List.flatMap_cons]
      exact List.rel_append (h.asked hknown hparent types entry) (ih _)

theorem ParseState.Keeps.choiceAsked (h : st.Keeps cf final)
    (hvalue : (cf.curr Pbs.Kconfig.symbolMod).tri = .mod) (hknown : known.Before final)
    {base : Tristate} {basedep : Option Expr} (hbase : base.Refines (exprCalcValue cf basedep))
    (sym : Option SymId) (props : List Property) :
    List.Forall₂ (Matches cf) (choiceAsked cf st base sym props)
      (choiceRevDep st sym (foldProps st known sym basedep props)) := by
  unfold Pbs.Kconfig.choiceAsked choiceRevDep
  rw [menuPrompt_foldProps]
  cases sym with
  | none => exact .nil
  | some s =>
      cases menuPrompt props with
      | none => exact .nil
      | some prompt =>
          show List.Forall₂ _ (if _ then _ else _) (if _ then _ else _)
          split_ifs
          · exact .nil
          · refine .cons ⟨rfl, ?_⟩ .nil
            rw [RevDep.expr, exprCalcValue_exprAllocAnd, ← hvalue]
            exact (h.visible hknown hbase (some s) prompt).and (.refl _)

mutual

theorem ParseState.Keeps.askedBelow_entry (h : st.Keeps cf final)
    (hvalue : (cf.curr Pbs.Kconfig.symbolMod).tri = .mod) {known : Types}
    (hknown : known.Before final) {parent : Tristate} {parentdep : Option Expr}
    (hparent : parent.Refines (exprCalcValue cf parentdep)) (types : Types) :
    ∀ entry : Entry, (entry.typesAfter st types).Before final →
      List.Forall₂ (Matches cf) (entry.askedBelow cf st parent)
        ((foldEntry st known parentdep types entry).revDeps st)
  | .mk sym file dep props list, hafter => by
      rw [Entry.typesAfter] at hafter
      have hlist := (before_typesAfterAll st (choiceTypes st sym list types) list).trans hafter
      have hbase := h.fold hknown hparent dep
      have hbelow := h.below hknown hbase sym props
      rw [Entry.askedBelow, foldEntry, Entry.revDeps]
      refine List.rel_append (List.rel_append (h.asked_flatMap hlist hbelow _ list) ?_) ?_
      · exact ParseState.Keeps.askedBelow_entries h hvalue hlist hbelow _ list hafter
      · exact h.choiceAsked hvalue hknown hbase sym props

theorem ParseState.Keeps.askedBelow_entries (h : st.Keeps cf final)
    (hvalue : (cf.curr Pbs.Kconfig.symbolMod).tri = .mod) {known : Types}
    (hknown : known.Before final) {parent : Tristate} {parentdep : Option Expr}
    (hparent : parent.Refines (exprCalcValue cf parentdep)) (types : Types) :
    ∀ entries : List Entry, (typesAfterAll st types entries).Before final →
      List.Forall₂ (Matches cf) (askedBelow cf st parent entries)
        (revDepsBelow st (foldEntries st known parentdep types entries))
  | [], _ => .nil
  | entry :: rest, hafter => by
      rw [typesAfterAll] at hafter
      have hentry := (before_typesAfterAll st (entry.typesAfter st types) rest).trans hafter
      rw [askedBelow, foldEntries, revDepsBelow]
      refine List.rel_append ?_ ?_
      · exact ParseState.Keeps.askedBelow_entry h hvalue hknown hparent types entry hentry
      · exact ParseState.Keeps.askedBelow_entries h hvalue hknown hparent _ rest hafter

end

theorem revDepValue_exprAllocOr (cf : Conf) (acc : Option Expr) {e : Option Expr} (he : e ≠ none) :
    revDepValue cf (exprAllocOr acc e) = exprOr (revDepValue cf acc) (exprCalcValue cf e) := by
  cases e with
  | none => exact absurd rfl he
  | some e =>
      cases acc with
      | none =>
          show e.value cf = exprOr .no (e.value cf)
          cases e.value cf <;> rfl
      | some acc => rfl

theorem RevDep.expr_ne_none (m : SymId) (rev : RevDep) : rev.expr m ≠ none := by
  cases rev with
  | select sel =>
      rw [RevDep.expr]
      cases sel.cond <;> exact Option.some_ne_none _
  | choice target visible =>
      rw [RevDep.expr]
      cases visible <;> exact Option.some_ne_none _

/-- A fold over what is asked for, next to the expression that is put together meanwhile. -/
theorem refines_foldl {asked : List (SymId × Tristate)} {revs : List RevDep} (s : SymId)
    (h : List.Forall₂ (Matches cf) asked revs) {value : Tristate} {o : Option Expr}
    (hacc : value.Refines (revDepValue cf o)) :
    ((asked.filter (·.1 = s)).foldl (fun acc a => exprOr acc a.2) value).Refines
      (revDepValue cf ((revs.filter (·.target = s)).foldl
        (fun acc rev => exprAllocOr acc (rev.expr symbolMod)) o)) := by
  induction h generalizing value o with
  | nil => exact hacc
  | @cons a rev asked revs hmatch _ ih =>
      have htarget : (decide (a.1 = s)) = decide (rev.target = s) := by rw [hmatch.1]
      rw [List.filter_cons, List.filter_cons, htarget]
      split_ifs with hs
      · apply ih
        rw [revDepValue_exprAllocOr cf o (rev.expr_ne_none symbolMod)]
        have hfirst : (exprOr value a.2).Refines (exprOr (revDepValue cf o) a.2) := by
          rw [show exprOr value a.2 = Junction.or.eval a.2 value from Junction.or.eval_comm _ _,
            show exprOr (revDepValue cf o) a.2 = Junction.or.eval a.2 (revDepValue cf o) from
              Junction.or.eval_comm _ _]
          exact hacc.eval .or a.2
        exact hfirst.trans (hmatch.2.eval .or (revDepValue cf o))
      · exact ih hacc

/-- The `rev_dep` that `menu_finalize` leaves has the value of the strongest select, with all the
conditions that stand around it in the tree up to a choice. -/
theorem refines_revDepOf {const : SymId → Bool} {symbols : List SymId} {sym : SymId → Symbol}
    {entries : List Entry} (h : WellTyped ((parseState const symbols sym entries).symInfo const) cf)
    (hm : cf.NoModules ((parseState const symbols sym entries).symInfo const)) (s : SymId) :
    (askedFor ((parseState const symbols sym entries).asked cf) s).Refines
      (revDepValue cf ((parseState const symbols sym entries).revDepOf s)) := by
  have hkeeps := parseState_keeps h hm symbols sym entries
  have hroot : Tristate.yes.Refines (exprCalcValue cf none) := .refl .yes
  have hknown := before_typesAfterAll (parseState const symbols sym entries)
    (parseState const symbols sym entries).parsedTypes entries
  have hall : List.Forall₂ (Matches cf) ((parseState const symbols sym entries).asked cf)
      (parseState const symbols sym entries).revDeps := by
    rw [ParseState.asked, ParseState.revDeps, ParseState.folded]
    exact List.rel_append (hkeeps.asked_flatMap hknown hroot _ _)
      (hkeeps.askedBelow_entries h.mod hknown hroot _ _ (.refl _))
  exact refines_foldl s hall (o := none) (.refl .no)

/-- What the first loop of `menu_finalize` leaves in the properties. -/
theorem refines_folded {const : SymId → Bool} {symbols : List SymId} {sym : SymId → Symbol}
    {entries : List Entry} (h : WellTyped ((parseState const symbols sym entries).symInfo const) cf)
    (hm : cf.NoModules ((parseState const symbols sym entries).symInfo const)) :
    List.Forall₂ Tristate.Refines
      (conditionsBelow cf (parseState const symbols sym entries) .yes entries)
      (visiblesBelow cf (parseState const symbols sym entries).folded) := by
  have hroot : Tristate.yes.Refines (exprCalcValue cf none) := .refl .yes
  have hknown := before_typesAfterAll (parseState const symbols sym entries)
    (parseState const symbols sym entries).parsedTypes entries
  exact (parseState_keeps h hm symbols sym entries).entries hknown hroot _ entries (.refl _)

/-! ## A menu with a select -/

/-- `menu` with `depends on A` around `config T` with `select A if T!=n`. -/
def selectMenu : List Entry :=
  [.mk none [] (some (.symbol 3)) [⟨.menu, none, none⟩]
    [.mk (some 4) [] none [⟨.prompt, none, none⟩,
      ⟨.select, some (.unequal 4 symbolNo), some (.expr (.symbol 3))⟩] []]]

/-- The symbols of `twoSymbols`, before `menu_finalize`. -/
def selectSymbol (s : SymId) : Symbol := (twoSymbolsAt .no).sym s

theorem symInfo_selectMenu :
    (parseState twoSymbols.const [3, 4] selectSymbol selectMenu).symInfo twoSymbols.const =
      twoSymbols := by
  have htypes : (parseState twoSymbols.const [3, 4] selectSymbol selectMenu).types =
      twoSymbols.type := by
    funext s
    match s with
    | 0 | 1 | 2 | 3 | 4 => rfl
    | s + 5 => rfl
  rw [ParseState.symInfo, htypes]

theorem noModules_twoSymbols {t : Tristate} (ht : t ≠ .mod) :
    (twoSymbolsAt t).NoModules twoSymbols := by
  intro s hs
  match s with
  | 4 => exact ht
  | 0 | 1 | 2 | 3 => cases hs
  | s + 5 => cases hs

/-- As long as no tristate symbol is `m`, the `rev_dep` of a symbol has the value of the strongest
of its selects, each with its selector and all the conditions around it up to a choice, wherever
this is `n` or `y`. -/
theorem revDepOf_correct {const : SymId → Bool} {cf : Conf} {symbols : List SymId}
    {sym : SymId → Symbol} {entries : List Entry}
    (h : WellTyped ((parseState const symbols sym entries).symInfo const) cf)
    (hm : cf.NoModules ((parseState const symbols sym entries).symInfo const)) (s : SymId)
    (hdefinite : askedFor ((parseState const symbols sym entries).asked cf) s ≠ .mod) :
    revDepValue cf ((parseState const symbols sym entries).revDepOf s) =
      askedFor ((parseState const symbols sym entries).asked cf) s := by
  rcases refines_revDepOf h hm s with hmod | heq
  · exact absurd hmod hdefinite
  · exact heq.symm

theorem revDepOf_correct_selectMenu :
    revDepValue (twoSymbolsAt .yes)
      ((parseState twoSymbols.const [3, 4] selectSymbol selectMenu).revDepOf 3) = .yes :=
  revDepOf_correct (symInfo_selectMenu ▸ wellTyped_twoSymbols .yes)
    (symInfo_selectMenu ▸ noModules_twoSymbols (by decide)) 3 (by decide)

end Pbs.Kconfig
