import Pbs.Kconfig.Symbol
import Mathlib.Logic.Function.Basic

/-!
# Folding dependencies in `menu_finalize`

`menu_finalize` pushes the dependencies of menus down to their entries, folds
them into the conditions of all properties, and turns every `select` around: the
`rev_dep` of a symbol is the disjunction, over the selects of it, of the
selecting symbol and the folded condition. On its way it gives types to choices
and their values. The functions that only rewrite an expression
(`expr_transform` and its relatives) are parameters; they look at the types that
the symbols have at that time.
-/

namespace Pbs.Kconfig

/-- `struct menu` as the parser leaves it: `dep` is the conjunction of its
`depends on` lines, `props` are the properties that belong to this entry. -/
inductive Entry where
  | mk (sym : Option SymId) (file : Text) (dep : Option Expr) (props : List Property)
      (list : List Entry)

/-- `menu->sym`. -/
def Entry.sym : Entry → Option SymId
  | .mk sym _ _ _ _ => sym

/-- `sym->type`, of every symbol. -/
abbrev Types := SymId → SymbolType

/-- What the parser knows before `menu_finalize`. -/
structure ParseState where
  /-- `expr_transform` -/
  transform : Types → Option Expr → Option Expr
  /-- `expr_eliminate_dups` -/
  eliminateDups : Types → Option Expr → Option Expr
  /-- `expr_trans_bool` -/
  transBool : Types → Option Expr → Option Expr
  symbols : List SymId
  sym : SymId → Symbol
  /-- `symbol_mod` -/
  symbolMod : SymId
  entries : List Entry

/-- `menu->prompt`: the last property that came with a text. -/
def menuPrompt (props : List Property) : Option Property :=
  props.reverse.find? fun prop => prop.type matches .prompt | .menu | .comment

/-! ## Types -/

/-- `menu_set_type`, which only warns where there is another type. -/
def menuSetType (s : SymId) (type : SymbolType) (types : Types) : Types :=
  if types s = .unknown then Function.update types s type else types

/-- The first lines of `menu_finalize`: a choice without a type gets that of its
first value that has one, and its values without a type get that of the choice. -/
def choiceTypes (st : ParseState) (sym : Option SymId) (list : List Entry) (types : Types) :
    Types :=
  match sym with
  | none => types
  | some choice =>
      if (st.sym choice).choice then
        let values := list.filterMap Entry.sym
        let types := match values.find? fun s => types s ≠ .unknown with
          | some s => menuSetType choice (types s) types
          | none => types
        values.foldl (fun types s => menuSetType s (types choice) types) types
      else types

mutual

/-- The types after `menu_finalize` for an entry. -/
def Entry.typesAfter (st : ParseState) (types : Types) : Entry → Types
  | .mk sym _ _ _ list => typesAfterAll st (choiceTypes st sym list types) list

def typesAfterAll (st : ParseState) (types : Types) : List Entry → Types
  | [] => types
  | entry :: rest => typesAfterAll st (Entry.typesAfter st types entry) rest

end

/-! ## Conditions -/

/-- The `dep` of an entry, from the `parentdep` of the menu around it. -/
def baseDep (st : ParseState) (types : Types) (parentdep dep : Option Expr) : Option Expr :=
  st.eliminateDups types (exprAllocAnd parentdep (st.transform types dep))

/-- The condition of a property of an entry for `sym`. -/
def foldVisible (st : ParseState) (types : Types) (sym : Option SymId)
    (basedep visible : Option Expr) : Option Expr :=
  let dep := st.eliminateDups types (exprAllocAnd basedep (st.transform types visible))
  match sym with
  | some s => if types s = .tristate then dep else st.transBool types dep
  | none => dep

/-- The `parentdep` for the entries below a folded menu. -/
def parentDep (st : ParseState) (sym : Option SymId) (dep : Option Expr) (props : List Property) :
    Option Expr :=
  match sym, menuPrompt props with
  | some s, prompt =>
      if (st.sym s).choice then some (.symbol s)
      else match prompt with
        | some prop => prop.visible
        | none => dep
  | none, some prop => prop.visible
  | none, none => dep

mutual

/-- Fold the dependencies of an entry and of everything below it. The entry itself
is folded with the types that are `known` while the menu around it goes through
its list, what is below it with those that have been found since. -/
def foldEntry (st : ParseState) (known : Types) (parentdep : Option Expr) (types : Types) :
    Entry → Entry
  | .mk sym file dep props list =>
      let basedep := baseDep st known parentdep dep
      let props := props.map fun prop =>
        { prop with visible := foldVisible st known sym basedep prop.visible }
      let types := choiceTypes st sym list types
      .mk sym file basedep props
        (foldEntries st types (parentDep st sym basedep props) types list)

def foldEntries (st : ParseState) (known : Types) (parentdep : Option Expr) (types : Types) :
    List Entry → List Entry
  | [] => []
  | entry :: rest =>
      foldEntry st known parentdep types entry ::
        foldEntries st known parentdep (entry.typesAfter st types) rest

end

/-! ## Reverse dependencies -/

/-- A `select` with its folded condition. -/
structure Select where
  selector : SymId
  target : SymId
  cond : Option Expr
deriving DecidableEq, Repr

/-- What `menu_finalize` adds to the `rev_dep` of a symbol: a select, or, for a
choice that is not optional, the condition of its prompt. -/
inductive RevDep where
  | select (sel : Select)
  | choice (target : SymId) (visible : Option Expr)
deriving DecidableEq, Repr

def RevDep.target : RevDep → SymId
  | .select sel => sel.target
  | .choice target _ => target

/-- The expression that is added. -/
def RevDep.expr (symbolMod : SymId) : RevDep → Option Expr
  | .select sel => exprAllocAnd (some (.symbol sel.selector)) sel.cond
  | .choice _ visible => exprAllocAnd visible (some (.symbol symbolMod))

/-- The selects of one folded entry. -/
def Entry.selects : Entry → List RevDep
  | .mk (some s) _ _ props _ => props.filterMap fun prop =>
      if prop.type = .select then
        (propGetSymbol prop).map fun target => .select ⟨s, target, prop.visible⟩
      else none
  | .mk none _ _ _ _ => []

/-- The last lines of `menu_finalize`. -/
def choiceRevDep (st : ParseState) (sym : Option SymId) (props : List Property) : List RevDep :=
  match sym, menuPrompt props with
  | some s, some prompt => if (st.sym s).optional then [] else [.choice s prompt.visible]
  | _, _ => []

mutual

/-- Everything `menu_finalize` adds below a folded entry, in its order: first
the selects of the entries of the list, then what lies deeper. -/
def Entry.revDeps (st : ParseState) : Entry → List RevDep
  | .mk sym _ _ props list =>
      list.flatMap Entry.selects ++ revDepsBelow st list ++ choiceRevDep st sym props

def revDepsBelow (st : ParseState) : List Entry → List RevDep
  | [] => []
  | entry :: rest => Entry.revDeps st entry ++ revDepsBelow st rest

end

mutual

/-- The `dir_dep` assignments of the entries without a list. -/
def Entry.dirDeps : Entry → List (SymId × Option Expr)
  | .mk (some s) _ dep _ [] => [(s, dep)]
  | .mk none _ _ _ [] => []
  | .mk _ _ _ _ (entry :: rest) => Entry.dirDeps entry ++ dirDepsBelow rest

def dirDepsBelow : List Entry → List (SymId × Option Expr)
  | [] => []
  | entry :: rest => Entry.dirDeps entry ++ dirDepsBelow rest

end

mutual

def Entry.toMenu : Entry → Menu
  | .mk sym file _ _ list => .mk sym file (toMenus list)

def toMenus : List Entry → List Menu
  | [] => []
  | entry :: rest => Entry.toMenu entry :: toMenus rest

end

/-- The types that the parser has set. -/
def ParseState.parsedTypes (st : ParseState) : Types := fun s => (st.sym s).type

/-- The types that `menu_finalize` leaves. -/
def ParseState.types (st : ParseState) : Types :=
  typesAfterAll st st.parsedTypes st.entries

/-- The folded entries of the tree. The root menu has a prompt without a
condition. -/
def ParseState.folded (st : ParseState) : List Entry :=
  foldEntries st st.parsedTypes none st.parsedTypes st.entries

/-- All that `menu_finalize` adds to a `rev_dep`. -/
def ParseState.revDeps (st : ParseState) : List RevDep :=
  st.folded.flatMap Entry.selects ++ revDepsBelow st st.folded

/-- The `rev_dep` that `menu_finalize` leaves in a symbol. -/
def ParseState.revDepOf (st : ParseState) (s : SymId) : Option Expr :=
  (st.revDeps.filter (·.target = s)).foldl
    (fun acc rev => exprAllocOr acc (rev.expr st.symbolMod)) none

/-- The `dir_dep` that `menu_finalize` leaves in a symbol: the dependency of its
last entry without a list. -/
def ParseState.dirDepOf (st : ParseState) (s : SymId) : Option Expr :=
  ((dirDepsBelow st.folded).filter (·.1 = s)).getLast?.bind (·.2)

/-- `conf_parse`, and `conf_read` with the values it computes. -/
def confParse (st : ParseState) (curr : SymId → SymbolValue) : Conf where
  symbols := st.symbols
  sym s :=
    { st.sym s with type := st.types s, dirDep := st.dirDepOf s, revDep := st.revDepOf s }
  curr := curr
  rootmenu := toMenus st.entries

/-! ## The selects of a tree -/

/-- The tree contains the select, with this folded condition. -/
def ParseState.HasSelect (st : ParseState) (sel : Select) : Prop :=
  RevDep.select sel ∈ st.revDeps

/-- The selector and the condition are not no. -/
def Select.Enabled (cf : Conf) (sel : Select) : Prop :=
  (cf.curr sel.selector).tri ≠ .no ∧ exprCalcValue cf sel.cond ≠ .no

instance (cf : Conf) (sel : Select) : Decidable (sel.Enabled cf) :=
  inferInstanceAs (Decidable (_ ∧ _))

end Pbs.Kconfig
