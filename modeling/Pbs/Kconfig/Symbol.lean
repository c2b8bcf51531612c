import Mathlib.Data.Nat.Notation
import Mathlib.Logic.Basic

/-!
# Symbols, expressions and menus of a Kconfig tree

The data of `scripts/kconfig/expr.h` as `conf_parse` and `conf_read` leave it:
symbols with their properties and folded dependencies, the menu entries, and
the value of every symbol. Pointers to symbols are numbers; the symbol behind
one is looked up in a `Conf`.
-/

namespace Pbs.Kconfig

/-- Names and paths, as the characters of a C string. -/
abbrev Text := List Char

/-- The characters of a string constant. -/
def text (s : String) : Text := s.toList

/-- `struct symbol *`. -/
abbrev SymId := ℕ

/-! ## Tristate values -/

inductive Tristate where
  | no
  | mod
  | yes
deriving DecidableEq, Repr

/-- The number behind the enumerator. -/
def Tristate.toNat : Tristate → ℕ
  | .no => 0
  | .mod => 1
  | .yes => 2

/-- `EXPR_OR(dep1, dep2)`: the larger value. -/
def exprOr (dep1 dep2 : Tristate) : Tristate :=
  if dep2.toNat < dep1.toNat then dep1 else dep2

/-- `EXPR_AND(dep1, dep2)`: the smaller value. -/
def exprAnd (dep1 dep2 : Tristate) : Tristate :=
  if dep1.toNat < dep2.toNat then dep1 else dep2

/-- `EXPR_NOT(dep)`: `2 - dep`. -/
def exprNot : Tristate → Tristate
  | .no => .yes
  | .mod => .mod
  | .yes => .no

theorem exprOr_eq_no {a b : Tristate} : exprOr a b = .no ↔ a = .no ∧ b = .no := by
  cases a <;> cases b <;> decide

/-! ## Expressions -/

/-- `struct expr`, for the expressions the grammar builds for conditions. -/
inductive Expr where
  | symbol (sym : SymId)
  | not (e : Expr)
  | and (left right : Expr)
  | or (left right : Expr)
  | equal (left right : SymId)
  | unequal (left right : SymId)
deriving DecidableEq, Repr

/-- `expr_alloc_and`: a missing expression is neutral. -/
def exprAllocAnd : Option Expr → Option Expr → Option Expr
  | none, e2 => e2
  | some e1, none => some e1
  | some e1, some e2 => some (.and e1 e2)

/-- `expr_alloc_or`: a missing expression is neutral. -/
def exprAllocOr : Option Expr → Option Expr → Option Expr
  | none, e2 => e2
  | some e1, none => some e1
  | some e1, some e2 => some (.or e1 e2)

/-- `find_symbol`: the symbol occurs in the expression, comparisons aside. -/
def findSymbol (sym : SymId) : Option Expr → Bool
  | none => false
  | some e => go e
where
  go : Expr → Bool
    | .and l r => go l || go r
    | .or l r => go l || go r
    | .not e => go e
    | .symbol s => sym == s
    | .equal _ _ => false
    | .unequal _ _ => false

/-- `expr_contains_symbol`: the symbol occurs in the expression. -/
def exprContainsSymbol (dep : Option Expr) (sym : SymId) : Bool :=
  match dep with
  | none => false
  | some e => go e
where
  go : Expr → Bool
    | .and l r => go l || go r
    | .or l r => go l || go r
    | .symbol s => s == sym
    | .equal l r => l == sym || r == sym
    | .unequal l r => l == sym || r == sym
    | .not e => go e

/-! ## Symbols -/

inductive SymbolType where
  | unknown
  | boolean
  | tristate
  | int
  | hex
  | string
  | other
deriving DecidableEq, Repr

inductive PropType where
  | unknown
  | prompt
  | comment
  | menu
  | default
  | choice
  | select
  | range
  | env
  | symbol
deriving DecidableEq, Repr

/-- The expression of a property: a condition (`P_DEFAULT`), a symbol
(`P_SELECT`, and `P_CHOICE` of a choice value), or the `E_LIST` of its values
(`P_CHOICE` of a choice). -/
inductive PropExpr where
  | expr (e : Expr)
  | list (syms : List SymId)
deriving DecidableEq, Repr

/-- `struct property`. -/
structure Property where
  type : PropType
  visible : Option Expr
  expr : Option PropExpr
deriving DecidableEq, Repr

/-- `prop_get_symbol`, for a property whose expression is a single symbol. -/
def propGetSymbol (prop : Property) : Option SymId :=
  match prop.expr with
  | some (.expr (.symbol s)) => some s
  | _ => none

/-- `struct symbol`, without its value. Of the flags, `choice` marks the symbol
of a choice block, `choiceval` one of its values, and `optional` is set for
every `config` entry. -/
structure Symbol where
  name : Option Text
  type : SymbolType
  choice : Bool
  choiceval : Bool
  optional : Bool
  prop : List Property
  dirDep : Option Expr
  revDep : Option Expr

/-- `struct symbol_value`. -/
structure SymbolValue where
  val : Text
  tri : Tristate

/-- `struct menu`, with the entries below it. -/
inductive Menu where
  | mk (sym : Option SymId) (file : Text) (list : List Menu)

/-- The state `conf_parse` and `conf_read` leave: the symbols with their
current values, in the order of `for_all_symbols`, and the entries below
`rootmenu`. -/
structure Conf where
  symbols : List SymId
  sym : SymId → Symbol
  curr : SymId → SymbolValue
  rootmenu : List Menu

/-- A state given by a table of symbols and their values. -/
def Conf.ofTable (table : List (Symbol × SymbolValue)) (rootmenu : List Menu) : Conf where
  symbols := List.range table.length
  sym s := match table[s]? with
    | some (symbol, _) => symbol
    | none => ⟨none, .unknown, false, false, false, [], none, none⟩
  curr s := match table[s]? with
    | some (_, value) => value
    | none => ⟨[], .no⟩
  rootmenu := rootmenu

/-- A `config` entry of type `bool` with the value yes. -/
def boolSymbol (name : Text) (dirDep revDep : Option Expr) : Symbol × SymbolValue :=
  (⟨some name, .boolean, false, false, true, [], dirDep, revDep⟩, ⟨[], .yes⟩)

/-! ## Values of expressions -/

/-- `sym_get_string_value`. -/
def symGetStringValue (cf : Conf) (s : SymId) : Text :=
  match (cf.sym s).type with
  | .boolean | .tristate =>
      match (cf.curr s).tri with
      | .no => ['n']
      | .mod => ['m']
      | .yes => ['y']
  | _ => (cf.curr s).val

/-- `expr_calc_value` once every symbol has been calculated. -/
def exprCalcValue (cf : Conf) : Option Expr → Tristate
  | none => .yes
  | some e => go e
where
  go : Expr → Tristate
    | .symbol s => (cf.curr s).tri
    | .and l r => exprAnd (go l) (go r)
    | .or l r => exprOr (go l) (go r)
    | .not e => exprNot (go e)
    | .equal l r => if symGetStringValue cf l = symGetStringValue cf r then .yes else .no
    | .unequal l r => if symGetStringValue cf l = symGetStringValue cf r then .no else .yes

end Pbs.Kconfig
