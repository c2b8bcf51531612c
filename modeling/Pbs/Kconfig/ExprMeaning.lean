import Pbs.Kconfig.ExprRewrite
import Mathlib.Tactic.IntervalCases

/-!
# What rewriting does to the value of an expression

`WellTyped` says what can be relied on of the values of symbols: the three constants have
theirs, and a boolean symbol is never `m`. Then `expr_eq` only accepts expressions with
the same value, and `expr_transform` and `expr_eliminate_yn` keep the value.

`expr_eliminate_dups` does not: it takes `(a || b) && (!a && !b)` for `n`, which is `m` for `a` at
`m` and `b` at `n`. What is kept is every value that is definite: an `m` may be replaced by `n` or
`y`, and nothing else is ever changed (`Refines`).
-/

namespace Pbs.Kconfig

open Spine

/-! ## Junctions of values -/

namespace Junction

/-- `EXPR_OR` or `EXPR_AND`. -/
def eval : Junction → Tristate → Tristate → Tristate
  | or => exprOr
  | and => exprAnd

/-- The value that makes no difference. -/
def one : Junction → Tristate
  | or => .no
  | and => .yes

variable (type : Junction)

instance : Std.Commutative type.eval where
  comm a b := by cases type <;> cases a <;> cases b <;> rfl

instance : Std.Associative type.eval where
  assoc a b c := by cases type <;> cases a <;> cases b <;> cases c <;> rfl

theorem eval_comm (a b : Tristate) : type.eval a b = type.eval b a :=
  Std.Commutative.comm a b

theorem eval_assoc (a b c : Tristate) : type.eval (type.eval a b) c = type.eval a (type.eval b c) :=
  Std.Associative.assoc a b c

theorem one_eval (a : Tristate) : type.eval type.one a = a := by
  cases type <;> cases a <;> rfl

theorem eval_one (a : Tristate) : type.eval a type.one = a := by
  rw [eval_comm, one_eval]

theorem eval_self (a : Tristate) : type.eval a a = a := by
  cases type <;> cases a <;> rfl

/-- The unit of the other junction decides. -/
theorem dual_one_eval (a : Tristate) : type.eval type.dual.one a = type.dual.one := by
  cases type <;> cases a <;> rfl

theorem eval_dual_one (a : Tristate) : type.eval a type.dual.one = type.dual.one := by
  rw [eval_comm, dual_one_eval]

theorem exprNot_eval (a b : Tristate) :
    exprNot (type.eval a b) = type.dual.eval (exprNot a) (exprNot b) := by
  cases type <;> cases a <;> cases b <;> rfl

end Junction

theorem exprNot_exprNot (a : Tristate) : exprNot (exprNot a) = a := by
  cases a <;> rfl

/-! ## Values of expressions -/

/-- What the rewriting relies on: symbols have the types that it has seen, as far as it has seen
any, `y`, `m` and `n` have no type and their values, boolean symbols are `n` or `y`, and different
constants are different texts. -/
structure WellTyped (st : SymInfo) (cf : Conf) : Prop where
  type : ∀ s, st.type s ≠ .unknown → (cf.sym s).type = st.type s
  untyped : ∀ s, IsConstant s → st.type s = .unknown
  yes : (cf.curr symbolYes).tri = .yes
  mod : (cf.curr symbolMod).tri = .mod
  no : (cf.curr symbolNo).tri = .no
  yes_string : symGetStringValue cf symbolYes = ['y']
  mod_string : symGetStringValue cf symbolMod = ['m']
  no_string : symGetStringValue cf symbolNo = ['n']
  boolean : ∀ s, st.type s = .boolean → (cf.curr s).tri ≠ .mod
  const : ∀ s s', st.const s → st.const s' →
    symGetStringValue cf s = symGetStringValue cf s' → s = s'

/-- The value of an expression. -/
abbrev Expr.value (cf : Conf) (e : Expr) : Tristate := exprCalcValue cf (some e)

section Values

variable {cf : Conf} {st : SymInfo} {e e1 e2 l r : Expr} {type : Junction}

@[simp] theorem value_symbol (s : SymId) : (Expr.symbol s).value cf = (cf.curr s).tri := rfl

@[simp] theorem value_not (e : Expr) : (Expr.not e).value cf = exprNot (e.value cf) := rfl

@[simp] theorem value_node (type : Junction) (l r : Expr) :
    (type.node l r).value cf = type.eval (l.value cf) (r.value cf) := by
  cases type <;> rfl

theorem value_and (l r : Expr) :
    (Expr.and l r).value cf = Junction.and.eval (l.value cf) (r.value cf) := rfl

theorem value_or (l r : Expr) : (Expr.or l r).value cf = Junction.or.eval (l.value cf)
    (r.value cf) := rfl

theorem value_equal (l r : SymId) : (Expr.equal l r).value cf =
    if symGetStringValue cf l = symGetStringValue cf r then .yes else .no := rfl

theorem value_unequal (l r : SymId) : (Expr.unequal l r).value cf =
    exprNot ((Expr.equal l r).value cf) := by
  show (if _ then _ else _) = exprNot (if _ then _ else _)
  split_ifs <;> rfl

theorem value_of_sides (h : type.sides e = some (l, r)) :
    e.value cf = type.eval (l.value cf) (r.value cf) := by
  rw [← Junction.node_sides h, value_node]

/-- The value of the symbol that makes no difference. -/
theorem WellTyped.value_unit (h : WellTyped st cf) (type : Junction) :
    (Expr.symbol type.unit).value cf = type.one := by
  cases type
  · exact h.no
  · exact h.yes

/-! ## expr_eliminate_yn -/

theorem value_foldYn (h : WellTyped st cf) (type : Junction) (l r : Expr) :
    (foldYn type l r).value cf = type.eval (l.value cf) (r.value cf) := by
  unfold foldYn
  split_ifs with hl hl' hr hr'
  · rw [hl, h.value_unit, type.dual_one_eval]
  · rw [hl', h.value_unit, type.one_eval]
  · rw [hr, h.value_unit, type.eval_dual_one]
  · rw [hr', h.value_unit, type.eval_one]
  · exact value_node type l r

theorem value_exprEliminateYn (h : WellTyped st cf) (e : Expr) :
    (exprEliminateYn e).value cf = e.value cf := by
  induction e with
  | and l r ihl ihr =>
      rw [exprEliminateYn, value_foldYn h, ihl, ihr]
      rfl
  | or l r ihl ihr =>
      rw [exprEliminateYn, value_foldYn h, ihl, ihr]
      rfl
  | _ => rfl

/-! ## expr_eq -/

/-- What has been taken out of two expressions: the same on both sides. -/
def TakenOut (cf : Conf) (type : Junction) (e1 e2 e1' e2' : Expr) : Prop :=
  ∃ k, e1.value cf = type.eval k (e1'.value cf) ∧ e2.value cf = type.eval k (e2'.value cf)

theorem TakenOut.refl (type : Junction) (e1 e2 : Expr) : TakenOut cf type e1 e2 e1 e2 :=
  ⟨type.one, (type.one_eval _).symm, (type.one_eval _).symm⟩

/-- Two expressions with the same value are replaced by the unit. -/
theorem WellTyped.takenOut_unit (h : WellTyped st cf) (type : Junction)
    (heq : e1.value cf = e2.value cf) :
    TakenOut cf type e1 e2 (.symbol type.unit) (.symbol type.unit) := by
  refine ⟨e1.value cf, ?_, ?_⟩
  · rw [h.value_unit, type.eval_one]
  · rw [h.value_unit, type.eval_one, heq]

theorem TakenOut.left {l' r' e2' e2'' : Expr} (hsides : type.sides e1 = some (l, r))
    (hl : TakenOut cf type l e2 l' e2') (hr : TakenOut cf type r e2' r' e2'') :
    TakenOut cf type e1 e2 (type.node l' r') e2'' := by
  rcases hl with ⟨k, hl, he2⟩
  rcases hr with ⟨k', hr, he2'⟩
  refine ⟨type.eval k k', ?_, ?_⟩
  · rw [value_of_sides hsides, value_node, hl, hr]
    ac_rfl
  · rw [he2, he2']
    ac_rfl

theorem TakenOut.symm {e1' e2' : Expr} (h : TakenOut cf type e1 e2 e1' e2') :
    TakenOut cf type e2 e1 e2' e1' := by
  rcases h with ⟨k, h1, h2⟩
  exact ⟨k, h2, h1⟩

theorem TakenOut.right {l' r' e1' e1'' : Expr} (hsides : type.sides e2 = some (l, r))
    (hl : TakenOut cf type e1 l e1' l') (hr : TakenOut cf type e1' r e1'' r') :
    TakenOut cf type e1 e2 e1'' (type.node l' r') :=
  (TakenOut.left hsides hl.symm hr.symm).symm

theorem eq_of_sameSymbol (h : sameSymbol e1 e2 = true) : e1 = e2 := by
  cases e1 <;> cases e2 <;> simp_all [sameSymbol]

/-- Two junctions of which the same is left over. -/
theorem TakenOut.value_eq (h : WellTyped st cf) {e1' e2' : Expr}
    (ht : TakenOut cf type e1 e2 e1' e2')
    (hsame : sameSymbol (exprEliminateYn e1') (exprEliminateYn e2') = true) :
    e1.value cf = e2.value cf := by
  rcases ht with ⟨k, h1, h2⟩
  rw [h1, h2, ← value_exprEliminateYn h e1', ← value_exprEliminateYn h e2', eq_of_sameSymbol hsame]

/-- One step of the recursion for each way through the two functions. -/
theorem WellTyped.exprEq_spec (h : WellTyped st cf) :
    (∀ type e1 e2, TakenOut cf type e1 e2 (eliminatedEq type e1 e2).1 (eliminatedEq type e1 e2).2) ∧
      ∀ e1 e2, exprEq e1 e2 = true → e1.value cf = e2.value cf := by
  apply exprEliminateEqOf.mutual_induct
  case case1 =>
    intro type e1 e2 l r hsides _ l' e2' hl he2 hleft _ _ _ _ _ ihl ihr
    have he2' : e2' = (eliminatedEq type l e2).2 := by rw [eliminatedEq, hleft]
    rw [eliminatedEq_left hsides]
    rw [he2'] at ihr
    exact .left hsides ihl ihr
  case case2 =>
    intro type e1 e2 h1 l r hsides _ e1' l' _ _ hleft _ _ _ _ _ ihl ihr
    have he1' : e1' = (eliminatedEq type e1 l).1 := by rw [eliminatedEq, hleft]
    rw [eliminatedEq_right h1 hsides]
    rw [he1'] at ihr
    exact .right hsides ihl ihr
  -- leaves
  case case3 =>
    intro type e1 e2 h1 h2 _ hsame
    rw [eliminatedEq_leaf h1 h2, if_pos hsame]
    exact .refl type e1 e2
  case case4 =>
    intro type e1 e2 h1 h2 _ hsame heq ih
    rw [eliminatedEq_leaf h1 h2, if_neg hsame, if_pos heq]
    -- leaves that are equal stand on both sides as the unit of the junction
    exact h.takenOut_unit type (ih heq)
  case case5 =>
    intro type e1 e2 h1 h2 _ hsame heq _
    rw [eliminatedEq_leaf h1 h2, if_neg hsame, if_neg heq]
    exact .refl type e1 e2
  -- from here on `expr_eq`
  case case6 =>
    intro l r l' r' heq
    simp only [exprEq, Bool.and_eq_true, beq_iff_eq] at heq
    rw [heq.1, heq.2]
  case case7 =>
    intro l r l' r' heq
    simp only [exprEq, Bool.and_eq_true, beq_iff_eq] at heq
    rw [heq.1, heq.2]
  case case8 =>
    intro s s' heq
    simp only [exprEq, beq_iff_eq] at heq
    rw [heq]
  case case9 =>
    intro e e' _ ih heq
    rw [exprEq] at heq
    rw [value_not, value_not, ih heq]
  case case10 =>
    intro l r l' r' _ ih heq
    rw [exprEq] at heq
    exact ih.value_eq h heq
  case case11 =>
    intro l r l' r' _ ih heq
    rw [exprEq] at heq
    exact ih.value_eq h heq
  case case12 =>
    intro e1 e2 h1 h2 h3 h4 h5 h6 heq
    rw [exprEq] at heq
    · cases heq
    all_goals assumption

theorem WellTyped.value_eq (h : WellTyped st cf) (heq : exprEq e1 e2 = true) :
    e1.value cf = e2.value cf :=
  h.exprEq_spec.2 e1 e2 heq

/-! ## expr_transform -/

theorem WellTyped.string_eq (h : WellTyped st cf) {s : SymId}
    (ht : st.type s = .boolean ∨ st.type s = .tristate) :
    (symGetStringValue cf s = ['y'] ↔ (cf.curr s).tri = .yes) ∧
      (symGetStringValue cf s = ['m'] ↔ (cf.curr s).tri = .mod) ∧
        (symGetStringValue cf s = ['n'] ↔ (cf.curr s).tri = .no) := by
  have htype : (cf.sym s).type = st.type s := by
    apply h.type
    rcases ht with ht | ht <;> simp [ht]
  rcases ht with ht | ht <;> simp only [symGetStringValue, htype, ht] <;>
    cases (cf.curr s).tri <;> simp

/-- A boolean or tristate symbol compared with a constant. -/
theorem WellTyped.value_equal_yes (h : WellTyped st cf) {s : SymId}
    (ht : st.type s = .boolean ∨ st.type s = .tristate) :
    (Expr.equal s symbolYes).value cf = if (cf.curr s).tri = .yes then .yes else .no := by
  rw [value_equal, h.yes_string]
  exact if_congr (h.string_eq ht).1 rfl rfl

theorem WellTyped.value_equal_mod (h : WellTyped st cf) {s : SymId}
    (ht : st.type s = .boolean ∨ st.type s = .tristate) :
    (Expr.equal s symbolMod).value cf = if (cf.curr s).tri = .mod then .yes else .no := by
  rw [value_equal, h.mod_string]
  exact if_congr (h.string_eq ht).2.1 rfl rfl

theorem WellTyped.value_equal_no (h : WellTyped st cf) {s : SymId}
    (ht : st.type s = .boolean ∨ st.type s = .tristate) :
    (Expr.equal s symbolNo).value cf = if (cf.curr s).tri = .no then .yes else .no := by
  rw [value_equal, h.no_string]
  exact if_congr (h.string_eq ht).2.2 rfl rfl

theorem value_transformEqual (h : WellTyped st cf) (l r : SymId) :
    (transformEqual st l r).value cf = (Expr.equal l r).value cf := by
  unfold transformEqual
  split_ifs with hb hno hmod hyes
  · rfl
  · have hb' := h.boolean l (not_not.mp hb)
    rw [hno, h.value_equal_no (.inl (not_not.mp hb)), value_not, value_symbol]
    revert hb'
    cases (cf.curr l).tri <;> simp [exprNot]
  · have hb' := h.boolean l (not_not.mp hb)
    rw [hmod, h.value_equal_mod (.inl (not_not.mp hb)), if_neg hb']
    exact h.no
  · have hb' := h.boolean l (not_not.mp hb)
    rw [hyes, h.value_equal_yes (.inl (not_not.mp hb)), value_symbol]
    revert hb'
    cases (cf.curr l).tri <;> simp
  · rfl

theorem value_transformNotSymbol (h : WellTyped st cf) (s : SymId) :
    (transformNotSymbol s).value cf = exprNot (cf.curr s).tri := by
  unfold transformNotSymbol
  split_ifs with hyes hmod hno
  · rw [hyes, h.yes]
    exact h.no
  · rw [hmod, h.mod]
    exact h.mod
  · rw [hno, h.no]
    exact h.yes
  · rfl

/-- On `!=`, the transformation does the same below a negation. -/
theorem value_transformUnequal (h : WellTyped st cf) (l r : SymId) :
    (transformUnequal st l r).value cf = (Expr.unequal l r).value cf := by
  rw [value_unequal, ← value_transformEqual h]
  unfold transformUnequal transformEqual
  split_ifs
  · exact value_unequal l r
  · rw [value_not, exprNot_exprNot]
  · rw [value_symbol, value_symbol, h.yes, h.no]
    rfl
  · rfl
  · exact value_unequal l r

/-- `expr_transform` keeps the value. -/
theorem value_exprTransform (h : WellTyped st cf) (e : Expr) :
    (exprTransform st e).1.value cf = e.value cf := by
  induction e using exprTransform.induct st with
  | case1 s =>
      rw [exprTransform]
  | case2 l r =>
      rw [exprTransform]
      exact value_transformEqual h l r
  | case3 l r =>
      rw [exprTransform]
      exact value_transformUnequal h l r
  | case4 l r _ _ l' _ r' _ hr hl ihl ihr =>
      rw [hl] at ihl
      rw [hr] at ihr
      rw [exprTransform, hl, hr]
      exact congrArg₂ Junction.and.eval ihl ihr
  | case5 l r _ _ l' _ r' _ hr hl ihl ihr =>
      rw [hl] at ihl
      rw [hr] at ihr
      rw [exprTransform, hl, hr]
      exact congrArg₂ Junction.or.eval ihl ihr
  -- a negation, for each form that its operand has come to
  | case6 e _ a _ he _ a' _ ha ihe iha =>
      rw [he] at ihe
      rw [ha] at iha
      simp only [exprTransform, he, ha]
      rw [iha, value_not, ← ihe, value_not, exprNot_exprNot]
  | case7 e _ l r _ he ih =>
      rw [he] at ih
      simp only [exprTransform, he]
      rw [value_unequal, ih, value_not]
  | case8 e _ l r _ he ih =>
      rw [he] at ih
      simp only [exprTransform, he]
      rw [value_not, ← ih, value_unequal, exprNot_exprNot]
  -- the rule of De Morgan, and the negated parts are transformed again
  | case9 e _ a b _ he _ e' _ hpush ihe ih =>
      rw [he] at ihe
      rw [hpush] at ih
      simp only [exprTransform, he, hpush]
      rw [ih, value_not, ← ihe, value_or, Junction.exprNot_eval]
      rfl
  | case10 e _ a b _ he _ e' _ hpush ihe ih =>
      rw [he] at ihe
      rw [hpush] at ih
      simp only [exprTransform, he, hpush]
      rw [ih, value_not, ← ihe, value_and, Junction.exprNot_eval]
      rfl
  | case11 e _ s _ he ih =>
      rw [he] at ih
      simp only [exprTransform, he]
      rw [value_transformNotSymbol h, value_not, ← ih, value_symbol]

/-! The shape that `expr_transform` brings an expression into. -/

/-- Negations stand before symbols other than `y`, `m` and `n` only, and no comparison has a boolean
symbol on its left and one of these on its right. -/
def Expr.Transformed (st : SymInfo) : Expr → Prop
  | .symbol _ => True
  | .not e => ∃ s, e = .symbol s ∧ ¬IsConstant s
  | .and l r => l.Transformed st ∧ r.Transformed st
  | .or l r => l.Transformed st ∧ r.Transformed st
  | .equal l r => st.type l = .boolean → ¬IsConstant r
  | .unequal l r => st.type l = .boolean → ¬IsConstant r

theorem WellTyped.not_isConstant (h : WellTyped st cf) {s : SymId} (hs : st.type s = .boolean) :
    ¬IsConstant s := by
  intro hconst
  have hunknown := h.untyped s hconst
  rw [hs] at hunknown
  cases hunknown

theorem transformed_transformEqual (h : WellTyped st cf) (l r : SymId) :
    (transformEqual st l r).Transformed st := by
  unfold transformEqual
  split_ifs with hb hno hmod hyes
  · exact fun h => absurd h hb
  · exact ⟨l, rfl, h.not_isConstant (not_not.mp hb)⟩
  · trivial
  · trivial
  · rintro - (h | h | h)
    · exact hyes h
    · exact hmod h
    · exact hno h

theorem transformed_transformUnequal (h : WellTyped st cf) (l r : SymId) :
    (transformUnequal st l r).Transformed st := by
  unfold transformUnequal
  split_ifs with hb hno hmod hyes
  · exact fun h => absurd h hb
  · trivial
  · trivial
  · exact ⟨l, rfl, h.not_isConstant (not_not.mp hb)⟩
  · rintro - (h | h | h)
    · exact hyes h
    · exact hmod h
    · exact hno h

theorem transformed_transformNotSymbol (s : SymId) : (transformNotSymbol s).Transformed st := by
  unfold transformNotSymbol
  split_ifs with hyes hmod hno
  · trivial
  · trivial
  · trivial
  · refine ⟨s, rfl, ?_⟩
    rintro (h | h | h)
    · exact hyes h
    · exact hmod h
    · exact hno h

theorem transformed_exprTransform (h : WellTyped st cf) (e : Expr) :
    (exprTransform st e).1.Transformed st := by
  induction e using exprTransform.induct st with
  | case1 s =>
      rw [exprTransform]
      trivial
  | case2 l r =>
      rw [exprTransform]
      exact transformed_transformEqual h l r
  | case3 l r =>
      rw [exprTransform]
      exact transformed_transformUnequal h l r
  | case4 l r _ _ l' _ r' _ hr hl ihl ihr =>
      rw [hl] at ihl
      rw [hr] at ihr
      rw [exprTransform, hl, hr]
      exact ⟨ihl, ihr⟩
  | case5 l r _ _ l' _ r' _ hr hl ihl ihr =>
      rw [hl] at ihl
      rw [hr] at ihr
      rw [exprTransform, hl, hr]
      exact ⟨ihl, ihr⟩
  | case6 e _ a _ he _ a' _ ha _ iha =>
      rw [ha] at iha
      simp only [exprTransform, he, ha]
      exact iha
  | case7 e _ l r _ he ih =>
      rw [he] at ih
      simp only [exprTransform, he]
      exact ih
  | case8 e _ l r _ he ih =>
      rw [he] at ih
      simp only [exprTransform, he]
      exact ih
  | case9 e _ a b _ he _ e' _ hpush _ ih =>
      rw [hpush] at ih
      simp only [exprTransform, he, hpush]
      exact ih
  | case10 e _ a b _ he _ e' _ hpush _ ih =>
      rw [hpush] at ih
      simp only [exprTransform, he, hpush]
      exact ih
  | case11 e _ s _ he _ =>
      simp only [exprTransform, he]
      exact transformed_transformNotSymbol s

/-- There is nothing left to do in this shape. -/
theorem exprTransform_of_transformed (he : e.Transformed st) : (exprTransform st e).1 = e := by
  induction e with
  | symbol s => rw [exprTransform]
  | equal l r =>
      rw [exprTransform]
      unfold transformEqual
      split_ifs with hb hno hmod hyes
      · rfl
      · exact absurd (.inr (.inr hno)) (he (not_not.mp hb))
      · exact absurd (.inr (.inl hmod)) (he (not_not.mp hb))
      · exact absurd (.inl hyes) (he (not_not.mp hb))
      · rfl
  | unequal l r =>
      rw [exprTransform]
      unfold transformUnequal
      split_ifs with hb hno hmod hyes
      · rfl
      · exact absurd (.inr (.inr hno)) (he (not_not.mp hb))
      · exact absurd (.inr (.inl hmod)) (he (not_not.mp hb))
      · exact absurd (.inl hyes) (he (not_not.mp hb))
      · rfl
  | and l r ihl ihr =>
      rw [exprTransform]
      exact congrArg₂ Expr.and (ihl he.1) (ihr he.2)
  | or l r ihl ihr =>
      rw [exprTransform]
      exact congrArg₂ Expr.or (ihl he.1) (ihr he.2)
  | not e _ =>
      rcases he with ⟨s, rfl, hs⟩
      rw [exprTransform, exprTransform]
      show transformNotSymbol s = _
      unfold transformNotSymbol
      rw [if_neg fun h => hs (.inl h), if_neg fun h => hs (.inr (.inl h)),
        if_neg fun h => hs (.inr (.inr h))]

/-! ## expr_join_or, expr_join_and -/

theorem isPair_iff {r1 r2 a b : SymId} :
    isPair r1 r2 a b = true ↔ (r1 = a ∧ r2 = b) ∨ (r1 = b ∧ r2 = a) := by
  simp [isPair]

theorem or_exprNot_of_ne_mod {a : Tristate} (ha : a ≠ .mod) :
    Junction.or.eval (exprNot a) a = .yes := by
  cases a
  · rfl
  · exact absurd rfl ha
  · rfl

theorem value_joinOrTests (h : WellTyped st cf) {sym : SymId} {tmp : Expr}
    (ht : st.type sym = .boolean ∨ st.type sym = .tristate)
    (h1 : testedLeft e1 = some sym) (h2 : testedRight e2 = some sym)
    (hjoin : joinOrTests st sym e1 e2 = some tmp) :
    tmp.value cf = Junction.or.eval (e1.value cf) (e2.value cf) := by
  unfold joinOrTests at hjoin
  split at hjoin
  · cases h1
    cases h2
    split_ifs at hjoin with htri hpair hpair hpair
    all_goals cases hjoin
    all_goals
      rcases isPair_iff.mp hpair with ⟨rfl, rfl⟩ | ⟨rfl, rfl⟩ <;>
      simp only [value_unequal, h.value_equal_yes ht, h.value_equal_mod ht, h.value_equal_no ht] <;>
      cases (cf.curr sym).tri <;> rfl
  · cases h1
    cases h2
    split_ifs at hjoin with hb
    cases hjoin
    rw [value_not, value_symbol, value_symbol, or_exprNot_of_ne_mod (h.boolean sym hb)]
    exact h.yes
  · cases h1
    cases h2
    split_ifs at hjoin with hb
    cases hjoin
    rw [value_not, value_symbol, value_symbol, Junction.eval_comm,
      or_exprNot_of_ne_mod (h.boolean sym hb)]
    exact h.yes
  · cases hjoin

/-- `a='b' && a!='c'` is `a='b'` for different constants, and `n` for the same. -/
theorem value_joinConstants (h : WellTyped st cf) {sym b c : SymId} {tmp : Expr}
    (hjoin : joinConstants st sym b c = some tmp) :
    tmp.value cf = Junction.and.eval ((Expr.equal sym b).value cf)
      ((Expr.unequal sym c).value cf) := by
  unfold joinConstants at hjoin
  split_ifs at hjoin with hconst hbc
  · cases hjoin
    rw [value_unequal, value_equal, value_equal]
    by_cases hb : symGetStringValue cf sym = symGetStringValue cf b
    · have hc : symGetStringValue cf sym ≠ symGetStringValue cf c := by
        intro hc
        exact hbc (h.const b c hconst.2 hconst.1 (hb.symm.trans hc))
      rw [if_pos hb, if_neg hc]
      rfl
    · rw [if_neg hb]
      split_ifs <;> rfl
  · cases hjoin
    rw [value_symbol, h.no, not_not.mp hbc, value_unequal]
    rw [value_equal]
    split_ifs <;> rfl

theorem value_joinAndTests (h : WellTyped st cf) {sym : SymId} {tmp : Expr}
    (ht : st.type sym = .boolean ∨ st.type sym = .tristate)
    (h1 : testedLeft e1 = some sym) (h2 : testedRight e2 = some sym)
    (hjoin : joinAndTests st sym e1 e2 = some tmp) :
    tmp.value cf = Junction.and.eval (e1.value cf) (e2.value cf) := by
  -- a test on both sides leaves few values of the symbol, and they are tried out
  unfold joinAndTests at hjoin
  split at hjoin
  · cases h1
    cases h2
    split_ifs at hjoin with hr
    cases hjoin
    rw [hr, value_symbol, h.value_equal_yes ht]
    cases (cf.curr sym).tri <;> rfl
  · cases h1
    cases h2
    split_ifs at hjoin with hr
    cases hjoin
    rw [hr, value_symbol, h.value_equal_yes ht]
    cases (cf.curr sym).tri <;> rfl
  · cases h1
    cases h2
    split_ifs at hjoin with hr hr
    · cases hjoin
      rw [hr, value_unequal, value_symbol, h.value_equal_no ht]
      cases (cf.curr sym).tri <;> rfl
    · cases hjoin
      rw [hr, value_unequal, value_symbol, h.value_equal_mod ht, h.value_equal_yes ht]
      cases (cf.curr sym).tri <;> rfl
  · cases h1
    cases h2
    split_ifs at hjoin with hr hr
    · cases hjoin
      rw [hr, value_unequal, value_symbol, h.value_equal_no ht]
      cases (cf.curr sym).tri <;> rfl
    · cases hjoin
      rw [hr, value_unequal, value_symbol, h.value_equal_mod ht, h.value_equal_yes ht]
      cases (cf.curr sym).tri <;> rfl
  · cases h1
    cases h2
    split_ifs at hjoin
    exact value_joinConstants h hjoin
  · cases h1
    cases h2
    split_ifs at hjoin
    -- the tests stand the other way around
    rw [Junction.eval_comm]
    exact value_joinConstants h hjoin
  · cases h1
    cases h2
    split_ifs at hjoin with htri hpair hpair hpair
    all_goals cases hjoin
    all_goals
      rcases isPair_iff.mp hpair with ⟨rfl, rfl⟩ | ⟨rfl, rfl⟩ <;>
      simp only [value_unequal, h.value_equal_yes ht, h.value_equal_mod ht, h.value_equal_no ht] <;>
      cases (cf.curr sym).tri <;> rfl
  · cases hjoin

/-- A joined expression has the value of the junction. -/
theorem value_exprJoin (h : WellTyped st cf) {tmp : Expr}
    (hjoin : exprJoin st type e1 e2 = some tmp) :
    tmp.value cf = type.eval (e1.value cf) (e2.value cf) := by
  cases type with
  | or =>
      rw [exprJoin, exprJoinOr] at hjoin
      split_ifs at hjoin with heq
      · cases hjoin
        rw [h.value_eq heq, Junction.eval_self]
      · split at hjoin
        · rename_i sym1 sym2 h1 h2
          split_ifs at hjoin with hne ht
          have hsym : sym1 = sym2 := not_not.mp hne
          exact value_joinOrTests h (by tauto) h1 (hsym ▸ h2) hjoin
        · cases hjoin
  | and =>
      rw [exprJoin, exprJoinAnd] at hjoin
      split_ifs at hjoin with heq
      · cases hjoin
        rw [h.value_eq heq, Junction.eval_self]
      · split at hjoin
        · rename_i sym1 sym2 h1 h2
          split_ifs at hjoin with hne ht
          have hsym : sym1 = sym2 := not_not.mp hne
          exact value_joinAndTests h (by tauto) h1 (hsym ▸ h2) hjoin
        · cases hjoin

/-! ## expr_extract_eq -/

theorem WellTyped.takenOut_extractedEq (h : WellTyped st cf) (type : Junction) (ep : Option Expr)
    (e1 e2 : Expr) :
    TakenOut cf type e1 e2 (extractedEq type ep e1 e2).1 (extractedEq type ep e1 e2).2 := by
  induction ep, e1, e2 using exprExtractEq.induct type with
  | case1 ep e1 e2 l r hsides _ l' e2' _ _ ep' hleft _ _ _ _ _ _ ihl ihr =>
      have he2' : e2' = (extractedEq type ep l e2).2 := by rw [extractedEq, hleft]
      have hep' : ep' = (exprExtractEq type ep l e2).eq := by rw [hleft]
      rw [extractedEq_left hsides]
      rw [he2', hep'] at ihr
      exact .left hsides ihl ihr
  | case2 ep e1 e2 h1 l r hsides _ e1' l' _ _ ep' hleft _ _ _ _ _ _ ihl ihr =>
      have he1' : e1' = (extractedEq type ep e1 l).1 := by rw [extractedEq, hleft]
      have hep' : ep' = (exprExtractEq type ep e1 l).eq := by rw [hleft]
      rw [extractedEq_right h1 hsides]
      rw [he1', hep'] at ihr
      exact .right hsides ihl ihr
  | case3 ep e1 e2 h1 h2 heq =>
      rw [extractedEq_leaf h1 h2, if_pos heq]
      exact h.takenOut_unit type (h.value_eq heq)
  | case4 ep e1 e2 h1 h2 heq =>
      rw [extractedEq_leaf h1 h2, if_neg heq]
      exact .refl type e1 e2

theorem WellTyped.takenOut_exprExtractEqOf (h : WellTyped st cf) (type : Junction) (e1 e2 : Expr) :
    TakenOut cf type e1 e2 (exprExtractEqOf type e1 e2).1 (exprExtractEqOf type e1 e2).2 := by
  rcases h.takenOut_extractedEq type none e1 e2 with ⟨k, h1, h2⟩
  rw [exprExtractEqOf]
  split
  · refine ⟨k, ?_, ?_⟩
    · rw [value_exprEliminateYn h]
      exact h1
    · rw [value_exprEliminateYn h]
      exact h2
  · exact ⟨k, h1, h2⟩

/-- Where all of the first expression occurs in the second one, it decides nothing more. -/
theorem WellTyped.eval_of_exprExtractEqOf (h : WellTyped st cf)
    (hunit : (exprExtractEqOf type e1 e2).1 = .symbol type.unit) :
    type.eval (e1.value cf) (e2.value cf) = e2.value cf := by
  rcases h.takenOut_exprExtractEqOf type e1 e2 with ⟨k, h1, h2⟩
  rw [hunit, h.value_unit, type.eval_one] at h1
  rw [h1, h2, ← type.eval_assoc, type.eval_self]

/-! ## Definite values -/

/-- The second value is the first one, or the first one is `m`. -/
def Tristate.Refines (a b : Tristate) : Prop := a = .mod ∨ a = b

instance (a b : Tristate) : Decidable (a.Refines b) := inferInstanceAs (Decidable (_ ∨ _))

theorem Tristate.Refines.refl (a : Tristate) : a.Refines a := .inr rfl

theorem Tristate.Refines.trans {a b c : Tristate} (hab : a.Refines b) (hbc : b.Refines c) :
    a.Refines c := by
  rcases hab with rfl | rfl
  · exact .inl rfl
  · exact hbc

theorem Tristate.Refines.eval {a a' : Tristate} (ha : a.Refines a') (type : Junction)
    (c : Tristate) :
    (type.eval c a).Refines (type.eval c a') := by
  rcases ha with rfl | rfl
  · cases type <;> cases c <;> cases a' <;> decide
  · exact .refl _

/-- What implies both a value and its negation is not definite, or decided. -/
theorem refines_dual_one {type : Junction} {a v : Tristate} (ha : type.eval a v = v)
    (hna : type.eval (exprNot a) v = v) : v.Refines type.dual.one := by
  revert ha hna
  cases type <;> cases a <;> cases v <;> decide

end Values

/-! ## Two symbols -/

/-- The constants, a boolean symbol and a tristate symbol. -/
def twoSymbols : SymInfo where
  type s := if s = 3 then .boolean else if s = 4 then .tristate else .unknown
  const s := s < 3

/-- A symbol without properties. -/
def plainSymbol (name : Text) (type : SymbolType) (value : SymbolValue) : Symbol × SymbolValue :=
  (⟨some name, type, false, false, true, [], none, none⟩, value)

/-- `A=y` and `T` with the given value. -/
def twoSymbolsAt (t : Tristate) : Conf :=
  Conf.ofTable
    [plainSymbol ['y'] .unknown ⟨['y'], .yes⟩, plainSymbol ['m'] .unknown ⟨['m'], .mod⟩,
      plainSymbol ['n'] .unknown ⟨['n'], .no⟩, plainSymbol ['A'] .boolean ⟨[], .yes⟩,
      plainSymbol ['T'] .tristate ⟨[], t⟩] []

theorem wellTyped_twoSymbols (t : Tristate) : WellTyped twoSymbols (twoSymbolsAt t) where
  type s _ := by
    match s with
    | 0 | 1 | 2 | 3 | 4 => rfl
    | s + 5 => rfl
  untyped := by
    rintro s (rfl | rfl | rfl) <;> rfl
  yes := rfl
  mod := rfl
  no := rfl
  yes_string := rfl
  mod_string := rfl
  no_string := rfl
  boolean s hs := by
    match s with
    | 3 =>
        show Tristate.yes ≠ .mod
        decide
    | 0 | 1 | 2 | 4 => cases hs
    | s + 5 => cases hs
  const s s' hs hs' heq := by
    have hs : s < 3 := of_decide_eq_true hs
    have hs' : s' < 3 := of_decide_eq_true hs'
    interval_cases s <;> interval_cases s' <;> first | rfl | cases heq

/-! ## What the rewriting keeps -/

theorem eliminatedEq_symbol (type : Junction) (s s' : SymId) :
    eliminatedEq type (.symbol s) (.symbol s') =
      if s = s' ∧ s ≠ symbolYes ∧ s ≠ symbolNo then (.symbol type.unit, .symbol type.unit)
      else (.symbol s, .symbol s') := by
  have hleaf : ∀ t, type.sides (.symbol t) = none := fun t => by cases type <;> rfl
  rw [eliminatedEq_leaf (hleaf s) (hleaf s')]
  by_cases hs : s = s'
  · subst hs
    by_cases hconst : s = symbolYes ∨ s = symbolNo
    · simp only [Expr.symbol.injEq, and_true, if_pos hconst, true_and, ← not_or, not_not.mpr hconst,
        if_false]
    · simp [exprEq, hconst, ← not_or]
  · simp [exprEq, hs]

/-- Both sides of `A && T` are taken out of `T && A`. -/
theorem eliminatedEq_swapped :
    eliminatedEq .and (.and (.symbol 3) (.symbol 4)) (.and (.symbol 4) (.symbol 3)) =
      (.and (.symbol symbolYes) (.symbol symbolYes),
        .and (.symbol symbolYes) (.symbol symbolYes)) := by
  have hleft : eliminatedEq .and (.symbol 3) (.and (.symbol 4) (.symbol 3)) =
      (.symbol symbolYes, .and (.symbol 4) (.symbol symbolYes)) := by
    rw [eliminatedEq_right rfl rfl]
    simp [eliminatedEq_symbol, symbolYes, symbolNo, Junction.unit, Junction.node]
  have hright : eliminatedEq .and (.symbol 4) (.and (.symbol 4) (.symbol symbolYes)) =
      (.symbol symbolYes, .and (.symbol symbolYes) (.symbol symbolYes)) := by
    rw [eliminatedEq_right rfl rfl]
    simp [eliminatedEq_symbol, symbolYes, symbolNo, Junction.unit, Junction.node]
  rw [eliminatedEq_left rfl, hleft]
  show (Expr.and _ (eliminatedEq .and (.symbol 4) _).1, (eliminatedEq .and (.symbol 4) _).2) = _
  rw [hright]

/-- Where `expr_eq` finds two expressions equal, they have the same value, as long as boolean
symbols are never `m`. -/
theorem exprEq_sound {st : SymInfo} {cf : Conf} (h : WellTyped st cf) {e1 e2 : Expr}
    (heq : exprEq e1 e2 = true) : exprCalcValue cf (some e1) = exprCalcValue cf (some e2) :=
  h.value_eq heq

theorem exprEq_sound_swapped :
    exprCalcValue (twoSymbolsAt .mod) (some (.and (.symbol 3) (.symbol 4))) =
      exprCalcValue (twoSymbolsAt .mod) (some (.and (.symbol 4) (.symbol 3))) := by
  have heq : exprEq (.and (.symbol 3) (.symbol 4)) (.and (.symbol 4) (.symbol 3)) = true := by
    rw [exprEq]
    show sameSymbol (exprEliminateYn (eliminatedEq .and _ _).1)
      (exprEliminateYn (eliminatedEq .and _ _).2) = true
    rw [eliminatedEq_swapped]
    rfl
  exact exprEq_sound (wellTyped_twoSymbols .mod) heq

/-- `expr_transform` keeps the value of every expression, brings it into the shape `Transformed`,
and changes nothing more when it is called again. -/
theorem exprTransform_correct {st : SymInfo} {cf : Conf} (h : WellTyped st cf) (e : Expr) :
    exprCalcValue cf (some (exprTransform st e).1) = exprCalcValue cf (some e) ∧
      (exprTransform st e).1.Transformed st ∧
        (exprTransform st (exprTransform st e).1).1 = (exprTransform st e).1 :=
  ⟨value_exprTransform h e, transformed_exprTransform h e,
    exprTransform_of_transformed (transformed_exprTransform h e)⟩

theorem exprTransform_correct_not_and :
    exprCalcValue (twoSymbolsAt .mod)
      (some (exprTransform twoSymbols (.not (.and (.symbol 3) (.symbol 4)))).1) =
      .mod := by
  rw [(exprTransform_correct (wellTyped_twoSymbols .mod) _).1]
  rfl

end Pbs.Kconfig
