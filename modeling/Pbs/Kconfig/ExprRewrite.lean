import Pbs.Kconfig.Symbol
import Pbs.Lib.Spine
import Mathlib.Tactic.Ring

/-!
# Rewriting expressions

The functions of `scripts/kconfig/expr.c` that simplify a condition: `expr_eliminate_yn`,
`expr_eq` with `expr_eliminate_eq`, `expr_transform`, `expr_trans_bool`,
`expr_trans_compare`, and `expr_eliminate_dups` with what it is made of. Where the source
changes an expression through a `struct expr **`, the changed expressions are returned;
a copy is the expression itself, and nothing is freed.
-/

namespace Pbs.Kconfig

open Spine

/-! ## Symbols and types of expressions -/

/-- `symbol_yes` -/
def symbolYes : SymId := 0

/-- `symbol_mod` -/
def symbolMod : SymId := 1

/-- `symbol_no` -/
def symbolNo : SymId := 2

/-- One of `symbol_yes`, `symbol_mod` and `symbol_no`. -/
def IsConstant (s : SymId) : Prop := s = symbolYes ∨ s = symbolMod ∨ s = symbolNo

/-- What the rewriting looks at in a symbol: its type and `SYMBOL_CONST`. -/
structure SymInfo where
  type : SymId → SymbolType
  const : SymId → Bool

/-- The two values of `enum expr_type` with expressions on both sides. -/
inductive Junction where
  | or
  | and
deriving DecidableEq, Repr

namespace Junction

def dual : Junction → Junction
  | or => and
  | and => or

/-- `expr_alloc_two`. -/
def node : Junction → Expr → Expr → Expr
  | or, l, r => .or l r
  | and, l, r => .and l r

/-- `left.expr` and `right.expr` of an expression of this type. -/
def sides : Junction → Expr → Option (Expr × Expr)
  | or, .or l r => some (l, r)
  | and, .and l r => some (l, r)
  | _, _ => none

/-- The symbol that makes no difference. -/
def unit : Junction → SymId
  | or => symbolNo
  | and => symbolYes

end Junction

/-- `e->type`, for the two types that have expressions on both sides. -/
def Expr.junction : Expr → Option Junction
  | .or _ _ => some .or
  | .and _ _ => some .and
  | _ => none

/-- The number of nodes. -/
def Expr.size : Expr → ℕ
  | .symbol _ => 1
  | .not e => e.size + 1
  | .and l r => l.size + r.size + 1
  | .or l r => l.size + r.size + 1
  | .equal _ _ => 1
  | .unequal _ _ => 1

theorem Expr.size_pos (e : Expr) : 0 < e.size := by
  cases e <;> simp only [Expr.size] <;> omega

@[simp] theorem Junction.sides_node (type : Junction) (l r : Expr) :
    type.sides (type.node l r) = some (l, r) := by
  cases type <;> rfl

theorem Junction.size_node (type : Junction) (l r : Expr) :
    (type.node l r).size = l.size + r.size + 1 := by
  cases type <;> rfl

theorem Junction.node_sides {type : Junction} {e l r : Expr} (h : type.sides e = some (l, r)) :
    type.node l r = e := by
  cases type <;> cases e <;> cases h <;> rfl

/-- The operator behind `e->type == type`. -/
def Junction.operator (type : Junction) : Operator Expr where
  node := type.node
  sides := type.sides
  size := Expr.size
  sides_node := type.sides_node
  node_sides := type.node_sides
  size_node := type.size_node

/-- `expr_is_yes`. -/
def exprIsYes : Option Expr → Bool
  | none => true
  | some e => e = .symbol symbolYes

/-! ## expr_eliminate_yn -/

/-- A node of which one side may be constant: `symbol_no` and `symbol_yes` decide it or make
no difference. -/
def foldYn (type : Junction) (l r : Expr) : Expr :=
  if l = .symbol type.dual.unit then .symbol type.dual.unit
  else if l = .symbol type.unit then r
  else if r = .symbol type.dual.unit then .symbol type.dual.unit
  else if r = .symbol type.unit then l
  else type.node l r

/-- `expr_eliminate_yn`. -/
def exprEliminateYn : Expr → Expr
  | .and l r => foldYn .and (exprEliminateYn l) (exprEliminateYn r)
  | .or l r => foldYn .or (exprEliminateYn l) (exprEliminateYn r)
  | e => e

theorem foldYn_size_le (type : Junction) (l r : Expr) :
    (foldYn type l r).size ≤ l.size + r.size + 1 := by
  unfold foldYn
  split_ifs
  · have := l.size_pos
    simp only [Expr.size]
    omega
  · omega
  · have := l.size_pos
    simp only [Expr.size]
    omega
  · omega
  · cases type <;> exact Nat.le_refl _

theorem exprEliminateYn_size_le (e : Expr) : (exprEliminateYn e).size ≤ e.size := by
  induction e with
  | and l r ihl ihr =>
      have := foldYn_size_le .and (exprEliminateYn l) (exprEliminateYn r)
      simp only [exprEliminateYn, Expr.size]
      omega
  | or l r ihl ihr =>
      have := foldYn_size_le .or (exprEliminateYn l) (exprEliminateYn r)
      simp only [exprEliminateYn, Expr.size]
      omega
  | _ => exact Nat.le_refl _

/-! ## expr_eq -/

/-- Two expressions that take the place of others, none of them larger than before. -/
structure NoLarger (e1 e2 : Expr) where
  fst : Expr
  snd : Expr
  fst_le : fst.size ≤ e1.size
  snd_le : snd.size ≤ e2.size

theorem Junction.size_of_sides {type : Junction} {e l r : Expr} (h : type.sides e = some (l, r)) :
    e.size = l.size + r.size + 1 := by
  rw [← Junction.node_sides h, Junction.size_node]

/-- How far `exprEq` and `exprEliminateEqOf` are from a smaller pair of expressions. -/
def eqRank (type : Junction) (e1 e2 : Expr) : ℕ :=
  if (type.sides e1).isSome || (type.sides e2).isSome then 0 else 2

theorem one_lt_eqRank {type : Junction} {e1 e2 : Expr} (h1 : type.sides e1 = none)
    (h2 : type.sides e2 = none) : 1 < eqRank type e1 e2 := by
  rw [eqRank, h1, h2]
  decide

theorem eqRank_node_lt_one (type : Junction) (l r e2 : Expr) :
    eqRank type (type.node l r) e2 < 1 := by
  rw [eqRank, type.sides_node]
  exact Nat.zero_lt_one

/-- Both expressions are the same symbol. -/
def sameSymbol : Expr → Expr → Bool
  | .symbol s, .symbol s' => s == s'
  | _, _ => false

mutual

/-- `__expr_eliminate_eq`: what occurs on both sides is replaced by a constant. -/
def exprEliminateEqOf (type : Junction) (e1 e2 : Expr) : NoLarger e1 e2 :=
  match h1 : type.sides e1 with
  | some (l, r) =>
      have hsize := Junction.size_of_sides h1
      match exprEliminateEqOf type l e2 with
      | ⟨l', e2', hl, he2⟩ =>
          match exprEliminateEqOf type r e2' with
          | ⟨r', e2'', hr, he2'⟩ =>
              ⟨type.node l' r', e2'', by rw [type.size_node]; omega, by omega⟩
  | none =>
      match h2 : type.sides e2 with
      | some (l, r) =>
          have hsize := Junction.size_of_sides h2
          match exprEliminateEqOf type e1 l with
          | ⟨e1', l', he1, hl⟩ =>
              match exprEliminateEqOf type e1' r with
              | ⟨e1'', r', he1', hr⟩ =>
                  ⟨e1'', type.node l' r', by omega, by rw [type.size_node]; omega⟩
      | none =>
          have hrank := one_lt_eqRank h1 h2
          if (e1 = .symbol symbolYes ∨ e1 = .symbol symbolNo) ∧ e1 = e2 then
            ⟨e1, e2, Nat.le_refl _, Nat.le_refl _⟩
          else if exprEq e1 e2 then
            ⟨.symbol type.unit, .symbol type.unit, e1.size_pos, e2.size_pos⟩
          else ⟨e1, e2, Nat.le_refl _, Nat.le_refl _⟩
termination_by (e1.size + e2.size, eqRank type e1 e2)

/-- `expr_eq`. -/
def exprEq (e1 e2 : Expr) : Bool :=
  match e1, e2 with
  | .equal l r, .equal l' r' => l == l' && r == r'
  | .unequal l r, .unequal l' r' => l == l' && r == r'
  | .symbol s, .symbol s' => s == s'
  | .not e, .not e' =>
      have hsize : e.size + e'.size < e.not.size + e'.not.size := by
        simp only [Expr.size]
        omega
      exprEq e e'
  | .and l r, .and l' r' =>
      have hrank := eqRank_node_lt_one .and l r (.and l' r')
      let es := exprEliminateEqOf .and (.and l r) (.and l' r')
      sameSymbol (exprEliminateYn es.fst) (exprEliminateYn es.snd)
  | .or l r, .or l' r' =>
      have hrank := eqRank_node_lt_one .or l r (.or l' r')
      let es := exprEliminateEqOf .or (.or l r) (.or l' r')
      sameSymbol (exprEliminateYn es.fst) (exprEliminateYn es.snd)
  | _, _ => false
termination_by (e1.size + e2.size, 1)

end

section

variable {type : Junction} {e1 e2 l r : Expr}

/-- What `exprEliminateEqOf` returns, without the bounds. -/
def eliminatedEq (type : Junction) (e1 e2 : Expr) : Expr × Expr :=
  ((exprEliminateEqOf type e1 e2).fst, (exprEliminateEqOf type e1 e2).snd)

theorem eliminatedEq_left (h : type.sides e1 = some (l, r)) :
    eliminatedEq type e1 e2 =
      let left := eliminatedEq type l e2
      let right := eliminatedEq type r left.2
      (type.node left.1 right.1, right.2) := by
  unfold eliminatedEq
  rw [exprEliminateEqOf]
  split
  · rename_i l' r' h'
    rw [h] at h'
    cases h'
    rfl
  · rename_i h'
    rw [h] at h'
    cases h'

theorem eliminatedEq_right (h1 : type.sides e1 = none) (h : type.sides e2 = some (l, r)) :
    eliminatedEq type e1 e2 =
      let left := eliminatedEq type e1 l
      let right := eliminatedEq type left.1 r
      (right.1, type.node left.2 right.2) := by
  unfold eliminatedEq
  rw [exprEliminateEqOf]
  split
  · rename_i h'
    rw [h1] at h'
    cases h'
  · split
    · rename_i h'
      rw [h] at h'
      cases h'
      rfl
    · rename_i h'
      rw [h] at h'
      cases h'

theorem eliminatedEq_leaf (h1 : type.sides e1 = none) (h2 : type.sides e2 = none) :
    eliminatedEq type e1 e2 =
      if (e1 = .symbol symbolYes ∨ e1 = .symbol symbolNo) ∧ e1 = e2 then (e1, e2)
      else if exprEq e1 e2 then (.symbol type.unit, .symbol type.unit)
      else (e1, e2) := by
  unfold eliminatedEq
  rw [exprEliminateEqOf]
  split
  · rename_i h'
    rw [h1] at h'
    cases h'
  · split
    · rename_i h'
      rw [h2] at h'
      cases h'
    · split_ifs <;> rfl

end

/-- `expr_eliminate_eq`. -/
def exprEliminateEq (e1 e2 : Expr) : Expr × Expr :=
  let (e1, e2) := match e1.junction with
    | some type => let es := exprEliminateEqOf type e1 e2; (es.fst, es.snd)
    | none => (e1, e2)
  let (e1, e2) := match e2.junction with
    | some type =>
        if e1.junction = some type then (e1, e2)
        else let es := exprEliminateEqOf type e1 e2; (es.fst, es.snd)
    | none => (e1, e2)
  (exprEliminateYn e1, exprEliminateYn e2)

/-! ## expr_transform -/

/-- What bounds the depth of `expr_transform`: a negation may move past any node below it. -/
def Expr.weight : Expr → ℕ
  | .symbol _ => 2
  | .not e => e.weight * e.weight
  | .and l r => l.weight + r.weight + 1
  | .or l r => l.weight + r.weight + 1
  | .equal _ _ => 5
  | .unequal _ _ => 5

theorem Expr.two_le_weight (e : Expr) : 2 ≤ e.weight := by
  induction e with
  | not e ih => exact Nat.le_trans ih (Nat.le_mul_of_pos_left _ (by omega))
  | _ => simp only [Expr.weight]; omega

/-- `expr_transform` on `left='right'`. -/
def transformEqual (st : SymInfo) (left right : SymId) : Expr :=
  if st.type left ≠ .boolean then .equal left right
  else if right = symbolNo then .not (.symbol left)
  else if right = symbolMod then .symbol symbolNo
  else if right = symbolYes then .symbol left
  else .equal left right

/-- `expr_transform` on `left!='right'`. -/
def transformUnequal (st : SymInfo) (left right : SymId) : Expr :=
  if st.type left ≠ .boolean then .unequal left right
  else if right = symbolNo then .symbol left
  else if right = symbolMod then .symbol symbolYes
  else if right = symbolYes then .not (.symbol left)
  else .unequal left right

/-- `expr_transform` on `!'s'`. -/
def transformNotSymbol (s : SymId) : Expr :=
  if s = symbolYes then .symbol symbolNo
  else if s = symbolMod then .symbol symbolMod
  else if s = symbolNo then .symbol symbolYes
  else .not (.symbol s)

theorem transformEqual_weight_le (st : SymInfo) (left right : SymId) :
    (transformEqual st left right).weight ≤ 5 := by
  unfold transformEqual
  split_ifs <;> simp [Expr.weight]

theorem transformUnequal_weight_le (st : SymInfo) (left right : SymId) :
    (transformUnequal st left right).weight ≤ 5 := by
  unfold transformUnequal
  split_ifs <;> simp [Expr.weight]

theorem transformNotSymbol_weight_le (s : SymId) : (transformNotSymbol s).weight ≤ 4 := by
  unfold transformNotSymbol
  split_ifs <;> simp [Expr.weight]

theorem Expr.weight_lt_not (e : Expr) : e.weight < e.not.weight := by
  have := Nat.mul_le_mul e.two_le_weight (Nat.le_refl e.weight)
  have := e.two_le_weight
  simp only [Expr.weight]
  omega

/-- A negation weighs more than the negations of what is below it. -/
theorem Expr.weight_push_lt (a : Expr) {b e : Expr} (h : a.weight + b.weight + 1 ≤ e.weight) :
    a.not.weight + b.not.weight + 1 < e.not.weight := by
  have := Nat.mul_le_mul h h
  have := a.two_le_weight
  have hsquare : (a.weight + b.weight + 1) * (a.weight + b.weight + 1) =
      a.weight * a.weight + b.weight * b.weight + 1 +
        2 * (a.weight * b.weight) + 2 * a.weight + 2 * b.weight := by ring
  simp only [Expr.weight]
  omega

/-- `expr_transform`. -/
def exprTransform (st : SymInfo) (e : Expr) : { e' : Expr // e'.weight ≤ e.weight } :=
  match e with
  | .symbol s => ⟨.symbol s, Nat.le_refl _⟩
  | .equal l r => ⟨transformEqual st l r, transformEqual_weight_le st l r⟩
  | .unequal l r => ⟨transformUnequal st l r, transformUnequal_weight_le st l r⟩
  | .and l r =>
      have hl : l.weight < (l.and r).weight := by simp only [Expr.weight]; omega
      have hr : r.weight < (l.and r).weight := by simp only [Expr.weight]; omega
      match exprTransform st l, exprTransform st r with
      | ⟨l', hl'⟩, ⟨r', hr'⟩ => ⟨.and l' r', by simp only [Expr.weight]; omega⟩
  | .or l r =>
      have hl : l.weight < (l.or r).weight := by simp only [Expr.weight]; omega
      have hr : r.weight < (l.or r).weight := by simp only [Expr.weight]; omega
      match exprTransform st l, exprTransform st r with
      | ⟨l', hl'⟩, ⟨r', hr'⟩ => ⟨.or l' r', by simp only [Expr.weight]; omega⟩
  | .not e =>
      have he := e.weight_lt_not
      match exprTransform st e with
      | ⟨.not a, h⟩ =>
          -- !!a -> a
          have ha := a.weight_lt_not
          match exprTransform st a with
          | ⟨a', ha'⟩ => ⟨a', by omega⟩
      | ⟨.equal l r, h⟩ => ⟨.unequal l r, Nat.le_trans h (Nat.le_of_lt he)⟩
      | ⟨.unequal l r, h⟩ => ⟨.equal l r, Nat.le_trans h (Nat.le_of_lt he)⟩
      | ⟨.or a b, h⟩ =>
          -- !(a || b) -> !a && !b
          have hlt := a.weight_push_lt h
          match exprTransform st (.and (.not a) (.not b)) with
          | ⟨e', he'⟩ => ⟨e', Nat.le_trans he' (Nat.le_of_lt hlt)⟩
      | ⟨.and a b, h⟩ =>
          -- !(a && b) -> !a || !b
          have hlt := a.weight_push_lt h
          match exprTransform st (.or (.not a) (.not b)) with
          | ⟨e', he'⟩ => ⟨e', Nat.le_trans he' (Nat.le_of_lt hlt)⟩
      | ⟨.symbol s, h⟩ =>
          ⟨transformNotSymbol s,
            Nat.le_trans (transformNotSymbol_weight_le s)
              (Nat.mul_le_mul e.two_le_weight e.two_le_weight)⟩
termination_by e.weight

/-! ## expr_trans_bool, expr_trans_compare -/

/-- `expr_trans_bool`. -/
def exprTransBool (st : SymInfo) : Expr → Expr
  | .and l r => .and (exprTransBool st l) (exprTransBool st r)
  | .or l r => .or (exprTransBool st l) (exprTransBool st r)
  | .not e => .not (exprTransBool st e)
  | .unequal l r => if st.type l = .tristate ∧ r = symbolNo then .symbol l else .unequal l r
  | e => e

/-- `E_EQUAL` and `E_UNEQUAL`, the types of comparisons. -/
inductive Comparison where
  | equal
  | unequal
deriving DecidableEq, Repr

namespace Comparison

def flip : Comparison → Comparison
  | equal => unequal
  | unequal => equal

/-- `expr_alloc_comp`. -/
def comp : Comparison → SymId → SymId → Expr
  | equal, l, r => .equal l r
  | unequal, l, r => .unequal l r

/-- `if (type == E_UNEQUAL) e = expr_alloc_one(E_NOT, e)`. -/
def negate : Comparison → Expr → Expr
  | equal, e => e
  | unequal, e => .not e

end Comparison

/-- `expr_trans_compare`, for an expression. -/
def exprTransCompareOf (sym : SymId) : Expr → Comparison → Option Expr
  | .and l r, type => do
      let e1 ← exprTransCompareOf sym l .equal
      let e2 ← exprTransCompareOf sym r .equal
      some (type.negate
        (if sym = symbolNo then .or e1 e2 else if sym = symbolYes then .and e1 e2 else .and l r))
  | .or l r, type => do
      let e1 ← exprTransCompareOf sym l .equal
      let e2 ← exprTransCompareOf sym r .equal
      some (type.negate
        (if sym = symbolNo then .and e1 e2 else if sym = symbolYes then .or e1 e2 else .or l r))
  | .not e, type => exprTransCompareOf sym e type.flip
  | .symbol s, type => some (type.comp s sym)
  | e, .equal =>
      if sym = symbolYes then some e
      else if sym = symbolMod then some (.symbol symbolNo)
      else if sym = symbolNo then some (.not e)
      else none
  | e, .unequal =>
      if sym = symbolYes then some (.not e)
      else if sym = symbolMod then some (.symbol symbolYes)
      else if sym = symbolNo then some e
      else none

/-- `expr_trans_compare`. -/
def exprTransCompare (e : Option Expr) (type : Comparison) (sym : SymId) : Option Expr :=
  match e with
  | none => some (type.negate (.symbol sym))
  | some e => exprTransCompareOf sym e type

/-! ## Joining the two sides of a junction -/

/-- `sym1` and `sym2` of the functions below: the symbol that is tested, and whether the
test may be joined with another one. -/
def testedLeft : Expr → Option SymId
  | .symbol s => some s
  | .equal l _ => some l
  | .unequal l _ => some l
  | .not (.symbol s) => some s
  | .not (.equal l _) => some l
  | .not (.unequal l _) => some l
  | _ => none

def testedRight : Expr → Option SymId
  | .symbol s => some s
  | .equal l _ => some l
  | .unequal l _ => some l
  | .not (.symbol s) => some s
  | _ => none

/-- Two symbols, in either order. -/
def isPair (r1 r2 a b : SymId) : Bool := (r1 = a ∧ r2 = b) ∨ (r1 = b ∧ r2 = a)

/-- The tests of one symbol that `expr_join_or` joins. -/
def joinOrTests (st : SymInfo) (sym : SymId) (e1 e2 : Expr) : Option Expr :=
  match e1, e2 with
  | .equal _ r1, .equal _ r2 =>
      if st.type sym ≠ .tristate then none
      else if isPair r1 r2 symbolYes symbolMod then some (.unequal sym symbolNo)
      else if isPair r1 r2 symbolYes symbolNo then some (.unequal sym symbolMod)
      else if isPair r1 r2 symbolMod symbolNo then some (.unequal sym symbolYes)
      else none
  | .not (.symbol _), .symbol _ | .symbol _, .not (.symbol _) =>
      if st.type sym = .boolean then some (.symbol symbolYes) else none
  | _, _ => none

/-- `expr_join_or`. -/
def exprJoinOr (st : SymInfo) (e1 e2 : Expr) : Option Expr :=
  if exprEq e1 e2 then some e1
  else
    match testedLeft e1, testedRight e2 with
    | some sym1, some sym2 =>
        if sym1 ≠ sym2 then none
        else if st.type sym1 ≠ .boolean ∧ st.type sym1 ≠ .tristate then none
        else joinOrTests st sym1 e1 e2
    | _, _ => none

/-- `a='b' && a!='c'`, where both are constants. -/
def joinConstants (st : SymInfo) (sym b c : SymId) : Option Expr :=
  if st.const c ∧ st.const b then
    some (if b ≠ c then .equal sym b else .symbol symbolNo)
  else none

/-- The tests of one symbol that `expr_join_and` joins. -/
def joinAndTests (st : SymInfo) (sym : SymId) (e1 e2 : Expr) : Option Expr :=
  match e1, e2 with
  | .symbol _, .equal _ r | .equal _ r, .symbol _ =>
      if r = symbolYes then some (.equal sym symbolYes) else none
  | .symbol _, .unequal _ r | .unequal _ r, .symbol _ =>
      if r = symbolNo then some (.symbol sym)
      else if r = symbolMod then some (.equal sym symbolYes)
      else none
  | .equal _ b, .unequal _ c | .unequal _ c, .equal _ b =>
      if st.type sym = .tristate then joinConstants st sym b c else none
  | .unequal _ r1, .unequal _ r2 =>
      if st.type sym ≠ .tristate then none
      else if isPair r1 r2 symbolYes symbolNo then some (.equal sym symbolMod)
      else if isPair r1 r2 symbolYes symbolMod then some (.equal sym symbolNo)
      else if isPair r1 r2 symbolMod symbolNo then some (.equal sym symbolYes)
      else none
  | _, _ => none

/-- `expr_join_and`. -/
def exprJoinAnd (st : SymInfo) (e1 e2 : Expr) : Option Expr :=
  if exprEq e1 e2 then some e1
  else
    match testedLeft e1, testedRight e2 with
    | some sym1, some sym2 =>
        if sym1 ≠ sym2 then none
        else if st.type sym1 ≠ .boolean ∧ st.type sym1 ≠ .tristate then none
        else joinAndTests st sym1 e1 e2
    | _, _ => none

/-! ## expr_extract_eq -/

/-- What two expressions have in common, and what is left of them. -/
structure Extracted (e1 e2 : Expr) extends NoLarger e1 e2 where
  eq : Option Expr

/-- `*ep ? expr_alloc_two(type, *ep, e1) : e1`. -/
def Junction.append (type : Junction) (ep : Option Expr) (e1 : Expr) : Expr :=
  match ep with
  | some e => type.node e e1
  | none => e1

/-- `expr_extract_eq`. -/
def exprExtractEq (type : Junction) (ep : Option Expr) (e1 e2 : Expr) : Extracted e1 e2 :=
  match h1 : type.sides e1 with
  | some (l, r) =>
      have hsize := Junction.size_of_sides h1
      match exprExtractEq type ep l e2 with
      | ⟨⟨l', e2', hl, he2⟩, ep'⟩ =>
          match exprExtractEq type ep' r e2' with
          | ⟨⟨r', e2'', hr, he2'⟩, ep''⟩ =>
              ⟨⟨type.node l' r', e2'', by rw [type.size_node]; omega, by omega⟩, ep''⟩
  | none =>
      match h2 : type.sides e2 with
      | some (l, r) =>
          have hsize := Junction.size_of_sides h2
          match exprExtractEq type ep e1 l with
          | ⟨⟨e1', l', he1, hl⟩, ep'⟩ =>
              match exprExtractEq type ep' e1' r with
              | ⟨⟨e1'', r', he1', hr⟩, ep''⟩ =>
                  ⟨⟨e1'', type.node l' r', by omega, by rw [type.size_node]; omega⟩, ep''⟩
      | none =>
          if exprEq e1 e2 then
            ⟨⟨.symbol type.unit, .symbol type.unit, e1.size_pos, e2.size_pos⟩,
              some (type.append ep e1)⟩
          else ⟨⟨e1, e2, Nat.le_refl _, Nat.le_refl _⟩, ep⟩
termination_by e1.size + e2.size

section

variable {type : Junction} {ep : Option Expr} {e1 e2 l r : Expr}

/-- What `exprExtractEq` leaves of the two expressions, without the bounds. -/
def extractedEq (type : Junction) (ep : Option Expr) (e1 e2 : Expr) : Expr × Expr :=
  ((exprExtractEq type ep e1 e2).fst, (exprExtractEq type ep e1 e2).snd)

theorem extractedEq_left (h : type.sides e1 = some (l, r)) :
    extractedEq type ep e1 e2 =
      let left := extractedEq type ep l e2
      let right := extractedEq type (exprExtractEq type ep l e2).eq r left.2
      (type.node left.1 right.1, right.2) := by
  unfold extractedEq
  rw [exprExtractEq]
  split
  · rename_i l' r' h'
    rw [h] at h'
    cases h'
    rfl
  · rename_i h'
    rw [h] at h'
    cases h'

theorem extractedEq_right (h1 : type.sides e1 = none) (h : type.sides e2 = some (l, r)) :
    extractedEq type ep e1 e2 =
      let left := extractedEq type ep e1 l
      let right := extractedEq type (exprExtractEq type ep e1 l).eq left.1 r
      (right.1, type.node left.2 right.2) := by
  unfold extractedEq
  rw [exprExtractEq]
  split
  · rename_i h'
    rw [h1] at h'
    cases h'
  · split
    · rename_i h'
      rw [h] at h'
      cases h'
      rfl
    · rename_i h'
      rw [h] at h'
      cases h'

theorem extractedEq_leaf (h1 : type.sides e1 = none) (h2 : type.sides e2 = none) :
    extractedEq type ep e1 e2 =
      if exprEq e1 e2 then (.symbol type.unit, .symbol type.unit) else (e1, e2) := by
  unfold extractedEq
  rw [exprExtractEq]
  split
  · rename_i h'
    rw [h1] at h'
    cases h'
  · split
    · rename_i h'
      rw [h2] at h'
      cases h'
    · split_ifs <;> rfl

end

/-- `expr_extract_eq_and` and `expr_extract_eq_or`: what is left of the two expressions. -/
def exprExtractEqOf (type : Junction) (e1 e2 : Expr) : Expr × Expr :=
  let extracted := exprExtractEq type none e1 e2
  match extracted.eq with
  | some _ => (exprEliminateYn extracted.fst, exprEliminateYn extracted.snd)
  | none => (extracted.fst, extracted.snd)

/-! ## expr_eliminate_dups -/

/-- `expr_join_or` or `expr_join_and`. -/
def exprJoin (st : SymInfo) : Junction → Expr → Expr → Option Expr
  | .or => exprJoinOr st
  | .and => exprJoinAnd st

/-- Two calls, one after the other. They return the changed expression, and by how much
`trans_count` has grown. -/
def inTurn (first second : Expr → Option (Expr × ℕ)) (e : Expr) : Option (Expr × ℕ) := do
  let (e, count) ← first e
  let (e, count') ← second e
  some (e, count + count')

/-- `case E_OR: case E_AND:` for a call on the two sides of one junction. -/
def inJunction (call : Junction → Option (Expr × ℕ)) (e : Expr) : Option (Expr × ℕ) :=
  match e.junction with
  | some type => call type
  | none => some (e, 0)

/-- `expr_eliminate_dups1`, on two places of `e`. The first argument bounds the depth of the
recursion. -/
def exprEliminateDups1 (st : SymInfo) :
    ℕ → Junction → Expr → Place → Place → Option (Expr × ℕ)
  | 0, _, _, _, _ => none
  | n + 1, type, e, ep1, ep2 => do
      let e1 ← type.operator.get e ep1
      let e2 ← type.operator.get e ep2
      if (type.sides e1).isSome then
        inTurn (fun e => exprEliminateDups1 st n type e (ep1 ++ [.left]) ep2)
          (fun e => exprEliminateDups1 st n type e (ep1 ++ [.right]) ep2) e
      else if (type.sides e2).isSome then
        inTurn (fun e => exprEliminateDups1 st n type e ep1 (ep2 ++ [.left]))
          (fun e => exprEliminateDups1 st n type e ep1 (ep2 ++ [.right])) e
      else if ep1 = ep2 then some (e, 0)
      else
        let (e1, count) ← inJunction (fun type' => exprEliminateDups1 st n type' e1 [] []) e1
        let e := type.operator.put e ep1 e1
        match exprJoin st type e1 e2 with
        | some tmp =>
            some (type.operator.put (type.operator.put e ep1 (.symbol type.unit)) ep2 tmp,
              count + 1)
        | none => some (e, count)

/-- The `switch` of `expr_eliminate_dups2`. `call` is the call on the two sides of `e1`.

* `(FOO || BAR) && (!FOO && !BAR) -> n`
* `(FOO && BAR) || (!FOO || !BAR) -> y` -/
def decideLeaf (st : SymInfo) (call : Junction → Expr → Option (Expr × ℕ))
    (type : Junction) (e : Expr) (ep1 ep2 : Place) : Option (Expr × ℕ) := do
  let e1 ← type.operator.get e ep1
  match e1.junction with
  | none => some (e, 0)
  | some type' =>
      let (e1, count) ← call type' e1
      let e := type.operator.put e ep1 e1
      let e2 ← type.operator.get e ep2
      let (tmp1, _) := exprExtractEqOf type'.dual (exprTransform st (.not e1)).1 e2
      if tmp1 = .symbol type'.dual.unit then
        some (type.operator.put e ep1 (.symbol type'.unit), count + 1)
      else some (e, count)

/-- `expr_eliminate_dups2`, on two places of `e`. -/
def exprEliminateDups2 (st : SymInfo) :
    ℕ → Junction → Expr → Place → Place → Option (Expr × ℕ)
  | 0, _, _, _, _ => none
  | n + 1, type, e, ep1, ep2 => do
      let e1 ← type.operator.get e ep1
      let e2 ← type.operator.get e ep2
      if (type.sides e1).isSome then
        inTurn (fun e => exprEliminateDups2 st n type e (ep1 ++ [.left]) ep2)
          (fun e => exprEliminateDups2 st n type e (ep1 ++ [.right]) ep2) e
      else
        -- The source does not return after the two calls for `e2`.
        inTurn
          (fun e =>
            if (type.sides e2).isSome then
              inTurn (fun e => exprEliminateDups2 st n type e ep1 (ep2 ++ [.left]))
                (fun e => exprEliminateDups2 st n type e ep1 (ep2 ++ [.right])) e
            else some (e, 0))
          (fun e =>
            if ep1 = ep2 then some (e, 0)
            else decideLeaf st (fun type' e1 => exprEliminateDups2 st n type' e1 [] [])
              type e ep1 ep2) e

/-- One turn of the loop of `expr_eliminate_dups`. -/
def exprEliminateDupsOnce (st : SymInfo) (n : ℕ) (e : Expr) : Option (Expr × ℕ) :=
  inJunction (fun type => inTurn (fun e => exprEliminateDups1 st n type e [] [])
    (fun e => exprEliminateDups2 st n type e [] []) e) e

/-- The loop of `expr_eliminate_dups`: the first argument bounds the turns, the second one the
depth of the calls. -/
def exprEliminateDupsLoop (st : SymInfo) : ℕ → ℕ → Expr → Option Expr
  | 0, _, _ => none
  | k + 1, n, e => do
      let (e, count) ← exprEliminateDupsOnce st n e
      if count = 0 then some e
      else exprEliminateDupsLoop st k n (exprEliminateYn e)

/-- A depth that is enough for a junction of this size. -/
def dupsDepth (k : ℕ) : ℕ := k * k + k

/-- `expr_eliminate_dups`. -/
def exprEliminateDups (st : SymInfo) (e : Expr) : Expr :=
  (exprEliminateDupsLoop st (e.size + 1) (dupsDepth e.size + e.size + e.size + 1) e).getD e

end Pbs.Kconfig
