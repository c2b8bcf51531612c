import Mathlib.Data.Nat.Notation
import Mathlib.Order.Defs.LinearOrder
import Mathlib.Tactic.Common

/-!
# Replacing the leaves of an operator in place

Trees in which one binary operator is singled out. The nodes of the operator that can
be reached from the root through such nodes only are its spine, and what hangs below
them are its leaves. A `Place` leads along the spine; `get` and `put` read and replace
what is there.

Let the value of a node be the combination of the values of its sides. Then the value of
a tree depends on the value at a place in one way only (`exists_context`), so that two
leaves may be replaced as long as their combination stays the same (`value_put_put`).
Replacing leaves by leaves keeps the shape of the spine (`Same`).
-/

namespace Spine

variable {T : Type*}

/-- A binary operator on trees, and how to take a node of it apart. -/
structure Operator (T : Type*) where
  node : T → T → T
  sides : T → Option (T × T)
  size : T → ℕ
  sides_node : ∀ l r, sides (node l r) = some (l, r)
  node_sides : ∀ {e l r}, sides e = some (l, r) → node l r = e
  size_node : ∀ l r, size (node l r) = size l + size r + 1

inductive Side where
  | left
  | right
deriving DecidableEq, Repr

/-- The way from the root to a node or a leaf. -/
abbrev Place := List Side

def Side.pick : Side → T × T → T
  | .left, sides => sides.1
  | .right, sides => sides.2

namespace Operator

variable (op : Operator T)

/-- The tree is not a node of the operator. -/
def IsLeaf (e : T) : Prop := op.sides e = none

def get : T → Place → Option T
  | e, [] => some e
  | e, side :: p => (op.sides e).bind fun sides => get (side.pick sides) p

def put : T → Place → T → T
  | _, [], x => x
  | e, side :: p, x =>
      match op.sides e with
      | none => e
      | some (l, r) =>
          match side with
          | .left => op.node (put l p x) r
          | .right => op.node l (put r p x)

@[simp] theorem get_nil (e : T) : op.get e [] = some e := rfl

@[simp] theorem put_nil (e x : T) : op.put e [] x = x := rfl

variable {op}

theorem size_of_sides {e l r : T} (h : op.sides e = some (l, r)) :
    op.size e = op.size l + op.size r + 1 := by
  rw [← op.node_sides h, op.size_node]

/-- Beyond the root there is something only if the root is a node. -/
theorem get_cons_eq_some {e a : T} {side : Side} {p : Place} :
    op.get e (side :: p) = some a ↔
      ∃ l r, op.sides e = some (l, r) ∧ op.get (side.pick (l, r)) p = some a := by
  rw [get, Option.bind_eq_some_iff]
  constructor
  · rintro ⟨⟨l, r⟩, hsides, hget⟩
    exact ⟨l, r, hsides, hget⟩
  · rintro ⟨l, r, hsides, hget⟩
    exact ⟨(l, r), hsides, hget⟩

theorem put_left {e l r x : T} {p : Place} (h : op.sides e = some (l, r)) :
    op.put e (.left :: p) x = op.node (op.put l p x) r := by
  simp only [put, h]

theorem put_right {e l r x : T} {p : Place} (h : op.sides e = some (l, r)) :
    op.put e (.right :: p) x = op.node l (op.put r p x) := by
  simp only [put, h]

theorem get_append {e a b : T} {p q : Place} (ha : op.get e p = some a) (hb : op.get a q = some b) :
    op.get e (p ++ q) = some b := by
  induction p generalizing e with
  | nil =>
      cases ha
      exact hb
  | cons side p ih =>
      rcases get_cons_eq_some.mp ha with ⟨l, r, hsides, hget⟩
      exact get_cons_eq_some.mpr ⟨l, r, hsides, ih hget⟩

theorem get_put {e a x : T} {p : Place} (h : op.get e p = some a) :
    op.get (op.put e p x) p = some x := by
  induction p generalizing e with
  | nil => rfl
  | cons side p ih =>
      rcases get_cons_eq_some.mp h with ⟨l, r, hsides, hget⟩
      cases side with
      | left =>
          rw [put_left hsides]
          exact get_cons_eq_some.mpr ⟨_, _, op.sides_node _ _, ih hget⟩
      | right =>
          rw [put_right hsides]
          exact get_cons_eq_some.mpr ⟨_, _, op.sides_node _ _, ih hget⟩

theorem put_get {e a : T} {p : Place} (h : op.get e p = some a) : op.put e p a = e := by
  induction p generalizing e with
  | nil =>
      cases h
      rfl
  | cons side p ih =>
      rcases get_cons_eq_some.mp h with ⟨l, r, hsides, hget⟩
      cases side with
      | left =>
          rw [put_left hsides, show op.put l p a = l from ih hget]
          exact op.node_sides hsides
      | right =>
          rw [put_right hsides, show op.put r p a = r from ih hget]
          exact op.node_sides hsides

/-- The leaf at one place is left alone when another one is replaced. -/
theorem get_put_of_ne {e a b x : T} {p q : Place} (ha : op.get e p = some a) (hla : op.IsLeaf a)
    (hb : op.get e q = some b) (hlb : op.IsLeaf b) (hne : p ≠ q) :
    op.get (op.put e p x) q = some b := by
  induction p generalizing e q with
  | nil =>
      cases ha
      cases q with
      | nil => exact absurd rfl hne
      | cons side q =>
          rcases get_cons_eq_some.mp hb with ⟨l, r, hsides, _⟩
          rw [IsLeaf, hsides] at hla
          cases hla
  | cons side p ih =>
      rcases get_cons_eq_some.mp ha with ⟨l, r, hsides, hget⟩
      cases q with
      | nil =>
          cases hb
          rw [IsLeaf, hsides] at hlb
          cases hlb
      | cons side' q =>
          rcases get_cons_eq_some.mp hb with ⟨l', r', hsides', hget'⟩
          rw [hsides] at hsides'
          cases hsides'
          -- on the same side the places differ further down, and on different sides they are
          -- apart already
          cases side <;> cases side'
          · rw [put_left hsides]
            exact get_cons_eq_some.mpr ⟨_, _, op.sides_node _ _,
              ih hget hget' fun h => hne (by rw [h])⟩
          · rw [put_left hsides]
            exact get_cons_eq_some.mpr ⟨_, _, op.sides_node _ _, hget'⟩
          · rw [put_right hsides]
            exact get_cons_eq_some.mpr ⟨_, _, op.sides_node _ _, hget'⟩
          · rw [put_right hsides]
            exact get_cons_eq_some.mpr ⟨_, _, op.sides_node _ _,
              ih hget hget' fun h => hne (by rw [h])⟩

/-! ## Shapes -/

/-- The same spine, whatever the leaves are. -/
inductive Same (op : Operator T) : T → T → Prop where
  | leaf {e e' : T} : op.IsLeaf e → op.IsLeaf e' → Same op e e'
  | node {l r l' r' : T} : Same op l l' → Same op r r' → Same op (op.node l r) (op.node l' r')

theorem Same.refl (e : T) : op.Same e e := by
  induction hn : op.size e using Nat.strongRecOn generalizing e with
  | _ n ih =>
      cases hsides : op.sides e with
      | none => exact .leaf hsides hsides
      | some sides =>
          rcases sides with ⟨l, r⟩
          have hsize := size_of_sides hsides
          rw [← op.node_sides hsides]
          exact .node (ih _ (by omega) l rfl) (ih _ (by omega) r rfl)

theorem Same.trans {e e' e'' : T} (h : op.Same e e') (h' : op.Same e' e'') : op.Same e e'' := by
  induction h generalizing e'' with
  | leaf hl hl' =>
      cases h' with
      | leaf _ hl'' => exact .leaf hl hl''
      | node _ _ =>
          rw [IsLeaf, op.sides_node] at hl'
          cases hl'
  | @node l r l' r' _ _ ihl ihr =>
      generalize hnode : op.node l' r' = e' at h'
      cases h' with
      | leaf hl _ =>
          rw [← hnode, IsLeaf, op.sides_node] at hl
          cases hl
      | node hl hr =>
          have hsides := congrArg op.sides hnode
          rw [op.sides_node, op.sides_node] at hsides
          cases hsides
          exact .node (ihl hl) (ihr hr)

/-- A leaf is replaced by a leaf. -/
theorem same_put {e a x : T} {p : Place} (h : op.get e p = some a) (ha : op.IsLeaf a)
    (hx : op.IsLeaf x) : op.Same e (op.put e p x) := by
  induction p generalizing e with
  | nil =>
      cases h
      exact .leaf ha hx
  | cons side p ih =>
      rcases get_cons_eq_some.mp h with ⟨l, r, hsides, hget⟩
      rw [← op.node_sides hsides]
      cases side with
      | left =>
          rw [put_left (op.sides_node _ _)]
          exact .node (ih hget) (.refl r)
      | right =>
          rw [put_right (op.sides_node _ _)]
          exact .node (.refl l) (ih hget)

theorem Same.sides {e e' l r : T} (h : op.Same e e') (hsides : op.sides e = some (l, r)) :
    ∃ l' r', op.sides e' = some (l', r') ∧ op.Same l l' ∧ op.Same r r' := by
  cases h with
  | leaf hl _ =>
      rw [IsLeaf, hsides] at hl
      cases hl
  | node hl hr =>
      rw [op.sides_node] at hsides
      cases hsides
      exact ⟨_, _, op.sides_node _ _, hl, hr⟩

theorem Same.isLeaf {e e' : T} (h : op.Same e e') (hleaf : op.IsLeaf e) : op.IsLeaf e' := by
  cases h with
  | leaf _ hl => exact hl
  | node _ _ =>
      rw [IsLeaf, op.sides_node] at hleaf
      cases hleaf

/-- Every place is there in both, with the same spine below it. -/
theorem Same.get {e e' a : T} {p : Place} (h : op.Same e e') (ha : op.get e p = some a) :
    ∃ a', op.get e' p = some a' ∧ op.Same a a' := by
  induction p generalizing e e' with
  | nil =>
      cases ha
      exact ⟨e', rfl, h⟩
  | cons side p ih =>
      rcases get_cons_eq_some.mp ha with ⟨l, r, hsides, hget⟩
      rcases h.sides hsides with ⟨l', r', hsides', hl, hr⟩
      cases side with
      | left =>
          rcases ih hl hget with ⟨a', ha', hsame⟩
          exact ⟨a', get_cons_eq_some.mpr ⟨l', r', hsides', ha'⟩, hsame⟩
      | right =>
          rcases ih hr hget with ⟨a', ha', hsame⟩
          exact ⟨a', get_cons_eq_some.mpr ⟨l', r', hsides', ha'⟩, hsame⟩

/-- The spine has at most this many nodes on top of each other. -/
inductive Within (op : Operator T) : ℕ → T → Prop where
  | leaf {n : ℕ} {e : T} : op.IsLeaf e → Within op n e
  | node {n : ℕ} {l r : T} : Within op n l → Within op n r → Within op (n + 1) (op.node l r)

theorem Within.mono {m n : ℕ} {e : T} (h : op.Within m e) (hmn : m ≤ n) : op.Within n e := by
  induction h generalizing n with
  | leaf hl => exact .leaf hl
  | node _ _ ihl ihr =>
      obtain ⟨n, rfl⟩ : ∃ k, n = k + 1 := ⟨n - 1, by omega⟩
      exact .node (ihl (by omega)) (ihr (by omega))

theorem within_size (e : T) : op.Within (op.size e) e := by
  induction hn : op.size e using Nat.strongRecOn generalizing e with
  | _ n ih =>
      cases hsides : op.sides e with
      | none => exact .leaf hsides
      | some sides =>
          rcases sides with ⟨l, r⟩
          have hsize := size_of_sides hsides
          obtain ⟨n, rfl⟩ : ∃ k, n = k + 1 := ⟨n - 1, by omega⟩
          rw [← op.node_sides hsides]
          exact .node ((ih _ (by omega) l rfl).mono (by omega))
            ((ih _ (by omega) r rfl).mono (by omega))

theorem Within.sides {n : ℕ} {e l r : T} (h : op.Within n e) (hsides : op.sides e = some (l, r)) :
    ∃ m, n = m + 1 ∧ op.Within m l ∧ op.Within m r := by
  cases h with
  | leaf hl =>
      rw [IsLeaf, hsides] at hl
      cases hl
  | node hl hr =>
      rw [op.sides_node] at hsides
      cases hsides
      exact ⟨_, rfl, hl, hr⟩

theorem Within.same {n : ℕ} {e e' : T} (h : op.Within n e) (hsame : op.Same e e') :
    op.Within n e' := by
  induction hsame generalizing n with
  | leaf _ hl => exact .leaf hl
  | node _ _ ihl ihr =>
      rcases h.sides (op.sides_node _ _) with ⟨m, rfl, hl, hr⟩
      exact .node (ihl hl) (ihr hr)

/-! ## Values -/

section Values

variable {M : Type*} (mul : M → M → M) [Std.Commutative mul] [Std.Associative mul] (value : T → M)
  {one : M} {e a b x y : T} {p q : Place}

/-- All that the value of a tree has to do with the value at a place. -/
theorem exists_context (hone : ∀ m, mul one m = m)
    (hvalue : ∀ l r, value (op.node l r) = mul (value l) (value r)) (h : op.get e p = some a) :
    ∃ c, value e = mul c (value a) ∧ ∀ x, value (op.put e p x) = mul c (value x) := by
  induction p generalizing e with
  | nil =>
      cases h
      exact ⟨one, (hone _).symm, fun x => (hone _).symm⟩
  | cons side p ih =>
      rcases get_cons_eq_some.mp h with ⟨l, r, hsides, hget⟩
      rcases ih hget with ⟨c, hc, hput⟩
      have hnode : value e = mul (value l) (value r) := by
        rw [← op.node_sides hsides, hvalue]
      cases side with
      | left =>
          refine ⟨mul c (value r), ?_, fun x => ?_⟩
          · rw [hnode, show value l = _ from hc]
            ac_rfl
          · rw [put_left hsides, hvalue, show value (op.put l p x) = _ from hput x]
            ac_rfl
      | right =>
          refine ⟨mul (value l) c, ?_, fun x => ?_⟩
          · rw [hnode, show value r = _ from hc]
            ac_rfl
          · rw [put_right hsides, hvalue, show value (op.put r p x) = _ from hput x]
            ac_rfl

/-- One leaf takes over the value of another one. -/
theorem value_put_put (hone : ∀ m, mul one m = m)
    (hvalue : ∀ l r, value (op.node l r) = mul (value l) (value r))
    (ha : op.get e p = some a) (hla : op.IsLeaf a) (hb : op.get e q = some b) (hlb : op.IsLeaf b)
    (hne : p ≠ q) (hx : value x = one) (hy : value y = mul (value a) (value b)) :
    value (op.put (op.put e p x) q y) = value e := by
  rcases exists_context mul value hone hvalue ha with ⟨c, hc, hput⟩
  rcases exists_context mul value hone hvalue (get_put_of_ne (x := x) ha hla hb hlb hne)
    with ⟨d, hd, hput'⟩
  have hrest : c = mul d (value b) := by
    calc c = mul one c := (hone c).symm
      _ = mul c (value x) := by
        rw [hx]
        ac_rfl
      _ = value (op.put e p x) := (hput x).symm
      _ = mul d (value b) := hd
  rw [hput', hy, hc, hrest]
  ac_rfl

end Values

end Operator

end Spine
