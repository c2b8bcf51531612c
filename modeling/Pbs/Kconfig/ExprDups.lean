import Pbs.Kconfig.ExprMeaning

/-!
# The loop of `expr_eliminate_dups`

`expr_eliminate_dups1` and `expr_eliminate_dups2` walk over all pairs of leaves of a junction
and change the expression in place while they do. `Improves` is what they keep: the shape of
the junction, its size, a definite value; and whenever they count a change there is a constant
for `expr_eliminate_yn` to remove. So the loop ends, and what it returns has the value of the
expression wherever this is definite (`exprEliminateDups_refines`).
-/

namespace Pbs.Kconfig

open Spine Operator

variable {st : SymInfo} {cf : Conf} {type : Junction} {e e' e'' e1 e2 a b x : Expr} {p q : Place}

/-! ## Constants in a junction -/

/-- `symbol_yes` or `symbol_no` is among what the junctions of an expression join. -/
def Expr.containsYn : Expr → Bool
  | .symbol s => s == symbolYes || s == symbolNo
  | .and l r => l.containsYn || r.containsYn
  | .or l r => l.containsYn || r.containsYn
  | _ => false

theorem containsYn_node (type : Junction) (l r : Expr) :
    (type.node l r).containsYn = (l.containsYn || r.containsYn) := by
  cases type <;> rfl

theorem containsYn_unit (type : Junction) : (Expr.symbol type.unit).containsYn = true := by
  cases type <;> rfl

theorem containsYn_put_context (h : type.operator.get e p = some a) :
    ∃ c, e.containsYn = (c || a.containsYn) ∧
      ∀ x, (type.operator.put e p x).containsYn = (c || x.containsYn) :=
  exists_context (· || ·) Expr.containsYn Bool.false_or (containsYn_node type) h

theorem containsYn_put (h : type.operator.get e p = some a)
    (hx : a.containsYn = true → x.containsYn = true) (he : e.containsYn = true) :
    (type.operator.put e p x).containsYn = true := by
  rcases containsYn_put_context h with ⟨c, hc, hput⟩
  rw [hput]
  rw [hc, Bool.or_eq_true] at he
  rcases he with he | he
  · rw [he, Bool.true_or]
  · rw [hx he, Bool.or_true]

theorem containsYn_of_get (h : type.operator.get e p = some a) (ha : a.containsYn = true) :
    e.containsYn = true := by
  rcases containsYn_put_context h with ⟨c, hc, _⟩
  rw [hc, ha, Bool.or_true]

theorem containsYn_put_of_containsYn (h : type.operator.get e p = some a)
    (hx : x.containsYn = true) :
    (type.operator.put e p x).containsYn = true := by
  rcases containsYn_put_context h with ⟨c, _, hput⟩
  rw [hput, hx, Bool.or_true]

theorem size_put (h : type.operator.get e p = some a) (x : Expr) :
    (type.operator.put e p x).size + a.size = e.size + x.size := by
  have hvalue : ∀ l r : Expr, (type.node l r).size + 1 = (l.size + 1) + (r.size + 1) := by
    intro l r
    rw [type.size_node]
    omega
  rcases exists_context (· + ·) (fun e : Expr => e.size + 1) Nat.zero_add hvalue h
    with ⟨c, hc, hput⟩
  have hx := hput x
  omega

theorem size_lt_of_get {side : Side} (h : type.operator.get e (side :: p) = some a) :
    a.size < e.size := by
  induction p generalizing e side with
  | nil =>
      rcases get_cons_eq_some.mp h with ⟨l, r, hsides, hget⟩
      have := Junction.size_of_sides hsides
      cases side <;> cases hget
      · show l.size < _
        omega
      · show r.size < _
        omega
  | cons side' p ih =>
      rcases get_cons_eq_some.mp h with ⟨l, r, hsides, hget⟩
      have := Junction.size_of_sides hsides
      have hlt := ih hget
      cases side
      · have hlt : a.size < l.size := hlt
        omega
      · have hlt : a.size < r.size := hlt
        omega

/-- A leaf that is a junction is one of the other type. -/
theorem isLeaf_of_junction {type' : Junction} (h : e.junction = some type') (hne : type' ≠ type) :
    type.operator.IsLeaf e := by
  cases e <;> cases h <;> cases type <;> first | rfl | exact absurd rfl hne

theorem junction_eq_dual (hleaf : type.operator.IsLeaf e) {type' : Junction}
    (h : e.junction = some type') : type' = type.dual := by
  cases e <;> cases h <;> cases type <;> first | rfl | cases hleaf

theorem junction_of_sides {l r : Expr} (h : type.sides e = some (l, r)) :
    e.junction = some type := by
  cases type <;> cases e <;> cases h <;> rfl

/-! ## What a call keeps -/

/-- The changes that a call makes to the junction of this type at `e`, where it counts `count`
of them. -/
structure Improves (st : SymInfo) (type : Junction) (e e' : Expr) (count : ℕ) : Prop where
  same : type.operator.Same e e'
  size_le : e'.size ≤ e.size
  keeps : e.containsYn = true → e'.containsYn = true
  counted : 0 < count → e'.containsYn = true
  refines : ∀ cf, WellTyped st cf → (e.value cf).Refines (e'.value cf)

theorem Improves.refl (e : Expr) : Improves st type e e 0 where
  same := .refl e
  size_le := Nat.le_refl _
  keeps h := h
  counted h := absurd h (Nat.lt_irrefl 0)
  refines _ _ := .refl _

theorem Improves.trans {c c' : ℕ} (h : Improves st type e e' c) (h' : Improves st type e' e'' c') :
    Improves st type e e'' (c + c') where
  same := h.same.trans h'.same
  size_le := Nat.le_trans h'.size_le h.size_le
  keeps hyn := h'.keeps (h.keeps hyn)
  counted hc := by
    rcases Nat.eq_zero_or_pos c with hzero | hpos
    · exact h'.counted (by omega)
    · exact h'.keeps (h.counted hpos)
  refines cf hcf := (h.refines cf hcf).trans (h'.refines cf hcf)

/-- A junction is still one of the same type. -/
theorem Improves.junction {c : ℕ} (h : Improves st type e e' c) (he : e.junction = some type) :
    e'.junction = some type := by
  cases hsides : type.sides e with
  | none => cases e <;> cases he <;> cases hsides
  | some sides =>
      rcases h.same.sides hsides with ⟨l', r', hsides', _, _⟩
      exact junction_of_sides hsides'

theorem value_put_context (cf : Conf) (h : type.operator.get e p = some a) :
    ∃ c, e.value cf = type.eval c (a.value cf) ∧
      ∀ x, (type.operator.put e p x).value cf = type.eval c (x.value cf) :=
  exists_context type.eval (Expr.value cf) type.one_eval (value_node type) h

/-- A leaf is improved. -/
theorem Improves.put {type' : Junction} {c : ℕ} (hget : type.operator.get e p = some a)
    (hleaf : type.operator.IsLeaf a) (ha : a.junction = some type') (h : Improves st type' a x c) :
    Improves st type e (type.operator.put e p x) c where
  same := same_put hget hleaf
    (isLeaf_of_junction (h.junction ha) (by rw [junction_eq_dual hleaf ha]; cases type <;> decide))
  size_le := by
    have := size_put hget x
    have := h.size_le
    omega
  keeps := containsYn_put hget h.keeps
  counted hc := containsYn_put_of_containsYn hget (h.counted hc)
  refines cf hcf := by
    rcases value_put_context cf hget with ⟨c, hc, hput⟩
    rw [hput, hc]
    exact (h.refines cf hcf).eval type c

theorem size_joinOrTests {sym : SymId} {tmp : Expr} (h : joinOrTests st sym e1 e2 = some tmp) :
    tmp.size = 1 := by
  unfold joinOrTests at h
  split at h <;> (try split_ifs at h) <;> cases h <;> rfl

theorem size_joinAndTests {sym : SymId} {tmp : Expr} (h : joinAndTests st sym e1 e2 = some tmp) :
    tmp.size = 1 := by
  unfold joinAndTests joinConstants at h
  split at h <;> (try split_ifs at h) <;> cases h <;> rfl

/-- What replaces two leaves is the first one or a single test. -/
theorem exprJoin_eq {tmp : Expr} (h : exprJoin st type e1 e2 = some tmp) :
    tmp = e1 ∨ tmp.size = 1 := by
  cases type with
  | or =>
      rw [exprJoin, exprJoinOr] at h
      split_ifs at h
      · cases h
        exact .inl rfl
      · split at h
        · split_ifs at h
          exact .inr (size_joinOrTests h)
        · cases h
  | and =>
      rw [exprJoin, exprJoinAnd] at h
      split_ifs at h
      · cases h
        exact .inl rfl
      · split at h
        · split_ifs at h
          exact .inr (size_joinAndTests h)
        · cases h

theorem isLeaf_of_size_eq_one (h : e.size = 1) : type.operator.IsLeaf e := by
  cases hsides : type.sides e with
  | none => exact hsides
  | some sides =>
      have := Junction.size_of_sides hsides
      have := sides.1.size_pos
      omega

/-- Two leaves are joined. -/
theorem Improves.join {tmp : Expr} (ha : type.operator.get e p = some a)
    (hla : type.operator.IsLeaf a)
    (hb : type.operator.get e q = some b) (hlb : type.operator.IsLeaf b) (hne : p ≠ q)
    (hjoin : exprJoin st type a b = some tmp) :
    Improves st type e
      (type.operator.put (type.operator.put e p (.symbol type.unit)) q tmp) 1 := by
  have hlu : type.operator.IsLeaf (.symbol type.unit) := isLeaf_of_size_eq_one rfl
  have hlt : type.operator.IsLeaf tmp := by
    rcases exprJoin_eq hjoin with rfl | hsize
    · exact hla
    · exact isLeaf_of_size_eq_one hsize
  have hb' := get_put_of_ne (x := .symbol type.unit) ha hla hb hlb hne
  have hu := get_put_of_ne (x := tmp) hb' hlb (get_put ha) hlu (Ne.symm hne)
  have hyn := containsYn_of_get hu (containsYn_unit type)
  exact
    { same := (same_put ha hla hlu).trans (same_put hb' hlb hlt)
      size_le := by
        have hsize := size_put ha (.symbol type.unit)
        have hsize' := size_put hb' tmp
        have := a.size_pos
        have := b.size_pos
        have hone : (Expr.symbol type.unit).size = 1 := rfl
        rcases exprJoin_eq hjoin with rfl | htmp <;> omega
      keeps := fun _ => hyn
      counted := fun _ => hyn
      refines := fun cf hcf => by
        rw [value_put_put type.eval (Expr.value cf) type.one_eval
          (value_node type) ha hla hb hlb hne
          (hcf.value_unit type) (value_exprJoin hcf hjoin)]
        exact .refl _ }

/-! ## expr_eliminate_dups1 -/

theorem dupsDepth_mono {k k' : ℕ} (h : k ≤ k') : dupsDepth k ≤ dupsDepth k' :=
  Nat.add_le_add (Nat.mul_le_mul h h) h

/-- The depth that is left for a leaf. -/
theorem dupsDepth_lt {k k' : ℕ} (h : k < k') : dupsDepth k + k + k < dupsDepth k' := by
  have hsquare : (k + 1) * (k + 1) = k * k + k + k + 1 := by ring
  have hle : dupsDepth (k + 1) ≤ dupsDepth k' := dupsDepth_mono h
  unfold dupsDepth at hle ⊢
  omega

theorem get_left {l r : Expr} (h : type.operator.get e p = some a)
    (hsides : type.sides a = some (l, r)) :
    type.operator.get e (p ++ [.left]) = some l :=
  get_append h (get_cons_eq_some.mpr ⟨l, r, hsides, rfl⟩)

theorem get_right {l r : Expr} (h : type.operator.get e p = some a)
    (hsides : type.sides a = some (l, r)) :
    type.operator.get e (p ++ [.right]) = some r :=
  get_append h (get_cons_eq_some.mpr ⟨l, r, hsides, rfl⟩)

/-- Of two places with leaves, none is the root. -/
theorem size_lt_of_ne (ha : type.operator.get e p = some a) (hla : type.operator.IsLeaf a)
    (hb : type.operator.get e q = some b) (hne : p ≠ q) : a.size < e.size := by
  cases p with
  | nil =>
      cases ha
      cases q with
      | nil => exact absurd rfl hne
      | cons side q =>
          rcases get_cons_eq_some.mp hb with ⟨l, r, hsides, _⟩
          rw [IsLeaf, hsides] at hla
          cases hla
  | cons side p => exact size_lt_of_get ha

/-- What a call returns. -/
def Returns (st : SymInfo) (type : Junction) (e : Expr) (result : Option (Expr × ℕ)) : Prop :=
  ∃ e' count, result = some (e', count) ∧ Improves st type e e' count

theorem Returns.unchanged (e : Expr) : Returns st type e (some (e, 0)) := ⟨e, 0, rfl, .refl e⟩

theorem Returns.inTurn {first second : Expr → Option (Expr × ℕ)} (h : Returns st type e (first e))
    (h' : ∀ e' count, Improves st type e e' count → Returns st type e' (second e')) :
    Returns st type e (inTurn first second e) := by
  rcases h with ⟨e', c, hcall, himp⟩
  rcases h' e' c himp with ⟨e'', c', hcall', himp'⟩
  refine ⟨e'', c + c', ?_, himp.trans himp'⟩
  simp only [Pbs.Kconfig.inTurn, hcall, hcall', Option.bind_eq_bind, Option.bind_some]

/-- The call for a leaf that is a junction itself. -/
theorem improves_inJunction {call : Junction → Option (Expr × ℕ)}
    (hget : type.operator.get e p = some a) (hleaf : type.operator.IsLeaf a)
    (hcall : ∀ type', Returns st type' a (call type')) :
    ∃ a' c, inJunction call a = some (a', c) ∧
      Improves st type e (type.operator.put e p a') c ∧ type.operator.IsLeaf a' := by
  cases hj : a.junction with
  | none =>
      refine ⟨a, 0, by rw [inJunction, hj], ?_, hleaf⟩
      rw [put_get hget]
      exact .refl e
  | some type' =>
      rcases hcall type' with ⟨a', c, hcall', himp⟩
      refine ⟨a', c, by rw [inJunction, hj]; exact hcall', .put hget hleaf hj himp, ?_⟩
      exact isLeaf_of_junction (himp.junction hj)
        (by rw [junction_eq_dual hleaf hj]; cases type <;> decide)

/-- A call with enough depth: for the size of the whole, and for the spines at both places. -/
structure Reaches (type : Junction) (n : ℕ) (e : Expr) (p q : Place) (a b : Expr)
    (i j : ℕ) : Prop where
  depth : dupsDepth e.size + i + j < n
  fst_get : type.operator.get e p = some a
  snd_get : type.operator.get e q = some b
  fst_within : type.operator.Within i a
  snd_within : type.operator.Within j b

section

variable {n i j c : ℕ} {l r : Expr}

theorem Reaches.whole (type : Junction) (h : dupsDepth e.size + e.size + e.size < n) :
    Reaches type n e [] [] e e e.size e.size :=
  ⟨h, rfl, rfl, within_size e, within_size e⟩

/-- What a call before this one has changed does not matter. -/
theorem Reaches.improved (h : Reaches type n e p q a b i j) (himp : Improves st type e e' c) :
    ∃ a' b', Reaches type n e' p q a' b' i j ∧ type.operator.Same a a' := by
  rcases himp.same.get h.fst_get with ⟨a', ha', hsame⟩
  rcases himp.same.get h.snd_get with ⟨b', hb', hsame'⟩
  have := dupsDepth_mono himp.size_le
  have := h.depth
  exact ⟨a', b', ⟨by omega, ha', hb', h.fst_within.same hsame, h.snd_within.same hsame'⟩, hsame⟩

/-- The two calls for the sides of the first place. -/
theorem Reaches.fst_sides (h : Reaches type (n + 1) e p q a b i j)
    (hsides : type.sides a = some (l, r)) :
    ∃ m, Reaches type n e (p ++ [.left]) q l b m j ∧
      Reaches type n e (p ++ [.right]) q r b m j := by
  rcases h.fst_within.sides hsides with ⟨m, rfl, hl, hr⟩
  have := h.depth
  exact ⟨m, ⟨by omega, get_left h.fst_get hsides, h.snd_get, hl, h.snd_within⟩,
    ⟨by omega, get_right h.fst_get hsides, h.snd_get, hr, h.snd_within⟩⟩

/-- The two calls for the sides of the second place. -/
theorem Reaches.snd_sides (h : Reaches type (n + 1) e p q a b i j)
    (hsides : type.sides b = some (l, r)) :
    ∃ m, Reaches type n e p (q ++ [.left]) a l i m ∧
      Reaches type n e p (q ++ [.right]) a r i m := by
  rcases h.snd_within.sides hsides with ⟨m, rfl, hl, hr⟩
  have := h.depth
  exact ⟨m, ⟨by omega, h.fst_get, get_left h.snd_get hsides, h.fst_within, hl⟩,
    ⟨by omega, h.fst_get, get_right h.snd_get hsides, h.fst_within, hr⟩⟩

/-- The call for a leaf that is a junction itself. -/
theorem Reaches.leaf (h : Reaches type (n + 1) e p q a b i j) (hleaf : type.operator.IsLeaf a)
    (hne : p ≠ q) (type' : Junction) : Reaches type' n a [] [] a a a.size a.size := by
  have := dupsDepth_lt (size_lt_of_ne h.fst_get hleaf h.snd_get hne)
  have := h.depth
  exact .whole type' (by omega)

theorem exprEliminateDups1_returns (h : Reaches type n e p q a b i j) :
    Returns st type e (exprEliminateDups1 st n type e p q) := by
  induction n generalizing type e p q a b i j with
  | zero => exact absurd h.depth (Nat.not_lt_zero _)
  | succ n ih =>
      rw [exprEliminateDups1, h.fst_get, h.snd_get]
      simp only [Option.bind_eq_bind, Option.bind_some]
      split_ifs with ha hb hpq
      · rcases Option.isSome_iff_exists.mp ha with ⟨⟨l, r⟩, hsides⟩
        rcases h.fst_sides hsides with ⟨m, hl, hr⟩
        refine .inTurn (ih hl) fun e' c himp => ?_
        rcases hr.improved himp with ⟨_, _, hr', _⟩
        exact ih hr'
      · rcases Option.isSome_iff_exists.mp hb with ⟨⟨l, r⟩, hsides⟩
        rcases h.snd_sides hsides with ⟨m, hl, hr⟩
        refine .inTurn (ih hl) fun e' c himp => ?_
        rcases hr.improved himp with ⟨_, _, hr', _⟩
        exact ih hr'
      · exact .unchanged e
      · have hla : type.operator.IsLeaf a := Option.not_isSome_iff_eq_none.mp ha
        have hlb : type.operator.IsLeaf b := Option.not_isSome_iff_eq_none.mp hb
        rcases improves_inJunction h.fst_get hla fun type' => ih (h.leaf hla hpq type') with
          ⟨a', c, hcall, himp, hla'⟩
        rw [hcall, Option.bind_some]
        cases hjoin : exprJoin st type a' b with
        | none => exact ⟨_, c, rfl, himp⟩
        | some tmp =>
            have hb' := get_put_of_ne (x := a') h.fst_get hla h.snd_get hlb hpq
            exact ⟨_, c + 1, rfl, himp.trans (.join (get_put h.fst_get) hla' hb' hlb hpq hjoin)⟩

end

/-! ## expr_eliminate_dups2 -/

/-- A leaf whose negation is part of the same junction decides the junction. -/
theorem Improves.decide {type' : Junction} (ha : type.operator.get e p = some a)
    (hla : type.operator.IsLeaf a) (hj : a.junction = some type')
    (hb : type.operator.get e q = some b)
    (hunit : (exprExtractEqOf type'.dual (exprTransform st (.not a)).1 b).1 =
      .symbol type'.dual.unit) :
    Improves st type e (type.operator.put e p (.symbol type'.unit)) 1 where
  same := same_put ha hla (isLeaf_of_size_eq_one rfl)
  size_le := by
    have := size_put ha (.symbol type'.unit)
    have := a.size_pos
    have hone : (Expr.symbol type'.unit).size = 1 := rfl
    omega
  keeps _ := containsYn_put_of_containsYn ha (containsYn_unit type')
  counted _ := containsYn_put_of_containsYn ha (containsYn_unit type')
  refines cf hcf := by
    obtain rfl : type' = type.dual := junction_eq_dual hla hj
    have hdual : type.dual.dual = type := by cases type <;> rfl
    rw [hdual] at hunit
    rcases value_put_context cf ha with ⟨c, hc, hput⟩
    rcases value_put_context cf hb with ⟨d, hd, _⟩
    have hab := hcf.eval_of_exprExtractEqOf hunit
    rw [value_exprTransform hcf, value_not] at hab
    rw [hput, hcf.value_unit, type.eval_dual_one]
    apply refines_dual_one (a := a.value cf)
    · rw [hc, type.eval_comm c, ← type.eval_assoc, type.eval_self]
    · rw [hd, type.eval_comm d, ← type.eval_assoc, hab]

theorem decideLeaf_returns {call : Junction → Expr → Option (Expr × ℕ)}
    (ha : type.operator.get e p = some a) (hla : type.operator.IsLeaf a)
    (hb : type.operator.get e q = some b)
    (hcall : ∀ type', Returns st type' a (call type' a)) :
    Returns st type e (decideLeaf st call type e p q) := by
  rw [decideLeaf, ha]
  simp only [Option.bind_eq_bind, Option.bind_some]
  cases hj : a.junction with
  | none => exact .unchanged e
  | some type' =>
      rcases hcall type' with ⟨a', c, hcall', himp⟩
      have hput : Improves st type e (type.operator.put e p a') c := .put ha hla hj himp
      have hla' : type.operator.IsLeaf a' :=
        isLeaf_of_junction (himp.junction hj)
          (by rw [junction_eq_dual hla hj]; cases type <;> decide)
      rcases hput.same.get hb with ⟨b', hb', _⟩
      simp only [hcall', hb', Option.bind_some]
      split_ifs with hunit
      · exact ⟨_, c + 1, rfl, hput.trans (.decide (get_put ha) hla' (himp.junction hj) hb' hunit)⟩
      · exact ⟨_, c, rfl, hput⟩

theorem exprEliminateDups2_returns {n i j : ℕ} (h : Reaches type n e p q a b i j) :
    Returns st type e (exprEliminateDups2 st n type e p q) := by
  induction n generalizing type e p q a b i j with
  | zero => exact absurd h.depth (Nat.not_lt_zero _)
  | succ n ih =>
      rw [exprEliminateDups2, h.fst_get, h.snd_get]
      simp only [Option.bind_eq_bind, Option.bind_some]
      by_cases ha : (type.sides a).isSome
      · rw [if_pos ha]
        rcases Option.isSome_iff_exists.mp ha with ⟨⟨l, r⟩, hsides⟩
        rcases h.fst_sides hsides with ⟨m, hl, hr⟩
        refine .inTurn (ih hl) fun e' c himp => ?_
        rcases hr.improved himp with ⟨_, _, hr', _⟩
        exact ih hr'
      · rw [if_neg ha]
        have hla : type.operator.IsLeaf a := Option.not_isSome_iff_eq_none.mp ha
        refine .inTurn ?_ fun e' c himp => ?_
        · show Returns st type e (if _ then _ else _)
          split_ifs with hb
          · rcases Option.isSome_iff_exists.mp hb with ⟨⟨l, r⟩, hsides⟩
            rcases h.snd_sides hsides with ⟨m, hl, hr⟩
            refine .inTurn (ih hl) fun e' c himp => ?_
            rcases hr.improved himp with ⟨_, _, hr', _⟩
            exact ih hr'
          · exact .unchanged e
        · show Returns st type e' (if _ then _ else _)
          split_ifs with hpq
          · exact .unchanged e'
          · rcases h.improved himp with ⟨a', b', h', hsame⟩
            have hla' := hsame.isLeaf hla
            exact decideLeaf_returns h'.fst_get hla' h'.snd_get fun type' =>
              ih (h'.leaf hla' hpq type')

/-! ## The loop -/

/-- `symbol_yes` or `symbol_no`. -/
def Expr.IsYn (e : Expr) : Prop := e = .symbol symbolYes ∨ e = .symbol symbolNo

theorem foldYn_size_lt (type : Junction) {l r : Expr} (h : l.IsYn ∨ r.IsYn) :
    (foldYn type l r).size < l.size + r.size + 1 := by
  have := l.size_pos
  have := r.size_pos
  unfold foldYn
  split_ifs with h1 h2 h3 h4
  · simp only [Expr.size]
    omega
  · omega
  · simp only [Expr.size]
    omega
  · omega
  · exfalso
    cases type <;> rcases h with (h | h) | (h | h) <;>
      simp_all [Junction.unit, Junction.dual]

/-- A constant in a junction is removed. -/
theorem exprEliminateYn_of_containsYn (e : Expr) (hyn : e.containsYn = true) :
    e.IsYn ∧ exprEliminateYn e = e ∨ (exprEliminateYn e).size < e.size := by
  -- a constant on either side is folded away, whatever becomes of the other
  have hnode : ∀ type : Junction, ∀ l r : Expr,
      (l.containsYn = true → l.IsYn ∧ exprEliminateYn l = l ∨ (exprEliminateYn l).size < l.size) →
      (r.containsYn = true → r.IsYn ∧ exprEliminateYn r = r ∨ (exprEliminateYn r).size < r.size) →
      l.containsYn = true ∨ r.containsYn = true →
      (foldYn type (exprEliminateYn l) (exprEliminateYn r)).size < l.size + r.size + 1 := by
    intro type l r ihl ihr hlr
    have hl := exprEliminateYn_size_le l
    have hr := exprEliminateYn_size_le r
    have hle := foldYn_size_le type (exprEliminateYn l) (exprEliminateYn r)
    rcases hlr with hlyn | hryn
    · rcases ihl hlyn with ⟨hyn, heq⟩ | hlt
      · have := foldYn_size_lt type (r := exprEliminateYn r) (.inl (heq.symm ▸ hyn))
        omega
      · omega
    · rcases ihr hryn with ⟨hyn, heq⟩ | hlt
      · have := foldYn_size_lt type (l := exprEliminateYn l) (.inr (heq.symm ▸ hyn))
        omega
      · omega
  induction e with
  | symbol s =>
      left
      simp only [Expr.containsYn, Bool.or_eq_true, beq_iff_eq] at hyn
      refine ⟨?_, rfl⟩
      rcases hyn with rfl | rfl
      · exact .inl rfl
      · exact .inr rfl
  | and l r ihl ihr =>
      rw [Expr.containsYn, Bool.or_eq_true] at hyn
      exact .inr (hnode .and l r ihl ihr hyn)
  | or l r ihl ihr =>
      rw [Expr.containsYn, Bool.or_eq_true] at hyn
      exact .inr (hnode .or l r ihl ihr hyn)
  | not e _ => cases hyn
  | equal l r => cases hyn
  | unequal l r => cases hyn

theorem exprEliminateYn_size_lt (hj : e.junction = some type) (hyn : e.containsYn = true) :
    (exprEliminateYn e).size < e.size := by
  rcases exprEliminateYn_of_containsYn e hyn with ⟨h | h, _⟩ | hlt
  · rw [h] at hj
    cases hj
  · rw [h] at hj
    cases hj
  · exact hlt

theorem exprEliminateDupsOnce_spec (st : SymInfo) {n : ℕ}
    (hn : dupsDepth e.size + e.size + e.size < n) :
    ∃ e' count, exprEliminateDupsOnce st n e = some (e', count) ∧ e'.size ≤ e.size ∧
      (0 < count → (exprEliminateYn e').size < e.size) ∧
      ∀ cf, WellTyped st cf → (e.value cf).Refines (e'.value cf) := by
  cases hj : e.junction with
  | none => exact ⟨e, 0, by rw [exprEliminateDupsOnce, inJunction, hj], Nat.le_refl _,
      fun h => absurd h (Nat.lt_irrefl 0), fun cf _ => .refl _⟩
  | some type =>
      have hreturns : Returns st type e (inTurn (fun e => exprEliminateDups1 st n type e [] [])
          (fun e => exprEliminateDups2 st n type e [] []) e) := by
        refine .inTurn (exprEliminateDups1_returns (.whole type hn)) fun e' c himp => ?_
        rcases (Reaches.whole type hn).improved himp with ⟨_, _, h', _⟩
        exact exprEliminateDups2_returns h'
      rcases hreturns with ⟨e', count, hcall, himp⟩
      refine ⟨e', count, by rw [exprEliminateDupsOnce, inJunction, hj]; exact hcall, himp.size_le,
        fun hpos => ?_, himp.refines⟩
      have := exprEliminateYn_size_lt (himp.junction hj) (himp.counted hpos)
      have := himp.size_le
      omega

theorem exprEliminateDupsLoop_spec (st : SymInfo) {k n : ℕ} (hk : e.size < k)
    (hn : dupsDepth e.size + e.size + e.size < n) :
    ∃ e', exprEliminateDupsLoop st k n e = some e' ∧
      ∀ cf, WellTyped st cf → (e.value cf).Refines (e'.value cf) := by
  induction k generalizing e with
  | zero => omega
  | succ k ih =>
      rcases exprEliminateDupsOnce_spec st hn with ⟨e', count, hcall, hsize, hlt, href⟩
      rw [exprEliminateDupsLoop, hcall]
      simp only [Option.bind_eq_bind, Option.bind_some]
      split_ifs with hcount
      · exact ⟨e', rfl, href⟩
      · have hlt := hlt (Nat.pos_of_ne_zero hcount)
        have hdepth := dupsDepth_mono (Nat.le_of_lt hlt)
        rcases ih (e := exprEliminateYn e') (by omega) (by omega) with ⟨e'', hloop, href'⟩
        refine ⟨e'', hloop, fun cf hcf => (href cf hcf).trans ?_⟩
        rw [← value_exprEliminateYn hcf e']
        exact href' cf hcf

/-! ## The bounds do not matter -/

/-- The second result is the first one, unless this is missing. -/
def Extends {α : Type} (o o' : Option α) : Prop := ∀ r, o = some r → o' = some r

theorem Extends.refl {α : Type} (o : Option α) : Extends o o := fun _ h => h

theorem Extends.bind {α β : Type} {o o' : Option α} {f f' : α → Option β} (h : Extends o o')
    (hf : ∀ a, Extends (f a) (f' a)) : Extends (o.bind f) (o'.bind f') := by
  intro r hr
  rcases Option.bind_eq_some_iff.mp hr with ⟨a, ha, hfa⟩
  rw [h a ha, Option.bind_some]
  exact hf a r hfa

theorem Extends.inTurn {first first' second second' : Expr → Option (Expr × ℕ)}
    (h : ∀ e, Extends (first e) (first' e)) (h' : ∀ e, Extends (second e) (second' e)) (e : Expr) :
    Extends (inTurn first second e) (inTurn first' second' e) :=
  (h e).bind fun _ => (h' _).bind fun _ => .refl _

theorem Extends.inJunction {call call' : Junction → Option (Expr × ℕ)}
    (h : ∀ type, Extends (call type) (call' type)) (e : Expr) :
    Extends (inJunction call e) (inJunction call' e) := by
  unfold Pbs.Kconfig.inJunction
  cases e.junction with
  | none => exact .refl _
  | some type => exact h type

theorem Extends.decideLeaf {call call' : Junction → Expr → Option (Expr × ℕ)}
    (h : ∀ type e, Extends (call type e) (call' type e)) (type : Junction) (e : Expr)
    (p q : Place) :
    Extends (decideLeaf st call type e p q) (decideLeaf st call' type e p q) := by
  refine .bind (.refl _) fun e1 => ?_
  cases e1.junction with
  | none => exact .refl _
  | some type' => exact (h type' e1).bind fun _ => .refl _

theorem exprEliminateDups1_succ (n : ℕ) (type : Junction) (e : Expr) (p q : Place) :
    Extends (exprEliminateDups1 st n type e p q) (exprEliminateDups1 st (n + 1) type e p q) := by
  induction n generalizing type e p q with
  | zero =>
      intro r hr
      cases hr
  | succ n ih =>
      rw [exprEliminateDups1, exprEliminateDups1]
      refine .bind (.refl _) fun e1 => .bind (.refl _) fun e2 => ?_
      split_ifs
      · exact .inTurn (fun e => ih _ _ _ _) (fun e => ih _ _ _ _) e
      · exact .inTurn (fun e => ih _ _ _ _) (fun e => ih _ _ _ _) e
      · exact .refl _
      · exact (Extends.inJunction (fun type' => ih _ _ _ _) e1).bind fun _ => .refl _

theorem exprEliminateDups2_succ (n : ℕ) (type : Junction) (e : Expr) (p q : Place) :
    Extends (exprEliminateDups2 st n type e p q) (exprEliminateDups2 st (n + 1) type e p q) := by
  induction n generalizing type e p q with
  | zero =>
      intro r hr
      cases hr
  | succ n ih =>
      rw [exprEliminateDups2, exprEliminateDups2]
      refine .bind (.refl _) fun e1 => .bind (.refl _) fun e2 => ?_
      by_cases h1 : (type.sides e1).isSome
      · rw [if_pos h1, if_pos h1]
        exact .inTurn (fun e => ih _ _ _ _) (fun e => ih _ _ _ _) e
      · rw [if_neg h1, if_neg h1]
        refine .inTurn (fun e => ?_) (fun e => ?_) e
        · by_cases h2 : (type.sides e2).isSome
          · simp only [if_pos h2]
            exact .inTurn (fun e => ih _ _ _ _) (fun e => ih _ _ _ _) e
          · simp only [if_neg h2]
            exact .refl _
        · by_cases hpq : p = q
          · simp only [if_pos hpq]
            exact .refl _
          · simp only [if_neg hpq]
            exact .decideLeaf (fun type' e1 => ih _ _ _ _) type e p q

theorem exprEliminateDupsLoop_succ_right (k n : ℕ) (e : Expr) :
    Extends (exprEliminateDupsLoop st k n e) (exprEliminateDupsLoop st k (n + 1) e) := by
  induction k generalizing e with
  | zero => exact .refl _
  | succ k ih =>
      rw [exprEliminateDupsLoop, exprEliminateDupsLoop]
      refine .bind (Extends.inJunction (fun type => .inTurn (fun e => ?_) (fun e => ?_) e) e)
        fun r => ?_
      · exact exprEliminateDups1_succ n type e [] []
      · exact exprEliminateDups2_succ n type e [] []
      · by_cases hr : r.2 = 0
        · simp only [if_pos hr]
          exact .refl _
        · simp only [if_neg hr]
          exact ih _

theorem exprEliminateDupsLoop_succ_left (k n : ℕ) (e : Expr) :
    Extends (exprEliminateDupsLoop st k n e) (exprEliminateDupsLoop st (k + 1) n e) := by
  induction k generalizing e with
  | zero =>
      intro r hr
      cases hr
  | succ k ih =>
      rw [exprEliminateDupsLoop, exprEliminateDupsLoop]
      refine .bind (.refl _) fun r => ?_
      by_cases hr : r.2 = 0
      · simp only [if_pos hr]
        exact .refl _
      · simp only [if_neg hr]
        exact ih _

theorem exprEliminateDupsLoop_mono {k k' n n' : ℕ} (hk : k ≤ k') (hn : n ≤ n') (e : Expr) :
    Extends (exprEliminateDupsLoop st k n e) (exprEliminateDupsLoop st k' n' e) := by
  intro r hr
  have hkr : exprEliminateDupsLoop st k' n e = some r := by
    induction hk with
    | refl => exact hr
    | step _ ih => exact exprEliminateDupsLoop_succ_left _ n e r ih
  induction hn with
  | refl => exact hkr
  | step _ ih => exact exprEliminateDupsLoop_succ_right k' _ e r ih

/-- The loop ends, and what it returns does not depend on the bounds. -/
theorem exprEliminateDupsLoop_eq (st : SymInfo) {k n : ℕ} (hk : e.size < k)
    (hn : dupsDepth e.size + e.size + e.size < n) :
    exprEliminateDupsLoop st k n e = some (exprEliminateDups st e) := by
  rcases exprEliminateDupsLoop_spec st (Nat.lt_succ_self e.size)
    (Nat.lt_succ_self (dupsDepth e.size + e.size + e.size)) with ⟨e', hloop, _⟩
  have hdups : exprEliminateDups st e = e' := by rw [exprEliminateDups, hloop, Option.getD_some]
  rw [hdups]
  exact exprEliminateDupsLoop_mono hk hn e e' hloop

/-- What `expr_eliminate_dups` returns has the value of the expression, or this value is `m`. -/
theorem exprEliminateDups_refines (h : WellTyped st cf) (e : Expr) :
    (e.value cf).Refines ((exprEliminateDups st e).value cf) := by
  rcases exprEliminateDupsLoop_spec st (Nat.lt_succ_self e.size)
    (Nat.lt_succ_self (dupsDepth e.size + e.size + e.size)) with ⟨e', hloop, href⟩
  rw [exprEliminateDups, hloop, Option.getD_some]
  exact href cf h

/-- The loop of `expr_eliminate_dups` ends for every expression, with the same result under all
large enough bounds, and this has the value of the expression wherever it is `n` or `y`. -/
theorem exprEliminateDups_correct {st : SymInfo} {cf : Conf} (h : WellTyped st cf) (e : Expr) :
    (∀ k n, e.size < k → dupsDepth e.size + e.size + e.size < n →
      exprEliminateDupsLoop st k n e = some (exprEliminateDups st e)) ∧
    (exprCalcValue cf (some e) ≠ .mod →
      exprCalcValue cf (some (exprEliminateDups st e)) = exprCalcValue cf (some e)) := by
  constructor
  · intro k n hk hn
    exact exprEliminateDupsLoop_eq st hk hn
  · intro hdefinite
    rcases exprEliminateDups_refines h e with hmod | heq
    · exact absurd hmod hdefinite
    · exact heq.symm

theorem exprEliminateDups_correct_twoSymbols :
    exprCalcValue (twoSymbolsAt .yes)
        (some (exprEliminateDups twoSymbols (.and (.symbol 4) (.and (.symbol 3) (.symbol 4))))) =
          .yes :=
  (exprEliminateDups_correct (wellTyped_twoSymbols .yes) _).2 (by decide)

end Pbs.Kconfig
