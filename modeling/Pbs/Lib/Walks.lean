import Mathlib.Logic.Relation
import Mathlib.Order.WellFounded
import Mathlib.Data.Nat.Find
import Mathlib.Data.Set.Finite.Basic
import Mathlib.Data.Set.Card
import Mathlib.Algebra.Order.BigOperators.Group.List
import Mathlib.Algebra.Order.Ring.Nat

/-!
# Walks in a finitely branching graph

A graph is given by its successor lists, so edges carry multiplicities.

* `Bounded n a` — every walk from `a` takes fewer than `n` steps. This is the
  exact condition under which a recursion over the successors, started at `a`
  with fuel `n`, comes to an end.
* `paths n a t` — the number of non-empty walks of at most `n` steps from `a`
  to `t`, counted with multiplicity (`ncard_walks`).

A graph without cycles on a finite closed set of nodes is bounded
(`bounded_of_acyclic`), and the number of walks that end in a node strictly
grows along every edge (`totalPaths_lt_of_edge`).
-/

namespace Walks

open Relation

variable {α : Type*} (succ : α → List α)

/-- One step of a walk. -/
def Edge (a b : α) : Prop := b ∈ succ a

/-- Every walk from `a` takes fewer than `n` steps. -/
def Bounded : ℕ → α → Prop
  | 0, _ => False
  | n + 1, a => ∀ b ∈ succ a, Bounded n b

/-- No node of `nodes` lies on a cycle. -/
def AcyclicOn (nodes : List α) : Prop := ∀ a ∈ nodes, ¬ TransGen (Edge succ) a a

/-! ## Bounded walks and cycles -/

variable {succ}

theorem Bounded.succ_of_le : ∀ {n m : ℕ} {a : α}, Bounded succ n a → n ≤ m → Bounded succ m a
  | 0, _, _, h, _ => h.elim
  | _ + 1, 0, _, _, hle => absurd hle (Nat.not_succ_le_zero _)
  | _ + 1, _ + 1, _, h, hle => fun b hb => (h b hb).succ_of_le (Nat.le_of_succ_le_succ hle)

theorem Bounded.edge {n : ℕ} {a b : α} (h : Bounded succ (n + 1) a) (hab : Edge succ a b) :
    Bounded succ n b :=
  h b hab

instance Bounded.decidable [DecidableEq α] : ∀ (n : ℕ) (a : α), Decidable (Bounded succ n a)
  | 0, _ => isFalse id
  | n + 1, a => @List.decidableBAll α (Bounded succ n) (Bounded.decidable n) (succ a)

/-- A node with bounded walks is on no cycle. -/
theorem Bounded.not_cycle {n : ℕ} {a : α} (h : Bounded succ n a) :
    ¬ TransGen (Edge succ) a a := by
  induction n generalizing a with
  | zero => exact h.elim
  | succ n ih =>
      intro hcyc
      -- rotate the cycle to its second node, whose bound is smaller
      rcases TransGen.head'_iff.mp hcyc with ⟨b, hab, hba⟩
      exact ih (h.edge hab) (TransGen.tail' hba hab)

theorem mem_of_transGen {nodes : List α} (hclosed : ∀ a ∈ nodes, ∀ b ∈ succ a, b ∈ nodes)
    {a b : α} (ha : a ∈ nodes) (hab : TransGen (Edge succ) a b) : b ∈ nodes := by
  induction hab with
  | single hstep => exact hclosed a ha _ hstep
  | tail _ hstep ih => exact hclosed _ ih _ hstep

/-- A graph whose edges are walks of an acyclic graph is acyclic. -/
theorem AcyclicOn.of_edge {succ' : α → List α} {nodes : List α} (h : AcyclicOn succ nodes)
    (hedge : ∀ a b, Edge succ' a b → TransGen (Edge succ) a b) : AcyclicOn succ' nodes :=
  fun a ha hcyc => h a ha (TransGen.closed hedge a a hcyc)

/-- Where loops at a single node are the only cycles, a graph without such loops
is acyclic. -/
theorem acyclicOn_of_no_loops [DecidableEq α] {nodes : List α}
    (hclosed : ∀ a ∈ nodes, ∀ b ∈ succ a, b ∈ nodes)
    (hac : AcyclicOn (fun a => (succ a).filter (· ≠ a)) nodes)
    (hloop : ∀ a ∈ nodes, ¬ Edge succ a a) : AcyclicOn succ nodes := by
  intro a ha hcyc
  refine hac a ha ?_
  -- a walk stays in the list, where dropping the loops drops no edge
  have hkeep : ∀ {b c : α}, b ∈ nodes → Edge succ b c →
      Edge (fun a => (succ a).filter (· ≠ a)) b c := by
    intro b c hb hbc
    have hne : c ≠ b := fun heq => hloop b hb (heq ▸ hbc)
    exact List.mem_filter.mpr ⟨hbc, by simpa using hne⟩
  suffices hwalk : ∀ c, TransGen (Edge succ) a c →
      TransGen (Edge fun a => (succ a).filter (· ≠ a)) a c from hwalk a hcyc
  intro c hac'
  induction hac' with
  | single hstep => exact TransGen.single (hkeep ha hstep)
  | tail hwalk hstep ih => exact TransGen.tail ih (hkeep (mem_of_transGen hclosed ha hwalk) hstep)

/-- The converse of `Bounded.not_cycle` on a finite set of nodes that is closed
under taking steps. -/
theorem exists_bounded_of_acyclic {nodes : List α}
    (hclosed : ∀ a ∈ nodes, ∀ b ∈ succ a, b ∈ nodes) (hac : AcyclicOn succ nodes) :
    ∀ a ∈ nodes, ∃ n, Bounded succ n a := by
  classical
  let r : {a // a ∈ nodes} → {a // a ∈ nodes} → Prop :=
    fun x y => TransGen (Edge succ) y.1 x.1
  have hfin : Finite {a // a ∈ nodes} := (List.finite_toSet nodes).to_subtype
  have htrans : IsTrans _ r := ⟨fun _ _ _ hxy hyz => hyz.trans hxy⟩
  have hirr : Std.Irrefl r := ⟨fun x => hac x.1 x.2⟩
  have hwf : WellFounded r := Finite.wellFounded_of_trans_of_irrefl r
  suffices hall : ∀ x : {a // a ∈ nodes}, ∃ n, Bounded succ n x.1 by
    intro a ha
    exact hall ⟨a, ha⟩
  intro x
  induction x using hwf.induction with
  | _ x ih =>
    -- the bounds of the successors have a common upper bound
    have hcommon : ∀ l : List α, (∀ b ∈ l, b ∈ succ x.1) → ∃ n, ∀ b ∈ l, Bounded succ n b := by
      intro l
      induction l with
      | nil => exact fun _ => ⟨0, by simp⟩
      | cons b l ihl =>
          intro hl
          have hb : b ∈ succ x.1 := hl b (List.mem_cons_self ..)
          -- a successor is below `x` in the order of walks
          rcases ih ⟨b, hclosed x.1 x.2 b hb⟩ (TransGen.single hb) with ⟨n, hn⟩
          rcases ihl (fun c hc => hl c (List.mem_cons_of_mem b hc)) with ⟨m, hm⟩
          refine ⟨max n m, fun c hc => ?_⟩
          rcases List.mem_cons.mp hc with rfl | hc
          · exact hn.succ_of_le (le_max_left n m)
          · exact (hm c hc).succ_of_le (le_max_right n m)
    rcases hcommon (succ x.1) (fun _ hb => hb) with ⟨n, hn⟩
    exact ⟨n + 1, hn⟩

/-- One bound for all nodes. -/
theorem bounded_of_acyclic {nodes : List α}
    (hclosed : ∀ a ∈ nodes, ∀ b ∈ succ a, b ∈ nodes) (hac : AcyclicOn succ nodes) :
    ∃ n, ∀ a ∈ nodes, Bounded succ n a := by
  have hex := exists_bounded_of_acyclic hclosed hac
  suffices hall : ∀ l : List α, (∀ a ∈ l, a ∈ nodes) → ∃ n, ∀ a ∈ l, Bounded succ n a from
    hall nodes (fun _ ha => ha)
  intro l
  induction l with
  | nil => exact fun _ => ⟨0, by simp⟩
  | cons a l ihl =>
      intro hl
      rcases hex a (hl a (List.mem_cons_self ..)) with ⟨n, hn⟩
      rcases ihl (fun c hc => hl c (List.mem_cons_of_mem a hc)) with ⟨m, hm⟩
      refine ⟨max n m, fun c hc => ?_⟩
      rcases List.mem_cons.mp hc with rfl | hc
      · exact hn.succ_of_le (le_max_left n m)
      · exact (hm c hc).succ_of_le (le_max_right n m)

/-- The nodes of such a graph can be ranked, with smaller ranks for the
successors. -/
theorem exists_rank_of_acyclic {nodes : List α}
    (hclosed : ∀ a ∈ nodes, ∀ b ∈ succ a, b ∈ nodes) (hac : AcyclicOn succ nodes) :
    ∃ (n : ℕ) (rank : α → ℕ), ∀ a ∈ nodes, rank a ≤ n ∧ ∀ b ∈ succ a, rank b < rank a := by
  classical
  rcases bounded_of_acyclic hclosed hac with ⟨n, hn⟩
  -- the rank is the smallest bound
  let rank : α → ℕ := fun a => if h : ∃ k, Bounded succ k a then Nat.find h else 0
  have hrank : ∀ a ∈ nodes, Bounded succ (rank a) a ∧ ∀ k, Bounded succ k a → rank a ≤ k := by
    intro a ha
    have hex : ∃ k, Bounded succ k a := ⟨n, hn a ha⟩
    have heq : rank a = Nat.find hex := dif_pos hex
    exact heq ▸ ⟨Nat.find_spec hex, fun k hk => Nat.find_min' hex hk⟩
  refine ⟨n, rank, fun a ha => ⟨(hrank a ha).2 n (hn a ha), fun b hb => ?_⟩⟩
  have hbound := (hrank a ha).1
  cases hk : rank a with
  | zero => exact (hk ▸ hbound).elim
  | succ k =>
      rw [hk] at hbound
      exact Nat.lt_succ_of_le ((hrank b (hclosed a ha b hb)).2 k (hbound.edge hb))

/-- If any two consecutive `N` steps are one edge, a node with bounded walks is
on no `N` cycle, although a single `N` step need not be an edge. -/
theorem Bounded.not_cycle_of_two_steps {N : α → α → Prop} {n : ℕ} {a : α}
    (htwo : ∀ a b c, N a b → N b c → Edge succ a c) (h : Bounded succ n a) :
    ¬ TransGen N a a := by
  induction n generalizing a with
  | zero => exact h.elim
  | succ n ih =>
      intro hcyc
      rcases TransGen.head'_iff.mp hcyc with ⟨b, hab, hba⟩
      rcases ReflTransGen.cases_head hba with rfl | ⟨c, hbc, hca⟩
      · exact h.not_cycle (TransGen.single (htwo b b b hab hab))
      · -- two steps on: `c` is a successor of `a` and on the same cycle
        have hcyc' : TransGen N c c := TransGen.tail (TransGen.tail' hca hab) hbc
        exact ih (h.edge (htwo a b c hab hbc)) hcyc'

/-! ## Walks as sequences of edges

A walk from `a` is given by the positions of its edges in the successor lists,
so parallel edges are told apart. -/

variable (succ) in
/-- The end of the walk from `a` along the edges `p`. -/
def follow : α → List ℕ → Option α
  | a, [] => some a
  | a, i :: p => (succ a)[i]?.bind fun b => follow b p

theorem follow_cons_eq_some {a t : α} {i : ℕ} {p : List ℕ} :
    follow succ a (i :: p) = some t ↔ ∃ b, (succ a)[i]? = some b ∧ follow succ b p = some t :=
  Option.bind_eq_some_iff

/-- A walk from a node with bounded walks has fewer steps than the bound. -/
theorem Bounded.length_lt {n : ℕ} {a t : α} {p : List ℕ} (hb : Bounded succ n a)
    (h : follow succ a p = some t) : p.length < n := by
  induction p generalizing n a with
  | nil =>
      cases n with
      | zero => exact hb.elim
      | succ n => exact Nat.succ_pos n
  | cons i p ih =>
      cases n with
      | zero => exact hb.elim
      | succ n =>
          rcases follow_cons_eq_some.mp h with ⟨b, hi, hp⟩
          exact Nat.succ_lt_succ (ih (hb b (List.mem_of_getElem? hi)) hp)

/-! ## Counting walks -/

variable [DecidableEq α] (succ)

/-- The number of non-empty walks of at most `n` steps from `a` to `t`. -/
def paths : ℕ → α → α → ℕ
  | 0, _, _ => 0
  | n + 1, a, t => ((succ a).map fun b => (if b = t then 1 else 0) + paths n b t).sum

/-- The walks counted by `paths`, from all the nodes of a list. -/
def totalPaths (n : ℕ) (nodes : List α) (t : α) : ℕ :=
  (nodes.map fun a => paths succ n a t).sum

variable {succ}

/-- Beyond the bound there is nothing left to count. -/
theorem Bounded.paths_eq {n m : ℕ} {a t : α} (h : Bounded succ n a) (hle : n ≤ m) :
    paths succ m a t = paths succ n a t := by
  induction n generalizing m a with
  | zero => exact h.elim
  | succ n ih =>
      cases m with
      | zero => exact absurd hle (Nat.not_succ_le_zero n)
      | succ m =>
          have hmap : (succ a).map (fun b => (if b = t then 1 else 0) + paths succ m b t) =
              (succ a).map (fun b => (if b = t then 1 else 0) + paths succ n b t) :=
            List.map_congr_left fun b hb => by
              rw [ih (h b hb) (Nat.le_of_succ_le_succ hle)]
          simp only [paths, hmap]

theorem totalPaths_eq {n m : ℕ} {nodes : List α} {t : α} (hb : ∀ a ∈ nodes, Bounded succ n a)
    (hle : n ≤ m) : totalPaths succ m nodes t = totalPaths succ n nodes t :=
  congrArg List.sum (List.map_congr_left fun a ha => (hb a ha).paths_eq hle)

/-- The start of an edge to `d` has at least one edge to `d`. -/
theorem one_le_edges {p d : α} (hpd : Edge succ p d) (a : α) :
    (if a = p then 1 else 0) ≤ ((succ a).map fun b => if b = d then 1 else 0).sum := by
  by_cases hap : a = p
  · subst hap
    rw [if_pos rfl]
    exact List.single_le_sum (by simp) 1 (List.mem_map.mpr ⟨d, hpd, by simp⟩)
  · simp [hap]

/-- Every walk to `p` can be prolonged by an edge from `p` to `d`; the edge
itself is one walk more, for the walks that start at `p`. -/
theorem paths_extend {p d : α} (hpd : Edge succ p d) (n : ℕ) (a : α) :
    paths succ n a p + (if a = p then 1 else 0) ≤ paths succ (n + 1) a d := by
  induction n generalizing a with
  | zero => simpa [paths] using one_le_edges hpd a
  | succ n ih =>
      have hrest : ((succ a).map fun b => (if b = p then 1 else 0) + paths succ n b p).sum ≤
          ((succ a).map fun b => paths succ (n + 1) b d).sum := by
        refine List.sum_le_sum fun b _ => ?_
        rw [Nat.add_comm]
        exact ih b
      have hsplit : paths succ (n + 1 + 1) a d =
          ((succ a).map fun b => if b = d then 1 else 0).sum +
            ((succ a).map fun b => paths succ (n + 1) b d).sum := by
        rw [paths, List.sum_map_add]
      -- the edges to `d` prolong the walk of no steps, the rest prolongs the others
      rw [hsplit, paths, Nat.add_comm]
      exact Nat.add_le_add (one_le_edges hpd a) hrest

/-- The number of walks that end in a node strictly grows along an edge. -/
theorem totalPaths_lt_of_edge {n : ℕ} {nodes : List α} {p d : α}
    (hb : ∀ a ∈ nodes, Bounded succ n a) (hp : p ∈ nodes) (hpd : Edge succ p d) :
    totalPaths succ n nodes p < totalPaths succ n nodes d := by
  have hsum : (nodes.map fun a => paths succ n a p + (if a = p then 1 else 0)).sum ≤
      (nodes.map fun a => paths succ n a d).sum := by
    refine List.sum_le_sum fun a ha => ?_
    have hext := paths_extend hpd n a
    -- within the bound one step more makes no difference
    rwa [(hb a ha).paths_eq (Nat.le_succ n)] at hext
  have hone : 1 ≤ (nodes.map fun a => if a = p then 1 else 0).sum :=
    List.single_le_sum (by simp) 1 (List.mem_map.mpr ⟨p, hp, by simp⟩)
  rw [List.sum_map_add] at hsum
  unfold totalPaths
  omega

/-- The same along a walk, if its nodes stay in the list. -/
theorem totalPaths_lt_of_transGen {n : ℕ} {nodes : List α} {p d : α}
    (hclosed : ∀ a ∈ nodes, ∀ b ∈ succ a, b ∈ nodes)
    (hb : ∀ a ∈ nodes, Bounded succ n a) (hp : p ∈ nodes)
    (hpd : TransGen (Edge succ) p d) :
    d ∈ nodes ∧ totalPaths succ n nodes p < totalPaths succ n nodes d := by
  induction hpd with
  | single hstep => exact ⟨hclosed p hp _ hstep, totalPaths_lt_of_edge hb hp hstep⟩
  | tail _ hstep ih =>
      exact ⟨hclosed _ ih.1 _ hstep, ih.2.trans (totalPaths_lt_of_edge hb ih.1 hstep)⟩

/-! ## Counting sequences of edges -/

variable (succ) in
/-- The non-empty walks of at most `n` steps from `a` to `t`. -/
def walksTo : ℕ → α → α → List (List ℕ)
  | 0, _, _ => []
  | n + 1, a, t => (succ a).zipIdx.flatMap fun e =>
      (if e.1 = t then [[e.2]] else []) ++ (walksTo n e.1 t).map (e.2 :: ·)

theorem length_walksTo (n : ℕ) (a t : α) : (walksTo succ n a t).length = paths succ n a t := by
  induction n generalizing a with
  | zero => rfl
  | succ n ih =>
      have hlen : ∀ e : α × ℕ,
          ((if e.1 = t then [[e.2]] else []) ++ (walksTo succ n e.1 t).map (e.2 :: ·)).length =
            (if e.1 = t then 1 else 0) + paths succ n e.1 t := by
        intro e
        rw [List.length_append, List.length_map, ih]
        split <;> rfl
      rw [walksTo, List.length_flatMap, paths]
      simp only [hlen]
      -- the positions do not matter for the sum
      rw [← List.zipIdx_map_fst 0 (succ a), List.map_map, List.zipIdx_map_fst]
      rfl

theorem mem_walksTo {n : ℕ} {a t : α} {p : List ℕ} :
    p ∈ walksTo succ n a t ↔ p ≠ [] ∧ p.length ≤ n ∧ follow succ a p = some t := by
  induction n generalizing a p with
  | zero => cases p <;> simp [walksTo]
  | succ n ih =>
      simp only [walksTo, List.mem_flatMap, List.mem_append, List.mem_map, ih, Prod.exists,
        List.mem_zipIdx_iff_getElem?]
      constructor
      · rintro ⟨b, i, hi, hp | ⟨q, ⟨_, hlen, hq⟩, rfl⟩⟩
        · by_cases hbt : b = t
          · rw [if_pos hbt, List.mem_singleton] at hp
            subst hp hbt
            exact ⟨by simp, by simp, follow_cons_eq_some.mpr ⟨b, hi, rfl⟩⟩
          · simp [hbt] at hp
        · exact ⟨by simp, by simpa using hlen, follow_cons_eq_some.mpr ⟨b, hi, hq⟩⟩
      · rintro ⟨hne, hlen, hp⟩
        cases p with
        | nil => exact absurd rfl hne
        | cons i q =>
            rcases follow_cons_eq_some.mp hp with ⟨b, hi, hq⟩
            refine ⟨b, i, hi, ?_⟩
            -- the walk ends with this edge, or a walk from its end follows
            by_cases hnil : q = []
            · subst hnil
              have hbt : b = t := by simpa [follow] using hq
              exact Or.inl (by simp [hbt])
            · exact Or.inr ⟨q, ⟨hnil, by simpa using hlen, hq⟩, rfl⟩

theorem walksTo_nodup (n : ℕ) (a t : α) : (walksTo succ n a t).Nodup := by
  induction n generalizing a with
  | zero => exact List.nodup_nil
  | succ n ih =>
      refine List.nodup_flatMap.mpr ⟨fun e _ => ?_, ?_⟩
      · have hcons : ((walksTo succ n e.1 t).map (e.2 :: ·)).Nodup :=
          (ih e.1).map (fun _ _ h => (List.cons.inj h).2)
        have hnil : [e.2] ∉ (walksTo succ n e.1 t).map (e.2 :: ·) := by
          intro hmem
          rcases List.mem_map.mp hmem with ⟨q, hq, heq⟩
          exact (mem_walksTo.mp hq).1 (List.cons.inj heq).2
        by_cases het : e.1 = t
        · rw [if_pos het]
          exact List.nodup_cons.mpr ⟨hnil, hcons⟩
        · rw [if_neg het]
          exact hcons
      · -- walks with different first edges are different
        have hidx : ((succ a).zipIdx.map Prod.snd).Nodup := by
          rw [List.zipIdx_map_snd]
          exact List.nodup_range'
        refine (List.pairwise_map.mp hidx).imp fun {e e'} hne p hp hp' => hne ?_
        have hhead : ∀ e : α × ℕ, p ∈ (if e.1 = t then [[e.2]] else []) ++
            (walksTo succ n e.1 t).map (e.2 :: ·) → p.head? = some e.2 := by
          intro e hp
          rcases List.mem_append.mp hp with hp | hp
          · split at hp
            · rw [List.mem_singleton.mp hp]
              rfl
            · simp at hp
          · rcases List.mem_map.mp hp with ⟨q, _, rfl⟩
            rfl
        exact Option.some.inj ((hhead e hp).symm.trans (hhead e' hp'))

variable (succ) in
/-- The non-empty walks to `t` that start in one of the nodes, each with its
start. -/
def walkSet (nodes : List α) (t : α) : Set (α × List ℕ) :=
  {w | w.1 ∈ nodes ∧ w.2 ≠ [] ∧ follow succ w.1 w.2 = some t}

variable (succ) in
/-- The walks of at most `n` steps among them. -/
def allWalksTo (n : ℕ) (nodes : List α) (t : α) : List (α × List ℕ) :=
  nodes.flatMap fun a => (walksTo succ n a t).map (a, ·)

theorem walks_eq {n : ℕ} {nodes : List α} (t : α) (hb : ∀ a ∈ nodes, Bounded succ n a) :
    walkSet succ nodes t = ↑(allWalksTo succ n nodes t).toFinset := by
  ext ⟨a, p⟩
  simp only [walkSet, Set.mem_ofPred_eq, allWalksTo, List.coe_toFinset, List.mem_flatMap,
    List.mem_map, mem_walksTo, Prod.mk.injEq]
  constructor
  · rintro ⟨ha, hne, hp⟩
    exact ⟨a, ha, p, ⟨hne, ((hb a ha).length_lt hp).le, hp⟩, rfl, rfl⟩
  · rintro ⟨a', ha, p', ⟨hne, _, hp⟩, rfl, rfl⟩
    exact ⟨ha, hne, hp⟩

theorem finite_walks {n : ℕ} {nodes : List α} (t : α) (hb : ∀ a ∈ nodes, Bounded succ n a) :
    (walkSet succ nodes t).Finite := by
  rw [walks_eq t hb]
  exact Finset.finite_toSet _

theorem allWalksTo_nodup (n : ℕ) {nodes : List α} (t : α) (hnodup : nodes.Nodup) :
    (allWalksTo succ n nodes t).Nodup := by
  refine List.nodup_flatMap.mpr ⟨fun a _ => ?_, ?_⟩
  · exact (walksTo_nodup n a t).map fun _ _ h => (Prod.mk.inj h).2
  · refine hnodup.imp fun {a b} hne w hw hw' => hne ?_
    rcases List.mem_map.mp hw with ⟨_, _, rfl⟩
    rcases List.mem_map.mp hw' with ⟨_, _, heq⟩
    exact (Prod.mk.inj heq).1.symm

/-- Within the bound, `totalPaths` counts the walks. -/
theorem ncard_walks {n : ℕ} {nodes : List α} (t : α) (hnodup : nodes.Nodup)
    (hb : ∀ a ∈ nodes, Bounded succ n a) :
    (walkSet succ nodes t).ncard = totalPaths succ n nodes t := by
  rw [walks_eq t hb, Set.ncard_coe_finset,
    List.toFinset_card_of_nodup (allWalksTo_nodup n t hnodup), allWalksTo, List.length_flatMap,
    totalPaths]
  simp only [List.length_map, length_walksTo]

end Walks
