import Mathlib.Logic.Basic

/-!
# Programs over a state that may have no result

A `Regime` is an invariant of the state, the changes that a part of a program may make, and
what is owed where a program has no result: the impossible, for total correctness, or
nothing. `Gives` says that a program run under a regime keeps the invariant and the limits
on changes, and leaves a state with a property. The rules put such programs together; a
property that no allowed change destroys (`Stable`) is there afterwards too.
-/

namespace StateSpec

variable {σ α β : Type}

/-- An invariant, the changes that are allowed, and whether a program may have no result. -/
structure Regime (σ : Type) where
  inv : σ → Prop
  step : σ → σ → Prop
  stuck : Prop
  refl : ∀ s, step s s
  trans : ∀ {s s' s''}, step s s' → step s' s'' → step s s''

variable (R : Regime σ)

/-- What a run from `s` may come to. -/
def Regime.Outcome (s : σ) (post : α → σ → Prop) : Option (α × σ) → Prop
  | none => R.stuck
  | some (a, s') => R.inv s' ∧ R.step s s' ∧ post a s'

/-- What the program comes to from every state with `pre`. -/
def Regime.Gives (pre : σ → Prop) (x : StateT σ Option α) (post : α → σ → Prop) : Prop :=
  ∀ s, R.inv s → pre s → R.Outcome s post (x s)

/-- The program keeps to the regime. -/
def Regime.Runs (x : StateT σ Option α) : Prop :=
  R.Gives (fun _ => True) x fun _ _ => True

/-- Nothing that is allowed makes a property false. -/
def Regime.Stable (p : σ → Prop) : Prop :=
  ∀ s s', R.inv s → R.inv s' → R.step s s' → p s → p s'

variable {R} {pre pre' : σ → Prop} {x : StateT σ Option α} {f : α → StateT σ Option β}
  {post post' : α → σ → Prop}

namespace Regime

theorem Gives.imp (h : R.Gives pre x post) (hpre : ∀ s, R.inv s → pre' s → pre s)
    (hpost : ∀ a s, R.inv s → post a s → post' a s) : R.Gives pre' x post' := by
  intro s hinv hs
  have hrun := h s hinv (hpre s hinv hs)
  revert hrun
  cases x s with
  | none => exact id
  | some r =>
      intro hrun
      exact ⟨hrun.1, hrun.2.1, hpost _ _ hrun.1 hrun.2.2⟩

theorem Gives.of_post (h : R.Gives pre x post) (hpost : ∀ a s, R.inv s → post a s → post' a s) :
    R.Gives pre x post' :=
  h.imp (fun _ _ hs => hs) hpost

theorem Gives.of_pre {p q : σ → Prop} (h : R.Gives p x post) (hpre : ∀ s, R.inv s → q s → p s) :
    R.Gives q x post :=
  h.imp hpre fun _ _ _ ha => ha

/-- Where a program has to have a result, it has one. -/
theorem Gives.exists_run (h : R.Gives pre x post) (hstuck : ¬ R.stuck) {s : σ} (hinv : R.inv s)
    (hs : pre s) : ∃ a s', x s = some (a, s') ∧ R.inv s' ∧ R.step s s' ∧ post a s' := by
  have hrun := h s hinv hs
  revert hrun
  cases x s with
  | none => exact fun hrun => (hstuck hrun).elim
  | some r => exact fun hrun => ⟨r.1, r.2, rfl, hrun⟩

/-- What holds of a result that is there. -/
theorem Gives.of_run (h : R.Gives pre x post) {s s' : σ} {a : α} (hinv : R.inv s) (hs : pre s)
    (hrun : x s = some (a, s')) : R.inv s' ∧ R.step s s' ∧ post a s' := by
  have hout := h s hinv hs
  rw [hrun] at hout
  exact hout

/-- A fact that is not about the state. -/
theorem gives_of_fact {p : Prop} (h : p → R.Gives pre x post) :
    R.Gives (fun s => p ∧ pre s) x post := by
  intro s hinv hs
  exact h hs.1 s hinv hs.2

theorem gives_pure {a : α} (h : ∀ s, R.inv s → pre s → post a s) : R.Gives pre (pure a) post := by
  intro s hinv hs
  exact ⟨hinv, R.refl s, h s hinv hs⟩

theorem gives_ite {c : Prop} [Decidable c] {y : StateT σ Option α} (hx : c → R.Gives pre x post)
    (hy : ¬ c → R.Gives pre y post) : R.Gives pre (if c then x else y) post := by
  split
  case isTrue hc => exact hx hc
  case isFalse hc => exact hy hc

theorem Gives.bind {q : α → σ → Prop} {post : β → σ → Prop} (hx : R.Gives pre x q)
    (hf : ∀ a, R.Gives (q a) (f a) post) : R.Gives pre (x >>= f) post := by
  intro s hinv hs
  show R.Outcome s post ((x s).bind fun p => f p.1 p.2)
  have hrun := hx s hinv hs
  revert hrun
  cases x s with
  | none => exact id
  | some r =>
      intro hrun
      have hrest := hf r.1 r.2 hrun.1 hrun.2.2
      revert hrest
      show R.Outcome r.2 post (f r.1 r.2) → R.Outcome s post (f r.1 r.2)
      cases f r.1 r.2 with
      | none => exact id
      | some r' =>
          intro hrest
          exact ⟨hrest.1, R.trans hrun.2.1 hrest.2.1, hrest.2.2⟩

/-- The state that is read has every property that is known. -/
theorem gives_get {post : β → σ → Prop} {f : σ → StateT σ Option β}
    (h : ∀ s, R.inv s → pre s → R.Gives (fun s' => s' = s) (f s) post) :
    R.Gives pre (get >>= f) post := by
  intro s hinv hs
  exact h s hinv hs s hinv rfl

theorem gives_modify {g : σ → σ} {post : Unit → σ → Prop}
    (h : ∀ s, R.inv s → pre s → R.inv (g s) ∧ R.step s (g s) ∧ post () (g s)) :
    R.Gives pre (modify g) post := by
  intro s hinv hs
  exact h s hinv hs

/-- A property that is stable stays. -/
theorem Gives.and_stable (h : R.Gives pre x post) {p : σ → Prop} (hp : R.Stable p) :
    R.Gives (fun s => pre s ∧ p s) x fun a s => post a s ∧ p s := by
  intro s hinv hs
  have hrun := h s hinv hs.1
  revert hrun
  cases x s with
  | none => exact id
  | some r =>
      intro hrun
      exact ⟨hrun.1, hrun.2.1, hrun.2.2, hp s r.2 hinv hrun.1 hrun.2.1 hs.2⟩

theorem Stable.and {p q : σ → Prop} (hp : R.Stable p) (hq : R.Stable q) :
    R.Stable fun s => p s ∧ q s := by
  intro s s' hinv hinv' hstep h
  exact ⟨hp s s' hinv hinv' hstep h.1, hq s s' hinv hinv' hstep h.2⟩

/-- What is known before is known afterwards, where it is stable. -/
theorem Gives.keep (h : R.Gives pre x post) (hp : R.Stable pre) :
    R.Gives pre x fun a s => post a s ∧ pre s :=
  (h.and_stable hp).of_pre fun _ _ hs => ⟨hs, hs⟩

/-! ## Programs of which only the run is of interest -/

theorem runs_pure (a : α) : R.Runs (pure a : StateT σ Option α) :=
  gives_pure fun _ _ _ => trivial

theorem Runs.bind (hx : R.Runs x) (hf : ∀ a, R.Runs (f a)) : R.Runs (x >>= f) :=
  Gives.bind hx hf

/-- The result has a property that the rest of the program needs. -/
theorem Gives.runs_bind {p : α → Prop} (hx : R.Gives (fun _ => True) x fun a _ => p a)
    (hf : ∀ a, p a → R.Runs (f a)) : R.Runs (x >>= f) := by
  apply Gives.bind hx
  intro a s hinv ha
  exact hf a ha s hinv trivial

theorem runs_get {f : σ → StateT σ Option β} (h : ∀ s, R.Runs (f s)) : R.Runs (get >>= f) :=
  gives_get fun s _ _ => (h s).of_pre fun _ _ _ => trivial

theorem runs_modify {g : σ → σ} (h : ∀ s, R.inv s → R.inv (g s) ∧ R.step s (g s)) :
    R.Runs (modify g) :=
  gives_modify fun s hinv _ => ⟨(h s hinv).1, (h s hinv).2, trivial⟩

theorem runs_ite {c : Prop} [Decidable c] {y : StateT σ Option α} (hx : R.Runs x) (hy : R.Runs y) :
    R.Runs (if c then x else y) :=
  gives_ite (fun _ => hx) fun _ => hy

end Regime

/-! ## Two programs -/

/-- Two programs do the same in every state with an invariant, and keep it. -/
def Agree (inv : σ → Prop) (x y : StateT σ Option α) : Prop :=
  ∀ s, inv s → x s = y s ∧ ∀ p ∈ x s, inv p.2

variable {inv : σ → Prop} {x y : StateT σ Option α} {f g : α → StateT σ Option β}

theorem agree_pure (a : α) : Agree inv (pure a : StateT σ Option α) (pure a) := by
  intro s hs
  refine ⟨rfl, ?_⟩
  intro p hp
  cases hp
  exact hs

theorem Agree.bind (hx : Agree inv x y) (hf : ∀ a, Agree inv (f a) (g a)) :
    Agree inv (x >>= f) (y >>= g) := by
  intro s hs
  show (x s).bind (fun p => f p.1 p.2) = (y s).bind (fun p => g p.1 p.2) ∧
    ∀ p ∈ (x s).bind fun p => f p.1 p.2, inv p.2
  obtain ⟨heq, hinv⟩ := hx s hs
  rw [← heq]
  revert hinv
  cases x s with
  | none =>
      intro _
      refine ⟨rfl, ?_⟩
      intro p hp
      cases hp
  | some r =>
      intro hinv
      exact hf r.1 r.2 (hinv r rfl)

theorem agree_get {f g : σ → StateT σ Option β} (h : ∀ s, Agree inv (f s) (g s)) :
    Agree inv (get >>= f) (get >>= g) := by
  intro s hs
  exact h s s hs

theorem agree_modify {h : σ → σ} (hinv : ∀ s, inv s → inv (h s)) :
    Agree inv (modify h : StateT σ Option Unit) (modify h) := by
  intro s hs
  refine ⟨rfl, ?_⟩
  intro p hp
  cases hp
  exact hinv s hs

theorem agree_ite {c : Prop} [Decidable c] {x' y' : StateT σ Option α} (hx : c → Agree inv x y)
    (hy : ¬ c → Agree inv x' y') : Agree inv (if c then x else x') (if c then y else y') := by
  split
  case isTrue hc => exact hx hc
  case isFalse hc => exact hy hc

end StateSpec
