import Mathlib.Data.Set.Basic

/-!
# Descending along first choices

A list of steps, each of which offers choices that depend on what has been chosen
before. `reach` collects the ends of all choices. `descend` goes on with the first
choice of every step only, and ends with all choices of the last one; it gets stuck at a
step that offers nothing, unless this is the last.

The places that it comes by are described by `Follows`. It does not get stuck if there
is something to choose at each of them (`descend_isSome_iff`), and what there is to find
at the ends is all that there is if the first choice leads to as much as the others
(`descend_complete_iff`).
-/

namespace Descent

variable {α β : Type*}

/-- The ends of all choices. -/
def reach : List (α → List α) → α → List α
  | [], a => [a]
  | step :: steps, a => (step a).flatMap (reach steps)

/-- Go on with the first choice. -/
def descend : List (α → List α) → List α → Option (List α)
  | [], as => some as
  | _ :: _, [] => none
  | step :: steps, a :: _ => descend steps (step a)

/-- The first choices of the steps lead from one place to another. -/
inductive Follows : List (α → List α) → α → α → Prop where
  | nil {a : α} : Follows [] a a
  | cons {step : α → List α} {steps : List (α → List α)} {a b c : α} :
      (step a).head? = some b → Follows steps b c → Follows (step :: steps) a c

/-- What there is to find at the ends. -/
def Below (results : α → Set β) (steps : List (α → List α)) (a : α) : Set β :=
  {x | ∃ b ∈ reach steps a, x ∈ results b}

/-! ## Steps one by one -/

/-- Before the last step, only the first choice counts. -/
theorem descend_step (step : α → List α) {steps : List (α → List α)} (hne : steps ≠ []) (a : α) :
    descend (step :: steps) [a] =
      match step a with
      | [] => none
      | b :: _ => descend steps [b] := by
  rw [descend]
  cases steps with
  | nil => exact absurd rfl hne
  | cons next steps =>
      cases step a with
      | nil => rfl
      | cons b bs => rfl

theorem reach_singleton (step : α → List α) (a : α) : reach [step] a = step a := by
  simp [reach]

theorem below_cons {results : α → Set β} {step : α → List α} {steps : List (α → List α)} {a : α}
    {x : β} :
    x ∈ Below results (step :: steps) a ↔ ∃ b ∈ step a, x ∈ Below results steps b := by
  constructor
  · rintro ⟨c, hc, hx⟩
    rcases List.mem_flatMap.mp hc with ⟨b, hb, hc⟩
    exact ⟨b, hb, c, hc, hx⟩
  · rintro ⟨b, hb, c, hc, hx⟩
    exact ⟨c, List.mem_flatMap.mpr ⟨b, hb, hc⟩, hx⟩

/-- A step of a list is its head, or a step of its tail. -/
theorem forall_step_cons {step : α → List α} {steps : List (α → List α)}
    {P : List (α → List α) → (α → List α) → List (α → List α) → Prop} :
    (∀ before s after, step :: steps = before ++ s :: after → P before s after) ↔
      P [] step steps ∧
        ∀ before s after, steps = before ++ s :: after → P (step :: before) s after := by
  constructor
  · intro h
    refine ⟨h [] step steps rfl, fun before s after hsplit => ?_⟩
    exact h (step :: before) s after (by rw [hsplit, List.cons_append])
  · rintro ⟨hhead, htail⟩ before s after hsplit
    cases before with
    | nil =>
        rcases List.cons.inj hsplit with ⟨rfl, rfl⟩
        exact hhead
    | cons b before =>
        rcases List.cons.inj hsplit with ⟨rfl, hsplit'⟩
        exact htail before s after hsplit'

/-- A condition on all steps but the last, at the places that are come by. -/
def AlongSteps (P : (α → List α) → List (α → List α) → α → Prop) (steps : List (α → List α))
    (a : α) : Prop :=
  ∀ before step after, steps = before ++ step :: after → after ≠ [] →
    ∀ b, Follows before a b → P step after b

variable {P : (α → List α) → List (α → List α) → α → Prop}

theorem alongSteps_nil (a : α) : AlongSteps P [] a := by
  intro before step after hsplit
  simp at hsplit

theorem alongSteps_singleton (step : α → List α) (a : α) : AlongSteps P [step] a := by
  intro before s after hsplit hne
  have hlength := congrArg List.length hsplit
  have hpos := List.length_pos_iff.mpr hne
  simp only [List.length_append, List.length_cons, List.length_nil] at hlength
  omega

theorem alongSteps_cons {step : α → List α} {steps : List (α → List α)} (hne : steps ≠ [])
    {a : α} :
    AlongSteps P (step :: steps) a ↔
      P step steps a ∧ ∀ b, (step a).head? = some b → AlongSteps P steps b := by
  rw [AlongSteps, forall_step_cons]
  constructor
  · rintro ⟨hhead, htail⟩
    refine ⟨hhead hne a .nil, fun b hb before s after hsplit hafter c hc => ?_⟩
    exact htail before s after hsplit hafter c (.cons hb hc)
  · rintro ⟨hhead, htail⟩
    constructor
    · intro _ b hb
      cases hb
      exact hhead
    · intro before s after hsplit hafter c hc
      cases hc with
      | cons hb hc => exact htail _ hb before s after hsplit hafter c hc

/-- Where the steps come from a list of something else. -/
theorem alongSteps_map {γ : Type*} {f : γ → α → List α} {gs : List γ} {a : α} :
    AlongSteps P (gs.map f) a ↔
      ∀ before g after, gs = before ++ g :: after → after ≠ [] →
        ∀ b, Follows (before.map f) a b → P (f g) (after.map f) b := by
  constructor
  · intro h before g after hsplit hafter b hb
    refine h (before.map f) (f g) (after.map f) ?_ (by simpa using hafter) b hb
    rw [hsplit, List.map_append, List.map_cons]
  · intro h before step after hsplit hafter b hb
    rcases List.map_eq_append_iff.mp hsplit with ⟨xs, ys, rfl, rfl, hys⟩
    rcases List.map_eq_cons_iff.mp hys with ⟨g, zs, rfl, rfl, rfl⟩
    refine h xs g zs rfl (by simpa using hafter) b hb

/-! ## What is found -/

/-- The descent does not get stuck where there is something to choose. -/
theorem descend_isSome_iff (steps : List (α → List α)) (a : α) :
    (∃ bs, descend steps [a] = some bs) ↔ AlongSteps (fun step _ b => step b ≠ []) steps a := by
  induction steps generalizing a with
  | nil => exact iff_of_true ⟨[a], rfl⟩ (alongSteps_nil a)
  | cons step steps ih =>
      by_cases hne : steps = []
      · subst hne
        exact iff_of_true ⟨step a, rfl⟩ (alongSteps_singleton step a)
      · rw [alongSteps_cons hne, descend_step step hne]
        cases hstep : step a with
        | nil => simp
        | cons b bs => simp [ih b]

theorem subset_reach {steps : List (α → List α)} {a : α} {bs : List α}
    (h : descend steps [a] = some bs) : bs ⊆ reach steps a := by
  induction steps generalizing a with
  | nil =>
      cases h
      exact List.Subset.refl _
  | cons step steps ih =>
      by_cases hne : steps = []
      · subst hne
        rw [reach_singleton]
        cases h
        exact List.Subset.refl _
      · rw [descend_step step hne] at h
        cases hstep : step a with
        | nil =>
            rw [hstep] at h
            cases h
        | cons c cs =>
            rw [hstep] at h
            intro b hb
            rw [reach, hstep, List.flatMap_cons]
            exact List.mem_append_left _ (ih h hb)

/-- All that there is to find is found by the descent. -/
def Complete (results : α → Set β) (steps : List (α → List α)) (a : α) : Prop :=
  ∃ bs, descend steps [a] = some bs ∧ ∀ x ∈ Below results steps a, ∃ b ∈ bs, x ∈ results b

/-- The descent is complete exactly when the first choice of every step but the last
leads to all that the other choices lead to. -/
theorem descend_complete_iff (results : α → Set β) (steps : List (α → List α)) (a : α) :
    Complete results steps a ↔
      AlongSteps (fun step after b => ∃ c, (step b).head? = some c ∧
        ∀ d ∈ step b, Below results after d ⊆ Below results after c) steps a := by
  induction steps generalizing a with
  | nil =>
      refine iff_of_true ⟨[a], rfl, ?_⟩ (alongSteps_nil a)
      rintro x ⟨b, hb, hx⟩
      exact ⟨b, hb, hx⟩
  | cons step steps ih =>
      by_cases hne : steps = []
      · subst hne
        refine iff_of_true ⟨step a, rfl, ?_⟩ (alongSteps_singleton step a)
        rintro x ⟨b, hb, hx⟩
        rw [reach_singleton] at hb
        exact ⟨b, hb, hx⟩
      · rw [alongSteps_cons hne]
        cases hstep : step a with
        | nil =>
            refine iff_of_false ?_ (by simp)
            rintro ⟨bs, hbs, _⟩
            rw [descend_step step hne, hstep] at hbs
            cases hbs
        | cons c cs =>
            have hdescend : descend (step :: steps) [a] = descend steps [c] := by
              rw [descend_step step hne, hstep]
            constructor
            · rintro ⟨bs, hbs, hall⟩
              rw [hdescend] at hbs
              -- what is found has been found behind the first choice
              have hfirst : Below results (step :: steps) a ⊆ Below results steps c := by
                intro x hx
                rcases hall x hx with ⟨b, hb, hxb⟩
                exact ⟨b, subset_reach hbs hb, hxb⟩
              have hbelow : ∀ d ∈ step a, Below results steps d ⊆ Below results (step :: steps) a :=
                fun d hd x hx => below_cons.mpr ⟨d, hd, hx⟩
              refine ⟨⟨c, rfl, fun d hd x hx => hfirst (hbelow d (hstep ▸ hd) hx)⟩, ?_⟩
              intro b hb
              cases hb
              refine (ih c).mp ⟨bs, hbs, fun x hx => hall x ?_⟩
              exact hbelow c (hstep ▸ List.mem_cons_self ..) hx
            · rintro ⟨⟨b, hb, hfirst⟩, hrest⟩
              cases hb
              rcases (ih c).mpr (hrest c rfl) with ⟨bs, hbs, hall⟩
              refine ⟨bs, hdescend.trans hbs, fun x hx => hall x ?_⟩
              rcases below_cons.mp hx with ⟨d, hd, hxd⟩
              exact hfirst d (hstep ▸ hd) hxd

end Descent
