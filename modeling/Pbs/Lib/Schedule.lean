import Pbs.Lib.StableSort
import Mathlib.Data.List.Infix
import Mathlib.Logic.Relation

/-!
# Jobs in a row

A schedule gives every job a time at which it starts and one at which it ends; jobs
may overlap. It respects a relation when a job starts after the jobs it needs have
ended. What a job needs may be handed on from neighbour to neighbour in a list: the
transitive closure of that is the order of the list (`transGen_next_iff`), and a
schedule that respects a relation respects its transitive closure.
-/

namespace Schedules

open Relation StableSort

variable {J τ : Type*}

/-! ## Neighbours in a list -/

/-- `b` stands right behind `a`. -/
def Next (l : List J) (a b : J) : Prop := [a, b] <:+: l

theorem next_cons_cons {l : List J} {x y a b : J} :
    Next (x :: y :: l) a b ↔ (a = x ∧ b = y) ∨ Next (y :: l) a b := by
  unfold Next
  rw [List.infix_cons_iff]
  refine or_congr_left ?_
  constructor
  · intro h
    have hhead := List.cons_prefix_cons.mp h
    exact ⟨hhead.1, (List.cons_prefix_cons.mp hhead.2).1⟩
  · rintro ⟨rfl, rfl⟩
    exact List.prefix_append [a, b] l

theorem not_next_singleton {x a b : J} : ¬ Next [x] a b := by
  intro h
  have := h.length_le
  simp at this

theorem Next.precedes {l : List J} {a b : J} (h : Next l a b) : Precedes l a b := h.sublist

theorem next_reverse {l : List J} {a b : J} : Next l.reverse a b ↔ Next l b a := by
  unfold Next
  rw [← List.reverse_infix, List.reverse_reverse]
  rfl

theorem transGen_next_of_precedes {l : List J} {a b : J} (h : Precedes l a b) :
    TransGen (Next l) a b := by
  induction l generalizing a with
  | nil => exact absurd h.mem_left (by simp)
  | cons x l ih =>
      cases l with
      | nil =>
          rcases precedes_cons_iff.mp h with ⟨_, hb⟩ | h
          · cases hb
          · exact absurd h.mem_left (by simp)
      | cons y l =>
          have hmono : ∀ c d, Next (y :: l) c d → Next (x :: y :: l) c d :=
            fun c d hcd => next_cons_cons.mpr (Or.inr hcd)
          rcases precedes_cons_iff.mp h with ⟨rfl, hb⟩ | h
          · have hfirst : Next (a :: y :: l) a y := next_cons_cons.mpr (Or.inl ⟨rfl, rfl⟩)
            rcases List.mem_cons.mp hb with rfl | hb
            · exact TransGen.single hfirst
            · have hrest := ih (precedes_cons_iff.mpr (Or.inl ⟨rfl, hb⟩))
              exact TransGen.head hfirst (hrest.lift id hmono)
          · exact (ih h).lift id hmono

/-- To go from neighbour to neighbour is to follow the order of the list. -/
theorem transGen_next_iff {l : List J} (hnd : l.Nodup) {a b : J} :
    TransGen (Next l) a b ↔ Precedes l a b := by
  constructor
  · intro h
    induction h with
    | single h => exact h.precedes
    | tail _ h ih => exact ih.trans hnd h.precedes
  · exact transGen_next_of_precedes

/-! ## Schedules -/

/-- When the jobs run. -/
structure Schedule (J τ : Type*) [Preorder τ] where
  start : J → τ
  finish : J → τ
  start_le_finish : ∀ j, start j ≤ finish j

variable [Preorder τ]

/-- No job starts before the jobs it needs have ended. -/
def Schedule.Respects (s : Schedule J τ) (needs : J → J → Prop) : Prop :=
  ∀ j k, needs j k → s.finish k ≤ s.start j

theorem Schedule.Respects.transGen {s : Schedule J τ} {needs : J → J → Prop}
    (h : s.Respects needs) : s.Respects (TransGen needs) := by
  intro j k hjk
  induction hjk with
  | single hjk => exact h _ _ hjk
  | tail _ hkl ih =>
      calc s.finish _ ≤ s.start _ := h _ _ hkl
        _ ≤ s.finish _ := s.start_le_finish _
        _ ≤ s.start j := ih

end Schedules
