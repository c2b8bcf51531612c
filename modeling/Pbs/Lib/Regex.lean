import Mathlib.Data.List.Infix
import Mathlib.Data.List.Lex
import Mathlib.Data.List.MinMax
import Mathlib.Data.Nat.Notation

/-!
# Regular expressions

Regular expressions over characters, with the texts they match (`Matches`) and a
function for the places at which a match may end (`ends`). `found` says whether a
match occurs somewhere in a text.

A bracketed expression is a list of pieces, and a match of it cuts the text into a
segment for each piece and a rest (`Cuts`). `capture` is the leftmost-longest rule at
the beginning of a text: the match is as long as possible, and then every segment, from
the first one on.
-/

namespace Regexes

abbrev Text := List Char

inductive Regex where
  | char (p : Char → Bool)
  | eps
  | seq (r s : Regex)
  | alt (r s : Regex)
  | star (r : Regex)

namespace Regex

/-- `.` -/
def any : Regex := .char fun _ => true

/-- The characters of a text. -/
def lit (text : Text) : Regex := text.foldr (fun c r => .seq (.char (· == c)) r) .eps

/-- `r?` -/
def opt (r : Regex) : Regex := .alt r .eps

/-- `r+` -/
def plus (r : Regex) : Regex := .seq r (.star r)

end Regex

open Regex

/-- The texts that match. -/
inductive Matches : Regex → Text → Prop where
  | char {p : Char → Bool} {c : Char} : p c = true → Matches (.char p) [c]
  | eps : Matches .eps []
  | seq {r s x y} : Matches r x → Matches s y → Matches (.seq r s) (x ++ y)
  | altLeft {r s x} : Matches r x → Matches (.alt r s) x
  | altRight {r s x} : Matches s x → Matches (.alt r s) x
  | starNil {r} : Matches (.star r) []
  | starCons {r x y} : x ≠ [] → Matches r x → Matches (.star r) y → Matches (.star r) (x ++ y)

/-! ## Finding matches -/

/-- What may be left of a text behind repeated matches; `step` gives what is left
behind one. -/
def starEnds (step : Text → List Text) : ℕ → Text → List Text
  | 0, text => [text]
  | n + 1, text =>
      text :: ((step text).filter fun rest => rest.length < text.length).flatMap (starEnds step n)

/-- What may be left of a text behind a match at its beginning. -/
def ends : Regex → Text → List Text
  | .char _, [] => []
  | .char p, c :: rest => if p c then [rest] else []
  | .eps, text => [text]
  | .seq r s, text => (ends r text).flatMap (ends s)
  | .alt r s, text => ends r text ++ ends s text
  | .star r, text => starEnds (ends r) text.length text

/-- A match occurs in the text. -/
def found (r : Regex) (text : Text) : Bool :=
  text.tails.any fun rest => ends r rest ≠ []

theorem mem_starEnds {r : Regex} {step : Text → List Text}
    (hstep : ∀ text rest, rest ∈ step text ↔ ∃ x, text = x ++ rest ∧ Matches r x) (n : ℕ)
    {text rest : Text} (hn : text.length ≤ n) :
    rest ∈ starEnds step n text ↔ ∃ x, text = x ++ rest ∧ Matches (.star r) x := by
  induction n generalizing text with
  | zero =>
      have hnil : text = [] := List.length_eq_zero_iff.mp (Nat.le_zero.mp hn)
      subst hnil
      rw [starEnds, List.mem_singleton]
      constructor
      · rintro rfl
        exact ⟨[], rfl, .starNil⟩
      · rintro ⟨x, hx, _⟩
        exact (List.append_eq_nil_iff.mp hx.symm).2
  | succ n ih =>
      rw [starEnds, List.mem_cons, List.mem_flatMap]
      constructor
      · rintro (rfl | ⟨mid, hmid, hrest⟩)
        · exact ⟨[], rfl, .starNil⟩
        · have hmem := List.mem_filter.mp hmid
          -- only a match that takes a character leaves less text for the induction
          have hlt : mid.length < text.length := by simpa using hmem.2
          rcases (hstep text mid).mp hmem.1 with ⟨x, rfl, hx⟩
          rcases (ih (by omega)).mp hrest with ⟨y, rfl, hy⟩
          refine ⟨x ++ y, by rw [List.append_assoc], .starCons ?_ hx hy⟩
          rintro rfl
          simp at hlt
      · rintro ⟨x, rfl, hx⟩
        cases hx with
        | starNil => exact Or.inl rfl
        | starCons hne hx hy =>
            rename_i u v
            -- `starCons` asks for a match that is not empty, so the filter lets it through
            have hpos := List.length_pos_iff.mpr hne
            refine Or.inr ⟨v ++ rest, List.mem_filter.mpr ⟨?_, ?_⟩, (ih ?_).mpr ⟨v, rfl, hy⟩⟩
            · exact (hstep _ _).mpr ⟨u, by rw [List.append_assoc], hx⟩
            · simp only [List.length_append, decide_eq_true_eq]
              omega
            · simp only [List.length_append] at hn ⊢
              omega

/-- `ends` finds the matches at the beginning of a text. -/
theorem mem_ends {r : Regex} {text rest : Text} :
    rest ∈ ends r text ↔ ∃ x, text = x ++ rest ∧ Matches r x := by
  induction r generalizing text rest with
  | char p =>
      cases text with
      | nil =>
          constructor
          · intro h
            cases h
          · rintro ⟨x, hx, hmatch⟩
            cases hmatch
            cases hx
      | cons c text =>
          rw [ends]
          constructor
          · intro h
            by_cases hc : p c = true
            · rw [if_pos hc, List.mem_singleton] at h
              exact ⟨[c], by rw [h]; rfl, .char hc⟩
            · rw [if_neg hc] at h
              cases h
          · rintro ⟨x, hx, hmatch⟩
            cases hmatch with
            | char hc =>
                rcases List.cons.inj hx with ⟨rfl, rfl⟩
                rw [if_pos hc]
                exact List.mem_singleton_self _
  | eps =>
      rw [ends, List.mem_singleton]
      constructor
      · rintro rfl
        exact ⟨[], rfl, .eps⟩
      · rintro ⟨x, rfl, hmatch⟩
        cases hmatch
        rfl
  | seq r s ihr ihs =>
      rw [ends, List.mem_flatMap]
      constructor
      · rintro ⟨mid, hmid, hrest⟩
        rcases ihr.mp hmid with ⟨x, rfl, hx⟩
        rcases ihs.mp hrest with ⟨y, rfl, hy⟩
        exact ⟨x ++ y, by rw [List.append_assoc], .seq hx hy⟩
      · rintro ⟨x, rfl, hmatch⟩
        cases hmatch with
        | seq hx hy =>
            rename_i u v
            exact ⟨v ++ rest, ihr.mpr ⟨u, by rw [List.append_assoc], hx⟩, ihs.mpr ⟨v, rfl, hy⟩⟩
  | alt r s ihr ihs =>
      rw [ends, List.mem_append, ihr, ihs]
      constructor
      · rintro (⟨x, rfl, hx⟩ | ⟨x, rfl, hx⟩)
        · exact ⟨x, rfl, .altLeft hx⟩
        · exact ⟨x, rfl, .altRight hx⟩
      · rintro ⟨x, rfl, hmatch⟩
        cases hmatch with
        | altLeft hx => exact Or.inl ⟨x, rfl, hx⟩
        | altRight hx => exact Or.inr ⟨x, rfl, hx⟩
  | star r ih => exact mem_starEnds (fun text rest => ih) _ (Nat.le_refl _)

theorem found_iff {r : Regex} {text : Text} :
    found r text = true ↔ ∃ before x after, text = before ++ x ++ after ∧ Matches r x := by
  rw [found, List.any_eq_true]
  constructor
  · rintro ⟨rest, hrest, hends⟩
    have hends : ends r rest ≠ [] := by simpa using hends
    rcases (List.mem_tails rest text).mp hrest with ⟨before, hbefore⟩
    rcases List.exists_mem_of_ne_nil _ hends with ⟨after, hafter⟩
    rcases mem_ends.mp hafter with ⟨x, rfl, hx⟩
    exact ⟨before, x, after, by rw [← hbefore, List.append_assoc], hx⟩
  · rintro ⟨before, x, after, rfl, hx⟩
    refine ⟨x ++ after, (List.mem_tails _ _).mpr ⟨before, by rw [List.append_assoc]⟩, ?_⟩
    have hmem : after ∈ ends r (x ++ after) := mem_ends.mpr ⟨x, rfl, hx⟩
    simpa using List.ne_nil_of_mem hmem

/-! ## The texts of single expressions -/

theorem matches_lit {text x : Text} : Matches (lit text) x ↔ x = text := by
  induction text generalizing x with
  | nil =>
      constructor
      · intro h
        cases h
        rfl
      · rintro rfl
        exact .eps
  | cons c text ih =>
      constructor
      · intro h
        cases h with
        | seq hchar hrest =>
            cases hchar with
            | char hc =>
                rw [ih.mp hrest, beq_iff_eq.mp hc]
                rfl
      · rintro rfl
        exact .seq (x := [c]) (.char (by simp)) (ih.mpr rfl)

theorem matches_star_char {p : Char → Bool} {x : Text} :
    Matches (.star (.char p)) x ↔ ∀ c ∈ x, p c = true := by
  constructor
  · intro h
    generalize hr : Regex.star (.char p) = r at h
    induction h with
    | starNil => simp
    | starCons hne hx hy ihx ihy =>
        cases hr
        cases hx with
        | char hc =>
            intro d hd
            rcases List.mem_cons.mp hd with rfl | hd
            · exact hc
            · exact ihy rfl d hd
    | _ => cases hr
  · intro h
    induction x with
    | nil => exact .starNil
    | cons c x ih =>
        refine .starCons (x := [c]) (by simp) (.char (h c (by simp))) (ih fun d hd => ?_)
        exact h d (List.mem_cons_of_mem c hd)

/-- `.*` matches everything. -/
theorem matches_star_any (x : Text) : Matches (.star any) x :=
  matches_star_char.mpr fun _ _ => rfl

theorem matches_seq {r s : Regex} {z : Text} :
    Matches (.seq r s) z ↔ ∃ x y, z = x ++ y ∧ Matches r x ∧ Matches s y := by
  constructor
  · intro h
    cases h with
    | seq hx hy => exact ⟨_, _, rfl, hx, hy⟩
  · rintro ⟨x, y, rfl, hx, hy⟩
    exact .seq hx hy

theorem matches_opt {r : Regex} {x : Text} : Matches (opt r) x ↔ Matches r x ∨ x = [] := by
  constructor
  · intro h
    cases h with
    | altLeft h => exact Or.inl h
    | altRight h =>
        cases h
        exact Or.inr rfl
  · rintro (h | rfl)
    · exact .altLeft h
    · exact .altRight .eps

theorem matches_plus_char {p : Char → Bool} {x : Text} :
    Matches (plus (.char p)) x ↔ x ≠ [] ∧ ∀ c ∈ x, p c = true := by
  rw [plus, matches_seq]
  constructor
  · rintro ⟨y, z, rfl, hy, hz⟩
    cases hy with
    | char hc =>
        refine ⟨by simp, fun d hd => ?_⟩
        rcases List.mem_cons.mp hd with rfl | hd
        · exact hc
        · exact matches_star_char.mp hz d hd
  · rintro ⟨hne, h⟩
    rcases List.exists_cons_of_ne_nil hne with ⟨c, x, rfl⟩
    refine ⟨[c], x, rfl, .char (h c (by simp)), matches_star_char.mpr fun d hd => ?_⟩
    exact h d (List.mem_cons_of_mem c hd)

/-! ## Bracketed expressions -/

/-- The text begins with segments that match the pieces one by one. -/
inductive Cuts : List Regex → Text → List Text → Prop where
  | nil {text} : Cuts [] text []
  | cons {r pieces x text segments} : Matches r x → Cuts pieces text segments →
      Cuts (r :: pieces) (x ++ text) (x :: segments)

/-- The segments of all matches at the beginning of a text. -/
def cuts : List Regex → Text → List (List Text)
  | [], _ => [[]]
  | r :: pieces, text =>
      (ends r text).flatMap fun rest =>
        (cuts pieces rest).map (text.take (text.length - rest.length) :: ·)

/-- Longer matches are better, and then longer segments, from the first one on. -/
def rank (segments : List Text) : List ℕ :=
  segments.flatten.length :: segments.map List.length

/-- The segments of the best match at the beginning of a text. -/
def capture (pieces : List Regex) (text : Text) : Option (List Text) :=
  (cuts pieces text).argmax rank

theorem mem_cuts {pieces : List Regex} {text : Text} {segments : List Text} :
    segments ∈ cuts pieces text ↔ Cuts pieces text segments := by
  induction pieces generalizing text segments with
  | nil =>
      rw [cuts, List.mem_singleton]
      constructor
      · rintro rfl
        exact .nil
      · intro h
        cases h
        rfl
  | cons r pieces ih =>
      have htake : ∀ x rest : Text, (x ++ rest).take ((x ++ rest).length - rest.length) = x := by
        intro x rest
        rw [List.length_append, Nat.add_sub_cancel, List.take_left']
        rfl
      rw [cuts, List.mem_flatMap]
      constructor
      · rintro ⟨rest, hrest, hmem⟩
        rcases mem_ends.mp hrest with ⟨x, rfl, hx⟩
        rcases List.mem_map.mp hmem with ⟨segments', hsegments, rfl⟩
        rw [htake]
        exact .cons hx (ih.mp hsegments)
      · intro h
        cases h with
        | cons hx hcuts =>
            rename_i x rest segments'
            refine ⟨rest, mem_ends.mpr ⟨x, rfl, hx⟩, List.mem_map.mpr ⟨segments', ih.mpr hcuts, ?_⟩⟩
            rw [htake]

theorem capture_eq_none {pieces : List Regex} {text : Text} :
    capture pieces text = none ↔ ∀ segments, ¬ Cuts pieces text segments := by
  rw [capture, List.argmax_eq_none]
  constructor
  · intro h segments hcuts
    have hmem := mem_cuts.mpr hcuts
    rw [h] at hmem
    cases hmem
  · intro h
    refine List.eq_nil_iff_forall_not_mem.mpr fun segments hmem => h segments (mem_cuts.mp hmem)

/-- A match that is better than every other one is captured. -/
theorem capture_eq_some {pieces : List Regex} {text : Text} {segments : List Text}
    (h : Cuts pieces text segments)
    (hbest : ∀ other, Cuts pieces text other → other ≠ segments → rank other < rank segments) :
    capture pieces text = some segments := by
  have hmem := mem_cuts.mpr h
  cases hcapture : capture pieces text with
  | none => exact absurd h (capture_eq_none.mp hcapture segments)
  | some best =>
      by_contra hne
      have hbestMem : best ∈ cuts pieces text := List.argmax_mem hcapture
      have hlt := hbest best (mem_cuts.mp hbestMem) fun heq => hne (by rw [heq])
      exact absurd hlt (List.not_lt_of_mem_argmax hmem hcapture)

theorem Cuts.exists_rest {pieces : List Regex} {text : Text} {segments : List Text}
    (h : Cuts pieces text segments) : ∃ rest, text = segments.flatten ++ rest := by
  induction h with
  | nil => exact ⟨_, rfl⟩
  | cons _ _ ih =>
      rcases ih with ⟨rest, rfl⟩
      exact ⟨rest, by rw [List.flatten_cons, List.append_assoc]⟩

/-- The only match of a whole text is captured. -/
theorem capture_whole {pieces : List Regex} {text : Text} {segments : List Text}
    (h : Cuts pieces text segments) (hwhole : segments.flatten = text)
    (hunique : ∀ other, Cuts pieces text other → other.flatten = text → other = segments) :
    capture pieces text = some segments := by
  refine capture_eq_some h fun other hother hne => ?_
  rcases hother.exists_rest with ⟨rest, hrest⟩
  have hlonger : rest ≠ [] := by
    rintro rfl
    rw [List.append_nil] at hrest
    exact hne (hunique other hother hrest.symm)
  have hlt : other.flatten.length < segments.flatten.length := by
    have hlength := congrArg List.length hrest
    have hpos := List.length_pos_iff.mpr hlonger
    rw [List.length_append] at hlength
    rw [hwhole]
    omega
  exact List.Lex.rel hlt

/-- What is captured is a match. -/
theorem cuts_of_capture {pieces : List Regex} {text : Text} {segments : List Text}
    (h : capture pieces text = some segments) : Cuts pieces text segments :=
  mem_cuts.mp (List.argmax_mem h)

end Regexes
