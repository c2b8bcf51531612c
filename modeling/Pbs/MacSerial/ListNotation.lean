import Pbs.MacSerial.ParseMask
import Mathlib.Data.Bool.AllAny

/-!
# The list notation for octets

The items `n`, `a-b`, `a-` and `-b`, separated by commas, and the octets they list.
The scanner drops the commas, so two neighbouring items may run together: `a-` with
whatever follows it, and `n` with a `-b` behind it. The mask is right exactly when
the octets that get lost there are marked elsewhere in the list, and those that are
marked there are listed.
-/

namespace Pbs.MacSerial

open CNumber

/-! ## Items -/

/-- A decimal number between 1 and 6. -/
structure Numeral where
  digits : Text
  isDigit_digits : ∀ c ∈ digits, c.isDigit
  range : decimalValue digits ∈ Finset.Icc 1 6

def Numeral.octet (n : Numeral) : ℕ := decimalValue n.digits

inductive Item where
  /-- `n` -/
  | single (n : Numeral)
  /-- `a-b` -/
  | range (a b : Numeral) (le : a.octet ≤ b.octet)
  /-- `a-` -/
  | startingAt (a : Numeral)
  /-- `-b` -/
  | upTo (b : Numeral)

def Item.text : Item → Text
  | .single n => n.digits
  | .range a b _ => a.digits ++ '-' :: b.digits
  | .startingAt a => a.digits ++ ['-']
  | .upTo b => '-' :: b.digits

def Item.octets : Item → Finset ℕ
  | .single n => {n.octet}
  | .range a b _ => Finset.Icc a.octet b.octet
  | .startingAt a => Finset.Icc a.octet 6
  | .upTo b => Finset.Icc 1 b.octet

/-- The items, separated by commas. -/
def listText : List Item → Text
  | [] => []
  | [x] => x.text
  | x :: y :: xs => x.text ++ ',' :: listText (y :: xs)

/-- The octets that one of the items lists. -/
def Listed (items : List Item) (i : ℕ) : Prop := ∃ x ∈ items, i ∈ x.octets

/-! ## Texts that are no lists -/

/-- The numbers in a text: its longest runs of digits. -/
def decimalNumbers (text : Text) : List Text :=
  (text.splitOnP fun c => !c.isDigit).filter (· ≠ [])

/-- The text contains a number that is no octet, or a character that belongs to no
list. -/
def Malformed (text : Text) : Prop :=
  (∃ digits ∈ decimalNumbers text, decimalValue digits ∉ Finset.Icc 1 6) ∨
    ∃ c ∈ text, c.isDigit = false ∧ c ≠ ',' ∧ c ≠ '-'

/-! ## What is expected of the scanner -/

/-- The list is accepted, with the octets it lists. -/
def AcceptsList (w : WordSize) (items : List Item) : Prop :=
  ∀ maskp, ∃ mask, parseMask w (listText items) maskp = .ok (0, maskp.map fun _ => mask) ∧
    ∀ i, mask.testBit i = true ↔ Listed items i

/-- The text is rejected, and nothing is stored. -/
def Rejects (w : WordSize) (text : Text) : Prop :=
  ∀ maskp, parseMask w text maskp = .ok (-einval, maskp)

/-- Lists are accepted with the octets they list, and malformed texts are rejected. -/
def ParsesNotation (w : WordSize) (text : Text) : Prop :=
  (∀ items, text = listText items → AcceptsList w items) ∧ (Malformed text → Rejects w text)

/-! ## Items that run together -/

def Item.tokens : Item → List Token
  | .single n => [.number n.octet]
  | .range a b _ => [.number a.octet, .dash, .number b.octet]
  | .startingAt a => [.number a.octet, .dash]
  | .upTo b => [.dash, .number b.octet]

/-- The comma between the two items makes a difference that the scanner does not see. -/
def runsTogether : Item → Item → Bool
  | .startingAt _, _ => true
  | .single _, .upTo _ => true
  | _, _ => false

/-- The octets that are marked where these items are read without their commas. -/
def marked (items : List Item) : Finset ℕ :=
  Pending.clean.marked (items.flatMap Item.tokens)

/-- Wherever items run together, the octets they list are marked there or elsewhere,
and the octets that are marked are listed there or elsewhere. -/
def Covered (items : List Item) : Prop :=
  ∀ group ∈ items.splitBy runsTogether, ∀ i,
    (Listed group i → ∃ other ∈ items.splitBy runsTogether, i ∈ marked other) ∧
      (i ∈ marked group → Listed items i)

/-! ## The tokens of a list -/

theorem Numeral.nonempty (n : Numeral) : n.digits ≠ [] := by
  intro h
  have hrange := n.range
  rw [h] at hrange
  simp [decimalValue] at hrange

/-- A number without blanks and sign. -/
def Numeral.reading (n : Numeral) : Reading where
  blanks := []
  sign := .none
  digits := n.digits
  isSpace_blanks := by simp
  isDigit_digits := n.isDigit_digits
  nonempty := n.nonempty

theorem Numeral.reading_value (n : Numeral) (w : WordSize) :
    n.reading.value w.bits % 2 ^ 32 = n.octet := by
  have hrange := Finset.mem_Icc.mp n.range
  have hwidth : 2 ^ 32 ≤ 2 ^ w.bits := by cases w <;> decide
  have hfits : ¬ 2 ^ w.bits ≤ decimalValue n.digits := by omega
  have hvalue : n.reading.value w.bits = n.octet := by
    exact if_neg hfits
  have hoctet : n.octet ≤ 6 := hrange.2
  rw [hvalue]
  omega

theorem Numeral.reads {w : WordSize} (n : Numeral) {text : Text} {tokens : List Token}
    (hrest : NoDigit text) (h : Reads w text tokens) :
    Reads w (n.digits ++ text) (.number n.octet :: tokens) := by
  have hdash : n.reading.text.head? ≠ some '-' := by
    intro hhead
    have hmem := List.mem_of_mem_head? (Option.mem_def.mpr hhead)
    exact absurd (n.isDigit_digits _ hmem) (by decide)
  exact .number n.reading n.octet hdash hrest (n.reading_value w) n.range h

theorem Item.reads {w : WordSize} (x : Item) {text : Text} {tokens : List Token}
    (hrest : NoDigit text) (h : Reads w text tokens) :
    Reads w (x.text ++ text) (x.tokens ++ tokens) := by
  have hdash : ∀ rest, NoDigit ('-' :: rest) := by
    intro rest c hc
    rw [← Option.mem_some_iff.mp hc]
    rfl
  cases x with
  | single n => exact n.reads hrest h
  | range a b _ =>
      rw [Item.text, List.append_assoc]
      exact a.reads (hdash _) (b.reads hrest h).dash
  | startingAt a =>
      rw [Item.text, List.append_assoc]
      exact a.reads (hdash _) h.dash
  | upTo b => exact (b.reads hrest h).dash

theorem listText_reads (w : WordSize) (items : List Item) :
    Reads w (listText items) (items.flatMap Item.tokens) := by
  have hnil : NoDigit [] := by
    intro c hc
    cases hc
  have hcomma : ∀ rest, NoDigit (',' :: rest) := by
    intro rest c hc
    rw [← Option.mem_some_iff.mp hc]
    rfl
  induction items with
  | nil => exact .nil
  | cons x xs ih =>
      cases xs with
      | nil =>
          have h := x.reads (w := w) hnil .nil
          rwa [List.append_nil] at h
      | cons y ys =>
          rw [listText, List.flatMap_cons]
          exact x.reads (hcomma _) ih.comma

/-! ## Reading the groups one by one -/

/-- The state behind the tokens. -/
def Pending.after (p : Pending) (tokens : List Token) : Pending :=
  tokens.foldl Pending.next p

/-- What follows is read as if nothing had been in front of it. -/
def Pending.Apart (p : Pending) (tokens : List Token) : Prop :=
  p.marked tokens = p.finish ∪ Pending.clean.marked tokens

theorem Pending.marked_append {tokens' : List Token} (tokens : List Token) {p : Pending}
    (h : (p.after tokens).Apart tokens') :
    p.marked (tokens ++ tokens') = p.marked tokens ∪ Pending.clean.marked tokens' := by
  induction tokens generalizing p with
  | nil => exact h
  | cons token tokens ih =>
      rw [List.cons_append, Pending.marked, ih h, Pending.marked, Finset.union_assoc]

theorem Pending.apart_clean (tokens : List Token) : Pending.clean.Apart tokens := by
  rw [Pending.Apart, Pending.finish, Finset.empty_union]

/-- A number ends whatever was pending. -/
theorem Pending.apart_number (p : Pending) (n m : ℕ) (tokens : List Token) :
    (p.next (.number n)).Apart (.number m :: tokens) := by
  cases p with
  | clean => simp [Pending.next, Pending.Apart, Pending.marked, Pending.marks, Pending.finish]
  | single k => simp [Pending.next, Pending.Apart, Pending.marked, Pending.marks, Pending.finish]
  | opened k => exact Pending.apart_clean _

theorem Pending.next_range (p : Pending) (a b : ℕ) :
    ((p.next (.number a)).next .dash).next (.number b) = .clean := by
  cases p <;> rfl

theorem Pending.next_upTo (p : Pending) (b : ℕ) : (p.next .dash).next (.number b) = .clean := by
  cases p <;> rfl

/-- Items that do not run together are read one after the other. -/
theorem Pending.apart_item (p : Pending) {x y : Item} (h : runsTogether x y = false)
    (tokens : List Token) : (p.after x.tokens).Apart (y.tokens ++ tokens) := by
  cases x with
  | single n =>
      cases y with
      | single m => exact p.apart_number _ _ _
      | range a b _ => exact p.apart_number _ _ _
      | startingAt a => exact p.apart_number _ _ _
      | upTo b => cases h
  | range a b _ =>
      have hclean : p.after (Item.range a b ‹_›).tokens = .clean := p.next_range _ _
      rw [hclean]
      exact Pending.apart_clean _
  | startingAt a => cases h
  | upTo b =>
      have hclean : p.after (Item.upTo b).tokens = .clean := p.next_upTo _
      rw [hclean]
      exact Pending.apart_clean _

theorem marked_append {x y : Item} (xs ys : List Item) (h : runsTogether x y = false) :
    marked ((xs ++ [x]) ++ (y :: ys)) = marked (xs ++ [x]) ∪ marked (y :: ys) := by
  rw [marked, List.flatMap_append, Pending.marked_append]
  · rfl
  · have hlast : [x].flatMap Item.tokens = x.tokens := by simp
    rw [List.flatMap_append, hlast, Pending.after, List.foldl_append, List.flatMap_cons]
    exact Pending.apart_item _ h _

theorem mem_marked_flatten {groups : List (List Item)} {i : ℕ}
    (h : groups.IsChain fun g g' => ∃ hg hg', runsTogether (g.getLast hg) (g'.head hg') = false) :
    i ∈ marked groups.flatten ↔ ∃ g ∈ groups, i ∈ marked g := by
  induction groups with
  | nil => simp [marked, Pending.marked, Pending.finish]
  | cons g groups ih =>
      cases groups with
      | nil => simp
      | cons g' groups =>
          rw [List.isChain_cons_cons] at h
          rcases h with ⟨⟨hg, hg', hapart⟩, hchain⟩
          have hsplit : (g :: g' :: groups).flatten =
              (g.dropLast ++ [g.getLast hg]) ++
                (g'.head hg' :: (g'.tail ++ groups.flatten)) := by
            rw [List.dropLast_append_getLast, ← List.cons_append, List.cons_head_tail]
            simp
          have hrest : g'.head hg' :: (g'.tail ++ groups.flatten) = (g' :: groups).flatten := by
            rw [← List.cons_append, List.cons_head_tail, List.flatten_cons]
          rw [hsplit, marked_append _ _ hapart, hrest, List.dropLast_append_getLast,
            Finset.mem_union, ih hchain]
          simp

/-- The octets of a list are those of its groups. -/
theorem mem_marked_iff (items : List Item) (i : ℕ) :
    i ∈ marked items ↔ ∃ group ∈ items.splitBy runsTogether, i ∈ marked group := by
  have h := mem_marked_flatten (i := i) (List.isChain_getLast_head_splitBy runsTogether items)
  rwa [List.flatten_splitBy] at h

theorem listed_iff (items : List Item) (i : ℕ) :
    Listed items i ↔ ∃ group ∈ items.splitBy runsTogether, Listed group i := by
  have hmem : ∀ x, x ∈ items ↔ ∃ group ∈ items.splitBy runsTogether, x ∈ group := by
    intro x
    rw [← List.mem_flatten, List.flatten_splitBy]
  unfold Listed
  constructor
  · rintro ⟨x, hx, hi⟩
    rcases (hmem x).mp hx with ⟨group, hgroup, hx⟩
    exact ⟨group, hgroup, x, hx, hi⟩
  · rintro ⟨group, hgroup, x, hx, hi⟩
    exact ⟨x, (hmem x).mpr ⟨group, hgroup, hx⟩, hi⟩

/-! ## The exact condition -/

theorem IsMask.unique {mask : ℕ} {octets octets' : Finset ℕ} (h : IsMask mask octets)
    (h' : IsMask mask octets') : octets = octets' := by
  ext i
  rw [← h i, h' i]

/-- The scanner marks what the groups of a list mark. -/
theorem acceptsList_iff_marked (w : WordSize) (items : List Item) :
    AcceptsList w items ↔ ∀ i, i ∈ marked items ↔ Listed items i := by
  have hreads := listText_reads w items
  constructor
  · intro h i
    rcases h (some 0) with ⟨mask, hparse, hlisted⟩
    rcases parseMask_reads hreads (some 0) with ⟨mask', hparse', hmask⟩
    rw [hparse'] at hparse
    cases hparse
    rw [← hlisted i]
    exact (hmask i).symm
  · intro h maskp
    rcases parseMask_reads hreads maskp with ⟨mask, hparse, hmask⟩
    exact ⟨mask, hparse, fun i => (hmask i).trans (h i)⟩

theorem acceptsList_iff (w : WordSize) (items : List Item) :
    AcceptsList w items ↔ Covered items := by
  rw [acceptsList_iff_marked]
  constructor
  · intro h group hgroup i
    refine ⟨fun hi => ?_, fun hi => ?_⟩
    · rw [← mem_marked_iff, h i, listed_iff]
      exact ⟨group, hgroup, hi⟩
    · rw [← h i, mem_marked_iff]
      exact ⟨group, hgroup, hi⟩
  · intro h i
    constructor
    · intro hi
      rcases (mem_marked_iff items i).mp hi with ⟨group, hgroup, hi⟩
      exact (h group hgroup i).2 hi
    · intro hi
      rcases (listed_iff items i).mp hi with ⟨group, hgroup, hi⟩
      exact (mem_marked_iff items i).mpr ((h group hgroup i).1 hi)

theorem rejects_iff (w : WordSize) (text : Text) :
    Rejects w text ↔ ¬ ∃ tokens, Reads w text tokens := by
  constructor
  · rintro h ⟨tokens, hreads⟩
    rcases parseMask_reads hreads none with ⟨mask, hparse, _⟩
    rw [h none] at hparse
    cases hparse
  · exact fun h maskp => parseMask_not_reads h maskp

/-- The notation is parsed as it should be exactly when the items of a list are
covered, and a malformed text is no sequence of commas, dashes, and numbers that end
up as octets. -/
theorem parsesNotation_iff (w : WordSize) (text : Text) :
    ParsesNotation w text ↔
      (∀ items, text = listText items → Covered items) ∧
        (Malformed text → ¬ ∃ tokens, Reads w text tokens) := by
  unfold ParsesNotation
  refine and_congr (forall_congr' fun items => forall_congr' fun _ => ?_)
    (forall_congr' fun _ => ?_)
  · exact acceptsList_iff w items
  · exact rejects_iff w text

/-- A list without items that run together is covered. -/
theorem covered_of_apart {items : List Item}
    (h : items.IsChain fun x y => runsTogether x y = false) : Covered items := by
  have hgroups : items.splitBy runsTogether = items.map ([·]) := by
    refine List.splitBy_eq_iff.mpr ⟨?_, ?_, ?_, ?_⟩
    · rw [← List.flatMap_def, List.flatMap_singleton']
    · simp
    · intro group hgroup
      rcases List.mem_map.mp hgroup with ⟨x, _, rfl⟩
      exact List.isChain_singleton x
    · rw [List.isChain_map]
      exact h.imp fun x y hxy => ⟨by simp, by simp, hxy⟩
  have hmarked : ∀ x : Item, marked [x] = x.octets := by
    intro x
    cases x <;>
      simp [marked, Item.tokens, Item.octets, Pending.marked, Pending.marks, Pending.next,
        Pending.finish]
  intro group hgroup i
  rw [hgroups] at hgroup ⊢
  rcases List.mem_map.mp hgroup with ⟨x, hx, rfl⟩
  refine ⟨fun hi => ⟨[x], hgroup, ?_⟩, fun hi => ⟨x, hx, ?_⟩⟩
  · rcases hi with ⟨y, hy, hi⟩
    rw [List.mem_singleton.mp hy] at hi
    rwa [hmarked]
  · rwa [hmarked] at hi

/-- `2-,4`: the comma is dropped, and the range ends at 4. -/
def openRange : List Item :=
  [.startingAt ⟨['2'], List.all_iff_forall_prop.mp (by decide), by decide⟩,
    .single ⟨['4'], List.all_iff_forall_prop.mp (by decide), by decide⟩]

theorem openRange_not_parsesNotation : ¬ ∀ w text, ParsesNotation w text := by
  intro h
  have haccepts := (h .w64 (listText openRange)).1 openRange rfl
  have hlisted := (acceptsList_iff_marked .w64 openRange).mp haccepts 5
  have hnot : 5 ∉ marked openRange := by decide
  exact hnot (hlisted.mpr ⟨_, List.mem_cons_self .., by decide⟩)

end Pbs.MacSerial
