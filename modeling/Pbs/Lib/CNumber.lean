import Mathlib.Algebra.Group.Nat.Defs
import Mathlib.Data.List.TakeWhile
import Mathlib.Data.Nat.Notation

/-!
# Numbers in C strings

`strtoul` with base ten: white space, a sign, and digits are read as an `unsigned
long` of a given number of bits. What it reads of a text is a `Reading`, and every
text that it accepts starts with one (`exists_reading`). `zeroPad` is `printf` with
`%0*lu`.
-/

namespace CNumber

abbrev Text := List Char

/-! ## strtoul -/

/-- `isspace` in the C locale. -/
def isSpace (c : Char) : Bool :=
  c == ' ' || c == '\t' || c == '\n' || c == '\x0b' || c == '\x0c' || c == '\r'

/-- The value of a text of decimal digits. -/
def decimalValue (digits : Text) : ℕ := Nat.ofDigitChars 10 digits 0

inductive Sign where
  | none
  | plus
  | minus
deriving DecidableEq, Repr

def Sign.text : Sign → Text
  | .none => []
  | .plus => ['+']
  | .minus => ['-']

/-- The sign in front of a number, and what follows it. -/
def takeSign : Text → Sign × Text
  | '+' :: rest => (.plus, rest)
  | '-' :: rest => (.minus, rest)
  | rest => (.none, rest)

/-- The `unsigned long` that stands for a number with a sign: numbers that do not
fit become `ULONG_MAX`. -/
def toUnsignedLong (bits : ℕ) (sign : Sign) (value : ℕ) : ℕ :=
  if 2 ^ bits ≤ value then 2 ^ bits - 1
  else match sign with
    | .minus => (2 ^ bits - value) % 2 ^ bits
    | _ => value

/-- `strtoul(s, &end, 10)`: the value and the text at `end`, or nothing where no
number is read. -/
def strtoul (bits : ℕ) (s : Text) : Option (ℕ × Text) :=
  let (sign, s) := takeSign (s.dropWhile isSpace)
  let digits := s.takeWhile Char.isDigit
  if digits = [] then none
  else some (toUnsignedLong bits sign (decimalValue digits), s.dropWhile Char.isDigit)

/-- White space, a sign, and digits. -/
structure Reading where
  blanks : Text
  sign : Sign
  digits : Text
  isSpace_blanks : ∀ c ∈ blanks, isSpace c
  isDigit_digits : ∀ c ∈ digits, c.isDigit
  nonempty : digits ≠ []

def Reading.text (r : Reading) : Text := r.blanks ++ r.sign.text ++ r.digits

/-- What `strtoul` makes of it. -/
def Reading.value (bits : ℕ) (r : Reading) : ℕ :=
  toUnsignedLong bits r.sign (decimalValue r.digits)

/-- A reading starts with white space, a sign or a digit. -/
theorem Reading.head?_ne (r : Reading) {c : Char} (hspace : isSpace c = false)
    (hsign : c ≠ '+' ∧ c ≠ '-') (hdigit : c.isDigit = false) : r.text.head? ≠ some c := by
  intro h
  have hmem := List.mem_of_mem_head? (Option.mem_def.mpr h)
  rw [Reading.text, List.mem_append, List.mem_append] at hmem
  rcases hmem with (hmem | hmem) | hmem
  · simpa [hspace] using r.isSpace_blanks c hmem
  · cases hs : r.sign <;> simp_all [Sign.text]
  · simpa [hdigit] using r.isDigit_digits c hmem

/-- No digit follows. -/
def NoDigit (rest : Text) : Prop := ∀ c ∈ rest.head?, c.isDigit = false

theorem takeWhile_append_stop {p : Char → Bool} {x rest : Text} (hx : ∀ c ∈ x, p c)
    (hrest : ∀ c ∈ rest.head?, p c = false) : (x ++ rest).takeWhile p = x := by
  rw [List.takeWhile_append_of_pos hx]
  cases rest with
  | nil => simp
  | cons c rest => simp [hrest c (by simp)]

theorem dropWhile_append_stop {p : Char → Bool} {x rest : Text} (hx : ∀ c ∈ x, p c)
    (hrest : ∀ c ∈ rest.head?, p c = false) : (x ++ rest).dropWhile p = rest := by
  rw [List.dropWhile_append_of_pos hx]
  cases rest with
  | nil => simp
  | cons c rest => simp [hrest c (by simp)]

theorem isDigit_not_sign {c : Char} (hc : c.isDigit) :
    isSpace c = false ∧ c ≠ '+' ∧ c ≠ '-' := by
  refine ⟨?_, ?_, ?_⟩
  · by_contra h
    simp only [isSpace, Bool.not_eq_false, Bool.or_eq_true, beq_iff_eq] at h
    rcases h with ((((rfl | rfl) | rfl) | rfl) | rfl) | rfl <;> simp [Char.isDigit] at hc
  · rintro rfl
    simp [Char.isDigit] at hc
  · rintro rfl
    simp [Char.isDigit] at hc

theorem takeSign_text (sign : Sign) {rest : Text} (hrest : ∀ c ∈ rest.head?, c.isDigit) :
    takeSign (sign.text ++ rest) = (sign, rest) := by
  cases sign with
  | none =>
      cases rest with
      | nil => rfl
      | cons c rest =>
          have hc := isDigit_not_sign (hrest c (by simp))
          rw [Sign.text, List.nil_append, takeSign]
          · exact fun rest' h => hc.2.1 (List.cons.inj h).1
          · exact fun rest' h => hc.2.2 (List.cons.inj h).1
  | plus => rfl
  | minus => rfl

/-- A reading is read as a whole where no digit follows it. -/
theorem strtoul_reading (bits : ℕ) (r : Reading) {rest : Text} (hrest : NoDigit rest) :
    strtoul bits (r.text ++ rest) = some (r.value bits, rest) := by
  have hdigit : ∀ c ∈ (r.digits ++ rest).head?, c.isDigit := by
    intro c hc
    rw [List.head?_append, List.head?_eq_some_head r.nonempty, Option.some_or,
      Option.mem_some_iff] at hc
    exact hc ▸ r.isDigit_digits _ (List.head_mem r.nonempty)
  have hspace : ∀ c ∈ (r.sign.text ++ (r.digits ++ rest)).head?, isSpace c = false := by
    intro c hc
    cases hsign : r.sign with
    | none =>
        rw [hsign] at hc
        exact (isDigit_not_sign (hdigit c hc)).1
    | plus =>
        rw [hsign] at hc
        rw [← Option.mem_some_iff.mp hc]
        rfl
    | minus =>
        rw [hsign] at hc
        rw [← Option.mem_some_iff.mp hc]
        rfl
  have htext : r.text ++ rest = r.blanks ++ (r.sign.text ++ (r.digits ++ rest)) := by
    simp [Reading.text]
  rw [htext, strtoul, dropWhile_append_stop r.isSpace_blanks hspace]
  simp only [takeSign_text r.sign hdigit, takeWhile_append_stop r.isDigit_digits hrest,
    dropWhile_append_stop r.isDigit_digits hrest, r.nonempty, if_false]
  rfl

theorem takeSign_eq (s : Text) : (takeSign s).1.text ++ (takeSign s).2 = s := by
  unfold takeSign
  split <;> rfl

/-- Whatever `strtoul` accepts starts with a reading. -/
theorem exists_reading {bits : ℕ} {s rest : Text} {value : ℕ}
    (h : strtoul bits s = some (value, rest)) :
    ∃ r : Reading, s = r.text ++ rest ∧ value = r.value bits ∧ NoDigit rest := by
  unfold strtoul at h
  set signed := s.dropWhile isSpace with hsigned
  split at h
  rename_i sign unsigned heq
  dsimp only at h
  by_cases hdigits : unsigned.takeWhile Char.isDigit = []
  · simp [hdigits] at h
  · simp only [hdigits, if_false, Option.some.injEq, Prod.mk.injEq] at h
    have hsign := takeSign_eq signed
    rw [heq] at hsign
    refine ⟨⟨s.takeWhile isSpace, sign, unsigned.takeWhile Char.isDigit, ?_, ?_, hdigits⟩,
      ?_, h.1.symm, ?_⟩
    · exact fun c hc => List.mem_takeWhile_imp hc
    · exact fun c hc => List.mem_takeWhile_imp hc
    · rw [Reading.text, ← h.2, List.append_assoc, List.takeWhile_append_dropWhile,
        List.append_assoc, hsign, hsigned, List.takeWhile_append_dropWhile]
    · intro c hc
      rw [← h.2] at hc
      have := List.head?_dropWhile_not Char.isDigit unsigned
      rw [Option.mem_def.mp hc] at this
      simpa using this

theorem strtoul_length {bits : ℕ} {s rest : Text} {value : ℕ}
    (h : strtoul bits s = some (value, rest)) : rest.length < s.length := by
  rcases exists_reading h with ⟨r, rfl, _, _⟩
  have := List.length_pos_iff.mpr r.nonempty
  simp only [Reading.text, List.length_append]
  omega

/-! ## printf -/

/-- `printf("%0*lu", width, n)`. -/
def zeroPad (width n : ℕ) : Text :=
  List.replicate (width - (Nat.toDigits 10 n).length) '0' ++ Nat.toDigits 10 n

theorem isDigit_zeroPad (width n : ℕ) : ∀ c ∈ zeroPad width n, c.isDigit := by
  intro c hc
  rcases List.mem_append.mp hc with hc | hc
  · rw [List.eq_of_mem_replicate hc]
    rfl
  · exact Nat.isDigit_of_mem_toDigits (by decide) (by decide) hc

theorem decimalValue_zeroPad (width n : ℕ) : decimalValue (zeroPad width n) = n := by
  rw [decimalValue, zeroPad, Nat.ofDigitChars_append, Nat.ofDigitChars_replicate_zero,
    Nat.mul_zero, Nat.ofDigitChars_ten_toDigits]

/-- Different numbers are printed differently. -/
theorem zeroPad_injective (width : ℕ) : Function.Injective (zeroPad width) := by
  intro m n h
  rw [← decimalValue_zeroPad width m, h, decimalValue_zeroPad]

/-- A number that is not larger than another takes up the width of that one. -/
theorem length_zeroPad {n limit : ℕ} (h : n ≤ limit) :
    (zeroPad (Nat.toDigits 10 limit).length n).length = (Nat.toDigits 10 limit).length := by
  have hle : (Nat.toDigits 10 n).length ≤ (Nat.toDigits 10 limit).length := by
    rw [Nat.length_toDigits_le_iff (by decide) Nat.length_toDigits_pos]
    have hlimit := (Nat.length_toDigits_le_iff (b := 10) (n := limit) (by decide)
      Nat.length_toDigits_pos).mp (Nat.le_refl _)
    omega
  rw [zeroPad, List.length_append, List.length_replicate]
  omega

end CNumber
