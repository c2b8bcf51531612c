import Mathlib.Algebra.Group.Int.Defs
import Pbs.Lib.CNumber

/-!
# C integers and their texts

`strtol` with base ten or sixteen on a machine where `long` has 64 bits and `int` has 32,
and `printf` with `%d` and `%x`. A number of type `int` that is printed is read back
(`toInt_strtol_printDecimal`, `toInt_strtol_printHex`).
-/

namespace CNumber

/-- What a digit counts, in a base up to sixteen. -/
def digitValue (c : Char) : ℕ :=
  if c.isDigit then c.toNat - '0'.toNat
  else if 'a' ≤ c ∧ c ≤ 'f' then c.toNat - 'a'.toNat + 10
  else if 'A' ≤ c ∧ c ≤ 'F' then c.toNat - 'A'.toNat + 10
  else 16

/-- The value of a text of digits behind the number `init`. -/
def readDigits (base : ℕ) (digits : Text) (init : ℕ) : ℕ :=
  digits.foldl (fun value c => base * value + digitValue c) init

/-- With base sixteen, `0x` may stand in front of the digits. -/
def skipPrefix (base : ℕ) : Text → Text
  | '0' :: 'x' :: rest => if base = 16 then rest else '0' :: 'x' :: rest
  | '0' :: 'X' :: rest => if base = 16 then rest else '0' :: 'X' :: rest
  | rest => rest

/-- The `long` that stands for a number with a sign: one that does not fit becomes
`LONG_MAX` or `LONG_MIN`. -/
def toLong (sign : Sign) (value : ℕ) : ℤ :=
  match sign with
  | .minus => max (-(value : ℤ)) (-2 ^ 63)
  | _ => min (value : ℤ) (2 ^ 63 - 1)

/-- `strtol(s, NULL, base)`. -/
def strtol (base : ℕ) (s : Text) : ℤ :=
  let (sign, s) := takeSign (s.dropWhile isSpace)
  let digits := (skipPrefix base s).takeWhile fun c => digitValue c < base
  toLong sign (readDigits base digits 0)

/-- The conversion of a `long` to an `int`. -/
def toInt (value : ℤ) : ℤ := value.bmod (2 ^ 32)

/-- `printf("%d", value)`. -/
def printDecimal (value : ℤ) : Text :=
  if value < 0 then '-' :: Nat.toDigits 10 value.natAbs else Nat.toDigits 10 value.natAbs

/-- `printf("%x", value)`. -/
def printHex (value : ℤ) : Text := Nat.toDigits 16 (value % 2 ^ 32).toNat

/-! ## Digits -/

theorem digitValue_digitChar {d : ℕ} (hd : d < 16) : digitValue d.digitChar = d := by
  revert d
  decide

/-- The digits of a number are digits. -/
theorem mem_toDigits {base : ℕ} (hbase : 1 < base) {n : ℕ} {c : Char}
    (hc : c ∈ Nat.toDigits base n) :
    ∃ d < base, c = d.digitChar := by
  induction n using Nat.base_induction base hbase with
  | single m hm =>
      rw [Nat.toDigits_of_lt_base hm, List.mem_singleton] at hc
      exact ⟨m, hm, hc⟩
  | digit m k hk hm ih =>
      rw [← Nat.toDigits_append_toDigits hbase hm hk, List.mem_append] at hc
      rcases hc with hc | hc
      · exact ih hc
      · rw [Nat.toDigits_of_lt_base hk, List.mem_singleton] at hc
        exact ⟨k, hk, hc⟩

/-- There is no zero in front of a number. -/
theorem head_toDigits {base : ℕ} (hbase : 1 < base) (hle : base ≤ 16) {n : ℕ} (hn : 0 < n) :
    ∃ c rest, Nat.toDigits base n = c :: rest ∧ c ≠ '0' := by
  induction n using Nat.base_induction base hbase with
  | single m hm =>
      refine ⟨m.digitChar, [], Nat.toDigits_of_lt_base hm, ?_⟩
      intro hzero
      have hvalue := digitValue_digitChar (Nat.lt_of_lt_of_le hm hle)
      rw [hzero] at hvalue
      exact absurd hvalue (Nat.ne_of_lt hn)
  | digit m k hk hm ih =>
      obtain ⟨c, rest, heq, hc⟩ := ih hm
      refine ⟨c, rest ++ Nat.toDigits base k, ?_, hc⟩
      rw [← Nat.toDigits_append_toDigits hbase hm hk, heq]
      rfl

theorem readDigits_toDigits {base : ℕ} (hbase : 1 < base) (hle : base ≤ 16) (n : ℕ) :
    readDigits base (Nat.toDigits base n) 0 = n := by
  induction n using Nat.base_induction base hbase with
  | single m hm =>
      rw [Nat.toDigits_of_lt_base hm]
      show base * 0 + digitValue m.digitChar = m
      rw [digitValue_digitChar (Nat.lt_of_lt_of_le hm hle), Nat.mul_zero, Nat.zero_add]
  | digit m k hk hm ih =>
      rw [← Nat.toDigits_append_toDigits hbase hm hk, readDigits, List.foldl_append]
      show List.foldl _ (readDigits base (Nat.toDigits base m) 0) _ = _
      rw [ih, Nat.toDigits_of_lt_base hk]
      show base * m + digitValue k.digitChar = base * m + k
      rw [digitValue_digitChar (Nat.lt_of_lt_of_le hk hle)]

/-! ## What is printed is read -/

theorem takeWhile_toDigits {base : ℕ} (hbase : 1 < base) (hle : base ≤ 16) (n : ℕ) :
    (Nat.toDigits base n).takeWhile (fun c => digitValue c < base) = Nat.toDigits base n := by
  rw [List.takeWhile_eq_self_iff]
  intro c hc
  obtain ⟨d, hd, rfl⟩ := mem_toDigits hbase hc
  rw [digitValue_digitChar (Nat.lt_of_lt_of_le hd hle)]
  exact decide_eq_true hd

theorem skipPrefix_ten (s : Text) : skipPrefix 10 s = s := by
  unfold skipPrefix
  split <;> rfl

/-- The digits behind a sign are read in base ten. -/
theorem strtol_sign (sign : Sign) (n : ℕ) :
    strtol 10 (sign.text ++ Nat.toDigits 10 n) = toLong sign n := by
  have hdigit : ∀ c ∈ (Nat.toDigits 10 n).head?, c.isDigit := by
    intro c hc
    obtain ⟨d, hd, rfl⟩ := mem_toDigits (by decide) (List.mem_of_mem_head? hc)
    rw [Nat.isDigit_digitChar]
    exact decide_eq_true hd
  have hspace : (sign.text ++ Nat.toDigits 10 n).dropWhile isSpace = sign.text ++
      Nat.toDigits 10 n := by
    cases sign with
    | none =>
        refine dropWhile_append_stop (x := []) (fun c hc => by cases hc) ?_
        intro c hc
        exact (isDigit_not_sign (hdigit c hc)).1
    | plus => rfl
    | minus => rfl
  unfold strtol
  rw [hspace, takeSign_text sign hdigit]
  show toLong sign (readDigits 10 ((skipPrefix 10 _).takeWhile _) 0) = _
  rw [skipPrefix_ten, takeWhile_toDigits (by decide) (by decide),
    readDigits_toDigits (by decide) (by decide)]

theorem strtol_hex (n : ℕ) : strtol 16 ('0' :: 'x' :: Nat.toDigits 16 n) = toLong .none n := by
  show toLong .none (readDigits 16 ((Nat.toDigits 16 n).takeWhile _) 0) = _
  rw [takeWhile_toDigits (by decide) (by decide), readDigits_toDigits (by decide) (by decide)]

/-- `0x` in front of a number in base sixteen makes no difference. -/
theorem strtol_addPrefix {s : Text} (hspace : s.dropWhile isSpace = s)
    (hsign : takeSign s = (.none, s))
    (hskip : skipPrefix 16 s = s) : strtol 16 ('0' :: 'x' :: s) = strtol 16 s := by
  have hread : strtol 16 s = toLong .none
      (readDigits 16 (s.takeWhile fun c => digitValue c < 16) 0) := by
    unfold strtol
    rw [hspace, hsign]
    show toLong .none (readDigits 16 ((skipPrefix 16 s).takeWhile _) 0) = _
    rw [hskip]
  rw [hread]
  rfl

/-- The numbers of type `int`. -/
def IsInt (value : ℤ) : Prop := -2 ^ 31 ≤ value ∧ value < 2 ^ 31

theorem isInt_toInt (value : ℤ) : IsInt (toInt value) := by
  have hlow := Int.le_bmod (x := value) (m := 2 ^ 32) (by decide)
  have hhigh := Int.bmod_lt (x := value) (m := 2 ^ 32) (by decide)
  constructor
  · exact Int.le_trans (by decide) hlow
  · exact Int.lt_of_lt_of_le hhigh (by decide)

theorem toInt_of_isInt {value : ℤ} (h : IsInt value) : toInt value = value := by
  apply Int.bmod_eq_of_le
  · exact Int.le_trans (by decide) h.1
  · exact Int.lt_of_lt_of_le h.2 (by decide)

theorem toInt_strtol_printDecimal {value : ℤ} (h : IsInt value) :
    toInt (strtol 10 (printDecimal value)) = value := by
  obtain ⟨hlow, hhigh⟩ := h
  have hread : strtol 10 (printDecimal value) = value := by
    unfold printDecimal
    split
    case isTrue hneg =>
      have hsign := strtol_sign .minus value.natAbs
      rw [show '-' :: Nat.toDigits 10 value.natAbs = Sign.minus.text ++ Nat.toDigits 10 value.natAbs
        from rfl, hsign]
      show max (-(value.natAbs : ℤ)) (-2 ^ 63) = value
      omega
    case isFalse hpos =>
      have hsign := strtol_sign .none value.natAbs
      rw [show Nat.toDigits 10 value.natAbs = Sign.none.text ++ Nat.toDigits 10 value.natAbs
        from rfl, hsign]
      show min (value.natAbs : ℤ) (2 ^ 63 - 1) = value
      omega
  rw [hread]
  exact toInt_of_isInt ⟨hlow, hhigh⟩

/-- `%x` prints a negative number as the unsigned one with the same bits; the conversion to
`int` takes this back. -/
theorem toInt_strtol_printHex {value : ℤ} (h : IsInt value) :
    toInt (strtol 16 ('0' :: 'x' :: printHex value)) = value := by
  have hread : strtol 16 ('0' :: 'x' :: printHex value) = value % 2 ^ 32 := by
    rw [printHex, strtol_hex]
    show min (((value % 2 ^ 32).toNat : ℕ) : ℤ) (2 ^ 63 - 1) = value % 2 ^ 32
    omega
  rw [hread]
  show (value % 2 ^ 32).bmod (2 ^ 32) = value
  have hmod : (value % 2 ^ 32).bmod (2 ^ 32) = value.bmod (2 ^ 32) := Int.emod_bmod ..
  rw [hmod]
  exact toInt_of_isInt h

end CNumber
