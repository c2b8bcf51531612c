import Pbs.MacSerial.ParseMask
import Mathlib.Data.Nat.Bitwise
import Mathlib.Data.Nat.Digits.Lemmas
import Mathlib.Data.List.FinRange

/-!
# Serial numbers

`main` of `macserial.c` puts the selected octets of a MAC address one behind the
other and prints the number, padded with zeros. For the width it counts the digits of
the largest such number, `(1 << bits) - 1`. That `1` is an `int`, so three octets are
the most for which the shift has a meaning.
-/

namespace Pbs.MacSerial

open CNumber

/-! ## The program -/

/-- `uint8_t hwaddr[ETH_ALEN]` -/
abbrev HwAddr := Fin 6 → Fin 256

/-- How the program ends. -/
structure Exit where
  status : ℕ
  stdout : Text
deriving DecidableEq, Repr

/-- `serial << n`, of type `uint64_t`. -/
def shiftSerial (serial n : ℕ) : Except Stop ℕ :=
  if n < 64 then .ok ((serial <<< n) % 2 ^ 64) else .error .undefined

/-- The variables of the loop over the octets. -/
structure Collected where
  serial : ℕ
  bits : ℕ

def collectOctet (mask : ℕ) (hwaddr : HwAddr) (st : Collected) (i : Fin 6) :
    Except Stop Collected := do
  if mask &&& (← shiftOne (i + 1)) ≠ 0 then
    return ⟨(← shiftSerial st.serial 8) ||| hwaddr i, st.bits + 8⟩
  else
    return st

/-- `for (i = 0; i < ETH_ALEN; i++)` -/
def collectOctets (mask : ℕ) (hwaddr : HwAddr) : Except Stop Collected :=
  (List.finRange 6).foldlM (collectOctet mask hwaddr) ⟨0, 0⟩

/-- `while (max) { max /= 10; i++; }` -/
def countDigits (max : ℕ) : ℕ :=
  if h : max = 0 then 0 else countDigits (max / 10) + 1
termination_by max
decreasing_by exact Nat.div_lt_self (Nat.pos_of_ne_zero h) (by decide)

/-- What `main` prints for a mask. -/
def printSerial (mask : ℕ) (hwaddr : HwAddr) : Except Stop Exit := do
  let st ← collectOctets mask hwaddr
  let max := (← shiftOne st.bits) - 1
  return ⟨0, zeroPad (countDigits max) st.serial ++ ['\n']⟩

/-- `main`. What the interface says of its address is a parameter. -/
def main (w : WordSize) (ethGetHwaddr : Text → Except ℤ HwAddr) (argv : List Text) :
    Except Stop Exit :=
  match argv with
  | _ :: iface :: octets :: _ =>
      match ethGetHwaddr iface with
      | .error _ => .ok ⟨1, []⟩
      | .ok hwaddr => do
          match ← parseMask w octets (some 0) with
          | (0, some mask) => printSerial mask hwaddr
          | _ => return ⟨1, []⟩
  | _ => .ok ⟨1, []⟩

/-! ## What is expected of it -/

/-- The positions of the octets that a mask selects. -/
def positions (mask : ℕ) : List (Fin 6) :=
  (List.finRange 6).filter fun i => mask.testBit (i.val + 1)

/-- The octets that a mask selects. -/
def selected (mask : ℕ) (hwaddr : HwAddr) : List ℕ :=
  (positions mask).map fun i => (hwaddr i).val

/-- The octets one behind the other, the first one in front. -/
def bigEndian (octets : List ℕ) : ℕ := Nat.ofDigits 256 octets.reverse

/-- The number of decimal digits of the largest number of that many octets. -/
def serialWidth (count : ℕ) : ℕ := (Nat.toDigits 10 (256 ^ count - 1)).length

/-- For every address the program prints the selected octets as a number of a fixed
width, and different numbers for different octets. -/
structure FixedWidth (w : WordSize) (octets : Text) (mask : ℕ) : Prop where
  prints : ∀ prog iface rest ethGetHwaddr hwaddr, ethGetHwaddr iface = .ok hwaddr →
    ∃ serial, main w ethGetHwaddr (prog :: iface :: octets :: rest) = .ok ⟨0, serial ++ ['\n']⟩ ∧
      (∀ c ∈ serial, c.isDigit) ∧ decimalValue serial = bigEndian (selected mask hwaddr) ∧
      serial.length = serialWidth (positions mask).length
  differ : ∀ prog iface rest hwaddr hwaddr' exit exit',
    selected mask hwaddr ≠ selected mask hwaddr' →
    main w (fun _ => .ok hwaddr) (prog :: iface :: octets :: rest) = .ok exit →
    main w (fun _ => .ok hwaddr') (prog :: iface :: octets :: rest) = .ok exit' →
    exit ≠ exit'

/-! ## Collecting the octets -/

theorem bigEndian_append (octets : List ℕ) (octet : ℕ) :
    bigEndian (octets ++ [octet]) = 256 * bigEndian octets + octet := by
  rw [bigEndian, List.reverse_append, List.reverse_singleton, List.singleton_append,
    Nat.ofDigits_cons, bigEndian]
  ring

theorem bigEndian_lt {octets : List ℕ} (h : ∀ octet ∈ octets, octet < 256) :
    bigEndian octets < 256 ^ octets.length := by
  rw [bigEndian, ← List.length_reverse]
  refine Nat.ofDigits_lt_base_pow_length (by decide) fun octet hoctet => ?_
  exact h octet (List.mem_reverse.mp hoctet)

theorem bigEndian_injective {octets octets' : List ℕ} (hlength : octets.length = octets'.length)
    (h : ∀ octet ∈ octets, octet < 256) (h' : ∀ octet ∈ octets', octet < 256)
    (heq : bigEndian octets = bigEndian octets') : octets = octets' := by
  refine List.reverse_injective (Nat.ofDigits_inj_of_len_eq (by decide : 1 < 256) ?_ ?_ ?_ heq)
  · rw [List.length_reverse, List.length_reverse, hlength]
  · exact fun octet hoctet => h octet (List.mem_reverse.mp hoctet)
  · exact fun octet hoctet => h' octet (List.mem_reverse.mp hoctet)

theorem selected_lt (mask : ℕ) (hwaddr : HwAddr) : ∀ octet ∈ selected mask hwaddr, octet < 256 := by
  intro octet hoctet
  rcases List.mem_map.mp hoctet with ⟨i, _, rfl⟩
  exact (hwaddr i).isLt

theorem collectOctet_eq {mask : ℕ} {hwaddr : HwAddr} {st : Collected} {i : Fin 6}
    (hserial : st.serial < 256 ^ 5) :
    collectOctet mask hwaddr st i =
      .ok (if mask.testBit (i.val + 1) then ⟨256 * st.serial + (hwaddr i).val, st.bits + 8⟩
        else st) := by
  have hwidth : i.val + 1 < 32 := by omega
  have hand : mask &&& 1 <<< (i.val + 1) ≠ 0 ↔ mask.testBit (i.val + 1) = true := by
    rw [Nat.one_shiftLeft, Nat.and_two_pow]
    cases mask.testBit (i.val + 1) <;> simp
  have hmod : (st.serial <<< 8) % 2 ^ 64 = st.serial <<< 8 := by
    refine Nat.mod_eq_of_lt ?_
    rw [Nat.shiftLeft_eq]
    omega
  have hor : st.serial <<< 8 ||| (hwaddr i).val = 256 * st.serial + (hwaddr i).val := by
    rw [← Nat.shiftLeft_add_eq_or_of_lt (hwaddr i).isLt, Nat.shiftLeft_eq]
    omega
  unfold collectOctet
  simp only [shiftOne, if_pos hwidth, shiftSerial, hmod, bind, Except.bind, pure, Except.pure]
  by_cases hbit : mask.testBit (i.val + 1) = true
  · simp [hand.mpr hbit, hbit, hor]
  · have hzero : mask &&& 1 <<< (i.val + 1) = 0 := by
      by_contra hne
      exact hbit (hand.mp hne)
    simp [hzero, hbit]

/-- The loop puts the selected octets one behind the other. -/
theorem foldlM_collectOctet (mask : ℕ) (hwaddr : HwAddr) (is : List (Fin 6)) (octets : List ℕ)
    (hoctets : ∀ octet ∈ octets, octet < 256) (hlength : octets.length + is.length ≤ 6) :
    is.foldlM (collectOctet mask hwaddr) ⟨bigEndian octets, 8 * octets.length⟩ =
      .ok ⟨bigEndian (octets ++ (is.filter fun i => mask.testBit (i.val + 1)).map
          fun i => (hwaddr i).val),
        8 * (octets.length + (is.filter fun i => mask.testBit (i.val + 1)).length)⟩ := by
  induction is generalizing octets with
  | nil => simp [pure, Except.pure]
  | cons i is ih =>
      rw [List.length_cons] at hlength
      have hserial : bigEndian octets < 256 ^ 5 :=
        Nat.lt_of_lt_of_le (bigEndian_lt hoctets) (Nat.pow_le_pow_right (by decide) (by omega))
      rw [List.foldlM_cons, collectOctet_eq hserial]
      by_cases hbit : mask.testBit (i.val + 1) = true
      · have hfilter : (i :: is).filter (fun i => mask.testBit (i.val + 1)) =
            i :: is.filter fun i => mask.testBit (i.val + 1) := List.filter_cons_of_pos hbit
        have hnext := ih (octets ++ [(hwaddr i).val]) ?_ ?_
        · rw [bigEndian_append, List.length_append, List.length_singleton, Nat.mul_add] at hnext
          simp only [if_pos hbit, bind, Except.bind]
          rw [hnext, hfilter, List.length_cons, List.map_cons, List.append_assoc,
            List.singleton_append, Nat.add_assoc, Nat.add_comm 1]
        · intro octet hoctet
          rcases List.mem_append.mp hoctet with hoctet | hoctet
          · exact hoctets octet hoctet
          · exact List.mem_singleton.mp hoctet ▸ (hwaddr i).isLt
        · rw [List.length_append, List.length_singleton]
          omega
      · have hfilter : (i :: is).filter (fun i => mask.testBit (i.val + 1)) =
            is.filter fun i => mask.testBit (i.val + 1) := List.filter_cons_of_neg hbit
        simp only [if_neg hbit, bind, Except.bind]
        rw [ih octets hoctets (by omega), hfilter]

theorem collectOctets_eq (mask : ℕ) (hwaddr : HwAddr) :
    collectOctets mask hwaddr =
      .ok ⟨bigEndian (selected mask hwaddr), 8 * (positions mask).length⟩ := by
  have h := foldlM_collectOctet mask hwaddr (List.finRange 6) [] (by simp) (by simp)
  rw [List.nil_append, List.length_nil, Nat.zero_add] at h
  exact h

/-! ## Counting the digits -/

theorem countDigits_eq {n : ℕ} (hn : n ≠ 0) : countDigits n = (Nat.toDigits 10 n).length := by
  induction n using Nat.strong_induction_on with
  | _ n ih =>
      rw [countDigits, dif_neg hn, Nat.toDigits_eq_if (by decide)]
      by_cases hten : n < 10
      · have hzero : n / 10 = 0 := Nat.div_eq_of_lt hten
        rw [if_pos hten, hzero, countDigits, dif_pos rfl]
        rfl
      · rw [if_neg hten, ih (n / 10) (by omega) (by omega), List.length_append,
          List.length_singleton]

/-- A missing width is no different from the width of zero. -/
theorem zeroPad_countDigits (limit n : ℕ) :
    zeroPad (countDigits limit) n = zeroPad (Nat.toDigits 10 limit).length n := by
  by_cases hlimit : limit = 0
  · have hpos : 0 < (Nat.toDigits 10 n).length := Nat.length_toDigits_pos
    have hcount : countDigits 0 - (Nat.toDigits 10 n).length = 0 := by
      rw [countDigits, dif_pos rfl, Nat.zero_sub]
    have hdigits : (Nat.toDigits 10 0).length - (Nat.toDigits 10 n).length = 0 := by
      rw [Nat.toDigits_zero, List.length_singleton]
      omega
    rw [hlimit, zeroPad, zeroPad, hcount, hdigits]
  · rw [countDigits_eq hlimit]

/-! ## The serial number -/

theorem length_selected (mask : ℕ) (hwaddr : HwAddr) :
    (selected mask hwaddr).length = (positions mask).length := by
  rw [selected, List.length_map]

theorem printSerial_eq {mask : ℕ} (h : (positions mask).length ≤ 3) (hwaddr : HwAddr) :
    printSerial mask hwaddr =
      .ok ⟨0, zeroPad (serialWidth (positions mask).length)
        (bigEndian (selected mask hwaddr)) ++ ['\n']⟩ := by
  have hwidth : 8 * (positions mask).length < 32 := by omega
  have hmax : 1 <<< (8 * (positions mask).length) = 256 ^ (positions mask).length := by
    rw [Nat.one_shiftLeft, Nat.pow_mul]
  simp only [printSerial, collectOctets_eq, shiftOne, if_pos hwidth, bind, Except.bind, pure,
    Except.pure, hmax, zeroPad_countDigits]
  rfl

/-- With four octets the shift reaches the width of an `int`. -/
theorem printSerial_undefined {mask : ℕ} (h : 3 < (positions mask).length) (hwaddr : HwAddr) :
    printSerial mask hwaddr = .error .undefined := by
  have hwidth : ¬ 8 * (positions mask).length < 32 := by omega
  simp only [printSerial, collectOctets_eq, shiftOne, if_neg hwidth, bind, Except.bind]

theorem main_eq {w : WordSize} {octets : Text} {mask : ℕ}
    (hmask : parseMask w octets (some 0) = .ok (0, some mask)) (prog iface : Text)
    (rest : List Text) {ethGetHwaddr : Text → Except ℤ HwAddr} {hwaddr : HwAddr}
    (hiface : ethGetHwaddr iface = .ok hwaddr) :
    main w ethGetHwaddr (prog :: iface :: octets :: rest) = printSerial mask hwaddr := by
  simp only [main, hiface, hmask, bind, Except.bind]

/-- Serial numbers have a fixed width exactly for the lists of at most three octets. -/
theorem fixedWidth_iff {w : WordSize} {octets : Text} {mask : ℕ}
    (hmask : parseMask w octets (some 0) = .ok (0, some mask)) :
    FixedWidth w octets mask ↔ (positions mask).length ≤ 3 := by
  constructor
  · intro h
    by_contra hmore
    rcases h.prints [] [] [] (fun _ => .ok fun _ => 0) (fun _ => 0) rfl with ⟨serial, hmain, _⟩
    rw [main_eq hmask [] [] [] rfl, printSerial_undefined (by omega)] at hmain
    cases hmain
  · intro hcount
    have hlt : ∀ hwaddr, bigEndian (selected mask hwaddr) ≤ 256 ^ (positions mask).length - 1 := by
      intro hwaddr
      have h := bigEndian_lt (selected_lt mask hwaddr)
      rw [length_selected] at h
      omega
    refine ⟨fun prog iface rest ethGetHwaddr hwaddr hiface => ?_, ?_⟩
    · refine ⟨_, ?_, ?_, decimalValue_zeroPad _ _, length_zeroPad (hlt hwaddr)⟩
      · rw [main_eq hmask prog iface rest hiface, printSerial_eq hcount]
        rfl
      · exact isDigit_zeroPad _ _
    · intro prog iface rest hwaddr hwaddr' exit exit' hne hmain hmain' heq
      rw [main_eq hmask prog iface rest rfl, printSerial_eq hcount] at hmain hmain'
      cases hmain
      cases hmain'
      have hserial := List.append_cancel_right (Exit.mk.inj heq).2
      refine hne (bigEndian_injective ?_ (selected_lt mask hwaddr) (selected_lt mask hwaddr')
        (zeroPad_injective _ hserial))
      rw [length_selected, length_selected]

/-- `4-`: the last three octets. -/
theorem fixedWidth_iff_lastThree : FixedWidth .w64 ['4', '-'] 112 :=
  (fixedWidth_iff (by decide +kernel)).mpr (by decide)

/-- `3-`: with four octets, nothing is promised of what is printed. -/
theorem lastFour_not_fixedWidth : ¬ ∀ w octets mask,
    parseMask w octets (some 0) = .ok (0, some mask) → FixedWidth w octets mask := by
  intro h
  have hmask : parseMask .w64 ['3', '-'] (some 0) = .ok (0, some 120) := by decide +kernel
  rcases (h _ _ _ hmask).prints [] [] [] (fun _ => .ok fun _ => 0) (fun _ => 0) rfl with
    ⟨serial, hmain, _⟩
  rw [main_eq hmask [] [] [] rfl, printSerial_undefined (by decide)] at hmain
  cases hmain

end Pbs.MacSerial
