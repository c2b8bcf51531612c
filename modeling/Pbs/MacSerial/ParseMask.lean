import Pbs.Lib.CNumber
import Mathlib.Data.List.SplitBy
import Mathlib.Data.Finset.Insert
import Mathlib.Order.Interval.Finset.Nat

/-!
# The octets of a serial number

`parse_mask` of `macserial.c` reads a list such as `1,3-4,6-` of the octets of a MAC
address. It is a scanner with two numbers for a memory: `last` is a number that may
still turn out to begin a range, and `start` the beginning of a range whose end has
not been seen. A comma changes neither of them. So `a-` takes the next number for
its end, and `-b` takes a number before it for its beginning, commas or not.
-/

namespace Pbs.MacSerial

open CNumber

/-! ## The scanner -/

/-- `__WORDSIZE` -/
inductive WordSize where
  | w32
  | w64
deriving DecidableEq, Repr

/-- The width of an `unsigned long`. -/
def WordSize.bits : WordSize → ℕ
  | .w32 => 32
  | .w64 => 64

/-- `EINVAL`. -/
def einval : ℤ := 22

/-- Why a computation stops before its end. -/
inductive Stop where
  /-- A shift by the width of the operand or more, of which C promises nothing. -/
  | undefined
  /-- `return` -/
  | ret (value : ℤ)
deriving DecidableEq, Repr

/-- `1 << i`, of type `int`. -/
def shiftOne (i : ℕ) : Except Stop ℕ :=
  if i < 32 then .ok (1 <<< i) else .error .undefined

/-- `mask |= 1 << i` -/
def mark (mask i : ℕ) : Except Stop ℕ := do
  return mask ||| (← shiftOne i)

/-- `for (i = first; i <= end; i++) mask |= 1 << i` -/
def markRange (mask first last : ℕ) : Except Stop ℕ :=
  (List.range' first (last + 1 - first)).foldlM mark mask

/-- The variables of `parse_mask`. -/
structure Scan where
  start : ℕ
  last : ℕ
  mask : ℕ
deriving DecidableEq, Repr

/-- The loop, behind `strtoul`. -/
def putOctet (st : Scan) (octet : ℕ) : Except Stop Scan :=
  if octet = 0 ∨ 6 < octet then .error (.ret (-einval))
  else if st.start ≠ 0 then do
    return ⟨0, 0, ← markRange st.mask st.start octet⟩
  else if st.last ≠ 0 then do
    return ⟨0, octet, ← mark st.mask st.last⟩
  else .ok ⟨0, octet, st.mask⟩

/-- `while (*octets)`. An octet has 32 bits, whatever the width of an `unsigned long`. -/
def parseLoop (w : WordSize) (st : Scan) : Text → Except Stop Scan
  | [] => .ok st
  | '-' :: octets =>
      parseLoop w { st with start := if st.last ≠ 0 then st.last else 1 } octets
  | ',' :: octets => parseLoop w st octets
  | c :: octets =>
      match h : strtoul w.bits (c :: octets) with
      | none => .error (.ret (-einval))
      | some (value, rest) => do
          let st' ← putOctet st (value % 2 ^ 32)
          parseLoop w st' rest
termination_by octets => octets.length
decreasing_by
  · simp
  · simp
  · exact strtoul_length h

/-- What `parse_mask` does behind the loop. -/
def finishMask (st : Scan) : Except Stop ℕ :=
  if st.start ≠ 0 then markRange st.mask st.start 6
  else if st.last ≠ 0 then mark st.mask st.last
  else .ok st.mask

/-- `parse_mask(octets, maskp)`: what is returned, and `*maskp` after it, unless
`maskp` is `NULL`. -/
def parseMask (w : WordSize) (octets : Text) (maskp : Option ℕ) : Except Stop (ℤ × Option ℕ) :=
  match parseLoop w ⟨0, 0, 0⟩ octets >>= finishMask with
  | .error .undefined => .error .undefined
  | .error (.ret value) => .ok (value, maskp)
  | .ok mask => .ok (0, maskp.map fun _ => mask)

/-! ## What the scanner reads -/

/-- The text without its commas. -/
inductive Token where
  | dash
  | number (octet : ℕ)

/-- The text is a sequence of commas, dashes, and numbers that end up as octets. -/
inductive Reads (w : WordSize) : Text → List Token → Prop where
  | nil : Reads w [] []
  | comma {octets tokens} : Reads w octets tokens → Reads w (',' :: octets) tokens
  | dash {octets tokens} : Reads w octets tokens → Reads w ('-' :: octets) (.dash :: tokens)
  | number {octets tokens} (r : Reading) (octet : ℕ) : r.text.head? ≠ some '-' → NoDigit octets →
      r.value w.bits % 2 ^ 32 = octet → octet ∈ Finset.Icc 1 6 → Reads w octets tokens →
      Reads w (r.text ++ octets) (.number octet :: tokens)

/-- What is left to be done with the numbers read so far. -/
inductive Pending where
  | clean
  /-- A number that is to be marked, unless a range begins with it. -/
  | single (n : ℕ)
  /-- The beginning of a range. -/
  | opened (first : ℕ)

def Pending.next : Pending → Token → Pending
  | .clean, .dash => .opened 1
  | .single n, .dash => .opened n
  | .opened first, .dash => .opened first
  | .opened _, .number _ => .clean
  | _, .number n => .single n

/-- The octets that are marked when the token is read. -/
def Pending.marks : Pending → Token → Finset ℕ
  | .single n, .number _ => {n}
  | .opened first, .number n => Finset.Icc first n
  | _, _ => ∅

/-- The octets that are marked behind the loop. -/
def Pending.finish : Pending → Finset ℕ
  | .clean => ∅
  | .single n => {n}
  | .opened first => Finset.Icc first 6

/-- The octets that are marked from here on. -/
def Pending.marked : Pending → List Token → Finset ℕ
  | p, [] => p.finish
  | p, token :: tokens => p.marks token ∪ (p.next token).marked tokens

/-- The mask has exactly these bits. -/
def IsMask (mask : ℕ) (octets : Finset ℕ) : Prop :=
  ∀ i, mask.testBit i = true ↔ i ∈ octets

/-- The variables say what is left to be done. -/
def Pending.Holds : Pending → Scan → Prop
  | .clean, st => st.start = 0 ∧ st.last = 0
  | .single n, st => st.start = 0 ∧ st.last = n ∧ n ∈ Finset.Icc 1 6
  | .opened first, st =>
      st.start = first ∧ (if st.last ≠ 0 then st.last else 1) = first ∧ first ∈ Finset.Icc 1 6

/-! ## Marking -/

theorem mark_eq {mask i : ℕ} (hi : i ≤ 6) : mark mask i = .ok (mask ||| 1 <<< i) := by
  have hwidth : i < 32 := by omega
  simp [mark, shiftOne, hwidth, bind, Except.bind, pure, Except.pure]

theorem isMask_mark {mask i : ℕ} {octets : Finset ℕ} (h : IsMask mask octets) :
    IsMask (mask ||| 1 <<< i) (octets ∪ {i}) := by
  intro j
  rw [Nat.testBit_or, Bool.or_eq_true, h j, Finset.mem_union, Finset.mem_singleton,
    Nat.one_shiftLeft, Nat.testBit_two_pow, decide_eq_true_eq, eq_comm]

theorem foldlM_mark {is : List ℕ} (his : ∀ i ∈ is, i ≤ 6) {mask : ℕ} {octets : Finset ℕ}
    (h : IsMask mask octets) :
    ∃ mask', is.foldlM mark mask = .ok mask' ∧ IsMask mask' (octets ∪ is.toFinset) := by
  induction is generalizing mask octets with
  | nil => exact ⟨mask, rfl, by simpa using h⟩
  | cons i is ih =>
      rcases ih (fun j hj => his j (List.mem_cons_of_mem i hj))
        (isMask_mark (i := i) h) with ⟨mask', hfold, hmask⟩
      refine ⟨mask', ?_, ?_⟩
      · rw [List.foldlM_cons, mark_eq (his i (List.mem_cons_self ..))]
        exact hfold
      · rw [List.toFinset_cons, Finset.insert_eq, ← Finset.union_assoc]
        exact hmask

theorem markRange_spec (first : ℕ) {last : ℕ} (hlast : last ≤ 6) {mask : ℕ} {octets : Finset ℕ}
    (h : IsMask mask octets) :
    ∃ mask', markRange mask first last = .ok mask' ∧
      IsMask mask' (octets ∪ Finset.Icc first last) := by
  have hrange : ∀ i, i ∈ List.range' first (last + 1 - first) ↔ i ∈ Finset.Icc first last := by
    intro i
    rw [List.mem_range'_1, Finset.mem_Icc]
    omega
  have hset : (List.range' first (last + 1 - first)).toFinset = Finset.Icc first last := by
    ext i
    rw [List.mem_toFinset, hrange i]
  have hle : ∀ i ∈ List.range' first (last + 1 - first), i ≤ 6 := by
    intro i hi
    exact (Finset.mem_Icc.mp ((hrange i).mp hi)).2.trans hlast
  rcases foldlM_mark hle h with ⟨mask', hfold, hmask⟩
  exact ⟨mask', hfold, hset ▸ hmask⟩

/-! ## One step of the loop -/

theorem putOctet_spec {p : Pending} {st : Scan} {octet : ℕ} {octets : Finset ℕ} (hp : p.Holds st)
    (hmask : IsMask st.mask octets) (hoctet : octet ∈ Finset.Icc 1 6) :
    ∃ st', putOctet st octet = .ok st' ∧ (p.next (.number octet)).Holds st' ∧
      IsMask st'.mask (octets ∪ p.marks (.number octet)) := by
  have hrange := Finset.mem_Icc.mp hoctet
  have hok : ¬ (octet = 0 ∨ 6 < octet) := by omega
  cases p with
  | clean =>
      rcases hp with ⟨hstart, hlast⟩
      refine ⟨⟨0, octet, st.mask⟩, by simp [putOctet, hok, hstart, hlast], ⟨rfl, rfl, hoctet⟩, ?_⟩
      simpa [Pending.marks] using hmask
  | single n =>
      rcases hp with ⟨hstart, rfl, hn⟩
      have hlast := Finset.mem_Icc.mp hn
      have hne : st.last ≠ 0 := by omega
      refine ⟨⟨0, octet, st.mask ||| 1 <<< st.last⟩, ?_, ⟨rfl, rfl, hoctet⟩, isMask_mark hmask⟩
      simp [putOctet, hok, hstart, hne, mark_eq hlast.2, bind, Except.bind, pure, Except.pure]
  | opened first =>
      rcases hp with ⟨rfl, _, hfirst⟩
      have hne : st.start ≠ 0 := by
        have := Finset.mem_Icc.mp hfirst
        omega
      rcases markRange_spec st.start hrange.2 hmask with ⟨mask', hfold, hmask'⟩
      refine ⟨⟨0, 0, mask'⟩, ?_, ⟨rfl, rfl⟩, hmask'⟩
      simp [putOctet, hok, hne, hfold, bind, Except.bind, pure, Except.pure]

theorem Pending.Holds.dash {p : Pending} {st : Scan} (hp : p.Holds st) :
    (p.next .dash).Holds { st with start := if st.last ≠ 0 then st.last else 1 } := by
  cases p with
  | clean =>
      rcases hp with ⟨_, hlast⟩
      simp [Pending.next, Pending.Holds, hlast]
  | single n =>
      rcases hp with ⟨_, rfl, hn⟩
      have hne : st.last ≠ 0 := by
        have := Finset.mem_Icc.mp hn
        omega
      simp [Pending.next, Pending.Holds, hne, Finset.mem_Icc.mp hn]
  | opened first =>
      rcases hp with ⟨_, hlast, hfirst⟩
      exact ⟨hlast, hlast, hfirst⟩

theorem finishMask_spec {p : Pending} {st : Scan} {octets : Finset ℕ} (hp : p.Holds st)
    (hmask : IsMask st.mask octets) :
    ∃ mask, finishMask st = .ok mask ∧ IsMask mask (octets ∪ p.finish) := by
  cases p with
  | clean =>
      rcases hp with ⟨hstart, hlast⟩
      exact ⟨st.mask, by simp [finishMask, hstart, hlast], by simpa [Pending.finish] using hmask⟩
  | single n =>
      rcases hp with ⟨hstart, rfl, hn⟩
      have hlast := Finset.mem_Icc.mp hn
      have hne : st.last ≠ 0 := by omega
      refine ⟨st.mask ||| 1 <<< st.last, ?_, isMask_mark hmask⟩
      simp [finishMask, hstart, hne, mark_eq hlast.2]
  | opened first =>
      rcases hp with ⟨rfl, _, hfirst⟩
      have hne : st.start ≠ 0 := by
        have := Finset.mem_Icc.mp hfirst
        omega
      rcases markRange_spec st.start (Nat.le_refl 6) hmask with ⟨mask, hfold, hmask'⟩
      exact ⟨mask, by simp [finishMask, hne, hfold], hmask'⟩

/-! ## The loop -/

theorem parseLoop_number (w : WordSize) (st : Scan) {octets : Text} (hne : octets ≠ [])
    (hdash : octets.head? ≠ some '-') (hcomma : octets.head? ≠ some ',') :
    parseLoop w st octets =
      match strtoul w.bits octets with
      | none => .error (.ret (-einval))
      | some (value, rest) =>
          putOctet st (value % 2 ^ 32) >>= fun st' => parseLoop w st' rest := by
  cases octets with
  | nil => exact absurd rfl hne
  | cons c octets =>
      rw [parseLoop]
      · split <;> simp_all
      · rintro rfl
        exact hdash rfl
      · rintro rfl
        exact hcomma rfl

theorem parseLoop_reading (w : WordSize) (st : Scan) (r : Reading) {octets : Text}
    (hdash : r.text.head? ≠ some '-') (hrest : NoDigit octets) :
    parseLoop w st (r.text ++ octets) =
      putOctet st (r.value w.bits % 2 ^ 32) >>= fun st' => parseLoop w st' octets := by
  have hne : r.text ≠ [] := by
    intro h
    exact r.nonempty (List.append_eq_nil_iff.mp h).2
  have hhead : (r.text ++ octets).head? = r.text.head? := by
    rw [List.head?_append, List.head?_eq_some_head hne, Option.some_or]
  have hcomma : r.text.head? ≠ some ',' := r.head?_ne (by decide) (by decide) (by decide)
  rw [parseLoop_number w st (by simp [hne]) (hhead ▸ hdash) (hhead ▸ hcomma),
    strtoul_reading w.bits r hrest]

/-- What is marked in a text that the scanner reads to the end. -/
theorem parseLoop_reads {w : WordSize} {text : Text} {tokens : List Token}
    (h : Reads w text tokens) {p : Pending} {st : Scan} {octets : Finset ℕ} (hp : p.Holds st)
    (hmask : IsMask st.mask octets) :
    ∃ mask, (parseLoop w st text >>= finishMask) = .ok mask ∧
      IsMask mask (octets ∪ p.marked tokens) := by
  induction h generalizing p st octets with
  | nil =>
      rw [parseLoop]
      exact finishMask_spec hp hmask
  | comma _ ih =>
      rw [parseLoop]
      exact ih hp hmask
  | dash _ ih =>
      rw [parseLoop, Pending.marked]
      cases p <;> simpa [Pending.marks] using ih hp.dash hmask
  | number r octet hdash hrest hvalue hoctet _ ih =>
      rcases putOctet_spec hp hmask hoctet with ⟨st', hput, hp', hmask'⟩
      rw [parseLoop_reading w st r hdash hrest, hvalue, hput, Pending.marked,
        ← Finset.union_assoc]
      exact ih hp' hmask'

/-- Any other text is rejected. -/
theorem parseLoop_not_reads {w : WordSize} {text : Text} (h : ¬ ∃ tokens, Reads w text tokens)
    {p : Pending} {st : Scan} {octets : Finset ℕ} (hp : p.Holds st)
    (hmask : IsMask st.mask octets) : parseLoop w st text = .error (.ret (-einval)) := by
  induction hlength : text.length using Nat.strong_induction_on generalizing p st text octets with
  | _ length ih =>
      subst hlength
      by_cases hne : text = []
      · exact absurd ⟨[], hne ▸ .nil⟩ h
      by_cases hdash : text.head? = some '-'
      · rcases List.head?_eq_some_iff.mp hdash with ⟨rest, rfl⟩
        rw [parseLoop]
        refine ih rest.length (by simp) ?_ hp.dash hmask rfl
        rintro ⟨tokens, hreads⟩
        exact h ⟨_, hreads.dash⟩
      by_cases hcomma : text.head? = some ','
      · rcases List.head?_eq_some_iff.mp hcomma with ⟨rest, rfl⟩
        rw [parseLoop]
        refine ih rest.length (by simp) ?_ hp hmask rfl
        rintro ⟨tokens, hreads⟩
        exact h ⟨_, hreads.comma⟩
      rw [parseLoop_number w st hne hdash hcomma]
      cases hread : strtoul w.bits text with
      | none => rfl
      | some result =>
          rcases result with ⟨value, rest⟩
          rcases exists_reading hread with ⟨r, rfl, rfl, hrest⟩
          by_cases hoctet : r.value w.bits % 2 ^ 32 ∈ Finset.Icc 1 6
          · -- the fault is behind the number
            rcases putOctet_spec hp hmask hoctet with ⟨st', hput, hp', hmask'⟩
            simp only [hput, bind, Except.bind]
            refine ih rest.length (strtoul_length hread) ?_ hp' hmask' rfl
            rintro ⟨tokens, hreads⟩
            refine h ⟨_, .number r _ ?_ hrest rfl hoctet hreads⟩
            intro hfirst
            rcases List.head?_eq_some_iff.mp hfirst with ⟨digits, htext⟩
            exact hdash (by rw [htext]; rfl)
          · have hbad : r.value w.bits % 2 ^ 32 = 0 ∨ 6 < r.value w.bits % 2 ^ 32 := by
              rw [Finset.mem_Icc] at hoctet
              omega
            simp only [putOctet, if_pos hbad, bind, Except.bind]

theorem parseMask_reads {w : WordSize} {text : Text} {tokens : List Token}
    (h : Reads w text tokens) (maskp : Option ℕ) :
    ∃ mask, parseMask w text maskp = .ok (0, maskp.map fun _ => mask) ∧
      IsMask mask (Pending.clean.marked tokens) := by
  have hempty : IsMask 0 ∅ := by simp [IsMask]
  have hclean : Pending.clean.Holds ⟨0, 0, 0⟩ := ⟨rfl, rfl⟩
  rcases parseLoop_reads h hclean hempty with ⟨mask, hloop, hmask⟩
  refine ⟨mask, ?_, by simpa using hmask⟩
  rw [parseMask, hloop]

theorem parseMask_not_reads {w : WordSize} {text : Text} (h : ¬ ∃ tokens, Reads w text tokens)
    (maskp : Option ℕ) : parseMask w text maskp = .ok (-einval, maskp) := by
  have hempty : IsMask 0 ∅ := by simp [IsMask]
  have hclean : Pending.clean.Holds ⟨0, 0, 0⟩ := ⟨rfl, rfl⟩
  have hloop := parseLoop_not_reads h hclean hempty
  simp only [parseMask, hloop, bind, Except.bind]

end Pbs.MacSerial
