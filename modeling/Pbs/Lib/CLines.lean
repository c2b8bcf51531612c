import Mathlib.Data.Nat.Notation
import Mathlib.Data.List.TakeWhile

/-!
# Reading lines in C

`fgets` in a loop, with a buffer that a long line may not fit into, and `strchr` where the
character that is found is overwritten. Lines that fit into the buffer come out one by one
(`fgetsLines_flatten`).
-/

namespace CLines

abbrev Text := List Char

/-- What `fgets` returns until the end of the file, where `room` characters fit into the buffer
and `line` is in it. -/
def fgetsFrom (room : ℕ) : Text → Text → List Text
  | line, [] => if line = [] then [] else [line]
  | line, c :: rest =>
      if c = '\n' ∨ line.length + 1 = room then (line ++ [c]) :: fgetsFrom room [] rest
      else fgetsFrom room (line ++ [c]) rest

/-- `while (fgets(line, size, in))`, for a buffer with a `size` of one more. -/
def fgetsLines (room : ℕ) (file : Text) : List Text := fgetsFrom room [] file

/-- `p = strchr(str, c)` and `*p++ = 0`: what is in front of the character and behind it. -/
def cutAt (c : Char) (str : Text) : Option (Text × Text) :=
  match str.dropWhile (· ≠ c) with
  | [] => none
  | _ :: rest => some (str.takeWhile (· ≠ c), rest)

/-- The same where nothing is behind it. -/
def cutEnd (c : Char) (str : Text) : Text := str.takeWhile (· ≠ c)

theorem fgetsFrom_line {room : ℕ} {line str : Text} (hstr : '\n' ∉ str)
    (hroom : line.length + str.length < room) (rest : Text) :
    fgetsFrom room line (str ++ '\n' :: rest) =
      (line ++ str ++ ['\n']) :: fgetsLines room rest := by
  induction str generalizing line with
  | nil =>
      rw [List.nil_append, List.append_nil, fgetsFrom, if_pos (.inl rfl)]
      rfl
  | cons c str ih =>
      have hc : c ≠ '\n' := fun h => hstr (h ▸ List.mem_cons_self)
      rw [List.length_cons] at hroom
      have hnot : ¬ (c = '\n' ∨ line.length + 1 = room) := by
        rintro (h | h)
        · exact hc h
        · omega
      have hlen : (line ++ [c]).length + str.length < room := by
        rw [List.length_append, List.length_singleton]
        omega
      rw [List.cons_append, fgetsFrom, if_neg hnot,
        ih (fun h => hstr (List.mem_cons_of_mem _ h)) hlen]
      simp

/-- A line with its end, as it fits into the buffer. -/
def Fits (room : ℕ) (line : Text) : Prop :=
  ∃ str, line = str ++ ['\n'] ∧ '\n' ∉ str ∧ str.length < room

theorem fgetsLines_cons {room : ℕ} {line : Text} (h : Fits room line) (rest : Text) :
    fgetsLines room (line ++ rest) = line :: fgetsLines room rest := by
  obtain ⟨str, rfl, hstr, hroom⟩ := h
  have hroom' : ([] : Text).length + str.length < room := by simpa using hroom
  have hline := fgetsFrom_line hstr hroom' rest
  rw [List.nil_append] at hline
  rw [List.append_assoc]
  exact hline

/-- Lines that fit are read as they are. -/
theorem fgetsLines_flatten {room : ℕ} {lines : List Text} (h : ∀ line ∈ lines, Fits room line) :
    fgetsLines room lines.flatten = lines := by
  induction lines with
  | nil => rfl
  | cons line lines ih =>
      rw [List.flatten_cons, fgetsLines_cons (h line List.mem_cons_self),
        ih fun line hline => h line (List.mem_cons_of_mem _ hline)]

theorem cutAt_append {c : Char} {str : Text} (h : c ∉ str) (rest : Text) :
    cutAt c (str ++ c :: rest) = some (str, rest) := by
  have hall : ∀ d ∈ str, decide (d ≠ c) = true := by
    intro d hd
    rw [decide_eq_true_eq]
    rintro rfl
    exact h hd
  unfold cutAt
  rw [List.dropWhile_append_of_pos hall, List.takeWhile_append_of_pos hall]
  simp

theorem cutEnd_append {c : Char} {str : Text} (h : c ∉ str) (rest : Text) :
    cutEnd c (str ++ c :: rest) = str := by
  have hall : ∀ d ∈ str, decide (d ≠ c) = true := by
    intro d hd
    rw [decide_eq_true_eq]
    rintro rfl
    exact h hd
  unfold cutEnd
  rw [List.takeWhile_append_of_pos hall]
  simp

end CLines
