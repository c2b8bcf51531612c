import Pbs.Lib.MakeSyntax

/-!
# Programs of awk

A program is a list of rules, each of which prints something for a record or not. It is
run over the lines of a text, with what its `BEGIN` and `END` rules print around
(`Program.run`). A text that is put together from lines has these lines as its records
(`records_unlines`).
-/

namespace Awk

open MakeSyntax

/-- The lines, each with its end. -/
def unlines (lines : List Text) : Text := lines.flatMap (· ++ ['\n'])

/-- The records of a text. A newline at the end begins no further record. -/
def records (text : Text) : List Text :=
  if (splitLines text).getLast? = some [] then (splitLines text).dropLast else splitLines text

/-- `$1`, where `FS` is a single character out of several. -/
def firstField (isSeparator : Char → Bool) (record : Text) : Text :=
  record.takeWhile fun c => !isSeparator c

structure Program (α : Type) where
  atBegin : List α
  rules : List (Text → List α)
  atEnd : List α

/-- What is printed for a record: every rule is tried. -/
def Program.onRecord {α : Type} (program : Program α) (record : Text) : List α :=
  program.rules.flatMap fun rule => rule record

def Program.run {α : Type} (program : Program α) (input : Text) : List α :=
  program.atBegin ++ (records input).flatMap program.onRecord ++ program.atEnd

/-! ## Records -/

theorem splitLines_unlines {lines : List Text} (h : ∀ line ∈ lines, '\n' ∉ line) :
    splitLines (unlines lines) = lines ++ [[]] := by
  induction lines with
  | nil => rfl
  | cons line lines ih =>
      have hrest := ih fun line' hline' => h line' (List.mem_cons_of_mem _ hline')
      have hline := splitLines_line (h line (List.mem_cons_self ..))
      have hcons : unlines (line :: lines) = line ++ '\n' :: unlines lines := by simp [unlines]
      rw [hcons, splitLines, List.splitOnP_append_cons _ _ (by rfl)]
      show splitLines line ++ splitLines (unlines lines) = _
      rw [hline, hrest]
      rfl

theorem records_unlines {lines : List Text} (h : ∀ line ∈ lines, '\n' ∉ line) :
    records (unlines lines) = lines := by
  rw [records, splitLines_unlines h]
  simp

/-- A record has characters of the text, and no newline. -/
theorem of_mem_records {text record : Text} (h : record ∈ records text) :
    record ⊆ text ∧ '\n' ∉ record := by
  have hpiece : record ∈ splitLines text := by
    rw [records] at h
    by_cases hlast : (splitLines text).getLast? = some []
    · rw [if_pos hlast] at h
      exact List.dropLast_subset _ h
    · rw [if_neg hlast] at h
      exact h
  refine ⟨fun c hc => (of_mem_splitOnP hpiece c hc).1, fun hmem => ?_⟩
  simpa using (of_mem_splitOnP hpiece '\n' hmem).2

end Awk
