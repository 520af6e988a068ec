import Mathlib.Data.List.Basic

/-!
# Texts cut behind a separator

A text is cut behind every separator; what is behind the last one is a piece of its own.  The pieces make up the text
again, and lines in front of a text are cut off as they are.
-/

namespace SplitInclusive

open List

variable {α : Type*} {sep : α}

/-- A line ends in the separator and has it nowhere else. -/
def IsLine (sep : α) (line : List α) : Prop := ∃ body, sep ∉ body ∧ line = body ++ [sep]

theorem IsLine.getLast? {line : List α} (h : IsLine sep line) : line.getLast? = some sep := by
  obtain ⟨body, _, rfl⟩ := h
  exact getLast?_concat

variable [DecidableEq α]

/-- The pieces of a text, each with the separator it ends in. -/
def splitInclusive (sep : α) : List α → List (List α)
  | [] => []
  | a :: l =>
    if a = sep then [a] :: splitInclusive sep l
    else match splitInclusive sep l with
      | [] => [[a]]
      | line :: lines => (a :: line) :: lines

theorem flatten_splitInclusive (l : List α) : (splitInclusive sep l).flatten = l := by
  induction l with
  | nil => rfl
  | cons a l ih =>
    rw [splitInclusive]
    split
    · rw [flatten_cons, ih]
      rfl
    · cases hpieces : splitInclusive sep l with
      | nil | cons line lines =>
        rw [hpieces] at ih
        rw [← ih]
        rfl

theorem notMem_dropLast_of_mem {l piece : List α} (h : piece ∈ splitInclusive sep l) : sep ∉ piece.dropLast := by
  induction l generalizing piece with
  | nil => cases h
  | cons a l ih =>
    rw [splitInclusive] at h
    split at h
    · rcases mem_cons.mp h with rfl | h
      · simp
      · exact ih h
    · rename_i hne
      split at h
      · rw [mem_singleton] at h
        simp [h]
      · rename_i line lines hpieces
        rcases mem_cons.mp h with rfl | h
        · have hline := ih (hpieces ▸ mem_cons_self)
          cases line with
          | nil => simp
          | cons b line =>
            rw [dropLast_cons_cons, mem_cons, not_or]
            exact ⟨fun heq => hne heq.symm, hline⟩
        · exact ih (hpieces ▸ mem_cons_of_mem _ h)

theorem isLine_of_mem {l piece : List α} (h : piece ∈ splitInclusive sep l) (hend : piece.getLast? = some sep) :
    IsLine sep piece :=
  ⟨piece.dropLast, notMem_dropLast_of_mem h, (dropLast_append_getLast? sep hend).symm⟩

theorem splitInclusive_line {line : List α} (h : IsLine sep line) (rest : List α) :
    splitInclusive sep (line ++ rest) = line :: splitInclusive sep rest := by
  obtain ⟨body, hbody, rfl⟩ := h
  induction body with
  | nil => simp [splitInclusive]
  | cons a body ih =>
    obtain ⟨hne, hbody⟩ := mem_cons.not.trans not_or |>.mp hbody
    rw [cons_append, cons_append, splitInclusive, if_neg (Ne.symm hne), ih hbody]

/-- **Lines in front of a text** are cut off one by one. -/
theorem splitInclusive_lines {lines : List (List α)} (h : ∀ line ∈ lines, IsLine sep line) (rest : List α) :
    splitInclusive sep (lines.flatten ++ rest) = lines ++ splitInclusive sep rest := by
  induction lines with
  | nil => rfl
  | cons line lines ih =>
    obtain ⟨hline, hlines⟩ := forall_mem_cons.mp h
    rw [flatten_cons, append_assoc, splitInclusive_line hline, ih hlines]
    rfl

end SplitInclusive
