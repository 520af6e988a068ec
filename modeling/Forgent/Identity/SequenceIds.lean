import Mathlib.Data.List.Basic

/-!
# The numbers of the documents

Two kinds of ids are numbers of a shared counter: `D-ADR0073` in the documents, and `0073-` before the name of a
decision file.  A claim starts behind the highest number that the documents of its clone already carry.

* `SequenceKind.format`: the id as it is written.
* `adrNumbers`, `highestInDocuments`: what is read back.

The formatter writes at least four digits and the scan reads exactly four, so a number is read back where it has four
digits (`le_highestInDocuments`).
-/

namespace Forgent.Identity

open List

/-- A kind whose id is the next number of a shared counter. -/
inductive SequenceKind where
  | dAdr
  | decisionFile
deriving DecidableEq

/-- The counter, `refs/fgos/seq/<this>`. -/
def SequenceKind.counter : SequenceKind → String
  | .dAdr => "d-adr"
  | .decisionFile => "decision-file"

/-- `{number:04}`. -/
def padded (number : ℕ) : List Char :=
  List.replicate (4 - (Nat.toDigits 10 number).length) '0' ++ Nat.toDigits 10 number

def adrTag : List Char := ['D', '-', 'A', 'D', 'R']

/-- The id as it is written in documents and file names. -/
def SequenceKind.format : SequenceKind → ℕ → List Char
  | .dAdr, number => adrTag ++ padded number
  | .decisionFile, number => padded number

/-! ### The scan -/

/-- The number the text begins with, where its first four characters are digits. -/
def fourDigits (text : List Char) : Option ℕ :=
  let digits := text.take 4
  if digits.length = 4 && digits.all Char.isDigit then some (Nat.ofDigitChars 10 digits 0) else none

/-- `adr_numbers`, behind the first characters that a match took. -/
def adrNumbersFrom : ℕ → List Char → List ℕ
  | _, [] => []
  | taken + 1, _ :: line => adrNumbersFrom taken line
  | 0, c :: line =>
    if adrTag.isPrefixOf (c :: line) then
      (fourDigits ((c :: line).drop adrTag.length)).toList ++ adrNumbersFrom (adrTag.length - 1) line
    else adrNumbersFrom 0 line

/-- Every `D-ADR` followed by four digits in the line. -/
def adrNumbers (line : List Char) : List ℕ := adrNumbersFrom 0 line

/-- The number of a decision file's name: four digits and a hyphen. -/
def decisionNumber (name : List Char) : Option ℕ :=
  if (name.drop 4).head? = some '-' then fourDigits name else none

/-- A regular file of the work tree; its text is there where it can be read. -/
structure DocFile where
  path : List String
  size : ℕ
  text : Option (List Char)

/-- What the scan finds of a work tree: its files, and the names directly in `docs/decisions`. -/
structure Documents where
  files : List DocFile
  decisions : List (List Char)

/-- `Path::extension`. -/
def extensionOf (name : List Char) : Option (List Char) :=
  let after := name.reverse.takeWhile (· ≠ '.')
  let before := name.reverse.drop (after.length + 1)
  if after.length = name.length || before = [] || name = ['.', '.'] then none else some after.reverse

/-- `MAX_DOC_BYTES`. -/
def maxDocBytes : ℕ := 4 * 1024 * 1024

/-- Every Markdown file under `docs/platform/` that is not too large. -/
def decisionDocuments (documents : Documents) : List DocFile :=
  documents.files.filter fun file =>
    ["docs", "platform"].isPrefixOf file.path && 2 < file.path.length &&
      (file.path.getLast?.bind fun name => extensionOf name.toList) = some ['m', 'd'] && file.size ≤ maxDocBytes

/-- A line without the carriage return before its line feed. -/
def stripReturn (line : List Char) : List Char := if line.getLast? = some '\r' then line.dropLast else line

/-- `lines`. -/
def textLines (text : List Char) : List (List Char) :=
  let pieces := text.splitOn '\n'
  pieces.dropLast.map stripReturn ++ pieces.getLast?.toList.filter (· ≠ [])

/-- `max().unwrap_or(0)`. -/
def highest (numbers : List ℕ) : ℕ := numbers.foldr max 0

/-- The headings of the documents that define ids. -/
def headings (documents : Documents) : List (List Char) :=
  (decisionDocuments documents).flatMap fun file =>
    (file.text.toList.flatMap textLines).filter fun line => line.head? = some '#'

/-- The highest number of the kind the documents already carry, 0 when there is none. -/
def highestInDocuments (documents : Documents) : SequenceKind → ℕ
  | .dAdr => highest ((headings documents).flatMap adrNumbers)
  | .decisionFile => highest (documents.decisions.filterMap decisionNumber)

/-! ### What is written is read back -/

variable {n : ℕ}

theorem le_highest {numbers : List ℕ} (h : n ∈ numbers) : n ≤ highest numbers := by
  induction numbers with
  | nil => cases h
  | cons m numbers ih =>
    show n ≤ max m (highest numbers)
    rcases mem_cons.mp h with rfl | h
    · exact Nat.le_max_left n _
    · exact Nat.le_trans (ih h) (Nat.le_max_right m _)

theorem length_padded (hn : n < 10000) : (padded n).length = 4 := by
  have hlength : (Nat.toDigits 10 n).length ≤ 4 :=
    (Nat.length_toDigits_le_iff (by decide) (by decide)).mpr hn
  rw [padded, length_append, length_replicate]
  omega

theorem padded_isDigit (n : ℕ) : (padded n).all Char.isDigit = true := by
  rw [List.all_eq_true]
  intro c hc
  rcases mem_append.mp hc with hc | hc
  · rw [eq_of_mem_replicate hc]
    rfl
  · exact Nat.isDigit_of_mem_toDigits (by decide) (by decide) hc

theorem ofDigitChars_padded (n : ℕ) : Nat.ofDigitChars 10 (padded n) 0 = n := by
  rw [padded, Nat.ofDigitChars_append, Nat.ofDigitChars_replicate_zero, Nat.mul_zero,
    Nat.ofDigitChars_toDigits (by decide) (by decide)]

theorem fourDigits_padded (hn : n < 10000) (behind : List Char) : fourDigits (padded n ++ behind) = some n := by
  have htake : (padded n ++ behind).take 4 = padded n := by
    rw [← length_padded hn, take_left]
  rw [fourDigits, htake, length_padded hn, padded_isDigit, ofDigitChars_padded]
  rfl

theorem adrTag_apart {before : List Char} (behind : List Char) {c : Char}
    (h : adrTag.isPrefixOf (c :: (before ++ adrTag ++ behind)) = true) : adrTag.length - 1 ≤ before.length := by
  show 4 ≤ before.length
  rw [List.isPrefixOf_iff_prefix] at h
  obtain ⟨rest, hrest⟩ := h
  match before with
  | [] | [_] | [_, _] | [_, _, _] => simp [adrTag] at hrest
  | _ :: _ :: _ :: _ :: _ => simp

/-- **Every tag with a number of at most four digits is found.** -/
theorem mem_adrNumbersFrom (hn : n < 10000) (before behind : List Char) {taken : ℕ}
    (htaken : taken ≤ before.length) : n ∈ adrNumbersFrom taken (before ++ (SequenceKind.dAdr.format n ++ behind)) := by
  induction before generalizing taken with
  | nil =>
    obtain rfl : taken = 0 := Nat.le_zero.mp htaken
    show n ∈ if adrTag.isPrefixOf (adrTag ++ padded n ++ behind) then _ else _
    rw [if_pos (by simp [adrTag, List.isPrefixOf])]
    refine mem_append_left _ ?_
    show n ∈ (fourDigits (padded n ++ behind)).toList
    rw [fourDigits_padded hn]
    exact mem_singleton_self n
  | cons c before ih =>
    cases taken with
    | succ taken => exact ih (Nat.le_of_succ_le_succ htaken)
    | zero =>
      show n ∈ if adrTag.isPrefixOf (c :: (before ++ (SequenceKind.dAdr.format n ++ behind))) then _ else _
      split
      · rename_i hprefix
        have hshape : adrTag.isPrefixOf (c :: (before ++ adrTag ++ (padded n ++ behind))) = true := by
          simpa [SequenceKind.format] using hprefix
        exact mem_append_right _ (ih (adrTag_apart _ hshape))
      · exact ih (Nat.zero_le _)

/-- The number is written in the documents where the scan looks: in a heading, or before the name of a decision file;
no digit follows it. -/
def SequenceKind.WrittenIn (kind : SequenceKind) (n : ℕ) (documents : Documents) : Prop :=
  match kind with
  | .dAdr => ∃ line ∈ headings documents, ∃ before behind, line = before ++ (kind.format n ++ behind) ∧
      ∀ c, behind.head? = some c → c.isDigit = false
  | .decisionFile => ∃ name ∈ documents.decisions, ∃ behind, name = kind.format n ++ '-' :: behind

/-- **A claim starts behind every number of at most four digits** that is written in the documents. -/
theorem le_highestInDocuments {kind : SequenceKind} {documents : Documents} (hn : n < 10000)
    (h : kind.WrittenIn n documents) : n ≤ highestInDocuments documents kind := by
  cases kind with
  | dAdr =>
    obtain ⟨line, hline, before, behind, rfl, _⟩ := h
    refine le_highest (mem_flatMap.mpr ⟨_, hline, ?_⟩)
    exact mem_adrNumbersFrom hn before behind (Nat.zero_le _)
  | decisionFile =>
    obtain ⟨name, hname, behind, rfl⟩ := h
    refine le_highest (mem_filterMap.mpr ⟨_, hname, ?_⟩)
    have hdrop : (padded n ++ '-' :: behind).drop 4 = '-' :: behind := by
      rw [← length_padded hn, drop_left]
    show (if ((padded n ++ '-' :: behind).drop 4).head? = some '-' then fourDigits (padded n ++ '-' :: behind) else none) =
      some n
    rw [hdrop, fourDigits_padded hn]
    rfl

/-- The fifth digit is cut off. -/
example : adrNumbers "# D-ADR10000".toList = [1000] := by decide

end Forgent.Identity
