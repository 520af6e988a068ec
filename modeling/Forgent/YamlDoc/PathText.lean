import Mathlib.Data.List.Basic

/-!
# The text form of a path

Keys are joined by dots, an index is in brackets, and a key that holds a character of the syntax is quoted in brackets.

* `formatPath`, `parsePath`: the printer and the parser.
* `path_text_round_trip`: what was printed is read back.
-/

namespace Forgent.YamlDoc

open List

/-- A key, or an index of the machine's size. -/
inductive Segment (usize : ℕ) where
  | key (name : String)
  | index (n : Fin usize)
  deriving DecidableEq

/-! ### The printer -/

def isSyntax (c : Char) : Bool := ".[]\"'\\".toList.contains c

def isBare (key : String) : Bool := key.toList ≠ [] && key.toList.all (!isSyntax ·)

/-- A quoted key: a backslash escapes the next character. -/
def quoted (key : List Char) : List Char := key.flatMap fun c => if c = '"' ∨ c = '\\' then ['\\', c] else [c]

variable {usize : ℕ}

/-- What a segment adds to a text; `behind` says whether the text has something. -/
def written (behind : Bool) : Segment usize → List Char
  | .index n => '[' :: Nat.toDigits 10 n ++ [']']
  | .key name =>
    if isBare name then (if behind then ['.'] else []) ++ name.toList
    else '[' :: '"' :: quoted name.toList ++ ['"', ']']

def formatPath (segments : List (Segment usize)) : String :=
  String.ofList (segments.foldl (fun out segment => out ++ written (!out.isEmpty) segment) [])

/-! ### The parser -/

/-- A refusal by the rule of paths: the column, and what is wrong. -/
structure Refusal where
  column : ℕ
  detail : String
  deriving DecidableEq

def invalid (index : ℕ) (detail : String) : Refusal := ⟨index + 1, detail⟩

def parseBare : ℕ → List Char → Except Refusal (List Char × ℕ × List Char)
  | i, [] => .ok ([], i, [])
  | i, c :: rest =>
    if c = '.' ∨ c = '[' then .ok ([], i, c :: rest)
    else if c = '\\' then
      match rest with
      | [] => .error (invalid (i + 1) "path ends after a backslash")
      | c :: rest => (parseBare (i + 2) rest).map fun (key, behind) => (c :: key, behind)
    else if "]\"'".toList.contains c then
      .error (invalid i "character needs an escape or a bracket-quoted key")
    else (parseBare (i + 1) rest).map fun (key, behind) => (c :: key, behind)

def parseQuoted : ℕ → List Char → Except Refusal (List Char × ℕ × List Char)
  | i, [] => .error (invalid i "quoted key is not closed")
  | i, c :: rest =>
    if c = '"' then .ok ([], i + 1, rest)
    else if c = '\\' then
      match rest with
      | [] => .error (invalid (i + 1) "path ends after a backslash")
      | c :: rest => (parseQuoted (i + 2) rest).map fun (key, behind) => (c :: key, behind)
    else (parseQuoted (i + 1) rest).map fun (key, behind) => (c :: key, behind)

/-- The bracket behind a segment. -/
def closed (segment : Segment usize) (i : ℕ) (detail : String) : List Char → Except Refusal (Segment usize × ℕ × List Char)
  | [] => .error (invalid i "bracket is not closed")
  | c :: rest => if c = ']' then .ok (segment, i + 1, rest) else .error (invalid i detail)

/-- What is behind an opening bracket. -/
def parseBracket (i : ℕ) : List Char → Except Refusal (Segment usize × ℕ × List Char)
  | [] => .error (invalid i "bracket is not closed")
  | c :: rest =>
    if c = '"' then do
      let (key, i, rest) ← parseQuoted (i + 1) rest
      closed (.key (String.ofList key)) i "expected a closing bracket after the quoted key" rest
    else if c.isDigit then
      let digits := (c :: rest).takeWhile Char.isDigit
      let index := Nat.ofDigitChars 10 digits 0
      if 1 < digits.length ∧ c = '0' then .error (invalid i "index has a leading zero")
      else if h : index < usize then
        closed (.index ⟨index, h⟩) (i + digits.length) "expected a closing bracket after the index"
          ((c :: rest).dropWhile Char.isDigit)
      else .error (invalid i "index is too large")
    else .error (invalid i "bracket holds neither an index nor a quoted key")

/-- The loop, which consumes a character in each round; `expectKey` says whether a bare key may start here. -/
def parseSegments : ℕ → Bool → ℕ → List Char → Except Refusal (List (Segment usize))
  | _, _, _, [] => .ok []
  -- not reached: there is a round for every character
  | 0, _, _, _ => .ok []
  | rounds + 1, expectKey, i, c :: rest =>
    if c = '.' then
      if expectKey then .error (invalid i "empty segment")
      else match rest with
        | [] => .error (invalid (i + 1) "path ends after a dot")
        | c :: _ =>
          if c = '.' then .error (invalid (i + 1) "empty segment")
          else if c = '[' then .error (invalid (i + 1) "a bracket segment follows without a dot")
          else parseSegments rounds true (i + 1) rest
    else if c = '[' then do
      let (segment, i, rest) ← parseBracket (i + 1) rest
      (parseSegments rounds false i rest).map (segment :: ·)
    else if expectKey then do
      let (key, i, rest) ← parseBare i (c :: rest)
      (parseSegments rounds false i rest).map (.key (String.ofList key) :: ·)
    else .error (invalid i "a key follows a bracket without a dot")

def parsePath (text : String) : Except Refusal (List (Segment usize)) :=
  parseSegments text.toList.length true 0 text.toList

/-! ### Reading back -/

/-- What the segments add to a text. -/
def printed (behind : Bool) : List (Segment usize) → List Char
  | [] => []
  | segment :: segments => written behind segment ++ printed true segments

theorem written_ne_nil (behind : Bool) (segment : Segment usize) : written behind segment ≠ [] := by
  cases segment with
  | index n => simp [written]
  | key name =>
    rw [written]
    split
    · next hbare =>
      simp only [isBare, Bool.and_eq_true, decide_eq_true_eq] at hbare
      simp [hbare.1]
    · simp

theorem foldl_written (segments : List (Segment usize)) (out : List Char) :
    segments.foldl (fun out segment => out ++ written (!out.isEmpty) segment) out = out ++ printed (!out.isEmpty) segments := by
  induction segments generalizing out with
  | nil => simp [printed]
  | cons segment segments ih =>
    have hsome : (out ++ written (!out.isEmpty) segment).isEmpty = false := by
      simp [written_ne_nil]
    rw [foldl_cons, ih, hsome, printed, append_assoc]
    rfl

theorem printed_true (segments : List (Segment usize)) :
    printed true segments = [] ∨ ∃ c rest, printed true segments = c :: rest ∧ (c = '.' ∨ c = '[') := by
  cases segments with
  | nil => exact .inl rfl
  | cons segment segments =>
    right
    cases segment with
    | index n => exact ⟨_, _, rfl, .inr rfl⟩
    | key name =>
      rw [printed, written]
      split
      · exact ⟨_, _, rfl, .inl rfl⟩
      · exact ⟨_, _, rfl, .inr rfl⟩

theorem parseBare_plain {key rest : List Char} (hkey : ∀ c ∈ key, isSyntax c = false)
    (hrest : rest = [] ∨ ∃ c behind, rest = c :: behind ∧ (c = '.' ∨ c = '[')) (i : ℕ) :
    parseBare i (key ++ rest) = .ok (key, i + key.length, rest) := by
  induction key generalizing i with
  | nil =>
    rcases hrest with rfl | ⟨c, behind, rfl, hc⟩
    · rfl
    · rw [nil_append, parseBare.eq_def]
      simp [hc]
  | cons c key ih =>
    have hc := hkey c mem_cons_self
    simp only [isSyntax, contains_eq_mem, decide_eq_false_iff_not] at hc
    simp only [String.reduceToList, mem_cons, not_mem_nil, or_false, not_or] at hc
    rw [cons_append, parseBare.eq_def]
    simp [hc, ih (fun c hc => hkey c (mem_cons_of_mem _ hc)), Except.map, Nat.add_assoc, Nat.add_comm 1]

theorem parseQuoted_quoted (key rest : List Char) (i : ℕ) :
    ∃ j, parseQuoted i (quoted key ++ '"' :: rest) = .ok (key, j, rest) := by
  induction key generalizing i with
  | nil => exact ⟨i + 1, by rw [parseQuoted.eq_def]; simp [quoted]⟩
  | cons c key ih =>
    rw [quoted, flatMap_cons, ← quoted]
    split
    · obtain ⟨j, hj⟩ := ih (i + 2)
      refine ⟨j, ?_⟩
      rw [parseQuoted.eq_def]
      simp [hj, Except.map]
    · next hc =>
      obtain ⟨j, hj⟩ := ih (i + 1)
      refine ⟨j, ?_⟩
      rw [not_or] at hc
      rw [parseQuoted.eq_def]
      simp [hc, hj, Except.map]

theorem toDigits_head {n : ℕ} (hn : n ≠ 0) : (Nat.toDigits 10 n).head? ≠ some '0' := by
  induction n using Nat.strongRecOn with
  | ind n ih =>
    by_cases hlt : n < 10
    · rw [Nat.toDigits_of_lt_base hlt]
      have hall : ∀ k < 10, k ≠ 0 → [Nat.digitChar k].head? ≠ some '0' := by decide
      exact hall n hlt hn
    · rw [Nat.toDigits_of_base_le (by decide) (Nat.le_of_not_lt hlt), head?_append_of_ne_nil _ Nat.toDigits_ne_nil]
      exact ih (n / 10) (by omega) (by omega)

theorem parseBracket_index (n : Fin usize) (rest : List Char) (i : ℕ) :
    ∃ j, parseBracket i (Nat.toDigits 10 n ++ ']' :: rest) = .ok (Segment.index n, j, rest) := by
  have hdigits : ∀ c ∈ Nat.toDigits 10 n, c.isDigit = true := fun c hc =>
    Nat.isDigit_of_mem_toDigits (by decide) (by decide) hc
  cases hcons : Nat.toDigits 10 (n : ℕ) with
  | nil => exact absurd hcons Nat.toDigits_ne_nil
  | cons c digits =>
    rw [hcons] at hdigits
    have hc := hdigits c mem_cons_self
    have hquote : c ≠ '"' := fun heq => by rw [heq] at hc; cases hc
    have htake : (c :: (digits ++ ']' :: rest)).takeWhile Char.isDigit = c :: digits := by
      rw [← cons_append, takeWhile_append_of_pos hdigits]
      simp
    have hdrop : (c :: (digits ++ ']' :: rest)).dropWhile Char.isDigit = ']' :: rest := by
      rw [← cons_append, dropWhile_append_of_pos hdigits]
      simp
    have hvalue : Nat.ofDigitChars 10 (c :: digits) 0 = n := by
      rw [← hcons, Nat.ofDigitChars_ten_toDigits]
    have hzero : ¬ (1 < (c :: digits).length ∧ c = '0') := by
      rintro ⟨hlength, rfl⟩
      have hn : (n : ℕ) ≠ 0 := by
        intro hn
        rw [hn, Nat.toDigits_zero] at hcons
        cases hcons
        simp at hlength
      exact toDigits_head hn (by rw [hcons]; rfl)
    refine ⟨i + (c :: digits).length + 1, ?_⟩
    rw [cons_append, parseBracket, if_neg hquote, if_pos hc]
    simp only [htake, hdrop, hvalue, if_neg hzero, n.isLt, dif_pos, closed, if_true]

theorem parseSegments_printed (segments : List (Segment usize)) (behind : Bool) (rounds i : ℕ)
    (hrounds : (printed behind segments).length ≤ rounds) :
    parseSegments rounds (!behind) i (printed behind segments) = .ok segments := by
  induction segments generalizing behind rounds i with
  | nil => rw [printed, parseSegments]
  | cons segment segments ih =>
    have hbracket : ∀ text, written behind segment ++ printed true segments = '[' :: text →
        (∀ i, ∃ j, parseBracket i text = .ok (segment, j, printed true segments)) →
        parseSegments rounds (!behind) i (printed behind (segment :: segments)) = .ok (segment :: segments) := by
      intro text htext hparse
      have hlength : (printed true segments).length < (printed behind (segment :: segments)).length := by
        rw [printed, length_append]
        have hpos := length_pos_iff.mpr (written_ne_nil behind segment)
        omega
      obtain ⟨rounds, rfl⟩ : ∃ n, rounds = n + 1 := ⟨rounds - 1, by omega⟩
      obtain ⟨j, hj⟩ := hparse (i + 1)
      have hrest : parseSegments rounds false j (printed true segments) = .ok segments := ih true rounds j (by omega)
      rw [printed, htext, parseSegments.eq_def]
      simp [hj, hrest, bind, Except.bind, Except.map]
    cases segment with
    | index n => exact hbracket _ (by simp [written]) fun i => parseBracket_index n _ i
    | key name =>
      cases hbare : isBare name with
      | false =>
        refine hbracket ('"' :: (quoted name.toList ++ '"' :: ']' :: printed true segments)) (by simp [written, hbare]) fun i => ?_
        obtain ⟨j, hj⟩ := parseQuoted_quoted name.toList (']' :: printed true segments) (i + 1)
        exact ⟨j + 1, by simp [parseBracket, hj, closed, bind, Except.bind]⟩
      | true =>
        have hbare' := hbare
        simp only [isBare, Bool.and_eq_true, decide_eq_true_eq, all_eq_true, Bool.not_eq_true'] at hbare
        obtain ⟨hsome, hplain⟩ := hbare
        obtain ⟨c, key, hname⟩ := exists_cons_of_ne_nil hsome
        have hc := hplain c (hname ▸ mem_cons_self)
        simp only [isSyntax, contains_eq_mem, decide_eq_false_iff_not, String.reduceToList, mem_cons, not_mem_nil, or_false,
          not_or] at hc
        have hkey : ∀ rounds i, (name.toList ++ printed true segments).length ≤ rounds →
            parseSegments rounds true i (name.toList ++ printed true segments) = .ok (.key name :: segments) := by
          intro rounds i hrounds
          have hparse := parseBare_plain hplain (printed_true segments) i
          rw [hname] at hrounds hparse
          simp only [cons_append, length_cons, length_append] at hrounds
          obtain ⟨rounds, rfl⟩ : ∃ n, rounds = n + 1 := ⟨rounds - 1, by omega⟩
          have hrest : parseSegments rounds false (i + (key.length + 1)) (printed true segments) = .ok segments :=
            ih true rounds _ (by omega)
          have hback : String.ofList (c :: key) = name := by rw [← hname, String.ofList_toList]
          rw [cons_append] at hparse
          rw [hname, cons_append, parseSegments.eq_def]
          simp [hc, hparse, bind, Except.bind, hrest, Except.map, hback]
        cases behind with
        | false =>
          rw [printed, written, if_pos hbare'] at hrounds ⊢
          exact hkey rounds i hrounds
        | true =>
          rw [printed, written, if_pos hbare'] at hrounds ⊢
          simp only [if_true, cons_append, nil_append, length_cons] at hrounds ⊢
          obtain ⟨rounds, rfl⟩ : ∃ n, rounds = n + 1 := ⟨rounds - 1, by omega⟩
          have hrest := hkey rounds (i + 1) (by omega)
          rw [hname, cons_append] at hrest
          rw [hname, cons_append, parseSegments.eq_def]
          simp [hc, hrest]

theorem parsePath_formatPath (segments : List (Segment usize)) : parsePath (formatPath segments) = .ok segments := by
  have hprinted := foldl_written segments []
  rw [parsePath, formatPath, String.toList_ofList, hprinted]
  exact parseSegments_printed segments false _ 0 (Nat.le_refl _)

/-- **What was printed is read back**: so no two lists of segments have one text, and what was read is read again from the
text it is printed as. -/
theorem path_text_round_trip : (∀ segments : List (Segment usize), parsePath (formatPath segments) = .ok segments) ∧
    Function.Injective (@formatPath usize) ∧
      ∀ (text : String) (segments : List (Segment usize)), parsePath text = .ok segments →
        parsePath (formatPath segments) = .ok segments := by
  refine ⟨parsePath_formatPath, fun segments others heq => ?_, fun _ segments _ => parsePath_formatPath segments⟩
  have hread := parsePath_formatPath segments
  rw [heq, parsePath_formatPath] at hread
  exact (Except.ok.inj hread).symm

end Forgent.YamlDoc
