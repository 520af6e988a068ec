import Forgent.Wildcard

/-!
# Regular expressions between anchors

The part of the pattern language that needs no groups, no alternatives and no counts: a literal character, an escaped
one, a class with one excluded character, and a star behind each of them.  A pattern is read from its source text and
tested as the language defines it, every piece handing the rest of the text to what comes behind it.
-/

namespace RegExp

open List

/-- One place of a pattern: a character, or any character but one. -/
inductive Atom where
  | char (c : Char)
  | except (c : Char)
deriving DecidableEq, Repr

def Atom.fits : Atom → Char → Bool
  | .char b, c => b == c
  | .except b, c => b != c

/-- An atom, once or any number of times. -/
structure Term where
  atom : Atom
  star : Bool
deriving DecidableEq, Repr

inductive Token where
  | atom (a : Atom)
  | star
deriving DecidableEq, Repr

/-- The characters that mean themselves only behind a backslash. -/
def syntaxCharacters : List Char :=
  ['^', '$', '\\', '.', '*', '+', '?', '(', ')', '[', ']', '\x7b', '\x7d', '|']

/-- The tokens up to the anchor at the end. -/
def tokens : List Char → Option (List Token)
  | [] => none
  | c :: rest =>
    if c = '$' then
      match rest with
      | [] => some []
      | _ :: _ => none
    else if c = '\\' then
      match rest with
      | d :: rest => if d ∈ syntaxCharacters then (tokens rest).map (.atom (.char d) :: ·) else none
      | [] => none
    else if c = '[' then
      match rest with
      | '^' :: d :: ']' :: rest =>
        if d = '\\' ∨ d = ']' then none else (tokens rest).map (.atom (.except d) :: ·)
      | _ => none
    else if c = '*' then (tokens rest).map (.star :: ·)
    else if c ∈ syntaxCharacters then none
    else (tokens rest).map (.atom (.char c) :: ·)

/-- A star belongs to the atom in front of it. -/
def terms : List Token → Option (List Term)
  | [] => some []
  | .atom a :: .star :: rest => (terms rest).map (⟨a, true⟩ :: ·)
  | .atom a :: rest => (terms rest).map (⟨a, false⟩ :: ·)
  | .star :: _ => none

/-- A pattern `^…$`, or `none` where the source is outside of this part of the language. -/
def parse : List Char → Option (List Term)
  | '^' :: rest => (tokens rest).bind terms
  | _ => none

/-- An atom takes one character. -/
def once (a : Atom) (behind : List Char → Bool) : List Char → Bool
  | [] => false
  | c :: text => a.fits c && behind text

/-- A starred atom takes one more character first, and none when that fails. -/
def many (a : Atom) (behind : List Char → Bool) : List Char → Bool
  | [] => behind []
  | c :: text => (a.fits c && many a behind text) || behind (c :: text)

/-- Whether the terms take the whole text. -/
def test : List Term → List Char → Bool
  | [] => List.isEmpty
  | ⟨a, false⟩ :: behind => once a (test behind)
  | ⟨a, true⟩ :: behind => many a (test behind)

/-- The text with a backslash in front of every syntax character. -/
def escape (text : List Char) : List Char :=
  text.flatMap fun c => if c ∈ syntaxCharacters then ['\\', c] else [c]

/-- The source of a class that excludes one character, with a star. -/
def exceptMany (c : Char) : List Char := ['[', '^', c, ']', '*']

theorem tokens_end : tokens ['$'] = some [] := by
  simp [tokens]

theorem tokens_escape_char {c : Char} {rest : List Char} :
    tokens (escape [c] ++ rest) = (tokens rest).map (.atom (.char c) :: ·) := by
  by_cases hc : c ∈ syntaxCharacters
  · have hescape : escape [c] ++ rest = '\\' :: c :: rest := by simp [escape, hc]
    rw [hescape, tokens.eq_def]
    simp [hc]
  · have hescape : escape [c] ++ rest = c :: rest := by simp [escape, hc]
    have hne : ∀ d ∈ syntaxCharacters, c ≠ d := fun d hd hcd => hc (hcd ▸ hd)
    rw [hescape, tokens.eq_def]
    simp only
    rw [if_neg (hne '$' (by decide)), if_neg (hne '\\' (by decide)), if_neg (hne '[' (by decide)),
      if_neg (hne '*' (by decide)), if_neg hc]

theorem tokens_except {c : Char} {rest : List Char} (hslash : c ≠ '\\') (hclose : c ≠ ']') :
    tokens (exceptMany c ++ rest) = (tokens rest).map fun behind => .atom (.except c) :: .star :: behind := by
  have hclass : tokens (exceptMany c ++ rest) = (tokens ('*' :: rest)).map (.atom (.except c) :: ·) := by
    rw [exceptMany, tokens.eq_def]
    simp [hslash, hclose]
  have hstar : tokens ('*' :: rest) = (tokens rest).map (.star :: ·) := by
    rw [tokens.eq_def]
    simp
  rw [hclass, hstar, Option.map_map]
  rfl

theorem terms_atom {a : Atom} {rest : List Token} (hstar : ∀ behind, rest ≠ .star :: behind) :
    terms (.atom a :: rest) = (terms rest).map (⟨a, false⟩ :: ·) := by
  cases rest with
  | nil => rfl
  | cons token rest =>
    cases token with
    | atom _ => rfl
    | star => exact absurd rfl (hstar rest)

/-! ### Literals and starred classes

A piece is a literal character, or the class of everything but `out`, starred.
-/

/-- The source text of a piece. -/
def source (out : Char) : Option Char → List Char
  | none => exceptMany out
  | some c => escape [c]

def pieceTokens (out : Char) : Option Char → List Token
  | none => [.atom (.except out), .star]
  | some c => [.atom (.char c)]

def pieceTerm (out : Char) : Option Char → Term
  | none => ⟨.except out, true⟩
  | some c => ⟨.char c, false⟩

section Pieces

variable {out : Char}

theorem tokens_pieces (hslash : out ≠ '\\') (hclose : out ≠ ']') (pieces : List (Option Char)) :
    tokens (pieces.flatMap (source out) ++ ['$']) = some (pieces.flatMap (pieceTokens out)) := by
  induction pieces with
  | nil => exact tokens_end
  | cons piece pieces ih =>
    rw [flatMap_cons, append_assoc]
    cases piece with
    | none =>
      rw [source, tokens_except hslash hclose, ih]
      rfl
    | some c =>
      rw [source, tokens_escape_char, ih]
      rfl

theorem terms_pieces (pieces : List (Option Char)) :
    terms (pieces.flatMap (pieceTokens out)) = some (pieces.map (pieceTerm out)) := by
  induction pieces with
  | nil => rfl
  | cons piece pieces ih =>
    cases piece with
    | none =>
      show (terms (pieces.flatMap (pieceTokens out))).map _ = _
      rw [ih]
      rfl
    | some c =>
      show terms (.atom (.char c) :: pieces.flatMap (pieceTokens out)) = _
      rw [terms_atom, ih]
      · rfl
      · intro behind
        cases pieces with
        | nil => exact (cons_ne_nil _ _).symm
        | cons piece pieces => cases piece <;> simp [pieceTokens]

theorem parse_pieces (hslash : out ≠ '\\') (hclose : out ≠ ']') (pieces : List (Option Char)) :
    parse (['^'] ++ pieces.flatMap (source out) ++ ['$']) = some (pieces.map (pieceTerm out)) := by
  rw [append_assoc, singleton_append, parse, tokens_pieces hslash hclose]
  exact terms_pieces pieces

theorem test_pieces {pieces : List (Option Char)} {text : List Char} (hout : out ∉ text) :
    test (pieces.map (pieceTerm out)) text = true ↔ Wildcard.Matches Eq pieces text := by
  induction pieces generalizing text with
  | nil => simp [test]
  | cons piece pieces ih =>
    cases piece with
    | none =>
      show many (.except out) (test (pieces.map (pieceTerm out))) text = true ↔ _
      induction text with
      | nil => rw [many, ih hout, Wildcard.matches_wild_nil]
      | cons c text ihtext =>
        have hfits : Atom.fits (.except out) c = true := by
          show (out != c) = true
          simpa using fun h => hout (by rw [h]; exact mem_cons_self)
        have htext : out ∉ text := fun h => hout (mem_cons_of_mem c h)
        rw [many, hfits, Bool.true_and, Bool.or_eq_true, ihtext htext, ih hout, Wildcard.matches_wild_cons, or_comm]
    | some b =>
      show once (.char b) (test (pieces.map (pieceTerm out))) text = true ↔ _
      cases text with
      | nil => simp [once]
      | cons c text =>
        have htext : out ∉ text := fun h => hout (mem_cons_of_mem c h)
        rw [once, Bool.and_eq_true, ih htext, Wildcard.matches_letter_cons]
        simp [Atom.fits]

end Pieces

end RegExp
