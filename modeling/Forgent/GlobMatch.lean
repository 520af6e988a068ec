import Forgent.SegmentMatch

/-!
# A whole path, two matchers

A glob entry is a pattern of segments in which a double star is the wildcard.  The recursion of the JavaScript reader,
which remembers every answer under one number, and the rows of the git side both decide whether it matches.
-/

namespace Forgent.WriteScope

open Wildcard (Matches)

/-- The pattern an entry stands for. -/
def pathPattern (entry : List Text) : List (Option Text) := entry.map fun s => if s = doubleStar then none else some s

def Fits (pattern value : Text) : Prop := Matches Eq (segmentPattern pattern) value

theorem pathPattern_drop {entry : List Text} {p : ℕ} (hp : p < entry.length) : (pathPattern entry).drop p =
      (if entry[p] = doubleStar then none else some entry[p]) :: (pathPattern entry).drop (p + 1) := by
  rw [List.drop_eq_getElem_cons (by simpa [pathPattern] using hp)]
  simp [pathPattern]

section

variable {patternSegments pathSegments : List Text} {p s : ℕ} {segment : Text} {memo : Memo}

/-- Both are matched from there on. -/
def MatchesFrom (patternSegments pathSegments : List Text) (p s : ℕ) : Prop :=
  Matches Fits ((pathPattern patternSegments).drop p) (pathSegments.drop s)

/-- The answer under a key is the one of its two positions. -/
def Remembered (patternSegments pathSegments : List Text) (memo : Memo) : Prop :=
  ∀ p s result, s ≤ pathSegments.length → memo.lookup (p * (pathSegments.length + 1) + s) = some result →
    (result = true ↔ MatchesFrom patternSegments pathSegments p s)

/-- One key is for one pair of positions. -/
theorem key_inj {n p' s' : ℕ} (hs : s ≤ n) (hs' : s' ≤ n) (h : p * (n + 1) + s = p' * (n + 1) + s') :
    p = p' ∧ s = s' := by
  have hmod := congrArg (· % (n + 1)) h
  have hdiv := congrArg (· / (n + 1)) h
  simp only [Nat.mul_comm _ (n + 1), Nat.mul_add_mod, Nat.mul_add_div (Nat.succ_pos n)] at hmod hdiv
  rw [Nat.mod_eq_of_lt (Nat.lt_succ_of_le hs), Nat.mod_eq_of_lt (Nat.lt_succ_of_le hs')] at hmod
  rw [Nat.div_eq_of_lt (Nat.lt_succ_of_le hs), Nat.div_eq_of_lt (Nat.lt_succ_of_le hs')] at hdiv
  exact ⟨hdiv, hmod⟩

theorem Remembered.insert {result : Bool} (h : Remembered patternSegments pathSegments memo)
    (hs : s ≤ pathSegments.length) (hresult : result = true ↔ MatchesFrom patternSegments pathSegments p s) :
    Remembered patternSegments pathSegments ((p * (pathSegments.length + 1) + s, result) :: memo) := by
  intro p' s' result' hs' hlookup
  rw [List.lookup_cons] at hlookup
  split at hlookup
  · next hkey =>
    obtain ⟨rfl, rfl⟩ := key_inj hs' hs (beq_iff_eq.mp hkey)
    rw [← Option.some.inj hlookup]
    exact hresult
  · exact h p' s' result' hs' hlookup

/-- What a call may leave behind. -/
def Answers (patternSegments pathSegments : List Text) (p s : ℕ) (out : Bool × Memo) : Prop :=
  (out.1 = true ↔ MatchesFrom patternSegments pathSegments p s) ∧ Remembered patternSegments pathSegments out.2

theorem matchesFrom_end (hp : patternSegments[p]? = none) (hs : s ≤ pathSegments.length) :
    (s == pathSegments.length) = true ↔ MatchesFrom patternSegments pathSegments p s := by
  have hdrop : (pathPattern patternSegments).drop p = [] := by
    rw [List.drop_eq_nil_iff, pathPattern, List.length_map]
    exact List.getElem?_eq_none_iff.mp hp
  rw [MatchesFrom, hdrop, Wildcard.matches_nil, List.drop_eq_nil_iff, beq_iff_eq]
  omega

theorem pathPattern_drop_wild (hp : patternSegments[p]? = some doubleStar) :
    (pathPattern patternSegments).drop p = none :: (pathPattern patternSegments).drop (p + 1) := by
  obtain ⟨hlt, hget⟩ := List.getElem?_eq_some_iff.mp hp
  rw [pathPattern_drop hlt, if_pos hget]

theorem pathPattern_drop_letter (hp : patternSegments[p]? = some segment) (hne : segment ≠ doubleStar) :
    (pathPattern patternSegments).drop p = some segment :: (pathPattern patternSegments).drop (p + 1) := by
  obtain ⟨hlt, hget⟩ := List.getElem?_eq_some_iff.mp hp
  rw [pathPattern_drop hlt, hget, if_neg hne]

theorem matchesFrom_wild_end (hp : patternSegments[p]? = some doubleStar) :
    MatchesFrom patternSegments pathSegments p pathSegments.length ↔
      MatchesFrom patternSegments pathSegments (p + 1) pathSegments.length := by
  rw [MatchesFrom, MatchesFrom, pathPattern_drop_wild hp, List.drop_length, Wildcard.matches_wild_nil]

theorem matchesFrom_wild (hp : patternSegments[p]? = some doubleStar) (hs : s < pathSegments.length) :
    MatchesFrom patternSegments pathSegments p s ↔
      MatchesFrom patternSegments pathSegments (p + 1) s ∨ MatchesFrom patternSegments pathSegments p (s + 1) := by
  rw [MatchesFrom, MatchesFrom, MatchesFrom, pathPattern_drop_wild hp, List.drop_eq_getElem_cons hs,
    Wildcard.matches_wild_cons]

theorem matchesFrom_letter (hp : patternSegments[p]? = some segment)
    (hne : segment ≠ doubleStar) (hs : s < pathSegments.length) : MatchesFrom patternSegments pathSegments p s ↔
      Fits segment pathSegments[s] ∧ MatchesFrom patternSegments pathSegments (p + 1) (s + 1) := by
  rw [MatchesFrom, MatchesFrom, pathPattern_drop_letter hp hne, List.drop_eq_getElem_cons hs,
    Wildcard.matches_letter_cons]

theorem matchesFrom_letter_end (hp : patternSegments[p]? = some segment)
    (hne : segment ≠ doubleStar) : ¬ MatchesFrom patternSegments pathSegments p pathSegments.length := by
  rw [MatchesFrom, pathPattern_drop_letter hp hne, List.drop_length]
  exact Wildcard.matches_letter_nil

/-- The recursion answers rightly and remembers only right answers. -/
theorem globAt_answers (hslash : ∀ value ∈ pathSegments, '/' ∉ value)
    (hs : s ≤ pathSegments.length) (hmemo : Remembered patternSegments pathSegments memo) :
    Answers patternSegments pathSegments p s (globAt patternSegments pathSegments p s memo) := by
  fun_induction globAt patternSegments pathSegments p s memo with
  | case1 p s memo key result hlookup => exact ⟨hmemo p s result hs hlookup, hmemo⟩
  | case2 p s memo key hlookup result memo' hbody ihbehind ihpath ihboth =>
    suffices h : Answers patternSegments pathSegments p s (result, memo') from ⟨h.1, h.2.insert hs h.1⟩
    rw [← hbody]
    split
    · next hp => exact ⟨matchesFrom_end hp hs, hmemo⟩
    · next segment hp =>
      split
      · next hwild =>
        obtain ⟨hbehind, hmemo'⟩ := ihbehind segment hp hs hmemo
        generalize globAt patternSegments pathSegments (p + 1) s memo = out at hbehind hmemo'
        obtain ⟨behind, memo''⟩ := out
        rw [hwild] at hp
        simp only at hbehind hmemo' ⊢
        rcases Nat.lt_or_eq_of_le hs with hlt | rfl
        · cases behind with
          | true => exact ⟨iff_of_true rfl ((matchesFrom_wild hp hlt).mpr (.inl (hbehind.mp rfl))), hmemo'⟩
          | false =>
            obtain ⟨hrest, hmemo''⟩ := ihpath memo'' hlt hlt hmemo'
            rw [dif_neg Bool.false_ne_true, dif_pos hlt]
            refine ⟨hrest.trans ?_, hmemo''⟩
            rw [matchesFrom_wild hp hlt, ← hbehind]
            exact (or_iff_right Bool.false_ne_true).symm
        · rw [dif_neg (Nat.lt_irrefl _)]
          cases behind with
          | true | false => exact ⟨hbehind.trans (matchesFrom_wild_end hp).symm, hmemo'⟩
      · next hne =>
        rcases Nat.lt_or_eq_of_le hs with hlt | rfl
        · have htest := @segmentRegex_test segment _ (hslash _ (List.getElem_mem hlt))
          rw [dif_pos hlt]
          split
          · next hfits =>
            obtain ⟨hrest, hmemo'⟩ := ihboth segment hp hlt hlt hmemo
            refine ⟨hrest.trans ?_, hmemo'⟩
            rw [matchesFrom_letter hp hne hlt]
            exact (and_iff_right (htest.mp hfits)).symm
          · next hfits =>
            refine ⟨iff_of_false Bool.false_ne_true ?_, hmemo⟩
            rw [matchesFrom_letter hp hne hlt]
            exact fun hmatch => hfits (htest.mpr hmatch.1)
        · rw [dif_neg (Nat.lt_irrefl _)]
          exact ⟨iff_of_false Bool.false_ne_true (matchesFrom_letter_end hp hne), hmemo⟩

theorem globMatches_iff (hslash : ∀ value ∈ pathSegments, '/' ∉ value) :
    globMatches patternSegments pathSegments = true ↔ Matches Fits (pathPattern patternSegments) pathSegments :=
  (globAt_answers (p := 0) hslash (Nat.zero_le _) fun _ _ _ _ h => by cases h).1

end

end Forgent.WriteScope

namespace Forgent.GitWriteScope

open Wildcard (Matches Row)
open WriteScope (Fits pathPattern)

/-! ### Rows -/

variable {path row : List Text} {before : Bool} {p : List (Option Text)}

theorem nextWild_length (before : Bool) (row : List Bool) : (nextWild before row).length = row.length := by
  induction row generalizing before with
  | nil => rfl
  | cons here row ih => rw [nextWild, List.length_cons, ih, List.length_cons]

variable {row : List Bool}

theorem nextWild_zero (hj : 0 < (nextWild before row).length) (hj' : 0 < row.length) :
    (nextWild before row)[0] = (row[0] || before) := by
  cases row with
  | nil => cases hj'
  | cons here row => rfl

theorem nextWild_succ {j : ℕ} (hj : j + 1 < (nextWild before row).length)
    (hj' : j + 1 < row.length) (hj'' : j < (nextWild before row).length) :
    (nextWild before row)[j + 1] = (row[j + 1] || (nextWild before row)[j]) := by
  induction row generalizing before j with
  | nil => cases hj'
  | cons here row ih =>
    cases j with
    | zero => exact nextWild_zero (Nat.lt_of_succ_lt_succ hj) (Nat.lt_of_succ_lt_succ hj')
    | succ j =>
      simp only [nextWild, List.getElem_cons_succ]
      exact ih _ _ _

theorem nextRow_row (part : Text) (h : Row Fits p path row) :
    Row Fits (p ++ [if part = doubleStar then none else some part]) path (nextRow path row part) := by
  unfold nextRow
  by_cases hpart : part = doubleStar
  · rw [if_pos hpart, if_pos hpart]
    apply h.wild (nextWild_length false row)
    · intro hj hj'
      rw [nextWild_zero hj hj', Bool.or_false]
    · intro j hj hj' hj''
      exact nextWild_succ hj hj' hj''
  · rw [if_neg hpart, if_neg hpart]
    have hlength := h.length
    apply h.letter
    · simp [nextPart, hlength]
    · intro hj
      rfl
    · intro j hj hj' hv
      simp only [nextPart, List.getElem_cons_succ, List.getElem_zipWith, Bool.and_eq_true, segment_iff]
      rfl

theorem foldl_nextRow (pattern : List Text) (h : Row Fits p path row) :
    Row Fits (p ++ pathPattern pattern) path (pattern.foldl (nextRow path) row) := by
  induction pattern generalizing p row with
  | nil => simpa [pathPattern] using h
  | cons part pattern ih =>
    rw [List.foldl_cons]
    have hrest := ih (nextRow_row part h)
    rwa [List.append_assoc] at hrest

theorem glob_iff {pattern : List Text} : glob pattern path = true ↔ Matches Fits (pathPattern pattern) path := by
  have hrow := foldl_nextRow pattern (show Row Fits [] path _ from .start)
  have hlast : path.length < (pattern.foldl (nextRow path) (true :: List.replicate path.length false)).length := by
    rw [hrow.length]
    exact Nat.lt_succ_self _
  have hentry := hrow.entry path.length hlast
  rw [List.take_length, List.nil_append] at hentry
  unfold glob
  rw [List.getD_eq_getElem?_getD, List.getElem?_eq_getElem hlast, Option.getD_some]
  exact hentry

end Forgent.GitWriteScope
