import Mathlib.Data.List.Forall2
import Mathlib.Data.List.Infix

/-!
# Patterns with wildcards

A pattern is a list of letters and wildcards.  A letter stands for one entry that fits it, a wildcard for any run of
entries.  `Matches` says what a pattern stands for; the lemmas about its first entry serve a matcher that recurses from
the left.  Two other ways of deciding it are followed step by step: `Row` is what a matcher knows that takes the pattern
one entry at a time against every start of the list, `Reached` what one knows that has a pointer into both lists and
goes back to the last wildcard only.
-/

namespace Wildcard

open List

variable {α β : Type*} {fits : β → α → Prop} {p q : List (Option β)} {v w : List α} {a : α} {b : β}

/-- A wildcard stands for any run, a letter for one entry that fits it. -/
inductive Matches (fits : β → α → Prop) : List (Option β) → List α → Prop
  | nil : Matches fits [] []
  | skip {p : List (Option β)} {v : List α} : Matches fits p v → Matches fits (none :: p) v
  | take {p : List (Option β)} {a : α} {v : List α} :
      Matches fits (none :: p) v → Matches fits (none :: p) (a :: v)
  | letter {p : List (Option β)} {b : β} {a : α} {v : List α} :
      fits b a → Matches fits p v → Matches fits (some b :: p) (a :: v)

/-! ### From the left -/

@[simp] theorem matches_nil : Matches fits [] v ↔ v = [] := by
  constructor
  · intro h
    cases h
    rfl
  · intro h
    rw [h]
    exact .nil

@[simp] theorem matches_wild_nil : Matches fits (none :: p) [] ↔ Matches fits p [] := by
  constructor
  · intro h
    cases h with
    | skip h => exact h
  · exact .skip

@[simp] theorem matches_wild_cons :
    Matches fits (none :: p) (a :: v) ↔ Matches fits p (a :: v) ∨ Matches fits (none :: p) v := by
  constructor
  · intro h
    cases h with
    | skip h => exact .inl h
    | take h => exact .inr h
  · intro h
    cases h with
    | inl h => exact .skip h
    | inr h => exact .take h

@[simp] theorem matches_letter_nil : ¬ Matches fits (some b :: p) ([] : List α) := by
  intro h
  cases h

@[simp] theorem matches_letter_cons : Matches fits (some b :: p) (a :: v) ↔ fits b a ∧ Matches fits p v := by
  constructor
  · intro h
    cases h with
    | letter hfits h => exact ⟨hfits, h⟩
  · intro h
    exact .letter h.1 h.2

theorem Matches.longer (h : Matches fits (none :: p) v) (front : List α) : Matches fits (none :: p) (front ++ v) := by
  induction front with
  | nil => exact h
  | cons a front ih => exact .take ih

theorem matches_wild : Matches fits (none :: p) v ↔ ∃ front rest, v = front ++ rest ∧ Matches fits p rest := by
  constructor
  · intro h
    generalize hpattern : none :: p = pattern at h
    induction h with
    | nil | letter _ _ _ => cases hpattern
    | @skip p' v h _ =>
      cases hpattern
      exact ⟨[], v, rfl, h⟩
    | @take p' a v _ ih =>
      obtain ⟨front, rest, hv, h⟩ := ih hpattern
      exact ⟨a :: front, rest, by rw [hv]; rfl, h⟩
  · intro h
    obtain ⟨front, rest, hv, h⟩ := h
    rw [hv]
    exact (Matches.skip h).longer front

theorem matches_letters {l : List β} : Matches fits (l.map some ++ p) v ↔
    ∃ front rest, v = front ++ rest ∧ List.Forall₂ fits l front ∧ Matches fits p rest := by
  induction l generalizing v with
  | nil => simp
  | cons b l ih =>
    rw [map_cons, cons_append]
    cases v with
    | nil => simp
    | cons a v =>
      rw [matches_letter_cons, ih]
      constructor
      · intro h
        obtain ⟨hfits, front, rest, hv, hfront, h⟩ := h
        exact ⟨a :: front, rest, by rw [hv]; rfl, .cons hfits hfront, h⟩
      · intro h
        obtain ⟨front, rest, hv, hfront, h⟩ := h
        cases hfront with
        | cons hfits hfront =>
          cases hv
          exact ⟨hfits, _, rest, rfl, hfront, h⟩

theorem Matches.letters_le (h : Matches fits p v) : (p.countP Option.isSome) ≤ v.length := by
  induction h with
  | nil => exact Nat.le_refl _
  | skip _ ih => simpa using ih
  | take _ ih =>
    rw [length_cons]
    exact Nat.le_succ_of_le ih
  | letter _ _ ih => simpa using ih

/-! ### From the right -/

theorem matches_append : Matches fits (p ++ q) v ↔
    ∃ front rest, v = front ++ rest ∧ Matches fits p front ∧ Matches fits q rest := by
  induction p generalizing v with
  | nil => simp
  | cons x p ih =>
    rw [cons_append]
    cases x with
    | none =>
      rw [matches_wild]
      constructor
      · intro h
        obtain ⟨skipped, rest, rfl, h⟩ := h
        obtain ⟨front, rest, rfl, hp, hq⟩ := ih.mp h
        exact ⟨skipped ++ front, rest, (append_assoc ..).symm, (Matches.skip hp).longer skipped, hq⟩
      · intro h
        obtain ⟨front, rest, rfl, hp, hq⟩ := h
        obtain ⟨skipped, front, rfl, hrest⟩ := matches_wild.mp hp
        exact ⟨skipped, front ++ rest, append_assoc .., ih.mpr ⟨front, rest, rfl, hrest, hq⟩⟩
    | some b =>
      cases v with
      | nil => simp
      | cons a v =>
        rw [matches_letter_cons, ih]
        constructor
        · intro h
          obtain ⟨hfits, front, rest, rfl, hp, hq⟩ := h
          exact ⟨a :: front, rest, rfl, .letter hfits hp, hq⟩
        · intro h
          obtain ⟨front, rest, hv, hp, hq⟩ := h
          cases hp with
          | letter hfits hp =>
            cases hv
            exact ⟨hfits, _, rest, rfl, hp, hq⟩

theorem matches_concat_wild_concat : Matches fits (p ++ [none]) (v ++ [a]) ↔
    Matches fits p (v ++ [a]) ∨ Matches fits (p ++ [none]) v := by
  have hany : ∀ rest : List α, Matches fits [none] rest := fun rest => by
    simpa using (Matches.skip .nil).longer rest
  constructor
  · intro h
    obtain ⟨front, rest, hv, hp, _⟩ := matches_append.mp h
    rcases eq_nil_or_concat' rest with rfl | ⟨rest, last, rfl⟩
    · left
      rw [hv, append_nil]
      exact hp
    · right
      rw [← append_assoc] at hv
      exact matches_append.mpr ⟨front, rest, (append_inj' hv rfl).1, hp, hany rest⟩
  · intro h
    cases h with
    | inl h => exact matches_append.mpr ⟨v ++ [a], [], (append_nil _).symm, h, hany []⟩
    | inr h =>
      obtain ⟨front, rest, rfl, hp, _⟩ := matches_append.mp h
      exact matches_append.mpr ⟨front, rest ++ [a], append_assoc .., hp, hany _⟩

theorem matches_concat_wild_nil : Matches fits (p ++ [none]) [] ↔ Matches fits p [] := by
  rw [matches_append]
  simp

theorem matches_concat_letter_concat : Matches fits (p ++ [some b]) (v ++ [a]) ↔ Matches fits p v ∧ fits b a := by
  rw [matches_append]
  constructor
  · intro h
    obtain ⟨front, rest, hv, hp, hb⟩ := h
    cases hb with
    | letter hfits hnil =>
      obtain rfl := matches_nil.mp hnil
      obtain ⟨rfl, hlast⟩ := append_inj' hv rfl
      cases hlast
      exact ⟨hp, hfits⟩
  · intro h
    exact ⟨v, [a], rfl, h.1, .letter h.2 .nil⟩

theorem matches_concat_letter_nil : ¬ Matches fits (p ++ [some b]) ([] : List α) := by
  rw [matches_append]
  simp

/-! ### A row for each pattern entry

After a part `p` of the pattern, entry `j` of the row says whether `p` matches the first `j` entries of the list.
-/

/-- A row of answers for all starts of a list. -/
structure Row (fits : β → α → Prop) (p : List (Option β)) (v : List α) (row : List Bool) : Prop where
  length : row.length = v.length + 1
  entry : ∀ j, (hj : j < row.length) → (row[j] = true ↔ Matches fits p (v.take j))

theorem Row.start : Row fits [] v (true :: List.replicate v.length false) where
  length := by simp
  entry j hj := by
    rw [matches_nil]
    cases j with
    | zero => simp
    | succ j =>
      have hlt : j < v.length := by simpa using hj
      simp only [getElem_cons_succ, getElem_replicate, Bool.false_eq_true, false_iff]
      intro hnil
      have hlength := congrArg List.length hnil
      rw [length_take, length_nil] at hlength
      omega

theorem Row.wild {row next : List Bool} (h : Row fits p v row) (hlength : next.length = row.length)
    (hzero : ∀ (_ : 0 < next.length) (_ : 0 < row.length), next[0] = row[0])
    (hnext : ∀ j (_ : j + 1 < next.length) (_ : j + 1 < row.length) (_ : j < next.length), next[j + 1] = (row[j + 1] || next[j])) :
    Row fits (p ++ [none]) v next where
  length := hlength.trans h.length
  entry j hj := by
    induction j with
    | zero =>
      have hrow : 0 < row.length := hlength ▸ hj
      rw [hzero hj hrow, h.entry 0 hrow, take_zero, matches_concat_wild_nil]
    | succ j ih =>
      have hrow : j + 1 < row.length := hlength ▸ hj
      have hlt : j < v.length := by
        have := h.length
        omega
      have hlast : v.take (j + 1) = v.take j ++ [v[j]] := take_succ_eq_append_getElem hlt
      rw [hnext j hj hrow (Nat.lt_of_succ_lt hj), Bool.or_eq_true, h.entry (j + 1) hrow,
        ih (Nat.lt_of_succ_lt hj), hlast, matches_concat_wild_concat]

theorem Row.letter {row next : List Bool} (h : Row fits p v row) (hlength : next.length = row.length)
    (hzero : ∀ _ : 0 < next.length, next[0] = false)
    (hnext : ∀ j (_ : j + 1 < next.length) (_ : j < row.length) (_ : j < v.length),
      next[j + 1] = true ↔ row[j] = true ∧ fits b v[j]) : Row fits (p ++ [some b]) v next where
  length := hlength.trans h.length
  entry j hj := by
    cases j with
    | zero =>
      rw [hzero hj, take_zero]
      simp [matches_concat_letter_nil]
    | succ j =>
      have hrow : j < row.length := by omega
      have hlt : j < v.length := by
        have := h.length
        omega
      have hlast : v.take (j + 1) = v.take j ++ [v[j]] := take_succ_eq_append_getElem hlt
      rw [hnext j hj hrow hlt, h.entry j hrow, hlast, matches_concat_letter_concat]

/-! ### One place to go back to

The letters are compared for equality.  `back` is the pattern behind the last wildcard, with the entries from which it
was last tried.
-/

/-- A matcher that goes back to the last wildcard only is where the answer still depends on the rest. -/
inductive Reached (answer : Prop) : Option (List (Option β) × List β) → List (Option β) → List β → Prop
  | front {p : List (Option β)} {v : List β} : (answer ↔ Matches Eq p v) → Reached answer none p v
  | behind {p : List (Option β)} {v : List β} (tried : List β) :
      (answer ↔ Matches Eq (none :: (tried.map some ++ p)) (tried ++ v)) →
      Reached answer (some (tried.map some ++ p, tried ++ v)) p v

section Reached

variable {answer : Prop} {v w : List β} {a : β} {back : Option (List (Option β) × List β)}

theorem matches_own_letters {l : List β} : Matches Eq (l.map some ++ p) (l ++ v) ↔ Matches Eq p v := by
  induction l with
  | nil => rfl
  | cons a l ih =>
    rw [map_cons, cons_append, cons_append, matches_letter_cons, ih]
    exact and_iff_right rfl

theorem matches_between {l : List β} :
    Matches Eq (none :: (l.map some ++ none :: p)) (l ++ v) ↔ Matches Eq (none :: p) v := by
  constructor
  · intro h
    obtain ⟨front, rest, hv, hletters⟩ := matches_wild.mp h
    obtain ⟨own, behind, rfl, hown, hbehind⟩ := matches_letters.mp hletters
    obtain rfl : l = own := List.forall₂_eq_eq_eq ▸ hown
    have hsuffix : behind <:+ v := by
      have hsuffix : behind <:+ l ++ v := ⟨front ++ l, by rw [hv, append_assoc]⟩
      refine suffix_of_suffix_length_le hsuffix (suffix_append _ _) ?_
      have hlength := congrArg List.length hv
      simp only [length_append] at hlength
      omega
    obtain ⟨more, rfl⟩ := hsuffix
    exact hbehind.longer more
  · intro h
    exact .skip (matches_own_letters.mpr h)

/-- At a wildcard the earlier place to go back to is given up. -/
theorem Reached.wild (h : Reached answer back (none :: p) v) : Reached answer (some (p, v)) p v := by
  apply Reached.behind []
  cases h with
  | front h => exact h
  | behind tried h => exact h.trans matches_between

/-- At a letter that fits, both pointers go on. -/
theorem Reached.letter (h : Reached answer back (some a :: p) (a :: v)) : Reached answer back p v := by
  cases h with
  | front h =>
    apply Reached.front
    rw [h, matches_letter_cons]
    exact and_iff_right rfl
  | behind tried h =>
    have hp : tried.map some ++ some a :: p = (tried ++ [a]).map some ++ p := by simp
    have hv : tried ++ a :: v = tried ++ [a] ++ v := by simp
    rw [hp, hv] at h ⊢
    exact .behind _ h

/-- At the end of the road one more entry is left to the last wildcard. -/
theorem Reached.retry (h : Reached answer (some (q, a :: w)) p v) (hstuck : ¬ Matches Eq p v) :
    Reached answer (some (q, w)) q w := by
  apply Reached.behind []
  generalize hback : some (q, a :: w) = back at h
  cases h with
  | front _ => cases hback
  | behind tried h =>
    obtain ⟨rfl, hw⟩ := Prod.mk.inj (Option.some.inj hback)
    rw [h, ← hw, matches_wild_cons, hw, matches_own_letters]
    exact or_iff_right hstuck

/-- Without a wildcard to go back to, the end of the road is the answer. -/
theorem Reached.stuck (h : Reached answer none p v) (hstuck : ¬ Matches Eq p v) : ¬ answer := by
  cases h with
  | front h => exact fun hanswer => hstuck (h.mp hanswer)

theorem Reached.finish (h : Reached answer back p []) : answer ↔ ∀ x ∈ p, x = none := by
  have hwild : ∀ {p : List (Option β)}, Matches Eq p [] ↔ ∀ x ∈ p, x = none := by
    intro p
    induction p with
    | nil => simp
    | cons x p ih => cases x <;> simp [ih]
  cases h with
  | front h => exact h.trans hwild
  | behind tried h =>
    rw [h]
    constructor
    · intro h x hx
      have hle := h.letters_le
      have hcount : p.countP Option.isSome = 0 := by
        simp only [countP_cons, countP_append, countP_map, length_append, length_nil,
          Option.isSome_none, Bool.false_eq_true, if_false] at hle
        have hall : tried.countP (Option.isSome ∘ some) = tried.length := countP_eq_length.mpr fun _ _ => rfl
        omega
      have hnone := countP_eq_zero.mp hcount x hx
      simpa using hnone
    · intro hall
      exact .skip (matches_own_letters.mpr (hwild.mpr hall))

end Reached

end Wildcard
