import Forgent.GlobMatch

/-!
# Scopes that do not overlap

Two scopes are compared by the literal leading segments of their entries.  What an entry covers begins with those, so
two scopes that do not overlap match no common path.

* `prefix_of_covers`: a path that is covered begins with the literal leading segments.
* `apart_of_not_overlap`: no common path.
* `overlap_sound`: the overlap test is sound.
-/

namespace Forgent.WriteScope

open List

open Wildcard (Matches)

/-- The segments before the first one that carries a glob. -/
def literalSegments (segments : List Text) : List Text := segments.takeWhile fun segment => !hasGlob segment

theorem literalPrefix_eq_joinSlash (entry : Text) : literalPrefix entry = joinSlash (literalSegments (splitSlash entry)) := by
  have h : ∀ segments : List Text, (segments.findIdx? hasGlob).elim segments segments.take = literalSegments segments := by
    intro segments
    induction segments with
    | nil => rfl
    | cons segment segments ih =>
      rw [findIdx?_cons, literalSegments, takeWhile_cons]
      cases hasGlob segment with
      | true => rfl
      | false =>
        simp only [Bool.not_false, if_true, Bool.false_eq_true, if_false]
        rw [literalSegments] at ih
        rw [← ih]
        cases segments.findIdx? hasGlob <;> rfl
  rw [literalPrefix, ← h (splitSlash entry)]
  cases (splitSlash entry).findIdx? hasGlob <;> rfl

/-! ### What is covered begins with the literal segments -/

theorem fits_literal {segment value : Text} (h : hasGlob segment = false) : Fits segment value ↔ segment = value := by
  have hpattern : segmentPattern segment = segment.map some := by
    apply map_congr_left
    intro c hc
    rw [if_neg]
    intro hstar
    rw [hstar] at hc
    simp [hasGlob, hc] at h
  rw [Fits, hpattern]
  have hall := Wildcard.matches_own_letters (l := segment) (p := []) (v := [])
  constructor
  · intro hmatch
    have hletters : Wildcard.Matches Eq (segment.map some ++ []) value ↔ _ := Wildcard.matches_letters
    rw [append_nil] at hletters
    obtain ⟨front, rest, hvalue, hfront, hrest⟩ := hletters.mp hmatch
    rw [Wildcard.matches_nil] at hrest
    rw [hvalue, hrest, append_nil]
    exact List.forall₂_eq_eq_eq ▸ hfront
  · rintro rfl
    rw [append_nil, append_nil] at hall
    exact hall.mpr .nil

theorem prefix_of_matches {entry path : List Text} (h : Matches Fits (pathPattern entry) path) :
    literalSegments entry <+: path := by
  induction entry generalizing path with
  | nil => exact nil_prefix
  | cons segment entry ih =>
    rw [literalSegments, takeWhile_cons]
    cases hglob : hasGlob segment with
    | true => exact nil_prefix
    | false =>
      have hne : segment ≠ doubleStar := by
        rintro rfl
        cases hglob
      rw [pathPattern, map_cons, if_neg hne] at h
      cases path with
      | nil => cases h
      | cons value path =>
        obtain ⟨hfits, hrest⟩ := Wildcard.matches_letter_cons.mp h
        rw [fits_literal hglob] at hfits
        rw [hfits]
        exact cons_prefix_cons.mpr ⟨rfl, ih hrest⟩

theorem splitSlash_joinSlash {segments : List Text} (hslash : ∀ segment ∈ segments, '/' ∉ segment) (hne : segments ≠ []) :
    splitSlash (joinSlash segments) = segments := splitOn_intercalate '/' hslash hne

theorem splitSlash_ne_nil (text : Text) : splitSlash text ≠ [] := splitOn_ne_nil _ _

theorem joinSlash_append {front rest : List Text} (hfront : front ≠ []) (hrest : rest ≠ []) :
    joinSlash (front ++ rest) = joinSlash front ++ slash ++ joinSlash rest := by
  induction front with
  | nil => exact absurd rfl hfront
  | cons first front ih =>
    cases front with
    | nil =>
      rw [cons_append, nil_append, joinSlash, intercalate_cons_of_ne_nil hrest, joinSlash, intercalate_singleton]
      rfl
    | cons next front =>
      rw [cons_append, joinSlash, intercalate_cons_of_ne_nil (by simp), joinSlash,
        intercalate_cons_of_ne_nil (by simp)]
      have hih := ih (by simp)
      rw [joinSlash, joinSlash] at hih
      rw [hih]
      simp [append_assoc]

variable {entry : Text} {parts : List Text}

theorem hasGlob_splitSlash {segment : Text} (h : hasGlob entry = false) (hmem : segment ∈ splitSlash entry) :
    hasGlob segment = false := by
  have hsub : segment.Sublist entry := by
    have hone : (joinSlash [segment]).Sublist (joinSlash (splitSlash entry)) :=
      joinSlash_sublist (singleton_sublist.mpr hmem)
    rw [joinSlash_splitSlash, joinSlash, intercalate_singleton] at hone
    exact hone
  simp only [hasGlob, decide_eq_false_iff_not] at h ⊢
  exact fun hstar => h (hsub.subset hstar)

theorem enclosed_iff (hslash : ∀ part ∈ parts, '/' ∉ part) (hparts : parts ≠ []) :
    joinSlash parts = entry ∨ entry ++ slash <+: joinSlash parts ↔ splitSlash entry <+: parts := by
  have hsame := splitSlash_joinSlash hslash hparts
  constructor
  · rintro (h | ⟨rest, hrest⟩)
    · rw [← hsame, h]
    · have hjoin : joinSlash (splitSlash entry ++ splitSlash rest) = joinSlash parts := by
        rw [joinSlash_append (splitSlash_ne_nil entry) (splitSlash_ne_nil rest), joinSlash_splitSlash, joinSlash_splitSlash,
          hrest]
      refine ⟨splitSlash rest, ?_⟩
      rw [← hsame, ← hjoin, splitSlash_joinSlash]
      · intro segment hsegment
        rcases mem_append.mp hsegment with hsegment | hsegment
        · exact mem_splitSlash hsegment
        · exact mem_splitSlash hsegment
      · exact append_ne_nil_of_left_ne_nil (splitSlash_ne_nil entry) _
  · rintro ⟨rest, rfl⟩
    by_cases hrest : rest = []
    · rw [hrest, append_nil, joinSlash_splitSlash]
      exact .inl rfl
    · rw [joinSlash_append (splitSlash_ne_nil entry) hrest, joinSlash_splitSlash]
      exact .inr (prefix_append _ _)

/-- **A path that is covered begins with the literal leading segments.** -/
theorem prefix_of_covers (hslash : ∀ part ∈ parts, '/' ∉ part) (hparts : parts ≠ [])
    (h : covers entry parts = true) : literalSegments (splitSlash entry) <+: parts := by
  rw [covers] at h
  split at h
  · exact prefix_of_matches ((globMatches_iff hslash).mp h)
  · next hglob =>
    have hliteral : literalSegments (splitSlash entry) = splitSlash entry := by
      rw [literalSegments, takeWhile_eq_self_iff]
      intro segment hsegment
      rw [hasGlob_splitSlash (by simpa using hglob) hsegment]
      rfl
    rw [hliteral]
    exact (enclosed_iff hslash hparts).mp (by simpa using h)

/-! ### No common path -/

theorem literalsOverlap_of_prefix {a b : List Text} (h : a <+: b) : literalsOverlap (joinSlash a) (joinSlash b) = true := by
  obtain ⟨rest, rfl⟩ := h
  rw [literalsOverlap]
  by_cases ha : a = []
  · simp [ha, joinSlash]
  · by_cases hrest : rest = []
    · simp [hrest]
    · rw [joinSlash_append ha hrest]
      simp

theorem literalsOverlap_comm (a b : Text) : literalsOverlap a b = literalsOverlap b a := by
  rw [literalsOverlap, literalsOverlap, Bool.eq_iff_iff]
  simp only [Bool.or_eq_true, decide_eq_true_eq]
  constructor
  · rintro ((((h | h) | h) | h) | h) <;> simp [h]
  · rintro ((((h | h) | h) | h) | h) <;> simp [h]

theorem overlap_of_covers {a b : Text} (hslash : ∀ part ∈ parts, '/' ∉ part) (hparts : parts ≠ [])
    (ha : covers a parts = true) (hb : covers b parts = true) :
    literalsOverlap (literalPrefix a) (literalPrefix b) = true := by
  rw [literalPrefix_eq_joinSlash, literalPrefix_eq_joinSlash]
  rcases prefix_or_prefix_of_prefix (prefix_of_covers hslash hparts ha) (prefix_of_covers hslash hparts hb) with h | h
  · exact literalsOverlap_of_prefix h
  · rw [literalsOverlap_comm]
    exact literalsOverlap_of_prefix h

theorem mem_canonicalizeFrom {index : ℕ} {out all : List String} {list : List Json}
    (h : canonicalizeFrom index out list = .ok all) :
    (∀ entry ∈ out, entry ∈ all) ∧ ∀ raw ∈ list, ∀ entry, canonicalizeWriteEntry raw = .ok entry → entry ∈ all := by
  induction list generalizing index out with
  | nil =>
    cases h
    exact ⟨fun _ hentry => hentry, by simp⟩
  | cons raw list ih =>
    rw [canonicalizeFrom] at h
    cases hraw : canonicalizeWriteEntry raw with
    | error err =>
      rw [hraw] at h
      cases h
    | ok entry =>
      rw [hraw] at h
      obtain ⟨hout, hlist⟩ := ih h
      have hentry : entry ∈ all := by
        apply hout
        split
        · assumption
        · exact mem_append_right _ (mem_singleton_self entry)
      refine ⟨fun other hother => hout other ?_, fun other hother found hfound => ?_⟩
      · split
        · exact hother
        · exact mem_append_left _ hother
      · rcases mem_cons.mp hother with rfl | hother
        · obtain rfl : entry = found := Except.ok.inj (hraw.symm.trans hfound)
          exact hentry
        · exact hlist other hother found hfound

theorem exists_of_anyM {α ε : Type} {f : α → Except ε Bool} {l : List α} (h : l.anyM f = .ok true) :
    ∃ a ∈ l, f a = .ok true := by
  induction l with
  | nil => cases h
  | cons a l ih =>
    rw [List.anyM] at h
    obtain ⟨found, ha, h⟩ := bind_eq_ok.mp h
    cases found with
    | true => exact ⟨a, mem_cons_self, ha⟩
    | false =>
      obtain ⟨b, hb, hfound⟩ := ih h
      exact ⟨b, mem_cons_of_mem a hb, hfound⟩

/-- The segments of a path, as it is matched. -/
def pathSegmentsOf (path : String) : List Text :=
  (splitSlash path.toList).filter fun segment => segment != [] && segment != dot

theorem covers_of_matchesWriteScope {path : String} {scope : List Json}
    (h : matchesWriteScope (.str path) scope = .ok true) : pathSegmentsOf path ≠ [] ∧
      ∃ raw ∈ scope, ∃ entry, canonicalizeWriteEntry raw = .ok entry ∧ covers entry.toList (pathSegmentsOf path) = true := by
  simp only [matchesWriteScope] at h
  split at h
  · cases h
  · split at h
    · cases h
    · next hout =>
      rw [not_or] at hout
      obtain ⟨raw, hraw, hfound⟩ := exists_of_anyM h
      obtain ⟨entry, hentry, hfound⟩ := bind_eq_ok.mp hfound
      exact ⟨hout.1, raw, hraw, entry, hentry, Except.ok.inj hfound⟩

theorem overlap_of_matches {a b : List Json} {allA allB : List String} (hallA : canonicalizeWrites (.arr a) = .ok allA)
    (hallB : canonicalizeWrites (.arr b) = .ok allB) {path : Json} (ha : matchesWriteScope path a = .ok true)
    (hb : matchesWriteScope path b = .ok true) : writeScopesOverlap (.arr a) (.arr b) = .ok true := by
  cases path with
  | str path =>
    obtain ⟨hparts, rawA, hrawA, entryA, hentryA, hcoversA⟩ := covers_of_matchesWriteScope ha
    obtain ⟨_, rawB, hrawB, entryB, hentryB, hcoversB⟩ := covers_of_matchesWriteScope hb
    have hslash : ∀ part ∈ pathSegmentsOf path, '/' ∉ part := fun part hpart => mem_splitSlash (mem_of_mem_filter hpart)
    have hmemA := (mem_canonicalizeFrom hallA).2 rawA hrawA entryA hentryA
    have hmemB := (mem_canonicalizeFrom hallB).2 rawB hrawB entryB hentryB
    have hoverlap := overlap_of_covers hslash hparts hcoversA hcoversB
    rw [writeScopesOverlap, hallA, hallB]
    exact congrArg Except.ok (List.any_eq_true.mpr ⟨entryA, hmemA, List.any_eq_true.mpr ⟨entryB, hmemB, hoverlap⟩⟩)
  | _ => cases ha

/-- **Two scopes that do not overlap match no common path.** -/
theorem apart_of_not_overlap {a b : List Json} (h : writeScopesOverlap (.arr a) (.arr b) = .ok false) {path : String}
    (ha : matchesWriteScope (.str path) a = .ok true) : matchesWriteScope (.str path) b ≠ .ok true := by
  intro hb
  cases hallA : canonicalizeWrites (.arr a) with
  | error err =>
    rw [writeScopesOverlap, hallA] at h
    cases h
  | ok allA =>
    cases hallB : canonicalizeWrites (.arr b) with
    | error err =>
      rw [writeScopesOverlap, hallA, hallB] at h
      cases h
    | ok allB =>
      rw [overlap_of_matches hallA hallB ha hb] at h
      cases h

/-- **The overlap test is sound**, in both orders; what does not overlap has no path that both may write. -/
theorem overlap_sound {a b : List Json} {allA allB : List String} (hallA : canonicalizeWrites (.arr a) = .ok allA)
    (hallB : canonicalizeWrites (.arr b) = .ok allB) :
    (∀ path, matchesWriteScope path a = .ok true → matchesWriteScope path b = .ok true →
      writeScopesOverlap (.arr a) (.arr b) = .ok true ∧ writeScopesOverlap (.arr b) (.arr a) = .ok true) ∧
      (writeScopesOverlap (.arr a) (.arr b) = .ok false ∨ writeScopesOverlap (.arr b) (.arr a) = .ok false →
        ∀ path, ¬(matchesWriteScope path a = .ok true ∧ matchesWriteScope path b = .ok true)) := by
  refine ⟨fun path ha hb => ⟨overlap_of_matches hallA hallB ha hb, overlap_of_matches hallB hallA hb ha⟩, ?_⟩
  rintro (h | h) path ⟨ha, hb⟩
  · rw [overlap_of_matches hallA hallB ha hb] at h
    cases h
  · rw [overlap_of_matches hallB hallA hb ha] at h
    cases h

theorem canonicalize_src : canonicalizeWriteEntry (.str "src") = .ok "src" := by
  have hread : readSegments (trim "src".toList) = .ok ["src".toList] := by decide
  rw [canonicalizeWriteEntry, canonicalizeText_ok hread]
  rfl

/-- A scope overlaps with itself, since it matches the paths beneath its entry. -/
theorem overlap_sound_src : writeScopesOverlap (.arr [.str "src"]) (.arr [.str "src"]) = .ok true := by
  have hall : canonicalizeWrites (.arr [.str "src"]) = .ok ["src"] := by
    rw [canonicalizeWrites, canonicalizeFrom, canonicalize_src]
    rfl
  have hmatches : matchesWriteScope (.str "src/a") [.str "src"] = .ok true := by
    rw [matchesWriteScope]
    simp only [List.anyM, canonicalize_src]
    decide
  exact ((overlap_sound hall hall).1 (.str "src/a") hmatches hmatches).1

end Forgent.WriteScope
