import Forgent.GitWriteScope
import Forgent.WriteScope
import Mathlib.Data.List.Perm.Basic

/-!
# One segment, two matchers

A segment pattern is a list of characters and wildcards.  The regular expression the JavaScript reader compiles it to
and the byte loop of the git side both decide whether it matches a segment of a path, and so agree.  The byte loop is
right because a character's first byte is never one of its later bytes: a wildcard that stops in the middle of a
character leaves nothing a literal could begin with.
-/

namespace Forgent.WriteScope

open Wildcard (Matches)

/-- The pattern a segment stands for. -/
def segmentPattern (segment : Text) : List (Option Char) := segment.map fun c => if c = '*' then none else some c

/-! ### The regular expression -/

theorem intercalate_map_splitOn {sep : Text} {escape : Char → Text} {a : Char} (text : Text) :
    sep.intercalate ((text.splitOn a).map (List.flatMap escape)) =
      text.flatMap fun c => if c = a then sep else escape c := by
  induction text with
  | nil => simp
  | cons c text ih =>
    rw [List.splitOn_cons_eq_if_modifyHead, List.flatMap_cons, ← ih]
    rcases hparts : text.splitOn a with _ | ⟨first, parts⟩
    · exact absurd hparts (List.splitOn_ne_nil _ _)
    · by_cases hc : c = a
      · simp [hc]
      · rw [if_neg (by simpa using hc), if_neg hc, List.modifyHead_cons, List.map_cons, List.map_cons,
          List.flatMap_cons]
        cases parts with
        | nil | cons next parts => simp

theorem mem_special {c : Char} : c ∈ special ↔ c ∈ RegExp.syntaxCharacters := by
  have hperm : special.Perm RegExp.syntaxCharacters := by decide
  exact hperm.mem_iff

theorem segmentSource_eq (segment : Text) :
    segmentSource segment = ['^'] ++ (segmentPattern segment).flatMap (RegExp.source '/') ++ ['$'] := by
  have hbody : "[^/]*".toList.intercalate ((segment.splitOn '*').map escapePart) =
      (segmentPattern segment).flatMap (RegExp.source '/') := by
    unfold escapePart
    rw [show (fun part : Text => part.flatMap fun c => if c ∈ special then ['\\', c] else [c]) = List.flatMap _ from rfl,
      intercalate_map_splitOn, segmentPattern, List.flatMap_map]
    congr 1
    funext c
    by_cases hc : c = '*'
    · rw [if_pos hc, if_pos hc]
      rfl
    · rw [if_neg hc, if_neg hc]
      simp [RegExp.source, RegExp.escape, mem_special]
  rw [segmentSource, hbody]

theorem segmentRegex_eq (segment : Text) :
    segmentRegex segment = some ((segmentPattern segment).map (RegExp.pieceTerm '/')) := by
  rw [segmentRegex, segmentSource_eq]
  exact RegExp.parse_pieces (by decide) (by decide) _

theorem segmentRegex_test {segment value : Text} (hslash : '/' ∉ value) :
    (segmentRegex segment).any (RegExp.test · value) = true ↔ Matches Eq (segmentPattern segment) value := by
  rw [segmentRegex_eq, Option.any_some]
  exact RegExp.test_pieces hslash

end Forgent.WriteScope

namespace Forgent.GitWriteScope

open Wildcard (Matches)

/-! ### Characters and their bytes -/

theorem asBytes_cons (c : Char) (text : Text) : asBytes (c :: text) = String.utf8EncodeChar c ++ asBytes text := rfl

theorem utf8EncodeChar_cons (c : Char) : ∃ first later, String.utf8EncodeChar c = first :: later ∧
    first.IsUTF8FirstByte ∧ ∀ b ∈ later, ¬ b.IsUTF8FirstByte := by
  rcases hbytes : String.utf8EncodeChar c with _ | ⟨first, later⟩
  · have hlength := String.length_utf8EncodeChar c
    rw [hbytes] at hlength
    exact absurd hlength.symm c.utf8Size_pos.ne'
  · have hfirst : ∀ i (hi : i < (String.utf8EncodeChar c).length), (String.utf8EncodeChar c)[i].IsUTF8FirstByte ↔ i = 0 :=
      fun i hi => UInt8.isUTF8FirstByte_getElem_utf8EncodeChar
    simp only [hbytes] at hfirst
    refine ⟨first, later, rfl, (hfirst 0 (by simp)).mpr rfl, ?_⟩
    intro b hb
    obtain ⟨i, hi, hget⟩ := List.getElem_of_mem hb
    have hlater := hfirst (i + 1) (by simpa using hi)
    rw [List.getElem_cons_succ, hget] at hlater
    exact fun hbyte => Nat.succ_ne_zero i (hlater.mp hbyte)

variable {v p : List UInt8} {pattern : List (Option Char)}

theorem utf8EncodeChar_append_inj {c d : Char} {w : List UInt8}
    (h : String.utf8EncodeChar c ++ v = String.utf8EncodeChar d ++ w) : c = d ∧ v = w := by
  have hdecode : ∀ (c : Char) (v : List UInt8),
      ((String.utf8EncodeChar c ++ v).toByteArray).utf8DecodeChar? 0 = some c := by
    intro c v
    rw [List.toByteArray_append]
    exact ByteArray.utf8DecodeChar?_utf8EncodeChar_append
  have hsome := hdecode c v
  rw [h, hdecode d w] at hsome
  cases hsome
  exact ⟨rfl, List.append_cancel_left h⟩

theorem asBytes_cut {later front rest : List UInt8} {text : Text} (hlater : ∀ b ∈ later, ¬ b.IsUTF8FirstByte)
    (h : later ++ asBytes text = front ++ rest) :
    ∃ later' text', rest = later' ++ asBytes text' ∧ (∀ b ∈ later', ¬ b.IsUTF8FirstByte) ∧ text' <:+ text := by
  induction text generalizing later front with
  | nil =>
    have hrest : rest <:+ later := by
      rw [asBytes, List.flatMap_nil, List.append_nil] at h
      exact ⟨front, h.symm⟩
    exact ⟨rest, [], (List.append_nil rest).symm, fun b hb => hlater b (hrest.subset hb), List.suffix_refl _⟩
  | cons c text ih =>
    rcases List.append_eq_append_iff.mp h with ⟨more, hfront, hrest⟩ | ⟨more, hlater', hrest⟩
    · cases more with
      | nil => exact ⟨[], c :: text, hrest.symm, by simp, List.suffix_refl _⟩
      | cons b more =>
        obtain ⟨first, behind, hbytes, -, hbehind⟩ := utf8EncodeChar_cons c
        rw [asBytes_cons, hbytes, List.cons_append, List.cons_append] at hrest
        obtain ⟨later', text', hcut, hbegin, hsuffix⟩ := ih hbehind (List.cons.inj hrest).2
        exact ⟨later', text', hcut, hbegin, hsuffix.trans (List.suffix_cons c text)⟩
    · refine ⟨more, c :: text, hrest, ?_, List.suffix_refl _⟩
      intro b hb
      exact hlater b (by rw [hlater']; exact List.mem_append_right _ hb)

/-- The bytes of a pattern. -/
def encoded (pattern : List (Option Char)) : List (Option UInt8) :=
  pattern.flatMap fun piece => piece.elim [none] fun c => (String.utf8EncodeChar c).map some

theorem encoded_wild (pattern : List (Option Char)) : encoded (none :: pattern) = none :: encoded pattern := rfl

theorem encoded_letter (c : Char) (pattern : List (Option Char)) :
    encoded (some c :: pattern) = (String.utf8EncodeChar c).map some ++ encoded pattern := rfl

theorem matches_encoded_of_matches {text : Text} (h : Matches Eq pattern text) :
    Matches Eq (encoded pattern) (asBytes text) := by
  induction h with
  | nil => exact .nil
  | skip _ ih => exact .skip ih
  | take _ ih => exact ih.longer _
  | letter hc _ ih =>
    rw [← hc, encoded_letter, asBytes_cons]
    exact Wildcard.matches_own_letters.mpr ih

theorem matches_of_matches_encoded {pattern : List (Option Char)} {later : List UInt8} {text : Text}
    (hlater : ∀ b ∈ later, ¬ b.IsUTF8FirstByte) (h : Matches Eq (encoded pattern) (later ++ asBytes text)) :
    Matches Eq pattern text := by
  induction pattern generalizing later text with
  | nil =>
    cases text with
    | nil => exact .nil
    | cons c text =>
      obtain ⟨first, behind, hbytes, -⟩ := utf8EncodeChar_cons c
      have hnil := Wildcard.matches_nil.mp h
      rw [asBytes_cons, hbytes] at hnil
      simp at hnil
  | cons piece pattern ih =>
    cases piece with
    | none =>
      rw [encoded_wild] at h
      obtain ⟨front, rest, hcut, hrest⟩ := Wildcard.matches_wild.mp h
      obtain ⟨later', text', rfl, hlater', skipped, rfl⟩ := asBytes_cut hlater hcut
      exact (Matches.skip (ih hlater' hrest)).longer skipped
    | some c =>
      rw [encoded_letter] at h
      obtain ⟨front, rest, hcut, hfront, hrest⟩ := Wildcard.matches_letters.mp h
      obtain rfl : String.utf8EncodeChar c = front := List.forall₂_eq_eq_eq ▸ hfront
      obtain ⟨first, behind, hbytes, hfirst, -⟩ := utf8EncodeChar_cons c
      cases later with
      | cons b later =>
        rw [hbytes, List.cons_append, List.cons_append] at hcut
        exact absurd hfirst ((List.cons.inj hcut).1 ▸ hlater b List.mem_cons_self)
      | nil =>
        cases text with
        | nil =>
          rw [hbytes] at hcut
          cases hcut
        | cons d text =>
          rw [List.nil_append, asBytes_cons] at hcut
          obtain ⟨rfl, rfl⟩ := utf8EncodeChar_append_inj hcut
          exact .letter rfl (@ih [] text (by simp) hrest)

theorem matches_encoded {text : Text} : Matches Eq (encoded pattern) (asBytes text) ↔ Matches Eq pattern text :=
  ⟨@matches_of_matches_encoded pattern [] text (by simp), matches_encoded_of_matches⟩

/-! ### The byte loop -/

/-- The pattern the bytes of a segment stand for. -/
def bytePattern (p : List UInt8) : List (Option UInt8) := p.map fun b => if b = starByte then none else some b

/-- The place to go back to. -/
def Pointers.back (p v : List UInt8) (at_ : Pointers) : Option (List (Option UInt8) × List UInt8) :=
  at_.star.map fun s => ((bytePattern p).drop (s + 1), v.drop at_.retry)

theorem bytePattern_drop {i : ℕ} (hi : i < p.length) :
    (bytePattern p).drop i = (if p[i] = starByte then none else some p[i]) :: (bytePattern p).drop (i + 1) := by
  rw [List.drop_eq_getElem_cons (by simpa [bytePattern] using hi)]
  simp [bytePattern]

theorem reached_retry {answer : Prop} {at_ : Pointers} {s : ℕ} (hstar : at_.star = some s) (hj : at_.j < v.length)
    (h : Wildcard.Reached answer (at_.back p v) ((bytePattern p).drop at_.i) (v.drop at_.j))
    (hstuck : ¬ Matches Eq ((bytePattern p).drop at_.i) (v.drop at_.j)) :
    Wildcard.Reached answer (some ((bytePattern p).drop (s + 1), v.drop (at_.retry + 1))) ((bytePattern p).drop (s + 1))
      (v.drop (at_.retry + 1)) := by
  have hretry : at_.retry < v.length := at_.retry_le.trans_lt hj
  rw [Pointers.back, hstar, Option.map_some, List.drop_eq_getElem_cons hretry] at h
  exact h.retry hstuck

theorem segmentLoop_reached {p v : List UInt8} {answer : Prop} (at_ : Pointers)
    (h : Wildcard.Reached answer (at_.back p v) ((bytePattern p).drop at_.i) (v.drop at_.j)) :
    match segmentLoop p v at_ with
    | none => ¬ answer
    | some last => answer ↔ ∀ x ∈ (bytePattern p).drop last.i, x = none := by
  fun_induction segmentLoop p v at_ with
  | case1 at_ hj hi hstar ih =>
    apply ih
    rw [bytePattern_drop hi, if_pos hstar] at h
    exact h.wild
  | case2 at_ hj hi hstar hbyte ih =>
    apply ih
    rw [bytePattern_drop hi, if_neg hstar, List.drop_eq_getElem_cons hj, hbyte] at h
    exact h.letter
  | case3 at_ hj hi hstar hbyte s hback ih =>
    apply ih
    apply reached_retry hback hj h
    rw [bytePattern_drop hi, if_neg hstar, List.drop_eq_getElem_cons hj, Wildcard.matches_letter_cons]
    exact fun hmatch => hbyte hmatch.1
  | case4 at_ hj hi hstar hbyte hback =>
    rw [Pointers.back, hback, bytePattern_drop hi, if_neg hstar, List.drop_eq_getElem_cons hj] at h
    apply h.stuck
    rw [Wildcard.matches_letter_cons]
    exact fun hmatch => hbyte hmatch.1
  | case5 at_ hj hi s hback ih =>
    apply ih
    apply reached_retry hback hj h
    have hp : (bytePattern p).drop at_.i = [] := List.drop_eq_nil_of_le (by simpa [bytePattern] using Nat.le_of_not_lt hi)
    rw [hp, Wildcard.matches_nil, List.drop_eq_nil_iff]
    omega
  | case6 at_ hj hi hback =>
    have hp : (bytePattern p).drop at_.i = [] := List.drop_eq_nil_of_le (by simpa [bytePattern] using Nat.le_of_not_lt hi)
    rw [Pointers.back, hback, hp] at h
    apply h.stuck
    rw [Wildcard.matches_nil, List.drop_eq_nil_iff]
    omega
  | case7 at_ hj =>
    rw [List.drop_eq_nil_of_le (Nat.le_of_not_lt hj)] at h
    exact h.finish

theorem segmentBytes_iff : segmentBytes p v = true ↔ Matches Eq (bytePattern p) v := by
  have hloop := @segmentLoop_reached p v (Matches Eq (bytePattern p) v) ⟨0, 0, none, 0, Nat.le_refl _⟩ (.front Iff.rfl)
  unfold segmentBytes
  generalize segmentLoop p v ⟨0, 0, none, 0, Nat.le_refl _⟩ = result at hloop
  cases result with
  | none => simpa using hloop
  | some last =>
    change Matches Eq (bytePattern p) v ↔ ∀ x ∈ (bytePattern p).drop last.i, x = none at hloop
    rw [hloop, List.isEmpty_iff, List.dropWhile_eq_nil_iff]
    simp [bytePattern, ← List.map_drop]

theorem starByte_mem {c : Char} (h : starByte ∈ String.utf8EncodeChar c) : c = '*' := by
  have hstar : String.utf8EncodeChar '*' = [starByte] := by decide
  obtain ⟨first, later, hbytes, -, hlater⟩ := utf8EncodeChar_cons c
  rw [hbytes, List.mem_cons] at h
  cases h with
  | inl h =>
    apply (utf8EncodeChar_append_inj (v := []) (w := later) _).1
    rw [hbytes, hstar, h]
    simp
  | inr h => exact absurd (by decide : starByte.IsUTF8FirstByte) (hlater starByte h)

theorem bytePattern_asBytes (segment : Text) :
    bytePattern (asBytes segment) = encoded (WriteScope.segmentPattern segment) := by
  induction segment with
  | nil => rfl
  | cons c segment ih =>
    have hcons : bytePattern (asBytes (c :: segment)) =
        bytePattern (String.utf8EncodeChar c) ++ bytePattern (asBytes segment) := List.map_append ..
    rw [hcons, ih]
    show _ = encoded ((if c = '*' then none else some c) :: WriteScope.segmentPattern segment)
    by_cases hc : c = '*'
    · rw [if_pos hc, hc]
      rfl
    · rw [if_neg hc, encoded_letter]
      congr 1
      apply List.map_congr_left
      intro b hb
      have hbyte : b ≠ starByte := fun hbyte => hc (starByte_mem (by rwa [hbyte] at hb))
      exact if_neg hbyte

theorem segment_iff {pattern value : Text} :
    segment pattern value = true ↔ Matches Eq (WriteScope.segmentPattern pattern) value := by
  rw [segment, segmentBytes_iff, bytePattern_asBytes, matches_encoded]

end Forgent.GitWriteScope
