import Mathlib.Data.List.DropRight
import Mathlib.Data.List.Infix

/-!
# Paths as segments

A path is the characters of its text, and its segments are what stands between the slashes.  Both readers of a write
scope cut and join paths with the operations of this file and trim them at both ends.
-/

namespace Forgent

open List

abbrev Text := List Char

instance lawfulBEq_text : LawfulBEq Text := inferInstance

/-- The parts between slashes. -/
def splitSlash (text : Text) : List Text := text.splitOn '/'

def joinSlash (segments : List Text) : Text := ['/'].intercalate segments

def slash : Text := ['/']
def dot : Text := ['.']
def dotDot : Text := ['.', '.']
def doubleStar : Text := ['*', '*']


/-- `STORE_DIR`, `.fgos`: the run-state store. -/
def storeDir : Text := ['.', 'f', 'g', 'o', 's']

/-- `hasGlob`, `contains('*')`. -/
def hasGlob (segment : Text) : Bool := '*' ∈ segment

/-- A double star inside of a longer segment. -/
def looseDoubleStar (segment : Text) : Bool := decide (doubleStar <:+: segment) && segment != doubleStar
theorem mem_splitSlash {text segment : Text} (h : segment ∈ splitSlash text) : '/' ∉ segment := by
  induction text generalizing segment with
  | nil =>
    rw [splitSlash, splitOn_nil, mem_singleton] at h
    rw [h]
    exact not_mem_nil
  | cons c text ih =>
    rw [splitSlash, splitOn_cons_eq_if_modifyHead] at h
    split at h
    · cases mem_cons.mp h with
      | inl h =>
        rw [h]
        exact not_mem_nil
      | inr h => exact ih h
    · next hc =>
      rw [← splitSlash] at h
      cases hsegments : splitSlash text with
      | nil => exact absurd hsegments (splitOn_ne_nil _ _)
      | cons first segments =>
        rw [hsegments, modifyHead_cons] at h
        cases mem_cons.mp h with
        | inl h =>
          rw [h, mem_cons, not_or]
          refine ⟨fun hslash => hc (by rw [hslash, beq_self_eq_true]), ih ?_⟩
          rw [hsegments]
          exact mem_cons_self
        | inr h =>
          apply ih
          rw [hsegments]
          exact mem_cons_of_mem _ h

theorem joinSlash_sublist {some all : List Text} (h : some.Sublist all) : (joinSlash some).Sublist (joinSlash all) := by
  induction h with
  | slnil => exact .refl _
  | @cons some all segment h ih =>
    rcases eq_nil_or_concat' all with rfl | ⟨_, _, rfl⟩
    · rw [sublist_nil.mp h]
      exact nil_sublist _
    · rw [joinSlash, joinSlash, intercalate_cons_of_ne_nil (by simp)]
      exact ih.trans (sublist_append_right ..)
  | @cons_cons some all segment h ih =>
    cases some with
    | nil =>
      cases all with
      | nil => exact .refl _
      | cons next all =>
        simp only [joinSlash, intercalate_singleton, intercalate_cons_cons]
        exact (sublist_append_left ..).trans (sublist_append_left ..)
    | cons first some =>
      cases all with
      | nil => cases h
      | cons next all =>
        simp only [joinSlash, intercalate_cons_cons]
        exact (List.Sublist.refl _).append ih

theorem joinSlash_splitSlash (text : Text) : joinSlash (splitSlash text) = text := intercalate_splitOn '/'

/-- Reading on with fewer segments ends: what is not read the same again is shorter. -/
theorem joinSlash_length_lt {trimmed : Text} {segments : List Text} (h : segments.Sublist (splitSlash trimmed))
    (hne : joinSlash segments ≠ trimmed) : (joinSlash segments).length < trimmed.length := by
  have hsub := joinSlash_sublist h
  rw [joinSlash_splitSlash] at hsub
  exact Nat.lt_of_le_of_ne hsub.length_le fun hlength => hne (hsub.eq_of_length hlength)

/-- What a text is cut to between two ends of unwanted characters. -/
def trimBy (unwanted : Char → Bool) (text : Text) : Text := (text.dropWhile unwanted).rdropWhile unwanted

theorem trimBy_length_le (unwanted : Char → Bool) (text : Text) : (trimBy unwanted text).length ≤ text.length :=
  (List.rdropWhile_prefix unwanted _).length_le.trans (dropWhile_suffix unwanted).length_le

theorem trimBy_trimBy (unwanted : Char → Bool) (text : Text) :
    trimBy unwanted (trimBy unwanted text) = trimBy unwanted text := by
  rcases hz : trimBy unwanted text with _ | ⟨a, z⟩
  · rfl
  · have hhead : unwanted a = false := by
      have hprefix : a :: z <+: text.dropWhile unwanted := hz ▸ List.rdropWhile_prefix unwanted _
      obtain ⟨rest, hrest⟩ := hprefix
      rw [← Bool.not_eq_true]
      have hnot := head?_dropWhile_not unwanted text
      rw [← hrest] at hnot
      simpa using hnot
    have hdrop : (a :: z).dropWhile unwanted = a :: z := dropWhile_cons_of_neg (by simp [hhead])
    rw [trimBy, hdrop, ← hz]
    exact rdropWhile_idempotent _ _

end Forgent
