import Mathlib.Data.List.Induction

/-!
# Positions in a history

A history is a list that grows at its end.  What holds of every entry, with what is before it and behind it, is kept
while the list grows by entries of which it holds; and of two entries one precedes the other.
-/

namespace Forgent

open List

variable {α : Type*}

theorem forall_position_append {P : List α → α → List α → Prop} {history : List α} {entry : α}
    (h : ∀ before e behind, history = before ++ e :: behind → P before e behind)
    (hstay : ∀ before e behind, P before e behind → P before e (behind ++ [entry])) (hlast : P history entry []) :
    ∀ before e behind, history ++ [entry] = before ++ e :: behind → P before e behind := by
  intro before e behind heq
  rcases eq_nil_or_concat behind with rfl | ⟨behind, last, rfl⟩
  · obtain ⟨rfl, rfl⟩ : history = before ∧ entry = e := by simpa using append_inj' heq rfl
    exact hlast
  · rw [concat_eq_append, ← cons_append, ← append_assoc] at heq
    obtain ⟨hhistory, hentry⟩ := append_inj' heq rfl
    obtain rfl : entry = last := singleton_inj.mp hentry
    rw [concat_eq_append]
    exact hstay before e behind (h before e behind hhistory)

/-- The history has the one entry and, somewhere behind it, the other. -/
def Precedes (history : List α) (a b : α) : Prop := [a, b].Sublist history

namespace Precedes

variable {history : List α} {a b entry : α}

theorem left_mem (h : Precedes history a b) : a ∈ history := h.subset mem_cons_self

theorem append_iff : Precedes (history ++ [entry]) a b ↔ Precedes history a b ∨ entry = b ∧ a ∈ history := by
  unfold Precedes
  constructor
  · intro h
    obtain ⟨first, second, heq, hfirst, hsecond⟩ := sublist_append_iff.mp h
    cases hsecond with
    | cons _ hnil =>
      rw [sublist_nil.mp hnil, append_nil] at heq
      exact .inl (heq ▸ hfirst)
    | cons_cons _ hnil =>
      rw [sublist_nil.mp hnil] at heq
      obtain ⟨rfl, hb⟩ := append_inj' (show [a] ++ [b] = first ++ [entry] from heq) rfl
      exact .inr ⟨(singleton_inj.mp hb).symm, singleton_sublist.mp hfirst⟩
  · intro h
    rcases h with h | ⟨rfl, ha⟩
    · exact h.trans (sublist_append_left history [entry])
    · exact (singleton_sublist.mpr ha).append (List.Sublist.refl [entry])

/-- **Of two entries one precedes the other.** -/
theorem total (ha : a ∈ history) (hb : b ∈ history) (hne : a ≠ b) : Precedes history a b ∨ Precedes history b a := by
  induction history using reverseRecOn with
  | nil => cases ha
  | append_singleton history entry ih =>
    rw [append_iff, append_iff]
    rcases mem_append.mp ha with ha | ha
    · rcases mem_append.mp hb with hb | hb
      · rcases ih ha hb with h | h
        · exact .inl (.inl h)
        · exact .inr (.inl h)
      · exact .inl (.inr ⟨(mem_singleton.mp hb).symm, ha⟩)
    · rcases mem_append.mp hb with hb | hb
      · exact .inr (.inr ⟨(mem_singleton.mp ha).symm, hb⟩)
      · exact absurd ((mem_singleton.mp ha).trans (mem_singleton.mp hb).symm) hne

end Precedes

end Forgent
