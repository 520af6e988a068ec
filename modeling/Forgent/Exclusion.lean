import Forgent.Interleave

/-!
# Calls that exclude each other

An assertion about a call can rest on what no other call may be doing at the same time, as with a lock that one of them
holds.  Beside the assertion about each call there is one about each two of them, and a step of a call keeps the assertions
about every call that is apart from it.
-/

namespace Forgent.Interleave

open List

variable {σ κ : Type} (sys : Interleave σ κ) {i : ℕ} {α : Type}

/-- An invariant of the store, an assertion for each call, and a symmetric one for each two calls. -/
structure Exclusion (inv : σ → Prop) (holds : σ → κ → Prop) (apart : κ → κ → Prop) : Prop where
  symm : ∀ {k l}, apart k l → apart l k
  begins : ∀ {s k}, inv s → sys.begins k → holds s k ∧ ∀ l, holds s l → apart k l
  step : ∀ {s k s' k'}, inv s → holds s k → sys.step s k s' k' →
    inv s' ∧ holds s' k' ∧ ∀ l, holds s l → apart k l → holds s' l ∧ apart k' l
  around : ∀ {s s'}, inv s → sys.around s s' → inv s' ∧ ∀ l, holds s l → holds s' l

variable {sys} {inv : σ → Prop} {holds : σ → κ → Prop} {apart : κ → κ → Prop} {w : World σ κ}

/-- The invariant, every call's assertion, and that of every two calls. -/
structure Excluded (inv : σ → Prop) (holds : σ → κ → Prop) (apart : κ → κ → Prop) (w : World σ κ) : Prop where
  outlined : Outlined inv holds w
  apart : ∀ {i j : ℕ} {k l : κ}, i ≠ j → w.calls[i]? = some k → w.calls[j]? = some l → apart k l

theorem Excluded.of_call (h : Excluded inv holds apart w) {k : κ} (hcall : w.calls[i]? = some k) :
    holds w.store k := h.outlined.2 k (mem_of_getElem? hcall)

theorem getElem?_append_singleton_cases {l : List α} {a b : α} (h : (l ++ [a])[i]? = some b) :
    (i = l.length ∧ b = a) ∨ l[i]? = some b := by
  by_cases hlt : i < l.length
  · rw [getElem?_append_left hlt] at h
    exact .inr h
  · have hle := (List.getElem?_eq_some_iff.mp h).1
    rw [length_append, length_singleton] at hle
    obtain rfl : i = l.length := by omega
    rw [getElem?_append_right (Nat.le_refl _), Nat.sub_self] at h
    exact .inl ⟨rfl, (Option.some.inj h).symm⟩

theorem getElem?_set_cases {l : List α} {a b : α} {j : ℕ} (h : (l.set i a)[j]? = some b) :
    (j = i ∧ b = a) ∨ (j ≠ i ∧ l[j]? = some b) := by
  by_cases hij : i = j
  · subst hij
    have hlt := (List.getElem?_eq_some_iff.mp h).1
    rw [length_set] at hlt
    rw [getElem?_set_self hlt] at h
    exact .inl ⟨rfl, (Option.some.inj h).symm⟩
  · rw [getElem?_set_ne hij] at h
    exact .inr ⟨Ne.symm hij, h⟩

theorem Exclusion.next (h : sys.Exclusion inv holds apart) {w' : World σ κ} (hw : Excluded inv holds apart w)
    (hnext : sys.Next w w') : Excluded inv holds apart w' := by
  obtain ⟨⟨hinv, hcalls⟩, hapart⟩ := hw
  cases hnext with
  | @begin s calls k hbegins =>
    obtain ⟨hk, hothers⟩ := h.begins hinv hbegins
    refine ⟨⟨hinv, fun l hl => ?_⟩, fun {i j l m} hij hl hm => ?_⟩
    · cases mem_append.mp hl with
      | inl hold => exact hcalls l hold
      | inr hnew => exact mem_singleton.mp hnew ▸ hk
    · cases getElem?_append_singleton_cases hl with
      | inl hnew =>
        cases getElem?_append_singleton_cases hm with
        | inl hnew' => exact absurd (hnew.1.trans hnew'.1.symm) hij
        | inr hold' => exact hnew.2 ▸ hothers m (hcalls m (mem_of_getElem? hold'))
      | inr hold =>
        cases getElem?_append_singleton_cases hm with
        | inl hnew' => exact hnew'.2 ▸ h.symm (hothers l (hcalls l (mem_of_getElem? hold)))
        | inr hold' => exact hapart hij hold hold'
  | @step s s' calls i k k' hcall hstep =>
    obtain ⟨hinv', hk', hothers⟩ := h.step hinv (hcalls k (mem_of_getElem? hcall)) hstep
    have hother : ∀ {j : ℕ} {l : κ}, j ≠ i → calls[j]? = some l → holds s' l ∧ apart k' l := fun hji hl =>
      hothers _ (hcalls _ (mem_of_getElem? hl)) (hapart (Ne.symm hji) hcall hl)
    refine ⟨⟨hinv', fun l hl => ?_⟩, fun {j m l l'} hjm hl hl' => ?_⟩
    · obtain ⟨j, hj⟩ := mem_iff_getElem?.mp hl
      cases getElem?_set_cases hj with
      | inl hself => exact hself.2 ▸ hk'
      | inr hold => exact (hother hold.1 hold.2).1
    · cases getElem?_set_cases hl with
      | inl hself =>
        cases getElem?_set_cases hl' with
        | inl hself' => exact absurd (hself.1.trans hself'.1.symm) hjm
        | inr hold' => exact hself.2 ▸ (hother hold'.1 hold'.2).2
      | inr hold =>
        cases getElem?_set_cases hl' with
        | inl hself' => exact hself'.2 ▸ h.symm (hother hold.1 hold.2).2
        | inr hold' => exact hapart hjm hold.2 hold'.2
  | around haround =>
    obtain ⟨hinv', hothers⟩ := h.around hinv haround
    exact ⟨⟨hinv', fun l hl => hothers l (hcalls l hl)⟩, hapart⟩

theorem Exclusion.run (h : sys.Exclusion inv holds apart) {w' : World σ κ} (hw : Excluded inv holds apart w)
    (hrun : sys.Run w w') : Excluded inv holds apart w' := by
  induction hrun with
  | refl => exact hw
  | tail _ hnext ih => exact h.next ih hnext

end Forgent.Interleave
