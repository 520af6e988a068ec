import Mathlib.Data.List.Basic

/-!
# Lists whose entries change and go

`Evolves R gone l l'` reads: `l'` is `l` after some entries went and every other one changed, in place.  An entry
may change by `R` only, and go by `gone` only.
-/

namespace Forgent

open List Option

inductive Evolves {α : Type*} (R : α → α → Prop) (gone : α → Prop) : List α → List α → Prop
  | nil : Evolves R gone [] []
  | keep {a b : α} {l l' : List α} (h : R a b) (hrest : Evolves R gone l l') : Evolves R gone (a :: l) (b :: l')
  | drop {a : α} {l l' : List α} (h : gone a) (hrest : Evolves R gone l l') : Evolves R gone (a :: l) l'

namespace Evolves

variable {α : Type*} {R R' R'' : α → α → Prop} {gone gone' gone'' : α → Prop} {l l' l'' : List α}

theorem filterMap {f : α → Option α} (hsome : ∀ a ∈ l, ∀ b, f a = some b → R a b) (hnone : ∀ a ∈ l, f a = none → gone a) :
    Evolves R gone l (l.filterMap f) := by
  induction l with
  | nil => exact .nil
  | cons a l ih =>
    have hrest := ih (fun x hx => hsome x (mem_cons_of_mem a hx)) fun x hx => hnone x (mem_cons_of_mem a hx)
    cases ha : f a with
    | none =>
      rw [filterMap_cons_none ha]
      exact .drop (hnone a mem_cons_self ha) hrest
    | some b =>
      rw [filterMap_cons_some ha]
      exact .keep (hsome a mem_cons_self b ha) hrest

theorem map {f : α → α} (h : ∀ a ∈ l, R a (f a)) : Evolves R gone l (l.map f) := by
  rw [← filterMap_eq_map]
  refine filterMap ?_ ?_
  · intro a ha b hb
    exact some.inj hb ▸ h a ha
  · intro a _ hnone
    cases hnone

theorem refl (h : ∀ a, R a a) : Evolves R gone l l := by
  have hmap : Evolves R gone l (l.map id) := map fun a _ => h a
  rwa [List.map_id] at hmap

theorem filter {p : α → Bool} (hkept : ∀ a, R a a) (hgone : ∀ a ∈ l, p a = false → gone a) :
    Evolves R gone l (l.filter p) := by
  rw [← filterMap_eq_filter]
  refine filterMap ?_ ?_
  · intro a _ b hb
    rw [(guard_eq_some_iff.mp hb).1]
    exact hkept b
  · intro a ha hnone
    exact hgone a ha (guard_eq_none_iff.mp hnone)

theorem modify {i : ℕ} {f : α → α} (hkept : ∀ a, R a a) (h : ∀ a, l[i]? = some a → R a (f a)) :
    Evolves R gone l (l.modify i f) := by
  induction l generalizing i with
  | nil =>
    rw [modify_nil]
    exact .nil
  | cons a l ih =>
    cases i with
    | zero =>
      rw [modify_zero_cons]
      exact .keep (h a rfl) (refl hkept)
    | succ i =>
      rw [modify_succ_cons]
      exact .keep (hkept a) (ih h)

variable (h : Evolves R gone l l')

include h

theorem trans (h' : Evolves R' gone' l' l'') (hR : ∀ {a b c}, R a b → R' b c → R'' a c)
    (hgone : ∀ {a}, gone a → gone'' a) (hgone' : ∀ {a b}, R a b → gone' b → gone'' a) : Evolves R'' gone'' l l'' := by
  induction h generalizing l'' with
  | nil =>
    cases h'
    exact .nil
  | drop hdrop _ ih => exact .drop (hgone hdrop) (ih h')
  | keep hkeep _ ih =>
    cases h' with
    | keep hkeep' hrest => exact .keep (hR hkeep hkeep') (ih hrest)
    | drop hdrop' hrest => exact .drop (hgone' hkeep hdrop') (ih hrest)

theorem exists_of_mem {b : α} (hb : b ∈ l') : ∃ a ∈ l, R a b := by
  induction h with
  | nil => cases hb
  | @keep a c _ _ hkeep _ ih =>
    rcases mem_cons.mp hb with rfl | hb
    · exact ⟨a, mem_cons_self, hkeep⟩
    · obtain ⟨x, hx, hR⟩ := ih hb
      exact ⟨x, mem_cons_of_mem a hx, hR⟩
  | drop _ _ ih =>
    obtain ⟨x, hx, hR⟩ := ih hb
    exact ⟨x, mem_cons_of_mem _ hx, hR⟩

theorem countP_le {p q : α → Bool} (hcount : ∀ {a b}, R a b → q b = true → p a = true) : l'.countP q ≤ l.countP p := by
  induction h with
  | nil => exact Nat.le_refl _
  | @keep a b _ _ hkeep _ ih =>
    rw [countP_cons, countP_cons]
    have hone : (if q b = true then 1 else 0) ≤ if p a = true then 1 else 0 := by
      by_cases hb : q b = true
      · simp only [hb, hcount hkeep hb, if_true, Nat.le_refl]
      · simp only [hb, if_false, Bool.false_eq_true, Nat.zero_le]
    omega
  | drop _ _ ih =>
    rw [countP_cons]
    omega

theorem le_countP {p q : α → Bool} (hcount : ∀ {a b}, R a b → p a = true → q b = true)
    (hgone : ∀ a ∈ l, gone a → p a = false) : l.countP p ≤ l'.countP q := by
  induction h with
  | nil => exact Nat.le_refl _
  | @keep a b _ _ hkeep _ ih =>
    have hrest := ih fun x hx => hgone x (mem_cons_of_mem a hx)
    rw [countP_cons, countP_cons]
    have hone : (if p a = true then 1 else 0) ≤ if q b = true then 1 else 0 := by
      by_cases ha : p a = true
      · simp only [ha, hcount hkeep ha, if_true, Nat.le_refl]
      · simp only [ha, if_false, Bool.false_eq_true, Nat.zero_le]
    omega
  | @drop a _ _ hdrop _ ih =>
    have hrest := ih fun x hx => hgone x (mem_cons_of_mem a hx)
    rw [countP_cons_of_neg (by rw [hgone a mem_cons_self hdrop]; exact Bool.false_ne_true)]
    exact hrest

end Evolves

end Forgent
