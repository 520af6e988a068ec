import Mathlib.Data.List.Forall2

/-!
# What is made one by one

A list made element by element by a function that may fail relates to the list it was made from, element by element.
-/

namespace Forgent

open List Option

universe u

theorem bind_eq_ok {ε : Type*} {α β : Type u} {x : Except ε α} {f : α → Except ε β} {b : β} :
    (x >>= f) = .ok b ↔ ∃ a, x = .ok a ∧ f a = .ok b := by
  cases x with
  | error e =>
    constructor
    · intro h
      cases h
    · rintro ⟨_, h, _⟩
      cases h
  | ok a =>
    constructor
    · exact fun h => ⟨a, rfl, h⟩
    · rintro ⟨_, ha, h⟩
      cases ha
      exact h

variable {α β : Type}

theorem forall₂_of_mapM {f : α → Option β} {l : List α} {out : List β} (h : l.mapM f = some out) :
    List.Forall₂ (fun a b => f a = some b) l out := by
  induction l generalizing out with
  | nil =>
    obtain rfl : [] = out := some.inj h
    exact .nil
  | cons a l ih =>
    rw [mapM_cons] at h
    obtain ⟨b, hb, h⟩ := bind_eq_some_iff.mp h
    obtain ⟨rest, hrest, h⟩ := bind_eq_some_iff.mp h
    cases h
    exact .cons hb (ih hrest)

theorem forall₂_of_mapM_ok {ε : Type} {f : α → Except ε β} {l : List α} {out : List β} (h : l.mapM f = .ok out) :
    List.Forall₂ (fun a b => f a = .ok b) l out := by
  induction l generalizing out with
  | nil =>
    obtain rfl : [] = out := Except.ok.inj h
    exact .nil
  | cons a l ih =>
    rw [mapM_cons] at h
    obtain ⟨b, hb, h⟩ := bind_eq_ok.mp h
    obtain ⟨rest, hrest, h⟩ := bind_eq_ok.mp h
    cases h
    exact .cons hb (ih hrest)

variable {R : α → β → Prop} {l : List α} {out : List β}

theorem exists_mem_of_forall₂ (h : List.Forall₂ R l out) : ∀ a ∈ l, ∃ b ∈ out, R a b := by
  induction h with
  | nil => simp
  | @cons a b l out hab _ ih =>
    intro a' ha'
    rcases mem_cons.mp ha' with rfl | ha'
    · exact ⟨b, mem_cons_self, hab⟩
    · obtain ⟨b', hb', hrelated⟩ := ih a' ha'
      exact ⟨b', mem_cons_of_mem b hb', hrelated⟩

theorem exists_mem_of_forall₂_flip (h : List.Forall₂ R l out) : ∀ b ∈ out, ∃ a ∈ l, R a b := by
  intro b hb
  obtain ⟨a, ha, hrelated⟩ := exists_mem_of_forall₂ h.flip b hb
  exact ⟨a, ha, hrelated⟩

end Forgent
