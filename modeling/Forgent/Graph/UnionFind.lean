import Mathlib.Data.List.Basic
import Mathlib.Logic.Relation

/-!
# Union-find without ranks

Everything starts as its own parent, and joining a pair makes the root of the first the child of the root of the second.  A
path to a root has at most as many steps as pairs were joined.
-/

namespace UnionFind

open Relation Function

variable {α : Type*} [DecidableEq α]

/-- Follow the parents until one is its own. -/
def find (parents : α → α) : ℕ → α → α
  | 0, a => a
  | steps + 1, a => if parents a = a then a else find parents steps (parents a)

/-- Join one pair, with that many joined before. -/
def join (parents : α → α) (steps : ℕ) (pair : α × α) : α → α :=
  let ra := find parents steps pair.1
  let rb := find parents steps pair.2
  if ra = rb then parents else Function.update parents ra rb

def joinFrom (parents : α → α) : ℕ → List (α × α) → α → α
  | _, [] => parents
  | steps, pair :: pairs => joinFrom (join parents steps pair) (steps + 1) pairs

/-- The root of a class, once all the pairs are joined. -/
def root (pairs : List (α × α)) (a : α) : α := find (joinFrom id 0 pairs) pairs.length a

/-- That many steps lead to a root from everywhere. -/
def Flat (parents : α → α) (steps : ℕ) : Prop := ∀ a, parents (find parents steps a) = find parents steps a

variable {parents : α → α} {steps : ℕ}

theorem find_of_root {a : α} (h : parents a = a) (steps : ℕ) : find parents steps a = a := by
  cases steps with
  | zero => rfl
  | succ steps => rw [find, if_pos h]

theorem find_succ {a : α} (h : parents (find parents steps a) = find parents steps a) :
    find parents (steps + 1) a = find parents steps a := by
  induction steps generalizing a with
  | zero => exact find_of_root h 1
  | succ steps ih =>
    by_cases hself : parents a = a
    · rw [find_of_root hself, find_of_root hself]
    · have hfind : ∀ steps, find parents (steps + 1) a = find parents steps (parents a) := fun steps => if_neg hself
      rw [hfind] at h ⊢
      rw [hfind, ih h]

theorem find_update {ra rb a : α} (hra : parents ra = ra) (hrb : parents rb = rb) (hne : ra ≠ rb)
    (h : parents (find parents steps a) = find parents steps a) :
    find (Function.update parents ra rb) (steps + 1) a = if find parents steps a = ra then rb else find parents steps a := by
  have hroot : ∀ steps, find (Function.update parents ra rb) steps rb = rb := fun steps =>
    find_of_root (by rw [update_of_ne hne.symm, hrb]) steps
  have hchild : ∀ steps, find (Function.update parents ra rb) (steps + 1) ra = rb := by
    intro steps
    rw [find, update_self, if_neg hne.symm, hroot]
  induction steps generalizing a with
  | zero =>
    have h : parents a = a := h
    show _ = if a = ra then rb else a
    by_cases ha : a = ra
    · rw [if_pos ha, ha, hchild]
    · rw [if_neg ha]
      exact find_of_root (by rw [update_of_ne ha, h]) _
  | succ steps ih =>
    by_cases ha : a = ra
    · rw [ha, hchild, find_of_root hra, if_pos rfl]
    · rw [find, update_of_ne ha]
      by_cases hself : parents a = a
      · rw [if_pos hself, find_of_root hself, if_neg ha]
      · have hfind : find parents (steps + 1) a = find parents steps (parents a) := if_neg hself
        rw [hfind] at h ⊢
        rw [if_neg hself, ih h]

/-- Two are in one class when they have one root. -/
def SameRoot (parents : α → α) (steps : ℕ) (a b : α) : Prop := find parents steps a = find parents steps b

/-- **Joining a pair** makes one class of two, and no other. -/
theorem join_spec (h : Flat parents steps) (pair : α × α) : Flat (join parents steps pair) (steps + 1) ∧
    ∀ a b, SameRoot (join parents steps pair) (steps + 1) a b ↔ SameRoot parents steps a b ∨
      SameRoot parents steps a pair.1 ∧ SameRoot parents steps b pair.2 ∨
      SameRoot parents steps a pair.2 ∧ SameRoot parents steps b pair.1 := by
  unfold SameRoot Flat
  rw [join]
  by_cases hsame : find parents steps pair.1 = find parents steps pair.2
  · rw [if_pos hsame]
    have hfind : ∀ a, find parents (steps + 1) a = find parents steps a := fun a => find_succ (h a)
    refine ⟨fun a => by rw [hfind, h], fun a b => ?_⟩
    rw [hfind, hfind, hsame]
    grind
  · rw [if_neg hsame]
    have hfind : ∀ a, find (Function.update parents (find parents steps pair.1) (find parents steps pair.2)) (steps + 1) a =
        if find parents steps a = find parents steps pair.1 then find parents steps pair.2 else find parents steps a :=
      fun a => find_update (h pair.1) (h pair.2) hsame (h a)
    refine ⟨fun a => ?_, fun a b => ?_⟩
    · rw [hfind]
      split
      · rw [update_of_ne (Ne.symm hsame), h]
      · next hne => rw [update_of_ne hne, h]
    · rw [hfind, hfind]
      grind

def Joined (pairs : List (α × α)) (a b : α) : Prop := (a, b) ∈ pairs

theorem joinFrom_spec (h : Flat parents steps) {r : α → α → Prop} (hr : ∀ a b, SameRoot parents steps a b ↔ EqvGen r a b)
    (pairs : List (α × α)) : ∀ a b, SameRoot (joinFrom parents steps pairs) (steps + pairs.length) a b ↔
      EqvGen (fun a b => r a b ∨ Joined pairs a b) a b := by
  induction pairs generalizing parents steps r with
  | nil => simpa [joinFrom, Joined] using hr
  | cons pair pairs ih =>
    obtain ⟨hflat, hjoin⟩ := join_spec h pair
    have hstep : ∀ a b, SameRoot (join parents steps pair) (steps + 1) a b ↔
        EqvGen (fun a b => r a b ∨ (a, b) = pair) a b := by
      intro a b
      rw [hjoin, hr, hr, hr, hr, hr]
      have hmono : ∀ {a b}, EqvGen r a b → EqvGen (fun a b => r a b ∨ (a, b) = pair) a b := fun {a b} hab =>
        EqvGen.mono (fun _ _ => .inl) a b hab
      have hpair : EqvGen (fun a b => r a b ∨ (a, b) = pair) pair.1 pair.2 := .rel _ _ (.inr rfl)
      constructor
      · rintro (hab | ⟨ha, hb⟩ | ⟨ha, hb⟩)
        · exact hmono hab
        · exact ((hmono ha).trans _ _ _ hpair).trans _ _ _ (hmono hb).symm
        · exact ((hmono ha).trans _ _ _ hpair.symm).trans _ _ _ (hmono hb).symm
      · intro hab
        simp only [← hr, ← hjoin]
        induction hab with
        | rel a b hab =>
          refine (hjoin a b).mpr ?_
          rcases hab with hab | rfl
          · exact .inl ((hr a b).mpr (.rel _ _ hab))
          · exact .inr (.inl ⟨rfl, rfl⟩)
        | refl a => rfl
        | symm a b _ ih => exact Eq.symm ih
        | trans a b c _ _ hab hbc => exact Eq.trans hab hbc
    intro a b
    rw [joinFrom, List.length_cons, Nat.add_comm pairs.length 1, ← Nat.add_assoc, ih hflat hstep]
    have hrel : (fun a b => (r a b ∨ (a, b) = pair) ∨ Joined pairs a b) = fun a b => r a b ∨ Joined (pair :: pairs) a b := by
      funext a b
      exact propext (by rw [Joined, Joined, List.mem_cons, or_assoc])
    rw [hrel]

/-- **Two have one root exactly when pairs connect them.** -/
theorem root_eq_iff (pairs : List (α × α)) (a b : α) : root pairs a = root pairs b ↔ EqvGen (Joined pairs) a b := by
  have hid : ∀ a b : α, SameRoot id 0 a b ↔ EqvGen (fun _ _ => False) a b := by
    intro a b
    constructor
    · intro hab
      cases (show a = b from hab)
      exact .refl a
    · intro hab
      induction hab with
      | rel _ _ h => exact h.elim
      | refl a => rfl
      | symm _ _ _ ih => exact Eq.symm ih
      | trans _ _ _ _ _ hab hbc => exact Eq.trans hab hbc
  have hall := joinFrom_spec (fun _ => rfl) hid pairs a b
  simp only [false_or, Nat.zero_add] at hall
  exact hall

end UnionFind
