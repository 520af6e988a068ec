import Mathlib.Data.List.TakeWhile
import Mathlib.Order.Lattice

/-!
# Rolling windows

A list of times that keeps what is not expired, and no more of it than there is room.  While there is room left,
nothing that is not expired is missing from it.
-/

namespace Forgent.RollingWindow

open List

variable {τ : Type*}

/-- Adds a time, and drops what is expired by then and the oldest of what there is no room for. -/
def push (expired : τ → τ → Bool) (room : ℕ) (kept : List τ) (now : τ) : List τ :=
  let recent := (kept ++ [now]).dropWhile (expired now)
  recent.drop (recent.length - room)

theorem push_sublist (expired : τ → τ → Bool) (room : ℕ) (kept : List τ) (now : τ) :
    (push expired room kept now).Sublist (kept ++ [now]) :=
  (drop_sublist _ _).trans (dropWhile_sublist _)

variable [LinearOrder τ] {expired : τ → τ → Bool} {room : ℕ}

/-- What is expired stays so, and what is older is expired too. -/
def Monotone (expired : τ → τ → Bool) : Prop :=
  ∀ {now now' t t' : τ}, expired now t = true → now ≤ now' → t' ≤ t → expired now' t' = true

/-- The kept times are the last of all times, and while there is room, the others are expired. -/
structure Tracks (expired : τ → τ → Bool) (room : ℕ) (now : τ) (all kept : List τ) : Prop where
  sorted : all.Pairwise (· ≤ ·)
  le_now : ∀ t ∈ all, t ≤ now
  split : ∃ old, all = old ++ kept ∧ (kept.length < room → ∀ t ∈ old, expired now t = true)

namespace Tracks

variable {now now' : τ} {all kept : List τ}

theorem refl (hsorted : kept.Pairwise (· ≤ ·)) (hnow : ∀ t ∈ kept, t ≤ now) : Tracks expired room now kept kept where
  sorted := hsorted
  le_now := hnow
  split := ⟨[], rfl, fun _ t ht => by cases ht⟩

theorem later (hmono : Monotone expired) (h : Tracks expired room now all kept) (hnow : now ≤ now') :
    Tracks expired room now' all kept where
  sorted := h.sorted
  le_now t ht := (h.le_now t ht).trans hnow
  split := by
    obtain ⟨old, hall, hold⟩ := h.split
    exact ⟨old, hall, fun hroom t ht => hmono (hold hroom t ht) hnow le_rfl⟩

/-- A new time keeps the track. -/
theorem push (hmono : Monotone expired) (h : Tracks expired room now all kept) :
    Tracks expired room now (all ++ [now]) (push expired room kept now) where
  sorted := by
    rw [pairwise_append]
    refine ⟨h.sorted, pairwise_singleton _ _, ?_⟩
    intro t ht t' ht'
    rw [mem_singleton.mp ht']
    exact h.le_now t ht
  le_now t ht := by
    rcases mem_append.mp ht with ht | ht
    · exact h.le_now t ht
    · exact (mem_singleton.mp ht).le
  split := by
    obtain ⟨old, hall, hold⟩ := h.split
    have hsplit : kept ++ [now] = (kept ++ [now]).takeWhile (expired now) ++ (kept ++ [now]).dropWhile (expired now) :=
      (takeWhile_append_dropWhile ..).symm
    generalize htaken : (kept ++ [now]).takeWhile (expired now) = taken at hsplit
    have hexpired : ∀ t ∈ taken, expired now t = true := by
      rw [← htaken]
      intro t ht
      exact mem_takeWhile_imp ht
    unfold RollingWindow.push
    generalize (kept ++ [now]).dropWhile (expired now) = recent at hsplit
    refine ⟨old ++ taken ++ recent.take (recent.length - room), ?_, ?_⟩
    · rw [hall, append_assoc, hsplit, append_assoc, append_assoc, take_append_drop]
    · intro hroom t ht
      rw [length_drop] at hroom
      have hall' : recent.take (recent.length - room) = [] := by
        rw [show recent.length - room = 0 by omega, take_zero]
      rw [hall', append_nil] at ht
      rcases mem_append.mp ht with hmemOld | hmemTaken
      · rcases Nat.lt_or_ge kept.length room with hkept | hfull
        · exact hold hkept t hmemOld
        · -- the list was full, so something in it has expired now, and this is older
          have hlen := congrArg List.length hsplit
          rw [length_append, length_append, length_singleton] at hlen
          obtain ⟨first, rest, hfirst⟩ : ∃ first rest, taken = first :: rest := by
            cases taken with
            | nil =>
              rw [length_nil] at hlen
              omega
            | cons first rest => exact ⟨first, rest, rfl⟩
          have hmem : first ∈ kept ++ [now] := by
            rw [hsplit, hfirst]
            exact mem_append_left _ mem_cons_self
          have hle : t ≤ first := by
            rcases mem_append.mp hmem with hmem | hmem
            · have hsorted := h.sorted
              rw [hall, pairwise_append] at hsorted
              exact hsorted.2.2 t hmemOld first hmem
            · rw [mem_singleton.mp hmem]
              exact h.le_now t (hall ▸ mem_append_left _ hmemOld)
          exact hmono (hexpired first (hfirst ▸ mem_cons_self)) le_rfl hle
      · exact hexpired t hmemTaken

theorem countP_le (h : Tracks expired room now all kept) (hroom : kept.length < room) :
    (all.countP fun t => !expired now t) ≤ kept.length := by
  obtain ⟨old, hall, hold⟩ := h.split
  have hnone : (old.countP fun t => !expired now t) = 0 := by
    rw [countP_eq_zero]
    intro t ht
    rw [hold hroom t ht]
    exact Bool.false_ne_true
  rw [hall, countP_append, hnone, Nat.zero_add]
  exact countP_le_length

end Tracks

end Forgent.RollingWindow
