import Mathlib.Data.List.Pairwise
import Mathlib.Data.List.Perm.Basic

/-!
# First fit

A list is packed into waves.  One pass goes over what remains, puts into the wave what conflicts with nothing that is
in it already, and defers the rest to the next wave.

* `place`, `pass`, `waves`: the loops.
* `Packed`: what the waves are; `packed_waves`: it holds of every list and every conflict test.
-/

namespace FirstFit

open List

variable {α : Type*}

section

-- whether an entry of the wave stands against what is to be placed
variable (conflicts : α → α → Bool)

/-- The turn of one entry, with the wave and what is deferred so far. -/
def place (s : List α × List α) (a : α) : List α × List α :=
  if s.1.any (conflicts · a) then (s.1, s.2 ++ [a]) else (s.1 ++ [a], s.2)

def pass (remaining : List α) : List α × List α := remaining.foldl (place conflicts) ([], [])

/-- Pass over what remains until nothing does.  A pass places at least one entry, so that as many passes as there are
entries are enough. -/
def wavesIn : ℕ → List α → List (List α)
  | 0, _ => []
  | _ + 1, [] => []
  | passes + 1, a :: rest =>
    (pass conflicts (a :: rest)).1 :: wavesIn passes (pass conflicts (a :: rest)).2

def waves (l : List α) : List (List α) := wavesIn conflicts l.length l

end

/-- What the waves of a list are: each entry is in one of them, no two of one wave are in conflict, and what is in a
wave is there because each earlier wave has something that stands against it, and stood in front of it. -/
structure Packed (Conflict : α → α → Prop) (l : List α) (waves : List (List α)) : Prop where
  partition : waves.flatten.Perm l
  ordered : ∀ wave ∈ waves, wave ≠ [] ∧ wave.Sublist l
  apart : ∀ wave ∈ waves, wave.Pairwise fun a b => ¬ Conflict a b
  reason : waves.Pairwise fun earlier later => ∀ b ∈ later, ∃ a ∈ earlier, Conflict a b ∧ [a, b].Sublist l

/-! ### One pass -/

/-- What a pass has done with the entries it has seen. -/
structure Passed (conflicts : α → α → Bool) (seen : List α) (s : List α × List α) : Prop where
  partition : (s.1 ++ s.2).Perm seen
  wave : s.1.Sublist seen
  deferred : s.2.Sublist seen
  apart : s.1.Pairwise fun a b => conflicts a b = false
  reason : ∀ b ∈ s.2, ∃ a ∈ s.1, conflicts a b = true ∧ [a, b].Sublist seen

variable {conflicts : α → α → Bool}

theorem Passed.start : Passed conflicts [] ([], []) where
  partition := .nil
  wave := .slnil
  deferred := .slnil
  apart := .nil
  reason := nofun

/-- **One entry more.** -/
theorem Passed.place {seen : List α} {s : List α × List α} (h : Passed conflicts seen s) (a : α) :
    Passed conflicts (seen ++ [a]) (place conflicts s a) := by
  have hmore : seen.Sublist (seen ++ [a]) := sublist_append_left seen [a]
  rw [FirstFit.place]
  split
  · next hany =>
    obtain ⟨b, hb, hconflict⟩ := List.any_eq_true.mp hany
    refine ⟨?_, h.wave.trans hmore, h.deferred.append (List.Sublist.refl [a]), h.apart, fun c hc => ?_⟩
    · show (s.1 ++ (s.2 ++ [a])).Perm _
      rw [← append_assoc]
      exact h.partition.append_right [a]
    · rcases mem_append.mp hc with hc | hc
      · obtain ⟨b, hb, hconflict, hsub⟩ := h.reason c hc
        exact ⟨b, hb, hconflict, hsub.trans hmore⟩
      · rw [mem_singleton.mp hc]
        have hfront : [b].Sublist seen := singleton_sublist.mpr (h.wave.subset hb)
        exact ⟨b, hb, hconflict, hfront.append (List.Sublist.refl [a])⟩
  · next hnone =>
    rw [List.any_eq_true, not_exists] at hnone
    refine ⟨?_, h.wave.append (List.Sublist.refl [a]), h.deferred.trans hmore, ?_, fun c hc => ?_⟩
    · show (s.1 ++ [a] ++ s.2).Perm _
      have hswap : (s.1 ++ [a] ++ s.2).Perm (s.1 ++ s.2 ++ [a]) := by
        rw [append_assoc, append_assoc]
        exact perm_append_comm.append_left s.1
      exact hswap.trans (h.partition.append_right [a])
    · show (s.1 ++ [a]).Pairwise _
      rw [pairwise_append]
      refine ⟨h.apart, pairwise_singleton _ a, fun b hb c hc => ?_⟩
      rw [mem_singleton.mp hc, ← Bool.not_eq_true]
      exact fun hconflict => hnone b ⟨hb, hconflict⟩
    · obtain ⟨b, hb, hconflict, hsub⟩ := h.reason c hc
      exact ⟨b, mem_append_left [a] hb, hconflict, hsub.trans hmore⟩

theorem passed_pass (l : List α) : Passed conflicts l (pass conflicts l) := by
  have hfold : ∀ (rest seen : List α) (s : List α × List α), Passed conflicts seen s →
      Passed conflicts (seen ++ rest) (rest.foldl (place conflicts) s) := by
    intro rest
    induction rest with
    | nil =>
      intro seen s h
      rwa [append_nil]
    | cons a rest ih =>
      intro seen s h
      rw [append_cons, foldl_cons]
      exact ih _ _ (h.place a)
  exact hfold l [] _ .start

theorem mem_pass_cons (a : α) (rest : List α) : a ∈ (pass conflicts (a :: rest)).1 := by
  have hkept : ∀ (l : List α) (s : List α × List α), a ∈ s.1 → a ∈ (l.foldl (place conflicts) s).1 := by
    intro l
    induction l with
    | nil => exact fun s hs => hs
    | cons b l ih =>
      intro s hs
      rw [foldl_cons]
      refine ih _ ?_
      rw [place]
      split
      · exact hs
      · exact mem_append_left [b] hs
  exact hkept rest ([a], []) mem_cons_self

theorem length_deferred_lt (a : α) (rest : List α) : (pass conflicts (a :: rest)).2.length < (a :: rest).length := by
  have hlength := (@passed_pass α conflicts (a :: rest)).partition.length_eq
  have hpos := length_pos_of_mem (@mem_pass_cons α conflicts a rest)
  rw [length_append] at hlength
  omega

/-! ### All waves -/

theorem packed_wavesIn {passes : ℕ} {l : List α} (h : l.length ≤ passes) :
    Packed (fun a b => conflicts a b = true) l (wavesIn conflicts passes l) := by
  induction passes generalizing l with
  | zero =>
    obtain rfl : l = [] := length_eq_zero_iff.mp (by omega)
    exact ⟨.nil, nofun, nofun, .nil⟩
  | succ passes ih =>
    cases l with
    | nil => exact ⟨.nil, nofun, nofun, .nil⟩
    | cons a rest =>
      have hpassed := @passed_pass α conflicts (a :: rest)
      have hless := @length_deferred_lt α conflicts a rest
      have hnonempty := ne_nil_of_mem (@mem_pass_cons α conflicts a rest)
      rw [wavesIn]
      generalize pass conflicts (a :: rest) = s at hpassed hless hnonempty
      have hrest := ih (l := s.2) (by omega)
      refine ⟨?_, ?_, ?_, ?_⟩
      · rw [flatten_cons]
        exact (hrest.partition.append_left s.1).trans hpassed.partition
      · intro wave hwave
        rcases mem_cons.mp hwave with rfl | hwave
        · exact ⟨hnonempty, hpassed.wave⟩
        · exact ⟨(hrest.ordered wave hwave).1, (hrest.ordered wave hwave).2.trans hpassed.deferred⟩
      · intro wave hwave
        rcases mem_cons.mp hwave with rfl | hwave
        · exact hpassed.apart.imp fun hno => by simp [hno]
        · exact hrest.apart wave hwave
      · rw [pairwise_cons]
        refine ⟨fun later hlater b hb => ?_, hrest.reason.imp fun hreason b hb => ?_⟩
        · -- what is in a later wave was deferred by this pass
          have hdeferred : b ∈ s.2 := (hrest.ordered later hlater).2.subset hb
          exact hpassed.reason b hdeferred
        · obtain ⟨c, hc, hconflict, hsub⟩ := hreason b hb
          exact ⟨c, hc, hconflict, hsub.trans hpassed.deferred⟩

/-- **First fit packs every list**, whatever stands against what. -/
theorem packed_waves (conflicts : α → α → Bool) (l : List α) :
    Packed (fun a b => conflicts a b = true) l (waves conflicts l) :=
  packed_wavesIn (Nat.le_refl l.length)

end FirstFit
