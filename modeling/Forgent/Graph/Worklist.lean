import Mathlib.Data.Finset.Insert
import Mathlib.Data.List.Range

/-!
# The worklist closure

`closure` adds to a finite set of nodes everything reachable from it: it keeps the set seen so far and
a queue of nodes whose successors were not looked at yet, pops the front, and pushes the successors
that are new.  `mem_closure` says that it computes reachability.
-/

namespace Worklist

open Relation List

/-- A successor enters the queue when it was not seen before. -/
def push (s : Finset ℕ × List ℕ) (child : ℕ) : Finset ℕ × List ℕ :=
  if child ∈ s.1 then s else (insert child s.1, s.2 ++ [child])

/-- Pop the front of the queue until it is empty. -/
def loop (next : ℕ → List ℕ) : ℕ → Finset ℕ × List ℕ → Finset ℕ
  | 0, s => s.1
  | _ + 1, (seen, []) => seen
  | fuel + 1, (seen, n :: queue) =>
    loop next fuel ((next n).foldl push (seen, queue))

/-- Everything reachable from `start`.  No node enters the queue twice, so `count` pops are enough. -/
def closure (count : ℕ) (next : ℕ → List ℕ) (start : List ℕ) : Finset ℕ :=
  loop next count (start.toFinset, start)

/-- Reachability along the edges, in any number of steps. -/
def Reaches (next : ℕ → List ℕ) : ℕ → ℕ → Prop := ReflTransGen fun a b => b ∈ next a

theorem push_foldl_fst (cs : List ℕ) (s : Finset ℕ × List ℕ) (m : ℕ) :
    m ∈ (cs.foldl push s).1 ↔ m ∈ s.1 ∨ m ∈ cs := by
  induction cs generalizing s with
  | nil => simp
  | cons c cs ih =>
    rw [foldl_cons, ih, push]
    split
    · rename_i hc
      constructor
      · rintro (h | h)
        · exact .inl h
        · exact .inr (mem_cons_of_mem c h)
      · rintro (h | h)
        · exact .inl h
        · rcases mem_cons.mp h with rfl | h
          · exact .inl hc
          · exact .inr h
    · simp only [Finset.mem_insert, mem_cons]
      tauto

theorem push_foldl_queue (done cs : List ℕ) (s : Finset ℕ × List ℕ)
    (hseen : ∀ m, m ∈ s.1 ↔ m ∈ done ++ s.2) (hnodup : (done ++ s.2).Nodup) :
    (∀ m, m ∈ (cs.foldl push s).1 ↔ m ∈ done ++ (cs.foldl push s).2) ∧ (done ++ (cs.foldl push s).2).Nodup := by
  induction cs generalizing s with
  | nil => exact ⟨hseen, hnodup⟩
  | cons c cs ih =>
    rw [foldl_cons]
    by_cases hc : c ∈ s.1
    · rw [push, if_pos hc]
      exact ih s hseen hnodup
    · rw [push, if_neg hc]
      have hc' : c ∉ done ++ s.2 := fun h => hc ((hseen c).mpr h)
      refine ih _ (fun m => ?_) ?_
      · rw [Finset.mem_insert, hseen m, ← append_assoc, mem_append (t := [c]), mem_singleton, or_comm]
      · rw [← append_assoc, nodup_append]
        refine ⟨hnodup, by simp, ?_⟩
        intro a ha b hb hab
        rw [mem_singleton.mp hb] at hab
        exact hc' (hab ▸ ha)

/-- What the loop keeps true: `done` was popped, the rest of what was seen waits in the queue. -/
structure Inv (count : ℕ) (next : ℕ → List ℕ) (start : List ℕ) (done : List ℕ)
    (s : Finset ℕ × List ℕ) : Prop where
  seen : ∀ m, m ∈ s.1 ↔ m ∈ done ++ s.2
  nodup : (done ++ s.2).Nodup
  start_mem : ∀ m ∈ start, m ∈ s.1
  reaches : ∀ m ∈ s.1, ∃ a ∈ start, Reaches next a m
  expanded : ∀ m ∈ done, ∀ b ∈ next m, b ∈ s.1
  bound : ∀ m ∈ s.1, m < count

section

variable {count : ℕ} {next : ℕ → List ℕ} {start : List ℕ} {done : List ℕ} {seen : Finset ℕ}

theorem inv_start (hnodup : start.Nodup) (hstart : ∀ m ∈ start, m < count) :
    Inv count next start [] (start.toFinset, start) where
  seen := by simp
  nodup := hnodup
  start_mem := by simp
  reaches := fun m hm => ⟨m, List.mem_toFinset.mp hm, .refl⟩
  expanded := by simp
  bound := fun m hm => hstart m (List.mem_toFinset.mp hm)

theorem inv_pop (hnext : ∀ a, ∀ b ∈ next a, b < count) {queue : List ℕ}
    {n : ℕ} (h : Inv count next start done (seen, n :: queue)) :
    Inv count next start (done ++ [n]) ((next n).foldl push (seen, queue)) := by
  have hmove : done ++ n :: queue = done ++ [n] ++ queue := by simp
  have hn : n ∈ seen := (h.seen n).mpr (by simp)
  have hfst : ∀ m, m ∈ ((next n).foldl push (seen, queue)).1 ↔
      m ∈ seen ∨ m ∈ next n := by
    intro m
    rw [push_foldl_fst]
  obtain ⟨hseen, hnodup⟩ := push_foldl_queue (done ++ [n]) (next n) (seen, queue)
    (fun m => by rw [h.seen m, hmove]) (hmove ▸ h.nodup)
  refine ⟨hseen, hnodup, fun m hm => (hfst m).mpr (.inl (h.start_mem m hm)), fun m hm => ?_,
    fun m hm => ?_, fun m hm => ?_⟩
  · rcases (hfst m).mp hm with hm | hm
    · exact h.reaches m hm
    · obtain ⟨a, ha, hreach⟩ := h.reaches n hn
      exact ⟨a, ha, hreach.tail hm⟩
  · intro b hb
    rcases mem_append.mp hm with hm | hm
    · exact (hfst b).mpr (.inl (h.expanded m hm b hb))
    · rw [mem_singleton] at hm
      exact (hfst b).mpr (.inr (hm ▸ hb))
  · rcases (hfst m).mp hm with hm | hm
    · exact h.bound m hm
    · exact hnext n m hm

theorem mem_of_queue_nil (h : Inv count next start done (seen, [])) (m : ℕ) :
    m ∈ seen ↔ ∃ a ∈ start, Reaches next a m := by
  refine ⟨h.reaches m, ?_⟩
  rintro ⟨a, ha, hreach⟩
  induction hreach with
  | refl => exact h.start_mem _ ha
  | tail _ hstep ih =>
    refine h.expanded _ ?_ _ hstep
    simpa using (h.seen _).mp ih

theorem mem_loop (hnext : ∀ a, ∀ b ∈ next a, b < count) (fuel : ℕ) (done : List ℕ)
    (s : Finset ℕ × List ℕ) (h : Inv count next start done s) (hfuel : count ≤ fuel + done.length)
    (m : ℕ) : m ∈ loop next fuel s ↔ ∃ a ∈ start, Reaches next a m := by
  induction fuel generalizing done s with
  | zero =>
    obtain ⟨seen, queue⟩ := s
    have hsub : done ++ queue ⊆ List.range count := by
      intro b hb
      exact mem_range.mpr (h.bound b ((h.seen b).mpr hb))
    have hle := (List.Nodup.subperm h.nodup hsub).length_le
    simp only [length_append, length_range] at hle
    have hqueue : queue = [] := length_eq_zero_iff.mp (by omega)
    subst hqueue
    exact mem_of_queue_nil h m
  | succ fuel ih =>
    obtain ⟨seen, queue⟩ := s
    cases queue with
    | nil => exact mem_of_queue_nil h m
    | cons n queue =>
      refine ih (done ++ [n]) _ (inv_pop hnext h) ?_
      rw [length_append, length_singleton]
      omega

/-- **The worklist computes reachability.** -/
theorem mem_closure (hnodup : start.Nodup) (hstart : ∀ m ∈ start, m < count) (hnext : ∀ a, ∀ b ∈ next a, b < count)
    (m : ℕ) : m ∈ closure count next start ↔ ∃ a ∈ start, Reaches next a m :=
  mem_loop hnext count [] _ (inv_start hnodup hstart) (by simp) m

end

end Worklist
