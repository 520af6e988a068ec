import Forgent.Graph.PriorityRun
import Mathlib.Data.Finset.Max
import Mathlib.Data.Prod.Lex

/-!
# Kahn's algorithm with a priority queue

The nodes are `0, …, count - 1`.  `Kahn.run` keeps, for every node, the number of dependencies not yet
visited, and the set of ready nodes ordered by (key, node); it pops the smallest, appends it, and
lowers the counters of the nodes that depend on it.  Its result is connected to the relation of
`PriorityRun`: what it visits is a complete run (`run_isRun`, `run_complete`).
-/

namespace Kahn

open PriorityRun List

variable {κ : Type*} [LinearOrder κ]

/-- The queue, the counters and what was visited so far. -/
structure State (κ : Type*) where
  degree : ℕ → ℕ
  ready : Finset (κ ×ₗ ℕ)
  visited : List ℕ

/-- The entry of a node in the ready set. -/
def entry (key : ℕ → κ) (m : ℕ) : κ ×ₗ ℕ := toLex (key m, m)

/-- One dependency of `child` was visited. -/
def lower (key : ℕ → κ) (s : State κ) (child : ℕ) : State κ :=
  let degree := Function.update s.degree child (s.degree child - 1)
  { s with
    degree := degree
    ready := if degree child = 0 then insert (entry key child) s.ready else s.ready }

/-- Pop the smallest ready node and lower the counters of the nodes that depend on it. -/
def visit (key : ℕ → κ) (next : ℕ → List ℕ) (s : State κ) (p : κ ×ₗ ℕ) : State κ :=
  (next (ofLex p).2).foldl (lower key)
    { s with ready := s.ready.erase p, visited := s.visited ++ [(ofLex p).2] }

/-- Pop until the ready set is empty. -/
def loop (key : ℕ → κ) (next : ℕ → List ℕ) : ℕ → State κ → State κ
  | 0, s => s
  | fuel + 1, s =>
    if h : s.ready.Nonempty then loop key next fuel (visit key next s (s.ready.min' h)) else s

/-- The counters and the ready set before anything is visited. -/
def start (count : ℕ) (key : ℕ → κ) (deps : ℕ → Finset ℕ) : State κ where
  degree := fun m => (deps m).card
  ready := ((Finset.range count).filter fun m => deps m = ∅).image (entry key)
  visited := []

/-- The nodes that depend on `m`. -/
def dependents (count : ℕ) (deps : ℕ → Finset ℕ) (m : ℕ) : List ℕ :=
  (List.range count).filter fun n => m ∈ deps n

/-- Kahn's algorithm.  Every node is popped at most once, so `count` pops are enough. -/
def run (count : ℕ) (key : ℕ → κ) (deps : ℕ → Finset ℕ) : State κ :=
  loop key (dependents count deps) count (start count key deps)

/-! ### Lowering the counters of the dependents -/

omit [LinearOrder κ] in
theorem entry_injective (key : ℕ → κ) : Function.Injective (entry key) := by
  intro a b h
  exact (Prod.ext_iff.mp (toLex.injective h)).2

theorem key_le_of_entry_le {key : ℕ → κ} {a b : ℕ} (h : entry key a ≤ entry key b) : key a ≤ key b := by
  rcases (Prod.Lex.toLex_le_toLex).mp h with h | h
  · exact h.le
  · exact h.1.le

theorem visit_entry (key : ℕ → κ) (next : ℕ → List ℕ) (s : State κ) (x : ℕ) :
    visit key next s (entry key x) = (next x).foldl (lower key)
      { s with ready := s.ready.erase (entry key x), visited := s.visited ++ [x] } := rfl

theorem lower_foldl_visited (key : ℕ → κ) (cs : List ℕ) (s : State κ) :
    (cs.foldl (lower key) s).visited = s.visited := by
  induction cs generalizing s with
  | nil => rfl
  | cons c cs ih => rw [foldl_cons, ih]; rfl

theorem lower_foldl_degree (key : ℕ → κ) (cs : List ℕ) (hcs : cs.Nodup) (s : State κ) (m : ℕ) :
    (cs.foldl (lower key) s).degree m = if m ∈ cs then s.degree m - 1 else s.degree m := by
  induction cs generalizing s with
  | nil => simp
  | cons c cs ih =>
    obtain ⟨hc, hcs⟩ := nodup_cons.mp hcs
    rw [foldl_cons, ih hcs]
    by_cases hmc : m = c
    · subst hmc
      simp [hc, lower]
    · simp [lower, hmc]

theorem lower_foldl_ready (key : ℕ → κ) (cs : List ℕ) (hcs : cs.Nodup) (s : State κ) (p : κ ×ₗ ℕ) :
    p ∈ (cs.foldl (lower key) s).ready ↔ p ∈ s.ready ∨ ∃ c ∈ cs, s.degree c - 1 = 0 ∧ p = entry key c := by
  induction cs generalizing s with
  | nil => simp
  | cons c cs ih =>
    obtain ⟨hc, hcs⟩ := nodup_cons.mp hcs
    have hother : ∀ d ∈ cs, (lower key s c).degree d = s.degree d := by
      intro d hd
      have hdc : d ≠ c := fun h => hc (h ▸ hd)
      simp [lower, hdc]
    have hhead : p ∈ (lower key s c).ready ↔
        p ∈ s.ready ∨ (s.degree c - 1 = 0 ∧ p = entry key c) := by
      by_cases h0 : s.degree c - 1 = 0
      · simp [lower, h0, or_comm]
      · simp [lower, h0]
    rw [foldl_cons, ih hcs, hhead]
    constructor
    · rintro ((h | h) | ⟨d, hd, h0, hp⟩)
      · exact .inl h
      · exact .inr ⟨c, by simp, h⟩
      · exact .inr ⟨d, by simp [hd], hother d hd ▸ h0, hp⟩
    · rintro (h | ⟨d, hd, h0, hp⟩)
      · exact .inl (.inl h)
      · rcases mem_cons.mp hd with rfl | hd
        · exact .inl (.inr ⟨h0, hp⟩)
        · exact .inr ⟨d, hd, (hother d hd).symm ▸ h0, hp⟩

/-! ### The invariant -/

section Invariant

variable {count : ℕ} {key : ℕ → κ} {deps : ℕ → Finset ℕ} {s : State κ}

/-- The nodes and edges of the graph, as `PriorityRun` takes them. -/
def nodes (count : ℕ) : Set ℕ := {m | m < count}

def edges (deps : ℕ → Finset ℕ) (m : ℕ) : Set ℕ := {d | d ∈ deps m}

/-- The counters count what is left to visit, and the queue holds the ready nodes. -/
structure Inv (count : ℕ) (key : ℕ → κ) (deps : ℕ → Finset ℕ) (s : State κ) : Prop where
  run : Run (nodes count) (edges deps) (entry key) s.visited
  degree : ∀ m, m < count → s.degree m = ((deps m).filter (· ∉ s.visited)).card
  ready : ∀ p, p ∈ s.ready ↔
    ∃ m, Ready (nodes count) (edges deps) s.visited m ∧ p = entry key m

theorem start_inv : Inv count key deps (start count key deps) where
  run := .nil
  degree := by intro m _; simp [start]
  ready := by
    intro p
    simp only [start, Finset.mem_image, Finset.mem_filter, Finset.mem_range, Ready, nodes, edges,
      Set.mem_ofPred_eq, not_mem_nil, not_false_eq_true, true_and, Finset.eq_empty_iff_forall_notMem]
    constructor
    · rintro ⟨m, ⟨hm, hd⟩, rfl⟩
      exact ⟨m, ⟨hm, hd⟩, rfl⟩
    · rintro ⟨m, ⟨hm, hd⟩, rfl⟩
      exact ⟨m, ⟨hm, hd⟩, rfl⟩

theorem card_unvisited_snoc {vs : List ℕ} {x m : ℕ} (hx : x ∉ vs) : ((deps m).filter (· ∉ vs ++ [x])).card =
      if x ∈ deps m then ((deps m).filter (· ∉ vs)).card - 1 else ((deps m).filter (· ∉ vs)).card := by
  have hset : (deps m).filter (· ∉ vs ++ [x]) = ((deps m).filter (· ∉ vs)).erase x := by
    ext d
    simp only [Finset.mem_filter, mem_append, mem_singleton, Finset.mem_erase, not_or]
    tauto
  rw [hset]
  split
  · rename_i hd
    exact Finset.card_erase_of_mem (by simp [hd, hx])
  · rename_i hd
    rw [Finset.erase_eq_of_notMem (by simp [hd])]

theorem visit_inv (h : Inv count key deps s) (hne : s.ready.Nonempty) :
    Inv count key deps (visit key (dependents count deps) s (s.ready.min' hne)) := by
  obtain ⟨x, hx, hpx⟩ := (h.ready _).mp (s.ready.min'_mem hne)
  rw [hpx]
  have hmin : ∀ y, Ready (nodes count) (edges deps) s.visited y → entry key x ≤ entry key y := by
    intro y hy
    rw [← hpx]
    exact s.ready.min'_le _ ((h.ready _).mpr ⟨y, hy, rfl⟩)
  have hrun := h.run.snoc hx hmin
  have hnodup : (dependents count deps x).Nodup := nodup_range.filter _
  have hvis : (visit key (dependents count deps) s (entry key x)).visited = s.visited ++ [x] := by
    rw [visit_entry, lower_foldl_visited]
  have hdeg : ∀ m, m < count → (visit key (dependents count deps) s (entry key x)).degree m =
      ((deps m).filter (· ∉ s.visited ++ [x])).card := by
    intro m hm
    rw [visit_entry, lower_foldl_degree key _ hnodup, card_unvisited_snoc hx.2.1, ← h.degree m hm]
    simp [dependents, hm]
  refine ⟨hvis ▸ hrun, hvis ▸ hdeg, fun p => ?_⟩
  rw [hvis, visit_entry, lower_foldl_ready key _ hnodup]
  simp only [Finset.mem_erase, dependents, mem_filter, mem_range, decide_eq_true_eq]
  constructor
  · rintro (⟨hp, hmem⟩ | ⟨c, ⟨hc, hxc⟩, h0, rfl⟩)
    · obtain ⟨m, hm, rfl⟩ := (h.ready p).mp hmem
      have hmx : m ≠ x := fun he => hp (he ▸ rfl)
      exact ⟨m, ⟨hm.1, by simp [hm.2.1, hmx], fun d hd => mem_append_left _ (hm.2.2 d hd)⟩, rfl⟩
    · -- the last dependency of `c` was `x`
      have hcx : c ∉ s.visited ++ [x] := by
        intro hmem
        rcases mem_append.mp hmem with hv | hv
        · exact hx.2.1 (h.run.closed hv hxc)
        · rw [mem_singleton] at hv
          subst hv
          exact hx.2.1 (hx.2.2 c hxc)
      have hempty : (deps c).filter (· ∉ s.visited ++ [x]) = ∅ := by
        rw [← Finset.card_eq_zero, card_unvisited_snoc hx.2.1, if_pos hxc, ← h.degree c hc]
        exact h0
      refine ⟨c, ⟨hc, hcx, fun d hd => ?_⟩, rfl⟩
      by_contra hnot
      have : d ∈ (deps c).filter (· ∉ s.visited ++ [x]) := Finset.mem_filter.mpr ⟨hd, hnot⟩
      rw [hempty] at this
      exact Finset.notMem_empty d this
  · rintro ⟨m, ⟨hm, hnot, hdeps⟩, rfl⟩
    rw [mem_append, not_or, mem_singleton] at hnot
    by_cases hxm : x ∈ deps m
    · right
      refine ⟨m, ⟨hm, hxm⟩, ?_, rfl⟩
      have h0 : ((deps m).filter (· ∉ s.visited ++ [x])).card = 0 := by
        rw [Finset.card_eq_zero, Finset.filter_eq_empty_iff]
        exact fun d hd => not_not.mpr (hdeps d hd)
      rw [card_unvisited_snoc hx.2.1, if_pos hxm, ← h.degree m hm] at h0
      exact h0
    · left
      refine ⟨fun he => hnot.2 (entry_injective key he), (h.ready _).mpr ⟨m, ⟨hm, hnot.1, ?_⟩, rfl⟩⟩
      intro d hd
      rcases mem_append.mp (hdeps d hd) with hv | hv
      · exact hv
      · rw [mem_singleton] at hv
        exact absurd (hv ▸ hd) hxm

theorem visit_visited {p : κ ×ₗ ℕ} {next : ℕ → List ℕ} :
    (visit key next s p).visited = s.visited ++ [(ofLex p).2] := by
  rw [visit, lower_foldl_visited]

theorem loop_inv (h : Inv count key deps s) (fuel : ℕ) :
    Inv count key deps (loop key (dependents count deps) fuel s) := by
  induction fuel generalizing s with
  | zero => exact h
  | succ fuel ih =>
    rw [loop]
    split
    · exact ih (visit_inv h _)
    · exact h

theorem loop_ready_eq_empty (h : Inv count key deps s) (fuel : ℕ) (hfuel : count ≤ fuel + s.visited.length) :
    (loop key (dependents count deps) fuel s).ready = ∅ := by
  induction fuel generalizing s with
  | zero =>
    rw [loop, ← Finset.not_nonempty_iff_eq_empty]
    intro hne
    -- a ready node on top of `count` distinct visited ones
    have hinv := visit_inv h hne
    have hsub : (visit key (dependents count deps) s (s.ready.min' hne)).visited ⊆
        List.range count := fun m hm => mem_range.mpr (hinv.run.mem_nodes m hm)
    have hle := (List.Nodup.subperm hinv.run.nodup hsub).length_le
    rw [visit_visited, length_append, length_singleton, length_range] at hle
    omega
  | succ fuel ih =>
    rw [loop]
    split
    · refine ih (visit_inv h _) ?_
      rw [visit_visited, length_append, length_singleton]
      omega
    · rename_i hne
      exact Finset.not_nonempty_iff_eq_empty.mp hne

theorem run_isRun (count : ℕ) (key : ℕ → κ) (deps : ℕ → Finset ℕ) :
    Run (nodes count) (edges deps) (entry key) (run count key deps).visited :=
  (loop_inv start_inv count).run

theorem run_complete (count : ℕ) (key : ℕ → κ) (deps : ℕ → Finset ℕ) :
    Complete (nodes count) (edges deps) (run count key deps).visited := by
  intro m hm
  have hinv : Inv count key deps (run count key deps) := loop_inv start_inv count
  have hempty : (run count key deps).ready = ∅ := loop_ready_eq_empty start_inv count (by simp)
  have : entry key m ∈ (run count key deps).ready := (hinv.ready _).mpr ⟨m, hm, rfl⟩
  rw [hempty] at this
  exact Finset.notMem_empty _ this

theorem run_visited_perm_of_length (count : ℕ) (key : ℕ → κ) (deps : ℕ → Finset ℕ)
    (h : (run count key deps).visited.length = count) : (run count key deps).visited.Perm (List.range count) := by
  have hrun := run_isRun count key deps
  have hsub : (run count key deps).visited ⊆ List.range count :=
    fun m hm => mem_range.mpr (hrun.mem_nodes m hm)
  exact (List.Nodup.subperm hrun.nodup hsub).perm_of_length_le (by simp [h])

end Invariant

end Kahn
