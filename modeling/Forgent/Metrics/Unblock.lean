import Forgent.Frontier
import Forgent.Graph.StackWalk
import Forgent.GreedyCover
import Forgent.Metrics.Chain

/-!
# What completing an item would unblock

The items that are not done, ranked by how much completing each of them would unblock beyond what the ones in front of it
do.

* `transitiveDownstream`: the items that are not done and wait for an item, directly or through one another.
* `computeGreedyTopUnblock`, `greedyTopUnblock`: the ranking; `computeGreedyTopUnblock_ranked`: what it is.
-/

namespace Forgent.Metrics

open Relation List

def transitiveDownstream (id : String) (rev : Deps) (notDone : List String) : List String :=
  StackWalk.behind rev.get (fun next => notDone.contains next) notDone id

def computeGreedyTopUnblock (candidates notDone : List String) (deps : Deps) (k : ℕ) : List (GreedyCover.Pick String) :=
  GreedyCover.picks (fun id => transitiveDownstream id (reverseDeps deps) notDone) candidates k

/-- The items that are not resolved, in the order of the map. -/
def notDoneOf (work : WorkMap) : List String := (idsOf work).filter fun id => !Frontier.isResolvedStatus (work.lookup id)

def greedyTopUnblock (work : WorkMap) (k : ℕ) : List (GreedyCover.Pick String) :=
  computeGreedyTopUnblock (notDoneOf work) (notDoneOf work) (knownUnifiedDeps work) k

/-! ### What is downstream -/

/-- An item that is not done, and waits for the other one. -/
def Unblocks (deps : Deps) (notDone : List String) (a b : String) : Prop :=
  a ∈ deps.map Prod.fst ∧ b ∈ notDone ∧ ∃ ds, (b, ds) ∈ deps ∧ a ∈ ds

theorem mem_get_reverseDeps {deps : Deps} {a b : String} :
    b ∈ (reverseDeps deps).get a ↔ a ∈ deps.map Prod.fst ∧ ∃ ds, (b, ds) ∈ deps ∧ a ∈ ds := by
  have hmap : reverseDeps deps = (deps.map Prod.fst).map fun id =>
      (id, deps.flatMap fun dependent => (dependent.2.filter (· = id)).map fun _ => dependent.1) := by
    rw [List.map_map]
    rfl
  have hmem : b ∈ (deps.flatMap fun dependent => (dependent.2.filter (· = a)).map fun _ => dependent.1) ↔
      ∃ ds, (b, ds) ∈ deps ∧ a ∈ ds := by
    rw [mem_flatMap]
    constructor
    · rintro ⟨⟨id, ds⟩, hdependent, hb⟩
      obtain ⟨c, hc, rfl⟩ := List.mem_map.mp hb
      obtain ⟨hc, heq⟩ := mem_filter.mp hc
      exact ⟨ds, hdependent, of_decide_eq_true heq ▸ hc⟩
    · rintro ⟨ds, hdependent, ha⟩
      exact ⟨(b, ds), hdependent, List.mem_map.mpr ⟨a, mem_filter.mpr ⟨ha, decide_eq_true rfl⟩, rfl⟩⟩
  rw [Deps.get, hmap, lookup_map]
  by_cases ha : a ∈ deps.map Prod.fst
  · rw [if_pos ha, Option.getD_some, hmem]
    exact (and_iff_right ha).symm
  · rw [if_neg ha]
    constructor
    · intro hb
      cases hb
    · exact fun h => absurd h.1 ha

theorem behind_eq_unblocks (deps : Deps) (notDone : List String) :
    DepthFirst.Behind (reverseDeps deps).get (fun next => notDone.contains next) = Unblocks deps notDone := by
  funext a b
  apply propext
  show b ∈ (reverseDeps deps).get a ∧ notDone.contains b = true ↔ _
  rw [mem_get_reverseDeps, contains_iff_mem, Unblocks]
  constructor
  · rintro ⟨⟨ha, hwaits⟩, hb⟩
    exact ⟨ha, hb, hwaits⟩
  · rintro ⟨ha, hb, hwaits⟩
    exact ⟨⟨ha, hwaits⟩, hb⟩

/-- **What is downstream**: the items that are not done and are reached along what waits, each once. -/
theorem mem_transitiveDownstream {deps : Deps} {notDone : List String} {a b : String} :
    b ∈ transitiveDownstream a (reverseDeps deps) notDone ↔ TransGen (Unblocks deps notDone) a b := by
  rw [← behind_eq_unblocks]
  exact StackWalk.mem_behind_iff (fun _ hb => contains_iff_mem.mp hb) a b

theorem nodup_transitiveDownstream (id : String) (rev : Deps) (notDone : List String) :
    (transitiveDownstream id rev notDone).Nodup :=
  StackWalk.nodup_behind (fun _ hb => contains_iff_mem.mp hb) id

/-! ### The ranking -/

/-- **The greedy list**, of every graph, for every number of picks: what is downstream of an item is counted once, and the
picks are ranked by what they newly cover. -/
theorem computeGreedyTopUnblock_ranked (candidates notDone : List String) (deps : Deps) (k : ℕ) :
    (∀ id, (transitiveDownstream id (reverseDeps deps) notDone).Nodup ∧
      ∀ b, b ∈ transitiveDownstream id (reverseDeps deps) notDone ↔ TransGen (Unblocks deps notDone) id b) ∧
    GreedyCover.Ranked (fun id => transitiveDownstream id (reverseDeps deps) notDone) candidates k
      (computeGreedyTopUnblock candidates notDone deps k) :=
  ⟨fun id => ⟨nodup_transitiveDownstream id _ notDone, fun _ => mem_transitiveDownstream⟩,
    GreedyCover.ranked_picks (fun id => nodup_transitiveDownstream id _ notDone) candidates k⟩

/-- An item alone is counted, though nothing is downstream of it. -/
theorem pick_counts_itself : ¬ ∀ (work : WorkMap) (k : ℕ), let picks := greedyTopUnblock work k
    (picks.map GreedyCover.Pick.newlyUnblocks).sum =
      (picks.flatMap fun p => transitiveDownstream p.id (reverseDeps (knownUnifiedDeps work)) (notDoneOf work)).toFinset.card := by
  intro hclaim
  have halone := hclaim [("a", record [("status", some (.str "todo"))])] 1
  revert halone
  decide

end Forgent.Metrics
