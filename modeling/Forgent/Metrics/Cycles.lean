import Forgent.Graph.Tarjan
import Forgent.Metrics.Chain

/-!
# Cycles among the items

Every cycle of items that wait for one another, and not only the first one that is found.

* `detectCycles`: the strongly connected components of the known items.
* `detectCycles_exact`: what is reported.
-/

namespace Forgent.Metrics

open Relation List

/-- `detectCycles`; none would be a walk that does not end. -/
def detectCycles (work : WorkMap) : Option (List (List String)) :=
  (Tarjan.walk (knownUnifiedDeps work).get (idsOf work)).map Tarjan.State.cycles

/-- An item that is the other one, or waits for it however indirectly. -/
abbrev WaitsThrough (work : WorkMap) : String → String → Prop := ReflTransGen (WaitsFor work)

/-- What the cycles of a work map are.  The groups of two items or more are the parts whose items all wait for one another,
each of them once; a group of one item is an edge that it declares to itself. -/
structure CyclesOf (work : WorkMap) (cycles : List (List String)) : Prop where
  component : ∀ c ∈ cycles, 1 < c.length →
    c.Nodup ∧ ∀ a ∈ c, ∀ b, b ∈ c ↔ WaitsThrough work a b ∧ WaitsThrough work b a
  complete : ∀ a b, a ≠ b → WaitsThrough work a b → WaitsThrough work b a → ∃ c ∈ cycles, a ∈ c ∧ b ∈ c
  disjoint : (cycles.filter fun c => 1 < c.length).Pairwise List.Disjoint
  single : ∀ c ∈ cycles, ¬ 1 < c.length → ∃ a, c = [a] ∧ WaitsFor work a a
  each : ∀ a, cycles.count [a] = (knownEdges work).count (a, a)

theorem count_get (work : WorkMap) (a : String) :
    ((knownUnifiedDeps work).get a).count a = (knownEdges work).count (a, a) := by
  have hcount : ∀ edges : List (String × String),
      (edges.filterMap fun edge => if edge.1 = a then some edge.2 else none).count a = edges.count (a, a) := by
    intro edges
    induction edges with
    | nil => rfl
    | cons edge edges ih =>
      obtain ⟨source, target⟩ := edge
      rw [filterMap_cons, count_cons, ← ih]
      by_cases hsource : source = a
      · rw [if_pos hsource]
        show List.count a (target :: _) = _
        rw [count_cons]
        simp [hsource]
      · rw [if_neg hsource]
        simp [hsource]
  rw [get_knownUnifiedDeps]
  split
  · exact hcount _
  · next hunknown =>
    rw [eq_comm]
    refine count_eq_zero.mpr fun hmem => hunknown ?_
    exact (mem_knownEdges.mp hmem).1

/-- **The cycles are exactly the cyclic parts**, of every graph of items, and the walk ends. -/
theorem detectCycles_exact (work : WorkMap) : ∃ cycles, detectCycles work = some cycles ∧ CyclesOf work cycles := by
  have hedge : DepthFirst.Edge (knownUnifiedDeps work).get = WaitsFor work := by
    funext a b
    exact propext mem_get_knownUnifiedDeps
  have hnext : ∀ a, ∀ b ∈ (knownUnifiedDeps work).get a, b ∈ idsOf work := fun a b hb => (mem_get_knownUnifiedDeps.mp hb).2.1
  have hleaf : ∀ a ∉ idsOf work, (knownUnifiedDeps work).get a = [] := by
    intro a ha
    rw [← keys_knownUnifiedDeps] at ha
    exact Deps.get_eq_nil ha
  obtain ⟨s, hs, hcyclic⟩ := Tarjan.exists_walk hnext hleaf
  obtain ⟨hcomponent, hcomplete, hdisjoint, hsingle, hcount⟩ := hcyclic
  refine ⟨s.cycles, by rw [detectCycles, hs]; rfl, fun c hc hlength => ?_, fun a b hne hab hba => ?_, hdisjoint,
    fun c hc hlength => ?_, fun a => (hcount a).trans (count_get work a)⟩
  · obtain ⟨hnodup, hmem⟩ := hcomponent c hc hlength
    rw [Tarjan.Reach, hedge] at hmem
    exact ⟨hnodup, hmem⟩
  · rw [Tarjan.Reach, hedge] at hcomplete
    exact hcomplete a b hne hab hba
  · obtain ⟨a, rfl, ha⟩ := hsingle c hc hlength
    exact ⟨a, rfl, mem_get_knownUnifiedDeps.mp ha⟩

/-! ### An item that waits for itself, and for another one -/

def selfish : WorkMap := [("a", record [("deps", some (.arr [.str "a", .str "b"]))]), ("b", record [("deps", some (.arr [.str "a"]))])]

/-- It is reported alone, and with the other one. -/
theorem self_edge_reported_beside : ¬ ∀ work : WorkMap, ∃ cycles, detectCycles work = some cycles ∧
    cycles.Pairwise List.Disjoint := by
  intro hclaim
  obtain ⟨cycles, hcycles, hdisjoint⟩ := hclaim selfish
  have hfound : detectCycles selfish = some [["a"], ["b", "a"]] := by decide
  obtain rfl := Option.some.inj (hcycles.symm.trans hfound)
  have hapart : List.Disjoint ["a"] ["b", "a"] := (pairwise_cons.mp hdisjoint).1 _ mem_cons_self
  exact hapart (a := "a") (by decide) (by decide)

end Forgent.Metrics
