import Forgent.DepGraph
import Forgent.Graph.LongestChain

/-!
# The critical path

What each item waits for, among the items that are known, and the longest chain of items that wait for one another.

* `knownUnifiedDeps`, `reverseDeps`: the graph, in both directions.
* `longestChain`, `criticalPath`: the chain; `longestChain_exact`: what it is.
-/

namespace Forgent.Metrics

open Json FiniteGraph List

/-! ### The graph of the known items -/

/-- `Object.keys(work)`. -/
def idsOf (work : WorkMap) : List String := work.map Prod.fst

/-- The item that a value names. -/
def known (work : WorkMap) : Json → Option String
  | .str id => if id ∈ idsOf work then some id else none
  | _ => none

/-- The edges with both ends known, in the order they are declared in. -/
def knownEdges (work : WorkMap) : List (String × String) :=
  (work.flatMap DepGraph.edgesOf).filterMap fun edge =>
    (known work edge.1).bind fun source => (known work edge.2).map fun target => (source, target)

/-- A map from an id to ids, in the order of its insertions. -/
abbrev Deps := List (String × List String)

/-- `deps.get(id) ?? []`. -/
def Deps.get (deps : Deps) (id : String) : List String := (deps.lookup id).getD []

/-- An id, and the ids it waits for. -/
def knownUnifiedDeps (work : WorkMap) : Deps :=
  work.map fun e => (e.1, (knownEdges work).filterMap fun edge => if edge.1 = e.1 then some edge.2 else none)

/-- An id, and the ids that wait for it. -/
def reverseDeps (deps : Deps) : Deps :=
  deps.map fun e => (e.1, deps.flatMap fun dependent => (dependent.2.filter (· = e.1)).map fun _ => dependent.1)

/-- `longestChain`; none would be a search that does not end. -/
def longestChain (deps : Deps) (candidateIds : List String) : Option (ℕ × List String) :=
  LongestChain.search deps.get (deps.length + 1) candidateIds

def criticalPath (work : WorkMap) : Option (ℕ × List String) := longestChain (knownUnifiedDeps work) (idsOf work)

/-! ### What the maps hold -/

theorem Deps.get_eq_nil {deps : Deps} {id : String} (h : id ∉ deps.map Prod.fst) : deps.get id = [] := by
  have hnone : deps.lookup id = none := by
    rw [lookup_eq_none_iff]
    intro e he
    rw [bne_iff_ne]
    exact fun heq => h (heq ▸ List.mem_map_of_mem he)
  rw [Deps.get, hnone]
  rfl

theorem lookup_map {β : Type*} (ids : List String) (f : String → β) (id : String) :
    (ids.map fun i => (i, f i)).lookup id = if id ∈ ids then some (f id) else none := by
  induction ids with
  | nil => rfl
  | cons i ids ih =>
    rw [map_cons, lookup_cons]
    by_cases h : id = i
    · subst h
      simp
    · rw [beq_eq_false_iff_ne.mpr h]
      simp only [mem_cons, h, false_or]
      exact ih

/-- Both are items, and the one waits for the other. -/
def WaitsFor (work : WorkMap) (a b : String) : Prop :=
  a ∈ idsOf work ∧ b ∈ idsOf work ∧ DepGraph.Waits work (.str a) (.str b)

variable {work : WorkMap}

theorem known_eq_some {value : Json} {id : String} :
    known work value = some id ↔ value = .str id ∧ id ∈ idsOf work := by
  constructor
  · intro h
    cases value with
    | str name =>
      rw [known] at h
      split at h
      · next hmem =>
        cases h
        exact ⟨rfl, hmem⟩
      · cases h
    | _ => cases h
  · rintro ⟨rfl, hmem⟩
    exact if_pos hmem

theorem mem_knownEdges {a b : String} : (a, b) ∈ knownEdges work ↔ WaitsFor work a b := by
  rw [knownEdges, mem_filterMap]
  constructor
  · rintro ⟨edge, hedge, hknown⟩
    obtain ⟨source, hsource, hrest⟩ := Option.bind_eq_some_iff.mp hknown
    obtain ⟨target, htarget, heq⟩ := Option.map_eq_some_iff.mp hrest
    obtain ⟨rfl, rfl⟩ := Prod.mk.inj heq
    obtain ⟨hfst, ha⟩ := known_eq_some.mp hsource
    obtain ⟨hsnd, hb⟩ := known_eq_some.mp htarget
    obtain ⟨e, he, hdeclared⟩ := mem_flatMap.mp hedge
    have hsame : edge = (.str source, .str target) := Prod.ext hfst hsnd
    exact ⟨ha, hb, e, he, hsame ▸ hdeclared⟩
  · rintro ⟨ha, hb, e, he, hdeclared⟩
    refine ⟨(.str a, .str b), mem_flatMap.mpr ⟨e, he, hdeclared⟩, ?_⟩
    rw [known_eq_some.mpr ⟨rfl, ha⟩, known_eq_some.mpr ⟨rfl, hb⟩]
    rfl

theorem get_knownUnifiedDeps (work : WorkMap) (id : String) : (knownUnifiedDeps work).get id =
    if id ∈ idsOf work then (knownEdges work).filterMap fun edge => if edge.1 = id then some edge.2 else none else [] := by
  have hmap : knownUnifiedDeps work = (idsOf work).map fun i =>
      (i, (knownEdges work).filterMap fun edge => if edge.1 = i then some edge.2 else none) := by
    rw [idsOf, List.map_map]
    rfl
  rw [Deps.get, hmap, lookup_map]
  split <;> rfl

/-- **The map holds what the items wait for.** -/
theorem mem_get_knownUnifiedDeps {a b : String} : b ∈ (knownUnifiedDeps work).get a ↔ WaitsFor work a b := by
  rw [get_knownUnifiedDeps, ← mem_knownEdges]
  constructor
  · intro h
    split at h
    · obtain ⟨edge, hedge, hsome⟩ := mem_filterMap.mp h
      split at hsome
      · next heq =>
        cases hsome
        rw [← heq]
        exact hedge
      · cases hsome
    · cases h
  · intro h
    rw [if_pos (mem_knownEdges.mp h).1]
    exact mem_filterMap.mpr ⟨(a, b), h, if_pos rfl⟩

theorem keys_knownUnifiedDeps (work : WorkMap) : (knownUnifiedDeps work).map Prod.fst = idsOf work := by
  rw [knownUnifiedDeps, List.map_map]
  rfl

/-! ### The chain -/

/-- **The longest chain is right on every graph**, cyclic ones included: the search ends, its path is a chain of edges of the
reported depth, and where the graph is acyclic no chain from a candidate is longer. -/
theorem longestChain_exact (deps : Deps) (candidateIds : List String) :
    ∃ depth path, longestChain deps candidateIds = some (depth, path) ∧
      LongestChain.Longest deps.get candidateIds depth path := by
  have hleaf : ∀ id ∉ deps.map Prod.fst, deps.get id = [] := fun id => Deps.get_eq_nil
  obtain ⟨depth, path, hsearch, hlongest⟩ := LongestChain.exists_search hleaf candidateIds
  rw [length_map] at hsearch
  exact ⟨depth, path, hsearch, hlongest⟩

example : longestChain [("a", ["b", "c"]), ("b", ["a"]), ("c", ["d"]), ("d", [])] ["a", "b"] = some (3, ["a", "c", "d"]) := by
  decide

end Forgent.Metrics
