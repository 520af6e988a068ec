import Forgent.Graph.DepthFirst
import Forgent.KnowledgeChange
import Forgent.WorkItem

/-!
# What work waits for

An item waits for its dependencies and for what it is merged after, and a parent waits for its children.
The three kinds of edges make one graph, and a write is refused when the changed item would reach a cycle:
one depth-first walk from it.  An edge may lead to an item that is not there yet.
-/

namespace Forgent

open Json List

/-- `view.work`: the items by id, in the order of the properties. -/
abbrev WorkMap := List (String × Fields)

namespace DepGraph

open WorkItem

/-! ### The graph -/

/-- A map from a node to the nodes its edges lead to. -/
abbrev Adjacency := List (Json × List Json)

/-- `adjacency.get(node) ?? []`. -/
def successors (adjacency : Adjacency) (node : Json) : List Json := (adjacency.lookup node).getD []

def addEdge (adjacency : Adjacency) (edge : Json × Json) : Adjacency :=
  if adjacency.any fun e => e.1 = edge.1 then
    adjacency.map fun e => if e.1 = edge.1 then (e.1, e.2 ++ [edge.2]) else e
  else adjacency ++ [(edge.1, [edge.2])]

/-- The list a field holds, or nothing. -/
def listOf (item : Fields) (field : String) : List Json := (arrayOf item[field]?).getD []

/-- The edges that an item declares. -/
def edgesOf (e : String × Fields) : List (Json × Json) :=
  let id : Json := .str e.1
  let parent := e.2["parent"]?
  (listOf e.2 "deps").map (fun dep => (id, dep)) ++
    ((if truthy parent then parent.toList else []).map fun p => (p, id)) ++
    (listOf e.2 "mergeAfter").map fun target => (id, target)

def buildUnifiedAdjacency (workMap : WorkMap) : Adjacency :=
  (workMap.flatMap edgesOf).foldl addEdge (workMap.map fun e => (.str e.1, []))

/-- The graph of the dependencies alone. -/
def buildAdjacency (workMap : WorkMap) : Adjacency := workMap.map fun e => (.str e.1, listOf e.2 "deps")

/-! ### The check of a write -/

def findCycleFrom (startId : Json) (adjacency : Adjacency) : Option (List Json) :=
  let nodes := adjacency.map Prod.fst
  match DepthFirst.findCycle (successors adjacency) nodes nodes.length [] [] startId with
  | .ok _ => none
  | .error cycle => some cycle

section

variable (σ : StoreHost) (candidate : Fields) (workMap : WorkMap)

/-- `{ ...workMap, [candidate.id]: candidate }`. -/
def merged : WorkMap := setProperty workMap (named σ candidate["id"]?) candidate

def assertAcyclic (adjacency : Adjacency) (what : String) : Except Refusal Unit :=
  match findCycleFrom (.str (named σ candidate["id"]?)) adjacency with
  | none => .ok ()
  | some cycle => .error ⟨.validation, "work \"" ++ named σ candidate["id"]? ++ "\" would close a " ++ what ++ " cycle: " ++
      " -> ".intercalate (cycle.map (text σ.arithmetic))⟩

def assertNoCycle : Except Refusal Unit :=
  assertAcyclic σ candidate (buildAdjacency (merged σ candidate workMap)) "dependency"

def assertNoUnifiedCycle : Except Refusal Unit :=
  assertAcyclic σ candidate (buildUnifiedAdjacency (merged σ candidate workMap)) "graph"

end

/-! ### What the graph is -/

open FiniteGraph Relation

/-- One of the items declares the edge. -/
def Waits (workMap : WorkMap) (a b : Json) : Prop := ∃ e ∈ workMap, (a, b) ∈ edgesOf e

variable {adjacency : Adjacency} {edge : Json × Json} {node target : Json} {workMap : WorkMap} {σ : StoreHost}
  {candidate : Fields} {u : Unit} {edges : List (Json × Json)}

theorem mem_keys_addEdge :
    node ∈ (addEdge adjacency edge).map Prod.fst ↔ node ∈ adjacency.map Prod.fst ∨ node = edge.1 := by
  rw [addEdge]
  split
  · rename_i hhas
    have hkeys : (adjacency.map fun e => if e.1 = edge.1 then (e.1, e.2 ++ [edge.2]) else e).map Prod.fst =
        adjacency.map Prod.fst := by
      rw [List.map_map]
      apply map_congr_left
      intro e _
      show (if e.1 = edge.1 then _ else e).1 = e.1
      split <;> rfl
    rw [hkeys]
    constructor
    · exact .inl
    · rintro (h | rfl)
      · exact h
      · obtain ⟨e, he, heq⟩ := List.any_eq_true.mp hhas
        exact List.mem_map.mpr ⟨e, he, of_decide_eq_true heq⟩
  · simp

theorem successors_eq_nil (h : node ∉ adjacency.map Prod.fst) : successors adjacency node = [] := by
  have hnone : adjacency.lookup node = none := by
    rw [lookup_eq_none_iff]
    intro e he
    rw [bne_iff_ne]
    exact fun heq => h (heq ▸ List.mem_map_of_mem he)
  rw [successors, hnone]
  rfl

theorem lookup_map_snd (node : Json) :
    (adjacency.map fun e => if e.1 = edge.1 then (e.1, e.2 ++ [edge.2]) else e).lookup node =
      (adjacency.lookup node).map fun targets => if node = edge.1 then targets ++ [edge.2] else targets := by
  induction adjacency with
  | nil => rfl
  | cons e adjacency ih =>
    rw [map_cons, lookup_cons, lookup_cons]
    have hkey : (if e.1 = edge.1 then (e.1, e.2 ++ [edge.2]) else e).1 = e.1 := by
      split <;> rfl
    rw [hkey]
    by_cases h : node = e.1
    · subst h
      simp only [beq_self_eq_true, Option.map_some, Option.some.injEq]
      split <;> rfl
    · rw [beq_eq_false_iff_ne.mpr h]
      exact ih

theorem mem_successors_addEdge : target ∈ successors (addEdge adjacency edge) node ↔
      target ∈ successors adjacency node ∨ (node, target) = edge := by
  rw [addEdge]
  split
  · rename_i hhas
    obtain ⟨e, he, heq⟩ := List.any_eq_true.mp hhas
    have hkey : edge.1 ∈ adjacency.map Prod.fst := List.mem_map.mpr ⟨e, he, of_decide_eq_true heq⟩
    show target ∈ (List.lookup node _).getD [] ↔ target ∈ (List.lookup node adjacency).getD [] ∨ _
    rw [lookup_map_snd]
    cases hl : adjacency.lookup node with
    | none =>
      have hne : node ≠ edge.1 := by
        intro h
        rw [lookup_eq_none_iff] at hl
        obtain ⟨e, he, heq⟩ := List.mem_map.mp hkey
        exact absurd (h.trans heq.symm) (bne_iff_ne.mp (hl e he))
      simp [Prod.ext_iff, hne]
    | some targets =>
      by_cases h : node = edge.1
      · simp [h, Prod.ext_iff]
      · simp [h, Prod.ext_iff]
  · rename_i hhas
    have hnone : ∀ e ∈ adjacency, e.1 ≠ edge.1 := by
      intro e he heq
      exact hhas (List.any_eq_true.mpr ⟨e, he, decide_eq_true heq⟩)
    show target ∈ (List.lookup node _).getD [] ↔ target ∈ (List.lookup node adjacency).getD [] ∨ _
    rw [lookup_append, lookup_cons, lookup_nil]
    by_cases h : node = edge.1
    · have hl : adjacency.lookup node = none := by
        rw [lookup_eq_none_iff]
        intro e he
        rw [bne_iff_ne, h]
        exact (hnone e he).symm
      rw [hl, beq_iff_eq.mpr h]
      simp [Prod.ext_iff, h]
    · rw [beq_eq_false_iff_ne.mpr h]
      simp [Prod.ext_iff, h]

theorem mem_keys_foldl_addEdge : node ∈ (edges.foldl addEdge adjacency).map Prod.fst ↔
      node ∈ adjacency.map Prod.fst ∨ ∃ edge ∈ edges, node = edge.1 := by
  induction edges generalizing adjacency with
  | nil => simp
  | cons edge edges ih =>
    rw [foldl_cons, ih, mem_keys_addEdge, exists_mem_cons_iff, or_assoc]

theorem mem_successors_foldl_addEdge : target ∈ successors (edges.foldl addEdge adjacency) node ↔
      target ∈ successors adjacency node ∨ (node, target) ∈ edges := by
  induction edges generalizing adjacency with
  | nil => simp
  | cons edge edges ih => rw [foldl_cons, ih, mem_successors_addEdge, mem_cons, or_assoc]

theorem successors_initial (workMap : WorkMap) (node : Json) :
    successors (workMap.map fun e => (.str e.1, [])) node = [] := by
  induction workMap with
  | nil => rfl
  | cons e workMap ih =>
    show (List.lookup node ((.str e.1, []) :: _)).getD [] = []
    rw [lookup_cons]
    split
    · rfl
    · exact ih

/-- **The adjacency holds the edges that the items declare.** -/
theorem mem_successors_buildUnifiedAdjacency :
    target ∈ successors (buildUnifiedAdjacency workMap) node ↔ Waits workMap node target := by
  rw [buildUnifiedAdjacency, mem_successors_foldl_addEdge, successors_initial, mem_flatMap]
  simp [Waits]

/-! ### What the check admits -/

theorem assertAcyclic_eq_ok {what : String} : assertAcyclic σ candidate adjacency what = .ok u ↔
      findCycleFrom (.str (named σ candidate["id"]?)) adjacency = none := by
  rw [assertAcyclic]
  split
  · rename_i h
    simp [h]
  · rename_i h
    simp [h]

/-- **One walk from the item finds every cycle that it reaches.** -/
theorem findCycleFrom_eq_none_iff {start : Json} (hstart : start ∈ adjacency.map Prod.fst) :
    findCycleFrom start adjacency = none ↔ ∀ node, ReflTransGen (DepthFirst.Edge (successors adjacency)) start node →
        ¬ TransGen (DepthFirst.Edge (successors adjacency)) node node := by
  have hleaf : ∀ node ∉ adjacency.map Prod.fst, successors adjacency node = [] := fun _ => successors_eq_nil
  rw [← DepthFirst.findCycle_eq_ok_iff hleaf hstart, findCycleFrom]
  generalize DepthFirst.findCycle (successors adjacency) (adjacency.map Prod.fst) _ [] [] start = found
  cases found with
  | ok visited | error cycle => simp

theorem mem_merged {e : String × Fields} : e ∈ merged σ candidate workMap ↔
      e = (named σ candidate["id"]?, candidate) ∨ (e ∈ workMap ∧ e.1 ≠ named σ candidate["id"]?) :=
  mem_setProperty

/-- **The check of a write** refuses exactly the items that reach a cycle. -/
theorem assertNoUnifiedCycle_eq_ok : assertNoUnifiedCycle σ candidate workMap = .ok u ↔
      ∀ node, ReflTransGen (Waits (merged σ candidate workMap)) (.str (named σ candidate["id"]?)) node →
        ¬ TransGen (Waits (merged σ candidate workMap)) node node := by
  have hedge : DepthFirst.Edge (successors (buildUnifiedAdjacency (merged σ candidate workMap))) =
      Waits (merged σ candidate workMap) := by
    funext a b
    exact propext mem_successors_buildUnifiedAdjacency
  have hstart : Json.str (named σ candidate["id"]?) ∈
      (buildUnifiedAdjacency (merged σ candidate workMap)).map Prod.fst := by
    rw [buildUnifiedAdjacency, mem_keys_foldl_addEdge, List.map_map]
    exact .inl (List.mem_map.mpr ⟨_, mem_merged.mpr (.inl rfl), rfl⟩)
  rw [assertNoUnifiedCycle, assertAcyclic_eq_ok, findCycleFrom_eq_none_iff hstart, hedge]

theorem waits_merged {a b : Json}
    (ha : a ≠ .str (named σ candidate["id"]?)) (hb : b ≠ .str (named σ candidate["id"]?))
    (h : Waits (merged σ candidate workMap) a b) : Waits workMap a b := by
  obtain ⟨e, he, hab⟩ := h
  rcases mem_merged.mp he with rfl | ⟨he, _⟩
  · -- every edge that the item declares has the item at one end
    simp only [edgesOf, mem_append, List.mem_map, Prod.mk.injEq] at hab
    rcases hab with (⟨_, _, hid, _⟩ | ⟨_, _, _, hid⟩) | ⟨_, _, hid, _⟩
    · exact absurd hid.symm ha
    · exact absurd hid.symm hb
    · exact absurd hid.symm ha
  · exact ⟨e, he, hab⟩

/-- **The graph stays acyclic** when the check passes. -/
theorem acyclic_merged (hacyc : Acyclic (Waits workMap)) (h : assertNoUnifiedCycle σ candidate workMap = .ok u) :
    Acyclic (Waits (merged σ candidate workMap)) :=
  acyclic_change (.str (named σ candidate["id"]?)) hacyc (fun _ _ => waits_merged)
    (assertNoUnifiedCycle_eq_ok.mp h _ .refl)

end DepGraph

end Forgent
