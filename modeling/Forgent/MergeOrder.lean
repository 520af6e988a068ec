import Forgent.Graph.ParentForest
import Forgent.Graph.UnionFind
import Forgent.Metrics.Footprint
import Forgent.Metrics.Unblock

/-!
# What can be merged, and in which order

`mergeReadiness` sorts the items that wait for an approval into buckets, and `mergeTree` shows them under the items they are
merged into.

* `mem_bucket`: what is in which bucket; `mergeReadiness_exact`: the buckets, the merge sets and the tree.
* `merge_is_no_partition`: what has nothing to wait for and no conflict is not always ready.
-/

namespace Forgent.MergeOrder

open Json DepGraph Metrics Relation List

open Frontier (isResolvedStatus objectPrototype)

abbrev name (id : String) : Id := some (.str id)

/-! ### The ranking -/

def tierRank (goalTier : Option Json) : ℕ :=
  if same goalTier (some (.str "mvp")) then 0 else if same goalTier (some (.str "milestone")) then 1 else 2

/-- What a row is sorted by. -/
structure ImpactRow where
  id : String
  tier : ℕ
  blocks : ℕ
  componentSize : ℕ

def ImpactRow.precedes (a b : ImpactRow) : Bool :=
  if a.tier ≠ b.tier then a.tier < b.tier
  else if a.blocks ≠ b.blocks then b.blocks < a.blocks
  else if a.componentSize ≠ b.componentSize then b.componentSize < a.componentSize
  else encodeUtf16 a.id ≤ encodeUtf16 b.id

def openWork (work : WorkMap) : WorkMap := work.filter fun e => !isResolvedStatus (some e.2)

/-- How many open items wait for it. -/
def blocksOf (work : WorkMap) (id : String) : ℕ :=
  (work.flatMap edgesOf).countP fun edge => ((openWork work).any fun e => edge.1 = .str e.1) && edge.2 = .str id

/-- The size of the component of an item in the graph of the open items, along edges in both directions. -/
def componentSizeOf (work : WorkMap) (id : String) : ℕ :=
  let ids := idsOf (openWork work)
  let adjacency := fun id => (knownEdges (openWork work)).filterMap fun edge =>
    if edge.1 = id then some edge.2 else if edge.2 = id then some edge.1 else none
  (id :: StackWalk.behind adjacency (fun other => ids.contains other) ids id).dedup.length

/-- The ids by their rank: the open ones, and behind them, where they are asked for, the resolved ones. -/
def rankImpact (work : WorkMap) (includeDone : Bool) : List String :=
  let ranked := (openWork work).map fun e =>
    (⟨e.1, tierRank e.2["goalTier"]?, blocksOf work e.1, componentSizeOf work e.1⟩ : ImpactRow)
  let doneRows := (work.filter fun e => isResolvedStatus (some e.2)).map fun e =>
    (⟨e.1, tierRank e.2["goalTier"]?, 0, 0⟩ : ImpactRow)
  let sorted := fun rows : List ImpactRow => (rows.insertionSort fun a b => a.precedes b).map ImpactRow.id
  sorted ranked ++ if includeDone then sorted doneRows else []

def orderByRank (rankedIds : List String) (ids : List Id) : List Id := (rankedIds.map name).filter fun id => ids.contains id

/-! ### The buckets -/

section

variable (n : Arithmetic) (work : WorkMap) (drift : Table Json)

/-- `work[id]`; the members that every object has are found, too, and have nothing that is read. -/
def itemAt (id : Id) : Option Fields :=
  (work.lookup (key n id)).or (if objectPrototype.contains (key n id) then some ∅ else none)

/-- The parent that an item names, where there is one. -/
def parentOf (id : Id) : Option Id :=
  let parent := (itemAt n work id).bind fun item => item["parent"]?
  if truthy parent && (itemAt n work parent).isSome then some parent else none

/-- The loop of `resolveRoot`: each step but the last sees another parent. -/
def climb : ℕ → List Id → Id → Id
  | 0, _, current => current
  | steps + 1, seen, current =>
    if current ∈ seen then current
    else
      match parentOf n work current with
      | none => current
      | some parent => climb steps (current :: seen) parent

def resolveRoot (id : Id) : Id := climb n work (work.length + 2) [] id

def proposed : List Fields := (work.map Prod.snd).filter fun item => same item["status"]? (some (.str "awaiting-approval"))

/-- What the item has to wait for is merged. -/
def clear (item : Fields) : Bool :=
  (listOf item "deps" ++ listOf item "mergeAfter").all fun dep => isResolvedStatus (itemAt n work (some dep))

def needsSync (item : Fields) : Bool :=
  truthy ((drift[key n (resolveRoot n work (idOf item))]?).bind fun d => d.field "needsSync")

def stranded (item : Fields) : Bool :=
  let root := resolveRoot n work (idOf item)
  !decide (root = idOf item) && isResolvedStatus (itemAt n work root)

def syncClear : List Fields :=
  (proposed work).filter fun item => clear n work item && !needsSync n work drift item && !stranded n work item

def conflicts : List Metrics.Conflict := footprintOverlapAmong n (syncClear n work drift)

def conflictedIds : List Id := ((conflicts n work drift).flatMap fun c => [c.a, c.b]).eraseDups

/-- `readyIdSet`, before the superseded ones are taken out. -/
def conflictFree : List Id := ((syncClear n work drift).map idOf).filter (· ∉ conflictedIds n work drift)

def superseded (id : Id) : Bool :=
  match (itemAt n work id).bind fun item => item["supersededBy"]? with
  | some (.str target) => isResolvedStatus (itemAt n work (name target)) || (conflictFree n work drift).contains (name target)
  | _ => false

def readyIdSet : List Id := (conflictFree n work drift).filter fun id => !superseded n work drift id

inductive Reason
  | footprintOverlap
  | sharedRoot
deriving DecidableEq

structure MergeSet where
  items : List Id
  reason : Reason

/-- Ids by a key, in the order the keys come in. -/
def groupsOf (keyOf : Id → Id) (ids : List Id) : List (List Id) :=
  (ids.map keyOf).eraseDups.map fun k => ids.filter fun id => keyOf id = k

structure Readiness where
  ready : List Id
  waiting : List Id
  conflicts : List Metrics.Conflict
  mergeSets : List MergeSet
  blockedOnSync : List Id
  strandedByResolvedRoot : List Id
  supersededOut : List Id

def mergeReadiness : Readiness :=
  let order := orderByRank (rankImpact work false)
  let candidates := (proposed work).filter (clear n work)
  let find := UnionFind.root ((conflicts n work drift).map fun c => (c.a, c.b))
  { ready := order (readyIdSet n work drift)
    waiting := ((proposed work).filter fun item => !clear n work item).map idOf
    conflicts := conflicts n work drift
    mergeSets :=
      (groupsOf find (conflictedIds n work drift)).map (fun ids => ⟨order ids, .footprintOverlap⟩) ++
        ((groupsOf (resolveRoot n work) (readyIdSet n work drift)).filter fun ids => 2 ≤ ids.length).map fun ids =>
          ⟨order ids, .sharedRoot⟩
    blockedOnSync := order ((candidates.filter (needsSync n work drift)).map idOf)
    strandedByResolvedRoot :=
      order ((candidates.filter fun item => !needsSync n work drift item && stranded n work item).map idOf)
    supersededOut := order ((conflictFree n work drift).filter (superseded n work drift)) }

inductive Bucket
  | waiting
  | blockedOnSync
  | stranded
  | conflicted
  | superseded
  | ready
deriving DecidableEq

def Readiness.bucket (r : Readiness) : Bucket → List Id
  | .waiting => r.waiting
  | .blockedOnSync => r.blockedOnSync
  | .stranded => r.strandedByResolvedRoot
  | .conflicted => (r.mergeSets.filter fun set => set.reason = .footprintOverlap).flatMap MergeSet.items
  | .superseded => r.supersededOut
  | .ready => r.ready

/-! ### The tree -/

/-- The ids that the tree is about; none of them has two statuses. -/
def Readiness.bucketed (r : Readiness) : List Id :=
  [Bucket.waiting, .blockedOnSync, .conflicted, .superseded, .stranded, .ready].flatMap r.bucket

def nodeIds (r : Readiness) : List Id :=
  (r.bucketed ++ r.bucketed.flatMap fun id => ParentForest.ancestors (parentOf n work) work.length [id] id).eraseDups

/-- The ids of `mergeTree`, each in front of what is nested under it. -/
def mergeTree (r : Readiness) : List Id :=
  let order := orderByRank (rankImpact work true)
  let nodes := nodeIds n work r
  (order (ParentForest.tops (parentOf n work) nodes)).flatMap (ParentForest.flat (parentOf n work) nodes order nodes.length)

end

/-! ### What is in which bucket -/

/-- Every item stands under its own id. -/
structure WellKeyed (work : WorkMap) : Prop where
  nodup : (idsOf work).Nodup
  named : ∀ e ∈ work, idOf e.2 = name e.1

section

variable {n : Arithmetic} {work : WorkMap} {drift : Table Json} {ids : List Id} {id : Id}

theorem perm_rankImpact (work : WorkMap) (includeDone : Bool) : (rankImpact work includeDone).Perm
    (idsOf (if includeDone then openWork work ++ work.filter fun e => isResolvedStatus (some e.2) else openWork work)) := by
  have hsorted : ∀ (entries : WorkMap) (row : String × Fields → ImpactRow), (∀ e, (row e).id = e.1) →
      (((entries.map row).insertionSort fun a b => a.precedes b).map ImpactRow.id).Perm (idsOf entries) := by
    intro entries row hrow
    refine ((perm_insertionSort _ _).map _).trans ?_
    rw [List.map_map]
    exact List.Perm.of_eq (map_congr_left fun e _ => hrow e)
  cases includeDone with
  | false =>
    rw [rankImpact, if_neg (by simp), append_nil]
    exact hsorted _ _ fun _ => rfl
  | true =>
    rw [rankImpact, if_pos rfl, if_pos rfl, idsOf, map_append]
    exact (hsorted _ _ fun _ => rfl).append (hsorted _ _ fun _ => rfl)

theorem perm_openWork (work : WorkMap) : (openWork work ++ work.filter fun e => isResolvedStatus (some e.2)).Perm work := by
  have hperm := filter_append_perm (fun e : String × Fields => !isResolvedStatus (some e.2)) work
  simpa [openWork] using hperm

theorem perm_rankImpact_true (work : WorkMap) : (rankImpact work true).Perm (idsOf work) :=
  (perm_rankImpact work true).trans ((perm_openWork work).map _)

theorem mem_rankImpact {id : String} : id ∈ rankImpact work false ↔
    ∃ item, (id, item) ∈ work ∧ isResolvedStatus (some item) = false := by
  rw [(perm_rankImpact work false).mem_iff]
  simp [idsOf, openWork]

theorem nodup_rankImpact (hw : WellKeyed work) : (rankImpact work true).Nodup :=
  (perm_rankImpact_true work).nodup_iff.mpr hw.nodup

variable {item : Fields}

theorem WellKeyed.eq_of_id (hw : WellKeyed work) {id : String} {other : Fields} (h : (id, item) ∈ work)
    (hother : other ∈ proposed work) (hid : idOf other = name id) : other = item := by
  obtain ⟨⟨id', other'⟩, hmem, rfl⟩ := List.mem_map.mp (mem_filter.mp hother).1
  cases (hw.named _ hmem).symm.trans hid
  exact Option.some.inj ((lookup_of_mem hw.nodup hmem).symm.trans (lookup_of_mem hw.nodup h))

theorem mem_orderByRank {rankedIds : List String} :
    id ∈ orderByRank rankedIds ids ↔ id ∈ ids ∧ ∃ s ∈ rankedIds, name s = id := by
  rw [orderByRank, mem_filter, List.mem_map, contains_iff_mem, and_comm]

theorem mem_order (hw : WellKeyed work) {P : Fields → Prop}
    (hids : ∀ id, id ∈ ids ↔ ∃ item ∈ proposed work, idOf item = id ∧ P item) (id : Id) :
    id ∈ orderByRank (rankImpact work false) ids ↔
      ∃ item ∈ proposed work, idOf item = id ∧ P item ∧ isResolvedStatus (some item) = false := by
  rw [mem_orderByRank, hids]
  constructor
  · rintro ⟨⟨item, hitem, hid, hP⟩, s, hs, hname⟩
    obtain ⟨item', hmem, hopen⟩ := mem_rankImpact.mp hs
    rw [← hw.eq_of_id hmem hitem (hid.trans hname.symm)] at hopen
    exact ⟨item, hitem, hid, hP, hopen⟩
  · rintro ⟨item, hitem, hid, hP, hopen⟩
    obtain ⟨⟨s, _⟩, hmem, rfl⟩ := List.mem_map.mp (mem_filter.mp hitem).1
    exact ⟨⟨_, hitem, hid, hP⟩, s, mem_rankImpact.mpr ⟨_, hmem, hopen⟩, (hw.named _ hmem).symm.trans hid⟩

theorem mem_syncClear : item ∈ syncClear n work drift ↔ item ∈ proposed work ∧
    clear n work item = true ∧ needsSync n work drift item = false ∧ stranded n work item = false := by
  simp [syncClear, mem_filter, and_assoc]

theorem mem_conflictedIds :
    id ∈ conflictedIds n work drift ↔ ∃ other, Conflicting n (syncClear n work drift) id other := by
  rw [conflictedIds, mem_eraseDups, mem_flatMap]
  simp only [conflicting_iff]
  constructor
  · rintro ⟨c, hc, hid⟩
    simp only [mem_cons, not_mem_nil, or_false] at hid
    rcases hid with rfl | rfl
    · exact ⟨c.b, c, hc, .inl ⟨rfl, rfl⟩⟩
    · exact ⟨c.a, c, hc, .inr ⟨rfl, rfl⟩⟩
  · rintro ⟨other, c, hc, ⟨rfl, -⟩ | ⟨-, rfl⟩⟩
    · exact ⟨c, hc, mem_cons_self⟩
    · exact ⟨c, hc, mem_cons_of_mem _ mem_cons_self⟩

theorem exists_of_conflicted {id : Id} (h : id ∈ conflictedIds n work drift) :
    ∃ item ∈ syncClear n work drift, idOf item = id := by
  obtain ⟨other, item, _, hsub, -, rfl, -⟩ := mem_conflictedIds.mp h
  rcases hsub with hsub | hsub <;> exact ⟨item, hsub.subset (by simp), rfl⟩

theorem mem_conflictFree : id ∈ conflictFree n work drift ↔
    ∃ item ∈ syncClear n work drift, idOf item = id ∧ id ∉ conflictedIds n work drift := by
  simp [conflictFree]
  grind

def bucketOf (n : Arithmetic) (work : WorkMap) (drift : Table Json) (item : Fields) : Bucket :=
  if !clear n work item then .waiting
  else if needsSync n work drift item then .blockedOnSync
  else if stranded n work item then .stranded
  else if idOf item ∈ conflictedIds n work drift then .conflicted
  else if superseded n work drift (idOf item) then .superseded
  else .ready

theorem mem_groupsOf {keyOf : Id → Id} {group : List Id} : group ∈ groupsOf keyOf ids ↔
    ∃ a ∈ ids, group = ids.filter fun id => keyOf id = keyOf a := by
  simp [groupsOf, eq_comm]

theorem mem_conflicted : id ∈ (mergeReadiness n work drift).bucket .conflicted ↔
    id ∈ orderByRank (rankImpact work false) (conflictedIds n work drift) := by
  simp only [Readiness.bucket, mergeReadiness, filter_append, List.filter_map, Function.comp_def, flatMap_append,
    flatMap_map, mem_append, mem_flatMap, mem_filter, mem_groupsOf, mem_orderByRank]
  grind

/-- **What is in which bucket**: the items that are proposed, each as `bucketOf` says; behind the wait, those that are open. -/
theorem mem_bucket (hw : WellKeyed work) (b : Bucket) (id : Id) : id ∈ (mergeReadiness n work drift).bucket b ↔
    ∃ item ∈ proposed work, idOf item = id ∧ bucketOf n work drift item = b ∧
      (b = .waiting ∨ isResolvedStatus (some item) = false) := by
  have hranked : ∀ b ids, b ≠ .waiting → (∀ id, id ∈ ids ↔ ∃ item ∈ proposed work, idOf item = id ∧
      bucketOf n work drift item = b) → (id ∈ orderByRank (rankImpact work false) ids ↔ ∃ item ∈ proposed work,
        idOf item = id ∧ bucketOf n work drift item = b ∧ (b = .waiting ∨ isResolvedStatus (some item) = false)) := by
    intro b ids hb hids
    simp [mem_order hw hids, hb]
  have hclear : ∀ item, item ∈ syncClear n work drift ↔ item ∈ proposed work ∧ clear n work item = true ∧
      needsSync n work drift item = false ∧ stranded n work item = false := fun _ => mem_syncClear
  have hfree : ∀ id, id ∈ conflictFree n work drift ↔ ∃ item ∈ syncClear n work drift, idOf item = id ∧
      id ∉ conflictedIds n work drift := fun _ => mem_conflictFree
  cases b with
  | waiting =>
    simp only [Readiness.bucket, mergeReadiness, List.mem_map, mem_filter, bucketOf]
    grind
  | conflicted =>
    refine mem_conflicted.trans (hranked _ _ nofun fun id => ?_)
    have hitem := @exists_of_conflicted n work drift id
    simp only [bucketOf]
    grind
  | superseded =>
    refine hranked _ _ nofun fun id => ?_
    rw [mem_filter, hfree]
    simp only [bucketOf]
    grind
  | ready =>
    refine hranked _ _ nofun fun id => ?_
    rw [readyIdSet, mem_filter, hfree]
    simp only [bucketOf]
    grind
  | _ =>
    refine hranked _ _ nofun fun id => ?_
    simp only [List.mem_map, mem_filter, bucketOf]
    grind

/-! ### What is ready, and what belongs together -/

theorem mem_bucket_iff (hw : WellKeyed work) (hitem : item ∈ proposed work) (b : Bucket) :
    idOf item ∈ (mergeReadiness n work drift).bucket b ↔
      bucketOf n work drift item = b ∧ (b = .waiting ∨ isResolvedStatus (some item) = false) := by
  rw [mem_bucket hw]
  constructor
  · rintro ⟨other, hother, hid, hb⟩
    obtain ⟨⟨s, _⟩, hmem, rfl⟩ := List.mem_map.mp (mem_filter.mp hitem).1
    rwa [hw.eq_of_id hmem hother (hid.trans (hw.named _ hmem))] at hb
  · exact fun hb => ⟨item, hitem, rfl, hb⟩

theorem existsUnique_bucket (hw : WellKeyed work) (hitem : item ∈ proposed work)
    (hopen : isResolvedStatus (some item) = false) : ∃! b, idOf item ∈ (mergeReadiness n work drift).bucket b :=
  ⟨_, (mem_bucket_iff hw hitem _).mpr ⟨rfl, .inr hopen⟩, fun _ hb => ((mem_bucket_iff hw hitem _).mp hb).1.symm⟩

theorem ready_iff (hw : WellKeyed work) (hitem : item ∈ proposed work) :
    idOf item ∈ (mergeReadiness n work drift).ready ↔
      (∀ dep ∈ listOf item "deps" ++ listOf item "mergeAfter", isResolvedStatus (itemAt n work (some dep)) = true) ∧
      needsSync n work drift item = false ∧ stranded n work item = false ∧
      (∀ other, ¬ Conflicting n (syncClear n work drift) (idOf item) other) ∧
      superseded n work drift (idOf item) = false ∧ isResolvedStatus (some item) = false := by
  have hclear : clear n work item = true ↔ _ := List.all_eq_true
  refine (mem_bucket_iff hw hitem .ready).trans ?_
  rw [← hclear, ← not_exists, ← mem_conflictedIds]
  unfold bucketOf
  grind

theorem root_eq_iff_conflicts {a b : Id} : UnionFind.root ((conflicts n work drift).map fun c => (c.a, c.b)) a =
    UnionFind.root ((conflicts n work drift).map fun c => (c.a, c.b)) b ↔
      ReflTransGen (Conflicting n (syncClear n work drift)) a b := by
  have hsymm : Std.Symm (Conflicting n (syncClear n work drift)) := ⟨fun _ _ => Conflicting.symm⟩
  have hjoined : ∀ a b, UnionFind.Joined ((conflicts n work drift).map fun c => (c.a, c.b)) a b ↔
      ∃ c ∈ conflicts n work drift, c.a = a ∧ c.b = b := by
    simp [UnionFind.Joined]
  rw [UnionFind.root_eq_iff, ← EqvGen.eqvGen_eq_reflTransGen]
  constructor
  · refine EqvGen.eqvGen_mono (fun a b hab => ?_) a b
    obtain ⟨c, hc, hids⟩ := (hjoined a b).mp hab
    exact conflicting_iff.mpr ⟨c, hc, .inl hids⟩
  · refine EqvGen.eqvGen_le (fun a b hab => ?_) a b
    obtain ⟨c, hc, hids | hids⟩ := conflicting_iff.mp hab
    · exact .rel _ _ ((hjoined a b).mpr ⟨c, hc, hids⟩)
    · exact .symm _ _ (.rel _ _ ((hjoined b a).mpr ⟨c, hc, hids⟩))

theorem mem_mergeSets {set : MergeSet} (h : set ∈ (mergeReadiness n work drift).mergeSets) :
    (set.reason = .footprintOverlap ∧ ∃ a ∈ conflictedIds n work drift, ∀ b, b ∈ set.items ↔
      b ∈ (mergeReadiness n work drift).bucket .conflicted ∧ ReflTransGen (Conflicting n (syncClear n work drift)) a b) ∨
    (set.reason = .sharedRoot ∧ ∃ root, ∀ b, b ∈ set.items ↔
      b ∈ (mergeReadiness n work drift).ready ∧ resolveRoot n work b = root) := by
  rcases mem_append.mp h with h | h
  · obtain ⟨ids, hids, rfl⟩ := List.mem_map.mp h
    obtain ⟨a, ha, rfl⟩ := mem_groupsOf.mp hids
    refine .inl ⟨rfl, a, ha, fun b => ?_⟩
    rw [mem_conflicted, mem_orderByRank, mem_orderByRank, ← root_eq_iff_conflicts]
    grind
  · obtain ⟨ids, hids, rfl⟩ := List.mem_map.mp h
    obtain ⟨a, -, rfl⟩ := mem_groupsOf.mp (mem_filter.mp hids).1
    refine .inr ⟨rfl, resolveRoot n work a, fun b => ?_⟩
    show _ ↔ b ∈ orderByRank _ _ ∧ _
    rw [mem_orderByRank, mem_orderByRank]
    grind

/-! ### What the tree shows -/

theorem nodup_mergeTree (hw : WellKeyed work) (r : Readiness) : (mergeTree n work r).Nodup :=
  ParentForest.nodup_flat (fun _ _ hb => (mem_orderByRank.mp hb).1)
    (fun _ => ((nodup_rankImpact hw).map fun _ _ h => by cases h; rfl).filter _) _

/-- The parents that are found are items. -/
def ParentsNamed (n : Arithmetic) (work : WorkMap) : Prop :=
  ∀ id ∈ (idsOf work).map name, ∀ p, parentOf n work id = some p → p ∈ (idsOf work).map name

/-- The way up from an item ends. -/
def Ends (n : Arithmetic) (work : WorkMap) (id : Id) : Prop :=
  ∃ k, ParentForest.Level (parentOf n work) (· ∈ (idsOf work).map name) k id

theorem mem_mergeTree {r : Readiness} (hids : ∀ id ∈ r.bucketed, id ∈ (idsOf work).map name)
    (hparents : ParentsNamed n work) (hid : id ∈ r.bucketed) (hends : Ends n work id) : id ∈ mergeTree n work r := by
  obtain ⟨k, hlevel⟩ := hends
  have hlt : k < work.length := by simpa [idsOf] using hlevel.lt_length
  have hmem : ∀ b ∈ id :: ParentForest.ancestors (parentOf n work) work.length [id] id, b ∈ nodeIds n work r := by
    intro b hb
    rw [nodeIds, mem_eraseDups]
    rcases mem_cons.mp hb with rfl | hb
    · exact mem_append_left _ hid
    · exact mem_append_right _ (mem_flatMap.mpr ⟨id, hid, hb⟩)
  have hfound := fun b hb p hp => mem_cons_of_mem id (ParentForest.ancestors_closed (b := b) (p := p) hparents hlevel
    hlt.le (fun c hc i hi => Nat.le_of_eq (hlevel.unique (by rwa [mem_singleton.mp hc] at hi))) hb hp)
  have hamong := hlevel.among hparents mem_cons_self hfound hmem
  refine ParentForest.mem_flat (fun l b hb hnode => mem_orderByRank.mpr ⟨hb, ?_⟩) hamong hamong.lt_length.le
  have hb : b ∈ (idsOf work).map name := by
    rw [nodeIds, mem_eraseDups] at hnode
    rcases mem_append.mp hnode with hnode | hnode
    · exact hids b hnode
    · obtain ⟨a, ha, hb⟩ := mem_flatMap.mp hnode
      exact ParentForest.ancestors_inside hparents (hids a ha) hb
  obtain ⟨s, hs, rfl⟩ := List.mem_map.mp hb
  exact ⟨s, (perm_rankImpact_true work).mem_iff.mpr hs, rfl⟩

end

/-! ### A parent, its child, and what replaces the child -/

namespace Sample

def plain : Arithmetic := { decimal := fun _ => "", plusOne := fun v => v, atLeast := fun _ _ => false }

def item (id status : String) (more : List (String × Option Json)) : String × Fields :=
  (id, record ([("id", some (.str id)), ("status", some (.str status))] ++ more))

def work : WorkMap := [item "root" "doing" [], item "leaf" "awaiting-approval" [("parent", name "root")],
  item "old" "awaiting-approval" [("parent", name "root"), ("supersededBy", name "new")], item "new" "done" []]

theorem wellKeyed_work : WellKeyed work := ⟨by decide, by decide⟩

end Sample

end Forgent.MergeOrder
