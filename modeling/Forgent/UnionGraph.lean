import Forgent.StoreItems

/-!
# The union graph stays acyclic

Every write that declares edges is checked by one walk from the item that it changes.  A run starts without
edges, and a change keeps the edges between the other items, so the walk from the changed item finds every
cycle there can be; edges to items that are not there yet are edges of the graph already.
-/

namespace Forgent

open Json Option

namespace Store

open DepGraph FiniteGraph Relation

variable {σ : Linked} {b b' : Board} {id : String} {workMap : WorkMap} {candidate : Fields}

/-- The members of an item that declare its edges. -/
def graphFields : List String := ["deps", "parent", "mergeAfter"]

theorem edgesOf_congr {item item' : Fields} (h : ∀ k ∈ graphFields, item[k]? = item'[k]?) :
    edgesOf (id, item) = edgesOf (id, item') := by
  have hdeps := h "deps" (by decide)
  have hparent := h "parent" (by decide)
  have hmerge := h "mergeAfter" (by decide)
  simp only [edgesOf, listOf, hdeps, hparent, hmerge]

theorem Kept.mem_workMap (hb : Kept σ b) {item : Fields} : (id, item) ∈ b.workMap ↔ b.view.work[id]? = some item := by
  rw [Board.workMap, List.mem_filterMap]
  constructor
  · rintro ⟨id', _, h⟩
    obtain ⟨item', hitem, h⟩ := map_eq_some_iff.mp h
    cases h
    exact hitem
  · intro h
    refine ⟨id, (hb.declared id).mpr ?_, ?_⟩
    · rw [h]
      rfl
    · rw [h]
      rfl

theorem Kept.waits_subset (hb : Kept σ b') (h : ∀ (id : String) (item : Fields), b'.view.work[id]? = some item →
      ∃ old, (id, old) ∈ workMap ∧ ∀ k ∈ graphFields, item[k]? = old[k]?) {x y : Json} :
    DepGraph.Waits b'.workMap x y → DepGraph.Waits workMap x y := by
  rintro ⟨⟨id, item⟩, hmem, hedge⟩
  obtain ⟨old, hold, hsame⟩ := h id item (hb.mem_workMap.mp hmem)
  exact ⟨(id, old), hold, edgesOf_congr hsame ▸ hedge⟩

theorem mem_merged_of_id (hb : Kept σ b) {id' : String} {item : Fields}
    (hid : candidate["id"]? = some (.str id)) (hne : id ≠ id') (hitem : b.view.work[id']? = some item) :
    (id', item) ∈ merged σ.toStoreHost candidate b.workMap := by
  refine mem_merged.mpr (.inr ⟨hb.mem_workMap.mpr hitem, ?_⟩)
  rw [hid]
  exact hne.symm

theorem mem_merged_self (hid : candidate["id"]? = some (.str id)) :
    (id, candidate) ∈ merged σ.toStoreHost candidate b.workMap := by
  refine mem_merged.mpr (.inl ?_)
  rw [hid]
  rfl

theorem exists_same {item : Fields} {old : Option Fields}
    (hmem : ∀ i, old = some i → (id, i) ∈ workMap) (hsome : (some item).isSome = old.isSome)
    (hfields : ∀ k ∈ graphFields, fieldOf (some item) k = fieldOf old k) :
    ∃ i, (id, i) ∈ workMap ∧ ∀ k ∈ graphFields, item[k]? = i[k]? := by
  obtain ⟨i, rfl⟩ := isSome_iff_exists.mp hsome.symm
  exact ⟨i, hmem i rfl, hfields⟩

theorem graphFields_other {k : String} (hk : k ∈ graphFields) :
    k ∉ otherFields ∧ k ∉ written "work.move" ∧ "holder" ≠ k ∧ k ∉ addedFields ∧
      k ∉ storeFields ∧ "rigor" ≠ k ∧ "writer" ≠ k := by
  revert k
  decide

theorem acyclic_of_add {env : Env} {work : Fields} {draft : Draft} (hb : Kept σ b)
    (hacyc : Acyclic (DepGraph.Waits b.workMap)) (h : Transaction σ b [draft] b')
    (hadd : addWork σ b env work = .ok draft) : Acyclic (DepGraph.Waits b'.workMap) := by
  obtain ⟨id, hid, _, _, hwork⟩ := hb.added h hadd
  obtain ⟨_, _, _, hgraph⟩ := addWork_eq_ok hadd
  have hcandidate : ∀ k, k ∉ storeFields → (stampedWork σ work)[k]? = work[k]? := by
    intro k hk
    have hne : ∀ s ∈ storeFields, s ≠ k := fun s hs heq => hk (heq ▸ hs)
    rw [stampedWork, getElem?_stampStatus (hne _ (by decide)) (hne _ (by decide)),
      getElem?_normalizedWork (hne _ (by decide)) (hne _ (by decide))]
  have hidc : (stampedWork σ work)["id"]? = some (.str id) := (hcandidate "id" (by decide)).trans hid
  refine (acyclic_merged hacyc hgraph).mono fun x y => (h.kept hb).waits_subset fun id' item hitem => ?_
  rw [hwork] at hitem
  split at hitem
  · rename_i heq
    cases hitem
    refine ⟨stampedWork σ work, heq ▸ mem_merged_self hidc, fun k hk => ?_⟩
    obtain ⟨_, _, _, hadded, hstamped, _, _⟩ := graphFields_other hk
    rw [addedItem_of_addWork hadd hadded hstamped, hcandidate k hstamped]
  · rename_i hne
    exact ⟨item, mem_merged_of_id hb hidc hne hitem, fun _ _ => rfl⟩

/-- So does a batch with an edit that the store accepts. -/
theorem acyclic_of_edit {env : Env} {role : Option Json} {work patch payload : Fields}
    {plain moved handed : List Draft} (hb : Kept σ b) (hacyc : Acyclic (DepGraph.Waits b.workMap))
    (h : Transaction σ b ([⟨"work.edit", payload⟩] ++ plain ++ moved ++ handed) b')
    (hbatch : Batch σ b [⟨"work.edit", payload⟩] plain moved handed)
    (hpatched : Patched σ b env id role work patch payload) : Acyclic (DepGraph.Waits b'.workMap) := by
  have hid : (work.assign patch)["id"]? = some (.str id) := by
    rw [Fields.getElem?_assign, hpatched.editable "id" (by decide), none_or, hb.filed id work hpatched.found]
  have hkeep : ∀ k ∈ graphFields, ∀ id', fieldOf b'.view.work[id']? k =
      (if id = id' then (work.assign patch)[k]? else fieldOf b.view.work[id']? k) ∧
      (b'.view.work[id']?).isSome = (b.view.work[id']?).isSome := by
    intro k hk
    obtain ⟨hother, hmove, hholder, _, _, hrigor, hwriter⟩ := graphFields_other hk
    exact hb.edited h hbatch hpatched hmove hother hholder hrigor hwriter
  refine (acyclic_merged hacyc hpatched.acyclic).mono fun x y => (h.kept hb).waits_subset fun id' item' hitem' => ?_
  by_cases hsame : id = id'
  · -- the item that is edited
    subst hsame
    refine ⟨work.assign patch, mem_merged_self hid, fun k hk => ?_⟩
    have hfield := (hkeep k hk id).1
    rw [hitem', if_pos rfl] at hfield
    exact hfield
  · -- another item
    have hother : ∀ k ∈ graphFields, fieldOf (some item') k = fieldOf b.view.work[id']? k ∧
        (some item').isSome = (b.view.work[id']?).isSome := by
      intro k hk
      have hfield := hkeep k hk id'
      rw [hitem', if_neg hsame] at hfield
      exact hfield
    exact exists_same (fun i hi => mem_merged_of_id hb hid hsame hi) (hother "deps" (by decide)).2
      fun k hk => (hother k hk).1

/-- **No transaction closes a cycle.** -/
theorem Transaction.acyclic {drafts : List Draft} (hb : Kept σ b) (hacyc : Acyclic (DepGraph.Waits b.workMap))
    (h : Transaction σ b drafts b') : Acyclic (DepGraph.Waits b'.workMap) := by
  rcases h.batch with ⟨env, work, draft, rfl, hadd⟩ | ⟨edited, plain, moved, handed, rfl, hbatch⟩
  · exact acyclic_of_add hb hacyc h hadd
  · rcases hbatch.edited with rfl | ⟨env, id, role, work, patch, payload, rfl, hpatched⟩
    · refine hacyc.mono fun x y => (h.kept hb).waits_subset fun id item hitem => ?_
      have hkeep : ∀ k ∈ graphFields, fieldOf (some item) k = fieldOf b.view.work[id]? k ∧
          (some item).isSome = (b.view.work[id]?).isSome := by
        intro k hk
        obtain ⟨hother, hmove, hholder, _⟩ := graphFields_other hk
        rw [← hitem]
        exact hb.leaves h (hbatch.leaves (.inl rfl) (.inr hmove) hother (.inr hholder)) id
      exact exists_same (fun i hi => hb.mem_workMap.mpr hi) (hkeep "deps" (by decide)).2 fun k hk => (hkeep k hk).1
    · exact acyclic_of_edit hb hacyc h hbatch hpatched

theorem Run.acyclic {log : List Draft} (h : Run σ log b) : Acyclic (DepGraph.Waits b.workMap) := by
  induction h with
  | start =>
    intro x hcycle
    obtain ⟨y, hxy, _⟩ := TransGen.head'_iff.mp hcycle
    obtain ⟨e, he, _⟩ := hxy
    cases he
  | step hrun hstep ih => exact hstep.acyclic hrun.kept ih

/-- The walk from a changed item finds every cycle of the changed graph, where the old one has none. -/
theorem assertNoUnifiedCycle_iff (hacyc : Acyclic (DepGraph.Waits workMap)) :
    assertNoUnifiedCycle σ.toStoreHost candidate workMap = .ok () ↔
      Acyclic (DepGraph.Waits (merged σ.toStoreHost candidate workMap)) :=
  ⟨acyclic_merged hacyc, fun h => assertNoUnifiedCycle_eq_ok.mpr fun node _ => h node⟩

/-- **The union graph stays acyclic.**  On every board that a run reaches, no item waits for itself through
dependencies, merge orders and children, items that are not there yet included; and for every change of an
item the one walk from it finds a cycle exactly when the change closes one. -/
theorem union_graph_acyclic {log : List Draft} (h : Run σ log b) : Acyclic (DepGraph.Waits b.workMap) ∧ ∀ candidate,
      (assertNoUnifiedCycle σ.toStoreHost candidate b.workMap = .ok () ↔
        Acyclic (DepGraph.Waits (merged σ.toStoreHost candidate b.workMap))) :=
  ⟨h.acyclic, fun _ => assertNoUnifiedCycle_iff h.acyclic⟩

/-! A child is added before the parent that it names. -/

namespace Sample

def child : Fields := item "child" "todo" [("parent", some (.str "parent"))]

def parent : Fields := item "parent" "todo" []

def childAlone : Board := added emptyBoard child

def family : Board := added childAlone parent

theorem run_family : ∃ log, Run linked log family := by
  have hchild : Run linked _ (added emptyBoard child) := run_added .start (by decide) (by decide)
  have hparent : Run linked _ (added childAlone parent) := run_added hchild (by decide) (by decide)
  exact ⟨_, hparent⟩

end Sample

theorem union_graph_acyclic_family : Sample.family.ids = ["child", "parent"] ∧
    Acyclic (DepGraph.Waits Sample.family.workMap) := by
  obtain ⟨log, hrun⟩ := Sample.run_family
  exact ⟨by decide, (union_graph_acyclic hrun).1⟩

end Store

end Forgent
