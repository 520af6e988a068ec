import Forgent.Frontier
import Forgent.StoreItems

/-!
# The ready frontier of a run

On every board that a run reaches the dependencies of the items are lists and their keys are integers, since
every write is checked.  Two things are not checked: the category that a new item declares, and the parent
that an item names.  Where these are in order (`Clean`), the frontier is exact, and what it returns has the
status `todo`.
-/

namespace Forgent

open Json List Option

namespace Store

open Frontier StatusFsm WorkItem

variable {σ : Linked} {b b' : Board} {domain : Option Json} {id : String} {work : Fields}

/-! ### What the domains label -/

/-- The labels of the domain `coding`. -/
def codingLabels : Table String :=
  Std.ExtTreeMap.ofList [("backlog", "backlog"), ("todo", "todo"), ("doing", "in-progress"), ("blocked", "in-progress"),
    ("awaiting-human", "in-progress"), ("awaiting-approval", "review"), ("wontfix", "canceled")]

/-- The labels of the domain `fixture-marketing`. -/
def fixtureMarketingLabels : Table String :=
  Std.ExtTreeMap.ofList [("todo", "todo"), ("doing", "in-progress"), ("blocked", "canceled"),
    ("awaiting-human", "in-progress"), ("awaiting-approval", "review"), ("wontfix", "canceled")]

/-- The domains are those of the registry; the others declare no labels. -/
def Registered (σ : Linked) : Prop :=
  ∀ (name : String) (policy : Policy), σ.policies[name]? = some policy →
    policy.statusLabels = codingLabels ∨ policy.statusLabels = fixtureMarketingLabels ∨ policy.statusLabels = ∅

/-- The domain has the label `todo`. -/
def LabelsTodo (σ : Linked) (domain : Option Json) : Prop :=
  StoreHost.statusCategoryFor (σ.policy domain) "todo" = some "todo"

theorem Registered.cases {status label : String} (h : Registered σ)
    (hlabel : StoreHost.statusCategoryFor (σ.policy domain) status = some label) :
    ∃ labels, (labels = codingLabels ∨ labels = fixtureMarketingLabels) ∧ labels[status]? = some label ∧
      ∀ s, StoreHost.statusCategoryFor (σ.policy domain) s = labels[s]? := by
  obtain ⟨policy, hpolicy, hstatus⟩ := bind_eq_some_iff.mp hlabel
  have hall : ∀ s, StoreHost.statusCategoryFor (σ.policy domain) s = policy.statusLabels[s]? := by
    intro s
    rw [hpolicy]
    rfl
  rcases h _ policy hpolicy with hcoding | hmarketing | hnone
  · exact ⟨_, .inl hcoding, hstatus, hall⟩
  · exact ⟨_, .inr hmarketing, hstatus, hall⟩
  · rw [hnone] at hstatus
    simp at hstatus

theorem Registered.status_eq {status : String} (h : Registered σ)
    (hlabel : StoreHost.statusCategoryFor (σ.policy domain) status = some "todo") : status = "todo" := by
  obtain ⟨labels, hlabels, hstatus, _⟩ := h.cases hlabel
  have hmem := Std.ExtTreeMap.mem_toList_iff_getElem?_eq_some.mpr hstatus
  have hcoding : ∀ e ∈ codingLabels.toList, e.2 = "todo" → e.1 = "todo" := by decide
  have hmarketing : ∀ e ∈ fixtureMarketingLabels.toList, e.2 = "todo" → e.1 = "todo" := by decide
  rcases hlabels with rfl | rfl
  · exact hcoding _ hmem rfl
  · exact hmarketing _ hmem rfl

theorem Registered.isSome_of_edge {dst : String} (h : Registered σ) (hlabel : LabelsTodo σ domain)
    (hedge : ("todo", dst) ∈ transitions) : (StoreHost.statusCategoryFor (σ.policy domain) dst).isSome = true := by
  obtain ⟨labels, hlabels, _, hall⟩ := h.cases hlabel
  have hcoding : ∀ e ∈ transitions, e.1 = "todo" → codingLabels[e.2]?.isSome = true := by decide
  have hmarketing : ∀ e ∈ transitions, e.1 = "todo" → fixtureMarketingLabels[e.2]?.isSome = true := by decide
  rw [hall]
  rcases hlabels with rfl | rfl
  · exact hcoding ("todo", dst) hedge rfl
  · exact hmarketing ("todo", dst) hedge rfl

/-! ### Items that are in order -/

/-- The category `todo` stands for the status `todo`, in a domain that has the label. -/
def Categorised (σ : Linked) (item : Fields) : Prop :=
  item["statusCategory"]? = some (.str "todo") → item["status"]? = some (.str "todo") ∧ LabelsTodo σ item["domain"]?

instance (σ : Linked) (item : Fields) : Decidable (Categorised σ item) :=
  inferInstanceAs (Decidable (_ → _ ∧ StoreHost.statusCategoryFor _ _ = _))

/-- No member that every object has is named as the parent. -/
def ParentNamed (σ : Linked) (item : Fields) : Prop := ∀ parent ∈ parentOf σ.toHost item, parent ∉ objectPrototype

instance (σ : Linked) (item : Fields) : Decidable (ParentNamed σ item) :=
  inferInstanceAs (Decidable (∀ parent ∈ parentOf σ.toHost item, _))

/-- An addition whose category and parent are in order, an edit whose parent is, or any other event. -/
structure Clean (σ : Linked) (d : Draft) : Prop where
  category : d.eventType = "work.add" → Categorised σ d.payload
  parent : d.eventType = "work.add" → ParentNamed σ d.payload
  patch : d.eventType = "work.edit" → ParentNamed σ (spread d.payload["patch"]?)

instance (σ : Linked) (d : Draft) : Decidable (Clean σ d) :=
  decidable_of_iff ((d.eventType = "work.add" → Categorised σ d.payload) ∧
    (d.eventType = "work.add" → ParentNamed σ d.payload) ∧
    (d.eventType = "work.edit" → ParentNamed σ (spread d.payload["patch"]?)))
    ⟨fun h => ⟨h.1, h.2.1, h.2.2⟩, fun h => ⟨h.category, h.parent, h.patch⟩⟩

structure Tidy (σ : Linked) (item : Fields) : Prop where
  readable : Readable σ.toHost item
  categorised : Categorised σ item

def AllTidy (σ : Linked) (b : Board) : Prop := ∀ (id : String) (item : Fields), b.view.work[id]? = some item → Tidy σ item

/-- The members that the frontier reads beside the status. -/
def readFields : List String := ["deps", "priority", "intent", "parent"]

theorem parentOf_congr (host : Host) {item item' : Fields} (h : item'["parent"]? = item["parent"]?) :
    parentOf host item' = parentOf host item := by
  unfold parentOf
  rw [h]

theorem readable_congr {host : Host} {item item' : Fields} (h : ∀ k ∈ readFields, item'[k]? = item[k]?)
    (hitem : Readable host item) : Readable host item' where
  deps := h "deps" (by decide) ▸ hitem.deps
  priority := h "priority" (by decide) ▸ hitem.priority
  intent := h "intent" (by decide) ▸ hitem.intent
  parent := parentOf_congr host (h "parent" (by decide)) ▸ hitem.parent

theorem Patched.readable {env : Env} {role : Option Json} {patch payload : Fields}
    (h : Patched σ b env id role work patch payload) (hwork : Readable σ.toHost work) (hclean : ParentNamed σ patch) :
    Readable σ.toHost (work.assign patch) := by
  obtain ⟨touchedFields, hpatch, hsortable⟩ := h.sortable
  -- a member that the patch does not name was checked before
  have hsame : ∀ k, ¬ touched (some touchedFields) k = true → (work.assign patch)[k]? = work[k]? := by
    intro k hk
    rw [Fields.getElem?_assign, hpatch k fun hmem => hk (contains_iff_mem.mpr hmem), none_or]
  refine ⟨?_, ?_, ?_, ?_⟩
  · by_cases ht : touched (some touchedFields) "deps" = true
    · exact hsortable.deps ht
    · exact hsame _ ht ▸ hwork.deps
  · by_cases ht : touched (some touchedFields) "priority" = true
    · exact hsortable.priority ht
    · exact hsame _ ht ▸ hwork.priority
  · by_cases ht : touched (some touchedFields) "intent" = true
    · exact hsortable.intent ht
    · exact hsame _ ht ▸ hwork.intent
  · cases hparent : patch["parent"]? with
    | none =>
      have hold : (work.assign patch)["parent"]? = work["parent"]? := by
        rw [Fields.getElem?_assign, hparent, none_or]
      exact parentOf_congr σ.toHost hold ▸ hwork.parent
    | some parent =>
      have hnew : (work.assign patch)["parent"]? = patch["parent"]? := by
        rw [Fields.getElem?_assign, hparent, some_or]
      exact parentOf_congr σ.toHost hnew ▸ hclean

/-! ### One transaction -/

theorem tidy_of_add {env : Env} {draft : Draft} (hb : Kept σ b) (htidy : AllTidy σ b)
    (h : Transaction σ b [draft] b') (hadd : addWork σ b env work = .ok draft) (hclean : Clean σ draft) :
    AllTidy σ b' := by
  obtain ⟨id, _, _, _, hwork⟩ := hb.added h hadd
  obtain ⟨_, hshape, _, _⟩ := addWork_eq_ok hadd
  obtain ⟨htier, hstage⟩ := addWork_tier_stage hadd
  have hadded := addWork_eventType hadd
  intro id' item hitem
  rw [hwork] at hitem
  split at hitem
  · cases hitem
    have hpayload : ∀ k, k ∉ addedFields → (addedItem σ.toHost (some draft.payload.toJson))[k]? = draft.payload[k]? :=
      fun k hk => addedItem_get htier hstage hk
    have hgiven : ∀ k, k ∉ addedFields → k ∉ storeFields →
        (addedItem σ.toHost (some draft.payload.toJson))[k]? = work[k]? :=
      fun k hk hstore => addedItem_of_addWork hadd hk hstore
    refine ⟨⟨?_, ?_, ?_, ?_⟩, fun hcategory => ?_⟩
    · exact hgiven "deps" (by decide) (by decide) ▸ hshape.sortable.deps rfl
    · exact hgiven "priority" (by decide) (by decide) ▸ hshape.sortable.priority rfl
    · exact hgiven "intent" (by decide) (by decide) ▸ hshape.sortable.intent rfl
    · exact parentOf_congr σ.toHost (hpayload "parent" (by decide)) ▸ hclean.parent hadded
    · rw [hpayload _ (by decide)] at hcategory
      rw [hpayload _ (by decide), hpayload _ (by decide)]
      exact hclean.category hadded hcategory
  · exact htidy id' item hitem

/-- The members of an item behind a batch are those of an item that can be read. -/
theorem readable_of_batch {edited plain moved handed : List Draft} (hb : Kept σ b) (htidy : AllTidy σ b)
    (h : Transaction σ b (edited ++ plain ++ moved ++ handed) b') (hbatch : Batch σ b edited plain moved handed)
    (hclean : ∀ d ∈ edited, Clean σ d) {item : Fields} (hitem : b'.view.work[id]? = some item) :
    Readable σ.toHost item := by
  have hother : ∀ {k}, k ∈ readFields → k ∉ otherFields ∧ k ∉ written "work.move" ∧ "holder" ≠ k ∧ "rigor" ≠ k ∧
      "writer" ≠ k := by
    intro k hk
    revert k
    decide
  -- the item it was before, with the same members
  have hold : (∀ k ∈ readFields, fieldOf b'.view.work[id]? k = fieldOf b.view.work[id]? k ∧
      (b'.view.work[id]?).isSome = (b.view.work[id]?).isSome) → Readable σ.toHost item := by
    intro hsame
    rw [hitem] at hsame
    obtain ⟨old, hold⟩ := isSome_iff_exists.mp (hsame "deps" (by decide)).2.symm
    refine readable_congr (fun k hk => ?_) (htidy id old hold).readable
    have hfield := (hsame k hk).1
    rw [hold] at hfield
    exact hfield
  rcases hbatch.edited with rfl | ⟨env, id', role, work, patch, payload, rfl, hpatched⟩
  · refine hold fun k hk => ?_
    obtain ⟨hk, hmove, hholder, _⟩ := hother hk
    exact hb.leaves h (hbatch.leaves (.inl rfl) (.inr hmove) hk (.inr hholder)) id
  · have hkeep := fun k (hk : k ∈ readFields) =>
      hb.edited h hbatch hpatched (hother hk).2.1 (hother hk).1 (hother hk).2.2.1 (hother hk).2.2.2.1 (hother hk).2.2.2.2 id
    by_cases hsame : id' = id
    · have hparent : ParentNamed σ patch := by
        have hpatch := (hclean _ (mem_singleton_self _)).patch rfl
        rw [hpatched.payloadPatch, spread_toJson] at hpatch
        exact hpatch
      refine readable_congr (fun k hk => ?_) (hpatched.readable (htidy id' work hpatched.found).readable hparent)
      have hfield := (hkeep k hk).1
      rw [if_pos hsame, hitem] at hfield
      exact hfield
    · refine hold fun k hk => ?_
      have hfield := hkeep k hk
      rw [if_neg hsame] at hfield
      exact hfield

section

variable (hregistered : Registered σ)

include hregistered

theorem categorised_of_move {src dst : String} {payload item : Fields}
    (hmoved : Moved σ b id src dst work payload) (hwork : Categorised σ work)
    (hstatus : item["status"]? = some (.str dst))
    (hcategory : item["statusCategory"]? = payload["statusCategory"]?.or work["statusCategory"]?)
    (hdomain : item["domain"]? = work["domain"]?) : Categorised σ item := by
  intro htodo
  obtain ⟨decided, hdecided, _⟩ := hmoved.transition
  rw [hcategory, hmoved.statusCategory] at htodo
  cases hlabel : StoreHost.statusCategoryFor (σ.policy work["domain"]?) dst with
  | some label =>
    rw [hlabel] at htodo
    cases htodo
    have hdst := hregistered.status_eq hlabel
    subst hdst
    exact ⟨hstatus, hdomain ▸ hlabel⟩
  | none =>
    rw [hlabel] at htodo
    obtain ⟨hsrc, hlabels⟩ := hwork htodo
    have hedge := hdecided.edge
    rw [hdecided.status] at hsrc
    cases hsrc
    have hsome := hregistered.isSome_of_edge hlabels hedge
    rw [hlabel] at hsome
    cases hsome

theorem categorised_of_batch {edited plain moved handed : List Draft} (hb : Kept σ b)
    (htidy : AllTidy σ b) (h : Transaction σ b (edited ++ plain ++ moved ++ handed) b')
    (hbatch : Batch σ b edited plain moved handed) {item : Fields} (hitem : b'.view.work[id]? = some item) :
    Categorised σ item := by
  have hkept : ∀ old : Fields, b.view.work[id]? = some old → (∀ k ∈ ["status", "statusCategory", "domain"],
      item[k]? = old[k]?) → Categorised σ item := by
    intro old hold hsame htodo
    rw [hsame "statusCategory" (by decide)] at htodo
    rw [hsame "status" (by decide), hsame "domain" (by decide)]
    exact (htidy id old hold).categorised htodo
  have hquiet : ∀ {k}, k ∈ ["status", "statusCategory", "domain"] → k ∉ editableFields ∧ "writer" ≠ k ∧
      k ∉ otherFields ∧ "holder" ≠ k := by
    intro k hk
    revert k
    decide
  rcases hbatch.moved with rfl | ⟨id', src, dst, work, payload, rfl, hmoved⟩
  · have hsame := fun k (hk : k ∈ ["status", "statusCategory", "domain"]) =>
      hb.leaves h (hbatch.leaves (.inr ⟨(hquiet hk).1, (hquiet hk).2.1⟩) (.inl rfl) (hquiet hk).2.2.1
        (.inr (hquiet hk).2.2.2)) id
    rw [hitem] at hsame
    obtain ⟨old, hold⟩ := isSome_iff_exists.mp (hsame "status" (by decide)).2.symm
    refine hkept old hold fun k hk => ?_
    have hfield := (hsame k hk).1
    rw [hold] at hfield
    exact hfield
  · have hstep := fun k (hk : k ∈ ["status", "statusCategory", "domain"]) =>
      hb.moved h hbatch hmoved (hquiet hk).1 (hquiet hk).2.1 (hquiet hk).2.2.1 (hquiet hk).2.2.2 id
    rw [hitem] at hstep
    obtain ⟨old, hold⟩ := isSome_iff_exists.mp (hstep "status" (by decide)).1.symm
    rw [hold] at hstep
    by_cases hsame : id' = id
    · -- the item that moves
      have hwork : work = old := by
        have hfiled := hmoved.filed hb
        rw [hsame, hold] at hfiled
        exact (some.inj hfiled).symm
      subst hwork
      have hget : ∀ k ∈ ["status", "statusCategory", "domain"], ∃ before : Fields, before[k]? = work[k]? ∧
          item[k]? = (moveItem (some payload.toJson) before)[k]? := by
        intro k hk
        obtain ⟨_, before, hbefore, hsome, hfield⟩ := hstep k hk
        obtain ⟨found, rfl⟩ := isSome_iff_exists.mp hsome
        rw [if_pos hsame] at hfield
        exact ⟨found, hbefore, hfield⟩
      obtain ⟨_, _, hstatus⟩ := hget "status" (by decide)
      obtain ⟨_, hbefore, hcategory⟩ := hget "statusCategory" (by decide)
      obtain ⟨_, hbefore', hdomain⟩ := hget "domain" (by decide)
      refine categorised_of_move hregistered hmoved (htidy id work hold).categorised ?_ ?_ ?_
      · rw [hstatus, moveItem_status, member_toJson]
        exact hmoved.payloadTo
      · rw [hcategory, moveItem_statusCategory, member_toJson, hbefore]
      · rw [hdomain, moveItem_unwritten (by decide), hbefore']
    · refine hkept old hold fun k hk => ?_
      obtain ⟨_, _, _, _, hfield⟩ := hstep k hk
      rw [if_neg hsame] at hfield
      exact hfield

/-- **A transaction whose events are in order leaves the items in order.** -/
theorem Transaction.tidy {drafts : List Draft} (hb : Kept σ b) (htidy : AllTidy σ b)
    (h : Transaction σ b drafts b') (hclean : ∀ d ∈ drafts, Clean σ d) : AllTidy σ b' := by
  rcases h.batch with ⟨env, work, draft, rfl, hadd⟩ | ⟨edited, plain, moved, handed, rfl, hbatch⟩
  · exact tidy_of_add hb htidy h hadd (hclean draft (mem_singleton_self draft))
  · have hedited : ∀ d ∈ edited, Clean σ d := fun d hd => hclean d (by simp [hd])
    exact fun id item hitem => ⟨readable_of_batch hb htidy h hbatch hedited hitem,
      categorised_of_batch hregistered hb htidy h hbatch hitem⟩

theorem Run.tidy {log : List Draft} (h : Run σ log b) (hclean : ∀ d ∈ log, Clean σ d) : AllTidy σ b := by
  induction h with
  | start =>
    intro id item hitem
    have hnone : emptyBoard.view.work[id]? = none := by simp [emptyBoard, View.empty]
    rw [hnone] at hitem
    cases hitem
  | step hrun hstep ih =>
    obtain ⟨hlog, hdrafts⟩ := forall_mem_append.mp hclean
    exact hstep.tidy hregistered hrun.kept (ih hlog) hdrafts

end

/-! ### The claims over the items -/

/-- The members that a claim lays over an item. -/
def overlaidFields : List String :=
  ["status", "statusCategory", "claimRole", "activeClaim", "headAtTake", "branchHeadAtTake", "claimTrigger",
    "staleClaim"]

theorem effectiveItem_get {claims : Table Fields} {item : Fields} {k : String} (hk : k ∉ overlaidFields) :
    (effectiveItem claims id item)[k]? = item[k]? := by
  have hne : ∀ s ∈ overlaidFields, s ≠ k := fun s hs heq => hk (heq ▸ hs)
  unfold effectiveItem
  split
  · rfl
  · split
    · rw [Fields.getElem?_insert', if_neg (hne _ (by decide))]
    · simp only [foldl_cons, foldl_nil, Fields.getElem?_set, Fields.getElem?_insert', hne "claimTrigger" (by decide),
        hne "branchHeadAtTake" (by decide), hne "headAtTake" (by decide), hne "activeClaim" (by decide),
        hne "claimRole" (by decide), hne "statusCategory" (by decide), hne "status" (by decide), if_false]

theorem effectiveItem_status (claims : Table Fields) (id : String) (item : Fields) :
    (∀ k ∈ ["status", "statusCategory"], (effectiveItem claims id item)[k]? = item[k]?) ∨
      (effectiveItem claims id item)["statusCategory"]? = some (.str "in-progress") := by
  unfold effectiveItem
  split
  · exact .inl fun k _ => rfl
  · split
    · refine .inl fun k hk => ?_
      have hne : "staleClaim" ≠ k := by
        rintro rfl
        revert hk
        decide
      rw [Fields.getElem?_insert', if_neg hne]
    · refine .inr ?_
      simp only [foldl_cons, foldl_nil, Fields.getElem?_set, Fields.getElem?_insert', String.reduceEq, if_false,
        if_true]

/-- What the items look like under any claims. -/
def overlaid (b : Board) (claims : Table Fields) : WorkMap := effectiveWork { b with claims := claims }

theorem mem_overlaid {claims : Table Fields} {item : Fields} (h : (id, item) ∈ overlaid b claims) : ∃ stored, b.view.work[id]? = some stored ∧ item = effectiveItem claims id stored := by
  obtain ⟨⟨id', stored⟩, hmem, heq⟩ := List.mem_map.mp h
  obtain ⟨id'', hid, hstored⟩ := mem_filterMap.mp hmem
  obtain ⟨stored', hfound, hpair⟩ := map_eq_some_iff.mp hstored
  cases hpair
  cases heq
  exact ⟨stored, hfound, rfl⟩

theorem keys_workMap (b : Board) : (b.workMap.map Prod.fst).Sublist b.ids := by
  have hkeys : ∀ ids : List String, ((ids.filterMap fun id => (b.view.work[id]?).map fun item => (id, item)).map
      Prod.fst).Sublist ids := by
    intro ids
    induction ids with
    | nil => simp
    | cons id ids ih =>
      rw [filterMap_cons]
      cases b.view.work[id]? with
      | none => exact ih.cons id
      | some item => exact ih.cons_cons id
  exact hkeys b.ids

theorem nodup_overlaid (hb : Kept σ b) (claims : Table Fields) : ((overlaid b claims).map Prod.snd).Nodup := by
  have hids : ((overlaid b claims).map Prod.snd).map (fun item : Fields => item["id"]?) =
      ((overlaid b claims).map Prod.fst).map fun id => some (.str id) := by
    rw [List.map_map, List.map_map]
    apply map_congr_left
    intro e he
    obtain ⟨stored, hstored, heq⟩ := mem_overlaid he
    show e.2["id"]? = some (.str e.1)
    rw [heq, effectiveItem_get (by decide)]
    exact hb.filed e.1 stored hstored
  have hkeys : ((overlaid b claims).map Prod.fst).Nodup := by
    have hfst : (overlaid b claims).map Prod.fst = b.workMap.map Prod.fst := by
      show (b.workMap.map _).map Prod.fst = _
      rw [List.map_map]
      rfl
    rw [hfst]
    exact hb.nodup.sublist (keys_workMap b)
  refine List.Nodup.of_map (fun item : Fields => item["id"]?) ?_
  rw [hids]
  exact hkeys.map fun a c h => by simpa using h

/-! ### The frontier -/

/-- **The ready frontier is exact.**  On every board that a run reaches, and under any claims, the frontier is the list
of the items that can be started: each of them once, by priority, intent and the order of their declaration, and
each in the status `todo`.  The condition is that the events of the run are in order. -/
theorem frontier_exact {log : List Draft} (h : Run σ log b) (hregistered : Registered σ) (hclean : ∀ d ∈ log, Clean σ d)
    (claims : Table Fields) (phase : String) : ∃ ready, frontier σ.toHost (overlaid b claims) phase = some ready ∧
      (∀ item, item ∈ ready ↔ ∃ id, Ready σ.toHost (overlaid b claims) phase id item) ∧ ready.Nodup ∧
      ready.Pairwise (InOrder ((overlaid b claims).map Prod.snd)) ∧ ∀ item ∈ ready, item["status"]? = some (.str "todo") := by
  have hb := h.kept
  have htidy := h.tidy hregistered hclean
  have hread : ∀ e ∈ overlaid b claims, Readable σ.toHost e.2 := by
    intro e he
    obtain ⟨stored, hstored, heq⟩ := mem_overlaid he
    rw [heq]
    refine readable_congr (fun k hk => effectiveItem_get ?_) (htidy e.1 stored hstored).readable
    revert k
    decide
  obtain ⟨ready, hready, hmem, hnodup, hsorted⟩ := exists_frontier phase hread (nodup_overlaid hb claims)
  refine ⟨ready, hready, hmem, hnodup, hsorted, fun item hitem => ?_⟩
  obtain ⟨id, hstart⟩ := (hmem item).mp hitem
  obtain ⟨stored, hstored, rfl⟩ := mem_overlaid hstart.declared
  have htodo := hstart.todo
  unfold isTodoStatus at htodo
  rcases effectiveItem_status claims id stored with hsame | hprogress
  · rw [hsame "statusCategory" (by decide), hsame "status" (by decide)] at htodo
    rw [hsame "status" (by decide)]
    split at htodo
    · rename_i category hcategory
      rw [same_str_iff] at htodo
      rw [htodo] at hcategory
      exact ((htidy id stored hstored).categorised hcategory).1
    · exact same_str_iff.mp htodo
  · rw [hprogress] at htodo
    simp [same] at htodo

/-! Items with and without a priority, a parent that waits for its child, and what is not checked. -/

namespace Sample

theorem registered : Registered linked := by
  intro name policy hpolicy
  have hpolicy : ((∅ : Table Policy).insert "coding" Sample.policy)[name]? = some policy := hpolicy
  rw [Std.ExtTreeMap.getElem?_insert] at hpolicy
  split at hpolicy
  · cases hpolicy
    exact .inl rfl
  · simp at hpolicy

def parentAlone : Board := added emptyBoard (item "parent" "todo" [("priority", some (.num (.int 1)))])

def parentAndChild : Board := added parentAlone (item "child" "todo" [("parent", some (.str "parent"))])

def planned : Board := added parentAndChild (item "early" "todo" [("priority", some (.num (.int 2)))])

def plannedLog : List Draft :=
  [drafted (addWork linked emptyBoard env (item "parent" "todo" [("priority", some (.num (.int 1)))])),
    drafted (addWork linked parentAlone env (item "child" "todo" [("parent", some (.str "parent"))])),
    drafted (addWork linked parentAndChild env (item "early" "todo" [("priority", some (.num (.int 2)))]))]

theorem run_planned : Run linked plannedLog planned := by
  have hparent : Run linked _ parentAlone := run_added .start (by decide) (by decide)
  have hchild : Run linked _ parentAndChild := run_added hparent (by decide) (by decide)
  exact run_added hchild (by decide) (by decide)

def misplaced : Board := added emptyBoard (item "lost" "todo" [("parent", some (.str "constructor"))])

def mislabelled : Board := added emptyBoard (item "old" "done" [("statusCategory", some (.str "todo"))])

end Sample

theorem frontier_exact_planned : ∃ ready, frontier Sample.linked.toHost (overlaid Sample.planned ∅) "execute" = some ready ∧
    ready.Nodup ∧ ready.map (fun item : Fields => item["id"]?) = [some (.str "early"), some (.str "child")] := by
  obtain ⟨ready, hready, _, hnodup, _⟩ := frontier_exact Sample.run_planned Sample.registered (by decide) ∅ "execute"
  have hids : (frontier Sample.linked.toHost (overlaid Sample.planned ∅) "execute").map
      (fun ready => ready.map fun item : Fields => item["id"]?) = some [some (.str "early"), some (.str "child")] := by
    decide
  rw [hready] at hids
  exact ⟨ready, hready, hnodup, some.inj hids⟩

/-- A parent under the name of a member that every object has stops the frontier, and an item that is added as done
with the category `todo` is returned. -/
theorem frontier_exact_counterexample :
    (∃ log b, Run Sample.linked log b ∧ frontier Sample.linked.toHost (overlaid b ∅) "execute" = none) ∧
      ∃ log b ready item, Run Sample.linked log b ∧
        frontier Sample.linked.toHost (overlaid b ∅) "execute" = some ready ∧ item ∈ ready ∧
        item["status"]? = some (.str "done") := by
  have hmisplaced : Run Sample.linked _ Sample.misplaced :=
    Sample.run_added .start (by decide) (by decide)
  have hmislabelled : Run Sample.linked _ Sample.mislabelled :=
    Sample.run_added .start (by decide) (by decide)
  have hthrows : (frontier Sample.linked.toHost (overlaid Sample.misplaced ∅) "execute").isNone = true := by
    decide
  have hdone : (frontier Sample.linked.toHost (overlaid Sample.mislabelled ∅) "execute").map
      (fun ready => ready.map fun item : Fields => item["status"]?) = some [some (.str "done")] := by
    decide
  obtain ⟨ready, hready, hstatuses⟩ := map_eq_some_iff.mp hdone
  obtain ⟨item, hitem, hstatus⟩ := List.mem_map.mp (hstatuses ▸ mem_singleton_self (some (Json.str "done")))
  exact ⟨⟨_, _, hmisplaced, isNone_iff_eq_none.mp hthrows⟩, _, _, ready, item, hmislabelled, hready, hitem, hstatus⟩

end Store

end Forgent
