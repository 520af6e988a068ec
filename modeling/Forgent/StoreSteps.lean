import Forgent.StoreRun

/-!
# What a transaction does to an item

One lemma for every operation: what it has checked when it is accepted, and which events it hands to the gate.
Then what these events make of an item.  A move writes the status and what goes with it, an edit writes what
its patch names, and no other event writes a field that an operation decides by.
-/

namespace Forgent

open Json List Option

theorem same_str_iff {value : Option Json} {s : String} :
    same value (some (.str s)) = true ↔ value = some (.str s) := by
  constructor
  · exact eq_of_same
  · rintro rfl
    simp [same]

/-! ### A move that was decided -/

namespace StatusFsm

theorem isEdge_iff {edges : List (String × String)} {status : Option Json} {dst : String} :
    isEdge edges status dst = true ↔ ∃ src, status = some (.str src) ∧ (src, dst) ∈ edges := by
  rw [isEdge, List.any_eq_true]
  constructor
  · rintro ⟨edge, hedge, h⟩
    rw [Bool.and_eq_true, decide_eq_true_eq] at h
    have hsrc := eq_of_same h.1
    exact ⟨edge.1, hsrc, by rw [← h.2]; exact hedge⟩
  · rintro ⟨src, rfl, hedge⟩
    exact ⟨(src, dst), hedge, by simp [same]⟩

variable {value : Option Json}

theorem someText_eq_ok {refusal : Refusal} {s : String} (h : someText value refusal = .ok s) :
    value = some (.str s) := by
  unfold someText at h
  split at h
  · split at h
    · cases h
    · cases h
      rfl
  · cases h

/-- A move from one status to another: what it has checked of the item, and its payload. -/
structure Transition (work payload : Fields) (id src dst : String) : Prop where
  workId : work["id"]? = some (.str id)
  status : work["status"]? = some (.str src)
  edge : (src, dst) ∈ transitions
  payloadId : payload["id"]? = some (.str id)
  payloadTo : payload["to"]? = some (.str dst)
  ask : (payload["ask"]?).isSome = true → dst = "awaiting-human"
  answer : (payload["answer"]?).isSome = true → src = "awaiting-human"
  others : ∀ k, k ∉ ["id", "from", "to", "reason", "ask", "answer"] → payload[k]? = none

theorem wanted_eq_ok {edge : Bool} {text : Except Refusal String}
    (h : wanted edge text = .ok value) (hsome : value.isSome = true) : edge = true := by
  unfold wanted at h
  split at h
  · assumption
  · cases h
    cases hsome

/-- **What an accepted move has checked.** -/
theorem transitionWork_eq_ok {σ : StoreHost} {work payload : Fields} {dst expectedStatus reason ask answer : Option Json}
    (h : transitionWork σ work dst expectedStatus reason ask answer = .ok payload) :
    ∃ id src dst', dst = some (.str dst') ∧ (expectedStatus = none ∨ work["status"]? = expectedStatus) ∧
      Transition work payload id src dst' := by
  obtain ⟨id, hid, h⟩ := bind_eq_ok.mp h
  obtain ⟨dst', hdst, h⟩ := bind_eq_ok.mp h
  obtain ⟨_, hexpected, h⟩ := bind_eq_ok.mp h
  obtain ⟨_, hedge, h⟩ := bind_eq_ok.mp h
  obtain ⟨reason', hreason, h⟩ := bind_eq_ok.mp h
  obtain ⟨ask', hask, h⟩ := bind_eq_ok.mp h
  obtain ⟨answer', hanswer, h⟩ := bind_eq_ok.mp h
  cases h
  rw [refuseUnless_eq_ok, Bool.or_eq_true, isNone_iff_eq_none] at hexpected
  obtain ⟨src, hsrc, hmem⟩ := isEdge_iff.mp (refuseUnless_eq_ok.mp hedge)
  have hnames : (["id", "from", "to", "reason", "ask", "answer"] : List String).Nodup := by decide
  have hget := fun k => getElem?_record [("id", some (.str id)), ("from", work["status"]?), ("to", some (.str dst')),
    ("reason", reason'), ("ask", ask'), ("answer", answer')] hnames k
  refine ⟨id, src, dst', someText_eq_ok hdst, hexpected.imp_right eq_of_same, someText_eq_ok hid, hsrc, hmem, ?_, ?_,
    fun hsome => ?_, fun hsome => ?_, fun k hk => ?_⟩
  · rw [hget]
    rfl
  · rw [hget]
    rfl
  · rw [hget] at hsome
    exact of_decide_eq_true (wanted_eq_ok hask hsome)
  · rw [hget] at hsome
    have hstatus := eq_of_same (wanted_eq_ok hanswer hsome)
    rw [hsrc] at hstatus
    simpa using hstatus
  · rw [hget]
    have hnone : List.lookup k [("id", some (Json.str id)), ("from", work["status"]?), ("to", some (.str dst')),
        ("reason", reason'), ("ask", ask'), ("answer", answer')] = none := by
      rw [lookup_eq_none_iff]
      intro e he
      rw [bne_iff_ne]
      intro heq
      apply hk
      rw [heq]
      exact List.mem_map_of_mem (f := Prod.fst) he
    rw [hnone]
    rfl

end StatusFsm

/-! ### A new item -/

namespace WorkItem

/-- An integer, or nothing. -/
def OptionalInteger (value : Option Json) : Prop := value = none ∨ ∃ n : ℤ, value = some (.num (.int n))

/-- The members that the ready work is found by. -/
structure Sortable (work : Fields) (touchedFields : Option (List String)) : Prop where
  deps : touched touchedFields "deps" = true → ∃ deps, work["deps"]? = some (.arr deps)
  priority : touched touchedFields "priority" = true → OptionalInteger work["priority"]?
  intent : touched touchedFields "intent" = true → OptionalInteger work["intent"]?

/-- What the checks of a whole item say of the members that a fold looks at. -/
structure Shaped (work : Fields) : Prop where
  id : ∃ id, work["id"]? = some (.str id)
  status : ∃ status ∈ statuses, work["status"]? = some (.str status)
  sortable : Sortable work none
  tier : work["tier"]? = none
  stage : work["stage"]? = none

variable {value : Option Json}

theorem isOneOf_iff {allowed : List String} :
    isOneOf allowed value = true ↔ ∃ s ∈ allowed, value = some (.str s) := by
  unfold isOneOf
  split
  · simp
  · rename_i hno
    constructor
    · intro h
      cases h
    · rintro ⟨s, _, h⟩
      exact absurd h (hno s)

variable {σ : StoreHost} {work : Fields} {u : Unit}

theorem checkId_eq_ok (h : checkId σ work = .ok u) : ∃ id, work["id"]? = some (.str id) := by
  unfold checkId at h
  split at h
  · rename_i id hid
    exact ⟨id, hid⟩
  · rw [demand_eq_ok] at h
    cases h

theorem checkDeps_eq_ok (h : checkDeps σ work = .ok u) : ∃ deps, work["deps"]? = some (.arr deps) := by
  obtain ⟨_, harray, _⟩ := bind_eq_ok.mp h
  rw [requireArray, demand_eq_ok] at harray
  unfold arrayOf at harray
  split at harray
  · rename_i items hitems
    exact ⟨items, hitems⟩
  · cases harray

theorem optional_eq_ok {field must : String} {test : Option Json → Bool}
    (h : optional σ work field test must = .ok u) (htest : ∀ v, test v = true → isInteger v = true) :
    OptionalInteger work[field]? := by
  rw [optional, demand_eq_ok, Bool.or_eq_true, isNone_iff_eq_none] at h
  rcases h with hnone | hpass
  · exact .inl hnone
  · have hinteger := htest _ hpass
    unfold isInteger at hinteger
    split at hinteger
    · rename_i n hn
      exact .inr ⟨n, hn⟩
    · cases hinteger

theorem isInteger_of_isNatural (h : isNatural value = true) : isInteger value = true := by
  unfold isNatural at h
  split at h
  · rfl
  · cases h

theorem validateWorkShape_sortable {touchedFields : Option (List String)}
    (h : validateWorkShape σ work touchedFields = .ok u) : Sortable work touchedFields := by
  simp only [validateWorkShape, bind_eq_ok] at h
  obtain ⟨_, _, _, _, _, _, _, _, _, hdeps, _, _, _, _, _, _, _, _, _, _, _, _, _, _, _, _, _, _, _, _, _, _, _, hpriority,
    _, hintent, _⟩ := h
  refine ⟨fun ht => ?_, fun ht => ?_, fun ht => ?_⟩
  · rw [if_pos ht] at hdeps
    exact checkDeps_eq_ok hdeps
  · rw [if_pos ht] at hpriority
    exact optional_eq_ok hpriority fun v => isInteger_of_isNatural
  · rw [if_pos ht] at hintent
    exact optional_eq_ok hintent fun v hv => hv

theorem validateWorkShape_eq_ok (h : validateWorkShape σ work none = .ok u) : Shaped work := by
  have hsortable := validateWorkShape_sortable h
  simp only [validateWorkShape, touched, all_none, if_true, bind_eq_ok] at h
  obtain ⟨_, hid, _, _, _, _, _, hstatus, _, _, _, _, _, _, _, _, _, _, _, _, _, _, _, _, _, _, _, _, _, htier,
    _, _, _, _, _, _, _, _, _, _, _, _, _, hstage, _⟩ := h
  refine ⟨checkId_eq_ok hid, ?_, hsortable, ?_, ?_⟩
  · obtain ⟨_, _, hone⟩ := bind_eq_ok.mp hstatus
    exact isOneOf_iff.mp (demand_eq_ok.mp hone)
  · exact isNone_iff_eq_none.mp (demand_eq_ok.mp htier)
  · exact isNone_iff_eq_none.mp (demand_eq_ok.mp hstage)

theorem validateWork_eq_ok {ids : List String} (h : validateWork σ work none ids = .ok u) : Shaped work := by
  obtain ⟨_, hshape, _⟩ := bind_eq_ok.mp h
  exact validateWorkShape_eq_ok hshape

end WorkItem

namespace Store

open WorkItem DepGraph StatusFsm Handoff

variable {σ : Linked} {b : Board} {env : Env} {status : Option Json} {k id : String} {work args transition : Fields}
  {draft : Draft}

@[simp] theorem getElem?_stampStatus {item f : Fields}
    (hcategory : "statusCategory" ≠ k) (hpark : "parkReason" ≠ k) : (stampStatus σ item status f)[k]? = f[k]? := by
  rw [stampStatus, Fields.getElem?_keep, Fields.getElem?_keep, if_neg hpark, if_neg hcategory]

theorem getElem?_normalizedWork (hsize : "size" ≠ k) (htitle : "title" ≠ k) :
    (normalizedWork work)[k]? = work[k]? := by
  rw [normalizedWork, Fields.getElem?_set, Fields.getElem?_set, if_neg htitle, if_neg hsize]

/-- The item that `addWork` hands on, before its writer is noted. -/
def stampedWork (σ : Linked) (work : Fields) : Fields :=
  stampStatus σ (normalizedWork work) (normalizedWork work)["status"]? (normalizedWork work)

/-- **What an accepted `addWork` has checked.** -/
theorem addWork_eq_ok (h : addWork σ b env work = .ok draft) :
    draft = ⟨"work.add", (stampedWork σ work).insert "writer" env.writer⟩ ∧ Shaped work ∧
      b.view.work[Json.key σ.arithmetic work["id"]?]? = none ∧
      assertNoUnifiedCycle σ.toStoreHost (stampedWork σ work) b.workMap = .ok () := by
  obtain ⟨_, hnew, h⟩ := bind_eq_ok.mp h
  obtain ⟨_, hvalid, h⟩ := bind_eq_ok.mp h
  obtain ⟨_, _, h⟩ := bind_eq_ok.mp h
  obtain ⟨_, _, h⟩ := bind_eq_ok.mp h
  obtain ⟨_, _, h⟩ := bind_eq_ok.mp h
  obtain ⟨_, hgraph, h⟩ := bind_eq_ok.mp h
  cases h
  have hshape := validateWork_eq_ok hvalid
  have hget : ∀ k, "size" ≠ k → "title" ≠ k → (normalizedWork work)[k]? = work[k]? := fun k => getElem?_normalizedWork
  refine ⟨rfl, ⟨?_, ?_, ?_, ?_, ?_⟩, isNone_iff_eq_none.mp (refuseUnless_eq_ok.mp hnew), hgraph⟩
  · exact hget "id" (by decide) (by decide) ▸ hshape.id
  · exact hget "status" (by decide) (by decide) ▸ hshape.status
  · have hsortable := hshape.sortable
    exact ⟨hget "deps" (by decide) (by decide) ▸ hsortable.deps,
      hget "priority" (by decide) (by decide) ▸ hsortable.priority,
      hget "intent" (by decide) (by decide) ▸ hsortable.intent⟩
  · exact hget "tier" (by decide) (by decide) ▸ hshape.tier
  · exact hget "stage" (by decide) (by decide) ▸ hshape.stage

/-! ### A patch -/

theorem getElem?_spread_none {members : List (String × Json)} (hk : k ∉ members.map Prod.fst) :
    (spread (some (.obj members)))[k]? = none := by
  show (Std.ExtTreeMap.ofList members.reverse)[k]? = none
  refine Std.ExtTreeMap.getElem?_ofList_of_contains_eq_false ?_
  rw [contains_eq_any_beq, List.any_eq_false]
  intro a ha
  rw [beq_iff_eq]
  rintro rfl
  apply hk
  rw [map_reverse, mem_reverse] at ha
  exact ha

theorem getElem?_normalizedPatch_none {patch : Fields} (hk : patch[k]? = none) :
    (normalizedPatch patch)[k]? = none := by
  unfold normalizedPatch
  split
  · rename_i title htitle
    rw [Fields.getElem?_set]
    split
    · rename_i heq
      rw [← heq, htitle] at hk
      cases hk
    · exact hk
  · exact hk

/-- What an accepted patch has checked. -/
structure Patched (σ : Linked) (b : Board) (env : Env) (id : String) (role : Option Json) (work patch payload : Fields) :
    Prop where
  found : b.view.work[id]? = some work
  editable : ∀ k, k ∉ editableFields → patch[k]? = none
  sortable : ∃ touchedFields, (∀ k, k ∉ touchedFields → patch[k]? = none) ∧
    Sortable (work.assign patch) (some touchedFields)
  acyclic : assertNoUnifiedCycle σ.toStoreHost (work.assign patch) b.workMap = .ok ()
  payload : payload = record [("id", some (.str id)), ("patch", some patch.toJson), ("role", role),
    ("writer", some env.writer)]

theorem requireWork_eq_ok {view : View} : requireWork view id = .ok work ↔ view.work[id]? = some work := by
  unfold requireWork
  split
  · rename_i w hw
    rw [hw, Except.ok.injEq, Option.some.injEq]
  · rename_i hnone
    rw [hnone]
    constructor
    · intro h
      cases h
    · intro h
      cases h

theorem forM_demand_eq_ok {α : Type} {items : List α} {ok : α → Bool} {message : α → String} {u : PUnit}
    (h : items.forM (fun a => demand (ok a) (message a)) = .ok u) : ∀ a ∈ items, ok a = true := by
  induction items with
  | nil => simp
  | cons a items ih =>
    obtain ⟨_, ha, h⟩ := bind_eq_ok.mp h
    intro c hc
    rcases mem_cons.mp hc with rfl | hc
    · exact demand_eq_ok.mp ha
    · exact ih h c hc

/-- **What an accepted patch has checked.** -/
theorem validateWorkPatch_eq_ok {patch role : Option Json} {payload : Fields}
    (h : validateWorkPatch σ b env id patch role = .ok payload) :
    ∃ work, Patched σ b env id role work (normalizedPatch (spread patch)) payload := by
  obtain ⟨work, hwork, h⟩ := bind_eq_ok.mp h
  obtain ⟨members, hmembers, h⟩ := bind_eq_ok.mp h
  obtain ⟨_, heditable, h⟩ := bind_eq_ok.mp h
  obtain ⟨_, _, h⟩ := bind_eq_ok.mp h
  obtain ⟨_, hvalid, h⟩ := bind_eq_ok.mp h
  obtain ⟨_, _, h⟩ := bind_eq_ok.mp h
  obtain ⟨_, _, h⟩ := bind_eq_ok.mp h
  obtain ⟨_, _, h⟩ := bind_eq_ok.mp h
  obtain ⟨_, hgraph, h⟩ := bind_eq_ok.mp h
  cases h
  obtain ⟨_, hshape, _⟩ := bind_eq_ok.mp hvalid
  have hpatch : patch = some (.obj members) := by
    unfold requirePatch patchMembers at hmembers
    split at hmembers
    · rename_i found hfound
      split at hfound
      · cases hfound
        cases hmembers
        rfl
      · cases hfound
    · cases hmembers
  have htouched : ∀ k, k ∉ members.map Prod.fst → (normalizedPatch (spread patch))[k]? = none := by
    intro k hk
    rw [hpatch]
    exact getElem?_normalizedPatch_none (getElem?_spread_none hk)
  refine ⟨work, requireWork_eq_ok.mp hwork, fun k hk => htouched k fun hmem => hk ?_,
    ⟨members.map Prod.fst, htouched, validateWorkShape_sortable hshape⟩, hgraph, rfl⟩
  exact contains_iff_mem.mp (forM_demand_eq_ok heditable k hmem)

theorem editWork_eq_ok {patch role : Option Json} (h : editWork σ b env id patch role = .ok draft) :
    ∃ work payload, draft = ⟨"work.edit", payload⟩ ∧
      Patched σ b env id role work (normalizedPatch (spread patch)) payload := by
  obtain ⟨payload, hpayload, h⟩ := bind_eq_ok.mp h
  cases h
  obtain ⟨work, hpatched⟩ := validateWorkPatch_eq_ok hpayload
  exact ⟨work, payload, rfl, hpatched⟩

/-! ### Moves -/

/-- **What an accepted move has checked**: it repeats a delivery that is recorded, or moves the item as the table
allows, and to `delivered` only with its evidence. -/
theorem moveWorkOnce_eq_ok {snapshot : Option PlanSnapshot} {prior : Option Fields}
    {engineDecision : Fields → Except Refusal (Option Fields)} {decision : Decision}
    (h : moveWorkOnce σ b env snapshot prior engineDecision id args = .ok decision) :
    (decision.drafts = [] ∧ (args["landSettlement"]?).isSome = true ∧ prior = some decision.reported) ∨
    ∃ work transition decided, b.view.work[id]? = some work ∧
      transitionWork σ.toStoreHost work args["to"]? args["expectedStatus"]? args["reason"]? args["ask"]?
        args["answer"]? = .ok transition ∧
      (args["to"]? = some (.str "delivered") → assertAcceptanceEvidence σ id work = .ok () ∧
        applyPlanEvidenceSnapshot σ b env snapshot id work = .ok ()) ∧
      decision.reported = movePayload σ b env id work args transition ∧ (∀ d ∈ decided, d.eventType = "decision") ∧
      decision.drafts = decided ++ [⟨"work.move", decision.reported⟩] ++ reviewHandoff σ b env id work args := by
  obtain ⟨_, _, h⟩ := bind_eq_ok.mp h
  obtain ⟨_, _, h⟩ := bind_eq_ok.mp h
  split at h
  · rename_i recorded hrecorded
    obtain ⟨_, _, h⟩ := bind_eq_ok.mp h
    cases h
    obtain ⟨hprior, hsettlement⟩ := filter_eq_some_iff.mp hrecorded
    exact .inl ⟨rfl, hsettlement, hprior⟩
  · obtain ⟨_, _, h⟩ := bind_eq_ok.mp h
    obtain ⟨work, hwork, h⟩ := bind_eq_ok.mp h
    obtain ⟨engine, _, h⟩ := bind_eq_ok.mp h
    obtain ⟨transition, htransition, h⟩ := bind_eq_ok.mp h
    obtain ⟨_, hgate, h⟩ := bind_eq_ok.mp h
    cases h
    refine .inr ⟨work, transition, _, requireWork_eq_ok.mp hwork, htransition, fun hto => ?_, rfl, fun d hd => ?_, rfl⟩
    · rw [hto] at hgate
      obtain ⟨_, hacceptance, hplan⟩ := bind_eq_ok.mp hgate
      exact ⟨hacceptance, hplan⟩
    · obtain ⟨_, _, rfl⟩ := List.mem_map.mp hd
      rfl

/-- What is stamped onto the payload of a move. -/
def moveStamps : List String :=
  carried ++ ["statusCategory", "parkReason", "writer", "statusAtAsk", "durableStatusAtAsk", "approved", "learning"]

theorem getElem?_movePayload (hk : k ∉ moveStamps) :
    (movePayload σ b env id work args transition)[k]? = transition[k]? := by
  have hne : ∀ s ∈ moveStamps, s ≠ k := fun s hs heq => hk (heq ▸ hs)
  have hcarried : k ∉ carried := fun h => hk (mem_append_left _ h)
  have hstamped : ((stampStatus σ work args["to"]? transition).insert "writer" env.writer)[k]? = transition[k]? := by
    rw [Fields.getElem?_insert', if_neg (hne _ (by decide)), getElem?_stampStatus (hne _ (by decide)) (hne _ (by decide))]
  rw [movePayload]
  split <;> split <;> split <;>
    simp only [Fields.getElem?_insert', Fields.getElem?_keep, Fields.getElem?_keepAll, hcarried,
      hne "learning" (by decide), hne "approved" (by decide), hne "durableStatusAtAsk" (by decide),
      hne "statusAtAsk" (by decide), if_false, hstamped]

theorem stampStatus_statusCategory {work transition : Fields} {status : Option Json}
    (hnone : transition["statusCategory"]? = none) : (stampStatus σ work status transition)["statusCategory"]? =
      (StoreHost.statusCategoryFor (σ.policy work["domain"]?) (Json.key σ.arithmetic status)).map .str := by
  rw [stampStatus, Fields.getElem?_keep, if_neg (by decide), Fields.getElem?_keep, if_pos rfl, hnone, or_none]

theorem movePayload_statusCategory (hnone : transition["statusCategory"]? = none) :
    (movePayload σ b env id work args transition)["statusCategory"]? =
      (StoreHost.statusCategoryFor (σ.policy work["domain"]?) (Json.key σ.arithmetic args["to"]?)).map .str := by
  have hstamped := @stampStatus_statusCategory σ work transition args["to"]? hnone
  have hcarried : "statusCategory" ∉ carried := by decide
  rw [movePayload]
  split <;> split <;> split <;>
    simp only [Fields.getElem?_insert', Fields.getElem?_keep, Fields.getElem?_keepAll, hcarried, if_false, hstamped,
      String.reduceEq]

theorem movePayload_of_not_asked (hk : k = "statusAtAsk" ∨ k = "durableStatusAtAsk")
    (hask : args["to"]? ≠ some (.str "awaiting-human")) :
    (movePayload σ b env id work args transition)[k]? = transition[k]? := by
  have hsame : same args["to"]? (some (.str "awaiting-human")) = false := by
    rw [Bool.eq_false_iff]
    exact fun h => hask (same_str_iff.mp h)
  rw [movePayload, hsame]
  rcases hk with rfl | rfl <;> split <;> split <;> simp [Fields.getElem?_keepAll, carried]

theorem movePayload_durableStatusAtAsk (hnone : transition["durableStatusAtAsk"]? = none) :
    (movePayload σ b env id work args transition)["durableStatusAtAsk"]? =
      if args["to"]? = some (.str "awaiting-human") then work["status"]? else none := by
  by_cases hask : args["to"]? = some (.str "awaiting-human")
  · rw [movePayload, same_str_iff.mpr hask, if_pos hask]
    split <;> split <;> simp [Fields.getElem?_keepAll, carried, hnone]
  · rw [movePayload_of_not_asked (.inr rfl) hask, if_neg hask, hnone]

theorem movePayload_statusAtAsk (hnone : transition["statusAtAsk"]? = none)
    (hsome : ((movePayload σ b env id work args transition)["statusAtAsk"]?).isSome = true) :
    args["to"]? = some (.str "awaiting-human") := by
  by_contra hask
  rw [movePayload_of_not_asked (.inl rfl) hask, hnone] at hsome
  cases hsome

/-! ### Settling a claim -/

/-- What is stamped onto the payload of the move of a settle. -/
def settleStamps : List String :=
  settleCarried ++ ["statusCategory", "parkReason", "writer", "statusAtAsk", "durableStatusAtAsk"]

theorem getElem?_settleMovePayload
    (hk : k ∉ settleStamps) : (settleMovePayload σ env work args status transition)[k]? = transition[k]? := by
  have hne : ∀ s ∈ settleStamps, s ≠ k := fun s hs heq => hk (heq ▸ hs)
  have hcarried : k ∉ settleCarried := fun h => hk (mem_append_left _ h)
  have hstamped : (stampStatus σ work args["finalStatus"]? (transition.insert "writer" env.writer))[k]? =
      transition[k]? := by
    rw [getElem?_stampStatus (hne _ (by decide)) (hne _ (by decide)), Fields.getElem?_insert', if_neg (hne _ (by decide))]
  rw [settleMovePayload]
  split <;>
    simp only [Fields.getElem?_keep, Fields.getElem?_keepAll, hcarried, hne "durableStatusAtAsk" (by decide),
      hne "statusAtAsk" (by decide), if_false, hstamped]

theorem settleMovePayload_statusCategory (hnone : transition["statusCategory"]? = none) :
    (settleMovePayload σ env work args status transition)["statusCategory"]? =
      (StoreHost.statusCategoryFor (σ.policy work["domain"]?) (Json.key σ.arithmetic args["finalStatus"]?)).map .str := by
  have hstamped := @stampStatus_statusCategory σ work (transition.insert "writer" env.writer) args["finalStatus"]?
    (by rw [Fields.getElem?_insert', if_neg (by decide), hnone])
  have hcarried : "statusCategory" ∉ settleCarried := by decide
  rw [settleMovePayload]
  split <;>
    simp only [Fields.getElem?_keep, Fields.getElem?_keepAll, hcarried, if_false, hstamped, String.reduceEq]

theorem settleMovePayload_durableStatusAtAsk (hnone : transition["durableStatusAtAsk"]? = none) :
    (settleMovePayload σ env work args status transition)["durableStatusAtAsk"]? =
      if args["finalStatus"]? = some (.str "awaiting-human") then status else none := by
  have hstamped : (stampStatus σ work args["finalStatus"]? (transition.insert "writer" env.writer))["durableStatusAtAsk"]? =
      none := by
    rw [getElem?_stampStatus (by decide) (by decide), Fields.getElem?_insert', if_neg (by decide), hnone]
  have hcarried : "durableStatusAtAsk" ∉ settleCarried := by decide
  rw [settleMovePayload]
  by_cases hask : args["finalStatus"]? = some (.str "awaiting-human")
  · rw [if_pos (same_str_iff.mpr hask), if_pos hask]
    simp only [Fields.getElem?_keep, Fields.getElem?_keepAll, hcarried, if_false, if_true, String.reduceEq, hstamped,
      or_none]
  · rw [if_neg (fun h => hask (same_str_iff.mp h)), if_neg hask]
    simp only [Fields.getElem?_keepAll, hcarried, if_false, hstamped]

theorem settleMovePayload_statusAtAsk (hnone : transition["statusAtAsk"]? = none)
    (hsome : ((settleMovePayload σ env work args status transition)["statusAtAsk"]?).isSome = true) :
    args["finalStatus"]? = some (.str "awaiting-human") := by
  by_contra hask
  have hcarried : "statusAtAsk" ∉ settleCarried := by decide
  have hget : (settleMovePayload σ env work args status transition)["statusAtAsk"]? = none := by
    rw [settleMovePayload, if_neg (fun h => hask (same_str_iff.mp h)), Fields.getElem?_keepAll, if_neg hcarried,
      getElem?_stampStatus (by decide) (by decide), Fields.getElem?_insert', if_neg (by decide), hnone]
  rw [hget] at hsome
  cases hsome

theorem settleMove_eq_ok {moved : List Draft} (h : settleMove σ env work args status = .ok moved) :
    (moved = [] ∧ args["finalStatus"]? = status) ∨
    ∃ transition, transitionWork σ.toStoreHost work args["finalStatus"]? status args["reason"]? args["ask"]?
        args["answer"]? = .ok transition ∧
      moved = [⟨"work.move", settleMovePayload σ env work args status transition⟩] := by
  unfold settleMove at h
  split at h
  · rename_i hsame
    cases h
    exact .inl ⟨rfl, eq_of_same hsame⟩
  · obtain ⟨transition, htransition, h⟩ := bind_eq_ok.mp h
    cases h
    exact .inr ⟨transition, htransition, rfl⟩

theorem settleEdit_eq_ok {edited : List Draft} (h : settleEdit σ b env id args = .ok edited) :
    ((patchMembers args["patch"]?).isSome = false ∧ edited = []) ∨
    (patchMembers args["patch"]?).isSome = true ∧ ∃ work payload, edited = [⟨"work.edit", payload⟩] ∧
      Patched σ b env id args["role"]? work (normalizedPatch (spread args["patch"]?)) payload := by
  unfold settleEdit at h
  split at h
  · rename_i hpatch
    obtain ⟨draft, hdraft, h⟩ := bind_eq_ok.mp h
    cases h
    obtain ⟨work, payload, rfl, hpatched⟩ := editWork_eq_ok hdraft
    exact .inr ⟨hpatch, work, payload, rfl, hpatched⟩
  · rename_i hpatch
    cases h
    exact .inl ⟨Bool.eq_false_iff.mpr hpatch, rfl⟩

/-- **What an accepted settle has checked.** -/
theorem settleTx_eq_ok {drift : Option DriftEvidence} {targetClaimId : Option Json}
    {now : String} {drafts : List Draft} {claims : Table Fields}
    (h : settleTx σ b env drift id targetClaimId args now = .ok (drafts, claims)) :
    ∃ claim work edited moved, b.claims[id]? = some claim ∧ claim["claimId"]? = targetClaimId ∧ owns σ env claim = true ∧
      b.view.work[id]? = some work ∧ settleMove σ env work args work["status"]? = .ok moved ∧
      settleEdit σ b env id args = .ok edited ∧
      drafts = edited ++ [⟨"work.attempt", attemptPayload id claim args work["status"]? now⟩] ++ moved ∧
      claims = b.claims.erase id := by
  obtain ⟨claim, hclaim, h⟩ := bind_eq_ok.mp h
  obtain ⟨_, howns, h⟩ := bind_eq_ok.mp h
  obtain ⟨work, hwork, h⟩ := bind_eq_ok.mp h
  obtain ⟨_, hstatus, h⟩ := bind_eq_ok.mp h
  obtain ⟨_, _, h⟩ := bind_eq_ok.mp h
  obtain ⟨moved, hmoved, h⟩ := bind_eq_ok.mp h
  obtain ⟨edited, hedited, h⟩ := bind_eq_ok.mp h
  cases h
  obtain ⟨hfound, hid⟩ : b.claims[id]? = some claim ∧ claim["claimId"]? = targetClaimId := by
    unfold requireFreshClaim at hclaim
    split at hclaim
    · cases hclaim
    · rename_i found hfound
      split at hclaim
      · rename_i hsame
        cases hclaim
        exact ⟨hfound, eq_of_same hsame⟩
      · cases hclaim
  -- the claim was made at the status that the item still has
  have hpre : (if truthy claim["preClaimStatus"]? then claim["preClaimStatus"]? else work["status"]?) =
      work["status"]? := by
    split
    · rename_i htruthy
      rw [refuseUnless_eq_ok, htruthy, Bool.not_true, Bool.false_or] at hstatus
      exact (eq_of_same hstatus).symm
    · rfl
  rw [hpre] at hmoved
  refine ⟨claim, work, edited, moved, hfound, hid, refuseUnless_eq_ok.mp howns, requireWork_eq_ok.mp hwork, hmoved, hedited,
    ?_, rfl⟩
  rw [hpre]

end Store

/-! ### Calls -/

namespace Handoff

/-- What the event of an asynchronous call says. -/
def handoffDraft (id : String) (src dst : Option Json) (reason note : Option Json) (writer : Json) : Draft :=
  ⟨"work.handoff", record [("id", some (.str id)), ("from", src), ("to", dst), ("reason", reason),
    ("mode", some (.str "async")), ("note", note), ("writer", some writer)]⟩

variable {view : View} {writer : Json} {id : String} {draft : Draft}

/-- **What an accepted call has checked**: the edge is one of the graph, and the stack has room. -/
theorem callEvent_eq_ok {σ : StoreHost} {args : Fields} {openSyncDepth : ℕ}
    (h : callEvent σ view writer id args openSyncDepth = .ok draft) :
    ∃ work, view.work[id]? = some work ∧ (draft.eventType = "work.call-summary" ∨
      ∃ graph src dst, StoreHost.roleGraphFor (σ.policy work["domain"]?) = some graph ∧
        orElse work["holder"]? (graph.defaultRole.map .str) = some (.str src) ∧
        (∀ cap, graph.callstackCap = some cap → (openCalls view id).length < cap) ∧
        draft = handoffDraft id (some (.str src)) (some (.str dst)) args["reason"]? args["note"]? writer) := by
  obtain ⟨work, hwork, h⟩ := bind_eq_ok.mp h
  refine ⟨work, Store.requireWork_eq_ok.mp hwork, ?_⟩
  dsimp only at h
  split at h
  · cases h
  · rename_i edge hedge
    split at h
    · rename_i hmode
      cases h
      unfold evaluateHandoff at hedge
      dsimp only at hedge
      split at hedge
      · cases hedge
      · split at hedge
        · cases hedge
        · rename_i found hfound
          split at hedge
          · cases hedge
          · rename_i hroom
            split at hedge
            · cases hedge
            · cases hedge
              have hmem := mem_of_find?_eq_some hfound
              have htest := find?_some hfound
              rw [Bool.and_eq_true] at htest
              rw [legalCallEdges, mem_filter] at hmem
              cases hgraph : StoreHost.roleGraphFor (σ.policy work["domain"]?) with
              | none =>
                rw [hgraph] at hmem
                exact absurd hmem.1 (by simp)
              | some graph =>
                have hfrom := eq_of_same hmem.2
                have hto := eq_of_same htest.1
                rw [hgraph] at hfrom hroom
                refine .inr ⟨graph, edge.fromRole, edge.toRole, rfl, hfrom.symm, fun cap hcap => ?_, ?_⟩
                · have hfull : ¬ isFull (some graph) (openCalls view id).length = true := by
                    intro hfull
                    exact hroom (by rw [hmode, hfull]; rfl)
                  rw [isFull, bind_some, hcap, any_some, decide_eq_true_eq, not_le] at hfull
                  exact hfull
                · rw [handoffDraft, hfrom, hto]
    · cases h
      exact .inl rfl

/-- **What an accepted return has checked**: the call that was opened last is the holder's. -/
theorem returnEvent_eq_ok {note : Option Json} (h : returnEvent view writer id note = .ok draft) :
    ∃ work openCall, view.work[id]? = some work ∧ (openCalls view id).getLast? = some openCall ∧
      openCall["to"]? = work["holder"]? ∧
      draft = ⟨"work.handoff", record [("id", some (.str id)), ("from", work["holder"]?), ("to", openCall["from"]?),
        ("reason", openCall["reason"]?), ("mode", some (.str "async")), ("returning", some (.bool true)),
        ("note", note), ("writer", some writer)]⟩ := by
  obtain ⟨work, hwork, h⟩ := bind_eq_ok.mp h
  dsimp only at h
  split at h
  · cases h
  · rename_i openCall hopen
    obtain ⟨_, hsame, h⟩ := bind_eq_ok.mp h
    cases h
    exact ⟨work, openCall, Store.requireWork_eq_ok.mp hwork, hopen, eq_of_same (refuseUnless_eq_ok.mp hsame), rfl⟩

end Handoff

end Forgent
