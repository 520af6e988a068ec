import Forgent.StoreSteps

/-!
# What a run does to the items

A draft writes certain members of its item and no others (`itemUpdate_unwritten`); an item that is added or
edited has the members that were checked.  From this come the facts that hold on every board: only the clone's
own stream was folded, the items are declared once each, and each is filed under its id.
-/

namespace Forgent

open Json List Option

/-! ### What a draft writes -/

/-- The members of an item that an event of the type writes; what an edit writes its patch says. -/
def written (eventType : String) : List String :=
  match eventType with
  | "work.move" => ["status", "writer", "statusCategory", "parkReason", "claimRole", "headAtTake", "branchHeadAtTake",
      "claimTrigger", "reason", "headAtReturn", "branchHeadAtReturn", "mergedSha", "mergedInto", "landSettlement"]
  | "work.stage" | "work.step" => ["workflowStep", "verify", "writer"]
  | "work.handoff" => ["holder"]
  | "work.resolve-park-reason" => ["reason", "parkReason", "writer"]
  | "work.attempt" => ["attemptCount", "lastAttempt"]
  | _ => []

section

variable {host : Host} {item : Fields} {k : String} {payload : Option Json} {p : Fields}

theorem moveItem_unwritten (hk : k ∉ written "work.move") : (moveItem payload item)[k]? = item[k]? := by
  have hne : ∀ s ∈ written "work.move", s ≠ k := fun s hs heq => hk (heq ▸ hs)
  have hnot : ∀ l : List String, (∀ s ∈ l, s ∈ written "work.move") → k ∉ l := fun l hl h => hk (hl k h)
  unfold moveItem
  dsimp only
  split <;> split <;> split <;>
    simp only [Fields.getElem?_keep, Fields.getElem?_set, Fields.getElem?_keepAll, hne "status" (by decide),
      hne "claimRole" (by decide), hne "reason" (by decide), hnot ["writer", "statusCategory", "parkReason"] (by decide),
      hnot ["headAtTake", "branchHeadAtTake", "claimTrigger"] (by decide),
      hnot ["headAtReturn", "branchHeadAtReturn"] (by decide), hnot ["mergedSha", "mergedInto", "landSettlement"] (by decide),
      if_false]

theorem moveItem_status (payload : Option Json) : (moveItem payload item)["status"]? = member payload "to" := by
  unfold moveItem
  dsimp only
  split <;> split <;> split <;>
    simp only [Fields.getElem?_keep, Fields.getElem?_set, Fields.getElem?_keepAll, mem_cons, not_mem_nil,
      String.reduceEq, or_false, if_false, if_true]

theorem moveItem_statusCategory (payload : Option Json) : (moveItem payload item)["statusCategory"]? =
    (member payload "statusCategory").or item["statusCategory"]? := by
  unfold moveItem
  dsimp only
  split <;> split <;> split <;>
    simp only [Fields.getElem?_keep, Fields.getElem?_set, Fields.getElem?_keepAll, mem_cons, not_mem_nil,
      String.reduceEq, or_false, or_true, if_false, if_true]

theorem stepItem_unwritten (hk : k ∉ written "work.step") : (stepItem host payload item)[k]? = item[k]? := by
  have hne : "workflowStep" ≠ k := fun heq => hk (heq ▸ by decide)
  have hnot : k ∉ ["verify", "writer"] := fun h => hk (mem_cons_of_mem _ h)
  rw [stepItem, Fields.getElem?_keepAll, if_neg hnot, Fields.getElem?_set, if_neg hne]

theorem handoffItem_unwritten (hk : k ∉ written "work.handoff") : (handoffItem payload item)[k]? = item[k]? := by
  have hne : "holder" ≠ k := fun heq => hk (heq ▸ by decide)
  unfold handoffItem
  split
  · rw [Fields.getElem?_insert', if_neg hne]
  · rfl

theorem resolveParkItem_unwritten (hk : k ∉ written "work.resolve-park-reason") :
    (resolveParkItem payload item)[k]? = item[k]? := by
  have hne : ∀ s ∈ written "work.resolve-park-reason", s ≠ k := fun s hs heq => hk (heq ▸ hs)
  rw [resolveParkItem, Fields.getElem?_keep, if_neg (hne _ (by decide)), Fields.getElem?_erase',
    if_neg (hne _ (by decide)), Fields.getElem?_erase', if_neg (hne _ (by decide))]

theorem attemptItem_unwritten {ts : String} (hk : k ∉ written "work.attempt") :
    (attemptItem host payload ts item)[k]? = item[k]? := by
  have hne : ∀ s ∈ written "work.attempt", s ≠ k := fun s hs heq => hk (heq ▸ hs)
  unfold attemptItem
  dsimp only
  rw [Fields.getElem?_insert', if_neg (hne _ (by decide)), Fields.getElem?_insert', if_neg (hne _ (by decide))]

/-- The member of an item that may not be there. -/
def fieldOf (item : Option Fields) (k : String) : Option Json := item.bind fun i : Fields => i[k]?

/-- **What an event does not write stays**; only an addition makes an item. -/
theorem itemUpdate_unwritten {event : LogEvent} {item : Option Fields} (hadd : event.eventType ≠ "work.add")
    (hedit : event.eventType ≠ "work.edit") (hk : k ∉ written event.eventType) :
    fieldOf (itemUpdate host event item) k = fieldOf item k ∧ (itemUpdate host event item).isSome = item.isSome := by
  have hmap : ∀ f : Fields → Fields, (∀ i : Fields, (f i)[k]? = i[k]?) →
      fieldOf (item.map f) k = fieldOf item k ∧ (item.map f).isSome = item.isSome := by
    intro f hf
    cases item with
    | none => exact ⟨rfl, rfl⟩
    | some i => exact ⟨hf i, rfl⟩
  unfold itemUpdate
  split
  case h_1 ht => exact absurd ht hadd
  case h_3 ht => exact absurd ht hedit
  case h_2 ht =>
    rw [ht] at hk
    exact hmap _ fun i => moveItem_unwritten hk
  case h_4 ht | h_5 ht =>
    rw [ht] at hk
    exact hmap _ fun i => stepItem_unwritten hk
  case h_6 ht =>
    rw [ht] at hk
    exact hmap _ fun i => handoffItem_unwritten hk
  case h_7 ht =>
    rw [ht] at hk
    exact hmap _ fun i => resolveParkItem_unwritten hk
  case h_8 ht =>
    rw [ht] at hk
    exact hmap _ fun i => attemptItem_unwritten hk
  case h_9 => exact ⟨rfl, rfl⟩

/-! ### Additions and edits -/

/-- The members of an added item that the fold gives it. -/
def addedFields : List String := ["size", "rigor", "workflowStep", "precondition"]

/-- **An added item has the members that were checked.** -/
theorem addedItem_get (htier : p["tier"]? = none) (hstage : p["stage"]? = none) (hk : k ∉ addedFields) :
    (addedItem host (some p.toJson))[k]? = p[k]? := by
  have hne : ∀ s ∈ addedFields, s ≠ k := fun s hs heq => hk (heq ▸ hs)
  have hbase : ∀ q : Fields, (Fields.assign (record [("size", some (.str "standard"))]) q)[k]? = q[k]? := by
    intro q
    have hsize : (record [("size", some (Json.str "standard"))])[k]? = none := by
      rw [getElem?_record _ (by decide), lookup_cons, beq_eq_false_iff_ne.mpr (hne "size" (by decide)).symm]
      rfl
    rw [Fields.getElem?_assign, hsize, or_none]
  have hwithout : ∀ k', "precondition" ≠ k' → (withoutPrecondition (some p.toJson))[k']? = p[k']? := by
    intro k' hk'
    rw [withoutPrecondition, spread_toJson, Fields.getElem?_erase', if_neg hk']
  have hfold : foldTier (withoutPrecondition (some p.toJson)) = withoutPrecondition (some p.toJson) := by
    rw [foldTier, hwithout "tier" (by decide), htier]
  unfold addedItem
  rw [hfold]
  generalize hw : withoutPrecondition (some p.toJson) = w at hwithout ⊢
  have hrigor : ∀ (c : Prop) [Decidable c] k', "rigor" ≠ k' →
      (if c then w.insert "rigor" (.str "high") else w)[k']? = w[k']? := by
    intro c _ k' hk'
    split
    · rw [Fields.getElem?_insert', if_neg hk']
    · rfl
  have hkept : ∀ n : Fields, (∀ k', "rigor" ≠ k' → n[k']? = w[k']?) → (foldLegacyStage host n none)[k]? = p[k]? := by
    intro n hget
    rw [foldLegacyStage, hget "stage" (by decide), hwithout "stage" (by decide), hstage]
    exact (hget k (hne "rigor" (by decide))).trans (hwithout k (hne "precondition" (by decide)))
  rw [hbase]
  split
  · exact hkept _ (hrigor _)
  · rw [Fields.getElem?_set, if_neg (hne "workflowStep" (by decide))]
    exact hkept _ (hrigor _)

/-- **An edited item has the members of its patch**, where the patch names no older field. -/
theorem editItem_get {patch : Fields} (hpatch : p["patch"]? = some patch.toJson) (htier : patch["tier"]? = none)
    (hstage : patch["stage"]? = none) (hrigor : "rigor" ≠ k) (hwriter : "writer" ≠ k) :
    (editItem host (some p.toJson) item)[k]? = (item.assign patch)[k]? := by
  have hspread : foldTier (spread (some patch.toJson)) = patch := by
    rw [spread_toJson, foldTier, htier]
  unfold editItem
  rw [member_toJson, hpatch]
  show (Fields.keep (if true = true then _ else item) "writer" _)[k]? = _
  rw [Fields.getElem?_keep, if_neg hwriter, if_pos rfl, hspread]
  dsimp only
  have hsteps : ∀ n : Fields, (∀ k', "rigor" ≠ k' → n[k']? = patch[k']?) →
      (item.assign (foldLegacyStage host n (some item)))[k]? = (item.assign patch)[k]? := by
    intro n hget
    have hlegacy : foldLegacyStage host n (some item) = n := by
      rw [foldLegacyStage, hget "stage" (by decide), hstage]
    rw [hlegacy, Fields.getElem?_assign, Fields.getElem?_assign, hget k hrigor]
  refine hsteps _ fun k' hk' => ?_
  split
  · rw [Fields.getElem?_insert', if_neg hk']
  · rfl

end

/-! ### The drafts of a transaction -/

namespace Store

open WorkItem DepGraph StatusFsm Handoff

section

variable (σ : Linked) (b : Board)

/-- The move of an item, as a transaction drafts it. -/
structure Moved (id src dst : String) (work payload : Fields) : Prop where
  found : ∃ name : String, b.view.work[name]? = some work
  transition : ∃ decided, Transition work decided id src dst ∧ ∀ k ∈ ["id", "from", "to", "ask", "answer"],
    payload[k]? = decided[k]?
  statusCategory : payload["statusCategory"]? =
    (StoreHost.statusCategoryFor (σ.policy work["domain"]?) dst).map .str
  durableStatusAtAsk : payload["durableStatusAtAsk"]? = if dst = "awaiting-human" then work["status"]? else none
  statusAtAsk : (payload["statusAtAsk"]?).isSome = true → dst = "awaiting-human"

/-- The hand-over of an item by a call, as a transaction drafts it. -/
structure Called (id src dst : String) (work : Fields) (d : Draft) : Prop where
  found : b.view.work[id]? = some work
  graph : ∃ graph, StoreHost.roleGraphFor (σ.policy work["domain"]?) = some graph ∧
    orElse work["holder"]? (graph.defaultRole.map .str) = some (.str src) ∧
    ∀ cap, graph.callstackCap = some cap → (openCalls b.view id).length < cap
  draft : ∃ reason note writer, d = handoffDraft id (some (.str src)) (some (.str dst)) reason note writer

structure Returned (id : String) (work openCall : Fields) (d : Draft) : Prop where
  found : b.view.work[id]? = some work
  last : (openCalls b.view id).getLast? = some openCall
  holder : openCall["to"]? = work["holder"]?
  draft : ∃ reason note writer, d = ⟨"work.handoff", record [("id", some (.str id)), ("from", work["holder"]?),
    ("to", openCall["from"]?), ("reason", reason), ("mode", some (.str "async")), ("returning", some (.bool true)),
    ("note", note), ("writer", writer)]⟩

inductive Handed : List Draft → Prop
  | none : Handed []
  | summary {d : Draft} : d.eventType = "work.call-summary" → Handed [d]
  | called {id src dst : String} {work : Fields} {d : Draft} : Called σ b id src dst work d → Handed [d]
  | returned {id : String} {work openCall : Fields} {d : Draft} : Returned b id work openCall d → Handed [d]

/-- What a transaction that adds nothing drafts: first an edit, if any, and last a hand-over. -/
structure Batch (edited plain moved handed : List Draft) : Prop where
  edited : edited = [] ∨ ∃ env id role work patch payload, edited = [⟨"work.edit", payload⟩] ∧
    Patched σ b env id role work patch payload
  plain : ∀ d ∈ plain, isOther d.eventType = true
  moved : moved = [] ∨ ∃ id src dst work payload, moved = [⟨"work.move", payload⟩] ∧ Moved σ b id src dst work payload
  handed : Handed σ b handed

end

variable {σ : Linked} {b b' : Board} {name : String} {work args : Fields} {transition : Fields} {id : String}
  {drafts : List Draft}

theorem Moved.of_transition {decided payload : Fields} {dest status reason ask answer : Option Json}
    (hfound : b.view.work[name]? = some work)
    (h : transitionWork σ.toStoreHost work dest status reason ask answer = .ok decided)
    (hkeep : ∀ k ∈ ["id", "from", "to", "ask", "answer"], payload[k]? = decided[k]?)
    (hcategory : decided["statusCategory"]? = none → payload["statusCategory"]? =
      (StoreHost.statusCategoryFor (σ.policy work["domain"]?) (Json.key σ.arithmetic dest)).map .str)
    (hdurable : decided["durableStatusAtAsk"]? = none → payload["durableStatusAtAsk"]? =
      if dest = some (.str "awaiting-human") then work["status"]? else none)
    (hask : decided["statusAtAsk"]? = none → (payload["statusAtAsk"]?).isSome = true → dest = some (.str "awaiting-human")) :
    ∃ id src dst, dest = some (.str dst) ∧ Moved σ b id src dst work payload := by
  obtain ⟨id, src, dst, rfl, _, htransition⟩ := transitionWork_eq_ok h
  simp only [Option.some.injEq, Json.str.injEq] at hdurable hask
  exact ⟨id, src, dst, rfl, ⟨name, hfound⟩, ⟨decided, htransition, hkeep⟩, hcategory (htransition.others _ (by decide)),
    hdurable (htransition.others _ (by decide)), hask (htransition.others _ (by decide))⟩

theorem moved_of_move (env : Env) (id : String) (hwork : b.view.work[name]? = some work)
    (h : transitionWork σ.toStoreHost work args["to"]? args["expectedStatus"]? args["reason"]? args["ask"]?
      args["answer"]? = .ok transition) : ∃ itemId src dst, args["to"]? = some (.str dst) ∧
      Moved σ b itemId src dst work (movePayload σ b env id work args transition) :=
  Moved.of_transition hwork h (fun k hk => getElem?_movePayload (by revert k; decide)) movePayload_statusCategory
    movePayload_durableStatusAtAsk movePayload_statusAtAsk

theorem moved_of_settle (env : Env) (hwork : b.view.work[name]? = some work)
    (h : transitionWork σ.toStoreHost work args["finalStatus"]? work["status"]? args["reason"]? args["ask"]?
      args["answer"]? = .ok transition) : ∃ itemId src dst, args["finalStatus"]? = some (.str dst) ∧
      Moved σ b itemId src dst work (settleMovePayload σ env work args work["status"]? transition) :=
  Moved.of_transition hwork h (fun k hk => getElem?_settleMovePayload (by revert k; decide)) settleMovePayload_statusCategory
    settleMovePayload_durableStatusAtAsk settleMovePayload_statusAtAsk

theorem handed_of_callEvent {writer : Json} {openSyncDepth : ℕ} {draft : Draft}
    (h : callEvent σ.toStoreHost b.view writer id args openSyncDepth = .ok draft) : Handed σ b [draft] := by
  obtain ⟨work, hwork, hsummary | ⟨graph, src, dst, hgraph, hsrc, hroom, hdraft⟩⟩ := callEvent_eq_ok h
  · exact .summary hsummary
  · exact .called ⟨hwork, ⟨graph, hgraph, hsrc, hroom⟩, _, _, _, hdraft⟩

theorem handed_reviewHandoff {env : Env} : Handed σ b (reviewHandoff σ b env id work args) := by
  unfold reviewHandoff
  split
  · split
    · rename_i draft hdraft
      exact handed_of_callEvent hdraft
    · exact .none
  · exact .none

/-- **What a transaction drafts.** -/
theorem Transaction.batch (h : Transaction σ b drafts b') :
    (∃ env work draft, drafts = [draft] ∧ addWork σ b env work = .ok draft) ∨
    ∃ edited plain moved handed, drafts = edited ++ plain ++ moved ++ handed ∧ Batch σ b edited plain moved handed := by
  have hempty : Batch σ b [] [] [] [] := ⟨.inl rfl, by simp, .inl rfl, .none⟩
  cases h with
  | add env work hadd _ _ => exact .inl ⟨env, work, _, rfl, hadd⟩
  | edit env id patch role hedit _ _ =>
    obtain ⟨work, payload, rfl, hpatched⟩ := editWork_eq_ok hedit
    exact .inr ⟨[_], [], [], [], rfl, .inr ⟨env, id, role, work, _, payload, rfl, hpatched⟩, by simp, .inl rfl,
      .none⟩
  | @move _ decision env snapshot prior engineDecision id args _ hmove _ _ =>
    rcases moveWorkOnce_eq_ok hmove with ⟨hnil, _⟩ |
      ⟨work, transition, decided, hwork, htransition, _, hreported, hdecided, hdrafts⟩
    · exact .inr ⟨[], [], [], [], hnil, hempty⟩
    · obtain ⟨itemId, src, dst, _, hmoved⟩ := moved_of_move env id hwork htransition
      refine .inr ⟨[], decided, [⟨"work.move", decision.reported⟩], reviewHandoff σ b env id work args, hdrafts, .inl rfl,
        fun d hd => ?_, .inr ⟨itemId, src, dst, work, _, rfl, hreported ▸ hmoved⟩, handed_reviewHandoff⟩
      rw [hdecided d hd]
      rfl
  | settle env drift id targetClaimId args now hsettle _ =>
    obtain ⟨claim, work, edited, moved, _, _, _, hwork, hmoved, hedited, hdrafts, _⟩ := settleTx_eq_ok hsettle
    refine .inr ⟨edited, [⟨"work.attempt", attemptPayload id claim args work["status"]? now⟩], moved, [],
      hdrafts.trans (append_nil _).symm, ?_, fun d hd => ?_, ?_, .none⟩
    · rcases settleEdit_eq_ok hedited with ⟨_, hnil⟩ | ⟨_, work, payload, hedit, hpatched⟩
      · exact .inl hnil
      · exact .inr ⟨env, id, _, work, _, payload, hedit, hpatched⟩
    · rw [mem_singleton.mp hd]
      rfl
    · rcases settleMove_eq_ok hmoved with ⟨hnil, _⟩ | ⟨transition, htransition, hmove⟩
      · exact .inl hnil
      · obtain ⟨itemId, src, dst, _, hmoved⟩ := moved_of_settle env hwork htransition
        exact .inr ⟨itemId, src, dst, work, _, hmove, hmoved⟩
  | call env id args openSyncDepth hcall _ _ =>
    exact .inr ⟨[], [], [], [_], rfl, .inl rfl, by simp, .inl rfl, handed_of_callEvent hcall⟩
  | callReturn env id note hreturn _ _ =>
    obtain ⟨work, openCall, hwork, hlast, hholder, hdraft⟩ := returnEvent_eq_ok hreturn
    exact .inr ⟨[], [], [], [_], rfl, .inl rfl, by simp, .inl rfl, .returned ⟨hwork, hlast, hholder, _, _, _, hdraft⟩⟩
  | acquire env id args claimId now _ | release env id claimId adminReason _ => exact .inr ⟨[], [], [], [], rfl, hempty⟩
  | other hother _ _ =>
    exact .inr ⟨[], drafts, [], [], by simp, .inl rfl, hother, .inl rfl, .none⟩

theorem Transaction.records (h : Transaction σ b drafts b') : Records σ b drafts b' := by
  have hnothing : ∀ claims, Records σ b [] { b with claims := claims } := fun claims =>
    ⟨⟨[], [], ⟨∅, ∅⟩, ⟨∅, ∅⟩, .nil, rfl, by simp, rfl⟩, rfl⟩
  cases h with
  | add _ _ _ h _ | edit _ _ _ _ _ h _ | move _ _ _ _ _ _ _ _ h _ | settle _ _ _ _ _ _ _ h | call _ _ _ _ _ h _
  | callReturn _ _ _ _ h _ => exact h
  | acquire | release => exact hnothing _
  | other _ h _ => exact h

end Store

/-! ### What drafts make of the items -/

section

variable {host : Host} {view view' : View} {d : Draft} {drafts drafts' : List Draft} {ts : String}
  {item : Option Fields}

theorem Applied.append (h : Applied host view (drafts ++ drafts') view') :
    ∃ middle, Applied host view drafts middle ∧ Applied host middle drafts' view' := by
  induction drafts generalizing view with
  | nil => exact ⟨view, .nil view, h⟩
  | cons d drafts ih =>
    cases h with
    | work ts h =>
      obtain ⟨middle, hfirst, hlast⟩ := ih h
      exact ⟨middle, .work ts hfirst, hlast⟩
    | knowledge knowledge hknow h =>
      obtain ⟨middle, hfirst, hlast⟩ := ih h
      exact ⟨middle, .knowledge knowledge hknow hfirst, hlast⟩

theorem Applied.single (h : Applied host view [d] view') (hwork : Knowledge.isKnowledgeType d.eventType = false) :
    ∃ ts, view' = applyWorkEvent host view (d.event ts) := by
  cases h with
  | work ts h =>
    cases h
    exact ⟨ts, rfl⟩
  | knowledge _ hknow _ =>
    rw [hwork] at hknow
    cases hknow

/-- The draft leaves this member of every item alone. -/
inductive Leaves (k : String) : Draft → Prop
  | other {d : Draft} : d.eventType ≠ "work.add" → d.eventType ≠ "work.edit" → k ∉ written d.eventType → Leaves k d
  | edit {payload patch : Fields} : payload["patch"]? = some patch.toJson →
      (∀ k' ∉ Store.editableFields, patch[k']? = none) → patch[k]? = none → "rigor" ≠ k → "writer" ≠ k →
      Leaves k ⟨"work.edit", payload⟩

variable {k : String}

theorem Leaves.itemUpdate (h : Leaves k d) : fieldOf (itemUpdate host (d.event ts) item) k = fieldOf item k ∧
      (itemUpdate host (d.event ts) item).isSome = item.isSome := by
  cases h with
  | other hadd hedit hk => exact itemUpdate_unwritten hadd hedit hk
  | @edit payload patch hpatch heditable hnone hrigor hwriter =>
    cases item with
    | none => exact ⟨rfl, rfl⟩
    | some i =>
      refine ⟨?_, rfl⟩
      show (editItem host (some payload.toJson) i)[k]? = i[k]?
      rw [editItem_get hpatch (heditable _ (by decide)) (heditable _ (by decide)) hrigor hwriter,
        Fields.getElem?_assign, hnone, none_or]

theorem itemUpdate_add {id : String} (hadd : d.eventType = "work.add") (hid : d.payload["id"]? = some (.str id)) :
    itemUpdate host (d.event ts) item = some (addedItem host (some d.payload.toJson)) := by
  obtain ⟨eventType, payload⟩ := d
  cases hadd
  have hmember : member (some payload.toJson) "id" = some (.str id) := (member_toJson _ _).trans hid
  simp only [Forgent.itemUpdate, Draft.event, hmember]

theorem work_applyWorkEvent (ts id : String) : (applyWorkEvent host view (d.event ts)).work[id]? =
    if itemOf host (d.event ts) = id then itemUpdate host (d.event ts) view.work[id]? else view.work[id]? :=
  applyWorkEvent_work id

/-- **What the drafts leave alone stays.** -/
theorem Applied.leaves (h : Applied host view drafts view') (hleaves : ∀ d ∈ drafts, Leaves k d) (id : String) :
    fieldOf view'.work[id]? k = fieldOf view.work[id]? k ∧ (view'.work[id]?).isSome = (view.work[id]?).isSome := by
  induction h with
  | nil => exact ⟨rfl, rfl⟩
  | @work view view' d drafts ts _ ih =>
    obtain ⟨hd, hleaves⟩ := forall_mem_cons.mp hleaves
    obtain ⟨hfield, hsome⟩ := ih hleaves
    have hstep : fieldOf (applyWorkEvent host view (d.event ts)).work[id]? k = fieldOf view.work[id]? k ∧
        ((applyWorkEvent host view (d.event ts)).work[id]?).isSome = (view.work[id]?).isSome := by
      rw [work_applyWorkEvent]
      split
      · exact hd.itemUpdate
      · exact ⟨rfl, rfl⟩
    exact ⟨hfield.trans hstep.1, hsome.trans hstep.2⟩
  | knowledge _ _ _ ih => exact ih (forall_mem_cons.mp hleaves).2

/-- The members of an item that the events of other parts of the program write. -/
def otherFields : List String :=
  ["workflowStep", "verify", "writer", "reason", "parkReason", "attemptCount", "lastAttempt"]

theorem leaves_of_isOther (hk : k ∉ otherFields) (h : Store.isOther d.eventType = true) : Leaves k d := by
  have hall : ∀ t, Store.isOther t = true → t ≠ "work.add" ∧ t ≠ "work.edit" ∧ ∀ f ∈ written t, f ∈ otherFields := by
    intro t ht
    rw [Store.isOther, Knowledge.isKnowledgeType, Bool.or_eq_true, contains_iff_mem, contains_iff_mem] at ht
    rcases ht with ht | ht
    · revert t
      decide
    · revert t
      decide
  obtain ⟨hadd, hedit, hwritten⟩ := hall _ h
  exact .other hadd hedit fun hkw => hk (hwritten k hkw)

end

namespace Store

open WorkItem DepGraph StatusFsm Handoff

variable {σ : Linked} {b b' : Board} {k : String} {env : Env} {id : String} {role : Option Json}
  {work patch payload : Fields} {handed plain drafts : List Draft} {d draft : Draft} {src dst : String}

section

variable (h : Patched σ b env id role work patch payload)

include h

theorem Patched.payloadPatch : payload["patch"]? = some patch.toJson := by
  rw [h.payload, getElem?_record _ (by simp)]
  rfl

theorem Patched.payloadId : payload["id"]? = some (.str id) := by
  rw [h.payload, getElem?_record _ (by simp)]
  rfl

theorem Patched.leaves (hk : k ∉ editableFields) (hwriter : "writer" ≠ k) : Leaves k ⟨"work.edit", payload⟩ :=
  .edit h.payloadPatch h.editable (h.editable k hk) (fun heq => hk (heq ▸ by decide)) hwriter

end

theorem Handed.leaves (h : Handed σ b handed) (hk : "holder" ≠ k) : ∀ d ∈ handed, Leaves k d := by
  have hhandoff : ∀ payload, Leaves k ⟨"work.handoff", payload⟩ := fun payload =>
    .other (by simp) (by simp) fun hmem => hk (mem_singleton.mp hmem).symm
  intro d hd
  cases h with
  | none => cases hd
  | summary ht =>
    cases mem_singleton.mp hd
    refine .other ?_ ?_ ?_ <;> rw [ht] <;> simp [written]
  | called hcalled =>
    obtain ⟨_, _, _, rfl⟩ := hcalled.draft
    cases mem_singleton.mp hd
    exact hhandoff _
  | returned hreturned =>
    obtain ⟨_, _, _, rfl⟩ := hreturned.draft
    cases mem_singleton.mp hd
    exact hhandoff _

theorem leaves_move (hk : k ∉ written "work.move") : Leaves k ⟨"work.move", payload⟩ :=
  .other (by simp) (by simp) hk

theorem leaves_not_move (h : Leaves "status" d) : d.eventType ≠ "work.move" := by
  intro hmove
  cases h with
  | other _ _ hwritten =>
    rw [hmove] at hwritten
    exact absurd (by decide) hwritten
  | edit => exact absurd hmove (by simp)

/-- The event delivers an item. -/
def Delivers (d : Draft) : Prop := d.eventType = "work.move" ∧ d.payload["to"]? = some (.str "delivered")

theorem Handed.not_move (h : Handed σ b handed) : ∀ d ∈ handed, d.eventType ≠ "work.move" :=
  fun d hd => leaves_not_move (h.leaves (by decide) d hd)

theorem Batch.leaves {edited moved : List Draft} (h : Batch σ b edited plain moved handed)
    (hedit : edited = [] ∨ (k ∉ editableFields ∧ "writer" ≠ k)) (hmove : moved = [] ∨ k ∉ written "work.move")
    (hother : k ∉ otherFields) (hholder : handed = [] ∨ "holder" ≠ k) :
    ∀ d ∈ edited ++ plain ++ moved ++ handed, Leaves k d := by
  intro d hd
  rcases mem_append.mp hd with hd | hd
  · rcases mem_append.mp hd with hd | hd
    · rcases mem_append.mp hd with hd | hd
      · rcases h.edited with hnil | ⟨_, _, _, _, _, _, heq, hpatched⟩
        · rw [hnil] at hd
          cases hd
        · rw [heq] at hd
          cases mem_singleton.mp hd
          rcases hedit with hnil | ⟨hk, hwriter⟩
          · rw [hnil] at heq
            cases heq
          · exact hpatched.leaves hk hwriter
      · exact leaves_of_isOther hother (h.plain d hd)
    · rcases h.moved with hnil | ⟨_, _, _, _, _, heq, _⟩
      · rw [hnil] at hd
        cases hd
      · rw [heq] at hd
        cases mem_singleton.mp hd
        rcases hmove with hnil | hk
        · rw [hnil] at heq
          cases heq
        · exact leaves_move hk
  · rcases hholder with hnil | hk
    · rw [hnil] at hd
      cases hd
    · exact h.handed.leaves hk d hd

theorem Patched.applied {view view' : View}
    (h : Patched σ b env id role work patch payload) (hwork : view.work[id]? = some work)
    (happlied : Applied σ.toHost view [⟨"work.edit", payload⟩] view') (hrigor : "rigor" ≠ k) (hwriter : "writer" ≠ k) :
    fieldOf view'.work[id]? k = (work.assign patch)[k]? := by
  obtain ⟨ts, rfl⟩ := happlied.single rfl
  have hitem : itemOf σ.toHost (Draft.event ⟨"work.edit", payload⟩ ts) = id := by
    show Json.key σ.arithmetic (member (some payload.toJson) "id") = id
    rw [member_toJson, h.payloadId]
    rfl
  rw [work_applyWorkEvent, if_pos hitem, hwork]
  exact editItem_get h.payloadPatch (h.editable _ (by decide)) (h.editable _ (by decide)) hrigor hwriter

/-! ### What holds on every board -/

/-- Only the clone's own stream was folded; every item is declared once, and filed under its id. -/
structure Kept (σ : Linked) (b : Board) : Prop where
  one : OneClone (positionKey σ.origin "project") b.view
  declared : ∀ id, id ∈ b.ids ↔ (b.view.work[id]?).isSome = true
  nodup : b.ids.Nodup
  filed : ∀ (id : String) (item : Fields), b.view.work[id]? = some item → item["id"]? = some (.str id)

theorem declare_of_ne {ids : List String} (h : d.eventType ≠ "work.add") : declare ids d = ids := by
  unfold declare
  split
  · rename_i ht _
    exact absurd ht h
  · rfl

theorem ne_add_of_leaves (h : Leaves k d) : d.eventType ≠ "work.add" := by
  cases h with
  | other hadd _ _ => exact hadd
  | edit => simp

theorem foldl_declare_of_leaves (h : ∀ d ∈ drafts, Leaves k d) (ids : List String) :
    drafts.foldl declare ids = ids := by
  induction drafts with
  | nil => rfl
  | cons d drafts ih =>
    obtain ⟨hd, h⟩ := forall_mem_cons.mp h
    rw [foldl_cons, declare_of_ne (ne_add_of_leaves hd), ih h]

theorem Kept.applied (hb : Kept σ b) (h : Transaction σ b drafts b') :
    OneClone (positionKey σ.origin "project") b'.view ∧ Applied σ.toHost b.view.core drafts b'.view.core :=
  h.records.appends.applied hb.one

/-- The members that the store gives to a new item. -/
def storeFields : List String := ["size", "title", "statusCategory", "parkReason", "writer"]

theorem addWork_payload (hadd : addWork σ b env work = .ok draft)
    (hk : k ∉ storeFields) : draft.payload[k]? = work[k]? := by
  have hne : ∀ s ∈ storeFields, s ≠ k := fun s hs heq => hk (heq ▸ hs)
  rw [(addWork_eq_ok hadd).1, Fields.getElem?_insert', if_neg (hne _ (by decide)), stampedWork,
    getElem?_stampStatus (hne _ (by decide)) (hne _ (by decide)),
    getElem?_normalizedWork (hne _ (by decide)) (hne _ (by decide))]

theorem addWork_eventType (hadd : addWork σ b env work = .ok draft) : draft.eventType = "work.add" := by
  rw [(addWork_eq_ok hadd).1]

/-- **What an addition leaves**: one more item, with the members that were checked. -/
theorem Kept.added (hb : Kept σ b) (h : Transaction σ b [draft] b') (hadd : addWork σ b env work = .ok draft) :
    ∃ id, work["id"]? = some (.str id) ∧ b.view.work[id]? = none ∧ b'.ids = b.ids ++ [id] ∧
      ∀ id' : String, b'.view.work[id']? =
        if id = id' then some (addedItem σ.toHost (some draft.payload.toJson)) else b.view.work[id']? := by
  obtain ⟨_, hshape, hnew, _⟩ := addWork_eq_ok hadd
  obtain ⟨id, hid⟩ := hshape.id
  have hnone : b.view.work[id]? = none := by
    rw [hid] at hnew
    exact hnew
  have hpayload : draft.payload["id"]? = some (.str id) := (addWork_payload hadd (by decide)).trans hid
  have hadded := addWork_eventType hadd
  refine ⟨id, hid, hnone, ?_, fun id' => ?_⟩
  · have hfresh : id ∉ b.ids := fun hmem => by
      rw [hb.declared, hnone] at hmem
      cases hmem
    rw [h.records.ids, foldl_cons, foldl_nil, declare]
    simp only [hadded, hpayload, if_neg hfresh]
  · obtain ⟨ts, hview⟩ := (hb.applied h).2.single (by rw [hadded]; decide)
    have hwork : b'.view.work[id']? = (applyWorkEvent σ.toHost b.view.core (draft.event ts)).work[id']? := by
      rw [← hview]
      rfl
    have hitem : itemOf σ.toHost (draft.event ts) = id := by
      show Json.key σ.arithmetic (member (some draft.payload.toJson) "id") = id
      rw [member_toJson, hpayload]
      rfl
    rw [hwork, work_applyWorkEvent, hitem]
    split
    · exact itemUpdate_add hadded hpayload
    · rfl

theorem addWork_tier_stage (hadd : addWork σ b env work = .ok draft) :
    draft.payload["tier"]? = none ∧ draft.payload["stage"]? = none := by
  obtain ⟨_, hshape, _, _⟩ := addWork_eq_ok hadd
  exact ⟨(addWork_payload hadd (by decide)).trans hshape.tier, (addWork_payload hadd (by decide)).trans hshape.stage⟩

theorem addedItem_of_addWork (hadd : addWork σ b env work = .ok draft)
    (hk : k ∉ addedFields) (hstore : k ∉ storeFields) :
    (addedItem σ.toHost (some draft.payload.toJson))[k]? = work[k]? := by
  obtain ⟨htier, hstage⟩ := addWork_tier_stage hadd
  rw [addedItem_get htier hstage hk, addWork_payload hadd hstore]

theorem Kept.leaves (hb : Kept σ b) (h : Transaction σ b drafts b')
    (hleaves : ∀ d ∈ drafts, Leaves k d) (id : String) : fieldOf b'.view.work[id]? k = fieldOf b.view.work[id]? k ∧
      (b'.view.work[id]?).isSome = (b.view.work[id]?).isSome :=
  (hb.applied h).2.leaves hleaves id

/-- **What a batch with an edit leaves**: in a member that nothing else writes, the item that is edited has what its
patch says, and the others stay. -/
theorem Kept.edited {moved : List Draft} (hb : Kept σ b)
    (h : Transaction σ b ([⟨"work.edit", payload⟩] ++ plain ++ moved ++ handed) b')
    (hbatch : Batch σ b [⟨"work.edit", payload⟩] plain moved handed)
    (hpatched : Patched σ b env id role work patch payload) (hmove : k ∉ written "work.move") (hother : k ∉ otherFields)
    (hholder : "holder" ≠ k) (hrigor : "rigor" ≠ k) (hwriter : "writer" ≠ k) (id' : String) :
    fieldOf b'.view.work[id']? k = (if id = id' then (work.assign patch)[k]? else fieldOf b.view.work[id']? k) ∧
      (b'.view.work[id']?).isSome = (b.view.work[id']?).isSome := by
  have happlied := (hb.applied h).2
  rw [append_assoc, append_assoc] at happlied
  obtain ⟨middle, hedit, hrest⟩ := happlied.append
  have hquiet : Batch σ b [] plain moved handed := ⟨.inl rfl, hbatch.plain, hbatch.moved, hbatch.handed⟩
  have hleaves := hquiet.leaves (k := k) (.inl rfl) (.inr hmove) hother (.inr hholder)
  obtain ⟨hfield, hsome⟩ := hrest.leaves (fun d hd => hleaves d (by simpa using hd)) id'
  have hfound : b.view.core.work[id]? = some work := hpatched.found
  have hfields := hpatched.applied hfound hedit hrigor hwriter
  obtain ⟨ts, rfl⟩ := hedit.single rfl
  have hitem : itemOf σ.toHost (Draft.event ⟨"work.edit", payload⟩ ts) = id := by
    show Json.key σ.arithmetic (member (some payload.toJson) "id") = id
    rw [member_toJson, hpatched.payloadId]
    rfl
  have hstep : (applyWorkEvent σ.toHost b.view.core (Draft.event ⟨"work.edit", payload⟩ ts)).work[id']? = _ :=
    work_applyWorkEvent ts id'
  rw [hitem] at hstep
  by_cases hsame : id = id'
  · subst hsame
    rw [if_pos rfl] at hstep ⊢
    refine ⟨hfield.trans hfields, hsome.trans ?_⟩
    rw [hstep, core_work, hpatched.found]
    rfl
  · rw [if_neg hsame] at hstep ⊢
    rw [hstep] at hfield hsome
    exact ⟨hfield, hsome⟩

theorem Transaction.kept (hb : Kept σ b) (h : Transaction σ b drafts b') : Kept σ b' := by
  rcases h.batch with ⟨env, work, draft, rfl, hadd⟩ | ⟨edited, plain, moved, handed, rfl, hbatch⟩
  · obtain ⟨id, hid, hnone, hids, hwork⟩ := hb.added h hadd
    refine ⟨(hb.applied h).1, fun id' => ?_, ?_, fun id' item hitem => ?_⟩
    · rw [hids, hwork, mem_append, mem_singleton, hb.declared]
      split
      · rename_i heq
        simp [heq]
      · rename_i hne
        simp [Ne.symm hne]
    · rw [hids]
      refine nodup_append'.mpr ⟨hb.nodup, nodup_singleton id, ?_⟩
      rw [disjoint_singleton, hb.declared, hnone]
      simp
    · rw [hwork] at hitem
      split at hitem
      · rename_i heq
        cases hitem
        rw [addedItem_of_addWork hadd (by decide) (by decide), hid, heq]
      · exact hb.filed id' item hitem
  · -- no draft of the batch writes an id
    have hleaves := hbatch.leaves (k := "id") (.inr (by decide)) (.inr (by decide)) (by decide) (.inr (by decide))
    have hsame := fun id => hb.leaves h hleaves id
    refine ⟨(hb.applied h).1, fun id => ?_, ?_, fun id item hitem => ?_⟩
    · rw [h.records.ids, foldl_declare_of_leaves hleaves, hb.declared, (hsame id).2]
    · rw [h.records.ids, foldl_declare_of_leaves hleaves]
      exact hb.nodup
    · have hfield : fieldOf b'.view.work[id]? "id" = fieldOf b.view.work[id]? "id" := (hsame id).1
      have hsome := (hsame id).2
      rw [hitem] at hfield hsome
      obtain ⟨old, hold⟩ := isSome_iff_exists.mp hsome.symm
      rw [hold] at hfield
      exact hfield.trans (hb.filed id old hold)

theorem kept_emptyBoard : Kept σ emptyBoard where
  one p hp := by
    have hnil : emptyBoard.view.streamHeads.toList = [] := rfl
    rw [hnil] at hp
    cases hp
  declared id := by
    constructor
    · intro h
      cases h
    · intro h
      have hnone : emptyBoard.view.work[id]? = none := by simp [emptyBoard, View.empty]
      rw [hnone] at h
      cases h
  nodup := .nil
  filed id item h := by
    have hnone : emptyBoard.view.work[id]? = none := by simp [emptyBoard, View.empty]
    rw [hnone] at h
    cases h

/-- **What holds on every board that a run reaches.** -/
theorem Run.kept {log : List Draft} (h : Run σ log b) : Kept σ b := by
  induction h with
  | start => exact kept_emptyBoard
  | step _ hstep ih => exact hstep.kept ih

theorem Moved.filed (hb : Kept σ b) (h : Moved σ b id src dst work payload) : b.view.work[id]? = some work := by
  obtain ⟨name, hname⟩ := h.found
  obtain ⟨decided, hdecided, _⟩ := h.transition
  have heq := (hb.filed name work hname).symm.trans hdecided.workId
  cases heq
  exact hname

theorem Moved.payloadId (h : Moved σ b id src dst work payload) : payload["id"]? = some (.str id) := by
  obtain ⟨decided, hdecided, hkeep⟩ := h.transition
  exact (hkeep "id" (by decide)).trans hdecided.payloadId

theorem Moved.payloadTo (h : Moved σ b id src dst work payload) : payload["to"]? = some (.str dst) := by
  obtain ⟨decided, hdecided, hkeep⟩ := h.transition
  exact (hkeep "to" (by decide)).trans hdecided.payloadTo

theorem Batch.leaves_around {edited moved : List Draft} (h : Batch σ b edited plain moved handed)
    (hedit : k ∉ editableFields) (hwriter : "writer" ≠ k) (hother : k ∉ otherFields) (hholder : "holder" ≠ k) :
    (∀ d ∈ edited ++ plain, Leaves k d) ∧ ∀ d ∈ handed, Leaves k d := by
  have hquiet : Batch σ b edited plain [] [] := ⟨h.edited, h.plain, .inl rfl, .none⟩
  have hleaves := hquiet.leaves (.inr ⟨hedit, hwriter⟩) (.inl rfl) hother (.inl rfl)
  exact ⟨fun d hd => hleaves d (by simpa using hd), h.handed.leaves hholder⟩

/-- **What a move leaves** of a member that nothing else in its batch writes. -/
theorem Kept.moved {id : String} {work payload : Fields} {edited plain handed : List Draft} (hb : Kept σ b)
    (h : Transaction σ b (edited ++ plain ++ [⟨"work.move", payload⟩] ++ handed) b')
    (hbatch : Batch σ b edited plain [⟨"work.move", payload⟩] handed) (hmoved : Moved σ b id src dst work payload)
    (hedit : k ∉ editableFields) (hwriter : "writer" ≠ k) (hother : k ∉ otherFields) (hholder : "holder" ≠ k)
    (id' : String) : (b'.view.work[id']?).isSome = (b.view.work[id']?).isSome ∧
      ∃ item, fieldOf item k = fieldOf b.view.work[id']? k ∧ item.isSome = (b.view.work[id']?).isSome ∧
        fieldOf b'.view.work[id']? k = if id = id' then fieldOf (item.map (moveItem (some payload.toJson))) k
          else fieldOf b.view.work[id']? k := by
  obtain ⟨middle, hpair, hrest⟩ := (hb.applied h).2.append
  obtain ⟨before, hfirst, hmove⟩ := hpair.append
  obtain ⟨ts, rfl⟩ := hmove.single rfl
  obtain ⟨hpre, hpost⟩ := hbatch.leaves_around hedit hwriter hother hholder
  have hbefore := hfirst.leaves hpre id'
  have hafter := hrest.leaves hpost id'
  have hitem : itemOf σ.toHost (Draft.event ⟨"work.move", payload⟩ ts) = id := by
    show Json.key σ.arithmetic (member (some payload.toJson) "id") = id
    rw [member_toJson, hmoved.payloadId]
    rfl
  have hmap : ∀ item : Option Fields,
      itemUpdate σ.toHost (Draft.event ⟨"work.move", payload⟩ ts) item = item.map (moveItem (some payload.toJson)) :=
    fun _ => rfl
  have hstep : (applyWorkEvent σ.toHost before (Draft.event ⟨"work.move", payload⟩ ts)).work[id']? = _ :=
    work_applyWorkEvent ts id'
  rw [hitem, hmap] at hstep
  rw [hstep] at hafter
  refine ⟨?_, before.work[id']?, hbefore.1, hbefore.2, ?_⟩
  · refine hafter.2.trans ?_
    split
    · rw [isSome_map]
      exact hbefore.2
    · exact hbefore.2
  · refine hafter.1.trans ?_
    split
    · rfl
    · exact hbefore.1

end Store

end Forgent
