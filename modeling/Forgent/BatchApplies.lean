import Forgent.StoreItems

/-!
# A prepared batch applies

`prepareEvents` gives each event of a batch the state its item has behind the events before it, by a record of
its own: an addition and a move change it, and no other event does.  The fold checks that state against the view.
The two agree as long as no event writes a status the record does not see (`Offered`), which is how the store's
operations hand over their events: ids are texts, an edit has no status in its patch, and no event asks for
capacity.  Then a batch folds on the view it was prepared on, and none of its events is skipped
(`prepared_batch_applies`).
-/

namespace Forgent

open Json Option

/-! ### The members an addition or an edit leaves alone -/

theorem field_eq_spread {payload id : Json} (hid : payload.field "id" = some id) (k : String) :
    payload.field k = (spread (some payload))[k]? := by
  cases payload with
  | obj members => exact (getElem?_spread_obj members k).symm
  | _ => cases hid

section

variable (host : Host) {k : String}

theorem foldTier_other (f : Fields) (htier : "tier" ≠ k) (hsize : "size" ≠ k) : (foldTier f)[k]? = f[k]? := by
  unfold foldTier
  split
  · rfl
  · rw [Fields.getElem?_erase', if_neg htier]
    split
    · rfl
    · rw [Fields.getElem?_insert', if_neg hsize]

theorem foldLegacyStage_other (f : Fields) (item : Option Fields) (hstage : "stage" ≠ k) (hstep : "workflowStep" ≠ k) :
    (foldLegacyStage host f item)[k]? = f[k]? := by
  unfold foldLegacyStage
  split
  · rfl
  · dsimp only
    rw [Fields.getElem?_erase', if_neg hstage]
    split
    · rfl
    · rw [Fields.getElem?_set, if_neg hstep]

theorem addedItem_status (payload : Json) :
    (addedItem host (some payload))["status"]? = (spread (some payload))["status"]? := by
  have hsize : (record [("size", some (Json.str "standard"))])["status"]? = none := by
    rw [getElem?_record _ (by decide)]
    rfl
  have hbase : (foldTier (withoutPrecondition (some payload)))["status"]? = (spread (some payload))["status"]? := by
    rw [foldTier_other _ (by decide) (by decide), withoutPrecondition, Fields.getElem?_erase', if_neg (by decide)]
  unfold addedItem
  generalize foldTier (withoutPrecondition (some payload)) = base at hbase ⊢
  have hrigor : (if "rigor" ∉ base ∧ same base["risk"]? (some (.str "heavy")) then
      base.insert "rigor" (.str "high") else base)["status"]? = base["status"]? := by
    split
    · rw [Fields.getElem?_insert', if_neg (by decide)]
    · rfl
  have hlegacy := foldLegacyStage_other host
    (if "rigor" ∉ base ∧ same base["risk"]? (some (.str "heavy")) then
      base.insert "rigor" (.str "high") else base) none (show "stage" ≠ "status" by decide) (by decide)
  dsimp only
  rw [Fields.getElem?_assign, hsize, or_none]
  split
  · rw [hlegacy, hrigor, hbase]
  · rw [Fields.getElem?_set, if_neg (by decide), hlegacy, hrigor, hbase]

theorem editItem_status (payload : Option Json) (item : Fields) : (editItem host payload item)["status"]? =
    (spread (member payload "patch"))["status"]?.or item["status"]? := by
  unfold editItem
  dsimp only
  rw [Fields.getElem?_keep, if_neg (by decide)]
  generalize member payload "patch" = patch
  have hbase : (foldTier (spread patch))["status"]? = (spread patch)["status"]? :=
    foldTier_other _ (by decide) (by decide)
  generalize foldTier (spread patch) = base at hbase ⊢
  have hedited : ∀ p : Fields, p["status"]? = (spread patch)["status"]? →
      (item.assign (foldLegacyStage host p (some item)))["status"]? =
        (spread patch)["status"]?.or item["status"]? := by
    intro p hp
    rw [Fields.getElem?_assign, foldLegacyStage_other _ _ _ (by decide) (by decide), hp]
  have hrigor : (if (same base["risk"]? (some (.str "heavy")) && !item.contains "rigor" && !base.contains "rigor") = true
      then base.insert "rigor" (.str "high") else base)["status"]? = (spread patch)["status"]? := by
    split
    · rw [Fields.getElem?_insert', if_neg (by decide), hbase]
    · exact hbase
  -- a patch that is no object has no members
  match patch with
  | some (.obj _) | some (.arr _) => exact hedited _ hrigor
  | none | some .null | some (.bool _) | some (.num _) | some (.str _) => rfl

end

/-! ### Statuses that are compared by value -/

/-- The status is no object and no array: it is the same as a copy of it. -/
def Comparable (status : Option Json) : Prop := same status status = true

/-- The event leaves a comparable status, if it leaves one. -/
structure WritesComparably (event : LogEvent) : Prop where
  added : event.eventType = "work.add" → Comparable (spread event.payload)["status"]?
  moved : event.eventType = "work.move" → Comparable (member event.payload "to")
  edited : event.eventType = "work.edit" → Comparable (spread (member event.payload "patch"))["status"]?

/-- The views the gate reaches: it folds one event after another, its own and those of other clones. -/
inductive Reached (host : Host) : View → Prop
  | empty : Reached host View.empty
  | fold {view next : View} {event : LogEvent} : Reached host view → WritesComparably event →
      foldEvent host view event = .ok next → Reached host next

section

variable {host : Host} {view next : View} {event : LogEvent} {item : Option Fields}

theorem Comparable.or {a b : Option Json} (ha : Comparable a) (hb : Comparable b) : Comparable (a.or b) := by
  cases a with
  | none => exact hb
  | some _ => exact ha

/-! What the three types that write a status make of an item. -/

theorem itemUpdate_of_add (h : event.eventType = "work.add") :
    itemUpdate host event item = match member event.payload "id" with
      | some (.str _) => some (addedItem host event.payload)
      | _ => item := by
  obtain ⟨eventType, payload, ts, v, source⟩ := event
  cases h
  rfl

theorem itemUpdate_of_edit (h : event.eventType = "work.edit") :
    itemUpdate host event item = item.map (editItem host event.payload) := by
  obtain ⟨eventType, payload, ts, v, source⟩ := event
  cases h
  rfl

theorem itemUpdate_of_move (h : event.eventType = "work.move") :
    itemUpdate host event item = item.map (moveItem event.payload) := by
  obtain ⟨eventType, payload, ts, v, source⟩ := event
  cases h
  rfl

theorem itemUpdate_of_other (hadd : event.eventType ≠ "work.add")
    (hedit : event.eventType ≠ "work.edit") (hmove : event.eventType ≠ "work.move") :
    fieldOf (itemUpdate host event item) "status" = fieldOf item "status" ∧
      (itemUpdate host event item).isSome = item.isSome := by
  have hk : "status" ∉ written event.eventType := by
    unfold written
    split <;> first | exact absurd ‹_› hmove | decide
  exact itemUpdate_unwritten hadd hedit hk

theorem itemUpdate_comparable (hevent : WritesComparably event)
    (h : Comparable (fieldOf item "status")) : Comparable (fieldOf (itemUpdate host event item) "status") := by
  by_cases hadd : event.eventType = "work.add"
  · rw [itemUpdate_of_add hadd]
    have hstatus := hevent.added hadd
    cases hpayload : event.payload with
    | none => exact h
    | some payload =>
      rw [hpayload, ← addedItem_status host] at hstatus
      split
      · exact hstatus
      · exact h
  · by_cases hedit : event.eventType = "work.edit"
    · rw [itemUpdate_of_edit hedit]
      cases item with
      | none => exact h
      | some item =>
        show Comparable (editItem host event.payload item)["status"]?
        rw [editItem_status]
        exact (hevent.edited hedit).or h
    · by_cases hmove : event.eventType = "work.move"
      · rw [itemUpdate_of_move hmove]
        cases item with
        | none => exact h
        | some item =>
          show Comparable (moveItem event.payload item)["status"]?
          rw [moveItem_status]
          exact hevent.moved hmove
      · rw [(itemUpdate_of_other hadd hedit hmove).1]
        exact h

theorem foldEvent_comparable (hevent : WritesComparably event)
    (hview : ∀ id : String, Comparable (fieldOf view.work[id]? "status")) (h : foldEvent host view event = .ok next)
    (id : String) : Comparable (fieldOf next.work[id]? "status") := by
  rcases foldEvent_cases h with ⟨_, _, _, _, hwork, _⟩ | ⟨_, applied, happ, hwork, _⟩
  · rw [hwork]
    exact hview id
  · rw [hwork, (applyEvent_eq_ok happ).2 id, registerHead_work]
    split
    · exact itemUpdate_comparable hevent (hview id)
    · exact hview id

theorem Reached.comparable (h : Reached host view) (id : String) : Comparable (fieldOf view.work[id]? "status") := by
  induction h generalizing id with
  | empty =>
    show Comparable (fieldOf ((∅ : Table Fields)[id]?) "status")
    rw [Std.ExtTreeMap.getElem?_empty]
    rfl
  | fold _ hevent hfold ih => exact foldEvent_comparable hevent ih hfold id

end

/-! ### What a batch is offered as -/

/-- How the store's operations hand over an event. -/
structure Offered (event : TxEvent) : Prop where
  /-- A work event names its item by a text. -/
  id : "work.".toList.isPrefixOf event.eventType.toList = true → ∃ s, event.payload.field "id" = some (.str s)
  added : event.eventType = "work.add" → Comparable (event.payload.field "status")
  moved : event.eventType = "work.move" → Comparable (event.payload.field "to")
  /-- The status is not a field that can be edited. -/
  edited : event.eventType = "work.edit" → (spread (event.payload.field "patch"))["status"]? = none
  capacity : truthy (spread (event.payload.field "precondition"))["capacity"]? = false
  bare : isGuarded event = false → truthy (event.payload.field "precondition") = false

structure Logs (prepared : TxEvent) (event : LogEvent) : Prop where
  eventType : event.eventType = prepared.eventType
  payload : event.payload = some prepared.payload

/-- What the view has of an item. -/
def decidedOf (item : Option Fields) : Decided := { present := item.isSome, status := fieldOf item "status" }

/-- The record of the batch is what the view has. -/
def Tracks (n : Arithmetic) (start : View) (decided : List (Json × Decided)) (view : View) : Prop :=
  ∀ id : String, id ≠ "" → currentOf n start decided (.str id) = decidedOf view.work[id]?

section

variable {host : Host} {view next start : View} {input : TxEvent} {event : LogEvent} {id : String}
  {item : Option Fields} {condition : Fields}

theorem tracks_start (n : Arithmetic) : Tracks n start [] start := fun _ _ => rfl

theorem currentOf_cons (n : Arithmetic) (decided : List (Json × Decided)) (d : Decided) (id id' : String) :
    currentOf n start ((.str id, d) :: decided) (.str id') =
      if id = id' then d else currentOf n start decided (.str id') := by
  unfold currentOf
  rw [List.find?_cons]
  by_cases h : id = id'
  · rw [if_pos h, show same (some (.str id)) (some (.str id')) = true from decide_eq_true h]
  · rw [if_neg h, show same (some (.str id)) (some (.str id')) = false from decide_eq_false h]

theorem itemUpdate_of_not_work
    (h : "work.".toList.isPrefixOf event.eventType.toList = false) : itemUpdate host event item = item := by
  unfold itemUpdate
  split
  case h_9 => rfl
  all_goals
    rename_i htype
    rw [htype] at h
    exact absurd h (by decide)

theorem itemUpdate_discovery (h : event.eventType = "work.discovery") : itemUpdate host event item = item := by
  obtain ⟨eventType, payload, ts, v, source⟩ := event
  cases h
  rfl

theorem Offered.unguarded (hin : Offered input) (hguarded : isGuarded input = false)
    (hlogs : Logs input event) (hid : id ≠ "") (hitem : itemOf host event = id)
    (item : Option Fields) : itemUpdate host event item = item := by
  cases hwork : "work.".toList.isPrefixOf input.eventType.toList with
  | false => exact itemUpdate_of_not_work (hlogs.eventType ▸ hwork)
  | true =>
    obtain ⟨s, hs⟩ := hin.id hwork
    have hkey : itemOf host event = s := by
      rw [itemOf, hlogs.payload]
      show Json.key host.arithmetic (input.payload.field "id") = s
      rw [hs]
      rfl
    have hs' : truthy (some (.str s)) = true := by
      rw [truthy, ← hkey, hitem]
      exact decide_eq_true hid
    rw [isGuarded, hwork, hs, hs'] at hguarded
    exact itemUpdate_discovery (hlogs.eventType.trans (by simpa using hguarded))

theorem member_prepared {id : Json} (hid : input.payload.field "id" = some id)
    (hpayload : event.payload = some (withPrecondition input.payload condition)) {k : String} (hk : "precondition" ≠ k) :
    member event.payload k = input.payload.field k := by
  rw [hpayload, withPrecondition, member_toJson, Fields.getElem?_insert', if_neg hk, field_eq_spread hid]

/-- **The record follows the item**: what it has of an item behind the event is what the event makes of it. -/
theorem Offered.decideNext_eq (hin : Offered input)
    (hid : input.payload.field "id" = some (.str id)) (htype : event.eventType = input.eventType)
    (hpayload : event.payload = some (withPrecondition input.payload condition)) (item : Option Fields) :
    decidedOf (itemUpdate host event item) = decideNext (decidedOf item) input := by
  unfold decideNext
  by_cases hadd : input.eventType = "work.add"
  · rw [if_pos hadd, itemUpdate_of_add (htype.trans hadd), member_prepared hid hpayload (by decide), hid]
    show Decided.mk true (addedItem host event.payload)["status"]? = _
    rw [hpayload, addedItem_status, withPrecondition, spread_toJson, Fields.getElem?_insert', if_neg (by decide),
      field_eq_spread hid]
  · rw [if_neg hadd]
    by_cases hmove : input.eventType = "work.move"
    · rw [itemUpdate_of_move (htype.trans hmove)]
      cases item with
      | none =>
        rw [if_neg (by simp [decidedOf])]
        rfl
      | some item =>
        rw [if_pos (by simp [hmove, decidedOf])]
        show Decided.mk true (moveItem event.payload item)["status"]? = _
        rw [moveItem_status, member_prepared hid hpayload (by decide)]
        rfl
    · rw [if_neg (by simp [hmove])]
      by_cases hedit : input.eventType = "work.edit"
      · rw [itemUpdate_of_edit (htype.trans hedit)]
        cases item with
        | none => rfl
        | some item =>
          show Decided.mk true (editItem host event.payload item)["status"]? = _
          rw [editItem_status, member_prepared hid hpayload (by decide), hin.edited hedit, none_or]
          rfl
      · have hadd' : event.eventType ≠ "work.add" := htype ▸ hadd
        have hmove' : event.eventType ≠ "work.move" := htype ▸ hmove
        have hedit' : event.eventType ≠ "work.edit" := htype ▸ hedit
        rw [decidedOf, (itemUpdate_of_other hadd' hedit' hmove').1, (itemUpdate_of_other hadd' hedit' hmove').2]
        rfl

/-- **The precondition of a prepared event holds**, where the record is right about the item. -/
theorem Offered.failure_eq_none (hin : Offered input) (hstatus : Comparable (fieldOf view.work[id]? "status")) :
    failure host view id (some (preconditionOf (decidedOf view.work[id]?) input).toJson) = none := by
  have hexists : (preconditionOf (decidedOf view.work[id]?) input)["exists"]? =
      some (.bool (view.work[id]?).isSome) := by
    unfold preconditionOf
    dsimp only
    split
    · rw [Fields.getElem?_keep, if_neg (by decide), Fields.getElem?_insert', if_pos rfl]
      rfl
    · rw [Fields.getElem?_insert', if_pos rfl]
      rfl
  have hexpected : (preconditionOf (decidedOf view.work[id]?) input)["expectedStatus"]? = none ∨
      (preconditionOf (decidedOf view.work[id]?) input)["expectedStatus"]? = fieldOf view.work[id]? "status" := by
    have herased : (((spread (input.payload.field "precondition")).erase "expectedStatus").insert "exists"
        (.bool (decidedOf view.work[id]?).present))["expectedStatus"]? = none := by
      rw [Fields.getElem?_insert', if_neg (by decide), Fields.getElem?_erase', if_pos rfl]
    unfold preconditionOf
    dsimp only
    split
    · rw [Fields.getElem?_keep, if_pos rfl, herased, or_none]
      exact .inr rfl
    · exact .inl herased
  have hcapacity : (preconditionOf (decidedOf view.work[id]?) input)["capacity"]? =
      (spread (input.payload.field "precondition"))["capacity"]? := by
    unfold preconditionOf
    dsimp only
    split
    · rw [Fields.getElem?_keep, if_neg (by decide), Fields.getElem?_insert', if_neg (by decide),
        Fields.getElem?_erase', if_neg (by decide)]
    · rw [Fields.getElem?_insert', if_neg (by decide), Fields.getElem?_erase', if_neg (by decide)]
  have hsame : same (fieldOf view.work[id]? "status")
      (preconditionOf (decidedOf view.work[id]?) input)["expectedStatus"]? = true ∨
      (preconditionOf (decidedOf view.work[id]?) input)["expectedStatus"]? = none := by
    rcases hexpected with h | h
    · exact .inr h
    · rw [h]
      exact .inl hstatus
  have hpresent : same (some (.bool (view.work[id]?).isSome)) (some (.bool (view.work[id]?).isSome)) = true :=
    decide_eq_true rfl
  unfold failure
  simp only [member_toJson, hexists, hcapacity, hin.capacity, hpresent]
  rcases hsame with h | h
  · rw [fieldOf] at h
    simp [h]
  · simp [h]

end

/-! ### The fold of a batch -/

section

variable {host : Host} {view : View} {event : LogEvent}

theorem modifyItem_conflicts (id : String) (f : Fields → Fields) :
    (view.modifyItem id f).conflicts = view.conflicts := by
  rw [View.modifyItem]
  split <;> rfl

theorem applyWorkEvent_conflicts : (applyWorkEvent host view event).conflicts = view.conflicts := by
  unfold applyWorkEvent
  split
  case h_2 | h_3 | h_6 | h_7 | h_8 | h_13 | h_14 => exact modifyItem_conflicts _ _
  case h_1 =>
    rw [workAdd]
    split <;> rfl
  case h_5 | h_9 | h_10 | h_11 | h_12 =>
    first | rw [workOutcome] | rw [workCallSummary] | rw [workDiscovery] | rw [workGateApprove] | rw [goalFocus]
    split <;> rfl
  all_goals rfl

theorem applyEvent_conflicts {next : View} (h : applyEvent host view event = .ok next) :
    next.conflicts = view.conflicts := by
  rw [applyEvent] at h
  split at h
  · split at h
    · cases h
      rfl
    · cases h
  · cases h
    exact applyWorkEvent_conflicts

theorem applyEvent_error {error : FoldError} (h : applyEvent host view event = .error error) :
    (∃ message, error = .knowledge message) ∧ Knowledge.isKnowledgeType event.eventType = true := by
  rw [applyEvent] at h
  split at h
  · rename_i hknow
    split at h
    · cases h
    · cases h
      exact ⟨⟨_, rfl⟩, hknow⟩
  · cases h

theorem foldEvent_eq_map (h : truthy (conditionOf event) = true →
    failure host view (itemOf host event) (conditionOf event) = none) :
    ∃ finish : View → View, (∀ v, (finish v).work = v.work ∧ (finish v).conflicts = v.conflicts) ∧
      foldEvent host view event = (applyEvent host (registerHead view event) event).map finish := by
  have hplain : ∀ result : Except FoldError View, result = result.map fun v => v := by
    intro result
    cases result <;> rfl
  cases hsource : event.source with
  | none =>
    refine ⟨fun v => v, fun _ => ⟨rfl, rfl⟩, ?_⟩
    rw [← hplain, foldEvent, hsource]
  | some source =>
    cases hcond : truthy (conditionOf event) with
    | false =>
      refine ⟨fun v => v, fun _ => ⟨rfl, rfl⟩, ?_⟩
      rw [conditionOf] at hcond
      rw [← hplain, foldEvent, hsource]
      simp only [hcond, Bool.false_eq_true, if_false]
    | true =>
      refine ⟨fun v => updateHeads (registerHead view event) v source (itemOf host event),
        fun _ => ⟨rfl, rfl⟩, ?_⟩
      have hnone : failure host (registerHead view event) (itemOf host event) (conditionOf event) = none :=
        failure_registerHead.trans (h hcond)
      rw [conditionOf] at hcond hnone
      rw [itemOf] at hnone
      rw [foldEvent, hsource]
      simp only [hcond, if_true, hnone]
      cases applyEvent host (registerHead view event) event <;> rfl

/-- **An event whose precondition holds takes effect.** -/
theorem foldEvent_of_holds (h : truthy (conditionOf event) = true →
    failure host view (itemOf host event) (conditionOf event) = none) :
    (∃ next, foldEvent host view event = .ok next ∧ next.conflicts = view.conflicts ∧ ∀ id : String, next.work[id]? =
        if itemOf host event = id then itemUpdate host event view.work[id]? else view.work[id]?) ∨
      ∃ message, foldEvent host view event = .error (.knowledge message) ∧
        Knowledge.isKnowledgeType event.eventType = true := by
  have hregistered : (registerHead view event).conflicts = view.conflicts := by
    rw [registerHead]
    split <;> rfl
  obtain ⟨finish, hfinish, hfold⟩ := foldEvent_eq_map h
  cases happ : applyEvent host (registerHead view event) event with
  | error error =>
    obtain ⟨⟨message, rfl⟩, hknow⟩ := applyEvent_error happ
    rw [happ] at hfold
    exact .inr ⟨message, hfold, hknow⟩
  | ok applied =>
    rw [happ] at hfold
    refine .inl ⟨finish applied, hfold, ?_, fun id => ?_⟩
    · rw [(hfinish applied).2, applyEvent_conflicts happ, hregistered]
    · rw [(hfinish applied).1, (applyEvent_eq_ok happ).2 id, registerHead_work]

end

section

variable {host : Host} {start view : View} {decided : List (Json × Decided)} {input : TxEvent} {event : LogEvent}
  {n : Arithmetic}

/-- What `prepareEvents` makes of one event. -/
def prepareEvent (n : Arithmetic) (start : View) (decided : List (Json × Decided)) (input : TxEvent) : TxEvent :=
  match input.payload.field "id" with
  | some id =>
    if isGuarded input then
      { input with payload := withPrecondition input.payload (preconditionOf (currentOf n start decided id) input) }
    else input
  | none => input

/-- What it has decided behind that event. -/
def decideEvent (n : Arithmetic) (start : View) (decided : List (Json × Decided)) (input : TxEvent) :
    List (Json × Decided) :=
  match input.payload.field "id" with
  | some id => if isGuarded input then (id, decideNext (currentOf n start decided id) input) :: decided else decided
  | none => decided

theorem prepareFrom_eq (n : Arithmetic) (rest : List TxEvent) : prepareFrom n start decided (input :: rest) =
    prepareEvent n start decided input :: prepareFrom n start (decideEvent n start decided input) rest := by
  rw [prepareFrom, prepareEvent, decideEvent]
  cases input.payload.field "id" with
  | none => rfl
  | some id =>
    show (if isGuarded input = true then _ else _) = _
    cases isGuarded input <;> rfl

theorem prepareEvent_guarded {id : Json} (hid : input.payload.field "id" = some id)
    (hguarded : isGuarded input = true) : prepareEvent n start decided input =
        { input with payload := withPrecondition input.payload (preconditionOf (currentOf n start decided id) input) } ∧
      decideEvent n start decided input = (id, decideNext (currentOf n start decided id) input) :: decided := by
  rw [prepareEvent, decideEvent, hid]
  exact ⟨if_pos hguarded, if_pos hguarded⟩

theorem prepareEvent_unguarded (hguarded : isGuarded input = false) :
    prepareEvent n start decided input = input ∧ decideEvent n start decided input = decided := by
  rw [prepareEvent, decideEvent, hguarded]
  cases input.payload.field "id" with
  | none | some id => exact ⟨rfl, rfl⟩

section

variable (hin : Offered input)

include hin

theorem Offered.guarded_id (hguarded : isGuarded input = true) :
    ∃ s, input.payload.field "id" = some (.str s) ∧ s ≠ "" := by
  simp only [isGuarded, Bool.and_eq_true] at hguarded
  obtain ⟨⟨hwork, htruthy⟩, _⟩ := hguarded
  obtain ⟨s, hs⟩ := hin.id hwork
  rw [hs, truthy] at htruthy
  exact ⟨s, hs, of_decide_eq_true htruthy⟩

/-- **The precondition of an event of the batch holds when it is folded.** -/
theorem Offered.holds (hview : ∀ id : String, Comparable (fieldOf view.work[id]? "status"))
    (htracks : Tracks host.arithmetic start decided view)
    (hlogs : Logs (prepareEvent host.arithmetic start decided input) event)
    (hcond : truthy (conditionOf event) = true) :
    failure host view (itemOf host event) (conditionOf event) = none := by
  cases hguarded : isGuarded input with
  | true =>
    obtain ⟨s, hs, hne⟩ := hin.guarded_id hguarded
    rw [(prepareEvent_guarded hs hguarded).1] at hlogs
    have hpayload := hlogs.payload
    have hitem : itemOf host event = s := by
      rw [itemOf, member_prepared hs hpayload (by decide), hs]
      rfl
    have hcondition : conditionOf event = some (preconditionOf (decidedOf view.work[s]?) input).toJson := by
      rw [conditionOf, hpayload, withPrecondition, member_toJson, Fields.getElem?_insert', if_pos rfl, htracks s hne]
    rw [hitem, hcondition]
    exact hin.failure_eq_none (hview s)
  | false =>
    rw [(prepareEvent_unguarded hguarded).1] at hlogs
    rw [conditionOf, hlogs.payload] at hcond
    exact absurd (hcond.symm.trans (hin.bare hguarded)) (by decide)

/-- **The record goes on following the items** behind an event of the batch. -/
theorem Offered.tracks (htracks : Tracks host.arithmetic start decided view)
    (hlogs : Logs (prepareEvent host.arithmetic start decided input) event) {next : View}
    (hnext : ∀ id : String, next.work[id]? =
      if itemOf host event = id then itemUpdate host event view.work[id]? else view.work[id]?) :
    Tracks host.arithmetic start (decideEvent host.arithmetic start decided input) next := by
  intro id hid
  rw [hnext id]
  cases hguarded : isGuarded input with
  | true =>
    obtain ⟨s, hs, hne⟩ := hin.guarded_id hguarded
    obtain ⟨hprepared, hdecided⟩ := prepareEvent_guarded hs hguarded
    rw [hprepared] at hlogs
    have hitem : itemOf host event = s := by
      rw [itemOf, member_prepared hs hlogs.payload (by decide), hs]
      rfl
    rw [hdecided, currentOf_cons, hitem]
    by_cases hsame : s = id
    · subst hsame
      rw [if_pos rfl, if_pos rfl, hin.decideNext_eq hs hlogs.eventType hlogs.payload, htracks s hne]
    · rw [if_neg hsame, if_neg hsame]
      exact htracks id hid
  | false =>
    rw [(prepareEvent_unguarded hguarded).1] at hlogs
    rw [(prepareEvent_unguarded hguarded).2, htracks id hid]
    split
    · rename_i hitem
      rw [hin.unguarded hguarded hlogs hid hitem]
    · rfl

theorem Offered.members (hlogs : Logs (prepareEvent host.arithmetic start decided input) event)
    (hwork : "work.".toList.isPrefixOf input.eventType.toList = true) {k : String} (hk : "precondition" ≠ k) :
    (spread event.payload)[k]? = input.payload.field k ∧ member event.payload k = input.payload.field k := by
  obtain ⟨s, hs⟩ := hin.id hwork
  cases hguarded : isGuarded input with
  | true =>
    rw [(prepareEvent_guarded hs hguarded).1] at hlogs
    refine ⟨?_, member_prepared hs hlogs.payload hk⟩
    rw [hlogs.payload, withPrecondition, spread_toJson, Fields.getElem?_insert', if_neg hk, field_eq_spread hs]
  | false =>
    rw [(prepareEvent_unguarded hguarded).1] at hlogs
    rw [hlogs.payload]
    exact ⟨(field_eq_spread hs k).symm, rfl⟩

theorem Offered.writesComparably
    (hlogs : Logs (prepareEvent host.arithmetic start decided input) event) : WritesComparably event := by
  have htype : event.eventType = input.eventType := by
    rw [hlogs.eventType, prepareEvent]
    split
    · split <;> rfl
    · rfl
  constructor
  · intro hadd
    rw [htype] at hadd
    rw [(hin.members hlogs (by rw [hadd]; decide) (by decide)).1]
    exact hin.added hadd
  · intro hmove
    rw [htype] at hmove
    rw [(hin.members hlogs (by rw [hmove]; decide) (by decide)).2]
    exact hin.moved hmove
  · intro hedit
    rw [htype] at hedit
    rw [(hin.members hlogs (by rw [hedit]; decide) (by decide)).2, hin.edited hedit]
    rfl

end

/-- The rest of a batch folds, from where the events before it have led. -/
theorem foldEvents_batch {batch : List TxEvent} (hbatch : ∀ input ∈ batch, Offered input) {events : List LogEvent}
    (hevents : List.Forall₂ Logs (prepareFrom host.arithmetic start decided batch) events)
    (hview : ∀ id : String, Comparable (fieldOf view.work[id]? "status"))
    (htracks : Tracks host.arithmetic start decided view) :
    (∃ after, foldEvents host events view = .ok after ∧ after.conflicts = view.conflicts) ∨
      ∃ message, foldEvents host events view = .error (.knowledge message) ∧
        ∃ event ∈ events, Knowledge.isKnowledgeType event.eventType = true := by
  induction batch generalizing decided events view with
  | nil =>
    rw [prepareFrom, List.forall₂_nil_left_iff] at hevents
    subst hevents
    exact .inl ⟨view, rfl, rfl⟩
  | cons input batch ih =>
    obtain ⟨hin, hbatch⟩ := List.forall_mem_cons.mp hbatch
    rw [prepareFrom_eq, List.forall₂_cons_left_iff] at hevents
    obtain ⟨event, rest, hlogs, hrest, rfl⟩ := hevents
    rw [foldEvents]
    rcases foldEvent_of_holds (hin.holds hview htracks hlogs) with ⟨next, hstep, hconflicts, hnext⟩ |
      ⟨message, hstep, hknow⟩
    · have hview' : ∀ id : String, Comparable (fieldOf next.work[id]? "status") :=
        foldEvent_comparable (hin.writesComparably hlogs) hview hstep
      rw [hstep]
      rcases ih hbatch hrest hview' (hin.tracks htracks hlogs hnext) with ⟨after, hafter, hkept⟩ |
        ⟨message, herror, event', hmem, hknow⟩
      · exact .inl ⟨after, hafter, hkept.trans hconflicts⟩
      · exact .inr ⟨message, herror, event', List.mem_cons_of_mem _ hmem, hknow⟩
    · rw [hstep]
      exact .inr ⟨message, rfl, event, List.mem_cons_self, hknow⟩

end

/-- **A prepared batch applies on the view it was prepared on**: no event of it is recorded as a conflict, and none
throws on its precondition.  Only a knowledge event can stop the fold, by the registry's own validation. -/
theorem prepared_batch_applies (host : Host) {view : View} (hview : Reached host view) {batch : List TxEvent}
    (hbatch : ∀ input ∈ batch, Offered input) {events : List LogEvent}
    (hevents : List.Forall₂ Logs (prepareEvents host.arithmetic view batch) events) :
    (∃ after, foldEvents host events view = .ok after ∧ after.conflicts = view.conflicts) ∨
      ∃ message, foldEvents host events view = .error (.knowledge message) ∧
        ∃ event ∈ events, Knowledge.isKnowledgeType event.eventType = true :=
  foldEvents_batch hbatch hevents hview.comparable (tracks_start host.arithmetic)

/-! ### Two batches -/

namespace Batches

/-- The events of a log that carry what was prepared. -/
def logged (batch : List TxEvent) : List LogEvent :=
  batch.map fun event => LogEvent.ofEnvelope (Store.enveloped Store.Sample.linked event)

theorem logs_logged (batch : List TxEvent) : List.Forall₂ Logs batch (logged batch) := by
  rw [logged, List.forall₂_map_right_iff]
  exact List.forall₂_same.mpr fun _ _ => ⟨rfl, rfl⟩

def host : Host := Store.Sample.linked.toHost

def added : TxEvent := ⟨"work.add", .obj [("id", .str "fix"), ("status", .str "todo")], "t"⟩

/-- An edit with the one member in its patch. -/
def edited (name value : String) : TxEvent :=
  ⟨"work.edit", .obj [("id", .str "fix"), ("patch", .obj [(name, .str value)])], "t"⟩

def moved : TxEvent := ⟨"work.move", .obj [("id", .str "fix"), ("to", .str "done")], "t"⟩

def batch (edit : TxEvent) : List TxEvent := [added, edit, moved]

theorem offered_batch : ∀ input ∈ batch (edited "title" "Fix"), Offered input := by
  have hcomparable : ∀ s : String, Comparable (some (.str s)) := fun s => decide_eq_true rfl
  have hadded : Offered added :=
    { id := fun _ => ⟨"fix", rfl⟩
      added := fun _ => hcomparable "todo"
      moved := fun h => absurd h (by decide)
      edited := fun h => absurd h (by decide)
      capacity := rfl
      bare := fun _ => rfl }
  have hedited : Offered (edited "title" "Fix") :=
    { id := fun _ => ⟨"fix", rfl⟩
      added := fun h => absurd h (by decide)
      moved := fun h => absurd h (by decide)
      edited := fun _ => getElem?_spread_obj [("title", .str "Fix")] "status"
      capacity := rfl
      bare := fun _ => rfl }
  have hmoved : Offered moved :=
    { id := fun _ => ⟨"fix", rfl⟩
      added := fun h => absurd h (by decide)
      moved := fun _ => hcomparable "done"
      edited := fun h => absurd h (by decide)
      capacity := rfl
      bare := fun _ => rfl }
  simp [batch, hadded, hedited, hmoved]

def events (edit : TxEvent) : List LogEvent := logged (prepareEvents host.arithmetic View.empty (batch edit))

end Batches

/-- An item that is added, retitled and moved in one batch. -/
theorem added_edited_moved_applies : ∃ after, foldEvents Batches.host (Batches.events (Batches.edited "title" "Fix"))
    View.empty = .ok after ∧ after.conflicts = [] := by
  have happlies := prepared_batch_applies Batches.host .empty Batches.offered_batch (Batches.logs_logged _)
  rcases happlies with ⟨after, hafter, hconflicts⟩ | ⟨_, _, event, hmem, hknow⟩
  · exact ⟨after, hafter, hconflicts⟩
  · have hnone : ∀ event ∈ Batches.events (Batches.edited "title" "Fix"),
        Knowledge.isKnowledgeType event.eventType = false := by decide
    exact absurd (hnone event hmem) (by rw [hknow]; decide)

/-- The edit writes a status that the record does not see: the move expects the status the item was added with, and
the fold of the batch throws. -/
theorem edited_status_refuses : ¬ ∀ (host : Host) (view : View) (batch : List TxEvent) (events : List LogEvent),
    Reached host view → List.Forall₂ Logs (prepareEvents host.arithmetic view batch) events →
      foldEvents host events view ≠ .error .precondition ∧
        ∀ after, foldEvents host events view = .ok after → after.conflicts = view.conflicts := by
  intro h
  have hfold : (foldEvents Batches.host (Batches.events (Batches.edited "status" "doing")) View.empty).map
      (fun _ => ()) = .error .precondition := by decide
  have hne := (h Batches.host View.empty (Batches.batch (Batches.edited "status" "doing"))
    (Batches.events (Batches.edited "status" "doing")) .empty (Batches.logs_logged _)).1
  cases hresult : foldEvents Batches.host (Batches.events (Batches.edited "status" "doing")) View.empty with
  | ok after =>
    rw [hresult] at hfold
    cases hfold
  | error error =>
    rw [hresult] at hfold hne
    cases hfold
    exact hne rfl

end Forgent
