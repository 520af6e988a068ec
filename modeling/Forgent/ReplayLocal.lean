import Forgent.GateFold

/-!
# What the fold of an event touches

An event touches one item, the one its payload names, and what it makes of the item depends on the item
alone (`applyWorkEvent_work`).  The fold registers every event in `streamHeads`, also one that it skips
(`foldOrder_streamHeads`), so the heads are the cover of what was folded.  Whether an event is skipped
depends on its item alone too, unless its precondition asks for capacity; so as long as no event about an
item does, the item is what the events about it make of it (`foldEvents_item`).
-/

namespace Forgent

open Json List

section

variable (host : Host) {id : String} {condition : Option Json}

def itemOf (event : LogEvent) : String := Json.key host.arithmetic (member event.payload "id")

/-- What the writer of the event relied on. -/
def conditionOf (event : LogEvent) : Option Json := member event.payload "precondition"

/-- Whether the precondition looks at other items too. -/
def asksCapacity (event : LogEvent) : Bool := truthy (member (conditionOf event) "capacity")

/-- What an event makes of the item it is about. -/
def itemUpdate (event : LogEvent) (item : Option Fields) : Option Fields :=
  match event.eventType with
  | "work.add" =>
    match member event.payload "id" with
    | some (.str _) => some (addedItem host event.payload)
    | _ => item
  | "work.move" => item.map (moveItem event.payload)
  | "work.edit" => item.map (editItem host event.payload)
  | "work.stage" | "work.step" => item.map (stepItem host event.payload)
  | "work.handoff" => item.map (handoffItem event.payload)
  | "work.resolve-park-reason" => item.map (resolveParkItem event.payload)
  | "work.attempt" => item.map (attemptItem host event.payload event.ts)
  | _ => item

/-- Why a precondition that asks for no capacity does not hold of the item. -/
def itemFailure (condition : Option Json) (item : Option Fields) : Option Reason :=
  let c := member condition
  if (c "exists").isSome && !same (some (.bool item.isSome)) (c "exists") then some .existence
  else if (c "expectedStatus").isSome &&
      !same (item.bind fun i : Fields => i["status"]?) (c "expectedStatus") then some .expectedStatus
  else none

/-- What the fold of an event makes of the item it is about. -/
def itemStep (item : Option Fields) (event : LogEvent) : Option Fields :=
  if truthy (conditionOf event) && (itemFailure (conditionOf event) item).isSome then item
  else itemUpdate host event item

/-! ### One event -/

variable {host} {view : View} {event : LogEvent}

theorem modifyItem_work (id id' : String) (f : Fields → Fields) :
    (view.modifyItem id f).work[id']? = if id = id' then view.work[id']?.map f else view.work[id']? := by
  rw [View.modifyItem]
  cases hitem : view.work[id]? with
  | none =>
    show view.work[id']? = _
    split
    · rename_i hid
      rw [← hid, hitem]
      rfl
    · rfl
  | some item =>
    show (view.work.insert id (f item))[id']? = _
    rw [Std.ExtTreeMap.getElem?_insert]
    simp only [compare_eq_iff_eq]
    split
    · rename_i hid
      rw [← hid, hitem]
      rfl
    · rfl

@[simp] theorem modifyItem_streamHeads (id : String) (f : Fields → Fields) :
    (view.modifyItem id f).streamHeads = view.streamHeads := by
  rw [View.modifyItem]
  split <;> rfl

/-- **An event touches its item alone**, and makes of it what it makes of that item. -/
theorem applyWorkEvent_work (id : String) : (applyWorkEvent host view event).work[id]? =
    if itemOf host event = id then itemUpdate host event view.work[id]? else view.work[id]? := by
  have hsame : ∀ item : Option Fields, item = if itemOf host event = id then item else item := fun item => by
    split <;> rfl
  obtain ⟨eventType, payload, ts, v, source⟩ := event
  unfold applyWorkEvent
  dsimp only
  split
  case h_1 =>
    rw [workAdd]
    show _ = if _ then (match member payload "id" with
      | some (.str _) => some (addedItem host payload)
      | _ => view.work[id]?) else _
    cases hid : member payload "id" with
    | none => exact hsame _
    | some value =>
      cases value with
      | str s =>
        have hitem : itemOf host ⟨"work.add", payload, ts, v, source⟩ = s := by
          rw [itemOf, hid]
          rfl
        show (view.work.insert s (addedItem host payload))[id]? = _
        rw [Std.ExtTreeMap.getElem?_insert, hitem]
        simp only [compare_eq_iff_eq]
      | _ => exact hsame _
  case h_2 | h_3 | h_6 | h_7 | h_8 | h_13 | h_14 => exact modifyItem_work _ _ _
  case h_4 => exact hsame _
  case h_5 | h_9 | h_10 | h_11 | h_12 =>
    first | rw [workOutcome] | rw [workCallSummary] | rw [workDiscovery] | rw [workGateApprove] | rw [goalFocus]
    split <;> exact hsame _
  case h_15 =>
    have hnone : itemUpdate host ⟨eventType, payload, ts, v, source⟩ view.work[id]? = view.work[id]? := by
      rw [itemUpdate]
      split <;> first | rfl | contradiction
    rw [hnone]
    exact hsame _

theorem applyWorkEvent_streamHeads : (applyWorkEvent host view event).streamHeads = view.streamHeads := by
  unfold applyWorkEvent
  split
  case h_2 => exact modifyItem_streamHeads _ _
  case h_3 => exact modifyItem_streamHeads _ _
  case h_6 => exact modifyItem_streamHeads _ _
  case h_7 => exact modifyItem_streamHeads _ _
  case h_8 => exact modifyItem_streamHeads _ _
  case h_13 => exact modifyItem_streamHeads _ _
  case h_14 => exact modifyItem_streamHeads _ _
  case h_1 =>
    rw [workAdd]
    split <;> rfl
  case h_5 | h_9 | h_10 | h_11 | h_12 =>
    first | rw [workOutcome] | rw [workCallSummary] | rw [workDiscovery] | rw [workGateApprove] | rw [goalFocus]
    split <;> rfl
  all_goals rfl

variable {next : View}

theorem applyEvent_eq_ok (h : applyEvent host view event = .ok next) :
    next.streamHeads = view.streamHeads ∧ ∀ id, next.work[id]? =
      if itemOf host event = id then itemUpdate host event view.work[id]? else view.work[id]? := by
  rw [applyEvent] at h
  split at h
  · rename_i hknow
    split at h
    · cases h
      refine ⟨rfl, fun id => ?_⟩
      -- a knowledge event is of none of the types that update an item
      have hnone : itemUpdate host event view.work[id]? = view.work[id]? := by
        rw [itemUpdate]
        split <;> first | rfl | (rename_i ht; rw [ht] at hknow; exact absurd hknow (by decide))
      rw [hnone]
      split <;> rfl
    · cases h
  · cases h
    exact ⟨applyWorkEvent_streamHeads, applyWorkEvent_work⟩

theorem applyEvent_ne_precondition : applyEvent host view event ≠ .error .precondition := by
  rw [applyEvent]
  split
  · split
    · exact fun h => nomatch h
    · exact fun h => nomatch h
  · exact fun h => nomatch h

theorem failure_eq_itemFailure (h : truthy (member condition "capacity") = false) :
    failure host view id condition = itemFailure condition view.work[id]? := by
  rw [failure, itemFailure]
  simp only [h, Bool.false_and, Bool.false_eq_true, if_false]

/-- **What the fold of an event does.** -/
theorem foldEvent_cases (h : foldEvent host view event = .ok next) :
    (∃ reason, event.source ≠ none ∧ truthy (conditionOf event) = true ∧
      failure host (registerHead view event) (itemOf host event) (conditionOf event) = some reason ∧
      next.work = view.work ∧ next.streamHeads = (registerHead view event).streamHeads) ∨
    ((event.source ≠ none → truthy (conditionOf event) = true →
      failure host (registerHead view event) (itemOf host event) (conditionOf event) = none) ∧
      ∃ applied, applyEvent host (registerHead view event) event = .ok applied ∧
        next.work = applied.work ∧ next.streamHeads = applied.streamHeads) := by
  rw [foldEvent] at h
  split at h
  · rename_i hsource
    exact .inr ⟨fun hne => absurd hsource hne, next, h, rfl, rfl⟩
  · rename_i source hsource
    split at h
    · rename_i hcond
      split at h
      · rename_i reason hfail
        split at h
        · cases h
          refine .inl ⟨reason, by simp [hsource], hcond, hfail, ?_, rfl⟩
          show (registerHead view event).work = view.work
          rw [registerHead, hsource]
        · cases h
      · rename_i hfail
        obtain ⟨applied, happ, h⟩ := bind_eq_ok.mp h
        cases h
        exact .inr ⟨fun _ _ => hfail, applied, happ, rfl, rfl⟩
    · rename_i hcond
      exact .inr ⟨fun _ hc => absurd hc hcond, next, h, rfl, rfl⟩

theorem registerHead_work : (registerHead view event).work = view.work := by
  rw [registerHead]
  split <;> rfl

theorem failure_registerHead :
    failure host (registerHead view event) id condition = failure host view id condition := by
  unfold failure statusCount
  rw [registerHead_work]

theorem foldEvent_streamHeads (h : foldEvent host view event = .ok next) :
    next.streamHeads = (registerHead view event).streamHeads := by
  rcases foldEvent_cases h with ⟨_, _, _, _, _, hheads⟩ | ⟨_, applied, happ, _, hheads⟩
  · exact hheads
  · exact hheads.trans (applyEvent_eq_ok happ).1

theorem foldEvent_item (hsource : event.source ≠ none) (h : foldEvent host view event = .ok next)
    (hcap : itemOf host event = id → asksCapacity event = false) : next.work[id]? =
      if itemOf host event = id then itemStep host view.work[id]? event else view.work[id]? := by
  rcases foldEvent_cases h with ⟨reason, _, hcond, hfail, hwork, _⟩ | ⟨hholds, applied, happ, hwork, _⟩
  · rw [hwork]
    split
    · rename_i hid
      rw [failure_registerHead, failure_eq_itemFailure (hcap hid), hid] at hfail
      rw [itemStep, hcond, hfail]
      rfl
    · rfl
  · rw [hwork, (applyEvent_eq_ok happ).2 id, registerHead_work]
    split
    · rename_i hid
      rw [itemStep]
      cases hcond : truthy (conditionOf event) with
      | false => rfl
      | true =>
        have hnone := hholds hsource hcond
        rw [failure_registerHead, failure_eq_itemFailure (hcap hid), hid] at hnone
        rw [hnone]
        rfl
    · rfl

theorem foldEvent_precondition (h : foldEvent host view event = .error .precondition) :
    event.source ≠ none ∧ truthy (conditionOf event) = true ∧
      failure host view (itemOf host event) (conditionOf event) ≠ none ∧ unseenEarlier view event = false := by
  rw [foldEvent] at h
  split at h
  · exact absurd h applyEvent_ne_precondition
  · rename_i source hsource
    split at h
    · rename_i hcond
      split at h
      · rename_i reason hfail
        split at h
        · cases h
        · rename_i hunseen
          have hfail' : failure host view (itemOf host event) (conditionOf event) = some reason :=
            failure_registerHead.symm.trans hfail
          exact ⟨by simp [hsource], hcond, by simp [hfail'], by simpa using hunseen⟩
      · cases happ : applyEvent host (registerHead view event) event with
        | ok applied =>
          rw [happ] at h
          cases h
        | error err =>
          rw [happ] at h
          cases h
          exact absurd happ applyEvent_ne_precondition
    · exact absurd h applyEvent_ne_precondition

end

/-! ### A whole fold -/

section

variable {host : Host} {legacy : List LogEvent} {view next : View} {events : List LogEvent} {w : List Envelope}

theorem foldEvents_error {err : FoldError}
    (h : foldEvents host events view = .error err) : ∃ p e s middle, events = p ++ e :: s ∧
      foldEvents host p view = .ok middle ∧ foldEvent host middle e = .error err := by
  induction events generalizing view with
  | nil => cases h
  | cons event events ih =>
    rw [foldEvents] at h
    cases hstep : foldEvent host view event with
    | error err' =>
      rw [hstep] at h
      cases h
      exact ⟨[], event, events, view, rfl, rfl, hstep⟩
    | ok next =>
      rw [hstep] at h
      obtain ⟨p, e, s, middle, hps, hp, he⟩ := ih h
      refine ⟨event :: p, e, s, middle, by rw [hps]; rfl, ?_, he⟩
      rw [foldEvents, hstep]
      exact hp

theorem foldEvents_singleton {event : LogEvent} :
    foldEvents host [event] view = .ok next ↔ foldEvent host view event = .ok next := by
  rw [foldEvents, bind_eq_ok]
  constructor
  · rintro ⟨v, hv, h⟩
    cases h
    exact hv
  · exact fun h => ⟨next, h, rfl⟩

theorem foldOrder_snoc {e : Envelope} :
    foldOrder host legacy (w ++ [e]) = .ok next ↔ ∃ view, foldOrder host legacy w = .ok view ∧
      foldEvent host view (.ofEnvelope e) = .ok next := by
  rw [foldOrder, map_append, ← append_assoc, foldEvents_append_eq_ok]
  exact exists_congr fun view => and_congr_right fun _ => foldEvents_singleton

theorem foldEvents_legacy_streamHeads (hlegacy : ∀ e ∈ events, e.source = none)
    (h : foldEvents host events view = .ok next) : next.streamHeads = view.streamHeads := by
  induction events generalizing view with
  | nil =>
    cases h
    rfl
  | cons event events ih =>
    obtain ⟨hsource, hrest⟩ := forall_mem_cons.mp hlegacy
    obtain ⟨middle, hstep, h⟩ := bind_eq_ok.mp h
    rw [ih hrest h, foldEvent_streamHeads hstep, registerHead, hsource]

/-- **The heads of a view are the cover of what was folded.** -/
theorem foldOrder_streamHeads (hlegacy : ∀ e ∈ legacy, e.source = none)
    (h : foldOrder host legacy w = .ok view) : view.streamHeads = coverOf w := by
  induction w using reverseRecOn generalizing view with
  | nil =>
    rw [foldOrder, map_nil, append_nil] at h
    exact foldEvents_legacy_streamHeads hlegacy h
  | append_singleton w e ih =>
    obtain ⟨before, hbefore, hstep⟩ := foldOrder_snoc.mp h
    rw [foldEvent_streamHeads hstep, coverOf_snoc, ← ih hbefore]
    rfl

/-- **An item is what the events about it make of it**, while none of them asks for capacity. -/
theorem foldEvents_item {id : String} {events : List Envelope}
    (hcap : ∀ e ∈ events, itemOf host (.ofEnvelope e) = id → asksCapacity (.ofEnvelope e) = false)
    (h : foldEvents host (events.map LogEvent.ofEnvelope) view = .ok next) :
    next.work[id]? = (events.filter fun e => itemOf host (.ofEnvelope e) = id).foldl
      (fun item e => itemStep host item (.ofEnvelope e)) view.work[id]? := by
  induction events generalizing view with
  | nil =>
    cases h
    rfl
  | cons e events ih =>
    obtain ⟨hcape, hcap⟩ := forall_mem_cons.mp hcap
    obtain ⟨middle, hstep, h⟩ := bind_eq_ok.mp h
    have hitem : middle.work[id]? = _ := foldEvent_item (by simp [LogEvent.ofEnvelope]) hstep hcape
    rw [ih hcap h, hitem]
    by_cases hid : itemOf host (.ofEnvelope e) = id
    · rw [if_pos hid, filter_cons_of_pos (by simpa using hid), foldl_cons]
    · rw [if_neg hid, filter_cons_of_neg (by simpa using hid)]

end

end Forgent
