import Forgent.Members
import Forgent.ReplayLocal
import Forgent.Store

/-!
# Runs of one clone's store

What an operation decides goes through the gate: its events get their preconditions, are appended to the
clone's own stream and folded onto the view (`Appends`).  While the clone folds no foreign stream, no event
is ever skipped, and the preconditions leave no trace in the view: the gate makes of the view what the
drafts make of it, one after the other (`Appends.applied`).

`Transaction` lists what can happen between two boards, and `Run` the boards that are reached, with
everything that was handed to the gate.
-/

namespace Forgent

open Json Std.ExtTreeMap

/-! ### A payload with its precondition -/

theorem withPrecondition_toJson (p condition : Fields) :
    withPrecondition p.toJson condition = Fields.toJson (p.insert "precondition" condition.toJson) := by
  rw [withPrecondition, spread_toJson]

variable {p : Fields}

theorem member_withPrecondition {condition : Fields} {k : String} (hk : "precondition" ≠ k) :
    member (some (withPrecondition p.toJson condition)) k = p[k]? := by
  rw [withPrecondition_toJson, member_toJson, Fields.getElem?_insert', if_neg hk]

theorem withoutPrecondition_withPrecondition (p condition : Fields) :
    withoutPrecondition (some (withPrecondition p.toJson condition)) = withoutPrecondition (some p.toJson) := by
  rw [withoutPrecondition, withoutPrecondition, withPrecondition_toJson, spread_toJson, spread_toJson]
  apply ext_getElem?
  intro k
  rw [Fields.getElem?_erase', Fields.getElem?_erase', Fields.getElem?_insert']
  split <;> rfl

theorem keepAll_withPrecondition {condition : Fields} {keys : List String} (hkeys : "precondition" ∉ keys)
    (f : Fields) : f.keepAll (some (withPrecondition p.toJson condition)) keys = f.keepAll (some p.toJson) keys := by
  apply ext_getElem?
  intro k
  rw [Fields.getElem?_keepAll, Fields.getElem?_keepAll]
  split
  · rename_i hk
    rw [member_withPrecondition (fun heq => hkeys (heq ▸ hk)), member_toJson]
  · rfl

/-! ### One event of the clone's own stream -/

/-- The view without what the fold records of itself. -/
def View.core (view : View) : View := { view with streamHeads := ∅, preconditionHeads := ∅, conflicts := [] }

def Draft.event (d : Draft) (ts : String) : LogEvent where
  eventType := d.eventType
  payload := some d.payload.toJson
  ts := ts
  v := some 4
  source := none

section

variable {host : Host} {view view' : View}

theorem core_work : view.core.work = view.work := rfl

theorem core_modifyItem (id : String) (f : Fields → Fields) :
    (view.modifyItem id f).core = view.core.modifyItem id f := by
  show (View.modifyItem view id f).core = View.modifyItem view.core id f
  unfold View.modifyItem
  rw [core_work]
  split <;> rfl

theorem core_applyWorkEvent (event : LogEvent) :
    (applyWorkEvent host view event).core = applyWorkEvent host view.core event := by
  unfold applyWorkEvent
  split
  case h_1 | h_5 | h_9 | h_10 | h_11 | h_12 =>
    first
    | unfold workAdd
    | unfold workOutcome
    | (unfold workCallSummary; dsimp only)
    | unfold workDiscovery
    | unfold workGateApprove
    | unfold goalFocus
    split <;> rfl
  case h_2 =>
    unfold workMove View.modifyItem
    rw [core_work]
    dsimp only
    split <;> rfl
  case h_3 => exact core_modifyItem _ _
  case h_4 | h_15 => rfl
  case h_14 => exact core_modifyItem _ _
  case h_8 =>
    unfold workHandoff View.modifyItem
    rw [core_work]
    dsimp only
    split <;> rfl
  case h_6 | h_7 =>
    unfold workStep View.modifyItem
    rw [core_work]
    dsimp only
    split <;> rfl
  case h_13 =>
    unfold workResolveParkReason View.modifyItem
    rw [core_work]
    dsimp only
    split <;> rfl

/-! An event reads its precondition nowhere. -/

section

variable (p condition : Fields)

theorem moveItem_withPrecondition :
    moveItem (some (withPrecondition p.toJson condition)) = moveItem (some p.toJson) := by
  funext item
  simp (disch := decide) only [moveItem, member_withPrecondition, member_toJson, keepAll_withPrecondition]

theorem editItem_withPrecondition :
    editItem host (some (withPrecondition p.toJson condition)) = editItem host (some p.toJson) := by
  funext item
  simp (disch := decide) only [editItem, member_withPrecondition, member_toJson]

theorem stepItem_withPrecondition :
    stepItem host (some (withPrecondition p.toJson condition)) = stepItem host (some p.toJson) := by
  funext item
  simp (disch := decide) only [stepItem, member_withPrecondition, member_toJson, keepAll_withPrecondition]

theorem handoffItem_withPrecondition :
    handoffItem (some (withPrecondition p.toJson condition)) = handoffItem (some p.toJson) := by
  funext item
  simp (disch := decide) only [handoffItem, member_withPrecondition, member_toJson]

theorem resolveParkItem_withPrecondition :
    resolveParkItem (some (withPrecondition p.toJson condition)) = resolveParkItem (some p.toJson) := by
  funext item
  simp (disch := decide) only [resolveParkItem, member_withPrecondition, member_toJson]

theorem attemptItem_withPrecondition (ts : String) :
    attemptItem host (some (withPrecondition p.toJson condition)) ts = attemptItem host (some p.toJson) ts := by
  funext item
  simp (disch := decide) only [attemptItem, member_withPrecondition, member_toJson, keepAll_withPrecondition]

theorem moveGates_withPrecondition (gates : Table Fields) (id : String) :
    moveGates gates id (some (withPrecondition p.toJson condition)) = moveGates gates id (some p.toJson) := by
  have hkeep : ∀ f : Fields, f.keepAll (some (withPrecondition p.toJson condition))
      ["parentSnapshotAtAsk", "statusAtAsk", "durableStatusAtAsk", "rationale", "alternatives", "source", "askSource"] =
      f.keepAll (some p.toJson)
        ["parentSnapshotAtAsk", "statusAtAsk", "durableStatusAtAsk", "rationale", "alternatives", "source",
          "askSource"] := keepAll_withPrecondition (by decide)
  simp (disch := decide) only [moveGates, member_withPrecondition, member_toJson, hkeep]

theorem clarifyPassed_withPrecondition (id : String) :
    clarifyPassed host view (some (withPrecondition p.toJson condition)) id =
      clarifyPassed host view (some p.toJson) id := by
  unfold clarifyPassed
  split
  · rfl
  · simp (disch := decide) only [stepItem_withPrecondition, member_withPrecondition, member_toJson]

end

variable {d : Draft} {ts : String} {v : ℕ} {source : Option Source}

theorem applyWorkEvent_withPrecondition {condition : Fields}
    (hguarded : isGuarded ⟨d.eventType, d.payload.toJson, ts⟩ = true) :
    applyWorkEvent host view ⟨d.eventType, some (withPrecondition d.payload.toJson condition), ts, some v, source⟩ =
      applyWorkEvent host view (d.event ts) := by
  -- the types that hand their whole payload on are not guarded
  have hnot : ∀ t, d.eventType = t → isGuarded ⟨t, d.payload.toJson, ts⟩ = true := fun t ht => ht ▸ hguarded
  unfold applyWorkEvent Draft.event
  dsimp only
  split
  case h_4 ht => exact absurd (hnot _ ht) (by simp [isGuarded])
  case h_10 ht => exact absurd (hnot _ ht) (by simp [isGuarded])
  case h_12 ht => exact absurd (hnot _ ht) (by simp [isGuarded])
  case h_15 => rfl
  all_goals
    simp (disch := decide) only [workAdd, workMove, workEdit, workOutcome, workStep, workHandoff, workCallSummary,
      workGateApprove, workResolveParkReason, workAttempt, addedItem, moveGates_withPrecondition, moveSettlement,
      member_withPrecondition, member_toJson, withoutPrecondition_withPrecondition, moveItem_withPrecondition,
      editItem_withPrecondition, stepItem_withPrecondition, handoffItem_withPrecondition,
      resolveParkItem_withPrecondition, attemptItem_withPrecondition, clarifyPassed_withPrecondition, Option.isSome_some]

/-! ### The fold on one clone -/

/-- Only the clone's own stream was folded. -/
def OneClone (own : String) (view : View) : Prop := ∀ p ∈ view.streamHeads.toList, p.1 = own

variable {own : String} {e : Envelope}

theorem OneClone.registerHead (h : OneClone own view) (hkey : streamKey e = own) :
    OneClone own (registerHead view (.ofEnvelope e)) := by
  intro p hp
  have hget : (view.streamHeads.insert (streamKey e) (max (view.streamHeads.at (streamKey e)) e.seq))[p.1]? = some p.2 :=
    mem_toList_iff_getElem?_eq_some.mp hp
  rw [getElem?_insert] at hget
  split at hget
  · rename_i heq
    rw [← compare_key.mp heq, hkey]
  · exact h p (mem_toList_iff_getElem?_eq_some.mpr hget)

theorem OneClone.unseenEarlier (h : OneClone own view) (hkey : streamKey e = own) :
    unseenEarlier view (.ofEnvelope e) = false := by
  rw [Forgent.unseenEarlier, List.any_eq_false]
  intro p hp
  have hp : some p.1 = some (streamKey e) := by rw [h p hp, hkey]
  simp [LogEvent.ofEnvelope, hp, streamKey]

/-- **On one clone no event is skipped.** -/
theorem foldEvent_own (hone : OneClone own view) (hkey : streamKey e = own)
    (h : foldEvent host view (.ofEnvelope e) = .ok view') :
    ∃ applied, applyEvent host (registerHead view (.ofEnvelope e)) (.ofEnvelope e) = .ok applied ∧
      view'.core = applied.core ∧ view'.streamHeads = applied.streamHeads := by
  rw [foldEvent] at h
  split at h
  · rename_i hsource
    cases hsource
  · split at h
    · split at h
      · rw [hone.unseenEarlier hkey] at h
        cases h
      · obtain ⟨applied, happ, h⟩ := bind_eq_ok.mp h
        cases h
        exact ⟨applied, happ, rfl, rfl⟩
    · exact ⟨view', h, rfl, rfl⟩

theorem registerHead_core {event : LogEvent} : (registerHead view event).core = view.core := by
  rw [registerHead]
  split <;> rfl

/-- What the drafts make of a view, one after the other; what the knowledge registry makes of its events is
left open. -/
inductive Applied (host : Host) : View → List Draft → View → Prop
  | nil (view : View) : Applied host view [] view
  | work {view view' : View} {d : Draft} {drafts : List Draft} (ts : String) :
      Applied host (applyWorkEvent host view (d.event ts)) drafts view' → Applied host view (d :: drafts) view'
  | knowledge {view view' : View} {d : Draft} {drafts : List Draft} (knowledge : Knowledge) :
      Knowledge.isKnowledgeType d.eventType = true →
      Applied host { view with knowledge := knowledge } drafts view' → Applied host view (d :: drafts) view'

theorem applyWorkEvent_source : applyWorkEvent host view ⟨d.eventType, some d.payload.toJson, ts, some v, source⟩ =
      applyWorkEvent host view (d.event ts) := by
  unfold applyWorkEvent Draft.event
  dsimp only
  split <;> rfl

/-- The draft as the gate takes it. -/
def IsInput (d : Draft) (input : TxEvent) : Prop := input.eventType = d.eventType ∧ input.payload = d.payload.toJson

/-- What the gate has appended, without the envelope. -/
def TxEvent.ofEnvelope (e : Envelope) : TxEvent := ⟨e.eventType, e.payload, e.ts⟩

variable (view) in
theorem prepareFrom_cons (n : Arithmetic) (decided : List (Json × Decided)) (input : TxEvent) (rest : List TxEvent) :
    ∃ payload decided', prepareFrom n view decided (input :: rest) =
        ⟨input.eventType, payload, input.ts⟩ :: prepareFrom n view decided' rest ∧
      (payload = input.payload ∨ isGuarded input = true ∧ ∃ condition, payload = withPrecondition input.payload condition) := by
  rw [prepareFrom]
  split
  · split
    · rename_i hguarded
      exact ⟨_, _, rfl, .inr ⟨hguarded, _, rfl⟩⟩
    · exact ⟨_, _, rfl, .inl rfl⟩
  · exact ⟨_, _, rfl, .inl rfl⟩

/-- **The gate makes of the view what the drafts make of it.** -/
theorem foldEvents_applied {n : Arithmetic} {start : View} {decided : List (Json × Decided)}
    {drafts : List Draft} {inputs : List TxEvent} {appended : List Envelope} (hinputs : List.Forall₂ IsInput drafts inputs)
    (hprepared : appended.map TxEvent.ofEnvelope = prepareFrom n start decided inputs)
    (hown : ∀ e ∈ appended, streamKey e = own) (hone : OneClone own view)
    (h : foldEvents host (appended.map LogEvent.ofEnvelope) view = .ok view') :
    OneClone own view' ∧ Applied host view.core drafts view'.core := by
  induction hinputs generalizing decided appended view with
  | nil =>
    have hnil : appended = [] := List.map_eq_nil_iff.mp hprepared
    subst hnil
    cases h
    exact ⟨hone, .nil _⟩
  | @cons d input drafts inputs hinput _ ih =>
    obtain ⟨payload, decided', hcons, hpayload⟩ := prepareFrom_cons start n decided input inputs
    rw [hcons] at hprepared
    obtain ⟨e, rest, rfl, he, hrest⟩ := List.map_eq_cons_iff.mp hprepared
    obtain ⟨middle, hstep, h⟩ := bind_eq_ok.mp h
    obtain ⟨hkey, hown⟩ := List.forall_mem_cons.mp hown
    obtain ⟨applied, happ, hcore, hheads⟩ := foldEvent_own hone hkey hstep
    have hregistered : OneClone own (registerHead view (.ofEnvelope e)) :=
      hone.registerHead hkey
    have hmiddle : OneClone own middle := by
      rw [OneClone, hheads, (applyEvent_eq_ok happ).1]
      exact hregistered
    obtain ⟨hone', hrun⟩ := ih hrest hown hmiddle h
    refine ⟨hone', ?_⟩
    rw [hcore] at hrun
    -- the event is the draft, with or without a precondition
    have htype : e.eventType = d.eventType := (congrArg TxEvent.eventType he).trans hinput.1
    have hpayload' : e.payload = payload := congrArg TxEvent.payload he
    rw [applyEvent] at happ
    split at happ
    · rename_i hknow
      split at happ
      · rename_i knowledge _
        cases happ
        have hregisteredCore : (registerHead view (.ofEnvelope e)).core = view.core := registerHead_core
        refine .knowledge knowledge (htype ▸ hknow) ?_
        rw [← hregisteredCore]
        exact hrun
      · cases happ
    · cases happ
      refine .work input.ts ?_
      have happlied : (applyWorkEvent host (registerHead view (.ofEnvelope e)) (.ofEnvelope e)).core =
          applyWorkEvent host view.core (d.event input.ts) := by
        rw [core_applyWorkEvent, registerHead_core]
        show applyWorkEvent host view.core ⟨e.eventType, some e.payload, e.ts, some e.v, _⟩ = _
        have hts : e.ts = input.ts := congrArg TxEvent.ts he
        rw [htype, hpayload', hts]
        rcases hpayload with rfl | ⟨hguarded, condition, rfl⟩
        · rw [hinput.2, applyWorkEvent_source]
        · rw [hinput.2]
          refine applyWorkEvent_withPrecondition ?_
          rw [isGuarded, hinput.1, hinput.2] at hguarded
          exact hguarded
      rw [← happlied]
      exact hrun

end

/-! ### Transactions -/

/-- An added item is declared behind the others. -/
def declare (ids : List String) (d : Draft) : List String :=
  match d.eventType, d.payload["id"]? with
  | "work.add", some (.str id) => if id ∈ ids then ids else ids ++ [id]
  | _, _ => ids

namespace Store

variable (σ : Linked) {drafts : List Draft}

/-- The gate: the drafts are prepared on the view, appended to the clone's own stream, and folded. -/
def Appends (view : View) (drafts : List Draft) (view' : View) : Prop :=
  ∃ (inputs : List TxEvent) (appended : List Envelope) (cursor cursor' : Cursor),
    List.Forall₂ IsInput drafts inputs ∧
      appended.map TxEvent.ofEnvelope = prepareEvents σ.arithmetic view inputs ∧
      (∀ e ∈ appended, streamKey e = positionKey σ.origin "project") ∧
      closeTx σ.toHost ⟨view, cursor⟩ appended = .ok ⟨view', cursor'⟩

variable {σ}

/-- **On one clone the gate makes of the view what the drafts make of it.** -/
theorem Appends.applied {view view' : View} (h : Appends σ view drafts view')
    (hone : OneClone (positionKey σ.origin "project") view) :
    OneClone (positionKey σ.origin "project") view' ∧ Applied σ.toHost view.core drafts view'.core := by
  obtain ⟨inputs, appended, cursor, cursor', hinputs, hprepared, hown, hclose⟩ := h
  rw [closeTx] at hclose
  obtain ⟨folded, hfold, hclose⟩ := bind_eq_ok.mp hclose
  cases hclose
  exact foldEvents_applied hinputs hprepared hown hone hfold

variable (σ)

/-- A transaction that hands the drafts to the gate. -/
structure Records (b : Board) (drafts : List Draft) (b' : Board) : Prop where
  appends : Appends σ b.view drafts b'.view
  ids : b'.ids = drafts.foldl declare b.ids

/-- The types of events that other parts of the program hand to the gate. -/
def isOther (eventType : String) : Bool :=
  Knowledge.isKnowledgeType eventType ||
    ["decision", "work.outcome", "work.step", "work.discovery", "work.gate-approve", "goal.focus",
      "work.resolve-park-reason", "work.attempt"].contains eventType

inductive Transaction : Board → List Draft → Board → Prop
  | add {b b' : Board} {draft : Draft} (env : Env) (work : Fields) : addWork σ b env work = .ok draft →
      Records σ b [draft] b' → b'.claims = b.claims → Transaction b [draft] b'
  | edit {b b' : Board} {draft : Draft} (env : Env) (id : String) (patch role : Option Json) :
      editWork σ b env id patch role = .ok draft → Records σ b [draft] b' → b'.claims = b.claims →
      Transaction b [draft] b'
  | move {b b' : Board} {decision : Decision} (env : Env) (snapshot : Option PlanSnapshot) (prior : Option Fields)
      (engineDecision : Fields → Except Refusal (Option Fields)) (id : String) (args : Fields) :
      (∀ taken ∈ snapshot, ∃ view repo, snapshotPlanEvidence σ view repo id = some taken) →
      moveWorkOnce σ b env snapshot prior engineDecision id args = .ok decision →
      Records σ b decision.drafts b' → b'.claims = b.claims → Transaction b decision.drafts b'
  | settle {b b' : Board} {drafts : List Draft} (env : Env) (drift : Option DriftEvidence) (id : String)
      (targetClaimId : Option Json) (args : Fields) (now : String) :
      settleTx σ b env drift id targetClaimId args now = .ok (drafts, b'.claims) → Records σ b drafts b' →
      Transaction b drafts b'
  | call {b b' : Board} {draft : Draft} (env : Env) (id : String) (args : Fields) (openSyncDepth : ℕ) :
      Handoff.callEvent σ.toStoreHost b.view env.writer id args openSyncDepth = .ok draft →
      Records σ b [draft] b' → b'.claims = b.claims → Transaction b [draft] b'
  | callReturn {b b' : Board} {draft : Draft} (env : Env) (id : String) (note : Option Json) :
      Handoff.returnEvent b.view env.writer id note = .ok draft → Records σ b [draft] b' →
      b'.claims = b.claims → Transaction b [draft] b'
  | acquire {b : Board} {claims : Table Fields} (env : Env) (id : String) (args : Fields) (claimId now : String) :
      acquireClaim σ b env id args claimId now = .ok claims → Transaction b [] { b with claims := claims }
  | release {b : Board} {claims : Table Fields} (env : Env) (id : String) (claimId adminReason : Option Json) :
      releaseClaim σ b env id claimId adminReason = .ok claims → Transaction b [] { b with claims := claims }
  | other {b b' : Board} {drafts : List Draft} : (∀ d ∈ drafts, isOther d.eventType = true) → Records σ b drafts b' →
      b'.claims = b.claims → Transaction b drafts b'

def emptyBoard : Board where
  view := .empty
  ids := []
  claims := ∅

/-- The boards that runs reach, with everything that was handed to the gate, the oldest first. -/
inductive Run : List Draft → Board → Prop
  | start : Run [] emptyBoard
  | step {log drafts : List Draft} {b b' : Board} : Run log b → Transaction σ b drafts b' → Run (log ++ drafts) b'

/-! ### Runs that are computed -/

/-- The draft as the gate takes it. -/
def input (d : Draft) : TxEvent := ⟨d.eventType, d.payload.toJson, ""⟩

/-- An envelope of the clone's own stream, with what a fold reads of it. -/
def enveloped (event : TxEvent) : Envelope where
  v := 4
  eventType := event.eventType
  scope := .project
  origin := σ.origin
  stream := "project"
  seq := 1
  seen := ∅
  ts := event.ts
  src := ""
  schemaVersion := 1
  payload := event.payload
  h := ""

def folded (view : View) (drafts : List Draft) : Except FoldError View :=
  foldEvents σ.toHost
    (((prepareEvents σ.arithmetic view (drafts.map input)).map (enveloped σ)).map LogEvent.ofEnvelope) view

/-- The board behind the drafts. -/
def Board.after (b : Board) (drafts : List Draft) (claims : Table Fields) : Board where
  view := ((folded σ b.view drafts).toOption).getD b.view
  ids := drafts.foldl declare b.ids
  claims := claims

theorem records_after {b : Board} {claims : Table Fields}
    (h : (folded σ b.view drafts).toOption.isSome = true) : Records σ b drafts (Board.after σ b drafts claims) := by
  refine ⟨⟨drafts.map input, (prepareEvents σ.arithmetic b.view (drafts.map input)).map (enveloped σ), ⟨∅, ∅⟩,
    advance ⟨∅, ∅⟩ ((prepareEvents σ.arithmetic b.view (drafts.map input)).map (enveloped σ)), ?_, ?_, fun e he => ?_, ?_⟩,
    rfl⟩
  · rw [List.forall₂_map_right_iff]
    exact List.forall₂_same.mpr fun d _ => ⟨rfl, rfl⟩
  · rw [List.map_map]
    exact List.map_id _
  · obtain ⟨_, _, rfl⟩ := List.mem_map.mp he
    rfl
  · obtain ⟨view', hview⟩ := Option.isSome_iff_exists.mp h
    have hfold : foldEvents σ.toHost
        (((prepareEvents σ.arithmetic b.view (drafts.map input)).map (enveloped σ)).map LogEvent.ofEnvelope) b.view =
        .ok view' := by
      show folded σ b.view drafts = .ok view'
      cases hf : folded σ b.view drafts with
      | ok v =>
        rw [hf] at hview
        cases hview
        rfl
      | error err =>
        rw [hf] at hview
        cases hview
    rw [closeTx, hfold]
    show Except.ok _ = Except.ok _
    rw [Board.after, hview]
    rfl

/-- What an operation drafts, where it is accepted. -/
def drafted {α : Type} [Inhabited α] (result : Except Refusal α) : α := result.toOption.getD default

theorem eq_drafted {α : Type} [Inhabited α] {result : Except Refusal α} (h : result.toOption.isSome = true) :
    result = .ok (drafted result) := by
  cases result with
  | ok a => rfl
  | error refusal => cases h

/-! A small store, with what the domain `coding` declares. -/

namespace Sample

def roleGraph : RoleGraph where
  roles := ["implementer", "researcher", "reviewer", "helper", "advisor"]
  defaultRole := some "implementer"
  callstackCap := some 3
  edges := (∅ : Table (List CallEdge)).insert "executing"
    [⟨"implementer", "reviewer", "review", "async"⟩, ⟨"implementer", "advisor", "advise", "async"⟩,
      ⟨"reviewer", "researcher", "consult", "sync"⟩, ⟨"reviewer", "advisor", "advise", "async"⟩]

def policy : Policy where
  statusLabels := Std.ExtTreeMap.ofList [("backlog", "backlog"), ("todo", "todo"), ("doing", "in-progress"),
    ("blocked", "in-progress"), ("awaiting-human", "in-progress"), ("awaiting-approval", "review"),
    ("wontfix", "canceled")]
  parkReason := Std.ExtTreeMap.ofList [("blocked", "system-error"), ("awaiting-human", "human-question"),
    ("awaiting-approval", "natural-finish")]
  classification := Std.ExtTreeMap.ofList [("kind", ["bug", "chore", "design", "docs", "feature", "task"]),
    ("risk", ["light", "standard", "heavy"])]
  roleGraph := some roleGraph
  fieldSchema := []

def domain : Domain where
  workflows := (∅ : Table Workflow).insert "feature" { steps := [⟨"executing", some "execute"⟩], aliases := ∅ }
  defaultWorkflow := "feature"
  workflowFor := ∅

def linked : Linked where
  arithmetic := { decimal := fun _ => "", plusOne := fun v => v, atLeast := fun _ _ => false }
  domains := (∅ : Domains).insert "coding" domain
  policies := (∅ : Table Policy).insert "coding" policy
  domainNames := ["coding"]
  missingParts := fun _ _ => []
  origin := "a"
  digest := fun _ => "unchanged"
  planBelow := fun docs => docs ++ "/plan.md"

def env : Env where
  writer := .obj [("id", .str "agent")]
  cites := fun _ => true
  repo := { tip := fun _ => none, present := fun _ _ => false, inTree := fun _ => false, branchTip := fun _ => none }

def item (id status : String) (more : List (String × Option Json)) : Fields :=
  record ([("id", some (.str id)), ("title", some (.str id)), ("kind", some (.str "task")), ("status", some (.str status)),
    ("deps", some (.arr [])), ("risk", some (.str "light")), ("refs", some (.arr [])), ("verify", some (.str "npm test"))] ++
    more)

instance : Inhabited Draft := ⟨⟨"", ∅⟩⟩

instance : Inhabited Decision := ⟨⟨[], ∅⟩⟩

def added (b : Board) (work : Fields) : Board := Board.after linked b [drafted (addWork linked b env work)] b.claims

variable {log : List Draft} {b : Board} {id : String} {args : List (String × Option Json)}

theorem run_added {work : Fields} (hrun : Run linked log b)
    (hadd : (addWork linked b env work).toOption.isSome = true)
    (hfold : (folded linked b.view [drafted (addWork linked b env work)]).toOption.isSome = true) :
    Run linked (log ++ [drafted (addWork linked b env work)]) (added b work) :=
  .step hrun (.add env work (eq_drafted hadd) (records_after linked hfold) rfl)

def move (b : Board) (id : String) (args : List (String × Option Json)) : Except Refusal Decision :=
  moveWorkOnce linked b env none none (fun _ => .ok none) id (record args)

def moved (b : Board) (id : String) (args : List (String × Option Json)) : Board :=
  Board.after linked b (drafted (move b id args)).drafts b.claims

theorem run_moved (hrun : Run linked log b) (hmove : (move b id args).toOption.isSome = true)
    (hfold : (folded linked b.view (drafted (move b id args)).drafts).toOption.isSome = true) :
    Run linked (log ++ (drafted (move b id args)).drafts) (moved b id args) :=
  .step hrun (.move env none none _ id _ (by simp) (eq_drafted hmove) (records_after linked hfold) rfl)

def acquire (b : Board) (id : String) (args : List (String × Option Json)) : Except Refusal (Table Fields) :=
  acquireClaim linked b env id (record args) "claim" "now"

def claimed (b : Board) (id : String) (args : List (String × Option Json)) : Board :=
  { b with claims := drafted (acquire b id args) }

theorem run_claimed (hrun : Run linked log b) (hacquire : (acquire b id args).toOption.isSome = true) :
    Run linked (log ++ []) (claimed b id args) :=
  .step hrun (.acquire env id _ "claim" "now" (eq_drafted hacquire))

def settle (b : Board) (id : String) (args : List (String × Option Json)) :
    Except Refusal (List Draft × Table Fields) :=
  settleTx linked b env none id (some (.str "claim")) (record args) "now"

def settled (b : Board) (id : String) (args : List (String × Option Json)) : Board :=
  Board.after linked b (drafted (settle b id args)).1 (drafted (settle b id args)).2

theorem settle_eq (h : (settle b id args).toOption.isSome = true) :
    settle b id args = .ok ((drafted (settle b id args)).1, (settled b id args).claims) := eq_drafted h

def claimOfBlocked : List (String × Option Json) :=
  [("actor", some (.str "agent")), ("preClaimStatus", some (.str "blocked"))]

def delivery : List (String × Option Json) := [("finalStatus", some (.str "delivered"))]

end Sample

end Store

end Forgent
