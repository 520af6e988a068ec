import Forgent.Workflow.Ledger

/-!
# The projection of a case

The fold from a case's events to what admission reads: the milestones with the digests of their subjects, the
reservations, the bindings and what is left of the frame.  The digest a subject has now is computed by the
caller (`playbookSubjectDigests`) and passed in.

* `CaseFold.step`, `projectCase`: the fold.
* `stepSubjectDigest`, `playbookSubjectDigests`: the digests of a Playbook's subjects, from the reports its Units
  left.
-/

namespace Forgent.Workflow

/-- Who may name a receipt. -/
def receiptEvaluators : List String := ["harness-verify", "reviewer-verdict", "gate-answer"]

def rigorOrder : List String := ["low", "standard", "high", "critical"]

/-- A receipt of a named evaluator that passed and says which milestone and which subject digest it covers. -/
def isValidReceipt (receipt : Receipt) (milestone : String) (subjectDigest : Option String) : Bool :=
  receiptEvaluators.contains receipt.evaluator && receipt.passed && receipt.milestone == some milestone &&
    receipt.subjectDigest.isSome && receipt.subjectDigest == subjectDigest

/-! ### Milestones -/

/-- What a milestone was reached by. -/
structure Achievement where
  digest : Option String
  consent : Bool
  receipts : List Receipt
  outcome : Option String
  inheritedFrom : Option String
  deriving DecidableEq

inductive Milestone where
  | unreached
  | achieved (by_ : Achievement)
  | blocked (question : String)
  /-- Reached for another version of its subject; `current` is none when it cannot be known. -/
  | stale (by_ : Achievement) (prior : String) (current : Option String)
  deriving DecidableEq

structure Attempt extends Reservation where
  settled : Bool
  outcome : Option String
  seatLaunchesUsed : Option ℕ
  deriving DecidableEq

structure RefusedAchievement where
  milestone : String
  reservationId : String
  reason : String
  deriving DecidableEq

/-- What the fold carries from event to event. -/
structure CaseFold where
  milestones : Table Milestone
  reservations : List Attempt
  bindings : List Binding
  routes : List Route
  blindUnitRuns : Table (Option String)
  refusedAchievements : List RefusedAchievement
  closed : Option (Option String)
  frameExhausted : Bool

namespace CaseFold

/-- No milestone is reached yet. -/
def initial (guide : Option Guide) : CaseFold where
  milestones := ((guide.map Guide.milestones).getD []).foldl (fun table id => table.insert id .unreached) ∅
  reservations := []
  bindings := []
  routes := []
  blindUnitRuns := ∅
  refusedAchievements := []
  closed := none
  frameExhausted := false

variable (fold : CaseFold)

/-- Only a milestone the guide has is reached. -/
def achieve (id : String) (by_ : Achievement) : CaseFold :=
  if fold.milestones.contains id then { fold with milestones := fold.milestones.insert id (.achieved by_) } else fold

def achieveIfUnreached (id : String) (digest : Option String) : CaseFold :=
  if fold.milestones[id]? = some .unreached then fold.achieve id ⟨digest, false, [], none, none⟩ else fold

def reserve (reservation : Reservation) : CaseFold :=
  let attempt : Attempt := { reservation with settled := false, outcome := none, seatLaunchesUsed := none }
  { fold with
    reservations :=
      if fold.reservations.any (·.reservationId == reservation.reservationId) then
        fold.reservations.map fun r => if r.reservationId = reservation.reservationId then attempt else r
      else fold.reservations ++ [attempt] }

def attemptOf (reservationId : String) : Option Attempt :=
  fold.reservations.find? (·.reservationId == reservationId)

/-- A settle accepts a milestone on `pass`, a delivery milestone only with a receipt, and any other also on
`findings`. -/
def accepts (guide : Option Guide) (p : Settle) (item : Achieved) : Bool :=
  let delivery := guide.any (·.isDeliveryMilestone item.milestone)
  (p.outcome == "pass" && (!delivery || p.receipts.any (isValidReceipt · item.milestone item.subjectDigest))) ||
    (p.outcome == "findings" && !delivery)

def refuseAchievement (guide : Option Guide) (p : Settle) (item : Achieved) : CaseFold :=
  let delivery := guide.any (·.isDeliveryMilestone item.milestone)
  { fold with
    refusedAchievements := fold.refusedAchievements ++
      [⟨item.milestone, p.reservationId,
        if delivery && p.outcome == "pass" then "receipt-missing" else "outcome-" ++ p.outcome⟩] }

def settleItem (guide : Option Guide) (p : Settle) (item : Achieved) : CaseFold :=
  if accepts guide p item then fold.achieve item.milestone ⟨item.subjectDigest, false, p.receipts, some p.outcome, none⟩
  else fold.refuseAchievement guide p item

def settleAttempt (p : Settle) : CaseFold :=
  { fold with
    reservations := fold.reservations.map fun r =>
      if r.reservationId = p.reservationId then
        { r with
          settled := true, outcome := some p.outcome, seatLaunchesUsed := p.seatLaunchesUsed,
          unitRunId := p.unitRunId.or r.unitRunId }
      else r
    frameExhausted := fold.frameExhausted || p.frameExhausted
    blindUnitRuns := match p.blind, truthy p.unitRunId with
      | true, some unitRunId =>
        fold.blindUnitRuns.insert unitRunId (p.activity.or ((fold.attemptOf p.reservationId).bind (·.activity)))
      | _, _ => fold.blindUnitRuns }

def settle (guide : Option Guide) (p : Settle) : CaseFold :=
  p.achieved.foldl (fun fold item => fold.settleItem guide p item) (fold.settleAttempt p)

def bind (p : Binding) : CaseFold :=
  { fold with
    bindings := match p.state with
      | .unbound => fold.bindings.filter (·.key ≠ p.key)
      | .bound =>
        if fold.bindings.any (·.key == p.key) then fold.bindings.map fun b => if b.key = p.key then p else b
        else fold.bindings ++ [p] }

end CaseFold

def modeOf (legacy : WorkflowState) (p : GateAnswer) : GateMode :=
  (((legacy.steps[p.stepId]?.bind StepState.gate).bind StepGate.mode).or p.mode).getD .consent

def settlesGate (legacy : WorkflowState) (p : GateAnswer) : Bool := modeOf legacy p == .input || p.approved

/-- The milestones an answer reaches. -/
def answeredMilestones (guide : Option Guide) (p : GateAnswer) : List String :=
  p.milestones.getD ((guide.map (·.producesOf p.stepId)).getD [])

def gateReceipt : Receipt := ⟨"gate-answer", true, none, none⟩

namespace CaseFold

variable (guide : Option Guide) (legacy : WorkflowState) (fold : CaseFold)

/-- The case opens: the request was received, and what a closed case of the same plan reached is taken over. -/
def open_ (p : CaseOpened) : CaseFold :=
  (((p.inherits.map fun inherits => inherits.milestones.map (inherits.fromCase, ·)).getD []).foldl
    (fun fold item => fold.achieve item.2.milestone
      ⟨item.2.subjectDigest, false, item.2.receipts, item.2.outcome, some item.1⟩)
    (fold.achieve "request-received" ⟨p.requestDigest, false, [], none, none⟩))

def completeStep (p : StepComplete) : CaseFold :=
  ((guide.map (·.producesOf p.stepId)).getD []).foldl (fun fold id => fold.achieveIfUnreached id p.subjectDigest) fold

def answerGate (p : GateAnswer) : CaseFold :=
  if settlesGate legacy p then
    (answeredMilestones guide p).foldl (fun fold id => fold.achieve id
      ⟨p.subjectDigest, modeOf legacy p == .consent, [gateReceipt], none, none⟩) fold
  else fold

def step : Event → CaseFold
  | .caseOpened p => fold.open_ p
  | .stepComplete p => fold.completeStep guide p
  | .gateAnswer p => fold.answerGate guide legacy p
  | .reservation p => fold.reserve p
  | .settle p => fold.settle guide p
  | .route p => { fold with routes := fold.routes ++ [p] }
  | .binding p => fold.bind p
  | .caseClosed reason => { fold with closed := some reason }
  | .workflowStart _ | .stepStart _ | .unitScheduled _ | .unitStarted _ _ _ | .unitComplete _ | .gatePark _
  | .stepFail _ | .workflowWorktrees _ | .workflowFail _ | .workflowComplete _ | .other _ => fold

end CaseFold

/-! ### The projection -/

/-- What is left of a count; `none` when the count is not known. -/
def remaining (limit : Option ℕ) (used : ℕ) : Option ℕ := limit.map (· - used)

structure FrameRemaining where
  dispatches : Option ℕ
  mutatingDispatches : Option ℕ
  deviationsBeforeAsk : Option ℕ
  seatLaunchesPerDispatch : Option ℕ
  fallbackPerSeat : Option ℕ
  rigorFloor : Option String
  deriving DecidableEq

/-- A decision point, and whether its milestone is reached. -/
structure RoutePoint extends Decision where
  isOpen : Bool
  deriving DecidableEq

structure Projection where
  caseId : Option String
  kind : GuideKind
  guide : Option Guide
  guideRef : Option GuideRef
  frame : Option Frame
  status : Status
  closed : Option (Option String)
  milestones : Table Milestone
  refusedAchievements : List RefusedAchievement
  reservations : List Attempt
  blindUnitRuns : Table (Option String)
  frameExhausted : Bool
  routes : List Route
  openGates : List Question
  bindings : List Binding
  /-- The consent gates that are parked. -/
  parkedConsent : List String

namespace Projection

variable (projection : Projection)

def isOpen : Bool := projection.closed.isNone

def achieved (id : String) : Bool :=
  match projection.milestones[id]? with
  | some (.achieved _) => true
  | _ => false

/-- A nested case's charge spends frame but is no attempt that may still be running. -/
def liveReservations : List Attempt := projection.reservations.filter fun r => !r.settled && r.nested.isNone

/-- A reservation given back (refunded, or its run never started) spends nothing of the frame. -/
def counting : List Attempt :=
  projection.reservations.filter fun r =>
    !(r.settled && (r.outcome == some "refunded" || r.outcome == some "not-started"))

def frameUsed : Counters where
  dispatches := (projection.counting.map fun r => (r.counters.map Counters.dispatches).getD 1).sum
  mutatingDispatches := (projection.counting.map fun r => (r.counters.map Counters.mutatingDispatches).getD 0).sum

def deviations : ℕ := projection.routes.countP (·.routeKind == .unlisted)

def frameRemaining : FrameRemaining where
  dispatches := remaining (projection.frame.bind Frame.dispatches) projection.frameUsed.dispatches
  mutatingDispatches :=
    remaining (projection.frame.bind Frame.mutatingDispatches) projection.frameUsed.mutatingDispatches
  deviationsBeforeAsk := remaining (projection.frame.bind Frame.deviationsBeforeAsk) projection.deviations
  seatLaunchesPerDispatch := projection.frame.bind Frame.seatLaunchesPerDispatch
  fallbackPerSeat := projection.frame.bind Frame.fallbackPerSeat
  rigorFloor := projection.frame.bind Frame.rigorFloor

def routePoints : List RoutePoint :=
  ((projection.guide.map Guide.decisions).getD []).map fun d => { d with isOpen := projection.achieved d.at_ }

/-- Why the case may not be closed. -/
def closureReasons : List String :=
  (if projection.isOpen then [] else ["case-closed"]) ++
    (((projection.guide.map Guide.closure).getD []).filter fun id =>
      match projection.milestones[id]? with
      | some (.stale _ _ _) => true
      | _ => false).map ("closure-milestone-stale:" ++ ·) ++
    projection.parkedConsent.map ("consent-gate-parked:" ++ ·)

end Projection

/-- A parked gate blocks the milestones its step produces. -/
def block (guide : Option Guide) (milestones : Table Milestone) (question : Question) : Table Milestone :=
  ((guide.map (·.producesOf question.stepId)).getD []).foldl (fun milestones id =>
    if milestones[id]? = some .unreached then milestones.insert id (.blocked question.question) else milestones) milestones

/-- A milestone recorded with a digest is stale once its subject has another one now. -/
def refresh (currentDigests : Table (Option String)) (id : String) : Milestone → Milestone
  | .achieved by_ =>
    match by_.digest, currentDigests[id]? with
    | some digest, some current => if current = some digest then .achieved by_ else .stale by_ digest current
    | _, _ => .achieved by_
  | entry => entry

section

variable (normalizeGuide : Definition → Option Guide)

/-- The guide a run was started with, or the one its stored definition gives. -/
def guideOf (start : Option StartPayload) : Option Guide :=
  (start.bind StartPayload.workflow).bind fun workflow => workflow.guide.or (normalizeGuide workflow)

def startOf (events : List Event) : Option StartPayload :=
  events.findSome? fun
    | .workflowStart p => some p
    | _ => none

def openedOf (events : List Event) : Option CaseOpened :=
  events.findSome? fun
    | .caseOpened p => some p
    | _ => none

/-- `case.opened` carries the frame; a stored run has none, so its guide's defaults stand. -/
def frameOf (opened : Option CaseOpened) (guide : Option Guide) : Option Frame :=
  (opened.bind CaseOpened.frame).or (guide.bind Guide.frameDefaults)

/-- The guide the ledger names. -/
def ledgerGuide (events : List Event) : Option Guide := guideOf normalizeGuide (startOf events)

def caseFold (events : List Event) : CaseFold :=
  events.foldl (CaseFold.step (ledgerGuide normalizeGuide events) (projectWorkflowState events))
    (.initial (ledgerGuide normalizeGuide events))

def projectCase (events : List Event) (currentDigests : Table (Option String)) : Projection :=
  let legacy := projectWorkflowState events
  let opened := openedOf events
  let guide := ledgerGuide normalizeGuide events
  let fold := caseFold normalizeGuide events
  { caseId := legacy.workflowRunId
    kind := ((opened.bind CaseOpened.kind).or (guide.map Guide.kind)).getD .playbook
    guide
    guideRef := opened.bind CaseOpened.guide
    frame := frameOf opened guide
    status := legacy.status
    closed := fold.closed
    milestones := (legacy.questions.foldl (block guide) fold.milestones).map (refresh currentDigests)
    refusedAchievements := fold.refusedAchievements
    reservations := fold.reservations
    blindUnitRuns := fold.blindUnitRuns
    frameExhausted := fold.frameExhausted
    routes := fold.routes
    openGates := legacy.questions
    bindings := fold.bindings
    parkedConsent := (legacy.questions.filter fun question =>
      ((((legacy.steps[question.stepId]?).bind StepState.gate).bind StepGate.mode).getD .consent) == .consent).map
        Question.stepId }

end

/-! ### The digests a Playbook's subjects have now -/

/-- A Unit run, and the seats of it that left a report. -/
structure UnitRun where
  unitRunId : String
  seats : List String
  deriving DecidableEq

def unitRunsOf (state : WorkflowState) (stepIds : List String) : List UnitRun :=
  stepIds.flatMap fun stepId =>
    (((state.steps[stepId]?).map fun step => step.units.toList.map Prod.snd).getD []).filterMap fun unit =>
      match truthy unit.unitRunId, unit.status with
      | some unitRunId, .completed =>
        some ⟨unitRunId, ((unit.results.filter SeatResult.runResult).map SeatResult.seatKey).eraseDups⟩
      | _, _ => none

section

-- the digest of the reports of some Unit runs as they lie there now; `none` when one cannot be read
variable (digestUnitRunReports : List UnitRun → Option String)

/-- Digest of the subject a step's milestones stand for: the reports of its own Units, or, for a step that is a
gate or has no Units, those of the steps it builds on. -/
def stepSubjectDigest (state : WorkflowState) (workflow : Option Definition) (stepId : String) : Option String :=
  let from_ := match ((workflow.map Definition.steps).getD []).find? (·.id == stepId) with
    | some step => if step.gate.isNone && !step.units.isEmpty then [stepId] else step.dependsOn
    | none => []
  digestUnitRunReports (unitRunsOf state from_)

/-- The digest every milestone of a completed step has now. -/
def playbookSubjectDigests (state : WorkflowState) (workflow : Option Definition) (guide : Option Guide) :
    Table (Option String) :=
  ((guide.map Guide.activities).getD []).foldl (fun digests activity =>
    if (state.steps[activity.id]?).map StepState.status = some .completed then
      activity.produces.foldl (fun digests id =>
        digests.insert id (stepSubjectDigest digestUnitRunReports state workflow activity.id)) digests
    else digests) ∅

/-- The case as admission sees it: the projection with the digests a Playbook's subjects have now. -/
def readCase (normalizeGuide : Definition → Option Guide) (events : List Event) : Projection :=
  let base := projectCase normalizeGuide events ∅
  let state := projectWorkflowState events
  match base.kind with
  | .playbook =>
    projectCase normalizeGuide events (playbookSubjectDigests digestUnitRunReports state state.workflow base.guide)
  | .guide => base

end

end Forgent.Workflow
