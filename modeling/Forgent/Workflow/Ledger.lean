import Forgent.Members
import Forgent.Positions
import Forgent.Workflow.Guide

/-!
# The ledger of a Workflow run

The events of a run, in the order they were appended, and the state that is projected from them.

* `Event`: the step events of a run and the events a case adds.
* `WorkflowState.step`, `projectWorkflowState`: the fold.
-/

namespace Forgent.Workflow

open Std.ExtTreeMap Option

/-! ### Events -/

structure StartPayload where
  workflowRunId : String
  workflowId : String
  workflow : Option Definition
  request : Option String
  deriving DecidableEq

structure SeatRefusal where
  reason : String
  detail : String
  deriving DecidableEq

/-- What a seat of a Unit left: the seat, whether it has a run result, and why it was refused if it was. -/
structure SeatResult where
  seatKey : String
  runResult : Bool
  refused : Option SeatRefusal
  deriving DecidableEq

structure UnitScheduled where
  stepId : String
  unitId : String
  reservationId : Option String
  worktreePath : Option String
  branch : Option String
  baseRef : Option String
  baseSha : Option String
  deriving DecidableEq

structure UnitComplete where
  stepId : String
  unitId : String
  unitRunId : Option String
  outcome : String
  results : List SeatResult
  outOfScope : List String
  outOfScopeOnBranch : List String
  deriving DecidableEq

structure GatePark where
  stepId : String
  question : String
  header : Option String
  deriving DecidableEq

structure GateAnswer where
  stepId : String
  answer : String
  approved : Bool
  answeredAt : Option String
  occurrence : ℕ
  round : ℕ
  mode : Option GateMode
  subjectDigest : Option String
  milestones : Option (List String)
  deriving DecidableEq

structure StepComplete where
  stepId : String
  outcome : Option String
  subjectDigest : Option String
  deriving DecidableEq

structure StepFail where
  stepId : String
  outcome : Option String
  unitId : Option String
  reason : Option String
  deriving DecidableEq

structure Worktrees where
  removed : List String
  kept : List String
  deriving DecidableEq

/-- A receipt: which evaluator named it, and which milestone and subject it covers. -/
structure Receipt where
  evaluator : String
  passed : Bool
  milestone : Option String
  subjectDigest : Option String
  deriving DecidableEq

structure Achieved where
  milestone : String
  subjectDigest : Option String
  deriving DecidableEq

structure InheritedMilestone where
  milestone : String
  subjectDigest : Option String
  receipts : List Receipt
  outcome : Option String
  deriving DecidableEq

structure Inherits where
  fromCase : String
  milestones : List InheritedMilestone
  deriving DecidableEq

structure GuideRef where
  id : String
  sha256 : String
  deriving DecidableEq

structure CaseOpened where
  caseId : String
  kind : Option GuideKind
  guide : Option GuideRef
  frame : Option Frame
  requestDigest : Option String
  inherits : Option Inherits
  deriving DecidableEq

inductive BindingState where
  | bound
  | unbound
  deriving DecidableEq

structure Binding where
  caseId : String
  generation : ℕ
  key : String
  worktreeRoot : String
  state : BindingState
  deriving DecidableEq

inductive RouteKind where
  | should
  | mayInstead
  | unlisted
  | eligible
  deriving DecidableEq

structure Route where
  decisionPoint : Option String
  activity : String
  unitId : Option String
  routeKind : RouteKind
  reason : Option String
  guideVersion : Option String
  reservationId : String
  deriving DecidableEq

structure Counters where
  dispatches : ℕ
  mutatingDispatches : ℕ
  deriving DecidableEq

/-- A reservation; `nested` names the child a nested case's charge is for. -/
structure Reservation where
  reservationId : String
  activity : Option String
  unitId : Option String
  nested : Option String
  writes : List String
  worktree : Option String
  counters : Option Counters
  seatLaunchCeiling : Option ℕ
  blind : Bool
  unitRunId : Option String
  deriving DecidableEq

structure Settle where
  reservationId : String
  activity : Option String
  unitId : Option String
  unitRunId : Option String
  outcome : String
  receipts : List Receipt
  achieved : List Achieved
  seatLaunchesUsed : Option ℕ
  frameExhausted : Bool
  blind : Bool
  deriving DecidableEq

inductive Event where
  | workflowStart (p : StartPayload)
  | stepStart (stepId : String)
  | unitScheduled (p : UnitScheduled)
  | unitStarted (stepId unitId unitRunId : String)
  | unitComplete (p : UnitComplete)
  | gatePark (p : GatePark)
  | gateAnswer (p : GateAnswer)
  | stepComplete (p : StepComplete)
  | stepFail (p : StepFail)
  | workflowWorktrees (p : Worktrees)
  | workflowFail (outcome : Option String)
  | workflowComplete (outcome : Option String)
  | caseOpened (p : CaseOpened)
  | binding (p : Binding)
  | route (p : Route)
  | reservation (p : Reservation)
  | settle (p : Settle)
  | caseClosed (reason : Option String)
  /-- An event no fold reads. -/
  | other (type : String)
  deriving DecidableEq

/-! ### The projected state -/

inductive Status where
  | notStarted
  | running
  | parked
  | failed
  | completed
  deriving DecidableEq

inductive StepStatus where
  | pending
  | running
  | parked
  | answered
  | completed
  | failed
  deriving DecidableEq

inductive UnitStatus where
  | running
  | completed
  deriving DecidableEq

structure UnitState where
  unitId : String
  status : UnitStatus
  worktreePath : Option String
  branch : Option String
  baseRef : Option String
  baseSha : Option String
  unitRunId : Option String
  outcome : Option String
  results : List SeatResult
  outOfScope : List String
  outOfScopeOnBranch : List String
  deriving DecidableEq

structure StepState where
  id : String
  status : StepStatus
  dependsOn : List String
  kind : StepKind
  gate : Option StepGate
  units : Table UnitState
  answer : Option String
  approved : Option Bool
  lastClarification : Option String
  outcome : Option String
  reason : Option String

structure Question where
  stepId : String
  question : String
  header : Option String
  deriving DecidableEq

structure WorkflowState where
  workflowRunId : Option String
  workflowId : Option String
  workflow : Option Definition
  request : Option String
  status : Status
  outcome : Option String
  worktrees : Option Worktrees
  steps : Table StepState
  questions : List Question

/-- A step as the definition gives it. -/
def Step.initial (step : Step) : StepState where
  id := step.id
  status := .pending
  dependsOn := step.dependsOn
  kind := step.kind
  gate := step.gate
  units := ∅
  answer := none
  approved := none
  lastClarification := none
  outcome := none
  reason := none

/-- A text, when there is one that is not empty. -/
def truthy (text : Option String) : Option String := text.filter (· ≠ "")

/-- A Unit as it is scheduled; what it was before is forgotten. -/
def UnitScheduled.initial (p : UnitScheduled) : UnitState where
  unitId := p.unitId
  status := .running
  worktreePath := truthy p.worktreePath
  branch := (truthy p.worktreePath).bind fun _ => p.branch
  baseRef := truthy p.baseRef
  baseSha := (truthy p.baseRef).bind fun _ => p.baseSha
  unitRunId := none
  outcome := none
  results := []
  outOfScope := []
  outOfScopeOnBranch := []

def UnitState.complete (unit : UnitState) (p : UnitComplete) : UnitState :=
  { unit with
    status := .completed
    unitRunId := p.unitRunId
    outcome := some p.outcome
    results := p.results
    outOfScope := if p.outOfScope ≠ [] then p.outOfScope else unit.outOfScope
    outOfScopeOnBranch := if p.outOfScopeOnBranch ≠ [] then p.outOfScopeOnBranch else unit.outOfScopeOnBranch }

/-- The gate of a step asks for consent unless it says that it asks for input. -/
def StepState.isConsentGate (step : StepState) : Bool :=
  match step.gate.bind StepGate.mode with
  | none => true
  | some mode => mode == .consent

namespace StepState

variable (step : StepState)

def scheduleUnit (p : UnitScheduled) : StepState := { step with units := step.units.insert p.unitId p.initial }

/-- Change a Unit that was scheduled. -/
def modifyUnit (unitId : String) (f : UnitState → UnitState) : StepState :=
  match step.units[unitId]? with
  | some unit => { step with units := step.units.insert unitId (f unit) }
  | none => step

def answerGate (p : GateAnswer) : StepState :=
  if step.isConsentGate && !p.approved then
    -- clarification only: the gate stays parked
    { step with answer := some p.answer, status := .parked, lastClarification := some p.answer }
  else
    { step with answer := some p.answer, status := .answered, approved := some p.approved }

end StepState

namespace WorkflowState

/-- The state a ledger with a first line starts from. -/
def initial : WorkflowState where
  workflowRunId := none
  workflowId := none
  workflow := none
  request := none
  status := .running
  outcome := none
  worktrees := none
  steps := ∅
  questions := []

variable (state : WorkflowState)

/-- Change a step of the run. -/
def modifyStep (stepId : String) (f : StepState → StepState) : WorkflowState :=
  match state.steps[stepId]? with
  | some step => { state with steps := state.steps.insert stepId (f step) }
  | none => state

def start (p : StartPayload) : WorkflowState :=
  { state with
    workflowId := some p.workflowId
    workflowRunId := some p.workflowRunId
    workflow := p.workflow
    request := p.request
    steps := ((p.workflow.map Definition.steps).getD []).foldl (fun steps s => steps.insert s.id s.initial) state.steps }

/-- A question is asked once, until it is answered. -/
def ask (p : GatePark) : List Question :=
  if state.questions.any (·.stepId == p.stepId) then state.questions
  else state.questions ++ [⟨p.stepId, p.question, p.header⟩]

def park (p : GatePark) : WorkflowState :=
  { state.modifyStep p.stepId ({ · with status := .parked }) with
    questions := if state.steps.contains p.stepId then state.ask p else state.questions
    status := .parked }

/-- What an answer does to the status and the open questions, when the step is known. -/
def answered (step : StepState) (p : GateAnswer) : Status × List Question :=
  if step.isConsentGate && !p.approved then (.parked, state.questions)
  else (state.status, state.questions.eraseP (·.stepId == p.stepId))

def answerGate (p : GateAnswer) : WorkflowState :=
  let (status, questions) := match state.steps[p.stepId]? with
    | some step => state.answered step p
    | none => (state.status, state.questions)
  { state.modifyStep p.stepId (·.answerGate p) with
    questions
    status := if questions = [] ∧ status = .parked then .running else status }

def step : Event → WorkflowState
  | .workflowStart p => state.start p
  | .stepStart stepId => state.modifyStep stepId ({ · with status := .running })
  | .unitScheduled p => state.modifyStep p.stepId (·.scheduleUnit p)
  | .unitStarted stepId unitId unitRunId =>
    state.modifyStep stepId (·.modifyUnit unitId ({ · with unitRunId := some unitRunId }))
  | .unitComplete p => state.modifyStep p.stepId (·.modifyUnit p.unitId (·.complete p))
  | .gatePark p => state.park p
  | .gateAnswer p => state.answerGate p
  | .stepComplete p =>
    state.modifyStep p.stepId ({ · with status := .completed, outcome := some ((truthy p.outcome).getD "pass") })
  | .stepFail p =>
    state.modifyStep p.stepId
      ({ · with status := .failed, outcome := some ((truthy p.outcome).getD "failed"), reason := p.reason })
  | .workflowWorktrees p => { state with worktrees := some p }
  | .workflowFail outcome => { state with status := .failed, outcome := some ((truthy outcome).getD "failed") }
  | .workflowComplete outcome => { state with status := .completed, outcome := some ((truthy outcome).getD "pass") }
  | .caseOpened _ | .binding _ | .route _ | .reservation _ | .settle _ | .caseClosed _ | .other _ => state

end WorkflowState

/-- Project current state from Workflow run events. -/
def projectWorkflowState (events : List Event) : WorkflowState :=
  if events.isEmpty then { WorkflowState.initial with status := .notStarted }
  else events.foldl WorkflowState.step .initial

/-! ### What an event does to a step -/

namespace Event

/-- The step an event is about. -/
def target : Event → Option String
  | stepStart stepId => some stepId
  | unitScheduled p => some p.stepId
  | unitStarted stepId _ _ => some stepId
  | unitComplete p => some p.stepId
  | gatePark p => some p.stepId
  | gateAnswer p => some p.stepId
  | stepComplete p => some p.stepId
  | stepFail p => some p.stepId
  | _ => none

/-- What it does to that step. -/
def effect : Event → StepState → StepState
  | stepStart _, step => { step with status := .running }
  | unitScheduled p, step => step.scheduleUnit p
  | unitStarted _ unitId unitRunId, step => step.modifyUnit unitId ({ · with unitRunId := some unitRunId })
  | unitComplete p, step => step.modifyUnit p.unitId (·.complete p)
  | gatePark _, step => { step with status := .parked }
  | gateAnswer p, step => step.answerGate p
  | stepComplete p, step => { step with status := .completed, outcome := some ((truthy p.outcome).getD "pass") }
  | stepFail p, step =>
    { step with status := .failed, outcome := some ((truthy p.outcome).getD "failed"), reason := p.reason }
  | _, step => step

/-- A run starts once. -/
def isStart : Event → Bool
  | workflowStart _ => true
  | _ => false

end Event

namespace WorkflowState

variable (state : WorkflowState)

theorem getElem?_modifyStep (stepId id : String) (f : StepState → StepState) :
    (state.modifyStep stepId f).steps[id]? = if stepId = id then (state.steps[id]?).map f else state.steps[id]? := by
  rw [modifyStep]
  cases hstep : state.steps[stepId]? with
  | none =>
    by_cases hid : stepId = id
    · subst hid
      simp [hstep]
    · simp [hid]
  | some step =>
    show (state.steps.insert stepId (f step))[id]? = _
    rw [getElem?_insert]
    simp only [compare_key]
    by_cases hid : stepId = id
    · subst hid
      simp [hstep]
    · simp [hid]

/-- **What an event does to the steps**: it changes the one it is about. -/
theorem getElem?_step {event : Event} (hstart : event.isStart = false) (id : String) : (state.step event).steps[id]? =
      if event.target = some id then (state.steps[id]?).map event.effect else state.steps[id]? := by
  cases event with
  | workflowStart p => cases hstart
  | stepStart stepId =>
    simp only [Event.target, some.injEq]
    exact state.getElem?_modifyStep stepId id _
  | unitScheduled p =>
    simp only [Event.target, some.injEq]
    exact state.getElem?_modifyStep p.stepId id _
  | unitStarted stepId unitId unitRunId =>
    simp only [Event.target, some.injEq]
    exact state.getElem?_modifyStep stepId id _
  | unitComplete p | gatePark p | gateAnswer p | stepComplete p | stepFail p =>
    simp only [Event.target, some.injEq]
    exact state.getElem?_modifyStep p.stepId id _
  | _ => rfl

end WorkflowState

theorem projectWorkflowState_append {events : List Event} (h : events ≠ []) (event : Event) :
    projectWorkflowState (events ++ [event]) = (projectWorkflowState events).step event := by
  rw [projectWorkflowState, projectWorkflowState, if_neg (by simp), if_neg (by simpa using h), List.foldl_append]
  rfl

variable (step : StepState)

include step

@[simp] theorem StepState.modifyUnit_status (unitId : String) (f : UnitState → UnitState) :
    (step.modifyUnit unitId f).status = step.status := by
  rw [modifyUnit]
  split <;> rfl

@[simp] theorem StepState.modifyUnit_gate (unitId : String) (f : UnitState → UnitState) :
    (step.modifyUnit unitId f).gate = step.gate := by
  rw [modifyUnit]
  split <;> rfl

theorem StepState.getElem?_modifyUnit (unitId id : String) (f : UnitState → UnitState) :
    (step.modifyUnit unitId f).units[id]? = if unitId = id then (step.units[id]?).map f else step.units[id]? := by
  rw [modifyUnit]
  cases hunit : step.units[unitId]? with
  | none =>
    by_cases hid : unitId = id
    · subst hid
      simp [hunit]
    · simp [hid]
  | some unit =>
    show (step.units.insert unitId (f unit))[id]? = _
    rw [getElem?_insert]
    simp only [compare_key]
    by_cases hid : unitId = id
    · subst hid
      simp [hunit]
    · simp [hid]

theorem StepState.getElem?_scheduleUnit (p : UnitScheduled) (id : String) :
    (step.scheduleUnit p).units[id]? = if p.unitId = id then some p.initial else step.units[id]? := by
  show (step.units.insert p.unitId p.initial)[id]? = _
  rw [getElem?_insert]
  simp only [compare_key]

@[simp] theorem StepState.answerGate_units (p : GateAnswer) : (step.answerGate p).units = step.units := by
  rw [answerGate]
  split <;> rfl

theorem StepState.answerGate_status (p : GateAnswer) :
    (step.answerGate p).status = .parked ∨ (step.answerGate p).status = .answered := by
  rw [answerGate]
  split
  · exact .inl rfl
  · exact .inr rfl

/-! ### The file

A ledger is a file of lines, one stored event each.  A line that is not the next one makes the ledger corrupt, and a last
line without its newline is an unfinished append. -/

structure Stored where
  seq : ℕ
  event : Event
  deriving DecidableEq

inductive LedgerError where
  /-- `workflow-ledger-corrupt`. -/
  | corrupt
  /-- `workflow-ledger-unterminated`. -/
  | unterminated
  deriving DecidableEq

/-- A ledger file: its lines, and the unfinished one behind them. -/
structure LedgerFile where
  lines : List Stored
  tail : List Char
  deriving DecidableEq

namespace LedgerFile

variable (file : LedgerFile)

def events : List Event := file.lines.map Stored.event

/-- Every line is the next one. -/
def Numbered (lines : List Stored) : Prop := ∀ i stored, lines[i]? = some stored → stored.seq = i + 1

/-- Whether the lines are numbered behind so many. -/
def numberedFrom : ℕ → List Stored → Bool
  | _, [] => true
  | n, stored :: lines => stored.seq = n + 1 && numberedFrom (n + 1) lines

/-- `readWorkflowEvents`. -/
def read : Except LedgerError (List Stored) :=
  if numberedFrom 0 file.lines then if file.tail = [] then .ok file.lines else .error .unterminated
  else .error .corrupt

/-- `appendWorkflowEvent`. -/
def append (event : Event) : Except LedgerError LedgerFile := do
  let existing ← file.read
  return { lines := file.lines ++ [⟨existing.length + 1, event⟩], tail := [] }

/-- What `recoverWorkflowLedgerTail` leaves before it appends. -/
def truncate : LedgerFile := { file with tail := [] }

end LedgerFile

end Forgent.Workflow
