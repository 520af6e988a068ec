import Forgent.Workflow.Admission

/-!
# The Playbook proposer

`advanceWorkflowRun` as a machine: it reads the projection of the ledger once a cycle, takes the ready steps in order,
and appends one event at a time, so that it may be stopped between any two.  What a Unit run, a merge, the disk and
admission answer is an `Input`.  Gate answers and the events of the case are appended between its steps: by the drain
that every reread begins with, or by whoever holds `advance` while nobody advances.

* `Phase`, `next`: the run loop.
* `World`, `Act`, `World.act`: a ledger, the proposer on it, crashes and resumes.
* `World.Run`: every sequence of acts each of which meets a condition.
-/

namespace Forgent.Workflow

/-! ### What the proposer is told -/

/-- A Unit is scheduled: its reservation, and the worktree made for it. -/
structure Scheduled where
  reservationId : Option String
  worktreePath : Option String
  branch : Option String
  baseRef : Option String
  baseSha : Option String
  deriving DecidableEq

def Scheduled.event (p : Scheduled) (stepId unitId : String) : Event :=
  .unitScheduled ⟨stepId, unitId, p.reservationId, p.worktreePath, p.branch, p.baseRef, p.baseSha⟩

structure UnitResult where
  unitRunId : Option String
  outcome : String
  results : List SeatResult
  error : Option String
  deriving DecidableEq

/-- The paths a Unit wrote outside its scope, and those of them its branch carries. -/
structure OutOfScope where
  all : List String
  onBranch : List String
  deriving DecidableEq

/-- An answer of the admission port that admits nothing. -/
structure Refusal where
  code : String
  condition : String
  violations : List Violation
  deriving DecidableEq

inductive Input where
  | go
  /-- The question a gate shows. -/
  | question (text : String)
  /-- The merges of an integrate step ended, or one was refused. -/
  | merged (failure : Option String)
  /-- A Unit is started; `canResume` says whether what its recorded run needs is still there. -/
  | launch (canResume : Bool)
  | admitted (p : Scheduled)
  | created (unitRunId : String)
  /-- The predecessor of a writing Unit is unknown; it starts again in a checkout of its own. -/
  | recover (p : Scheduled)
  | refused (refusal : Refusal)
  | returned (result : UnitResult) (outOfScope : OutOfScope)
  /-- Anything else the run of a Unit ends with, before or after it was admitted. -/
  | threw (error : String) (outOfScope : OutOfScope) (p : Scheduled)

/-! ### The run loop -/

/-- A step that asks a person before it starts. -/
def Step.asks (step : Step) : Bool := step.gate.any (·.kind == "human")

def StepUnit.accepts (unit : StepUnit) : List String := unit.acceptOutcomes.getD ["pass"]

/-- The state a cycle was begun on, and the ready steps of it that were not looked at yet. -/
structure Cycle where
  state : WorkflowState
  ready : List Step

/-- A Unit that is being run. -/
structure Launch where
  unit : StepUnit
  scheduled : Bool
  resumeUnitRunId : Option String
  startedUnitRunId : Option String

structure FailedUnit where
  unitId : String
  outcome : String
  results : List SeatResult
  error : Option String
  outOfScope : List String

def FailedUnit.reason (failed : FailedUnit) : String :=
  match failed.results.findSome? SeatResult.refused with
  | some refusal => refusal.reason ++ ": " ++ refusal.detail
  | none =>
    if failed.outOfScope ≠ [] then
      "unit " ++ failed.unitId ++ " ended " ++ failed.outcome ++ ": out-of-scope-writes: " ++ joined failed.outOfScope
    else match truthy failed.error with
      | some error => "unit " ++ failed.unitId ++ " could not run: " ++ error
      | none => "unit " ++ failed.unitId ++ " ended " ++ failed.outcome

inductive Phase where
  /-- Nobody advances. -/
  | idle
  /-- About to read the state. -/
  | look
  /-- About to look at the next ready step. -/
  | ready (cycle : Cycle)
  /-- An integrate step that started. -/
  | merge (step : Step) (cycle : Cycle)
  /-- About to look at the next Unit of a step. -/
  | units (step : Step) (rest : List StepUnit) (cycle : Cycle)
  | running (launch : Launch) (step : Step) (rest : List StepUnit) (cycle : Cycle)
  /-- A Unit ended, and `unit.complete` is not recorded. -/
  | ended (unit : StepUnit) (result : UnitResult) (outOfScope : OutOfScope) (step : Step) (rest : List StepUnit)
      (cycle : Cycle)
  /-- `step.fail` is to be recorded; the cycle goes on when there is one to go on with. -/
  | failing (p : StepFail) (behind : Option Cycle)
  /-- `workflow.fail` is to be recorded. -/
  | failed (outcome : Option String) (behind : Option Cycle)
  /-- `step.complete` is to be recorded. -/
  | complete (step : Step) (cycle : Cycle)

/-- The steps that are not ended or parked, and whose dependencies are completed. -/
def readySteps (workflow : Definition) (state : WorkflowState) : List Step :=
  workflow.steps.filter fun step =>
    match state.steps[step.id]? with
    | none => false
    | some stepState =>
      stepState.status ≠ .completed && stepState.status ≠ .parked && stepState.status ≠ .failed &&
        step.dependsOn.all fun dep => (state.steps[dep]?).map StepState.status = some .completed

def allDone (workflow : Definition) (state : WorkflowState) : Bool :=
  workflow.steps.all fun step => (state.steps[step.id]?).map StepState.status = some .completed

/-- What a step does once it is started. -/
def Step.begin_ (step : Step) (cycle : Cycle) : Phase :=
  if step.kind = .integrate then .merge step cycle
  else if step.units ≠ [] then .units step step.units cycle
  else .complete step cycle

def unitsOf (state : WorkflowState) (stepId : String) : List UnitState :=
  ((state.steps[stepId]?).map fun step => step.units.toList.map Prod.snd).getD []

/-- The Units an integrate step builds on that wrote outside their scope. -/
def flagged (state : WorkflowState) (step : Step) : List UnitState :=
  step.dependsOn.flatMap fun dep => (unitsOf state dep).filter (·.outOfScope ≠ [])

def flaggedReason (units : List UnitState) : String :=
  "integrate refused, nothing merged: " ++ "; ".intercalate
    (units.map fun unit => unit.unitId ++ " (out-of-scope-writes: " ++ joined unit.outOfScope ++ ")")

/-- The refusals that mean that the approval a step stands on is not valid for what is there now. -/
def isApprovalRefusal : Code → Bool
  | .consentStale | .consentMissing | .consentSubjectUnknown | .entryMilestoneStale => true
  | _ => false

/-- The gate that asks again when an approval is refused, and the refusal. -/
def gatedOf (workflow : Definition) (guide : Option Guide) (violations : List Violation) : Option (Step × Violation) :=
  (violations.find? fun v => isApprovalRefusal v.code && (truthy v.milestone).isSome).bind fun approval =>
    (workflow.steps.find? fun step => step.gate.isSome &&
      approval.milestone.any ((guide.map (·.producesOf step.id)).getD []).contains).map (·, approval)

def askedAgain (gated : Step) (approval : Violation) : GatePark where
  stepId := gated.id
  question := (truthy (gated.gate.bind StepGate.question)).getD ("Approve step \"" ++ gated.id ++ "\"?") ++
    "\n\n(Asked again: " ++ approval.condition ++ ")"
  header := gated.gate.bind StepGate.header

/-- A Unit that was refused before anything existed. -/
def FailedUnit.refused (unitId : String) (refusal : Refusal) : FailedUnit :=
  ⟨unitId, "refused", [], some ("admission refused " ++ refusal.code ++ ": " ++ refusal.condition), []⟩

section

variable (normalizeGuide : Definition → Option Guide) (digestUnitRunReports : List UnitRun → Option String)
-- the writing Unit a writer of a step starts from: its step and its id
variable (singleWriteBaseOf : Definition → String → Option (String × String))

def inherited (workflow : Definition) (cycle : Cycle) (step : Step) (unit : StepUnit) : List String :=
  if unit.writes = [] then []
  else match singleWriteBaseOf workflow step.id with
    | none => []
    | some (stepId, unitId) =>
      (((cycle.state.steps[stepId]?).bind fun step => step.units[unitId]?).map UnitState.outOfScopeOnBranch).getD []

/-- The paths outside the scope of a Unit: its own, if it writes and ran, and those it inherits. -/
def outsideOf (unit : StepUnit) (result : UnitResult) (inherited own : List String) : List String :=
  ((if unit.writes = [] ∨ truthy result.unitRunId = none then [] else own) ++ inherited).eraseDups

/-- Writing outside the unit's scope is a finding. -/
def UnitResult.outcomeWith (result : UnitResult) (outOfScope : List String) : String :=
  if outOfScope ≠ [] ∧ result.outcome = "pass" then "findings" else result.outcome

/-- One step of the proposer: the event it appends, and where it is behind it. -/
def next (workflow : Definition) (input : Input) (ledger : List Event) : Phase → Option (Option Event × Phase)
  | .idle =>
    match input with
    | .go => some (none, .look)
    | _ => none
  | .look =>
    let state := projectWorkflowState ledger
    if state.status ≠ .running then none
    else if readySteps workflow state ≠ [] then some (none, .ready ⟨state, readySteps workflow state⟩)
    else if allDone workflow state then some (some (.workflowComplete (some "pass")), .look)
    else none
  | .ready ⟨_, []⟩ => some (none, .look)
  | .ready ⟨state, step :: rest⟩ =>
    match state.steps[step.id]? with
    | none => none
    | some stepState =>
      if step.asks ∧ stepState.status ≠ .answered then
        match input with
        | .question text => some (some (.gatePark ⟨step.id, text, step.gate.bind StepGate.header⟩), .ready ⟨state, rest⟩)
        | _ => none
      else if stepState.status = .pending ∨ stepState.status = .answered then
        some (some (.stepStart step.id), step.begin_ ⟨state, rest⟩)
      else some (none, step.begin_ ⟨state, rest⟩)
  | .merge step cycle =>
    match input with
    | .merged failure =>
      if flagged cycle.state step ≠ [] then
        some (none, .failing ⟨step.id, some "findings", none, some (flaggedReason (flagged cycle.state step))⟩ (some cycle))
      else match failure with
        | some reason => some (none, .failing ⟨step.id, some "findings", none, some reason⟩ (some cycle))
        | none => some (none, .complete step cycle)
    | _ => none
  | .units step [] cycle => some (none, .complete step cycle)
  | .units step (unit :: rest) cycle =>
    match (cycle.state.steps[step.id]?).bind (fun stepState => stepState.units[unit.id]?), input with
    | some ⟨_, .completed, _, _, _, _, _, _, _, _, _⟩, _ => some (none, .units step rest cycle)
    | some unitState, .launch canResume =>
      -- a Unit left running is continued when what its run needs is still there
      let resume := if canResume then truthy unitState.unitRunId else none
      some (none, .running ⟨unit, resume.isSome, resume, none⟩ step rest cycle)
    | none, .launch _ => some (none, .running ⟨unit, false, none, none⟩ step rest cycle)
    | _, _ => none
  | .running launch step rest cycle =>
    match input with
    | .admitted p =>
      -- recording it again would reset the Unit
      if launch.scheduled then some (none, .running launch step rest cycle)
      else some (some (p.event step.id launch.unit.id), .running { launch with scheduled := true } step rest cycle)
    | .created unitRunId =>
      if launch.scheduled ∧ launch.resumeUnitRunId = none then
        some (some (.unitStarted step.id launch.unit.id unitRunId),
          .running { launch with startedUnitRunId := some unitRunId } step rest cycle)
      else none
    | .recover p =>
      -- the predecessor is looked at behind the admission
      if launch.scheduled ∧ launch.unit.writes ≠ [] then
        some (some (p.event step.id launch.unit.id),
          .running { launch with resumeUnitRunId := none, startedUnitRunId := none } step rest cycle)
      else none
    | .refused refusal =>
      match gatedOf workflow (ledgerGuide normalizeGuide ledger) refusal.violations with
      | some (gated, approval) => some (some (.gatePark (askedAgain gated approval)), .ready cycle)
      | none =>
        let failed := FailedUnit.refused launch.unit.id refusal
        some (none, .failing ⟨step.id, some failed.outcome, some failed.unitId, some failed.reason⟩ none)
    | .returned result outOfScope =>
      -- a Unit that was not admitted has no result
      if launch.scheduled then some (none, .ended launch.unit result outOfScope step rest cycle) else none
    | .threw error outOfScope p =>
      let result : UnitResult := ⟨launch.resumeUnitRunId.or launch.startedUnitRunId, "execution-failure", [], some error⟩
      some (if launch.scheduled then none else some (p.event step.id launch.unit.id),
        .ended launch.unit result outOfScope step rest cycle)
    | _ => none
  | .ended unit result outOfScope step rest cycle =>
    let inherits := inherited singleWriteBaseOf workflow cycle step unit
    let all := outsideOf unit result inherits outOfScope.all
    let outcome := result.outcomeWith all
    let event : UnitComplete := ⟨step.id, unit.id, result.unitRunId, outcome, result.results, all,
      outsideOf unit result inherits outOfScope.onBranch⟩
    -- only explicitly accepted outcomes proceed
    if unit.accepts.contains outcome then some (some (.unitComplete event), .units step rest cycle)
    else
      let failed : FailedUnit := ⟨unit.id, outcome, result.results, result.error, all⟩
      some (some (.unitComplete event), .failing ⟨step.id, some outcome, some unit.id, some failed.reason⟩ none)
  | .failing p behind => some (some (.stepFail p), .failed p.outcome behind)
  | .failed outcome behind =>
    some (some (.workflowFail outcome), match behind with
      | some cycle => .ready cycle
      | none => .look)
  | .complete step cycle =>
    let state := projectWorkflowState ledger
    some (some (.stepComplete ⟨step.id, some "pass", stepSubjectDigest digestUnitRunReports state (some workflow) step.id⟩),
      .ready cycle)

/-! ### Runs -/

structure World where
  ledger : List Event
  phase : Phase

/-- The events of a case that say nothing about its steps. -/
def Event.isQuiet : Event → Bool
  | .caseOpened _ | .binding _ | .route _ | .reservation _ | .settle _ | .caseClosed _ | .workflowWorktrees _
  | .other _ => true
  | _ => false

inductive Act where
  /-- The proposer takes a step. -/
  | step (input : Input)
  /-- The proposer dies, or stops. -/
  | crash
  /-- An answer is folded into the ledger. -/
  | answer (p : GateAnswer)
  /-- An event of the case. -/
  | note (event : Event)

namespace World

def append (w : World) (event : Option Event) : List Event := w.ledger ++ event.toList

def act (workflow : Definition) (w : World) : Act → Option World
  | .step input =>
    (next normalizeGuide digestUnitRunReports singleWriteBaseOf workflow input w.ledger w.phase).map fun done =>
      ⟨w.append done.1, done.2⟩
  | .crash => some ⟨w.ledger, .idle⟩
  | .answer p => some ⟨w.ledger ++ [.gateAnswer p], w.phase⟩
  | .note event => if event.isQuiet then some ⟨w.ledger ++ [event], w.phase⟩ else none

/-- A run that was recorded, and not advanced. -/
def start (p : StartPayload) : World := ⟨[.workflowStart p], .idle⟩

variable (workflow : Definition) (Meets : World → Act → Prop)

/-- Every sequence of acts that meet a condition, from a run that was recorded. -/
inductive Run : World → Prop
  | start (p : StartPayload) (h : p.workflow = some workflow) : Run (start p)
  | act {w w' : World} (h : Run w) (a : Act) (hmeets : Meets w a)
      (hact : w.act normalizeGuide digestUnitRunReports singleWriteBaseOf workflow a = some w') : Run w'

/-- An act that is taken only if it meets a condition. -/
def actIf (meets : World → Act → Bool) (w : World) (a : Act) : Option World :=
  if meets w a then w.act normalizeGuide digestUnitRunReports singleWriteBaseOf workflow a else none

variable {normalizeGuide digestUnitRunReports singleWriteBaseOf workflow}

theorem run_of_foldlM {meets : World → Act → Bool} (acts : List Act) {w w' : World}
    (hrun : Run normalizeGuide digestUnitRunReports singleWriteBaseOf workflow (fun w a => meets w a = true) w)
    (h : acts.foldlM (actIf normalizeGuide digestUnitRunReports singleWriteBaseOf workflow meets) w = some w') :
    Run normalizeGuide digestUnitRunReports singleWriteBaseOf workflow (fun w a => meets w a = true) w' := by
  induction acts generalizing w with
  | nil => exact Option.some.inj h ▸ hrun
  | cons a acts ih =>
    rw [List.foldlM_cons] at h
    obtain ⟨u, hu, hrest⟩ := Option.bind_eq_some_iff.mp h
    rw [actIf] at hu
    split at hu
    · next hmeets => exact ih (hrun.act a hmeets hu) hrest
    · cases hu

theorem Run.mono {Meets Meets' : World → Act → Prop} (himp : ∀ w a, Meets w a → Meets' w a) {w : World}
    (h : Run normalizeGuide digestUnitRunReports singleWriteBaseOf workflow Meets w) :
    Run normalizeGuide digestUnitRunReports singleWriteBaseOf workflow Meets' w := by
  induction h with
  | start p h => exact .start p h
  | act _ a hmeets hact ih => exact ih.act a (himp _ a hmeets) hact

end World

end

/-! ### What a proposer is told in a sample run -/

namespace Sample

def reports : List UnitRun → Option String := fun _ => some "sha256:1"

def writeBase : Definition → String → Option (String × String) := fun _ _ => none

def scheduled : Scheduled := ⟨some "rsv-1", some "/w", some "b", none, none⟩

def nothing : OutOfScope := ⟨[], []⟩

def runUnit (unitRunId outcome : String) : List Act :=
  [.step (.launch false), .step (.admitted scheduled), .step (.created unitRunId),
    .step (.returned ⟨some unitRunId, outcome, [], none⟩ nothing), .step .go]

end Sample

end Forgent.Workflow
