import Forgent.Workflow.Proposer

/-!
# What a step of the proposer can do

* `WorkflowState.statusOf_step`, `unitOf_step` and the lemmas beside them: what an event does to a step, and to its Units.
* `Moves`, `moves_of_next`: every step of the run loop, with what it was taken on.
* `Acts`, `acts_of_act`: every act.
-/

namespace Forgent.Workflow

open Option

def WorkflowState.unitOf (state : WorkflowState) (stepId unitId : String) : Option UnitState :=
  (state.steps[stepId]?).bind fun step => step.units[unitId]?

def WorkflowState.statusOf (state : WorkflowState) (stepId : String) : Option StepStatus :=
  (state.steps[stepId]?).map StepState.status

/-! ### What an event does to a step, and to its Units -/

section

variable {state : WorkflowState} {event : Event} {id stepId unitId : String}

section

variable (hstart : event.isStart = false)

include hstart

section

variable (hne : event.target ≠ some id)

include hne

theorem WorkflowState.getElem?_step_of_ne : (state.step event).steps[id]? = state.steps[id]? := by
  rw [state.getElem?_step hstart, if_neg hne]

theorem WorkflowState.statusOf_step_of_ne : (state.step event).statusOf id = state.statusOf id := by
  rw [statusOf, statusOf, getElem?_step_of_ne hstart hne]

theorem WorkflowState.unitOf_step_of_ne (unitId : String) : (state.step event).unitOf id unitId = state.unitOf id unitId := by
  rw [unitOf, unitOf, getElem?_step_of_ne hstart hne]

end

theorem WorkflowState.statusOf_step (heq : event.target = some id) :
    (state.step event).statusOf id = (state.steps[id]?).map fun step => (event.effect step).status := by
  rw [statusOf, state.getElem?_step hstart, if_pos heq, map_map]
  rfl

theorem WorkflowState.unitOf_step (heq : event.target = some id) (unitId : String) :
    (state.step event).unitOf id unitId = (state.steps[id]?).bind fun step => (event.effect step).units[unitId]? := by
  rw [unitOf, state.getElem?_step hstart, if_pos heq, bind_map]
  rfl

end

def Event.unit : Event → Option (String × String)
  | .unitScheduled p => some (p.stepId, p.unitId)
  | .unitStarted stepId unitId _ => some (stepId, unitId)
  | .unitComplete p => some (p.stepId, p.unitId)
  | _ => none

theorem Event.effect_units (h : event.unit = none) (step : StepState) : (event.effect step).units = step.units := by
  cases event with
  | gateAnswer p => exact step.answerGate_units p
  | unitScheduled p | unitStarted stepId unitId unitRunId | unitComplete p => cases h
  | _ => rfl

theorem Event.effect_of_unit (h : event.unit = some (stepId, unitId)) (step : StepState) :
    event.target = some stepId ∧ (event.effect step).status = step.status ∧
      ∀ other, other ≠ unitId → (event.effect step).units[other]? = step.units[other]? := by
  cases event with
  | unitScheduled p =>
    cases h
    refine ⟨rfl, rfl, fun other hother => ?_⟩
    show (step.scheduleUnit p).units[other]? = _
    rw [step.getElem?_scheduleUnit, if_neg (Ne.symm hother)]
  | unitStarted stepId unitId unitRunId =>
    cases h
    refine ⟨rfl, step.modifyUnit_status _ _, fun other hother => ?_⟩
    show (step.modifyUnit unitId _).units[other]? = _
    rw [step.getElem?_modifyUnit, if_neg (Ne.symm hother)]
  | unitComplete p =>
    cases h
    refine ⟨rfl, step.modifyUnit_status _ _, fun other hother => ?_⟩
    show (step.modifyUnit p.unitId _).units[other]? = _
    rw [step.getElem?_modifyUnit, if_neg (Ne.symm hother)]
  | _ => cases h

variable (hstart : event.isStart = false)

include hstart

theorem WorkflowState.unitOf_step_of_keeps (hkeeps : event.unit = none)
    (id unitId : String) : (state.step event).unitOf id unitId = state.unitOf id unitId := by
  by_cases heq : event.target = some id
  · rw [unitOf_step hstart heq, unitOf]
    cases state.steps[id]? with
    | none => rfl
    | some step =>
      show (event.effect step).units[unitId]? = step.units[unitId]?
      rw [Event.effect_units hkeeps]
  · exact unitOf_step_of_ne hstart heq unitId

theorem WorkflowState.statusOf_step_of_unit
    (hunit : event.unit = some (stepId, unitId)) (id : String) : (state.step event).statusOf id = state.statusOf id := by
  by_cases heq : event.target = some id
  · rw [statusOf_step hstart heq, statusOf]
    congr 1
    funext step
    exact (Event.effect_of_unit hunit step).2.1
  · exact statusOf_step_of_ne hstart heq

theorem WorkflowState.unitOf_step_of_unit
    (hunit : event.unit = some (stepId, unitId)) (id : String) {other : String} (hother : other ≠ unitId) :
    (state.step event).unitOf id other = state.unitOf id other := by
  by_cases heq : event.target = some id
  · rw [unitOf_step hstart heq, unitOf]
    cases state.steps[id]? with
    | none => rfl
    | some step => exact (Event.effect_of_unit hunit step).2.2 other hother
  · exact unitOf_step_of_ne hstart heq other

end

/-! ### One step of the run loop -/

section

variable (normalizeGuide : Definition → Option Guide) (digestUnitRunReports : List UnitRun → Option String)
  {phase : Phase} {input : Input} {ledger : List Event} {phase' : Phase} {w : World} {a : Act} {event : Event}
variable (singleWriteBaseOf : Definition → String → Option (String × String)) (workflow : Definition)

/-- A step of the run loop on a ledger: where the proposer was, what it appends, and where it is. -/
inductive Moves (input : Input) (ledger : List Event) : Phase → Option Event → Phase → Prop
  | resume : Moves input ledger .idle none .look
  | read (hstatus : (projectWorkflowState ledger).status = .running) :
      Moves input ledger .look none (.ready ⟨projectWorkflowState ledger, readySteps workflow (projectWorkflowState ledger)⟩)
  | finish (hstatus : (projectWorkflowState ledger).status = .running)
      (hdone : allDone workflow (projectWorkflowState ledger) = true) :
      Moves input ledger .look (some (.workflowComplete (some "pass"))) .look
  | leave (state : WorkflowState) : Moves input ledger (.ready ⟨state, []⟩) none .look
  | park {state : WorkflowState} {step : Step} {rest : List Step} {stepState : StepState} (text : String)
      (hstep : state.steps[step.id]? = some stepState) (hasks : step.asks = true) (hwaits : stepState.status ≠ .answered) :
      Moves input ledger (.ready ⟨state, step :: rest⟩) (some (.gatePark ⟨step.id, text, step.gate.bind StepGate.header⟩))
        (.ready ⟨state, rest⟩)
  | start {state : WorkflowState} {step : Step} {rest : List Step} {stepState : StepState}
      (hstep : state.steps[step.id]? = some stepState) (hgate : step.asks = true → stepState.status = .answered) :
      Moves input ledger (.ready ⟨state, step :: rest⟩) (some (.stepStart step.id)) (step.begin_ ⟨state, rest⟩)
  | goOn {state : WorkflowState} {step : Step} {rest : List Step} {stepState : StepState}
      (hstep : state.steps[step.id]? = some stepState)
      (hstatus : stepState.status ≠ .pending ∧ stepState.status ≠ .answered) :
      Moves input ledger (.ready ⟨state, step :: rest⟩) none (step.begin_ ⟨state, rest⟩)
  | refuseMerge (step : Step) (cycle : Cycle) (reason : String) :
      Moves input ledger (.merge step cycle) none (.failing ⟨step.id, some "findings", none, some reason⟩ (some cycle))
  | merged {step : Step} {cycle : Cycle} (hflagged : flagged cycle.state step = []) :
      Moves input ledger (.merge step cycle) none (.complete step cycle)
  | unitsDone (step : Step) (cycle : Cycle) : Moves input ledger (.units step [] cycle) none (.complete step cycle)
  | skip {step : Step} {unit : StepUnit} {rest : List StepUnit} {cycle : Cycle} {unitState : UnitState}
      (hunit : cycle.state.unitOf step.id unit.id = some unitState) (hstatus : unitState.status = .completed) :
      Moves input ledger (.units step (unit :: rest) cycle) none (.units step rest cycle)
  | launch {step : Step} {unit : StepUnit} {rest : List StepUnit} {cycle : Cycle} (resume : Option String)
      (hnew : ∀ unitState, cycle.state.unitOf step.id unit.id = some unitState → unitState.status ≠ .completed)
      (hresume : resume.isSome = true → (cycle.state.unitOf step.id unit.id).isSome = true) :
      Moves input ledger (.units step (unit :: rest) cycle) none
        (.running ⟨unit, resume.isSome, resume, none⟩ step rest cycle)
  | asked (launch : Launch) (step : Step) (rest : List StepUnit) (cycle : Cycle) :
      Moves input ledger (.running launch step rest cycle) none (.running launch step rest cycle)
  | schedule {launch : Launch} {step : Step} {rest : List StepUnit} {cycle : Cycle} (p : Scheduled)
      {launch' : Launch} (hunit : launch'.unit = launch.unit) (hscheduled : launch'.scheduled = true) :
      Moves input ledger (.running launch step rest cycle) (some (p.event step.id launch.unit.id))
        (.running launch' step rest cycle)
  | created {launch : Launch} {step : Step} {rest : List StepUnit} {cycle : Cycle} (unitRunId : String)
      (hscheduled : launch.scheduled = true) :
      Moves input ledger (.running launch step rest cycle) (some (.unitStarted step.id launch.unit.id unitRunId))
        (.running { launch with startedUnitRunId := some unitRunId } step rest cycle)
  | askAgain {launch : Launch} {step : Step} {rest : List StepUnit} {cycle : Cycle} {refusal : Refusal} {gated : Step}
      {approval : Violation} (hinput : input = .refused refusal)
      (hgated : gatedOf workflow (ledgerGuide normalizeGuide ledger) refusal.violations = some (gated, approval)) :
      Moves input ledger (.running launch step rest cycle) (some (.gatePark (askedAgain gated approval))) (.ready cycle)
  | refused (launch : Launch) (step : Step) (rest : List StepUnit) (cycle : Cycle) (reason : String) :
      Moves input ledger (.running launch step rest cycle) none
        (.failing ⟨step.id, some "refused", some launch.unit.id, some reason⟩ none)
  | returned {launch : Launch} {step : Step} {rest : List StepUnit} {cycle : Cycle} (result : UnitResult)
      (outOfScope : OutOfScope) (hscheduled : launch.scheduled = true) :
      Moves input ledger (.running launch step rest cycle) none (.ended launch.unit result outOfScope step rest cycle)
  | threw {launch : Launch} {step : Step} {rest : List StepUnit} {cycle : Cycle} (result : UnitResult)
      (outOfScope : OutOfScope) (p : Scheduled) :
      Moves input ledger (.running launch step rest cycle) (some (p.event step.id launch.unit.id))
        (.ended launch.unit result outOfScope step rest cycle)
  | passed {unit : StepUnit} {result : UnitResult} {outOfScope : OutOfScope} {step : Step} {rest : List StepUnit}
      {cycle : Cycle} (p : UnitComplete) (hstep : p.stepId = step.id) (hunit : p.unitId = unit.id)
      (haccepts : p.outcome ∈ unit.accepts) :
      Moves input ledger (.ended unit result outOfScope step rest cycle) (some (.unitComplete p)) (.units step rest cycle)
  | fell {unit : StepUnit} {result : UnitResult} {outOfScope : OutOfScope} {step : Step} {rest : List StepUnit}
      {cycle : Cycle} (p : UnitComplete) (hstep : p.stepId = step.id) (hunit : p.unitId = unit.id) (reason : String) :
      Moves input ledger (.ended unit result outOfScope step rest cycle) (some (.unitComplete p))
        (.failing ⟨step.id, some p.outcome, some unit.id, some reason⟩ none)
  | stepFail (p : StepFail) (behind : Option Cycle) :
      Moves input ledger (.failing p behind) (some (.stepFail p)) (.failed p.outcome behind)
  | workflowFail (outcome : Option String) :
      Moves input ledger (.failed outcome none) (some (.workflowFail outcome)) .look
  | workflowFailOn (outcome : Option String) (cycle : Cycle) :
      Moves input ledger (.failed outcome (some cycle)) (some (.workflowFail outcome)) (.ready cycle)
  | complete (step : Step) (cycle : Cycle) (p : StepComplete) (hstep : p.stepId = step.id) :
      Moves input ledger (.complete step cycle) (some (.stepComplete p)) (.ready cycle)

variable {normalizeGuide digestUnitRunReports singleWriteBaseOf workflow}

/-- **Every step of the run loop is one of these.** -/
theorem moves_of_next {event : Option Event}
    (h : next normalizeGuide digestUnitRunReports singleWriteBaseOf workflow input ledger phase = some (event, phase')) :
    Moves normalizeGuide workflow input ledger phase event phase' := by
  cases phase with
  | idle =>
    cases input <;> simp only [next, reduceCtorEq, some.injEq, Prod.mk.injEq] at h
    obtain ⟨rfl, rfl⟩ := h
    exact .resume
  | look =>
    simp only [next] at h
    split at h
    · cases h
    · next hstatus =>
      split at h
      · cases h
        exact .read (not_not.mp hstatus)
      · split at h
        · next hdone =>
          cases h
          exact .finish (not_not.mp hstatus) hdone
        · cases h
  | ready cycle =>
    obtain ⟨state, ready⟩ := cycle
    cases ready with
    | nil =>
      obtain ⟨rfl, rfl⟩ : _ ∧ _ := by simpa [next] using h
      exact .leave state
    | cons step rest =>
      simp only [next] at h
      split at h
      · cases h
      · next stepState hstep =>
        split at h
        · next hasks =>
          split at h
          · cases h
            exact .park _ hstep hasks.1 hasks.2
          · cases h
        · next hasks =>
          have hgate : step.asks = true → stepState.status = .answered := by
            intro hasks'
            by_contra hnot
            exact hasks ⟨hasks', hnot⟩
          split at h
          · cases h
            exact .start hstep hgate
          · next hstatus =>
            cases h
            exact .goOn hstep (not_or.mp hstatus)
  | merge step cycle =>
    cases input with
    | merged failure =>
      simp only [next] at h
      split at h
      · cases h
        exact .refuseMerge step cycle _
      · next hflagged =>
        cases failure with
        | some reason =>
          cases h
          exact .refuseMerge step cycle reason
        | none =>
          cases h
          exact .merged (not_not.mp hflagged)
    | _ => simp only [next, reduceCtorEq] at h
  | units step rest cycle =>
    cases rest with
    | nil =>
      obtain ⟨rfl, rfl⟩ : _ ∧ _ := by simpa [next] using h
      exact .unitsDone step cycle
    | cons unit rest =>
      simp only [next] at h
      split at h
      · next hunit =>
        cases h
        exact .skip hunit rfl
      · next unitState canResume hnot hunit =>
        cases h
        refine .launch _ (fun other hother => ?_) fun _ => ?_
        · rw [WorkflowState.unitOf, hunit] at hother
          obtain rfl : unitState = other := some.inj hother
          intro hcompleted
          obtain ⟨unitId, status, worktreePath, branch, baseRef, baseSha, unitRunId, outcome, results, all, onBranch⟩ :=
            unitState
          subst hcompleted
          exact hnot _ _ _ _ _ _ _ _ _ _ rfl
        · rw [WorkflowState.unitOf, hunit]
          rfl
      · next _ hunit =>
        cases h
        refine .launch none (fun other hother => ?_) (by simp)
        rw [WorkflowState.unitOf, hunit] at hother
        cases hother
      · cases h
  | running launch step rest cycle =>
    cases input with
    | admitted p =>
      simp only [next] at h
      split at h
      · cases h
        exact .asked launch step rest cycle
      · cases h
        exact .schedule p rfl rfl
    | created unitRunId =>
      simp only [next] at h
      split at h
      · next hboth =>
        cases h
        exact .created unitRunId hboth.1
      · cases h
    | recover p =>
      simp only [next] at h
      split at h
      · next hboth =>
        cases h
        exact .schedule p rfl hboth.1
      · cases h
    | refused refusal =>
      simp only [next] at h
      split at h
      · next gated approval hgated =>
        cases h
        exact .askAgain rfl hgated
      · cases h
        exact .refused launch step rest cycle _
    | returned result outOfScope =>
      simp only [next] at h
      split at h
      · next hscheduled =>
        cases h
        exact .returned result outOfScope hscheduled
      · cases h
    | threw error outOfScope p =>
      simp only [next, some.injEq, Prod.mk.injEq] at h
      obtain ⟨rfl, rfl⟩ := h
      split
      · next hscheduled => exact .returned _ outOfScope hscheduled
      · exact .threw _ outOfScope p
    | _ => simp only [next, reduceCtorEq] at h
  | ended unit result outOfScope step rest cycle =>
    simp only [next] at h
    split at h
    · next haccepts =>
      cases h
      exact .passed _ rfl rfl (by simpa using haccepts)
    · cases h
      exact .fell _ rfl rfl _
  | failing p behind =>
    obtain ⟨rfl, rfl⟩ : _ ∧ _ := by simpa [next] using h
    exact .stepFail p behind
  | failed outcome behind =>
    cases behind with
    | none =>
      obtain ⟨rfl, rfl⟩ : _ ∧ _ := by simpa [next] using h
      exact .workflowFail outcome
    | some cycle =>
      obtain ⟨rfl, rfl⟩ : _ ∧ _ := by simpa [next] using h
      exact .workflowFailOn outcome cycle
  | complete step cycle =>
    obtain ⟨rfl, rfl⟩ : _ ∧ _ := by simpa [next] using h
    exact .complete step cycle _ rfl

/-! ### The events of a run -/

variable (normalizeGuide workflow) in
/-- What an act appends, and where the proposer is behind it. -/
inductive Acts (w : World) : Act → Option Event → Phase → Prop
  | step {input : Input} {event : Option Event} {phase : Phase}
      (h : Moves normalizeGuide workflow input w.ledger w.phase event phase) : Acts w (.step input) event phase
  | crash : Acts w .crash none .idle
  | answer (p : GateAnswer) : Acts w (.answer p) (some (.gateAnswer p)) w.phase
  | note {event : Event} (h : event.isQuiet = true) : Acts w (.note event) (some event) w.phase

theorem acts_of_act {w' : World}
    (h : w.act normalizeGuide digestUnitRunReports singleWriteBaseOf workflow a = some w') :
    ∃ event, w'.ledger = w.ledger ++ event.toList ∧ Acts normalizeGuide workflow w a event w'.phase := by
  cases a with
  | step input =>
    obtain ⟨⟨event, phase⟩, hnext, rfl⟩ := map_eq_some_iff.mp h
    exact ⟨event, rfl, .step (moves_of_next hnext)⟩
  | crash =>
    cases h
    exact ⟨none, by simp, .crash⟩
  | answer p =>
    cases h
    exact ⟨_, rfl, .answer p⟩
  | note event =>
    simp only [World.act] at h
    split at h
    · next hquiet =>
      cases h
      exact ⟨_, rfl, .note hquiet⟩
    · cases h

theorem Moves.not_start
    (h : Moves normalizeGuide workflow input ledger phase (some event) phase') : event.isStart = false := by
  cases h <;> rfl

theorem Acts.not_start (h : Acts normalizeGuide workflow w a (some event) phase) : event.isStart = false := by
  cases h with
  | step h => exact h.not_start
  | answer p => rfl
  | note h => cases event <;> first | rfl | cases h

end

end Forgent.Workflow
