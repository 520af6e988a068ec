import Forgent.Workflow.ProposerSteps

/-!
# An ended run stays ended

The status of a run is the last write of several kinds of events: a gate that parks, an answer, a failure, the end.
Until the end it says whether a question is open.  It stays what the end made it as long as answers come in turn and no
gate parks in the rest of a cycle whose integrate step failed; and a step that was completed or failed stays so, unless
its gate asks again.

* `StaysEnded`, `ParkedIfAsked`, `StepsStay`: what is said of a ledger; `inTurn`: the condition on acts.
* `Going`: what the status of a run that goes on says; `Heads`: the steps the proposer goes to.
* `ended_stays_ended`: every run.
-/

namespace Forgent.Workflow

open List Option

/-! ### What is said of a ledger -/

def Event.isEnd : Event → Bool
  | .workflowFail _ | .workflowComplete _ => true
  | _ => false

def isEnded (ledger : List Event) : Bool := ledger.any Event.isEnd

/-- A run that ended is neither running nor parked. -/
def StaysEnded (ledger : List Event) : Prop :=
  isEnded ledger = true →
    (projectWorkflowState ledger).status ≠ .running ∧ (projectWorkflowState ledger).status ≠ .parked

/-- A run that has not ended is parked while a question is open, and only then. -/
def ParkedIfAsked (ledger : List Event) : Prop :=
  isEnded ledger = false →
    ((projectWorkflowState ledger).status = .parked ↔ (projectWorkflowState ledger).questions ≠ [])

def StepStatus.isOver : StepStatus → Bool
  | .completed | .failed => true
  | _ => false

/-- The gate of a step asks again, since admission found the approval it gave to be stale. -/
def AskedAgain (workflow : Definition) (event : Event) (id : String) : Prop :=
  ∃ gated ∈ workflow.steps, ∃ approval : Violation, gated.id = id ∧ gated.gate.isSome = true ∧
    isApprovalRefusal approval.code = true ∧ event = .gatePark (askedAgain gated approval)

/-- A step that is over has the same status behind the next event, unless that is one of those excepted. -/
def StepsStay (except : Event → String → Prop) (ledger : List Event) : Prop :=
  ∀ before event behind, ledger = before ++ event :: behind → ∀ id status,
    (projectWorkflowState before).statusOf id = some status → status.isOver = true →
      (projectWorkflowState (before ++ [event])).statusOf id = some status ∨ except event id

/-! ### The condition -/

def settles (state : WorkflowState) (p : GateAnswer) : Bool :=
  (state.steps[p.stepId]?).all fun step => !(step.isConsentGate && !p.approved)

/-- Whether an act comes in turn: a step is answered while it is not over, and behind the end of the run only by an answer
that settles it; and no gate parks in what is left of a cycle when the run has ended in it. -/
def inTurn (normalizeGuide : Definition → Option Guide) (workflow : Definition) (w : World) : Act → Bool
  | .answer p =>
    ((projectWorkflowState w.ledger).statusOf p.stepId).all (!·.isOver) &&
      (!isEnded w.ledger || settles (projectWorkflowState w.ledger) p)
  | .step input =>
    match w.phase, input with
    | .ready ⟨state, step :: _⟩, _ => !isEnded w.ledger || !step.asks || state.statusOf step.id == some .answered
    | .running _ _ _ _, .refused refusal =>
      !isEnded w.ledger || (gatedOf workflow (ledgerGuide normalizeGuide w.ledger) refusal.violations).isNone
    | _, _ => true
  | .crash => true
  | .note _ => true

/-! ### The status of a run that goes on -/

/-- The status of a run that has not ended says whether a question is open. -/
def Going (state : WorkflowState) : Prop :=
  state.status = .running ∧ state.questions = [] ∨ state.status = .parked ∧ state.questions ≠ []

/-- The events that leave the status and the questions of a run alone. -/
def Event.isMild : Event → Bool
  | .workflowStart _ | .gatePark _ | .gateAnswer _ | .workflowFail _ | .workflowComplete _ => false
  | _ => true

section

variable {state : WorkflowState} {event : Event}

theorem WorkflowState.modifyStep_status (stepId : String) (f : StepState → StepState) :
    (state.modifyStep stepId f).status = state.status := by
  rw [modifyStep]
  split <;> rfl

theorem WorkflowState.modifyStep_questions (stepId : String) (f : StepState → StepState) :
    (state.modifyStep stepId f).questions = state.questions := by
  rw [modifyStep]
  split <;> rfl

theorem WorkflowState.step_of_isMild (h : event.isMild = true) :
    (state.step event).status = state.status ∧ (state.step event).questions = state.questions := by
  cases event with
  | stepStart stepId | unitScheduled p | unitStarted stepId unitId unitRunId | unitComplete p | stepComplete p | stepFail p => exact ⟨modifyStep_status _ _, modifyStep_questions _ _⟩
  | _ => first | exact ⟨rfl, rfl⟩ | cases h

theorem Going.mild (h : Going state) (hmild : event.isMild = true) : Going (state.step event) := by
  obtain ⟨hstatus, hquestions⟩ := @WorkflowState.step_of_isMild state event hmild
  rwa [Going, hstatus, hquestions]

theorem WorkflowState.mem_ask (state : WorkflowState) (p : GatePark) :
    ∃ question ∈ state.ask p, question.stepId = p.stepId := by
  rw [ask]
  split
  · next hany =>
    obtain ⟨question, hmem, hid⟩ := List.any_eq_true.mp hany
    exact ⟨question, hmem, beq_iff_eq.mp hid⟩
  · exact ⟨⟨p.stepId, p.question, p.header⟩, mem_append_right _ (mem_singleton_self _), rfl⟩

/-- **A gate parks**: its question is open. -/
theorem Going.park (p : GatePark) (hknown : (state.steps[p.stepId]?).isSome = true) :
    Going (state.step (.gatePark p)) := by
  have hquestions : (state.step (.gatePark p)).questions = state.ask p := by
    show (if state.steps.contains p.stepId then state.ask p else state.questions) = _
    rw [if_pos]
    rwa [Std.ExtTreeMap.contains_eq_isSome_getElem?]
  obtain ⟨question, hmem, _⟩ := state.mem_ask p
  refine .inr ⟨rfl, ?_⟩
  rw [hquestions]
  exact ne_nil_of_mem hmem

theorem WorkflowState.step_gateAnswer (state : WorkflowState) (p : GateAnswer) : (state.step (.gateAnswer p)).status =
        (if (state.step (.gateAnswer p)).questions = [] ∧
            ((state.steps[p.stepId]?).elim state.status fun step => (state.answered step p).1) = .parked then .running
          else (state.steps[p.stepId]?).elim state.status fun step => (state.answered step p).1) ∧
      (state.step (.gateAnswer p)).questions =
        (state.steps[p.stepId]?).elim state.questions fun step => (state.answered step p).2 := by
  have hquestions : (state.step (.gateAnswer p)).questions =
      (state.steps[p.stepId]?).elim state.questions fun step => (state.answered step p).2 := by
    show (state.answerGate p).questions = _
    rw [answerGate]
    cases state.steps[p.stepId]? with
    | none | some step => rfl
  refine ⟨?_, hquestions⟩
  rw [hquestions]
  show (state.answerGate p).status = _
  rw [answerGate]
  cases state.steps[p.stepId]? with
  | none | some step => rfl

/-- **A gate is answered**: its question is closed, or stays open. -/
theorem Going.answer (h : Going state) (p : GateAnswer) : Going (state.step (.gateAnswer p)) := by
  obtain ⟨hstatus, hquestions⟩ := state.step_gateAnswer p
  by_cases hnone : (state.step (.gateAnswer p)).questions = []
  · refine .inl ⟨?_, hnone⟩
    rw [hstatus]
    split
    · rfl
    · next hnot =>
      have hparked := fun heq => hnot ⟨hnone, heq⟩
      cases hstep : state.steps[p.stepId]? with
      | none =>
        rw [hstep] at hparked
        exact h.elim And.left fun hboth => absurd hboth.1 hparked
      | some step =>
        rw [hstep] at hparked
        simp only [elim_some, WorkflowState.answered] at hparked ⊢
        split at hparked
        · exact absurd rfl hparked
        · next hsettles =>
          rw [if_neg hsettles]
          exact h.elim And.left fun hboth => absurd hboth.1 hparked
  · refine .inr ⟨?_, hnone⟩
    rw [hstatus, if_neg fun hboth => hnone hboth.1]
    rw [hquestions] at hnone
    cases hstep : state.steps[p.stepId]? with
    | none =>
      rw [hstep] at hnone
      exact h.elim (fun hboth => absurd hboth.2 hnone) And.left
    | some step =>
      rw [hstep] at hnone
      simp only [elim_some, WorkflowState.answered] at hnone ⊢
      split
      · rfl
      · next hsettles =>
        rw [if_neg hsettles] at hnone
        refine h.elim (fun hboth => absurd ?_ hnone) And.left
        rw [hboth.2]
        rfl

theorem answer_step_ended {p : GateAnswer} (hsettles : settles state p = true)
    (hended : state.status = .failed ∨ state.status = .completed) :
    (state.step (.gateAnswer p)).status = state.status := by
  have hsame : ((state.steps[p.stepId]?).elim state.status fun step => (state.answered step p).1) = state.status := by
    rw [settles] at hsettles
    cases hstep : state.steps[p.stepId]? with
    | none => rfl
    | some step =>
      rw [hstep, all_some, Bool.not_eq_true'] at hsettles
      rw [elim_some, WorkflowState.answered, hsettles]
      rfl
  rw [(state.step_gateAnswer p).1, hsame, if_neg]
  intro hboth
  rcases hended with hended | hended
  · exact absurd (hended.symm.trans hboth.2) (by decide)
  · exact absurd (hended.symm.trans hboth.2) (by decide)

end

/-! ### The steps the proposer goes to -/

/-- A step that is not over. -/
def Live (state : WorkflowState) (id : String) : Prop :=
  ∀ status, state.statusOf id = some status → status.isOver = false

def Event.ends : Event → Option String
  | .stepComplete p => some p.stepId
  | .stepFail p => some p.stepId
  | _ => none

/-- The steps a cycle still goes to are different ones, and not over. -/
structure Ahead (state : WorkflowState) (cycle : Cycle) : Prop where
  nodup : (cycle.ready.map Step.id).Nodup
  live : ∀ step ∈ cycle.ready, Live state step.id

/-- The step the proposer is at is not over, and the cycle goes to it no more. -/
structure Head (state : WorkflowState) (cycle : Cycle) (step : Step) : Prop where
  ahead : Ahead state cycle
  fresh : step.id ∉ cycle.ready.map Step.id
  live : Live state step.id

def Heads (state : WorkflowState) : Phase → Prop
  | .idle | .look => True
  | .ready cycle => Ahead state cycle
  | .merge step cycle | .units step _ cycle | .running _ step _ cycle | .ended _ _ _ step _ cycle | .complete step cycle =>
    Head state cycle step
  | .failing p behind =>
    Live state p.stepId ∧ ∀ cycle ∈ behind, Ahead state cycle ∧ p.stepId ∉ cycle.ready.map Step.id
  | .failed _ behind => ∀ cycle ∈ behind, Ahead state cycle

section

variable {workflow : Definition} {state : WorkflowState} {event : Event} {cycle : Cycle} {step : Step} {id : String}

theorem Event.target_of_ends (h : event.ends = some id) : event.target = some id := by
  cases event <;> first | exact h | cases h

theorem Event.effect_live (h : event.ends = none) {step : StepState} (hlive : step.status.isOver = false) :
    (event.effect step).status.isOver = false := by
  cases event with
  | stepComplete p | stepFail p => cases h
  | unitStarted stepId unitId unitRunId =>
    show (step.modifyUnit unitId _).status.isOver = false
    rwa [step.modifyUnit_status]
  | unitComplete p =>
    show (step.modifyUnit p.unitId _).status.isOver = false
    rwa [step.modifyUnit_status]
  | gateAnswer p =>
    show (step.answerGate p).status.isOver = false
    rcases step.answerGate_status p with hstatus | hstatus
    · rw [hstatus]
      rfl
    · rw [hstatus]
      rfl
  | _ => first | exact hlive | rfl

theorem Live.append (h : Live state id) (hstart : event.isStart = false) (hends : event.ends ≠ some id) :
    Live (state.step event) id := by
  intro status hstatus
  by_cases heq : event.target = some id
  · rw [WorkflowState.statusOf_step hstart heq] at hstatus
    obtain ⟨stepState, hstep, rfl⟩ := map_eq_some_iff.mp hstatus
    have hnone : event.ends = none := by
      cases hends' : event.ends with
      | none => rfl
      | some other =>
        rw [Event.target_of_ends hends'] at heq
        exact absurd (hends'.trans heq) hends
    apply Event.effect_live hnone
    apply h
    rw [WorkflowState.statusOf, hstep]
    rfl
  · rw [WorkflowState.statusOf_step_of_ne hstart heq] at hstatus
    exact h status hstatus

theorem Ahead.append (h : Ahead state cycle) (hstart : event.isStart = false)
    (haway : ∀ id, event.ends = some id → id ∉ cycle.ready.map Step.id) : Ahead (state.step event) cycle where
  nodup := h.nodup
  live step hstep := (h.live step hstep).append hstart fun hends => haway _ hends (List.mem_map_of_mem hstep)

theorem Head.append (h : Head state cycle step) (hstart : event.isStart = false) (hends : event.ends = none) :
    Head (state.step event) cycle step where
  ahead := h.ahead.append hstart fun id hid => by simp [hends] at hid
  fresh := h.fresh
  live := h.live.append hstart (by simp [hends])

theorem Heads.append {phase : Phase} (h : Heads state phase) (hstart : event.isStart = false)
    (hends : event.ends = none) : Heads (state.step event) phase := by
  have hahead : ∀ cycle, Ahead state cycle → Ahead (state.step event) cycle :=
    fun cycle h => h.append hstart fun id hid => by simp [hends] at hid
  cases phase with
  | idle | look => trivial
  | ready cycle => exact hahead cycle h
  | merge step cycle | units step rest cycle | running launch step rest cycle
  | ended unit result outOfScope step rest cycle | complete step cycle => exact Head.append h hstart hends
  | failing p behind =>
    exact ⟨h.1.append hstart (by simp [hends]), fun cycle hcycle => ⟨hahead cycle (h.2 cycle hcycle).1, (h.2 cycle hcycle).2⟩⟩
  | failed outcome behind => exact fun cycle hcycle => hahead cycle (h cycle hcycle)

theorem ahead_readySteps (workflow : Definition) (state : WorkflowState) :
    Ahead state ⟨state, readySteps workflow state⟩ := by
  refine ⟨workflow.uniqueSteps.sublist (filter_sublist.map Step.id), fun step hstep status hstatus => ?_⟩
  have hfilter := (mem_filter.mp hstep).2
  obtain ⟨stepState, hstate, rfl⟩ := map_eq_some_iff.mp hstatus
  rw [hstate] at hfilter
  simp only [Bool.and_eq_true, decide_eq_true_eq] at hfilter
  cases hover : stepState.status <;> simp_all [StepStatus.isOver]

theorem Ahead.tail {state₀ : WorkflowState} {ready : List Step} (h : Ahead state ⟨state₀, step :: ready⟩) :
    Head state ⟨state₀, ready⟩ step := by
  have hnodup := h.nodup
  rw [map_cons, nodup_cons] at hnodup
  exact ⟨⟨hnodup.2, fun other hother => h.live other (mem_cons_of_mem step hother)⟩, hnodup.1, h.live step mem_cons_self⟩

theorem heads_begin (h : Head state cycle step) : Heads state (step.begin_ cycle) := by
  rw [Step.begin_]
  split
  · exact h
  · split
    · exact h
    · exact h

end

/-! ### Every run is parked while a question is open -/

/-- The cycle a phase goes on with. -/
def Phase.cycle : Phase → Option Cycle
  | .idle | .look => none
  | .ready cycle | .merge _ cycle | .units _ _ cycle | .running _ _ _ cycle | .ended _ _ _ _ _ cycle | .complete _ cycle =>
    some cycle
  | .failing _ behind | .failed _ behind => behind

def Listed (workflow : Definition) (phase : Phase) : Prop :=
  ∀ cycle ∈ phase.cycle, ∀ step ∈ cycle.ready, step ∈ workflow.steps

/-- The steps of a run are those of its workflow, and its status says whether a question is open until it ends. -/
structure Asking (workflow : Definition) (ledger : List Event) : Prop where
  begun : ledger ≠ []
  known : ∀ step ∈ workflow.steps, ((projectWorkflowState ledger).steps[step.id]?).isSome = true
  going : isEnded ledger = false → Going (projectWorkflowState ledger)

section

variable {normalizeGuide : Definition → Option Guide} {workflow : Definition} {ledger : List Event} {event : Event}
  {Meets : World → Act → Prop} {phase : Phase} {w : World}

theorem isEnded_append (ledger : List Event) (event : Event) :
    isEnded (ledger ++ [event]) = (isEnded ledger || event.isEnd) := by
  rw [isEnded, isEnded, any_append, any_cons, any_nil, Bool.or_false]

theorem Asking.append (h : Asking workflow ledger) (hstart : event.isStart = false)
    (hpark : ∀ p, event = .gatePark p → ∃ step ∈ workflow.steps, step.id = p.stepId) :
    Asking workflow (ledger ++ [event]) where
  begun := by simp
  known step hstep := by
    rw [projectWorkflowState_append h.begun, WorkflowState.getElem?_step _ hstart]
    split
    · rw [isSome_map]
      exact h.known step hstep
    · exact h.known step hstep
  going hopen := by
    rw [isEnded_append, Bool.or_eq_false_iff] at hopen
    obtain ⟨hopen, hnot⟩ := hopen
    have hgoing := h.going hopen
    rw [projectWorkflowState_append h.begun]
    cases event with
    | gatePark p =>
      obtain ⟨step, hstep, hid⟩ := hpark p rfl
      exact .park p (hid ▸ h.known step hstep)
    | gateAnswer p => exact hgoing.answer p
    | workflowStart p => cases hstart
    | workflowFail outcome | workflowComplete outcome => cases hnot
    | _ => exact hgoing.mild rfl

theorem start_steps (steps : List Step) (table : Table StepState) :
    (∀ step ∈ steps, ((steps.foldl (fun steps s => steps.insert s.id s.initial) table)[step.id]?).isSome = true) ∧
      ∀ id : String, (table[id]?).isSome = true →
        ((steps.foldl (fun steps s => steps.insert s.id s.initial) table)[id]?).isSome = true := by
  induction steps generalizing table with
  | nil => exact ⟨by simp, fun _ h => h⟩
  | cons first rest ih =>
    obtain ⟨hmem, hkept⟩ := ih (table.insert first.id first.initial)
    have hinsert : ∀ id, (table.insert first.id first.initial)[id]? =
        if first.id = id then some first.initial else table[id]? := by
      intro id
      rw [Std.ExtTreeMap.getElem?_insert]
      simp only [compare_key]
    refine ⟨fun step hstep => ?_, fun id hid => hkept id ?_⟩
    · rcases mem_cons.mp hstep with rfl | hstep
      · apply hkept
        rw [hinsert, if_pos rfl]
        rfl
      · exact hmem step hstep
    · rw [hinsert]
      split
      · rfl
      · exact hid

theorem Asking.start {p : StartPayload} (h : p.workflow = some workflow) : Asking workflow [.workflowStart p] where
  begun := by simp
  known step hstep := by
    show ((((p.workflow.map Definition.steps).getD []).foldl _ ∅ : Table StepState)[step.id]?).isSome = true
    rw [h]
    exact (start_steps workflow.steps ∅).1 step hstep
  going _ := .inl ⟨rfl, rfl⟩

theorem gatedOf_eq_some {guide : Option Guide} {violations : List Violation} {gated : Step} {approval : Violation}
    (h : gatedOf workflow guide violations = some (gated, approval)) :
    gated ∈ workflow.steps ∧ gated.gate.isSome = true ∧ isApprovalRefusal approval.code = true := by
  obtain ⟨violation, hviolation, h⟩ := bind_eq_some_iff.mp h
  obtain ⟨step, hstep, heq⟩ := map_eq_some_iff.mp h
  cases heq
  have hcode := find?_some hviolation
  have hgate := find?_some hstep
  simp only [Bool.and_eq_true] at hcode hgate
  exact ⟨mem_of_find?_eq_some hstep, hgate.1, hcode.1⟩

theorem listed_of_none (h : phase.cycle = none) : Listed workflow phase := by
  intro cycle hcycle
  rw [h] at hcycle
  cases hcycle

theorem listed_begin {step : Step} {cycle : Cycle} (h : ∀ other ∈ cycle.ready, other ∈ workflow.steps) :
    Listed workflow (step.begin_ cycle) := by
  have hcycle : (step.begin_ cycle).cycle = some cycle := by
    rw [Step.begin_]
    split
    · rfl
    · split <;> rfl
  intro other hother
  rw [hcycle] at hother
  cases hother
  exact h

theorem Listed.moves {input : Input} {phase' : Phase} {event : Option Event}
    (h : Moves normalizeGuide workflow input ledger phase event phase') (hlisted : Listed workflow phase) :
    Listed workflow phase' ∧ ∀ p, event = some (.gatePark p) → ∃ step ∈ workflow.steps, step.id = p.stepId := by
  cases h with
  | read hstatus =>
    refine ⟨fun cycle hcycle step hstep => ?_, by simp⟩
    cases hcycle
    exact (mem_filter.mp hstep).1
  | @park state step rest stepState text hstep hasks hwaits =>
    have hall := hlisted ⟨state, step :: rest⟩ rfl
    refine ⟨fun cycle hcycle other hother => ?_, fun p hp => ?_⟩
    · cases hcycle
      exact hall other (mem_cons_of_mem step hother)
    · obtain rfl := Event.gatePark.inj (some.inj hp)
      exact ⟨step, hall step mem_cons_self, rfl⟩
  | @start state step rest stepState hstep hgate | @goOn state step rest stepState hstep hstatus =>
    have hall := hlisted ⟨state, step :: rest⟩ rfl
    exact ⟨listed_begin fun other hother => hall other (mem_cons_of_mem step hother), by simp⟩
  | askAgain hinput hgated =>
    refine ⟨hlisted, fun p hp => ?_⟩
    obtain rfl := Event.gatePark.inj (some.inj hp)
    exact ⟨_, (gatedOf_eq_some hgated).1, rfl⟩
  | fell p hstep hunit reason | refused launch step rest cycle reason | resume | finish hstatus hdone | leave state
  | workflowFail outcome => exact ⟨listed_of_none rfl, by simp⟩
  | _ => exact ⟨hlisted, by simp [Scheduled.event]⟩

variable {digestUnitRunReports : List UnitRun → Option String}
variable {singleWriteBaseOf : Definition → String → Option (String × String)}

theorem asking_of_run (h : World.Run normalizeGuide digestUnitRunReports singleWriteBaseOf workflow Meets w) :
    Asking workflow w.ledger ∧ Listed workflow w.phase := by
  induction h with
  | start p hworkflow => exact ⟨.start hworkflow, listed_of_none rfl⟩
  | @act w w' _ a _ hact ih =>
    obtain ⟨hasking, hlisted⟩ := ih
    obtain ⟨event, hledger, hacts⟩ := acts_of_act hact
    rw [hledger]
    have hstart : ∀ e, event = some e → e.isStart = false := fun e he => (he ▸ hacts).not_start
    have hnext : Listed workflow w'.phase ∧
        ∀ p, event = some (.gatePark p) → ∃ step ∈ workflow.steps, step.id = p.stepId := by
      generalize w'.phase = phase at hacts
      cases hacts with
      | step hmoves => exact hlisted.moves hmoves
      | crash => exact ⟨listed_of_none rfl, by simp⟩
      | answer p => exact ⟨hlisted, by simp⟩
      | note hquiet =>
        refine ⟨hlisted, fun p hp => ?_⟩
        rw [some.inj hp] at hquiet
        cases hquiet
    refine ⟨?_, hnext.1⟩
    cases event with
    | none => simpa using hasking
    | some e => exact hasking.append (hstart e rfl) fun p hp => hnext.2 p (congrArg some hp)

theorem parkedIfAsked_of_run
    (h : World.Run normalizeGuide digestUnitRunReports singleWriteBaseOf workflow Meets w) : ParkedIfAsked w.ledger := by
  intro hopen
  rcases (asking_of_run h).1.going hopen with ⟨hstatus, hquestions⟩ | ⟨hstatus, hquestions⟩
  · simp [hstatus, hquestions]
  · simp [hstatus, hquestions]

end

/-! ### What is appended -/

/-- What is so of the event the proposer appends: it is about a step that is not over, or asks again; and behind the end of
the run it leaves the status alone, or ends the run. -/
structure Appends (workflow : Definition) (ledger : List Event) (event : Event) : Prop where
  start : event.isStart = false
  live : event.unit = none → ∀ id, event.target = some id →
    Live (projectWorkflowState ledger) id ∨ AskedAgain workflow event id
  kind : isEnded ledger = true → event.isMild = true ∨ event.isEnd = true

/-- What is so of the ledger of a run. -/
structure Orderly (workflow : Definition) (ledger : List Event) : Prop where
  begun : ledger ≠ []
  settled : isEnded ledger = true →
    (projectWorkflowState ledger).status = .failed ∨ (projectWorkflowState ledger).status = .completed
  stay : StepsStay (AskedAgain workflow) ledger

section

variable {workflow : Definition} {ledger : List Event} {event : Event}

theorem StepsStay.append {except : Event → String → Prop} (h : StepsStay except ledger)
    (hevent : ∀ id status, (projectWorkflowState ledger).statusOf id = some status → status.isOver = true →
      (projectWorkflowState (ledger ++ [event])).statusOf id = some status ∨ except event id) :
    StepsStay except (ledger ++ [event]) :=
  forall_position_append h (fun _ _ _ hstay => hstay) hevent

theorem Orderly.stay_append (h : Orderly workflow ledger) (hstart : event.isStart = false)
    (hlive : event.unit = none → ∀ id, event.target = some id →
      Live (projectWorkflowState ledger) id ∨ AskedAgain workflow event id) :
    StepsStay (AskedAgain workflow) (ledger ++ [event]) := by
  refine h.stay.append fun id status hstatus hover => ?_
  rw [projectWorkflowState_append h.begun]
  cases hunit : event.unit with
  | some unit =>
    obtain ⟨stepId, unitId⟩ := unit
    rw [WorkflowState.statusOf_step_of_unit hstart hunit]
    exact .inl hstatus
  | none =>
    by_cases heq : event.target = some id
    · rcases hlive hunit id heq with hlive | hasked
      · have hnot := hlive status hstatus
        rw [hover] at hnot
        cases hnot
      · exact .inr hasked
    · rw [WorkflowState.statusOf_step_of_ne hstart heq]
      exact .inl hstatus

/-- **The proposer appends an event.** -/
theorem Orderly.append (h : Orderly workflow ledger) (hevent : Appends workflow ledger event) :
    Orderly workflow (ledger ++ [event]) where
  begun := by simp
  stay := h.stay_append hevent.start hevent.live
  settled hended := by
    rw [projectWorkflowState_append h.begun]
    rw [isEnded_append, Bool.or_eq_true] at hended
    by_cases hend : event.isEnd = true
    · cases event with
      | workflowFail outcome => exact .inl rfl
      | workflowComplete outcome => exact .inr rfl
      | _ => cases hend
    · have hwas := hended.resolve_right hend
      rw [(WorkflowState.step_of_isMild ((hevent.kind hwas).resolve_right hend)).1]
      exact h.settled hwas

/-- **An answer that comes in turn.** -/
theorem Orderly.answer (h : Orderly workflow ledger) {p : GateAnswer} (hlive : Live (projectWorkflowState ledger) p.stepId)
    (hsettles : isEnded ledger = true → settles (projectWorkflowState ledger) p = true) :
    Orderly workflow (ledger ++ [.gateAnswer p]) where
  begun := by simp
  stay := h.stay_append rfl fun _ id hid => .inl (some.inj hid ▸ hlive)
  settled hended := by
    rw [isEnded_append, Bool.or_eq_true] at hended
    have hwas := hended.resolve_right (by simp [Event.isEnd])
    rw [projectWorkflowState_append h.begun, answer_step_ended (hsettles hwas) (h.settled hwas)]
    exact h.settled hwas

theorem Orderly.start (p : StartPayload) : Orderly workflow [.workflowStart p] where
  begun := by simp
  settled hended := by cases hended
  stay := by
    intro before event behind heq id status hstatus _
    obtain ⟨rfl, _⟩ | ⟨before', rfl, hnil⟩ := cons_eq_append_iff.mp heq
    · simp [projectWorkflowState, WorkflowState.statusOf, WorkflowState.initial] at hstatus
    · simp at hnil

end

/-! ### One step of the run loop -/

section

variable {normalizeGuide : Definition → Option Guide} {workflow : Definition} {ledger : List Event}
  {event : Option Event} {phase : Phase} {w : World}

theorem Appends.of_unit {event : Event} (hstart : event.isStart = false)
    (hkind : event.isMild = true ∨ event.isEnd = true) (hunit : event.unit ≠ none ∨ event.target = none) :
    Appends workflow ledger event where
  start := hstart
  kind _ := hkind
  live hnone id hid := by
    rcases hunit with hunit | htarget
    · exact absurd hnone hunit
    · rw [htarget] at hid
      cases hid

theorem Appends.of_live {event : Event} {id : String} (hstart : event.isStart = false)
    (hmild : event.isMild = true) (htarget : event.target = some id) (hlive : Live (projectWorkflowState ledger) id) :
    Appends workflow ledger event where
  start := hstart
  kind _ := .inl hmild
  live _ other hother := by
    obtain rfl := some.inj (htarget.symm.trans hother)
    exact .inl hlive

/-- **One step of the run loop** appends what it may, and goes to steps that are not over. -/
theorem Heads.moves {input : Input} {phase' : Phase}
    (h : Moves normalizeGuide workflow input ledger phase event phase') (hbegun : ledger ≠ [])
    (hheads : Heads (projectWorkflowState ledger) phase)
    (hturn : inTurn normalizeGuide workflow ⟨ledger, phase⟩ (.step input) = true) :
    (∀ e ∈ event, Appends workflow ledger e) ∧ Heads (projectWorkflowState (ledger ++ event.toList)) phase' := by
  have hnone : projectWorkflowState (ledger ++ (none : Option Event).toList) = projectWorkflowState ledger := by
    rw [toList_none, append_nil]
  have hsome : ∀ e, projectWorkflowState (ledger ++ (some e).toList) = (projectWorkflowState ledger).step e :=
    fun e => projectWorkflowState_append hbegun e
  have hone : ∀ {e : Event}, Appends workflow ledger e → ∀ e' ∈ some e, Appends workflow ledger e' :=
    fun happends e' he' => some.inj he' ▸ happends
  cases h with
  | resume | leave state => exact ⟨by simp, trivial⟩
  | read hstatus =>
    rw [hnone]
    exact ⟨by simp, ahead_readySteps workflow _⟩
  | finish hstatus hdone => exact ⟨hone (.of_unit rfl (.inr rfl) (.inr rfl)), trivial⟩
  | @park state step rest stepState text hstep hasks hwaits =>
    rw [hsome]
    have hhead := hheads.tail
    have hopen : isEnded ledger = false := by
      have hnot : (state.statusOf step.id == some .answered) = false := by
        rw [WorkflowState.statusOf, hstep, map_some, beq_eq_false_iff_ne]
        exact fun heq => hwaits (some.inj heq)
      simp only [inTurn, hasks, hnot, Bool.not_true, Bool.or_false, Bool.not_eq_true'] at hturn
      exact hturn
    refine ⟨hone ⟨rfl, fun _ id hid => ?_, fun hended => ?_⟩, hhead.ahead.append rfl fun id hid => by cases hid⟩
    · obtain rfl : step.id = id := some.inj hid
      exact .inl hhead.live
    · rw [hopen] at hended
      cases hended
  | @start state step rest stepState hstep hgate =>
    rw [hsome]
    have hhead := hheads.tail
    exact ⟨hone (.of_live rfl rfl rfl hhead.live), heads_begin (hhead.append rfl rfl)⟩
  | @goOn state step rest stepState hstep hstatus =>
    rw [hnone]
    exact ⟨by simp, heads_begin hheads.tail⟩
  | refuseMerge step cycle reason =>
    rw [hnone]
    refine ⟨by simp, hheads.live, fun other hother => ?_⟩
    cases hother
    exact ⟨hheads.ahead, hheads.fresh⟩
  | @merged step cycle hflagged | unitsDone step cycle | skip hunit hstatus | launch resume hnew hresume
  | asked launch step rest cycle | returned result outOfScope hscheduled =>
    rw [hnone]
    exact ⟨by simp, hheads⟩
  | schedule p hunit hscheduled | threw result outOfScope p =>
    rw [hsome]
    exact ⟨hone (.of_unit rfl (.inl rfl) (.inl (by simp [Scheduled.event, Event.unit]))), Head.append hheads rfl rfl⟩
  | created unitRunId hscheduled | passed p hstep hunit haccepts =>
    rw [hsome]
    exact ⟨hone (.of_unit rfl (.inl rfl) (.inl (by simp [Event.unit]))), Head.append hheads rfl rfl⟩
  | @askAgain launch step rest cycle refusal gated approval hinput hgated =>
    rw [hsome]
    subst hinput
    obtain ⟨hmem, hgate, hcode⟩ := gatedOf_eq_some hgated
    have hopen : isEnded ledger = false := by
      simpa [inTurn, hgated] using hturn
    refine ⟨hone ⟨rfl, fun _ id hid => .inr ⟨gated, hmem, approval, some.inj hid, hgate, hcode, rfl⟩,
      fun hended => ?_⟩, hheads.ahead.append rfl fun id hid => by cases hid⟩
    rw [hopen] at hended
    cases hended
  | refused launch step rest cycle reason =>
    rw [hnone]
    exact ⟨by simp, hheads.live, fun other hother => by cases hother⟩
  | fell p hstep hunit reason =>
    rw [hsome]
    exact ⟨hone (.of_unit rfl (.inl rfl) (.inl (by simp [Event.unit]))), hheads.live.append rfl (by simp [Event.ends]),
      fun other hother => by cases hother⟩
  | stepFail p behind =>
    rw [hsome]
    refine ⟨hone (.of_live rfl rfl rfl hheads.1), fun cycle hcycle => (hheads.2 cycle hcycle).1.append rfl fun id hid => ?_⟩
    obtain rfl : p.stepId = id := some.inj hid
    exact (hheads.2 cycle hcycle).2
  | workflowFail outcome =>
    exact ⟨hone (.of_unit rfl (.inr rfl) (.inr rfl)), trivial⟩
  | workflowFailOn outcome cycle =>
    rw [hsome]
    exact ⟨hone (.of_unit rfl (.inr rfl) (.inr rfl)), (hheads cycle rfl).append rfl fun id hid => by cases hid⟩
  | complete step cycle p hstep =>
    rw [hsome]
    refine ⟨hone (.of_live rfl rfl (congrArg some hstep) hheads.live), hheads.ahead.append rfl fun id hid => ?_⟩
    obtain rfl : p.stepId = id := some.inj hid
    rw [hstep]
    exact hheads.fresh

/-! ### Every run -/

/-- **One act** leaves the ledger in order. -/
theorem Orderly.act {a : Act} (h : Orderly workflow w.ledger)
    (hheads : Heads (projectWorkflowState w.ledger) w.phase) (hturn : inTurn normalizeGuide workflow w a = true)
    (hacts : Acts normalizeGuide workflow w a event phase) :
    Orderly workflow (w.ledger ++ event.toList) ∧ Heads (projectWorkflowState (w.ledger ++ event.toList)) phase := by
  cases hacts with
  | @step input event _ hmoves =>
    obtain ⟨hevent, hnext⟩ := Heads.moves hmoves h.begun hheads hturn
    refine ⟨?_, hnext⟩
    cases event with
    | none => simpa using h
    | some e => exact h.append (hevent e rfl)
  | crash =>
    rw [toList_none, append_nil]
    exact ⟨h, trivial⟩
  | answer p =>
    simp only [inTurn, Bool.and_eq_true, Bool.or_eq_true, Bool.not_eq_true', Option.all_eq_true] at hturn
    obtain ⟨hlive, hsettles⟩ := hturn
    refine ⟨h.answer hlive fun hended => ?_, ?_⟩
    · exact hsettles.resolve_left (by simp [hended])
    · show Heads (projectWorkflowState (w.ledger ++ [_])) _
      rw [projectWorkflowState_append h.begun]
      exact hheads.append rfl rfl
  | @note e hquiet =>
    have hquiet' : e.isMild = true ∧ e.isStart = false ∧ e.target = none ∧ e.ends = none := by
      cases e <;> first | exact ⟨rfl, rfl, rfl, rfl⟩ | cases hquiet
    obtain ⟨hmild, hstart, htarget, hends⟩ := hquiet'
    refine ⟨h.append (.of_unit hstart (.inl hmild) (.inr htarget)), ?_⟩
    show Heads (projectWorkflowState (w.ledger ++ [_])) _
    rw [projectWorkflowState_append h.begun]
    exact hheads.append hstart hends

variable {digestUnitRunReports : List UnitRun → Option String}
variable {singleWriteBaseOf : Definition → String → Option (String × String)}

theorem orderly_of_run (h : World.Run normalizeGuide digestUnitRunReports singleWriteBaseOf workflow
      (fun w a => inTurn normalizeGuide workflow w a = true) w) :
    Orderly workflow w.ledger ∧ Heads (projectWorkflowState w.ledger) w.phase := by
  induction h with
  | start p _ => exact ⟨.start p, trivial⟩
  | @act w w' _ a hturn hact ih =>
    obtain ⟨event, hledger, hacts⟩ := acts_of_act hact
    rw [hledger]
    exact ih.1.act ih.2 hturn hacts

/-- **An ended run stays ended.**  In every run, until it ends, it is parked while a question is open and only then.  In a
run whose acts all come in turn, once it ended it is neither running nor parked, and a step that was completed or failed
stays so until its gate asks again. -/
theorem ended_stays_ended {w : World} :
    (World.Run normalizeGuide digestUnitRunReports singleWriteBaseOf workflow (fun _ _ => True) w → ParkedIfAsked w.ledger) ∧
      (World.Run normalizeGuide digestUnitRunReports singleWriteBaseOf workflow
          (fun w a => inTurn normalizeGuide workflow w a = true) w →
        StaysEnded w.ledger ∧ StepsStay (AskedAgain workflow) w.ledger) := by
  refine ⟨parkedIfAsked_of_run, fun h => ?_⟩
  have hledger := (orderly_of_run h).1
  refine ⟨fun hended => ?_, hledger.stay⟩
  rcases hledger.settled hended with hstatus | hstatus
  · simp [hstatus]
  · simp [hstatus]

end

/-! ### A run -/

namespace Disputed

open Sample

def workflow : Definition where
  id := "w"
  steps := [
    ⟨"approve", [], .standard, some ⟨"human", some .consent, some "Build it?", none⟩, []⟩,
    ⟨"merge", [], .integrate, none, []⟩,
    ⟨"review", [], .standard, some ⟨"human", some .consent, some "Is it good?", none⟩, []⟩,
    ⟨"build", ["approve"], .standard, none, [⟨"build-u1", ["src"], none⟩]⟩]
  guide := some {
    kind := .playbook
    milestones := ["approve.settled", "merge.settled", "review.settled", "build.settled"]
    activities := [
      ⟨"approve", [], ["approve.settled"], .none⟩,
      ⟨"merge", [], ["merge.settled"], .writes⟩,
      ⟨"review", [], ["review.settled"], .none⟩,
      ⟨"build", ["approve.settled"], ["build.settled"], .writes⟩]
    decisions := [⟨"approve.settled", ["gate:approve"], [], some "Build it?", true, some .consent⟩]
    must := [⟨"owner-approves", .humanConsent, some "approve.settled"⟩]
    frameDefaults := none
    closure := []
    uniqueIds := by decide }
  uniqueSteps := by decide

def payload : StartPayload := ⟨"wf-1", "w", some workflow, none⟩

def answer (stepId : String) (approved : Bool) (occurrence : ℕ) : Act :=
  .answer ⟨stepId, "yes", approved, none, occurrence, 1, some .consent, some "sha256:1", none⟩

def stale : Refusal :=
  ⟨"consent-stale", "the approved draft changed",
    [⟨.consentStale, "owner-approves", "the approved draft changed", some "approve.settled"⟩]⟩

/-- Both gates are asked and answered, and the build is refused, since what was approved has changed. -/
def askedTwice : List Act :=
  [.step .go, .step .go, .step (.question "Build it?"), .step .go, .step (.merged none), .step .go,
    .step (.question "Is it good?"), .step .go, answer "approve" true 1, answer "review" true 1] ++
  [.step .go, .step .go, .step .go, .step .go, .step .go, .step .go] ++
  [.step .go, .step .go, .step (.launch false), .step (.refused stale)]

/-- The gate that asked again is answered, and the build ends with a pass. -/
def answeredTwice : List Act :=
  askedTwice ++ [.step .go, answer "approve" true 2] ++ [.step .go, .step .go, .step .go, .step .go, .step .go] ++
    [.step .go] ++ runUnit "unit-run-1" "pass" ++ [.step .go, .step .go, .step .go, .step .go]

theorem ended_after_asking_again : ∃ w : World, isEnded w.ledger = true ∧ ParkedIfAsked w.ledger ∧
    StaysEnded w.ledger ∧ StepsStay (AskedAgain workflow) w.ledger := by
  have hdone : ((answeredTwice.foldlM (World.actIf (fun _ => none) reports writeBase workflow
      (inTurn (fun _ => none) workflow)) (World.start payload)).map fun w => isEnded w.ledger) = some true := by
    decide
  obtain ⟨w, hw, hended⟩ := map_eq_some_iff.mp hdone
  have hrun := World.run_of_foldlM answeredTwice (.start payload rfl) hw
  exact ⟨w, hended, ended_stays_ended.1 (hrun.mono fun _ _ _ => trivial), ended_stays_ended.2 hrun⟩

/-- The merge fails, and the review behind it in the cycle asks its question. -/
def parkedBehindTheEnd : List Act :=
  [.step .go, .step .go, .step (.question "Build it?"), .step .go, .step (.merged (some "conflict")), .step .go, .step .go,
    .step (.question "Is it good?")]

theorem reached {α : Type} (acts : List Act) (f : List Event → α) {a : α}
    (h : ((acts.foldlM (World.actIf (fun _ => none) reports writeBase workflow fun _ _ => true)
      (World.start payload)).map fun w => f w.ledger) = some a) :
    ∃ w, World.Run (fun _ => none) reports writeBase workflow (fun _ _ => True) w ∧ f w.ledger = a := by
  obtain ⟨w, hw, ha⟩ := map_eq_some_iff.mp h
  exact ⟨w, (World.run_of_foldlM acts (.start payload rfl) hw).mono fun _ _ _ => trivial, ha⟩

def reopens (id : String) (ledger : List Event) : Bool :=
  ledger.getLast?.isSome && (projectWorkflowState ledger.dropLast).statusOf id == some .completed &&
    (projectWorkflowState ledger).statusOf id != some .completed

/-- A completed gate asks again, and a gate parks behind the end of the run. -/
theorem ended_runs_change : (¬ ∀ w, World.Run (fun _ => none) reports writeBase workflow (fun _ _ => True) w →
        StepsStay (fun _ _ => False) w.ledger) ∧
      ¬ ∀ w, World.Run (fun _ => none) reports writeBase workflow (fun _ _ => True) w → StaysEnded w.ledger := by
  refine ⟨fun hclaim => ?_, fun hclaim => ?_⟩
  · obtain ⟨w, hw, hreopens⟩ := reached askedTwice (reopens "approve") (a := true) (by decide)
    simp only [reopens, Bool.and_eq_true, beq_iff_eq, bne_iff_ne] at hreopens
    obtain ⟨⟨hlast, hbefore⟩, hbehind⟩ := hreopens
    obtain ⟨event, hevent⟩ := isSome_iff_exists.mp hlast
    have hledger : w.ledger = w.ledger.dropLast ++ [event] := (dropLast_append_getLast? event hevent).symm
    rcases hclaim w hw _ event [] hledger "approve" .completed hbefore rfl with hstays | hfalse
    · rw [← hledger] at hstays
      exact hbehind hstays
    · exact hfalse
  · obtain ⟨w, hw, hboth⟩ := reached parkedBehindTheEnd
      (fun ledger => (isEnded ledger, (projectWorkflowState ledger).status)) (a := (true, .parked)) (by decide)
    obtain ⟨hended, hparked⟩ := Prod.mk.inj hboth
    exact (hclaim w hw hended).2 hparked

end Disputed

end Forgent.Workflow
