import Forgent.Workflow.ProposerSteps

/-!
# A step passes on accepted work

What stands behind the events of a Playbook run.  The proposer decides from the state a cycle began on, and from what
is recorded of its Units; what it records is right as long as nothing that state says was taken back in the meantime,
and no Unit whose outcome was not accepted was left behind by a proposer that died before it failed the step.

* `Justified`: what an event stands on.
* `At`: what the projection says while the proposer is in a phase; `At.acts`: one act.
* `passes_on_accepted_work`: every run.
-/

namespace Forgent.Workflow

open List Option

/-! ### What an event stands on -/

def UnitPassed (state : WorkflowState) (step : Step) (unit : StepUnit) : Prop :=
  ∃ unitState, state.unitOf step.id unit.id = some unitState ∧ unitState.status = .completed ∧
    unitState.outcome.any unit.accepts.contains = true

/-- A Unit is not recorded complete. -/
def UnitOpen (state : WorkflowState) (stepId unitId : String) : Prop :=
  ∀ unitState, state.unitOf stepId unitId = some unitState → unitState.status ≠ .completed

/-- What an event stands on, in the ledger it was appended to. -/
def Justified (workflow : Definition) (before : List Event) : Event → Prop
  | .stepStart stepId => ∀ step ∈ workflow.steps, step.id = stepId →
      (∀ dep ∈ step.dependsOn, (projectWorkflowState before).statusOf dep = some .completed) ∧
        (step.asks = true → (projectWorkflowState before).statusOf stepId = some .answered)
  | .stepComplete p => ∀ step ∈ workflow.steps, step.id = p.stepId →
      (∀ unit ∈ step.units, UnitPassed (projectWorkflowState before) step unit) ∧
        (step.kind = .integrate → flagged (projectWorkflowState before) step = [])
  | .unitScheduled p => UnitOpen (projectWorkflowState before) p.stepId p.unitId
  | .unitStarted stepId unitId _ => UnitOpen (projectWorkflowState before) stepId unitId
  | .unitComplete p => UnitOpen (projectWorkflowState before) p.stepId p.unitId
  | .workflowComplete _ => ∀ step ∈ workflow.steps, (projectWorkflowState before).statusOf step.id = some .completed
  | _ => True

/-- Every event of a ledger stands on what it should. -/
def AllJustified (workflow : Definition) (ledger : List Event) : Prop :=
  ∀ before event behind, ledger = before ++ event :: behind → Justified workflow before event

theorem AllJustified.append {workflow : Definition} {ledger : List Event} {event : Event}
    (h : AllJustified workflow ledger) (hevent : Justified workflow ledger event) :
    AllJustified workflow (ledger ++ [event]) :=
  forall_position_append h (fun _ _ _ hjustified => hjustified) hevent

/-! ### The condition -/

/-- The Units of a step have different ids, and an integrate step has none. -/
def Plain (workflow : Definition) : Prop :=
  ∀ step ∈ workflow.steps, (step.units.map StepUnit.id).Nodup ∧ (step.kind = .integrate → step.units = [])

/-- No Unit of a step that has not failed is recorded complete with an outcome the step does not accept; `but` is a
step that is about to fail. -/
def Clean (workflow : Definition) (but : Option String) (state : WorkflowState) : Prop :=
  ∀ step ∈ workflow.steps, some step.id ≠ but → state.statusOf step.id ≠ some .failed →
    ∀ unit ∈ step.units, ∀ unitState ∈ state.unitOf step.id unit.id, unitState.status = .completed →
      unitState.outcome.any unit.accepts.contains = true

instance (workflow : Definition) (but : Option String) (state : WorkflowState) : Decidable (Clean workflow but state) := by
  unfold Clean
  infer_instance

/-- Whether an act leaves what the proposer goes by as it is: an answer is given to a step that waits for one; a run is
advanced when no Unit with an outcome that is not accepted was left in a step that has not failed; and a gate that asks
again has not failed, and is neither one of the steps the cycle still goes to nor one of those they depend on. -/
def meets (normalizeGuide : Definition → Option Guide) (workflow : Definition) (w : World) : Act → Bool
  | .answer p => (projectWorkflowState w.ledger).statusOf p.stepId == some .parked
  | .step input =>
    match w.phase, input with
    | .idle, _ => decide (Clean workflow none (projectWorkflowState w.ledger))
    | .running _ _ _ cycle, .refused refusal =>
      (gatedOf workflow (ledgerGuide normalizeGuide w.ledger) refusal.violations).all fun gated =>
        (projectWorkflowState w.ledger).statusOf gated.1.id != some .failed &&
          cycle.ready.all fun step => step.id != gated.1.id && !step.dependsOn.contains gated.1.id
    | _, _ => true
  | .crash => true
  | .note _ => true

/-! ### What the projection says in a phase -/

/-- The cycle's state is still right about the steps the cycle goes to, and about what they build on. -/
structure Fits (workflow : Definition) (state : WorkflowState) (cycle : Cycle) : Prop where
  mem : ∀ step ∈ cycle.ready, step ∈ workflow.steps
  nodup : (cycle.ready.map Step.id).Nodup
  same : ∀ step ∈ cycle.ready, state.steps[step.id]? = cycle.state.steps[step.id]?
  live : ∀ step ∈ cycle.ready, cycle.state.statusOf step.id ≠ some .completed ∧
    cycle.state.statusOf step.id ≠ some .parked ∧ cycle.state.statusOf step.id ≠ some .failed
  depsThen : ∀ step ∈ cycle.ready, ∀ dep ∈ step.dependsOn, cycle.state.statusOf dep = some .completed
  depsNow : ∀ step ∈ cycle.ready, ∀ dep ∈ step.dependsOn, state.statusOf dep = some .completed
  units : ∀ id, cycle.state.statusOf id = some .completed →
    (state.steps[id]?).map StepState.units = (cycle.state.steps[id]?).map StepState.units

/-- The step the proposer is at: the cycle goes to it no more, and it is running. -/
structure Current (workflow : Definition) (state : WorkflowState) (cycle : Cycle) (step : Step) : Prop where
  mem : step ∈ workflow.steps
  fresh : step.id ∉ cycle.ready.map Step.id
  running : state.statusOf step.id = some .running
  open_ : cycle.state.statusOf step.id ≠ some .completed
  deps : ∀ dep ∈ step.dependsOn, cycle.state.statusOf dep = some .completed

/-- Some Units of the step have passed, and of the others the state says what it said. -/
structure Among (state : WorkflowState) (cycle : Cycle) (step : Step) (done rest : List StepUnit) : Prop where
  passed : ∀ unit ∈ done, UnitPassed state step unit
  same : ∀ unit ∈ rest, state.unitOf step.id unit.id = cycle.state.unitOf step.id unit.id

/-- What is so while the proposer is at a Unit of a step. -/
structure AtUnit (workflow : Definition) (state : WorkflowState) (cycle : Cycle) (step : Step) (unit : StepUnit)
    (done rest : List StepUnit) : Prop where
  clean : Clean workflow none state
  fits : Fits workflow state cycle
  current : Current workflow state cycle step
  units : step.units = done ++ unit :: rest
  among : Among state cycle step done rest

/-- What the projection says while the proposer is in a phase. -/
def At (workflow : Definition) (state : WorkflowState) : Phase → Prop
  | .idle => True
  | .look => Clean workflow none state
  | .ready cycle => Clean workflow none state ∧ Fits workflow state cycle
  | .merge step cycle =>
    Clean workflow none state ∧ Fits workflow state cycle ∧ Current workflow state cycle step ∧ step.kind = .integrate
  | .units step rest cycle =>
    Clean workflow none state ∧ Fits workflow state cycle ∧ Current workflow state cycle step ∧
      step.kind ≠ .integrate ∧ ∃ done, step.units = done ++ rest ∧ Among state cycle step done rest
  | .running launch step rest cycle =>
    step.kind ≠ .integrate ∧ (∃ done, AtUnit workflow state cycle step launch.unit done rest) ∧
      UnitOpen state step.id launch.unit.id ∧
      (launch.scheduled = true → (state.unitOf step.id launch.unit.id).isSome = true)
  | .ended unit _ _ step rest cycle =>
    step.kind ≠ .integrate ∧ (∃ done, AtUnit workflow state cycle step unit done rest) ∧
      UnitOpen state step.id unit.id ∧ (state.unitOf step.id unit.id).isSome = true
  | .failing p behind =>
    Clean workflow (some p.stepId) state ∧
      ∀ cycle ∈ behind, Fits workflow state cycle ∧ p.stepId ∉ cycle.ready.map Step.id ∧
        cycle.state.statusOf p.stepId ≠ some .completed
  | .failed _ behind => Clean workflow none state ∧ ∀ cycle ∈ behind, Fits workflow state cycle
  | .complete step cycle =>
    Clean workflow none state ∧ Fits workflow state cycle ∧ Current workflow state cycle step ∧
      (∀ unit ∈ step.units, UnitPassed state step unit) ∧
      (step.kind = .integrate → flagged state step = [])

/-! ### What events leave alone -/

section

variable {workflow : Definition} {state : WorkflowState} {event : Event} {cycle : Cycle} {step : Step}
  {but : Option String} {p : UnitComplete}

theorem UnitPassed.congr {state' : WorkflowState} {unit : StepUnit} (h : UnitPassed state step unit)
    (hsame : state'.unitOf step.id unit.id = state.unitOf step.id unit.id) : UnitPassed state' step unit := by
  rw [UnitPassed, hsame]
  exact h

theorem Fits.append (h : Fits workflow state cycle) (hstart : event.isStart = false)
    (haway : ∀ id, event.target = some id → id ∉ cycle.ready.map Step.id ∧
      (∀ step ∈ cycle.ready, id ∉ step.dependsOn) ∧ (event.unit = none ∨ cycle.state.statusOf id ≠ some .completed)) :
    Fits workflow (state.step event) cycle where
  mem := h.mem
  nodup := h.nodup
  live := h.live
  depsThen := h.depsThen
  same step hstep := by
    have hne : event.target ≠ some step.id := fun heq => (haway _ heq).1 (List.mem_map_of_mem hstep)
    rw [WorkflowState.getElem?_step_of_ne hstart hne]
    exact h.same step hstep
  depsNow step hstep dep hdep := by
    have hne : event.target ≠ some dep := fun heq => (haway _ heq).2.1 step hstep hdep
    rw [WorkflowState.statusOf_step_of_ne hstart hne]
    exact h.depsNow step hstep dep hdep
  units id hid := by
    by_cases heq : event.target = some id
    · have hkeeps := (haway id heq).2.2.resolve_right fun hopen => hopen hid
      rw [state.getElem?_step hstart, if_pos heq, Option.map_map, ← h.units id hid]
      congr 1
      funext step
      exact Event.effect_units hkeeps step
    · rw [WorkflowState.getElem?_step_of_ne hstart heq]
      exact h.units id hid

theorem Fits.append_left (h : Fits workflow state cycle) (hstart : event.isStart = false) {id : String}
    (htarget : event.target = some id) (hfresh : id ∉ cycle.ready.map Step.id)
    (hopen : cycle.state.statusOf id ≠ some .completed) : Fits workflow (state.step event) cycle := by
  refine h.append hstart fun other hother => ?_
  obtain rfl : id = other := some.inj (htarget.symm.trans hother)
  exact ⟨hfresh, fun later hlater hdep => hopen (h.depsThen later hlater _ hdep), .inr hopen⟩

theorem Current.append (h : Current workflow state cycle step) (hstart : event.isStart = false)
    (hne : event.target ≠ some step.id) : Current workflow (state.step event) cycle step where
  mem := h.mem
  fresh := h.fresh
  open_ := h.open_
  deps := h.deps
  running := (WorkflowState.statusOf_step_of_ne hstart hne).trans h.running

theorem Among.append {done rest : List StepUnit} (h : Among state cycle step done rest) (hstart : event.isStart = false)
    (hne : event.target ≠ some step.id) : Among (state.step event) cycle step done rest where
  passed unit hunit := (h.passed unit hunit).congr (WorkflowState.unitOf_step_of_ne hstart hne unit.id)
  same unit hunit := (WorkflowState.unitOf_step_of_ne hstart hne unit.id).trans (h.same unit hunit)

theorem Clean.append {but' : Option String} (h : Clean workflow but state) (hstart : event.isStart = false)
    (hbut : ∀ id, some id = but → some id = but' ∨ event.target = some id)
    (htarget : ∀ step ∈ workflow.steps, event.target = some step.id → some step.id ≠ but' →
      (state.step event).statusOf step.id ≠ some .failed →
      ∀ unit ∈ step.units, ∀ unitState ∈ (state.step event).unitOf step.id unit.id, unitState.status = .completed →
        unitState.outcome.any unit.accepts.contains = true) : Clean workflow but' (state.step event) := by
  intro step hstep hnot hfailed unit hunit unitState hunitState hcompleted
  by_cases heq : event.target = some step.id
  · exact htarget step hstep heq hnot hfailed unit hunit unitState hunitState hcompleted
  · rw [WorkflowState.statusOf_step_of_ne hstart heq] at hfailed
    rw [WorkflowState.unitOf_step_of_ne hstart heq] at hunitState
    refine h step hstep (fun hbut' => ?_) hfailed unit hunit unitState hunitState hcompleted
    exact (hbut _ hbut').elim hnot heq

theorem Clean.append_keeps (h : Clean workflow but state) (hstart : event.isStart = false)
    (hkeeps : event.unit = none) (hlive : ∀ id, event.target = some id → state.statusOf id ≠ some .failed) :
    Clean workflow but (state.step event) := by
  refine h.append hstart (fun id hid => .inl hid) fun step hstep heq hnot _ unit hunit unitState hunitState => ?_
  rw [WorkflowState.unitOf_step_of_keeps hstart hkeeps] at hunitState
  exact h step hstep hnot (hlive _ heq) unit hunit unitState hunitState

/-! ### An event about a Unit -/

variable {unit : StepUnit} {done rest : List StepUnit}

theorem Plain.ne (h : Plain workflow) (hstep : step ∈ workflow.steps) (hunits : step.units = done ++ unit :: rest) :
    ∀ other ∈ done ++ rest, other.id ≠ unit.id := by
  have hnodup := (h step hstep).1
  rw [hunits, map_append, map_cons, nodup_append, nodup_cons] at hnodup
  obtain ⟨_, hrest, hapart⟩ := hnodup
  intro other hother
  rcases mem_append.mp hother with hother | hother
  · exact hapart other.id (List.mem_map_of_mem hother) unit.id mem_cons_self
  · exact fun heq => hrest.1 (heq ▸ List.mem_map_of_mem hother)

/-- **An event about the Unit the proposer is at** leaves the rest as it is. -/
theorem AtUnit.append (h : AtUnit workflow state cycle step unit done rest) (hplain : Plain workflow)
    (hstart : event.isStart = false) (hunit : event.unit = some (step.id, unit.id))
    (hnew : ∀ unitState ∈ (state.step event).unitOf step.id unit.id, unitState.status = .completed →
      unitState.outcome.any unit.accepts.contains = true) :
    AtUnit workflow (state.step event) cycle step unit done rest := by
  have htarget : event.target = some step.id := (Event.effect_of_unit hunit step.initial).1
  have hothers := hplain.ne h.current.mem h.units
  have hsame : ∀ other ∈ done ++ rest, (state.step event).unitOf step.id other.id = state.unitOf step.id other.id :=
    fun other hother => WorkflowState.unitOf_step_of_unit hstart hunit step.id (hothers other hother)
  refine ⟨?_, h.fits.append_left hstart htarget h.current.fresh h.current.open_, ?_, h.units, ?_⟩
  · refine h.clean.append hstart nofun ?_
    intro other hother heq hnot hfailed otherUnit hotherUnit unitState hunitState hcompleted
    have hid : step.id = other.id := some.inj (htarget.symm.trans heq)
    by_cases hself : otherUnit.id = unit.id
    · obtain rfl : step = other := inj_on_of_nodup_map workflow.uniqueSteps h.current.mem hother hid
      have hmem : unit ∈ step.units := by
        rw [h.units]
        exact mem_append_right _ mem_cons_self
      obtain rfl : otherUnit = unit :=
        inj_on_of_nodup_map (hplain step h.current.mem).1 hotherUnit hmem hself
      exact hnew unitState hunitState hcompleted
    · rw [WorkflowState.unitOf_step_of_unit hstart hunit _ hself] at hunitState
      rw [WorkflowState.statusOf_step_of_unit hstart hunit] at hfailed
      exact h.clean other hother hnot hfailed otherUnit hotherUnit unitState hunitState hcompleted
  · exact ⟨h.current.mem, h.current.fresh, (WorkflowState.statusOf_step_of_unit hstart hunit _).trans h.current.running,
      h.current.open_, h.current.deps⟩
  · exact ⟨fun other hother => (h.among.passed other hother).congr (hsame other (mem_append_left _ hother)),
      fun other hother => (hsame other (mem_append_right _ hother)).trans (h.among.same other hother)⟩

/-! ### One step of the run loop -/

theorem fits_readySteps (workflow : Definition) (state : WorkflowState) :
    Fits workflow state ⟨state, readySteps workflow state⟩ := by
  have hready : ∀ step ∈ readySteps workflow state, step ∈ workflow.steps ∧
      (state.statusOf step.id ≠ some .completed ∧ state.statusOf step.id ≠ some .parked ∧
        state.statusOf step.id ≠ some .failed) ∧
      ∀ dep ∈ step.dependsOn, state.statusOf dep = some .completed := by
    intro step hstep
    obtain ⟨hmem, hfilter⟩ := mem_filter.mp hstep
    split at hfilter
    · cases hfilter
    · next stepState hstate =>
      simp only [Bool.and_eq_true, decide_eq_true_eq, List.all_eq_true] at hfilter
      obtain ⟨⟨⟨hcompleted, hparked⟩, hfailed⟩, hdeps⟩ := hfilter
      refine ⟨hmem, ?_, hdeps⟩
      simp only [WorkflowState.statusOf, hstate, map_some, ne_eq, some.injEq]
      exact ⟨hcompleted, hparked, hfailed⟩
  refine ⟨fun step hstep => (hready step hstep).1, ?_, fun _ _ => rfl, fun step hstep => (hready step hstep).2.1,
    fun step hstep => (hready step hstep).2.2, fun step hstep => (hready step hstep).2.2, fun _ _ => rfl⟩
  exact workflow.uniqueSteps.sublist (filter_sublist.map Step.id)

theorem Fits.tail {state₀ : WorkflowState} {ready : List Step} (h : Fits workflow state ⟨state₀, step :: ready⟩) :
    Fits workflow state ⟨state₀, ready⟩ ∧ step.id ∉ ready.map Step.id ∧ state₀.statusOf step.id ≠ some .completed := by
  have hmem : ∀ other ∈ ready, other ∈ step :: ready := fun other hother => mem_cons_of_mem step hother
  have hnodup := h.nodup
  rw [map_cons, nodup_cons] at hnodup
  exact ⟨⟨fun other hother => h.mem other (hmem other hother), hnodup.2, fun other hother => h.same other (hmem other hother),
    fun other hother => h.live other (hmem other hother), fun other hother => h.depsThen other (hmem other hother),
    fun other hother => h.depsNow other (hmem other hother), h.units⟩, hnodup.1, (h.live step mem_cons_self).1⟩

theorem Clean.weaken (h : Clean workflow none state) : Clean workflow but state :=
  fun step hstep _ => h step hstep (by simp)

theorem at_begin (hclean : Clean workflow none state) (hfits : Fits workflow state cycle)
    (hcurrent : Current workflow state cycle step)
    (hsame : ∀ unitId, state.unitOf step.id unitId = cycle.state.unitOf step.id unitId) :
    At workflow state (step.begin_ cycle) := by
  rw [Step.begin_]
  split
  · next hkind => exact ⟨hclean, hfits, hcurrent, hkind⟩
  · next hkind =>
    split
    · exact ⟨hclean, hfits, hcurrent, hkind, [], rfl, by simp, fun unit _ => hsame unit.id⟩
    · next hunits =>
      rw [not_not] at hunits
      refine ⟨hclean, hfits, hcurrent, fun unit hunit => ?_, fun hintegrate => absurd hintegrate hkind⟩
      rw [hunits] at hunit
      cases hunit

theorem Fits.flagged_eq (h : Fits workflow state cycle)
    (hdeps : ∀ dep ∈ step.dependsOn, cycle.state.statusOf dep = some .completed) :
    flagged state step = flagged cycle.state step := by
  have hunits : ∀ dep ∈ step.dependsOn, unitsOf state dep = unitsOf cycle.state dep := by
    intro dep hdep
    have hsame := congrArg (Option.map fun units : Table UnitState => units.toList.map Prod.snd) (h.units dep (hdeps dep hdep))
    rw [Option.map_map, Option.map_map] at hsame
    exact congrArg (Option.getD · []) hsame
  rw [flagged, flagged]
  apply flatMap_congr
  intro dep hdep
  rw [hunits dep hdep]

theorem step_eq {other : Step} (hstep : step ∈ workflow.steps) (hother : other ∈ workflow.steps)
    (heq : other.id = step.id) : other = step := inj_on_of_nodup_map workflow.uniqueSteps hother hstep heq

theorem unitOf_schedule {p : UnitScheduled} (hrunning : state.statusOf p.stepId = some .running) :
    (state.step (.unitScheduled p)).unitOf p.stepId p.unitId = some p.initial := by
  rw [WorkflowState.unitOf_step rfl rfl]
  obtain ⟨stepState, hstep, _⟩ := map_eq_some_iff.mp hrunning
  rw [hstep]
  show (stepState.scheduleUnit p).units[p.unitId]? = _
  rw [stepState.getElem?_scheduleUnit, if_pos rfl]

theorem unitOf_complete (hsome : (state.unitOf p.stepId p.unitId).isSome = true) :
    ∃ unitState, (state.step (.unitComplete p)).unitOf p.stepId p.unitId = some unitState ∧
      unitState.status = .completed ∧ unitState.outcome = some p.outcome := by
  obtain ⟨unitState, hunit⟩ := isSome_iff_exists.mp hsome
  rw [WorkflowState.unitOf] at hunit
  obtain ⟨stepState, hstep, hunit⟩ := bind_eq_some_iff.mp hunit
  refine ⟨unitState.complete p, ?_, rfl, rfl⟩
  rw [WorkflowState.unitOf_step rfl rfl, hstep]
  show (stepState.modifyUnit p.unitId (·.complete p)).units[p.unitId]? = _
  rw [stepState.getElem?_modifyUnit, if_pos rfl, hunit]
  rfl

theorem ready_park (hclean : Clean workflow none state) (hfits : Fits workflow state cycle) (p : GatePark)
    (hfailed : state.statusOf p.stepId ≠ some .failed) (hfresh : p.stepId ∉ cycle.ready.map Step.id)
    (hdeps : ∀ step ∈ cycle.ready, p.stepId ∉ step.dependsOn) :
    At workflow (state.step (.gatePark p)) (.ready cycle) := by
  have htarget : ∀ id, (Event.gatePark p).target = some id → id = p.stepId := fun id hid => (some.inj hid).symm
  refine ⟨hclean.append_keeps rfl rfl fun id hid => ?_, hfits.append rfl fun id hid => ?_⟩
  · rw [htarget id hid]
    exact hfailed
  · rw [htarget id hid]
    exact ⟨hfresh, hdeps, .inl rfl⟩

section

variable (h : AtUnit workflow state cycle step unit done rest)

include h

theorem at_schedule (hplain : Plain workflow) (p : Scheduled) :
    AtUnit workflow (state.step (p.event step.id unit.id)) cycle step unit done rest ∧
      UnitOpen (state.step (p.event step.id unit.id)) step.id unit.id ∧
      ((state.step (p.event step.id unit.id)).unitOf step.id unit.id).isSome = true := by
  have hunit := unitOf_schedule (p := ⟨step.id, unit.id, p.reservationId, p.worktreePath, p.branch, p.baseRef, p.baseSha⟩)
    h.current.running
  have hopen : UnitOpen (state.step (p.event step.id unit.id)) step.id unit.id := by
    intro unitState hunitState
    obtain rfl := some.inj (hunit.symm.trans hunitState)
    exact nofun
  refine ⟨h.append hplain rfl rfl fun unitState hunitState hcompleted => ?_, hopen, ?_⟩
  · exact absurd hcompleted (hopen unitState hunitState)
  · rw [Scheduled.event, hunit]
    rfl

theorem at_passed (hplain : Plain workflow)
    (hstep : p.stepId = step.id) (hunit : p.unitId = unit.id) (haccepts : p.outcome ∈ unit.accepts)
    (hsome : (state.unitOf step.id unit.id).isSome = true) :
    AtUnit workflow (state.step (.unitComplete p)) cycle step unit done rest ∧
      UnitPassed (state.step (.unitComplete p)) step unit := by
  rw [← hstep, ← hunit] at hsome
  obtain ⟨unitState, hnow, hcompleted, houtcome⟩ := unitOf_complete hsome
  rw [hstep, hunit] at hnow
  have haccepts' : unitState.outcome.any unit.accepts.contains = true := by
    rw [houtcome]
    simpa using haccepts
  refine ⟨h.append hplain rfl (by rw [Event.unit, hstep, hunit]) fun other hother _ => ?_,
    unitState, hnow, hcompleted, haccepts'⟩
  obtain rfl := some.inj (hnow.symm.trans hother)
  exact haccepts'

theorem clean_fell (hstep : p.stepId = step.id) : Clean workflow (some step.id) (state.step (.unitComplete p)) := by
  refine h.clean.append rfl nofun fun other _ heq hnot => ?_
  have htarget : some step.id = some other.id := (congrArg some hstep).symm.trans heq
  exact absurd htarget.symm hnot

end

theorem clean_stepFail {p : StepFail} (h : Clean workflow (some p.stepId) state) :
    Clean workflow none (state.step (.stepFail p)) := by
  refine h.append rfl (fun id hid => .inr hid.symm) fun other _ heq _ hfailed unit _ unitState hunitState => ?_
  have htarget : (Event.stepFail p).target = some other.id := heq
  cases hstate : state.steps[other.id]? with
  | none =>
    have hnone : (state.step (.stepFail p)).unitOf other.id unit.id = none := by
      rw [WorkflowState.unitOf_step rfl htarget, hstate]
      rfl
    rw [hnone] at hunitState
    cases hunitState
  | some stepState =>
    rw [WorkflowState.statusOf_step rfl htarget, hstate] at hfailed
    exact absurd rfl hfailed

end

section

variable {normalizeGuide : Definition → Option Guide} {workflow : Definition} {phase : Phase} {event : Option Event}
  {w : World}

/-- **One step of the run loop**: what it appends stands on what it should, and the projection says of the next phase
what it should. -/
theorem At.moves {input : Input} {ledger : List Event} {phase' : Phase}
    (h : Moves normalizeGuide workflow input ledger phase event phase') (hplain : Plain workflow) (hne : ledger ≠ [])
    (hat : At workflow (projectWorkflowState ledger) phase)
    (hmeets : meets normalizeGuide workflow ⟨ledger, phase⟩ (.step input) = true) :
    (∀ e ∈ event, Justified workflow ledger e) ∧
      At workflow (projectWorkflowState (ledger ++ event.toList)) phase' := by
  have hnone : projectWorkflowState (ledger ++ (none : Option Event).toList) = projectWorkflowState ledger := by
    rw [toList_none, append_nil]
  have hsome : ∀ e, projectWorkflowState (ledger ++ (some e).toList) = (projectWorkflowState ledger).step e :=
    fun e => projectWorkflowState_append hne e
  cases h with
  | resume =>
    rw [hnone]
    have hclean : Clean workflow none (projectWorkflowState ledger) := of_decide_eq_true hmeets
    exact ⟨by simp, hclean⟩
  | read hstatus =>
    rw [hnone]
    exact ⟨by simp, hat, fits_readySteps workflow _⟩
  | finish hstatus hdone =>
    rw [hsome]
    refine ⟨fun e he => ?_, ?_⟩
    · cases he
      intro step hstep
      exact of_decide_eq_true (List.all_eq_true.mp hdone step hstep)
    · exact Clean.append_keeps hat rfl rfl nofun
  | leave state =>
    rw [hnone]
    exact ⟨by simp, hat.1⟩
  | @park state step rest stepState text hstep hasks _ =>
    rw [hsome]
    obtain ⟨hclean, hfits⟩ := hat
    obtain ⟨htail, hfresh, hopen⟩ := hfits.tail
    refine ⟨by simp [Justified], ready_park hclean htail _ ?_ hfresh fun other hother hdep => ?_⟩
    · show Option.map _ ((projectWorkflowState ledger).steps[step.id]?) ≠ _
      rw [hfits.same step mem_cons_self]
      exact (hfits.live step mem_cons_self).2.2
    · exact hopen (htail.depsThen other hother _ hdep)
  | @start state step rest stepState hstep hgate =>
    rw [hsome]
    obtain ⟨hclean, hfits⟩ := hat
    obtain ⟨htail, hfresh, hopen⟩ := hfits.tail
    have hmem := hfits.mem step mem_cons_self
    have hnow := hfits.same step mem_cons_self
    refine ⟨fun e he => ?_, at_begin ?_ ?_ ?_ fun unitId => ?_⟩
    · cases he
      intro other hother hid
      obtain rfl := step_eq hmem hother hid
      refine ⟨hfits.depsNow other mem_cons_self, fun hasks => ?_⟩
      rw [WorkflowState.statusOf, hnow, hstep, map_some, hgate hasks]
    · refine hclean.append_keeps rfl rfl fun id hid => ?_
      cases hid
      rw [WorkflowState.statusOf, hnow]
      exact (hfits.live step mem_cons_self).2.2
    · exact htail.append_left rfl rfl hfresh hopen
    · refine ⟨hmem, hfresh, ?_, hopen, hfits.depsThen step mem_cons_self⟩
      rw [WorkflowState.statusOf_step rfl rfl, hnow, hstep]
      rfl
    · rw [WorkflowState.unitOf_step_of_keeps rfl rfl, WorkflowState.unitOf, hnow]
      rfl
  | @goOn state step rest stepState hstep hstatus =>
    rw [hnone]
    obtain ⟨hclean, hfits⟩ := hat
    obtain ⟨htail, hfresh, hopen⟩ := hfits.tail
    have hnow := hfits.same step mem_cons_self
    have hlive := hfits.live step mem_cons_self
    refine ⟨by simp, at_begin hclean htail ?_ fun unitId => ?_⟩
    · refine ⟨hfits.mem step mem_cons_self, hfresh, ?_, hopen, hfits.depsThen step mem_cons_self⟩
      have hstale : state.statusOf step.id = some stepState.status := by
        rw [WorkflowState.statusOf, hstep]
        rfl
      rw [WorkflowState.statusOf, hnow]
      show state.statusOf step.id = some .running
      rw [show (⟨state, step :: rest⟩ : Cycle).state = state from rfl, hstale] at hlive
      rw [hstale]
      cases hkind : stepState.status <;> simp_all
    · rw [WorkflowState.unitOf, hnow]
      rfl
  | refuseMerge step cycle reason =>
    rw [hnone]
    obtain ⟨hclean, hfits, hcurrent, _⟩ := hat
    refine ⟨by simp, hclean.weaken, fun other hother => ?_⟩
    cases hother
    exact ⟨hfits, hcurrent.fresh, hcurrent.open_⟩
  | @merged step cycle hflagged =>
    rw [hnone]
    obtain ⟨hclean, hfits, hcurrent, hkind⟩ := hat
    refine ⟨by simp, hclean, hfits, hcurrent, fun unit hunit => ?_, fun _ => ?_⟩
    · rw [(hplain step hcurrent.mem).2 hkind] at hunit
      cases hunit
    · rw [hfits.flagged_eq hcurrent.deps]
      exact hflagged
  | unitsDone step cycle =>
    rw [hnone]
    obtain ⟨hclean, hfits, hcurrent, hkind, done, hunits, hamong⟩ := hat
    refine ⟨by simp, hclean, hfits, hcurrent, fun unit hunit => ?_, fun hintegrate => absurd hintegrate hkind⟩
    rw [hunits, append_nil] at hunit
    exact hamong.passed unit hunit
  | @skip step unit rest cycle unitState hunit hstatus =>
    rw [hnone]
    obtain ⟨hclean, hfits, hcurrent, hkind, done, hunits, hamong⟩ := hat
    have hnow := (hamong.same unit mem_cons_self).trans hunit
    have hmem : unit ∈ step.units := by
      rw [hunits]
      exact mem_append_right _ mem_cons_self
    have hpassed : UnitPassed (projectWorkflowState ledger) step unit :=
      ⟨unitState, hnow, hstatus, hclean step hcurrent.mem (by simp) (by simp [hcurrent.running]) unit hmem unitState hnow
        hstatus⟩
    refine ⟨by simp, hclean, hfits, hcurrent, hkind, done ++ [unit], by simp [hunits], fun other hother => ?_,
      fun other hother => hamong.same other (mem_cons_of_mem unit hother)⟩
    rcases mem_append.mp hother with hother | hother
    · exact hamong.passed other hother
    · rw [mem_singleton.mp hother]
      exact hpassed
  | @launch step unit rest cycle resume hnew hresume =>
    rw [hnone]
    obtain ⟨hclean, hfits, hcurrent, hkind, done, hunits, hamong⟩ := hat
    have hnow := hamong.same unit mem_cons_self
    refine ⟨by simp, hkind, ⟨done, hclean, hfits, hcurrent, hunits, hamong.passed,
      fun other hother => hamong.same other (mem_cons_of_mem unit hother)⟩, ?_, fun hscheduled => ?_⟩
    · intro unitState hunitState
      exact hnew unitState (hnow.symm.trans hunitState)
    · rw [hnow]
      exact hresume hscheduled
  | asked launch step rest cycle =>
    rw [hnone]
    exact ⟨by simp, hat⟩
  | @schedule launch step rest cycle p launch' hunit hscheduled =>
    rw [hsome]
    obtain ⟨hkind, ⟨done, hatUnit⟩, hopen, _⟩ := hat
    obtain ⟨hatUnit', hopen', hsome'⟩ := at_schedule hatUnit hplain p
    refine ⟨fun e he => ?_, hkind, ⟨done, ?_⟩, ?_, fun _ => ?_⟩
    · cases he
      exact hopen
    · rw [hunit]
      exact hatUnit'
    · rw [hunit]
      exact hopen'
    · rw [hunit]
      exact hsome'
  | @created launch step rest cycle unitRunId hscheduled =>
    rw [hsome]
    obtain ⟨hkind, ⟨done, hatUnit⟩, hopen, hthere⟩ := hat
    obtain ⟨unitState, hunitState⟩ := isSome_iff_exists.mp (hthere hscheduled)
    obtain ⟨stepState, hstepState, hunit⟩ := bind_eq_some_iff.mp hunitState
    have hnow : ((projectWorkflowState ledger).step (.unitStarted step.id launch.unit.id unitRunId)).unitOf step.id
        launch.unit.id = some { unitState with unitRunId := some unitRunId } := by
      rw [WorkflowState.unitOf_step rfl rfl, hstepState]
      show (stepState.modifyUnit launch.unit.id _).units[launch.unit.id]? = _
      rw [stepState.getElem?_modifyUnit, if_pos rfl, hunit]
      rfl
    have hopen' : UnitOpen ((projectWorkflowState ledger).step (.unitStarted step.id launch.unit.id unitRunId)) step.id
        launch.unit.id := by
      intro other hother
      obtain rfl := some.inj (hnow.symm.trans hother)
      exact hopen unitState hunitState
    refine ⟨fun e he => ?_, hkind, ⟨done, ?_⟩, hopen', fun _ => ?_⟩
    · cases he
      exact hopen
    · exact hatUnit.append hplain rfl rfl fun other hother hcompleted => absurd hcompleted (hopen' other hother)
    · rw [hnow]
      rfl
  | @askAgain launch step rest cycle refusal gated approval hinput hgated =>
    rw [hsome]
    obtain ⟨_, ⟨done, hatUnit⟩, _⟩ := hat
    subst hinput
    simp only [meets, hgated, all_some, Bool.and_eq_true, bne_iff_ne, List.all_eq_true,
      Bool.not_eq_true', contains_eq_mem, decide_eq_false_iff_not] at hmeets
    obtain ⟨hfailed, hready⟩ := hmeets
    refine ⟨by simp [Justified], ready_park hatUnit.clean hatUnit.fits _ hfailed (fun hmem => ?_)
      fun other hother => (hready other hother).2⟩
    obtain ⟨other, hother, hid⟩ := List.mem_map.mp hmem
    exact (hready other hother).1 hid
  | refused launch step rest cycle reason =>
    rw [hnone]
    obtain ⟨_, ⟨done, hatUnit⟩, _⟩ := hat
    exact ⟨by simp, hatUnit.clean.weaken, fun other hother => by cases hother⟩
  | returned result outOfScope hscheduled =>
    rw [hnone]
    obtain ⟨hkind, hatUnit, hopen, hthere⟩ := hat
    exact ⟨by simp, hkind, hatUnit, hopen, hthere hscheduled⟩
  | threw result outOfScope p =>
    rw [hsome]
    obtain ⟨hkind, ⟨done, hatUnit⟩, hopen, _⟩ := hat
    obtain ⟨hatUnit', hopen', hsome'⟩ := at_schedule hatUnit hplain p
    refine ⟨fun e he => ?_, hkind, ⟨done, hatUnit'⟩, hopen', hsome'⟩
    cases he
    exact hopen
  | @passed unit result outOfScope step rest cycle p hstep hunit haccepts =>
    rw [hsome]
    obtain ⟨hkind, ⟨done, hatUnit⟩, hopen, hthere⟩ := hat
    obtain ⟨hatUnit', hpassed⟩ := at_passed hatUnit hplain hstep hunit haccepts hthere
    refine ⟨fun e he => ?_, hatUnit'.clean, hatUnit'.fits, hatUnit'.current, hkind, done ++ [unit],
      by simp [hatUnit'.units], fun other hother => ?_, hatUnit'.among.same⟩
    · cases he
      rw [Justified, hstep, hunit]
      exact hopen
    · rcases mem_append.mp hother with hother | hother
      · exact hatUnit'.among.passed other hother
      · rw [mem_singleton.mp hother]
        exact hpassed
  | fell p hstep hunit reason =>
    rw [hsome]
    obtain ⟨_, ⟨done, hatUnit⟩, hopen, _⟩ := hat
    refine ⟨fun e he => ?_, clean_fell hatUnit hstep, fun other hother => by cases hother⟩
    cases he
    rw [Justified, hstep, hunit]
    exact hopen
  | stepFail p behind =>
    rw [hsome]
    obtain ⟨hclean, hbehind⟩ := hat
    refine ⟨by simp [Justified], clean_stepFail hclean, fun cycle hcycle => ?_⟩
    obtain ⟨hfits, hfresh, hopen⟩ := hbehind cycle hcycle
    exact hfits.append_left rfl rfl hfresh hopen
  | workflowFail outcome =>
    rw [hsome]
    refine ⟨by simp [Justified], hat.1.append_keeps rfl rfl fun id hid => ?_⟩
    cases hid
  | workflowFailOn outcome cycle =>
    rw [hsome]
    obtain ⟨hclean, hbehind⟩ := hat
    refine ⟨by simp [Justified], hclean.append_keeps rfl rfl fun id hid => ?_, (hbehind cycle rfl).append rfl fun id hid => ?_⟩
    · cases hid
    · cases hid
  | complete step cycle p hstep =>
    rw [hsome]
    obtain ⟨hclean, hfits, hcurrent, hpassed, hflagged⟩ := hat
    have htarget : (Event.stepComplete p).target = some step.id := congrArg some hstep
    refine ⟨fun e he => ?_, hclean.append_keeps rfl rfl fun id hid => ?_,
      hfits.append_left rfl htarget hcurrent.fresh hcurrent.open_⟩
    · cases he
      intro other hother hid
      obtain rfl := step_eq hcurrent.mem hother (hid.trans hstep)
      exact ⟨hpassed, hflagged⟩
    · obtain rfl := some.inj (htarget.symm.trans hid)
      rw [hcurrent.running]
      simp

/-! ### Answers, and the events of the case -/

/-- An event that is about no Unit, and about a step only if that step waits for an answer, changes nothing the proposer
goes by. -/
theorem At.append {state : WorkflowState} {event : Event} (h : At workflow state phase)
    (hstart : event.isStart = false) (hkeeps : event.unit = none)
    (hparked : ∀ id, event.target = some id → state.statusOf id = some .parked) :
    At workflow (state.step event) phase := by
  have hclean : ∀ but, Clean workflow but state → Clean workflow but (state.step event) :=
    fun but hclean => hclean.append_keeps hstart hkeeps fun id hid => by simp [hparked id hid]
  have hfits : ∀ cycle, Fits workflow state cycle → Fits workflow (state.step event) cycle := by
    intro cycle hfits
    refine hfits.append hstart fun id hid => ⟨fun hmem => ?_, fun step hstep hdep => ?_, .inl hkeeps⟩
    · obtain ⟨step, hstep, rfl⟩ := List.mem_map.mp hmem
      apply (hfits.live step hstep).2.1
      rw [← hparked step.id hid, WorkflowState.statusOf, WorkflowState.statusOf, hfits.same step hstep]
    · have hcompleted := hfits.depsNow step hstep id hdep
      rw [hparked id hid] at hcompleted
      cases hcompleted
  have hne : ∀ cycle step, Current workflow state cycle step → event.target ≠ some step.id := by
    intro cycle step hcurrent heq
    have hrunning := hcurrent.running
    rw [hparked step.id heq] at hrunning
    cases hrunning
  have hatUnit : ∀ cycle step unit done rest, AtUnit workflow state cycle step unit done rest →
      AtUnit workflow (state.step event) cycle step unit done rest := by
    intro cycle step unit done rest h
    have hnot := hne cycle step h.current
    exact ⟨hclean none h.clean, hfits cycle h.fits, h.current.append hstart hnot, h.units, h.among.append hstart hnot⟩
  have hunits : ∀ id unitId, (state.step event).unitOf id unitId = state.unitOf id unitId :=
    WorkflowState.unitOf_step_of_keeps hstart hkeeps
  cases phase with
  | idle => trivial
  | look => exact hclean none h
  | ready cycle => exact ⟨hclean none h.1, hfits cycle h.2⟩
  | merge step cycle =>
    obtain ⟨hclean', hfits', hcurrent, hkind⟩ := h
    exact ⟨hclean none hclean', hfits cycle hfits', hcurrent.append hstart (hne cycle step hcurrent), hkind⟩
  | units step rest cycle =>
    obtain ⟨hclean', hfits', hcurrent, hkind, done, hunits', hamong⟩ := h
    have hnot := hne cycle step hcurrent
    exact ⟨hclean none hclean', hfits cycle hfits', hcurrent.append hstart hnot, hkind, done, hunits',
      hamong.append hstart hnot⟩
  | running launch step rest cycle =>
    obtain ⟨hkind, ⟨done, h⟩, hopen, hthere⟩ := h
    refine ⟨hkind, ⟨done, hatUnit cycle step launch.unit done rest h⟩, ?_, ?_⟩
    · rwa [UnitOpen, hunits]
    · rwa [hunits]
  | ended unit result outOfScope step rest cycle =>
    obtain ⟨hkind, ⟨done, h⟩, hopen, hthere⟩ := h
    refine ⟨hkind, ⟨done, hatUnit cycle step unit done rest h⟩, ?_, ?_⟩
    · rwa [UnitOpen, hunits]
    · rwa [hunits]
  | failing p behind =>
    obtain ⟨hclean', hbehind⟩ := h
    refine ⟨hclean _ hclean', fun cycle hcycle => ?_⟩
    obtain ⟨hfits', hrest⟩ := hbehind cycle hcycle
    exact ⟨hfits cycle hfits', hrest⟩
  | failed outcome behind => exact ⟨hclean none h.1, fun cycle hcycle => hfits cycle (h.2 cycle hcycle)⟩
  | complete step cycle =>
    obtain ⟨hclean', hfits', hcurrent, hpassed, hflagged⟩ := h
    have hcurrent' := hcurrent.append hstart (hne cycle step hcurrent)
    refine ⟨hclean none hclean', hfits cycle hfits', hcurrent', fun unit hunit => ?_, fun hintegrate => ?_⟩
    · exact (hpassed unit hunit).congr (hunits step.id unit.id)
    · rw [(hfits cycle hfits').flagged_eq hcurrent'.deps, ← hfits'.flagged_eq hcurrent.deps]
      exact hflagged hintegrate

theorem Event.keeps_of_isQuiet {event : Event} (h : event.isQuiet = true) :
    event.isStart = false ∧ event.unit = none ∧ event.target = none := by
  cases event <;> first | exact ⟨rfl, rfl, rfl⟩ | cases h

/-! ### Every run -/

/-- What is so of a run whose acts all meet the condition. -/
structure Sound (workflow : Definition) (w : World) : Prop where
  begun : w.ledger ≠ []
  justified : AllJustified workflow w.ledger
  at_ : At workflow (projectWorkflowState w.ledger) w.phase

theorem Sound.start {p : StartPayload} : Sound workflow (World.start p) where
  begun := by simp [World.start]
  at_ := trivial
  justified := by
    intro before event behind heq
    obtain ⟨rfl, hcons⟩ | ⟨before', rfl, hnil⟩ := cons_eq_append_iff.mp heq
    · obtain ⟨rfl, _⟩ := List.cons.inj hcons
      trivial
    · simp at hnil

/-- **One act** keeps it. -/
theorem Sound.act {a : Act} (h : Sound workflow w)
    (hplain : Plain workflow) (hmeets : meets normalizeGuide workflow w a = true)
    (hacts : Acts normalizeGuide workflow w a event phase) : Sound workflow ⟨w.ledger ++ event.toList, phase⟩ := by
  have hbegun : w.ledger ++ event.toList ≠ [] := append_ne_nil_of_left_ne_nil h.begun _
  have hjustified : (∀ e ∈ event, Justified workflow w.ledger e) → AllJustified workflow (w.ledger ++ event.toList) := by
    intro hevent
    cases event with
    | none => simpa using h.justified
    | some e => exact h.justified.append (hevent e rfl)
  cases hacts with
  | step hmoves =>
    obtain ⟨hevent, hat⟩ := At.moves hmoves hplain h.begun h.at_ hmeets
    exact ⟨hbegun, hjustified hevent, hat⟩
  | crash => exact ⟨hbegun, hjustified (by simp), trivial⟩
  | answer p =>
    have hparked : (projectWorkflowState w.ledger).statusOf p.stepId = some .parked := beq_iff_eq.mp hmeets
    refine ⟨hbegun, hjustified (by simp [Justified]), ?_⟩
    show At workflow (projectWorkflowState (w.ledger ++ [_])) _
    rw [projectWorkflowState_append h.begun]
    refine h.at_.append rfl rfl fun id hid => ?_
    cases hid
    exact hparked
  | @note e hquiet =>
    obtain ⟨hstart, hkeeps, htarget⟩ := Event.keeps_of_isQuiet hquiet
    refine ⟨hbegun, hjustified fun e' he' => ?_, ?_⟩
    · cases he'
      cases e <;> trivial
    · show At workflow (projectWorkflowState (w.ledger ++ [_])) _
      rw [projectWorkflowState_append h.begun]
      exact h.at_.append hstart hkeeps fun id hid => by simp [htarget] at hid

variable {digestUnitRunReports : List UnitRun → Option String}
variable {singleWriteBaseOf : Definition → String → Option (String × String)}

theorem sound_of_run (hplain : Plain workflow)
    (h : World.Run normalizeGuide digestUnitRunReports singleWriteBaseOf workflow
      (fun w a => meets normalizeGuide workflow w a = true) w) : Sound workflow w := by
  induction h with
  | start p _ => exact .start
  | @act w w' _ a hmeets hact ih =>
    obtain ⟨event, hledger, hacts⟩ := acts_of_act hact
    have hsound := ih.act hplain hmeets hacts
    rwa [← hledger] at hsound

/-- **A step passes on accepted work**: in every run whose acts all leave what the proposer goes by as it is, every
event stands on what it should, and a Unit that is run is not recorded complete. -/
theorem passes_on_accepted_work (hplain : Plain workflow) {w : World}
    (h : World.Run normalizeGuide digestUnitRunReports singleWriteBaseOf workflow
      (fun w a => meets normalizeGuide workflow w a = true) w) :
    (∀ before event behind, w.ledger = before ++ event :: behind → Justified workflow before event) ∧
      ∀ launch step rest cycle, w.phase = .running launch step rest cycle →
        UnitOpen (projectWorkflowState w.ledger) step.id launch.unit.id := by
  have hsound := sound_of_run hplain h
  refine ⟨hsound.justified, fun launch step rest cycle hphase => ?_⟩
  have hat := hsound.at_
  rw [hphase] at hat
  exact hat.2.2.1

end

/-! ### A run -/

namespace Built

open Sample

def workflow : Definition where
  id := "w"
  steps := [
    ⟨"draft", [], .standard, none, [⟨"draft-u1", [], none⟩]⟩,
    ⟨"approve", ["draft"], .standard, some ⟨"human", some .consent, some "Build it?", none⟩, []⟩,
    ⟨"build", ["approve"], .standard, none, [⟨"build-u1", ["src"], some ["pass", "findings"]⟩]⟩,
    ⟨"merge", ["build"], .integrate, none, []⟩]
  guide := none
  uniqueSteps := by decide

def payload : StartPayload := ⟨"wf-1", "w", some workflow, none⟩

/-- The proposer dies behind the draft's Unit, and is resumed; the gate is asked and answered in between. -/
def acts : List Act :=
  ([.step .go, .step .go, .step .go] : List Act) ++ runUnit "unit-run-1" "pass" ++
    ([.crash, .step .go, .step .go, .step .go, .step .go, .step .go, .step .go, .step .go] : List Act) ++
    ([.step .go, .step (.question "Build it?"), .step .go, .note (.other "case.note"),
      .answer ⟨"approve", "yes", true, none, 1, 1, some .consent, some "sha256:1", none⟩] : List Act) ++
    ([.step .go, .step .go, .step .go, .step .go] : List Act) ++
    ([.step .go, .step .go] : List Act) ++ runUnit "unit-run-2" "findings" ++
    ([.step .go, .step .go, .step .go] : List Act) ++
    ([.step .go, .step .go, .step (.merged none), .step .go, .step .go, .step .go] : List Act)

def built : Option World :=
  acts.foldlM (World.actIf (fun _ => none) reports writeBase workflow (meets (fun _ => none) workflow)) (World.start payload)

theorem plain : Plain workflow := by
  unfold Plain
  decide

theorem built_on_accepted_work : ∃ w : World, (projectWorkflowState w.ledger).status = .completed ∧
    (∀ before event behind, w.ledger = before ++ event :: behind → Justified workflow before event) ∧
      ∀ launch step rest cycle, w.phase = .running launch step rest cycle →
        UnitOpen (projectWorkflowState w.ledger) step.id launch.unit.id := by
  have hdone : (built.map fun w => (projectWorkflowState w.ledger).status) = some .completed := by decide
  obtain ⟨w, hw, hstatus⟩ := map_eq_some_iff.mp hdone
  exact ⟨w, hstatus, passes_on_accepted_work plain (World.run_of_foldlM acts (.start payload rfl) hw)⟩

/-- The draft's Unit ends with findings, which its step does not accept; the proposer dies behind `unit.complete`, and
is resumed. -/
def passedOver : List Act :=
  ([.step .go, .step .go, .step .go] : List Act) ++ runUnit "unit-run-1" "findings" ++
    ([.crash, .step .go, .step .go, .step .go, .step .go, .step .go, .step .go] : List Act)

def ledgerPassedOver : List Event := [
  .workflowStart payload,
  .stepStart "draft",
  .unitScheduled ⟨"draft", "draft-u1", some "rsv-1", some "/w", some "b", none, none⟩,
  .unitStarted "draft" "draft-u1" "unit-run-1",
  .unitComplete ⟨"draft", "draft-u1", some "unit-run-1", "findings", [], [], []⟩]

/-- The step of a Unit whose outcome it does not accept is recorded complete. -/
theorem unaccepted_outcome_passes : ¬ ∀ w : World,
    World.Run (fun _ => none) reports writeBase workflow (fun _ _ => True) w →
      ∀ before event behind, w.ledger = before ++ event :: behind → Justified workflow before event := by
  intro hclaim
  have hrun : ((passedOver.foldlM (World.actIf (fun _ => none) reports writeBase workflow fun _ _ => true)
      (World.start payload)).map World.ledger) =
        some (ledgerPassedOver ++ [.stepComplete ⟨"draft", some "pass", some "sha256:1"⟩]) := by decide
  obtain ⟨w, hw, hledger⟩ := map_eq_some_iff.mp hrun
  have hreached := (World.run_of_foldlM passedOver (.start payload rfl) hw).mono (fun _ _ _ => trivial)
  obtain ⟨hpassed, _⟩ := hclaim w hreached ledgerPassedOver _ [] hledger _ mem_cons_self rfl
  obtain ⟨unitState, hunit, _, houtcome⟩ := hpassed _ mem_cons_self
  have houtcomes : ((projectWorkflowState ledgerPassedOver).unitOf "draft" "draft-u1").map UnitState.outcome =
      some (some "findings") := by decide
  rw [hunit] at houtcomes
  rw [some.inj houtcomes] at houtcome
  exact absurd houtcome (by decide)

end Built

end Forgent.Workflow
