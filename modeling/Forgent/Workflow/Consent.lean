import Forgent.Workflow.Admission

/-!
# Consent is for one known version

What an admission that stands on a person's approval knows about it.  A milestone of a `human-consent` rule is
reached by an approved answer to a consent gate and by nothing else that counts as consent; but the digest of what
was approved is compared with the one its subject has now only when the answer recorded one and the step that was
answered is completed.

* `lastReach`, `caseFold_milestone`: the event that reached a milestone last, and what the fold keeps of it.
* `consent_current_iff`: when an admission stands on an approval of what is there now.
-/

namespace Forgent.Workflow

open List Option Std.ExtTreeMap

/-! ### The event that reached a milestone last -/

section

variable (guide : Option Guide) (legacy : WorkflowState) (id : String)

/-- Whether the event reaches the milestone, which `prior` reached before. -/
def reaches (prior : Option Event) : Event → Bool
  | .caseOpened p => id == "request-received" || p.inherits.any fun inherits => inherits.milestones.any (·.milestone == id)
  | .stepComplete p => prior.isNone && ((guide.map (·.producesOf p.stepId)).getD []).contains id
  | .gateAnswer p => settlesGate legacy p && (answeredMilestones guide p).contains id
  | .settle p => p.achieved.any fun item => item.milestone == id && CaseFold.accepts guide p item
  | _ => false

def nextReach (prior : Option Event) (event : Event) : Option Event :=
  if reaches guide legacy id prior event then some event else prior

def lastReach (events : List Event) : Option Event := events.foldl (nextReach guide legacy id) none

/-- What an event that reached a milestone leaves of itself. -/
def LeftBy (by_ : Achievement) : Event → Prop
  | .gateAnswer p => by_.digest = p.subjectDigest ∧ by_.consent = (modeOf legacy p == .consent)
  | _ => by_.consent = false

/-- What the fold has of the milestone, when `prior` reached it last.  A milestone the guide has not is never
there. -/
def Tracks (fold : CaseFold) (prior : Option Event) : Prop :=
  fold.milestones[id]? = none ∨ (prior = none ∧ fold.milestones[id]? = some .unreached) ∨
    ∃ event by_, prior = some event ∧ fold.milestones[id]? = some (.achieved by_) ∧ LeftBy legacy by_ event

end

section

variable {guide : Option Guide} {legacy : WorkflowState} {id : String} {fold : CaseFold} {prior : Option Event}
  {β : Type} {fold' : CaseFold}

theorem CaseFold.getElem?_achieve (key : String) (by_ : Achievement) : (fold.achieve key by_).milestones[id]? =
      if (key == id) = true then fold.milestones[id]?.map fun _ => .achieved by_ else fold.milestones[id]? := by
  rw [achieve]
  split
  · next hcontains =>
    rw [Std.ExtTreeMap.getElem?_insert]
    simp only [compare_key, beq_iff_eq]
    by_cases hkey : key = id
    · subst hkey
      obtain ⟨entry, hentry⟩ := isSome_iff_exists.mp (isSome_getElem?_eq_contains.trans hcontains)
      simp [hentry]
    · simp [hkey]
  · next hcontains =>
    by_cases hkey : key = id
    · subst hkey
      have hnone : fold.milestones[key]? = none := by
        rw [← not_isSome_iff_eq_none, isSome_getElem?_eq_contains]
        exact hcontains
      simp [hnone]
    · simp [hkey]

theorem foldl_reach {g : CaseFold → β → CaseFold} {hit : β → Bool} {val : β → Achievement}
    (hg : ∀ fold x, (g fold x).milestones[id]? =
      if hit x = true then fold.milestones[id]?.map fun _ => .achieved (val x) else fold.milestones[id]?)
    (l : List β) (fold : CaseFold) : (l.any hit = false ∧ (l.foldl g fold).milestones[id]? = fold.milestones[id]?) ∨
      ∃ x ∈ l, hit x = true ∧
        (l.foldl g fold).milestones[id]? = fold.milestones[id]?.map fun _ => .achieved (val x) := by
  induction l using reverseRecOn with
  | nil => exact .inl ⟨rfl, rfl⟩
  | append_singleton l x ih =>
    rw [foldl_append]
    show (_ ∧ (g (l.foldl g fold) x).milestones[id]? = _) ∨ ∃ y ∈ l ++ [x], _ ∧ (g (l.foldl g fold) x).milestones[id]? = _
    rw [hg]
    by_cases hx : hit x = true
    · refine .inr ⟨x, by simp, hx, ?_⟩
      rw [if_pos hx]
      rcases ih with ⟨_, hsame⟩ | ⟨y, _, _, hy⟩
      · rw [hsame]
      · rw [hy, Option.map_map]
        rfl
    · rw [if_neg hx]
      rcases ih with ⟨hnone, hsame⟩ | ⟨y, hy, hhit, hreach⟩
      · refine .inl ⟨?_, hsame⟩
        rw [any_append, hnone]
        simpa using hx
      · exact .inr ⟨y, mem_append_left _ hy, hhit, hreach⟩

section

variable (h : Tracks legacy id fold prior)

include h

theorem Tracks.reached {event : Event}
    {by_ : Achievement} (hreach : fold'.milestones[id]? = fold.milestones[id]?.map fun _ => .achieved by_)
    (hleft : LeftBy legacy by_ event) : Tracks legacy id fold' (some event) := by
  rcases h with h | ⟨_, h⟩ | ⟨_, _, _, h, _⟩
  · rw [h] at hreach
    exact .inl hreach
  · rw [h] at hreach
    exact .inr (.inr ⟨event, by_, rfl, hreach, hleft⟩)
  · rw [h] at hreach
    exact .inr (.inr ⟨event, by_, rfl, hreach, hleft⟩)

theorem Tracks.same (hsame : fold'.milestones[id]? = fold.milestones[id]?) : Tracks legacy id fold' prior := by
  rw [Tracks, hsame]
  exact h

theorem Tracks.foldl (event : Event) (g : CaseFold → β → CaseFold) (hit : β → Bool) (val : β → Achievement)
    (hg : ∀ fold x, (g fold x).milestones[id]? =
      if hit x = true then fold.milestones[id]?.map fun _ => .achieved (val x) else fold.milestones[id]?)
    (hleft : ∀ x, LeftBy legacy (val x) event) (l : List β) :
    Tracks legacy id (l.foldl g fold) (if l.any hit = true then some event else prior) := by
  rcases foldl_reach hg l fold with ⟨hnone, hsame⟩ | ⟨x, hx, hhit, hreach⟩
  · rw [hnone]
    exact h.same hsame
  · rw [List.any_eq_true.mpr ⟨x, hx, hhit⟩, if_pos rfl]
    exact h.reached hreach (hleft x)

end

theorem CaseFold.getElem?_completeStep (p : StepComplete) : (fold.completeStep guide p).milestones[id]? =
      if ((guide.map (·.producesOf p.stepId)).getD []).contains id ∧ fold.milestones[id]? = some .unreached then
        some (.achieved ⟨p.subjectDigest, false, [], none, none⟩) else fold.milestones[id]? := by
  rw [completeStep]
  generalize (guide.map (·.producesOf p.stepId)).getD [] = produces
  induction produces generalizing fold with
  | nil => simp
  | cons key rest ih =>
    rw [foldl_cons, ih]
    rw [achieveIfUnreached]
    by_cases hkey : key = id
    · subst hkey
      by_cases hunreached : fold.milestones[key]? = some .unreached
      · simp [hunreached, getElem?_achieve]
      · simp [hunreached]
    · have hother : (if fold.milestones[key]? = some .unreached then
          fold.achieve key ⟨p.subjectDigest, false, [], none, none⟩ else fold).milestones[id]? =
            fold.milestones[id]? := by
        split
        · rw [getElem?_achieve, if_neg (by simpa using hkey)]
        · rfl
      rw [hother]
      simp [Ne.symm hkey]

/-- **One event**: the fold keeps what the last event that reached the milestone left. -/
theorem Tracks.step {prior : Option Event} (h : Tracks legacy id fold prior) (event : Event) :
    Tracks legacy id (fold.step guide legacy event) (nextReach guide legacy id prior event) := by
  cases event with
  | caseOpened p =>
    have hfirst := h.foldl (.caseOpened p) (fun fold (_ : Unit) => fold.achieve "request-received"
      ⟨p.requestDigest, false, [], none, none⟩) (fun _ => "request-received" == id)
      (fun _ => ⟨p.requestDigest, false, [], none, none⟩) (fun fold _ => fold.getElem?_achieve _ _)
      (fun _ => rfl) [()]
    have hall := hfirst.foldl (.caseOpened p) (fun fold (item : String × InheritedMilestone) =>
      fold.achieve item.2.milestone ⟨item.2.subjectDigest, false, item.2.receipts, item.2.outcome, some item.1⟩)
      (fun item => item.2.milestone == id)
      (fun item => ⟨item.2.subjectDigest, false, item.2.receipts, item.2.outcome, some item.1⟩)
      (fun fold _ => fold.getElem?_achieve _ _) (fun _ => rfl)
      ((p.inherits.map fun inherits => inherits.milestones.map (inherits.fromCase, ·)).getD [])
    refine Eq.mp (congrArg _ ?_) hall
    have hany : ((p.inherits.map fun inherits => inherits.milestones.map (inherits.fromCase, ·)).getD []).any
        (fun item => item.2.milestone == id) =
        p.inherits.any fun inherits => inherits.milestones.any (·.milestone == id) := by
      cases p.inherits with
      | none => rfl
      | some inherits =>
        show (inherits.milestones.map _).any _ = _
        rw [List.any_map]
        rfl
    have hcomm : ("request-received" == id) = (id == "request-received") := by
      rw [Bool.eq_iff_iff, beq_iff_eq, beq_iff_eq]
      exact eq_comm
    rw [hany, nextReach, reaches, any_cons, any_nil, Bool.or_false, hcomm]
    cases id == "request-received" <;> simp
  | stepComplete p =>
    rw [nextReach, reaches]
    rcases h with h | ⟨rfl, h⟩ | ⟨event, by_, rfl, h, hleft⟩
    · refine .inl ?_
      rw [CaseFold.step, CaseFold.getElem?_completeStep, h]
      simp
    · by_cases hproduces : ((guide.map (·.producesOf p.stepId)).getD []).contains id = true
      · refine .inr (.inr ⟨.stepComplete p, ⟨p.subjectDigest, false, [], none, none⟩, ?_, ?_, rfl⟩)
        · simp only [hproduces, isNone_none, Bool.and_self, if_true]
        · rw [CaseFold.step, CaseFold.getElem?_completeStep, if_pos ⟨hproduces, h⟩]
      · refine .inr (.inl ⟨?_, ?_⟩)
        · simp only [hproduces, Bool.and_false, Bool.false_eq_true, if_false]
        · rw [CaseFold.step, CaseFold.getElem?_completeStep, if_neg fun hboth => hproduces hboth.1, h]
    · refine .inr (.inr ⟨event, by_, by simp, ?_, hleft⟩)
      rw [CaseFold.step, CaseFold.getElem?_completeStep, if_neg fun hboth => by simp [h] at hboth, h]
  | gateAnswer p =>
    rw [nextReach, reaches, CaseFold.step, CaseFold.answerGate]
    by_cases hsettles : settlesGate legacy p = true
    · have hall := h.foldl (.gateAnswer p) (fun fold key => fold.achieve key
        ⟨p.subjectDigest, modeOf legacy p == .consent, [gateReceipt], none, none⟩) (· == id)
        (fun _ => ⟨p.subjectDigest, modeOf legacy p == .consent, [gateReceipt], none, none⟩)
        (fun fold key => fold.getElem?_achieve key _) (fun _ => ⟨rfl, rfl⟩) (answeredMilestones guide p)
      rw [if_pos hsettles, hsettles, Bool.true_and, contains_eq_any_beq]
      refine Eq.mp ?_ hall
      simp only [Bool.beq_comm, eq_comm]
    · rw [if_neg hsettles]
      simpa [hsettles] using h
  | settle p =>
    have hattempt : Tracks legacy id (fold.settleAttempt p) prior := h.same rfl
    have hall := hattempt.foldl (.settle p) (fun fold item => fold.settleItem guide p item)
      (fun item => item.milestone == id && CaseFold.accepts guide p item)
      (fun item => ⟨item.subjectDigest, false, p.receipts, some p.outcome, none⟩) (fun fold item => ?_)
      (fun _ => rfl) p.achieved
    · exact hall
    · rw [CaseFold.settleItem]
      by_cases haccepts : CaseFold.accepts guide p item = true
      · rw [if_pos haccepts, CaseFold.getElem?_achieve, haccepts, Bool.and_true]
      · rw [if_neg haccepts, Bool.eq_false_iff.mpr haccepts, Bool.and_false]
        rfl
  | reservation p | route p | binding p | caseClosed reason | workflowStart p | stepStart stepId | unitScheduled p
  | unitStarted stepId unitId unitRunId | unitComplete p | gatePark p | stepFail p | workflowWorktrees p
  | workflowFail outcome | workflowComplete outcome | other type => exact h.same rfl

end

theorem reaches_of_lastReach {guide : Option Guide} {legacy : WorkflowState} {id : String} {events : List Event}
    {event : Event} (h : lastReach guide legacy id events = some event) :
    ∃ prior, reaches guide legacy id prior event = true := by
  rw [lastReach] at h
  induction events using reverseRecOn with
  | nil => cases h
  | append_singleton events last ih =>
    rw [foldl_append, foldl_cons, foldl_nil, nextReach] at h
    split at h
    · next hreaches =>
      cases h
      exact ⟨_, hreaches⟩
    · exact ih h

/-! ### The projection -/

section

variable (normalizeGuide : Definition → Option Guide) (events : List Event) {milestones : Table Milestone}
  {id : String} {by_ : Achievement} {currentDigests : Table (Option String)}

def lastReachOf (id : String) : Option Event :=
  lastReach (ledgerGuide normalizeGuide events) (projectWorkflowState events) id events

variable {normalizeGuide events}

theorem CaseFold.getElem?_initial (guide : Option Guide) (id : String) :
    (initial guide).milestones[id]? = none ∨ (initial guide).milestones[id]? = some .unreached := by
  rw [initial]
  generalize (guide.map Guide.milestones).getD [] = ids
  have hempty : (∅ : Table Milestone)[id]? = none ∨ (∅ : Table Milestone)[id]? = some .unreached :=
    .inl getElem?_empty
  revert hempty
  show _ → (ids.foldl _ _)[id]? = none ∨ (ids.foldl _ _)[id]? = _
  generalize (∅ : Table Milestone) = table
  intro h
  induction ids generalizing table with
  | nil => exact h
  | cons key ids ih =>
    apply ih
    rw [Std.ExtTreeMap.getElem?_insert]
    split
    · exact .inr rfl
    · exact h

/-- **The fold of a ledger** keeps, of a milestone, what the last event that reached it left. -/
theorem caseFold_tracks (id : String) :
    Tracks (projectWorkflowState events) id (caseFold normalizeGuide events) (lastReachOf normalizeGuide events id) := by
  rw [caseFold, lastReachOf, lastReach]
  generalize ledgerGuide normalizeGuide events = guide
  generalize projectWorkflowState events = legacy
  induction events using reverseRecOn with
  | nil =>
    rcases CaseFold.getElem?_initial guide id with h | h
    · exact .inl h
    · exact .inr (.inl ⟨rfl, h⟩)
  | append_singleton events event ih =>
    rw [foldl_append, foldl_append]
    exact ih.step event

theorem getElem?_block {guide : Option Guide} {question : Question}
    (h : (block guide milestones question)[id]? = some (.achieved by_)) : milestones[id]? = some (.achieved by_) := by
  rw [block] at h
  revert h
  generalize (guide.map (·.producesOf question.stepId)).getD [] = produces
  induction produces generalizing milestones with
  | nil => exact fun h => h
  | cons key rest ih =>
    intro h
    have hstep := ih h
    dsimp only at hstep
    split at hstep
    · rw [Std.ExtTreeMap.getElem?_insert] at hstep
      split at hstep
      · cases hstep
      · exact hstep
    · exact hstep

theorem getElem?_foldl_block {guide : Option Guide} {questions : List Question}
     (h : (questions.foldl (block guide) milestones)[id]? = some (.achieved by_)) :
    milestones[id]? = some (.achieved by_) := by
  induction questions generalizing milestones with
  | nil => exact h
  | cons question rest ih => exact getElem?_block (ih h)

theorem projectCase_achieved
    (h : (projectCase normalizeGuide events currentDigests).milestones[id]? = some (.achieved by_)) :
    (caseFold normalizeGuide events).milestones[id]? = some (.achieved by_) ∧
      ∀ digest current, by_.digest = some digest → currentDigests[id]? = some current → current = some digest := by
  simp only [projectCase, Std.ExtTreeMap.getElem?_map, map_eq_some_iff] at h
  obtain ⟨entry, hentry, hrefresh⟩ := h
  cases entry with
  | achieved reached =>
    rw [refresh] at hrefresh
    split at hrefresh
    · next digest current hdigest hcurrent =>
      split at hrefresh
      · next hsame =>
        cases hrefresh
        refine ⟨getElem?_foldl_block hentry, fun d c hd hc => ?_⟩
        rw [hdigest, some.injEq] at hd
        rw [hcurrent, some.injEq] at hc
        rw [← hd, ← hc, hsame]
      · cases hrefresh
    · next hnone =>
      cases hrefresh
      exact ⟨getElem?_foldl_block hentry, fun d c hd hc => absurd hc (hnone d c hd)⟩
  | unreached | blocked question | stale reached prior current => cases hrefresh

/-- **A milestone with consent was reached last by an approved answer to a consent gate**, whose digest it has. -/
theorem lastReach_of_consent
    (h : (projectCase normalizeGuide events currentDigests).milestones[id]? = some (.achieved by_))
    (hconsent : by_.consent = true) :
    ∃ p, lastReachOf normalizeGuide events id = some (.gateAnswer p) ∧ p.approved = true ∧
      modeOf (projectWorkflowState events) p = .consent ∧ by_.digest = p.subjectDigest := by
  obtain ⟨hfold, _⟩ := projectCase_achieved h
  have htracks : Tracks (projectWorkflowState events) id (caseFold normalizeGuide events)
      (lastReachOf normalizeGuide events id) := caseFold_tracks id
  rcases htracks with hnone | ⟨_, hunreached⟩ | ⟨event, reached, hlast, hreached, hleft⟩
  · rw [hfold] at hnone
    cases hnone
  · rw [hfold] at hunreached
    cases hunreached
  · obtain rfl : by_ = reached := by simpa [hfold] using hreached
    cases event with
    | gateAnswer p =>
      obtain ⟨hdigest, hmode⟩ := hleft
      have hmode' : modeOf (projectWorkflowState events) p = .consent := by
        rw [hconsent] at hmode
        exact beq_iff_eq.mp hmode.symm
      refine ⟨p, hlast, ?_, hmode', hdigest⟩
      obtain ⟨_, hsettles⟩ := reaches_of_lastReach hlast
      rw [reaches, settlesGate, hmode'] at hsettles
      simpa using (Bool.and_eq_true_iff.mp hsettles).1
    | _ =>
      have hnone : by_.consent = false := hleft
      rw [hconsent] at hnone
      cases hnone

end

/-! ### The digests that are compared -/

section

variable (normalizeGuide : Definition → Option Guide) (digestUnitRunReports : List UnitRun → Option String)

/-- The step whose reports the digest of a milestone is read from: the last completed one that produces it. -/
def comparedStep (guide : Guide) (state : WorkflowState) (id : String) : Option String :=
  (((guide.producersOf id).filter fun activity =>
    (state.steps[activity.id]?).map StepState.status = some .completed).getLast?).map Activity.id

variable {normalizeGuide digestUnitRunReports}

theorem getElem?_insertAll (produces : List String) (digests : Table (Option String)) (digest : Option String)
    (id : String) : (produces.foldl (fun digests id => digests.insert id digest) digests)[id]? =
      if produces.contains id = true then some digest else digests[id]? := by
  induction produces generalizing digests with
  | nil => rfl
  | cons key rest ih =>
    rw [foldl_cons, ih, Std.ExtTreeMap.getElem?_insert]
    simp only [compare_key, contains_cons, Bool.or_eq_true, beq_iff_eq]
    by_cases hrest : id ∈ rest
    · simp [hrest]
    · by_cases hkey : key = id
      · subst hkey
        simp
      · simp [hrest, hkey, Ne.symm hkey]

theorem getElem?_playbookSubjectDigests {guide : Guide} {state : WorkflowState} {workflow : Option Definition}
    (id : String) : (playbookSubjectDigests digestUnitRunReports state workflow (some guide))[id]? =
      (comparedStep guide state id).map (stepSubjectDigest digestUnitRunReports state workflow) := by
  rw [playbookSubjectDigests, comparedStep, Guide.producersOf]
  show (guide.activities.foldl _ _)[id]? = _
  generalize guide.activities = all
  induction all using reverseRecOn with
  | nil => exact getElem?_empty
  | append_singleton all activity ih =>
    rw [foldl_append, filter_append, filter_append, foldl_cons, foldl_nil]
    by_cases hcompleted : (state.steps[activity.id]?).map StepState.status = some .completed
    · rw [if_pos hcompleted, getElem?_insertAll]
      by_cases hproduces : activity.produces.contains id = true
      · rw [if_pos hproduces]
        simp only [filter_cons, filter_nil, hproduces, hcompleted, decide_true, if_true, getLast?_concat, map_some]
      · rw [if_neg hproduces, ih]
        simp only [filter_cons, filter_nil, hproduces, Bool.false_eq_true, if_false, append_nil]
    · rw [if_neg hcompleted, ih]
      by_cases hproduces : activity.produces.contains id = true <;>
        simp only [filter_cons, filter_nil, hproduces, hcompleted, decide_false, Bool.false_eq_true,
          if_true, if_false, append_nil]

/-! ### What an admission knows of the approval it stands on -/

variable (normalizeGuide digestUnitRunReports) (events : List Event)

/-- The digest of what the step of an answer shows, as it is now. -/
def subjectDigestNow (stepId : String) : Option String :=
  stepSubjectDigest digestUnitRunReports (projectWorkflowState events) (projectWorkflowState events).workflow stepId

def ApprovedNow (id : String) : Prop :=
  ∃ p digest, lastReachOf normalizeGuide events id = some (.gateAnswer p) ∧ p.approved = true ∧
    modeOf (projectWorkflowState events) p = .consent ∧ p.subjectDigest = some digest ∧
    subjectDigestNow digestUnitRunReports events p.stepId = some digest

/-- A consent rule of the guide is about a milestone that comes before the proposed activity. -/
def Governed (proposal : Proposal) (id : String) : Prop :=
  ∃ guide activity row, ledgerGuide normalizeGuide events = some guide ∧
    guide.activityOf proposal.activity = some activity ∧ row ∈ guide.must ∧ row.guard = .humanConsent ∧
    row.subject = some id ∧ guide.ComesAfter activity id

def AdmitsWriting (proposal : Proposal) (bindingAnswers : Table Answered) (reservationId : String) : Prop :=
  (readCase digestUnitRunReports normalizeGuide events).kind = .playbook ∧
    ∃ reservation bindings appended,
      admitProposal (readCase digestUnitRunReports normalizeGuide events) proposal bindingAnswers reservationId =
        .ok (.admitted reservation bindings appended) ∧ reservation.writes ≠ []

/-- Consent is for one known version. -/
def ConsentForNow (proposal : Proposal) (bindingAnswers : Table Answered) (reservationId : String) : Prop :=
  AdmitsWriting normalizeGuide digestUnitRunReports events proposal bindingAnswers reservationId →
    ∀ id, Governed normalizeGuide events proposal id → ApprovedNow normalizeGuide digestUnitRunReports events id

/-- The answer that reached the milestone recorded a digest, and the step it answered is the completed one whose
reports that digest is compared with; or the digest is the current one without being compared. -/
def Compared (id : String) : Prop :=
  ∀ p, lastReachOf normalizeGuide events id = some (.gateAnswer p) → p.subjectDigest ≠ none ∧
    ((ledgerGuide normalizeGuide events).bind (comparedStep · (projectWorkflowState events) id) = some p.stepId ∨
      subjectDigestNow digestUnitRunReports events p.stepId = p.subjectDigest)

variable {normalizeGuide digestUnitRunReports events}

theorem readCase_of_playbook (h : (readCase digestUnitRunReports normalizeGuide events).kind = .playbook) :
    readCase digestUnitRunReports normalizeGuide events =
      projectCase normalizeGuide events (playbookSubjectDigests digestUnitRunReports (projectWorkflowState events)
        (projectWorkflowState events).workflow (ledgerGuide normalizeGuide events)) := by
  rw [readCase] at h ⊢
  cases hkind : (projectCase normalizeGuide events ∅).kind with
  | playbook => rfl
  | guide =>
    simp only [hkind] at h
    cases h

/-- An admission stands, for every consent rule before it, on an approval, whose digest was compared if the step that
was answered is completed. -/
theorem AdmitsWriting.approval {proposal : Proposal} {bindingAnswers : Table Answered} {reservationId id : String}
    (h : AdmitsWriting normalizeGuide digestUnitRunReports events proposal bindingAnswers reservationId)
    (hid : Governed normalizeGuide events proposal id) :
    ∃ p, lastReachOf normalizeGuide events id = some (.gateAnswer p) ∧ p.approved = true ∧
      modeOf (projectWorkflowState events) p = .consent ∧ ∀ digest, p.subjectDigest = some digest →
        (ledgerGuide normalizeGuide events).bind (comparedStep · (projectWorkflowState events) id) = some p.stepId →
        subjectDigestNow digestUnitRunReports events p.stepId = some digest := by
  obtain ⟨hkind, reservation, bindings, appended, hadmits, hwrites⟩ := h
  obtain ⟨guide, activity, row, hguide, hactivity, hrow, hguard, hsubject, hafter⟩ := hid
  rw [readCase_of_playbook hkind] at hadmits
  obtain ⟨guide', activity', writes, hpassed, rfl, _, _⟩ := admitProposal_admitted hadmits
  obtain rfl : guide = guide' := by
    have hguide' := hpassed.guide_eq
    rw [show (projectCase normalizeGuide events _).guide = ledgerGuide normalizeGuide events from rfl, hguide] at hguide'
    exact some.inj hguide'
  obtain rfl : activity = activity' := some.inj (hactivity.symm.trans hpassed.activity_eq)
  obtain ⟨by_, hreached, hconsent⟩ := hpassed.consent hwrites hrow hguard hsubject hafter
  obtain ⟨p, hlast, happroved, hmode, hdigest⟩ := lastReach_of_consent hreached hconsent
  refine ⟨p, hlast, happroved, hmode, fun digest hp hcompared => ?_⟩
  obtain ⟨_, hcurrent⟩ := projectCase_achieved hreached
  have hnow : (playbookSubjectDigests digestUnitRunReports (projectWorkflowState events)
      (projectWorkflowState events).workflow (some guide))[id]? =
      (comparedStep guide (projectWorkflowState events) id).map
        (stepSubjectDigest digestUnitRunReports (projectWorkflowState events) (projectWorkflowState events).workflow) :=
    getElem?_playbookSubjectDigests id
  rw [hguide, bind_some] at hcompared
  rw [hcompared, map_some] at hnow
  refine hcurrent digest _ (hdigest.trans hp) ?_
  rw [hguide]
  exact hnow

/-- **When an admission stands on an approval of what is there now**: exactly when each approval recorded a digest and
the step it answered is still completed, so that it is compared (or is the current one anyway). -/
theorem consent_current_iff (normalizeGuide : Definition → Option Guide)
    (digestUnitRunReports : List UnitRun → Option String) (events : List Event) (proposal : Proposal)
    (bindingAnswers : Table Answered) (reservationId : String) :
    ConsentForNow normalizeGuide digestUnitRunReports events proposal bindingAnswers reservationId ↔
      (AdmitsWriting normalizeGuide digestUnitRunReports events proposal bindingAnswers reservationId →
        ∀ id, Governed normalizeGuide events proposal id → Compared normalizeGuide digestUnitRunReports events id) := by
  constructor
  · intro hclaim hadmits id hid p hlast
    obtain ⟨p', digest, hlast', _, _, hp, hnow⟩ := hclaim hadmits id hid
    obtain rfl : p = p' := by simpa [hlast] using hlast'
    exact ⟨by simp [hp], .inr (hnow.trans hp.symm)⟩
  · intro hcompared hadmits id hid
    obtain ⟨p, hlast, happroved, hmode, hcurrent⟩ := hadmits.approval hid
    obtain ⟨hsome, hwhich⟩ := hcompared hadmits id hid p hlast
    obtain ⟨digest, hp⟩ := ne_none_iff_exists'.mp hsome
    refine ⟨p, digest, hlast, happroved, hmode, hp, ?_⟩
    rcases hwhich with hstep | hsame
    · exact hcurrent digest hp hstep
    · exact hsame.trans hp

end

/-! ### A gate that asks again -/

namespace AskedAgain

/-- A draft, the owner's approval of it, and two steps that write on that approval. -/
def steps : List Step := [
  ⟨"draft", [], .standard, none, [⟨"draft-u1", [], none⟩]⟩,
  ⟨"approve", ["draft"], .standard, some ⟨"human", some .consent, some "Build it?", none⟩, []⟩,
  ⟨"build", ["approve"], .standard, none, [⟨"build-u1", ["src"], none⟩]⟩,
  ⟨"describe", ["approve"], .standard, none, [⟨"describe-u1", ["docs"], none⟩]⟩]

def guide : Guide where
  kind := .playbook
  milestones := ["draft.settled", "approve.settled", "build.settled", "describe.settled"]
  activities := [
    ⟨"draft", [], ["draft.settled"], .none⟩,
    ⟨"approve", ["draft.settled"], ["approve.settled"], .none⟩,
    ⟨"build", ["approve.settled"], ["build.settled"], .writes⟩,
    ⟨"describe", ["approve.settled"], ["describe.settled"], .writes⟩]
  decisions := [⟨"approve.settled", ["gate:approve"], [], some "Build it?", true, some .consent⟩]
  must := [⟨"owner-approves", .humanConsent, some "approve.settled"⟩]
  frameDefaults := none
  closure := []
  uniqueIds := by decide

def approval : GateAnswer := ⟨"approve", "yes", true, none, 1, 1, some .consent, some "sha256:1", none⟩

/-- The approval is given and its step completes; then the draft changes, the build is refused on it, and the gate
asks again. -/
def events : List Event := [
  .workflowStart ⟨"wf-1", "w", some ⟨"w", steps, some guide, by decide⟩, none⟩,
  .caseOpened ⟨"wf-1", some .playbook, some ⟨"w", "sha256:g"⟩, none, some "sha256:r", none⟩,
  .stepStart "draft",
  .unitScheduled ⟨"draft", "draft-u1", none, none, none, none, none⟩,
  .unitStarted "draft" "draft-u1" "unit-run-1",
  .unitComplete ⟨"draft", "draft-u1", some "unit-run-1", "pass", [⟨"worker", true, none⟩], [], []⟩,
  .stepComplete ⟨"draft", some "pass", some "sha256:1"⟩,
  .gatePark ⟨"approve", "Build it?", none⟩,
  .gateAnswer approval,
  .stepStart "approve",
  .stepComplete ⟨"approve", some "pass", some "sha256:1"⟩,
  .stepStart "build",
  .gatePark ⟨"approve", "Build it? (Asked again)", none⟩,
  .stepStart "describe"]

def reports : List UnitRun → Option String := fun _ => some "sha256:2"

def proposal : Proposal :=
  ⟨"describe", some "describe-u1", none, none, ["docs"], some "/w", false, [], none, none, some "unit-run-2", some .playbook⟩

def bindingAnswers : Table Answered := (∅ : Table Answered).insert "/w" ⟨.unbound, none⟩

def writesOf : Except WriteScope.WriteScopeError Verdict → List String
  | .ok (.admitted reservation _ _) => reservation.writes
  | _ => []

theorem admitted_of_writes {verdict : Except WriteScope.WriteScopeError Verdict} (h : writesOf verdict ≠ []) :
    ∃ reservation bindings appended, verdict = .ok (.admitted reservation bindings appended) ∧
      reservation.writes ≠ [] := by
  match verdict, h with
  | .ok (.admitted reservation bindings appended), h => exact ⟨reservation, bindings, appended, rfl, h⟩

theorem admits : AdmitsWriting (fun _ => none) reports events proposal bindingAnswers "rsv-1" :=
  ⟨by decide +kernel, admitted_of_writes (by decide +kernel)⟩

theorem governed : Governed (fun _ => none) events proposal "approve.settled" :=
  ⟨guide, ⟨"describe", ["approve.settled"], ["describe.settled"], .writes⟩, _, rfl, by decide,
    mem_cons_self, rfl, rfl, .inl (by decide)⟩

/-- The approval of the first draft lets the second step write, while the gate asks for the second one. -/
theorem stale_approval_admits : ¬ ConsentForNow (fun _ => none) reports events proposal bindingAnswers "rsv-1" := by
  intro hclaim
  obtain ⟨p, digest, hlast, _, _, hp, hnow⟩ := hclaim admits "approve.settled" governed
  have happroval : lastReachOf (fun _ => none) events "approve.settled" = some (.gateAnswer approval) := rfl
  obtain rfl : approval = p := by simpa [happroval] using hlast
  have hdigest : digest = "sha256:1" := by simpa [approval] using hp.symm
  have hcurrent : digest = "sha256:2" := (some.inj hnow).symm
  rw [hdigest] at hcurrent
  exact absurd hcurrent (by decide)

end AskedAgain

end Forgent.Workflow
