import Forgent.WriteScope
import Forgent.Workflow.Case

/-!
# May this proposed activity run now

The agent, or the Playbook proposer, proposes; `admitProposal` answers against the projection of the case, the
binding answers of the worktrees and the live reservations.  It is a pure function: the hard rules a proposal
breaks are collected in order, and a proposal that breaks none is admitted.

* `admitProposal_admitted`: what an admitted proposal has passed.
-/

namespace Forgent.Workflow

open WriteScope (canonicalizeWrites writeScopesOverlap WriteScopeError)

inductive BindingAnswer where
  | unbound
  | bound
  | worktreeAlreadyBound
  | bindingUnsettled
  | bindingViewUnavailable
  | worktreeMissing
  deriving DecidableEq

def BindingAnswer.code : BindingAnswer → String
  | unbound => "unbound"
  | bound => "bound"
  | worktreeAlreadyBound => "worktree-already-bound"
  | bindingUnsettled => "binding-unsettled"
  | bindingViewUnavailable => "binding-view-unavailable"
  | worktreeMissing => "worktree-missing"

/-- The answer for a worktree, and the case its record names. -/
structure Answered where
  answer : BindingAnswer
  owner : Option String
  deriving DecidableEq

inductive Proposer where
  | playbook
  | agent
  deriving DecidableEq

structure Proposal where
  activity : String
  unitId : Option String
  decisionPoint : Option String
  reason : Option String
  writes : List String
  worktree : Option String
  blind : Bool
  handoffRefs : List String
  rigor : Option String
  seatLaunches : Option ℕ
  unitRunId : Option String
  proposer : Option Proposer
  deriving DecidableEq

inductive Code where
  | noGuide
  | caseClosed
  | unknownActivity
  | activityHasNoWriteEffect
  | entryMilestoneStale
  | entryMilestoneBlocked
  | entryMilestoneUnmet
  | milestoneNotReached
  | consentSubjectUnknown
  | consentStale
  | consentMissing
  | receiptStale
  | receiptMissing
  | independenceNotEncapsulated
  | independenceBlindHandoff
  | writesOverlap
  | writesNeedWorktree
  | bindingUnresolved
  | binding (answer : BindingAnswer)
  | frameExhausted
  | frameRemainingUnknown
  | seatLaunchCeilingExceeded
  | rigorBelowFloor
  | routeReasonRequired
  | unlistedRouteRefused
  | deviationLimitReached
  deriving DecidableEq

/-- A hard rule that a proposal breaks. -/
structure Violation where
  code : Code
  rule : String
  condition : String
  milestone : Option String
  deriving DecidableEq

/-- What the caller does about the worktree: bind it, or nothing. -/
inductive BindingAction where
  | create
  | have_
  deriving DecidableEq

inductive Verdict where
  | refused (violations : List Violation)
  | admitted (reservation : Reservation) (bindings : List (String × BindingAction)) (events : List Event)

def joined (texts : List String) : String := ", ".intercalate texts

def Milestone.stateName : Milestone → String
  | .unreached => "unreached"
  | .achieved _ => "achieved"
  | .blocked _ => "blocked"
  | .stale _ _ _ => "stale"

def stateOf (milestone : Option Milestone) : String := (milestone.map Milestone.stateName).getD "unknown"

/-! ### The checks -/

section

variable (guide : Guide) (projection : Projection) (activity : Activity) (proposal : Proposal) (writes : List String)

def effectViolations : List Violation :=
  if writes ≠ [] ∧ activity.effects ≠ .writes then
    [⟨.activityHasNoWriteEffect, "guide",
      "activity \"" ++ activity.id ++ "\" is declared without write effects, so it may not be given writes [" ++
        joined writes ++ "]", none⟩]
  else []

/-- Every milestone the activity needs holds for the subject as it is now. -/
def entryViolation (id : String) : List Violation :=
  match projection.milestones[id]? with
  | some (.achieved _) => []
  | some (.stale _ _ current) =>
    [⟨.entryMilestoneStale, "milestone-reached",
      "milestone \"" ++ id ++ "\" was reached for another version of its subject (" ++
        (if current.isNone then "current-digest-unknown" else "the subject changed") ++ "); reach it again", some id⟩]
  | some (.blocked question) =>
    [⟨.entryMilestoneBlocked, "milestone-reached",
      "milestone \"" ++ id ++ "\" waits for an answer: " ++ question, some id⟩]
  | some .unreached | none =>
    [⟨.entryMilestoneUnmet, "milestone-reached", "milestone \"" ++ id ++ "\" is not reached", some id⟩]

/-- The check of a `human-consent` row: an approval, for the subject as it is now. -/
def consentViolation (rowId subject : String) : List Violation :=
  match projection.milestones[subject]? with
  | some (.stale _ _ none) =>
    [⟨.consentSubjectUnknown, rowId,
      "rule \"" ++ rowId ++ "\": what \"" ++ subject ++
        "\" approved cannot be read now, so the approval cannot be compared", some subject⟩]
  | some (.stale _ prior (some current)) =>
    [⟨.consentStale, rowId,
      "rule \"" ++ rowId ++ "\": the approval of \"" ++ subject ++ "\" was for another version (approved " ++ prior ++
        ", now " ++ current ++ "); it needs a new approval", some subject⟩]
  | some (.achieved by_) =>
    if by_.consent then [] else
      [⟨.consentMissing, rowId,
        "rule \"" ++ rowId ++ "\": \"" ++ subject ++
          "\" has no approval from a gate answer; nothing a worker wrote counts", some subject⟩]
  | some (.blocked _) | some .unreached | none =>
    [⟨.consentMissing, rowId,
      "rule \"" ++ rowId ++ "\": \"" ++ subject ++
        "\" has no approval from a gate answer; nothing a worker wrote counts", some subject⟩]

/-- The Unit run a hand-off reference names: `/^unit-run:([^/]+)/`. -/
def unitRunOfRef (ref : String) : Option String :=
  ("unit-run:".toList.isPrefixOf? ref.toList).bind fun rest =>
    let id := rest.takeWhile (· ≠ '/')
    if id = [] then none else some (String.ofList id)

/-- Whether a reference hands over what blind seats of another producer of `subject` wrote. -/
def isBlindHandoff (subject : String) (ref : String) : Bool :=
  match (unitRunOfRef ref).bind (projection.blindUnitRuns[·]?) with
  | some (some owner) => (guide.producersOf subject).any (·.id == owner)
  | _ => false

/-- The guide's MUST rows, each by the one check it names. -/
def mustViolations (row : MustRow) : List Violation :=
  let milestone := row.subject.bind (projection.milestones[·]?)
  let subject := row.subject.getD "undefined"
  match row.guard with
  | .milestoneReached =>
    if writes ≠ [] ∧ !row.subject.any activity.produces.contains ∧ !row.subject.any projection.achieved then
      [⟨.milestoneNotReached, row.id,
        "rule \"" ++ row.id ++ "\": milestone \"" ++ subject ++ "\" must be reached (now " ++ stateOf milestone ++
          ") before a writing activity", row.subject⟩]
    else []
  | .humanConsent =>
    match row.subject with
    | some subject =>
      if writes ≠ [] ∧ guide.isDownstream activity subject then consentViolation projection row.id subject else []
    | none => []
  | .verifyReceipt =>
    match row.subject with
    | some subject =>
      if !activity.entry.contains subject ∧ guide.isDownstream activity subject ∧ !projection.achieved subject then
        [⟨if stateOf milestone = "stale" then .receiptStale else .receiptMissing, row.id,
          "rule \"" ++ row.id ++ "\": \"" ++ subject ++ "\" needs a verify receipt for its current subject (now " ++
            stateOf milestone ++ ")", some subject⟩]
      else []
    | none => []
  | .independenceBlind =>
    match row.subject with
    | some subject =>
      if activity.produces.contains subject then
        (if proposal.blind then [] else
          [⟨.independenceNotEncapsulated, row.id,
            "rule \"" ++ row.id ++ "\": seats that produce \"" ++ subject ++
              "\" must run as blind seats of one pattern or wave", none⟩]) ++
        (let earlier := proposal.handoffRefs.filter (isBlindHandoff guide projection subject)
         if earlier = [] then [] else
          [⟨.independenceBlindHandoff, row.id,
            "rule \"" ++ row.id ++ "\": this dispatch is handed the output of blind seats (" ++ joined earlier ++
              ") that must stay unread by the later ones", none⟩])
      else []
    | none => []
  | .writeScopeIsolation | .frameAllowance | .platform _ => []

/-- A list of texts as a declared scope. -/
def scope (writes : List String) : Json := .arr (writes.map .str)

def overlapViolations : List Attempt → Except WriteScopeError (List Violation)
  | [] => .ok []
  | other :: rest => do
    let overlaps ← if other.writes = [] then .ok false else writeScopesOverlap (scope writes) (scope other.writes)
    let behind ← overlapViolations rest
    if overlaps then
      return ⟨.writesOverlap, "write-scope-isolation",
        "writes [" ++ joined writes ++ "] can touch the same path as reservation " ++ other.reservationId ++
          " (activity " ++ other.activity.getD "null" ++ ", writes [" ++ joined other.writes ++
          "]); scopes are compared by their literal leading segments, so narrow an entry if the two are disjoint",
        none⟩ :: behind
    else return behind

/-- Writes are disjoint from every live reservation of the case. -/
def isolationViolations : Except WriteScopeError (List Violation) :=
  if writes = [] then .ok [] else overlapViolations writes projection.liveReservations

def bindingOf (bindingAnswers : Table Answered) : List Violation × List (String × BindingAction) :=
  if writes = [] then ([], [])
  else match truthy proposal.worktree with
    | none => ([⟨.writesNeedWorktree, "binding", "a writing dispatch names the worktree it runs in", none⟩], [])
    | some worktree =>
      match bindingAnswers[worktree]? with
      | none => ([⟨.bindingUnresolved, "binding", "no binding answer for worktree " ++ worktree, none⟩], [])
      | some ⟨.unbound, _⟩ => ([], [(worktree, .create)])
      | some ⟨.bound, _⟩ => ([], [(worktree, .have_)])
      | some ⟨answer, owner⟩ =>
        ([⟨.binding answer, "binding",
          "worktree " ++ worktree ++ ": " ++ answer.code ++
            ((truthy owner).map (" (case " ++ · ++ ")")).getD "", none⟩], [])

def seatLaunchViolations (left : FrameRemaining) : List Violation :=
  match left.seatLaunchesPerDispatch with
  | none => []
  | some perDispatch =>
    match proposal.seatLaunches with
    | none =>
      if writes ≠ [] then
        [⟨.frameRemainingUnknown, "frame-allowance",
          "the seat launches this dispatch plans are not known, so a writing dispatch is not admitted", none⟩]
      else []
    | some seatLaunches =>
      if perDispatch < seatLaunches then
        [⟨.seatLaunchCeilingExceeded, "frame-allowance",
          "the dispatch plans " ++ toString seatLaunches ++ " seat launches; the frame allows " ++
            toString perDispatch ++ " per dispatch", none⟩]
      else if left.fallbackPerSeat = none ∧ writes ≠ [] then
        [⟨.frameRemainingUnknown, "frame-allowance",
          "the fallback allowance per seat was left to the approver, so a writing dispatch is not admitted", none⟩]
      else []

/-- Whether a rigor is below the floor of the frame, both being known. -/
def belowFloor (rigor floor : Option String) : Bool :=
  match rigor.bind (rigorOrder.idxOf? ·), floor.bind (rigorOrder.idxOf? ·) with
  | some rigor, some floor => rigor < floor
  | _, _ => false

/-- Counters reserved before the dispatch; an unknown remainder refuses the next writing dispatch. -/
def frameViolations : List Violation :=
  match projection.frame with
  | none => []
  | some frame =>
    let left := projection.frameRemaining
    (if left.dispatches = some 0 then
      [⟨.frameExhausted, "frame-allowance", "the approved frame has no dispatch left", none⟩] else []) ++
    (if writes ≠ [] then
      if left.dispatches = none ∨ left.mutatingDispatches = none then
        [⟨.frameRemainingUnknown, "frame-allowance",
          "what is left of the frame is not known (a count was left to the approver), so a writing dispatch is not admitted",
          none⟩]
      else if left.mutatingDispatches = some 0 then
        [⟨.frameExhausted, "frame-allowance", "the approved frame has no writing dispatch left", none⟩]
      else []
    else []) ++
    seatLaunchViolations proposal writes left ++
    (if belowFloor proposal.rigor frame.rigorFloor then
      [⟨.rigorBelowFloor, "frame-allowance",
        "rigor " ++ proposal.rigor.getD "" ++ " is below the frame's floor " ++ frame.rigorFloor.getD "", none⟩]
    else [])

/-- The ceiling handed to the Unit: planned launches times the fallback allowance of a seat. -/
def seatLaunchCeiling : Option ℕ :=
  match projection.frame, proposal.seatLaunches, projection.frameRemaining.fallbackPerSeat with
  | some _, some seatLaunches, some fallback => some (seatLaunches * fallback)
  | _, _, _ => none

/-- A route names the activity, alone or before a space. -/
def listed (routes : List String) (id : String) : Bool :=
  routes.any fun route => route == id || (id ++ " ").toList.isPrefixOf route.toList

/-- The open decision points the choice of this activity is made at. -/
def governing : List RoutePoint :=
  projection.routePoints.filter fun point =>
    point.isOpen && (proposal.decisionPoint.all (· == point.at_)) &&
      (listed point.should activity.id || listed point.mayInstead activity.id || activity.entry.contains point.at_)

def routeKindOf : RouteKind :=
  let governing := governing projection activity proposal
  if projection.kind = .playbook ∧ proposal.proposer = some .playbook then .should
  else if governing.any (fun point => listed point.should activity.id) then .should
  else if governing.any (fun point => listed point.mayInstead activity.id) then .mayInstead
  else if governing ≠ [] then .unlisted
  else .eligible

/-- The way outside the list needs a reason and is refused where the point lists routes only. -/
def routeViolations : List Violation :=
  if routeKindOf projection activity proposal = .unlisted then
    let governing := governing projection activity proposal
    let strict := governing.filter (·.listedRoutesOnly)
    (if (proposal.reason.map fun reason => WriteScope.trim reason.toList).all (· = []) then
      [⟨.routeReasonRequired, "route",
        "\"" ++ activity.id ++ "\" is not a listed route at " ++ joined (governing.map (·.at_)) ++ "; say why", none⟩]
    else []) ++
    (if strict ≠ [] then
      [⟨.unlistedRouteRefused, "route",
        "\"" ++ activity.id ++ "\" is not a listed route and " ++ joined (strict.map (·.at_)) ++ " lists routes only",
        none⟩]
    else []) ++
    (if projection.frameRemaining.deviationsBeforeAsk = some 0 then
      [⟨.deviationLimitReached, "frame-allowance",
        "the frame allows no further deviation before asking the owner", none⟩]
    else [])
  else []

/-- The reservation of an admitted proposal. -/
def reservationOf (reservationId : String) : Reservation where
  reservationId
  activity := some activity.id
  unitId := proposal.unitId
  nested := none
  writes
  worktree := proposal.worktree
  counters := some ⟨1, if writes ≠ [] then 1 else 0⟩
  seatLaunchCeiling := seatLaunchCeiling projection proposal
  blind := proposal.blind
  unitRunId := proposal.unitRunId

/-- The route an admitted proposal took. -/
def routeOf (reservationId : String) : Route where
  decisionPoint := (governing projection activity proposal).head?.map (·.at_)
  activity := activity.id
  unitId := proposal.unitId
  routeKind := routeKindOf projection activity proposal
  reason := truthy proposal.reason
  guideVersion := projection.guideRef.map GuideRef.sha256
  reservationId

/-- Every rule the proposal breaks, in the order they are checked. -/
def violations (bindingAnswers : Table Answered) : Except WriteScopeError (List Violation) := do
  let overlaps ← isolationViolations projection writes
  return effectViolations activity writes ++ activity.entry.flatMap (entryViolation projection) ++
    guide.must.flatMap (mustViolations guide projection activity proposal writes) ++ overlaps ++
    (bindingOf proposal writes bindingAnswers).1 ++ frameViolations projection proposal writes ++
    routeViolations projection activity proposal

end

def admitProposal (projection : Projection) (proposal : Proposal) (bindingAnswers : Table Answered)
    (reservationId : String) : Except WriteScopeError Verdict :=
  match projection.guide with
  | none => .ok (.refused [⟨.noGuide, "guide", "the case has no guide to admit against", none⟩])
  | some guide =>
    if !projection.isOpen then
      .ok (.refused [⟨.caseClosed, "case", "the case is closed; no activity is admitted into it", none⟩])
    else match guide.activityOf proposal.activity with
      | none =>
        .ok (.refused [⟨.unknownActivity, "guide",
          "the guide has no activity \"" ++ proposal.activity ++ "\"", none⟩])
      | some activity => do
        let writes ← canonicalizeWrites (scope proposal.writes)
        let violations ← violations guide projection activity proposal writes bindingAnswers
        if violations ≠ [] then return .refused violations
        let reservation := reservationOf projection activity proposal writes reservationId
        return .admitted reservation (bindingOf proposal writes bindingAnswers).2
          [.route (routeOf projection activity proposal reservationId), .reservation reservation]

/-! ### What an admitted proposal has passed -/

/-- An admitted proposal names an activity of the guide of an open case, and breaks no rule. -/
structure Passed (projection : Projection) (proposal : Proposal) (bindingAnswers : Table Answered) (guide : Guide)
    (activity : Activity) (writes : List String) : Prop where
  guide_eq : projection.guide = some guide
  open_ : projection.isOpen = true
  activity_eq : guide.activityOf proposal.activity = some activity
  writes_eq : canonicalizeWrites (scope proposal.writes) = .ok writes
  effect : effectViolations activity writes = []
  entry : ∀ id ∈ activity.entry, entryViolation projection id = []
  must : ∀ row ∈ guide.must, mustViolations guide projection activity proposal writes row = []
  isolation : isolationViolations projection writes = .ok []
  binding : (bindingOf proposal writes bindingAnswers).1 = []
  frame : frameViolations projection proposal writes = []
  route : routeViolations projection activity proposal = []

variable {projection : Projection} {proposal : Proposal} {bindingAnswers : Table Answered} {guide : Guide}
  {activity : Activity} {writes : List String} {id : String}

theorem violations_eq_nil (h : violations guide projection activity proposal writes bindingAnswers = .ok []) :
    effectViolations activity writes = [] ∧ (∀ id ∈ activity.entry, entryViolation projection id = []) ∧
      (∀ row ∈ guide.must, mustViolations guide projection activity proposal writes row = []) ∧
      isolationViolations projection writes = .ok [] ∧
      (bindingOf proposal writes bindingAnswers).1 = [] ∧ frameViolations projection proposal writes = [] ∧
      routeViolations projection activity proposal = [] := by
  obtain ⟨overlaps, hisolation, h⟩ := bind_eq_ok.mp h
  simp only [pure, Except.pure, Except.ok.injEq, List.append_eq_nil_iff, List.flatMap_eq_nil_iff] at h
  obtain ⟨⟨⟨⟨⟨⟨heffect, hentry⟩, hmust⟩, rfl⟩, hbinding⟩, hframe⟩, hroute⟩ := h
  exact ⟨heffect, hentry, hmust, hisolation, hbinding, hframe, hroute⟩

/-- **What an admitted proposal has passed**, and what it is answered. -/
theorem admitProposal_admitted
    {reservationId : String} {reservation : Reservation} {bindings : List (String × BindingAction)}
    {events : List Event}
    (h : admitProposal projection proposal bindingAnswers reservationId = .ok (.admitted reservation bindings events)) :
    ∃ guide activity writes, Passed projection proposal bindingAnswers guide activity writes ∧
      reservation = reservationOf projection activity proposal writes reservationId ∧
      bindings = (bindingOf proposal writes bindingAnswers).2 ∧
      events = [.route (routeOf projection activity proposal reservationId), .reservation reservation] := by
  rw [admitProposal] at h
  split at h
  · simp at h
  · next guide hguide =>
    split at h
    · simp at h
    · next hopen =>
      split at h
      · simp at h
      · next activity hactivity =>
        obtain ⟨writes, hwrites, h⟩ := bind_eq_ok.mp h
        obtain ⟨all, hviolations, h⟩ := bind_eq_ok.mp h
        split at h
        · cases h
        · next hall =>
          cases h
          rw [not_not.mp hall] at hviolations
          obtain ⟨heffect, hentry, hmust, hisolation, hbinding, hframe, hroute⟩ := violations_eq_nil hviolations
          exact ⟨guide, activity, writes,
            ⟨hguide, by simpa using hopen, hactivity, hwrites, heffect, hentry, hmust, hisolation, hbinding, hframe, hroute⟩,
            rfl, rfl, rfl⟩

theorem achieved_of_entryViolation (h : entryViolation projection id = []) :
    ∃ by_, projection.milestones[id]? = some (.achieved by_) := by
  rw [entryViolation] at h
  split at h
  · next by_ hby => exact ⟨by_, hby⟩
  all_goals simp at h

theorem consent_of_mustViolations {row : MustRow}
    (h : mustViolations guide projection activity proposal writes row = []) (hwrites : writes ≠ [])
    (hguard : row.guard = .humanConsent) (hsubject : row.subject = some id) (hafter : guide.ComesAfter activity id) :
    ∃ by_, projection.milestones[id]? = some (.achieved by_) ∧ by_.consent = true := by
  have hdown : guide.isDownstream activity id = true := Guide.isDownstream_iff.mpr hafter
  simp only [mustViolations, hguard, hsubject, hdown, ne_eq, hwrites, not_false_eq_true, and_self, if_true] at h
  rw [consentViolation] at h
  split at h
  case h_3 by_ hby =>
    refine ⟨by_, hby, ?_⟩
    by_contra hconsent
    rw [if_neg hconsent] at h
    cases h
  all_goals simp at h

namespace Passed

variable {projection : Projection} {proposal : Proposal} {bindingAnswers : Table Answered} {guide : Guide}
  {activity : Activity} {writes : List String}

theorem consent (h : Passed projection proposal bindingAnswers guide activity writes) (hwrites : writes ≠ [])
    {row : MustRow} {id : String} (hrow : row ∈ guide.must) (hguard : row.guard = .humanConsent)
    (hsubject : row.subject = some id) (hafter : guide.ComesAfter activity id) :
    ∃ by_, projection.milestones[id]? = some (.achieved by_) ∧ by_.consent = true :=
  consent_of_mustViolations (h.must row hrow) hwrites hguard hsubject hafter

end Passed

end Forgent.Workflow
