import Forgent.Workflow.Admission

/-!
# Does what a reservation was admitted on still hold

`recheckReservation` asks the admission again just before a writing round is committed, without the frame and the other
reservations, and keeps the violations that mean that what was admitted on is no longer true.

* `recheck_sound_iff`: when its silence means that it still is.
-/

namespace Forgent.Workflow

open List

open WriteScope (canonicalizeWrites WriteScopeError)

/-- `RECHECK_CODES`. -/
def Code.isRechecked : Code → Bool
  | .consentStale | .consentMissing | .consentSubjectUnknown | .entryMilestoneStale | .entryMilestoneUnmet
  | .entryMilestoneBlocked | .milestoneNotReached | .receiptStale | .receiptMissing | .independenceNotEncapsulated
  | .independenceBlindHandoff => true
  | _ => false

/-- What is proposed for the activity of a reservation that is asked about again. -/
def proposalAgain (reservation : Attempt) (activity : String) : Proposal where
  activity
  unitId := none
  decisionPoint := none
  reason := some "recheck"
  writes := reservation.writes
  worktree := reservation.worktree
  blind := reservation.blind
  handoffRefs := []
  rigor := none
  seatLaunches := none
  unitRunId := none
  proposer := none

/-- `{ ...projection, frame: null, liveReservations: others }`; what is left of the frame is read by route checks only,
whose codes are not kept. -/
def withoutReservation (projection : Projection) (reservation : Attempt) : Projection :=
  { projection with
    frame := none
    reservations := projection.reservations.filter (·.reservationId ≠ reservation.reservationId) }

def bound (reservation : Attempt) : Table Answered :=
  match truthy reservation.worktree with
  | some worktree => (∅ : Table Answered).insert worktree ⟨.bound, none⟩
  | none => ∅

/-- The violations, or none when all still holds. -/
def recheckReservation (projection : Projection) (reservation : Attempt) : Except WriteScopeError (Option (List Violation)) :=
  match reservation.activity with
  -- no activity of a guide has the id `null`, and that it is unknown is not asked again
  | none => .ok none
  | some activity =>
    match admitProposal (withoutReservation projection reservation) (proposalAgain reservation activity)
        (bound reservation) reservation.reservationId with
    | .error err => .error err
    | .ok (.refused violations) =>
      let broken := violations.filter (·.code.isRechecked)
      .ok (if broken = [] then none else some broken)
    | .ok (.admitted _ _ _) => .ok none

/-! ### What the admission stood on -/

/-- The entry milestones of the activity are achieved, and the rules about milestones, consent and receipts that apply to
it and its writes are satisfied. -/
structure StandsOn (guide : Guide) (projection : Projection) (activity : Activity) (writes : List String) : Prop where
  entry : ∀ id ∈ activity.entry, ∃ by_, projection.milestones[id]? = some (.achieved by_)
  reached : ∀ row ∈ guide.must, row.guard = .milestoneReached → writes ≠ [] → (∀ id ∈ row.subject, id ∉ activity.produces) →
    ∃ id ∈ row.subject, projection.achieved id = true
  consent : ∀ row ∈ guide.must, row.guard = .humanConsent → writes ≠ [] → ∀ id, row.subject = some id →
    guide.ComesAfter activity id → ∃ by_, projection.milestones[id]? = some (.achieved by_) ∧ by_.consent = true
  receipt : ∀ row ∈ guide.must, row.guard = .verifyReceipt → ∀ id, row.subject = some id → id ∉ activity.entry →
    guide.ComesAfter activity id → projection.achieved id = true

def StillHolds (projection : Projection) (reservation : Attempt) : Prop :=
  ∀ guide activity name writes, projection.guide = some guide → reservation.activity = some name →
    guide.activityOf name = some activity → canonicalizeWrites (scope reservation.writes) = .ok writes →
      StandsOn guide projection activity writes

section

variable {guide : Guide} {projection : Projection} {activity : Activity} {proposal : Proposal} {writes : List String}
  {reservation : Attempt} {bindingAnswers : Table Answered} {all : List Violation} {v : Violation}

theorem isRechecked_of_entry {id : String} (h : v ∈ entryViolation projection id) : v.code.isRechecked = true := by
  rw [entryViolation] at h
  split at h
  · cases h
  all_goals
    rw [mem_singleton.mp h]
    rfl

theorem isRechecked_of_consent {rowId id : String} (h : v ∈ consentViolation projection rowId id) :
    v.code.isRechecked = true := by
  rw [consentViolation] at h
  repeat' split at h
  all_goals first | cases h; done | rw [mem_singleton.mp h]; rfl

theorem isRechecked_of_must {row : MustRow}
    (h : v ∈ mustViolations guide projection activity proposal writes row) : v.code.isRechecked = true := by
  cases hguard : row.guard with
  | humanConsent =>
    simp only [mustViolations, hguard] at h
    split at h
    · split at h
      · exact isRechecked_of_consent h
      · cases h
    · cases h
  | _ =>
    simp only [mustViolations, hguard] at h
    grind [Code.isRechecked]

theorem mem_violations (h : violations guide projection activity proposal writes bindingAnswers = .ok all)
    (hv : (∃ id ∈ activity.entry, v ∈ entryViolation projection id) ∨
      ∃ row ∈ guide.must, v ∈ mustViolations guide projection activity proposal writes row) : v ∈ all := by
  obtain ⟨overlaps, -, h⟩ := bind_eq_ok.mp h
  cases h
  simp only [mem_append, mem_flatMap]
  rcases hv with hv | hv <;> simp [hv]

theorem standsOn_of_silent (hentry : ∀ id ∈ activity.entry, entryViolation projection id = [])
    (hmust : ∀ row ∈ guide.must, mustViolations guide projection activity proposal writes row = []) :
    StandsOn guide projection activity writes where
  entry id hid := achieved_of_entryViolation (hentry id hid)
  reached row hrow hguard hwrites hproduces := by
    have hnone := hmust row hrow
    simp only [mustViolations, hguard] at hnone
    by_contra hnot
    rw [if_pos] at hnone
    · cases hnone
    · cases hsubject : row.subject with
      | none => exact ⟨hwrites, rfl, rfl⟩
      | some id => exact ⟨hwrites, by simpa using hproduces id hsubject, by simpa using fun h => hnot ⟨id, hsubject, h⟩⟩
  consent row hrow hguard hwrites id hsubject hafter := consent_of_mustViolations (hmust row hrow) hwrites hguard hsubject hafter
  receipt row hrow hguard id hsubject hentry hafter := by
    have hnone := hmust row hrow
    simp only [mustViolations, hguard, hsubject] at hnone
    by_contra hnot
    rw [if_pos] at hnone
    · cases hnone
    · exact ⟨by simpa using hentry, Guide.isDownstream_iff.mpr hafter, by simpa using hnot⟩

/-- In an open case a silent recheck leaves no violation of what is kept. -/
theorem kept_of_recheck {name : String} (h : recheckReservation projection reservation = .ok none)
    (hopen : projection.isOpen = true) (hguide : projection.guide = some guide) (hname : reservation.activity = some name)
    (hactivity : guide.activityOf name = some activity) (hwrites : canonicalizeWrites (scope reservation.writes) = .ok writes) :
    ∃ all, violations guide (withoutReservation projection reservation) activity (proposalAgain reservation name) writes
      (bound reservation) = .ok all ∧ ∀ v ∈ all, v.code.isRechecked = false := by
  have hopen' : (withoutReservation projection reservation).isOpen = true := hopen
  have hguide' : (withoutReservation projection reservation).guide = some guide := hguide
  have hactivity' : guide.activityOf (proposalAgain reservation name).activity = some activity := hactivity
  have hwrites' : canonicalizeWrites (scope (proposalAgain reservation name).writes) = .ok writes := hwrites
  simp only [recheckReservation, hname, admitProposal, hguide', hopen', hactivity', hwrites', Bool.not_true,
    Bool.false_eq_true, if_false, bind, Except.bind] at h
  cases hall : violations guide (withoutReservation projection reservation) activity (proposalAgain reservation name) writes
      (bound reservation) with
  | error err =>
    rw [hall] at h
    cases h
  | ok all =>
    refine ⟨all, rfl, ?_⟩
    rw [hall] at h
    by_cases hnil : all = []
    · simp [hnil]
    · simp only [ne_eq, hnil, not_false_eq_true, if_true, pure, Except.pure] at h
      split at h
      · next hbroken => simpa [filter_eq_nil_iff] using hbroken
      · cases h

end

/-- **When the silence of the recheck means that what was admitted on still holds**: in an open case always, in a closed
one only if it does. -/
theorem recheck_sound_iff (projection : Projection) (reservation : Attempt) :
    (recheckReservation projection reservation = .ok none → StillHolds projection reservation) ↔
      projection.isOpen = true ∨ StillHolds projection reservation := by
  constructor
  · intro h
    by_cases hopen : projection.isOpen = true
    · exact .inl hopen
    · have hclosed : (withoutReservation projection reservation).isOpen = false := Bool.not_eq_true _ ▸ hopen
      refine .inr (h ?_)
      rw [recheckReservation]
      cases reservation.activity with
      | none => rfl
      | some name =>
        simp only [admitProposal, hclosed]
        cases (withoutReservation projection reservation).guide <;> rfl
  · rintro (hopen | hholds) hsilent
    · intro guide activity name writes hguide hname hactivity hwrites
      obtain ⟨all, hall, hnone⟩ := kept_of_recheck hsilent hopen hguide hname hactivity hwrites
      have hno {v : Violation} (hv : v.code.isRechecked = true) : v ∉ all := fun hmem => by
        rw [hnone v hmem] at hv
        cases hv
      have hentry : ∀ id ∈ activity.entry, entryViolation (withoutReservation projection reservation) id = [] :=
        fun id hid => eq_nil_iff_forall_not_mem.mpr fun v hv =>
          hno (isRechecked_of_entry hv) (mem_violations hall (.inl ⟨id, hid, hv⟩))
      have hmust : ∀ row ∈ guide.must, mustViolations guide (withoutReservation projection reservation) activity
          (proposalAgain reservation name) writes row = [] := fun row hrow =>
        eq_nil_iff_forall_not_mem.mpr fun v hv =>
          hno (isRechecked_of_must hv) (mem_violations hall (.inr ⟨row, hrow, hv⟩))
      have hstands := standsOn_of_silent hentry hmust
      exact ⟨hstands.entry, hstands.reached, hstands.consent, hstands.receipt⟩
    · exact hholds

namespace Closed

def guide : Guide where
  kind := .playbook
  milestones := ["approve.settled"]
  activities := [⟨"describe", ["approve.settled"], [], .writes⟩]
  decisions := []
  must := []
  frameDefaults := none
  closure := []
  uniqueIds := List.nodup_singleton "describe"

def reservation : Attempt where
  reservationId := "rsv-1"
  activity := some "describe"
  unitId := none
  nested := none
  writes := []
  worktree := none
  counters := none
  seatLaunchCeiling := none
  blind := false
  unitRunId := none
  settled := false
  outcome := none
  seatLaunchesUsed := none

/-- The case is closed, and the approval it was admitted on is for another version. -/
def projection : Projection where
  caseId := some "wf-1"
  kind := .playbook
  guide := some guide
  guideRef := none
  frame := none
  status := .running
  closed := some none
  milestones := (∅ : Table Milestone).insert "approve.settled"
    (.stale ⟨some "sha256:1", true, [], none, none⟩ "sha256:1" (some "sha256:2"))
  refusedAchievements := []
  reservations := [reservation]
  blindUnitRuns := ∅
  frameExhausted := false
  routes := []
  openGates := []
  bindings := []
  parkedConsent := []

/-- In a closed case the recheck is silent about an approval that is stale. -/
theorem silent_recheck_of_closed_case : projection.liveReservations = [reservation] ∧
    recheckReservation projection reservation = .ok none ∧ ¬StillHolds projection reservation := by
  refine ⟨rfl, rfl, fun h => ?_⟩
  obtain ⟨by_, hachieved⟩ :=
    (h guide ⟨"describe", ["approve.settled"], [], .writes⟩ "describe" [] rfl rfl rfl rfl).entry _ mem_cons_self
  simp [projection] at hachieved

end Closed

end Forgent.Workflow
