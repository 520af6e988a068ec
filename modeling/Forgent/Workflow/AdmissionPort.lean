import Forgent.ActRun
import Forgent.Workflow.Admission

/-!
# The admission port of a case

What the ports of any number of processes do to the ledger of one case, each operation in a short section under the
`advance` of the case: a Unit run is admitted, a reservation is settled, the frame is charged for a nested case and the
charge is given back.  A settle that cannot take `advance` waits in a file, which whoever holds `advance` folds in.

* `admitUnderAdvance`, `settleOf`, `applySettle`, `reserveParentFrame`, `refundParentFrame`: the sections.
* `CaseWorld`, `CaseAct`, `CaseWorld.act`: the ledger, the files, the answers, and the Unit runs that are alive.
-/

namespace Forgent.Workflow

open WriteScope (canonicalizeWrites WriteScopeError)

/-! ### What the ledger has -/

def Event.reserves (reservationId : String) : Event → Bool
  | .reservation p => p.reservationId == reservationId
  | _ => false

def Event.settles (reservationId : String) : Event → Bool
  | .settle p => p.reservationId == reservationId
  | _ => false

def recordedReservation (events : List Event) (reservationId : String) : Option Reservation :=
  events.findSome? fun
    | .reservation p => if p.reservationId = reservationId then some p else none
    | _ => none

/-! ### Settles -/

/-- What the run of a Unit ended with, and what it proposes as achieved. -/
structure SettleResult where
  unitRunId : Option String
  outcome : String
  receipts : List Receipt
  achieved : List Achieved
  seatLaunchesUsed : Option ℕ
  frameExhausted : Bool
  deriving DecidableEq

/-- The settle of a reservation the ledger has. -/
def settleOf (events : List Event) (reservationId : String) (result : SettleResult) : Option Settle :=
  (recordedReservation events reservationId).map fun reservation =>
    { reservationId
      activity := reservation.activity
      unitId := reservation.unitId
      unitRunId := result.unitRunId
      outcome := result.outcome
      receipts := result.receipts
      achieved := result.achieved
      seatLaunchesUsed := some (result.seatLaunchesUsed.getD 0)
      frameExhausted := result.frameExhausted
      blind := reservation.blind }

/-- A settle already on the ledger is not appended again. -/
def applySettle (events : List Event) (settle : Settle) : List Event :=
  if events.any (Event.settles settle.reservationId) then [] else [.settle settle]

/-! ### The frame of a nested case -/

inductive Charge where
  | reserved (already : Bool)
  | refused (code condition : String)
  deriving DecidableEq

def nestedReservation (reservationId childRef : String) (need : Counters) : Reservation where
  reservationId
  activity := none
  unitId := none
  nested := some childRef
  writes := []
  worktree := none
  counters := some need
  seatLaunchCeiling := none
  blind := false
  unitRunId := none

def refund (reservationId : String) : Settle where
  reservationId
  activity := none
  unitId := none
  unitRunId := none
  outcome := "refunded"
  receipts := []
  achieved := []
  seatLaunchesUsed := some 0
  frameExhausted := false
  blind := false

/-- A known count that is smaller than what is needed. -/
def fallsShort (left : Option ℕ) (need : ℕ) : Bool := left.any (· < need)

section

variable (normalizeGuide : Definition → Option Guide) (digestUnitRunReports : List UnitRun → Option String)

def reserveParentFrame (events : List Event) (reservationId childRef : String) (need : Counters) : Charge × List Event :=
  if events.any (Event.reserves reservationId) then (.reserved true, [])
  else
    let projection := projectCase normalizeGuide events ∅
    let left := projection.frameRemaining
    if !projection.isOpen then (.refused "case-closed" "the parent case is closed", [])
    else if projection.frame.isSome ∧
        (left.dispatches = none ∨ (0 < need.mutatingDispatches ∧ left.mutatingDispatches = none)) then
      (.refused "frame-remaining-unknown" "what is left of the parent frame is not known", [])
    else if projection.frame.isSome ∧ (fallsShort left.dispatches need.dispatches ∨
        (0 < need.mutatingDispatches ∧ fallsShort left.mutatingDispatches need.mutatingDispatches)) then
      (.refused "frame-exhausted" ("the parent frame has " ++ (left.dispatches.map toString).getD "null" ++
        " dispatches left, the nested case needs " ++ toString need.dispatches), [])
    else (.reserved false, [.reservation (nestedReservation reservationId childRef need)])

/-- Give a nested case's charge back.  A charge that is not on the ledger is an error. -/
def refundParentFrame (events : List Event) (reservationId : String) : Option (List Event) :=
  if events.any (Event.reserves reservationId) then
    if events.any (Event.settles reservationId) then some [] else some [.settle (refund reservationId)]
  else none

/-! ### Admission -/

/-- What `bindWorktree` did for the worktree of a writing Unit. -/
inductive Bound where
  | refused (answer : BindingAnswer)
  | already
  | made (binding : Binding)
  deriving DecidableEq

inductive PortAnswer where
  | admitted (reservationId : String) (seatLaunchCeiling : Option ℕ)
  /-- The rules it breaks; the first one is its code and its condition. -/
  | refused (violations : List Violation)
  | unbindable (answer : BindingAnswer) (condition : String)
  deriving DecidableEq

/-- A Unit run asks to be admitted, with what the disk answers meanwhile, and the id a new reservation gets. -/
structure Ask where
  proposal : Proposal
  unitRunId : String
  binding : Answered
  bound : Bound
  reservationId : String

namespace Ask

variable (ask : Ask)

def isWriting : Bool := ask.proposal.writes != []

/-- The proposal as the rules are given it. -/
def proposed (kind : GuideKind) : Proposal :=
  { ask.proposal with
    worktree := if ask.isWriting then ask.proposal.worktree else none
    unitRunId := some ask.unitRunId
    proposer := some (match kind with
      | .playbook => .playbook
      | .guide => .agent) }

def bindingAnswers : Table Answered :=
  if ask.isWriting then (ask.proposal.worktree.map fun worktree => (∅ : Table Answered).insert worktree ask.binding).getD ∅
  else ∅

def liveOf (projection : Projection) : Option Attempt :=
  ask.proposal.unitId.bind fun unitId => projection.liveReservations.find? fun r =>
    r.activity == some ask.proposal.activity && r.unitId == some unitId

def bindThen (caseId : String) (answer : PortAnswer) (appended : List Event) : PortAnswer × List Event :=
  if ask.isWriting then
    match ask.bound with
    | .refused answered =>
      (.unbindable answered ("worktree " ++ ask.proposal.worktree.getD "" ++ " cannot be bound to case " ++ caseId ++ ": " ++
        answered.code), [])
    | .already => (answer, appended)
    | .made binding => (answer, .binding binding :: appended)
  else (answer, appended)

end Ask

/-- The section of `admit` behind the drain. -/
def admitUnderAdvance (caseId : String) (events : List Event) (ask : Ask) :
    Except WriteScopeError (PortAnswer × List Event) :=
  let projection := readCase digestUnitRunReports normalizeGuide events
  match ask.liveOf projection with
  -- the same Unit asked again (its controller died before its run existed) keeps its reservation
  | some live => .ok (ask.bindThen caseId (.admitted live.reservationId live.seatLaunchCeiling) [])
  | none =>
    match admitProposal projection (ask.proposed projection.kind) ask.bindingAnswers ask.reservationId with
    | .error err => .error err
    | .ok (.refused violations) => .ok (.refused violations, [])
    | .ok (.admitted reservation _ appended) =>
      .ok (ask.bindThen caseId (.admitted reservation.reservationId reservation.seatLaunchCeiling) appended)

/-! ### A case, and who asks of it -/

/-- An admitted answer: the reservation, the Unit run it was given to, and the writes that run asked for. -/
structure Given where
  reservationId : String
  unitRunId : String
  writes : List String
  deriving DecidableEq

structure CaseWorld where
  ledger : List Event
  /-- The settles that could not take `advance`. -/
  pending : List Settle
  given : List Given
  /-- The Unit runs that are alive. -/
  alive : List String

/-- The events of a case that are neither about reservations nor its beginning. -/
def Event.isNote : Event → Bool
  | .workflowStart _ | .caseOpened _ | .reservation _ | .settle _ => false
  | _ => true

/-- What happens; `held` says whether `advance` could be taken. -/
inductive CaseAct where
  | admission (ask : Ask)
  | settle (reservationId : String) (result : SettleResult) (held : Bool)
  /-- A settle that waits is folded in. -/
  | fold (reservationId : String)
  | charge (reservationId childRef : String) (need : Counters)
  | refund (reservationId : String) (held : Bool)
  | note (event : Event)
  /-- A Unit run ends. -/
  | ends (unitRunId : String)

namespace CaseWorld

variable (w : CaseWorld)

def append (events : List Event) : CaseWorld := { w with ledger := w.ledger ++ events }

/-- `writeSettlePending`: one file for each reservation. -/
def wait (settle : Settle) : CaseWorld :=
  { w with pending := w.pending.filter (·.reservationId ≠ settle.reservationId) ++ [settle] }

def give (given : Given) : CaseWorld :=
  { w with given := w.given ++ [given], alive := given.unitRunId :: w.alive }

/-- The ids that are made for a reservation and for a Unit run are new. -/
def isNew (ask : Ask) : Bool :=
  !w.ledger.any (Event.reserves ask.reservationId) && w.given.all (·.unitRunId != ask.unitRunId)

def act (caseId : String) : CaseAct → Option CaseWorld
  | .admission ask =>
    if w.isNew ask then
      match admitUnderAdvance normalizeGuide digestUnitRunReports caseId w.ledger ask with
      | .ok (.admitted reservationId _, appended) =>
        some ((w.append appended).give ⟨reservationId, ask.unitRunId, ask.proposal.writes⟩)
      | .ok (_, appended) => some (w.append appended)
      | .error _ => none
    else none
  | .settle reservationId result held =>
    (settleOf w.ledger reservationId result).map fun settle =>
      if held then w.append (applySettle w.ledger settle) else w.wait settle
  | .fold reservationId =>
    (w.pending.find? (·.reservationId == reservationId)).map fun settle =>
      { w.append (applySettle w.ledger settle) with pending := w.pending.filter (·.reservationId ≠ reservationId) }
  | .charge reservationId childRef need =>
    some (w.append (reserveParentFrame normalizeGuide w.ledger reservationId childRef need).2)
  | .refund reservationId held =>
    if held then (refundParentFrame w.ledger reservationId).map w.append
    else if w.ledger.any (Event.reserves reservationId) then some (w.wait (refund reservationId))
    else none
  | .note event => if event.isNote then some (w.append [event]) else none
  | .ends unitRunId => some { w with alive := w.alive.filter (· ≠ unitRunId) }

def IsOpened : Prop := ∃ p q, w = ⟨[.workflowStart p, .caseOpened q], [], [], []⟩

end CaseWorld

end

end Forgent.Workflow
