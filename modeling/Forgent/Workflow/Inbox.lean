import Forgent.Workflow.AdmissionPort

/-!
# The inbox of a case

Settles and answers reach the ledger of a case directly, under the `advance` of the case, or as files that whoever takes
`advance` next folds in: a settle that could not take `advance` waits as a file named by its reservation, and an answer
is kept as a round of its gate, a file that is made once.

* `nextRound`, `roundConsumed`, `unconsumedGateRounds`: the rounds of a gate.
* `World`, `Act`, `World.act`: the ledger file, the inbox, the one process that holds `advance`, and the calls of all
  processes, file step by file step.  The holder may die in any of its steps, and in an append at any byte.
* `Exactly`: what the ledger keeps to.
-/

namespace Forgent.Workflow.Inbox

/-! ### The rounds of a gate -/

/-- One answer, as its file keeps it. -/
structure Round where
  stepId : String
  occurrence : ℕ
  round : ℕ
  answer : String
  approved : Bool
  settles : Bool
  mode : GateMode
  question : String
  subjectDigest : Option String
  answeredAt : String
  deriving DecidableEq

/-- The gate, its occurrence and the round: what names the file of a round. -/
abbrev RoundKey := String × ℕ × ℕ

def Round.key (r : Round) : RoundKey := (r.stepId, r.occurrence, r.round)

/-- The answer a round is recorded as. -/
def Round.payload (r : Round) : GateAnswer where
  stepId := r.stepId
  answer := r.answer
  approved := r.approved
  answeredAt := some r.answeredAt
  occurrence := r.occurrence
  round := r.round
  mode := some r.mode
  subjectDigest := r.subjectDigest
  milestones := none

inductive Ack where
  | settle (reservationId : String)
  | answer (key : RoundKey)
  deriving DecidableEq

/-- Whether the event records what was acknowledged. -/
def records : Ack → Event → Bool
  | .settle reservationId, .settle p => p.reservationId = reservationId
  | .answer key, .gateAnswer p => (p.stepId, p.occurrence, p.round) = key
  | _, _ => false

def roundConsumed (events : List Event) (r : Round) : Bool := events.any (records (.answer r.key))

/-- Rounds whose answer is not on the ledger yet, in the order they were answered. -/
def unconsumedGateRounds (rounds : List Round) (events : List Event) : List Round :=
  (rounds.filter fun r => !roundConsumed events r).insertionSort fun a b => a.answeredAt ≤ b.answeredAt

/-- An answer as it is given. -/
structure AnswerAsk where
  stepId : String
  answer : String
  approved : Bool
  question : String
  mode : GateMode
  subjectDigest : Option String
  answeredAt : String

/-- The three refusals of the code `gate-already-answered`. -/
inductive AnswerRefusal where
  | alreadyAnswered
  | notYetRecorded
  | sameMoment
  deriving DecidableEq

def settlesGate (ask : AnswerAsk) : Event → Bool
  | .gateAnswer p => p.stepId = ask.stepId && (p.mode.getD ask.mode = .input || p.approved)
  | _ => false

def parks (stepId : String) : Event → Bool
  | .gatePark p => p.stepId = stepId
  | _ => false

/-- `recordGateAnswerRound` before it installs the file: the next round of the gate's occurrence, by the ledger and the
rounds as they were read. -/
def nextRound (events : List Stored) (rounds : List Round) (ask : AnswerAsk) : Except AnswerRefusal Round :=
  let parked := events.filter fun e => parks ask.stepId e.event
  let occurrence := max 1 parked.length
  let lastParkSeq := (parked.getLast?.map Stored.seq).getD 0
  let rounds := (rounds.filter fun r => r.stepId = ask.stepId && r.occurrence = occurrence).insertionSort
    fun a b => a.round ≤ b.round
  let settledInLedger := events.any fun e => settlesGate ask e.event && lastParkSeq < e.seq
  if settledInLedger || rounds.any Round.settles then .error .alreadyAnswered
  else if rounds.getLast?.any fun last => !roundConsumed (events.map Stored.event) last then .error .notYetRecorded
  else .ok {
    stepId := ask.stepId
    occurrence
    round := (rounds.getLast?.map Round.round).getD 0 + 1
    answer := ask.answer
    approved := ask.approved
    settles := ask.mode = .input || ask.approved
    mode := ask.mode
    question := ask.question
    subjectDigest := ask.subjectDigest
    answeredAt := ask.answeredAt }

/-! ### The case and its processes -/

/-- Where `drainCaseInbox` is. -/
inductive Drain where
  /-- The files of settles that are left, and the ledger as it was read. -/
  | folding (names : List String) (events : List Event)
  /-- The settle of the file is on the ledger. -/
  | folded (name : String) (names : List String)
  /-- The rounds that are left. -/
  | answering (rounds : List Round) (events : List Event)

/-- Who holds `advance`, and what its drain found acknowledged when it began. -/
inductive Holder where
  | free
  | held
  | draining (due : List Ack) (drain : Drain)

/-- Where a call of `settle` or of an answer is. -/
inductive Call where
  | idle
  /-- The reservation is known, and this is its settle. -/
  | settling (settle : Settle)
  /-- The settle is on the ledger, or waits as a file. -/
  | applied (reservationId : String)
  | answering (ask : AnswerAsk) (events : List Stored)
  | installing (round : Round)
  | installed (round : Round)
  | returned
  | refused

structure World where
  file : LedgerFile
  /-- `settle-pending`, by reservation. -/
  pending : Table Settle
  /-- The files of rounds. -/
  rounds : List Round
  holder : Holder
  calls : ℕ → Call
  /-- The events whose append returned. -/
  returned : List Stored
  acked : List Ack
  /-- What was acknowledged before a drain began that has completed. -/
  collected : List Ack

/-- A run that was just created. -/
def World.created (p : StartPayload) : World where
  file := ⟨[⟨1, .workflowStart p⟩], []⟩
  pending := ∅
  rounds := []
  holder := .free
  calls := fun _ => .idle
  returned := []
  acked := []
  collected := []

inductive Act where
  /-- The lock of `advance`. -/
  | take
  | release
  /-- The holder dies; an append it was in leaves the text behind the last newline. -/
  | crash (torn : List Char)
  /-- The truncation of `recoverWorkflowLedgerTail`. -/
  | truncate
  /-- An append of the holder's own: neither a settle nor an answer. -/
  | append (event : Event)
  | settleRead (i : ℕ) (reservationId : String) (result : SettleResult)
  | settleHeld (i : ℕ)
  | settlePending (i : ℕ)
  | settleReturn (i : ℕ)
  | refundHeld (reservationId : String)
  | refundPending (reservationId : String)
  | answerRead (i : ℕ) (ask : AnswerAsk)
  | answerDecide (i : ℕ)
  | answerInstall (i : ℕ)
  | answerReturn (i : ℕ)
  /-- The call throws, or its process dies. -/
  | fail (i : ℕ)
  | drainNothing
  | drainBegin
  | drain
  | drainThrow

namespace World

variable (w : World)

def events : List Event := w.file.events

def setCall (i : ℕ) (call : Call) : World := { w with calls := Function.update w.calls i call }

/-- `appendWorkflowEvent`, when it returns. -/
def append (event : Event) : Option World :=
  match w.file.append event with
  | .ok file => some { w with file, returned := w.returned ++ file.lines.getLast?.toList }
  | .error _ => none

/-- `applySettle`, with the events it knows. -/
def applySettle (known : List Event) (settle : Settle) : Option World :=
  if known.any (records (.settle settle.reservationId)) then some w else w.append (.settle settle)

def drainStep (due : List Ack) : Drain → Option World
  | .folding (name :: names) events =>
    match w.pending[name]? with
    | none => some { w with holder := .draining due (.folding names events) }
    | some settle =>
      (w.applySettle events settle).map fun w => { w with holder := .draining due (.folded name names) }
  | .folded name names =>
    match w.file.read with
    | .ok events => some { w with
        pending := w.pending.erase name
        holder := .draining due (.folding names (events.map Stored.event)) }
    | .error _ => none
  | .folding [] events =>
    some { w with holder := .draining due (.answering (unconsumedGateRounds w.rounds events) events) }
  | .answering (r :: rounds) events =>
    (w.append (.gateAnswer r.payload)).map fun w =>
      { w with holder := .draining due (.answering rounds (events ++ [.gateAnswer r.payload])) }
  | .answering [] _ => some { w with holder := .held, collected := w.collected ++ due }

def act : Act → Option World
  | .take =>
    match w.holder with
    | .free => some { w with holder := .held }
    | _ => none
  | .release =>
    match w.holder with
    | .held => some { w with holder := .free }
    | _ => none
  | .crash torn =>
    if torn = [] then some { w with holder := .free }
    else if w.file.tail = [] && !torn.contains '\n' then
      match w.holder with
      | .free => none
      | _ => some { w with holder := .free, file := { w.file with tail := torn } }
    else none
  | .truncate =>
    match w.holder with
    | .held => some { w with file := w.file.truncate }
    | _ => none
  | .append event =>
    match w.holder, event with
    | .held, .settle _ => none
    | .held, .gateAnswer _ => none
    | .held, event => w.append event
    | _, _ => none
  | .settleRead i reservationId result =>
    match w.calls i, w.file.read with
    | .idle, .ok events =>
      match settleOf (events.map Stored.event) reservationId result with
      | some settle => some (w.setCall i (.settling settle))
      | none => some (w.setCall i .refused)
    | _, _ => none
  | .settleHeld i =>
    match w.holder, w.calls i, w.file.read with
    | .held, .settling settle, .ok known =>
      (w.applySettle (known.map Stored.event) settle).map fun w => w.setCall i (.applied settle.reservationId)
    | _, _, _ => none
  | .settlePending i =>
    match w.calls i with
    | .settling settle =>
      some { w.setCall i (.applied settle.reservationId) with pending := w.pending.insert settle.reservationId settle }
    | _ => none
  | .settleReturn i =>
    match w.calls i with
    | .applied reservationId => some { w.setCall i .returned with acked := w.acked ++ [.settle reservationId] }
    | _ => none
  | .refundHeld reservationId =>
    match w.holder, w.file.read with
    | .held, .ok events =>
      if (events.map Stored.event).any (Event.reserves reservationId) then
        w.applySettle (events.map Stored.event) (refund reservationId)
      else none
    | _, _ => none
  | .refundPending reservationId => some { w with pending := w.pending.insert reservationId (refund reservationId) }
  | .answerRead i ask =>
    match w.calls i, w.file.read with
    | .idle, .ok events => some (w.setCall i (.answering ask events))
    | _, _ => none
  | .answerDecide i =>
    match w.calls i with
    | .answering ask events =>
      match nextRound events w.rounds ask with
      | .ok round => some (w.setCall i (.installing round))
      | .error _ => some (w.setCall i .refused)
    | _ => none
  | .answerInstall i =>
    match w.calls i with
    | .installing round =>
      if w.rounds.any fun r => r.key = round.key then some (w.setCall i .refused)
      else some { w.setCall i (.installed round) with rounds := w.rounds ++ [round] }
    | _ => none
  | .answerReturn i =>
    match w.calls i with
    | .installed round => some { w.setCall i .returned with acked := w.acked ++ [.answer round.key] }
    | _ => none
  | .fail i => some (w.setCall i .refused)
  | .drainNothing =>
    match w.holder with
    | .held =>
      if w.pending.isEmpty && w.rounds.isEmpty then some { w with collected := w.collected ++ w.acked } else none
    | _ => none
  | .drainBegin =>
    match w.holder, w.file.read with
    | .held, .ok events =>
      some { w with holder := .draining w.acked (.folding w.pending.keys (events.map Stored.event)) }
    | _, _ => none
  | .drain =>
    match w.holder with
    | .draining due drain => w.drainStep due drain
    | _ => none
  | .drainThrow =>
    match w.holder with
    | .draining _ _ => some { w with holder := .held }
    | _ => none

end World

/-! ### What is asked of a run -/

/-- The acknowledged is on the ledger. -/
def OnLedger (events : List Event) (ack : Ack) : Prop := ∃ e ∈ events, records ack e = true

/-- The acknowledged waits as a file. -/
def Waits (w : World) : Ack → Prop
  | .settle reservationId => reservationId ∈ w.pending
  | .answer key => ∃ r ∈ w.rounds, r.key = key

/-- The ledger takes each settle and each answer exactly once and loses none. -/
structure Exactly (w : World) : Prop where
  numbered : LedgerFile.Numbered w.file.lines
  /-- An event whose append returned stays at its number. -/
  returned : ∀ stored ∈ w.returned, 0 < stored.seq ∧ w.file.lines[stored.seq - 1]? = some stored
  /-- No reservation has two settles, and no round two answers. -/
  once : ∀ ack, w.events.countP (records ack) ≤ 1
  /-- What was acknowledged is on the ledger, or waits to be folded in. -/
  kept : ∀ ack ∈ w.acked, OnLedger w.events ack ∨ Waits w ack
  /-- What was acknowledged before a completed drain began is on the ledger. -/
  collected : ∀ ack ∈ w.collected, OnLedger w.events ack

end Forgent.Workflow.Inbox
