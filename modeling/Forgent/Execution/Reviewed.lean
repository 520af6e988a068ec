import Forgent.ActRun
import Forgent.Execution.UnitRunHistory
import Mathlib.Logic.Function.Basic

/-!
# The reviewed pattern

A producer works, checkers and a verify command judge what it left, and findings send it into another round.  A run of
the pattern may be cut anywhere and taken up again from what is on disk: a seat that passed in a round is not launched
again, and the verify command, which leaves no record, is run again.

* `isRoundSettledInHistory`, `assessRound`: what is made of the results of a round.
* `World`, `Act`, `World.act`: the attempts of the Unit, and its controller, step by step.
* `PassesLastWork`: what a pass is to say.
* `careful`: the steps that do not reach the defect.
-/

namespace Forgent.Execution.Reviewed

/-- The seat the verify command is reported as. -/
def verifySeat : String := "verify"

/-- A reviewed Unit: its seats, whether it has a verify command, and its rounds. -/
structure Plan where
  producer : String
  checkers : List String
  hasVerify : Bool
  maxRounds : ℕ
  maxRounds_pos : 0 < maxRounds
  nodup : (producer :: checkers).Nodup
  /-- The id is reserved. -/
  verify_not_mem : verifySeat ∉ producer :: checkers

namespace Plan

variable (plan : Plan)

def seats : List String := plan.producer :: plan.checkers

/-- The seats of a round that judge the producer's work. -/
def peers : List String := if plan.hasVerify then plan.checkers ++ [verifySeat] else plan.checkers

def rounds : List ℕ := (List.range plan.maxRounds).map (· + 1)

def keys : List Key := plan.seats.flatMap fun seat => plan.rounds.map fun r => (seat, r)

end Plan

/-! ### The results of a round -/

/-- A producer that claimed done and changed no files. -/
def changedNothing (res : Result) (producerSeat : String) : Bool :=
  res.seat = producerSeat && res.outcome = .executionFailure &&
    res.classification.any fun c => c.noEvidence && c.inconclusive && !c.failure

def endsRound (res : Result) (producerSeat : String) : Bool := res.outcome.isError && !changedNothing res producerSeat

def extractFindings (res : Result) : List String :=
  if res.findings ≠ [] then res.findings
  else if res.outcome = .findings then ["Seat " ++ res.seat ++ " reported findings"]
  else []

/-- The results a controller stands on, by seat and round. -/
abbrev History := Key → Option Result

/-- Every seat the round dispatches has a result, or its producer failed. -/
def isRoundSettledInHistory (plan : Plan) (r : ℕ) (history : History) : Bool :=
  match history (plan.producer, r) with
  | none => false
  | some producer => endsRound producer plan.producer || plan.peers.all fun seat => (history (seat, r)).isSome

/-- What a round decides. -/
structure Assessment where
  outcome : Outcome
  findings : List String
  deriving DecidableEq

def assessRound (results : List Result) (producerSeat : String) : Assessment :=
  match results.find? fun res => endsRound res producerSeat with
  | some error => ⟨error.outcome, []⟩
  | none =>
    let findings := results.flatMap fun res =>
      if res.outcome = .findings || (res.seat = verifySeat && res.outcome ≠ .pass) then extractFindings res else []
    ⟨if findings.isEmpty then .pass else .findings, findings⟩

def existingProducer (plan : Plan) (r : ℕ) (history : History) : Option Result :=
  (history (plan.producer, r)).filter fun h => h.outcome = .pass || changedNothing h plan.producer

/-- A recorded pass of a peer, which is reused. -/
def existingPass (seat : String) (r : ℕ) (history : History) : Option Result :=
  (history (seat, r)).filter fun h => h.outcome = .pass

/-! ### The controller and what it drives -/

/-- Where the launch of a seat is. -/
inductive Call where
  | binding
  /-- The attempt is recorded; `continuing` when its last dispatch was admitted and is taken up. -/
  | prepared (continuing : Bool)
  | launched
  /-- The attempt ended on a provider limit, or its brief was lost. -/
  | limited (result : Result)
  | returned (result : Result)
  deriving DecidableEq

/-- Where the verify command is. -/
inductive VerifyCall where
  | off
  | waiting
  | running (after : ℕ)
  | returned (result : Result)
  deriving DecidableEq

inductive Phase where
  /-- At the head of round `r`. -/
  | top
  /-- The producer of the round is being run. -/
  | producing
  /-- The checkers that are not reused, and the verify command, are being run. -/
  | peers (producer : Result)
  deriving DecidableEq

structure Controller where
  history : History
  round : ℕ
  phase : Phase
  calls : String → Option Call
  verify : VerifyCall
  allResults : List Result
  allFindings : List String

inductive Driver where
  | gone
  | running (c : Controller)
  | ended (outcome : Outcome) (rounds : ℕ) (results : List Result) (findings : List String)

/-- A verify command that passed. -/
structure Verified where
  round : ℕ
  after : ℕ
  deriving DecidableEq

structure World where
  attempts : Key → List Attempt
  /-- The rounds the producer was launched for, in the order of the launches. -/
  launches : List ℕ
  /-- How many of them have ended. -/
  ended : ℕ
  verified : List Verified
  driver : Driver
  /-- The seats whose result of a round was recorded as a pass. -/
  passed : List Key
  /-- Those of them that were launched for the round again. -/
  again : List Key

def World.initial : World where
  attempts := fun _ => []
  launches := []
  ended := 0
  verified := []
  driver := .gone
  passed := []
  again := []

inductive Act where
  /-- A controller starts the Unit run, or takes it up. -/
  | start
  /-- The controller goes away. -/
  | die
  /-- The controller comes to the round; `room` says whether its seats may be launched. -/
  | enter (room : Bool)
  | refuse (seat : String)
  /-- A commit that is pending is made, or fails again. -/
  | finishCommit (seat : String) (made : Bool)
  | prepare (seat : String)
  | dispatch (seat : String)
  /-- The launched agent ends. -/
  | close (key : Key) (state : RunState)
  /-- The commit of a writing seat's work begins. -/
  | commit (seat : String)
  /-- The outcome of the run is recorded; `refused` is what stands against a pass. -/
  | record (seat : String) (refused : Option Outcome) (briefLost : Bool)
  | retry (seat : String)
  | stop (seat : String) (refused : Bool)
  | produced
  | verifyStart
  | verifyEnd (pass : Bool) (findings : Option (List String))
  | conclude

def modifyLast {α : Type} (f : α → α) (l : List α) : List α := l.modify (l.length - 1) f

namespace Controller

variable (c : Controller)

def setCall (seat : String) (call : Call) : Controller :=
  { c with calls := Function.update c.calls seat (some call) }

def finish (outcome : Outcome) (rounds : ℕ) (findings : List String) : Driver :=
  .ended outcome rounds c.allResults findings

/-- `concludeRound`: an error ends the run; findings go on to the next round, or end the run at the last one; nothing
found passes. -/
def concludeRound (plan : Plan) (assessment : Assessment) : Driver :=
  if assessment.outcome.isError then c.finish assessment.outcome c.round c.allFindings
  else if assessment.findings = [] then c.finish .pass c.round []
  else
    let c := { c with allFindings := c.allFindings ++ assessment.findings }
    if plan.maxRounds ≤ c.round then c.finish .findings c.round c.allFindings
    else .running { c with round := c.round + 1, phase := .top, calls := fun _ => none, verify := .off }

/-- The round goes on to its checks: peers that passed are reused, and the others are run. -/
def check (plan : Plan) (producer : Result) : Driver :=
  .running { c with
    phase := .peers producer
    calls := fun seat =>
      if seat ∈ plan.checkers && (existingPass seat c.round c.history).isNone then some .binding else c.calls seat
    verify := if plan.hasVerify && (existingPass verifySeat c.round c.history).isNone then .waiting else .off }

def afterProducer (plan : Plan) (producer : Result) : Driver :=
  let c := { c with allResults := c.allResults ++ [producer] }
  if endsRound producer plan.producer then c.finish producer.outcome c.round c.allFindings
  else c.check plan producer

/-- A round that is whole in the history is judged by it. -/
def settledRound (plan : Plan) (producer : Result) : Driver :=
  let c := { c with allResults := c.allResults ++ [producer] }
  if endsRound producer plan.producer then c.finish producer.outcome c.round c.allFindings
  else
    let peers := plan.peers.filterMap fun seat => c.history (seat, c.round)
    let c := { c with allResults := c.allResults ++ peers }
    c.concludeRound plan (assessRound (producer :: peers) plan.producer)

def enter (plan : Plan) (room : Bool) : Driver :=
  if plan.maxRounds < c.round then
    c.finish (if c.allFindings.isEmpty then .pass else .findings) plan.maxRounds c.allFindings
  else
    match c.history (plan.producer, c.round), isRoundSettledInHistory plan c.round c.history with
    | some producer, true => c.settledRound plan producer
    | _, _ =>
      if 1 < c.round && !room then c.finish .findings (c.round - 1) c.allFindings
      else
        match existingProducer plan c.round c.history with
        | some producer => c.afterProducer plan producer
        | none => .running { c.setCall plan.producer .binding with phase := .producing }

/-- What a seat that was run has returned. -/
def returned? (seat : String) : Option Result :=
  match c.calls seat with
  | some (.returned result) => some result
  | _ => none

/-- The results of the checkers: those that are reused, then those that were run; none until all have ended. -/
def checkerResults (plan : Plan) : Option (List Result) := do
  let reused := plan.checkers.filterMap fun seat => existingPass seat c.round c.history
  let run ← (plan.checkers.filter fun seat => (existingPass seat c.round c.history).isNone).mapM c.returned?
  return reused ++ run

/-- The result of the verify command, if there is one. -/
def verifyResult (plan : Plan) : Option (List Result) :=
  match c.verify with
  | .off => some (if plan.hasVerify then (existingPass verifySeat c.round c.history).toList else [])
  | .returned result => some [result]
  | _ => none

/-- Every peer has ended, and the round is judged. -/
def conclude (plan : Plan) (producer : Result) : Option Driver := do
  let results := (← c.checkerResults plan) ++ (← c.verifyResult plan)
  let c := { c with allResults := c.allResults ++ results }
  return c.concludeRound plan (assessRound (producer :: results) plan.producer)

end Controller

namespace World

variable (plan : Plan) (w : World)

/-- A result that is only the refusal to run the seat. -/
def refused (key : Key) : Result := ⟨key.1, key.2, .policyRefusal, none, []⟩

def setAttempts (key : Key) (attempts : List Attempt) : World :=
  { w with attempts := Function.update w.attempts key attempts }

def drive (c : Controller) : World := { w with driver := .running c }

/-- The run of the seat that was launched last. -/
def lastRun (key : Key) : Option Run := (w.attempts key).getLast?.bind fun a => a.runs.getLast?

/-- Whether the agent of a seat still runs. -/
def isRunning (key : Key) : Bool := (w.lastRun key).any fun run => run.state = .running

/-- `assertAttemptsResumable`: no attempt a controller left behind still runs. -/
def resumable : Bool := plan.keys.all fun key => !w.isRunning key

def started : Controller where
  history := fun key => historyOf key (w.attempts key)
  round := 1
  phase := .top
  calls := fun _ => none
  verify := .off
  allResults := []
  allFindings := []

/-- A dispatch that was admitted and not abandoned is taken up. -/
def continues (key : Key) : Bool :=
  (w.attempts key).getLast?.any fun a =>
    a.outcome.isNone && a.admitted && a.runs.getLast?.any fun run => run.state ≠ .abandoned

/-- `runAttempt` before its dispatch: the attempt is recorded, and its outcome is taken off the record. -/
def prepared (key : Key) : World :=
  if rebinds (w.attempts key) || (w.attempts key).isEmpty then
    w.setAttempts key (w.attempts key ++ [.fresh])
  else if w.continues key then w
  else w.setAttempts key (modifyLast (fun a => { a with outcome := none, admitted := false }) (w.attempts key))

/-- The agent of the seat is launched. -/
def launch (key : Key) : World :=
  { w with
    attempts := Function.update w.attempts key
      (modifyLast (fun a => { a with admitted := true, runs := a.runs ++ [⟨w.ended, .running⟩] }) (w.attempts key))
    launches := if key.1 = plan.producer then w.launches ++ [key.2] else w.launches
    again := if key ∈ w.passed then w.again ++ [key] else w.again }

def read (key : Key) : Option Settled :=
  (w.lastRun key).bind fun run =>
    match run.state with
    | .settled result => some (result.getD ⟨.executionFailure, none⟩)
    | _ => none

/-- What is recorded: a pass may be refused, and a commit that can not be made fails it. -/
def recorded (isProducer : Bool) (settled : Settled) : Option Outcome → Option Outcome
  | none => some settled.outcome
  | some .policyRefusal => if settled.outcome = .pass then some .policyRefusal else none
  | some .executionFailure => if settled.outcome = .pass && isProducer then some .executionFailure else none
  | some _ => none

/-- What becomes of the commit. -/
def committed (isProducer : Bool) (settled : Settled) (outcome : Outcome) (a : Attempt) : Commit :=
  if settled.outcome = .pass && isProducer then
    match outcome with
    | .pass => .made
    | .executionFailure => .failed
    | _ => a.commit
  else a.commit

def setRecord (key : Key) (outcome : Outcome) (commit : Attempt → Commit) : World :=
  { w with
    attempts := Function.update w.attempts key
      (modifyLast (fun a => { a with outcome := some outcome, commit := commit a }) (w.attempts key))
    passed := if outcome = .pass then w.passed ++ [key] else w.passed }

def callStep (c : Controller) (seat : String) (call : Call) : Act → Option World
  | .refuse _ =>
    match call with
    | .binding => some (w.drive (c.setCall seat (.returned (refused (seat, c.round)))))
    | _ => none
  | .finishCommit _ made =>
    let key := (seat, c.round)
    match call, (w.attempts key).getLast? with
    | .binding, some a =>
      if commitPending a && seat = plan.producer then
        let outcome := if made then Outcome.pass else .executionFailure
        let classification := (finalOf (w.attempts key)).bind Settled.classification
        some ((w.setRecord key outcome fun _ => if made then .made else .failed).drive
          (c.setCall seat (.returned ⟨seat, c.round, outcome, classification, []⟩)))
      else none
    | _, _ => none
  | .prepare _ =>
    let key := (seat, c.round)
    match call with
    | .binding =>
      if (w.attempts key).getLast?.any commitPending then none
      else some ((w.prepared key).drive (c.setCall seat (.prepared (w.continues key))))
    | _ => none
  | .dispatch _ =>
    match call with
    | .prepared true => some (w.drive (c.setCall seat .launched))
    | .prepared false => some ((w.launch plan (seat, c.round)).drive (c.setCall seat .launched))
    | _ => none
  | .commit _ =>
    let key := (seat, c.round)
    match call, w.read key with
    | .launched, some settled =>
      if settled.outcome = .pass && seat = plan.producer then
        some (w.setAttempts key (modifyLast (fun a => { a with commit := .pending }) (w.attempts key)))
      else none
    | _, _ => none
  | .record _ refusal briefLost =>
    let key := (seat, c.round)
    match call, w.read key with
    | .launched, some settled =>
      (recorded (seat = plan.producer) settled refusal).map fun outcome =>
        let result : Result := ⟨seat, c.round, outcome, settled.classification, []⟩
        (w.setRecord key outcome (committed (seat = plan.producer) settled outcome)).drive
          (c.setCall seat (if outcome = .providerLimit || (briefLost && outcome ≠ .pass) then .limited result
            else .returned result))
    | _, _ => none
  | .retry _ =>
    let key := (seat, c.round)
    match call with
    | .limited _ =>
      some ((w.setAttempts key (w.attempts key ++ [.fresh])).drive (c.setCall seat (.prepared false)))
    | _ => none
  | .stop _ isRefused =>
    match call with
    | .limited result =>
      some (w.drive (c.setCall seat (.returned (if isRefused then refused (seat, c.round) else result))))
    | _ => none
  | _ => none

def loopStep (c : Controller) : Act → Option World
  | .enter room =>
    match c.phase with
    | .top => some { w with driver := c.enter plan room }
    | _ => none
  | .produced =>
    match c.phase, c.returned? plan.producer with
    | .producing, some producer => some { w with driver := c.afterProducer plan producer }
    | _, _ => none
  | .verifyStart =>
    match c.verify with
    | .waiting => some (w.drive { c with verify := .running w.ended })
    | _ => none
  | .verifyEnd pass findings =>
    match c.verify with
    | .running after =>
      let findings := findings.getD (if pass then [] else ["Verification failed"])
      some { w with
        verified := if pass then w.verified ++ [⟨c.round, after⟩] else w.verified
        driver := .running { c with
          verify := .returned ⟨verifySeat, c.round, if pass then .pass else .findings, none, findings⟩ } }
    | _ => none
  | .conclude =>
    match c.phase with
    | .peers producer => (c.conclude plan producer).map fun driver => { w with driver }
    | _ => none
  | _ => none

/-- The agent of a seat ends. -/
def closeRun (key : Key) (state : RunState) : World :=
  { w with
    attempts := Function.update w.attempts key
      (modifyLast (fun a => { a with runs := modifyLast (fun run => { run with state }) a.runs }) (w.attempts key))
    ended := if key.1 = plan.producer then w.ended + 1 else w.ended }

/-- The seat a step of a launch is about. -/
def seatOf : Act → Option String
  | .refuse seat | .finishCommit seat _ | .prepare seat | .dispatch seat | .commit seat | .record seat _ _ | .retry seat
  | .stop seat _ => some seat
  | _ => none

def act (a : Act) : Option World :=
  match a, w.driver with
  | .close key state, _ => if w.isRunning key && state ≠ .running then some (w.closeRun plan key state) else none
  | .start, .running _ => none
  | .start, _ => if w.resumable plan then some (w.drive w.started) else none
  | .die, .running _ => some { w with driver := .gone }
  | a, .running c =>
    match seatOf a with
    | some seat =>
      match c.calls seat with
      | some call => w.callStep plan c seat call a
      | none => none
    | none => w.loopStep plan c a
  | _, _ => none

end World

/-! ### What is asked of a run -/

/-- The seat passed in the round, in a run that started after every launch of the producer had ended. -/
def SeatPassesLastWork (w : World) (key : Key) : Prop :=
  ∃ a run settled, (w.attempts key).getLast? = some a ∧ a.outcome = some .pass ∧ a.runs.getLast? = some run ∧
    run.state = .settled (some settled) ∧ settled.outcome = .pass ∧ w.launches.length ≤ run.after

/-- Every checker passed in the round, and so did the verify command, started after the last work of the producer. -/
def PassesLastWork (plan : Plan) (w : World) (r : ℕ) : Prop :=
  (∀ seat ∈ plan.checkers, SeatPassesLastWork w (seat, r)) ∧
    (plan.hasVerify = true → ∃ v ∈ w.verified, v.round = r ∧ w.launches.length ≤ v.after)

/-- A pass is a pass of the last work, and no seat whose pass of a round is on record is launched for it again. -/
structure PassHolds (plan : Plan) (w : World) : Prop where
  pass : ∀ rounds results findings, w.driver = .ended .pass rounds results findings → ∃ r, PassesLastWork plan w r
  again : w.again = []

/-- The launch of a seat in a round that a resume stands on: its pass is on record, or its outcome was not read yet. -/
def standing (attempts : List Attempt) : Option Run :=
  attempts.getLast?.bind fun a =>
    if a.outcome = some .pass || (a.outcome.isNone && a.admitted) then
      a.runs.getLast?.filter fun run => run.state ≠ .abandoned
    else none

/-- An attempt that was recorded and not launched. -/
def unlaunched (attempts : List Attempt) : Bool := attempts.getLast?.any fun a => a.outcome.isNone && a.runs.isEmpty

/-- The steps that do not reach the defect: a producer is launched for a round only while no checker launch of that round
or a later one stands; a round that is not whole in the history is taken up only if no producer of a later round was
launched since a checker launch of it that stands; and no resume finds a checker attempt that was recorded and not
launched behind a pass that was refused. -/
def careful (plan : Plan) (w : World) (a : Act) : Bool :=
  match a, w.driver with
  | .dispatch seat, .running c =>
    !(seat = plan.producer && c.calls seat = some (.prepared false)) ||
      plan.checkers.all fun checker => plan.rounds.all fun r =>
        r < c.round || (standing (w.attempts (checker, r))).isNone
  | .enter _, .running c =>
    isRoundSettledInHistory plan c.round c.history ||
      plan.checkers.all fun checker => (standing (w.attempts (checker, c.round))).all fun run =>
        (w.launches.drop run.after).all fun r => r ≤ c.round
  | .start, _ =>
    plan.checkers.all fun checker => plan.rounds.all fun r =>
      !unlaunched (w.attempts (checker, r)) || (finalOf (w.attempts (checker, r))).all fun settled => settled.outcome ≠ .pass
  | _, _ => true

end Forgent.Execution.Reviewed
