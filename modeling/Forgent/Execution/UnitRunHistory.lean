import Mathlib.Data.Nat.Notation

/-!
# What a Unit run has settled

Each seat of each round of a Unit run has its attempts: the record of `unit.json`, and the directory of the attempt with
the runs that were launched from it.  A controller that takes the Unit run up reads a history off the directories, less
what its records say must be asked again.

* `Result`: what a seat answered, in the vocabulary of the patterns.
* `Attempt`, `finalOf`: the attempts of a seat in a round, and the result that is read back of them.
* `rebinds`, `pending`, `historyOf`: what a controller stands on.
-/

namespace Forgent.Execution

inductive Outcome where
  | pass
  | findings
  | executionFailure
  | policyRefusal
  | providerLimit
  | blocked
  deriving DecidableEq

/-- `ERROR_OUTCOMES`: the outcomes of a seat that did not finish its job. -/
def Outcome.isError (outcome : Outcome) : Bool := outcome != .pass && outcome != .findings

/-- What the patterns read of the classification of a run's result. -/
structure Classification where
  /-- The confidence level is `no-evidence`. -/
  noEvidence : Bool
  /-- The verdict is `inconclusive`. -/
  inconclusive : Bool
  failure : Bool
  deriving DecidableEq

/-- A seat of a round. -/
abbrev Key := String × ℕ

structure Result where
  seat : String
  round : ℕ
  outcome : Outcome
  classification : Option Classification
  findings : List String
  deriving DecidableEq

/-! ### Attempts -/

/-- What `result.json` says: its outcome, and its classification. -/
structure Settled where
  outcome : Outcome
  classification : Option Classification
  deriving DecidableEq

inductive RunState where
  | running
  /-- Closed without a result. -/
  | abandoned
  /-- Closed with a result, which may be unreadable. -/
  | settled (result : Option Settled)
  deriving DecidableEq

/-- A launch of a seat. -/
structure Run where
  /-- How many launches of the producer had ended when it started. -/
  after : ℕ
  state : RunState
  deriving DecidableEq

/-- The runner's commit of what a writing seat left. -/
inductive Commit where
  | none
  | made
  | pending
  | failed
  deriving DecidableEq

structure Attempt where
  outcome : Option Outcome
  /-- The dispatch it is recorded for was admitted. -/
  admitted : Bool
  commit : Commit
  runs : List Run
  deriving DecidableEq

def Attempt.fresh : Attempt := ⟨none, false, .none, []⟩

/-- The results the attempt's directory holds, in the order of the runs. -/
def Attempt.results (a : Attempt) : List (Option Settled) :=
  a.runs.filterMap fun run =>
    match run.state with
    | .settled result => some result
    | _ => none

/-- `readSeatDirectory`: of a seat's round, the highest fallback with a settled run is selected, and of it the latest
settled run; one that can not be read is ignored. -/
def finalOf (attempts : List Attempt) : Option Settled :=
  (attempts.filter fun a => !a.results.isEmpty).getLast?.bind fun a => a.results.getLast?.join

def commitPending (a : Attempt) : Bool := a.commit == .pending || a.commit == .failed

/-- `leftByDeadController`: a controller went away before it recorded the outcome of a run. -/
def leftByDeadController (a : Attempt) : Bool := a.outcome.isNone && !a.runs.isEmpty

/-- Whether a resume binds the seat again. -/
def rebinds (attempts : List Attempt) : Bool :=
  attempts.getLast?.any fun a => a.outcome.any Outcome.isError && !commitPending a

/-- Whether the record keeps a result from being stood on. -/
def pending (attempts : List Attempt) : Bool :=
  attempts.getLast?.any fun a => commitPending a || leftByDeadController a

/-- `historyOf`, of one seat and round: there is one result of each at most. -/
def historyOf (key : Key) (attempts : List Attempt) : Option Result :=
  if pending attempts || rebinds attempts then none
  else (finalOf attempts).map fun settled => ⟨key.1, key.2, settled.outcome, settled.classification, []⟩

end Forgent.Execution
