import Forgent.Exclusion
import Std.Data.String.ToNat

/-!
# Run admission

`admitRunAttempt` of `src/runner/dispatch/run-admission.mjs`, over `publishNextGeneration` of
`src/run-supervisor/run-lock.mjs`.  A call takes one step for each file it reads or writes and for each process it asks about.
The admission ledger of an assignment holds numbered records, each installed once under the next number; nothing else
numbers or writes them.
-/

namespace Forgent.Admission

/-! ### The files of an assignment -/

/-- A generation of the admission ledger.  A process is a number; it never comes back once it is gone. -/
structure Record where
  attempt : ℕ
  attemptStr : String
  runId : String
  retryId : Option String
  predecessorRunId : Option String
  destination : String
  admissionPayloadDigest : String
  admittedBy : ℕ
deriving DecidableEq

/-- What admission reads back of a `run.json`, and its text. -/
structure RunMeta where
  retryId : Option String
  payloadDigest : Option String
  text : String
deriving DecidableEq

/-- The files of an attempt as its builders give them. -/
structure Built where
  runMeta : RunMeta
  dispatchPlan : Option String
  effectiveContract : Option String
deriving DecidableEq

/-- The latest generation of a run's control. -/
structure Control where
  controlEpoch : ℕ
  holder : ℕ
  settled : Bool
deriving DecidableEq

/-- An attempt directory: what it was published with, `result.json`, its control with the release markers, and whether its
supervisor works, which a directory without an envelope never had. -/
structure RunDir where
  built : Built
  result : Bool
  control : Option Control
  released : List ℕ
  supervisor : Option Bool
deriving DecidableEq

/-- A staging directory.  One that is named without a process has no owner. -/
structure Staging where
  attemptStr : String
  owner : Option ℕ
  runMeta : Option RunMeta
  dispatchPlan : Option String
  effectiveContract : Option String
deriving DecidableEq

/-- The files of an assignment, and the processes that are gone.  `stamp` makes the next unique name; `takeups` counts, for each
attempt, how often its control was taken or its supervisor started, and `looked` keeps that count as it was when the call that
admitted the next attempt looked at this one: the code has neither. -/
structure Disk where
  generations : List Record
  aborted : String → Bool
  runs : String → Option RunDir
  stagings : ℕ → Option Staging
  stamp : ℕ
  dead : ℕ → Bool
  takeups : String → ℕ
  looked : String → ℕ

/-- The highest number whose file name has the ten digits that a listing looks for. -/
def maxListed : ℕ := 9999999999

def Disk.listGenerations (disk : Disk) : List Record := disk.generations.take maxListed

/-- `installOnce` of the generation with a number. -/
def Disk.install (disk : Disk) (epoch : ℕ) (record : Record) : Option Disk :=
  if epoch ≤ disk.generations.length then none else some { disk with generations := disk.generations ++ [record] }

/-! ### Names -/

/-- `String(attempt).padStart(2, '0')`. -/
def attemptStr (attempt : ℕ) : String := if attempt < 10 then "0" ++ attempt.repr else attempt.repr

def runIdOf (assignmentId attemptStr : String) : String := "run_" ++ assignmentId ++ "_" ++ attemptStr

def normalizeDigest (digest : Option String) : Option String :=
  digest.bind fun d => if d = "" then none else if d.startsWith "sha256:" then some (d.drop 7).toString else some d

/-! ### A call -/

/-- The arguments of a call, with the process that makes it. -/
structure Args where
  assignmentId : String
  retryId : Option String
  predecessorRunId : Option String
  destination : String
  payloadDigest : String
  expectedRunId : Option String
  refuseIfSettled : Bool
  build : Record → Built
  self : ℕ

inductive Answer where
  | aborted
  | duplicateRetry
  | invalidPredecessor (currentRunId : Option String)
  | runInFlight (priorRunId : String)
  | runAlreadySettled (priorRunId : String)
  | attempt (record : Record) (resumed : Bool)
deriving DecidableEq

/-- What a call will install once it has judged the current attempt: the generations it listed, its record, and the takeups of
the current attempt when it looked. -/
structure Draft where
  listed : List Record
  record : Record
  look : ℕ
deriving DecidableEq

inductive Phase where
  | marker
  | listing
  | numbering (listed : List Record)
  | settled (listed : List Record) (record : Record)
  | control (draft : Draft) (current : Record)
  | releases (draft : Draft) (current : Record) (control : Control)
  | holder (draft : Draft) (current : Record) (control : Control)
  | admitter (draft : Draft) (current : Record)
  | supervisor (draft : Draft) (current : Record) (busy : Bool)
  | installing (draft : Draft)
  | placing (duplicate : Bool) (record : Record)
  | cleaning (record : Record)
  | staging (record : Record)
  | runMeta (record : Record) (name : ℕ)
  | dispatchPlan (record : Record) (name : ℕ)
  | effectiveContract (record : Record) (name : ℕ)
  | publishing (record : Record) (name : ℕ)
  | done (answer : Answer)
deriving DecidableEq

structure Call where
  args : Args
  phase : Phase

/-- What a step takes from outside.  `dead` and `stopped` are the answers about a process and about a supervisor.  `aborted`
and `retryIds` are the markers and run records as the call happens to read them one after the other, `listed` and `taken` the
attempt directories it sees, and `abandoned` the staging directory it turns to. -/
structure Input where
  dead : Bool
  stopped : Bool
  aborted : String → Bool
  retryIds : String → Option (Option String)
  listed : List ℕ
  taken : List ℕ
  abandoned : Option ℕ

def isGenerationValid (input : Input) (g : Record) : Bool :=
  match g.retryId with
  | none => true
  | some retryId => if retryId = "" then true else !input.aborted retryId || input.retryIds g.attemptStr == some (some retryId)

def currentValidRunId (input : Input) (generations : List Record) : Option String :=
  ((generations.filter (isGenerationValid input)).getLast?).map (·.runId)

/-- `while (exists(attempt)) attempt += 1`, one more time than there are taken numbers. -/
def nextFree (taken : List ℕ) : ℕ → ℕ → ℕ
  | 0, attempt => attempt
  | fuel + 1, attempt => if attempt ∈ taken then nextFree taken fuel (attempt + 1) else attempt

/-- The attempt number of a new generation. -/
def attemptNumber (input : Input) (listed : List Record) : ℕ :=
  let maxDir := (input.listed ++ listed.map (·.attempt)).foldl max 0
  nextFree input.taken input.taken.length (max (listed.length + 1) (maxDir + 1))

/-- The record a call tries to install. -/
def newRecord (args : Args) (attempt : ℕ) : Record :=
  ⟨attempt, attemptStr attempt, runIdOf args.assignmentId (attemptStr attempt), args.retryId, args.predecessorRunId,
    args.destination, args.payloadDigest, args.self⟩

/-- Whether a staging directory is abandoned by another call for this record. -/
def isAbandoned (input : Input) (record : Record) (s : Staging) : Bool :=
  s.attemptStr = record.attemptStr && match s.owner with
    | none => true
    | some _ => input.dead && s.runMeta.any fun m =>
      m.retryId = record.retryId && normalizeDigest m.payloadDigest = normalizeDigest (some record.admissionPayloadDigest)

def Disk.setStaging (disk : Disk) (name : ℕ) (s : Option Staging) : Disk :=
  { disk with stagings := fun n => if n = name then s else disk.stagings n }

def Disk.setRun (disk : Disk) (attemptStr : String) (d : RunDir) : Disk :=
  { disk with runs := fun n => if n = attemptStr then some d else disk.runs n }

/-- The directory that a rename publishes: all that the staging directory holds. -/
def Staging.published (s : Staging) : Option RunDir :=
  s.runMeta.map fun runMeta => ⟨⟨runMeta, s.dispatchPlan, s.effectiveContract⟩, false, none, [], none⟩

/-- The decision of one round of `publishNextGeneration`, up to its first look at the current attempt. -/
def decision (args : Args) (input : Input) (listed : List Record) : Phase :=
  if args.retryId.isSome ∧ args.predecessorRunId ≠ currentValidRunId input listed then
    .done (.invalidPredecessor (currentValidRunId input listed))
  else
    let record := newRecord args (attemptNumber input listed)
    if args.expectedRunId.any fun expected => record.runId ≠ expected then
      .done (.invalidPredecessor (currentValidRunId input listed))
    else .settled listed record

/-- The generation that a retry id is bound to, and what it means for a call with that id. -/
def priorFor (args : Args) (listed : List Record) : Option Phase :=
  args.retryId.bind fun retryId => (listed.find? fun g => g.retryId = some retryId).map fun prior =>
    if prior.destination = args.destination ∧ prior.admissionPayloadDigest = args.payloadDigest then .placing true prior
    else .done .duplicateRetry

/-- The control of an attempt, which an attempt without a directory has not. -/
def Disk.control (disk : Disk) (g : Record) : Option Control := (disk.runs g.attemptStr).bind (·.control)

/-- Whether there is a release marker of a control generation. -/
def Disk.released (disk : Disk) (g : Record) (controlEpoch : ℕ) : Bool :=
  (disk.runs g.attemptStr).any fun d => controlEpoch ∈ d.released

/-- `isSupervisedAttemptStillWorking`, where a probe that cannot run is one that does not say that the supervisor stopped. -/
def stillWorking (input : Input) (disk : Disk) (g : Record) : Bool :=
  ((disk.runs g.attemptStr).bind (·.supervisor)).isSome && !input.stopped

/-- One step of `admitRunAttempt`. -/
def next (input : Input) (disk : Disk) (args : Args) : Phase → Option (Disk × Phase)
  | .marker => some (disk, if args.retryId.any disk.aborted then .done .aborted else .listing)
  | .listing => some (disk, (priorFor args disk.listGenerations).getD (.numbering disk.listGenerations))
  | .numbering listed => some (disk, decision args input listed)
  | .settled listed record =>
    match listed.getLast? with
    | none => some (disk, .installing ⟨listed, record, 0⟩)
    | some current =>
      let draft : Draft := ⟨listed, record, disk.takeups current.attemptStr⟩
      if (disk.runs current.attemptStr).any (·.result) then
        some (disk, if args.refuseIfSettled then .done (.runAlreadySettled current.runId) else .installing draft)
      else some (disk, .control draft current)
  | .control draft current =>
    match disk.control current with
    | none => some (disk, .admitter draft current)
    | some control => some (disk, if control.settled then .supervisor draft current false else .releases draft current control)
  -- The marker of the generation that was read, whatever the current one is by now.
  | .releases draft current control =>
    some (disk, if disk.released current control.controlEpoch then .supervisor draft current false
      else .holder draft current control)
  | .holder draft current _ => some (disk, .supervisor draft current !input.dead)
  | .admitter draft current => some (disk, .supervisor draft current !input.dead)
  | .supervisor draft current busy =>
    some (disk, if busy || stillWorking input disk current then .done (.runInFlight current.runId) else .installing draft)
  | .installing draft =>
    match disk.install (draft.listed.length + 1) draft.record with
    | none => some (disk, .listing)
    | some installed => some ({ installed with
        looked := fun n => if (draft.listed.getLast?).any (·.attemptStr = n) then draft.look else disk.looked n },
        .placing false draft.record)
  | .placing duplicate record =>
    some (disk, if (disk.runs record.attemptStr).isSome ∧ duplicate then .done (.attempt record true) else .cleaning record)
  | .cleaning record =>
    match input.abandoned with
    | none => some (disk, .staging record)
    | some name =>
      match disk.stagings name with
      | none => some (disk, .cleaning record)
      | some s => some (if isAbandoned input record s then disk.setStaging name none else disk, .cleaning record)
  | .staging record =>
    some ({ disk.setStaging disk.stamp (some ⟨record.attemptStr, some args.self, none, none, none⟩) with stamp := disk.stamp + 1 },
      .runMeta record disk.stamp)
  | .runMeta record name => (disk.stagings name).map fun s =>
    (disk.setStaging name (some { s with runMeta := some (args.build record).runMeta }), .dispatchPlan record name)
  | .dispatchPlan record name => (disk.stagings name).map fun s =>
    (disk.setStaging name (some { s with dispatchPlan := (args.build record).dispatchPlan }), .effectiveContract record name)
  | .effectiveContract record name => (disk.stagings name).map fun s =>
    (disk.setStaging name (some { s with effectiveContract := (args.build record).effectiveContract }), .publishing record name)
  | .publishing record name =>
    if (disk.runs record.attemptStr).isSome then some (disk.setStaging name none, .done (.attempt record true))
    else (disk.stagings name).bind fun s => s.published.map fun d =>
      ((disk.setStaging name none).setRun record.attemptStr d, .done (.attempt record false))
  | .done _ => none

/-! ### The world around the calls -/

/-- What may happen to an assignment beside its admissions: processes end, retry ids are aborted, and what follows an admission
happens to the attempt directories. -/
inductive Event where
  | ends (process : ℕ)
  | abort (retryId : String)
  | rewrite (attemptStr : String) (built : Built)
  | take (attemptStr : String) (holder : ℕ)
  | release (attemptStr : String)
  | settle (attemptStr : String)
  | result (attemptStr : String)
  | start (attemptStr : String)
  | stop (attemptStr : String)

/-- A run directory changes, when there is one. -/
def Disk.changeRun (disk : Disk) (attemptStr : String) (f : RunDir → RunDir) : Disk :=
  match disk.runs attemptStr with
  | none => disk
  | some d => disk.setRun attemptStr (f d)

def Disk.takeUp (disk : Disk) (attemptStr : String) (f : RunDir → RunDir) : Disk :=
  match disk.runs attemptStr with
  | none => disk
  | some d => { disk.setRun attemptStr (f d) with
      takeups := fun n => if n = attemptStr then disk.takeups n + 1 else disk.takeups n }

/-- The next control generation, which there is none of after a settlement. -/
def takeControl (holder : ℕ) (d : RunDir) : RunDir :=
  match d.control with
  | none => { d with control := some ⟨1, holder, false⟩ }
  | some c => if c.settled then d else { d with control := some ⟨c.controlEpoch + 1, holder, false⟩ }

def releaseControl (d : RunDir) : RunDir :=
  { d with released := d.control.elim d.released fun c => c.controlEpoch :: d.released }

def settleControl (d : RunDir) : RunDir :=
  { d with control := d.control.map fun c => ⟨c.controlEpoch + 1, c.holder, true⟩ }

def Disk.happen (disk : Disk) : Event → Disk
  | .ends process => { disk with dead := fun p => p = process || disk.dead p }
  | .abort retryId => { disk with aborted := fun r => r = retryId || disk.aborted r }
  | .rewrite n built => disk.changeRun n fun d => { d with built }
  | .take n holder => disk.takeUp n (takeControl holder)
  | .release n => disk.changeRun n releaseControl
  | .settle n => disk.changeRun n settleControl
  | .result n => disk.changeRun n fun d => { d with result := true }
  | .start n => disk.takeUp n fun d => { d with supervisor := some true }
  | .stop n => disk.changeRun n fun d => { d with supervisor := d.supervisor.map fun _ => false }

/-- The answers a step takes from outside are true. -/
def Input.Truthful (input : Input) (disk : Disk) : Phase → Prop
  | .holder _ _ control => input.dead = true → disk.dead control.holder = true
  | .admitter _ current => input.dead = true → disk.dead current.admittedBy = true
  | .supervisor _ current _ => input.stopped = true → ((disk.runs current.attemptStr).bind (·.supervisor)) ≠ some true
  | .cleaning _ => ∀ name ∈ input.abandoned, ∀ s, disk.stagings name = some s → ∀ p, s.owner = some p → input.dead = true →
      disk.dead p = true
  | _ => True

/-- Calls of any number of processes on one assignment, without a forced new attempt.  A process that is gone takes no step. -/
def admission (assignmentId : String) : Interleave Disk Call where
  begins k := k.args.assignmentId = assignmentId ∧ k.phase = if k.args.retryId.isSome then .marker else .listing
  step disk k disk' k' := ∃ input, input.Truthful disk k.phase ∧ disk.dead k.args.self = false ∧ k'.args = k.args ∧
    next input disk k.args k.phase = some (disk', k'.phase)
  around disk disk' := ∃ event, disk' = disk.happen event

/-- An assignment before its first admission. -/
def initial : Interleave.World Disk Call :=
  ⟨⟨[], fun _ => false, fun _ => none, fun _ => none, 0, fun _ => false, fun _ => 0, fun _ => 0⟩, []⟩

end Forgent.Admission
