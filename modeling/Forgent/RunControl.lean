import Forgent.Interleave

/-!
# Run control and settlement

`src/run-supervisor/run-lock.mjs` and `commitRunSettlement` of `src/runner/dispatch/settlement.mjs`.  A run has a directory
of numbered generation records, each installed once under its own name, release markers, and the result of the run.  A
call takes one step for each file operation: what a call reads in one step may have changed by its next one.
-/

namespace Forgent.RunControl

/-- A generation record. -/
structure Generation (Holder : Type) where
  controlToken : String
  holder : Option Holder
  purpose : String
  settledEpoch : Option ℕ
  acquiredAt : ℕ
deriving DecidableEq

/-- The files of a run.  A generation file that cannot be parsed has no content; `status` is that of `run.json`. -/
structure Disk (Holder Report : Type) where
  generations : List (ℕ × Option (Generation Holder))
  releases : List ℕ
  result : Option Report
  superseded : Option Report
  status : Option String
deriving DecidableEq

variable {Holder Report : Type}

/-- The highest epoch whose file name has the ten digits that a listing looks for. -/
def maxListed : ℕ := 9999999999

/-- `listGenerations`, in no particular order. -/
def listGenerations (disk : Disk Holder Report) : List (ℕ × Generation Holder) :=
  disk.generations.filterMap fun (epoch, content) => if epoch ≤ maxListed then content.map (epoch, ·) else none

/-- `currentGeneration`: the highest epoch that is listed. -/
def currentGeneration (disk : Disk Holder Report) : Option (ℕ × Generation Holder) :=
  (listGenerations disk).foldl (fun best g => if best.any fun b => g.1 ≤ b.1 then best else some g) none

def generationFile (disk : Disk Holder Report) (epoch : ℕ) : Option (Option (Generation Holder)) :=
  disk.generations.lookup epoch

/-- How `publishNextGeneration` goes on after it tried to install a record. -/
inductive Installed where
  | published
  | lost
  | unreadable
deriving DecidableEq

/-- `installOnce` of a generation record: the name is taken once. -/
def install (disk : Disk Holder Report) (epoch : ℕ) (record : Generation Holder) : Installed × Disk Holder Report :=
  match generationFile disk epoch with
  | none => (.published, { disk with generations := disk.generations ++ [(epoch, some record)] })
  | some (some _) => (.lost, disk)
  | some none => (.unreadable, disk)

/-! ### The calls -/

structure AcquireArgs (Holder : Type) where
  holder : Holder
  purpose : String
  expectedControlEpoch : Option (Option ℕ)
  ttlMs : Option ℕ
  now : ℕ
deriving DecidableEq

inductive AcquireOutcome (Holder : Type) where
  | acquired (controlEpoch : ℕ) (controlToken : String)
  | held (controlEpoch : ℕ) (holder : Option Holder)
  | stale (controlEpoch : Option ℕ)
  | settled (controlEpoch : ℕ)
  | unreadable
deriving DecidableEq

inductive Acquiring (Holder : Type) where
  | reading
  | marker (epoch : ℕ) (current : Generation Holder)
  | probing (epoch : ℕ) (current : Generation Holder)
  | installing (epoch : ℕ) (record : Generation Holder)
  | done (outcome : AcquireOutcome Holder)
deriving DecidableEq

inductive ReleaseOutcome where
  | unknownGeneration
  | tokenMismatch
  | released
  | alreadyReleased
deriving DecidableEq

inductive Releasing where
  | reading
  | publishing
  | done (outcome : ReleaseOutcome)
deriving DecidableEq

inductive SettleOutcome where
  | settled (controlEpoch : ℕ)
  | superseded (controlEpoch : Option ℕ)
  | alreadySettled (controlEpoch : ℕ)
  | unreadable
deriving DecidableEq

inductive Settling (Holder : Type) where
  | reading
  | installing (epoch : ℕ) (record : Generation Holder)
  | done (outcome : SettleOutcome)
deriving DecidableEq

/-- How a commit ends: `rehydrated` answers with the result that is there, `refused` and `unreadable` throw. -/
inductive CommitOutcome where
  | committed
  | rehydrated
  | refused
  | unreadable
deriving DecidableEq

inductive Committing (Holder : Type) where
  | reading
  | checking
  | settling (phase : Settling Holder)
  | publishing (alreadySettledByUs : Bool)
  | rereading
  | marking
  | stamping
  | refusing
  | done (outcome : CommitOutcome)
deriving DecidableEq

inductive Call (Holder Report : Type) where
  | acquire (args : AcquireArgs Holder) (phase : Acquiring Holder)
  | release (controlEpoch : ℕ) (controlToken : String) (phase : Releasing)
  | settle (controlEpoch : ℕ) (controlToken : String) (phase : Settling Holder)
  | commit (controlEpoch : ℕ) (controlToken : String) (runResult : Report) (phase : Committing Holder)
deriving DecidableEq

/-- What a step takes from outside: a new token, the time, and what `resolveHolderLiveness` answers. -/
structure Input where
  token : String
  now : ℕ
  dead : Bool

/-- The record of a new holder. -/
def acquisition (input : Input) (args : AcquireArgs Holder) : Generation Holder :=
  ⟨input.token, some args.holder, args.purpose, none, args.now⟩

/-- One step of `acquireRunControl`. -/
def acquireNext (input : Input) (disk : Disk Holder Report) (args : AcquireArgs Holder) :
    Acquiring Holder → Option (Disk Holder Report × Acquiring Holder)
  | .reading =>
    let current := currentGeneration disk
    if args.expectedControlEpoch.any fun expected => current.map Prod.fst ≠ expected then
      some (disk, .done (.stale (current.map Prod.fst)))
    else match current with
      | none => some (disk, .installing 1 (acquisition input args))
      | some (epoch, g) =>
        if g.purpose = "settled" then some (disk, .done (.settled epoch)) else some (disk, .marker epoch g)
  | .marker epoch g =>
    if epoch ∈ disk.releases then some (disk, .installing (epoch + 1) (acquisition input args))
    -- A fresh heartbeat only spares the probe.
    else if args.ttlMs.any fun ttl => args.now ≤ g.acquiredAt + ttl then some (disk, .done (.held epoch g.holder))
    else some (disk, .probing epoch g)
  | .probing epoch g =>
    if input.dead then some (disk, .installing (epoch + 1) (acquisition input args))
    else some (disk, .done (.held epoch g.holder))
  | .installing epoch record =>
    match install disk epoch record with
    | (.published, disk) => some (disk, .done (.acquired epoch record.controlToken))
    | (.lost, disk) => some (disk, .reading)
    | (.unreadable, disk) => some (disk, .done .unreadable)
  | .done _ => none

/-- One step of `releaseRunControl`. -/
def releaseNext (disk : Disk Holder Report) (controlEpoch : ℕ) (controlToken : String) :
    Releasing → Option (Disk Holder Report × Releasing)
  | .reading =>
    match (generationFile disk controlEpoch).join with
    | none => some (disk, .done .unknownGeneration)
    | some g => if g.controlToken ≠ controlToken then some (disk, .done .tokenMismatch) else some (disk, .publishing)
  | .publishing =>
    if controlEpoch ∈ disk.releases then some (disk, .done .alreadyReleased)
    else some ({ disk with releases := disk.releases ++ [controlEpoch] }, .done .released)
  | .done _ => none

/-- The record that settles a generation. -/
def settlement (Holder : Type) (controlEpoch : ℕ) (controlToken : String) (now : ℕ) : Generation Holder :=
  ⟨controlToken, none, "settled", some controlEpoch, now⟩

/-- One step of `settleRunControl`. -/
def settleNext (input : Input) (disk : Disk Holder Report) (controlEpoch : ℕ) (controlToken : String) :
    Settling Holder → Option (Disk Holder Report × Settling Holder)
  | .reading =>
    match currentGeneration disk with
    | none => some (disk, .done (.superseded none))
    | some (epoch, g) =>
      if epoch ≠ controlEpoch ∨ g.controlToken ≠ controlToken then some (disk, .done (.superseded (some epoch)))
      else if g.purpose = "settled" then some (disk, .done (.alreadySettled epoch))
      else some (disk, .installing (epoch + 1) (settlement Holder controlEpoch controlToken input.now))
  | .installing epoch record =>
    match install disk epoch record with
    | (.published, disk) => some (disk, .done (.settled epoch))
    | (.lost, disk) => some (disk, .reading)
    | (.unreadable, disk) => some (disk, .done .unreadable)
  | .done _ => none

def settles (controlEpoch : ℕ) (controlToken : String) (g : Generation Holder) : Bool :=
  g.purpose = "settled" && g.controlToken = controlToken && g.settledEpoch = some controlEpoch

def isRunControlCurrent (disk : Disk Holder Report) (controlEpoch : ℕ) (controlToken : String) : Bool :=
  (currentGeneration disk).any fun (epoch, g) => epoch = controlEpoch && g.controlToken = controlToken

/-- One step of `commitRunSettlement`; `intact` is what `interpretRunResult` says of a result that is there. -/
def commitNext (intact : Report → Bool) (input : Input) (disk : Disk Holder Report) (controlEpoch : ℕ) (controlToken : String)
    (runResult : Report) : Committing Holder → Option (Disk Holder Report × Committing Holder)
  | .reading =>
    if (currentGeneration disk).any fun (_, g) => settles controlEpoch controlToken g then some (disk, .publishing true)
    else some (disk, .checking)
  | .checking =>
    if isRunControlCurrent disk controlEpoch controlToken then some (disk, .settling .reading) else some (disk, .refusing)
  | .settling (.done (.settled _)) => some (disk, .publishing false)
  | .settling (.done .unreadable) => some (disk, .done .unreadable)
  | .settling (.done _) => some (disk, .refusing)
  | .settling phase => (settleNext input disk controlEpoch controlToken phase).map fun (disk, phase) => (disk, .settling phase)
  | .publishing alreadySettledByUs =>
    if disk.result.isNone then some ({ disk with result := some runResult }, .marking)
    else if alreadySettledByUs then some (disk, .rereading)
    else some (disk, .refusing)
  | .rereading => if disk.result.any intact then some (disk, .done .rehydrated) else some (disk, .refusing)
  | .marking =>
    if disk.status = none ∨ disk.status = some "settled" then some (disk, .done .committed) else some (disk, .stamping)
  | .stamping => some ({ disk with status := some "settled" }, .done .committed)
  | .refusing => some ({ disk with superseded := some runResult }, .done .refused)
  | .done _ => none

/-- One step of a call. -/
def next (intact : Report → Bool) (input : Input) (disk : Disk Holder Report) :
    Call Holder Report → Option (Disk Holder Report × Call Holder Report)
  | .acquire args phase => (acquireNext input disk args phase).map fun (disk, phase) => (disk, .acquire args phase)
  | .release epoch token phase => (releaseNext disk epoch token phase).map fun (disk, phase) => (disk, .release epoch token phase)
  | .settle epoch token phase => (settleNext input disk epoch token phase).map fun (disk, phase) => (disk, .settle epoch token phase)
  | .commit epoch token runResult phase =>
    (commitNext intact input disk epoch token runResult phase).map fun (disk, phase) => (disk, .commit epoch token runResult phase)

/-! ### The run of a run's control -/

/-- The files, and the holders whose process is gone. -/
structure Store (Holder Report : Type) where
  disk : Disk Holder Report
  dead : List Holder

/-- The holder that a call asks about next. -/
def Call.probed : Call Holder Report → Option Holder
  | .acquire _ (.probing _ g) => g.holder
  | _ => none

inductive Begins : Call Holder Report → Prop
  | acquire (args : AcquireArgs Holder) : Begins (.acquire args .reading)
  | release (controlEpoch : ℕ) (controlToken : String) : Begins (.release controlEpoch controlToken .reading)
  | settle (controlEpoch : ℕ) (controlToken : String) : Begins (.settle controlEpoch controlToken .reading)
  | commit (controlEpoch : ℕ) (controlToken : String) (runResult : Report) :
    Begins (.commit controlEpoch controlToken runResult .reading)

/-- Calls of any number of processes.  A holder is judged dead only when it is, and processes die at any time. -/
def control (intact : Report → Bool) : Interleave (Store Holder Report) (Call Holder Report) where
  begins := Begins
  step s k s' k' := ∃ input, (input.dead = true → ∃ h ∈ k.probed, h ∈ s.dead) ∧
    next intact input s.disk k = some (s'.disk, k') ∧ s'.dead = s.dead
  around s s' := s'.disk = s.disk ∧ ∃ h, s'.dead = h :: s.dead

/-- Before the first call: an admitted run with its status, and nothing else. -/
def initial (Holder Report : Type) (status : Option String) : Interleave.World (Store Holder Report) (Call Holder Report) :=
  ⟨⟨⟨[], [], none, none, status⟩, []⟩, []⟩

end Forgent.RunControl
