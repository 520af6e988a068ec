import Forgent.Workflow.AdmissionPort

/-!
# The worktree bindings of cases

Which case owns which worktree: one record file for each worktree.  A worktree is named by the identity of its root, as
its record file is, so that every spelling of one directory is one name.  Creating the file exclusively is the mutex
between cases; the `advance` of a case orders the operations of that case, which take one durable step at a time and may
stop behind any of them.

* `Record`, `readBinding`, `nextGeneration`: the record files and what is read from them.
* `Task`, `World.perform`: the steps of an operation.
* `Op`, `World.tasks`: the operations.
* `Act`, `World.act`: any number of cases.
-/

namespace Forgent.Workflow.CaseBindings

open WriteScope (WriteScopeError)

/-! ### Records -/

structure Record where
  caseId : String
  generation : ℕ
  committed : Bool
  deriving DecidableEq

/-- What a process sees: whether the worktree is there, and whether the bindings directory is the real one. -/
inductive View where
  | missing
  /-- A confined worker sees the directory masked. -/
  | masked
  /-- A nested caller sees the real directory without a sentinel, and may not write one. -/
  | unmarked
  | marked
  deriving DecidableEq

def answerOf (record : Record) (caseId : String) : BindingAnswer :=
  if !record.committed then .bindingUnsettled
  else if record.caseId ≠ caseId then .worktreeAlreadyBound
  else .bound

/-- What the binding of a worktree is, for a case.  A missing file is the only answer that means `unbound`. -/
def readBinding (records : Table Record) (view : View) (caseId worktree : String) : Answered :=
  match view with
  | .missing => ⟨.worktreeMissing, none⟩
  | .masked => ⟨.bindingViewUnavailable, none⟩
  | .unmarked =>
    match records[worktree]? with
    | none => ⟨.bindingViewUnavailable, none⟩
    | some record => ⟨answerOf record caseId, some record.caseId⟩
  | .marked =>
    match records[worktree]? with
    | none => ⟨.unbound, none⟩
    | some record => ⟨answerOf record caseId, some record.caseId⟩

def generationOf (caseId : String) : Event → Option ℕ
  | .binding p => if p.caseId = caseId then some p.generation else none
  | _ => none

/-- One past the highest generation the ledger has recorded. -/
def nextGeneration (events : List Event) (caseId : String) : ℕ :=
  (events.filterMap (generationOf caseId)).foldl max 0 + 1

/-- An event that records a binding of this generation; it may be a binding of another worktree. -/
def recordsBound (caseId : String) (generation : ℕ) : Event → Bool
  | .binding p => p.caseId == caseId && p.generation == generation && p.state == .bound
  | _ => false

/-! ### Steps -/

structure Made where
  worktree : String
  generation : ℕ
  deriving DecidableEq

/-- What an admission does when the worktree is bound: the events it appends, and the reservation whose file it writes. -/
structure Reserving where
  events : List Event
  reservationId : String

/-- A step of an operation under `advance`.  What was read before is carried along. -/
inductive Task where
  /-- `bindWorktree` reads the record and the ledger. -/
  | bind (view : View) (worktree : String) (behind : Option Reserving)
  /-- The exclusive create of the pending record. -/
  | create (worktree : String) (generation : ℕ) (behind : Option Reserving)
  | record (worktree : String) (generation : ℕ) (behind : Option Reserving)
  /-- `commitBinding` reads the record. -/
  | commit (worktree : String) (generation : ℕ) (behind : Option Reserving)
  /-- The committed record is renamed over the pending one. -/
  | replace (worktree : String) (generation : ℕ) (behind : Option Reserving)
  | append (event : Event)
  /-- The events of an admission, one append each, and then the reservation file. -/
  | reserve (reserving : Reserving) (made : Option Made)
  /-- A settle reads the reservation file. -/
  | release (reservationId : String)
  | removeFile (reservationId : String)
  /-- `unbindWorktree` reads the record and the custody lease. -/
  | unbind (worktree : String) (generation : ℕ)
  | recordUnbound (worktree : String) (record : Record)
  | unlink (worktree : String) (record : Record)

/-- What goes on when the worktree is bound. -/
def Reserving.next (behind : Option Reserving) (made : Option Made) : List Task :=
  match behind with
  | none => []
  | some reserving => [.reserve reserving made]

structure CaseState where
  ledger : List Event
  /-- The reservation files, each with the binding its admission made. -/
  files : Table (Option Made)
  /-- What is left of the operation that holds `advance`. -/
  todo : List Task

/-- A release whose check found the custody lease free. -/
structure Quiet where
  caseId : String
  worktree : String
  generation : ℕ
  deriving DecidableEq

structure World where
  records : Table Record
  cases : String → CaseState
  /-- The worktrees whose custody lease is held. -/
  custody : List String
  quiet : List Quiet

namespace World

variable (w : World)

def update (caseId : String) (f : CaseState → CaseState) : World :=
  { w with cases := Function.update w.cases caseId (f (w.cases caseId)) }

def append (caseId : String) (event : Event) : World :=
  w.update caseId fun s => { s with ledger := s.ledger ++ [event] }

def put (worktree : String) (record : Record) : World := { w with records := w.records.insert worktree record }

/-- One step, and the steps that take its place; none if the operation ends here. -/
def perform (caseId : String) : Task → World × Option (List Task)
  | .bind view worktree behind =>
    match (readBinding w.records view caseId worktree).answer with
    | .bound => (w, some (Reserving.next behind none))
    | .unbound => (w, some [.create worktree (nextGeneration (w.cases caseId).ledger caseId) behind])
    | _ => (w, none)
  | .create worktree generation behind =>
    if w.records.contains worktree then (w, none)
    else (w.put worktree ⟨caseId, generation, false⟩, some [.record worktree generation behind])
  | .record worktree generation behind =>
    (w.append caseId (.binding ⟨caseId, generation, worktree, worktree, .bound⟩),
      some [.commit worktree generation behind])
  | .commit worktree generation behind =>
    if w.records[worktree]? = some ⟨caseId, generation, false⟩ then (w, some [.replace worktree generation behind])
    -- what `commitBinding` answers is not looked at
    else (w, some (Reserving.next behind (some ⟨worktree, generation⟩)))
  | .replace worktree generation behind =>
    (w.put worktree ⟨caseId, generation, true⟩, some (Reserving.next behind (some ⟨worktree, generation⟩)))
  | .append event => (w.append caseId event, some [])
  | .reserve ⟨event :: events, reservationId⟩ made =>
    (w.append caseId event, some [.reserve ⟨events, reservationId⟩ made])
  | .reserve ⟨[], reservationId⟩ made =>
    (w.update caseId fun s => { s with files := s.files.insert reservationId made }, some [])
  | .release reservationId =>
    match (w.cases caseId).files[reservationId]? with
    | some (some made) => (w, some [.unbind made.worktree made.generation])
    | _ => (w, some [])
  | .removeFile reservationId =>
    (w.update caseId fun s => { s with files := s.files.erase reservationId }, some [])
  | .unbind worktree generation =>
    match w.records[worktree]? with
    | none => (w, some [])
    | some record =>
      if record.caseId ≠ caseId ∨ record.generation ≠ generation then (w, some [])
      else if worktree ∈ w.custody then (w, some [])
      else ({ w with quiet := w.quiet ++ [⟨caseId, worktree, generation⟩] }, some [.recordUnbound worktree record])
  | .recordUnbound worktree record =>
    (w.append caseId (.binding ⟨caseId, record.generation, worktree, worktree, .unbound⟩),
      some [.unlink worktree record])
  | .unlink worktree _ => ({ w with records := w.records.erase worktree }, some [])

def step (caseId : String) : Option World :=
  match (w.cases caseId).todo with
  | [] => none
  | task :: rest =>
    let (w', next) := w.perform caseId task
    some (w'.update caseId fun s => { s with todo := (next.map (· ++ rest)).getD [] })

end World

/-! ### Operations -/

/-- An operation of a case, which takes `advance`. -/
inductive Op where
  /-- A conductor case binds the worktree it is opened in. -/
  | bind (view : View) (worktree : String)
  /-- What the ask says of bindings is not read: the records answer it. -/
  | admission (view : View) (ask : Ask)
  | settle (settle : Settle)
  | close (reason : Option String)
  | repair

section

variable (normalizeGuide : Definition → Option Guide) (digestUnitRunReports : List UnitRun → Option String)

def bindFirst (view : View) (ask : Ask) (reserving : Reserving) : Option (List Task) :=
  if ask.isWriting then ask.proposal.worktree.map fun worktree => [.bind view worktree (some reserving)]
  else some [.reserve reserving none]

namespace World

variable (w : World)

/-- The section of `admit` behind the drain, up to its first step. -/
def admission (caseId : String) (view : View) (ask : Ask) : Option (List Task) :=
  let projection := readCase digestUnitRunReports normalizeGuide (w.cases caseId).ledger
  match ask.liveOf projection with
  -- the same Unit asked again keeps its reservation; its file is written anew
  | some live => bindFirst view ask ⟨[], live.reservationId⟩
  | none =>
    let binding := (ask.proposal.worktree.map (readBinding w.records view caseId)).getD ask.binding
    match admitProposal projection (ask.proposed projection.kind) { ask with binding }.bindingAnswers
        ask.reservationId with
    | .ok (.admitted reservation _ events) => bindFirst view ask ⟨events, reservation.reservationId⟩
    | .ok (.refused _) => some []
    | .error _ => none

/-- The pending records of the case, each committed if its generation is on the ledger, and removed if it is not.  No
other case changes them while they are listed. -/
def repairs (caseId : String) : List Task :=
  w.records.toList.filterMap fun (worktree, record) =>
    if record.caseId = caseId ∧ record.committed = false then
      if (w.cases caseId).ledger.any (recordsBound caseId record.generation) then
        some (.commit worktree record.generation none)
      else some (.unlink worktree record)
    else none

/-- The steps of an operation. -/
def tasks (caseId : String) : Op → Option (List Task)
  | .bind view worktree => some [.bind view worktree none]
  | .admission view ask => w.admission normalizeGuide digestUnitRunReports caseId view ask
  | .settle settle =>
    some ((applySettle (w.cases caseId).ledger settle).map .append ++
      [.release settle.reservationId, .removeFile settle.reservationId])
  | .close reason =>
    let projection := readCase digestUnitRunReports normalizeGuide (w.cases caseId).ledger
    if projection.closureReasons = [] then
      some (.append (.caseClosed reason) :: projection.bindings.map fun b => .unbind b.key b.generation)
    else some []
  | .repair => some (w.repairs caseId)

end World

/-! ### Cases -/

/-- An event that neither binds a worktree nor is a reservation that writes. -/
def isNote : Event → Bool
  | .binding _ => false
  | .reservation p => p.writes == []
  | _ => true

inductive Act where
  /-- A process takes `advance` of the case and begins an operation. -/
  | begin (caseId : String) (op : Op)
  | step (caseId : String)
  /-- The process that holds `advance` dies. -/
  | crash (caseId : String)
  | note (caseId : String) (event : Event)
  /-- The custody lease of a worktree is taken. -/
  | take (worktree : String)
  | leave (worktree : String)

namespace World

variable (w : World)

def act : Act → Option World
  | .begin caseId op =>
    if (w.cases caseId).todo.isEmpty then
      (w.tasks normalizeGuide digestUnitRunReports caseId op).map fun tasks =>
        w.update caseId fun s => { s with todo := tasks }
    else none
  | .step caseId => w.step caseId
  | .crash caseId => some (w.update caseId fun s => { s with todo := [] })
  | .note caseId event =>
    if (w.cases caseId).todo.isEmpty && isNote event then some (w.append caseId event) else none
  | .take worktree => some { w with custody := worktree :: w.custody }
  | .leave worktree => some { w with custody := w.custody.filter (· ≠ worktree) }

/-- No case has begun. -/
def IsFresh : Prop := w = ⟨∅, fun _ => ⟨[], ∅, []⟩, [], []⟩

end World

end

end Forgent.Workflow.CaseBindings
