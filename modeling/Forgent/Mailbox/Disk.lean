import Forgent.Interrupted
import Forgent.Mailbox.Run

/-!
# The record on disk

Every mutation is one hold under the lock: read the snapshot, change it in memory, install the bodies of accepted
messages, install the new snapshot, then delete the bodies that no snapshot names.  The rename of the snapshot is the
commit point.  Each operation on the disk can work, fail, or be the one a crash comes before.
-/

namespace Forgent.Mailbox.Record

open Interrupted

/-! ### The disk -/

/-- The boundaries of one hold, in order. -/
inductive Point
  | locked
  | read
  | mutated
  | bodyInstalled
  | written
  | synced
  | renamed
  | directorySynced
  | collected
deriving DecidableEq

/-- Why a hold changed nothing. -/
inductive RecordError
  | lockBusy
  | recordDirUntrusted
  | snapshotUnreadable
  | snapshotTooLarge (bytes cap : ℕ)
  | ids
  | recordFull (bytes cap : ℕ)
  | bodyExists (id : MessageId)
  | observer (point : Point)
  | io (boundary : String)
deriving DecidableEq

/-- The record directory: the snapshot if one was installed, the body files, and the temporaries that failed installs
left beside them. -/
structure Disk where
  snapshot : Stored (Option MailboxState)
  bodies : Stored (Table String)
  recordTemps : ℕ
  bodyTemps : ℕ

namespace Disk

def new : Disk := ⟨⟨none, []⟩, ⟨∅, []⟩, 0, 0⟩

/-- A missing snapshot reads as the empty state. -/
def state (d : Disk) : MailboxState := d.snapshot.now.getD .new

def putBody (d : Disk) (name text : String) : Disk := { d with bodies := d.bodies.put (d.bodies.now.insert name text) }

def dropBody (d : Disk) (name : String) : Disk := { d with bodies := d.bodies.put (d.bodies.now.erase name) }

def rename (d : Disk) (s : MailboxState) : Disk :=
  { d with snapshot := d.snapshot.put (some s), recordTemps := d.recordTemps - 1 }

/-- What a power loss leaves: a snapshot and, name by name, body files that were there since the last sync. -/
structure Lost (d d' : Disk) : Prop where
  snapshot : d'.snapshot.now ∈ d.snapshot.values
  bodies : ∀ name : String, ∃ files ∈ d.bodies.values, d'.bodies.now[name]? = files[name]?
  synced : d'.snapshot.earlier = [] ∧ d'.bodies.earlier = []

end Disk

abbrev DiskProgram := Program Disk RecordError

/-- Calls the observer, which can stop the hold. -/
def observe (point : Point) : DiskProgram Unit := Program.operation (.observer point) id

/-- An operation that changes no file. -/
def attempt (boundary : String) : DiskProgram Unit := Program.operation (.io boundary) id

/-! ### Bodies -/

/-- The file of a body; only a lowercase hex id has one. -/
def bodyName (id : MessageId) : Option String :=
  if id.text ≠ "" ∧ id.text.toList.all (fun c => c.isDigit || 'a' ≤ c && c ≤ 'f') = true then some (id.text ++ ".body")
  else none

/-- Installs a file under a name that is free, and says whether it was. -/
def installOnce (name text : String) : DiskProgram Bool := do
  Program.operation (.io "temp-created") fun d => { d with bodyTemps := d.bodyTemps + 1 }
  attempt "bytes-written"
  attempt "file-fsync"
  let d ← Program.look
  if d.bodies.now.contains name then
    Program.operation (.io "temp-removed") fun d => { d with bodyTemps := d.bodyTemps - 1 }
    return false
  else
    Program.operation (.io "name-installed") fun d => d.putBody name text
    Program.operation (.io "temp-removed") fun d => { d with bodyTemps := d.bodyTemps - 1 }
    Program.operation (.io "parent-fsync") fun d => { d with bodies := d.bodies.sync }
    return true

/-- Installs the body of a message, never over an existing file. -/
def installBody (id : MessageId) (text : String) : DiskProgram Unit :=
  match bodyName id with
  | none => Program.fail (.io "body-name")
  | some name => do
    let created ← installOnce name text
    Program.require (.bodyExists id) created

/-- The ids whose body the state still references. -/
def referenced (s : MailboxState) : List MessageId := (s.messages.filter Header.bodyKept).map Header.id

/-! ### The snapshot -/

/-- The boundary at which an install failed past its rename. -/
def warningPoint : RecordError → Point
  | .observer point => point
  | .io "parent-fsync" => .directorySynced
  | _ => .renamed

def installSnapshot (s : MailboxState) : DiskProgram (Option Point) := do
  Program.operation (.io "temp-created") fun d => { d with recordTemps := d.recordTemps + 1 }
  attempt "bytes-written"
  observe .written
  attempt "file-fsync"
  observe .synced
  Program.operation (.io "name-installed") fun d => d.rename s
  let synced ← Program.caught (ε := RecordError) do
    observe .renamed
    Program.operation (.io "parent-fsync") fun d => { d with snapshot := d.snapshot.sync }
    observe .directorySynced
  return match synced with
    | .ok _ => none
    | .error error => some (warningPoint error)

/-! ### Collection -/

/-- What the deletions after an install did. -/
structure Collected where
  deleted : ℕ
  failed : ℕ
deriving DecidableEq

/-- Deletes files one after another; a failed deletion is only counted. -/
def unlinkAll (remove : String → Disk → Disk) (isThere : String → Disk → Bool) :
    List String → Collected → DiskProgram Collected
  | [], collected => return collected
  | name :: names, collected => do
    let d ← Program.look
    let removed ← Program.caught (ε := RecordError) (Program.operation (.io "unlink") (remove name))
    match removed with
    | .ok _ =>
      unlinkAll remove isThere names
        (if isThere name d then { collected with deleted := collected.deleted + 1 } else collected)
    | .error _ => unlinkAll remove isThere names { collected with failed := collected.failed + 1 }

/-- Deletes body files by name. -/
def unlinkBodies : List String → Collected → DiskProgram Collected :=
  unlinkAll (fun name d => d.dropBody name) fun name d => d.bodies.now.contains name

/-- Deletes the temporaries of failed installs. -/
def unlinkTemps (remove : Disk → Disk) (count : ℕ) : Collected → DiskProgram Collected :=
  unlinkAll (fun _ => remove) (fun _ _ => true) (List.replicate count "")

/-- After an install: deletes the dropped bodies, and in a sweep every file that no kept body names.  Says whether it
came to its end. -/
def collect (dropped : List MessageId) (sweep : Bool) (kept : List MessageId) : DiskProgram (Collected × Bool) := do
  let opened ← Program.caught (ε := RecordError) (attempt "open-bodies")
  match opened with
  | .error _ => return (⟨0, 0⟩, false)
  | .ok _ =>
    let collected ← unlinkBodies (dropped.filterMap bodyName) ⟨0, 0⟩
    if sweep then
      let listed ← Program.caught (ε := RecordError) (attempt "list")
      match listed with
      | .error _ => return (collected, false)
      | .ok _ =>
        let d ← Program.look
        let names := d.bodies.now.keys.filter fun name => !(kept.filterMap bodyName).contains name
        let collected ← unlinkTemps (fun d => { d with recordTemps := d.recordTemps - 1 }) d.recordTemps collected
        let collected ← unlinkTemps (fun d => { d with bodyTemps := d.bodyTemps - 1 }) d.bodyTemps collected
        let collected ← unlinkBodies names collected
        return (collected, true)
    else return (collected, true)

/-! ### Prune -/

/-- The bindings of dead heads that have been idle past the record's time and that no header names. -/
def forgotten (s : MailboxState) (now : Timestamp) (limits : Limits) (dead : Binding → Bool) : List WriterKey :=
  (s.bindingList.filter fun b =>
    !(s.messages.any fun h => h.fromKey = b.key || h.toKey = b.key) &&
      now.isPast (b.lastDrainAt.elim b.lastSeen (max · b.lastSeen)) limits.recordTtlSec && dead b).map Binding.key

def prune (s : MailboxState) (now : Timestamp) (limits : Limits) (dead : Binding → Bool) : MailboxState :=
  (forgotten s now limits dead).foldl (fun s key => (s.forgetKey key).2) s

/-- The keys whose head the store judges dead. -/
def deadKeys (s : MailboxState) (judge : Binding → Liveness) : List WriterKey :=
  (s.bindingList.filter fun b => judge b = .dead).map Binding.key

/-! ### What a hold does to the state -/

/-- What one ingest hands the record. -/
structure IngestBatch where
  mails : List RemoteMail
  drops : List (CounterReason × String)
  refusals : List (String × String)
  cursor : Table ℕ

/-- Whether a call can record a message. -/
def recordsMail : Op → Bool
  | .send _ _ | .ingestRemote _ _ _ => true
  | _ => false

inductive Change
  | send (req : SendRequest)
  | ingest (batch : IngestBatch)
  /-- Calls of the core that record no message, and whether their answers report a change. -/
  | other (calls : List (Op × IdSource)) (changed : List Answer → Bool)
      (hsilent : (calls.any fun c => recordsMail c.1) = false)

/-- One hold: the change, the clock, limits and numbers it uses, and the liveness of the stored heads. -/
structure Hold where
  change : Change
  now : Timestamp
  limits : Limits
  ids : IdSource
  judge : Binding → Liveness

/-- What the core answered, whether the state changed, and the bodies to install before it is. -/
structure Mutation where
  answers : List Answer
  changed : Bool
  installs : List (MessageId × String)
  state : MailboxState

/-- Whether the hold is a send or an ingest, which judges every head once, may be refused as full, and sweeps. -/
def Change.sweeps : Change → Bool
  | .send _ | .ingest _ => true
  | .other _ _ _ => false

def mutateSend (h : Hold) (req : SendRequest) (dead : List WriterKey) (s : MailboxState) : Mutation :=
  let (sent, s, _) := s.send h.limits { req with deadKeys := dead } h.now h.ids
  { answers := [.sent sent]
    changed := true
    installs := sent.toOption.toList.map fun outcome => (outcome.id, req.body)
    state := s }

/-- Judges each message in order. -/
def ingestMails (limits : Limits) (dead : List WriterKey) (now : Timestamp) :
    List RemoteMail → MailboxState → IdSource → List (RemoteMail × Except Refusal Ingested) × MailboxState
  | [], s, _ => ([], s)
  | mail :: mails, s, ids =>
    let (result, s, ids) := s.ingestRemote limits mail dead now ids
    let (results, s) := ingestMails limits dead now mails s ids
    ((mail, result) :: results, s)

def ingestInstall : RemoteMail × Except Refusal Ingested → Option (MessageId × String)
  | (mail, .ok (.recorded id _)) => some (id, mail.body)
  | _ => none

/-- Queues the refusal of a message the core refused. -/
def Hold.queueRefused (h : Hold) (s : MailboxState) (r : RemoteMail × Except Refusal Ingested) : MailboxState :=
  match r.2 with
  | .error refusal => s.queueRemoteRefusal h.limits r.1.id refusal.reason.code
  | .ok _ => s

def mutateIngest (h : Hold) (batch : IngestBatch) (dead : List WriterKey) (s : MailboxState) : Mutation :=
  let s := batch.drops.foldl (fun s drop => s.countRemoteDrop h.limits drop.1 drop.2 h.now) s
  let (results, s) := ingestMails h.limits dead h.now batch.mails s h.ids
  let s := batch.refusals.foldl (fun s refused => s.queueRemoteRefusal h.limits refused.1 refused.2) s
  let s := results.foldl h.queueRefused s
  let (moved, s) := s.advanceRemoteCursor batch.cursor
  { answers := results.map fun r => .ingested r.2
    changed := moved || !batch.mails.isEmpty || !batch.drops.isEmpty || !batch.refusals.isEmpty
    installs := results.filterMap ingestInstall
    state := s }

/-- The calls of a hold on the state, in order. -/
def callAll (limits : Limits) : List (Op × IdSource) → MailboxState → List Answer × MailboxState
  | [], s => ([], s)
  | (op, ids) :: calls, s =>
    let (answer, s) := op.call limits s ids
    let (answers, s) := callAll limits calls s
    (answer :: answers, s)

def Hold.mutate (h : Hold) (s : MailboxState) : Mutation :=
  let dead := deadKeys s h.judge
  match h.change with
  | .send req => mutateSend h req dead s
  | .ingest batch => mutateIngest h batch dead s
  | .other calls changed _ =>
    let (answers, s) := callAll h.limits calls s
    { answers, changed := changed answers, installs := [], state := s }

/-- Whether the prune takes the head for dead: a send and an ingest keep the judgement they began with. -/
def Hold.takesForDead (h : Hold) (s : MailboxState) (b : Binding) : Bool :=
  if h.change.sweeps then (deadKeys s h.judge).contains b.key else h.judge b = .dead

/-- The state a hold installs. -/
def Hold.next (h : Hold) (s : MailboxState) : MailboxState :=
  prune (h.mutate s).state h.now h.limits (h.takesForDead s)

/-! ### The hold -/

/-- The sizes of encoded snapshots, and the caps a snapshot is written and read under. -/
structure Encoding where
  size : MailboxState → ℕ
  writeCap : Limits → ℕ
  readCap : Limits → ℕ

/-- The result of a hold that reached its end or its commit point. -/
structure Held where
  answers : List Answer
  wrote : Bool
  warning : Option Point
  collected : Collected

/-- What follows the install of a snapshot. -/
def finishHold (answers : List Answer) (dropped kept : List MessageId) (sweep : Bool) : Option Point → DiskProgram Held
  | some point => return ⟨answers, true, some point, ⟨0, 0⟩⟩
  | none => do
    let (collected, ended) ← collect dropped sweep kept
    if ended then
      let observed ← Program.caught (ε := RecordError) (observe .collected)
      match observed with
      | .ok _ => return ⟨answers, true, none, collected⟩
      | .error _ => return ⟨answers, true, some .collected, collected⟩
    else return ⟨answers, true, some .collected, collected⟩

/-- The one write path of every hold. -/
def run (encoding : Encoding) (h : Hold) : DiskProgram Held := do
  Program.operation .lockBusy id
  observe .locked
  Program.operation .recordDirUntrusted id
  Program.operation .snapshotUnreadable id
  let d ← Program.look
  let bytes := d.snapshot.now.elim 0 encoding.size
  Program.require (.snapshotTooLarge bytes (encoding.readCap h.limits)) (bytes ≤ encoding.readCap h.limits)
  observe .read
  Program.operation .ids id
  let mutation := h.mutate d.state
  Program.operation .ids id
  if mutation.changed then
    let s := h.next d.state
    attempt "encode"
    Program.require (.recordFull (encoding.size s) (encoding.writeCap h.limits))
      (!h.change.sweeps || encoding.size s ≤ encoding.writeCap h.limits)
    observe .mutated
    Program.each (fun install => installBody install.1 install.2 >>= fun _ => observe .bodyInstalled) mutation.installs
    let warning ← installSnapshot s
    finishHold mutation.answers ((referenced d.state).filter fun id => !(referenced s).contains id) (referenced s)
      h.change.sweeps warning
  else return ⟨mutation.answers, false, none, ⟨0, 0⟩⟩

end Forgent.Mailbox.Record
