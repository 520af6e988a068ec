import Forgent.Mailbox.Delivery

/-!
# Mail from other machines

The host verified it already; the core only decides whether this record takes it, under the caps of a send applied
to each verified sender on its own.  The ids of the messages it took or refused are remembered, so that no message
lands twice.
-/

namespace Forgent.Mailbox

/-- One verified message from another machine. -/
structure RemoteMail where
  machine : String
  id : String
  fromKey : WriterKey
  handle : Option String
  toKey : WriterKey
  body : String
  maxBodyBytes : ℕ
  wake : Bool
  stopDrains : List Cli
  nudgeClis : List Cli

/-- What a taken message's wake came to. -/
structure RemoteWake where
  effective : Bool
  dropped : Option WakeDrop
  toKey : WriterKey
  toCli : Cli
  toHead : String
  toNudge : Bool
  outstanding : Bool
deriving DecidableEq

inductive Ingested
  | recorded (id : MessageId) (wake : RemoteWake)
  | duplicate
deriving DecidableEq

/-- A message bound for a session on another machine. -/
structure RemoteSend where
  fromKey : WriterKey
  bodyBytes : ℕ
  maxBodyBytes : ℕ
  toLabel : String

def seenKey (machine id : String) : String := machine ++ "\n" ++ id

def usableHandle (limits : Limits) (handle : String) : Bool :=
  handle ≠ "" && handle.length ≤ limits.frameMaxHeaderChars &&
    handle.toList.all fun c => c.isAlphanum || c == '-' || c == '_' || c == '.' || c == '@' || c == ':'

namespace MailboxState

/-- Moves the ingest cursor forward, never back, and marks the baseline taken. -/
def advanceRemoteCursor (s : MailboxState) (cursor : Table ℕ) : Bool × MailboxState :=
  let ahead (e : String × ℕ) := s.remote.cursor.getD e.1 0 < e.2
  let moved (held : Table ℕ) (e : String × ℕ) := held.insert e.1 (max (held.getD e.1 0) e.2)
  (!s.remote.baselined || cursor.toList.any fun e => ahead e,
    { s with remote := { s.remote with baselined := true, cursor := cursor.toList.foldl moved s.remote.cursor } })

/-- Counts a message from another machine the host dropped. -/
def countRemoteDrop (s : MailboxState) (limits : Limits) (reason : CounterReason) (machine : String) (now : Timestamp) :
    MailboxState :=
  let s := s.advance now
  { s with counters := s.counters.bump limits reason ("~" ++ machine) "~remote" s.lastNow }

/-- The checks of a message from another machine, for an attempt already counted. -/
def admitMail (s : MailboxState) (limits : Limits) (mail : RemoteMail) (dead : List WriterKey) (now : Timestamp) :
    Except Refusal Binding := do
  let account := remoteAccount mail.machine mail.fromKey
  let maxBytes := min mail.maxBodyBytes limits.maxBodyBytes
  checkSenderKey limits mail.fromKey
  if maxBytes < byteLen mail.body then .error (.tooLarge maxBytes)
  s.checkBudget limits account
  s.checkLifetimeKey limits (remoteLifetimeKey mail.machine mail.fromKey)
  let recipient ← (s.resolveKey mail.toKey dead).mapError .ofResolve
  s.checkLoop limits account recipient.key now
  s.checkQueue limits recipient.key recipient.generation
  s.checkShare limits account recipient.key recipient.generation
  return recipient

/-- The parties of a taken message. -/
def mailParties (s : MailboxState) (mail : RemoteMail) (recipient : Binding) : WakeParties where
  account := remoteAccount mail.machine mail.fromKey
  toAccount := s.account recipient.key
  sender := .remote mail.machine mail.fromKey
  toKey := recipient.key
  toWakeChannel := mail.stopDrains.contains recipient.cli || mail.nudgeClis.contains recipient.cli

/-- The header of a taken message. -/
def mailHeader (limits : Limits) (mail : RemoteMail) (recipient : Binding) (effectiveWake : Bool) (now : Timestamp)
    (id : MessageId) : Header where
  id := id
  fromKey := mail.fromKey
  fromGeneration := none
  toKey := recipient.key
  toGeneration := recipient.generation
  replyTo := none
  replyToHint := none
  depth := 0
  wake := mail.wake
  effectiveWake := effectiveWake
  bodyBytes := byteLen mail.body
  bodyRenderedBytes := some (Frame.renderedBodyLen mail.body)
  bodyKept := true
  recordedAt := now
  changedAt := now
  offers := 0
  answered := false
  state := .recorded
  origin := some ⟨mail.machine, mail.id, mail.handle.filter (usableHandle limits), false⟩

/-- Records a message that passed the checks. -/
def recordMail (s : MailboxState) (limits : Limits) (mail : RemoteMail) (recipient : Binding) (now : Timestamp)
    (ids : IdSource) : Ingested × MailboxState × IdSource :=
  let outstanding := s.wakeOutstanding recipient.key recipient.generation
  let ((effective, dropped), s) := s.effectiveWake limits (s.mailParties mail recipient) mail.wake now
  let (id, ids) := MessageId.mint ids
  let wake : RemoteWake :=
    { effective, dropped, toKey := recipient.key, toCli := recipient.cli, toHead := recipient.head,
      toNudge := mail.nudgeClis.contains recipient.cli, outstanding }
  (.recorded id wake, { s with messages := s.messages ++ [mailHeader limits mail recipient effective now id] }, ids)

/-- Takes one verified message from another machine, or refuses it; a refused message is remembered like a taken
one. -/
def ingestRemote (s : MailboxState) (limits : Limits) (mail : RemoteMail) (dead : List WriterKey) (now : Timestamp)
    (ids : IdSource) : Except Refusal Ingested × MailboxState × IdSource :=
  let (s, ids) := s.sweep limits now ids
  let now := s.lastNow
  let seen := seenKey mail.machine mail.id
  if s.remote.seen.contains seen then (.ok .duplicate, s, ids)
  else
    let s := { s with remote := { s.remote with seen := s.remote.seen.insert seen now } }
    let account := remoteAccount mail.machine mail.fromKey
    let s := s.countAttemptFor limits account (some (remoteLifetimeKey mail.machine mail.fromKey)) now
    match s.admitMail limits mail dead now with
    | .error refusal =>
      (.error refusal,
        { s with counters := s.counters.bump limits refusal.reason account (s.account mail.toKey) now }, ids)
    | .ok recipient =>
      let (ingested, s, ids) := s.recordMail limits mail recipient now ids
      (.ok ingested, s, ids)

/-- The checks of a message that leaves this machine. -/
def admitLeaving (s : MailboxState) (limits : Limits) (req : RemoteSend) (account : Account)
    (fromGeneration : Option Generation) : Except Refusal Unit := do
  let maxBytes := min req.maxBodyBytes limits.maxBodyBytes
  if maxBytes < req.bodyBytes then .error (.tooLarge maxBytes)
  checkSenderKey limits req.fromKey
  s.checkBudget limits account
  s.checkLifetime limits req.fromKey fromGeneration

/-- Admits a message that leaves this machine; its header lives on the receiving machine. -/
def admitRemote (s : MailboxState) (limits : Limits) (req : RemoteSend) (now : Timestamp) (ids : IdSource) :
    Except Refusal MessageId × MailboxState × IdSource :=
  let (s, ids) := s.sweep limits now ids
  let now := s.lastNow
  let account := s.account req.fromKey
  let fromGeneration := s.currentGeneration req.fromKey
  let s := s.countAttempt limits account req.fromKey fromGeneration now
  match s.admitLeaving limits req account fromGeneration with
  | .ok () =>
    let (id, ids) := MessageId.mint ids
    (.ok id, s, ids)
  | .error refusal =>
    (.error refusal, { s with counters := s.counters.bump limits refusal.reason account req.toLabel now }, ids)

/-- Keeps a refusal of a message that never became a header until its sender is told. -/
def queueRemoteRefusal (s : MailboxState) (limits : Limits) (id code : String) : MailboxState :=
  let refusals := s.remote.refusals ++ [⟨id, code⟩]
  { s with remote := { s.remote with refusals := refusals.drop (refusals.length - limits.countersMaxKeys) } }

/-- Forgets the refusals of the messages whose senders were told. -/
def clearRemoteRefusals (s : MailboxState) (ids : List String) : Bool × MailboxState :=
  let kept := s.remote.refusals.filter fun r => !ids.contains r.id
  (decide (kept.length ≠ s.remote.refusals.length), { s with remote := { s.remote with refusals := kept } })

/-- Marks the header's sender as told. -/
def settleHeader (ids : List MessageId) (h : Header) : Header :=
  match h.origin with
  | some origin => if !origin.settled && ids.contains h.id then { h with origin := some { origin with settled := true } } else h
  | none => h

/-- Marks the sender of each of `ids` as told. -/
def markRemoteSettled (s : MailboxState) (ids : List MessageId) : Bool × MailboxState :=
  (s.messages.any fun h => h.origin.any fun origin => !origin.settled && ids.contains h.id,
    { s with messages := s.messages.map (settleHeader ids) })

end MailboxState

end Forgent.Mailbox
