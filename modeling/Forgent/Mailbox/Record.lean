import Forgent.Bounded
import Forgent.Mailbox.Values

/-!
# The record of a mailbox

The metadata snapshot of one project's mailbox: the bindings of its heads, the headers of its messages in the
order they were recorded, the notices lane, and the maps behind the sending policies.  Composite keys of the
maps are texts that join their parts with a character no writer key holds.
-/

namespace Forgent.Mailbox

inductive Liveness
  | alive
  | dead
  | unknown
deriving DecidableEq

/-- One address: a head of a CLI process and its current generation. -/
structure Binding where
  key : WriterKey
  name : String
  cli : Cli
  generation : Generation
  head : String
  handle : Option String
  registeredAt : Timestamp
  lastSeen : Timestamp
  lastDrainAt : Option Timestamp
  stopBlocks : ℕ
deriving DecidableEq

/-- Why the sweep refused a message that was already recorded. -/
inductive RefusalReason
  | recordTtl
  | offerCap
deriving DecidableEq

inductive MessageState
  | recorded
  | inFlight (token : AttemptToken) (deadline : Timestamp) (generation : Generation)
  | offered (since : Timestamp)
  | refused (reason : RefusalReason) (since : Timestamp)
deriving DecidableEq

/-- The verified origin of a message from another machine. -/
structure Origin where
  machine : String
  id : String
  handle : Option String
  settled : Bool
deriving DecidableEq

structure Header where
  id : MessageId
  fromKey : WriterKey
  fromGeneration : Option Generation
  toKey : WriterKey
  toGeneration : Generation
  replyTo : Option MessageId
  replyToHint : Option MessageId
  depth : ℕ
  wake : Bool
  effectiveWake : Bool
  bodyBytes : ℕ
  bodyRenderedBytes : Option ℕ
  bodyKept : Bool
  recordedAt : Timestamp
  changedAt : Timestamp
  offers : ℕ
  answered : Bool
  state : MessageState
  origin : Option Origin
deriving DecidableEq

namespace MessageState

def settled : MessageState → Bool
  | .offered _ | .refused _ _ => true
  | .recorded | .inFlight _ _ _ => false

def pending : MessageState → Bool
  | .recorded | .inFlight _ _ _ => true
  | .offered _ | .refused _ _ => false

end MessageState

inductive NoticeState
  | recorded
  | inFlight (token : AttemptToken) (deadline : Timestamp) (generation : Generation)
deriving DecidableEq

structure Notice where
  id : MessageId
  toKey : WriterKey
  toGeneration : Generation
  reason : RefusalReason
  about : MessageId
  aboutTo : WriterKey
  createdAt : Timestamp
  state : NoticeState
deriving DecidableEq

/-! ### Counters -/

inductive CounterReason
  | senderKeyTooLong
  | group
  | unknownName
  | ambiguousName
  | selfSend
  | replyToNotOffered
  | tooLarge
  | sessionBudget
  | lifetimeCap
  | tooDeep
  | loop
  | queueFull
  | senderShareFull
  | recordTtl
  | offerCap
  | noticeUndeliverable
  | noticeSuppressed
  | noticeDropped
  | noticeUndelivered
  | noticeExpired
  | remoteMalformed
  | remoteSignature
  | remoteUnconfirmed
  | remoteMisaddressed
  | remoteStale
  | remoteBodyExpired
deriving DecidableEq

def CounterReason.code : CounterReason → String
  | .senderKeyTooLong => "sender-key-too-long"
  | .group => "group"
  | .unknownName => "unknown-name"
  | .ambiguousName => "ambiguous-name"
  | .selfSend => "self"
  | .replyToNotOffered => "reply-to-not-offered"
  | .tooLarge => "too-large"
  | .sessionBudget => "session-budget"
  | .lifetimeCap => "lifetime-cap"
  | .tooDeep => "too-deep"
  | .loop => "loop"
  | .queueFull => "queue-full"
  | .senderShareFull => "sender-share-full"
  | .recordTtl => "record-ttl"
  | .offerCap => "offer-cap"
  | .noticeUndeliverable => "notice-undeliverable"
  | .noticeSuppressed => "notice-suppressed"
  | .noticeDropped => "notice-dropped"
  | .noticeUndelivered => "notice-undelivered"
  | .noticeExpired => "notice-expired"
  | .remoteMalformed => "remote-malformed"
  | .remoteSignature => "remote-signature"
  | .remoteUnconfirmed => "remote-unconfirmed"
  | .remoteMisaddressed => "remote-misaddressed"
  | .remoteStale => "remote-stale"
  | .remoteBodyExpired => "remote-body-expired"

def RefusalReason.counter : RefusalReason → CounterReason
  | .recordTtl => .recordTtl
  | .offerCap => .offerCap

/-- The accounting identity of a sender. -/
abbrev Account := String

/-- The identity shared by every sender with no registered head. -/
def unregistered : Account := "~unregistered"

structure Party where
  count : ℕ
  lastAt : Timestamp
  lastBump : ℕ

structure BoundedCounters where
  totals : Table ℕ
  byParty : Table Party
  bumps : ℕ

namespace BoundedCounters

def new : BoundedCounters where
  totals := ∅
  byParty := ∅
  bumps := 0

/-- `<reason>|<from>|<to>`. -/
def partyKey (reason : CounterReason) (sender recipient : Account) : String :=
  reason.code ++ "|" ++ sender ++ "|" ++ recipient

/-- Whether the account is the entry's sender or recipient. -/
def involves (key : String) (account : Account) : Bool :=
  (key.toList.splitOn '|').tail.any fun party => party = account.toList

/-- Counts one event between two identities; past the bound the least recently bumped entries go. -/
def bump (counters : BoundedCounters) (limits : Limits) (reason : CounterReason) (sender recipient : Account)
    (now : Timestamp) : BoundedCounters :=
  let key := partyKey reason sender recipient
  let bumps := counters.bumps + 1
  let party : Party := ⟨(counters.byParty[key]?.elim 0 Party.count) + 1, now, bumps⟩
  { totals := counters.totals.insert reason.code (counters.totals.getD reason.code 0 + 1)
    byParty := Table.evict Party.lastBump limits.countersMaxKeys (counters.byParty.insert key party)
    bumps }

/-- Removes every entry that names the account. -/
def forget (counters : BoundedCounters) (account : Account) : BoundedCounters :=
  { counters with byParty := counters.byParty.filter fun key _ => !involves key account }

end BoundedCounters

/-! ### Keys of the maps -/

/-- The first part of a text before a separator, and what comes after it. -/
def splitOnce (sep : Char) : List Char → Option (List Char × List Char)
  | [] => none
  | c :: rest => if c = sep then some ([], rest) else (splitOnce sep rest).map fun p => (c :: p.1, p.2)

/-- `<key>@<generation>` of a registered sender. -/
def lifetimeKey (key : WriterKey) (generation : Generation) : String := key.text ++ "@" ++ toString generation.val

def remoteLifetimeKey (machine : String) (sender : WriterKey) : String := "~" ++ machine ++ "/" ++ sender.text ++ "@0"

/-- Whether a lifetime count belongs to the key, in any generation if `none`. -/
def lifetimeIsOf (count : String) (key : WriterKey) : Option Generation → Bool
  | some generation => count = lifetimeKey key generation
  | none => (count.toList.splitOn '@').head? = some key.text.toList

/-- `<from>@<generation>|<to>`. -/
def wakeLifetimeKey (sender : WriterKey) (generation : Generation) (recipient : WriterKey) : String :=
  sender.text ++ "@" ++ toString generation.val ++ "|" ++ recipient.text

/-- `~<machine>/<session>|<to>`. -/
def remoteWakeLifetimeKey (machine : String) (sender recipient : WriterKey) : String :=
  "~" ++ machine ++ "/" ++ sender.text ++ "|" ++ recipient.text

/-- Whether a wake count belongs to the key as its sender, in any generation if `none`. -/
def wakeLifetimeIsFrom (count : String) (key : WriterKey) (generation : Option Generation) : Bool :=
  match splitOnce '|' count.toList with
  | none => false
  | some (sender, _) =>
    let (name, of) := (splitOnce '@' sender).getD (sender, [])
    name = key.text.toList && generation.all fun g => of = (toString g.val).toList

structure Exchange where
  lastAt : Timestamp
  wakesSpent : ℕ

/-- The two accounting identities of an exchange, sorted. -/
def exchangeKey (one other : Account) : String := if one ≤ other then one ++ "|" ++ other else other ++ "|" ++ one

def exchangeInvolves (key : String) (account : Account) : Bool :=
  (key.toList.splitOn '|').any fun party => party = account.toList

/-- `<to>|<reason>`. -/
def noticeMark (recipient : WriterKey) (reason : RefusalReason) : String := recipient.text ++ "|" ++ reason.counter.code

def noticeMarkIsOf (mark : String) (key : WriterKey) : Bool :=
  (mark.toList.splitOn '|').head? = some key.text.toList

/-! ### The state -/

/-- A refusal of a message from another machine that its sender is yet to be told. -/
structure RemoteRefusal where
  id : String
  code : String

/-- What ingest of mail from other machines keeps. -/
structure RemoteState where
  baselined : Bool
  cursor : Table ℕ
  seen : Table Timestamp
  refusals : List RemoteRefusal

structure MailboxState where
  lastNow : Timestamp
  bindings : Std.ExtTreeMap WriterKey Binding
  messages : List Header
  notices : List Notice
  noticeLast : Table Timestamp
  counters : BoundedCounters
  budget : Table (List Timestamp)
  lifetime : Table ℕ
  exchanges : Table Exchange
  wakeLifetime : Table ℕ
  remote : RemoteState

namespace MailboxState

def new : MailboxState where
  lastNow := 0
  bindings := ∅
  messages := []
  notices := []
  noticeLast := ∅
  counters := .new
  budget := ∅
  lifetime := ∅
  exchanges := ∅
  wakeLifetime := ∅
  remote := ⟨false, ∅, ∅, []⟩

/-- Moves the high-water mark forward: a clock that steps back is read as the latest time seen. -/
def advance (s : MailboxState) (now : Timestamp) : MailboxState := { s with lastNow := max s.lastNow now }

/-- Every binding, ordered by key. -/
def bindingList (s : MailboxState) : List Binding := s.bindings.toList.map Prod.snd

theorem mem_bindingList {s : MailboxState} {b : Binding} : b ∈ s.bindingList ↔ ∃ key : WriterKey, s.bindings[key]? = some b := by
  simp only [bindingList, List.mem_map, Prod.exists, exists_eq_right, Std.ExtTreeMap.mem_toList_iff_getElem?_eq_some]

def currentGeneration (s : MailboxState) (key : WriterKey) : Option Generation := s.bindings[key]?.map Binding.generation

/-- The accounting identity of a key: its own when it names a binding, otherwise the shared one. -/
def account (s : MailboxState) (key : WriterKey) : Account := if s.bindings.contains key then key.text else unregistered

def isAccount (s : MailboxState) (key : WriterKey) (account : Account) : Bool :=
  if s.bindings.contains key then account = key.text else account = unregistered

theorem isAccount_iff {s : MailboxState} {key : WriterKey} {account : Account} :
    s.isAccount key account = true ↔ account = s.account key := by
  rw [isAccount, MailboxState.account]
  split <;> rw [decide_eq_true_eq]

/-- The accounting identity of a sender on another machine. -/
def remoteAccount (machine : String) (sender : WriterKey) : Account := "~" ++ machine ++ "/" ++ sender.text

/-- Whether the header's sender has the accounting identity. -/
def headerIsAccount (s : MailboxState) (header : Header) (account : Account) : Bool :=
  match header.origin with
  | some origin => account = remoteAccount origin.machine header.fromKey
  | none => s.isAccount header.fromKey account

/-- Counts one event between the accounting identities of two keys. -/
def count (s : MailboxState) (limits : Limits) (reason : CounterReason) (sender recipient : WriterKey) (now : Timestamp) :
    MailboxState :=
  { s with counters := s.counters.bump limits reason (s.account sender) (s.account recipient) now }

end MailboxState

end Forgent.Mailbox
