import Forgent.Mailbox.Frame
import Forgent.Mailbox.Policy

/-!
# Send, claim and finish

A send records a message for the recipient's current generation.  A claim takes pending items under one attempt
token and a deadline, its frames are emitted, and a finish with that token makes them offered.
-/

namespace Forgent.Mailbox

/-! ### The effective wake -/

/-- Why a send's wake did not take effect. -/
inductive WakeDrop
  | exchangeQuota
  | lifetimeCap
  | noChannel
deriving DecidableEq

/-- Who sent a message, as far as its wake budget goes. -/
inductive WakeSender
  | head (fromKey : WriterKey) (generation : Option Generation)
  | remote (machine : String) (fromKey : WriterKey)

/-- The parties of one recorded message, as the wake rules see them. -/
structure WakeParties where
  account : Account
  toAccount : Account
  sender : WakeSender
  toKey : WriterKey
  toWakeChannel : Bool

/-- The lifetime count a wake spends, with its cap; a sender with no head is exempt. -/
def WakeParties.lifetime (limits : Limits) (parties : WakeParties) : Option (String × ℕ) :=
  match parties.sender with
  | .head fromKey (some generation) => some (wakeLifetimeKey fromKey generation parties.toKey, limits.wakeLifetimeCap)
  | .head _ none => none
  | .remote machine fromKey => some (remoteWakeLifetimeKey machine fromKey parties.toKey, limits.wakeRemoteLifetimeCap)

namespace MailboxState

/-- The wakes an exchange has spent when a message is recorded in it now. -/
def wakesSpent (s : MailboxState) (limits : Limits) (key : String) (now : Timestamp) : ℕ :=
  match s.exchanges[key]? with
  | none => 0
  | some exchange => if exchange.lastAt.plusSecs limits.wakeExchangeGapSec ≤ now then 0 else exchange.wakesSpent

/-- Whether the wake takes effect, and why not. -/
def judgeWake (s : MailboxState) (limits : Limits) (parties : WakeParties) (wake : Bool) (spent : ℕ) :
    Bool × Option WakeDrop :=
  if !wake then (false, none)
  -- before any allowance: a recipient with no channel must not spend the pair's quota
  else if !parties.toWakeChannel then (false, some .noChannel)
  else if limits.wakeMaxPerExchange ≤ spent then (false, some .exchangeQuota)
  else if (parties.lifetime limits).any fun l => l.2 ≤ s.wakeLifetime.getD l.1 0 then (false, some .lifetimeCap)
  else (true, none)

/-- Records a message in its exchange and decides whether its wake takes effect. -/
def effectiveWake (s : MailboxState) (limits : Limits) (parties : WakeParties) (wake : Bool) (now : Timestamp) :
    (Bool × Option WakeDrop) × MailboxState :=
  let key := exchangeKey parties.account parties.toAccount
  let spent := s.wakesSpent limits key now
  let verdict := s.judgeWake limits parties wake spent
  (verdict,
    { s with
      exchanges := s.exchanges.insert key ⟨now, if verdict.1 then spent + 1 else spent⟩
      wakeLifetime :=
        match verdict.1, parties.lifetime limits with
        | true, some l => s.wakeLifetime.insert l.1 (min (s.wakeLifetime.getD l.1 0 + 1) u32Max)
        | _, _ => s.wakeLifetime })

/-! ### Send -/

/-- Whether an earlier wake to this generation is still pending. -/
def wakeOutstanding (s : MailboxState) (toKey : WriterKey) (generation : Generation) : Bool :=
  s.messages.any fun m => pendingTo toKey generation m && m.effectiveWake

end MailboxState

structure SendOutcome where
  id : MessageId
  toName : String
  toGeneration : Generation
  toCli : Cli
  toHead : String
  depth : ℕ
  replyTo : Option MessageId
  effectiveWake : Bool
  wakeDropped : Option WakeDrop
  toStopDrains : Bool
  toNudge : Bool
  toKey : WriterKey
  nudgeOutstanding : Bool
deriving DecidableEq

/-- The recipient label a refusal is counted under when the typed name did not resolve. -/
def unresolved : Account := "~unresolved"

namespace MailboxState

/-- The label a refused send's recipient is counted under. -/
def refusedRecipient (s : MailboxState) (req : SendRequest) : Account :=
  let recipient : Option WriterKey :=
    match req.recipient with
    | .name query => (s.resolveSkipping query req.deadKeys).toOption.map Binding.key
    | .key key => s.bindings[key]?.map Binding.key
    | .refused _ => none
  recipient.elim unresolved s.account

/-- Marks the derived parent as answered. -/
def answer (s : MailboxState) (parent : Option ℕ) : MailboxState :=
  match parent with
  | none => s
  | some i => { s with messages := s.messages.modify i fun h => { h with answered := true } }

def sendParties (s : MailboxState) (req : SendRequest) (account : Account) (fromGeneration : Option Generation)
    (admitted : Admitted) : WakeParties where
  account := account
  toAccount := s.account admitted.toKey
  sender := .head req.fromKey fromGeneration
  toKey := admitted.toKey
  toWakeChannel := req.stopDrains.contains admitted.toCli || req.nudgeClis.contains admitted.toCli

def sentHeader (req : SendRequest) (fromGeneration : Option Generation) (admitted : Admitted) (parent : Option MessageId)
    (effectiveWake : Bool) (now : Timestamp) (id : MessageId) : Header where
  id := id
  fromKey := req.fromKey
  fromGeneration := fromGeneration
  toKey := admitted.toKey
  toGeneration := admitted.toGeneration
  replyTo := parent
  replyToHint := req.replyTo
  depth := admitted.depth
  wake := req.wake
  effectiveWake := effectiveWake
  bodyBytes := byteLen req.body
  bodyRenderedBytes := some (Frame.renderedBodyLen req.body)
  bodyKept := true
  recordedAt := now
  changedAt := now
  offers := 0
  answered := false
  state := .recorded
  origin := none

def recordSend (s : MailboxState) (limits : Limits) (req : SendRequest) (account : Account)
    (fromGeneration : Option Generation) (admitted : Admitted) (now : Timestamp) (ids : IdSource) :
    SendOutcome × MailboxState × IdSource :=
  let parent := (admitted.parent.bind fun i => s.messages[i]?).map Header.id
  let s := s.answer admitted.parent
  let nudgeOutstanding := s.wakeOutstanding admitted.toKey admitted.toGeneration
  let ((effective, dropped), s) :=
    s.effectiveWake limits (s.sendParties req account fromGeneration admitted) req.wake now
  let (id, ids) := MessageId.mint ids
  let header := sentHeader req fromGeneration admitted parent effective now id
  ({ id, toName := admitted.toName, toGeneration := admitted.toGeneration, toCli := admitted.toCli,
     toHead := admitted.toHead, depth := admitted.depth, replyTo := parent, effectiveWake := effective,
     wakeDropped := dropped, toStopDrains := req.stopDrains.contains admitted.toCli,
     toNudge := req.nudgeClis.contains admitted.toCli, toKey := admitted.toKey, nudgeOutstanding },
    { s with messages := s.messages ++ [header] }, ids)

def send (s : MailboxState) (limits : Limits) (req : SendRequest) (now : Timestamp) (ids : IdSource) :
    Except Refusal SendOutcome × MailboxState × IdSource :=
  let (s, ids) := s.sweep limits now ids
  let now := s.lastNow
  let account := s.account req.fromKey
  let fromGeneration := s.currentGeneration req.fromKey
  let s := s.countAttempt limits account req.fromKey fromGeneration now
  match s.admitSend limits req account fromGeneration now with
  | .error refusal =>
    (.error refusal,
      { s with counters := s.counters.bump limits refusal.reason account (s.refusedRecipient req) now }, ids)
  | .ok admitted =>
    let (outcome, s, ids) := s.recordSend limits req account fromGeneration admitted now ids
    (.ok outcome, s, ids)

end MailboxState

/-! ### Claim -/

/-- Where a drain runs; a bounded step shows at most that many bytes. -/
inductive Checkpoint
  | stop
  | step
  | boundedStep (bound : ℕ)
deriving DecidableEq

namespace Checkpoint

def takesAllPending : Checkpoint → Bool
  | .stop => false
  | .step | .boundedStep _ => true

/-- The bytes the claimed frames may take: the bound less the pointer line. -/
def budget : Checkpoint → Option ℕ
  | .boundedStep bound => some (bound - Frame.pointerReserve)
  | .stop | .step => none

end Checkpoint

/-- What one claim took. -/
structure Claim where
  token : Option AttemptToken
  items : List ClaimedItem
  changed : Bool
  tooLarge : ℕ
deriving DecidableEq

def Claim.empty (changed : Bool) (tooLarge : ℕ) : Claim := ⟨none, [], changed, tooLarge⟩

/-- One eligible item a claim may take: a position in the messages or the notices. -/
inductive Pick
  | message (i : ℕ)
  | notice (i : ℕ)
deriving DecidableEq

/-- The token, deadline and generation one claim puts on what it takes. -/
structure Hold where
  token : AttemptToken
  deadline : Timestamp
  generation : Generation

def noticeEligible (toKey : WriterKey) (generation : Generation) (checkpoint : Checkpoint) (n : Notice) : Bool :=
  checkpoint.takesAllPending && n.state = .recorded && n.toKey = toKey && n.toGeneration = generation

def eligible (toKey : WriterKey) (generation : Generation) (checkpoint : Checkpoint) (h : Header) : Bool :=
  h.state = .recorded && h.toKey = toKey && h.toGeneration = generation &&
    (checkpoint.takesAllPending || h.effectiveWake)

/-- The name alphabet without the hyphen, every other character `_`. -/
def labelPart (text : List Char) : String := String.ofList (text.map fun c => if c ≠ '-' && inNameAlphabet c then c else '_')

/-- The label of a sender on another machine. -/
def remoteLabel (text : String) : String := "remote_" ++ labelPart (text.toList.take 24)

def Header.hold (hold : Hold) (now : Timestamp) (h : Header) : Header :=
  { h with
    offers := h.offers + 1, changedAt := now, state := .inFlight hold.token hold.deadline hold.generation }

def Notice.hold (hold : Hold) (n : Notice) : Notice :=
  { n with state := .inFlight hold.token hold.deadline hold.generation }

namespace MailboxState

/-- The label a frame shows for a sender. -/
def senderLabel (s : MailboxState) (sender : WriterKey) : String :=
  match s.bindings[sender]? with
  | some binding => binding.name
  | none => "unregistered_" ++ labelPart (sender.text.toList.take 8)

/-- The claimed item of a message at offer `attempt`. -/
def mailItem (s : MailboxState) (header : Header) (attempt : ℕ) : ClaimedItem :=
  let sender := s.bindings[header.fromKey]?
  let mailFrom : MailFrom :=
    match header.origin with
    | some origin =>
      let replyTo := origin.handle.getD (origin.machine ++ "/" ++ header.fromKey.text)
      { label := remoteLabel replyTo, cli := none, hasHead := true, key := header.fromKey, head := none,
        handle := origin.handle, replyTo := some replyTo }
    | none =>
      { label := s.senderLabel header.fromKey, cli := sender.map Binding.cli, hasHead := sender.isSome,
        key := header.fromKey, head := sender.map Binding.head, handle := none, replyTo := none }
  ⟨header.id, attempt, .mail mailFrom⟩

/-- The claimed item of a notice, which is offered once. -/
def noticeItem (s : MailboxState) (n : Notice) : ClaimedItem :=
  ⟨n.id, 1, .notice ⟨n.reason, n.about, s.senderLabel n.aboutTo⟩⟩

def hasPending (s : MailboxState) (key : WriterKey) (generation : Generation) : Bool :=
  s.messages.any (pendingTo key generation) || s.notices.any fun n => n.toKey = key && n.toGeneration = generation

def drainedSinceNewest (s : MailboxState) (key : WriterKey) (generation : Generation) : Bool :=
  let mail := (s.messages.filter (pendingTo key generation)).map Header.recordedAt
  let notices := (s.notices.filter fun n => n.toKey = key && n.toGeneration = generation).map Notice.createdAt
  match s.bindings[key]?.bind Binding.lastDrainAt, (mail ++ notices).max? with
  | _, none => true
  | none, some _ => false
  | some drained, some newest => newest ≤ drained

/-- The largest frame an item can render to, as it would be claimed now. -/
def worstCaseOf (s : MailboxState) (limits : Limits) : Pick → ℕ
  | .message i =>
    s.messages[i]?.elim 0 fun header =>
      let item := s.mailItem header (min (header.offers + 1) u32Max)
      match header.bodyRenderedBytes with
      | some rendered => Frame.boundedLen limits item rendered
      | none => Frame.worstCaseLen limits item header.bodyBytes
  | .notice i => s.notices[i]?.elim 0 fun n => Frame.worstCaseLen limits (s.noticeItem n) 0

/-- The positions of what is eligible, messages oldest first, then notices. -/
def eligiblePicks (s : MailboxState) (key : WriterKey) (generation : Generation) (checkpoint : Checkpoint) : List Pick :=
  ((s.messages.zipIdx.filter fun e => eligible key generation checkpoint e.1).map fun e => .message e.2) ++
    (s.notices.zipIdx.filter fun e => noticeEligible key generation checkpoint e.1).map fun e => .notice e.2

/-- What fits the budget beside the `used` bytes: an item too large alone is skipped and counted, and the first
that fits alone but not beside those already taken ends the selection. -/
def fit (size : Pick → ℕ) (budget : ℕ) : List Pick → ℕ → Bool → List Pick × ℕ
  | [], _, _ => ([], 0)
  | pick :: rest, used, first =>
    if budget < size pick then
      let (picks, tooLarge) := fit size budget rest used first
      (picks, min (tooLarge + 1) u32Max)
    else
      let joined := if first then size pick else size pick + byteLen Frame.separator
      if budget < used + joined then ([], 0)
      else
        let (picks, tooLarge) := fit size budget rest (used + joined) false
        (pick :: picks, tooLarge)

/-- The items a claim takes, and how many a bounded step skipped as too large alone. -/
def select (s : MailboxState) (limits : Limits) (key : WriterKey) (generation : Generation) (checkpoint : Checkpoint) :
    List Pick × ℕ :=
  match checkpoint.budget with
  | none => (s.eligiblePicks key generation checkpoint, 0)
  | some budget => fit (s.worstCaseOf limits) budget (s.eligiblePicks key generation checkpoint) 0 true

/-- Moves one eligible item to in-flight; picks are positions of the lists, so there always is one. -/
def take (s : MailboxState) (hold : Hold) (now : Timestamp) : Pick → Option ClaimedItem × MailboxState
  | .message i =>
    (s.messages[i]?.map fun h => s.mailItem h (h.offers + 1),
      { s with messages := s.messages.modify i (Header.hold hold now) })
  | .notice i => (s.notices[i]?.map s.noticeItem, { s with notices := s.notices.modify i (Notice.hold hold) })

def takeAll (hold : Hold) (now : Timestamp) : List Pick → MailboxState → List ClaimedItem × MailboxState
  | [], s => ([], s)
  | pick :: rest, s =>
    let (item, s) := s.take hold now pick
    let (items, s) := takeAll hold now rest s
    (item.toList ++ items, s)

def stampDrain (s : MailboxState) (key : WriterKey) (now : Timestamp) : MailboxState :=
  match s.bindings[key]? with
  | none => s
  | some binding => { s with bindings := s.bindings.insert key { binding with lastDrainAt := some now } }

/-- Whether a bounded step would take nothing but a pointer that is stamped already. -/
def pointerOnly (s : MailboxState) (limits : Limits) (key : WriterKey) (generation : Generation)
    (checkpoint : Checkpoint) (now : Timestamp) : Bool :=
  checkpoint.budget.isSome && !s.timeRuleDue limits now && s.drainedSinceNewest key generation &&
    (s.select limits key generation checkpoint).1 = [] && 0 < (s.select limits key generation checkpoint).2

/-- Claims the eligible messages to the key, oldest first, then its notices, under one attempt token.  A claim by a
generation that is not current takes nothing and changes nothing. -/
def claim (s : MailboxState) (limits : Limits) (key : WriterKey) (generation : Generation) (checkpoint : Checkpoint)
    (now : Timestamp) (ids : IdSource) : Claim × MailboxState × IdSource :=
  if s.currentGeneration key ≠ some generation || !s.hasPending key generation then (.empty false 0, s, ids)
  else if s.pointerOnly limits key generation checkpoint now then
    (.empty false (s.select limits key generation checkpoint).2, s, ids)
  else
    let (s, ids) := s.sweep limits now ids
    let now := s.lastNow
    let s := s.stampDrain key now
    match s.select limits key generation checkpoint with
    | ([], tooLarge) => (.empty true tooLarge, s, ids)
    | (picks, tooLarge) =>
      let (token, ids) := AttemptToken.mint ids
      let (items, s) := takeAll ⟨token, now.plusSecs limits.inFlightTtlSec, generation⟩ now picks s
      (⟨some token, items, true, tooLarge⟩, s, ids)

end MailboxState

/-! ### Finish -/

structure Finished where
  offered : List MessageId
  ignored : List MessageId
  changed : Bool
deriving DecidableEq

def Header.heldBy (key : WriterKey) (token : AttemptToken) (h : Header) : Option Generation :=
  match h.state with
  | .inFlight held _ claimedBy => if h.toKey = key ∧ held = token then some claimedBy else none
  | _ => none

def Notice.heldBy (key : WriterKey) (token : AttemptToken) (n : Notice) : Option Generation :=
  match n.state with
  | .inFlight held _ claimedBy => if n.toKey = key ∧ held = token then some claimedBy else none
  | .recorded => none

namespace MailboxState

/-- Whether a finish by the generation settles what `claimedBy` claimed. -/
def accepts (s : MailboxState) (key : WriterKey) (generation claimedBy : Generation) : Bool :=
  s.currentGeneration key = some generation && claimedBy = generation

/-- The message after a finish. -/
def finishHeader (s : MailboxState) (key : WriterKey) (generation : Generation) (token : AttemptToken)
    (since : Timestamp) (h : Header) : Header :=
  if (h.heldBy key token).any (s.accepts key generation) then { h with state := .offered since, changedAt := since }
  else h

/-- Finishes a claim after its frame was emitted: what is still in flight with the token is offered only when the
generation is both the address's current one and the claim's. -/
def finish (s : MailboxState) (key : WriterKey) (generation : Generation) (token : AttemptToken) (now : Timestamp) :
    Finished × MailboxState :=
  let since := max s.lastNow now
  let heldMail := s.messages.filter fun h => (h.heldBy key token).isSome
  let heldNotices := s.notices.filter fun n => (n.heldBy key token).isSome
  let mailDone (h : Header) := (h.heldBy key token).any (s.accepts key generation)
  let noticeDone (n : Notice) := (n.heldBy key token).any (s.accepts key generation)
  let touched := !heldMail.isEmpty || !heldNotices.isEmpty
  ({ offered := (heldMail.filter mailDone).map Header.id ++ (heldNotices.filter noticeDone).map Notice.id
     ignored := (heldMail.filter fun h => !mailDone h).map Header.id ++
       (heldNotices.filter fun n => !noticeDone n).map Notice.id
     changed := touched },
    { s with
      messages := s.messages.map (s.finishHeader key generation token since)
      notices := s.notices.filter fun n => !noticeDone n
      lastNow := if touched then since else s.lastNow })

/-- Records how a Stop of the key's generation ended: a block adds one, a pass returns the count to zero. -/
def noteStop (s : MailboxState) (key : WriterKey) (generation : Generation) (blocked : Bool) : Bool × MailboxState :=
  match s.bindings[key]? with
  | none => (false, s)
  | some binding =>
    if binding.generation ≠ generation then (false, s)
    else
      let stopBlocks := if blocked then min (binding.stopBlocks + 1) u32Max else 0
      (decide (stopBlocks ≠ binding.stopBlocks), { s with bindings := s.bindings.insert key { binding with stopBlocks } })

end MailboxState

end Forgent.Mailbox
