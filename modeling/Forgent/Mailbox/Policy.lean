import Forgent.Mailbox.Registry
import Mathlib.Data.Prod.Lex

/-!
# Name resolution and the sending policies

The checks made at a send, in their fixed order; the first that fails refuses it.  The attempt is counted before
any check.
-/

namespace Forgent.Mailbox

/-! ### Refusals -/

structure AliasCandidate where
  id : String
  handle : String
  liveness : Liveness
deriving DecidableEq

/-- Why an alias names no head of this record. -/
inductive AliasRefusal
  | unknown (candidates : List AliasCandidate)
  | ambiguous (candidates : List AliasCandidate)
deriving DecidableEq

/-- Why a typed name did not resolve to exactly one head. -/
inductive ResolveRefusal
  | group
  | ambiguous (candidates : List String)
  | unknown (candidates : List String)
deriving DecidableEq

/-- A refused send: answered to the sender, never recorded. -/
inductive Refusal
  | group
  | unknownName (candidates : List String)
  | ambiguousName (candidates : List String)
  | selfSend
  | replyToNotOffered
  | tooLarge (maxBytes : ℕ)
  | sessionBudget (budget windowSec : ℕ)
  | lifetimeCap (cap : ℕ)
  | tooDeep (maxDepth : ℕ)
  | loop (maxPerWindow windowSec : ℕ)
  | queueFull (cap : ℕ)
  | senderShareFull (perSender : ℕ)
  | senderKeyTooLong (maxChars : ℕ)
  | alias (refusal : AliasRefusal)
deriving DecidableEq

namespace Refusal

/-- The counter this refusal bumps. -/
def reason : Refusal → CounterReason
  | .group => .group
  | .unknownName _ => .unknownName
  | .ambiguousName _ => .ambiguousName
  | .selfSend => .selfSend
  | .replyToNotOffered => .replyToNotOffered
  | .tooLarge _ => .tooLarge
  | .sessionBudget _ _ => .sessionBudget
  | .lifetimeCap _ => .lifetimeCap
  | .tooDeep _ => .tooDeep
  | .loop _ _ => .loop
  | .queueFull _ => .queueFull
  | .senderShareFull _ => .senderShareFull
  | .senderKeyTooLong _ => .senderKeyTooLong
  | .alias (.unknown _) => .unknownName
  | .alias (.ambiguous _) => .ambiguousName

def ofResolve : ResolveRefusal → Refusal
  | .group => .group
  | .unknown candidates => .unknownName candidates
  | .ambiguous candidates => .ambiguousName candidates

end Refusal

/-- Who a send is for. -/
inductive Recipient
  | name (query : String)
  | key (key : WriterKey)
  | refused (refusal : AliasRefusal)

structure SendRequest where
  fromKey : WriterKey
  recipient : Recipient
  body : String
  wake : Bool
  replyTo : Option MessageId
  deadKeys : List WriterKey
  stopDrains : List Cli
  nudgeClis : List Cli

/-- What a send that passed every check records. -/
structure Admitted where
  toKey : WriterKey
  toName : String
  toGeneration : Generation
  toCli : Cli
  toHead : String
  /-- The position of the derived parent in the header list. -/
  parent : Option ℕ
  depth : ℕ

/-! ### Resolution -/

def isWhitespace (c : Char) : Bool :=
  [(0x9, 0xD), (0x20, 0x20), (0x85, 0x85), (0xA0, 0xA0), (0x1680, 0x1680), (0x2000, 0x200A), (0x2028, 0x2029),
    (0x202F, 0x202F), (0x205F, 0x205F), (0x3000, 0x3000)].any fun r => r.1 ≤ c.toNat && c.toNat ≤ r.2

/-- Whether a typed name addresses several heads at once. -/
def isGroup (query : String) : Bool := query.toList.any fun c => c == ',' || c == '*' || isWhitespace c

def namesOf (bindings : List Binding) : List String := (bindings.map Binding.name).mergeSort (· ≤ ·)

namespace MailboxState

/-- The bindings whose head the store did not judge dead. -/
def live (s : MailboxState) (skipped : List WriterKey) : List Binding := s.bindingList.filter fun b => b.key ∉ skipped

/-- The binding of exactly the key, unless the store judged it dead. -/
def resolveKey (s : MailboxState) (key : WriterKey) (skipped : List WriterKey) : Except ResolveRefusal Binding :=
  match s.bindings[key]? with
  | some binding => if key ∈ skipped then .error (.unknown (namesOf (s.live skipped))) else .ok binding
  | none => .error (.unknown (namesOf (s.live skipped)))

/-- An exact name or key names one head whatever its judgement. -/
def matchExact (s : MailboxState) (skipped : List WriterKey) (p : Binding → Bool) :
    Option (Except ResolveRefusal Binding) :=
  (s.bindingList.find? p).map fun exact =>
    if exact.key ∈ skipped then .error (.unknown (namesOf (s.live skipped))) else .ok exact

/-- A prefix matches only heads not skipped. -/
def matchPrefix (s : MailboxState) (skipped : List WriterKey) (p : Binding → Bool) :
    Option (Except ResolveRefusal Binding) :=
  match (s.live skipped).filter p with
  | [] => none
  | [one] => some (.ok one)
  | many => some (.error (.ambiguous (namesOf many)))

def resolveSkipping (s : MailboxState) (query : String) (skipped : List WriterKey) : Except ResolveRefusal Binding :=
  if isGroup query then .error .group
  else if query = "" then .error (.unknown (namesOf (s.live skipped)))
  else
    ((s.matchExact skipped fun b => b.name = query) <|>
      (s.matchPrefix skipped fun b => query.toList.isPrefixOf b.name.toList) <|>
      (s.matchExact skipped fun b => b.key.text = query) <|>
      (s.matchPrefix skipped fun b => query.toList.isPrefixOf b.key.text.toList)).getD
      (.error (.unknown (namesOf (s.live skipped))))

def resolve (s : MailboxState) (skipped : List WriterKey) : Recipient → Except Refusal Binding
  | .name query => (s.resolveSkipping query skipped).mapError .ofResolve
  | .key key => (s.resolveKey key skipped).mapError .ofResolve
  | .refused refusal => .error (.alias refusal)

/-! ### Counting the attempt -/

/-- The attempts of the rolling window, this one included, and no more than the budget and one. -/
def attemptsWith (limits : Limits) (attempts : List Timestamp) (now : Timestamp) : List Timestamp :=
  let recent := (attempts ++ [now]).dropWhile fun since => now.isPast since limits.humanFallbackWindowSec
  recent.drop (recent.length - (limits.sessionBudget + 1))

def countAttemptFor (s : MailboxState) (limits : Limits) (account : Account) (lifetime : Option String) (now : Timestamp) :
    MailboxState :=
  { s with
    budget := s.budget.insert account (attemptsWith limits (s.budget.getD account []) now)
    lifetime :=
      match lifetime with
      | none => s.lifetime
      | some key => s.lifetime.insert key (min (s.lifetime.getD key 0 + 1) u32Max) }

def countAttempt (s : MailboxState) (limits : Limits) (account : Account) (fromKey : WriterKey)
    (fromGeneration : Option Generation) (now : Timestamp) : MailboxState :=
  s.countAttemptFor limits account (fromGeneration.map (lifetimeKey fromKey)) now

/-! ### The checks -/

def checkSenderKey (limits : Limits) (fromKey : WriterKey) : Except Refusal Unit :=
  if limits.frameMaxHeaderChars < fromKey.text.length then .error (.senderKeyTooLong limits.frameMaxHeaderChars)
  else .ok ()

def checkNotSelf (fromKey toKey : WriterKey) : Except Refusal Unit :=
  if fromKey = toKey then .error .selfSend else .ok ()

/-- Whether the header went from `toKey` to the current generation of `fromKey`. -/
def offeredTo (header : Header) (toKey fromKey : WriterKey) (fromGeneration : Option Generation) : Bool :=
  header.fromKey = toKey && header.toKey = fromKey && some header.toGeneration = fromGeneration

/-- A hint must name a message the recipient offered to the sender's current generation. -/
def checkReplyHint (s : MailboxState) (replyTo : Option MessageId) (fromKey : WriterKey)
    (fromGeneration : Option Generation) (toKey : WriterKey) : Except Refusal Unit :=
  match replyTo with
  | none => .ok ()
  | some hint =>
    if s.messages.any fun h => h.id = hint && offeredTo h toKey fromKey fromGeneration &&
        (match h.state with | .offered _ => true | _ => false) then .ok ()
    else .error .replyToNotOffered

def checkSize (limits : Limits) (body : String) : Except Refusal Unit :=
  if limits.maxBodyBytes < byteLen body then .error (.tooLarge limits.maxBodyBytes) else .ok ()

/-- Attempts inside the rolling window, this one included. -/
def checkBudget (s : MailboxState) (limits : Limits) (account : Account) : Except Refusal Unit :=
  if limits.sessionBudget < (s.budget.getD account []).length then
    .error (.sessionBudget limits.sessionBudget limits.humanFallbackWindowSec)
  else .ok ()

def checkLifetimeKey (s : MailboxState) (limits : Limits) (key : String) : Except Refusal Unit :=
  if limits.sessionLifetimeCap < s.lifetime.getD key 0 then .error (.lifetimeCap limits.sessionLifetimeCap) else .ok ()

/-- A sender with no head is exempt. -/
def checkLifetime (s : MailboxState) (limits : Limits) (fromKey : WriterKey) : Option Generation → Except Refusal Unit
  | none => .ok ()
  | some generation => s.checkLifetimeKey limits (lifetimeKey fromKey generation)

/-- Whether the header can be the parent of a send now, and since when it is offered. -/
def offeredSince (limits : Limits) (now : Timestamp) (header : Header) : Option Timestamp :=
  match header.state with
  | .offered since => if now.isPast since limits.loopWindowSec then none else some since
  | _ => none

/-- The position of the most recently offered, unanswered message from `toKey` to the sender's current generation,
offered no longer ago than the loop window. -/
def derivedParent (s : MailboxState) (limits : Limits) (toKey fromKey : WriterKey) (fromGeneration : Option Generation)
    (now : Timestamp) : Option ℕ :=
  (((s.messages.zipIdx.filter fun e => offeredTo e.1 toKey fromKey fromGeneration && !e.1.answered).filterMap fun e =>
    (offeredSince limits now e.1).map fun since => toLex (since, e.2)).max?).map fun e => (ofLex e).2

def checkDepth (limits : Limits) (depth : ℕ) : Except Refusal Unit :=
  if limits.chainMaxDepth < depth then .error (.tooDeep limits.chainMaxDepth) else .ok ()

/-- Messages of the account to the recipient inside the loop window. -/
def recentFrom (s : MailboxState) (limits : Limits) (account : Account) (toKey : WriterKey) (now : Timestamp) : ℕ :=
  s.messages.countP fun h =>
    h.toKey = toKey && !now.isPast h.recordedAt limits.loopWindowSec && s.headerIsAccount h account

def checkLoop (s : MailboxState) (limits : Limits) (account : Account) (toKey : WriterKey) (now : Timestamp) :
    Except Refusal Unit :=
  if limits.loopMaxPerWindow ≤ s.recentFrom limits account toKey now then
    .error (.loop limits.loopMaxPerWindow limits.loopWindowSec)
  else .ok ()

/-- Whether the header is pending to the address. -/
def pendingTo (toKey : WriterKey) (generation : Generation) (h : Header) : Bool :=
  h.toKey = toKey && h.toGeneration = generation && h.state.pending

def queued (s : MailboxState) (toKey : WriterKey) (generation : Generation) : ℕ :=
  s.messages.countP (pendingTo toKey generation)

def checkQueue (s : MailboxState) (limits : Limits) (toKey : WriterKey) (generation : Generation) : Except Refusal Unit :=
  if limits.queueCap ≤ s.queued toKey generation then .error (.queueFull limits.queueCap) else .ok ()

def share (s : MailboxState) (account : Account) (toKey : WriterKey) (generation : Generation) : ℕ :=
  s.messages.countP fun h => pendingTo toKey generation h && s.headerIsAccount h account

def checkShare (s : MailboxState) (limits : Limits) (account : Account) (toKey : WriterKey) (generation : Generation) :
    Except Refusal Unit :=
  if limits.queuePerSender ≤ s.share account toKey generation then .error (.senderShareFull limits.queuePerSender)
  else .ok ()

/-- The depth of a send with the derived parent. -/
def depthUnder (s : MailboxState) (parent : Option ℕ) : ℕ :=
  (parent.bind fun i => s.messages[i]?).elim 0 fun h => min (h.depth + 1) u32Max

/-- Runs the checks for an attempt already counted. -/
def admitSend (s : MailboxState) (limits : Limits) (req : SendRequest) (account : Account)
    (fromGeneration : Option Generation) (now : Timestamp) : Except Refusal Admitted := do
  checkSenderKey limits req.fromKey
  let recipient ← s.resolve req.deadKeys req.recipient
  checkNotSelf req.fromKey recipient.key
  s.checkReplyHint req.replyTo req.fromKey fromGeneration recipient.key
  checkSize limits req.body
  s.checkBudget limits account
  s.checkLifetime limits req.fromKey fromGeneration
  let parent := s.derivedParent limits recipient.key req.fromKey fromGeneration now
  let depth := s.depthUnder parent
  checkDepth limits depth
  s.checkLoop limits account recipient.key now
  s.checkQueue limits recipient.key recipient.generation
  s.checkShare limits account recipient.key recipient.generation
  return {
    toKey := recipient.key
    toName := recipient.name
    toGeneration := recipient.generation
    toCli := recipient.cli
    toHead := recipient.head
    parent
    depth }

end MailboxState

end Forgent.Mailbox
