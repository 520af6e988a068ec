import Forgent.Mailbox.Run

/-!
# The checkpoint hook

`begin` is the first hold of a hook call: it reads the payload, registers the head, applies the rule on Stop blocks
and claims.  The payload arrives as the JSON value of the standard input; what the operating system and the JSON
library answer are the fields of `Host`.
-/

namespace Forgent.Mailbox.Hook

/-! ### Payloads -/

inductive HookEvent
  | stop
  | postToolUse
deriving DecidableEq

inductive Adapter
  | claude
  | codex
  | agy
  | pi
  | omp
deriving DecidableEq

namespace Adapter

def word : Adapter → String
  | claude => "claude"
  | codex => "codex"
  | agy => "agy"
  | pi => "pi"
  | omp => "omp"

def cli (adapter : Adapter) : Cli := ⟨adapter.word, by cases adapter <;> decide⟩

/-- Whether the CLI's session id is its native thread handle too. -/
def sessionIsHandle : Adapter → Bool
  | codex => true
  | _ => false

end Adapter

/-- The facts of one hook payload. -/
structure Payload where
  event : HookEvent
  subordinate : Bool
  firstStop : Option Bool
  session : Option String
deriving DecidableEq

inductive Unparsed
  | malformed
  | eventMismatch
deriving DecidableEq

def asBool : Json → Option Bool
  | .bool b => some b
  | _ => none

/-- The event's name in the payloads that name one. -/
def HookEvent.hookName : HookEvent → String
  | stop => "Stop"
  | postToolUse => "PostToolUse"

/-- `hook_event_name` names the event. -/
def parseNamed (event : HookEvent) (object : Json) : Except Unparsed Unit :=
  if (object.field "hook_event_name").bind Json.asStr = some event.hookName then .ok () else .error .eventMismatch

/-- The payload's `session_id`, when it is a text that is not empty. -/
def sessionId (object : Json) : Option String := ((object.field "session_id").bind Json.asStr).filter (· ≠ "")

/-- Whether a Stop is the first of its turn, for a CLI that says whether a Stop hook is active already. -/
def firstStopOf (event : HookEvent) (object : Json) : Option Bool :=
  match event with
  | .stop => ((object.field "stop_hook_active").bind asBool).map not
  | .postToolUse => none

namespace Claude

def parse (event : HookEvent) (object : Json) : Except Unparsed Payload := do
  parseNamed event object
  return ⟨event, (object.field "agent_id").isSome, firstStopOf event object, sessionId object⟩

end Claude

namespace Codex

def parse (event : HookEvent) (object : Json) : Except Unparsed Payload := do
  parseNamed event object
  return ⟨event, (object.field "agent_id").isSome || (object.field "agent_type").isSome, firstStopOf event object,
    sessionId object⟩

end Codex

namespace Agy

/-- No event of this CLI can be told to be the head's, so every one is subordinate. -/
def parse (event : HookEvent) (object : Json) : Except Unparsed Payload :=
  match event with
  | .stop =>
    match object.field "executionNum" with
    | none => .error .eventMismatch
    | some n => .ok ⟨event, true, n.asU64.map (· == 0), none⟩
  | .postToolUse =>
    match object.field "toolCall" with
    | none => .error .eventMismatch
    | some _ => .ok ⟨event, true, none, none⟩

end Agy

namespace Extension

/-- Anything but an explicit `false` under `subagent` is a subagent's or unknown. -/
def parse (event : HookEvent) (object : Json) : Except Unparsed Payload := do
  parseNamed event object
  return ⟨event, decide ((object.field "subagent").bind asBool ≠ some false), none, sessionId object⟩

end Extension

/-- An output shape a CLI was recorded injecting. -/
inductive Shape
  | postToolUseContext
  | stopBlock
  | plain
  | extensionToolResult
deriving DecidableEq

namespace Adapter

/-- The facts of one payload; `none` is input that is not JSON. -/
def parse (adapter : Adapter) (event : HookEvent) : Option Json → Except Unparsed Payload
  | some (.obj fields) =>
    match adapter with
    | claude => Claude.parse event (.obj fields)
    | codex => Codex.parse event (.obj fields)
    | agy => Agy.parse event (.obj fields)
    | pi | omp => Extension.parse event (.obj fields)
  | _ => .error .malformed

def shape : Adapter → HookEvent → Option Shape
  | claude, .stop | codex, .stop | agy, .stop => some .stopBlock
  | claude, .postToolUse | codex, .postToolUse => some .postToolUseContext
  | agy, .postToolUse => none
  | pi, .stop | omp, .stop => none
  | pi, .postToolUse | omp, .postToolUse => some .extensionToolResult

end Adapter

/-! ### Contract and call -/

/-- The measured hook facts of one CLI. -/
structure AdapterFacts where
  postToolUseMaxBytes : Option ℕ
  stopDelivers : Bool

/-- The CLIs an adapters contract lists, with the platform each one's facts were measured on. -/
structure TestedClis where
  facts : Table AdapterFacts
  platforms : Table String

/-- The facts of a CLI, only on the platform they were measured on. -/
def TestedClis.factsOn (tested : TestedClis) (os : String) (adapter : Adapter) : Option AdapterFacts :=
  if tested.platforms[adapter.word]? = some os then tested.facts[adapter.word]? else none

/-- A process identity as it is recorded. -/
inductive ProcessRecord
  | mk (host bootId pidNs : Option String) (pid : Option ℕ) (startTime : Option String) (anchor : Option ProcessRecord)

namespace ProcessRecord

/-- Whether the record names a process at all. -/
def isComplete : ProcessRecord → Bool
  | mk _ _ _ pid startTime _ => pid.isSome && startTime.isSome

/-- The record as a JSON object, with the fields that are known. -/
def toJson : ProcessRecord → Json
  | mk host bootId pidNs pid startTime anchor =>
    let text (key : String) (value : Option String) := value.toList.map fun v => (key, Json.str v)
    .obj (text "host" host ++ text "bootId" bootId ++ text "pidNs" pidNs ++
      (pid.toList.map fun p => ("pid", Json.nat p)) ++ text "startTime" startTime ++
      match anchor with
      | none => []
      | some a => [("anchor", a.toJson)])

end ProcessRecord

/-- What the JSON library and the operating system answer. -/
structure Host where
  /-- The text of a JSON value. -/
  render : Json → String
  /-- The store's judgement of a stored binding against the registering head. -/
  judgeStored : Binding → ProcessRecord → StoredHead
  os : String

/-- The head process of the calling CLI. -/
structure HeadFacts where
  process : ProcessRecord
  ownSuffix : Option String
  handle : Option String

/-- One hook call, with everything the shell resolved. -/
structure HookCall where
  adapter : Adapter
  event : HookEvent
  stdin : Option Json
  writer : WriterKey
  project : String
  head : HeadFacts

/-- Why a hook call prints nothing. -/
inductive QuietReason
  | malformed
  | eventMismatch
  | subordinate
  | untested
  | writerMismatch
  | headUnknown
  | registration (refusal : RegisterRefusal)
  | nothingEligible
  | stopBlockCap
  | stopChannelOff
  | noStepBound
deriving DecidableEq

def Unparsed.quietReason : Unparsed → QuietReason
  | malformed => .malformed
  | eventMismatch => .eventMismatch

/-- What the second hold needs. -/
structure FinishTicket where
  key : WriterKey
  generation : Generation
  token : AttemptToken
  stopBlock : Bool

/-- A claim that the shell renders, writes and then finishes. -/
structure Claimed where
  items : List ClaimedItem
  tooLarge : ℕ
  shape : Shape
  ticket : FinishTicket

/-- A step that writes the pointer line alone. -/
structure PointerOnly where
  count : ℕ
  changed : Bool
  shape : Shape

inductive Begun
  | quiet (reason : QuietReason) (stateChanged : Bool) (registered : Option Generation)
  | claimed (claimed : Claimed)
  | pointer (pointer : PointerOnly)

/-- Whether `begin` says that the snapshot must be written. -/
def Begun.stateChanged : Begun → Bool
  | quiet _ stateChanged _ => stateChanged
  | claimed _ => true
  | pointer p => p.changed

/-! ### The first hold -/

/-- What one hold answers and leaves, with the numbers that are left. -/
abbrev Holding := Begun × MailboxState × IdSource

/-- A quiet result that changed nothing. -/
def quiet (reason : QuietReason) (s : MailboxState) (ids : IdSource) : Holding := (.quiet reason false none, s, ids)

/-- The registration a call asks for. -/
def HookCall.request (host : Host) (call : HookCall) (payload : Payload) : RegisterRequest where
  key := call.writer
  cli := call.adapter.cli
  project := call.project
  ownSuffix := call.head.ownSuffix
  head := host.render call.head.process.toJson
  handle := call.head.handle <|> payload.session.filter fun _ => call.adapter.sessionIsHandle

/-- A registered head, and what the call has changed so far. -/
structure Bound where
  key : WriterKey
  generation : Generation
  registered : Option Generation
  changed : Bool
  shape : Shape

/-- Claims for the head, and ends quiet or with a pointer when nothing was taken. -/
def drain (s : MailboxState) (limits : Limits) (bound : Bound) (checkpoint : Checkpoint) (now : Timestamp)
    (ids : IdSource) : Holding :=
  let (claim, s, ids) := s.claim limits bound.key bound.generation checkpoint now ids
  let changed := bound.changed || claim.changed
  match claim.token with
  | some token =>
    (.claimed ⟨claim.items, claim.tooLarge, bound.shape, bound.key, bound.generation, token, checkpoint = .stop⟩,
      s, ids)
  | none =>
    if 0 < claim.tooLarge then (.pointer ⟨claim.tooLarge, changed, bound.shape⟩, s, ids)
    else if checkpoint = .stop then
      let (reset, s) := s.noteStop bound.key bound.generation false
      (.quiet .nothingEligible (changed || reset) bound.registered, s, ids)
    else (.quiet .nothingEligible changed bound.registered, s, ids)

/-- A Stop whose head has blocked too often in a row passes without claiming. -/
def drainStop (s : MailboxState) (limits : Limits) (stopBlockMax : ℕ) (bound : Bound) (firstStop : Option Bool)
    (now : Timestamp) (ids : IdSource) : Holding :=
  let (first, s) := if firstStop = some true then s.noteStop bound.key bound.generation false else (false, s)
  if stopBlockMax ≤ s.bindings[bound.key]?.elim 0 Binding.stopBlocks then
    let (reset, s) := s.noteStop bound.key bound.generation false
    (.quiet .stopBlockCap (bound.changed || first || reset) bound.registered, s, ids)
  else drain s limits { bound with changed := bound.changed || first } .stop now ids

/-- What follows the registration of the head. -/
def enter (s : MailboxState) (limits : Limits) (stopBlockMax : ℕ) (call : HookCall) (facts : AdapterFacts)
    (firstStop : Option Bool) (generation : Generation) (registered : Option Generation) (now : Timestamp)
    (ids : IdSource) : Holding :=
  let delivers := match call.event with
    | .stop => facts.stopDelivers
    | .postToolUse => facts.postToolUseMaxBytes.isSome
  match (call.adapter.shape call.event).filter fun _ => delivers with
  | none =>
    (.quiet (if call.event = .stop then .stopChannelOff else .noStepBound) registered.isSome registered, s, ids)
  | some shape =>
    let bound : Bound := ⟨call.writer, generation, registered, registered.isSome, shape⟩
    match call.event with
    | .stop => drainStop s limits stopBlockMax bound firstStop now ids
    | .postToolUse =>
      match facts.postToolUseMaxBytes with
      | some bytes => drain s limits bound (.boundedStep bytes) now ids
      | none => (.quiet .noStepBound bound.changed registered, s, ids)

/-- The generation a registration answers, and whether it began it. -/
def generationOf : Registered → Generation × Option Generation
  | .refreshed _ generation => (generation, none)
  | .created _ generation | .replaced _ generation => (generation, some generation)

/-- Parses, skips what is not the head's, registers the head, applies the rule on Stop blocks and claims. -/
def begin (host : Host) (tested : TestedClis) (s : MailboxState) (limits : Limits) (stopBlockMax : ℕ) (call : HookCall)
    (now : Timestamp) (ids : IdSource) : Holding :=
  match call.adapter.parse call.event call.stdin with
  | .error why => quiet why.quietReason s ids
  | .ok payload =>
    if payload.subordinate then quiet .subordinate s ids
    else
      match tested.factsOn host.os call.adapter with
      | none => quiet .untested s ids
      | some facts =>
        if payload.session.any fun session => session ≠ call.writer.text then quiet .writerMismatch s ids
        else if !call.head.process.isComplete then quiet .headUnknown s ids
        else
          let judged := s.bindings[call.writer]?.map fun binding => host.judgeStored binding call.head.process
          match s.register limits (call.request host payload) judged now ids with
          | (.error refusal, s, ids) => quiet (.registration refusal) s ids
          | (.ok result, s, ids) =>
            enter s limits stopBlockMax call facts payload.firstStop (generationOf result).1
              (generationOf result).2 now ids

end Forgent.Mailbox.Hook
