import Forgent.Envelope
import Forgent.Knowledge
import Forgent.Steps

/-!
# The fold of a history into a view

`foldEvents` applies an ordered history, event by event, to a view: the work items and everything that
is kept about them, the knowledge registry, and three records of the fold itself (the highest number of
every stream, who last decided an item's existence and status, and the conflicts).

An event may carry a precondition, what its writer relied on.  Where it does not hold any more the event
is skipped and recorded as a conflict, unless its writer had seen every event before it: then the
history is one no writer could have made, and the fold stops.
-/

namespace Forgent

open Json

/-! ### Events and views -/

/-- Where a stream event comes from; an event of the old log has no such members. -/
structure Source where
  origin : String
  stream : String
  seq : ℕ
  seen : Positions
  h : String

structure LogEvent where
  eventType : String
  payload : Option Json
  ts : String
  v : Option ℕ
  source : Option Source

/-- An event of a stream, as the store's reader hands it on. -/
def LogEvent.ofEnvelope (e : Envelope) : LogEvent where
  eventType := e.eventType
  payload := some e.payload
  ts := e.ts
  v := some e.v
  source := some { origin := e.origin, stream := e.stream, seq := e.seq, seen := e.seen, h := e.h }

/-- The event that last decided something. -/
structure Head where
  h : String
  origin : String
  stream : String
  seq : ℕ
deriving DecidableEq

structure Heads where
  existence : Option Head
  status : Option Head
deriving DecidableEq

inductive Reason where
  | existence
  | expectedStatus
  | capacity
deriving DecidableEq

structure Conflict where
  h : String
  id : Option Json
  origin : String
  reason : Reason
  against : Option String
deriving DecidableEq

structure View where
  work : Table Fields
  decisions : List Fields
  streamHeads : Positions
  preconditionHeads : Table Heads
  conflicts : List Conflict
  gates : Table Fields
  settlements : Table (List Fields)
  learnings : Table (List Fields)
  decisionsById : Table (List Fields)
  outcomes : Table Fields
  callThreads : Table (List Fields)
  discovery : Table (List Fields)
  parkResolutions : Table (List Fields)
  focus : Option String
  knowledge : Knowledge

/-- `{ work: {}, decisions: [] }`. -/
def View.empty : View where
  work := ∅
  decisions := []
  streamHeads := ∅
  preconditionHeads := ∅
  conflicts := []
  gates := ∅
  settlements := ∅
  learnings := ∅
  decisionsById := ∅
  outcomes := ∅
  callThreads := ∅
  discovery := ∅
  parkResolutions := ∅
  focus := none
  knowledge := .empty

/-- What stops a fold. -/
inductive FoldError where
  /-- `work-replay-precondition`. -/
  | precondition
  /-- A `KnowledgeValidationError`. -/
  | knowledge (message : String)
deriving DecidableEq

/-- The rest of the program a fold asks. -/
structure Host where
  arithmetic : Arithmetic
  domains : Domains

/-! ### What an event does to an item -/

/-- The object with these members, without those that are undefined. -/
def record (members : List (String × Option Json)) : Fields :=
  members.foldl (fun f m => f.keep m.1 m.2) ∅

/-- An object as a value. -/
def Fields.toJson (f : Fields) : Json := .obj f.toList

section

variable (host : Host)

def foldLegacyStage (target : Fields) (item : Option Fields) : Fields :=
  match target["stage"]? with
  | none => target
  | some stage =>
    let target :=
      if "workflowStep" ∈ target then target
      else target.set "workflowStep"
        (canonicalStep host.arithmetic host.domains (item.orElse fun _ => some target) (some stage))
    target.erase "stage"

/-- The older name of the size. -/
def foldTier (target : Fields) : Fields :=
  match target["tier"]? with
  | none => target
  | some tier => (if "size" ∈ target then target else target.insert "size" tier).erase "tier"

def withoutPrecondition (payload : Option Json) : Fields := (spread payload).erase "precondition"

/-- The item a `work.add` leaves, with the defaults of a work item. -/
def addedItem (payload : Option Json) : Fields :=
  let normalized := foldTier (withoutPrecondition payload)
  let normalized :=
    if "rigor" ∉ normalized ∧ same normalized["risk"]? (some (.str "heavy")) then
      normalized.insert "rigor" (.str "high")
    else normalized
  let normalized := foldLegacyStage host normalized none
  let normalized :=
    match normalized["workflowStep"]? with
    | none => normalized
    | some step => normalized.set "workflowStep"
        (canonicalStep host.arithmetic host.domains (some normalized) (some step))
  (record [("size", some (.str "standard"))]).assign normalized

def moveItem (payload : Option Json) (item : Fields) : Fields :=
  let p := member payload
  let is := fun (v : Option Json) (s : String) => same v (some (.str s))
  let item := (item.set "status" (p "to")).keepAll payload ["writer", "statusCategory", "parkReason"]
  let item :=
    if is (p "to") "doing" && !is (p "from") "awaiting-human" then
      (item.keep "claimRole" (p "role")).keepAll payload ["headAtTake", "branchHeadAtTake", "claimTrigger"]
    else item
  let item := item.keep "reason" (p "reason")
  let item :=
    if is (p "to") "awaiting-approval" then item.keepAll payload ["headAtReturn", "branchHeadAtReturn"]
    else item
  if is (p "to") "delivered" then item.keepAll payload ["mergedSha", "mergedInto", "landSettlement"]
  else item

def editItem (payload : Option Json) (item : Fields) : Fields :=
  let patch := member payload "patch"
  let isObject := match patch with
    | some (.obj _) | some (.arr _) => true
    | _ => false
  let edited :=
    if isObject then
      let p := foldTier (spread patch)
      let p :=
        if same p["risk"]? (some (.str "heavy")) && !item.contains "rigor" && !p.contains "rigor" then
          p.insert "rigor" (.str "high")
        else p
      item.assign (foldLegacyStage host p (some item))
    else item
  edited.keep "writer" (member payload "writer")

def stepItem (payload : Option Json) (item : Fields) : Fields :=
  (item.set "workflowStep"
    (canonicalStep host.arithmetic host.domains (some item) (member payload "to"))).keepAll payload
      ["verify", "writer"]

/-- A retired role name, mapped forward. -/
def normalizeRole (role : Option Json) : Option Json :=
  if same role (some (.str "human-advisor")) then some (.str "advisor") else role

def handoffItem (payload : Option Json) (item : Fields) : Fields :=
  match normalizeRole (member payload "to") with
  | some (.str role) => item.insert "holder" (.str role)
  | _ => item

def resolveParkItem (payload : Option Json) (item : Fields) : Fields :=
  Fields.keep ((item.erase "reason").erase "parkReason") "writer" (member payload "writer")

/-- `(count ?? 0) + 1`. -/
def increment (count : Option Json) : Json :=
  match count with
  | none | some .null => .nat 1
  | some (.num (.int n)) => .num (.int (n + 1))
  | some v => host.arithmetic.plusOne v

def attemptItem (payload : Option Json) (ts : String) (item : Fields) : Fields :=
  let p := member payload
  let endedAt := if truthy (p "endedAt") then p "endedAt" else some (.str ts)
  let lastAttempt := (record [("phase", p "phase"), ("result", p "result"), ("endedAt", endedAt)]).keepAll
    payload ["claimId", "actor", "from", "to", "startedAt", "branch", "headAtTake", "branchHeadAtTake",
      "branchHeadAtReturn", "headAtReturn", "reason", "releaseTrigger"]
  (item.insert "attemptCount" (increment host item["attemptCount"]?)).insert "lastAttempt" lastAttempt.toJson

/-! ### What an event does to a view -/

/-- `const item = view.work[id]; if (item) …`. -/
def View.modifyItem (view : View) (id : String) (f : Fields → Fields) : View :=
  match view.work[id]? with
  | none => view
  | some item => { view with work := view.work.insert id (f item) }

def workAdd (view : View) (payload : Option Json) : View :=
  match member payload "id" with
  | some (.str id) => { view with work := view.work.insert id (addedItem host payload) }
  | _ => view

/-- The question and the answer of the human gate. -/
def moveGates (gates : Table Fields) (id : String) (payload : Option Json) : Table Fields :=
  let ask := member payload "ask"
  let answer := member payload "answer"
  if truthy ask || truthy answer then
    let gate : Fields := gates.getD id ∅
    let asked := match gate["askHistory"]? with
      | some (.arr items) => items
      | _ => []
    let gate := gate.keepTrue "ask" ask
    let gate : Fields := if truthy ask then gate.insert "askHistory" (.arr (asked ++ [orNull ask])) else gate
    let gate : Fields := (gate.keepTrue "answer" answer).keepAll payload
      ["parentSnapshotAtAsk", "statusAtAsk", "durableStatusAtAsk", "rationale", "alternatives", "source",
        "askSource"]
    let approved := truthy answer && same (member payload "approved") (some (.bool true))
    gates.insert id (if approved then gate.insert "approved" (.bool true) else gate.erase "approved")
  else gates

def moveSettlement (payload : Option Json) (ts : String) : Option Fields :=
  let settled := fun (kind : String) (detail : Option Json) =>
    record [("kind", some (.str kind)), ("role", some (orNull (member payload "role"))),
      ("ts", some (.str ts)), ("detail", some (orNull detail))]
  if truthy (member payload "answer") then some (settled "answer" (member payload "answer"))
  else if same (member payload "to") (some (.str "done")) then some (settled "close" none)
  else none

def workMove (view : View) (event : LogEvent) : View :=
  let payload := event.payload
  let id := key host.arithmetic (member payload "id")
  let isItem := view.work.contains id
  let moved := view.modifyItem id (moveItem payload)
  let learning := member payload "learning"
  { moved with
    gates := moveGates view.gates id payload
    settlements :=
      match moveSettlement payload event.ts with
      | some settlement =>
        if isItem && event.v.isSome then Table.push view.settlements id settlement
        else view.settlements
      | none => view.settlements
    learnings :=
      if isItem && same (member payload "to") (some (.str "done")) && truthy learning then
        Table.push view.learnings id ((spread learning).insert "ts" (.str event.ts))
      else view.learnings }

def workEdit (view : View) (payload : Option Json) : View :=
  view.modifyItem (key host.arithmetic (member payload "id")) (editItem host payload)

/-- The payload with the time of the event. -/
def stamped (fields : Fields) (ts : String) : Fields := fields.insert "ts" (.str ts)

def decision (view : View) (payload : Option Json) (ts : String) : View :=
  let entry := stamped (spread payload) ts
  { view with
    decisions := view.decisions ++ [entry]
    decisionsById :=
      match member payload "id" with
      | some (.str id) => Table.push view.decisionsById id entry
      | _ => view.decisionsById }

def workOutcome (view : View) (payload : Option Json) : View :=
  match member payload "id" with
  | some (.str id) => { view with
      outcomes := view.outcomes.insert id (Fields.assign (view.outcomes.getD id ∅) (withoutPrecondition payload)) }
  | _ => view

/-- The step a clarify-phase item leaves, when this move leaves it and the verdict does not speak
against it. -/
def clarifyPassed (view : View) (payload : Option Json) (id : String) : Bool :=
  match view.work[id]? with
  | none => false
  | some before =>
    let item := stepItem host payload before
    let origin := canonicalStep host.arithmetic host.domains (some before) (member payload "from")
    let entry := (stepForPhase host.arithmetic host.domains item "discover").map Json.str
    let verdict := ((view.discovery.getD id []).getLast?).bind fun v : Fields => v["clear"]?
    same origin entry && !same verdict (some (.bool false))

def workStep (view : View) (payload : Option Json) (ts : String) : View :=
  let id := key host.arithmetic (member payload "id")
  { view.modifyItem id (stepItem host payload) with
    settlements :=
      if clarifyPassed host view payload id then
        Table.push view.settlements id (record [("kind", some (.str "clarify-pass")),
          ("role", some (orNull (member payload "role"))), ("ts", some (.str ts)),
          ("detail", some (orNull (member payload "verify")))])
      else view.settlements }

def workHandoff (view : View) (payload : Option Json) (ts : String) : View :=
  let p := member payload
  let entry := record [("kind", some (.str "handoff")), ("from", normalizeRole (p "from")),
    ("to", normalizeRole (p "to")), ("reason", p "reason"), ("mode", orElse (p "mode") (some (.str "async"))),
    ("returning", some (.bool (truthy (p "returning")))), ("note", some (orNull (p "note"))),
    ("ts", some (.str ts))]
  { view.modifyItem (key host.arithmetic (p "id")) (handoffItem payload) with
    callThreads :=
      match p "id" with
      | some (.str id) => Table.push view.callThreads id entry
      | _ => view.callThreads }

def workCallSummary (view : View) (payload : Option Json) (ts : String) : View :=
  let p := member payload
  match p "id" with
  | some (.str id) => { view with
      callThreads := Table.push view.callThreads id (record [("kind", some (.str "call-summary")),
        ("calleeRole", p "calleeRole"), ("reason", p "reason"), ("outcome", some (orNull (p "outcome"))),
        ("ts", some (.str ts))]) }
  | _ => view

def workDiscovery (view : View) (payload : Option Json) (ts : String) : View :=
  match member payload "id" with
  | some (.str id) => { view with
      discovery := Table.push view.discovery id (stamped (withoutPrecondition payload) ts) }
  | _ => view

def workGateApprove (view : View) (payload : Option Json) (ts : String) : View :=
  match member payload "id", member payload "gate" with
  | some (.str id), some (.str gate) =>
    let approval := record [("actor", member payload "actor"), ("at", some (.str ts)),
      ("verify", member payload "verify")]
    { view with gates := view.gates.insert id ((view.gates.getD id ∅).insert gate approval.toJson) }
  | _, _ => view

def goalFocus (view : View) (payload : Option Json) : View :=
  match member payload "id" with
  | some (.str id) => { view with focus := some id }
  | _ => view

def workResolveParkReason (view : View) (payload : Option Json) (ts : String) : View :=
  { view.modifyItem (key host.arithmetic (member payload "id")) (resolveParkItem payload) with
    parkResolutions :=
      match member payload "id" with
      | some (.str id) => Table.push view.parkResolutions id (stamped (withoutPrecondition payload) ts)
      | _ => view.parkResolutions }

def workAttempt (view : View) (payload : Option Json) (ts : String) : View :=
  view.modifyItem (key host.arithmetic (member payload "id")) (attemptItem host payload ts)

/-- The types that are not of the knowledge registry; another one changes nothing. -/
def applyWorkEvent (view : View) (event : LogEvent) : View :=
  match event.eventType with
  | "work.add" => workAdd host view event.payload
  | "work.move" => workMove host view event
  | "work.edit" => workEdit host view event.payload
  | "decision" => decision view event.payload event.ts
  | "work.outcome" => workOutcome view event.payload
  | "work.stage" | "work.step" => workStep host view event.payload event.ts
  | "work.handoff" => workHandoff host view event.payload event.ts
  | "work.call-summary" => workCallSummary view event.payload event.ts
  | "work.discovery" => workDiscovery view event.payload event.ts
  | "work.gate-approve" => workGateApprove view event.payload event.ts
  | "goal.focus" => goalFocus view event.payload
  | "work.resolve-park-reason" => workResolveParkReason host view event.payload event.ts
  | "work.attempt" => workAttempt host view event.payload event.ts
  | _ => view

def applyEvent (view : View) (event : LogEvent) : Except FoldError View :=
  if Knowledge.isKnowledgeType event.eventType then
    match view.knowledge.apply host.arithmetic event.payload event.ts event.eventType with
    | .ok knowledge => .ok { view with knowledge := knowledge }
    | .error message => .error (.knowledge message)
  else .ok (applyWorkEvent host view event)

/-! ### Preconditions -/

/-- How many items have the status. -/
def statusCount (view : View) (status : Option Json) : ℕ :=
  (view.work.toList.filter fun e => same e.2["status"]? status).length

/-- `count >= value`. -/
def atLeast (count : ℕ) (value : Option Json) : Bool :=
  match value with
  | none => false
  | some .null => true
  | some (.num (.int m)) => m ≤ count
  | some v => host.arithmetic.atLeast count v

/-- Why the precondition does not hold in the view, if it does not. -/
def failure (view : View) (id : String) (condition : Option Json) : Option Reason :=
  let item := view.work[id]?
  let c := member condition
  if (c "exists").isSome && !same (some (.bool item.isSome)) (c "exists") then some .existence
  else if (c "expectedStatus").isSome &&
      !same (item.bind fun i : Fields => i["status"]?) (c "expectedStatus") then some .expectedStatus
  else if truthy (c "capacity") &&
      atLeast host (statusCount view (member (c "capacity") "status")) (member (c "capacity") "max") then
    some .capacity
  else none

/-- The head a conflict names: for a full capacity that of the first item, in the order of ids, whose
holder the writer had not seen; else the head of the item itself. -/
def conflictHead (view : View) (source : Source) (id : String) (condition : Option Json) (reason : Reason) :
    Option Head :=
  match reason with
  | .existence => view.preconditionHeads[id]?.bind Heads.existence
  | .expectedStatus => view.preconditionHeads[id]?.bind Heads.status
  | .capacity =>
    let status := member (member condition "capacity") "status"
    let ids := (view.work.toList.map Prod.fst).insertionSort fun a b => encodeUtf16 a ≤ encodeUtf16 b
    let holders := ids.filter fun k => same (view.work[k]?.bind fun i : Fields => i["status"]?) status
    (holders.filterMap fun k => view.preconditionHeads[k]?.bind Heads.status).find? fun head =>
      head.origin ≠ source.origin && source.seen.at (positionKey head.origin head.stream) < head.seq

/-- Whether an event before this one, of another stream, was not seen by its writer. -/
def unseenEarlier (view : View) (event : LogEvent) : Bool :=
  let own := event.source.map fun s => positionKey s.origin s.stream
  let seen := (event.source.map Source.seen).getD ∅
  view.streamHeads.toList.any fun p => some p.1 ≠ own && seen.at p.1 < p.2

def registerHead (view : View) (event : LogEvent) : View :=
  match event.source with
  | none => view
  | some s =>
    let key := positionKey s.origin s.stream
    { view with streamHeads := view.streamHeads.insert key (max (view.streamHeads.at key) s.seq) }

/-- Who decided existence and status of the item last. -/
def updateHeads (before after : View) (source : Source) (id : String) : View :=
  let head : Head := { h := source.h, origin := source.origin, stream := source.stream, seq := source.seq }
  let status := fun v : View => v.work[id]?.bind fun i : Fields => i["status"]?
  let heads := (after.preconditionHeads[id]?).getD { existence := none, status := none }
  let heads :=
    if before.work[id]?.isSome ≠ after.work[id]?.isSome then { heads with existence := some head } else heads
  let heads := if status before ≠ status after then { heads with status := some head } else heads
  { after with preconditionHeads := after.preconditionHeads.insert id heads }

def foldEvent (view : View) (event : LogEvent) : Except FoldError View :=
  let condition := member event.payload "precondition"
  let id := key host.arithmetic (member event.payload "id")
  let registered := registerHead view event
  match event.source with
  | none => applyEvent host registered event
  | some source =>
    if truthy condition then
      match failure host registered id condition with
      | some reason =>
        if unseenEarlier view event then
          .ok { registered with conflicts := registered.conflicts ++ [{
            h := source.h
            id := member event.payload "id"
            origin := source.origin
            reason := reason
            against := (conflictHead registered source id condition reason).map Head.h }] }
        else .error .precondition
      | none => do
        let applied ← applyEvent host registered event
        return updateHeads registered applied source id
    else applyEvent host registered event

/-- The fold of a history onto a view. -/
def foldEvents : List LogEvent → View → Except FoldError View
  | [], view => .ok view
  | event :: events, view => do
    let view ← foldEvent host view event
    foldEvents events view

/-! ### Folding in parts -/

/-- A fold can be interrupted and continued from the view it left. -/
theorem foldEvents_append (a b : List LogEvent) (view : View) :
    foldEvents host (a ++ b) view = (foldEvents host a view >>= foldEvents host b) := by
  induction a generalizing view with
  | nil => rfl
  | cons event a ih =>
    show (foldEvent host view event >>= foldEvents host (a ++ b)) =
      (foldEvent host view event >>= foldEvents host a) >>= foldEvents host b
    cases foldEvent host view event with
    | error err => rfl
    | ok next => exact ih next

theorem foldEvents_append_eq_ok {a b : List LogEvent} {view after : View} :
    foldEvents host (a ++ b) view = .ok after ↔
      ∃ middle, foldEvents host a view = .ok middle ∧ foldEvents host b middle = .ok after := by
  rw [foldEvents_append, bind_eq_ok]

end

end Forgent
