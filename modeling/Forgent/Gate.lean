import Forgent.Basis
import Forgent.ReadState

/-!
# The consumer gate

A mutation reads and appends under one mutex.  Before it takes the mutex it reads the whole history, or
takes the view it kept, when that has the history's cursor; under the mutex it folds only the tail of
its own stream that was appended since.  A tail event that has not seen exactly what the kept view covers
sends the call back to a full read.  Then the mutation decides, its events are given their preconditions,
are appended with the folded coverage as their `seen`, and are folded onto the view, which is kept.
-/

namespace Forgent

open Json

/-! ### The transaction -/

/-- An event as a mutation hands it to the gate. -/
structure TxEvent where
  eventType : String
  payload : Json
  ts : String

inductive GateError where
  /-- `catch-up-required`. -/
  | catchUpRequired
  | fold (error : FoldError)
deriving DecidableEq

def advance (cursor : Cursor) (events : List Envelope) : Cursor :=
  { cursor with cover := events.foldl (fun cover e => cover.insert (streamKey e) e.seq) cursor.cover }

/-- Whether the event has seen more than the cover, or less of another stream than its own. -/
def foreignTail (own : String) (cover : Positions) (e : Envelope) : Bool :=
  e.seen.toList.any (fun p => cover.at p.1 < p.2) ||
    cover.toList.any fun p => p.1 ≠ own && e.seen.at p.1 < p.2

/-- What the events that were decided so far in the batch have made of an item. -/
structure Decided where
  present : Bool
  status : Option Json

/-- What is known of the item: what the batch has decided, else what the view has. -/
def currentOf (n : Arithmetic) (view : View) (decided : List (Json × Decided)) (id : Json) : Decided :=
  match decided.find? fun d => same (some d.1) (some id) with
  | some d => d.2
  | none =>
    let item := view.work[Json.key n (some id)]?
    { present := item.isSome, status := item.bind fun i : Fields => i["status"]? }

/-- The precondition of an event: what the caller asks for, and the state of the item. -/
def preconditionOf (current : Decided) (event : TxEvent) : Fields :=
  let condition : Fields := (spread (event.payload.field "precondition")).erase "expectedStatus"
  let condition := condition.insert "exists" (.bool current.present)
  if event.eventType = "work.move" && current.present then
    Fields.keep condition "expectedStatus" current.status
  else condition

/-- `payload.precondition = condition`. -/
def withPrecondition (payload : Json) (condition : Fields) : Json :=
  Fields.toJson ((spread (some payload)).insert "precondition" (Fields.toJson condition))

/-- What the event makes of its item. -/
def decideNext (current : Decided) (event : TxEvent) : Decided :=
  if event.eventType = "work.add" then { present := true, status := event.payload.field "status" }
  else if event.eventType = "work.move" && current.present then
    { current with status := event.payload.field "to" }
  else current

/-- Whether the event carries what its writer saw of an item. -/
def isGuarded (event : TxEvent) : Bool :=
  "work.".toList.isPrefixOf event.eventType.toList && truthy (event.payload.field "id") &&
    event.eventType ≠ "work.discovery"

/-- `prepareEvents`, behind what was decided already. -/
def prepareFrom (n : Arithmetic) (view : View) : List (Json × Decided) → List TxEvent → List TxEvent
  | _, [] => []
  | decided, event :: rest =>
    match event.payload.field "id" with
    | some id =>
      if isGuarded event then
        let current := currentOf n view decided id
        { event with payload := withPrecondition event.payload (preconditionOf current event) } ::
          prepareFrom n view ((id, decideNext current event) :: decided) rest
      else event :: prepareFrom n view decided rest
    | none => event :: prepareFrom n view decided rest

def prepareEvents (n : Arithmetic) (view : View) (events : List TxEvent) : List TxEvent :=
  prepareFrom n view [] events

theorem prepareFrom_eventType (n : Arithmetic) (view : View) (decided : List (Json × Decided))
    (events : List TxEvent) :
    (prepareFrom n view decided events).map TxEvent.eventType = events.map TxEvent.eventType := by
  induction events generalizing decided with
  | nil => rfl
  | cons event rest ih =>
    rw [prepareFrom]
    split
    · split
      · exact congrArg (event.eventType :: ·) (ih _)
      · exact congrArg (event.eventType :: ·) (ih _)
    · exact congrArg (event.eventType :: ·) (ih _)

theorem eventType_of_mem_prepareEvents {n : Arithmetic} {view : View} {events : List TxEvent}
    {event : TxEvent} (h : event ∈ prepareEvents n view events) :
    ∃ input ∈ events, input.eventType = event.eventType := by
  have hmem : event.eventType ∈ (prepareEvents n view events).map TxEvent.eventType :=
    List.mem_map_of_mem h
  rw [prepareEvents, prepareFrom_eventType] at hmem
  exact List.mem_map.mp hmem

section

variable (host : Host)

/-- Under the mutex: fold the own tail onto the candidate. -/
def openTx (own : String) (candidate : Candidate) (tail : List Envelope) : Except GateError Candidate :=
  if tail.any (foreignTail own candidate.cursor.cover) then .error .catchUpRequired
  else do
    let view ← (foldEvents host (tail.map LogEvent.ofEnvelope) candidate.view).mapError .fold
    return { view := view, cursor := advance candidate.cursor tail }

/-- The append of a transaction; without events there is none. -/
def commitEvents (c : Codec) (registry : Registry) (origin writer : String) (high : ℕ) (tx : Candidate)
    (events : List TxEvent) : Except Error (List Envelope) :=
  if events = [] then .ok []
  else appendEvents c registry origin projectStream writer tx.cursor.cover high
    ((prepareEvents host.arithmetic tx.view events).map fun event => {
      eventType := event.eventType, schemaVersion := 1, payload := event.payload, ts := event.ts })

/-- Fold what was appended onto the view; this is kept. -/
def closeTx (tx : Candidate) (appended : List Envelope) : Except FoldError Candidate := do
  let view ← foldEvents host (appended.map LogEvent.ofEnvelope) tx.view
  return { view := view, cursor := advance tx.cursor appended }

/-- The events of the own stream behind number `n`: what `readInGate` answers. -/
def ownTail (acks : List Envelope) (own : String) (n : ℕ) : List Envelope :=
  acks.filter fun e => streamKey e = own && n < e.seq

end

/-! ### Clones that mutate through the gate -/

/-- The clones, and the views each has kept. -/
structure Gated (ι : Type*) where
  store : Cluster ι
  caches : ι → Set Candidate

/-- What one call of the gate reads and writes. -/
structure Call where
  union : List Envelope
  cached : Option Candidate
  candidate : Candidate
  tail : List Envelope
  tx : Candidate
  writer : String
  inputs : List TxEvent
  events : List Envelope

/-- What all clones have in common. -/
structure Setting (ι : Type*) where
  codec : Codec
  registry : Registry
  origin : ι → String
  origin_valid : ∀ i, validStoreId (origin i) = true
  host : Host
  legacy : List LogEvent
  legacy_source : ∀ event ∈ legacy, event.source = none

namespace Setting

variable {ι : Type*} (σ : Setting ι)

/-- The key of the project stream of clone `i`. -/
def own (i : ι) : String := positionKey (σ.origin i) "project"

end Setting

/-- The call is one that clone `i` can make: it reads events of its disk, or a view it kept, folds its
tail, and appends.  Only `promote` writes promotes. -/
structure Call.Made {ι : Type*} (σ : Setting ι) (s : Gated ι) (i : ι) (call : Call) : Prop where
  union : ∀ e ∈ call.union, e ∈ s.store.disk i
  cached : ∀ m ∈ call.cached, m ∈ s.caches i
  read : readWorkState σ.codec σ.host σ.legacy call.union call.cached = .ok call.candidate
  tail : call.tail = ownTail s.store.acks (σ.own i) (call.candidate.cursor.cover.at (σ.own i))
  opened : openTx σ.host (σ.own i) call.candidate call.tail = .ok call.tx
  plain : ∀ input ∈ call.inputs, input.eventType ≠ "store.promote"
  events : commitEvents σ.host σ.codec σ.registry (σ.origin i) call.writer (high s.store.acks (σ.own i))
    call.tx call.inputs = .ok call.events

namespace Gated

variable {ι : Type*} [DecidableEq ι]

def initial : Gated ι where
  store := Cluster.initial
  caches := fun _ => ∅

/-- The events are durable; the view is kept when they fold. -/
def after (s : Gated ι) (host : Host) (i : ι) (call : Call) : Gated ι where
  store := s.store.acked i call.events
  caches := Function.update s.caches i (s.caches i ∪ {m | closeTx host call.tx call.events = .ok m})

/-- The states that runs reach whose calls are all admitted.  Beside the gate, clones fetch, promote and
append to streams, as far as `stores` allows. -/
inductive Run (σ : Setting ι) (admitted : Call → Prop) (stores : Cluster ι → Cluster ι → Prop) :
    Gated ι → Prop
  | initial : Run σ admitted stores initial
  | call {s} (i : ι) (call : Call) : Run σ admitted stores s → call.Made σ s i → admitted call →
      Run σ admitted stores (s.after σ.host i call)
  | store {s t} : Run σ admitted stores s → Cluster.Step σ.codec σ.registry σ.origin s.store t →
      stores s.store t → Run σ admitted stores { s with store := t }

end Gated

end Forgent
