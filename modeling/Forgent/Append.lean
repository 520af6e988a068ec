import Forgent.Envelope

/-!
# What an append writes

The logical part of `append`: the checks of the request, the numbers the events of a batch get, and
what goes into `seen`.  The numbers follow `high`, the last number of the stream that the recovery
found; where it looks for it is the subject of the stream files.
-/

namespace Forgent

/-- A consumer's registration of an event type, as far as an append looks at it. -/
structure Registration where
  scope : Scope
  schemaVersion : ℕ

/-- The registered types. -/
abbrev Registry := String → Option Registration

namespace Registry

/-- The registry before any consumer is loaded: promotion belongs to the store itself. -/
def initial : Registry := fun eventType =>
  if eventType = "store.promote" then some ⟨.project, 1⟩ else none

def validate (r : Registry) (eventType : String) (scope : Scope) (schemaVersion : ℕ) :
    Except Error Unit :=
  match r eventType with
  | none => .error ⟨.unregisteredType, eventType⟩
  | some entry =>
    ensure (entry.scope = scope && entry.schemaVersion = schemaVersion)
      (invalid "scope or schemaVersion differs from registration")

end Registry

structure EventInput where
  eventType : String
  schemaVersion : ℕ
  payload : Json
  ts : String

/-- What is checked of an event before the lock is taken. -/
def checkInput (c : Codec) (registry : Registry) (stream : StreamId) (input : EventInput) :
    Except Error Unit := do
  registry.validate input.eventType stream.scope input.schemaVersion
  ensure (validTimestamp input.ts) (invalid "invalid timestamp")
  ensure (Json.canonicalLine c input.payload).isSome Envelope.nonFinite

def checkInputs (c : Codec) (registry : Registry) (stream : StreamId) :
    List EventInput → Except Error Unit
  | [] => .ok ()
  | input :: rest => do
    checkInput c registry stream input
    checkInputs c registry stream rest

/-- The writer's positions, without its own stream and without streams it has read nothing of. -/
def seenOf (cursor : Positions) (own : String) : Positions :=
  (cursor.erase own).filter fun _ n => n ≠ 0

/-- One event of the batch.  Computing the canonical line validates it, and reading the line back gives
the same event. -/
def envelopeOf (c : Codec) (origin : String) (stream : StreamId) (writer : String) (seen : Positions)
    (seq : ℕ) (input : EventInput) : Except Error Envelope := do
  let event : Envelope := {
    v := 4
    eventType := input.eventType
    scope := stream.scope
    origin := origin
    stream := stream.value
    seq := seq
    seen := seen
    ts := input.ts
    src := writer
    schemaVersion := input.schemaVersion
    payload := input.payload
    h := "" }
  let h ← event.computeHash c
  let event := { event with h := h }
  event.validate c
  return event

/-- The events of the batch, numbered from `seq` on. -/
def envelopesFrom (c : Codec) (origin : String) (stream : StreamId) (writer : String)
    (seen : Positions) : ℕ → List EventInput → Except Error (List Envelope)
  | _, [] => .ok []
  | seq, input :: rest => do
    let event ← envelopeOf c origin stream writer seen seq input
    let events ← envelopesFrom c origin stream writer seen (seq + 1) rest
    return event :: events

/-- The events an append of `inputs` after number `high` writes. -/
def appendEvents (c : Codec) (registry : Registry) (origin : String) (stream : StreamId)
    (writer : String) (cursor : Positions) (high : ℕ) (inputs : List EventInput) :
    Except Error (List Envelope) := do
  ensure (inputs.length ≠ 0 && writer ≠ "") (invalid "nonempty batch, writer and valid machine required")
  checkInputs c registry stream inputs
  ensure (cursor.toList.all fun p => validSeenKey p.1 && p.2 ≤ maxSafeCounter)
    (invalid "invalid cursor position")
  ensure (cursor[positionKey origin stream.value]?.all fun seq => seq = high)
    ⟨.staleCursor, "own-stream position changed"⟩
  ensure (high + inputs.length < 2 ^ 53) ⟨.seqRecoveryConflict, "sequence exhausted"⟩
  envelopesFrom c origin stream writer (seenOf cursor (positionKey origin stream.value)) (high + 1) inputs

/-! ### What was written -/

theorem getElem?_seenOf (cursor : Positions) (own key : String) (n : ℕ) :
    (seenOf cursor own)[key]? = some n ↔ key ≠ own ∧ cursor[key]? = some n ∧ n ≠ 0 := by
  rw [seenOf, Std.ExtTreeMap.getElem?_filter, Std.ExtTreeMap.getElem?_erase]
  by_cases hk : own = key
  · simp [hk]
  · have hne : compare own key ≠ .eq := fun h => hk (Std.LawfulEqCmp.eq_of_compare h)
    rw [if_neg hne, Option.pfilter_eq_filter, Option.filter_eq_some_iff]
    simp [Ne.symm hk]

/-- What is fixed about the event at number `seq` of a batch. -/
structure IsAppended (c : Codec) (own : String) (id : StreamId) (writer : String)
    (folded : Positions) (number : ℕ) (input : EventInput) (e : Envelope) : Prop where
  valid : e.Valid c
  origin : e.origin = own
  stream : e.stream = id.value
  scope : e.scope = id.scope
  seq : e.seq = number
  seen : e.seen = folded
  src : e.src = writer
  eventType : e.eventType = input.eventType
  payload : e.payload = input.payload
  ts : e.ts = input.ts

variable {c : Codec} {origin writer : String} {stream : StreamId} {inputs : List EventInput} {seen cursor : Positions}
  {seq high : ℕ} {e : Envelope} {es : List Envelope} {registry : Registry}

theorem isAppended_of_envelopeOf {input : EventInput} (h : envelopeOf c origin stream writer seen seq input = .ok e) :
    IsAppended c origin stream writer seen seq input e := by
  simp only [envelopeOf, bind_eq_ok, pure, Except.pure, Except.ok.injEq] at h
  obtain ⟨hash, _, ⟨⟩, hvalid, rfl⟩ := h
  exact ⟨(Envelope.validate_eq_ok_iff c _).mp hvalid, rfl, rfl, rfl, rfl, rfl, rfl, rfl, rfl, rfl⟩

theorem isAppended_of_envelopesFrom (h : envelopesFrom c origin stream writer seen seq inputs = .ok es) :
    es.length = inputs.length ∧ ∀ i (hi : i < es.length), ∃ input ∈ inputs,
      IsAppended c origin stream writer seen (seq + i) input es[i] := by
  induction inputs generalizing seq es with
  | nil =>
    cases h
    exact ⟨rfl, fun i hi => absurd hi (by simp)⟩
  | cons input rest ih =>
    simp only [envelopesFrom, bind_eq_ok, pure, Except.pure, Except.ok.injEq] at h
    obtain ⟨e, he, es', hes', rfl⟩ := h
    obtain ⟨hlen, hrest⟩ := ih hes'
    refine ⟨by simp [hlen], fun i hi => ?_⟩
    cases i with
    | zero => exact ⟨input, by simp, isAppended_of_envelopeOf he⟩
    | succ i =>
      obtain ⟨input', hmem, happ⟩ := hrest i (by simpa using hi)
      refine ⟨input', List.mem_cons_of_mem input hmem, ?_⟩
      rw [List.getElem_cons_succ, show seq + (i + 1) = seq + 1 + i by omega]
      exact happ

theorem appendEvents_eq_ok
    (h : appendEvents c registry origin stream writer cursor high inputs = .ok es) :
    inputs ≠ [] ∧ (∀ n, cursor[positionKey origin stream.value]? = some n → n = high) ∧
      envelopesFrom c origin stream writer (seenOf cursor (positionKey origin stream.value)) (high + 1)
        inputs = .ok es := by
  simp only [appendEvents, bind_eq_ok, ensure_eq_ok, Bool.and_eq_true, decide_eq_true_eq,
    exists_and_left, exists_const] at h
  obtain ⟨⟨hne, _⟩, _, _, _, hown, _, hes⟩ := h
  refine ⟨fun hnil => hne (by simp [hnil]), fun n hn => ?_, hes⟩
  rw [hn] at hown
  simpa using hown

theorem valid_of_append
    (h : appendEvents c registry origin stream writer cursor high inputs = .ok [e]) : e.Valid c := by
  obtain ⟨input, _, happ⟩ := (isAppended_of_envelopesFrom (appendEvents_eq_ok h).2.2).2 0 (by simp)
  exact happ.valid

end Forgent
