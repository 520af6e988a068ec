import Forgent.Json
import Mathlib.Data.Prod.Lex
import Std.Data.ExtTreeMap

/-!
# The event envelope

An event of a stream, version 4: who wrote it (`origin`), which of that store's streams it belongs to,
its position there (`seq`), what its writer had folded of the other streams (`seen`), and the digest
`h` of everything else.  `Envelope.validate` is the one check every reader makes; `computeHash` is the
SHA-256 of the canonical line without `h`.
-/

namespace Forgent

/-! ### Errors -/

/-- The result codes the modelled functions answer with. -/
inductive ErrorCode where
  | integrity
  | unregisteredType
  | seqConflict
  | orderCycle
  | seqRecoveryConflict
  | io
  | staleCursor
  | catchUpRequired
  | refMoved
  | refTampered
  | sealMismatch
  | chainGap
  | gap
deriving DecidableEq

structure Error where
  code : ErrorCode
  detail : String
deriving DecidableEq

def invalid (detail : String) : Error := ⟨.integrity, detail⟩

/-- `if !ok { return Err(error) }`. -/
def ensure (ok : Bool) (error : Error) : Except Error Unit := if ok then .ok () else .error error

@[simp] theorem ensure_eq_ok {ok : Bool} {error : Error} {u : Unit} : ensure ok error = .ok u ↔ ok = true := by
  unfold ensure
  split <;> simp_all

/-! ### Identifiers -/

def lowercaseHex (value : String) (length : ℕ) : Bool :=
  value.toList.length = length && value.toList.all fun c => c.isDigit || ('a' ≤ c && c ≤ 'f')

def validStoreId (value : String) : Bool := lowercaseHex value 32

def validObjectId (value : String) : Bool := lowercaseHex value 40 || lowercaseHex value 64

def isDigest (value : String) : Bool := lowercaseHex value 64

def validSlug (value : List Char) : Bool :=
  value ≠ [] && value.length ≤ 128 &&
    value.all (fun c => c.isLower || c.isDigit || c = '-') &&
    value.head?.any Char.isAlphanum && value.getLast?.any Char.isAlphanum

def stripPrefix (word : String) (value : List Char) : Option (List Char) :=
  if word.toList.isPrefixOf value then some (value.drop word.toList.length) else none

inductive Scope where
  | project
  | branch
  | local
deriving DecidableEq

/-- What `StreamId::parse` accepts. -/
def isStreamId (value : String) : Bool :=
  value = "project" || value = "local" ||
    ((stripPrefix "project:" value.toList).orElse fun _ => stripPrefix "branch:" value.toList).any
      validSlug

/-- A stream id that was parsed: there is no other way to build one. -/
structure StreamId where
  value : String
  valid : isStreamId value = true
deriving DecidableEq

namespace StreamId

def parse (value : String) : Except Error StreamId :=
  if h : isStreamId value = true then .ok ⟨value, h⟩ else .error ⟨.integrity, "invalid stream id"⟩

def scope (s : StreamId) : Scope :=
  if "project".toList.isPrefixOf s.value.toList then .project
  else if s.value = "local" then .local
  else .branch

end StreamId

/-! ### The envelope -/

/-- Coverage: the highest position of every stream, keyed `<origin>:<stream>`. -/
abbrev Positions := Std.ExtTreeMap String ℕ

/-- `positions.get(key).copied().unwrap_or(0)`. -/
def Positions.at (p : Positions) (key : String) : ℕ := p.getD key 0

structure Envelope where
  v : ℕ
  eventType : String
  scope : Scope
  origin : String
  stream : String
  seq : ℕ
  seen : Positions
  ts : String
  src : String
  schemaVersion : ℕ
  payload : Json
  h : String
deriving DecidableEq

/-- Protocol counters must survive the binary64 numbers of canonical JSON. -/
def maxSafeCounter : ℕ := 2 ^ 53 - 1

def positiveCounter (n : ℕ) : Bool := 0 < n && n ≤ maxSafeCounter

/-- `valid_timestamp`: `YYYY-MM-DDTHH:MM:SS.sssZ` with a day the month has. -/
def validTimestamp (s : String) : Bool :=
  let b := s.toList
  let separators := [(4, '-'), (7, '-'), (10, 'T'), (13, ':'), (16, ':'), (19, '.'), (23, 'Z')]
  if b.length ≠ 24 || separators.any (fun p => b[p.1]? ≠ some p.2) then false
  else if b.zipIdx.any (fun p => !(separators.map Prod.fst).contains p.2 && !p.1.isDigit) then false
  else
    let n : ℕ → ℕ → ℕ := fun a z =>
      ((b.take z).drop a).foldl (fun acc c => 10 * acc + (c.toNat - 48)) 0
    let y := n 0 4
    let m := n 5 7
    let d := n 8 10
    let leap := y % 4 = 0 && (y % 100 ≠ 0 || y % 400 = 0)
    let days :=
      if m = 2 then (if leap then 29 else 28)
      else if [4, 6, 9, 11].contains m then 30
      else if [1, 3, 5, 7, 8, 10, 12].contains m then 31
      else 0
    1 ≤ d && d ≤ days && n 11 13 < 24 && n 14 16 < 60 && n 17 19 < 60

def scopeMatches (scope : Scope) (stream : String) : Bool :=
  match StreamId.parse stream with
  | .ok id => id.scope = scope
  | .error _ => false

/-- `valid_seen_key`: an origin and a stream id around the first colon. -/
def validSeenKey (key : String) : Bool :=
  let cs := key.toList
  cs.contains ':' && validStoreId (String.ofList (cs.takeWhile (· ≠ ':'))) &&
    isStreamId (String.ofList ((cs.dropWhile (· ≠ ':')).drop 1))

/-- `<origin>:<stream>` of an origin and one of its streams. -/
def positionKey (origin stream : String) : String := origin ++ ":" ++ stream

def streamKey (e : Envelope) : String := positionKey e.origin e.stream

namespace Envelope

def scopeName : Scope → String
  | .project => "project"
  | .branch => "branch"
  | .local => "local"

/-- `serde_json::to_value` of the envelope, without the digest. -/
def body (e : Envelope) : List (String × Json) :=
  [("v", .nat e.v), ("type", .str e.eventType), ("scope", .str (scopeName e.scope)),
    ("origin", .str e.origin), ("stream", .str e.stream), ("seq", .nat e.seq),
    ("seen", .obj (e.seen.toList.map fun p => (p.1, .nat p.2))), ("ts", .str e.ts),
    ("src", .str e.src), ("schemaVersion", .nat e.schemaVersion), ("payload", e.payload)]

def toValue (e : Envelope) : Json := .obj (e.body ++ [("h", .str e.h)])

/-- The text of `NonFiniteNumber`. -/
def nonFinite : Error := invalid "number is outside finite IEEE-754 binary64"

/-- The digest of everything but `h`. -/
def computeHash (c : Codec) (e : Envelope) : Except Error String :=
  match Json.canonicalLine c (.obj e.body) with
  | none => .error nonFinite
  | some bytes => .ok (c.sha256 bytes)

def validate (c : Codec) (e : Envelope) : Except Error Unit := do
  ensure (e.v = 4 && positiveCounter e.seq && positiveCounter e.schemaVersion && e.eventType ≠ "" &&
    e.src ≠ "" && validStoreId e.origin) (invalid "invalid v4 envelope fields")
  ensure (validTimestamp e.ts) (invalid "timestamp must be YYYY-MM-DDTHH:MM:SS.sssZ")
  ensure (scopeMatches e.scope e.stream && streamKey e ∉ e.seen)
    (invalid "scope/stream mismatch or own stream in seen")
  ensure (e.seen.toList.all fun p => validSeenKey p.1 && positiveCounter p.2)
    (invalid "invalid seen entry")
  ensure (isDigest e.h) (invalid "event hash mismatch")
  let h ← computeHash c e
  ensure (e.h = h) (invalid "event hash mismatch")

/-- What `validate` accepts. -/
structure Valid (c : Codec) (e : Envelope) : Prop where
  version : e.v = 4
  seq : positiveCounter e.seq = true
  schemaVersion : positiveCounter e.schemaVersion = true
  eventType : e.eventType ≠ ""
  src : e.src ≠ ""
  origin : validStoreId e.origin = true
  ts : validTimestamp e.ts = true
  scope : scopeMatches e.scope e.stream = true
  notOwn : streamKey e ∉ e.seen
  seen : ∀ k n, e.seen[k]? = some n → validSeenKey k = true ∧ positiveCounter n = true
  digest : isDigest e.h = true
  hash : computeHash c e = .ok e.h

theorem validate_eq_ok_iff (c : Codec) (e : Envelope) : validate c e = .ok () ↔ Valid c e := by
  have hseen : (e.seen.toList.all fun p => validSeenKey p.1 && positiveCounter p.2) = true ↔
      ∀ k n, e.seen[k]? = some n → validSeenKey k = true ∧ positiveCounter n = true := by
    simp only [List.all_eq_true, Prod.forall, Std.ExtTreeMap.mem_toList_iff_getElem?_eq_some, Bool.and_eq_true]
  simp only [validate, bind_eq_ok, ensure_eq_ok, hseen, Bool.and_eq_true, decide_eq_true_eq,
    exists_and_left, exists_const]
  constructor
  · rintro ⟨⟨⟨⟨⟨⟨h1, h2⟩, h3⟩, h4⟩, h5⟩, h6⟩, h7, ⟨h8, h9⟩, h10, h11, h, h12, h13⟩
    exact ⟨h1, h2, h3, h4, h5, h6, h7, h8, h9, h10, h11, h13 ▸ h12⟩
  · intro h
    exact ⟨⟨⟨⟨⟨⟨h.version, h.seq⟩, h.schemaVersion⟩, h.eventType⟩, h.src⟩, h.origin⟩, h.ts,
      ⟨h.scope, h.notOwn⟩, h.seen, h.digest, e.h, h.hash, rfl⟩

/-! ### Events of small histories -/

/-- The origin of a store that is named by one hexadecimal digit. -/
def store (digit : Char) : String := String.ofList (List.replicate 32 digit)

/-- An event of a small history; what no ordering looks at is fixed. -/
def sample (digit : Char) (stream : String) (seq : ℕ) (seen : List (String × ℕ)) (eventType : String)
    (payload : Json) (h : String) : Envelope where
  v := 4
  eventType := eventType
  scope := if "branch:".toList.isPrefixOf stream.toList then .branch else .project
  origin := store digit
  stream := stream
  seq := seq
  seen := Std.ExtTreeMap.ofList seen
  ts := "2026-01-01T00:00:00.000Z"
  src := "agent"
  schemaVersion := 1
  payload := payload
  h := h

end Envelope

end Forgent
