import Forgent.Envelope
import Forgent.SplitInclusive
import Forgent.Value
import Mathlib.Data.List.Induction

/-!
# Reading an open stream

An open stream is a file of lines: the events of a batch, and behind them the marker that closes it.  `decodeVerified`
reads the lines in order, keeps the events of closed batches, and stops at what no marker has closed.  `decode` keeps
the last frame it read with its bytes, and reads only what is behind the closed part when that part is there again.

* `Closed`: the lines of a frame, read one by one, that end with a marker.
* `decodeVerified_append`: behind closed lines a text is read as if it stood alone.
* `decode_agrees`: the two readers agree, whatever was read before.
-/

namespace Forgent

open SplitInclusive List

/-! ### Records -/

/-- The marker that closes a batch. -/
structure BatchCommit where
  v : ℕ
  kind : String
  origin : String
  stream : String
  firstSeq : ℕ
  lastSeq : ℕ
  count : ℕ
  sha256 : String
deriving DecidableEq

/-- `envelope::line` of a record. -/
def recordLine (c : Codec) (record : Json) : Except Error Bytes :=
  match Json.canonicalLine c record with
  | none => .error Envelope.nonFinite
  | some bytes => .ok bytes

namespace BatchCommit

def validate (m : BatchCommit) : Except Error Unit :=
  ensure (m.v = 4 && m.kind = "batch-commit" && validStoreId m.origin && isStreamId m.stream &&
    positiveCounter m.firstSeq && positiveCounter m.lastSeq && m.firstSeq ≤ m.lastSeq &&
    m.count = m.lastSeq - m.firstSeq + 1 && isDigest m.sha256) (invalid "invalid batch commit marker")

def toValue (m : BatchCommit) : Json :=
  .obj [("v", .nat m.v), ("kind", .str m.kind), ("origin", .str m.origin), ("stream", .str m.stream),
    ("firstSeq", .nat m.firstSeq), ("lastSeq", .nat m.lastSeq), ("count", .nat m.count), ("sha256", .str m.sha256)]

def canonicalLine (c : Codec) (m : BatchCommit) : Except Error Bytes := do
  m.validate
  recordLine c m.toValue

end BatchCommit

/-- `serde_json::from_slice` at the types a line is read as; an error is its text. -/
structure Serde where
  value : Bytes → Except String Json
  batchCommit : Bytes → Except String BatchCommit
  envelope : Bytes → Except String Envelope

/-- `.map_err(|e| invalid(e.to_string()))`. -/
def readAs {α : Type} (read : Except String α) : Except Error α := read.mapError invalid

namespace Envelope

def canonicalLine (c : Codec) (e : Envelope) : Except Error Bytes := do
  e.validate c
  recordLine c e.toValue

/-- Accepts only the canonical line of an event. -/
def parse (c : Codec) (serde : Serde) (raw : Bytes) : Except Error Envelope := do
  let event ← readAs (serde.envelope raw)
  let written ← event.canonicalLine c
  ensure (raw = written) (invalid "expected canonical event bytes including exactly one trailing newline")
  return event

end Envelope

namespace OpenRead

/-! ### The verifying reader -/

/-- The events of closed batches, and where the last one ends. -/
structure Framed where
  events : List Envelope := []
  committedLen : ℕ := 0

/-- How far the lines are read. -/
structure Decoding where
  out : Framed := {}
  pending : List Envelope := []
  batchStart : ℕ := 0
  offset : ℕ := 0

/-- Nothing is read behind the closed batches. -/
def boundary (front : Framed) : Decoding := ⟨front, [], front.committedLen, front.committedLen⟩

def follows (a b : Envelope) : Bool := a.seq + 1 = b.seq

def contiguous : List Envelope → Bool
  | a :: b :: rest => follows a b && contiguous (b :: rest)
  | _ => true

/-- The first event of the one list follows the last of the other, when both are there. -/
def joins (before behind : List Envelope) : Bool :=
  match before.getLast?, behind.head? with
  | some a, some b => follows a b
  | _, _ => true

def endsLine (raw : Bytes) : Bool := raw.getLast? = some Json.lf

def batchGap : Error := ⟨.seqRecoveryConflict, "committed batch has a gap or overlap"⟩

def batchesGap : Error := ⟨.seqRecoveryConflict, "committed active batches have gap or overlap"⟩

def damagedBatch : Error := ⟨.integrity, "damaged batch before a complete commit marker"⟩

section

variable (c : Codec) (serde : Serde) (origin : String) (stream : StreamId)

/-- Whether the marker closes the pending events, whose lines are `body`. -/
def closesBatch (body : Bytes) (pending : List Envelope) (marker : BatchCommit) : Bool :=
  marker.origin = origin && marker.stream = stream.value && marker.count = pending.length &&
    pending.head?.map Envelope.seq = some marker.firstSeq && pending.getLast?.map Envelope.seq = some marker.lastSeq &&
    marker.sha256 = c.sha256 body

/-- What a complete line is: an event, or the marker of the pending events, whose lines are `body`.  Only a marker has
a kind. -/
def readLine (body : Bytes) (pending : List Envelope) (raw : Bytes) : Except Error (Option Envelope) := do
  let value ← readAs (serde.value raw)
  if (value.field "kind").isSome then
    let marker ← readAs (serde.batchCommit raw)
    let written ← marker.canonicalLine c
    ensure (written = raw && closesBatch c origin stream body pending marker) (invalid "batch marker mismatch")
    ensure (contiguous pending) batchGap
    return none
  else
    let event ← Envelope.parse c serde raw
    ensure (event.origin = origin && event.stream = stream.value) (invalid "open-log event identity mismatch")
    return some event

/-- One complete line: an event is pending until the marker of its batch follows what is closed. -/
def decodeLine (body : Bytes) (s : Decoding) (raw : Bytes) : Except Error Decoding := do
  match ← readLine c serde origin stream body s.pending raw with
  | some event => return { s with pending := s.pending ++ [event] }
  | none => do
    ensure (joins s.out.events s.pending) batchesGap
    return boundary ⟨s.out.events ++ s.pending, s.offset⟩

/-- The next line of the bytes. -/
def advance (bytes : Bytes) (s : Decoding) (raw : Bytes) : Except Error Decoding :=
  decodeLine c serde origin stream ((bytes.take s.offset).drop s.batchStart) { s with offset := s.offset + raw.length }
    raw

/-- A complete marker stands among the lines. -/
def holdsMarker (bytes : Bytes) : Bool :=
  (splitInclusive Json.lf bytes).any fun line =>
    endsLine line && match serde.batchCommit line with
      | .ok marker => marker.kind = "batch-commit"
      | .error _ => false

/-- What becomes of the reading at a line that cannot be read, with the bytes behind the last marker: without a complete
marker behind it the line is not written yet. -/
def stopAt (rest : Bytes) (strict : Bool) (s : Decoding) (e : Error) : Except Error Decoding :=
  if e.code = .seqRecoveryConflict then .error e
  else if holdsMarker serde rest then .error damagedBatch
  else if strict then .error e
  else .ok s

/-- The loop over the lines, up to an unfinished one. -/
def decodeLines (bytes : Bytes) (strict : Bool) : Decoding → List Bytes → Except Error Decoding
  | s, [] => .ok s
  | s, raw :: rest =>
    if endsLine raw then
      match advance c serde origin stream bytes s raw with
      | .ok next => decodeLines bytes strict next rest
      | .error e => stopAt serde (bytes.drop s.batchStart) strict s e
    else .ok s

def decodeVerified (bytes : Bytes) (strict : Bool) : Except Error Framed := do
  let s ← decodeLines c serde origin stream bytes strict {} (splitInclusive Json.lf bytes)
  ensure (!strict || s.out.committedLen = bytes.length) (invalid "uncommitted immutable segment suffix")
  return s.out

end

/-! ### The reader that remembers -/

structure VerifiedFrame where
  bytes : Bytes
  origin : String
  stream : String
  strict : Bool
  frame : Framed

/-- What the slot has for this reading: its frame, when the closed bytes are there again. -/
def retained (slot : Option VerifiedFrame) (bytes : Bytes) (origin : String) (stream : StreamId) (strict : Bool) :
    Option Framed :=
  (slot.filter fun cached => cached.origin = origin && cached.stream = stream.value && cached.strict = strict &&
    (cached.bytes.take cached.frame.committedLen).isPrefixOf bytes).map VerifiedFrame.frame

/-- The most a slot keeps. -/
def retainedMax : ℕ := 4 * 1024 * 1024

/-- The frame of the bytes: with a retained frame only what is behind it is read. -/
def frameFrom (c : Codec) (serde : Serde) (kept : Option Framed) (bytes : Bytes) (origin : String)
    (stream : StreamId) (strict : Bool) : Except Error Framed :=
  match kept with
  | some front => do
    let suffix ← decodeVerified c serde origin stream (bytes.drop front.committedLen) strict
    ensure (joins front.events suffix.events) batchesGap
    return ⟨front.events ++ suffix.events, front.committedLen + suffix.committedLen⟩
  | none => decodeVerified c serde origin stream bytes strict

/-- The frame of the bytes and the slot behind the reading, which a failed reading leaves as it is. -/
def decode (c : Codec) (serde : Serde) (slot : Option VerifiedFrame) (bytes : Bytes) (origin : String)
    (stream : StreamId) (strict : Bool) : Except Error Framed × Option VerifiedFrame :=
  match frameFrom c serde (retained slot bytes origin stream strict) bytes origin stream strict with
  | .ok frame =>
    (.ok frame, if bytes.length ≤ retainedMax then some ⟨bytes, origin, stream.value, strict, frame⟩ else none)
  | .error e => (.error e, slot)

structure Reading where
  bytes : Bytes
  origin : String
  stream : StreamId
  strict : Bool

/-- The slot behind some readings. -/
def slotAfter (c : Codec) (serde : Serde) (readings : List Reading) : Option VerifiedFrame :=
  readings.foldl (fun slot r => (decode c serde slot r.bytes r.origin r.stream r.strict).2) none

/-! ### Joined lists of events -/

@[simp] theorem joins_nil_left (behind : List Envelope) : joins [] behind = true := rfl

@[simp] theorem joins_nil_right (before : List Envelope) : joins before [] = true := by
  cases h : before.getLast? <;> simp [joins, h]

theorem joins_append_left {before middle : List Envelope} (h : middle ≠ []) (behind : List Envelope) :
    joins (before ++ middle) behind = joins middle behind := by
  rw [joins, joins, getLast?_append_of_ne_nil before h]

theorem joins_append_right (before : List Envelope) {middle : List Envelope} (h : middle ≠ []) (behind : List Envelope) :
    joins before (middle ++ behind) = joins before middle := by
  rw [joins, joins, head?_append_of_ne_nil middle h]

/-! ### One line -/

section

variable {c : Codec} {serde : Serde} {origin : String} {stream : StreamId} {bytes : Bytes} {strict : Bool}
  {lines : List Bytes}
variable {s t next : Decoding} {raw body : Bytes} {front : Framed}

theorem decodeLine_eq_ok_iff : decodeLine c serde origin stream body s raw = .ok next ↔
    (∃ event, readLine c serde origin stream body s.pending raw = .ok (some event) ∧
      next = { s with pending := s.pending ++ [event] }) ∨
    (readLine c serde origin stream body s.pending raw = .ok none ∧ joins s.out.events s.pending = true ∧
      next = boundary ⟨s.out.events ++ s.pending, s.offset⟩) := by
  rw [decodeLine, bind_eq_ok]
  constructor
  · rintro ⟨line, hline, h⟩
    cases line with
    | some event =>
      cases h
      exact .inl ⟨event, hline, rfl⟩
    | none =>
      obtain ⟨_, hjoins, h⟩ := bind_eq_ok.mp h
      cases h
      exact .inr ⟨hline, ensure_eq_ok.mp hjoins, rfl⟩
  · rintro (⟨event, hline, rfl⟩ | ⟨hline, hjoins, rfl⟩)
    · exact ⟨some event, hline, rfl⟩
    · exact ⟨none, hline, bind_eq_ok.mpr ⟨(), ensure_eq_ok.mpr hjoins, rfl⟩⟩

theorem pending_ne_nil_of_marker {pending : List Envelope}
    (h : readLine c serde origin stream body pending raw = .ok none) : pending ≠ [] := by
  rintro rfl
  rw [readLine, bind_eq_ok] at h
  obtain ⟨value, _, h⟩ := h
  split at h
  · obtain ⟨marker, _, h⟩ := bind_eq_ok.mp h
    obtain ⟨written, _, h⟩ := bind_eq_ok.mp h
    obtain ⟨_, hcloses, _⟩ := bind_eq_ok.mp h
    simp [closesBatch] at hcloses
  · obtain ⟨event, _, h⟩ := bind_eq_ok.mp h
    obtain ⟨_, _, h⟩ := bind_eq_ok.mp h
    cases h

section

variable (h : advance c serde origin stream bytes s raw = .ok next)

include h

theorem advance_offset : next.offset = s.offset + raw.length := by
  rcases decodeLine_eq_ok_iff.mp h with ⟨event, _, rfl⟩ | ⟨_, _, rfl⟩ <;> rfl

theorem advance_out : next.out = s.out ∨ next = boundary next.out := by
  rcases decodeLine_eq_ok_iff.mp h with ⟨event, _, rfl⟩ | ⟨_, _, rfl⟩
  · exact .inl rfl
  · exact .inr rfl

theorem advance_grows : s.out.events <+: next.out.events := by
  rcases decodeLine_eq_ok_iff.mp h with ⟨event, _, rfl⟩ | ⟨_, _, rfl⟩
  · exact prefix_rfl
  · exact prefix_append _ _

end

theorem stopAt_eq_ok {rest : Bytes} {e : Error} : stopAt serde rest strict s e = .ok t ↔
    (e.code ≠ .seqRecoveryConflict ∧ holdsMarker serde rest = false ∧ strict = false) ∧ t = s := by
  rw [stopAt]
  split
  · rename_i hcode
    simp [hcode]
  · rename_i hcode
    split
    · rename_i hmarker
      simp [hmarker]
    · rename_i hmarker
      split
      · rename_i hstrict
        simp [hstrict]
      · rename_i hstrict
        simp [hcode, hmarker, hstrict, eq_comm]

/-! ### Closed lines -/

/-- The lines of a text that ends with a marker, and what they hold. -/
structure Closed (c : Codec) (serde : Serde) (origin : String) (stream : StreamId) (front : Framed)
    (lines : List Bytes) : Prop where
  isLine : ∀ line ∈ lines, IsLine Json.lf line
  decoded : lines.foldlM (advance c serde origin stream lines.flatten) {} = .ok (boundary front)

theorem foldlM_offset (h : lines.foldlM (advance c serde origin stream bytes) s = .ok t) :
    t.offset = s.offset + lines.flatten.length := by
  induction lines generalizing s with
  | nil =>
    cases h
    rfl
  | cons raw lines ih =>
    rw [foldlM_cons, bind_eq_ok] at h
    obtain ⟨next, hnext, h⟩ := h
    rw [ih h, advance_offset hnext, flatten_cons, length_append]
    omega

theorem Closed.length_eq (h : Closed c serde origin stream front lines) :
    lines.flatten.length = front.committedLen := by
  have hoffset := foldlM_offset h.decoded
  show _ = (boundary front).offset
  rw [hoffset]
  exact (Nat.zero_add _).symm

theorem foldlM_congr {bytes' : Bytes} {n : ℕ} (hsame : bytes.take n = bytes'.take n)
    (hin : s.offset + lines.flatten.length ≤ n) (h : lines.foldlM (advance c serde origin stream bytes) s = .ok t) :
    lines.foldlM (advance c serde origin stream bytes') s = .ok t := by
  induction lines generalizing s with
  | nil => exact h
  | cons raw lines ih =>
    rw [flatten_cons, length_append] at hin
    have htake : bytes.take s.offset = bytes'.take s.offset := by
      have hle : min s.offset n = s.offset := by omega
      rw [← hle, ← take_take, ← take_take, hsame]
    rw [foldlM_cons, bind_eq_ok] at h ⊢
    obtain ⟨next, hnext, h⟩ := h
    refine ⟨next, ?_, ih ?_ h⟩
    · rw [advance, ← htake]
      exact hnext
    · rw [advance_offset hnext]
      omega

theorem decodeLines_append {rest : List Bytes} (hlines : ∀ line ∈ lines, IsLine Json.lf line)
    (h : lines.foldlM (advance c serde origin stream bytes) s = .ok t) :
    decodeLines c serde origin stream bytes strict s (lines ++ rest) =
      decodeLines c serde origin stream bytes strict t rest := by
  induction lines generalizing s with
  | nil =>
    cases h
    rfl
  | cons raw lines ih =>
    obtain ⟨hraw, hlines⟩ := forall_mem_cons.mp hlines
    rw [foldlM_cons, bind_eq_ok] at h
    obtain ⟨next, hnext, h⟩ := h
    have hends : endsLine raw = true := decide_eq_true hraw.getLast?
    rw [cons_append, decodeLines, if_pos hends]
    simp only [hnext]
    exact ih hlines h

theorem exists_closed_lines (h : decodeLines c serde origin stream bytes strict s lines = .ok t) :
    t.out = s.out ∨ ∃ front rest, lines = front ++ rest ∧ (∀ line ∈ front, endsLine line = true) ∧
      front.foldlM (advance c serde origin stream bytes) s = .ok (boundary t.out) := by
  induction lines generalizing s with
  | nil =>
    cases h
    exact .inl rfl
  | cons raw lines ih =>
    rw [decodeLines] at h
    split at h
    · rename_i hends
      split at h
      · rename_i next hnext
        rcases ih h with hout | ⟨front, rest, rfl, hfront, hread⟩
        · rcases advance_out hnext with hsame | hclosed
          · exact .inl (hout.trans hsame)
          · refine .inr ⟨[raw], lines, rfl, by simpa using hends, ?_⟩
            rw [foldlM_cons, hnext, hout, ← hclosed]
            rfl
        · refine .inr ⟨raw :: front, rest, rfl, forall_mem_cons.mpr ⟨hends, hfront⟩, ?_⟩
          rw [foldlM_cons, bind_eq_ok]
          exact ⟨next, hnext, hread⟩
      · exact .inl (by rw [(stopAt_eq_ok.mp h).2])
    · cases h
      exact .inl rfl

/-- **The closed part of a text**: what was read of it are the lines up to its last marker. -/
theorem closed_of_decodeVerified {frame : Framed}
    (h : decodeVerified c serde origin stream bytes strict = .ok frame) :
    ∃ lines, Closed c serde origin stream frame lines ∧ lines.flatten = bytes.take frame.committedLen := by
  obtain ⟨s, hread, h⟩ := bind_eq_ok.mp h
  obtain ⟨_, _, h⟩ := bind_eq_ok.mp h
  cases h
  rcases exists_closed_lines hread with hout | ⟨lines, rest, hsplit, hends, hclosed⟩
  · rw [hout]
    exact ⟨[], ⟨by simp, rfl⟩, rfl⟩
  · have hbytes := @flatten_splitInclusive _ Json.lf _ bytes
    rw [hsplit, flatten_append] at hbytes
    have hhere : (lines.flatten ++ rest.flatten).take lines.flatten.length = lines.flatten.take lines.flatten.length := by
      rw [take_left, take_length]
    rw [← hbytes] at hclosed ⊢
    have hlines : Closed c serde origin stream s.out lines := by
      refine ⟨fun line hline => ?_, foldlM_congr hhere (Nat.zero_add _).le hclosed⟩
      exact isLine_of_mem (hsplit ▸ mem_append_left _ hline) (of_decide_eq_true (hends line hline))
    exact ⟨lines, hlines, by rw [← hlines.length_eq, take_left]⟩

/-! ### Behind closed lines -/

/-- A reading that goes on behind a frame. -/
def shift (front : Framed) (s : Decoding) : Decoding :=
  ⟨⟨front.events ++ s.out.events, front.committedLen + s.out.committedLen⟩, s.pending,
    front.committedLen + s.batchStart, front.committedLen + s.offset⟩

theorem shift_start (front : Framed) : shift front {} = boundary front := by
  simp [shift, boundary]

theorem foldlM_grows (h : lines.foldlM (advance c serde origin stream bytes) s = .ok t) :
    s.out.events <+: t.out.events := by
  induction lines generalizing s with
  | nil =>
    cases h
    exact prefix_rfl
  | cons raw lines ih =>
    rw [foldlM_cons, bind_eq_ok] at h
    obtain ⟨next, hnext, h⟩ := h
    exact (advance_grows hnext).trans (ih h)

theorem decodeLines_grows
    (h : decodeLines c serde origin stream bytes strict s lines = .ok t) : s.out.events <+: t.out.events := by
  rcases exists_closed_lines h with hout | ⟨front, rest, _, _, hread⟩
  · exact hout ▸ prefix_rfl
  · show s.out.events <+: (boundary t.out).out.events
    exact foldlM_grows hread

/-- One line behind a frame: the first batch must follow the frame, and all else is as alone. -/
theorem advance_shift {before : Bytes} (hlen : before.length = front.committedLen)
    (hfits : joins front.events s.out.events = true) :
    advance c serde origin stream (before ++ bytes) (shift front s) raw = (do
      let next ← advance c serde origin stream bytes s raw
      ensure (joins front.events next.out.events) batchesGap
      return shift front next) := by
  have hbody : ((before ++ bytes).take (shift front s).offset).drop (shift front s).batchStart =
      (bytes.take s.offset).drop s.batchStart := by
    simp only [shift]
    rw [← hlen, take_length_add_append, drop_length_add_append]
  rw [advance, advance, hbody, decodeLine, decodeLine]
  show (readLine c serde origin stream _ s.pending raw >>= _) = (readLine c serde origin stream _ s.pending raw >>= _) >>= _
  cases hline : readLine c serde origin stream ((bytes.take s.offset).drop s.batchStart) s.pending raw with
  | error e => rfl
  | ok line =>
    cases line with
    | some event =>
      show Except.ok _ = ensure (joins front.events s.out.events) batchesGap >>= _
      rw [hfits]
      simp [ensure, shift, Nat.add_assoc]
    | none =>
      have hpending := pending_ne_nil_of_marker hline
      show ensure (joins (front.events ++ s.out.events) s.pending) batchesGap >>= _ =
        (ensure (joins s.out.events s.pending) batchesGap >>= _) >>= _
      have hnext : shift front (boundary ⟨s.out.events ++ s.pending, s.offset + raw.length⟩) =
          boundary ⟨front.events ++ s.out.events ++ s.pending, front.committedLen + s.offset + raw.length⟩ := by
        simp [shift, boundary, Nat.add_assoc]
      -- both checks together are the check behind the frame
      have hboth : joins (front.events ++ s.out.events) s.pending =
          (joins s.out.events s.pending && joins front.events (s.out.events ++ s.pending)) := by
        by_cases hout : s.out.events = []
        · rw [hout, append_nil, nil_append, joins_nil_left, Bool.true_and]
        · rw [joins_append_left hout, joins_append_right _ hout, hfits, Bool.and_true]
      rw [hboth]
      cases hown : joins s.out.events s.pending with
      | false => rfl
      | true =>
        show ensure (joins front.events (s.out.events ++ s.pending)) batchesGap >>= _ =
          ensure (joins front.events (s.out.events ++ s.pending)) batchesGap >>= _
        cases hbehind : joins front.events (s.out.events ++ s.pending) with
        | false => rfl
        | true => exact congrArg Except.ok hnext.symm

/-- The loop behind a frame. -/
theorem decodeLines_shift {before : Bytes} (hlen : before.length = front.committedLen) {lines : List Bytes}
    (hfits : joins front.events s.out.events = true) {u : Decoding} :
    decodeLines c serde origin stream (before ++ bytes) strict (shift front s) lines = .ok u ↔
      ∃ t, decodeLines c serde origin stream bytes strict s lines = .ok t ∧
        joins front.events t.out.events = true ∧ u = shift front t := by
  induction lines generalizing s with
  | nil =>
    constructor
    · intro h
      cases h
      exact ⟨s, rfl, hfits, rfl⟩
    · rintro ⟨t, ht, _, rfl⟩
      cases ht
      rfl
  | cons raw lines ih =>
    have hrest : (before ++ bytes).drop (shift front s).batchStart = bytes.drop s.batchStart := by
      show (before ++ bytes).drop (front.committedLen + s.batchStart) = _
      rw [← hlen, drop_length_add_append]
    rw [decodeLines, decodeLines, advance_shift hlen hfits, hrest]
    split
    · cases hnext : advance c serde origin stream bytes s raw with
      | error e =>
        show stopAt serde (bytes.drop s.batchStart) strict (shift front s) e = _ ↔
          ∃ t, stopAt serde (bytes.drop s.batchStart) strict s e = .ok t ∧ _
        simp only [stopAt_eq_ok]
        constructor
        · rintro ⟨hstop, rfl⟩
          exact ⟨s, ⟨hstop, rfl⟩, hfits, rfl⟩
        · rintro ⟨t, ⟨hstop, rfl⟩, _, rfl⟩
          exact ⟨hstop, rfl⟩
      | ok next =>
        cases hjoins : joins front.events next.out.events with
        | true =>
          have hread : (do
              let next ← (Except.ok next : Except Error Decoding)
              ensure (joins front.events next.out.events) batchesGap
              return shift front next) = .ok (shift front next) := by
            show ensure (joins front.events next.out.events) batchesGap >>= _ = _
            rw [hjoins]
            rfl
          rw [hread]
          exact ih hjoins
        | false =>
          have hread : (do
              let next ← (Except.ok next : Except Error Decoding)
              ensure (joins front.events next.out.events) batchesGap
              return shift front next) = .error batchesGap := by
            show ensure (joins front.events next.out.events) batchesGap >>= _ = _
            rw [hjoins]
            rfl
          rw [hread]
          show Except.error _ = _ ↔ _
          constructor
          · intro h
            cases h
          · rintro ⟨t, ht, hfit, _⟩
            -- the first event behind the frame stays the first one
            obtain ⟨more, hmore⟩ := decodeLines_grows ht
            have hne : next.out.events ≠ [] := by
              intro hnil
              rw [hnil, joins_nil_right] at hjoins
              cases hjoins
            rw [← hmore, joins_append_right _ hne, hjoins] at hfit
            cases hfit
    · constructor
      · intro h
        cases h
        exact ⟨s, rfl, hfits, rfl⟩
      · rintro ⟨t, ht, _, rfl⟩
        cases ht
        rfl

/-- **Behind closed lines** a text is read as it is read alone, and its first batch must follow them. -/
theorem decodeVerified_append (h : Closed c serde origin stream front lines) {frame : Framed} :
    decodeVerified c serde origin stream (lines.flatten ++ bytes) strict = .ok frame ↔
      ∃ suffix, decodeVerified c serde origin stream bytes strict = .ok suffix ∧
        joins front.events suffix.events = true ∧
        frame = ⟨front.events ++ suffix.events, front.committedLen + suffix.committedLen⟩ := by
  have hread : decodeLines c serde origin stream (lines.flatten ++ bytes) strict {}
      (splitInclusive Json.lf (lines.flatten ++ bytes)) =
      decodeLines c serde origin stream (lines.flatten ++ bytes) strict (shift front {})
        (splitInclusive Json.lf bytes) := by
    rw [splitInclusive_lines h.isLine, shift_start]
    refine decodeLines_append h.isLine (foldlM_congr (n := lines.flatten.length) ?_ (Nat.zero_add _).le h.decoded)
    rw [take_left, take_length]
  have hlen : ∀ n, (front.committedLen + n = (lines.flatten ++ bytes).length) = (n = bytes.length) := by
    intro n
    rw [length_append, h.length_eq, Nat.add_left_cancel_iff]
  rw [decodeVerified, decodeVerified, hread]
  have hshift := fun u => @decodeLines_shift c serde origin stream bytes strict {} front _ h.length_eq
    (splitInclusive Json.lf bytes) (joins_nil_right front.events) u
  simp only [bind_eq_ok, ensure_eq_ok, hshift, pure, Except.pure, Except.ok.injEq]
  constructor
  · rintro ⟨_, ⟨t, ht, hfits, rfl⟩, _, hstrict, rfl⟩
    refine ⟨t.out, ⟨t, ht, (), ?_, rfl⟩, hfits, rfl⟩
    simpa only [shift, hlen] using hstrict
  · rintro ⟨_, ⟨t, ht, _, hstrict, rfl⟩, hfits, rfl⟩
    refine ⟨shift front t, ⟨t, ht, hfits, rfl⟩, (), ?_, rfl⟩
    simpa only [shift, hlen] using hstrict

/-! ### What the slot holds -/

/-- The slot holds a frame as it is read from its bytes. -/
def Sound (c : Codec) (serde : Serde) (slot : Option VerifiedFrame) : Prop :=
  ∀ cached ∈ slot, ∀ stream : StreamId, stream.value = cached.stream →
    decodeVerified c serde cached.origin stream cached.bytes cached.strict = .ok cached.frame

theorem sound_none : Sound c serde none := by
  intro cached h
  cases h

variable {slot : Option VerifiedFrame}

theorem exists_closed_of_retained (hsound : Sound c serde slot)
    (h : retained slot bytes origin stream strict = some front) :
    ∃ lines, Closed c serde origin stream front lines ∧ bytes = lines.flatten ++ bytes.drop front.committedLen := by
  obtain ⟨cached, hcached, rfl⟩ := Option.map_eq_some_iff.mp h
  obtain ⟨hslot, hsame⟩ := Option.filter_eq_some_iff.mp hcached
  simp only [Bool.and_eq_true, decide_eq_true_eq, List.isPrefixOf_iff_prefix] at hsame
  obtain ⟨⟨⟨horigin, hstream⟩, _⟩, rest, hrest⟩ := hsame
  obtain ⟨lines, hclosed, hflat⟩ := closed_of_decodeVerified (hsound cached hslot stream hstream.symm)
  refine ⟨lines, horigin ▸ hclosed, ?_⟩
  rw [← hrest, ← hflat, ← hclosed.length_eq, drop_left]

theorem frameFrom_eq_ok_iff (hsound : Sound c serde slot) {frame : Framed} :
    frameFrom c serde (retained slot bytes origin stream strict) bytes origin stream strict = .ok frame ↔
      decodeVerified c serde origin stream bytes strict = .ok frame := by
  cases hkept : retained slot bytes origin stream strict with
  | none => rfl
  | some front =>
    obtain ⟨lines, hclosed, hbytes⟩ := exists_closed_of_retained hsound hkept
    conv_rhs => rw [hbytes, decodeVerified_append hclosed]
    simp only [frameFrom, bind_eq_ok, ensure_eq_ok, pure, Except.pure, Except.ok.injEq]
    constructor
    · rintro ⟨suffix, hsuffix, _, hjoins, rfl⟩
      exact ⟨suffix, hsuffix, hjoins, rfl⟩
    · rintro ⟨suffix, hsuffix, hjoins, rfl⟩
      exact ⟨suffix, hsuffix, (), hjoins, rfl⟩

/-- **One reading**: it answers as the verifying reader does, and leaves a sound slot. -/
theorem decode_sound (hsound : Sound c serde slot) :
    (∀ frame, (decode c serde slot bytes origin stream strict).1 = .ok frame ↔
      decodeVerified c serde origin stream bytes strict = .ok frame) ∧
    Sound c serde (decode c serde slot bytes origin stream strict).2 := by
  have hframe := @frameFrom_eq_ok_iff c serde origin stream bytes strict slot hsound
  rw [decode]
  cases hread : frameFrom c serde (retained slot bytes origin stream strict) bytes origin stream strict with
  | error e =>
    rw [hread] at hframe
    exact ⟨fun frame => hframe, hsound⟩
  | ok frame =>
    rw [hread] at hframe
    refine ⟨fun frame' => hframe, ?_⟩
    show Sound c serde (if bytes.length ≤ retainedMax then _ else none)
    split
    · intro cached hcached stream' hstream
      cases hcached
      obtain rfl : stream' = stream := by
        cases stream'
        cases stream
        cases hstream
        rfl
      exact hframe.mp rfl
    · exact sound_none

end

theorem sound_slotAfter (c : Codec) (serde : Serde) (readings : List Reading) :
    Sound c serde (slotAfter c serde readings) := by
  induction readings using reverseRecOn with
  | nil => exact sound_none
  | append_singleton readings r ih =>
    rw [slotAfter, foldl_append]
    exact (decode_sound ih).2

/-- **The two readers agree**: whatever was read before, a reading gives what the verifying reader gives of the bytes, and
fails when it fails. -/
theorem decode_agrees (c : Codec) (serde : Serde) (readings : List Reading) (bytes : Bytes) (origin : String)
    (stream : StreamId) (strict : Bool) :
    (∀ frame, (decode c serde (slotAfter c serde readings) bytes origin stream strict).1 = .ok frame ↔
      decodeVerified c serde origin stream bytes strict = .ok frame) ∧
    ((∃ e, (decode c serde (slotAfter c serde readings) bytes origin stream strict).1 = .error e) ↔
      ∃ e, decodeVerified c serde origin stream bytes strict = .error e) := by
  have hagree := (@decode_sound c serde origin stream bytes strict _ (sound_slotAfter c serde readings)).1
  refine ⟨hagree, ?_⟩
  cases hread : decodeVerified c serde origin stream bytes strict with
  | ok frame =>
    rw [(hagree frame).mpr hread]
  | error e =>
    cases hdecode : (decode c serde (slotAfter c serde readings) bytes origin stream strict).1 with
    | error e' => simp
    | ok frame =>
      rw [(hagree frame).mp hdecode] at hread
      cases hread

end OpenRead

end Forgent
