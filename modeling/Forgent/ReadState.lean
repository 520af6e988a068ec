import Forgent.Order
import Forgent.Replay

/-!
# A full read

Outside the gate a consumer takes every event its clone holds, orders them and folds the result from
zero, after the events of the old log.  It is asked for the events of its own streams; a branch event
comes along when a promote among them names it.  What a read has covered, and the digests of what it
deferred, make its cursor: a view that was kept under the same cursor is taken as it is.
-/

namespace Forgent

/-! ### Streams without a hole -/

/-- The numbers in ascending order, each once: the keys of a `BTreeMap`. -/
def ascending {α : Type} [LinearOrder α] (values : List α) : List α :=
  values.dedup.insertionSort (· ≤ ·)

/-- The number after which one is missing. -/
def hole (high : ℕ) : List ℕ → Option ℕ
  | [] => none
  | n :: rest => if n = high + 1 then hole n rest else some high

def streamHole (events : List Envelope) (base : Positions) (stream : String) : Option ℕ :=
  hole (base.at stream) ((ascending ((events.filter fun e => streamKey e = stream).map Envelope.seq)).filter
    fun n => base.at stream < n)

def checkContiguous (events : List Envelope) (base : Positions) : Except Error Unit := do
  ensure (events.all fun a => events.all fun b => position a ≠ position b || a.h = b.h)
    ⟨.seqConflict, "conflicting stream position"⟩
  let holes := (ascending (events.map streamKey)).filterMap fun stream =>
    (streamHole events base stream).map fun high => (stream, high)
  match holes with
  | [] => return ()
  | (stream, high) :: _ => .error ⟨.gap, "hole in " ++ stream ++ " after " ++ toString high⟩

/-! ### What a read orders -/

/-- How far the promotes of the queried streams take the stream `key`. -/
def promotedHigh (union : List Envelope) (query : List String) (key : String) : Option ℕ :=
  (union.filterMap fun p =>
    if query.contains p.stream then
      (promotePosition p).bind fun q => if q.1 = key then some q.2 else none
    else none).max?

/-- The events of the query, and the branch events their promotes name. -/
def retainedEvents (union : List Envelope) (query : List String) (project : Bool) : List Envelope :=
  union.filter fun e => query.contains e.stream ||
    project && (promotedHigh union query (streamKey e)).any fun high => e.seq ≤ high

def foldHistory (c : Codec) (union : List Envelope) (query : List String) (project : Bool)
    (view : Option (VerifiedView c)) : Except Error Ordered := do
  let retained := retainedEvents union query project
  checkContiguous retained ∅
  orderRetained c retained ∅ project view

theorem foldHistory_of_contiguous {c : Codec} {union l : List Envelope} {query : List String} {project : Bool}
    (hl : retainedEvents union query project = l) (hgap : checkContiguous l ∅ = .ok ()) :
    foldHistory c union query project none = order c l ∅ project := by
  rw [foldHistory, hl, hgap]
  rfl

/-! ### The view a read answers with -/

/-- What a kept view is recognised by; the streams, the order and the old log of a consumer do not change. -/
structure Cursor where
  cover : Positions
  deferred : Finset String
deriving DecidableEq

/-- The highest number of every stream among the events. -/
def coverOf (events : List Envelope) : Positions :=
  events.foldl (fun cover e => cover.insert (streamKey e) (max (cover.at (streamKey e)) e.seq)) ∅

def cursorOf (ordered : Ordered) : Cursor where
  cover := coverOf ordered.events
  deferred := (ordered.deferred.map Envelope.h).toFinset

structure Candidate where
  view : View
  cursor : Cursor

inductive ReadError where
  | store (error : Error)
  | fold (error : FoldError)
deriving DecidableEq

section

variable (c : Codec) (host : Host) (legacy : List LogEvent)

/-- The fold of an order from zero, behind the old log. -/
def foldOrder (events : List Envelope) : Except FoldError View :=
  foldEvents host (legacy ++ events.map LogEvent.ofEnvelope) .empty

/-- `readWorkState`: the project stream's history, folded, or a kept view of the same history. -/
def readWorkState (union : List Envelope) (cached : Option Candidate) : Except ReadError Candidate := do
  let ordered ← (foldHistory c union ["project"] true none).mapError .store
  let cursor := cursorOf ordered
  match cached.filter fun m => m.cursor = cursor with
  | some m => return { view := m.view, cursor := cursor }
  | none =>
    let view ← (foldOrder host legacy ordered.events).mapError .fold
    return { view := view, cursor := cursor }

end

end Forgent
