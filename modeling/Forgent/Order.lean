import Forgent.Envelope
import Forgent.Graph.Kahn
import Forgent.Graph.Worklist
import Mathlib.Data.Finset.Union
import Mathlib.Data.String.Basic

/-!
# Placement, causal closure and deterministic ordering

`order` takes the events a reader holds, in whatever sequence they arrived, and gives the one sequence
they are folded in.  It validates and deduplicates them by position, hides the branch events no promote
names, contracts every promote and the branch events it takes into one block, and runs Kahn's algorithm
with the smallest (`ts`, `origin`, `stream`, `seq`) first.  A block with a dependency that is not there
is deferred together with everything behind it.

A block is kept here as the list of its events, the head first; the source keeps indices into the
vector of events.
-/

namespace Forgent

/-- A stream and a sequence number in it. -/
abbrev Position := String × ℕ

def position (e : Envelope) : Position := (streamKey e, e.seq)

/-- Positions in the order of a `BTreeMap` keyed by them. -/
abbrev PositionKey := String ×ₗ ℕ

instance : Std.LawfulEqOrd PositionKey where
  eq_of_compare := by
    intro a b h
    simp only [Prod.Lex.compare_def, compareLex, compareOn, Ordering.then_eq_eq, compare_eq_iff_eq] at h
    exact ofLex.injective (Prod.ext h.1 h.2)

abbrev EventMap := Std.ExtTreeMap PositionKey Envelope

/-- The sort key: the recorded time first, the position to tell equal times apart. -/
abbrev Key := String ×ₗ String ×ₗ String ×ₗ ℕ

protected def key (e : Envelope) : Key := toLex (e.ts, toLex (e.origin, toLex (e.stream, e.seq)))

/-- Proof of envelope validation, owned by a consumer's retained view: only a read that validated its
events builds one. -/
structure VerifiedView (c : Codec) where
  events : List Envelope
  valid : ∀ e ∈ events, e.Valid c

structure Ordered where
  events : List Envelope := []
  deferred : List Envelope := []
  missing : Finset Position := ∅
  concurrent : List (String × String) := []
deriving DecidableEq

def dependencies (e : Envelope) : List Position :=
  e.seen.toList ++ if 1 < e.seq then [(streamKey e, e.seq - 1)] else []

/-! ### Collecting the input -/

/-- The last event of the view with this digest is this event. -/
def verified {c : Codec} (view : Option (VerifiedView c)) (e : Envelope) : Bool :=
  match view with
  | none => false
  | some v => v.events.reverse.find? (fun x => x.h = e.h) = some e

/-- A verified event is not validated again. -/
def validateNew {c : Codec} (view : Option (VerifiedView c)) (e : Envelope) : Except Error Unit :=
  if verified view e then .ok () else e.validate c

def twoHashes : Error := ⟨.seqConflict, "two hashes at one stream position"⟩

/-- What was at the position before must have the digest of what is put there. -/
def checkReplaced (old : Option Envelope) (e : Envelope) : Except Error Unit :=
  ensure (old.all fun old => old.h = e.h) twoHashes

def collect (c : Codec) (view : Option (VerifiedView c)) :
    List Envelope → EventMap → Except Error EventMap
  | [], unique => .ok unique
  | e :: rest, unique => do
    validateNew view e
    checkReplaced unique[(toLex (position e) : PositionKey)]? e
    collect c view rest (unique.insert (toLex (position e)) e)

/-- Above the coverage that was emitted before. -/
def above (base : Positions) (p : Position) : Bool := base.at p.1 < p.2

/-! ### Placement -/

/-- The payload a promote is written with. -/
def promotePayload (stream : String) (through : ℕ) (tip : String) : Json :=
  .obj [("stream", .str stream), ("throughSeq", .nat through), ("tip", .str tip)]

/-- The stream and the sequence number a promote names, when it names both. -/
def promoteClaim (e : Envelope) : Option (String × ℕ) :=
  if e.eventType = "store.promote" then
    match (e.payload.get "stream").asStr, (e.payload.get "throughSeq").asU64 with
    | some stream, some through => some (stream, through)
    | _, _ => none
  else none

/-- The sequence number a promote of `origin` names for `stream`. -/
def claimFor (origin stream : String) (e : Envelope) : Option ℕ :=
  match promoteClaim e with
  | some (s, n) => if e.origin = origin ∧ s = stream then some n else none
  | none => none

/-- The highest sequence number a promote of `origin` names for `stream`. -/
def claimHigh (events : List Envelope) (origin stream : String) : Option ℕ :=
  (events.filterMap (claimFor origin stream)).max?

/-- The events a project order sees: project events, and branch events a promote claims. -/
def placed (events : List Envelope) (project : Bool) (e : Envelope) : Bool :=
  !project || e.scope = .project || (claimHigh events e.origin e.stream).any fun n => e.seq ≤ n

/-- What a promote must say before it takes events into its block. -/
def checkPromote (e : Envelope) : Except Error (String × ℕ) := do
  ensure (e.scope = .project) (invalid "promote must be project scoped")
  let stream ← match (e.payload.get "stream").asStr with
    | some stream => .ok stream
    | none => .error (invalid "promote stream missing")
  ensure ("branch:".toList.isPrefixOf stream.toList && isStreamId stream)
    (invalid "promote requires branch stream")
  let through ← match (e.payload.get "throughSeq").asU64 with
    | some n => if 0 < n then .ok n else .error (invalid "invalid promote sequence")
    | none => .error (invalid "invalid promote sequence")
  ensure ((e.payload.get "tip").asStr.any validObjectId) (invalid "invalid promote tip")
  return (stream, through)

/-- The named branch stream's events that no earlier promote took, by sequence number. -/
def members (events assigned : List Envelope) (e : Envelope) (claim : String × ℕ) : List Envelope :=
  (events.filter fun b =>
    b.origin = e.origin && b.stream = claim.1 && b.seq ≤ claim.2 && b ∉ assigned).insertionSort
      fun a b => a.seq ≤ b.seq

/-- One block for each promote, in the order given; `taken` is what earlier blocks hold. -/
def promoteBlocks (events : List Envelope) :
    List Envelope → List (List Envelope) → Except Error (List (List Envelope))
  | [], blocks => .ok blocks
  | e :: rest, blocks =>
    if e.eventType = "store.promote" then do
      let claim ← checkPromote e
      promoteBlocks events rest (blocks ++ [e :: members events blocks.flatten e claim])
    else promoteBlocks events rest blocks

/-- The project events that are in no block yet, each a block of its own. -/
def singleBlocks (events : List Envelope) (blocks : List (List Envelope)) : List (List Envelope) :=
  (events.filter fun e => e.scope = .project && e ∉ blocks.flatten).map fun e => [e]

/-! ### Sorting the blocks -/

def blockAt (blocks : List (List Envelope)) (n : ℕ) : List Envelope := blocks.getD n []

/-- The block that holds the event at a position. -/
def owner (blocks : List (List Envelope)) (p : Position) : Option ℕ :=
  blocks.findIdx? fun b => b.any fun e => position e = p

/-- A block takes the sort key of its head. -/
def headKey : List Envelope → Key
  | e :: _ => Forgent.key e
  | [] => toLex ("", toLex ("", toLex ("", 0)))

/-- The dependencies of a block's events above the base. -/
def openDependencies (base : Positions) (block : List Envelope) : List Position :=
  (block.flatMap dependencies).filter (above base)

def nodeDeps (blocks : List (List Envelope)) (base : Positions) (n : ℕ) : Finset ℕ :=
  ((openDependencies base (blockAt blocks n)).filterMap (owner blocks)).toFinset.erase n

/-- The position a promote waits for, even when no event of the missing tail names it. -/
def promotePosition (e : Envelope) : Option Position :=
  (promoteClaim e).map fun claim => (positionKey e.origin claim.1, claim.2)

def blockMissing (events : List Envelope) (blocks : List (List Envelope)) (base : Positions)
    (block : List Envelope) : Finset Position :=
  ((openDependencies base block).filter fun p => (owner blocks p).isNone).toFinset ∪
    ((block.filterMap promotePosition).filter fun p =>
      above base p && !events.any fun e => position e = p).toFinset

/-- The blocks that lack a dependency, and everything that depends on them. -/
def deferredNodes (events : List Envelope) (blocks : List (List Envelope)) (base : Positions) :
    Finset ℕ :=
  Worklist.closure blocks.length (Kahn.dependents blocks.length (nodeDeps blocks base))
    ((List.range blocks.length).filter fun n =>
      blockMissing events blocks base (blockAt blocks n) ≠ ∅)

structure SortResult where
  emitted : List Envelope
  held : List Envelope
  missing : Finset Position

def sortNodes (events : List Envelope) (blocks : List (List Envelope)) (base : Positions) :
    Except Error SortResult :=
  let deferred := deferredNodes events blocks base
  let visited := (Kahn.run blocks.length (fun n => headKey (blockAt blocks n))
    (nodeDeps blocks base)).visited
  if visited.length ≠ blocks.length then .error ⟨.orderCycle, "causal graph contains a cycle"⟩
  else .ok {
    emitted := (visited.filter (· ∉ deferred)).flatMap (blockAt blocks)
    held := (visited.filter (· ∈ deferred)).flatMap (blockAt blocks)
    missing := (Finset.range blocks.length).biUnion fun n =>
      blockMissing events blocks base (blockAt blocks n) }

/-! ### Concurrency -/

/-- The earlier events of other streams that neither saw `b` nor were seen by it. -/
def concurrentWith (prior : EventMap) (b : Envelope) : List (String × String) :=
  (prior.toList.filter fun p =>
    streamKey p.2 ≠ streamKey b && b.seen.at (streamKey p.2) < p.2.seq &&
      p.2.seen.at (streamKey b) < b.seq).map fun p => (p.2.h, b.h)

def concurrentPairs : List Envelope → EventMap → List (String × String)
  | [], _ => []
  | b :: rest, prior =>
    concurrentWith prior b ++ concurrentPairs rest (prior.insert (toLex (position b)) b)

/-! ### The order -/

/-- The blocks of the run: singles outside project mode, else promotes with what they take. -/
def contract (events : List Envelope) (project : Bool) (preliminary : SortResult) :
    Except Error (List (List Envelope)) :=
  if project then do
    let blocks ← promoteBlocks events (preliminary.emitted ++ preliminary.held) []
    return blocks ++ singleBlocks events blocks
  else .ok (events.map fun e => [e])

def placedEvents (unique : EventMap) (base : Positions) (project : Bool) : List Envelope :=
  let events := (unique.toList.map Prod.snd).filter fun e => above base (position e)
  events.filter (placed events project)

/-- What follows once the input is collected: it depends on the map alone. -/
def orderUnique (unique : EventMap) (base : Positions) (project : Bool) : Except Error Ordered := do
  let events := placedEvents unique base project
  let preliminary ← sortNodes events (events.map fun e => [e]) base
  let blocks ← contract events project preliminary
  let result ← sortNodes events blocks base
  return {
    events := result.emitted
    deferred := result.held
    missing := result.missing
    concurrent := concurrentPairs result.emitted ∅ }

def orderRetained (c : Codec) (input : List Envelope) (base : Positions) (project : Bool)
    (view : Option (VerifiedView c)) : Except Error Ordered := do
  let unique ← collect c view input ∅
  orderUnique unique base project

def order (c : Codec) (input : List Envelope) (base : Positions) (project : Bool) :
    Except Error Ordered :=
  orderRetained c input base project none

end Forgent
