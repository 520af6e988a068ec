import Forgent.Append
import Forgent.Order

/-!
# Promotion of a branch

`promote` seals the branch stream, checks that the sealed part reaches the number it is to name, and
appends one `store.promote` event to the project stream of the same store.  The Git work of the two
seals is left out: what an append depends on is the sealed branch's last number, its commit, and that
the project stream was published before.
-/

namespace Forgent

def projectStream : StreamId := ⟨"project", by decide⟩

structure PromoteRequest where
  branch : StreamId
  throughSeq : ℕ
  writer : String
  ts : String
  cursor : Positions

structure SealedBranch where
  lastSeq : ℕ
  commit : String

def promoteInput (req : PromoteRequest) (branch : SealedBranch) : EventInput where
  eventType := "store.promote"
  schemaVersion := 1
  payload := promotePayload req.branch.value req.throughSeq branch.commit
  ts := req.ts

/-- The event a promote writes.  `projectHigh` is the last number of the project stream; a published
project stream has one. -/
def promoteEvents (c : Codec) (registry : Registry) (origin : String) (req : PromoteRequest)
    (branch : SealedBranch) (projectHigh : ℕ) : Except Error (List Envelope) := do
  ensure (req.branch.scope = .branch && req.throughSeq ≠ 0)
    (invalid "promote requires a branch and positive sequence")
  ensure (req.throughSeq ≤ branch.lastSeq) (invalid "promote exceeds sealed branch")
  ensure (projectHigh ≠ 0) (invalid "promote requires an existing project publication")
  appendEvents c registry origin projectStream req.writer req.cursor projectHigh
    [promoteInput req branch]

variable {c : Codec} {req : PromoteRequest} {branch : SealedBranch}

theorem promoteEvents_eq_ok {registry : Registry} {origin : String} {projectHigh : ℕ} {es : List Envelope}
    (h : promoteEvents c registry origin req branch projectHigh = .ok es) :
    appendEvents c registry origin projectStream req.writer req.cursor projectHigh
        [promoteInput req branch] = .ok es ∧ req.throughSeq ≤ branch.lastSeq ∧ ∃ e, es = [e] ∧
        IsAppended c origin projectStream req.writer
          (seenOf req.cursor (positionKey origin "project")) (projectHigh + 1) (promoteInput req branch) e := by
  simp only [promoteEvents, bind_eq_ok, ensure_eq_ok, decide_eq_true_eq, exists_and_left, exists_const] at h
  obtain ⟨_, hle, _, h⟩ := h
  refine ⟨h, hle, ?_⟩
  obtain ⟨_, _, hes⟩ := appendEvents_eq_ok h
  obtain ⟨hlen, happ⟩ := isAppended_of_envelopesFrom hes
  obtain ⟨e, rfl⟩ := List.length_eq_one_iff.mp hlen
  obtain ⟨input, hmem, happ⟩ := happ 0 (by simp)
  rw [List.mem_singleton.mp hmem] at happ
  exact ⟨e, rfl, happ⟩

theorem promoteClaim_promoteInput {own : String} {id : StreamId} {writer : String}
    {folded : Positions} {number : ℕ} {e : Envelope}
    (h : IsAppended c own id writer folded number (promoteInput req branch) e) :
    promoteClaim e = some (req.branch.value, req.throughSeq) := by
  have ht : e.eventType = "store.promote" := h.eventType
  rw [promoteClaim, if_pos ht, h.payload]
  simp [promoteInput, promotePayload, Json.get, List.lookup_cons, Json.asStr, Json.asU64, Json.nat]

end Forgent
