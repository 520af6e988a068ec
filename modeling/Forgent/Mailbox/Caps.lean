import Forgent.Mailbox.Budgets
import Forgent.Mailbox.LifeCycle
import Forgent.Mailbox.Replies

/-!
# The caps of a mailbox

What a run without a forgotten key never exceeds.  A sender is a key of this machine or a session of another one, and
a registration of a key lasts while its generation is current.
-/

namespace Forgent.Mailbox

open List

/-- The caps of the limits hold over the run. -/
structure Caps (limits : Limits) (steps : List Step) (s : MailboxState) : Prop where
  queue (key : WriterKey) (generation : Generation) : s.queued key generation ≤ limits.queueCap
  share (sender : Sender) (key : WriterKey) (generation : Generation) :
    s.pendingFrom sender key generation ≤ limits.queuePerSender
  loop (sender : Sender) (key : WriterKey) (since : ℕ) :
    (recorded steps).countP (inLoopWindow limits sender key since) ≤ limits.loopMaxPerWindow
  budget (past term rest : List Step) (key : WriterKey) (generation : Generation) (since : ℕ) :
    steps = past ++ term ++ rest → Holding key generation term →
      term.countP (admittedInWindow limits key since) ≤ limits.sessionBudget
  /-- The count of a registration saturates, so a cap at its maximum refuses nothing. -/
  lifetime (past term rest : List Step) (key : WriterKey) (generation : Generation) :
    steps = past ++ term ++ rest → Holding key generation term → limits.sessionLifetimeCap < u32Max →
      term.countP (Step.admits key) ≤ limits.sessionLifetimeCap
  depth : ∀ step ∈ steps, ∀ header, step.recorded = some header →
    header.depth ≤ limits.chainMaxDepth ∧ ((header.replyTo = none ∧ header.depth = 0) ∨
      ∃ parent, header.replyTo = some parent ∧ step.RepliesTo header parent)
  replies (id : MessageId) : repliesTo id steps ≤ carrying id steps

section

variable {limits : Limits} {steps past rest : List Step} {s : MailboxState}

theorem Run.exists_prefix (hrun : Run limits (past ++ rest) s) : ∃ before : MailboxState, Run limits past before := by
  cases rest with
  | nil =>
    rw [append_nil] at hrun
    exact ⟨s, hrun⟩
  | cons step rest =>
    obtain ⟨_, _, hbefore, _⟩ := hrun.before
    exact ⟨step.before, hbefore⟩

theorem caps (hrun : Run limits steps s) (hkeeps : ∀ step ∈ steps, ∀ key, step.op ≠ .forgetKey key) :
    Caps limits steps s where
  queue := hrun.queued_le
  share := hrun.pendingFrom_le
  loop := hrun.inLoopWindow_le hkeeps
  budget past term rest key generation since heq hholding := by
    subst heq
    obtain ⟨_, hterm⟩ := hrun.exists_prefix
    exact hterm.admittedInWindow_le (fun step hstep => hkeeps step (mem_append_left rest (mem_append_right past hstep))) hholding since
  lifetime past term rest key generation heq hholding hcap := by
    subst heq
    obtain ⟨_, hterm⟩ := hrun.exists_prefix
    exact hterm.admits_le (fun step hstep => hkeeps step (mem_append_left rest (mem_append_right past hstep))) hholding hcap
  depth step hstep header hrecorded := hrun.replied hstep hrecorded
  replies id := (Nat.le_add_right _ _).trans (hrun.repliesTo_le id)

end

namespace Sample

/-- The key `p` is registered; a session `s` of this machine and one of the machine `m` write to it. -/
def sameKeyTwice : List (Op × IdSource) :=
  [(.register (request (key "p") "p1" "P") none 1, ids), (.send (sendTo (key "s") (key "p")) 2, ids),
    (.ingestRemote (mail "1") [] 3, ids)]

end Sample

theorem caps_two_senders : Caps Sample.limits (play Sample.limits Sample.sameKeyTwice).1
    (play Sample.limits Sample.sameKeyTwice).2 := by
  refine caps (run_play _ _) ?_
  intro step hstep key hforgot
  have hop := List.mem_map_of_mem (f := Step.op) hstep
  rw [map_op_play, hforgot] at hop
  simp [Sample.sameKeyTwice] at hop

/-- A key of this machine and the same key on another one have a share each. -/
theorem two_shares_of_one_key : ¬∀ (limits : Limits) (steps : List Step) (s : MailboxState), Run limits steps s →
      (∀ step ∈ steps, ∀ key, step.op ≠ .forgetKey key) → ∀ (sender key : WriterKey) (generation : Generation),
      (s.messages.countP fun h => MailboxState.pendingTo key generation h && decide (h.fromKey = sender)) ≤
        limits.queuePerSender := by
  intro hclaim
  have hle := hclaim { Sample.limits with queuePerSender := 1 } _ _ (run_play _ Sample.sameKeyTwice) ?_ (Sample.key "s")
    (Sample.key "p") 1
  · have htwo : ((play { Sample.limits with queuePerSender := 1 } Sample.sameKeyTwice).2.messages.countP fun h =>
        MailboxState.pendingTo (Sample.key "p") 1 h && decide (h.fromKey = Sample.key "s")) = 2 := by decide
    rw [htwo] at hle
    exact absurd hle (by decide)
  · intro step hstep key hforgot
    have hop := List.mem_map_of_mem (f := Step.op) hstep
    rw [map_op_play, hforgot] at hop
    simp [Sample.sameKeyTwice] at hop

end Forgent.Mailbox
