import Forgent.Mailbox.Dedupe
import Forgent.Mailbox.Moves

/-!
# Queues and windows

The queue of an address and each sender's share of it, and what one sender records for one recipient in a loop
window.  Both are counted from the headers, so what counts must still be in the record when it is read.
-/

namespace Forgent.Mailbox

open List Option

/-! ### Senders -/

/-- Who sent a message: a key of this machine, or a session of another one. -/
inductive Sender
  | head (key : WriterKey)
  | remote (machine : String) (key : WriterKey)
deriving DecidableEq

def Header.sender (h : Header) : Sender :=
  match h.origin with
  | none => .head h.fromKey
  | some origin => .remote origin.machine h.fromKey

/-- What of a header never changes. -/
def Header.sealed (h : Header) : Header :=
  { h with
    bodyKept := true, changedAt := 0, offers := 0, answered := false, state := .recorded
    origin := h.origin.map fun origin => { origin with settled := false } }

theorem Header.sender_eq (h : Header) : h.sealed.sender = h.sender := by
  rw [Header.sender, Header.sender]
  cases horigin : h.origin with
  | none | some origin => rw [Header.sealed, horigin]; rfl

section

variable {limits : Limits} {step : Step} {h h' : Header}

theorem Touch.sealed (htouch : Touch step h h') : h'.sealed = h.sealed := by
  cases htouch with
  | told horigin => rw [Header.sealed, Header.sealed, horigin]; rfl
  | _ => rfl

theorem Move.sealed {event : Event} (hmove : Move limits step h event h') : h'.sealed = h.sealed := by
  cases hmove <;> rfl

variable (hbecomes : Becomes limits step h h')

include hbecomes

theorem Becomes.sealed : h'.sealed = h.sealed := by
  obtain ⟨events, hmoves⟩ := hbecomes
  induction hmoves with
  | refl => rfl
  | touch _ htouch ih => exact htouch.sealed.trans ih
  | move _ hmove ih => exact hmove.sealed.trans ih

theorem Becomes.id : h'.id = h.id := (congrArg Header.id hbecomes.sealed :)

theorem Becomes.toKey : h'.toKey = h.toKey :=
  (congrArg Header.toKey hbecomes.sealed :)

theorem Becomes.toGeneration : h'.toGeneration = h.toGeneration :=
  (congrArg Header.toGeneration hbecomes.sealed :)

theorem Becomes.recordedAt : h'.recordedAt = h.recordedAt :=
  (congrArg Header.recordedAt hbecomes.sealed :)

theorem Becomes.sender : h'.sender = h.sender := by
  rw [← h'.sender_eq, hbecomes.sealed, h.sender_eq]

theorem Becomes.pending (hpending : h'.state.pending = true) : h.state.pending = true := by
  obtain ⟨events, hmoves⟩ := hbecomes
  induction hmoves with
  | refl => exact hpending
  | touch _ htouch ih =>
    apply ih
    cases htouch <;> exact hpending
  | move _ hmove ih =>
    apply ih
    cases hmove with
    | taken _ _ _ _ _ _ hstate | lapsed hstate | exhausted hstate | expired hstate | offered _ _ _ hstate => rw [hstate]; rfl

theorem Becomes.changedAt : h'.changedAt = h.changedAt ∨ h'.changedAt = step.after.lastNow := by
  obtain ⟨events, hmoves⟩ := hbecomes
  induction hmoves with
  | refl => exact .inl rfl
  | touch _ htouch ih =>
    cases htouch <;> exact ih
  | move _ hmove _ =>
    right
    cases hmove <;> rfl

end

/-! ### What the checks of a recorded message say -/

namespace MailboxState

variable {s s' : MailboxState} {limits : Limits} {p : Header → Bool} {op : Op}

/-- The accounting identity of a sender. -/
def accountOf (s : MailboxState) : Sender → Account
  | .head key => s.account key
  | .remote machine key => remoteAccount machine key

theorem headerIsAccount_of_sender {h : Header} {sender : Sender} (hsender : h.sender = sender) :
    s.headerIsAccount h (s.accountOf sender) = true := by
  subst hsender
  rw [headerIsAccount, Header.sender]
  cases h.origin with
  | none => exact isAccount_iff.mpr rfl
  | some origin => exact decide_eq_true rfl

structure Checked (limits : Limits) (s : MailboxState) (header : Header) : Prop where
  queue : s.queued header.toKey header.toGeneration < limits.queueCap
  share : (s.messages.countP fun h => pendingTo header.toKey header.toGeneration h &&
    decide (h.sender = header.sender)) < limits.queuePerSender
  loop : (s.messages.countP fun h => h.toKey = header.toKey && !s.lastNow.isPast h.recordedAt limits.loopWindowSec &&
    decide (h.sender = header.sender)) < limits.loopMaxPerWindow
  depth : header.depth ≤ limits.chainMaxDepth

theorem countP_sender_le {p : Header → Bool} {sender : Sender} {account : Account}
    (haccount : account = s.accountOf sender) : (s.messages.countP fun h => p h && decide (h.sender = sender)) ≤
      s.messages.countP fun h => p h && s.headerIsAccount h account := by
  apply countP_mono_left
  intro h _ hh
  rw [Bool.and_eq_true] at hh ⊢
  rw [haccount]
  exact ⟨hh.1, headerIsAccount_of_sender (of_decide_eq_true hh.2)⟩

theorem countP_answer (s : MailboxState) (parent : Option ℕ)
    (hp : ∀ h, p { h with answered := true } = p h) : (s.answer parent).messages.countP p = s.messages.countP p := by
  cases parent with
  | none => rfl
  | some i =>
    show (s.messages.modify i _).countP p = _
    induction s.messages generalizing i with
    | nil => rw [modify_nil]
    | cons h l ih =>
      cases i with
      | zero => rw [modify_zero_cons, countP_cons, countP_cons, hp]
      | succ i => rw [modify_succ_cons, countP_cons, countP_cons, ih]

/-- What a call that records a message starts from, and leaves. -/
theorem Recording.checked {header : Header} (h : Recording limits s s' op header) :
    ∃ (now : Timestamp) (swept tried : MailboxState) (parent : Option ℕ), op.clock = some now ∧ Swept limits now s swept ∧ s'.lastNow = swept.lastNow ∧
      header.recordedAt = swept.lastNow ∧ header.changedAt = swept.lastNow ∧ tried.messages = swept.messages ∧
      s'.messages = (tried.answer parent).messages ++ [header] ∧ Checked limits swept header := by
  cases h with
  | @sent req swept tried admitted _ _ now hswept htried hadmitted hafter =>
    have hadmissible := admissible hadmitted
    have hmessages : tried.messages = swept.messages := by rw [htried]; rfl
    have haccount (key : WriterKey) : tried.account key = swept.account key :=
      account_congr (by rw [htried]; rfl) key
    refine ⟨now, swept, tried, _, rfl, hswept, hafter.lastNow.trans (by rw [htried]; rfl), rfl, rfl, hmessages,
      hafter.messages, ?_⟩
    exact
      { queue := by
          rw [queued, ← hmessages]
          exact hadmissible.queue
        share := by
          rw [← hmessages]
          exact (countP_sender_le (haccount req.fromKey).symm).trans_lt hadmissible.share
        loop := by
          rw [← hmessages]
          exact (countP_sender_le (haccount req.fromKey).symm).trans_lt hadmissible.loop
        depth := hadmissible.depth_le }
  | @landed mail _ swept tried recipient _ _ now hswept _ htried hadmitted hafter =>
    have hadmissible := admissibleMail hadmitted
    have hmessages : tried.messages = swept.messages := by rw [htried]; rfl
    refine ⟨now, swept, tried, _, rfl, hswept, hafter.lastNow.trans (by rw [htried]; rfl), rfl, rfl, hmessages,
      hafter.messages, ?_⟩
    exact
      { queue := by
          rw [queued, ← hmessages]
          exact hadmissible.queue
        share := by
          rw [← hmessages]
          exact (@countP_sender_le _ _ (.remote mail.machine mail.fromKey) _ rfl).trans_lt hadmissible.share
        loop := by
          rw [← hmessages]
          exact (@countP_sender_le _ _ (.remote mail.machine mail.fromKey) _ rfl).trans_lt hadmissible.loop
        depth := Nat.zero_le _ }

/-! ### Queues -/

theorem countP_call_le {ids : IdSource} {bound : ℕ}
    (hp : ∀ {step a b}, Becomes limits step a b → p b = true → p a = true) (hanswer : ∀ h, p { h with answered := true } = p h)
    (hbefore : s.messages.countP p ≤ bound)
    (hnew : ∀ header swept, Checked limits swept header → p header = true → swept.messages.countP p < bound) :
    (op.call limits s ids).2.messages.countP p ≤ bound := by
  cases hrecorded : (op.step limits s ids).recorded with
  | none =>
    obtain ⟨kept, hevolves, hmessages⟩ := evolved limits s ids op
    replace hmessages : (op.call limits s ids).2.messages = kept ++ (op.step limits s ids).recorded.toList := hmessages
    rw [hmessages, hrecorded, toList_none, append_nil]
    exact (hevolves.countP_le hp).trans hbefore
  | some header =>
    obtain ⟨now, swept, tried, parent, _, hswept, _, _, _, htried, hmessages, hchecked⟩ :=
      (recording hrecorded).checked
    have hold : swept.messages.countP p ≤ bound :=
      ((@Swept.evolves _ ⟨s, .sweep now, .done, swept⟩ _ _ _ hswept rfl).countP_le hp).trans hbefore
    rw [hmessages, countP_append, countP_answer tried parent hanswer, htried, countP_singleton]
    split
    · rename_i hcounted
      exact hnew header swept hchecked hcounted
    · exact hold

end MailboxState

def MailboxState.pendingFrom (s : MailboxState) (sender : Sender) (key : WriterKey) (generation : Generation) : ℕ :=
  s.messages.countP fun h => pendingTo key generation h && decide (h.sender = sender)

/-! ### Loop windows -/

/-- The messages of one sender to a recipient that were recorded from a time on. -/
def sentSince (sender : Sender) (key : WriterKey) (since : ℕ) (h : Header) : Bool :=
  decide (h.sender = sender ∧ h.toKey = key ∧ since ≤ h.recordedAt.val)

section

variable {limits : Limits} {steps : List Step} {s : MailboxState} {key : WriterKey} {generation : Generation}
  {sender : Sender}

theorem Becomes.pendingTo {step : Step} {a b : Header} (h : Becomes limits step a b)
    (hb : MailboxState.pendingTo key generation b = true) : MailboxState.pendingTo key generation a = true := by
  unfold MailboxState.pendingTo at hb ⊢
  rw [Bool.and_eq_true, Bool.and_eq_true] at hb ⊢
  rw [h.toKey, h.toGeneration] at hb
  exact ⟨hb.1, h.pending hb.2⟩

theorem address_of_pendingTo {h : Header} (hh : MailboxState.pendingTo key generation h = true) :
    h.toKey = key ∧ h.toGeneration = generation := by
  unfold MailboxState.pendingTo at hh
  rw [Bool.and_eq_true, Bool.and_eq_true] at hh
  exact ⟨of_decide_eq_true hh.1.1, of_decide_eq_true hh.1.2⟩

theorem Run.queued_le (hrun : Run limits steps s) (key : WriterKey) (generation : Generation) :
    s.queued key generation ≤ limits.queueCap := by
  induction hrun with
  | nil => exact Nat.zero_le _
  | snoc _ op ids ih =>
    refine MailboxState.countP_call_le (fun h hb => h.pendingTo hb) (fun _ => rfl) ih ?_
    intro header swept hchecked hcounted
    obtain ⟨rfl, rfl⟩ := address_of_pendingTo hcounted
    exact hchecked.queue

theorem Run.pendingFrom_le (hrun : Run limits steps s) (sender : Sender) (key : WriterKey) (generation : Generation) :
    s.pendingFrom sender key generation ≤ limits.queuePerSender := by
  induction hrun with
  | nil => exact Nat.zero_le _
  | snoc _ op ids ih =>
    refine MailboxState.countP_call_le ?_ (fun _ => rfl) ih ?_
    · intro step a b h hb
      rw [Bool.and_eq_true] at hb ⊢
      rw [h.sender] at hb
      exact ⟨h.pendingTo hb.1, hb.2⟩
    · intro header swept hchecked hcounted
      rw [Bool.and_eq_true] at hcounted
      obtain ⟨rfl, rfl⟩ := address_of_pendingTo hcounted.1
      cases of_decide_eq_true hcounted.2
      exact hchecked.share

def MailboxState.Dated (s : MailboxState) : Prop :=
  ∀ h ∈ s.messages, h.recordedAt ≤ h.changedAt ∧ h.changedAt ≤ s.lastNow

theorem Run.dated (hrun : Run limits steps s) : s.Dated := by
  induction hrun with
  | nil =>
    intro h hh
    cases hh
  | @snoc steps s _ op ids ih =>
    intro h hh
    have hclock := MailboxState.lastNow_le_call limits s ids op
    obtain ⟨kept, hevolves, hmessages⟩ := MailboxState.evolved limits s ids op
    replace hmessages : (op.call limits s ids).2.messages = kept ++ (op.step limits s ids).recorded.toList := hmessages
    rw [hmessages, mem_append] at hh
    rcases hh with hkept | hnew
    · obtain ⟨a, ha, hbecomes⟩ := hevolves.exists_of_mem hkept
      obtain ⟨hrecorded, hchanged⟩ := ih a ha
      rw [hbecomes.recordedAt]
      rcases hbecomes.changedAt with heq | heq
      · rw [heq]
        exact ⟨hrecorded, hchanged.trans hclock⟩
      · rw [heq]
        exact ⟨(hrecorded.trans hchanged).trans hclock, le_rfl⟩
    · obtain ⟨_, _, _, _, _, _, hnow, hrecorded, hchanged, _⟩ :=
        (MailboxState.recording (mem_toList.mp hnew)).checked
      rw [hrecorded, hchanged, hnow]
      exact ⟨le_rfl, le_rfl⟩

theorem countP_recorded_snoc (steps : List Step) (step : Step) (p : Header → Bool) :
    (recorded (steps ++ [step])).countP p = (recorded steps).countP p + step.recorded.toList.countP p := by
  rw [recorded_snoc, countP_append]

theorem sentSince_evolves {step : Step} {kept : List Header} {since : ℕ} (hdated : step.before.Dated)
    (hkeeps : ∀ key, step.op ≠ .forgetKey key)
    (hevolves : Evolves (Becomes limits step) (Gone limits step) step.before.messages kept)
    (hsince : step.after.lastNow.val ≤ since + limits.loopWindowSec * 1000) (sender : Sender) (key : WriterKey) :
    step.before.messages.countP (sentSince sender key since) ≤ kept.countP (sentSince sender key since) := by
  refine hevolves.le_countP ?_ ?_
  · intro a b h ha
    unfold sentSince at ha ⊢
    rw [h.sender, h.toKey, h.recordedAt]
    exact ha
  · intro a ha hgone
    rcases hgone with ⟨_, hpast⟩ | ⟨key, hforgot, _⟩
    · -- it was settled a header horizon ago, so it was recorded before the window
      have hchanged := (hdated a ha).1
      rw [Timestamp.isPast_iff] at hpast
      rw [Fin.le_def] at hchanged
      have hhorizon : limits.loopWindowSec ≤ limits.headerHorizonSec := (le_max_left _ _).trans (le_max_left _ _)
      have hwindow := Nat.mul_le_mul_right 1000 hhorizon
      refine decide_eq_false fun hsent => ?_
      omega
    · exact absurd hforgot (hkeeps key)

theorem Run.sentSince_le (hrun : Run limits steps s) (hkeeps : ∀ step ∈ steps, ∀ key, step.op ≠ .forgetKey key)
    (sender : Sender) (key : WriterKey) {since : ℕ} (hsince : s.lastNow.val ≤ since + limits.loopWindowSec * 1000) :
    (recorded steps).countP (sentSince sender key since) ≤ s.messages.countP (sentSince sender key since) := by
  induction hrun with
  | nil => exact Nat.zero_le _
  | @snoc steps s hrun op ids ih =>
    have hclock := MailboxState.lastNow_le_call limits s ids op
    obtain ⟨kept, hevolves, hmessages⟩ := MailboxState.evolved limits s ids op
    replace hmessages : (op.call limits s ids).2.messages = kept ++ (op.step limits s ids).recorded.toList := hmessages
    have hlast := hkeeps _ (mem_append_right _ (mem_singleton_self _))
    have hold := ih (fun step hstep => hkeeps step (mem_append_left _ hstep))
      ((Fin.le_def.mp hclock).trans hsince)
    have hkept := sentSince_evolves hrun.dated hlast hevolves hsince sender key
    rw [countP_recorded_snoc, hmessages, countP_append]
    exact Nat.add_le_add_right (hold.trans hkept) _

/-- The messages of one sender to a recipient that were recorded in a loop window. -/
def inLoopWindow (limits : Limits) (sender : Sender) (key : WriterKey) (since : ℕ) (h : Header) : Bool :=
  sentSince sender key since h && decide (h.recordedAt.val ≤ since + limits.loopWindowSec * 1000)

/-- In every loop window no more messages of a sender to a recipient are recorded than the loop guard lets pass. -/
theorem Run.inLoopWindow_le (hrun : Run limits steps s) (hkeeps : ∀ step ∈ steps, ∀ key, step.op ≠ .forgetKey key)
    (sender : Sender) (key : WriterKey) (since : ℕ) :
    (recorded steps).countP (inLoopWindow limits sender key since) ≤ limits.loopMaxPerWindow := by
  induction hrun with
  | nil => exact Nat.zero_le _
  | @snoc steps s hrun op ids ih =>
    replace hkeeps : ∀ step ∈ steps, ∀ key, step.op ≠ .forgetKey key :=
      fun step hstep => hkeeps step (mem_append_left _ hstep)
    rw [countP_recorded_snoc]
    cases hrecorded : (op.step limits s ids).recorded with
    | none => exact ih hkeeps
    | some header =>
      rw [toList_some, countP_singleton]
      split
      · rename_i hcounted
        rw [inLoopWindow, Bool.and_eq_true] at hcounted
        obtain ⟨hsent, hwindow⟩ := hcounted
        obtain ⟨hsender, hkey, hsince⟩ := of_decide_eq_true hsent
        replace hwindow := of_decide_eq_true hwindow
        obtain ⟨now, swept, _, _, _, hswept, _, hat, _, _, _, hchecked⟩ :=
          (MailboxState.recording hrecorded).checked
        -- the earlier ones are in the record when the new one is checked
        have hclock : s.lastNow ≤ swept.lastNow := by
          rw [hswept.lastNow]
          exact le_max_left _ _
        rw [hat] at hwindow
        have hold := hrun.sentSince_le hkeeps sender key ((Fin.le_def.mp hclock).trans hwindow)
        have hkept : s.messages.countP (sentSince sender key since) ≤ swept.messages.countP (sentSince sender key since) :=
          @sentSince_evolves _ ⟨s, .sweep now, .done, swept⟩ _ _ hrun.dated
            nofun (hswept.evolves rfl) hwindow sender key
        have hchecks : swept.messages.countP (sentSince sender key since) ≤ swept.messages.countP fun h =>
            h.toKey = header.toKey && !swept.lastNow.isPast h.recordedAt limits.loopWindowSec &&
              decide (h.sender = header.sender) := by
          apply countP_mono_left
          intro h _ hh
          obtain ⟨rfl, rfl, hfrom⟩ := of_decide_eq_true hh
          have hinside : swept.lastNow.isPast h.recordedAt limits.loopWindowSec = false := by
            rw [Timestamp.isPast_eq_false]
            omega
          rw [hinside, decide_eq_true hkey.symm, decide_eq_true hsender.symm]
          rfl
        have hin : (recorded steps).countP (inLoopWindow limits sender key since) ≤
            (recorded steps).countP (sentSince sender key since) := by
          apply countP_mono_left
          intro h _ hh
          rw [inLoopWindow, Bool.and_eq_true] at hh
          exact hh.1
        have hloop := hchecked.loop
        omega
      · exact ih hkeeps

end

end Forgent.Mailbox
