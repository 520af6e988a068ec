import Forgent.Mailbox.Bindings

/-!
# A message from another machine lands once

The ids of the messages that were taken or refused are remembered with the time they were, as long as the ingest
horizon, but no more of them than the counters' key bound.  `remote_lands_once` needs that the bound is never
passed; `replay_lands_twice` passes it.
-/

namespace Forgent.Mailbox

open List Std.ExtTreeMap Option

/-- How long a taken message's id is remembered. -/
def Limits.seenHorizonSec (limits : Limits) : ℕ := limits.headerHorizonSec + seenMarginSec

namespace MailboxState

/-- What a call does to the clock and to the ids of the messages that were taken or refused. -/
inductive Remembering (limits : Limits) (s s' : MailboxState) (op : Op) : Prop
  | kept {base : MailboxState} (hbased : Based limits s op base) (hclock : base.lastNow ≤ s'.lastNow)
      (hseen : s'.remote.seen = base.remote.seen) : Remembering limits s s' op
  | noted {base : MailboxState} {now : Timestamp} {mail : RemoteMail} {dead : List WriterKey} (hop : op = .ingestRemote mail dead now)
      (hswept : Swept limits now s base) (hclock : s'.lastNow = base.lastNow)
      (hnew : base.remote.seen.contains (seenKey mail.machine mail.id) = false)
      (hseen : s'.remote.seen = base.remote.seen.insert (seenKey mail.machine mail.id) base.lastNow) :
      Remembering limits s s' op

variable {s s' : MailboxState} {limits : Limits} {now : Timestamp}

theorem Registration.remembering {req : RegisterRequest} {judged : Option StoredHead}
    {result : Except RegisterRefusal Registered} (h : Registration limits req now s judged result s') :
    Remembering limits s s' (.register req judged now) := by
  cases h with
  | refused | refreshed => exact .kept .unswept le_rfl rfl
  | created hswept | replaced hswept => exact .kept (.swept rfl hswept) le_rfl rfl
  | moved hswept =>
    obtain ⟨_, _, _, _, _, hretire⟩ := exists_retire (create _ req _ _ _) _
    rw [hretire]
    exact .kept (.swept rfl hswept) le_rfl rfl

theorem Sending.remembering {req : SendRequest} {result : Except Refusal SendOutcome}
    (h : Sending limits req now s result s') : Remembering limits s s' (.send req now) := by
  cases h with
  | refused hswept htried => exact .kept (.swept rfl hswept) (by rw [htried]; exact le_rfl) (by rw [htried]; rfl)
  | recorded _ hswept htried _ hafter =>
    refine .kept (.swept rfl hswept) ?_ ?_
    · rw [hafter.lastNow, htried]
      exact le_rfl
    · rw [hafter.remote, htried]
      rfl

theorem Leaving.remembering {req : RemoteSend} {result : Except Refusal MessageId}
    (h : Leaving limits req now s result s') : Remembering limits s s' (.admitRemote req now) := by
  cases h with
  | mk _ hswept htried => exact .kept (.swept rfl hswept) (by rw [htried]; exact le_rfl) (by rw [htried]; rfl)

theorem Ingesting.remembering {mail : RemoteMail} {dead : List WriterKey} {result : Except Refusal Ingested}
    (h : Ingesting limits mail dead now s result s') : Remembering limits s s' (.ingestRemote mail dead now) := by
  cases h with
  | duplicate hswept => exact .kept (.swept rfl hswept) le_rfl rfl
  | refused hswept hseen htried => exact .noted rfl hswept (by rw [htried]; rfl) hseen (by rw [htried]; rfl)
  | recorded _ hswept hseen htried _ hafter =>
    refine .noted rfl hswept ?_ hseen ?_
    · rw [hafter.lastNow, htried]
      rfl
    · rw [hafter.remote, htried]
      rfl

theorem Claiming.remembering {key : WriterKey} {generation : Generation} {checkpoint : Checkpoint} {result : Claim}
    (h : Claiming limits key generation checkpoint now s result s') :
    Remembering limits s s' (.claim key generation checkpoint now) := by
  cases h with
  | idle => exact .kept .unswept le_rfl rfl
  | @drained swept _ _ hswept =>
    obtain ⟨bindings, hdrain⟩ := exists_stampDrain swept key swept.lastNow
    rw [hdrain]
    exact .kept (.swept rfl hswept) le_rfl rfl
  | @took swept drained hold picks _ _ hswept hdrained =>
    obtain ⟨bindings, hdrain⟩ := exists_stampDrain swept key swept.lastNow
    obtain ⟨messages, notices, htook⟩ := exists_takeAll hold swept.lastNow picks drained
    rw [htook, hdrained, hdrain]
    exact .kept (.swept rfl hswept) le_rfl rfl

theorem remembering (limits : Limits) (s : MailboxState) (ids : IdSource) (op : Op) :
    Remembering limits s (op.call limits s ids).2 op := by
  unfold Op.call
  cases op with dsimp only
  | register req judged now => exact (registration s limits req judged now ids).remembering
  | forgetKey key | advanceRemoteCursor cursor | queueRemoteRefusal id code | clearRemoteRefusals told | markRemoteSettled told => exact .kept .unswept le_rfl rfl
  | send req now => exact (sending s limits req now ids).remembering
  | admitRemote req now => exact (leaving s limits req now ids).remembering
  | ingestRemote mail dead now => exact (ingesting s limits mail dead now ids).remembering
  | claim key generation checkpoint now => exact (claiming s limits key generation checkpoint now ids).remembering
  | finish key generation token now =>
    refine .kept .unswept ?_ rfl
    show s.lastNow ≤ if _ then max s.lastNow now else s.lastNow
    split
    · exact le_max_left _ _
    · exact le_rfl
  | noteStop key generation blocked =>
    obtain ⟨bindings, h⟩ := exists_noteStop s key generation blocked
    rw [h]
    exact .kept .unswept le_rfl rfl
  | sweep now => exact .kept (.swept rfl (swept s limits now ids)) le_rfl rfl
  | countRemoteDrop reason machine now => exact .kept .unswept (le_max_left _ _) rfl

theorem lastNow_le_call (limits : Limits) (s : MailboxState) (ids : IdSource) (op : Op) :
    s.lastNow ≤ (op.call limits s ids).2.lastNow := by
  cases remembering limits s ids op with
  | kept hbased hclock => exact hbased.lastNow_le.trans hclock
  | noted hop hswept hclock => exact hclock ▸ (hswept.lastNow ▸ le_max_left _ _)

end MailboxState

/-- The ids inside the horizon are within the key bound when the step sweeps. -/
def Step.Remembers (limits : Limits) (step : Step) : Prop :=
  ∀ now, step.op.clock = some now →
    (MailboxState.freshSeen limits (max step.before.lastNow now) step.before.remote.seen).size ≤ limits.countersMaxKeys

def Header.cameFrom (h : Header) (machine id : String) : Prop :=
  ∃ origin, h.origin = some origin ∧ origin.machine = machine ∧ origin.id = id

/-- Every message that landed is remembered until the horizon has passed. -/
def Remembered (limits : Limits) (steps : List Step) (s : MailboxState) : Prop :=
  ∀ h ∈ recorded steps, ∀ machine id, h.cameFrom machine id → h.recordedAt ≤ s.lastNow ∧
    (s.lastNow.isPast h.recordedAt limits.seenHorizonSec = true ∨
      ∃ since, s.remote.seen[seenKey machine id]? = some since ∧ h.recordedAt ≤ since)

section

variable {limits : Limits} {steps : List Step} {s base : MailboxState} {now : Timestamp}

variable (hs : Remembered limits steps s)

include hs

theorem Remembered.swept (hswept : MailboxState.Swept limits now s base)
    (hroom : (MailboxState.freshSeen limits (max s.lastNow now) s.remote.seen).size ≤ limits.countersMaxKeys) :
    Remembered limits steps base := by
  intro h hh machine id hfrom
  obtain ⟨hle, hcase⟩ := hs h hh machine id hfrom
  have hclock : s.lastNow ≤ base.lastNow := by
    rw [hswept.lastNow]
    exact le_max_left _ _
  refine ⟨hle.trans hclock, ?_⟩
  rcases hcase with hpast | ⟨since, hseen, hsince⟩
  · exact .inl (Timestamp.isPast_mono hpast hclock le_rfl)
  · by_cases hpast : base.lastNow.isPast since limits.seenHorizonSec = true
    · exact .inl (Timestamp.isPast_mono hpast le_rfl hsince)
    · refine .inr ⟨since, ?_, hsince⟩
      have hfresh : (!base.lastNow.isPast since limits.seenHorizonSec) = true := by
        rw [Bool.eq_false_of_not_eq_true hpast]
        rfl
      rw [hswept.seen, Table.evict_eq_self hroom, MailboxState.freshSeen, getElem?_filter', hseen, ← hswept.lastNow]
      exact filter_some_pos hfresh

theorem Remembered.call {op : Op} {ids : IdSource}
    (hroom : (op.step limits s ids).Remembers limits) : Remembered limits steps (op.call limits s ids).2 := by
  replace hroom : ∀ now, op.clock = some now → (MailboxState.freshSeen limits (max s.lastNow now) s.remote.seen).size ≤
      limits.countersMaxKeys := hroom
  have hcall := MailboxState.remembering limits s ids op
  generalize (op.call limits s ids).2 = s' at hcall ⊢
  have hbase {base : MailboxState} (hbased : MailboxState.Based limits s op base) : Remembered limits steps base := by
    cases hbased with
    | unswept => exact hs
    | swept hclock hswept => exact hs.swept hswept (hroom _ hclock)
  cases hcall with
  | kept hbased hclock hseen =>
    intro h hh machine id hfrom
    obtain ⟨hle, hcase⟩ := hbase hbased h hh machine id hfrom
    refine ⟨hle.trans hclock, ?_⟩
    rcases hcase with hpast | hkept
    · exact .inl (Timestamp.isPast_mono hpast hclock le_rfl)
    · rw [hseen]
      exact .inr hkept
  | noted hop hswept hclock hnew hseen =>
    intro h hh machine id hfrom
    obtain ⟨hle, hcase⟩ := hbase (.swept (by rw [hop]; rfl) hswept) h hh machine id hfrom
    rw [hclock]
    refine ⟨hle, ?_⟩
    rcases hcase with hpast | ⟨since, hkept, hsince⟩
    · exact .inl hpast
    · right
      rw [hseen, Std.ExtTreeMap.getElem?_insert]
      split
      · exact ⟨_, rfl, hle⟩
      · exact ⟨since, hkept, hsince⟩

theorem Remembered.recording {s' : MailboxState} {op : Op} {header : Header}
    (hrecording : MailboxState.Recording limits s s' op header) (hroom : ∀ now, op.clock = some now →
      (MailboxState.freshSeen limits (max s.lastNow now) s.remote.seen).size ≤ limits.countersMaxKeys)
    (machine id : String) (hfrom : header.cameFrom machine id) :
    s'.remote.seen[seenKey machine id]? = some header.recordedAt ∧ header.recordedAt = s'.lastNow ∧
      ∀ h ∈ recorded steps, h.cameFrom machine id →
        h.recordedAt.val + limits.seenHorizonSec * 1000 < header.recordedAt.val := by
  cases hrecording with
  | sent =>
    obtain ⟨origin, horigin, _⟩ := hfrom
    cases horigin
  | @landed mail _ swept tried _ _ _ now hswept hseen htried _ hafter =>
    obtain ⟨origin, horigin, hmachine, hid⟩ := hfrom
    cases horigin
    dsimp only at hmachine hid
    have hclock : s'.lastNow = swept.lastNow := hafter.lastNow.trans (by rw [htried]; rfl)
    have hlanded : s'.remote.seen = swept.remote.seen.insert (seenKey mail.machine mail.id) swept.lastNow := by
      rw [hafter.remote, htried]
      rfl
    rw [hmachine, hid] at hlanded hseen
    refine ⟨?_, hclock.symm, ?_⟩
    · rw [hlanded, getElem?_insert_self]
      rfl
    · intro h hh hfrom
      obtain ⟨_, hpast | ⟨since, hkept, _⟩⟩ := (hs.swept hswept (hroom now rfl)) h hh machine id hfrom
      · exact Timestamp.isPast_iff.mp hpast
      · -- the id is remembered, so the message would have been a duplicate
        rw [contains_eq_isSome_getElem?, hkept] at hseen
        cases hseen

end

/-- While no more ids are inside the horizon than the key bound, two headers of one message from another machine are
more than the horizon apart. -/
theorem remote_lands_once {limits : Limits} {steps : List Step} {s : MailboxState} (hrun : Run limits steps s)
    (hroom : ∀ step ∈ steps, step.Remembers limits) :
    (recorded steps).Pairwise fun h h' => ∀ machine id, h.cameFrom machine id → h'.cameFrom machine id →
      h.recordedAt.val + limits.seenHorizonSec * 1000 < h'.recordedAt.val := by
  suffices hboth : Remembered limits steps s ∧ (recorded steps).Pairwise fun h h' => ∀ machine id,
      h.cameFrom machine id → h'.cameFrom machine id →
      h.recordedAt.val + limits.seenHorizonSec * 1000 < h'.recordedAt.val from hboth.2
  induction hrun with
  | nil => exact ⟨fun h hh => (not_mem_nil hh).elim, List.Pairwise.nil⟩
  | @snoc steps s _ op ids ih =>
    obtain ⟨hs, hapart⟩ := ih fun step hstep => hroom step (mem_append_left _ hstep)
    have hlast := hroom _ (mem_append_right _ (mem_singleton_self _))
    have hs' := hs.call hlast
    rw [recorded_snoc]
    cases hrecorded : (op.step limits s ids).recorded with
    | none =>
      rw [toList_none, append_nil]
      refine ⟨?_, hapart⟩
      intro h hh
      rw [recorded_snoc, hrecorded, toList_none, append_nil] at hh
      exact hs' h hh
    | some header =>
      have hrecording := MailboxState.recording hrecorded
      have hnew := hs.recording hrecording hlast
      refine ⟨?_, ?_⟩
      · intro h hh machine id hfrom
        rw [recorded_snoc, hrecorded, mem_append] at hh
        rcases hh with hh | hh
        · exact hs' h hh machine id hfrom
        · have heq : h = header := by simpa using hh
          subst heq
          obtain ⟨hseen, hclock, _⟩ := hnew machine id hfrom
          exact ⟨hclock.le, .inr ⟨_, hseen, le_rfl⟩⟩
      · rw [pairwise_append]
        refine ⟨hapart, pairwise_singleton _ _, ?_⟩
        intro h hh h' hh' machine id hfrom hfrom'
        rw [mem_singleton.mp hh'] at hfrom' ⊢
        exact (hnew machine id hfrom').2.2 h hh hfrom

namespace Sample

def mail (id : String) : RemoteMail where
  machine := "m"
  id := id
  fromKey := key "s"
  handle := none
  toKey := key "p"
  body := "hi"
  maxBodyBytes := 16384
  wake := false
  stopDrains := []
  nudgeClis := []

/-- The key `p` is registered, and the messages arrive one after the other. -/
def arrivals (ids : List String) : List (Op × IdSource) :=
  (.register (request (key "p") "p1" "P") none 1, Sample.ids) ::
    ids.map fun id => (.ingestRemote (mail id) [] 2, Sample.ids)

end Sample

/-- Three messages lie between two arrivals of one, and the record remembers as many. -/
theorem remote_lands_once_arrivals :
    (recorded (play Sample.limits (Sample.arrivals ["1", "2", "3", "1"])).1).Pairwise fun h h' =>
      ∀ machine id, h.cameFrom machine id → h'.cameFrom machine id →
        h.recordedAt.val + Sample.limits.seenHorizonSec * 1000 < h'.recordedAt.val := by
  refine remote_lands_once (run_play _ _) ?_
  have hsizes : ∀ step ∈ (play Sample.limits (Sample.arrivals ["1", "2", "3", "1"])).1,
      step.op.clock.all fun now => decide ((MailboxState.freshSeen Sample.limits (max step.before.lastNow now)
        step.before.remote.seen).size ≤ Sample.limits.countersMaxKeys) := by decide +kernel
  intro step hstep now hclock
  have hsize := hsizes step hstep
  rw [hclock] at hsize
  exact of_decide_eq_true hsize

/-- With room for one id, the first message lands again after two others of its machine. -/
theorem replay_lands_twice : ¬∀ (limits : Limits) (steps : List Step) (s : MailboxState), Run limits steps s →
      (recorded steps).Pairwise fun h h' => ∀ machine id, h.cameFrom machine id → h'.cameFrom machine id →
        h.recordedAt.val + limits.seenHorizonSec * 1000 < h'.recordedAt.val := by
  intro hclaim
  have hapart := hclaim _ _ _ (run_play { Sample.limits with countersMaxKeys := 1 } (Sample.arrivals ["1", "2", "3", "1"]))
  have hlanded : ((recorded (play { Sample.limits with countersMaxKeys := 1 }
      (Sample.arrivals ["1", "2", "3", "1"])).1).map fun h => (h.origin, h.recordedAt)) =
      [(some ⟨"m", "1", none, false⟩, 2), (some ⟨"m", "2", none, false⟩, 2), (some ⟨"m", "3", none, false⟩, 2),
        (some ⟨"m", "1", none, false⟩, 2)] := by decide +kernel
  have hpairs : ((recorded (play { Sample.limits with countersMaxKeys := 1 }
      (Sample.arrivals ["1", "2", "3", "1"])).1).map fun h => (h.origin, h.recordedAt)).Pairwise fun a b =>
        ∀ origin, a.1 = some origin → b.1 = some origin → a.2.val < b.2.val := by
    apply pairwise_map.mpr
    refine hapart.imp ?_
    intro h h' hh origin hfrom hfrom'
    exact (Nat.le_add_right _ _).trans_lt (hh _ _ ⟨origin, hfrom, rfl, rfl⟩ ⟨origin, hfrom', rfl, rfl⟩)
  rw [hlanded] at hpairs
  have hfirst := (pairwise_cons.mp hpairs).1 _ (mem_cons_of_mem _ (mem_cons_of_mem _ mem_cons_self))
  exact absurd (hfirst _ rfl rfl) (lt_irrefl _)

end Forgent.Mailbox
