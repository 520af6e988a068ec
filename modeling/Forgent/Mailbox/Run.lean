import Forgent.Mailbox.Remote
import Mathlib.Data.List.Induction

/-!
# Runs of the core

A run is a list of calls on one record, each with the numbers it draws.  The second part says what the calls that
record or take messages leave of a record, so that no later proof unfolds them.
-/

namespace Forgent.Mailbox

open List

/-- One call of the core. -/
inductive Op
  | register (req : RegisterRequest) (judged : Option StoredHead) (now : Timestamp)
  | forgetKey (key : WriterKey)
  | send (req : SendRequest) (now : Timestamp)
  | admitRemote (req : RemoteSend) (now : Timestamp)
  | ingestRemote (mail : RemoteMail) (dead : List WriterKey) (now : Timestamp)
  | claim (key : WriterKey) (generation : Generation) (checkpoint : Checkpoint) (now : Timestamp)
  | finish (key : WriterKey) (generation : Generation) (token : AttemptToken) (now : Timestamp)
  | noteStop (key : WriterKey) (generation : Generation) (blocked : Bool)
  | sweep (now : Timestamp)
  | countRemoteDrop (reason : CounterReason) (machine : String) (now : Timestamp)
  | advanceRemoteCursor (cursor : Table ℕ)
  | queueRemoteRefusal (id code : String)
  | clearRemoteRefusals (told : List String)
  | markRemoteSettled (told : List MessageId)

inductive Answer
  | registered (result : Except RegisterRefusal Registered)
  | sent (result : Except Refusal SendOutcome)
  | leaving (result : Except Refusal MessageId)
  | ingested (result : Except Refusal Ingested)
  | claimed (claim : Claim)
  | finished (finished : Finished)
  | changed (whether : Bool)
  | done

def Op.call (limits : Limits) (s : MailboxState) (ids : IdSource) : Op → Answer × MailboxState
  | .register req judged now =>
    (.registered (s.register limits req judged now ids).1, (s.register limits req judged now ids).2.1)
  | .forgetKey key => (.changed (s.forgetKey key).1, (s.forgetKey key).2)
  | .send req now => (.sent (s.send limits req now ids).1, (s.send limits req now ids).2.1)
  | .admitRemote req now => (.leaving (s.admitRemote limits req now ids).1, (s.admitRemote limits req now ids).2.1)
  | .ingestRemote mail dead now =>
    (.ingested (s.ingestRemote limits mail dead now ids).1, (s.ingestRemote limits mail dead now ids).2.1)
  | .claim key generation checkpoint now =>
    (.claimed (s.claim limits key generation checkpoint now ids).1,
      (s.claim limits key generation checkpoint now ids).2.1)
  | .finish key generation token now =>
    (.finished (s.finish key generation token now).1, (s.finish key generation token now).2)
  | .noteStop key generation blocked =>
    (.changed (s.noteStop key generation blocked).1, (s.noteStop key generation blocked).2)
  | .sweep now => (.done, (s.sweep limits now ids).1)
  | .countRemoteDrop reason machine now => (.done, s.countRemoteDrop limits reason machine now)
  | .advanceRemoteCursor cursor => (.changed (s.advanceRemoteCursor cursor).1, (s.advanceRemoteCursor cursor).2)
  | .queueRemoteRefusal id code => (.done, s.queueRemoteRefusal limits id code)
  | .clearRemoteRefusals told => (.changed (s.clearRemoteRefusals told).1, (s.clearRemoteRefusals told).2)
  | .markRemoteSettled told => (.changed (s.markRemoteSettled told).1, (s.markRemoteSettled told).2)

/-- One call of a run, with the record before and after it. -/
structure Step where
  before : MailboxState
  op : Op
  answer : Answer
  after : MailboxState

def Op.step (limits : Limits) (s : MailboxState) (ids : IdSource) (op : Op) : Step where
  before := s
  op := op
  answer := (op.call limits s ids).1
  after := (op.call limits s ids).2

/-- The steps of a run, oldest first, and the record it reaches. -/
inductive Run (limits : Limits) : List Step → MailboxState → Prop
  | nil : Run limits [] .new
  | snoc {steps : List Step} {s : MailboxState} (h : Run limits steps s) (op : Op) (ids : IdSource) :
      Run limits (steps ++ [op.step limits s ids]) (op.call limits s ids).2

variable {limits : Limits} {s : MailboxState}

theorem Run.exists_last {steps : List Step} {step : Step} (hrun : Run limits (steps ++ [step]) s) :
    ∃ (before : MailboxState) (op : Op) (ids : IdSource), Run limits steps before ∧ step = op.step limits before ids ∧
      s = (op.call limits before ids).2 := by
  generalize heq : steps ++ [step] = all at hrun
  cases hrun with
  | nil => cases append_ne_nil_of_right_ne_nil steps (cons_ne_nil step []) heq
  | snoc hrun op ids =>
    obtain ⟨rfl, hlast⟩ := append_inj' heq rfl
    cases hlast
    exact ⟨_, op, ids, hrun, rfl, rfl⟩

theorem Run.before {past rest : List Step} {step : Step} (hrun : Run limits (past ++ step :: rest) s) :
    ∃ (op : Op) (ids : IdSource), Run limits past step.before ∧ step = op.step limits step.before ids := by
  induction rest using reverseRecOn generalizing s with
  | nil =>
    obtain ⟨before, op, ids, hbefore, rfl, _⟩ := hrun.exists_last
    exact ⟨op, ids, hbefore, rfl⟩
  | append_singleton rest last ih =>
    rw [← cons_append, ← append_assoc] at hrun
    obtain ⟨before, _, _, hbefore, _⟩ := hrun.exists_last
    exact ih hbefore

/-- The clock of a call that sweeps first. -/
def Op.clock : Op → Option Timestamp
  | .register _ _ now | .send _ now | .admitRemote _ now | .ingestRemote _ _ now | .claim _ _ _ now | .sweep now =>
    some now
  | _ => none

/-- Whether the answer says that a message was recorded. -/
def Answer.records : Answer → Bool
  | .sent (.ok _) | .ingested (.ok (.recorded _ _)) => true
  | _ => false

def Step.recorded (step : Step) : Option Header :=
  if step.answer.records then step.after.messages.getLast? else none

/-- The headers a run recorded, in order. -/
def recorded (steps : List Step) : List Header := steps.filterMap Step.recorded

theorem recorded_snoc (steps : List Step) (step : Step) :
    recorded (steps ++ [step]) = recorded steps ++ step.recorded.toList := by
  rw [recorded, filterMap_append]
  cases hrecorded : step.recorded with
  | none => rw [filterMap_cons_none hrecorded]; rfl
  | some h => rw [filterMap_cons_some hrecorded]; rfl

/-- The run of a list of calls. -/
def play (limits : Limits) (calls : List (Op × IdSource)) : List Step × MailboxState :=
  calls.foldl (fun r c => (r.1 ++ [c.1.step limits r.2 c.2], (c.1.call limits r.2 c.2).2)) ([], .new)

theorem play_concat (limits : Limits) (calls : List (Op × IdSource)) (c : Op × IdSource) :
    play limits (calls ++ [c]) = ((play limits calls).1 ++ [c.1.step limits (play limits calls).2 c.2],
      (c.1.call limits (play limits calls).2 c.2).2) := by
  rw [play, foldl_append]
  rfl

theorem run_play (limits : Limits) (calls : List (Op × IdSource)) :
    Run limits (play limits calls).1 (play limits calls).2 := by
  induction calls using reverseRecOn with
  | nil => exact .nil
  | append_singleton calls c ih =>
    rw [play_concat]
    exact ih.snoc c.1 c.2

theorem map_op_play (limits : Limits) (calls : List (Op × IdSource)) :
    (play limits calls).1.map Step.op = calls.map Prod.fst := by
  induction calls using reverseRecOn with
  | nil => rfl
  | append_singleton calls c ih =>
    rw [play_concat, map_append, ih, map_append]
    rfl

namespace MailboxState

variable {s : MailboxState} {limits : Limits} {now : Timestamp} {ids : IdSource} {header : Header} {s' : MailboxState}
  {op : Op}

/-! ### What a send leaves -/

/-- What the recording of a message leaves of a record: the derived parent is answered, the header appended, and
the wake spent. -/
structure Appended (parent : Option ℕ) (header : Header) (s s' : MailboxState) : Prop where
  lastNow : s'.lastNow = s.lastNow
  bindings : s'.bindings = s.bindings
  messages : s'.messages = (s.answer parent).messages ++ [header]
  notices : s'.notices = s.notices
  noticeLast : s'.noticeLast = s.noticeLast
  counters : s'.counters = s.counters
  budget : s'.budget = s.budget
  lifetime : s'.lifetime = s.lifetime
  remote : s'.remote = s.remote

/-- Everything a send does to a record. -/
inductive Sending (limits : Limits) (req : SendRequest) (now : Timestamp) (s : MailboxState) :
    Except Refusal SendOutcome → MailboxState → Prop
  | refused {swept tried : MailboxState} {refusal : Refusal} (hswept : Swept limits now s swept)
      (htried : tried = swept.countAttempt limits (swept.account req.fromKey) req.fromKey
        (swept.currentGeneration req.fromKey) swept.lastNow)
      (hrefused : tried.admitSend limits req (swept.account req.fromKey) (swept.currentGeneration req.fromKey)
        swept.lastNow = .error refusal)
      (counters : BoundedCounters) : Sending limits req now s (.error refusal) { tried with counters }
  | recorded {swept tried s' : MailboxState} {admitted : Admitted} {effective : Bool} {id : MessageId}
      (outcome : SendOutcome) (hswept : Swept limits now s swept)
      (htried : tried = swept.countAttempt limits (swept.account req.fromKey) req.fromKey
        (swept.currentGeneration req.fromKey) swept.lastNow)
      (hadmitted : tried.admitSend limits req (swept.account req.fromKey) (swept.currentGeneration req.fromKey)
        swept.lastNow = .ok admitted)
      (hafter : Appended admitted.parent (sentHeader req (swept.currentGeneration req.fromKey) admitted
        ((admitted.parent.bind fun i => tried.messages[i]?).map Header.id) effective swept.lastNow id) tried s') :
      Sending limits req now s (.ok outcome) s'

theorem exists_appended_send (s : MailboxState) (limits : Limits) (req : SendRequest) (account : Account)
    (fromGeneration : Option Generation) (admitted : Admitted) (now : Timestamp) (ids : IdSource) :
    ∃ effective id, Appended admitted.parent (sentHeader req fromGeneration admitted
        ((admitted.parent.bind fun i => s.messages[i]?).map Header.id) effective now id) s
      (s.recordSend limits req account fromGeneration admitted now ids).2.1 := by
  refine ⟨((s.answer admitted.parent).effectiveWake limits
    ((s.answer admitted.parent).sendParties req account fromGeneration admitted) req.wake now).1.1,
    (MessageId.mint ids).1, ?_⟩
  unfold recordSend
  cases admitted.parent with
  | none | some i => constructor <;> rfl

theorem sending (s : MailboxState) (limits : Limits) (req : SendRequest) (now : Timestamp) (ids : IdSource) :
    Sending limits req now s (s.send limits req now ids).1 (s.send limits req now ids).2.1 := by
  have hswept := swept s limits now ids
  rw [send]
  generalize s.sweep limits now ids = r at hswept ⊢
  obtain ⟨swept, ids'⟩ := r
  simp only at hswept ⊢
  split
  · rename_i refusal hrefused
    exact .refused hswept rfl hrefused _
  · rename_i admitted hadmitted
    obtain ⟨effective, id, hafter⟩ := exists_appended_send _ limits req _ _ admitted _ ids'
    exact .recorded _ hswept rfl hadmitted hafter

/-- Everything the admission of a leaving message does to a record. -/
inductive Leaving (limits : Limits) (req : RemoteSend) (now : Timestamp) (s : MailboxState) :
    Except Refusal MessageId → MailboxState → Prop
  | mk {swept tried : MailboxState} (result : Except Refusal MessageId) (hswept : Swept limits now s swept)
      (htried : tried = swept.countAttempt limits (swept.account req.fromKey) req.fromKey
        (swept.currentGeneration req.fromKey) swept.lastNow)
      (hresult : result.toOption.isSome → tried.admitLeaving limits req (swept.account req.fromKey)
        (swept.currentGeneration req.fromKey) = .ok ())
      (counters : BoundedCounters) : Leaving limits req now s result { tried with counters }

theorem leaving (s : MailboxState) (limits : Limits) (req : RemoteSend) (now : Timestamp) (ids : IdSource) :
    Leaving limits req now s (s.admitRemote limits req now ids).1 (s.admitRemote limits req now ids).2.1 := by
  have hswept := swept s limits now ids
  rw [admitRemote]
  generalize s.sweep limits now ids = r at hswept ⊢
  obtain ⟨swept, ids'⟩ := r
  simp only at hswept ⊢
  split
  · rename_i hadmitted
    exact .mk _ hswept rfl (fun _ => hadmitted) _
  · exact .mk _ hswept rfl (fun hok => by cases hok) _

/-! ### What the ingest of a message leaves -/

/-- The record that has seen a message of another machine and counted the attempt. -/
def attempted (s : MailboxState) (limits : Limits) (mail : RemoteMail) : MailboxState :=
  { s with
    remote := { s.remote with seen := s.remote.seen.insert (seenKey mail.machine mail.id) s.lastNow }
    }.countAttemptFor limits (remoteAccount mail.machine mail.fromKey)
      (some (remoteLifetimeKey mail.machine mail.fromKey)) s.lastNow

/-- Everything an ingest does to a record. -/
inductive Ingesting (limits : Limits) (mail : RemoteMail) (dead : List WriterKey) (now : Timestamp) (s : MailboxState) :
    Except Refusal Ingested → MailboxState → Prop
  | duplicate {swept : MailboxState} (hswept : Swept limits now s swept)
      (hseen : swept.remote.seen.contains (seenKey mail.machine mail.id) = true) :
      Ingesting limits mail dead now s (.ok .duplicate) swept
  | refused {swept tried : MailboxState} {refusal : Refusal} (hswept : Swept limits now s swept)
      (hseen : swept.remote.seen.contains (seenKey mail.machine mail.id) = false)
      (htried : tried = swept.attempted limits mail)
      (hrefused : tried.admitMail limits mail dead swept.lastNow = .error refusal) (counters : BoundedCounters) :
      Ingesting limits mail dead now s (.error refusal) { tried with counters }
  | recorded {swept tried s' : MailboxState} {recipient : Binding} {effective : Bool} {id : MessageId}
      (wake : RemoteWake) (hswept : Swept limits now s swept)
      (hseen : swept.remote.seen.contains (seenKey mail.machine mail.id) = false)
      (htried : tried = swept.attempted limits mail)
      (hadmitted : tried.admitMail limits mail dead swept.lastNow = .ok recipient)
      (hafter : Appended none (mailHeader limits mail recipient effective swept.lastNow id) tried s') :
      Ingesting limits mail dead now s (.ok (.recorded id wake)) s'

theorem appended_mail (s : MailboxState) (limits : Limits) (mail : RemoteMail) (recipient : Binding) (now : Timestamp)
    (ids : IdSource) : Appended none (mailHeader limits mail recipient
        (s.effectiveWake limits (s.mailParties mail recipient) mail.wake now).1.1 now (MessageId.mint ids).1) s
      (s.recordMail limits mail recipient now ids).2.1 := by
  constructor <;> rfl

theorem ingesting (s : MailboxState) (limits : Limits) (mail : RemoteMail) (dead : List WriterKey) (now : Timestamp)
    (ids : IdSource) : Ingesting limits mail dead now s (s.ingestRemote limits mail dead now ids).1
      (s.ingestRemote limits mail dead now ids).2.1 := by
  have hswept := swept s limits now ids
  rw [ingestRemote]
  generalize s.sweep limits now ids = r at hswept ⊢
  obtain ⟨swept, ids'⟩ := r
  simp only at hswept ⊢
  split
  · rename_i hseen
    exact .duplicate hswept hseen
  · rename_i hseen
    split
    · rename_i refusal hrefused
      exact .refused hswept (Bool.not_eq_true _ ▸ hseen) rfl hrefused _
    · rename_i recipient hadmitted
      exact .recorded _ hswept (Bool.not_eq_true _ ▸ hseen) rfl hadmitted (appended_mail ..)

/-! ### What a claim leaves -/

theorem exists_stampDrain (s : MailboxState) (key : WriterKey) (now : Timestamp) :
    ∃ bindings, s.stampDrain key now = { s with bindings } := by
  unfold stampDrain
  split
  · exact ⟨s.bindings, rfl⟩
  · exact ⟨_, rfl⟩

theorem exists_noteStop (s : MailboxState) (key : WriterKey) (generation : Generation) (blocked : Bool) :
    ∃ bindings, (s.noteStop key generation blocked).2 = { s with bindings } := by
  unfold noteStop
  split
  · exact ⟨s.bindings, rfl⟩
  · split
    · exact ⟨s.bindings, rfl⟩
    · exact ⟨_, rfl⟩

theorem exists_takeAll (hold : Hold) (now : Timestamp) (picks : List Pick) (s : MailboxState) :
    ∃ messages notices, (takeAll hold now picks s).2 = { s with messages, notices } := by
  induction picks generalizing s with
  | nil => exact ⟨s.messages, s.notices, rfl⟩
  | cons pick picks ih =>
    obtain ⟨messages, notices, h⟩ := ih (s.take hold now pick).2
    refine ⟨messages, notices, h.trans ?_⟩
    cases pick <;> rfl

theorem exists_retire (s : MailboxState) (key : WriterKey) : ∃ bindings lifetime wakeLifetime exchanges budget,
      s.retire key = { s with bindings, lifetime, wakeLifetime, exchanges, budget } := by
  unfold retire
  split
  · exact ⟨s.bindings, s.lifetime, s.wakeLifetime, s.exchanges, s.budget, rfl⟩
  · exact ⟨_, _, _, _, _, rfl⟩

/-- Everything a claim does to a record. -/
inductive Claiming (limits : Limits) (key : WriterKey) (generation : Generation) (checkpoint : Checkpoint)
    (now : Timestamp) (s : MailboxState) : Claim → MailboxState → Prop
  | idle (tooLarge : ℕ) : Claiming limits key generation checkpoint now s (.empty false tooLarge) s
  | drained {swept : MailboxState} (tooLarge : ℕ) (hcurrent : s.currentGeneration key = some generation)
      (hswept : Swept limits now s swept) :
      Claiming limits key generation checkpoint now s (.empty true tooLarge) (swept.stampDrain key swept.lastNow)
  | took {swept drained : MailboxState} (hold : Hold) {picks : List Pick} (tooLarge : ℕ)
      (hcurrent : s.currentGeneration key = some generation) (hswept : Swept limits now s swept)
      (hdrained : drained = swept.stampDrain key swept.lastNow)
      (hhold : hold.deadline = swept.lastNow.plusSecs limits.inFlightTtlSec ∧ hold.generation = generation)
      (hpicks : picks = (drained.select limits key generation checkpoint).1) :
      Claiming limits key generation checkpoint now s
        ⟨some hold.token, (takeAll hold swept.lastNow picks drained).1, true, tooLarge⟩
        (takeAll hold swept.lastNow picks drained).2

theorem claiming (s : MailboxState) (limits : Limits) (key : WriterKey) (generation : Generation)
    (checkpoint : Checkpoint) (now : Timestamp) (ids : IdSource) :
    Claiming limits key generation checkpoint now s (s.claim limits key generation checkpoint now ids).1
      (s.claim limits key generation checkpoint now ids).2.1 := by
  have hswept := swept s limits now ids
  rw [claim]
  split
  · exact .idle _
  · rename_i hcurrent
    have hcurrent : s.currentGeneration key = some generation := by
      by_contra hne
      exact hcurrent (by rw [decide_eq_true hne, Bool.true_or])
    split
    · exact .idle _
    · generalize s.sweep limits now ids = r at hswept ⊢
      obtain ⟨swept, ids'⟩ := r
      simp only at hswept ⊢
      split
      · exact .drained _ hcurrent hswept
      · rename_i picks tooLarge hne hselect
        exact .took ⟨(AttemptToken.mint ids').1, _, generation⟩ tooLarge hcurrent hswept rfl ⟨rfl, rfl⟩
          (congrArg Prod.fst hselect).symm

/-! ### What a call starts from, and what it records -/

/-- The record a call works on: the one it is given, or what a sweep leaves of it. -/
inductive Based (limits : Limits) (s : MailboxState) (op : Op) : MailboxState → Prop
  | unswept : Based limits s op s
  | swept {base : MailboxState} {now : Timestamp} (hclock : op.clock = some now) (hswept : Swept limits now s base) :
      Based limits s op base

theorem Based.lastNow_le {base : MailboxState} (h : Based limits s op base) : s.lastNow ≤ base.lastNow := by
  cases h with
  | unswept => exact le_rfl
  | swept _ hswept =>
    rw [hswept.lastNow]
    exact le_max_left _ _

/-- The header a call recorded. -/
inductive Recording (limits : Limits) (s s' : MailboxState) : Op → Header → Prop
  | sent {req : SendRequest} {swept tried : MailboxState} {admitted : Admitted} {effective : Bool} {id : MessageId}
      (now : Timestamp) (hswept : Swept limits now s swept)
      (htried : tried = swept.countAttempt limits (swept.account req.fromKey) req.fromKey
        (swept.currentGeneration req.fromKey) swept.lastNow)
      (hadmitted : tried.admitSend limits req (swept.account req.fromKey) (swept.currentGeneration req.fromKey)
        swept.lastNow = .ok admitted)
      (hafter : Appended admitted.parent (sentHeader req (swept.currentGeneration req.fromKey) admitted
        ((admitted.parent.bind fun i => tried.messages[i]?).map Header.id) effective swept.lastNow id) tried s') :
      Recording limits s s' (.send req now) (sentHeader req (swept.currentGeneration req.fromKey) admitted
        ((admitted.parent.bind fun i => tried.messages[i]?).map Header.id) effective swept.lastNow id)
  | landed {mail : RemoteMail} {dead : List WriterKey} {swept tried : MailboxState} {recipient : Binding}
      {effective : Bool} {id : MessageId} (now : Timestamp) (hswept : Swept limits now s swept)
      (hseen : swept.remote.seen.contains (seenKey mail.machine mail.id) = false)
      (htried : tried = swept.attempted limits mail)
      (hadmitted : tried.admitMail limits mail dead swept.lastNow = .ok recipient)
      (hafter : Appended none (mailHeader limits mail recipient effective swept.lastNow id) tried s') :
      Recording limits s s' (.ingestRemote mail dead now) (mailHeader limits mail recipient effective swept.lastNow id)

theorem Appended.getLast? {parent : Option ℕ} (h : Appended parent header s s') :
    s'.messages.getLast? = some header := by
  rw [h.messages, getLast?_concat]

theorem Sending.recording {req : SendRequest} {result : Except Refusal SendOutcome}
    (h : Sending limits req now s result s') (hrecords : (Answer.sent result).records = true)
    (hlast : s'.messages.getLast? = some header) : Recording limits s s' (.send req now) header := by
  cases h with
  | refused => cases hrecords
  | recorded _ hswept htried hadmitted hafter =>
    rw [hafter.getLast?] at hlast
    cases hlast
    exact .sent now hswept htried hadmitted hafter

theorem Ingesting.recording {mail : RemoteMail} {dead : List WriterKey} {result : Except Refusal Ingested}
     (h : Ingesting limits mail dead now s result s')
    (hrecords : (Answer.ingested result).records = true) (hlast : s'.messages.getLast? = some header) :
    Recording limits s s' (.ingestRemote mail dead now) header := by
  cases h with
  | duplicate | refused => cases hrecords
  | recorded _ hswept hseen htried hadmitted hafter =>
    rw [hafter.getLast?] at hlast
    cases hlast
    exact .landed now hswept hseen htried hadmitted hafter

theorem Step.recorded_eq_some {step : Step} (h : step.recorded = some header) :
    step.answer.records = true ∧ step.after.messages.getLast? = some header := by
  rw [Step.recorded] at h
  split at h
  · rename_i hrecords
    exact ⟨hrecords, h⟩
  · cases h

theorem recording (h : (op.step limits s ids).recorded = some header) :
    Recording limits s (op.call limits s ids).2 op header := by
  obtain ⟨hrecords, hlast⟩ := Step.recorded_eq_some h
  unfold Op.step Op.call at hrecords hlast
  unfold Op.call
  cases op with
  | send req now =>
    dsimp only at hrecords hlast ⊢
    exact (sending s limits req now ids).recording hrecords hlast
  | ingestRemote mail dead now =>
    dsimp only at hrecords hlast ⊢
    exact (ingesting s limits mail dead now ids).recording hrecords hlast
  | _ => exact absurd hrecords Bool.false_ne_true

end MailboxState

end Forgent.Mailbox
