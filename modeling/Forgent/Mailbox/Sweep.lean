import Forgent.Mailbox.Record

/-!
# The sweep

There is no daemon: whichever operation runs next applies every time rule first.  `Swept` says what the rules
leave of a record, apart from the counters and the notice marks.
-/

namespace Forgent.Mailbox

structure RefusedFacts where
  fromKey : WriterKey
  fromGeneration : Option Generation
  toKey : WriterKey
  about : MessageId
  reason : RefusalReason

/-- How long past the header horizon a taken message's id is remembered. -/
def seenMarginSec : ℕ := 3600

namespace Header

def refusedFacts (reason : RefusalReason) (h : Header) : RefusedFacts where
  fromKey := h.fromKey
  fromGeneration := h.fromGeneration
  toKey := h.toKey
  about := h.id
  reason := reason

/-- Whether the message is in flight past its deadline. -/
def claimExpired (now : Timestamp) (h : Header) : Bool :=
  match h.state with
  | .inFlight _ deadline _ => deadline < now
  | _ => false

/-- An in-flight message past its deadline is recorded again, or refused once it has used every offer. -/
def expireClaim (limits : Limits) (now : Timestamp) (h : Header) : Header :=
  if h.claimExpired now then
    if limits.maxOffers ≤ h.offers then { h with state := .refused .offerCap now, changedAt := now }
    else { h with state := .recorded, changedAt := now }
  else h

/-- Whether the message is still recorded after the record TTL. -/
def stale (limits : Limits) (now : Timestamp) (h : Header) : Bool :=
  h.state = .recorded && now.isPast h.recordedAt limits.recordTtlSec

def refuseStale (limits : Limits) (now : Timestamp) (h : Header) : Header :=
  if h.stale limits now then { h with state := .refused .recordTtl now, changedAt := now } else h

/-- Whether the header of a settled message is past the longest window that may still read it. -/
def retired (limits : Limits) (now : Timestamp) (h : Header) : Bool :=
  h.state.settled && now.isPast h.changedAt limits.headerHorizonSec

/-- A settled message loses its body after the body retention. -/
def dropBody (limits : Limits) (now : Timestamp) (h : Header) : Header :=
  if h.state.settled && now.isPast h.changedAt limits.recordBodyRetentionSec then { h with bodyKept := false } else h

end Header

def Notice.unfinished (now : Timestamp) (n : Notice) : Bool :=
  match n.state with
  | .inFlight _ deadline _ => deadline < now
  | .recorded => false

namespace MailboxState

/-- Whether a notice waited past the record TTL, or its addressee's generation ended. -/
def noticeExpired (s : MailboxState) (limits : Limits) (now : Timestamp) (n : Notice) : Bool :=
  now.isPast n.createdAt limits.recordTtlSec || s.currentGeneration n.toKey ≠ some n.toGeneration

/-- Creates the notice for a refused message, unless its sender cannot receive it or got one of the same reason
inside the window. -/
def notify (s : MailboxState) (limits : Limits) (refused : RefusedFacts) (now : Timestamp) (ids : IdSource) :
    MailboxState × IdSource :=
  let uncounted (reason : CounterReason) := (s.count limits reason refused.fromKey refused.toKey now, ids)
  match refused.fromGeneration with
  | none => uncounted .noticeUndeliverable
  | some generation =>
    if s.currentGeneration refused.fromKey = some generation then
      let mark := noticeMark refused.fromKey refused.reason
      if (s.noticeLast[mark]?).any fun last => !now.isPast last limits.noticesWindowSec then
        uncounted .noticeSuppressed
      else
        let (id, ids) := MessageId.mint ids
        let notice : Notice :=
          { id, toKey := refused.fromKey, toGeneration := generation, reason := refused.reason,
            about := refused.about, aboutTo := refused.toKey, createdAt := now, state := .recorded }
        let notices := s.notices ++ [notice]
        let s := { s with noticeLast := s.noticeLast.insert mark now, notices }
        if limits.noticesCap < notices.countP fun n => n.toKey = refused.fromKey then
          -- an in-flight notice was already emitted and is never evicted
          match notices.findIdx? fun n => n.toKey = refused.fromKey && n.state = .recorded with
          | some oldest =>
            ({ s with notices := notices.eraseIdx oldest }.count limits .noticeDropped refused.fromKey
              refused.toKey now, ids)
          | none => (s, ids)
        else (s, ids)
    else uncounted .noticeUndeliverable

def settleRefusals (limits : Limits) (now : Timestamp) :
    List RefusedFacts → MailboxState → IdSource → MailboxState × IdSource
  | [], s, ids => (s, ids)
  | facts :: rest, s, ids =>
    let (s, ids) := (s.count limits facts.reason.counter facts.fromKey facts.toKey now).notify limits facts now ids
    settleRefusals limits now rest s ids

def expireMessageClaims (s : MailboxState) (limits : Limits) (now : Timestamp) (ids : IdSource) :
    MailboxState × IdSource :=
  let refused := s.messages.filter fun h => h.claimExpired now && limits.maxOffers ≤ h.offers
  settleRefusals limits now (refused.map (Header.refusedFacts .offerCap))
    { s with messages := s.messages.map (Header.expireClaim limits now) } ids

/-- Counts the notices that go. -/
def countNotices (limits : Limits) (reason : CounterReason) (now : Timestamp) (s : MailboxState) (gone : List Notice) :
    MailboxState :=
  gone.foldl (fun s n => s.count limits reason n.toKey n.aboutTo now) s

def dropUnfinishedNotices (s : MailboxState) (limits : Limits) (now : Timestamp) : MailboxState :=
  countNotices limits .noticeUndelivered now
    { s with notices := s.notices.filter fun n => !n.unfinished now } (s.notices.filter (Notice.unfinished now))

def expireNotices (s : MailboxState) (limits : Limits) (now : Timestamp) : MailboxState :=
  countNotices limits .noticeExpired now
    { s with notices := s.notices.filter fun n => !s.noticeExpired limits now n }
    (s.notices.filter (s.noticeExpired limits now))

def refuseStaleRecords (s : MailboxState) (limits : Limits) (now : Timestamp) (ids : IdSource) :
    MailboxState × IdSource :=
  let refused := s.messages.filter (Header.stale limits now)
  settleRefusals limits now (refused.map (Header.refusedFacts .recordTtl))
    { s with messages := s.messages.map (Header.refuseStale limits now) } ids

def retireSettledMessages (s : MailboxState) (limits : Limits) (now : Timestamp) : MailboxState :=
  { s with
    messages := (s.messages.filter fun h => !h.retired limits now).map (Header.dropBody limits now) }

def forgetOldNoticeMarks (s : MailboxState) (limits : Limits) (now : Timestamp) : MailboxState :=
  { s with noticeLast := s.noticeLast.filter fun _ since => !now.isPast since limits.noticesWindowSec }

/-- The ids of taken messages inside the ingest horizon. -/
def freshSeen (limits : Limits) (now : Timestamp) (seen : Table Timestamp) : Table Timestamp :=
  seen.filter fun _ since => !now.isPast since (limits.headerHorizonSec + seenMarginSec)

/-- Forgets the ids of taken messages past the ingest horizon, and the oldest ones past the key bound. -/
def forgetOldRemote (s : MailboxState) (limits : Limits) (now : Timestamp) : MailboxState :=
  let seen := Table.evict id limits.countersMaxKeys (freshSeen limits now s.remote.seen)
  { s with remote := { s.remote with seen } }

/-- Applies every time rule as of `now`. -/
def sweep (s : MailboxState) (limits : Limits) (now : Timestamp) (ids : IdSource) : MailboxState × IdSource :=
  let s := s.advance now
  let now := s.lastNow
  let (s, ids) := s.expireMessageClaims limits now ids
  let s := s.dropUnfinishedNotices limits now
  let s := s.expireNotices limits now
  let (s, ids) := s.refuseStaleRecords limits now ids
  let s := s.retireSettledMessages limits now
  let s := s.forgetOldNoticeMarks limits now
  (s.forgetOldRemote limits now, ids)

def timeRuleDue (s : MailboxState) (limits : Limits) (now : Timestamp) : Bool :=
  let now := max s.lastNow now
  s.messages.any (Header.claimExpired now) || s.messages.any (Header.stale limits now) ||
    s.messages.any (fun h => h.state.settled &&
      (now.isPast h.changedAt limits.headerHorizonSec ||
        (h.bodyKept && now.isPast h.changedAt limits.recordBodyRetentionSec))) ||
    s.notices.any (fun n => n.unfinished now || s.noticeExpired limits now n) ||
    s.noticeLast.toList.any fun e => now.isPast e.2 limits.noticesWindowSec

/-! ### What a sweep leaves -/

/-- The messages a sweep leaves. -/
def sweptMessages (limits : Limits) (now : Timestamp) (messages : List Header) : List Header :=
  ((((messages.map (Header.expireClaim limits now)).map (Header.refuseStale limits now)).filter
    fun h => !h.retired limits now).map (Header.dropBody limits now))

/-- A step that touches the notices lane, its marks and the counters only, and whose new notices go to the
current generation of their addressee. -/
structure Noted (s s' : MailboxState) : Prop where
  lastNow : s'.lastNow = s.lastNow
  bindings : s'.bindings = s.bindings
  messages : s'.messages = s.messages
  budget : s'.budget = s.budget
  lifetime : s'.lifetime = s.lifetime
  exchanges : s'.exchanges = s.exchanges
  wakeLifetime : s'.wakeLifetime = s.wakeLifetime
  remote : s'.remote = s.remote
  notices : ∀ n ∈ s'.notices, n ∈ s.notices ∨
    (n.state = .recorded ∧ s.currentGeneration n.toKey = some n.toGeneration)

variable {s s' s'' : MailboxState} {limits : Limits} {now : Timestamp} {ids : IdSource}

theorem currentGeneration_congr (h : s'.bindings = s.bindings) (key : WriterKey) :
    s'.currentGeneration key = s.currentGeneration key := by rw [currentGeneration, currentGeneration, h]

theorem account_congr (h : s'.bindings = s.bindings) (key : WriterKey) : s'.account key = s.account key := by
  rw [account, account, h]

theorem Noted.refl (s : MailboxState) : Noted s s where
  lastNow := rfl
  bindings := rfl
  messages := rfl
  budget := rfl
  lifetime := rfl
  exchanges := rfl
  wakeLifetime := rfl
  remote := rfl
  notices _ hn := .inl hn

theorem Noted.trans (h : Noted s s') (h' : Noted s' s'') : Noted s s'' where
  lastNow := h'.lastNow.trans h.lastNow
  bindings := h'.bindings.trans h.bindings
  messages := h'.messages.trans h.messages
  budget := h'.budget.trans h.budget
  lifetime := h'.lifetime.trans h.lifetime
  exchanges := h'.exchanges.trans h.exchanges
  wakeLifetime := h'.wakeLifetime.trans h.wakeLifetime
  remote := h'.remote.trans h.remote
  notices n hn := by
    rcases h'.notices n hn with hold | ⟨hstate, hcurrent⟩
    · exact h.notices n hold
    · rw [currentGeneration_congr h.bindings] at hcurrent
      exact .inr ⟨hstate, hcurrent⟩

theorem noted_count (s : MailboxState) (limits : Limits) (reason : CounterReason) (sender recipient : WriterKey)
    (now : Timestamp) : Noted s (s.count limits reason sender recipient now) := { Noted.refl s with }

theorem noted_notify (s : MailboxState) (limits : Limits) (refused : RefusedFacts) (now : Timestamp) (ids : IdSource) :
    Noted s (s.notify limits refused now ids).1 := by
  unfold notify
  cases hgeneration : refused.fromGeneration with
  | none => exact noted_count ..
  | some generation =>
    simp only
    by_cases hcurrent : s.currentGeneration refused.fromKey = some generation
    · rw [if_pos hcurrent]
      split
      · exact noted_count ..
      · have hnew : ∀ n ∈ s.notices ++ [(⟨(MessageId.mint ids).1, refused.fromKey, generation, refused.reason,
            refused.about, refused.toKey, now, .recorded⟩ : Notice)],
            n ∈ s.notices ∨ (n.state = .recorded ∧ s.currentGeneration n.toKey = some n.toGeneration) := by
          intro n hn
          rcases List.mem_append.mp hn with hn | hn
          · exact .inl hn
          · rw [List.mem_singleton.mp hn]
            exact .inr ⟨rfl, hcurrent⟩
        split
        · split
          · exact { Noted.refl s with notices := fun n hn => hnew n (List.mem_of_mem_eraseIdx hn) }
          · exact { Noted.refl s with notices := hnew }
        · exact { Noted.refl s with notices := hnew }
    · rw [if_neg hcurrent]
      exact noted_count ..

theorem noted_settleRefusals (facts : List RefusedFacts) (s : MailboxState) (ids : IdSource) :
    Noted s (settleRefusals limits now facts s ids).1 := by
  induction facts generalizing s ids with
  | nil => exact Noted.refl s
  | cons f facts ih => exact ((noted_count ..).trans (noted_notify ..)).trans (ih ..)

theorem noted_countNotices (reason : CounterReason) (gone : List Notice) (s : MailboxState) :
    Noted s (countNotices limits reason now s gone) := by
  induction gone generalizing s with
  | nil => exact Noted.refl s
  | cons n gone ih => exact (noted_count ..).trans (ih _)

theorem noted_filterNotices (s : MailboxState) (p : Notice → Bool) : Noted s { s with notices := s.notices.filter p } :=
  { Noted.refl s with notices := fun _ hn => .inl (List.mem_of_mem_filter hn) }

theorem noted_dropUnfinishedNotices (s : MailboxState) (limits : Limits) (now : Timestamp) :
    Noted s (s.dropUnfinishedNotices limits now) := (noted_filterNotices ..).trans (noted_countNotices ..)

theorem noted_expireNotices (s : MailboxState) (limits : Limits) (now : Timestamp) :
    Noted s (s.expireNotices limits now) := (noted_filterNotices ..).trans (noted_countNotices ..)

/-- What a sweep leaves of a record. -/
structure Swept (limits : Limits) (now : Timestamp) (s s' : MailboxState) : Prop where
  lastNow : s'.lastNow = max s.lastNow now
  bindings : s'.bindings = s.bindings
  messages : s'.messages = sweptMessages limits (max s.lastNow now) s.messages
  budget : s'.budget = s.budget
  lifetime : s'.lifetime = s.lifetime
  exchanges : s'.exchanges = s.exchanges
  wakeLifetime : s'.wakeLifetime = s.wakeLifetime
  baselined : s'.remote.baselined = s.remote.baselined
  cursor : s'.remote.cursor = s.remote.cursor
  seen : s'.remote.seen = Table.evict id limits.countersMaxKeys (freshSeen limits (max s.lastNow now) s.remote.seen)
  refusals : s'.remote.refusals = s.remote.refusals
  notices : ∀ n ∈ s'.notices, n ∈ s.notices ∨
    (n.state = .recorded ∧ s.currentGeneration n.toKey = some n.toGeneration)

theorem Swept.of_noted {s₁ s₂ s₃ : MailboxState} {t : Timestamp} (ht : t = max s.lastNow now)
    (h₁ : Noted { s.advance now with messages := s.messages.map (Header.expireClaim limits t) } s₁) (h₂ : Noted s₁ s₂)
    (h₃ : Noted { s₂ with messages := s₂.messages.map (Header.refuseStale limits t) } s₃) :
    Swept limits now s (((s₃.retireSettledMessages limits t).forgetOldNoticeMarks limits t).forgetOldRemote limits t) := by
  subst ht
  have h₁₂ := h₁.trans h₂
  have hremote : s₃.remote = s.remote := h₃.remote.trans h₁₂.remote
  exact
    { lastNow := h₃.lastNow.trans h₁₂.lastNow
      bindings := h₃.bindings.trans h₁₂.bindings
      messages := by
        show (s₃.messages.filter _).map _ = _
        rw [h₃.messages, h₁₂.messages]
        rfl
      budget := h₃.budget.trans h₁₂.budget
      lifetime := h₃.lifetime.trans h₁₂.lifetime
      exchanges := h₃.exchanges.trans h₁₂.exchanges
      wakeLifetime := h₃.wakeLifetime.trans h₁₂.wakeLifetime
      baselined := by
        show s₃.remote.baselined = _
        rw [hremote]
      cursor := by
        show s₃.remote.cursor = _
        rw [hremote]
      seen := by
        show Table.evict id limits.countersMaxKeys (freshSeen limits _ s₃.remote.seen) = _
        rw [hremote]
      refusals := by
        show s₃.remote.refusals = _
        rw [hremote]
      notices := by
        intro n hn
        rcases h₃.notices n hn with hold | ⟨hstate, hcurrent⟩
        · exact h₁₂.notices n hold
        · refine .inr ⟨hstate, ?_⟩
          rw [← hcurrent]
          exact (currentGeneration_congr h₁₂.bindings n.toKey).symm }

theorem swept (s : MailboxState) (limits : Limits) (now : Timestamp) (ids : IdSource) :
    Swept limits now s (s.sweep limits now ids).1 :=
  Swept.of_noted rfl (noted_settleRefusals ..) ((noted_dropUnfinishedNotices ..).trans (noted_expireNotices ..))
    (noted_settleRefusals ..)

end MailboxState

end Forgent.Mailbox
