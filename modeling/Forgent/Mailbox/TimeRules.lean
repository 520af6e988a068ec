import Forgent.Mailbox.Dedupe

/-!
# When a time rule is due

`timeRuleDue` lists the rules of the sweep once more, so that a drain may skip its write.

* `timeRuleDue_sweep`: no rule it lists is due behind a sweep of the same time.
* `sweep_of_idle`: a sweep for which no rule is due moves the clock and nothing else.
* `timeRuleDue_exact`: the list is exact unless the ids of the messages taken from other machines are the only
  thing a sweep would forget.
-/

namespace Forgent.Mailbox

open List Std.ExtTreeMap Option

/-! ### Messages -/

namespace Header

variable {limits : Limits} {now : Timestamp} {h : Header}

/-- Whether a rule retires the message or drops its body. -/
def retiring (limits : Limits) (now : Timestamp) (h : Header) : Bool :=
  h.state.settled && (now.isPast h.changedAt limits.headerHorizonSec ||
    (h.bodyKept && now.isPast h.changedAt limits.recordBodyRetentionSec))

/-- A message no rule touches. -/
structure Resting (limits : Limits) (now : Timestamp) (h : Header) : Prop where
  claim : h.claimExpired now = false
  record : h.stale limits now = false
  body : h.retiring limits now = false

theorem claimExpired_expireClaim (limits : Limits) (now : Timestamp) (h : Header) :
    (h.expireClaim limits now).claimExpired now = false := by
  rw [expireClaim]
  split
  · split <;> rfl
  · rename_i hclaim
    exact Bool.not_eq_true _ ▸ hclaim

theorem claimExpired_refuseStale (hclaim : h.claimExpired now = false) :
    (h.refuseStale limits now).claimExpired now = false := by
  rw [refuseStale]
  split
  · rfl
  · exact hclaim

theorem stale_refuseStale (limits : Limits) (now : Timestamp) (h : Header) :
    (h.refuseStale limits now).stale limits now = false := by
  rw [refuseStale]
  split
  · rfl
  · rename_i hstale
    exact Bool.not_eq_true _ ▸ hstale

theorem dropBody_eq (limits : Limits) (now : Timestamp) (h : Header) : h.dropBody limits now = { h with
      bodyKept := h.bodyKept && !(h.state.settled && now.isPast h.changedAt limits.recordBodyRetentionSec) } := by
  rw [dropBody]
  split
  · rename_i hpast
    rw [hpast, Bool.not_true, Bool.and_false]
  · rename_i hpast
    rw [Bool.not_eq_true] at hpast
    rw [hpast, Bool.not_false, Bool.and_true]

theorem resting_dropBody (hclaim : h.claimExpired now = false) (hstale : h.stale limits now = false)
    (hretired : h.retired limits now = false) : (h.dropBody limits now).Resting limits now := by
  rw [dropBody_eq]
  refine ⟨hclaim, hstale, ?_⟩
  rw [retired] at hretired
  rw [retiring]
  revert hretired
  cases h.state.settled <;> cases now.isPast h.changedAt limits.headerHorizonSec <;>
    cases now.isPast h.changedAt limits.recordBodyRetentionSec <;> simp

variable (hrest : h.Resting limits now)

include hrest

theorem Resting.expireClaim_eq : h.expireClaim limits now = h := by
  rw [expireClaim, hrest.claim]
  rfl

theorem Resting.refuseStale_eq : h.refuseStale limits now = h := by
  rw [refuseStale, hrest.record]
  rfl

theorem Resting.not_retired : h.retired limits now = false := by
  have hbody := hrest.body
  rw [retiring, Bool.and_or_distrib_left, Bool.or_eq_false_iff] at hbody
  exact hbody.1

theorem Resting.dropBody_eq : h.dropBody limits now = h := by
  have hbody := hrest.body
  rw [retiring, Bool.and_or_distrib_left, Bool.or_eq_false_iff, Bool.and_left_comm] at hbody
  rw [Header.dropBody_eq]
  have hkept : (h.bodyKept && !(h.state.settled && now.isPast h.changedAt limits.recordBodyRetentionSec)) = h.bodyKept := by
    rcases Bool.and_eq_false_iff.mp hbody.2 with hgone | hfresh
    · rw [hgone, Bool.false_and]
    · rw [hfresh, Bool.not_false, Bool.and_true]
  rw [hkept]

end Header

namespace MailboxState

variable {s : MailboxState} {limits : Limits} {now : Timestamp} {ids : IdSource} {n : Notice}

/-- Whether the sweep forgets an id of a message taken from another machine. -/
def remoteDue (s : MailboxState) (limits : Limits) (now : Timestamp) : Bool :=
  s.remote.seen.toList.any (fun e => (max s.lastNow now).isPast e.2 (limits.headerHorizonSec + seenMarginSec)) ||
    limits.countersMaxKeys < s.remote.seen.size

/-- A sweep leaves every field of the record but its clock. -/
def SweepKeeps (s : MailboxState) (limits : Limits) (now : Timestamp) (ids : IdSource) : Prop :=
  { (s.sweep limits now ids).1 with lastNow := s.lastNow } = s

/-! ### Behind a sweep -/

/-- A notice no rule removes. -/
def Waiting (limits : Limits) (now : Timestamp) (s : MailboxState) (n : Notice) : Prop :=
  n.unfinished now = false ∧ s.noticeExpired limits now n = false

theorem Waiting.congr {s' : MailboxState} {n : Notice} (h : Waiting limits now s n) (hbindings : s'.bindings = s.bindings) :
    Waiting limits now s' n := by
  refine ⟨h.1, ?_⟩
  rw [noticeExpired, currentGeneration_congr hbindings]
  exact h.2

theorem mem_notices_notify {refused : RefusedFacts} (hn : n ∈ (s.notify limits refused now ids).1.notices) :
    n ∈ s.notices ∨ Waiting limits now s n := by
  unfold notify at hn
  cases hgeneration : refused.fromGeneration with
  | none =>
    rw [hgeneration] at hn
    exact .inl hn
  | some generation =>
    rw [hgeneration] at hn
    simp only at hn
    by_cases hcurrent : s.currentGeneration refused.fromKey = some generation
    · rw [if_pos hcurrent] at hn
      have hnew {m : Notice} (hm : m ∈ s.notices ++ [(⟨(MessageId.mint ids).1, refused.fromKey, generation,
          refused.reason, refused.about, refused.toKey, now, .recorded⟩ : Notice)]) :
          m ∈ s.notices ∨ Waiting limits now s m := by
        rcases mem_append.mp hm with hm | hm
        · exact .inl hm
        · right
          rw [mem_singleton.mp hm]
          refine ⟨rfl, ?_⟩
          simp only [noticeExpired, Timestamp.isPast_self, hcurrent, ne_eq, not_true_eq_false, decide_false,
            Bool.or_self]
      split at hn
      · exact .inl hn
      · split at hn
        · split at hn
          · exact hnew (mem_of_mem_eraseIdx hn)
          · exact hnew hn
        · exact hnew hn
    · rw [if_neg hcurrent] at hn
      exact .inl hn

theorem mem_notices_settleRefusals {facts : List RefusedFacts}
    (hn : n ∈ (settleRefusals limits now facts s ids).1.notices) : n ∈ s.notices ∨ Waiting limits now s n := by
  induction facts generalizing s ids with
  | nil => exact .inl hn
  | cons f facts ih =>
    have hnoted := (noted_count s limits f.reason.counter f.fromKey f.toKey now).trans (noted_notify _ limits f now ids)
    rcases ih hn with hn | hn
    · rcases mem_notices_notify hn with hn | hn
      · exact .inl hn
      · exact .inr (hn.congr rfl)
    · exact .inr (hn.congr hnoted.bindings.symm)

theorem notices_countNotices (reason : CounterReason) (gone : List Notice) (s : MailboxState) :
    (countNotices limits reason now s gone).notices = s.notices := by
  induction gone generalizing s with
  | nil => rfl
  | cons n gone ih =>
    show (countNotices limits reason now _ gone).notices = _
    rw [ih]
    rfl

theorem waiting_expireNotices (hn : n ∈ ((s.dropUnfinishedNotices limits now).expireNotices limits now).notices) :
    Waiting limits now ((s.dropUnfinishedNotices limits now).expireNotices limits now) n := by
  rw [expireNotices, notices_countNotices] at hn
  obtain ⟨hn, hcurrent⟩ := mem_filter.mp hn
  rw [dropUnfinishedNotices, notices_countNotices] at hn
  obtain ⟨_, hunfinished⟩ := mem_filter.mp hn
  have hwaiting : Waiting limits now (s.dropUnfinishedNotices limits now) n :=
    ⟨Bool.not_eq_true'  _ ▸ hunfinished, Bool.not_eq_true' _ ▸ hcurrent⟩
  exact hwaiting.congr (noted_expireNotices ..).bindings

/-- What the rules up to the refusals make of a record. -/
def refusing (s : MailboxState) (limits : Limits) (now : Timestamp) (ids : IdSource) : MailboxState × IdSource :=
  let (s, ids) := s.expireMessageClaims limits now ids
  ((s.dropUnfinishedNotices limits now).expireNotices limits now).refuseStaleRecords limits now ids

/-- The rules behind the refusals. -/
def forgetting (s : MailboxState) (limits : Limits) (now : Timestamp) : MailboxState :=
  ((s.retireSettledMessages limits now).forgetOldNoticeMarks limits now).forgetOldRemote limits now

theorem sweep_eq (s : MailboxState) (limits : Limits) (now : Timestamp) (ids : IdSource) : s.sweep limits now ids =
      (((s.advance now).refusing limits (max s.lastNow now) ids).1.forgetting limits (max s.lastNow now),
        ((s.advance now).refusing limits (max s.lastNow now) ids).2) := rfl

theorem waiting_refusing {n : Notice} (hn : n ∈ (s.refusing limits now ids).1.notices) :
    Waiting limits now (s.refusing limits now ids).1 n := by
  rw [refusing] at hn ⊢
  generalize s.expireMessageClaims limits now ids = r at hn ⊢
  obtain ⟨claimed, ids'⟩ := r
  simp only [refuseStaleRecords] at hn ⊢
  have hnoted := @noted_settleRefusals limits now
    ((((claimed.dropUnfinishedNotices limits now).expireNotices limits now).messages.filter (Header.stale limits now)).map
      (Header.refusedFacts .recordTtl))
    { (claimed.dropUnfinishedNotices limits now).expireNotices limits now with
      messages := ((claimed.dropUnfinishedNotices limits now).expireNotices limits now).messages.map
        (Header.refuseStale limits now) } ids'
  rcases mem_notices_settleRefusals hn with hn | hn
  · exact (waiting_expireNotices hn).congr hnoted.bindings
  · exact hn.congr hnoted.bindings

/-- A message a sweep leaves is due for no rule. -/
theorem resting_of_mem_sweptMessages {messages : List Header} {h : Header}
    (hh : h ∈ sweptMessages limits now messages) : h.Resting limits now := by
  obtain ⟨kept, hkept, rfl⟩ := List.mem_map.mp hh
  obtain ⟨hkept, hretired⟩ := mem_filter.mp hkept
  obtain ⟨claimed, hclaimed, rfl⟩ := List.mem_map.mp hkept
  obtain ⟨h, _, rfl⟩ := List.mem_map.mp hclaimed
  refine Header.resting_dropBody ?_ (Header.stale_refuseStale ..) (Bool.not_eq_true' _ ▸ hretired)
  exact Header.claimExpired_refuseStale (Header.claimExpired_expireClaim ..)

/-- A record for which no listed rule is due. -/
structure Idle (limits : Limits) (now : Timestamp) (s : MailboxState) : Prop where
  messages : ∀ h ∈ s.messages, h.Resting limits now
  notices : ∀ n ∈ s.notices, Waiting limits now s n
  marks : ∀ e ∈ s.noticeLast.toList, now.isPast e.2 limits.noticesWindowSec = false

theorem timeRuleDue_eq_false : s.timeRuleDue limits now = false ↔ s.Idle limits (max s.lastNow now) := by
  have hretiring (h : Header) : (h.state.settled && ((max s.lastNow now).isPast h.changedAt limits.headerHorizonSec ||
      (h.bodyKept && (max s.lastNow now).isPast h.changedAt limits.recordBodyRetentionSec))) =
      h.retiring limits (max s.lastNow now) := rfl
  simp only [timeRuleDue, hretiring, Bool.or_eq_false_iff, List.any_eq_false, Bool.not_eq_true]
  constructor
  · rintro ⟨⟨⟨⟨hclaims, hstale⟩, hretired⟩, hnotices⟩, hmarks⟩
    exact ⟨fun h hh => ⟨hclaims h hh, hstale h hh, hretired h hh⟩, hnotices, hmarks⟩
  · intro hidle
    exact ⟨⟨⟨⟨fun h hh => (hidle.messages h hh).claim, fun h hh => (hidle.messages h hh).record⟩,
      fun h hh => (hidle.messages h hh).body⟩, hidle.notices⟩, hidle.marks⟩

theorem mark_forgetting {e : String × Timestamp} (he : e ∈ (s.forgetting limits now).noticeLast.toList) :
    now.isPast e.2 limits.noticesWindowSec = false := by
  obtain ⟨key, since⟩ := e
  have hkept : (s.noticeLast.filter fun _ since => !now.isPast since limits.noticesWindowSec)[key]? = some since :=
    mem_toList_iff_getElem?_eq_some.mp he
  rw [getElem?_filter'] at hkept
  exact Bool.not_eq_true' _ ▸ (filter_eq_some_iff.mp hkept).2

theorem idle_sweep (s : MailboxState) (limits : Limits) (now : Timestamp) (ids : IdSource) :
    (s.sweep limits now ids).1.Idle limits (max s.lastNow now) := by
  have hmessages := (swept s limits now ids).messages
  have hnotices := @waiting_refusing (s.advance now) limits (max s.lastNow now) ids
  rw [sweep_eq] at hmessages ⊢
  generalize (s.advance now).refusing limits (max s.lastNow now) ids = r at hmessages hnotices ⊢
  constructor
  · intro h hh
    rw [hmessages] at hh
    exact resting_of_mem_sweptMessages hh
  · intro n hn
    exact (hnotices hn).congr rfl
  · intro e he
    exact mark_forgetting he

theorem timeRuleDue_sweep (s : MailboxState) (limits : Limits) (now : Timestamp) (ids : IdSource) :
    (s.sweep limits now ids).1.timeRuleDue limits now = false := by
  rw [timeRuleDue_eq_false, (swept s limits now ids).lastNow, max_assoc, max_self]
  exact idle_sweep s limits now ids

/-! ### A sweep with nothing to do -/

theorem filter_eq_self {α : Type} {t : Table α} {p : String → α → Bool} (h : ∀ e ∈ t.toList, p e.1 e.2 = true) :
    t.filter p = t := by
  apply Std.ExtTreeMap.ext_getElem?
  intro key
  rw [getElem?_filter']
  rcases hvalue : t[key]? with _ | value
  · rfl
  · rw [filter_eq_some_iff]
    exact ⟨rfl, h (key, value) (mem_toList_iff_getElem?_eq_some.mpr hvalue)⟩

theorem Idle.expireMessageClaims_eq (hidle : s.Idle limits now) : s.expireMessageClaims limits now ids = (s, ids) := by
  have hrefused : (s.messages.filter fun h => h.claimExpired now && limits.maxOffers ≤ h.offers) = [] := by
    rw [filter_eq_nil_iff]
    intro h hh
    rw [(hidle.messages h hh).claim, Bool.false_and]
    exact Bool.false_ne_true
  have hkept : s.messages.map (Header.expireClaim limits now) = s.messages :=
    (map_congr_left fun h hh => (hidle.messages h hh).expireClaim_eq).trans (List.map_id _)
  rw [expireMessageClaims, hrefused, hkept]
  rfl

theorem Idle.refuseStaleRecords_eq (hidle : s.Idle limits now) : s.refuseStaleRecords limits now ids = (s, ids) := by
  have hrefused : s.messages.filter (Header.stale limits now) = [] := by
    rw [filter_eq_nil_iff]
    intro h hh
    rw [(hidle.messages h hh).record]
    exact Bool.false_ne_true
  have hkept : s.messages.map (Header.refuseStale limits now) = s.messages :=
    (map_congr_left fun h hh => (hidle.messages h hh).refuseStale_eq).trans (List.map_id _)
  rw [refuseStaleRecords, hrefused, hkept]
  rfl

theorem countNotices_eq_self {p : Notice → Bool} (reason : CounterReason) (hp : ∀ n ∈ s.notices, p n = false) :
    countNotices limits reason now { s with notices := s.notices.filter fun n => !p n } (s.notices.filter p) = s := by
  have hgone : s.notices.filter p = [] := by
    rw [filter_eq_nil_iff]
    intro n hn
    rw [hp n hn]
    exact Bool.false_ne_true
  have hkept : (s.notices.filter fun n => !p n) = s.notices := by
    rw [List.filter_eq_self]
    intro n hn
    rw [hp n hn]
    rfl
  rw [hgone, hkept]
  rfl

theorem Idle.refusing_eq (hidle : s.Idle limits now) : s.refusing limits now ids = (s, ids) := by
  rw [refusing, hidle.expireMessageClaims_eq]
  show ((s.dropUnfinishedNotices limits now).expireNotices limits now).refuseStaleRecords limits now ids = _
  have hdrop : s.dropUnfinishedNotices limits now = s :=
    countNotices_eq_self .noticeUndelivered fun n hn => (hidle.notices n hn).1
  have hexpire : s.expireNotices limits now = s :=
    countNotices_eq_self .noticeExpired fun n hn => (hidle.notices n hn).2
  rw [hdrop, hexpire, hidle.refuseStaleRecords_eq]

theorem Idle.forgetting_eq (hidle : s.Idle limits now) : s.forgetting limits now = s.forgetOldRemote limits now := by
  have hretired : (s.messages.filter fun h => !h.retired limits now) = s.messages := by
    rw [List.filter_eq_self]
    intro h hh
    rw [(hidle.messages h hh).not_retired]
    rfl
  have hbodies : s.messages.map (Header.dropBody limits now) = s.messages :=
    (map_congr_left fun h hh => (hidle.messages h hh).dropBody_eq).trans (List.map_id _)
  have hmarks : (s.noticeLast.filter fun _ since => !now.isPast since limits.noticesWindowSec) = s.noticeLast :=
    filter_eq_self fun e he => by rw [hidle.marks e he]; rfl
  rw [forgetting, retireSettledMessages, hretired, hbodies]
  show (s.forgetOldNoticeMarks limits now).forgetOldRemote limits now = _
  rw [forgetOldNoticeMarks, hmarks]

theorem remoteDue_eq_false : s.remoteDue limits now = false ↔
    (∀ e ∈ s.remote.seen.toList, (max s.lastNow now).isPast e.2 (limits.headerHorizonSec + seenMarginSec) = false) ∧
      s.remote.seen.size ≤ limits.countersMaxKeys := by
  rw [remoteDue, Bool.or_eq_false_iff, List.any_eq_false, decide_eq_false_iff_not, not_lt]
  simp only [Bool.not_eq_true]

theorem forgetOldRemote_eq_self (hseen : ∀ e ∈ s.remote.seen.toList,
      now.isPast e.2 (limits.headerHorizonSec + seenMarginSec) = false)
    (hsize : s.remote.seen.size ≤ limits.countersMaxKeys) : s.forgetOldRemote limits now = s := by
  have hfresh : freshSeen limits now s.remote.seen = s.remote.seen :=
    filter_eq_self fun e he => by rw [hseen e he]; rfl
  rw [forgetOldRemote, hfresh, Table.evict_eq_self hsize]

theorem sweep_of_idle (hidle : s.Idle limits (max s.lastNow now)) (hremote : s.remoteDue limits now = false) :
    (s.sweep limits now ids).1 = s.advance now := by
  obtain ⟨hseen, hsize⟩ := remoteDue_eq_false.mp hremote
  have hadvanced : (s.advance now).Idle limits (max s.lastNow now) :=
    ⟨hidle.messages, fun n hn => (hidle.notices n hn).congr rfl, hidle.marks⟩
  rw [sweep_eq, hadvanced.refusing_eq, hadvanced.forgetting_eq]
  exact forgetOldRemote_eq_self hseen hsize

theorem remoteDue_sweep (s : MailboxState) (limits : Limits) (now : Timestamp) (ids : IdSource) :
    (s.sweep limits now ids).1.remoteDue limits now = false := by
  have hswept := swept s limits now ids
  rw [remoteDue_eq_false, hswept.seen, hswept.lastNow, max_assoc, max_self]
  refine ⟨?_, Table.size_evict⟩
  rintro ⟨key, since⟩ he
  have hkept := Table.getElem?_evict (mem_toList_iff_getElem?_eq_some.mp he)
  rw [freshSeen, getElem?_filter'] at hkept
  exact Bool.not_eq_true' _ ▸ (filter_eq_some_iff.mp hkept).2

/-- A second sweep of the same time changes nothing. -/
theorem sweep_sweep (s : MailboxState) (limits : Limits) (now : Timestamp) (ids ids' : IdSource) :
    ((s.sweep limits now ids).1.sweep limits now ids').1 = (s.sweep limits now ids).1 := by
  have hclock := (swept s limits now ids).lastNow
  have hidle := idle_sweep s limits now ids
  have hremote := remoteDue_sweep s limits now ids
  generalize (s.sweep limits now ids).1 = after at hclock hidle hremote ⊢
  have hmax : max after.lastNow now = max s.lastNow now := by
    rw [hclock, max_assoc, max_self]
  rw [sweep_of_idle (hmax ▸ hidle) hremote, advance, hmax, ← hclock]

theorem timeRuleDue_of_keeps (hkeeps : s.SweepKeeps limits now ids) : s.timeRuleDue limits now = false := by
  have hidle := idle_sweep s limits now ids
  rw [timeRuleDue_eq_false, ← hkeeps]
  generalize (s.sweep limits now ids).1 = after at hidle ⊢
  exact ⟨hidle.messages, fun n hn => (hidle.notices n hn).congr rfl, hidle.marks⟩

theorem remoteDue_of_keeps (hkeeps : s.SweepKeeps limits now ids) : s.remoteDue limits now = false := by
  have hremote := remoteDue_eq_false.mp (remoteDue_sweep s limits now ids)
  rw [(swept s limits now ids).lastNow, max_assoc, max_self] at hremote
  rw [← hkeeps]
  exact remoteDue_eq_false.mpr hremote

theorem sweepKeeps_iff : s.SweepKeeps limits now ids ↔ s.timeRuleDue limits now = false ∧ s.remoteDue limits now = false := by
  constructor
  · intro hkeeps
    exact ⟨timeRuleDue_of_keeps hkeeps, remoteDue_of_keeps hkeeps⟩
  · rintro ⟨hdue, hremote⟩
    rw [SweepKeeps, sweep_of_idle (timeRuleDue_eq_false.mp hdue) hremote]
    rfl

/-- What `timeRuleDue` says is exact, and a sweep leaves nothing due, unless the ids of the messages taken from
other machines are the only thing the sweep would forget. -/
theorem timeRuleDue_exact (s : MailboxState) (limits : Limits) (now : Timestamp) (ids : IdSource) :
    ((s.timeRuleDue limits now = false ↔ s.SweepKeeps limits now ids) ∧
      (s.sweep limits now ids).1.timeRuleDue limits now = false ∧
      ∀ ids' : IdSource, ((s.sweep limits now ids).1.sweep limits now ids').1 = (s.sweep limits now ids).1) ↔
    (s.timeRuleDue limits now = true ∨ s.remoteDue limits now = false) := by
  have hrest : (s.sweep limits now ids).1.timeRuleDue limits now = false ∧
      ∀ ids' : IdSource, ((s.sweep limits now ids).1.sweep limits now ids').1 = (s.sweep limits now ids).1 :=
    ⟨timeRuleDue_sweep s limits now ids, sweep_sweep s limits now ids⟩
  rw [and_iff_left hrest, sweepKeeps_iff]
  cases s.timeRuleDue limits now <;> simp

end MailboxState

/-- A message for a key nobody registered is refused and remembered; past the ingest horizon no rule is due, and a
sweep forgets it. -/
theorem forgotten_id_not_due : ¬∀ (limits : Limits) (steps : List Step) (s : MailboxState), Run limits steps s →
      ∀ (limits : Limits) (now : Timestamp) (ids : IdSource),
        (s.timeRuleDue limits now = false ↔ s.SweepKeeps limits now ids) ∧
          (s.sweep limits now ids).1.timeRuleDue limits now = false ∧
          ∀ ids' : IdSource, ((s.sweep limits now ids).1.sweep limits now ids').1 = (s.sweep limits now ids).1 := by
  intro hclaim
  have hexact := (hclaim _ _ _ (run_play Sample.limits [(.ingestRemote (Sample.mail "1") [] 2, Sample.ids)])
    Sample.limits 90000003 Sample.ids).1
  have hdue : (play Sample.limits [(.ingestRemote (Sample.mail "1") [] 2, Sample.ids)]).2.timeRuleDue Sample.limits
      90000003 = false := by decide
  have hremote : (play Sample.limits [(.ingestRemote (Sample.mail "1") [] 2, Sample.ids)]).2.remoteDue Sample.limits
      90000003 = true := by decide
  have hforgets := MailboxState.remoteDue_of_keeps (hexact.mp hdue)
  rw [hremote] at hforgets
  cases hforgets

end Forgent.Mailbox
