import Forgent.Mailbox.Caps
import Forgent.Mailbox.TimeRules
import Mathlib.Data.List.Perm.Basic

/-!
# The notices lane

What a run keeps of the notices it records.

* `Lane.notify`: a new notice comes after the window of the last one, and takes the place of the oldest one that is not
  claimed where the address has its cap.
* `keeps`: a call keeps that, and each notice in flight that it does not end.
* `noticesKept`: both over whole runs.
-/

namespace Forgent.Mailbox

open List

/-- What the lane reads of a notice. -/
def Notice.entry (n : Notice) : WriterKey × RefusalReason × Timestamp := (n.toKey, n.reason, n.createdAt)

def Notice.mark (n : Notice) : String := noticeMark n.toKey n.reason

namespace MailboxState

/-- The notices of a record, and what the marks still say of them. -/
structure Lane (limits : Limits) (s : MailboxState) : Prop where
  cap (key : WriterKey) : s.notices.countP (fun n => n.toKey = key) ≤ limits.noticesCap
  apart : s.notices.Pairwise fun n n' => n.toKey = n'.toKey → n.reason = n'.reason →
    n'.createdAt.isPast n.createdAt limits.noticesWindowSec = true
  marked : ∀ n ∈ s.notices, (∃ last, s.noticeLast[n.mark]? = some last ∧ n.createdAt ≤ last) ∨
    s.lastNow.isPast n.createdAt limits.noticesWindowSec = true

/-- The part of a record that the lane is about. -/
def lane (s : MailboxState) : Timestamp × Table Timestamp × List Notice := (s.lastNow, s.noticeLast, s.notices)

variable {s s' : MailboxState} {limits : Limits} {now : Timestamp} {ids : IdSource} {n : Notice}

theorem lane_new (limits : Limits) : Lane limits .new where
  cap _ := Nat.zero_le _
  apart := .nil
  marked _ hn := absurd hn not_mem_nil

theorem Lane.congr (h : Lane limits s) (hlane : s'.lane = s.lane) : Lane limits s' := by
  obtain ⟨hnow, hmarks, hnotices⟩ : s'.lastNow = s.lastNow ∧ s'.noticeLast = s.noticeLast ∧ s'.notices = s.notices := by
    simpa [lane] using hlane
  constructor
  · rw [hnotices]
    exact h.cap
  · rw [hnotices]
    exact h.apart
  · rw [hnotices, hmarks, hnow]
    exact h.marked

/-- Notices go or are claimed, time goes on, and a mark is forgotten only where no notice needs it. -/
theorem Lane.of_sublist (h : Lane limits s) (hnow : s.lastNow ≤ s'.lastNow)
    (hnotices : s'.notices.map Notice.entry <+ s.notices.map Notice.entry)
    (hmarks : ∀ n ∈ s'.notices, ∀ last, s.noticeLast[n.mark]? = some last → n.createdAt ≤ last →
      s'.noticeLast[n.mark]? = some last ∨ s'.lastNow.isPast n.createdAt limits.noticesWindowSec = true) : Lane limits s' where
  cap key := by
    have hcount (l : List Notice) : l.countP (fun n => n.toKey = key) = (l.map Notice.entry).countP (fun e => e.1 = key) := by
      rw [countP_map]
      rfl
    have hle := h.cap key
    rw [hcount] at hle ⊢
    exact hnotices.countP_le.trans hle
  apart := by
    have hpairs : (s.notices.map Notice.entry).Pairwise fun e e' => e.1 = e'.1 → e.2.1 = e'.2.1 →
        e'.2.2.isPast e.2.2 limits.noticesWindowSec = true := pairwise_map.mpr h.apart
    exact pairwise_map.mp (hpairs.sublist hnotices)
  marked n hn := by
    obtain ⟨n', hn', hentry⟩ := mem_map.mp (hnotices.subset (mem_map_of_mem hn))
    obtain ⟨hkey, hreason, hcreated⟩ : n'.toKey = n.toKey ∧ n'.reason = n.reason ∧ n'.createdAt = n.createdAt := by
      simpa [Notice.entry] using hentry
    have hmark : n'.mark = n.mark := by rw [Notice.mark, Notice.mark, hkey, hreason]
    rcases h.marked n' hn' with ⟨last, hlast, hle⟩ | hpast
    · rw [hmark] at hlast
      rw [hcreated] at hle
      exact (hmarks n hn last hlast hle).imp_left fun hkept => ⟨last, hkept, hle⟩
    · rw [hcreated] at hpast
      exact .inr (Timestamp.isPast_mono hpast hnow le_rfl)

theorem Lane.filter (h : Lane limits s) (p : Notice → Bool) : Lane limits { s with notices := s.notices.filter p } :=
  h.of_sublist le_rfl (filter_sublist.map _) fun _ _ _ hlast _ => .inl hlast

theorem Lane.advance (h : Lane limits s) (now : Timestamp) : Lane limits (s.advance now) :=
  h.of_sublist (le_max_left s.lastNow now) (Sublist.refl _) fun _ _ _ hlast _ => .inl hlast

/-! ### A new notice -/

/-- A notice is added behind the window of the last one of its mark, and some notice may go. -/
theorem Lane.add {notice : Notice} {notices : List Notice} (h : Lane limits s) (hcreated : notice.createdAt = s.lastNow)
    (hpast : ∀ last, s.noticeLast[notice.mark]? = some last → s.lastNow.isPast last limits.noticesWindowSec = true)
    (hsub : notices <+ s.notices ++ [notice]) (hcap : notices.countP (fun n => n.toKey = notice.toKey) ≤ limits.noticesCap) :
    Lane limits { s with noticeLast := s.noticeLast.insert notice.mark s.lastNow, notices } where
  cap key := by
    by_cases hkey : notice.toKey = key
    · subst hkey
      exact hcap
    · refine hsub.countP_le.trans ?_
      rw [countP_append, countP_singleton, if_neg (by simpa using hkey)]
      exact h.cap key
  apart := by
    refine (pairwise_append.mpr ⟨h.apart, pairwise_singleton .., ?_⟩).sublist hsub
    intro n hn n' hn' hkey hreason
    rw [mem_singleton.mp hn'] at hkey hreason ⊢
    have hmark : n.mark = notice.mark := by rw [Notice.mark, Notice.mark, hkey, hreason]
    rw [hcreated]
    rcases h.marked n hn with ⟨last, hlast, hle⟩ | hgone
    · exact Timestamp.isPast_mono (hpast last (hmark ▸ hlast)) le_rfl hle
    · exact hgone
  marked n hn := by
    show (∃ last, (s.noticeLast.insert notice.mark s.lastNow)[n.mark]? = some last ∧ _) ∨ _
    rw [Std.ExtTreeMap.getElem?_insert]
    rcases mem_append.mp (hsub.subset hn) with hn | hn
    · rcases h.marked n hn with ⟨last, hlast, hle⟩ | hgone
      · split
        · rename_i hmark
          have hmark : notice.mark = n.mark := by simpa using hmark
          have hlt := Timestamp.isPast_iff.mp (hpast last (hmark ▸ hlast))
          refine .inl ⟨_, rfl, hle.trans ?_⟩
          rw [Fin.le_def]
          omega
        · exact .inl ⟨last, hlast, hle⟩
      · exact .inr hgone
    · rw [mem_singleton.mp hn, if_pos (by simp)]
      exact .inl ⟨_, rfl, hcreated.le⟩

/-- A notice that goes is one less of its address. -/
theorem countP_eraseIdx_lt {l : List Notice} {key : WriterKey} {i : ℕ} (hi : i < l.length) (hkey : l[i].toKey = key) :
    (l.eraseIdx i).countP (fun n => n.toKey = key) < l.countP (fun n => n.toKey = key) := by
  have hperm := (getElem_cons_eraseIdx_perm hi).countP_eq fun n : Notice => decide (n.toKey = key)
  rw [countP_cons, if_pos (by simpa using hkey)] at hperm
  omega

theorem Lane.notify (h : Lane limits s) (refused : RefusedFacts) (ids : IdSource) :
    Lane limits (s.notify limits refused s.lastNow ids).1 := by
  unfold MailboxState.notify
  cases hgeneration : refused.fromGeneration with
  | none => exact ⟨h.cap, h.apart, h.marked⟩
  | some generation =>
    simp only
    split
    · split
      · exact ⟨h.cap, h.apart, h.marked⟩
      · rename_i hfresh
        generalize hnotice : (⟨(MessageId.mint ids).1, refused.fromKey, generation, refused.reason, refused.about,
          refused.toKey, s.lastNow, .recorded⟩ : Notice) = notice
        obtain ⟨hkey, hmark, hcreated, hrecorded⟩ : refused.fromKey = notice.toKey ∧
            noticeMark refused.fromKey refused.reason = notice.mark ∧ notice.createdAt = s.lastNow ∧ notice.state = .recorded := by
          subst hnotice
          exact ⟨rfl, rfl, rfl, rfl⟩
        rw [hmark] at hfresh ⊢
        rw [hkey]
        have hpast (last : Timestamp) (hlast : s.noticeLast[notice.mark]? = some last) :
            s.lastNow.isPast last limits.noticesWindowSec = true := by
          simpa [hlast] using hfresh
        have hcount : (s.notices ++ [notice]).countP (fun n => n.toKey = notice.toKey) ≤ limits.noticesCap + 1 := by
          rw [countP_append, countP_singleton, if_pos (by simp)]
          exact Nat.succ_le_succ (h.cap _)
        split
        · split
          · rename_i i hfind
            -- one more than the cap, and the oldest one that is not claimed goes
            obtain ⟨hi, hholds, -⟩ := findIdx?_eq_some_iff_getElem.mp hfind
            have hlt := countP_eraseIdx_lt hi (of_decide_eq_true (Bool.and_eq_true_iff.mp hholds).1)
            have hadded := h.add hcreated hpast (eraseIdx_sublist _ i) (by omega)
            exact ⟨hadded.cap, hadded.apart, hadded.marked⟩
          · rename_i hfind
            have hnone := findIdx?_eq_none_iff.mp hfind notice (mem_append_right _ mem_cons_self)
            simp [hrecorded] at hnone
        · rename_i hle
          exact h.add hcreated hpast (Sublist.refl _) (not_lt.mp hle)
    · exact ⟨h.cap, h.apart, h.marked⟩

theorem stays_notify (refused : RefusedFacts) (hn : n ∈ s.notices) (hflight : n.state ≠ .recorded) :
    n ∈ (s.notify limits refused now ids).1.notices := by
  unfold MailboxState.notify
  cases hgeneration : refused.fromGeneration with
  | none => exact hn
  | some generation =>
    simp only
    split
    · split
      · exact hn
      · split
        · split
          · rename_i i hfind
            obtain ⟨hi, hholds, -⟩ := findIdx?_eq_some_iff_getElem.mp hfind
            obtain ⟨j, hj⟩ := getElem?_of_mem (mem_append_left _ hn)
            refine mem_eraseIdx_iff_getElem?.mpr ⟨j, ?_, hj⟩
            rintro rfl
            rw [(List.getElem?_eq_some_iff.mp hj).2] at hholds
            exact hflight (of_decide_eq_true (Bool.and_eq_true_iff.mp hholds).2)
          · exact mem_append_left _ hn
        · exact mem_append_left _ hn
    · exact hn

theorem Lane.settleRefusals {facts : List RefusedFacts} (h : Lane limits s) (hnow : s.lastNow = now) (ids : IdSource) :
    Lane limits (settleRefusals limits now facts s ids).1 := by
  induction facts generalizing s ids with
  | nil => exact h
  | cons fact facts ih =>
    subst hnow
    have hcounted : Lane limits (s.count limits fact.reason.counter fact.fromKey fact.toKey s.lastNow) :=
      ⟨h.cap, h.apart, h.marked⟩
    exact ih (hcounted.notify fact ids) (noted_notify ..).lastNow _

theorem stays_settleRefusals {facts : List RefusedFacts} (hn : n ∈ s.notices) (hflight : n.state ≠ .recorded)
    (ids : IdSource) : n ∈ (MailboxState.settleRefusals limits now facts s ids).1.notices := by
  induction facts generalizing s ids with
  | nil => exact hn
  | cons fact facts ih =>
    have hcounted : n ∈ (s.count limits fact.reason.counter fact.fromKey fact.toKey now).notices := hn
    exact ih (stays_notify fact hcounted hflight) _

theorem lane_countNotices (reason : CounterReason) (gone : List Notice) (s : MailboxState) :
    (countNotices limits reason now s gone).lane = s.lane := by
  induction gone generalizing s with
  | nil => rfl
  | cons n gone ih => exact ih _

/-! ### A sweep -/

theorem Lane.refusing (h : Lane limits s) (hnow : s.lastNow = now) (ids : IdSource) :
    Lane limits (s.refusing limits now ids).1 ∧ (s.refusing limits now ids).1.lastNow = now := by
  have hclaimed : Lane limits (s.expireMessageClaims limits now ids).1 :=
    Lane.settleRefusals (s := { s with messages := s.messages.map (Header.expireClaim limits now) })
      ⟨h.cap, h.apart, h.marked⟩ hnow ids
  have hfirst : (s.expireMessageClaims limits now ids).1.lastNow = now := (noted_settleRefusals ..).lastNow.trans hnow
  rw [MailboxState.refusing]
  generalize s.expireMessageClaims limits now ids = r at hclaimed hfirst ⊢
  obtain ⟨claimed, ids'⟩ := r
  have hdropped : Lane limits (claimed.dropUnfinishedNotices limits now) := (hclaimed.filter _).congr (lane_countNotices ..)
  have hexpired : Lane limits ((claimed.dropUnfinishedNotices limits now).expireNotices limits now) :=
    (hdropped.filter _).congr (lane_countNotices ..)
  have hsecond : ((claimed.dropUnfinishedNotices limits now).expireNotices limits now).lastNow = now :=
    ((noted_dropUnfinishedNotices claimed limits now).trans (noted_expireNotices _ limits now)).lastNow.trans hfirst
  simp only
  generalize (claimed.dropUnfinishedNotices limits now).expireNotices limits now = expired at hexpired hsecond ⊢
  exact ⟨Lane.settleRefusals (s := { expired with messages := expired.messages.map (Header.refuseStale limits now) })
    ⟨hexpired.cap, hexpired.apart, hexpired.marked⟩ hsecond ids', (noted_settleRefusals ..).lastNow.trans hsecond⟩

/-- A notice in flight that is not overdue stays. -/
theorem stays_refusing (hn : n ∈ s.notices) (hflight : n.state ≠ .recorded) (ids : IdSource)
    (hunfinished : n.unfinished now = false) (hexpired : s.noticeExpired limits now n = false) :
    n ∈ (s.refusing limits now ids).1.notices := by
  have hclaimed : n ∈ (s.expireMessageClaims limits now ids).1.notices :=
    stays_settleRefusals (s := { s with messages := s.messages.map (Header.expireClaim limits now) }) hn hflight ids
  have hbindings : (s.expireMessageClaims limits now ids).1.bindings = s.bindings := (noted_settleRefusals ..).bindings
  rw [refusing]
  generalize s.expireMessageClaims limits now ids = r at hclaimed hbindings ⊢
  obtain ⟨claimed, ids'⟩ := r
  have hkept : (claimed.dropUnfinishedNotices limits now).noticeExpired limits now n = false := by
    rw [← hexpired, noticeExpired, noticeExpired, currentGeneration_congr
      ((noted_dropUnfinishedNotices claimed limits now).bindings.trans hbindings)]
  have hexpires : n ∈ ((claimed.dropUnfinishedNotices limits now).expireNotices limits now).notices := by
    rw [expireNotices, notices_countNotices]
    refine mem_filter.mpr ⟨?_, by rw [hkept]; rfl⟩
    rw [dropUnfinishedNotices, notices_countNotices]
    exact mem_filter.mpr ⟨hclaimed, by rw [hunfinished]; rfl⟩
  simp only
  generalize (claimed.dropUnfinishedNotices limits now).expireNotices limits now = expired at hexpires ⊢
  exact stays_settleRefusals (s := { expired with messages := expired.messages.map (Header.refuseStale limits now) })
    hexpires hflight ids'

/-- The marks that a sweep forgets are past the window. -/
theorem Lane.forgetOldNoticeMarks (h : Lane limits s) (hnow : s.lastNow = now) :
    Lane limits (s.forgetOldNoticeMarks limits now) := by
  refine h.of_sublist le_rfl (Sublist.refl _) ?_
  intro n _ last hlast hle
  show (s.noticeLast.filter fun _ since => !now.isPast since limits.noticesWindowSec)[n.mark]? = some last ∨
    s.lastNow.isPast n.createdAt limits.noticesWindowSec = true
  cases hpast : now.isPast last limits.noticesWindowSec with
  | true => exact .inr (Timestamp.isPast_mono hpast hnow.ge hle)
  | false =>
    rw [Std.ExtTreeMap.getElem?_filter', hlast]
    exact .inl (by simp [hpast])

theorem Lane.sweep (h : Lane limits s) (now : Timestamp) (ids : IdSource) : Lane limits (s.sweep limits now ids).1 := by
  have hadvanced : (s.advance now).lastNow = max s.lastNow now := rfl
  obtain ⟨hrefused, hnow⟩ := (h.advance now).refusing hadvanced ids
  rw [sweep_eq]
  generalize (s.advance now).refusing limits (max s.lastNow now) ids = r at hrefused hnow ⊢
  have hforgot := hrefused.forgetOldNoticeMarks hnow
  exact ⟨hforgot.cap, hforgot.apart, hforgot.marked⟩

/-! ### The calls -/

theorem lane_send (s : MailboxState) (limits : Limits) (req : SendRequest) (now : Timestamp) (ids : IdSource) :
    (s.send limits req now ids).2.1.lane = (s.sweep limits now ids).1.lane := by
  rw [send]
  generalize s.sweep limits now ids = r
  obtain ⟨swept, ids'⟩ := r
  simp only
  split
  · rfl
  · obtain ⟨_, _, hafter⟩ := exists_appended_send (swept.countAttempt limits (swept.account req.fromKey) req.fromKey
      (swept.currentGeneration req.fromKey) swept.lastNow) limits req _ _ _ _ ids'
    rw [lane, hafter.lastNow, hafter.noticeLast, hafter.notices]
    rfl

theorem lane_admitRemote (s : MailboxState) (limits : Limits) (req : RemoteSend) (now : Timestamp) (ids : IdSource) :
    (s.admitRemote limits req now ids).2.1.lane = (s.sweep limits now ids).1.lane := by
  rw [admitRemote]
  generalize s.sweep limits now ids = r
  obtain ⟨swept, ids'⟩ := r
  simp only
  split <;> rfl

theorem lane_ingestRemote (s : MailboxState) (limits : Limits) (mail : RemoteMail) (dead : List WriterKey)
    (now : Timestamp) (ids : IdSource) :
    (s.ingestRemote limits mail dead now ids).2.1.lane = (s.sweep limits now ids).1.lane := by
  rw [ingestRemote]
  generalize s.sweep limits now ids = r
  obtain ⟨swept, ids'⟩ := r
  simp only
  split
  · rfl
  · split <;> rfl

theorem lane_register (s : MailboxState) (limits : Limits) (req : RegisterRequest) (judged : Option StoredHead)
    (now : Timestamp) (ids : IdSource) : (s.register limits req judged now ids).2.1.lane = s.lane ∨
      ∃ drawn, (s.register limits req judged now ids).2.1.lane = (s.sweep limits now drawn).1.lane := by
  unfold register
  split
  · exact .inl rfl
  split
  · exact .inl rfl
  split
  · exact .inl rfl
  · exact .inl rfl
  · split
    · exact .inl rfl
    · rename_i retired generation _ _ name drawn _
      refine .inr ⟨drawn, ?_⟩
      generalize s.sweep limits now drawn = r
      obtain ⟨swept, rest⟩ := r
      cases retired with
      | none => rfl
      | some oldKey =>
        obtain ⟨_, _, _, _, _, hretire⟩ := exists_retire (swept.create req name generation swept.lastNow) oldKey
        simp only [hretire]
        rfl
  · refine .inr ⟨ids, ?_⟩
    generalize s.sweep limits now ids = r
    obtain ⟨swept, rest⟩ := r
    simp only
    split <;> rfl

/-- A claim leaves the record, or takes what it picks behind a sweep. -/
theorem claim_cases (s : MailboxState) (limits : Limits) (key : WriterKey) (generation : Generation) (checkpoint : Checkpoint)
    (now : Timestamp) (ids : IdSource) : (s.claim limits key generation checkpoint now ids).2.1 = s ∨
      ∃ hold drained, drained.lane = (s.sweep limits now ids).1.lane ∧ (s.claim limits key generation checkpoint now ids).2.1 =
        (takeAll hold drained.lastNow (drained.select limits key generation checkpoint).1 drained).2 := by
  rw [claim]
  split
  · exact .inl rfl
  · split
    · exact .inl rfl
    · generalize s.sweep limits now ids = r
      obtain ⟨swept, ids'⟩ := r
      obtain ⟨bindings, hdrain⟩ := exists_stampDrain swept key swept.lastNow
      simp only [hdrain]
      split
      · rename_i hselect
        exact .inr ⟨⟨(AttemptToken.mint ids').1, now, generation⟩, { swept with bindings }, rfl, by rw [hselect]; rfl⟩
      · rename_i hselect
        exact .inr ⟨_, { swept with bindings }, rfl, by rw [hselect]⟩

theorem map_entry_takeAll (hold : Hold) (picks : List Pick) (s : MailboxState) :
    (takeAll hold now picks s).2.notices.map Notice.entry = s.notices.map Notice.entry := by
  induction picks generalizing s with
  | nil => rfl
  | cons pick picks ih =>
    refine (ih _).trans ?_
    cases pick with
    | message i => rfl
    | notice i =>
      show (s.notices.modify i (Notice.hold hold)).map Notice.entry = s.notices.map Notice.entry
      refine ext_getElem? fun j => ?_
      rw [getElem?_map, getElem?_map, getElem?_modify]
      cases s.notices[j]? with
      | none => rfl
      | some n => split <;> rfl

theorem Lane.takeAll (h : Lane limits s) (hold : Hold) (picks : List Pick) (now : Timestamp) :
    Lane limits (takeAll hold now picks s).2 := by
  have hentries := @map_entry_takeAll now hold picks s
  obtain ⟨messages, notices, htook⟩ := exists_takeAll hold now picks s
  rw [htook] at hentries ⊢
  exact h.of_sublist le_rfl (hentries ▸ Sublist.refl _) fun _ _ _ hlast _ => .inl hlast

theorem stays_takeAll {key : WriterKey} {generation : Generation} {checkpoint : Checkpoint} (hn : n ∈ s.notices)
    (hflight : n.state ≠ .recorded) (hold : Hold) :
    n ∈ (takeAll hold now (s.select limits key generation checkpoint).1 s).2.notices := by
  obtain ⟨i, hi⟩ := getElem?_of_mem hn
  have hnot : .notice i ∉ (s.select limits key generation checkpoint).1 := by
    intro hpick
    obtain ⟨n', hn', heligible⟩ := noticeEligible_of_pick hpick
    rw [hi] at hn'
    cases hn'
    simp [noticeEligible, hflight] at heligible
  exact mem_of_getElem? ((getElem?_notices_takeAll hnot s).trans hi)

theorem noticeMarkIsOf_mark {key : WriterKey} (hkey : n.toKey ≠ key) : noticeMarkIsOf n.mark key = false := by
  have hsplit := splitOn_append_cons_self_of_not_mem (@WriterKey.notMem n.toKey '|' rfl)
    n.reason.counter.code.toList
  rw [noticeMarkIsOf, Notice.mark, noticeMark, String.toList_append, String.toList_append, append_assoc]
  refine decide_eq_false fun heq => hkey ?_
  have hhead : ((n.toKey.text.toList ++ ('|' :: n.reason.counter.code.toList)).splitOn '|').head? = some key.text.toList := heq
  rw [hsplit] at hhead
  exact WriterKey.text_inj.mp (String.toList_inj.mp (Option.some.inj hhead))

theorem Lane.forgetKey (h : Lane limits s) (key : WriterKey) : Lane limits (s.forgetKey key).2 := by
  refine h.of_sublist le_rfl (filter_sublist.map _) ?_
  intro n hn last hlast _
  have hkey : n.toKey ≠ key := of_decide_eq_true (Bool.and_eq_true_iff.mp (mem_filter.mp hn).2).1
  refine .inl ?_
  show (s.noticeLast.filter fun mark _ => !noticeMarkIsOf mark key)[n.mark]? = some last
  rw [Std.ExtTreeMap.getElem?_filter', hlast]
  simp [noticeMarkIsOf_mark hkey]

/-- What ends a notice that is in flight: the forgetting of a key it names, its finish by the generation that claimed it, and a
sweep behind its deadline or its time to live, or when its addressee is over. -/
def Ends (limits : Limits) (s : MailboxState) (n : Notice) (op : Op) : Prop :=
  (∃ key, op = .forgetKey key ∧ (n.toKey = key ∨ n.aboutTo = key)) ∨
  (∃ key generation token now, op = .finish key generation token now ∧
    (n.heldBy key token).any (s.accepts key generation) = true) ∨
  ∃ now, op.clock = some now ∧
    (n.unfinished (max s.lastNow now) = true ∨ s.noticeExpired limits (max s.lastNow now) n = true)

/-- What one call keeps of the lane. -/
structure Keeps (limits : Limits) (s s' : MailboxState) (op : Op) : Prop where
  lane (h : Lane limits s) : Lane limits s'
  stays : ∀ n ∈ s.notices, n.state ≠ .recorded → n ∈ s'.notices ∨ s.Ends limits n op

theorem keeps_of_lane {op : Op} (hlane : s'.lane = s.lane) : Keeps limits s s' op where
  lane h := h.congr hlane
  stays n hn _ := by
    have hnotices : s'.notices = s.notices := congrArg (·.2.2) hlane
    rw [hnotices]
    exact .inl hn

theorem keeps_of_sweep {op : Op} {drawn : IdSource} (hclock : op.clock = some now)
    (hlane : s'.lane = (s.sweep limits now drawn).1.lane) : Keeps limits s s' op where
  lane h := (h.sweep now drawn).congr hlane
  stays n hn hflight := by
    by_cases hdue : n.unfinished (max s.lastNow now) = true ∨ s.noticeExpired limits (max s.lastNow now) n = true
    · exact .inr (.inr (.inr ⟨now, hclock, hdue⟩))
    · rw [not_or, Bool.not_eq_true, Bool.not_eq_true] at hdue
      have hnotices : s'.notices = (s.sweep limits now drawn).1.notices := congrArg (·.2.2) hlane
      have hmem := stays_refusing (s := s.advance now) hn hflight drawn hdue.1 hdue.2
      rw [hnotices, sweep_eq]
      generalize (s.advance now).refusing limits (max s.lastNow now) drawn = r at hmem ⊢
      exact .inl hmem

theorem keeps (limits : Limits) (s : MailboxState) (ids : IdSource) (op : Op) : Keeps limits s (op.call limits s ids).2 op := by
  unfold Op.call
  cases op with dsimp only
  | register req judged now =>
    rcases lane_register s limits req judged now ids with hlane | ⟨drawn, hlane⟩
    · exact keeps_of_lane hlane
    · exact keeps_of_sweep rfl hlane
  | forgetKey key =>
    refine ⟨fun h => h.forgetKey key, fun n hn _ => ?_⟩
    by_cases hends : n.toKey = key ∨ n.aboutTo = key
    · exact .inr (.inl ⟨key, rfl, hends⟩)
    · rw [not_or] at hends
      exact .inl (mem_filter.mpr ⟨hn, by simp [hends.1, hends.2]⟩)
  | send req now => exact keeps_of_sweep rfl (lane_send s limits req now ids)
  | admitRemote req now => exact keeps_of_sweep rfl (lane_admitRemote s limits req now ids)
  | ingestRemote mail dead now => exact keeps_of_sweep rfl (lane_ingestRemote s limits mail dead now ids)
  | claim key generation checkpoint now =>
    rcases claim_cases s limits key generation checkpoint now ids with hsame | ⟨hold, drained, hlane, htook⟩
    · exact keeps_of_lane (congrArg lane hsame)
    · have hkeeps : Keeps limits s drained (.claim key generation checkpoint now) := keeps_of_sweep rfl hlane
      simp only [htook]
      exact ⟨fun h => (hkeeps.lane h).takeAll hold _ _, fun n hn hflight =>
        (hkeeps.stays n hn hflight).imp_left fun hmem => stays_takeAll hmem hflight hold⟩
  | finish key generation token now =>
    refine ⟨fun h => h.of_sublist ?_ (filter_sublist.map _) fun _ _ _ hlast _ => .inl hlast, fun n hn _ => ?_⟩
    · show s.lastNow ≤ ite _ (max s.lastNow now) s.lastNow
      split
      · exact le_max_left ..
      · exact le_rfl
    · cases hends : (n.heldBy key token).any (s.accepts key generation) with
      | true => exact .inr (.inr (.inl ⟨key, generation, token, now, rfl, hends⟩))
      | false => exact .inl (mem_filter.mpr ⟨hn, by simp [hends]⟩)
  | noteStop key generation blocked =>
    obtain ⟨bindings, hnoted⟩ := exists_noteStop s key generation blocked
    rw [hnoted]
    exact keeps_of_lane rfl
  | sweep now => exact keeps_of_sweep rfl rfl
  | countRemoteDrop reason machine now =>
    exact ⟨fun h => ⟨(h.advance now).cap, (h.advance now).apart, (h.advance now).marked⟩, fun n hn _ => .inl hn⟩
  | advanceRemoteCursor cursor | queueRemoteRefusal id code | clearRemoteRefusals told | markRemoteSettled told =>
    exact keeps_of_lane rfl

end MailboxState

/-! ### Runs -/

/-- What a run keeps of its notices: no address has more of them than the cap, two of one address and reason were made further
apart than the window, and one in flight stays until a step ends it. -/
structure NoticesKept (limits : Limits) (steps : List Step) (s : MailboxState) : Prop where
  lane : s.Lane limits
  stays : ∀ step ∈ steps, ∀ n ∈ step.before.notices, n.state ≠ .recorded →
    n ∈ step.after.notices ∨ step.before.Ends limits n step.op

theorem Run.lane {limits : Limits} {steps : List Step} {s : MailboxState} (hrun : Run limits steps s) : s.Lane limits := by
  induction hrun with
  | nil => exact MailboxState.lane_new limits
  | @snoc _ s _ op ids ih => exact (MailboxState.keeps limits s ids op).lane ih

end Forgent.Mailbox
