import Forgent.RollingWindow
import Forgent.Mailbox.Admission
import Forgent.Mailbox.Dedupe

/-!
# Budgets and lifetimes

Every send of a registered head counts toward a rolling window of its key and toward the lifetime of its generation,
also when it is refused.  `Charging` says what a call does to both.
-/

namespace Forgent.Mailbox

open List Option Std.ExtTreeMap

/-- The key a call sends from, to this machine or to another. -/
def Op.sendsFrom : Op → Option WriterKey
  | .send req _ => some req.fromKey
  | .admitRemote req _ => some req.fromKey
  | _ => none

def Answer.admits : Answer → Bool
  | .sent (.ok _) | .leaving (.ok _) => true
  | _ => false

namespace MailboxState

/-- The lifetime counts after one more attempt. -/
def countedLifetime (s : MailboxState) (key : Option String) : Table ℕ :=
  match key with
  | none => s.lifetime
  | some key => s.lifetime.insert key (min (s.lifetime.getD key 0 + 1) u32Max)

/-- What a call does to the budgets and the lifetimes. -/
inductive Charging (limits : Limits) (s s' : MailboxState) (op : Op) : Prop
  | free (hby : op.sendsFrom = none) (hbudget : s'.budget = s.budget) (hlifetime : s'.lifetime = s.lifetime) :
      Charging limits s s' op
  /-- The records of a generation that ended go. -/
  | ended {key : WriterKey} {generation : Generation} (hby : op.sendsFrom = none)
      (hended : ∀ g, ¬(s.currentGeneration key = some g ∧ s'.currentGeneration key = some g))
      (hbudget : s'.budget = s.budget.filter fun account _ => account ≠ key.text)
      (hlifetime : s'.lifetime = s.lifetime.filter fun k _ => !lifetimeIsOf k key (some generation)) :
      Charging limits s s' op
  | forgot {key : WriterKey} (hop : op = .forgetKey key)
      (hbudget : s'.budget = s.budget.filter fun account _ => account ≠ key.text) : Charging limits s s' op
  | sent {fromKey : WriterKey} (hby : op.sendsFrom = some fromKey)
      (hbudget : s'.budget = s.budget.insert (s.account fromKey)
        (attemptsWith limits (s.budget.getD (s.account fromKey) []) s'.lastNow))
      (hlifetime : s'.lifetime = s.countedLifetime ((s.currentGeneration fromKey).map (lifetimeKey fromKey))) :
      Charging limits s s' op
  | landed {machine : String} {fromKey : WriterKey} (hby : op.sendsFrom = none)
      (hbudget : s'.budget = s.budget.insert (remoteAccount machine fromKey)
        (attemptsWith limits (s.budget.getD (remoteAccount machine fromKey) []) s'.lastNow))
      (hlifetime : s'.lifetime = s.countedLifetime (some (remoteLifetimeKey machine fromKey))) :
      Charging limits s s' op

variable {s s' : MailboxState} {limits : Limits} {now : Timestamp} {result : Except Refusal SendOutcome}
  {key k : WriterKey} {generation : Generation} {op : Op} {req : SendRequest}

theorem countAttemptFor_budget (s : MailboxState) (limits : Limits) (account : Account) (lifetime : Option String)
    (now : Timestamp) : (s.countAttemptFor limits account lifetime now).budget =
      s.budget.insert account (attemptsWith limits (s.budget.getD account []) now) := rfl

theorem countAttemptFor_lifetime (s : MailboxState) (limits : Limits) (account : Account) (lifetime : Option String)
    (now : Timestamp) : (s.countAttemptFor limits account lifetime now).lifetime = s.countedLifetime lifetime := by
  cases lifetime <;> rfl

theorem countedLifetime_congr {s s' : MailboxState} (h : s'.lifetime = s.lifetime) (key : Option String) :
    s'.countedLifetime key = s.countedLifetime key := by
  cases key with
  | none => exact h
  | some key =>
    show s'.lifetime.insert _ _ = s.lifetime.insert _ _
    rw [h]

theorem retire_charges (s : MailboxState) (key : WriterKey) : (s.retire key).bindings[key]? = none ∧
    (((s.retire key).budget = s.budget ∧ (s.retire key).lifetime = s.lifetime) ∨
      ∃ generation, (s.retire key).budget = s.budget.filter (fun account _ => account ≠ key.text) ∧
        (s.retire key).lifetime = s.lifetime.filter fun k _ => !lifetimeIsOf k key (some generation)) := by
  rw [retire]
  cases hold : s.bindings[key]? with
  | none => exact ⟨hold, .inl ⟨rfl, rfl⟩⟩
  | some old => exact ⟨getElem?_erase_self, .inr ⟨old.generation, rfl, rfl⟩⟩

theorem Registration.charging {req : RegisterRequest} {judged : Option StoredHead}
    {result : Except RegisterRefusal Registered} (h : Registration limits req now s judged result s') :
    Charging limits s s' (.register req judged now) := by
  cases h with
  | refused | refreshed => exact .free rfl rfl rfl
  | created hswept => exact .free rfl hswept.budget hswept.lifetime
  | @moved swept name held generation hswept =>
    obtain ⟨hunbound, hcharges⟩ := retire_charges (swept.create req name generation swept.lastNow) held.key
    rcases hcharges with ⟨hbudget, hlifetime⟩ | ⟨old, hbudget, hlifetime⟩
    · exact .free rfl (hbudget.trans hswept.budget) (hlifetime.trans hswept.lifetime)
    · refine @Charging.ended _ _ _ _ held.key old rfl ?_ (hbudget.trans ?_) (hlifetime.trans ?_)
      · intro g hboth
        rw [currentGeneration, currentGeneration, hunbound] at hboth
        cases hboth.2
      · rw [create, hswept.budget]
      · rw [create, hswept.lifetime]
  | @replaced swept old generation judged hswept hbound hother hdead hgeneration =>
    refine @Charging.ended _ _ _ _ req.key old.generation rfl ?_ ?_ ?_
    · intro g hboth
      obtain ⟨hbefore, hafter⟩ := hboth
      rw [currentGeneration, hbound] at hbefore
      have hnew : (some (replacedBinding old req generation swept.lastNow)).map Binding.generation = some g := by
        rw [← hafter, currentGeneration, dropGenerationRecords, getElem?_insert_self]
      have hnext := Generation.next_eq_some.mp hgeneration
      have hsame : generation = old.generation := Option.some.inj (hnew.trans hbefore.symm)
      rw [hsame] at hnext
      omega
    · show swept.budget.filter _ = _
      rw [hswept.budget]
    · show swept.lifetime.filter _ = _
      rw [hswept.lifetime]

theorem Sending.charging (h : Sending limits req now s result s') : Charging limits s s' (.send req now) := by
  have hcharged {swept tried : MailboxState} (hswept : Swept limits now s swept)
      (htried : tried = swept.countAttempt limits (swept.account req.fromKey) req.fromKey
        (swept.currentGeneration req.fromKey) swept.lastNow) (hbudget : s'.budget = tried.budget)
      (hlifetime : s'.lifetime = tried.lifetime) (hclock : s'.lastNow = swept.lastNow) :
      Charging limits s s' (.send req now) := by
    refine .sent rfl (hbudget.trans ?_) (hlifetime.trans ?_)
    · rw [htried, countAttempt, countAttemptFor_budget, account_congr hswept.bindings, hswept.budget, hclock]
    · rw [htried, countAttempt, countAttemptFor_lifetime, currentGeneration_congr hswept.bindings,
        countedLifetime_congr hswept.lifetime]
  cases h with
  | refused hswept htried => exact hcharged hswept htried rfl rfl (by rw [htried]; rfl)
  | recorded _ hswept htried _ hafter =>
    exact hcharged hswept htried hafter.budget hafter.lifetime (hafter.lastNow.trans (by rw [htried]; rfl))

theorem Leaving.charging {req : RemoteSend} {result : Except Refusal MessageId}
    (h : Leaving limits req now s result s') : Charging limits s s' (.admitRemote req now) := by
  cases h with
  | @mk swept tried _ hswept htried =>
    refine .sent rfl ?_ ?_
    · show tried.budget = s.budget.insert _ (attemptsWith limits _ tried.lastNow)
      rw [htried, countAttempt, countAttemptFor_budget, account_congr hswept.bindings, hswept.budget]
      rfl
    · show tried.lifetime = _
      rw [htried, countAttempt, countAttemptFor_lifetime, currentGeneration_congr hswept.bindings,
        countedLifetime_congr hswept.lifetime]

theorem Ingesting.charging {mail : RemoteMail} {dead : List WriterKey} {result : Except Refusal Ingested}
    (h : Ingesting limits mail dead now s result s') : Charging limits s s' (.ingestRemote mail dead now) := by
  have hcharged {swept tried : MailboxState} (hswept : Swept limits now s swept)
      (htried : tried = swept.attempted limits mail) (hbudget : s'.budget = tried.budget)
      (hlifetime : s'.lifetime = tried.lifetime) (hclock : s'.lastNow = swept.lastNow) :
      Charging limits s s' (.ingestRemote mail dead now) := by
    refine @Charging.landed _ _ _ _ mail.machine mail.fromKey rfl (hbudget.trans ?_) (hlifetime.trans ?_)
    · rw [htried, attempted, countAttemptFor_budget, hswept.budget, hclock]
    · rw [htried, attempted, countAttemptFor_lifetime]
      refine countedLifetime_congr ?_ _
      exact hswept.lifetime
  cases h with
  | duplicate hswept => exact .free rfl hswept.budget hswept.lifetime
  | refused hswept _ htried => exact hcharged hswept htried rfl rfl (by rw [htried]; rfl)
  | recorded _ hswept _ htried _ hafter =>
    exact hcharged hswept htried hafter.budget hafter.lifetime (hafter.lastNow.trans (by rw [htried]; rfl))

theorem Claiming.charging {checkpoint : Checkpoint} {result : Claim}
    (h : Claiming limits key generation checkpoint now s result s') :
    Charging limits s s' (.claim key generation checkpoint now) := by
  cases h with
  | idle => exact .free rfl rfl rfl
  | @drained swept _ _ hswept =>
    obtain ⟨bindings, hdrain⟩ := exists_stampDrain swept key swept.lastNow
    rw [hdrain]
    exact .free rfl hswept.budget hswept.lifetime
  | @took swept drained hold picks _ _ hswept hdrained =>
    obtain ⟨bindings, hdrain⟩ := exists_stampDrain swept key swept.lastNow
    obtain ⟨messages, notices, htook⟩ := exists_takeAll hold swept.lastNow picks drained
    rw [htook, hdrained, hdrain]
    exact .free rfl hswept.budget hswept.lifetime

theorem charging (limits : Limits) (s : MailboxState) (ids : IdSource) (op : Op) :
    Charging limits s (op.call limits s ids).2 op := by
  unfold Op.call
  cases op with dsimp only
  | register req judged now => exact (registration s limits req judged now ids).charging
  | forgetKey key => exact .forgot rfl rfl
  | send req now => exact (sending s limits req now ids).charging
  | admitRemote req now => exact (leaving s limits req now ids).charging
  | ingestRemote mail dead now => exact (ingesting s limits mail dead now ids).charging
  | claim key generation checkpoint now => exact (claiming s limits key generation checkpoint now ids).charging
  | finish key generation token now => exact .free rfl rfl rfl
  | noteStop key generation blocked =>
    obtain ⟨bindings, h⟩ := exists_noteStop s key generation blocked
    rw [h]
    exact .free rfl rfl rfl
  | sweep now =>
    have hswept := swept s limits now ids
    exact .free rfl hswept.budget hswept.lifetime
  | countRemoteDrop reason machine now | advanceRemoteCursor cursor | queueRemoteRefusal id code | clearRemoteRefusals told
  | markRemoteSettled told => exact .free rfl rfl rfl

/-! ### The keys of the maps -/

theorem account_ne (hne : k ≠ key) : s.account k ≠ key.text := by
  rw [account]
  split
  · intro heq
    exact hne (WriterKey.text_inj.mp heq)
  · intro heq
    have htilde : '~' ∈ key.text.toList := by
      rw [← heq]
      decide
    exact WriterKey.notMem (by decide) htilde

theorem remoteAccount_ne (machine : String) (sender key : WriterKey) : remoteAccount machine sender ≠ key.text := by
  intro heq
  have htilde : '~' ∈ key.text.toList := by
    rw [← heq, remoteAccount, String.toList_append, String.toList_append, String.toList_append]
    simp
  exact WriterKey.notMem (by decide) htilde

theorem takeWhile_lifetimeKey (key : WriterKey) (generation : Generation) :
    (lifetimeKey key generation).toList.takeWhile (· ≠ '@') = key.text.toList := by
  rw [lifetimeKey, String.toList_append, String.toList_append, append_assoc, takeWhile_append_of_pos]
  · rw [show "@".toList = ['@'] from rfl, singleton_append, takeWhile_cons_of_neg (by decide), append_nil]
  · intro c hc
    rw [decide_eq_true_eq]
    rintro rfl
    exact WriterKey.notMem (by decide) hc

theorem lifetimeKey_ne (hne : k ≠ key) (g generation : Generation) :
    lifetimeKey k g ≠ lifetimeKey key generation := by
  intro heq
  have htexts := congrArg (fun text => text.toList.takeWhile (· ≠ '@')) heq
  simp only [takeWhile_lifetimeKey] at htexts
  exact hne (WriterKey.text_inj.mp (String.toList_inj.mp htexts))

theorem remoteLifetimeKey_ne (machine : String) (sender key : WriterKey) (generation : Generation) :
    remoteLifetimeKey machine sender ≠ lifetimeKey key generation := by
  intro heq
  have htilde : '~' ∈ key.text.toList := by
    rw [← takeWhile_lifetimeKey key generation, ← heq, remoteLifetimeKey]
    rw [String.toList_append, String.toList_append, String.toList_append, String.toList_append, append_assoc,
      append_assoc, append_assoc, show "~".toList = ['~'] from rfl, singleton_append,
      takeWhile_cons_of_pos (by decide)]
    exact mem_cons_self
  exact WriterKey.notMem (by decide) htilde

/-! ### What counts for a registered head -/

/-- The attempts of a key that are kept. -/
def attemptsOf (s : MailboxState) (key : WriterKey) : List Timestamp := s.budget.getD key.text []

/-- The counted attempts of a generation. -/
def lifetimeOf (s : MailboxState) (key : WriterKey) (generation : Generation) : ℕ :=
  s.lifetime.getD (lifetimeKey key generation) 0

theorem account_of_current (h : s.currentGeneration key = some generation) : s.account key = key.text := by
  rw [currentGeneration_eq_bound, map_eq_some_iff] at h
  obtain ⟨i, hi, _⟩ := h
  rw [account, contains_eq_bound, hi, isSome_some, if_pos rfl]

theorem lifetimeOf_counted (hne : k ≠ key) (g : Option Generation) (generation : Generation) :
    (s.countedLifetime (g.map (lifetimeKey k))).getD (lifetimeKey key generation) 0 = s.lifetimeOf key generation := by
  cases g with
  | none => rfl
  | some g =>
    refine getD_insert.trans (if_neg ?_)
    intro heq
    exact lifetimeKey_ne hne g generation (compare_eq_iff_eq.mp heq)

theorem getD_filter_pos {β : Type} {t : Table β} {p : String → β → Bool} {k : String} {d : β} (h : ∀ v, p k v = true) :
    (t.filter p).getD k d = t.getD k d := by
  rw [getD_eq_getD_getElem?, getD_eq_getD_getElem?, getElem?_filter']
  cases t[k]? with
  | none => rfl
  | some v => rw [filter_some_pos (h v)]

theorem Charging.own (h : Charging limits s s' op)
    (hby : op.sendsFrom = some key) (hcurrent : s.currentGeneration key = some generation) :
    s'.attemptsOf key = attemptsWith limits (s.attemptsOf key) s'.lastNow ∧
      s'.lifetimeOf key generation = min (s.lifetimeOf key generation + 1) u32Max := by
  cases h with
  | sent hby' hbudget hlifetime =>
    rw [hby] at hby'
    cases hby'
    rw [attemptsOf, lifetimeOf, hbudget, hlifetime, account_of_current hcurrent, hcurrent]
    exact ⟨getD_insert_self, getD_insert_self⟩
  | forgot hop =>
    rw [hop] at hby
    cases hby
  | free hby' | ended hby' | landed hby' => cases hby'.symm.trans hby

/-- Nothing else counts for a generation while it lasts. -/
theorem Charging.other (h : Charging limits s s' op)
    (hby : op.sendsFrom ≠ some key) (hkeeps : ∀ key, op ≠ .forgetKey key)
    (hbefore : s.currentGeneration key = some generation) (hafter : s'.currentGeneration key = some generation) :
    s'.attemptsOf key = s.attemptsOf key ∧ s'.lifetimeOf key generation = s.lifetimeOf key generation := by
  cases h with
  | free _ hbudget hlifetime =>
    rw [attemptsOf, lifetimeOf, hbudget, hlifetime]
    exact ⟨rfl, rfl⟩
  | @ended k g _ hended hbudget hlifetime =>
    have hne : key ≠ k := by
      rintro rfl
      exact hended generation ⟨hbefore, hafter⟩
    rw [attemptsOf, lifetimeOf, hbudget, hlifetime]
    constructor
    · apply getD_filter_pos
      intro _
      exact decide_eq_true fun heq => hne (WriterKey.text_inj.mp heq)
    · apply getD_filter_pos
      intro _
      rw [lifetimeIsOf, decide_eq_false (lifetimeKey_ne hne generation g)]
      rfl
  | forgot hop => exact absurd hop (hkeeps _)
  | @sent k hby' hbudget hlifetime =>
    have hne : k ≠ key := by
      rintro rfl
      exact hby hby'
    rw [attemptsOf, lifetimeOf, hbudget, hlifetime]
    refine ⟨getD_insert.trans (if_neg ?_), lifetimeOf_counted hne _ generation⟩
    intro heq
    exact account_ne hne (compare_eq_iff_eq.mp heq)
  | @landed machine k _ hbudget hlifetime =>
    rw [attemptsOf, lifetimeOf, hbudget, hlifetime]
    refine ⟨getD_insert.trans (if_neg ?_), getD_insert.trans (if_neg ?_)⟩
    · intro heq
      exact remoteAccount_ne machine k key (compare_eq_iff_eq.mp heq)
    · intro heq
      exact remoteLifetimeKey_ne machine k key generation (compare_eq_iff_eq.mp heq)

theorem Sending.within (h : Sending limits req now s result s') (hadmits : (Answer.sent result).admits = true)
    (hcurrent : s.currentGeneration req.fromKey = some generation) :
    (s'.attemptsOf req.fromKey).length ≤ limits.sessionBudget ∧
      s'.lifetimeOf req.fromKey generation ≤ limits.sessionLifetimeCap := by
  cases h with
  | refused => cases hadmits
  | recorded _ hswept _ hadmitted hafter =>
    have hadmissible := admissible hadmitted
    rw [attemptsOf, lifetimeOf, hafter.budget, hafter.lifetime]
    rw [account_congr hswept.bindings, account_of_current hcurrent, currentGeneration_congr hswept.bindings] at hadmissible
    exact ⟨hadmissible.budget, hadmissible.lifetime generation hcurrent⟩

theorem Leaving.within {req : RemoteSend} {result : Except Refusal MessageId}
    (h : Leaving limits req now s result s') (hadmits : (Answer.leaving result).admits = true)
    (hcurrent : s.currentGeneration req.fromKey = some generation) :
    (s'.attemptsOf req.fromKey).length ≤ limits.sessionBudget ∧
      s'.lifetimeOf req.fromKey generation ≤ limits.sessionLifetimeCap := by
  cases h with
  | mk _ hswept _ hresult =>
    have hok : result.toOption.isSome = true := by
      cases result with
      | ok => rfl
      | error => cases hadmits
    obtain ⟨hbudget, hlifetime⟩ := admissibleLeaving (hresult hok)
    rw [account_congr hswept.bindings, account_of_current hcurrent] at hbudget
    rw [currentGeneration_congr hswept.bindings] at hlifetime
    exact ⟨hbudget, hlifetime generation hcurrent⟩

theorem within_of_admits {ids : IdSource}
    (hby : op.sendsFrom = some key) (hadmits : (op.call limits s ids).1.admits = true)
    (hcurrent : s.currentGeneration key = some generation) :
    ((op.call limits s ids).2.attemptsOf key).length ≤ limits.sessionBudget ∧
      (op.call limits s ids).2.lifetimeOf key generation ≤ limits.sessionLifetimeCap := by
  unfold Op.call at hadmits ⊢
  cases op with
  | send req now =>
    cases hby
    exact (sending s limits req now ids).within hadmits hcurrent
  | admitRemote req now =>
    cases hby
    exact (leaving s limits req now ids).within hadmits hcurrent
  | _ => cases hby

end MailboxState

/-! ### Runs -/

def outOfWindow (limits : Limits) (now t : Timestamp) : Bool := now.isPast t limits.humanFallbackWindowSec

theorem outOfWindow_monotone (limits : Limits) : RollingWindow.Monotone (outOfWindow limits) :=
  fun h hnow ht => Timestamp.isPast_mono h hnow ht

theorem attemptsWith_eq (limits : Limits) (attempts : List Timestamp) (now : Timestamp) :
    MailboxState.attemptsWith limits attempts now = RollingWindow.push (outOfWindow limits) (limits.sessionBudget + 1) attempts now := rfl

/-- Attempts are kept in the order of their times. -/
def MailboxState.Paced (s : MailboxState) : Prop :=
  ∀ (account : Account) (attempts : List Timestamp), s.budget[account]? = some attempts → attempts.Pairwise (· ≤ ·) ∧ ∀ t ∈ attempts, t ≤ s.lastNow

section

variable {limits : Limits} {steps past term : List Step} {s s' : MailboxState} {key : WriterKey}
  {generation : Generation}

theorem MailboxState.Paced.getD (h : s.Paced) (account : Account) :
    (s.budget.getD account []).Pairwise (· ≤ ·) ∧ ∀ t ∈ s.budget.getD account [], t ≤ s.lastNow := by
  rw [getD_eq_getD_getElem?]
  cases hattempts : s.budget[account]? with
  | none => exact ⟨List.Pairwise.nil, fun t ht => by cases ht⟩
  | some attempts => exact h account attempts hattempts

theorem MailboxState.Paced.insert (h : s.Paced) (hclock : s.lastNow ≤ s'.lastNow) {account : Account}
    (hbudget : s'.budget = s.budget.insert account (MailboxState.attemptsWith limits (s.budget.getD account []) s'.lastNow)) :
    s'.Paced := by
  intro a attempts ha
  rw [hbudget, Std.ExtTreeMap.getElem?_insert] at ha
  split at ha
  · cases ha
    obtain ⟨hsorted, hnow⟩ := h.getD account
    have htracks : RollingWindow.Tracks (outOfWindow limits) (limits.sessionBudget + 1) s'.lastNow
        (s.budget.getD account []) (s.budget.getD account []) :=
      .refl hsorted fun t ht => (hnow t ht).trans hclock
    have hall := htracks.push (outOfWindow_monotone limits)
    have hsublist := RollingWindow.push_sublist (outOfWindow limits) (limits.sessionBudget + 1)
      (s.budget.getD account []) s'.lastNow
    exact ⟨hall.sorted.sublist hsublist, fun t ht => hall.le_now t (hsublist.subset ht)⟩
  · obtain ⟨hsorted, hnow⟩ := h a attempts ha
    exact ⟨hsorted, fun t ht => (hnow t ht).trans hclock⟩

theorem MailboxState.Paced.filter (h : s.Paced) (hclock : s.lastNow ≤ s'.lastNow) {p : Account → List Timestamp → Bool}
    (hbudget : s'.budget = s.budget.filter p) : s'.Paced := by
  intro account attempts ha
  rw [hbudget, getElem?_filter'] at ha
  obtain ⟨hsorted, hnow⟩ := h account attempts (filter_eq_some_iff.mp ha).1
  exact ⟨hsorted, fun t ht => (hnow t ht).trans hclock⟩

theorem Run.paced (hrun : Run limits steps s) : s.Paced := by
  induction hrun with
  | nil =>
    intro account attempts ha
    cases ha
  | @snoc steps s _ op ids ih =>
    have hclock := MailboxState.lastNow_le_call limits s ids op
    have hcall := MailboxState.charging limits s ids op
    generalize (op.call limits s ids).2 = s' at hcall hclock ⊢
    cases hcall with
    | free _ hbudget =>
      intro account attempts ha
      rw [hbudget] at ha
      obtain ⟨hsorted, hnow⟩ := ih account attempts ha
      exact ⟨hsorted, fun t ht => (hnow t ht).trans hclock⟩
    | ended _ _ hbudget | forgot _ hbudget => exact ih.filter hclock hbudget
    | sent _ hbudget | landed _ hbudget => exact ih.insert hclock hbudget

def Step.attempts (key : WriterKey) (step : Step) : Bool := step.op.sendsFrom = some key

def Step.admits (key : WriterKey) (step : Step) : Bool := step.attempts key && step.answer.admits

/-- Whether the key is registered at the generation throughout the steps. -/
def Holding (key : WriterKey) (generation : Generation) (term : List Step) : Prop :=
  ∀ step ∈ term, step.before.currentGeneration key = some generation ∧
    step.after.currentGeneration key = some generation

/-- The times of the sends of the key. -/
def attemptTimes (key : WriterKey) (term : List Step) : List Timestamp :=
  (term.filter (Step.attempts key)).map fun step => step.after.lastNow

/-- What the record counts for a generation while it lasts; `first` is what it counted for the key before. -/
structure Counted (limits : Limits) (key : WriterKey) (generation : Generation) (first : List Timestamp)
    (term : List Step) (s : MailboxState) : Prop where
  tracks : RollingWindow.Tracks (outOfWindow limits) (limits.sessionBudget + 1) s.lastNow (first ++ attemptTimes key term)
    (s.attemptsOf key)
  lifetime : min (term.countP (Step.attempts key)) u32Max ≤ s.lifetimeOf key generation

theorem attemptTimes_snoc (key : WriterKey) (term : List Step) (step : Step) : attemptTimes key (term ++ [step]) =
    attemptTimes key term ++ if step.attempts key then [step.after.lastNow] else [] := by
  rw [attemptTimes, filter_append, map_append, filter_singleton]
  cases step.attempts key <;> rfl

theorem Counted.snoc {first : List Timestamp} (h : Counted limits key generation first term s) {op : Op} {ids : IdSource}
    (hbefore : s.currentGeneration key = some generation)
    (hafter : (op.call limits s ids).2.currentGeneration key = some generation) (hkeeps : ∀ key, op ≠ .forgetKey key) :
    Counted limits key generation first (term ++ [op.step limits s ids]) (op.call limits s ids).2 := by
  have hclock := MailboxState.lastNow_le_call limits s ids op
  have hcall := MailboxState.charging limits s ids op
  have htracks := h.tracks.later (outOfWindow_monotone limits) hclock
  by_cases hby : op.sendsFrom = some key
  · have hattempts : (op.step limits s ids).attempts key = true := decide_eq_true hby
    obtain ⟨hown, hlifetime⟩ := hcall.own hby hbefore
    constructor
    · rw [attemptTimes_snoc, hattempts, if_pos rfl, ← append_assoc, hown, attemptsWith_eq]
      exact htracks.push (outOfWindow_monotone limits)
    · have hcounted := h.lifetime
      rw [countP_append, countP_singleton, hattempts, if_pos rfl, hlifetime]
      omega
  · have hattempts : (op.step limits s ids).attempts key = false := decide_eq_false hby
    obtain ⟨hother, hlifetime⟩ := hcall.other hby hkeeps hbefore hafter
    constructor
    · rw [attemptTimes_snoc, hattempts, if_neg Bool.false_ne_true, append_nil, hother]
      exact htracks
    · rw [countP_append, countP_singleton, hattempts, if_neg Bool.false_ne_true, Nat.add_zero, hlifetime]
      exact h.lifetime

theorem exists_counted (hrun : Run limits (past ++ term) s) (hkeeps : ∀ step ∈ term, ∀ key, step.op ≠ .forgetKey key)
    (hholding : Holding key generation term) : ∃ first, Counted limits key generation first term s := by
  induction term using reverseRecOn generalizing s with
  | nil =>
    rw [append_nil] at hrun
    obtain ⟨hsorted, hnow⟩ := hrun.paced.getD key.text
    refine ⟨s.attemptsOf key, ?_, Nat.zero_le _⟩
    rw [attemptTimes, filter_nil, map_nil, append_nil]
    exact .refl hsorted hnow
  | append_singleton term step ih =>
    rw [← append_assoc] at hrun
    obtain ⟨before, op, ids, hbefore, rfl, rfl⟩ := hrun.exists_last
    obtain ⟨first, hcounted⟩ := ih hbefore (fun step hstep => hkeeps step (mem_append_left _ hstep))
      fun step hstep => hholding step (mem_append_left _ hstep)
    have hlast := mem_append_right term (mem_singleton_self (op.step limits before ids))
    obtain ⟨hcurrent, hcurrent'⟩ := hholding _ hlast
    exact ⟨first, hcounted.snoc hcurrent hcurrent' (hkeeps _ hlast)⟩

def admittedInWindow (limits : Limits) (key : WriterKey) (since : ℕ) (step : Step) : Bool :=
  step.admits key && decide (since ≤ step.after.lastNow.val ∧
    step.after.lastNow.val ≤ since + limits.humanFallbackWindowSec * 1000)

theorem attempts_of_admits {step : Step} (h : step.admits key = true) : step.attempts key = true := by
  rw [Step.admits, Bool.and_eq_true] at h
  exact h.1

theorem countP_admittedInWindow_le (limits : Limits) (key : WriterKey) (since : ℕ) (term : List Step) :
    term.countP (admittedInWindow limits key since) ≤ (attemptTimes key term).countP fun t => since ≤ t.val := by
  rw [attemptTimes, countP_map, countP_filter]
  apply countP_mono_left
  intro step _ hstep
  rw [admittedInWindow, Bool.and_eq_true] at hstep
  obtain ⟨hadmits, hwindow⟩ := hstep
  rw [Bool.and_eq_true]
  exact ⟨decide_eq_true (of_decide_eq_true hwindow).1, attempts_of_admits hadmits⟩

/-- While a generation lasts, no more of its sends are admitted in any rolling window than the budget allows. -/
theorem Run.admittedInWindow_le (hrun : Run limits (past ++ term) s) (hkeeps : ∀ step ∈ term, ∀ key, step.op ≠ .forgetKey key)
    (hholding : Holding key generation term) (since : ℕ) :
    term.countP (admittedInWindow limits key since) ≤ limits.sessionBudget := by
  induction term using reverseRecOn generalizing s with
  | nil => exact Nat.zero_le _
  | append_singleton term step ih =>
    obtain ⟨first, hcounted⟩ := exists_counted hrun hkeeps hholding
    rw [← append_assoc] at hrun
    obtain ⟨before, op, ids, hbefore, rfl, rfl⟩ := hrun.exists_last
    have hlast := mem_append_right term (mem_singleton_self (op.step limits before ids))
    by_cases hadmitted : admittedInWindow limits key since (op.step limits before ids) = true
    · have hcount := countP_admittedInWindow_le limits key since (term ++ [op.step limits before ids])
      rw [admittedInWindow, Bool.and_eq_true] at hadmitted
      obtain ⟨hadmits, hwindow⟩ := hadmitted
      replace hwindow := (of_decide_eq_true hwindow).2
      rw [Step.admits, Bool.and_eq_true] at hadmits
      have hwithin : ((op.call limits before ids).2.attemptsOf key).length ≤ limits.sessionBudget :=
        (MailboxState.within_of_admits (of_decide_eq_true hadmits.1) hadmits.2 (hholding _ hlast).1).1
      -- everything attempted since the begin of the window is in it still, and is counted
      have hin : ((attemptTimes key (term ++ [op.step limits before ids])).countP fun t => since ≤ t.val) ≤
          (first ++ attemptTimes key (term ++ [op.step limits before ids])).countP fun t =>
            !outOfWindow limits (op.call limits before ids).2.lastNow t := by
        rw [countP_append]
        refine (countP_mono_left ?_).trans (Nat.le_add_left _ _)
        intro t _ ht
        replace hwindow : (op.call limits before ids).2.lastNow.val ≤ since + limits.humanFallbackWindowSec * 1000 := hwindow
        have hsince := of_decide_eq_true ht
        have hinside : outOfWindow limits (op.call limits before ids).2.lastNow t = false := by
          rw [outOfWindow, Timestamp.isPast_eq_false]
          omega
        rw [hinside]
        rfl
      have hkept := hcounted.tracks.countP_le (Nat.lt_succ_of_le hwithin)
      omega
    · rw [countP_append, countP_singleton, if_neg hadmitted, Nat.add_zero]
      exact ih hbefore (fun step hstep => hkeeps step (mem_append_left _ hstep))
        fun step hstep => hholding step (mem_append_left _ hstep)

theorem Run.admits_le (hrun : Run limits (past ++ term) s) (hkeeps : ∀ step ∈ term, ∀ key, step.op ≠ .forgetKey key)
    (hholding : Holding key generation term) (hcap : limits.sessionLifetimeCap < u32Max) :
    term.countP (Step.admits key) ≤ limits.sessionLifetimeCap := by
  induction term using reverseRecOn generalizing s with
  | nil => exact Nat.zero_le _
  | append_singleton term step ih =>
    obtain ⟨first, hcounted⟩ := exists_counted hrun hkeeps hholding
    rw [← append_assoc] at hrun
    obtain ⟨before, op, ids, hbefore, rfl, rfl⟩ := hrun.exists_last
    have hlast := mem_append_right term (mem_singleton_self (op.step limits before ids))
    by_cases hadmits : (op.step limits before ids).admits key = true
    · have hattempts : (term ++ [op.step limits before ids]).countP (Step.admits key) ≤
          (term ++ [op.step limits before ids]).countP (Step.attempts key) :=
        countP_mono_left fun step _ hstep => attempts_of_admits hstep
      rw [Step.admits, Bool.and_eq_true] at hadmits
      have hwithin : (op.call limits before ids).2.lifetimeOf key generation ≤ limits.sessionLifetimeCap :=
        (MailboxState.within_of_admits (of_decide_eq_true hadmits.1) hadmits.2 (hholding _ hlast).1).2
      have hlifetime := hcounted.lifetime
      omega
    · rw [countP_append, countP_singleton, if_neg hadmits, Nat.add_zero]
      exact ih hbefore (fun step hstep => hkeeps step (mem_append_left _ hstep))
        fun step hstep => hholding step (mem_append_left _ hstep)

end

end Forgent.Mailbox
