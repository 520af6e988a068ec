import Forgent.Mailbox.LifeCycle

/-!
# Who holds an address

An address is a writer key with a generation.  A takeover counts the generation up, but a key whose head moved to
another key keeps no number: the next head to register it begins again, and may be given a number that was in use.
-/

namespace Forgent.Mailbox

open List Option Function

/-! ### Holders -/

def Holds (s : MailboxState) (key : WriterKey) (generation : Generation) (head : String) : Prop :=
  ∃ i, s.bound key = some i ∧ i.generation = generation ∧ i.head = head

def Held (steps : List Step) (key : WriterKey) (generation : Generation) (head : String) : Prop :=
  ∃ step ∈ steps, Holds step.after key generation head

def Registered.generation : Registered → Generation
  | .created _ generation | .refreshed _ generation | .replaced _ generation => generation

def Told (steps : List Step) (key : WriterKey) (generation : Generation) (head : String) : Prop :=
  ∃ step ∈ steps, ∃ req judged now registered, step.op = .register req judged now ∧
    step.answer = .registered (.ok registered) ∧ req.key = key ∧ req.head = head ∧ registered.generation = generation

/-- The store's judgement says the same head exactly when the texts are the same. -/
def Step.Truthful (step : Step) : Prop :=
  ∀ req judged now i, step.op = .register req (some judged) now → step.before.bound req.key = some i →
    (judged.sameHead = true ↔ i.head = req.head)

/-- The number a registration binds its key under: one more than that of the binding stored for the key, or else
than that of the binding its head has under another key, or else the first. -/
def MailboxState.nextNumber (s : MailboxState) (req : RegisterRequest) : ℕ :=
  ((s.bindings[req.key]?.or (s.bindingList.find? fun b => b.head = req.head)).elim 0 fun b => b.generation.val) + 1

/-- A registration that binds its key does so under a number that no other head held the key under. -/
def Step.Unused (past : List Step) (step : Step) : Prop :=
  ∀ req judged now, step.op = .register req judged now → (∀ j, judged = some j → j.sameHead = false ∧ j.liveness = .dead) →
    ∀ generation head, Held past req.key generation head → generation.val = step.before.nextNumber req →
      head = req.head

/-- No address is held by two heads. -/
def OneHolder (steps : List Step) : Prop :=
  ∀ key generation head head', Held steps key generation head → Held steps key generation head' → head = head'

/-- Two notices that differ in their state at most. -/
def Notice.Same (n n' : Notice) : Prop := { n with state := .recorded } = { n' with state := .recorded }

def Records (limits : Limits) (steps : List Step) (record : Step) (key : WriterKey) (generation : Generation)
    (item : ClaimedItem) : Prop :=
  match item.what with
  | .mail _ => ∃ h history, Life limits steps record h history ∧ h.id = item.id ∧ h.toKey = key ∧
      h.toGeneration = generation
  | .notice _ => ∃ n, n.id = item.id ∧ n.toKey = key ∧ n.toGeneration = generation ∧
      (∃ n' ∈ record.after.notices, n'.Same n) ∧ ∀ n' ∈ record.before.notices, ¬n'.Same n

/-- Whatever a head claims was recorded while the address was its own. -/
def MailStays (limits : Limits) (steps : List Step) : Prop :=
  ∀ past step rest key generation checkpoint now claim head, steps = past ++ step :: rest →
    step.op = .claim key generation checkpoint now → step.answer = .claimed claim → Told past key generation head →
    ∀ item ∈ claim.items, ∃ record ∈ past ++ [step], Records limits (past ++ [step]) record key generation item ∧
      Holds record.before key generation head

/-! ### Runs -/

section

variable {limits : Limits} {steps past rest : List Step} {step : Step} {s : MailboxState} {key : WriterKey}
  {head : String}

variable {generation : Generation}

theorem Held.mono (h : Held past key generation head)
    (hsub : past ⊆ steps) : Held steps key generation head := by
  obtain ⟨step, hstep, hholds⟩ := h
  exact ⟨step, hsub hstep, hholds⟩

theorem Run.held (hrun : Run limits steps s)
    (h : Holds s key generation head) : Held steps key generation head := by
  cases hrun with
  | nil =>
    obtain ⟨i, hi, _⟩ := h
    cases hi
  | snoc hrun op ids => exact ⟨_, mem_append_right _ (mem_singleton_self _), h⟩

/-- What a call binds anew, it binds under the next number; everything else it leaves. -/
theorem holds_call {op : Op} {ids : IdSource}
    (h : Holds (op.call limits s ids).2 key generation head) : Holds s key generation head ∨
      ∃ req judged now, op = .register req judged now ∧
        (∀ j, judged = some j → j.sameHead = false ∧ j.liveness = .dead) ∧ key = req.key ∧ head = req.head ∧
        generation.val = s.nextNumber req := by
  obtain ⟨i, hi, hgeneration, hhead⟩ := h
  have hcall := s.rebinding limits ids op
  generalize (op.call limits s ids).1 = answer at hcall
  generalize (op.call limits s ids).2 = s' at hcall hi
  cases hcall with
  | kept _ _ hbound =>
    rw [hbound] at hi
    exact .inl ⟨i, hi, hgeneration, hhead⟩
  | forgot key' _ hbound =>
    rw [hbound] at hi
    exact .inl ⟨i, (eq_some_of_update_none hi).2, hgeneration, hhead⟩
  | @created req name now hunbound hfits hname hfree hbound =>
    rw [hbound] at hi
    rcases eq_some_of_update hi with ⟨rfl, rfl⟩ | ⟨_, hi⟩
    · refine .inr ⟨req, none, now, rfl, nofun, rfl, hhead.symm, ?_⟩
      rw [← hgeneration, MailboxState.nextNumber, MailboxState.bound_eq_none.mp hunbound, none_or]
      have hnone : (s.bindingList.find? fun b => b.head = req.head) = none := by
        rw [find?_eq_none]
        intro b hb heq
        obtain ⟨k, hk⟩ := MailboxState.exists_bound_of_mem hb
        exact hfree k _ hk (of_decide_eq_true heq)
      rw [hnone]
      rfl
    · exact .inl ⟨i, hi, hgeneration, hhead⟩
  | @moved req name k₀ held j g now hunbound hfits hname hheld hkey hfind hsame hnext hbound =>
    rw [hbound] at hi
    rcases eq_some_of_update (eq_some_of_update_none hi).2 with ⟨rfl, rfl⟩ | ⟨_, hi⟩
    · refine .inr ⟨req, none, now, rfl, nofun, rfl, hhead.symm, ?_⟩
      obtain ⟨b, hb, hj⟩ := map_eq_some_iff.mp hfind
      rw [← hgeneration, MailboxState.nextNumber, MailboxState.bound_eq_none.mp hunbound, none_or, hb]
      rw [← hj] at hnext
      exact Generation.next_eq_some.mp hnext
    · exact .inl ⟨i, hi, hgeneration, hhead⟩
  | @replaced req judged j g now hold hother hdead hnext hbound =>
    rw [hbound] at hi
    rcases eq_some_of_update hi with ⟨rfl, rfl⟩ | ⟨_, hi⟩
    · refine .inr ⟨req, some judged, now, rfl, ?_, rfl, hhead.symm, ?_⟩
      · intro j' hj'
        cases hj'
        exact ⟨hother, hdead⟩
      · obtain ⟨b, hb, hj⟩ := MailboxState.bound_eq_some.mp hold
        rw [← hgeneration, MailboxState.nextNumber, hb, some_or]
        rw [← hj] at hnext
        exact Generation.next_eq_some.mp hnext
    · exact .inl ⟨i, hi, hgeneration, hhead⟩

/-- Every step whose registration takes an unused number keeps one holder per address. -/
theorem oneHolder (hrun : Run limits steps s)
    (hunused : ∀ past step rest, steps = past ++ step :: rest → step.Unused past) : OneHolder steps := by
  induction hrun with
  | nil =>
    intro key generation head head' h
    obtain ⟨step, hstep, _⟩ := h
    cases hstep
  | @snoc steps s hrun op ids ih =>
    have hpast := ih <| by
      intro past step rest heq
      exact hunused past step (rest ++ [op.step limits s ids]) (by rw [heq, append_assoc]; rfl)
    have hlast := hunused steps (op.step limits s ids) [] rfl
    -- whoever holds an address now held it before, or is given it under a number no other head had
    have hnew {key : WriterKey} {generation : Generation} {head : String}
        (h : Holds (op.call limits s ids).2 key generation head) :
        ∀ head', Held steps key generation head' → head' = head := by
      intro head' h'
      rcases holds_call h with hold | ⟨req, judged, now, hop, hjudged, rfl, rfl, hnumber⟩
      · exact hpast _ _ _ _ h' (hrun.held hold)
      · exact hlast req judged now hop hjudged generation head' h' hnumber
    intro key generation head head' ⟨step, hstep, h⟩ ⟨step', hstep', h'⟩
    rcases mem_append.mp hstep with hstep | hstep
    · rcases mem_append.mp hstep' with hstep' | hstep'
      · exact hpast _ _ _ _ ⟨step, hstep, h⟩ ⟨step', hstep', h'⟩
      · rw [mem_singleton.mp hstep'] at h'
        exact hnew h' _ ⟨step, hstep, h⟩
    · rw [mem_singleton.mp hstep] at h
      rcases mem_append.mp hstep' with hstep' | hstep'
      · exact (hnew h _ ⟨step', hstep', h'⟩).symm
      · rw [mem_singleton.mp hstep'] at h'
        obtain ⟨i, hi, _, rfl⟩ := h
        obtain ⟨i', hi', _, rfl⟩ := h'
        exact congrArg Identity.head (some.inj (hi.symm.trans hi'))

end

/-! ### Mail -/

namespace Notice

theorem Same.refl (n : Notice) : n.Same n := rfl

variable {n n' : Notice}

theorem Same.trans {n'' : Notice} (h : n.Same n') (h' : n'.Same n'') : n.Same n'' := Eq.trans h h'

theorem Same.symm (h : n.Same n') : n'.Same n := Eq.symm h

theorem Same.address (h : n.Same n') : n.id = n'.id ∧ n.toKey = n'.toKey ∧ n.toGeneration = n'.toGeneration :=
  ⟨(congrArg Notice.id h :), (congrArg Notice.toKey h :), (congrArg Notice.toGeneration h :)⟩

theorem same_hold (hold : Hold) (n : Notice) : n.Same (n.hold hold) := rfl

end Notice

namespace MailboxState

variable {s s' swept : MailboxState} {limits : Limits} {now : Timestamp} {n : Notice}

/-- Where a notice of the record after a call comes from: an earlier one, or the sweep, which addresses it to a
current generation. -/
def Noticed (s : MailboxState) (n : Notice) : Prop :=
  (∃ n' ∈ s.notices, n'.Same n) ∨ s.currentGeneration n.toKey = some n.toGeneration

theorem Swept.noticed (h : Swept limits now s swept) (hn : n ∈ swept.notices) : s.Noticed n := by
  rcases h.notices n hn with hold | ⟨_, hcurrent⟩
  · exact .inl ⟨n, hold, .refl n⟩
  · exact .inr hcurrent

theorem noticed_of_mem (hn : n ∈ s.notices) : s.Noticed n := .inl ⟨n, hn, .refl n⟩

theorem Registration.noticed {req : RegisterRequest} {judged : Option StoredHead}
    {result : Except RegisterRefusal Registered} (h : Registration limits req now s judged result s')
    (hn : n ∈ s'.notices) : s.Noticed n := by
  cases h with
  | refused | refreshed => exact noticed_of_mem hn
  | created hswept | replaced hswept => exact hswept.noticed hn
  | moved hswept =>
    obtain ⟨_, _, _, _, _, hretire⟩ := exists_retire (create _ req _ _ _) _
    rw [hretire] at hn
    exact hswept.noticed hn

theorem Sending.noticed {req : SendRequest} {result : Except Refusal SendOutcome}
    (h : Sending limits req now s result s') (hn : n ∈ s'.notices) : s.Noticed n := by
  cases h with
  | refused hswept htried =>
    rw [htried] at hn
    exact hswept.noticed hn
  | recorded _ hswept htried _ hafter =>
    rw [hafter.notices, htried] at hn
    exact hswept.noticed hn

theorem Leaving.noticed {req : RemoteSend} {result : Except Refusal MessageId}
    (h : Leaving limits req now s result s') (hn : n ∈ s'.notices) : s.Noticed n := by
  cases h with
  | mk _ hswept htried =>
    rw [htried] at hn
    exact hswept.noticed hn

theorem Ingesting.noticed {mail : RemoteMail} {dead : List WriterKey} {result : Except Refusal Ingested}
    (h : Ingesting limits mail dead now s result s') (hn : n ∈ s'.notices) : s.Noticed n := by
  cases h with
  | duplicate hswept => exact hswept.noticed hn
  | refused hswept _ htried =>
    rw [htried] at hn
    exact hswept.noticed hn
  | recorded _ hswept _ htried _ hafter =>
    rw [hafter.notices, htried] at hn
    exact hswept.noticed hn

theorem exists_same_of_takeAll {hold : Hold} {picks : List Pick} (s : MailboxState)
    (hn : n ∈ (takeAll hold now picks s).2.notices) : ∃ n' ∈ s.notices, n'.Same n := by
  induction picks generalizing s with
  | nil => exact ⟨n, hn, .refl n⟩
  | cons pick picks ih =>
    obtain ⟨n', hn', hsame⟩ := ih _ hn
    cases pick with
    | message i => exact ⟨n', hn', hsame⟩
    | notice i =>
      have hevolves : Evolves Notice.Same (fun _ => False) s.notices (s.notices.modify i (Notice.hold hold)) :=
        Evolves.modify Notice.Same.refl fun a _ => a.same_hold hold
      obtain ⟨n₀, hn₀, hsame₀⟩ := hevolves.exists_of_mem hn'
      exact ⟨n₀, hn₀, hsame₀.trans hsame⟩

theorem Claiming.noticed {key : WriterKey} {generation : Generation} {checkpoint : Checkpoint} {result : Claim}
    (h : Claiming limits key generation checkpoint now s result s') (hn : n ∈ s'.notices) : s.Noticed n := by
  cases h with
  | idle => exact noticed_of_mem hn
  | @drained swept _ _ hswept =>
    obtain ⟨bindings, hdrain⟩ := exists_stampDrain swept key swept.lastNow
    rw [hdrain] at hn
    exact hswept.noticed hn
  | @took swept drained hold picks _ _ hswept hdrained =>
    obtain ⟨bindings, hdrain⟩ := exists_stampDrain swept key swept.lastNow
    obtain ⟨n', hn', hsame⟩ := exists_same_of_takeAll drained hn
    rw [hdrained, hdrain] at hn'
    rcases hswept.noticed hn' with ⟨n₀, hn₀, hsame₀⟩ | hcurrent
    · exact .inl ⟨n₀, hn₀, hsame₀.trans hsame⟩
    · obtain ⟨_, hkey, hgeneration⟩ := hsame.address
      rw [hkey, hgeneration] at hcurrent
      exact .inr hcurrent

theorem noticed (limits : Limits) (s : MailboxState) (ids : IdSource) (op : Op)
    (hn : n ∈ (op.call limits s ids).2.notices) : s.Noticed n := by
  unfold Op.call at hn
  cases op with dsimp only at hn
  | register req judged now => exact (registration s limits req judged now ids).noticed hn
  | forgetKey key | finish key generation token now => exact noticed_of_mem (mem_of_mem_filter hn)
  | send req now => exact (sending s limits req now ids).noticed hn
  | admitRemote req now => exact (leaving s limits req now ids).noticed hn
  | ingestRemote mail dead now => exact (ingesting s limits mail dead now ids).noticed hn
  | claim key generation checkpoint now => exact (claiming s limits key generation checkpoint now ids).noticed hn
  | noteStop key generation blocked =>
    obtain ⟨bindings, h⟩ := exists_noteStop s key generation blocked
    rw [h] at hn
    exact noticed_of_mem hn
  | sweep now => exact (swept s limits now ids).noticed hn
  | countRemoteDrop reason machine now | advanceRemoteCursor cursor | queueRemoteRefusal id code | clearRemoteRefusals told
  | markRemoteSettled told => exact noticed_of_mem hn

end MailboxState

section

variable {limits : Limits} {steps past : List Step} {step : Step} {s : MailboxState} {key : WriterKey}
  {s' : MailboxState} {op : Op} {checkpoint : Checkpoint} {now : Timestamp} {item : ClaimedItem}

variable {generation : Generation}

theorem holds_of_currentGeneration
    (h : s.currentGeneration key = some generation) : ∃ head, Holds s key generation head := by
  rw [MailboxState.currentGeneration_eq_bound, map_eq_some_iff] at h
  obtain ⟨i, hi, hgeneration⟩ := h
  exact ⟨i.head, i, hi, hgeneration, rfl⟩

theorem holds_of_recording {header : Header} (hnamed : Named limits s.bound)
    (h : MailboxState.Recording limits s s' op header) : ∃ head, Holds s header.toKey header.toGeneration head := by
  have hrecipient {tried : MailboxState} {b : Binding} (hbound : tried.bound = s.bound) (hb : b ∈ tried.bindingList) :
      ∃ head, Holds s b.key b.generation head := by
    obtain ⟨k, hk⟩ := MailboxState.exists_bound_of_mem hb
    rw [hbound] at hk
    have hkey : b.key = k := hnamed.key hk
    exact ⟨b.head, b.identity, hkey ▸ hk, rfl, rfl⟩
  cases h with
  | sent now hswept htried hadmitted =>
    obtain ⟨b, hb, hkey, hgeneration⟩ := (MailboxState.admissible hadmitted).recipient
    have hbound := hrecipient (by rw [htried]; exact MailboxState.bound_congr hswept.bindings) hb
    rw [← hkey, ← hgeneration] at hbound
    exact hbound
  | landed now hswept _ htried hadmitted =>
    have hb := (MailboxState.admissibleMail hadmitted).bound
    exact hrecipient (by rw [htried]; exact MailboxState.bound_congr hswept.bindings)
      (MailboxState.mem_bindingList.mpr ⟨_, hb⟩)

/-- A head that was told an address held it. -/
theorem Told.held (hrun : Run limits steps s) (htruthful : ∀ step ∈ steps, step.Truthful) {head : String} (h : Told steps key generation head) : Held steps key generation head := by
  obtain ⟨step, hstep, req, judged, now, registered, hop, hanswer, rfl, rfl, rfl⟩ := h
  refine ⟨step, hstep, ?_⟩
  have htrue := htruthful step hstep
  obtain ⟨past, rest, rfl⟩ := append_of_mem hstep
  obtain ⟨op, ids, hbefore, heq⟩ := hrun.before
  have hnamed := hbefore.named
  rw [heq] at hop hanswer htrue ⊢
  have hcall := step.before.rebinding limits ids op
  replace hop : op = .register req judged now := hop
  replace hanswer : (op.call limits step.before ids).1 = .registered (.ok registered) := hanswer
  show Holds (op.call limits step.before ids).2 _ _ _
  rw [hanswer] at hcall
  generalize (op.call limits step.before ids).2 = s' at hcall ⊢
  subst hop
  cases hcall with
  | kept _ _ hbound hrefreshed hwrites =>
    cases registered with
    | created name generation => exact absurd rfl (hwrites name generation).1
    | replaced name generation => exact absurd rfl (hwrites name generation).2
    | refreshed name generation =>
      obtain ⟨req', judged', now', i, hop, hsame, hi, rfl⟩ := hrefreshed name generation rfl
      cases hop
      have hhead := (htrue req judged' now i rfl hi).mp hsame
      exact ⟨i, by rw [hbound]; exact hi, rfl, hhead⟩
  | created _ hunbound _ _ _ hbound | replaced _ hold _ _ _ hbound => exact ⟨_, (congrFun hbound _).trans (update_self ..), rfl, rfl⟩
  | @moved _ _ _ held _ _ _ hunbound _ _ hheld hkey _ _ _ hbound =>
    have hne : req.key ≠ held := by
      rintro rfl
      rw [hnamed.key hheld] at hkey
      rw [hkey, hunbound] at hheld
      cases hheld
    exact ⟨_, (congrFun hbound _).trans ((update_of_ne hne ..).trans (update_self ..)), rfl, rfl⟩

theorem exists_noticed (hrun : Run limits steps s) : ∀ n ∈ s.notices, ∃ record ∈ steps,
    ((∃ n' ∈ record.after.notices, n'.Same n) ∧ ∀ n' ∈ record.before.notices, ¬n'.Same n) ∧
      record.before.currentGeneration n.toKey = some n.toGeneration := by
  induction hrun with
  | nil =>
    intro n hn
    cases hn
  | @snoc steps s _ op ids ih =>
    intro n hn
    by_cases hold : ∃ n' ∈ s.notices, n'.Same n
    · obtain ⟨n', hn', hsame⟩ := hold
      obtain ⟨record, hrecord, ⟨⟨m, hm, hmsame⟩, habsent⟩, hcurrent⟩ := ih n' hn'
      obtain ⟨_, hkey, hgeneration⟩ := hsame.address
      refine ⟨record, mem_append_left _ hrecord, ⟨⟨m, hm, hmsame.trans hsame⟩, ?_⟩, ?_⟩
      · intro m' hm' hsame'
        exact habsent m' hm' (hsame'.trans hsame.symm)
      · rw [← hkey, ← hgeneration]
        exact hcurrent
    · refine ⟨_, mem_append_right _ (mem_singleton_self _), ⟨⟨n, hn, .refl n⟩, ?_⟩, ?_⟩
      · intro n' hn' hsame
        exact hold ⟨n', hn', hsame⟩
      · exact (MailboxState.noticed limits s ids op hn).resolve_left hold

/-- What a claim gives out, the record holds, for the address of the claim. -/
theorem MailboxState.Claiming.given {s : MailboxState} {key : WriterKey} {result : Claim}
    (h : MailboxState.Claiming limits key generation checkpoint now s result s') (hitem : item ∈ result.items) :
    match item.what with
    | .mail _ => ∃ h ∈ s'.messages, h.id = item.id ∧ h.toKey = key ∧ h.toGeneration = generation
    | .notice _ => ∃ n ∈ s'.notices, n.id = item.id ∧ n.toKey = key ∧ n.toGeneration = generation := by
  cases h with
  | idle | drained => cases hitem
  | @took swept drained hold picks _ _ _ _ hhold hpicks =>
    have hnodup : picks.Nodup := by
      rw [hpicks]
      exact (MailboxState.nodup_eligiblePicks ..).sublist (MailboxState.select_sublist ..)
    obtain ⟨pick, hpick, htook⟩ := MailboxState.exists_pick_of_mem hnodup drained hitem
    rw [hpicks] at hpick
    cases pick with
    | message i =>
      obtain ⟨header, hheader, rfl, hafter⟩ := htook
      obtain ⟨header', hheader', heligible⟩ := MailboxState.eligible_of_pick hpick
      rw [hheader] at hheader'
      cases hheader'
      rw [eligible, Bool.and_eq_true, Bool.and_eq_true, Bool.and_eq_true] at heligible
      obtain ⟨⟨⟨_, hkey⟩, hgeneration⟩, _⟩ := heligible
      exact ⟨_, mem_of_getElem? hafter, rfl, of_decide_eq_true hkey, of_decide_eq_true hgeneration⟩
    | notice i =>
      obtain ⟨n, hn, rfl, hafter⟩ := htook
      obtain ⟨n', hn', heligible⟩ := MailboxState.noticeEligible_of_pick hpick
      rw [hn] at hn'
      cases hn'
      rw [noticeEligible, Bool.and_eq_true, Bool.and_eq_true, Bool.and_eq_true] at heligible
      obtain ⟨⟨_, hkey⟩, hgeneration⟩ := heligible
      exact ⟨_, mem_of_getElem? hafter, rfl, of_decide_eq_true hkey, of_decide_eq_true hgeneration⟩

theorem given_of_step {ids : IdSource}
    {claim : Claim} (hop : (op.step limits s ids).op = .claim key generation checkpoint now)
    (hanswer : (op.step limits s ids).answer = .claimed claim) (hitem : item ∈ claim.items) : match item.what with
    | .mail _ => ∃ h ∈ (op.call limits s ids).2.messages, h.id = item.id ∧ h.toKey = key ∧ h.toGeneration = generation
    | .notice _ => ∃ n ∈ (op.call limits s ids).2.notices, n.id = item.id ∧ n.toKey = key ∧
        n.toGeneration = generation := by
  replace hop : op = .claim key generation checkpoint now := hop
  subst hop
  replace hanswer : Answer.claimed (s.claim limits key generation checkpoint now ids).1 = .claimed claim := hanswer
  have hclaim : (s.claim limits key generation checkpoint now ids).1 = claim := Answer.claimed.inj hanswer
  rw [← hclaim] at hitem
  exact (MailboxState.claiming s limits key generation checkpoint now ids).given hitem

/-- Whatever a head claims, when its address has one holder, was recorded while the address was its own. -/
theorem mailStays (hrun : Run limits steps s) (htruthful : ∀ step ∈ steps, step.Truthful) (hone : OneHolder steps) :
    MailStays limits steps := by
  intro past step rest key generation checkpoint now claim head heq hop hanswer htold item hitem
  subst heq
  obtain ⟨op, ids, hbefore, hstep⟩ := hrun.before
  have hheld := htold.held hbefore fun step hstep => htruthful step (mem_append_left _ hstep)
  -- whoever held the address when the item was recorded is the head that was told of it
  have hholds {record : Step} (hrecord : record ∈ past ++ [step])
      (hsome : ∃ head, Holds record.before key generation head) : Holds record.before key generation head := by
    obtain ⟨head', hholds⟩ := hsome
    obtain ⟨older, newer, hsplit⟩ := append_of_mem hrecord
    have hall : past ++ step :: rest = older ++ record :: (newer ++ rest) := by
      rw [append_cons, hsplit, append_assoc]
      rfl
    rw [hall] at hrun
    obtain ⟨_, _, hrecordRun, _⟩ := hrun.before
    have hheld' : Held (past ++ step :: rest) key generation head' :=
      (hrecordRun.held hholds).mono (by rw [hall]; exact subset_append_left _ _)
    rw [hone key generation head head' (hheld.mono (subset_append_left _ _)) hheld']
    exact hholds
  have hreach : Run limits (past ++ [step]) step.after := by
    rw [hstep]
    exact hbefore.snoc op ids
  have hgiven : match item.what with
      | .mail _ => ∃ h ∈ step.after.messages, h.id = item.id ∧ h.toKey = key ∧ h.toGeneration = generation
      | .notice _ => ∃ n ∈ step.after.notices, n.id = item.id ∧ n.toKey = key ∧ n.toGeneration = generation := by
    rw [hstep] at hop hanswer ⊢
    exact given_of_step hop hanswer hitem
  unfold Records
  cases hwhat : item.what with
  | mail =>
    rw [hwhat] at hgiven
    obtain ⟨h, hh, hid, rfl, rfl⟩ := hgiven
    obtain ⟨record, history, hlife⟩ := exists_life hreach h hh
    obtain ⟨hrecord, first, hfirst, hkey, hgeneration⟩ := hlife.exists_recorded
    refine ⟨record, hrecord, ⟨h, history, hlife, hid, rfl, rfl⟩, hholds hrecord ?_⟩
    obtain ⟨older, newer, hsplit⟩ := append_of_mem hrecord
    rw [hsplit] at hreach
    obtain ⟨op', ids', hrecordRun, hrecordStep⟩ := hreach.before
    rw [hrecordStep] at hfirst
    have hholder := holds_of_recording hrecordRun.named (MailboxState.recording hfirst)
    rw [hkey, hgeneration] at hholder
    exact hholder
  | notice =>
    rw [hwhat] at hgiven
    obtain ⟨n, hn, hid, rfl, rfl⟩ := hgiven
    obtain ⟨record, hrecord, happears, hcurrent⟩ := exists_noticed hreach n hn
    exact ⟨record, hrecord, ⟨n, hid, rfl, rfl, happears⟩, hholds hrecord (holds_of_currentGeneration hcurrent)⟩

/-- While the judgements are truthful and every registration takes an unused number, no address is ever held by two
heads, and whatever a head claims was recorded while the address was its own. -/
theorem address_has_one_holder (hrun : Run limits steps s) (htruthful : ∀ step ∈ steps, step.Truthful)
    (hunused : ∀ past step rest, steps = past ++ step :: rest → step.Unused past) :
    OneHolder steps ∧ MailStays limits steps := by
  have hone := oneHolder hrun hunused
  exact ⟨hone, mailStays hrun htruthful hone⟩

end

namespace Sample

/-- The process `P` holds the key `p`, is sent a message, and moves to the key `r`. -/
def movesAway : List (Op × IdSource) :=
  [(.register (request (key "p") "p1" "P") none 1, ids), (.register (request (key "q") "q1" "Q") none 2, ids),
    (.send (sendTo (key "q") (key "p")) 3, ids), (.register (request (key "r") "r1" "P") none 4, ids)]

/-- Then the process `S` registers `p`, and claims what is pending. -/
def strangerClaims : List (Op × IdSource) :=
  movesAway ++ [(.register (request (key "p") "s1" "S") none 5, ids)] ++ [(.claim (key "p") 1 .step 6, ids)]

end Sample

theorem holds_iff {s : MailboxState} {key : WriterKey} {generation : Generation} {head : String} :
    Holds s key generation head ↔
      ((s.bound key).any fun i => decide (i.generation = generation ∧ i.head = head)) = true := by
  rw [Option.any_eq_true]
  simp only [decide_eq_true_eq]
  rfl

/-- The process `P` moves from the key `p` to the key `r`, which no head held before. -/
theorem address_has_one_holder_moved : OneHolder (play Sample.limits
    [(.register (Sample.request (Sample.key "p") "p1" "P") none 1, Sample.ids),
      (.register (Sample.request (Sample.key "r") "r1" "P") none 2, Sample.ids)]).1 := by
  refine (address_has_one_holder (run_play _ _) ?_ ?_).1
  · intro step hstep req judged now i hregister
    rcases mem_cons.mp hstep with rfl | hstep
    · cases hregister
    · rw [mem_singleton.mp hstep] at hregister
      cases hregister
  · intro past step rest heq req judged now hop _ generation head hheld
    have hunheld : ∀ older ∈ past, older.after.bound req.key = none := by
      rcases past with _ | ⟨first, past⟩
      · intro older holder
        cases holder
      · obtain ⟨hfirst, hrest⟩ := List.cons.inj heq
        rcases past with _ | ⟨second, past⟩
        · obtain ⟨hstep, _⟩ := List.cons.inj hrest
          rw [← hstep] at hop
          cases hop
          intro older holder
          rw [mem_singleton.mp holder, ← hfirst]
          decide
        · obtain ⟨_, hnil⟩ := List.cons.inj hrest
          cases append_ne_nil_of_right_ne_nil past (cons_ne_nil step rest) hnil.symm
    obtain ⟨older, holder, i, hi, _⟩ := hheld
    rw [hunheld older holder] at hi
    cases hi

theorem told_stranger : Told (play Sample.limits (Sample.movesAway ++
    [(.register (Sample.request (Sample.key "p") "s1" "S") none 5, Sample.ids)])).1 (Sample.key "p") 1 "S" := by
  have hcreated : ((play Sample.limits Sample.movesAway).2.register Sample.limits
      (Sample.request (Sample.key "p") "s1" "S") none 5 Sample.ids).1.toOption =
        some (.created "app-codex-s1" 1) := by decide
  rw [play_concat]
  refine ⟨_, mem_append_right _ (mem_singleton_self _), _, _, _, .created "app-codex-s1" 1, rfl, ?_, rfl, rfl,
    rfl⟩
  show Answer.registered _ = _
  cases hanswer : ((play Sample.limits Sample.movesAway).2.register Sample.limits
      (Sample.request (Sample.key "p") "s1" "S") none 5 Sample.ids).1 with
  | error refusal =>
    rw [hanswer] at hcreated
    cases hcreated
  | ok registered =>
    rw [hanswer] at hcreated
    rw [some.inj hcreated]

theorem not_mailStays_stranger : ¬MailStays Sample.limits (play Sample.limits Sample.strangerClaims).1 := by
  intro hstays
  rw [Sample.strangerClaims, play_concat] at hstays
  have hitems : (((play Sample.limits (Sample.movesAway ++ [(.register (Sample.request (Sample.key "p") "s1" "S") none 5,
      Sample.ids)])).2.claim Sample.limits (Sample.key "p") 1 .step 6 Sample.ids).1.items.map fun item =>
        match item.what with | .mail _ => true | .notice _ => false) = [true] := by decide
  obtain ⟨item, hitem, hmail⟩ := List.mem_map.mp (hitems ▸ mem_singleton_self true)
  obtain ⟨record, hrecord, hrecords, hholds⟩ := hstays _ _ [] _ _ _ _ _ "S" rfl rfl rfl told_stranger item hitem
  -- `S` holds the address before the last step only, which records nothing
  have hsilent : ∀ record ∈ (play Sample.limits Sample.strangerClaims).1,
      ((record.before.bound (Sample.key "p")).any fun i => decide (i.generation = 1 ∧ i.head = "S")) = true →
        record.recorded = none := by decide
  rw [Sample.strangerClaims, play_concat] at hsilent
  have hnone := hsilent record hrecord (holds_iff.mp hholds)
  unfold Records at hrecords
  split at hrecords
  · obtain ⟨h, history, hlife, _⟩ := hrecords
    obtain ⟨_, first, hfirst, _⟩ := hlife.exists_recorded
    rw [hnone] at hfirst
    cases hfirst
  · rename_i hwhat
    rw [hwhat] at hmail
    cases hmail

theorem not_oneHolder_stranger : ¬OneHolder (play Sample.limits Sample.strangerClaims).1 := by
  intro hone
  have hheld : ∀ head ∈ ["P", "S"], (play Sample.limits Sample.strangerClaims).1.any fun step =>
      (step.after.bound (Sample.key "p")).any fun i => decide (i.generation = 1 ∧ i.head = head) := by decide
  have hboth : ∀ head ∈ ["P", "S"], Held (play Sample.limits Sample.strangerClaims).1 (Sample.key "p") 1 head := by
    intro head hhead
    obtain ⟨step, hstep, hholds⟩ := List.any_eq_true.mp (hheld head hhead)
    exact ⟨step, hstep, holds_iff.mpr hholds⟩
  exact absurd (hone _ _ _ _ (hboth "P" (by decide)) (hboth "S" (by decide))) (by decide)

/-- With no liveness judged and no key forgotten, the address of the process `P` comes to be held by the process `S`
too, which claims a message that was sent to `P`. -/
theorem stranger_claims_mail :
    ¬∀ (limits : Limits) (steps : List Step) (s : MailboxState), Run limits steps s → (∀ step ∈ steps, step.Truthful) →
      (∀ step ∈ steps, ∀ key, step.op ≠ .forgetKey key) → OneHolder steps ∨ MailStays limits steps := by
  intro hclaim
  have hop : ∀ step ∈ (play Sample.limits Sample.strangerClaims).1, step.op ∈ Sample.strangerClaims.map Prod.fst := by
    intro step hstep
    rw [← map_op_play Sample.limits]
    exact List.mem_map_of_mem hstep
  have htruthful : ∀ step ∈ (play Sample.limits Sample.strangerClaims).1, step.Truthful := by
    intro step hstep req judged now i hregister
    have hmem := hop step hstep
    rw [hregister] at hmem
    simp [Sample.strangerClaims, Sample.movesAway] at hmem
  have hkeeps : ∀ step ∈ (play Sample.limits Sample.strangerClaims).1, ∀ key, step.op ≠ .forgetKey key := by
    intro step hstep key hforget
    have hmem := hop step hstep
    rw [hforget] at hmem
    simp [Sample.strangerClaims, Sample.movesAway] at hmem
  exact (hclaim _ _ _ (run_play _ _) htruthful hkeeps).elim not_oneHolder_stranger not_mailStays_stranger

end Forgent.Mailbox
