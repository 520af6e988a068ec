import Forgent.Envelope
import Forgent.Mailbox.Run

/-!
# What an admitted message met

The checks of the sending policies, read back: what holds of a record and of a message that passed them all.
-/

namespace Forgent.Mailbox

open List Option

namespace MailboxState

variable {s : MailboxState} {limits : Limits} {account : Account} {now : Timestamp} {skipped : List WriterKey}
  {b : Binding} {fromGeneration : Option Generation} {p : Binding → Bool}

/-! ### Resolution -/

theorem mem_of_matchExact (h : s.matchExact skipped p = some (.ok b)) : b ∈ s.bindingList := by
  rw [matchExact, map_eq_some_iff] at h
  obtain ⟨exact, hfind, hok⟩ := h
  split at hok
  · cases hok
  · cases hok
    exact mem_of_find?_eq_some hfind

theorem mem_of_matchPrefix (h : s.matchPrefix skipped p = some (.ok b)) : b ∈ s.bindingList := by
  rw [matchPrefix] at h
  split at h
  · cases h
  · rename_i one hone
    cases h
    have hmem : b ∈ (s.live skipped).filter p := by
      rw [hone]
      exact mem_singleton_self b
    exact mem_of_mem_filter (mem_of_mem_filter hmem)
  · cases h

theorem mem_of_resolveSkipping {query : String}
    (h : s.resolveSkipping query skipped = .ok b) : b ∈ s.bindingList := by
  rw [resolveSkipping] at h
  split at h
  · cases h
  · split at h
    · cases h
    · -- the first of the four matches that answers decides
      cases hname : s.matchExact skipped fun b => b.name = query with
      | some answer =>
        rw [hname] at h
        cases (show answer = .ok b from h)
        exact mem_of_matchExact hname
      | none =>
        cases hprefix : s.matchPrefix skipped fun b => query.toList.isPrefixOf b.name.toList with
        | some answer =>
          rw [hname, hprefix] at h
          cases (show answer = .ok b from h)
          exact mem_of_matchPrefix hprefix
        | none =>
          cases hkey : s.matchExact skipped fun b => b.key.text = query with
          | some answer =>
            rw [hname, hprefix, hkey] at h
            cases (show answer = .ok b from h)
            exact mem_of_matchExact hkey
          | none =>
            cases hlast : s.matchPrefix skipped fun b => query.toList.isPrefixOf b.key.text.toList with
            | some answer =>
              rw [hname, hprefix, hkey, hlast] at h
              cases (show answer = .ok b from h)
              exact mem_of_matchPrefix hlast
            | none =>
              rw [hname, hprefix, hkey, hlast] at h
              cases h

theorem mem_of_resolveKey {key : WriterKey} (h : s.resolveKey key skipped = .ok b) : b ∈ s.bindingList := by
  rw [resolveKey] at h
  split at h
  · rename_i binding hbinding
    split at h
    · cases h
    · cases h
      exact mem_bindingList.mpr ⟨key, hbinding⟩
  · cases h

theorem mapError_eq_ok {ε ε' α : Type} {f : ε → ε'} {x : Except ε α} {a : α} (h : x.mapError f = .ok a) : x = .ok a := by
  cases x with
  | error e => cases h
  | ok b => exact congrArg Except.ok (Except.ok.inj h)

theorem mem_of_resolve {recipient : Recipient} (h : s.resolve skipped recipient = .ok b) : b ∈ s.bindingList := by
  cases recipient with
  | name query => exact mem_of_resolveSkipping (mapError_eq_ok h)
  | key key => exact mem_of_resolveKey (mapError_eq_ok h)
  | refused refusal => cases h

/-! ### The checks -/

theorem refuse_eq_ok {p : Prop} [Decidable p] {refusal : Refusal} {u : Unit}
    (h : (if p then Except.error refusal else .ok ()) = .ok u) : ¬p := by
  intro hp
  rw [if_pos hp] at h
  cases h

theorem derivedParent_eq_some {toKey fromKey : WriterKey} {i : ℕ}
    (h : s.derivedParent limits toKey fromKey fromGeneration now = some i) :
    ∃ header, s.messages[i]? = some header ∧ offeredTo header toKey fromKey fromGeneration = true ∧
      header.answered = false := by
  rw [derivedParent, map_eq_some_iff] at h
  obtain ⟨best, hbest, rfl⟩ := h
  obtain ⟨e, he, hsince⟩ := mem_filterMap.mp (max?_mem hbest)
  obtain ⟨since, _, rfl⟩ := map_eq_some_iff.mp hsince
  obtain ⟨hmem, hopen⟩ := mem_filter.mp he
  rw [Bool.and_eq_true, Bool.not_eq_true'] at hopen
  exact ⟨e.1, mem_zipIdx_iff_getElem?.mp hmem, hopen⟩

/-- What an admitted send met, and what it records. -/
structure Admissible (limits : Limits) (req : SendRequest) (account : Account) (fromGeneration : Option Generation)
    (now : Timestamp) (s : MailboxState) (admitted : Admitted) : Prop where
  senderKey : req.fromKey.text.length ≤ limits.frameMaxHeaderChars
  recipient : ∃ b ∈ s.bindingList, admitted.toKey = b.key ∧ admitted.toGeneration = b.generation
  notSelf : req.fromKey ≠ admitted.toKey
  size : byteLen req.body ≤ limits.maxBodyBytes
  budget : (s.budget.getD account []).length ≤ limits.sessionBudget
  lifetime : ∀ generation, fromGeneration = some generation →
    s.lifetime.getD (lifetimeKey req.fromKey generation) 0 ≤ limits.sessionLifetimeCap
  parent : admitted.parent = s.derivedParent limits admitted.toKey req.fromKey fromGeneration now
  depth : admitted.depth = s.depthUnder admitted.parent
  depth_le : admitted.depth ≤ limits.chainMaxDepth
  loop : s.recentFrom limits account admitted.toKey now < limits.loopMaxPerWindow
  queue : s.queued admitted.toKey admitted.toGeneration < limits.queueCap
  share : s.share account admitted.toKey admitted.toGeneration < limits.queuePerSender

theorem admissible {req : SendRequest} {admitted : Admitted}
    (h : s.admitSend limits req account fromGeneration now = .ok admitted) :
    Admissible limits req account fromGeneration now s admitted := by
  unfold admitSend at h
  obtain ⟨_, hsender, h⟩ := bind_eq_ok.mp h
  obtain ⟨recipient, hresolve, h⟩ := bind_eq_ok.mp h
  obtain ⟨_, hself, h⟩ := bind_eq_ok.mp h
  obtain ⟨_, _, h⟩ := bind_eq_ok.mp h
  obtain ⟨_, hsize, h⟩ := bind_eq_ok.mp h
  obtain ⟨_, hbudget, h⟩ := bind_eq_ok.mp h
  obtain ⟨_, hlifetime, h⟩ := bind_eq_ok.mp h
  obtain ⟨_, hdepth, h⟩ := bind_eq_ok.mp h
  obtain ⟨_, hloop, h⟩ := bind_eq_ok.mp h
  obtain ⟨_, hqueue, h⟩ := bind_eq_ok.mp h
  obtain ⟨_, hshare, h⟩ := bind_eq_ok.mp h
  cases h
  exact
    { senderKey := not_lt.mp (refuse_eq_ok hsender)
      recipient := ⟨recipient, mem_of_resolve hresolve, rfl, rfl⟩
      notSelf := refuse_eq_ok hself
      size := not_lt.mp (refuse_eq_ok hsize)
      budget := not_lt.mp (refuse_eq_ok hbudget)
      lifetime := by
        intro generation hgeneration
        rw [hgeneration] at hlifetime
        exact not_lt.mp (refuse_eq_ok hlifetime)
      parent := rfl
      depth := rfl
      depth_le := not_lt.mp (refuse_eq_ok hdepth)
      loop := not_le.mp (refuse_eq_ok hloop)
      queue := not_le.mp (refuse_eq_ok hqueue)
      share := not_le.mp (refuse_eq_ok hshare) }

/-- What a message from another machine met. -/
structure AdmissibleMail (limits : Limits) (mail : RemoteMail) (now : Timestamp) (s : MailboxState)
    (recipient : Binding) : Prop where
  senderKey : mail.fromKey.text.length ≤ limits.frameMaxHeaderChars
  size : byteLen mail.body ≤ min mail.maxBodyBytes limits.maxBodyBytes
  budget : (s.budget.getD (remoteAccount mail.machine mail.fromKey) []).length ≤ limits.sessionBudget
  lifetime : s.lifetime.getD (remoteLifetimeKey mail.machine mail.fromKey) 0 ≤ limits.sessionLifetimeCap
  bound : s.bindings[mail.toKey]? = some recipient
  loop : s.recentFrom limits (remoteAccount mail.machine mail.fromKey) recipient.key now < limits.loopMaxPerWindow
  queue : s.queued recipient.key recipient.generation < limits.queueCap
  share : s.share (remoteAccount mail.machine mail.fromKey) recipient.key recipient.generation < limits.queuePerSender

theorem admissibleMail {mail : RemoteMail} {dead : List WriterKey} {recipient : Binding}
    (h : s.admitMail limits mail dead now = .ok recipient) : AdmissibleMail limits mail now s recipient := by
  unfold admitMail at h
  obtain ⟨_, hsender, h⟩ := bind_eq_ok.mp h
  by_cases hsize : min mail.maxBodyBytes limits.maxBodyBytes < byteLen mail.body
  · rw [if_pos hsize] at h
    cases h
  rw [if_neg hsize] at h
  obtain ⟨_, hbudget, h⟩ := bind_eq_ok.mp h
  obtain ⟨_, hlifetime, h⟩ := bind_eq_ok.mp h
  obtain ⟨binding, hresolve, h⟩ := bind_eq_ok.mp h
  obtain ⟨_, hloop, h⟩ := bind_eq_ok.mp h
  obtain ⟨_, hqueue, h⟩ := bind_eq_ok.mp h
  obtain ⟨_, hshare, h⟩ := bind_eq_ok.mp h
  cases h
  exact
    { senderKey := not_lt.mp (refuse_eq_ok hsender)
      size := not_lt.mp hsize
      budget := not_lt.mp (refuse_eq_ok hbudget)
      lifetime := not_lt.mp (refuse_eq_ok hlifetime)
      bound := by
        have hkey := mapError_eq_ok hresolve
        rw [resolveKey] at hkey
        split at hkey
        · rename_i found hfound
          split at hkey
          · cases hkey
          · cases hkey
            exact hfound
        · cases hkey
      loop := not_le.mp (refuse_eq_ok hloop)
      queue := not_le.mp (refuse_eq_ok hqueue)
      share := not_le.mp (refuse_eq_ok hshare) }

theorem admissibleLeaving {req : RemoteSend} (h : s.admitLeaving limits req account fromGeneration = .ok ()) :
    (s.budget.getD account []).length ≤ limits.sessionBudget ∧ ∀ generation, fromGeneration = some generation →
      s.lifetime.getD (lifetimeKey req.fromKey generation) 0 ≤ limits.sessionLifetimeCap := by
  unfold admitLeaving at h
  by_cases hsize : min req.maxBodyBytes limits.maxBodyBytes < req.bodyBytes
  · rw [if_pos hsize] at h
    cases h
  rw [if_neg hsize] at h
  obtain ⟨_, _, h⟩ := bind_eq_ok.mp h
  obtain ⟨_, hbudget, h⟩ := bind_eq_ok.mp h
  refine ⟨not_lt.mp (refuse_eq_ok hbudget), ?_⟩
  intro generation hgeneration
  rw [hgeneration] at h
  exact not_lt.mp (refuse_eq_ok h)

end MailboxState

end Forgent.Mailbox
