import Forgent.Mailbox.Disk
import Forgent.Mailbox.Queues

/-!
# The bodies a hold needs

Every body that the state a hold leads to keeps was kept by the state before it, or is among those the hold installs.
-/

namespace Forgent.Mailbox

open List Option

variable {limits : Limits} {step : Step}

theorem Becomes.bodyKept {h h' : Header} (hbecomes : Becomes limits step h h')
    (hkept : h'.bodyKept = true) : h.bodyKept = true := by
  obtain ⟨events, hmoves⟩ := hbecomes
  induction hmoves with
  | refl => exact hkept
  | touch _ htouch ih =>
    apply ih
    cases htouch with
    | answered => exact hkept
    | bodyDropped => cases hkept
    | told => exact hkept
  | move _ hmove ih =>
    apply ih
    cases hmove <;> exact hkept

theorem Becomes.bodyBytes {h h' : Header} (hbecomes : Becomes limits step h h') :
    h'.bodyBytes = h.bodyBytes := (congrArg Header.bodyBytes hbecomes.sealed :)

namespace Record

open Interrupted

/-- Every body the later state keeps was kept before, or is one to install. -/
structure Backed (installs : List (MessageId × String)) (s s' : MailboxState) : Prop where
  old_or_new : ∀ h ∈ s'.messages, h.bodyKept = true →
    (∃ old ∈ s.messages, old.bodyKept = true ∧ old.id = h.id ∧ old.bodyBytes = h.bodyBytes) ∨
      ∃ text, (h.id, text) ∈ installs ∧ byteLen text = h.bodyBytes

section

variable {installs more : List (MessageId × String)} {s s' s'' : MailboxState} {limits : Limits} {now : Timestamp}
  {ids : IdSource} {op : Op} {header : Header}

theorem Backed.of_subset (h : s'.messages ⊆ s.messages) : Backed installs s s' where
  old_or_new a ha hkept := .inl ⟨a, h ha, hkept, rfl, rfl⟩

theorem Backed.of_eq (h : s'.messages = s.messages) : Backed installs s s' := .of_subset (h ▸ List.Subset.refl _)

theorem Backed.trans (h : Backed installs s s') (h' : Backed more s' s'') : Backed (installs ++ more) s s'' := by
  constructor
  intro a ha hkept
  rcases h'.old_or_new a ha hkept with ⟨b, hb, hbkept, hid, hbytes⟩ | ⟨text, htext, hbytes⟩
  · rcases h.old_or_new b hb hbkept with ⟨c, hc, hckept, hcid, hcbytes⟩ | ⟨text, htext, hcbytes⟩
    · exact .inl ⟨c, hc, hckept, hcid.trans hid, hcbytes.trans hbytes⟩
    · right
      rw [← hid, ← hbytes]
      exact ⟨text, mem_append_left more htext, hcbytes⟩
  · exact .inr ⟨text, mem_append_right installs htext, hbytes⟩

theorem Backed.then (h : Backed installs s s') (h' : Backed [] s' s'') : Backed installs s s'' := by
  have hboth := h.trans h'
  rwa [append_nil] at hboth

theorem Backed.call (hnew : ∀ header, (op.step limits s ids).recorded = some header →
    ∃ text, (header.id, text) ∈ installs ∧ byteLen text = header.bodyBytes) :
    Backed installs s (op.call limits s ids).2 := by
  constructor
  intro h hh hkept
  obtain ⟨kept, hevolves, hmessages⟩ := MailboxState.evolved limits s ids op
  replace hmessages : (op.call limits s ids).2.messages = kept ++ (op.step limits s ids).recorded.toList := hmessages
  rw [hmessages, mem_append] at hh
  rcases hh with hold | hrecorded
  · obtain ⟨old, hmem, hbecomes⟩ := hevolves.exists_of_mem hold
    exact .inl ⟨old, hmem, hbecomes.bodyKept hkept, hbecomes.id.symm, hbecomes.bodyBytes.symm⟩
  · exact .inr (hnew h (mem_toList.mp hrecorded))

theorem recorded_eq_none (hop : recordsMail op = false) : (op.step limits s ids).recorded = none := by
  cases op with
  | send | ingestRemote => cases hop
  | _ => rfl

theorem Backed.silent (hop : recordsMail op = false) : Backed [] s (op.call limits s ids).2 := by
  apply Backed.call
  intro header hrecorded
  rw [recorded_eq_none hop] at hrecorded
  cases hrecorded

theorem send_recorded {req : SendRequest} (h : ((Op.send req now).step limits s ids).recorded = some header) :
    ∃ outcome, (s.send limits req now ids).1 = .ok outcome ∧ header.id = outcome.id ∧
      header.bodyBytes = byteLen req.body := by
  obtain ⟨hrecords, hlast⟩ := MailboxState.Step.recorded_eq_some h
  dsimp only [Op.step, Op.call] at hrecords hlast
  rw [MailboxState.send] at hrecords hlast ⊢
  generalize s.sweep limits now ids = swept at hrecords hlast ⊢
  obtain ⟨swept, ids'⟩ := swept
  simp only at hrecords hlast ⊢
  split at hlast
  · rename_i refusal hrefused
    rw [hrefused] at hrecords
    cases hrecords
  · simp only [MailboxState.recordSend, getLast?_concat, some.injEq] at hlast
    subst hlast
    exact ⟨_, rfl, rfl, rfl⟩

theorem Backed.send (req : SendRequest) : Backed ((s.send limits req now ids).1.toOption.toList.map fun outcome => (outcome.id, req.body)) s
    (s.send limits req now ids).2.1 := by
  show Backed _ s ((Op.send req now).call limits s ids).2
  apply Backed.call
  intro header hrecorded
  obtain ⟨outcome, hok, hid, hbytes⟩ := send_recorded hrecorded
  refine ⟨req.body, ?_, hbytes.symm⟩
  rw [hok, hid]
  exact mem_singleton_self _

theorem ingest_recorded {mail : RemoteMail} {dead : List WriterKey}
    (h : ((Op.ingestRemote mail dead now).step limits s ids).recorded = some header) :
    ingestInstall (mail, (s.ingestRemote limits mail dead now ids).1) = some (header.id, mail.body) ∧
      header.bodyBytes = byteLen mail.body := by
  obtain ⟨hrecords, hlast⟩ := MailboxState.Step.recorded_eq_some h
  dsimp only [Op.step, Op.call] at hrecords hlast
  rw [MailboxState.ingestRemote] at hrecords hlast ⊢
  generalize s.sweep limits now ids = swept at hrecords hlast ⊢
  obtain ⟨swept, ids'⟩ := swept
  simp only at hrecords hlast ⊢
  split at hlast
  · rename_i hseen
    rw [if_pos hseen] at hrecords
    cases hrecords
  · rename_i hseen
    rw [if_neg hseen] at hrecords ⊢
    split at hlast
    · rename_i refusal hrefused
      rw [hrefused] at hrecords
      cases hrecords
    · simp only [MailboxState.recordMail, getLast?_concat, some.injEq] at hlast
      subst hlast
      exact ⟨rfl, rfl⟩

theorem Backed.ingest (mail : RemoteMail) (dead : List WriterKey) :
    Backed (ingestInstall (mail, (s.ingestRemote limits mail dead now ids).1)).toList s
      (s.ingestRemote limits mail dead now ids).2.1 := by
  have hcall : Backed (ingestInstall (mail, (s.ingestRemote limits mail dead now ids).1)).toList s
      ((Op.ingestRemote mail dead now).call limits s ids).2 := by
    apply Backed.call
    intro header hrecorded
    obtain ⟨hinstall, hbytes⟩ := ingest_recorded hrecorded
    rw [hinstall]
    exact ⟨mail.body, mem_singleton_self _, hbytes.symm⟩
  dsimp only [Op.call] at hcall
  exact hcall

theorem Backed.ingestMails (dead : List WriterKey) (mails : List RemoteMail) (s : MailboxState) (ids : IdSource) :
    Backed ((ingestMails limits dead now mails s ids).1.filterMap ingestInstall) s
      (ingestMails limits dead now mails s ids).2 := by
  induction mails generalizing s ids with
  | nil => exact .of_eq rfl
  | cons mail mails ih =>
    have hfirst : Backed (ingestInstall (mail, (s.ingestRemote limits mail dead now ids).1)).toList s
        (s.ingestRemote limits mail dead now ids).2.1 := Backed.ingest mail dead
    rw [Record.ingestMails]
    generalize s.ingestRemote limits mail dead now ids = r at hfirst ⊢
    obtain ⟨result, taken, rest⟩ := r
    dsimp only at hfirst ⊢
    have hboth := hfirst.trans (ih taken rest)
    cases hinstall : ingestInstall (mail, result) with
    | none =>
      rw [filterMap_cons_none hinstall]
      rw [hinstall] at hboth
      exact hboth
    | some install =>
      rw [filterMap_cons_some hinstall]
      rw [hinstall] at hboth
      exact hboth

theorem Backed.foldl {α : Type} {f : MailboxState → α → MailboxState} (h : ∀ s a, Backed [] s (f s a)) (l : List α)
    (s : MailboxState) : Backed [] s (l.foldl f s) := by
  induction l generalizing s with
  | nil => exact .of_eq rfl
  | cons a l ih => exact (h s a).then (ih _)

theorem Backed.callAll (limits : Limits) (calls : List (Op × IdSource))
    (hsilent : (calls.any fun c => recordsMail c.1) = false) (s : MailboxState) :
    Backed [] s (Record.callAll limits calls s).2 := by
  induction calls generalizing s with
  | nil => exact .of_eq rfl
  | cons c calls ih =>
    rw [any_cons, Bool.or_eq_false_iff] at hsilent
    exact (Backed.silent hsilent.1).then (ih hsilent.2 _)

theorem countRemoteDrop_messages (s : MailboxState) (limits : Limits) (reason : CounterReason) (machine : String)
    (now : Timestamp) : (s.countRemoteDrop limits reason machine now).messages = s.messages := rfl

theorem queueRemoteRefusal_messages (s : MailboxState) (limits : Limits) (id code : String) :
    (s.queueRemoteRefusal limits id code).messages = s.messages := rfl

theorem queueRefused_messages (h : Hold) (s : MailboxState) (r : RemoteMail × Except Refusal Ingested) :
    (h.queueRefused s r).messages = s.messages := by
  rw [Hold.queueRefused]
  cases r.2 <;> rfl

theorem Backed.mutateSend (h : Hold) (req : SendRequest) (dead : List WriterKey) (s : MailboxState) :
    Backed (mutateSend h req dead s).installs s (mutateSend h req dead s).state := by
  have hsend : Backed _ s (s.send h.limits { req with deadKeys := dead } h.now h.ids).2.1 :=
    Backed.send { req with deadKeys := dead }
  rw [Record.mutateSend]
  generalize s.send h.limits { req with deadKeys := dead } h.now h.ids = r at hsend ⊢
  exact hsend

theorem Backed.mutateIngest (h : Hold) (batch : IngestBatch) (dead : List WriterKey) (s : MailboxState) :
    Backed (mutateIngest h batch dead s).installs s (mutateIngest h batch dead s).state := by
  have hdrops : Backed [] s (batch.drops.foldl (fun s drop => s.countRemoteDrop h.limits drop.1 drop.2 h.now) s) :=
    Backed.foldl (fun _ _ => .of_eq (countRemoteDrop_messages ..)) _ _
  have hmails := hdrops.trans (@Backed.ingestMails h.limits h.now dead batch.mails _ h.ids)
  rw [Record.mutateIngest]
  generalize Record.ingestMails h.limits dead h.now batch.mails _ h.ids = r at hmails ⊢
  obtain ⟨results, taken⟩ := r
  dsimp only at hmails ⊢
  have hqueued : Backed [] taken
      (batch.refusals.foldl (fun s refused => s.queueRemoteRefusal h.limits refused.1 refused.2) taken) :=
    Backed.foldl (fun _ _ => .of_eq (queueRemoteRefusal_messages ..)) _ _
  have hrefused (s : MailboxState) : Backed [] s (results.foldl h.queueRefused s) :=
    Backed.foldl (fun _ _ => .of_eq (queueRefused_messages ..)) _ _
  exact (hmails.then hqueued).then ((hrefused _).then (.of_eq rfl))

theorem Backed.mutate (h : Hold) (s : MailboxState) : Backed (h.mutate s).installs s (h.mutate s).state := by
  rw [Hold.mutate]
  cases h.change with
  | send req => exact Backed.mutateSend h req _ s
  | ingest batch => exact Backed.mutateIngest h batch _ s
  | other calls changed hsilent => exact Backed.callAll h.limits calls hsilent s

theorem Backed.prune (now : Timestamp) (limits : Limits) (dead : Binding → Bool) (s : MailboxState) :
    Backed [] s (Record.prune s now limits dead) :=
  Backed.foldl (fun _ _ => .of_subset (filter_subset_self _)) _ _

theorem Backed.next (h : Hold) (s : MailboxState) : Backed (h.mutate s).installs s (h.next s) :=
  (Backed.mutate h s).then (Backed.prune ..)

end

end Record

end Forgent.Mailbox
