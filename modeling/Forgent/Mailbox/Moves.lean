import Forgent.Evolves
import Forgent.Mailbox.Admission

/-!
# What a call does to the messages

Every message is left as it was, moves along the life cycle, or goes.  `Step.evolved` says so for every call; the
messages keep their order, and a recorded one comes last.
-/

namespace Forgent.Mailbox

open List Option

/-- What happens to a message. -/
inductive Event
  | taken (token : AttemptToken) (generation : Generation)
  | lapsed
  | refused (reason : RefusalReason)
  | offered (token : AttemptToken) (generation : Generation)
deriving DecidableEq

/-- The header in a new state. -/
def Header.enter (h : Header) (state : MessageState) (now : Timestamp) : Header := { h with state, changedAt := now }

/-- A change that leaves the message in its state. -/
inductive Touch (step : Step) : Header → Header → Prop
  /-- The step recorded a reply to the message, one deeper. -/
  | answered {h reply : Header} (hrecorded : step.recorded = some reply) (hreply : reply.replyTo = some h.id)
      (hdepth : reply.depth = min (h.depth + 1) u32Max) (hopen : h.answered = false) :
      Touch step h { h with answered := true }
  | bodyDropped (h : Header) : Touch step h { h with bodyKept := false }
  | told {h : Header} {origin : Origin} (horigin : h.origin = some origin) :
      Touch step h { h with origin := some { origin with settled := true } }

/-- One move of a message in a step. -/
inductive Move (limits : Limits) (step : Step) : Header → Event → Header → Prop
  | taken {h : Header} {key : WriterKey} {generation : Generation} {checkpoint : Checkpoint} {now deadline : Timestamp}
      {claim : Claim} {token : AttemptToken} (hop : step.op = .claim key generation checkpoint now)
      (hanswer : step.answer = .claimed claim) (htoken : claim.token = some token) (hkey : h.toKey = key)
      (hgeneration : h.toGeneration = generation) (hcurrent : step.before.currentGeneration key = some generation)
      (hstate : h.state = .recorded) :
      Move limits step h (.taken token generation)
        { h with
          offers := h.offers + 1, changedAt := step.after.lastNow, state := .inFlight token deadline generation }
  | lapsed {h : Header} {token : AttemptToken} {deadline : Timestamp} {generation : Generation}
      (hstate : h.state = .inFlight token deadline generation) (hpast : deadline < step.after.lastNow)
      (hoffers : h.offers < limits.maxOffers) : Move limits step h .lapsed (h.enter .recorded step.after.lastNow)
  | exhausted {h : Header} {token : AttemptToken} {deadline : Timestamp} {generation : Generation}
      (hstate : h.state = .inFlight token deadline generation) (hpast : deadline < step.after.lastNow)
      (hoffers : limits.maxOffers ≤ h.offers) :
      Move limits step h (.refused .offerCap) (h.enter (.refused .offerCap step.after.lastNow) step.after.lastNow)
  | expired {h : Header} (hstate : h.state = .recorded)
      (hpast : step.after.lastNow.isPast h.recordedAt limits.recordTtlSec = true) :
      Move limits step h (.refused .recordTtl) (h.enter (.refused .recordTtl step.after.lastNow) step.after.lastNow)
  | offered {h : Header} {key : WriterKey} {generation : Generation} {token : AttemptToken} {now deadline : Timestamp}
      (hop : step.op = .finish key generation token now) (hkey : h.toKey = key)
      (hcurrent : step.before.currentGeneration key = some generation)
      (hstate : h.state = .inFlight token deadline generation) :
      Move limits step h (.offered token generation) (h.enter (.offered step.after.lastNow) step.after.lastNow)

/-- The moves of a message in a step, oldest first. -/
inductive Moves (limits : Limits) (step : Step) : Header → List Event → Header → Prop
  | refl (h : Header) : Moves limits step h [] h
  | touch {h h' h'' : Header} {events : List Event} (hmoves : Moves limits step h events h') (htouch : Touch step h' h'') :
      Moves limits step h events h''
  | move {h h' h'' : Header} {events : List Event} {event : Event} (hmoves : Moves limits step h events h')
      (hmove : Move limits step h' event h'') : Moves limits step h (events ++ [event]) h''

/-- The header of a message before and after a step. -/
def Becomes (limits : Limits) (step : Step) (h h' : Header) : Prop := ∃ events, Moves limits step h events h'

/-- A message goes when it is settled and past the header horizon, or when one of its parties is forgotten. -/
def Gone (limits : Limits) (step : Step) (h : Header) : Prop :=
  (h.state.settled = true ∧ step.after.lastNow.isPast h.changedAt limits.headerHorizonSec = true) ∨
    ∃ key, step.op = .forgetKey key ∧ (h.fromKey = key ∨ h.toKey = key)

/-- Every message of the record before the step is still there in its place, moved, or gone, and the only new one is
the one the step recorded. -/
def Step.Evolved (limits : Limits) (step : Step) : Prop :=
  ∃ kept, Evolves (Becomes limits step) (Gone limits step) step.before.messages kept ∧
    step.after.messages = kept ++ step.recorded.toList

section

variable {limits : Limits} {step : Step} {h h' h'' : Header}

theorem Becomes.refl (h : Header) : Becomes limits step h h := ⟨[], .refl h⟩

theorem Becomes.of_touch (htouch : Touch step h h') : Becomes limits step h h' := ⟨[], (Moves.refl h).touch htouch⟩

theorem Becomes.of_move {event : Event} (hmove : Move limits step h event h') : Becomes limits step h h' :=
  ⟨[] ++ [event], (Moves.refl h).move hmove⟩

theorem Becomes.trans (hfirst : Becomes limits step h h') (hsecond : Becomes limits step h' h'') :
    Becomes limits step h h'' := by
  obtain ⟨events', hmoves'⟩ := hsecond
  induction hmoves' with
  | refl => exact hfirst
  | touch _ htouch ih =>
    obtain ⟨events, hmoves⟩ := ih
    exact ⟨events, hmoves.touch htouch⟩
  | move _ hmove ih =>
    obtain ⟨events, hmoves⟩ := ih
    exact ⟨_, hmoves.move hmove⟩

theorem Step.Evolved.of_silent (hsilent : step.answer.records = false)
    (h : Evolves (Becomes limits step) (Gone limits step) step.before.messages step.after.messages) :
    step.Evolved limits := by
  refine ⟨step.after.messages, h, ?_⟩
  rw [Step.recorded, hsilent, if_neg Bool.false_ne_true, toList_none, append_nil]

theorem Step.Evolved.of_eq (hsilent : step.answer.records = false) (h : step.after.messages = step.before.messages) :
    step.Evolved limits := by
  apply Step.Evolved.of_silent hsilent
  rw [h]
  exact Evolves.refl Becomes.refl

theorem Evolves.andThen {l l' l'' : List Header} (hfirst : Evolves (Becomes limits step) (Gone limits step) l l')
    (hsecond : Evolves (Becomes limits step) (fun _ => False) l' l'') :
    Evolves (Becomes limits step) (Gone limits step) l l'' :=
  hfirst.trans hsecond Becomes.trans id fun _ hfalse => hfalse.elim

end

/-! ### The sweep -/

namespace Header

variable {limits : Limits} {step : Step} {h : Header} {now : Timestamp}

/-- What a sweep leaves of a header. -/
def swept (limits : Limits) (now : Timestamp) (h : Header) : Option Header :=
  let judged := (h.expireClaim limits now).refuseStale limits now
  if judged.retired limits now then none else some (judged.dropBody limits now)

theorem claimExpired_iff : h.claimExpired now = true ↔
    ∃ token deadline generation, h.state = .inFlight token deadline generation ∧ deadline < now := by
  rw [claimExpired]
  cases h.state with
  | inFlight token deadline generation =>
    constructor
    · intro hpast
      exact ⟨token, deadline, generation, rfl, of_decide_eq_true hpast⟩
    · rintro ⟨_, _, _, heq, hpast⟩
      cases heq
      exact decide_eq_true hpast
  | _ => simp

theorem becomes_expireClaim (h : Header) : Becomes limits step h (h.expireClaim limits step.after.lastNow) := by
  rw [expireClaim]
  split
  · rename_i hexpired
    obtain ⟨token, deadline, generation, hstate, hpast⟩ := claimExpired_iff.mp hexpired
    split
    · rename_i hoffers
      exact .of_move (.exhausted hstate hpast hoffers)
    · rename_i hoffers
      exact .of_move (.lapsed hstate hpast (Nat.lt_of_not_le hoffers))
  · exact .refl h

theorem becomes_refuseStale (h : Header) : Becomes limits step h (h.refuseStale limits step.after.lastNow) := by
  rw [refuseStale]
  split
  · rename_i hstale
    rw [stale, Bool.and_eq_true] at hstale
    exact .of_move (.expired (of_decide_eq_true hstale.1) hstale.2)
  · exact .refl h

theorem becomes_dropBody (h : Header) : Becomes limits step h (h.dropBody limits step.after.lastNow) := by
  rw [dropBody]
  split
  · exact .of_touch (.bodyDropped h)
  · exact .refl h

theorem eq_of_retired (hretired : ((h.expireClaim limits now).refuseStale limits now).retired limits now = true) :
    h.retired limits now = true := by
  rw [refuseStale] at hretired
  split at hretired
  · rw [retired, Timestamp.isPast_self, Bool.and_false] at hretired
    cases hretired
  · rw [expireClaim] at hretired
    split at hretired
    · split at hretired
      · rw [retired, Timestamp.isPast_self, Bool.and_false] at hretired
        cases hretired
      · cases hretired
    · exact hretired

end Header

namespace MailboxState

variable {limits : Limits} {step : Step} {s s' swept : MailboxState} {now : Timestamp} {key : WriterKey}
  {generation : Generation} {checkpoint : Checkpoint} {i : ℕ} {hold : Hold} {picks : List Pick}
  {result : Except RegisterRefusal Registered} {h : Header} {req : RegisterRequest} {judged : Option StoredHead}

theorem sweptMessages_eq (limits : Limits) (now : Timestamp) (l : List Header) :
    sweptMessages limits now l = l.filterMap (Header.swept limits now) := by
  induction l with
  | nil => rfl
  | cons h l ih =>
    rw [sweptMessages] at ih ⊢
    rw [map_cons, map_cons, filter_cons]
    cases hretired : ((h.expireClaim limits now).refuseStale limits now).retired limits now with
    | true =>
      rw [filterMap_cons_none (by rw [Header.swept, hretired]; rfl), ← ih]
      rfl
    | false =>
      rw [filterMap_cons_some (by rw [Header.swept, hretired]; rfl), ← ih]
      rfl

theorem Swept.evolves (h : Swept limits now s swept) (hclock : step.after.lastNow = swept.lastNow) :
    Evolves (Becomes limits step) (Gone limits step) s.messages swept.messages := by
  rw [h.messages, sweptMessages_eq, ← h.lastNow, ← hclock]
  apply Evolves.filterMap
  · intro a _ b hb
    rw [Header.swept] at hb
    split at hb
    · cases hb
    · cases hb
      exact a.becomes_expireClaim.trans ((Header.becomes_refuseStale _).trans (Header.becomes_dropBody _))
  · intro a _ hnone
    rw [Header.swept] at hnone
    split at hnone
    · rename_i hretired
      have hold := Header.eq_of_retired hretired
      rw [Header.retired, Bool.and_eq_true] at hold
      exact .inl hold
    · cases hnone

/-! ### What a claim takes -/

theorem fit_sublist (size : Pick → ℕ) (budget : ℕ) (picks : List Pick) (used : ℕ) (first : Bool) :
    (fit size budget picks used first).1.Sublist picks := by
  induction picks generalizing used first with
  | nil => exact List.Sublist.slnil
  | cons pick picks ih =>
    rw [fit]
    split
    · exact (ih used first).cons pick
    · dsimp only
      generalize (if first = true then size pick else size pick + byteLen Frame.separator) = joined
      split
      · exact nil_sublist _
      · exact (ih _ false).cons_cons pick

theorem select_sublist (s : MailboxState) (limits : Limits) (key : WriterKey) (generation : Generation)
    (checkpoint : Checkpoint) :
    (s.select limits key generation checkpoint).1.Sublist (s.eligiblePicks key generation checkpoint) := by
  rw [select]
  split
  · exact List.Sublist.refl _
  · exact fit_sublist ..

theorem nodup_positions {α : Type} (l : List α) (p : α → Bool) {pick : ℕ → Pick} (hpick : Function.Injective pick) :
    ((l.zipIdx.filter fun e => p e.1).map fun e => pick e.2).Nodup := by
  have hpositions : (l.zipIdx.map Prod.snd).Nodup := by
    rw [zipIdx_map_snd]
    exact nodup_range'
  have hsublist : ((l.zipIdx.filter fun e => p e.1).map Prod.snd).Sublist (l.zipIdx.map Prod.snd) :=
    filter_sublist.map _
  have hmap := (hpositions.sublist hsublist).map hpick
  rwa [List.map_map] at hmap

theorem nodup_eligiblePicks (s : MailboxState) (key : WriterKey) (generation : Generation) (checkpoint : Checkpoint) :
    (s.eligiblePicks key generation checkpoint).Nodup := by
  rw [eligiblePicks, nodup_append]
  refine ⟨nodup_positions _ _ fun i j h => Pick.message.inj h, nodup_positions _ _ fun i j h => Pick.notice.inj h, ?_⟩
  intro a ha b hb heq
  obtain ⟨_, _, rfl⟩ := List.mem_map.mp ha
  obtain ⟨_, _, rfl⟩ := List.mem_map.mp hb
  cases heq

theorem eligible_of_pick (h : .message i ∈ (s.select limits key generation checkpoint).1) :
    ∃ header, s.messages[i]? = some header ∧ eligible key generation checkpoint header = true := by
  have hpick := (select_sublist ..).subset h
  rw [eligiblePicks, mem_append] at hpick
  rcases hpick with hpick | hpick
  · obtain ⟨⟨header, j⟩, he, heq⟩ := List.mem_map.mp hpick
    obtain ⟨hmem, heligible⟩ := mem_filter.mp he
    cases heq
    exact ⟨header, mem_zipIdx_iff_getElem?.mp hmem, heligible⟩
  · obtain ⟨_, _, heq⟩ := List.mem_map.mp hpick
    cases heq

theorem noticeEligible_of_pick (h : .notice i ∈ (s.select limits key generation checkpoint).1) :
    ∃ n, s.notices[i]? = some n ∧ noticeEligible key generation checkpoint n = true := by
  have hpick := (select_sublist ..).subset h
  rw [eligiblePicks, mem_append] at hpick
  rcases hpick with hpick | hpick
  · obtain ⟨_, _, heq⟩ := List.mem_map.mp hpick
    cases heq
  · obtain ⟨⟨n, j⟩, he, heq⟩ := List.mem_map.mp hpick
    obtain ⟨hmem, heligible⟩ := mem_filter.mp he
    cases heq
    exact ⟨n, mem_zipIdx_iff_getElem?.mp hmem, heligible⟩

theorem evolves_takeAll {R : Header → Header → Prop} {p : Header → Prop} (hrefl : ∀ h, R h h)
    (hR : ∀ h, p h → R h (h.hold hold now)) (htrans : ∀ {a b c}, R a b → R b c → R a c) (picks : List Pick)
    (hnodup : picks.Nodup) (s : MailboxState) (hpicks : ∀ i h, .message i ∈ picks → s.messages[i]? = some h → p h) :
    Evolves R (fun _ => False) s.messages (takeAll hold now picks s).2.messages := by
  induction picks generalizing s with
  | nil => exact Evolves.refl hrefl
  | cons pick picks ih =>
    obtain ⟨hfresh, hnodup⟩ := nodup_cons.mp hnodup
    have hfirst : Evolves R (fun _ => False) s.messages (s.take hold now pick).2.messages := by
      cases pick with
      | message i => exact Evolves.modify hrefl fun h hh => hR h (hpicks i h mem_cons_self hh)
      | notice i => exact Evolves.refl hrefl
    have hrest := ih hnodup (s.take hold now pick).2 <| by
      intro i h hi hh
      refine hpicks i h (mem_cons_of_mem _ hi) ?_
      cases pick with
      | notice j => exact hh
      | message j =>
        -- another position than the one just taken
        have hne : j ≠ i := by
          rintro rfl
          exact hfresh hi
        have hother : (s.messages.modify j (Header.hold hold now))[i]? = some h := hh
        rwa [getElem?_modify_ne _ _ hne] at hother
    exact hfirst.trans hrest htrans id fun _ hfalse => hfalse

/-- What a claim gives out for a pick, and what it leaves in its place. -/
def TookItem (hold : Hold) (now : Timestamp) (s s' : MailboxState) (item : ClaimedItem) : Pick → Prop
  | .message i => ∃ h, s.messages[i]? = some h ∧ item = s.mailItem h (h.offers + 1) ∧
      s'.messages[i]? = some (h.hold hold now)
  | .notice i => ∃ n, s.notices[i]? = some n ∧ item = s.noticeItem n ∧ s'.notices[i]? = some (n.hold hold)

theorem getElem?_messages_takeAll (hi : .message i ∉ picks) (s : MailboxState) :
    (takeAll hold now picks s).2.messages[i]? = s.messages[i]? := by
  induction picks generalizing s with
  | nil => rfl
  | cons pick picks ih =>
    refine (ih (fun hmem => hi (mem_cons_of_mem _ hmem)) _).trans ?_
    cases pick with
    | notice j => rfl
    | message j =>
      refine getElem?_modify_ne _ _ ?_
      rintro rfl
      exact hi mem_cons_self

theorem getElem?_notices_takeAll (hi : .notice i ∉ picks) (s : MailboxState) :
    (takeAll hold now picks s).2.notices[i]? = s.notices[i]? := by
  induction picks generalizing s with
  | nil => rfl
  | cons pick picks ih =>
    refine (ih (fun hmem => hi (mem_cons_of_mem _ hmem)) _).trans ?_
    cases pick with
    | message j => rfl
    | notice j =>
      refine getElem?_modify_ne _ _ ?_
      rintro rfl
      exact hi mem_cons_self

/-- Every item of a claim is one of its picks. -/
theorem exists_pick_of_mem (hnodup : picks.Nodup) (s : MailboxState)
    {item : ClaimedItem} (h : item ∈ (takeAll hold now picks s).1) :
    ∃ pick ∈ picks, TookItem hold now s (takeAll hold now picks s).2 item pick := by
  induction picks generalizing s with
  | nil => cases h
  | cons pick picks ih =>
    obtain ⟨hfresh, hnodup⟩ := nodup_cons.mp hnodup
    rcases mem_append.mp h with h | h
    · refine ⟨pick, mem_cons_self, ?_⟩
      cases pick with
      | message i =>
        obtain ⟨header, hheader, rfl⟩ := map_eq_some_iff.mp (mem_toList.mp h)
        refine ⟨header, hheader, rfl, ?_⟩
        refine (getElem?_messages_takeAll hfresh _).trans ?_
        exact (getElem?_modify_eq _ _ _).trans (by rw [hheader]; rfl)
      | notice i =>
        obtain ⟨n, hn, rfl⟩ := map_eq_some_iff.mp (mem_toList.mp h)
        refine ⟨n, hn, rfl, ?_⟩
        refine (getElem?_notices_takeAll hfresh _).trans ?_
        exact (getElem?_modify_eq _ _ _).trans (by rw [hn]; rfl)
    · obtain ⟨other, hother, htook⟩ := ih hnodup _ h
      refine ⟨other, mem_cons_of_mem _ hother, ?_⟩
      have hne : pick ≠ other := by
        rintro rfl
        exact hfresh hother
      -- the other pick is found where it was before the first one was taken
      cases other with
      | message i =>
        obtain ⟨header, hheader, hitem, hafter⟩ := htook
        refine ⟨header, ?_, hitem.trans ?_, hafter⟩
        · cases pick with
          | notice j => exact hheader
          | message j =>
            have hkept : (s.messages.modify j (Header.hold hold now))[i]? = some header := hheader
            rwa [getElem?_modify_ne _ _ (fun heq => hne (congrArg Pick.message heq))] at hkept
        · cases pick <;> rfl
      | notice i =>
        obtain ⟨n, hn, hitem, hafter⟩ := htook
        refine ⟨n, ?_, hitem.trans ?_, hafter⟩
        · cases pick with
          | message j => exact hn
          | notice j =>
            have hkept : (s.notices.modify j (Notice.hold hold))[i]? = some n := hn
            rwa [getElem?_modify_ne _ _ (fun heq => hne (congrArg Pick.notice heq))] at hkept
        · cases pick <;> rfl

theorem becomes_hold {now since : Timestamp} {claim : Claim} (hop : step.op = .claim key generation checkpoint now)
    (hanswer : step.answer = .claimed claim) (htoken : claim.token = some hold.token)
    (hclock : step.after.lastNow = since) (hgeneration : hold.generation = generation)
    (hcurrent : step.before.currentGeneration key = some generation)
    (heligible : eligible key generation checkpoint h = true) : Becomes limits step h (h.hold hold since) := by
  subst hclock hgeneration
  rw [eligible, Bool.and_eq_true, Bool.and_eq_true, Bool.and_eq_true] at heligible
  obtain ⟨⟨⟨hstate, hkey⟩, hto⟩, _⟩ := heligible
  exact .of_move (.taken hop hanswer htoken (of_decide_eq_true hkey) (of_decide_eq_true hto) hcurrent
    (of_decide_eq_true hstate))

/-! ### Every call -/

theorem Registration.messages (h : Registration limits req now s judged result s') :
    s' = s ∨ ∃ swept, Swept limits now s swept ∧ s'.messages = swept.messages ∧ s'.lastNow = swept.lastNow := by
  cases h with
  | refused | refreshed => exact .inl rfl
  | created hswept | replaced hswept => exact .inr ⟨_, hswept, rfl, rfl⟩
  | moved hswept =>
    obtain ⟨_, _, _, _, _, hretire⟩ := exists_retire (create _ req _ _ _) _
    rw [hretire]
    exact .inr ⟨_, hswept, rfl, rfl⟩

theorem Registration.evolved (h : Registration limits req now s judged result s') :
    Step.Evolved limits ⟨s, .register req judged now, .registered result, s'⟩ := by
  rcases h.messages with rfl | ⟨swept, hswept, hmessages, hclock⟩
  · exact .of_eq rfl rfl
  · apply Step.Evolved.of_silent rfl
    dsimp only
    rw [hmessages]
    exact hswept.evolves hclock

theorem Appended.evolved {parent : Option ℕ} {header : Header} {swept tried s' : MailboxState} {op : Op}
    {answer : Answer} (h : Appended parent header tried s') (hswept : Swept limits now s swept)
    (hmessages : tried.messages = swept.messages) (hclock : tried.lastNow = swept.lastNow)
    (hrecords : answer.records = true) (hreply : ∀ i a, parent = some i → tried.messages[i]? = some a →
      header.replyTo = some a.id ∧ header.depth = min (a.depth + 1) u32Max ∧ a.answered = false) :
    Step.Evolved limits ⟨s, op, answer, s'⟩ := by
  have hrecorded : Step.recorded ⟨s, op, answer, s'⟩ = some header := by
    rw [Step.recorded, hrecords, if_pos rfl, h.getLast?]
  refine ⟨(tried.answer parent).messages, ?_, ?_⟩
  · refine Evolves.andThen (hswept.evolves (h.lastNow.trans hclock)) ?_
    rw [← hmessages]
    cases parent with
    | none => exact Evolves.refl Becomes.refl
    | some i =>
      refine Evolves.modify Becomes.refl ?_
      intro a ha
      obtain ⟨hto, hdepth, hopen⟩ := hreply i a rfl ha
      exact .of_touch (.answered hrecorded hto hdepth hopen)
  · dsimp only
    rw [hrecorded, h.messages]
    rfl

theorem parent_of_admitted {req : SendRequest} {account : Account} {fromGeneration : Option Generation}
    {admitted : Admitted} (h : s.admitSend limits req account fromGeneration now = .ok admitted) {a : Header}
    (hparent : admitted.parent = some i) (ha : s.messages[i]? = some a) :
    (admitted.parent.bind fun i => s.messages[i]?).map Header.id = some a.id ∧
      admitted.depth = min (a.depth + 1) u32Max ∧ a.answered = false := by
  have hadmissible := admissible h
  have hderived := hadmissible.parent
  rw [hparent] at hderived
  obtain ⟨header, hheader, _, hopen⟩ := derivedParent_eq_some hderived.symm
  rw [ha] at hheader
  cases hheader
  refine ⟨?_, ?_, hopen⟩
  · rw [hparent, bind_some, ha]
    rfl
  · rw [hadmissible.depth, depthUnder, hparent, bind_some, ha]
    rfl

theorem Sending.evolved {req : SendRequest} {result : Except Refusal SendOutcome}
    (h : Sending limits req now s result s') : Step.Evolved limits ⟨s, .send req now, .sent result, s'⟩ := by
  cases h with
  | refused hswept htried =>
    apply Step.Evolved.of_silent rfl
    rw [htried]
    exact hswept.evolves rfl
  | recorded _ hswept htried hadmitted hafter =>
    exact hafter.evolved hswept (by rw [htried]; rfl) (by rw [htried]; rfl) rfl
      fun i a hparent ha => parent_of_admitted hadmitted hparent ha

theorem Leaving.evolved {req : RemoteSend} {result : Except Refusal MessageId}
    (h : Leaving limits req now s result s') : Step.Evolved limits ⟨s, .admitRemote req now, .leaving result, s'⟩ := by
  cases h with
  | mk _ hswept htried =>
    apply Step.Evolved.of_silent rfl
    rw [htried]
    exact hswept.evolves rfl

theorem Ingesting.evolved {mail : RemoteMail} {dead : List WriterKey} {result : Except Refusal Ingested}
    (h : Ingesting limits mail dead now s result s') :
    Step.Evolved limits ⟨s, .ingestRemote mail dead now, .ingested result, s'⟩ := by
  cases h with
  | duplicate hswept => exact .of_silent rfl (hswept.evolves rfl)
  | refused hswept _ htried =>
    apply Step.Evolved.of_silent rfl
    rw [htried]
    exact hswept.evolves rfl
  | recorded _ hswept _ htried _ hafter =>
    exact hafter.evolved hswept (by rw [htried]; rfl) (by rw [htried]; rfl) rfl fun i a hparent => by cases hparent

theorem Claiming.evolved {result : Claim} (h : Claiming limits key generation checkpoint now s result s') :
    Step.Evolved limits ⟨s, .claim key generation checkpoint now, .claimed result, s'⟩ := by
  cases h with
  | idle => exact .of_eq rfl rfl
  | @drained swept _ _ hswept =>
    obtain ⟨bindings, hdrain⟩ := exists_stampDrain swept key swept.lastNow
    apply Step.Evolved.of_silent rfl
    rw [hdrain]
    exact hswept.evolves rfl
  | @took swept drained hold picks tooLarge hcurrent hswept hdrained hhold hpicks =>
    obtain ⟨bindings, hdrain⟩ := exists_stampDrain swept key swept.lastNow
    obtain ⟨messages, notices, htook⟩ := exists_takeAll hold swept.lastNow picks drained
    have hclock : (takeAll hold swept.lastNow picks drained).2.lastNow = swept.lastNow := by
      rw [htook, hdrained, hdrain]
    apply Step.Evolved.of_silent rfl
    refine Evolves.andThen (hswept.evolves hclock) ?_
    have hmessages : swept.messages = drained.messages := by rw [hdrained, hdrain]
    dsimp only
    rw [hmessages]
    apply evolves_takeAll (p := fun h => eligible key generation checkpoint h = true) Becomes.refl
    · intro h heligible
      exact becomes_hold rfl rfl rfl hclock hhold.2 hcurrent heligible
    · exact Becomes.trans
    · rw [hpicks]
      exact (nodup_eligiblePicks ..).sublist (select_sublist ..)
    · intro i h hi hh
      rw [hpicks] at hi
      obtain ⟨header, hheader, heligible⟩ := eligible_of_pick hi
      rw [hh] at hheader
      cases hheader
      exact heligible

theorem heldBy_eq_some {token : AttemptToken} {claimedBy : Generation} (hheld : h.heldBy key token = some claimedBy) :
    h.toKey = key ∧ ∃ deadline, h.state = .inFlight token deadline claimedBy := by
  rw [Header.heldBy] at hheld
  split at hheld
  · rename_i held deadline held' hstate
    split at hheld
    · rename_i hsame
      obtain ⟨hkey, rfl⟩ := hsame
      cases hheld
      exact ⟨hkey, deadline, hstate⟩
    · cases hheld
  · cases hheld

theorem finish_evolved (s : MailboxState) (limits : Limits) (key : WriterKey) (generation : Generation)
    (token : AttemptToken) (now : Timestamp) :
    Step.Evolved limits ⟨s, .finish key generation token now, .finished (s.finish key generation token now).1,
      (s.finish key generation token now).2⟩ := by
  apply Step.Evolved.of_silent rfl
  apply Evolves.map
  intro h hh
  rw [finishHeader]
  split
  · rename_i haccepted
    obtain ⟨claimedBy, hheld, haccepts⟩ := (Option.any_eq_true _ _).mp haccepted
    obtain ⟨hkey, deadline, hstate⟩ := heldBy_eq_some hheld
    rw [accepts, Bool.and_eq_true] at haccepts
    obtain ⟨hcurrent, hsame⟩ := haccepts
    have hclaimed : claimedBy = generation := of_decide_eq_true hsame
    subst hclaimed
    -- the finish found the message, so it moves the clock
    have hfound : (s.messages.filter fun h => (h.heldBy key token).isSome).isEmpty = false :=
      isEmpty_eq_false_iff.mpr (ne_nil_of_mem (mem_filter.mpr ⟨hh, by rw [hheld]; rfl⟩))
    have hclock : (s.finish key claimedBy token now).2.lastNow = max s.lastNow now := by
      show (if _ then _ else _) = _
      rw [hfound, Bool.not_false, Bool.true_or, if_pos rfl]
    rw [← hclock]
    exact .of_move (.offered rfl hkey (of_decide_eq_true hcurrent) hstate)
  · exact .refl h

/-- Every call leaves each message where it was, moved, or gone. -/
theorem evolved (limits : Limits) (s : MailboxState) (ids : IdSource) (op : Op) : (op.step limits s ids).Evolved limits := by
  unfold Op.step Op.call
  cases op with dsimp only
  | register req judged now => exact (registration s limits req judged now ids).evolved
  | forgetKey key =>
    apply Step.Evolved.of_silent rfl
    apply Evolves.filter Becomes.refl
    intro h _ hforgotten
    refine .inr ⟨key, rfl, ?_⟩
    by_contra hparty
    rw [not_or] at hparty
    simp [hparty.1, hparty.2] at hforgotten
  | send req now => exact (sending s limits req now ids).evolved
  | admitRemote req now => exact (leaving s limits req now ids).evolved
  | ingestRemote mail dead now => exact (ingesting s limits mail dead now ids).evolved
  | claim key generation checkpoint now => exact (claiming s limits key generation checkpoint now ids).evolved
  | finish key generation token now => exact finish_evolved s limits key generation token now
  | noteStop key generation blocked =>
    obtain ⟨bindings, h⟩ := exists_noteStop s key generation blocked
    apply Step.Evolved.of_eq rfl
    dsimp only
    rw [h]
  | sweep now => exact .of_silent rfl ((swept s limits now ids).evolves rfl)
  | countRemoteDrop reason machine now | advanceRemoteCursor cursor | queueRemoteRefusal id code | clearRemoteRefusals told => exact .of_eq rfl rfl
  | markRemoteSettled told =>
    apply Step.Evolved.of_silent rfl
    apply Evolves.map
    intro h _
    rw [settleHeader]
    cases horigin : h.origin with
    | none => exact .refl h
    | some origin =>
      dsimp only
      split
      · exact .of_touch (.told horigin)
      · exact .refl h

end MailboxState

end Forgent.Mailbox
