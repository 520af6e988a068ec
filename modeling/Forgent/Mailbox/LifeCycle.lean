import Forgent.Mailbox.Bindings
import Forgent.Mailbox.Moves

/-!
# The life cycle of a message

`Stage` is the life cycle on its own: recorded, in flight, then recorded again, offered or refused.  `Life` is the
history of one message in a run; `message_life_cycle` says that it follows the stages, and what each of its moves rests on.
-/

namespace Forgent.Mailbox

open List Option

/-! ### The stages -/

inductive Stage
  | recorded
  | inFlight (token : AttemptToken) (generation : Generation)
  | offered
  | refused
deriving DecidableEq

namespace Stage

/-- The stage after an event, if the event can happen in the stage. -/
def next : Stage → Event → Option Stage
  | recorded, .taken token generation => some (inFlight token generation)
  | recorded, .refused _ => some refused
  | inFlight _ _, .lapsed => some recorded
  | inFlight _ _, .refused _ => some refused
  | inFlight token generation, .offered token' generation' =>
    if token = token' ∧ generation = generation' then some offered else none
  | _, _ => none

/-- The stage after the events. -/
def follow : Stage → List Event → Option Stage
  | stage, [] => some stage
  | stage, event :: events => (stage.next event).bind fun stage => stage.follow events

theorem follow_append (stage : Stage) (events events' : List Event) :
    stage.follow (events ++ events') = (stage.follow events).bind fun stage => stage.follow events' := by
  induction events generalizing stage with
  | nil => rfl
  | cons event events ih =>
    rw [cons_append, follow, follow, bind_assoc]
    congr 1
    funext stage'
    exact ih stage'

variable {events : List Event} {event : Event}

theorem follow_concat {stage mid after : Stage}
    (h : stage.follow events = some mid) (hnext : mid.next event = some after) :
    stage.follow (events ++ [event]) = some after := by
  rw [follow_append, h, bind_some, follow, hnext]
  rfl

theorem exists_of_follow {stage last : Stage} {past rest : List Event}
    (h : stage.follow (past ++ event :: rest) = some last) :
    ∃ mid after, stage.follow past = some mid ∧ mid.next event = some after ∧ after.follow rest = some last := by
  rw [follow_append] at h
  obtain ⟨mid, hmid, hrest⟩ := bind_eq_some_iff.mp h
  rw [follow] at hrest
  obtain ⟨after, hafter, hrest⟩ := bind_eq_some_iff.mp hrest
  exact ⟨mid, after, hmid, hafter, hrest⟩

theorem eq_nil_of_final {stage last : Stage} (hstage : stage = offered ∨ stage = refused)
    (h : stage.follow events = some last) : events = [] := by
  cases events with
  | nil => rfl
  | cons event events =>
    rcases hstage with rfl | rfl
    · cases h
    · cases h

theorem exists_taken {token : AttemptToken} {generation : Generation}
    (h : recorded.follow events = some (inFlight token generation)) :
    ∃ past, events = past ++ [.taken token generation] := by
  rcases eq_nil_or_concat' events with rfl | ⟨past, event, rfl⟩
  · cases h
  · obtain ⟨mid, after, _, hnext, hlast⟩ := exists_of_follow h
    cases hlast
    refine ⟨past, ?_⟩
    cases mid with
    | recorded =>
      cases event with
      | taken token' generation' =>
        cases hnext
        rfl
      | _ => cases hnext
    | inFlight token' generation' =>
      cases event with
      | offered token'' generation'' =>
        rw [next] at hnext
        split at hnext <;> cases hnext
      | _ => cases hnext
    | offered | refused => cases hnext

end Stage

def MessageState.stage : MessageState → Stage
  | .recorded => .recorded
  | .inFlight token _ generation => .inFlight token generation
  | .offered _ => .offered
  | .refused _ _ => .refused

/-! ### Histories -/

def Event.isTaken : Event → Bool
  | .taken _ _ => true
  | _ => false

/-- How often the message was claimed. -/
def timesTaken (history : List (Step × Event)) : ℕ := history.countP fun e => e.2.isTaken

/-- A message of the record a run reaches: the step that recorded it, and its events since, oldest first. -/
inductive Life (limits : Limits) : List Step → Step → Header → List (Step × Event) → Prop
  | recorded {steps : List Step} {step : Step} {h : Header} (hrecorded : step.recorded = some h) :
      Life limits (steps ++ [step]) step h []
  | moved {steps : List Step} {record step : Step} {h h' : Header} {history : List (Step × Event)} {events : List Event}
      (hlife : Life limits steps record h history) (hmoves : Moves limits step h events h') :
      Life limits (steps ++ [step]) record h' (history ++ events.map fun event => (step, event))

/-- What holds of a message with its history. -/
structure Lawful (limits : Limits) (h : Header) (history : List (Step × Event)) : Prop where
  /-- The message is in the stage that its events lead to. -/
  follows : Stage.recorded.follow (history.map Prod.snd) = some h.state.stage
  /-- It is claimed at most as often as the limits allow, and once at least when they allow nothing. -/
  taken_le : timesTaken history ≤ max 1 limits.maxOffers
  /-- A recorded message can be claimed once more. -/
  room : h.state = .recorded → timesTaken history < max 1 limits.maxOffers
  offers : h.offers = timesTaken history
  /-- Its last change is its last event, or its recording. -/
  changedAt : h.changedAt = history.getLast?.elim h.recordedAt fun e => e.1.after.lastNow
  /-- It is claimed by the generation it was sent to, which is current then. -/
  taken : ∀ step token generation, (step, .taken token generation) ∈ history →
    ∃ checkpoint now claim, step.op = .claim h.toKey generation checkpoint now ∧ step.answer = .claimed claim ∧
      claim.token = some token ∧ generation = h.toGeneration ∧
      step.before.currentGeneration h.toKey = some generation
  /-- It is offered by a finish with the token and the generation, which is current then. -/
  finished : ∀ step token generation, (step, .offered token generation) ∈ history →
    (∃ now, step.op = .finish h.toKey generation token now) ∧ step.before.currentGeneration h.toKey = some generation

section

variable {limits : Limits} {step : Step} {h h' : Header} {event : Event} {history : List (Step × Event)}
  {events : List Event}

theorem timesTaken_concat (history : List (Step × Event)) (step : Step) (event : Event) :
    timesTaken (history ++ [(step, event)]) = timesTaken history + if event.isTaken then 1 else 0 := by
  rw [timesTaken, countP_append, countP_singleton]
  rfl

section

variable (hmove : Move limits step h event h')

include hmove

theorem Move.next : h.state.stage.next event = some h'.state.stage := by
  cases hmove with
  | taken _ _ _ _ _ _ hstate | lapsed hstate | exhausted hstate | expired hstate => rw [hstate]; rfl
  | offered _ _ _ hstate =>
    rw [hstate, MessageState.stage, Stage.next, if_pos ⟨rfl, rfl⟩]
    rfl

theorem Move.toKey : h'.toKey = h.toKey := by cases hmove <;> rfl

theorem Move.toGeneration : h'.toGeneration = h.toGeneration := by
  cases hmove <;> rfl

end

theorem Touch.toKey (htouch : Touch step h h') : h'.toKey = h.toKey := by cases htouch <;> rfl

theorem Touch.toGeneration (htouch : Touch step h h') : h'.toGeneration = h.toGeneration := by cases htouch <;> rfl

theorem Moves.toKey (hmoves : Moves limits step h events h') : h'.toKey = h.toKey := by
  induction hmoves with
  | refl => rfl
  | touch _ htouch ih => exact htouch.toKey.trans ih
  | move _ hmove ih => exact hmove.toKey.trans ih

theorem Moves.toGeneration (hmoves : Moves limits step h events h') : h'.toGeneration = h.toGeneration := by
  induction hmoves with
  | refl => rfl
  | touch _ htouch ih => exact htouch.toGeneration.trans ih
  | move _ hmove ih => exact hmove.toGeneration.trans ih

section

variable (hmove : Move limits step h event h')

include hmove

theorem Move.changedAt : h'.changedAt = step.after.lastNow := by
  cases hmove <;> rfl

theorem Move.offers : h'.offers = h.offers + if event.isTaken then 1 else 0 := by
  cases hmove <;> rfl

theorem Move.room (hstate : h'.state = .recorded) : event.isTaken = false ∧ h.offers < limits.maxOffers := by
  cases hmove with
  | lapsed _ _ hoffers => exact ⟨rfl, hoffers⟩
  | _ => cases hstate

theorem Move.recorded_of_taken (htaken : event.isTaken = true) : h.state = .recorded := by
  cases hmove with
  | taken _ _ _ _ _ _ hstate => exact hstate
  | _ => cases htaken

end

section

variable (hlawful : Lawful limits h history)

include hlawful

theorem Lawful.touch (htouch : Touch step h h') : Lawful limits h' history := by
  cases htouch with
  | answered | bodyDropped | told => exact { hlawful with }

theorem Lawful.move (hmove : Move limits step h event h') : Lawful limits h' (history ++ [(step, event)]) where
  follows := by
    rw [map_append]
    exact Stage.follow_concat hlawful.follows hmove.next
  taken_le := by
    rw [timesTaken_concat]
    by_cases htaken : event.isTaken = true
    · have hroom := hlawful.room (hmove.recorded_of_taken htaken)
      rw [if_pos htaken]
      omega
    · rw [if_neg htaken]
      exact hlawful.taken_le
  room hstate := by
    obtain ⟨htaken, hoffers⟩ := hmove.room hstate
    rw [hlawful.offers] at hoffers
    rw [timesTaken_concat, htaken, if_neg Bool.false_ne_true]
    omega
  offers := by rw [hmove.offers, hlawful.offers, timesTaken_concat]
  changedAt := by
    rw [getLast?_concat]
    exact hmove.changedAt
  taken past token generation hmem := by
    rw [hmove.toKey, hmove.toGeneration]
    rcases mem_append.mp hmem with hmem | hmem
    · exact hlawful.taken past token generation hmem
    · cases mem_singleton.mp hmem
      cases hmove with
      | taken hop hanswer htoken hkey hgeneration hcurrent =>
        subst hkey hgeneration
        exact ⟨_, _, _, hop, hanswer, htoken, rfl, hcurrent⟩
  finished past token generation hmem := by
    rw [hmove.toKey]
    rcases mem_append.mp hmem with hmem | hmem
    · exact hlawful.finished past token generation hmem
    · cases mem_singleton.mp hmem
      cases hmove with
      | offered hop hkey hcurrent =>
        subst hkey
        exact ⟨⟨_, hop⟩, hcurrent⟩

theorem Lawful.moves (hmoves : Moves limits step h events h') :
    Lawful limits h' (history ++ events.map fun event => (step, event)) := by
  induction hmoves with
  | refl =>
    rw [map_nil, append_nil]
    exact hlawful
  | touch _ htouch ih => exact ih.touch htouch
  | move _ hmove ih =>
    rw [map_append, ← append_assoc]
    exact ih.move hmove

end

theorem Lawful.recorded (hstate : h.state = .recorded) (hoffers : h.offers = 0) (hchanged : h.changedAt = h.recordedAt) :
    Lawful limits h [] where
  follows := by rw [hstate]; rfl
  taken_le := Nat.zero_le _
  room _ := by
    show 0 < _
    omega
  offers := hoffers
  changedAt := hchanged
  taken _ _ _ hmem := by cases hmem
  finished _ _ _ hmem := by cases hmem

theorem Lawful.last_of_offered (hlawful : Lawful limits h history) {past rest : List (Step × Event)}
    {token : AttemptToken} {generation : Generation} (heq : history = past ++ (step, .offered token generation) :: rest) :
    rest = [] ∧ ∃ older claimed, past = older ++ [(claimed, .taken token generation)] := by
  have hfollows := hlawful.follows
  rw [heq, map_append, map_cons] at hfollows
  obtain ⟨mid, after, hpast, hnext, hrest⟩ := Stage.exists_of_follow hfollows
  cases mid with
  | inFlight token' generation' =>
    rw [Stage.next] at hnext
    split at hnext
    · rename_i hsame
      obtain ⟨rfl, rfl⟩ := hsame
      cases hnext
      refine ⟨map_eq_nil_iff.mp (Stage.eq_nil_of_final (.inl rfl) hrest), ?_⟩
      obtain ⟨older, holder⟩ := Stage.exists_taken hpast
      obtain ⟨before, claim, rfl, _, hclaim⟩ := map_eq_append_iff.mp holder
      obtain ⟨e, rfl, he⟩ := map_eq_singleton_iff.mp hclaim
      refine ⟨before, e.1, ?_⟩
      rw [← he]
    · cases hnext
  | _ => cases hnext

theorem Lawful.last_of_refused (hlawful : Lawful limits h history) {past rest : List (Step × Event)}
    {reason : RefusalReason} (heq : history = past ++ (step, .refused reason) :: rest) : rest = [] := by
  have hfollows := hlawful.follows
  rw [heq, map_append, map_cons] at hfollows
  obtain ⟨mid, after, _, hnext, hrest⟩ := Stage.exists_of_follow hfollows
  have hafter : after = .refused := by
    cases mid with
    | recorded | inFlight => cases hnext; rfl
    | _ => cases hnext
  exact map_eq_nil_iff.mp (Stage.eq_nil_of_final (.inr hafter) hrest)

end

variable {limits : Limits} {s : MailboxState} {h : Header} {steps : List Step} {history : List (Step × Event)}
  {record : Step}

theorem lawful_recorded {op : Op} {ids : IdSource}
    (hrecorded : (op.step limits s ids).recorded = some h) : Lawful limits h [] := by
  have hrecording := MailboxState.recording hrecorded
  generalize (op.call limits s ids).2 = s' at hrecording
  cases hrecording with
  | sent | landed => exact .recorded rfl rfl rfl

theorem Life.exists_recorded (hlife : Life limits steps record h history) :
    record ∈ steps ∧ ∃ first, record.recorded = some first ∧ first.toKey = h.toKey ∧
      first.toGeneration = h.toGeneration := by
  induction hlife with
  | recorded hrecorded =>
    exact ⟨mem_append_right _ (mem_singleton_self _), _, hrecorded, rfl, rfl⟩
  | moved _ hmoves ih =>
    obtain ⟨hmem, first, hfirst, hkey, hgeneration⟩ := ih
    exact ⟨mem_append_left _ hmem, first, hfirst, hkey.trans hmoves.toKey.symm,
      hgeneration.trans hmoves.toGeneration.symm⟩

theorem Life.lawful
    (hlife : Life limits steps record h history) (hrun : Run limits steps s) : Lawful limits h history := by
  induction hlife generalizing s with
  | recorded hrecorded =>
    obtain ⟨before, op, ids, _, rfl, _⟩ := hrun.exists_last
    exact lawful_recorded hrecorded
  | moved _ hmoves ih =>
    obtain ⟨before, op, ids, hbefore, rfl, _⟩ := hrun.exists_last
    exact (ih hbefore).moves hmoves

theorem exists_life (hrun : Run limits steps s) :
    ∀ h ∈ s.messages, ∃ record history, Life limits steps record h history := by
  induction hrun with
  | nil =>
    intro h hh
    cases hh
  | @snoc steps s _ op ids ih =>
    intro h hh
    obtain ⟨kept, hevolves, hmessages⟩ := MailboxState.evolved limits s ids op
    have hmem : h ∈ kept ++ (op.step limits s ids).recorded.toList := hmessages ▸ hh
    rcases mem_append.mp hmem with hkept | hnew
    · obtain ⟨before, hbefore, events, hmoves⟩ := hevolves.exists_of_mem hkept
      obtain ⟨record, history, hlife⟩ := ih before hbefore
      exact ⟨record, _, hlife.moved hmoves⟩
    · exact ⟨_, [], .recorded (mem_toList.mp hnew)⟩

/-- In every step of a run each message stays in its place, moves along the life cycle or goes as it may; and the
history of each message follows the stages, with a bounded number of claims, an offer only by its latest claim's
finish, and nothing after an offer or a refusal. -/
theorem message_life_cycle {limits : Limits} {steps : List Step} {s : MailboxState} (hrun : Run limits steps s) :
    (∀ step ∈ steps, step.Evolved limits) ∧ (∀ h ∈ s.messages, ∃ record history, Life limits steps record h history) ∧
    ∀ record h history, Life limits steps record h history → Lawful limits h history ∧
      (∀ past step token generation rest, history = past ++ (step, .offered token generation) :: rest →
        rest = [] ∧ ∃ older claimed, past = older ++ [(claimed, .taken token generation)]) ∧
      ∀ past step reason rest, history = past ++ (step, .refused reason) :: rest → rest = [] := by
  refine ⟨?_, exists_life hrun, ?_⟩
  · induction hrun with
    | nil =>
      intro step hstep
      cases hstep
    | @snoc steps s _ op ids ih =>
      intro step hstep
      rcases mem_append.mp hstep with hstep | hstep
      · exact ih step hstep
      · rw [mem_singleton.mp hstep]
        exact MailboxState.evolved limits s ids op
  · intro record h history hlife
    have hlawful := hlife.lawful hrun
    exact ⟨hlawful, fun _ _ _ _ _ heq => hlawful.last_of_offered heq, fun _ _ _ _ heq => hlawful.last_of_refused heq⟩

namespace Sample

def sendTo (sender recipient : WriterKey) : SendRequest where
  fromKey := sender
  recipient := .key recipient
  body := "hi"
  wake := false
  replyTo := none
  deadKeys := []
  stopDrains := []
  nudgeClis := []

/-- The key `q` sends to the key `p`, which claims the message, lets the deadline pass, and claims it again. -/
def secondOffer : List (Op × IdSource) :=
  [(.register (request (key "p") "p1" "P") none 1, ids), (.register (request (key "q") "q1" "Q") none 2, ids),
    (.send (sendTo (key "q") (key "p")) 3, ids), (.claim (key "p") 1 .step 4, ids),
    (.claim (key "p") 1 .step 200000, ids), (.finish (key "p") 1 ⟨"1"⟩ 200001, ids)]

end Sample

/-- The message is offered after two claims. -/
theorem message_life_cycle_second_offer : ∃ record h history,
    Life Sample.limits (play Sample.limits Sample.secondOffer).1 record h history ∧ h.state = .offered 200001 ∧
      timesTaken history = 2 := by
  have hmessages : (play Sample.limits Sample.secondOffer).2.messages.map (fun h => (h.state, h.offers)) =
      [(.offered 200001, 2)] := by decide
  obtain ⟨h, hh, heq⟩ := List.mem_map.mp (hmessages ▸ mem_singleton_self _ :
    (.offered 200001, 2) ∈ (play Sample.limits Sample.secondOffer).2.messages.map fun h => (h.state, h.offers))
  obtain ⟨_, hlives, hlawful⟩ := message_life_cycle (run_play Sample.limits Sample.secondOffer)
  obtain ⟨record, history, hlife⟩ := hlives h hh
  obtain ⟨hstate, hoffers⟩ := Prod.mk.inj heq
  exact ⟨record, h, history, hlife, hstate, (hlawful record h history hlife).1.offers ▸ hoffers⟩

end Forgent.Mailbox
