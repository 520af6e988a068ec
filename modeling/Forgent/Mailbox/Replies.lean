import Forgent.Mailbox.Queues

/-!
# Replies

A recorded reply is one deeper than its derived parent, and takes it: the parent is answered from then on, and no
later reply has it.  Messages are told apart by their ids, so the replies to an id are counted against the messages
that carry it.
-/

namespace Forgent.Mailbox

open List Option

def openMessage (id : MessageId) (h : Header) : Bool := decide (h.id = id) && !h.answered

/-- What the reply that a step records has to do with its parent. -/
def Step.RepliesTo (step : Step) (header : Header) (parent : MessageId) : Prop :=
  ∃ h ∈ step.before.messages, h.id = parent ∧ h.answered = false ∧ header.depth = min (h.depth + 1) u32Max

section

variable {limits : Limits} {step : Step} {h h' : Header} {parent : MessageId}

variable (hbecomes : Becomes limits step h h')

include hbecomes

theorem Becomes.depth : h'.depth = h.depth :=
  (congrArg Header.depth hbecomes.sealed :)

theorem Becomes.open (hopen : h'.answered = false) : h.answered = false := by
  obtain ⟨events, hmoves⟩ := hbecomes
  induction hmoves with
  | refl => exact hopen
  | touch _ htouch ih =>
    apply ih
    cases htouch with
    | answered => cases hopen
    | bodyDropped | told => exact hopen
  | move _ hmove ih =>
    apply ih
    cases hmove <;> exact hopen

theorem Becomes.openMessage (hopen : openMessage parent h' = true) : openMessage parent h = true := by
  unfold Mailbox.openMessage at hopen ⊢
  rw [Bool.and_eq_true, Bool.not_eq_true'] at hopen ⊢
  rw [hbecomes.id] at hopen
  exact ⟨hopen.1, hbecomes.open hopen.2⟩

end

namespace MailboxState

variable {s s' : MailboxState} {limits : Limits} {op : Op} {header : Header}

theorem countP_open_answer {i : ℕ} {h : Header} (hh : s.messages[i]? = some h) (hopen : h.answered = false) (id : MessageId) :
    (s.answer (some i)).messages.countP (openMessage id) + (if h.id = id then 1 else 0) =
      s.messages.countP (openMessage id) := by
  show (s.messages.modify i fun h => { h with answered := true }).countP _ + _ = _
  generalize s.messages = messages at hh ⊢
  induction messages generalizing i with
  | nil => cases hh
  | cons a l ih =>
    cases i with
    | zero =>
      cases hh
      rw [modify_zero_cons, countP_cons, countP_cons]
      by_cases hid : h.id = id
      · simp [openMessage, hid, hopen]
      · simp [openMessage, hid]
    | succ i =>
      rw [modify_succ_cons, countP_cons, countP_cons, ← ih (i := i) hh]
      omega

theorem Recording.reply (h : Recording limits s s' op header) :
    ∃ (now : Timestamp) (swept tried : MailboxState) (parent : Option ℕ), Swept limits now s swept ∧
      tried.messages = swept.messages ∧ s'.messages = (tried.answer parent).messages ++ [header] ∧
      header.answered = false ∧ ((parent = none ∧ header.replyTo = none ∧ header.depth = 0) ∨
        ∃ i h, parent = some i ∧ tried.messages[i]? = some h ∧ header.replyTo = some h.id ∧ h.answered = false ∧
          header.depth = min (h.depth + 1) u32Max) := by
  cases h with
  | @sent req swept tried admitted _ _ now hswept htried hadmitted hafter =>
    refine ⟨now, swept, tried, admitted.parent, hswept, by rw [htried]; rfl, hafter.messages, rfl, ?_⟩
    have hadmissible := admissible hadmitted
    cases hparent : admitted.parent with
    | none =>
      left
      refine ⟨rfl, rfl, ?_⟩
      show admitted.depth = 0
      rw [hadmissible.depth, hparent]
      rfl
    | some i =>
      right
      have hderived := hadmissible.parent
      rw [hparent] at hderived
      obtain ⟨a, ha, _, _⟩ := derivedParent_eq_some hderived.symm
      obtain ⟨hreply, hdepth, hopen⟩ := parent_of_admitted hadmitted hparent ha
      refine ⟨i, a, rfl, ha, ?_, hopen, hdepth⟩
      rw [hparent] at hreply
      exact hreply
  | @landed mail _ swept tried recipient _ _ now hswept _ htried hadmitted hafter =>
    exact ⟨now, swept, tried, none, hswept, by rw [htried]; rfl, hafter.messages, rfl, .inl ⟨rfl, rfl, rfl⟩⟩

theorem replied {ids : IdSource} (h : (op.step limits s ids).recorded = some header) :
    (header.replyTo = none ∧ header.depth = 0) ∨
      ∃ parent, header.replyTo = some parent ∧ (op.step limits s ids).RepliesTo header parent := by
  obtain ⟨now, swept, tried, parent, hswept, htried, _, _, hreply⟩ := (recording h).reply
  rcases hreply with ⟨_, hnone, hdepth⟩ | ⟨i, a, _, ha, hreply, hopen, hdepth⟩
  · exact .inl ⟨hnone, hdepth⟩
  · right
    refine ⟨a.id, hreply, ?_⟩
    rw [htried] at ha
    -- the parent is still in the record after the sweep, so it was there before
    obtain ⟨b, hb, hbecomes⟩ := (@Swept.evolves _ ⟨s, .sweep now, .done, swept⟩ _ _ _ hswept rfl).exists_of_mem
      (mem_of_getElem? ha)
    refine ⟨b, hb, hbecomes.id.symm, hbecomes.open hopen, ?_⟩
    rw [hdepth, hbecomes.depth]

end MailboxState

def repliesTo (id : MessageId) (steps : List Step) : ℕ := (recorded steps).countP fun h => h.replyTo = some id

def carrying (id : MessageId) (steps : List Step) : ℕ := (recorded steps).countP fun h => h.id = id

section

variable {limits : Limits} {steps : List Step} {s : MailboxState}

/-- A step takes one open message of an id for each reply to it. -/
theorem MailboxState.countP_open_call (s : MailboxState) (op : Op) (ids : IdSource) (id : MessageId) :
    (op.step limits s ids).recorded.toList.countP (fun h => h.replyTo = some id) +
        (op.call limits s ids).2.messages.countP (openMessage id) ≤
      s.messages.countP (openMessage id) + (op.step limits s ids).recorded.toList.countP fun h => h.id = id := by
  cases hrecorded : (op.step limits s ids).recorded with
  | none =>
    obtain ⟨kept, hevolves, hmessages⟩ := evolved limits s ids op
    replace hmessages : (op.call limits s ids).2.messages = kept ++ (op.step limits s ids).recorded.toList := hmessages
    have hkept := hevolves.countP_le (p := openMessage id) (q := openMessage id) fun h hopen => h.openMessage hopen
    rw [hmessages, hrecorded, toList_none, append_nil, countP_nil, Nat.zero_add]
    exact hkept
  | some header =>
    obtain ⟨now, swept, tried, parent, hswept, htried, hmessages, hnew, hreply⟩ := (recording hrecorded).reply
    have hkept : swept.messages.countP (openMessage id) ≤ s.messages.countP (openMessage id) :=
      (@Swept.evolves _ ⟨s, .sweep now, .done, swept⟩ _ _ _ hswept rfl).countP_le fun h hopen => h.openMessage hopen
    have hopen : openMessage id header = decide (header.id = id) := by
      rw [openMessage, hnew, Bool.not_false, Bool.and_true]
    rw [hmessages, countP_append, toList_some, countP_singleton, countP_singleton, countP_singleton, hopen]
    rcases hreply with ⟨rfl, hnone, _⟩ | ⟨i, a, rfl, ha, hto, haopen, _⟩
    · have hall : (tried.answer none).messages = swept.messages := htried
      rw [hnone, hall, decide_eq_false (by simp), if_neg Bool.false_ne_true]
      omega
    · have htaken := countP_open_answer ha haopen id
      rw [htried] at htaken
      have hsame : (decide (header.replyTo = some id)) = decide (a.id = id) := by simp only [hto, some.injEq]
      rw [hsame]
      by_cases hid : a.id = id
      · rw [if_pos hid] at htaken
        rw [if_pos (decide_eq_true hid)]
        omega
      · rw [if_neg hid] at htaken
        rw [decide_eq_false hid, if_neg Bool.false_ne_true]
        omega

theorem Run.repliesTo_le (hrun : Run limits steps s) (id : MessageId) :
    repliesTo id steps + s.messages.countP (openMessage id) ≤ carrying id steps := by
  induction hrun with
  | nil => exact Nat.le_refl _
  | @snoc steps s _ op ids ih =>
    have hstep := @MailboxState.countP_open_call limits s op ids id
    unfold repliesTo carrying at ih ⊢
    rw [countP_recorded_snoc, countP_recorded_snoc]
    omega

theorem Run.replied (hrun : Run limits steps s) {step : Step} (hstep : step ∈ steps) {header : Header}
    (hrecorded : step.recorded = some header) :
    header.depth ≤ limits.chainMaxDepth ∧ ((header.replyTo = none ∧ header.depth = 0) ∨
      ∃ parent, header.replyTo = some parent ∧ step.RepliesTo header parent) := by
  obtain ⟨past, rest, rfl⟩ := append_of_mem hstep
  obtain ⟨op, ids, _, heq⟩ := hrun.before
  rw [heq] at hrecorded ⊢
  obtain ⟨_, _, _, _, _, _, _, _, _, _, _, hchecked⟩ := (MailboxState.recording hrecorded).checked
  exact ⟨hchecked.depth, MailboxState.replied hrecorded⟩

end

end Forgent.Mailbox
