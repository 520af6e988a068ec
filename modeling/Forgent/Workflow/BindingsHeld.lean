import Forgent.Workflow.BindingSteps

/-!
# A worktree is bound by its own case

A record is made, committed and removed by the case that owns it, for the generation that case holds.  From when a
reservation that writes is recorded, its worktree stays bound to the case until the case itself releases it behind the
reservation, after it found the custody lease free.

* `ByOwner`, `OnLedger`, `OneOwner`, `StaysBound`: what is said of the records.
* `Sound`, `Sound.step`, `Sound.begin`: the invariant of one case.
* `AllSound.act`, `allSound_of_run`: every run.
-/

namespace Forgent.Workflow.CaseBindings

open List Std.ExtTreeMap Option

open WriteScope (canonicalizeWrites)

/-! ### What is said of the records -/

/-- A step of a case does what it may, and nothing else changes a record. -/
def ByOwner (w w' : World) : Act → Prop
  | .step caseId => ∀ task ∈ (w.cases caseId).todo.head?, task.Does caseId w.records w'.records
  | _ => w'.records = w.records

def OnLedger (w : World) : Prop :=
  ∀ (worktree : String) (record : Record), w.records[worktree]? = some record → record.committed = true →
    ∃ event ∈ (w.cases record.caseId).ledger, recordsBound record.caseId record.generation event = true

/-- Two cases never both read a worktree as bound. -/
def OneOwner (w : World) : Prop :=
  ∀ worktree view view' caseId caseId', (readBinding w.records view caseId worktree).answer = .bound →
    (readBinding w.records view' caseId' worktree).answer = .bound → caseId = caseId'

/-- The worktree of a recorded reservation that writes is bound to the case, or the case released it behind the
reservation, after it found the custody lease free. -/
def StaysBound (w : World) : Prop :=
  ∀ caseId before reservation behind, (w.cases caseId).ledger = before ++ .reservation reservation :: behind →
    reservation.writes ≠ [] → ∃ worktree, reservation.worktree = some worktree ∧
      ((readBinding w.records .marked caseId worktree).answer = .bound ∨
        ∃ generation, .binding ⟨caseId, generation, worktree, worktree, .unbound⟩ ∈ behind ∧
          ⟨caseId, worktree, generation⟩ ∈ w.quiet)

/-! ### The invariant of a case -/

def Bound (records : Table Record) (caseId worktree : String) : Prop :=
  ∃ generation, records[worktree]? = some ⟨caseId, generation, true⟩

def WritesIn (worktree : String) : Event → Prop
  | .reservation p => p.writes ≠ [] ∧ p.worktree = some worktree
  | _ => False

/-- Every reservation that writes in the worktree has a release behind it that found the custody lease free. -/
def Released (quiet : List Quiet) (caseId worktree : String) (ledger : List Event) : Prop :=
  ∀ before event behind, ledger = before ++ event :: behind → WritesIn worktree event →
    ∃ generation, .binding ⟨caseId, generation, worktree, worktree, .unbound⟩ ∈ behind ∧
      ⟨caseId, worktree, generation⟩ ∈ quiet

/-- What an admission appends behind the binding of a worktree. -/
def Reserving.WritesOnlyIn (reserving : Reserving) (Allowed : String → Prop) : Prop :=
  ∀ event ∈ reserving.events, isNote event = true ∨
    ∃ reservation worktree, event = .reservation reservation ∧ reservation.worktree = some worktree ∧ Allowed worktree

def Task.Serves (records : Table Record) (caseId : String) : Task → Prop
  | .bind _ worktree behind | .create worktree _ behind | .record worktree _ behind | .commit worktree _ behind
  | .replace worktree _ behind => ∀ reserving ∈ behind, reserving.WritesOnlyIn (· = worktree)
  | .reserve reserving _ => reserving.WritesOnlyIn (Bound records caseId)
  | .append event => isNote event = true
  | _ => True

structure Sound (records : Table Record) (quiet : List Quiet) (caseId : String) (ledger : List Event)
    (todo : List Task) : Prop where
  holding : Holding records caseId todo
  onLedger : ∀ (worktree : String) (generation : ℕ), records[worktree]? = some ⟨caseId, generation, true⟩ →
    ∃ event ∈ ledger, recordsBound caseId generation event = true
  /-- What is about to be committed is on the ledger. -/
  recorded : ∀ worktree generation behind,
    .commit worktree generation behind ∈ todo ∨ .replace worktree generation behind ∈ todo →
      ∃ event ∈ ledger, recordsBound caseId generation event = true
  serves : ∀ task ∈ todo, task.Serves records caseId
  found : ∀ worktree record, .recordUnbound worktree record ∈ todo →
    (⟨caseId, worktree, record.generation⟩ : Quiet) ∈ quiet
  released : ∀ worktree record, .unlink worktree record ∈ todo → record.committed = true →
    Released quiet caseId worktree ledger
  stays : ∀ worktree, Bound records caseId worktree ∨ Released quiet caseId worktree ledger
  named : ∀ reservation, .reservation reservation ∈ ledger → reservation.writes ≠ [] →
    ∃ worktree, reservation.worktree = some worktree

section

variable {w w' : World} {caseId : String} {records records' : Table Record} {quiet quiet' : List Quiet}
  {ledger events : List Event} {todo rest : List Task} {task : Task} {next : Option (List Task)} {worktree : String}
  {generation : ℕ} {t : Task} {event : Event} {record : Record} {behind : Option Reserving} {ask : Ask}
  {tasks : List Task} {a : Act}

theorem Released.append (h : Released quiet caseId worktree ledger) (hevent : ¬ WritesIn worktree event) :
    Released quiet caseId worktree (ledger ++ [event]) := by
  refine forall_position_append h (fun before e behind hreleased hwrites => ?_) fun hwrites => absurd hwrites hevent
  obtain ⟨generation, hmem, hquiet⟩ := hreleased hwrites
  exact ⟨generation, mem_append_left _ hmem, hquiet⟩

theorem released_of_unbound (hquiet : (⟨caseId, worktree, generation⟩ : Quiet) ∈ quiet) :
    Released quiet caseId worktree (ledger ++ [.binding ⟨caseId, generation, worktree, worktree, .unbound⟩]) := by
  intro before event behind heq hwrites
  have hlast := congrArg List.getLast? heq
  rw [getLast?_concat, getLast?_append, getLast?_cons] at hlast
  cases hbehind : behind.getLast? with
  | none =>
    rw [hbehind] at hlast
    cases hlast
    exact hwrites.elim
  | some last =>
    rw [hbehind] at hlast
    cases hlast
    exact ⟨generation, mem_of_getLast? hbehind, hquiet⟩

theorem Released.mono (h : Released quiet caseId worktree ledger) (hquiet : ∀ q ∈ quiet, q ∈ quiet') :
    Released quiet' caseId worktree ledger := by
  intro before event behind heq hwrites
  obtain ⟨generation, hmem, hfound⟩ := h before event behind heq hwrites
  exact ⟨generation, hmem, hquiet _ hfound⟩

theorem not_writesIn_of_isNote (h : isNote event = true) : ¬ WritesIn worktree event := by
  intro hwrites
  cases event with
  | reservation p => exact hwrites.1 (eq_of_beq h)
  | _ => exact hwrites

theorem Sound.frame (h : Sound records quiet caseId ledger todo)
    (hsame : ∀ (worktree : String) (record : Record), record.caseId = caseId →
      (records'[worktree]? = some record ↔ records[worktree]? = some record))
    (hquiet : ∀ q ∈ quiet, q ∈ quiet') : Sound records' quiet' caseId ledger todo := by
  have hbound : ∀ {key}, Bound records' caseId key ↔ Bound records caseId key := by
    intro key
    exact exists_congr fun generation => hsame key _ rfl
  exact {
    holding := h.holding.frame fun task ht key record hheld hrecord hown => (hsame key record hown).mpr hrecord
    onLedger := fun key generation hrecord => h.onLedger key generation ((hsame key _ rfl).mp hrecord)
    recorded := h.recorded
    serves := by
      intro task ht
      have hserves := h.serves task ht
      cases task with
      | reserve reserving made =>
        intro event hevent
        refine (hserves event hevent).imp_right ?_
        rintro ⟨reservation, key, heq, hnamed, hb⟩
        exact ⟨reservation, key, heq, hnamed, hbound.mpr hb⟩
      | _ => exact hserves
    found := fun key record hmem => hquiet _ (h.found key record hmem)
    released := fun key record hmem hcommitted => (h.released key record hmem hcommitted).mono hquiet
    stays := fun key => (h.stays key).imp hbound.mpr fun hreleased => hreleased.mono hquiet
    named := h.named }

/-! ### One step -/

section

variable (h : task.Does caseId records records')

include h

theorem Task.Does.origin (hrecord : records'[worktree]? = some record) : records[worktree]? = some record ∨
      (∃ generation behind, task = .create worktree generation behind ∧ record = ⟨caseId, generation, false⟩) ∨
      ∃ generation behind, task = .replace worktree generation behind ∧ record = ⟨caseId, generation, true⟩ := by
  cases task with
  | create key g behind =>
    rcases h with rfl | ⟨_, rfl⟩
    · exact .inl hrecord
    · by_cases hkey : worktree = key
      · subst hkey
        rw [getElem?_insert_self] at hrecord
        exact .inr (.inl ⟨g, behind, rfl, (some.inj hrecord).symm⟩)
      · rw [getElem?_insert_of_ne hkey] at hrecord
        exact .inl hrecord
  | replace key g behind =>
    obtain ⟨_, rfl⟩ := h
    by_cases hkey : worktree = key
    · subst hkey
      rw [getElem?_insert_self] at hrecord
      exact .inr (.inr ⟨g, behind, rfl, (some.inj hrecord).symm⟩)
    · rw [getElem?_insert_of_ne hkey] at hrecord
      exact .inl hrecord
  | recordUnbound key found =>
    obtain ⟨_, _, rfl⟩ := h
    exact .inl hrecord
  | unlink key found =>
    obtain ⟨_, _, rfl⟩ := h
    by_cases hkey : worktree = key
    · subst hkey
      rw [getElem?_erase_self] at hrecord
      cases hrecord
    · rw [getElem?_erase_of_ne hkey] at hrecord
      exact .inl hrecord
  | _ =>
    cases h
    exact .inl hrecord

theorem Task.Does.committed_of (hrecord : records'[worktree]? = some ⟨caseId, generation, true⟩) :
    records[worktree]? = some ⟨caseId, generation, true⟩ ∨ ∃ behind, task = .replace worktree generation behind := by
  rcases h.origin hrecord with hwas | ⟨g, behind, _, heq⟩ | ⟨g, behind, rfl, heq⟩
  · exact .inl hwas
  · cases heq
  · obtain rfl : generation = g := congrArg Record.generation heq
    exact .inr ⟨behind, rfl⟩

theorem Task.Does.pending_of (hrecord : records'[worktree]? = some ⟨caseId, generation, false⟩) :
    records[worktree]? = some ⟨caseId, generation, false⟩ ∨ ∃ behind, task = .create worktree generation behind := by
  rcases h.origin hrecord with hwas | ⟨g, behind, rfl, heq⟩ | ⟨g, behind, _, heq⟩
  · exact .inl hwas
  · obtain rfl : generation = g := congrArg Record.generation heq
    exact .inr ⟨behind, rfl⟩
  · cases heq

theorem Task.Does.bound (hbound : Bound records caseId worktree) :
    Bound records' caseId worktree ∨ ∃ record, task = .unlink worktree record ∧ record.committed = true := by
  obtain ⟨generation, hrecord⟩ := hbound
  cases task with
  | create key g behind =>
    rcases h with rfl | ⟨hnone, rfl⟩
    · exact .inl ⟨generation, hrecord⟩
    · have hkey : worktree ≠ key := by
        intro heq
        rw [heq, hnone] at hrecord
        cases hrecord
      exact .inl ⟨generation, (getElem?_insert_of_ne hkey).trans hrecord⟩
  | replace key g behind =>
    obtain ⟨_, rfl⟩ := h
    by_cases hkey : worktree = key
    · subst hkey
      exact .inl ⟨g, getElem?_insert_self⟩
    · exact .inl ⟨generation, (getElem?_insert_of_ne hkey).trans hrecord⟩
  | recordUnbound key found =>
    obtain ⟨_, _, rfl⟩ := h
    exact .inl ⟨generation, hrecord⟩
  | unlink key found =>
    obtain ⟨_, hfound, rfl⟩ := h
    by_cases hkey : worktree = key
    · subst hkey
      rw [hfound] at hrecord
      cases hrecord
      exact .inr ⟨_, rfl, rfl⟩
    · exact .inl ⟨generation, (getElem?_erase_of_ne hkey).trans hrecord⟩
  | _ =>
    cases h
    exact .inl ⟨generation, hrecord⟩

end

theorem Steps.appends (h : Steps w caseId task records events quiet next) (hserves : task.Serves w.records caseId) :
    events = [] ∨ ∃ event, events = [event] ∧ (isNote event = true ∨ (∃ binding, event = .binding binding) ∨
      ∃ reservation worktree, event = .reservation reservation ∧ reservation.worktree = some worktree ∧
        Bound w.records caseId worktree) := by
  cases h with
  | record | recordUnbound => exact .inr ⟨_, rfl, .inr (.inl ⟨_, rfl⟩)⟩
  | append => exact .inr ⟨_, rfl, .inl hserves⟩
  | reserve => exact .inr ⟨_, rfl, (hserves _ mem_cons_self).imp_right .inr⟩
  | _ => exact .inl rfl

theorem mem_next (h : t ∈ (next.map (· ++ rest)).getD []) : t ∈ next.getD [] ∨ t ∈ rest := by
  cases next with
  | none => cases h
  | some front => exact mem_append.mp h

theorem Holding.later (h : Holding records caseId (task :: rest)) :
    ∀ t ∈ rest, t.isPlain = true ∨ t.isRepair = true := by
  intro t ht
  rcases h.shape with hall | hplain
  · exact .inr (hall t (mem_cons_of_mem _ ht))
  · exact .inl (hplain t ht)

theorem Task.serves_of_later (h : t.isPlain = true ∨ t.isRepair = true) : t.Serves records caseId := by
  cases t with
  | commit key g behind | replace key g behind =>
    cases behind with
    | none => simp [Task.Serves]
    | some reserving => rcases h with h | h <;> cases h
  | release reservationId | removeFile reservationId | unbind key g | unlink key found => trivial
  | _ => rcases h with h | h <;> cases h

theorem Reserving.serves_next {made : Option Made}
    (hserves : ∀ reserving ∈ behind, reserving.WritesOnlyIn (· = worktree)) (hbound : Bound records caseId worktree)
    (h : t ∈ Reserving.next behind made) : t.Serves records caseId := by
  cases behind with
  | none => cases h
  | some reserving =>
    obtain rfl := mem_singleton.mp h
    intro event hevent
    refine (hserves reserving rfl event hevent).imp_right ?_
    rintro ⟨reservation, key, heq, hnamed, rfl⟩
    exact ⟨reservation, key, heq, hnamed, hbound⟩

section

variable (h : Steps w caseId task records events quiet next)

include h

theorem Steps.serves_next (hserves : task.Serves w.records caseId) : ∀ t ∈ next.getD [], t.Serves records caseId := by
  intro t ht
  cases h with
  | refuse _ => cases ht
  | pass _ hplain _ => exact Task.serves_of_later (.inl (hplain t ht))
  | already hrecord => exact Reserving.serves_next hserves ⟨_, hrecord⟩ ht
  | replace => exact Reserving.serves_next hserves ⟨_, getElem?_insert_self⟩ ht
  | append => cases ht
  | reserve =>
    obtain rfl := mem_singleton.mp ht
    exact fun event hevent => hserves event (mem_cons_of_mem _ hevent)
  | quiet | recordUnbound =>
    obtain rfl := mem_singleton.mp ht
    trivial
  | unlink => cases ht
  | _ =>
    obtain rfl := mem_singleton.mp ht
    exact hserves

theorem Steps.recorded_next
    (ht : .commit worktree generation behind ∈ next.getD [] ∨ .replace worktree generation behind ∈ next.getD []) :
    task = .commit worktree generation behind ∨ ∃ event ∈ events, recordsBound caseId generation event = true := by
  have hreserving : ∀ {behind' made}, ¬ (.commit worktree generation behind ∈ Reserving.next behind' made ∨
      .replace worktree generation behind ∈ Reserving.next behind' made) := by
    intro behind' made hmem
    cases behind' with
    | none | some reserving => simp [Reserving.next] at hmem
  cases h with
  | pass _ hplain _ => rcases ht with ht | ht <;> cases hplain _ ht
  | already | replace => exact (hreserving ht).elim
  | record =>
    obtain ⟨rfl, rfl, rfl⟩ : worktree = _ ∧ generation = _ ∧ behind = _ := by simpa using ht
    exact .inr ⟨_, mem_singleton.mpr rfl, by simp [recordsBound]⟩
  | commit =>
    obtain ⟨rfl, rfl, rfl⟩ : worktree = _ ∧ generation = _ ∧ behind = _ := by simpa using ht
    exact .inl rfl
  | _ => simp at ht

theorem Steps.next_of_unbind :
    (.recordUnbound worktree record ∈ next.getD [] → ⟨caseId, worktree, record.generation⟩ ∈ quiet) ∧
      (.unlink worktree record ∈ next.getD [] → task = .recordUnbound worktree record ∧
        events = [.binding ⟨caseId, record.generation, worktree, worktree, .unbound⟩]) := by
  have hreserving : ∀ {behind made}, .recordUnbound worktree record ∉ Reserving.next behind made ∧
      .unlink worktree record ∉ Reserving.next behind made := by
    intro behind made
    cases behind <;> simp [Reserving.next]
  cases h with
  | pass _ hplain _ =>
    constructor
    · intro hmem
      cases hplain _ hmem
    · intro hmem
      cases hplain _ hmem
  | already | replace => exact ⟨fun hmem => (hreserving.1 hmem).elim, fun hmem => (hreserving.2 hmem).elim⟩
  | quiet =>
    refine ⟨fun hmem => ?_, fun hmem => by simp at hmem⟩
    obtain ⟨rfl, rfl⟩ : worktree = _ ∧ record = _ := by simpa using hmem
    exact mem_singleton.mpr rfl
  | recordUnbound =>
    refine ⟨fun hmem => by simp at hmem, fun hmem => ?_⟩
    obtain ⟨rfl, rfl⟩ : worktree = _ ∧ record = _ := by simpa using hmem
    exact ⟨rfl, rfl⟩
  | _ => exact ⟨fun hmem => by simp at hmem, fun hmem => by simp at hmem⟩

end

/-- **One step** of a case keeps its invariant. -/
theorem Sound.step (h : Sound w.records w.quiet caseId ledger (task :: rest))
    (hsteps : Steps w caseId task records events quiet next) :
    Sound records (w.quiet ++ quiet) caseId (ledger ++ events) ((next.map (· ++ rest)).getD []) := by
  have hdoes := hsteps.does (h.holding.owned task mem_cons_self)
  have hserves := h.serves task mem_cons_self
  have happends := hsteps.appends hserves
  have hquiet : ∀ q ∈ w.quiet, q ∈ w.quiet ++ quiet := fun q => mem_append_left _
  have hgrown : ∀ {generation}, (∃ event ∈ ledger, recordsBound caseId generation event = true) →
      ∃ event ∈ ledger ++ events, recordsBound caseId generation event = true := by
    rintro generation ⟨event, hmem, hbound⟩
    exact ⟨event, mem_append_left _ hmem, hbound⟩
  exact {
    holding := h.holding.step hsteps
    onLedger := by
      intro worktree generation hrecord
      rcases hdoes.committed_of hrecord with hwas | ⟨behind, rfl⟩
      · exact hgrown (h.onLedger worktree generation hwas)
      · exact hgrown (h.recorded worktree generation behind (.inr mem_cons_self))
    recorded := by
      intro worktree generation behind hmem
      have hnext : (.commit worktree generation behind ∈ next.getD [] ∨ .replace worktree generation behind ∈ next.getD []) ∨
          (.commit worktree generation behind ∈ rest ∨ .replace worktree generation behind ∈ rest) := by
        rcases hmem with hmem | hmem
        · exact (mem_next hmem).imp .inl .inl
        · exact (mem_next hmem).imp .inr .inr
      rcases hnext with hnext | hrest
      · rcases hsteps.recorded_next hnext with rfl | ⟨event, hmem, hbound⟩
        · exact hgrown (h.recorded worktree generation behind (.inl mem_cons_self))
        · exact ⟨event, mem_append_right _ hmem, hbound⟩
      · exact hgrown (h.recorded worktree generation behind
          (hrest.imp (mem_cons_of_mem _) (mem_cons_of_mem _)))
    serves := by
      intro t ht
      rcases mem_next ht with ht | ht
      · exact hsteps.serves_next hserves t ht
      · exact Task.serves_of_later (h.holding.later t ht)
    found := by
      intro worktree record hmem
      rcases mem_next hmem with hmem | hmem
      · exact mem_append_right _ (hsteps.next_of_unbind.1 hmem)
      · rcases h.holding.later _ hmem with hlater | hlater <;> cases hlater
    released := by
      intro worktree record hmem hcommitted
      rcases mem_next hmem with hmem | hmem
      · obtain ⟨rfl, rfl⟩ := hsteps.next_of_unbind.2 hmem
        exact released_of_unbound (hquiet _ (h.found worktree record mem_cons_self))
      · rcases h.holding.later _ hmem with hlater | hlater
        · cases hlater
        · rw [Task.isRepair, hcommitted] at hlater
          cases hlater
    stays := by
      intro worktree
      by_cases hbound : Bound w.records caseId worktree
      · rcases hdoes.bound hbound with hbound | ⟨record, rfl, hcommitted⟩
        · exact .inl hbound
        · cases hsteps with
          | unlink =>
            simp only [append_nil]
            exact .inr (h.released worktree record mem_cons_self hcommitted)
          | refuse hheld | pass hheld _ _ => cases hheld
      · have hreleased := ((h.stays worktree).resolve_left hbound).mono hquiet
        rcases happends with rfl | ⟨event, rfl, hevent⟩
        · rw [append_nil]
          exact .inr hreleased
        · refine .inr (hreleased.append ?_)
          rcases hevent with hnote | ⟨binding, rfl⟩ | ⟨reservation, key, rfl, hnamed, hkey⟩
          · exact not_writesIn_of_isNote hnote
          · exact id
          · rintro ⟨_, hin⟩
            rw [hnamed] at hin
            cases hin
            exact hbound hkey
    named := by
      intro reservation hmem hwrites
      rcases mem_append.mp hmem with hmem | hmem
      · exact h.named reservation hmem hwrites
      · rcases happends with rfl | ⟨event, rfl, hevent⟩
        · cases hmem
        · obtain rfl := mem_singleton.mp hmem
          rcases hevent with hnote | ⟨binding, heq⟩ | ⟨reservation', key, heq, hnamed, _⟩
          · exact absurd (eq_of_beq hnote) hwrites
          · cases heq
          · obtain rfl := Event.reservation.inj heq
            exact ⟨key, hnamed⟩ }

/-! ### Operations -/

section

variable (h : Sound records quiet caseId ledger todo)

include h

theorem Sound.other {todo' : List Task}
    (hholding : Holding records caseId todo') (hrecorded : ∀ worktree generation behind,
      .commit worktree generation behind ∈ todo' ∨ .replace worktree generation behind ∈ todo' →
        ∃ event ∈ ledger, recordsBound caseId generation event = true)
    (hserves : ∀ task ∈ todo', task.Serves records caseId)
    (hpending : ∀ worktree record, .recordUnbound worktree record ∉ todo' ∧
      (.unlink worktree record ∈ todo' → record.committed = false)) : Sound records quiet caseId ledger todo' where
  holding := hholding
  onLedger := h.onLedger
  recorded := hrecorded
  serves := hserves
  found worktree record hmem := absurd hmem (hpending worktree record).1
  released worktree record hmem hcommitted := by
    rw [(hpending worktree record).2 hmem] at hcommitted
    cases hcommitted
  stays := h.stays
  named := h.named

theorem Sound.front {front : List Task} (hlength : front.length ≤ 1)
    (hfront : ∀ t ∈ front, t.holds caseId = none ∧ t.Serves records caseId) (hrest : ∀ t ∈ rest, t.isPlain = true) :
    Sound records quiet caseId ledger (front ++ rest) := by
  have hheld : ∀ t ∈ front ++ rest, t.holds caseId = none := by
    intro t ht
    rcases mem_append.mp ht with ht | ht
    · exact (hfront t ht).1
    · exact Task.holds_of_isPlain (hrest t ht) caseId
  refine h.other (.front hrest hlength fun t ht => (hfront t ht).1) ?_ ?_ ?_
  · rintro worktree generation behind (hmem | hmem) <;> cases hheld _ hmem
  · intro t ht
    rcases mem_append.mp ht with ht | ht
    · exact (hfront t ht).2
    · exact Task.serves_of_later (.inl (hrest t ht))
  · intro worktree record
    constructor
    · intro hmem
      cases hheld _ hmem
    · intro hmem
      cases hheld _ hmem

theorem Sound.nil : Sound records quiet caseId ledger [] := by
  have hfront : Sound records quiet caseId ledger ([] ++ []) := h.front (Nat.zero_le 1) (by simp) (by simp)
  exact hfront

theorem Sound.single (hheld : task.holds caseId = none)
    (hserves : task.Serves records caseId) : Sound records quiet caseId ledger [task] := by
  have hfront : Sound records quiet caseId ledger ([task] ++ []) := by
    refine h.front (Nat.le_refl 1) (fun t ht => ?_) (by simp)
    obtain rfl := mem_singleton.mp ht
    exact ⟨hheld, hserves⟩
  exact hfront

end

theorem writesOnlyIn_of_admitted {kind : GuideKind} {projection : Projection}
    {bindingAnswers : Table Answered} {reservation : Reservation} {bindings : List (String × BindingAction)}
    (h : admitProposal projection (ask.proposed kind) bindingAnswers ask.reservationId =
      .ok (.admitted reservation bindings events)) : ∀ event ∈ events, isNote event = true ∨
      ∃ r, event = .reservation r ∧ ask.isWriting = true ∧ r.worktree = ask.proposal.worktree := by
  obtain ⟨guide, activity, writes, hpassed, rfl, _, rfl⟩ := admitProposal_admitted h
  intro event hevent
  rcases mem_cons.mp hevent with rfl | hevent
  · exact .inl rfl
  · obtain rfl := mem_singleton.mp hevent
    cases hwriting : ask.isWriting with
    | false =>
      have hnone : ask.proposal.writes = [] := by simpa [Ask.isWriting] using hwriting
      have hwrites : writes = [] := by
        have hok : canonicalizeWrites (scope ask.proposal.writes) = .ok writes := hpassed.writes_eq
        rw [hnone] at hok
        exact (Except.ok.inj hok).symm
      exact .inl (by rw [hwrites]; rfl)
    | true =>
      refine .inr ⟨_, rfl, rfl, ?_⟩
      show (if ask.isWriting then ask.proposal.worktree else none) = _
      rw [hwriting]
      rfl

theorem Sound.bindFirst {view : View} {reserving : Reserving} (h : Sound records quiet caseId ledger todo)
    (hreserving : ∀ event ∈ reserving.events, isNote event = true ∨
      ∃ r, event = .reservation r ∧ ask.isWriting = true ∧ r.worktree = ask.proposal.worktree)
    (htasks : bindFirst view ask reserving = some tasks) : Sound records quiet caseId ledger tasks := by
  rw [CaseBindings.bindFirst] at htasks
  split at htasks
  · obtain ⟨worktree, hworktree, rfl⟩ := map_eq_some_iff.mp htasks
    refine h.single rfl fun r hr => ?_
    cases hr
    intro event hevent
    refine (hreserving event hevent).imp_right ?_
    rintro ⟨reservation, heq, _, hnamed⟩
    exact ⟨reservation, worktree, heq, hnamed.trans hworktree, rfl⟩
  · next hwriting =>
    cases htasks
    refine h.single rfl fun event hevent => ?_
    refine (hreserving event hevent).imp_right ?_
    rintro ⟨reservation, _, hwrites, _⟩
    exact absurd hwrites hwriting

variable {normalizeGuide : Definition → Option Guide} {digestUnitRunReports : List UnitRun → Option String}

/-- The steps of a repair hold the pending records of the case, each once. -/
theorem Sound.repairs (h : Sound w.records quiet caseId (w.cases caseId).ledger todo) :
    Sound w.records quiet caseId (w.cases caseId).ledger (w.repairs caseId) := by
  have hmem : ∀ t ∈ w.repairs caseId, ∃ worktree generation,
      w.records[worktree]? = some ⟨caseId, generation, false⟩ ∧
        (t = .commit worktree generation none ∧
            (∃ event ∈ (w.cases caseId).ledger, recordsBound caseId generation event = true) ∨
          t = .unlink worktree ⟨caseId, generation, false⟩) := by
    intro t ht
    obtain ⟨⟨worktree, owner, generation, committed⟩, hlisted, hsome⟩ := mem_filterMap.mp ht
    have hrecord := mem_toList_iff_getElem?_eq_some.mp hlisted
    simp only at hsome
    split at hsome
    · next hboth =>
      obtain ⟨rfl, rfl⟩ := hboth
      refine ⟨worktree, generation, hrecord, ?_⟩
      split at hsome
      · next hany =>
        cases hsome
        exact .inl ⟨rfl, List.any_eq_true.mp hany⟩
      · cases hsome
        exact .inr rfl
    · cases hsome
  have hkey : ∀ (entry : String × Record) (t : Task), (if entry.2.caseId = caseId ∧ entry.2.committed = false then
      if (w.cases caseId).ledger.any (recordsBound caseId entry.2.generation) then
        some (.commit entry.1 entry.2.generation none)
      else some (.unlink entry.1 entry.2)
    else none) = some t → ∀ key record, t.holds caseId = some (key, record) → key = entry.1 := by
    intro entry t hsome key record hheld
    split at hsome
    · split at hsome
      · cases hsome
        exact (Prod.mk.inj (some.inj hheld)).1.symm
      · cases hsome
        exact (Prod.mk.inj (some.inj hheld)).1.symm
    · cases hsome
  refine h.other ⟨?_, ?_, ?_⟩ ?_ ?_ ?_
  · intro t ht worktree record hheld
    obtain ⟨key, generation, hrecord, ⟨rfl, _⟩ | rfl⟩ := hmem t ht
    · cases hheld
      exact ⟨hrecord, rfl⟩
    · cases hheld
      exact ⟨hrecord, rfl⟩
  · refine pairwise_filterMap.mpr (distinct_keys_toList.imp ?_)
    intro entry entry' hne t ht t' ht' key record record' hheld hheld'
    exact hne (compare_key.mpr ((hkey entry t ht key record hheld).symm.trans (hkey entry' t' ht' key record' hheld')))
  · refine .inl fun t ht => ?_
    obtain ⟨key, generation, hrecord, ⟨rfl, _⟩ | rfl⟩ := hmem t ht <;> rfl
  · rintro worktree generation behind (ht | ht)
    · obtain ⟨key, g, hrecord, ⟨heq, hevent⟩ | heq⟩ := hmem _ ht
      · cases heq
        exact hevent
      · cases heq
    · obtain ⟨key, g, hrecord, ⟨heq, hevent⟩ | heq⟩ := hmem _ ht <;> cases heq
  · intro t ht
    obtain ⟨key, generation, hrecord, ⟨rfl, _⟩ | rfl⟩ := hmem t ht
    · exact Task.serves_of_later (.inr rfl)
    · exact Task.serves_of_later (.inr rfl)
  · intro worktree record
    constructor
    · intro ht
      obtain ⟨key, g, hrecord, ⟨heq, _⟩ | heq⟩ := hmem _ ht <;> cases heq
    · intro ht
      obtain ⟨key, g, hrecord, ⟨heq, _⟩ | heq⟩ := hmem _ ht
      · cases heq
      · cases heq
        rfl

/-- **An operation begins.** -/
theorem Sound.begin {op : Op} (h : Sound w.records quiet caseId (w.cases caseId).ledger todo)
    (htasks : w.tasks normalizeGuide digestUnitRunReports caseId op = some tasks) :
    Sound w.records quiet caseId (w.cases caseId).ledger tasks := by
  cases op with
  | bind view worktree =>
    cases htasks
    exact h.single rfl nofun
  | admission view ask =>
    simp only [World.tasks, World.admission] at htasks
    split at htasks
    · exact h.bindFirst (by simp) htasks
    · split at htasks
      · next hadmitted => exact h.bindFirst (writesOnlyIn_of_admitted hadmitted) htasks
      · exact some.inj htasks ▸ h.nil
      · cases htasks
  | settle settle =>
    cases htasks
    refine h.front ?_ (fun t ht => ?_) (by simp [Task.isPlain])
    · rw [applySettle]
      split <;> simp
    · obtain ⟨event, hevent, rfl⟩ := List.mem_map.mp ht
      rw [applySettle] at hevent
      split at hevent
      · cases hevent
      · obtain rfl := mem_singleton.mp hevent
        exact ⟨rfl, rfl⟩
  | close reason =>
    simp only [World.tasks] at htasks
    split at htasks
    · cases htasks
      rw [← singleton_append]
      refine h.front (Nat.le_refl 1) (fun t ht => ?_) (fun t ht => ?_)
      · obtain rfl := mem_singleton.mp ht
        exact ⟨rfl, rfl⟩
      · obtain ⟨b, _, rfl⟩ := List.mem_map.mp ht
        rfl
    · exact some.inj htasks ▸ h.nil
  | repair =>
    cases htasks
    exact h.repairs

theorem Sound.note (h : Sound records quiet caseId ledger todo) (hnote : isNote event = true) :
    Sound records quiet caseId (ledger ++ [event]) [] where
  holding := .nil
  onLedger worktree generation hrecord := by
    obtain ⟨e, hmem, hbound⟩ := h.onLedger worktree generation hrecord
    exact ⟨e, mem_append_left _ hmem, hbound⟩
  recorded _ _ _ hmem := by simp at hmem
  serves _ hmem := by cases hmem
  found _ _ hmem := by cases hmem
  released _ _ hmem := by cases hmem
  stays worktree := (h.stays worktree).imp_right fun hreleased => hreleased.append (not_writesIn_of_isNote hnote)
  named reservation hmem hwrites := by
    rcases mem_append.mp hmem with hmem | hmem
    · exact h.named reservation hmem hwrites
    · obtain rfl := mem_singleton.mp hmem
      exact absurd (eq_of_beq hnote) hwrites

/-! ### Every run -/

def AllSound (w : World) : Prop :=
  ∀ caseId, Sound w.records w.quiet caseId (w.cases caseId).ledger (w.cases caseId).todo

theorem AllSound.acts (h : AllSound w) (hact : w.act normalizeGuide digestUnitRunReports a = some w') :
    Acts normalizeGuide digestUnitRunReports w w' a :=
  acts_of_act hact fun caseId task ht worktree record hheld => ((h caseId).holding.owned task ht worktree record hheld).1

theorem AllSound.after (h : AllSound w) (hafter : After w w' caseId records events quiet)
    (hother : ∀ other, other ≠ caseId → ∀ (worktree : String) (record : Record), record.caseId = other →
      (records[worktree]? = some record ↔ w.records[worktree]? = some record))
    (hsound : Sound records (w.quiet ++ quiet) caseId ((w.cases caseId).ledger ++ events) (w'.cases caseId).todo) :
    AllSound w' := by
  intro other
  rw [hafter.records_eq, hafter.quiet_eq]
  by_cases hne : other = caseId
  · subst hne
    rw [hafter.ledger_eq]
    exact hsound
  · rw [hafter.others other hne]
    exact (h other).frame (hother other hne) fun q => mem_append_left _

/-- **One act** keeps the invariant of every case. -/
theorem AllSound.act (h : AllSound w) (hact : w.act normalizeGuide digestUnitRunReports a = some w') :
    AllSound w' := by
  cases h.acts hact with
  | @begin caseId op tasks hidle htasks hafter htodo =>
    refine h.after hafter (fun _ _ _ _ _ => Iff.rfl) ?_
    rw [htodo, append_nil, append_nil]
    exact (h caseId).begin htasks
  | @step caseId task rest records events quiet next hwas hsteps hafter htodo =>
    have hsound := h caseId
    rw [hwas] at hsound
    have hdoes := hsteps.does (hsound.holding.owned task mem_cons_self)
    refine h.after hafter (fun other hne _ _ hown => hdoes.other hne.symm hown) ?_
    rw [htodo]
    exact hsound.step hsteps
  | @crash caseId hafter htodo =>
    refine h.after hafter (fun _ _ _ _ _ => Iff.rfl) ?_
    rw [htodo, append_nil, append_nil]
    exact (h caseId).nil
  | @note caseId event hidle hnote hafter htodo =>
    refine h.after hafter (fun _ _ _ _ _ => Iff.rfl) ?_
    rw [htodo, append_nil]
    exact (h caseId).note hnote
  | take hrecords hcases hquiet | leave hrecords hcases hquiet =>
    intro caseId
    rw [hrecords, hcases, hquiet]
    exact h caseId

theorem AllSound.start (h : w.IsFresh) : AllSound w := by
  subst h
  intro caseId
  have hreleased : ∀ worktree, Released [] caseId worktree [] := by
    intro worktree before event behind heq
    simp at heq
  exact {
    holding := .nil
    onLedger := fun worktree generation hrecord => by simp at hrecord
    recorded := fun _ _ _ hmem => by simp at hmem
    serves := fun _ hmem => by cases hmem
    found := fun _ _ hmem => by cases hmem
    released := fun _ _ hmem => by cases hmem
    stays := fun worktree => .inr (hreleased worktree)
    named := fun _ hmem => by cases hmem }

theorem allSound_of_run {Meets : World → Act → Prop}
    (h : ActRun (fun w => w.act normalizeGuide digestUnitRunReports) World.IsFresh Meets w) : AllSound w :=
  h.invariant (fun _ => .start) fun h _ hact => h.act hact

theorem AllSound.byOwner (h : AllSound w) (hact : w.act normalizeGuide digestUnitRunReports a = some w') :
    ByOwner w w' a := by
  cases h.acts hact with
  | begin _ _ hafter _ | crash hafter _ | note _ _ hafter _ => exact hafter.records_eq
  | @step caseId task rest records events quiet next hwas hsteps hafter htodo =>
    intro head hhead
    rw [hwas] at hhead
    cases hhead
    rw [hafter.records_eq]
    refine hsteps.does ((h caseId).holding.owned _ ?_)
    rw [hwas]
    exact mem_cons_self
  | take hrecords _ _ | leave hrecords _ _ => exact hrecords

theorem AllSound.onLedger (h : AllSound w) : OnLedger w := by
  intro worktree record hrecord hcommitted
  obtain ⟨caseId, generation, committed⟩ := record
  obtain rfl : committed = true := hcommitted
  exact (h caseId).onLedger worktree generation hrecord

theorem oneOwner (w : World) : OneOwner w := by
  intro worktree view view' caseId caseId' hbound hbound'
  obtain ⟨generation, hrecord⟩ := readBinding_bound hbound
  obtain ⟨generation', hrecord'⟩ := readBinding_bound hbound'
  rw [hrecord] at hrecord'
  exact congrArg Record.caseId (some.inj hrecord')

theorem AllSound.staysBound (h : AllSound w) : StaysBound w := by
  intro caseId before reservation behind heq hwrites
  have hmem : .reservation reservation ∈ (w.cases caseId).ledger := by
    rw [heq]
    simp
  obtain ⟨worktree, hnamed⟩ := (h caseId).named reservation hmem hwrites
  refine ⟨worktree, hnamed, ?_⟩
  rcases (h caseId).stays worktree with ⟨generation, hrecord⟩ | hreleased
  · left
    simp [readBinding, hrecord, answerOf]
  · exact .inr (hreleased before _ behind heq ⟨hwrites, hnamed⟩)

end

end Forgent.Workflow.CaseBindings
