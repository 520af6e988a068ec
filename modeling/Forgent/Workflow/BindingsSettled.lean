import Forgent.Workflow.BindingsHeld

/-!
# A committed record has its own event

A record that a crash left pending may be committed on the event of another worktree, which got the same generation
since.  In a run that settles the pending records of a case before the case binds again, the event of a committed record
is of its worktree.

* `OwnEvent`: what is said of the records; `settledFirst`: the condition.
* `Settled`, `Settled.step`, `Settled.begin`: what the condition adds to the invariant of a case.
* `bound_by_its_case`: every run.
-/

namespace Forgent.Workflow.CaseBindings

open List Std.ExtTreeMap Option

def OwnEvent (w : World) : Prop :=
  ∀ (worktree : String) (record : Record), w.records[worktree]? = some record → record.committed = true →
    ∃ root, .binding ⟨record.caseId, record.generation, worktree, root, .bound⟩ ∈ (w.cases record.caseId).ledger

/-- An operation that may bind a worktree. -/
def Op.mayBind : Op → Bool
  | .bind _ _ | .admission _ _ => true
  | _ => false

/-- A case begins to bind only when no record of it is pending. -/
def settledFirst (w : World) : Act → Bool
  | .begin caseId op =>
    !op.mayBind || w.records.toList.all fun (_, record) => record.caseId != caseId || record.committed
  | _ => true

/-! ### What the condition adds -/

/-- A step that leads to a new record. -/
def Task.mayBind : Task → Bool
  | .bind _ _ _ | .create _ _ _ => true
  | _ => false

/-- What the condition adds: no event of another worktree has the generation of a pending record. -/
structure Settled (records : Table Record) (caseId : String) (ledger : List Event) (todo : List Task) : Prop where
  own : ∀ (worktree : String) (generation : ℕ), records[worktree]? = some ⟨caseId, generation, true⟩ →
    ∃ root, .binding ⟨caseId, generation, worktree, root, .bound⟩ ∈ ledger
  pending : ∀ (worktree : String) (generation : ℕ), records[worktree]? = some ⟨caseId, generation, false⟩ →
    ∀ event ∈ ledger, recordsBound caseId generation event = true →
      ∃ root, event = .binding ⟨caseId, generation, worktree, root, .bound⟩
  alone : ∀ task ∈ todo, task.mayBind = true → ∀ (worktree : String) (generation : ℕ),
    records[worktree]? ≠ some ⟨caseId, generation, false⟩
  next : ∀ worktree generation behind, .create worktree generation behind ∈ todo →
    ∀ event ∈ ledger, ∀ g, recordsBound caseId g event = true → g < generation
  only : ∀ (worktree : String) generation behind, .record worktree generation behind ∈ todo →
    ∀ (other : String) (g : ℕ), records[other]? = some ⟨caseId, g, false⟩ → other = worktree

section

variable {w w' : World} {caseId : String} {records records' : Table Record} {quiet : List Quiet}
  {ledger events : List Event} {todo rest : List Task} {task : Task} {next : Option (List Task)} {worktree : String}
  {normalizeGuide : Definition → Option Guide} {digestUnitRunReports : List UnitRun → Option String} {event : Event}
  {generation : ℕ} {t : Task} {op : Op} {tasks : List Task}

theorem le_foldl_max (l : List ℕ) (n : ℕ) : n ≤ l.foldl max n ∧ ∀ m ∈ l, m ≤ l.foldl max n := by
  induction l generalizing n with
  | nil => simp
  | cons m l ih =>
    obtain ⟨hstart, hall⟩ := ih (max n m)
    rw [foldl_cons]
    refine ⟨by omega, fun k hk => ?_⟩
    rcases mem_cons.mp hk with rfl | hk
    · omega
    · exact hall k hk

theorem lt_nextGeneration (hmem : event ∈ ledger)
    (hbound : recordsBound caseId generation event = true) : generation < nextGeneration ledger caseId := by
  cases event with
  | binding p =>
    obtain ⟨⟨hcase, hgeneration⟩, _⟩ : (p.caseId = caseId ∧ p.generation = generation) ∧ p.state = .bound := by
      simpa [recordsBound] using hbound
    have hlisted : generation ∈ ledger.filterMap (generationOf caseId) :=
      mem_filterMap.mpr ⟨_, hmem, by rw [generationOf, if_pos hcase, hgeneration]⟩
    have hle := (le_foldl_max (ledger.filterMap (generationOf caseId)) 0).2 generation hlisted
    rw [nextGeneration]
    omega
  | _ => cases hbound

theorem recordsBound_of_isNote (h : isNote event = true) : recordsBound caseId generation event = false := by
  cases event with
  | binding p => cases h
  | _ => rfl

theorem Steps.bound_of (h : Steps w caseId task records events quiet next)
    (hserves : task.Serves w.records caseId) (hmem : event ∈ events)
    (hbound : recordsBound caseId generation event = true) :
    ∃ worktree behind, task = .record worktree generation behind ∧
      event = .binding ⟨caseId, generation, worktree, worktree, .bound⟩ := by
  cases h with
  | record =>
    obtain rfl := mem_singleton.mp hmem
    obtain rfl : _ = generation := by simpa [recordsBound] using hbound
    exact ⟨_, _, rfl, rfl⟩
  | recordUnbound =>
    obtain rfl := mem_singleton.mp hmem
    simp [recordsBound] at hbound
  | append =>
    obtain rfl := mem_singleton.mp hmem
    rw [recordsBound_of_isNote hserves] at hbound
    cases hbound
  | reserve =>
    obtain rfl := mem_singleton.mp hmem
    rcases hserves _ mem_cons_self with hnote | ⟨reservation, key, rfl, _⟩
    · rw [recordsBound_of_isNote hnote] at hbound
      cases hbound
    · cases hbound
  | _ => cases hmem

/-- Where a step that leads to a new record comes from. -/
structure Arises (w : World) (caseId : String) (task t : Task) (records : Table Record) (events : List Event) : Prop where
  bind : t.mayBind = true → task.mayBind = true ∧ records = w.records
  create : ∀ worktree generation behind, t = .create worktree generation behind →
    generation = nextGeneration (w.cases caseId).ledger caseId ∧ events = []
  record : ∀ worktree generation behind, t = .record worktree generation behind →
    task = .create worktree generation behind ∧ records = w.records.insert worktree ⟨caseId, generation, false⟩

theorem Steps.next_of_bind (h : Steps w caseId task records events quiet next) (ht : t ∈ next.getD []) :
    Arises w caseId task t records events := by
  have hnone : t.mayBind = false → (∀ worktree generation behind, t ≠ .record worktree generation behind) →
      Arises w caseId task t records events := by
    intro hbind hrecord
    refine ⟨fun htrue => ?_, fun worktree generation behind heq => ?_, fun worktree generation behind heq => ?_⟩
    · rw [hbind] at htrue
      cases htrue
    · rw [heq] at hbind
      cases hbind
    · exact absurd heq (hrecord worktree generation behind)
  have hreserving : ∀ {behind made}, t ∈ Reserving.next behind made → t.mayBind = false ∧
      ∀ worktree generation behind, t ≠ .record worktree generation behind := by
    intro behind made hmem
    cases behind with
    | none => cases hmem
    | some reserving =>
      obtain rfl := mem_singleton.mp hmem
      exact ⟨rfl, by simp⟩
  cases h with
  | refuse _ => cases ht
  | pass _ hplain _ =>
    have hlater := hplain t ht
    refine hnone ?_ fun worktree generation behind heq => ?_
    · cases t <;> first | rfl | cases hlater
    · rw [heq] at hlater
      cases hlater
  | already | replace => exact hnone (hreserving ht).1 (hreserving ht).2
  | unbound =>
    obtain rfl := mem_singleton.mp ht
    refine ⟨fun _ => ⟨rfl, rfl⟩, fun worktree generation behind heq => ?_, fun _ _ _ heq => by cases heq⟩
    obtain ⟨_, hgeneration, _⟩ := Task.create.inj heq
    exact ⟨hgeneration.symm, rfl⟩
  | create =>
    obtain rfl := mem_singleton.mp ht
    refine ⟨nofun, nofun, fun worktree generation behind heq => ?_⟩
    obtain ⟨rfl, rfl, rfl⟩ := Task.record.inj heq
    exact ⟨rfl, rfl⟩
  | append | unlink => cases ht
  | _ =>
    obtain rfl := mem_singleton.mp ht
    exact hnone rfl (by simp)

theorem Task.not_mayBind_of_later (h : t.isPlain = true ∨ t.isRepair = true) :
    t.mayBind = false ∧ ∀ worktree generation behind, t ≠ .record worktree generation behind := by
  cases t <;> first | (rcases h with h | h <;> cases h; done) | exact ⟨rfl, by simp⟩

/-- **One step** of a case keeps it. -/
theorem Settled.step (h : Settled w.records caseId (w.cases caseId).ledger (task :: rest))
    (hsound : Sound w.records w.quiet caseId (w.cases caseId).ledger (task :: rest))
    (hsteps : Steps w caseId task records events quiet next) :
    Settled records caseId ((w.cases caseId).ledger ++ events) ((next.map (· ++ rest)).getD []) := by
  have howned := hsound.holding.owned task mem_cons_self
  have hdoes := hsteps.does howned
  have hserves := hsound.serves task mem_cons_self
  have hlater := fun t ht => Task.not_mayBind_of_later (hsound.holding.later t ht)
  exact {
    own := by
      intro worktree generation hrecord
      rcases hdoes.committed_of hrecord with hwas | ⟨behind, rfl⟩
      · obtain ⟨root, hmem⟩ := h.own worktree generation hwas
        exact ⟨root, mem_append_left _ hmem⟩
      · obtain ⟨event, hmem, hbound⟩ := hsound.recorded worktree generation behind (.inr mem_cons_self)
        obtain ⟨root, rfl⟩ := h.pending worktree generation (howned worktree _ rfl).1 event hmem hbound
        exact ⟨root, mem_append_left _ hmem⟩
    pending := by
      intro worktree generation hrecord event hmem hbound
      rcases mem_append.mp hmem with hmem | hmem
      · rcases hdoes.pending_of hrecord with hwas | ⟨behind, rfl⟩
        · exact h.pending worktree generation hwas event hmem hbound
        · exact absurd (h.next worktree generation behind mem_cons_self event hmem generation hbound)
            (lt_irrefl generation)
      · obtain ⟨key, behind, rfl, rfl⟩ := hsteps.bound_of hserves hmem hbound
        rcases hdoes.pending_of hrecord with hwas | ⟨behind', heq⟩
        · obtain rfl := h.only key generation behind mem_cons_self worktree generation hwas
          exact ⟨_, rfl⟩
        · cases heq
    alone := by
      intro t ht hbind worktree generation
      rcases mem_next ht with ht | ht
      · obtain ⟨hwas, rfl⟩ := (hsteps.next_of_bind ht).bind hbind
        exact h.alone task mem_cons_self hwas worktree generation
      · rw [(hlater t ht).1] at hbind
        cases hbind
    next := by
      intro worktree generation behind hmem event hevent g hbound
      rcases mem_next hmem with hmem | hmem
      · obtain ⟨rfl, rfl⟩ := (hsteps.next_of_bind hmem).create worktree generation behind rfl
        rw [append_nil] at hevent
        exact lt_nextGeneration hevent hbound
      · cases (hlater _ hmem).1
    only := by
      intro worktree generation behind hmem other g hrecord
      rcases mem_next hmem with hmem | hmem
      · obtain ⟨rfl, rfl⟩ := (hsteps.next_of_bind hmem).record worktree generation behind rfl
        by_contra hne
        rw [getElem?_insert_of_ne hne] at hrecord
        exact h.alone _ mem_cons_self rfl other g hrecord
      · exact absurd rfl ((hlater _ hmem).2 worktree generation behind) }

theorem Settled.frame (h : Settled records caseId ledger todo)
    (hsame : ∀ (worktree : String) (record : Record), record.caseId = caseId →
      (records'[worktree]? = some record ↔ records[worktree]? = some record)) :
    Settled records' caseId ledger todo where
  own worktree generation hrecord := h.own worktree generation ((hsame worktree _ rfl).mp hrecord)
  pending worktree generation hrecord := h.pending worktree generation ((hsame worktree _ rfl).mp hrecord)
  alone task ht hbind worktree generation hrecord :=
    h.alone task ht hbind worktree generation ((hsame worktree _ rfl).mp hrecord)
  next := h.next
  only worktree generation behind hmem other g hrecord :=
    h.only worktree generation behind hmem other g ((hsame other _ rfl).mp hrecord)

/-- The steps an operation begins with: none makes a record at once, and one that may bind is of an operation that may. -/
theorem mayBind_of_tasks (htasks : w.tasks normalizeGuide digestUnitRunReports caseId op = some tasks) :
    ∀ t ∈ tasks, (t.mayBind = true → op.mayBind = true) ∧
      (∀ worktree generation behind, t ≠ .create worktree generation behind) ∧
      ∀ worktree generation behind, t ≠ .record worktree generation behind := by
  intro t ht
  cases op with
  | bind view worktree =>
    cases htasks
    obtain rfl := mem_singleton.mp ht
    exact ⟨fun _ => rfl, by simp, by simp⟩
  | admission view ask =>
    have hfirst : ∀ reserving, bindFirst view ask reserving = some tasks →
        (∀ worktree generation behind, t ≠ .create worktree generation behind) ∧
          ∀ worktree generation behind, t ≠ .record worktree generation behind := by
      intro reserving hbind
      rw [bindFirst] at hbind
      split at hbind
      · obtain ⟨worktree, _, rfl⟩ := map_eq_some_iff.mp hbind
        obtain rfl := mem_singleton.mp ht
        exact ⟨by simp, by simp⟩
      · cases hbind
        obtain rfl := mem_singleton.mp ht
        exact ⟨by simp, by simp⟩
    refine ⟨fun _ => rfl, ?_⟩
    simp only [World.tasks, World.admission] at htasks
    split at htasks
    · exact hfirst _ htasks
    · split at htasks
      · exact hfirst _ htasks
      · cases htasks
        cases ht
      · cases htasks
  | settle settle =>
    cases htasks
    rcases mem_append.mp ht with ht | ht
    · obtain ⟨event, _, rfl⟩ := List.mem_map.mp ht
      exact ⟨by rintro ⟨⟩, by simp, by simp⟩
    · have hlater := Task.not_mayBind_of_later (.inl (show t.isPlain = true by
        rcases mem_pair.mp ht with rfl | rfl <;> rfl))
      refine ⟨fun htrue => ?_, ?_, hlater.2⟩
      · rw [hlater.1] at htrue
        cases htrue
      · rintro worktree generation behind rfl
        cases hlater.1
  | close reason =>
    simp only [World.tasks] at htasks
    split at htasks
    · cases htasks
      rcases mem_cons.mp ht with rfl | ht
      · exact ⟨by rintro ⟨⟩, by simp, by simp⟩
      · obtain ⟨b, _, rfl⟩ := List.mem_map.mp ht
        exact ⟨by rintro ⟨⟩, by simp, by simp⟩
    · cases htasks
      cases ht
  | repair =>
    cases htasks
    obtain ⟨⟨worktree, record⟩, _, hsome⟩ := mem_filterMap.mp ht
    simp only at hsome
    split at hsome
    · split at hsome
      · cases hsome
        exact ⟨by rintro ⟨⟩, by simp, by simp⟩
      · cases hsome
        exact ⟨by rintro ⟨⟩, by simp, by simp⟩
    · cases hsome

/-- **An operation begins** where the condition holds. -/
theorem Settled.begin (h : Settled w.records caseId ledger todo) (hfirst : settledFirst w (.begin caseId op) = true)
    (htasks : w.tasks normalizeGuide digestUnitRunReports caseId op = some tasks) :
    Settled w.records caseId ledger tasks where
  own := h.own
  pending := h.pending
  alone task ht hbind worktree generation hrecord := by
    have hmay := (mayBind_of_tasks htasks task ht).1 hbind
    rw [settledFirst, hmay, Bool.not_true, Bool.false_or, List.all_eq_true] at hfirst
    have hsettled := hfirst _ (mem_toList_iff_getElem?_eq_some.mpr hrecord)
    simp at hsettled
  next worktree generation behind hmem := absurd rfl ((mayBind_of_tasks htasks _ hmem).2.1 worktree generation behind)
  only worktree generation behind hmem := absurd rfl ((mayBind_of_tasks htasks _ hmem).2.2 worktree generation behind)

theorem Settled.nil (h : Settled records caseId ledger todo) : Settled records caseId ledger [] where
  own := h.own
  pending := h.pending
  alone _ hmem := by cases hmem
  next _ _ _ hmem := by cases hmem
  only _ _ _ hmem := by cases hmem

theorem Settled.note {event : Event} (h : Settled records caseId ledger todo) (hnote : isNote event = true) :
    Settled records caseId (ledger ++ [event]) [] where
  own worktree generation hrecord := by
    obtain ⟨root, hmem⟩ := h.own worktree generation hrecord
    exact ⟨root, mem_append_left _ hmem⟩
  pending worktree generation hrecord e hmem hbound := by
    rcases mem_append.mp hmem with hmem | hmem
    · exact h.pending worktree generation hrecord e hmem hbound
    · obtain rfl := mem_singleton.mp hmem
      rw [recordsBound_of_isNote hnote] at hbound
      cases hbound
  alone _ hmem := by cases hmem
  next _ _ _ hmem := by cases hmem
  only _ _ _ hmem := by cases hmem

def AllSettled (w : World) : Prop :=
  ∀ caseId, Settled w.records caseId (w.cases caseId).ledger (w.cases caseId).todo

theorem AllSettled.after (h : AllSettled w) (hafter : After w w' caseId records events quiet)
    (hother : ∀ other, other ≠ caseId → ∀ (worktree : String) (record : Record), record.caseId = other →
      (records[worktree]? = some record ↔ w.records[worktree]? = some record))
    (hsettled : Settled records caseId ((w.cases caseId).ledger ++ events) (w'.cases caseId).todo) : AllSettled w' := by
  intro other
  rw [hafter.records_eq]
  by_cases hne : other = caseId
  · subst hne
    rw [hafter.ledger_eq]
    exact hsettled
  · rw [hafter.others other hne]
    exact (h other).frame (hother other hne)

/-- **One act** that meets the condition. -/
theorem AllSettled.act {a : Act} (h : AllSettled w) (hsound : AllSound w) (hfirst : settledFirst w a = true)
    (hact : w.act normalizeGuide digestUnitRunReports a = some w') : AllSettled w' := by
  cases hsound.acts hact with
  | @begin caseId op tasks hidle htasks hafter htodo =>
    refine h.after hafter (fun _ _ _ _ _ => Iff.rfl) ?_
    rw [htodo, append_nil]
    exact (h caseId).begin hfirst htasks
  | @step caseId task rest records events quiet next hwas hsteps hafter htodo =>
    have hcase := h caseId
    have hcaseSound := hsound caseId
    rw [hwas] at hcase hcaseSound
    have hdoes := hsteps.does (hcaseSound.holding.owned task mem_cons_self)
    refine h.after hafter (fun other hne _ _ hown => hdoes.other hne.symm hown) ?_
    rw [htodo]
    exact hcase.step hcaseSound hsteps
  | @crash caseId hafter htodo =>
    refine h.after hafter (fun _ _ _ _ _ => Iff.rfl) ?_
    rw [htodo, append_nil]
    exact (h caseId).nil
  | @note caseId event hidle hnote hafter htodo =>
    refine h.after hafter (fun _ _ _ _ _ => Iff.rfl) ?_
    rw [htodo]
    exact (h caseId).note hnote
  | take hrecords hcases _ | leave hrecords hcases _ =>
    intro caseId
    rw [hrecords, hcases]
    exact h caseId

theorem AllSettled.start (h : w.IsFresh) : AllSettled w := by
  subst h
  intro caseId
  exact {
    own := fun worktree generation hrecord => by simp at hrecord
    pending := fun worktree generation hrecord => by simp at hrecord
    alone := fun _ hmem => by cases hmem
    next := fun _ _ _ hmem => by cases hmem
    only := fun _ _ _ hmem => by cases hmem }

theorem AllSettled.ownEvent (h : AllSettled w) : OwnEvent w := by
  intro worktree record hrecord hcommitted
  obtain ⟨caseId, generation, committed⟩ := record
  obtain rfl : committed = true := hcommitted
  exact (h caseId).own worktree generation hrecord

end

/-! ### Two cases -/

namespace Worktree

def workflow : Definition where
  id := "w"
  steps := []
  guide := some {
    kind := .guide
    milestones := ["build.settled"]
    activities := [⟨"build", [], ["build.settled"], .writes⟩]
    decisions := []
    must := []
    frameDefaults := none
    closure := []
    uniqueIds := List.nodup_singleton "build" }
  uniqueSteps := List.nodup_nil

def fresh : World := ⟨∅, fun _ => ⟨[], ∅, []⟩, [], []⟩

theorem isFresh : fresh.IsFresh := rfl

def noGuide : Definition → Option Guide := fun _ => none

def noReports : List UnitRun → Option String := fun _ => none

def opening (caseId : String) : List Act := [
  .note caseId (.workflowStart ⟨caseId, "w", some workflow, none⟩),
  .note caseId (.caseOpened ⟨caseId, some .guide, some ⟨"w", "sha256:g"⟩, none, some "sha256:r", none⟩)]

def ask (unitId reservationId worktree : String) (writes : List String) : Op :=
  .admission .marked {
    proposal := ⟨"build", some unitId, none, none, writes, some worktree, false, [], none, none, none, none⟩
    unitRunId := reservationId
    binding := ⟨.unbound, none⟩
    bound := .already
    reservationId }

def admitted (caseId : String) : List Act :=
  .begin caseId (ask "u1" "rsv-1" "key-1" ["src/**"]) :: List.replicate 8 (.step caseId)

/-- The second case asks for a worktree of the first one while that is bound.  It dies between the event of another
worktree and the record, and repairs. -/
def acts : List Act :=
  opening "a" ++ opening "b" ++ admitted "a" ++ [.begin "b" (.bind .marked "key-1"), .step "b",
    .begin "b" (.bind .marked "key-2"), .step "b", .step "b", .step "b", .crash "b",
    .begin "b" .repair, .step "b", .step "b"]

/-- The case is closed before the admitted Unit takes the custody lease of its worktree. -/
def closing : List Act :=
  opening "a" ++ admitted "a" ++ .begin "a" (.close none) :: List.replicate 4 (.step "a")

end Worktree

end Forgent.Workflow.CaseBindings
