import Forgent.Workflow.Bindings

/-!
# What a step does to the bindings

* `Steps`: every branch of a step: the records it leaves, what it appends, and the steps that take its place.
* `Does`: what a step may do to the records.
* `After`, `after_of_act`: every act.
-/

namespace Forgent.Workflow.CaseBindings

open List Std.ExtTreeMap Option

/-! ### Tasks -/

namespace Task

/-- The record a step was given before, which it changes without a look. -/
def holds (caseId : String) : Task → Option (String × Record)
  | .record worktree generation _ | .commit worktree generation _ | .replace worktree generation _ =>
    some (worktree, ⟨caseId, generation, false⟩)
  | .recordUnbound worktree found | .unlink worktree found => some (worktree, found)
  | _ => none

/-- A step of `repairCaseBindings`. -/
def isRepair : Task → Bool
  | .commit _ _ none | .replace _ _ none => true
  | .unlink _ found => !found.committed
  | _ => false

/-- A step that waits behind another one and holds nothing. -/
def isPlain : Task → Bool
  | .release _ | .removeFile _ | .unbind _ _ => true
  | _ => false

theorem holds_of_isRepair {task : Task} (h : task.isRepair = true) (caseId : String) : task.holds caseId ≠ none := by
  cases task <;> first | exact some_ne_none _ | cases h

theorem holds_of_isPlain {task : Task} (h : task.isPlain = true) (caseId : String) : task.holds caseId = none := by
  cases task <;> first | rfl | cases h

end Task

/-- What a step may do to the records: a pending record of the case is made where there is none, the one that the case
holds is committed, and the one that the case has looked at is removed. -/
def Task.Does (caseId : String) (records records' : Table Record) : Task → Prop
  | .create worktree generation _ =>
    records' = records ∨ records[worktree]? = none ∧ records' = records.insert worktree ⟨caseId, generation, false⟩
  | .replace worktree generation _ =>
    records[worktree]? = some ⟨caseId, generation, false⟩ ∧
      records' = records.insert worktree ⟨caseId, generation, true⟩
  | .recordUnbound worktree found =>
    found.caseId = caseId ∧ records[worktree]? = some found ∧ records' = records
  | .unlink worktree found =>
    found.caseId = caseId ∧ records[worktree]? = some found ∧ records' = records.erase worktree
  | _ => records' = records

variable {task : Task} {records : Table Record} {worktree : String} {events : List Event} {w' : World}
  {record : Record} {quiet : List Quiet}

theorem Task.Does.other {caseId other : String} {records' : Table Record}
    (h : task.Does caseId records records') (hne : caseId ≠ other)
    (hother : record.caseId = other) : records'[worktree]? = some record ↔ records[worktree]? = some record := by
  have hinsert : ∀ {key : String} {g : ℕ} {b : Bool},
      (records[key]? = none ∨ records[key]? = some ⟨caseId, g, false⟩) →
      ((records.insert key ⟨caseId, g, b⟩)[worktree]? = some record ↔ records[worktree]? = some record) := by
    intro key g b hold
    rw [Std.ExtTreeMap.getElem?_insert]
    split
    · next heq =>
      rw [compare_key] at heq
      subst heq
      constructor
      · intro hnew
        cases hnew
        exact absurd hother hne
      · intro hrecord
        rcases hold with hold | hold
        · rw [hold] at hrecord
          cases hrecord
        · rw [hold] at hrecord
          cases hrecord
          exact absurd hother hne
    · rfl
  cases task with
  | create key g behind =>
    rcases h with rfl | ⟨hnone, rfl⟩
    · rfl
    · exact hinsert (.inl hnone)
  | replace key g behind =>
    obtain ⟨hold, rfl⟩ := h
    exact hinsert (.inr hold)
  | recordUnbound key r =>
    obtain ⟨_, _, rfl⟩ := h
    rfl
  | unlink key r =>
    obtain ⟨hown, hold, rfl⟩ := h
    rw [getElem?_erase]
    split
    · next heq =>
      rw [compare_key] at heq
      subst heq
      constructor
      · intro hnone
        cases hnone
      · intro hrecord
        rw [hold] at hrecord
        cases hrecord
        exact absurd (hown.symm.trans hother) hne
    · rfl
  | _ =>
    cases h
    rfl

/-! ### The branches of a step -/

variable {w : World} {caseId : String}

/-- A branch of a step of the case: the records behind it, the events it appends, the releases it found quiet, and the
steps that take its place. -/
inductive Steps (w : World) (caseId : String) :
    Task → Table Record → List Event → List Quiet → Option (List Task) → Prop
  /-- The operation ends here. -/
  | refuse {task : Task} (hheld : task.holds caseId = none) : Steps w caseId task w.records [] [] none
  /-- Nothing happens, or what happens is about reservation files. -/
  | pass {task : Task} {front : List Task} (hheld : task.holds caseId = none) (hplain : ∀ t ∈ front, t.isPlain = true)
      (hfront : front.length ≤ 1) : Steps w caseId task w.records [] [] (some front)
  | already {view : View} {worktree : String} {behind : Option Reserving} {generation : ℕ}
      (h : w.records[worktree]? = some ⟨caseId, generation, true⟩) :
      Steps w caseId (.bind view worktree behind) w.records [] [] (some (Reserving.next behind none))
  | unbound {view : View} {worktree : String} {behind : Option Reserving} :
      Steps w caseId (.bind view worktree behind) w.records [] []
        (some [.create worktree (nextGeneration (w.cases caseId).ledger caseId) behind])
  | create {worktree : String} {generation : ℕ} {behind : Option Reserving} (h : w.records[worktree]? = none) :
      Steps w caseId (.create worktree generation behind) (w.records.insert worktree ⟨caseId, generation, false⟩) [] []
        (some [.record worktree generation behind])
  | record {worktree : String} {generation : ℕ} {behind : Option Reserving} :
      Steps w caseId (.record worktree generation behind) w.records
        [.binding ⟨caseId, generation, worktree, worktree, .bound⟩] [] (some [.commit worktree generation behind])
  | commit {worktree : String} {generation : ℕ} {behind : Option Reserving} :
      Steps w caseId (.commit worktree generation behind) w.records [] [] (some [.replace worktree generation behind])
  | replace {worktree : String} {generation : ℕ} {behind : Option Reserving} :
      Steps w caseId (.replace worktree generation behind) (w.records.insert worktree ⟨caseId, generation, true⟩) [] []
        (some (Reserving.next behind (some ⟨worktree, generation⟩)))
  | append {event : Event} : Steps w caseId (.append event) w.records [event] [] (some [])
  | reserve {event : Event} {events : List Event} {reservationId : String} {made : Option Made} :
      Steps w caseId (.reserve ⟨event :: events, reservationId⟩ made) w.records [event] []
        (some [.reserve ⟨events, reservationId⟩ made])
  | quiet {worktree : String} {record : Record} (h : w.records[worktree]? = some record)
      (hown : record.caseId = caseId) (hfree : worktree ∉ w.custody) :
      Steps w caseId (.unbind worktree record.generation) w.records [] [⟨caseId, worktree, record.generation⟩]
        (some [.recordUnbound worktree record])
  | recordUnbound {worktree : String} {record : Record} :
      Steps w caseId (.recordUnbound worktree record) w.records
        [.binding ⟨caseId, record.generation, worktree, worktree, .unbound⟩] [] (some [.unlink worktree record])
  | unlink {worktree : String} {record : Record} :
      Steps w caseId (.unlink worktree record) (w.records.erase worktree) [] [] (some [])

/-- What one case did: the records behind it, what its ledger got, and the releases it found quiet. -/
structure After (w w' : World) (caseId : String) (records : Table Record) (events : List Event) (quiet : List Quiet) :
    Prop where
  records_eq : w'.records = records
  ledger_eq : (w'.cases caseId).ledger = (w.cases caseId).ledger ++ events
  quiet_eq : w'.quiet = w.quiet ++ quiet
  others : ∀ other, other ≠ caseId → w'.cases other = w.cases other

@[simp] theorem World.update_cases_self (w : World) (caseId : String) (f : CaseState → CaseState) :
    (w.update caseId f).cases caseId = f (w.cases caseId) := Function.update_self ..

theorem World.update_cases_of_ne (w : World) {caseId other : String} (f : CaseState → CaseState)
    (hne : other ≠ caseId) : (w.update caseId f).cases other = w.cases other := Function.update_of_ne hne ..

theorem After.refl (w : World) (caseId : String) : After w w caseId w.records [] [] where
  records_eq := rfl
  ledger_eq := (append_nil _).symm
  quiet_eq := (append_nil _).symm
  others _ _ := rfl

theorem After.update {f : CaseState → CaseState}
    (hledger : (f (w.cases caseId)).ledger = (w.cases caseId).ledger ++ events) :
    After w (w.update caseId f) caseId w.records events [] where
  records_eq := rfl
  ledger_eq := by rw [World.update_cases_self, hledger]
  quiet_eq := (append_nil _).symm
  others _ hne := w.update_cases_of_ne f hne

theorem After.append (event : Event) : After w (w.append caseId event) caseId w.records [event] [] := .update rfl

theorem After.files (f : CaseState → Table (Option Made)) :
    After w (w.update caseId fun s => { s with files := f s }) caseId w.records [] [] := .update (append_nil _).symm

theorem After.todo (h : After w w' caseId records events quiet) (todo : List Task) :
    After w (w'.update caseId fun s => { s with todo := todo }) caseId records events quiet where
  records_eq := h.records_eq
  ledger_eq := by rw [World.update_cases_self, h.ledger_eq]
  quiet_eq := h.quiet_eq
  others other hne := by rw [World.update_cases_of_ne _ _ hne, h.others other hne]

theorem readBinding_bound {view : View} (h : (readBinding records view caseId worktree).answer = .bound) :
    ∃ generation, records[worktree]? = some ⟨caseId, generation, true⟩ := by
  have hanswer : ∀ record, answerOf record caseId = .bound → ∃ generation, record = ⟨caseId, generation, true⟩ := by
    rintro ⟨owner, generation, committed⟩ hbound
    cases committed with
    | false => simp [answerOf] at hbound
    | true =>
      by_cases howner : owner = caseId
      · exact ⟨generation, by rw [howner]⟩
      · simp [answerOf, howner] at hbound
  cases view with
  | missing | masked => simp [readBinding] at h
  | _ =>
    rw [readBinding] at h
    cases hrecord : records[worktree]? with
    | none => simp [hrecord] at h
    | some record =>
      simp only [hrecord] at h
      obtain ⟨generation, rfl⟩ := hanswer record h
      exact ⟨generation, rfl⟩

/-- **One step**, of a case whose record is as it was read. -/
theorem steps_of_perform
    (hheld : ∀ worktree record, task.holds caseId = some (worktree, record) → w.records[worktree]? = some record) :
    ∃ records events quiet, Steps w caseId task records events quiet (w.perform caseId task).2 ∧
      After w (w.perform caseId task).1 caseId records events quiet := by
  cases task with
  | bind view worktree behind =>
    rw [World.perform]
    split
    · next hbound =>
      obtain ⟨generation, hrecord⟩ := readBinding_bound hbound
      exact ⟨_, _, _, .already hrecord, .refl w caseId⟩
    · exact ⟨_, _, _, .unbound, .refl w caseId⟩
    · exact ⟨_, _, _, .refuse rfl, .refl w caseId⟩
  | create worktree generation behind =>
    rw [World.perform]
    split
    · exact ⟨_, _, _, .refuse rfl, .refl w caseId⟩
    · next hnew =>
      have hnone : w.records[worktree]? = none := by
        rw [Bool.not_eq_true] at hnew
        exact getElem?_eq_none_of_contains_eq_false hnew
      exact ⟨_, _, _, .create hnone, ⟨rfl, (append_nil _).symm, (append_nil _).symm, fun _ _ => rfl⟩⟩
  | record worktree generation behind => exact ⟨_, _, _, .record, .append _⟩
  | commit worktree generation behind =>
    rw [World.perform, if_pos (hheld _ _ rfl)]
    exact ⟨_, _, _, .commit, .refl w caseId⟩
  | replace worktree generation behind =>
    exact ⟨_, _, _, .replace, ⟨rfl, (append_nil _).symm, (append_nil _).symm, fun _ _ => rfl⟩⟩
  | append event => exact ⟨_, _, _, .append, .append _⟩
  | reserve reserving made =>
    obtain ⟨events, reservationId⟩ := reserving
    cases events with
    | nil =>
      rw [World.perform]
      exact ⟨_, _, _, .pass rfl (by simp) (by simp), .files fun s => s.files.insert reservationId made⟩
    | cons event events => exact ⟨_, _, _, .reserve, .append _⟩
  | release reservationId =>
    rw [World.perform]
    split
    · exact ⟨_, _, _, .pass rfl (by simp [Task.isPlain]) (by simp), .refl w caseId⟩
    · exact ⟨_, _, _, .pass rfl (by simp) (by simp), .refl w caseId⟩
  | removeFile reservationId =>
    rw [World.perform]
    exact ⟨_, _, _, .pass rfl (by simp) (by simp), .files fun s => s.files.erase reservationId⟩
  | unbind worktree generation =>
    have hpass : Steps w caseId (.unbind worktree generation) w.records [] [] (some []) :=
      .pass rfl (by simp) (by simp)
    rw [World.perform]
    split
    · exact ⟨_, _, _, hpass, .refl w caseId⟩
    · next record hrecord =>
      split
      · exact ⟨_, _, _, hpass, .refl w caseId⟩
      · next hown =>
        rw [not_or, not_not, not_not] at hown
        obtain ⟨hown, rfl⟩ := hown
        split
        · exact ⟨_, _, _, hpass, .refl w caseId⟩
        · next hfree =>
          exact ⟨_, _, _, .quiet hrecord hown hfree, ⟨rfl, (append_nil _).symm, rfl, fun _ _ => rfl⟩⟩
  | recordUnbound worktree record => exact ⟨_, _, _, .recordUnbound, .append _⟩
  | unlink worktree record =>
    exact ⟨_, _, _, .unlink, ⟨rfl, (append_nil _).symm, (append_nil _).symm, fun _ _ => rfl⟩⟩

/-- **A case takes a step.** -/
theorem steps_of_step (h : w.step caseId = some w') (hheld : ∀ task ∈ (w.cases caseId).todo, ∀ worktree record,
      task.holds caseId = some (worktree, record) → w.records[worktree]? = some record) :
    ∃ task rest records events quiet next, (w.cases caseId).todo = task :: rest ∧
      Steps w caseId task records events quiet next ∧ After w w' caseId records events quiet ∧
      (w'.cases caseId).todo = (next.map (· ++ rest)).getD [] := by
  rw [World.step] at h
  split at h
  · cases h
  · next task rest htodo =>
    have heq : ((w.perform caseId task).1.update caseId fun s =>
        { s with todo := ((w.perform caseId task).2.map (· ++ rest)).getD [] }) = w' := some.inj h
    obtain ⟨records, events, quiet, hsteps, hafter⟩ :=
      steps_of_perform (hheld task (by rw [htodo]; exact mem_cons_self))
    refine ⟨task, rest, records, events, quiet, (w.perform caseId task).2, htodo, hsteps, ?_, ?_⟩
    · exact heq ▸ hafter.todo _
    · rw [← heq, World.update_cases_self]

/-! ### Acts -/

variable {normalizeGuide : Definition → Option Guide} {digestUnitRunReports : List UnitRun → Option String}

inductive Acts (normalizeGuide : Definition → Option Guide) (digestUnitRunReports : List UnitRun → Option String)
    (w w' : World) : Act → Prop
  | begin {caseId : String} {op : Op} {tasks : List Task} (hidle : (w.cases caseId).todo = [])
      (htasks : w.tasks normalizeGuide digestUnitRunReports caseId op = some tasks)
      (hafter : After w w' caseId w.records [] []) (htodo : (w'.cases caseId).todo = tasks) :
      Acts normalizeGuide digestUnitRunReports w w' (.begin caseId op)
  | step {caseId : String} {task : Task} {rest : List Task} {records : Table Record} {events : List Event} {quiet : List Quiet}
      {next : Option (List Task)} (hwas : (w.cases caseId).todo = task :: rest)
      (hsteps : Steps w caseId task records events quiet next) (hafter : After w w' caseId records events quiet)
      (htodo : (w'.cases caseId).todo = (next.map (· ++ rest)).getD []) :
      Acts normalizeGuide digestUnitRunReports w w' (.step caseId)
  | crash {caseId : String} (hafter : After w w' caseId w.records [] []) (htodo : (w'.cases caseId).todo = []) :
      Acts normalizeGuide digestUnitRunReports w w' (.crash caseId)
  | note {caseId : String} {event : Event} (hidle : (w.cases caseId).todo = []) (hnote : isNote event = true)
      (hafter : After w w' caseId w.records [event] []) (htodo : (w'.cases caseId).todo = []) :
      Acts normalizeGuide digestUnitRunReports w w' (.note caseId event)
  | take {worktree : String} (hrecords : w'.records = w.records) (hcases : w'.cases = w.cases)
      (hquiet : w'.quiet = w.quiet) : Acts normalizeGuide digestUnitRunReports w w' (.take worktree)
  | leave {worktree : String} (hrecords : w'.records = w.records) (hcases : w'.cases = w.cases)
      (hquiet : w'.quiet = w.quiet) : Acts normalizeGuide digestUnitRunReports w w' (.leave worktree)

/-- **Every act.** -/
theorem acts_of_act {a : Act} (h : w.act normalizeGuide digestUnitRunReports a = some w')
    (hheld : ∀ caseId, ∀ task ∈ (w.cases caseId).todo, ∀ worktree record,
      task.holds caseId = some (worktree, record) → w.records[worktree]? = some record) :
    Acts normalizeGuide digestUnitRunReports w w' a := by
  cases a with
  | begin caseId op =>
    simp only [World.act] at h
    split at h
    · next hidle =>
      obtain ⟨tasks, htasks, rfl⟩ := map_eq_some_iff.mp h
      exact .begin (List.isEmpty_iff.mp hidle) htasks ((After.refl w caseId).todo tasks)
        (by rw [World.update_cases_self])
    · cases h
  | step caseId =>
    obtain ⟨task, rest, records, events, quiet, next, hwas, hsteps, hafter, htodo⟩ := steps_of_step h (hheld caseId)
    exact .step hwas hsteps hafter htodo
  | crash caseId =>
    cases h
    exact .crash ((After.refl w caseId).todo []) (by rw [World.update_cases_self])
  | note caseId event =>
    simp only [World.act] at h
    split at h
    · next hboth =>
      rw [Bool.and_eq_true, List.isEmpty_iff] at hboth
      cases h
      exact .note hboth.1 hboth.2 (.append event) (by rw [World.append, World.update_cases_self, hboth.1])
    · cases h
  | take worktree =>
    cases h
    exact .take rfl rfl rfl
  | leave worktree =>
    cases h
    exact .leave rfl rfl rfl

/-! ### What a case holds -/

/-- What the steps of a case hold: its own records, as they are on the disk, each for one step.  Behind the first step
only steps of a repair hold any. -/
structure Holding (records : Table Record) (caseId : String) (todo : List Task) : Prop where
  owned : ∀ task ∈ todo, ∀ worktree record, task.holds caseId = some (worktree, record) →
    records[worktree]? = some record ∧ record.caseId = caseId
  apart : todo.Pairwise fun task task' => ∀ worktree record record',
    task.holds caseId = some (worktree, record) → task'.holds caseId ≠ some (worktree, record')
  shape : (∀ task ∈ todo, task.isRepair = true) ∨ ∀ task ∈ todo.tail, task.isPlain = true

namespace Holding

variable {records records' : Table Record} {todo rest : List Task} {task task' : Task}

theorem nil : Holding records caseId [] := ⟨by simp, .nil, .inl (by simp)⟩

theorem tail (h : Holding records caseId (task :: rest)) : Holding records caseId rest where
  owned t ht := h.owned t (mem_cons_of_mem _ ht)
  apart := h.apart.tail
  shape := h.shape.imp (fun hrepair t ht => hrepair t (mem_cons_of_mem _ ht))
    fun hplain t ht => hplain t (mem_of_mem_tail ht)

/-- Steps that wait behind one that is not of a repair hold nothing. -/
theorem plain (h : Holding records caseId (task :: rest)) (hrepair : task.isRepair = false) :
    ∀ t ∈ rest, t.isPlain = true := by
  rcases h.shape with hall | hplain
  · have htrue := hall task mem_cons_self
    rw [hrepair] at htrue
    cases htrue
  · exact hplain

theorem cons (hrest : ∀ t ∈ rest, t.isPlain = true)
    (howned : ∀ worktree record, task.holds caseId = some (worktree, record) →
      records[worktree]? = some record ∧ record.caseId = caseId) : Holding records caseId (task :: rest) where
  owned t ht := by
    rcases mem_cons.mp ht with rfl | ht
    · exact howned
    · intro worktree record hheld
      rw [Task.holds_of_isPlain (hrest t ht)] at hheld
      cases hheld
  apart := by
    have hnone : ∀ t ∈ rest, t.holds caseId = none := fun t ht => Task.holds_of_isPlain (hrest t ht) caseId
    refine .cons (fun t ht worktree record record' _ hheld => ?_) (pairwise_of_forall_mem_list ?_)
    · rw [hnone t ht] at hheld
      cases hheld
    · intro t ht _ _ worktree record record' hheld
      rw [hnone t ht] at hheld
      cases hheld
  shape := .inr hrest

theorem front {front : List Task} (hrest : ∀ t ∈ rest, t.isPlain = true) (hlength : front.length ≤ 1)
    (hfront : ∀ t ∈ front, t.holds caseId = none) : Holding records caseId (front ++ rest) := by
  have hheld : ∀ t ∈ front ++ rest, t.holds caseId = none := by
    intro t ht
    rcases mem_append.mp ht with ht | ht
    · exact hfront t ht
    · exact Task.holds_of_isPlain (hrest t ht) caseId
  have howned : ∀ t ∈ front ++ rest, ∀ worktree record, t.holds caseId = some (worktree, record) →
      records[worktree]? = some record ∧ record.caseId = caseId := by
    intro t ht worktree record hsome
    rw [hheld t ht] at hsome
    cases hsome
  cases front with
  | nil =>
    cases rest with
    | nil => exact nil
    | cons t rest =>
      exact cons (fun t' ht' => hrest t' (mem_cons_of_mem _ ht')) (howned t mem_cons_self)
  | cons t more =>
    obtain rfl : more = [] := length_eq_zero_iff.mp (by simpa using hlength)
    exact cons hrest (howned t mem_cons_self)

theorem swap (h : Holding records caseId (task :: rest)) (hholds : task'.holds caseId = task.holds caseId)
    (hrepair : task.isRepair = true → task'.isRepair = true) : Holding records caseId (task' :: rest) where
  owned t ht := by
    rcases mem_cons.mp ht with rfl | ht
    · rw [hholds]
      exact h.owned task mem_cons_self
    · exact h.owned t (mem_cons_of_mem _ ht)
  apart := by
    obtain ⟨hhead, htail⟩ := pairwise_cons.mp h.apart
    refine .cons (fun t ht worktree record record' hheld => ?_) htail
    rw [hholds] at hheld
    exact hhead t ht worktree record record' hheld
  shape := by
    refine h.shape.imp (fun hall t ht => ?_) id
    rcases mem_cons.mp ht with rfl | ht
    · exact hrepair (hall task mem_cons_self)
    · exact hall t (mem_cons_of_mem _ ht)

/-- Records of the case that the steps hold stay. -/
theorem frame (h : Holding records caseId todo)
    (hsame : ∀ task ∈ todo, ∀ worktree record, task.holds caseId = some (worktree, record) →
      records[worktree]? = some record → record.caseId = caseId → records'[worktree]? = some record) :
    Holding records' caseId todo where
  owned task ht worktree record hheld := by
    obtain ⟨hrecord, hown⟩ := h.owned task ht worktree record hheld
    exact ⟨hsame task ht worktree record hheld hrecord hown, hown⟩
  apart := h.apart
  shape := h.shape

/-- The record of the first step changes; the others hold other ones. -/
theorem drop (h : Holding records caseId (task :: rest)) {worktree : String} {record : Record}
    (hheld : task.holds caseId = some (worktree, record))
    (hsame : ∀ key, key ≠ worktree → records'[key]? = records[key]?) : Holding records' caseId rest := by
  refine h.tail.frame fun t ht key found hfound hrecord _ => ?_
  rw [hsame key ?_]
  · exact hrecord
  · intro heq
    subst heq
    exact (pairwise_cons.mp h.apart).1 t ht _ _ _ hheld hfound

end Holding

theorem Reserving.length_next (behind : Option Reserving) (made : Option Made) :
    (Reserving.next behind made).length ≤ 1 := by
  cases behind <;> simp [Reserving.next]

theorem Reserving.holds_next {behind : Option Reserving} {made : Option Made}
    (h : task ∈ Reserving.next behind made) : task.holds caseId = none := by
  cases behind with
  | none => cases h
  | some reserving =>
    obtain rfl := mem_singleton.mp h
    rfl

variable {key : String} {next : Option (List Task)}

theorem getElem?_insert_of_ne (hne : key ≠ worktree) : (records.insert worktree record)[key]? = records[key]? := by
  rw [Std.ExtTreeMap.getElem?_insert, if_neg fun heq => hne (compare_key.mp heq).symm]

theorem getElem?_erase_of_ne (hne : key ≠ worktree) : (records.erase worktree)[key]? = records[key]? := by
  rw [getElem?_erase, if_neg fun heq => hne (compare_key.mp heq).symm]

/-- **One step** holds what it is about. -/
theorem Holding.step {task : Task} {rest : List Task} {records : Table Record} {events : List Event}
     (h : Holding w.records caseId (task :: rest)) (hsteps : Steps w caseId task records events quiet next) :
    Holding records caseId ((next.map (· ++ rest)).getD []) := by
  have hplain_of : task.holds caseId = none → ∀ t ∈ rest, t.isPlain = true := by
    intro hheld
    refine h.plain ?_
    cases hrepair : task.isRepair with
    | false => rfl
    | true => exact absurd hheld (Task.holds_of_isRepair hrepair caseId)
  cases hsteps with
  | refuse hheld => exact .nil
  | pass hheld hplain hlength =>
    exact .front (hplain_of hheld) hlength fun t ht => Task.holds_of_isPlain (hplain t ht) caseId
  | already hrecord => exact .front (hplain_of rfl) (Reserving.length_next _ _) fun t ht => Reserving.holds_next ht
  | unbound => exact .front (hplain_of rfl) (Nat.le_refl 1) fun t ht => by rw [mem_singleton.mp ht]; rfl
  | create hnone =>
    refine .cons (hplain_of rfl) fun key record hheld => ?_
    cases hheld
    exact ⟨getElem?_insert_self, rfl⟩
  | record | reserve | recordUnbound => exact h.swap rfl nofun
  | @commit worktree generation behind =>
    refine h.swap rfl fun hrepair => ?_
    cases behind with
    | none => rfl
    | some reserving => cases hrepair
  | @replace worktree generation behind =>
    cases behind with
    | none => exact h.drop rfl fun key hne => getElem?_insert_of_ne hne
    | some reserving =>
      exact .front (h.plain rfl) (Reserving.length_next _ _) fun t ht => Reserving.holds_next ht
  | append => exact h.tail
  | quiet hrecord hown hfree =>
    refine .cons (hplain_of rfl) fun key record hheld => ?_
    cases hheld
    exact ⟨hrecord, hown⟩
  | unlink => exact h.drop rfl fun key hne => getElem?_erase_of_ne hne

/-- **One step** does what it may. -/
theorem Steps.does (h : Steps w caseId task records events quiet next)
    (howned : ∀ worktree record, task.holds caseId = some (worktree, record) →
      w.records[worktree]? = some record ∧ record.caseId = caseId) : task.Does caseId w.records records := by
  have hsame : task.holds caseId = none → task.Does caseId w.records w.records := by
    intro hnone
    cases task with
    | create worktree generation behind => exact .inl rfl
    | replace worktree generation behind | recordUnbound worktree found | unlink worktree found => cases hnone
    | _ => exact rfl
  cases h with
  | refuse hheld | pass hheld _ _ => exact hsame hheld
  | create hnone => exact .inr ⟨hnone, rfl⟩
  | replace => exact ⟨(howned _ _ rfl).1, rfl⟩
  | recordUnbound | unlink => exact ⟨(howned _ _ rfl).2, (howned _ _ rfl).1, rfl⟩
  | _ => exact rfl

end Forgent.Workflow.CaseBindings
