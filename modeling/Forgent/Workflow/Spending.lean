import Forgent.WriteScopeDisjoint
import Forgent.Workflow.AdmissionPort

/-!
# A case spends what its frame allows

What the reservations of a case spend stays within its frame, and the writes of two live ones match no common path,
whatever is asked of its ports in whatever order.  That an admitted answer records the writes that were asked for, and
gives no reservation to two Unit runs that are alive, rests on what a repeated ask asks for.

* `attempts`: what the ledger says of the reservations, and what an event does to it.
* `Spends`: the invariant of a ledger; `Answers`: that of the answers.
* `case_spends_its_frame`: every run.
-/

namespace Forgent.Workflow

open List Option

open WriteScope (canonicalizeWrites matchesWriteScope writeScopesOverlap)

/-! ### The reservations of a ledger -/

def Reservation.attempt (reservation : Reservation) : Attempt :=
  { reservation with settled := false, outcome := none, seatLaunchesUsed := none }

def Attempt.settle (r : Attempt) (p : Settle) : Attempt :=
  { r with
    settled := true, outcome := some p.outcome, seatLaunchesUsed := p.seatLaunchesUsed,
    unitRunId := p.unitRunId.or r.unitRunId }

/-- What an event does to the attempts. -/
def record (rs : List Attempt) : Event → List Attempt
  | .reservation p =>
    if rs.any (·.reservationId == p.reservationId) then
      rs.map fun r => if r.reservationId = p.reservationId then p.attempt else r
    else rs ++ [p.attempt]
  | .settle p => rs.map fun r => if r.reservationId = p.reservationId then r.settle p else r
  | _ => rs

def attempts (events : List Event) : List Attempt := events.foldl record []

section

variable {guide : Option Guide} {legacy : WorkflowState}

namespace CaseFold

theorem foldl_reservations {β : Type} {f : CaseFold → β → CaseFold} (h : ∀ fold b, (f fold b).reservations = fold.reservations)
    (l : List β) (fold : CaseFold) : (l.foldl f fold).reservations = fold.reservations := by
  induction l generalizing fold with
  | nil => rfl
  | cons b l ih => rw [foldl_cons, ih, h]

@[simp] theorem achieve_reservations (fold : CaseFold) (id : String) (by_ : Achievement) :
    (fold.achieve id by_).reservations = fold.reservations := by
  rw [achieve]
  split <;> rfl

@[simp] theorem achieveIfUnreached_reservations (fold : CaseFold) (id : String) (digest : Option String) :
    (fold.achieveIfUnreached id digest).reservations = fold.reservations := by
  rw [achieveIfUnreached]
  split
  · exact fold.achieve_reservations id _
  · rfl

theorem settle_reservations (fold : CaseFold) (p : Settle) :
    (fold.settle guide p).reservations = record fold.reservations (.settle p) := by
  rw [settle, foldl_reservations]
  · rfl
  · intro fold item
    rw [settleItem]
    split
    · exact fold.achieve_reservations _ _
    · rfl

theorem step_reservations (fold : CaseFold) (event : Event) :
    (fold.step guide legacy event).reservations = record fold.reservations event := by
  cases event with
  | caseOpened p =>
    show (fold.open_ p).reservations = fold.reservations
    rw [open_, foldl_reservations]
    · exact fold.achieve_reservations _ _
    · exact fun fold item => fold.achieve_reservations _ _
  | stepComplete p => exact foldl_reservations (fun fold id => fold.achieveIfUnreached_reservations id _) _ fold
  | gateAnswer p =>
    show (fold.answerGate guide legacy p).reservations = fold.reservations
    rw [answerGate]
    split
    · exact foldl_reservations (fun fold id => fold.achieve_reservations id _) _ fold
    · rfl
  | settle p => exact fold.settle_reservations p
  | _ => rfl

end CaseFold

end

section

variable (normalizeGuide : Definition → Option Guide) (digestUnitRunReports : List UnitRun → Option String)

theorem projectCase_reservations (events : List Event) (digests : Table (Option String)) :
    (projectCase normalizeGuide events digests).reservations = attempts events := by
  show (caseFold normalizeGuide events).reservations = _
  have h : ∀ (l : List Event) (guide : Option Guide) (legacy : WorkflowState) (fold : CaseFold),
      (l.foldl (CaseFold.step guide legacy) fold).reservations = l.foldl record fold.reservations := by
    intro l guide legacy
    induction l with
    | nil => exact fun _ => rfl
    | cons event l ih =>
      intro fold
      rw [foldl_cons, ih, fold.step_reservations, foldl_cons]
  exact h events _ _ _

theorem readCase_eq (events : List Event) :
    ∃ digests, readCase digestUnitRunReports normalizeGuide events = projectCase normalizeGuide events digests := by
  rw [readCase]
  split
  · exact ⟨_, rfl⟩
  · exact ⟨∅, rfl⟩

end

theorem attempts_append (events : List Event) (event : Event) :
    attempts (events ++ [event]) = record (attempts events) event := by
  rw [attempts, foldl_append]
  rfl

theorem record_note {event : Event} (h : event.isNote = true) (rs : List Attempt) : record rs event = rs := by
  cases event <;> first | rfl | cases h

theorem attempts_notes (ledger : List Event) {notes : List Event} (h : ∀ e ∈ notes, e.isNote = true) :
    attempts (ledger ++ notes) = attempts ledger := by
  rw [attempts, foldl_append, ← attempts]
  generalize attempts ledger = rs
  induction notes with
  | nil => rfl
  | cons event notes ih =>
    rw [foldl_cons, record_note (h event mem_cons_self)]
    exact ih fun e he => h e (mem_cons_of_mem event he)

/-! ### What is spent -/

/-- A reservation that was given back spends nothing. -/
def Attempt.spends (r : Attempt) : Bool := !(r.settled && (r.outcome == some "refunded" || r.outcome == some "not-started"))

def Attempt.dispatches (r : Attempt) : ℕ := (r.counters.map Counters.dispatches).getD 1

def Attempt.mutatingDispatches (r : Attempt) : ℕ := (r.counters.map Counters.mutatingDispatches).getD 0

def spent (count : Attempt → ℕ) (rs : List Attempt) : ℕ := ((rs.filter Attempt.spends).map count).sum

theorem spent_append (count : Attempt → ℕ) (rs : List Attempt) (r : Attempt) (h : r.spends = true) :
    spent count (rs ++ [r]) = spent count rs + count r := by
  simp [spent, h]

theorem spent_settle {count : Attempt → ℕ} {p : Settle} (hcount : ∀ r : Attempt, count (r.settle p) = count r) {rs : List Attempt}
    (hopen : ∀ r ∈ rs, r.reservationId = p.reservationId → r.settled = false) :
    spent count (record rs (.settle p)) ≤ spent count rs := by
  show spent count (rs.map fun r => if r.reservationId = p.reservationId then r.settle p else r) ≤ _
  induction rs with
  | nil => exact Nat.le_refl _
  | cons r rs ih =>
    have hrest := ih fun other hother => hopen other (mem_cons_of_mem r hother)
    rw [map_cons]
    by_cases hid : r.reservationId = p.reservationId
    · have hspends : r.spends = true := by
        rw [Attempt.spends, hopen r mem_cons_self hid]
        rfl
      rw [if_pos hid]
      simp only [spent, filter_cons, hspends, if_true, map_cons, sum_cons] at hrest ⊢
      split
      · rw [map_cons, sum_cons, hcount]
        omega
      · omega
    · rw [if_neg hid]
      simp only [spent, filter_cons] at hrest ⊢
      split
      · rw [map_cons, sum_cons, map_cons, sum_cons]
        omega
      · exact hrest

/-! ### Writes -/

/-- Two scopes that match no common path. -/
def Apart (writes writes' : List String) : Prop :=
  ∀ path, matchesWriteScope (.str path) (writes.map .str) = .ok true →
    matchesWriteScope (.str path) (writes'.map .str) ≠ .ok true

variable {writes : List String}

theorem Apart.symm {writes' : List String} (h : Apart writes writes') : Apart writes' writes :=
  fun path hpath hpath' => h path hpath' hpath

theorem apart_nil (writes : List String) : Apart writes [] := by
  intro path _ hpath
  obtain ⟨_, raw, hraw, _⟩ := WriteScope.covers_of_matchesWriteScope hpath
  cases hraw

def Attempt.isLive (r : Attempt) : Bool := !r.settled && r.nested.isNone

theorem overlapViolations_cons {other : Attempt} {rest : List Attempt}
    (h : overlapViolations writes (other :: rest) = .ok []) :
    (other.writes = [] ∨ writeScopesOverlap (scope writes) (scope other.writes) = .ok false) ∧
      overlapViolations writes rest = .ok [] := by
  rw [overlapViolations] at h
  split at h
  · next hempty =>
    obtain ⟨_, hfalse, h⟩ := bind_eq_ok.mp h
    cases hfalse
    obtain ⟨behind, hbehind, h⟩ := bind_eq_ok.mp h
    exact ⟨.inl hempty, hbehind.trans h⟩
  · obtain ⟨overlaps, hoverlap, h⟩ := bind_eq_ok.mp h
    obtain ⟨behind, hbehind, h⟩ := bind_eq_ok.mp h
    cases overlaps with
    | true => cases h
    | false => exact ⟨.inr hoverlap, hbehind.trans h⟩

theorem apart_of_isolation {projection : Projection}
    (h : isolationViolations projection writes = .ok []) : ∀ r ∈ projection.liveReservations, Apart r.writes writes := by
  rw [isolationViolations] at h
  split at h
  · next hnone =>
    intro r _
    rw [hnone]
    exact apart_nil r.writes
  · generalize projection.liveReservations = rs at h
    induction rs with
    | nil => simp
    | cons other rest ih =>
      obtain ⟨hother, hrest⟩ := overlapViolations_cons h
      intro r hr
      rcases mem_cons.mp hr with rfl | hr
      · rcases hother with hempty | hoverlap
        · rw [hempty]
          exact (apart_nil writes).symm
        · exact fun path hpath hpath' => WriteScope.apart_of_not_overlap hoverlap hpath' hpath
      · exact ih hrest r hr

/-! ### The ledger of a case -/

/-- A count of the frame, and what is spent of it. -/
def Within (limit : Option ℕ) (used : ℕ) : Prop := ∀ n, limit = some n → used ≤ n

/-- What is so of the ledger of a case that was opened with a frame. -/
structure Spends (frame : Option Frame) (ledger : List Event) : Prop where
  nodup : ((attempts ledger).map fun r => r.reservationId).Nodup
  recorded : ∀ r ∈ attempts ledger, ∃ p, recordedReservation ledger r.reservationId = some p ∧ p.writes = r.writes
  settled : ∀ r ∈ attempts ledger, r.settled = true → ledger.any (Event.settles r.reservationId) = true
  dispatches : Within (frame.bind Frame.dispatches) (spent Attempt.dispatches (attempts ledger))
  mutatingDispatches : Within (frame.bind Frame.mutatingDispatches) (spent Attempt.mutatingDispatches (attempts ledger))
  apart : (attempts ledger).Pairwise fun r r' => r.isLive = true → r'.isLive = true → Apart r.writes r'.writes

section

variable {frame : Option Frame} {ledger : List Event} {id : String} {p : Reservation}

theorem any_append_of_any {p : Event → Bool} (h : ledger.any p = true) (event : Event) : (ledger ++ [event]).any p = true := by
  rw [any_append, h, Bool.true_or]

theorem recordedReservation_append (h : recordedReservation ledger id = some p)
    (events : List Event) : recordedReservation (ledger ++ events) id = some p := by
  rw [recordedReservation] at h ⊢
  rw [findSome?_append, h, some_or]

theorem recordedReservation_new (hnew : ledger.any (Event.reserves p.reservationId) = false) :
    recordedReservation (ledger ++ [.reservation p]) p.reservationId = some p := by
  have hnone : recordedReservation ledger p.reservationId = none := by
    rw [recordedReservation, findSome?_eq_none_iff]
    intro event hevent
    have hnot := List.any_eq_false.mp hnew event hevent
    cases event with
    | reservation other => exact if_neg fun heq => hnot (beq_iff_eq.mpr heq)
    | _ => rfl
  rw [recordedReservation] at hnone ⊢
  rw [findSome?_append, hnone]
  simp

theorem reserves_of_recorded (h : recordedReservation ledger id = some p) :
    ledger.any (Event.reserves id) = true := by
  obtain ⟨event, hevent, hsome⟩ := exists_of_findSome?_eq_some h
  refine List.any_eq_true.mpr ⟨event, hevent, ?_⟩
  cases event with
  | reservation other =>
    have hif : (if other.reservationId = id then some other else none) = some p := hsome
    split at hif
    · next heq => exact beq_iff_eq.mpr heq
    · cases hif
  | _ => cases hsome

theorem any_reserves_notes {notes : List Event} (hnotes : ∀ e ∈ notes, e.isNote = true) :
    (ledger ++ notes).any (Event.reserves id) = ledger.any (Event.reserves id) := by
  have hnone : notes.any (Event.reserves id) = false := by
    rw [List.any_eq_false]
    intro e he hreserves
    have hnote := hnotes e he
    cases e <;> first | cases hreserves | cases hnote
  rw [any_append, hnone, Bool.or_false]

theorem Spends.note (h : Spends frame ledger) {event : Event} (hnote : event.isNote = true) :
    Spends frame (ledger ++ [event]) := by
  have hsame : attempts (ledger ++ [event]) = attempts ledger := by rw [attempts_append, record_note hnote]
  refine ⟨?_, ?_, ?_, ?_, ?_, ?_⟩
  · rw [hsame]
    exact h.nodup
  · rw [hsame]
    intro r hr
    obtain ⟨p, hp, hwrites⟩ := h.recorded r hr
    exact ⟨p, recordedReservation_append hp _, hwrites⟩
  · rw [hsame]
    exact fun r hr hsettled => any_append_of_any (h.settled r hr hsettled) event
  · rw [hsame]
    exact h.dispatches
  · rw [hsame]
    exact h.mutatingDispatches
  · rw [hsame]
    exact h.apart

theorem Spends.notes (h : Spends frame ledger) {events : List Event} (hnotes : ∀ e ∈ events, e.isNote = true) :
    Spends frame (ledger ++ events) := by
  induction events generalizing ledger with
  | nil => simpa using h
  | cons event events ih =>
    rw [append_cons]
    exact ih (h.note (hnotes event mem_cons_self)) fun e he => hnotes e (mem_cons_of_mem event he)

/-- **A new reservation** that fits what is left of the frame, and is apart from the live ones. -/
theorem Spends.reserve (h : Spends frame ledger) (hnew : ledger.any (Event.reserves p.reservationId) = false)
    (hdispatches : Within (frame.bind Frame.dispatches) (spent Attempt.dispatches (attempts ledger) + p.attempt.dispatches))
    (hmutating : Within (frame.bind Frame.mutatingDispatches)
      (spent Attempt.mutatingDispatches (attempts ledger) + p.attempt.mutatingDispatches))
    (hapart : p.attempt.isLive = true → ∀ r ∈ attempts ledger, r.isLive = true → Apart r.writes p.writes) :
    Spends frame (ledger ++ [.reservation p]) := by
  have hother : ∀ r ∈ attempts ledger, r.reservationId ≠ p.reservationId := by
    intro r hr heq
    obtain ⟨recorded, hrecorded, _⟩ := h.recorded r hr
    have hreserved := reserves_of_recorded hrecorded
    rw [heq, hnew] at hreserved
    cases hreserved
  have hrecord : attempts (ledger ++ [.reservation p]) = attempts ledger ++ [p.attempt] := by
    rw [attempts_append, record, if_neg]
    intro hany
    obtain ⟨r, hr, hid⟩ := List.any_eq_true.mp hany
    exact hother r hr (beq_iff_eq.mp hid)
  have hspends : p.attempt.spends = true := rfl
  refine ⟨?_, ?_, ?_, ?_, ?_, ?_⟩
  · rw [hrecord, map_append, map_singleton, nodup_append]
    refine ⟨h.nodup, nodup_singleton _, fun id hid id' hid' => ?_⟩
    obtain ⟨r, hr, rfl⟩ := List.mem_map.mp hid
    rw [mem_singleton.mp hid']
    exact hother r hr
  · rw [hrecord]
    intro r hr
    rcases mem_append.mp hr with hr | hr
    · obtain ⟨recorded, hrecorded, hwrites⟩ := h.recorded r hr
      exact ⟨recorded, recordedReservation_append hrecorded _, hwrites⟩
    · rw [mem_singleton.mp hr]
      exact ⟨p, recordedReservation_new hnew, rfl⟩
  · rw [hrecord]
    intro r hr hsettled
    rcases mem_append.mp hr with hr | hr
    · exact any_append_of_any (h.settled r hr hsettled) _
    · rw [mem_singleton.mp hr] at hsettled
      cases hsettled
  · rw [hrecord, spent_append _ _ _ hspends]
    exact hdispatches
  · rw [hrecord, spent_append _ _ _ hspends]
    exact hmutating
  · rw [hrecord, pairwise_append]
    refine ⟨h.apart, pairwise_singleton _ _, fun r hr r' hr' hlive hlive' => ?_⟩
    rw [mem_singleton.mp hr'] at hlive' ⊢
    exact hapart hlive' r hr hlive

theorem Within.mono {limit : Option ℕ} {used used' : ℕ} (h : Within limit used) (hle : used' ≤ used) : Within limit used' :=
  fun n hn => Nat.le_trans hle (h n hn)

/-- **A reservation is settled**, once. -/
theorem Spends.settle (h : Spends frame ledger) (p : Settle) : Spends frame (ledger ++ applySettle ledger p) := by
  rw [applySettle]
  split
  · simpa using h
  · next hnone =>
    rw [Bool.not_eq_true] at hnone
    have hopen : ∀ r ∈ attempts ledger, r.reservationId = p.reservationId → r.settled = false := by
      intro r hr hid
      rw [← Bool.not_eq_true]
      intro hsettled
      have hany := h.settled r hr hsettled
      rw [hid, hnone] at hany
      cases hany
    have hrecord := attempts_append ledger (.settle p)
    have hid : ∀ r : Attempt, (if r.reservationId = p.reservationId then r.settle p else r).reservationId = r.reservationId := by
      intro r
      split <;> rfl
    have hmem : ∀ r ∈ attempts (ledger ++ [.settle p]), ∃ before ∈ attempts ledger,
        before.reservationId = r.reservationId ∧ before.writes = r.writes ∧ (r.isLive = true → before.isLive = true) ∧
          (r.settled = true → before.settled = true ∨ before.reservationId = p.reservationId) := by
      rw [hrecord]
      intro r hr
      obtain ⟨before, hbefore, rfl⟩ := List.mem_map.mp hr
      refine ⟨before, hbefore, (hid before).symm, ?_⟩
      split
      · next heq => exact ⟨rfl, fun hlive => by simp [Attempt.isLive, Attempt.settle] at hlive, fun _ => .inr heq⟩
      · exact ⟨rfl, fun hlive => hlive, .inl⟩
    refine ⟨?_, fun r hr => ?_, fun r hr hsettled => ?_, ?_, ?_, ?_⟩
    · rw [hrecord]
      show (((attempts ledger).map _).map _).Nodup
      rw [List.map_map]
      exact (map_congr_left fun r _ => hid r) ▸ h.nodup
    · obtain ⟨before, hbefore, heq, hsame, _⟩ := hmem r hr
      obtain ⟨recorded, hrecorded, hwrites⟩ := h.recorded before hbefore
      exact ⟨recorded, heq ▸ recordedReservation_append hrecorded _, hwrites.trans hsame⟩
    · obtain ⟨before, hbefore, heq, _, _, hwas⟩ := hmem r hr
      rcases hwas hsettled with hwas | hmine
      · rw [← heq]
        exact any_append_of_any (h.settled before hbefore hwas) _
      · rw [← heq, hmine]
        simp [Event.settles]
    · rw [hrecord]
      exact h.dispatches.mono (spent_settle (fun _ => rfl) hopen)
    · rw [hrecord]
      exact h.mutatingDispatches.mono (spent_settle (fun _ => rfl) hopen)
    · rw [hrecord]
      show ((attempts ledger).map _).Pairwise _
      rw [pairwise_map]
      refine h.apart.imp fun {r r'} hapart hlive hlive' => ?_
      split at hlive
      · simp [Attempt.isLive, Attempt.settle] at hlive
      · split at hlive'
        · simp [Attempt.isLive, Attempt.settle] at hlive'
        · next hne hne' =>
          rw [if_neg hne, if_neg hne']
          exact hapart hlive hlive'

end

/-! ### What the sections append -/

section

variable (normalizeGuide : Definition → Option Guide) (digestUnitRunReports : List UnitRun → Option String)
  {appended : List Event} {answer : PortAnswer} {projection : Projection} {limit : Option ℕ} {used : ℕ}

/-- What a section of `admit` answers and appends: a live reservation again, a new one, or nothing. -/
inductive Admits (events : List Event) (ask : Ask) : PortAnswer → List Event → Prop
  | again {live : Attempt} (ceiling : Option ℕ) {notes : List Event}
      (hlive : ask.liveOf (readCase digestUnitRunReports normalizeGuide events) = some live)
      (hnotes : ∀ e ∈ notes, e.isNote = true) : Admits events ask (.admitted live.reservationId ceiling) notes
  | anew {projection : Projection} {proposal : Proposal} {bindingAnswers : Table Answered} {guide : Guide}
      {activity : Activity} {writes : List String} (ceiling : Option ℕ) {notes : List Event}
      (hprojection : projection = readCase digestUnitRunReports normalizeGuide events)
      (hasked : proposal.writes = ask.proposal.writes)
      (hpassed : Passed projection proposal bindingAnswers guide activity writes) (hnotes : ∀ e ∈ notes, e.isNote = true) :
      Admits events ask (.admitted ask.reservationId ceiling)
        (notes ++ [.reservation (reservationOf projection activity proposal writes ask.reservationId)])
  | refused (violations : List Violation) : Admits events ask (.refused violations) []
  | unbindable (answer : BindingAnswer) (condition : String) : Admits events ask (.unbindable answer condition) []

variable {normalizeGuide digestUnitRunReports}

theorem bindThen_cases (ask : Ask) (caseId : String) (answer : PortAnswer) (appended : List Event) :
    (∃ notes, (∀ e ∈ notes, e.isNote = true) ∧ ask.bindThen caseId answer appended = (answer, notes ++ appended)) ∨
      ∃ reason condition, ask.bindThen caseId answer appended = (.unbindable reason condition, []) := by
  rw [Ask.bindThen]
  split
  · split
    · exact .inr ⟨_, _, rfl⟩
    · exact .inl ⟨[], by simp, rfl⟩
    · next binding _ => exact .inl ⟨[.binding binding], by simp [Event.isNote], rfl⟩
  · exact .inl ⟨[], by simp, rfl⟩

theorem admits_of_admitUnderAdvance {caseId : String} {events : List Event} {ask : Ask}
    (h : admitUnderAdvance normalizeGuide digestUnitRunReports caseId events ask = .ok (answer, appended)) :
    Admits normalizeGuide digestUnitRunReports events ask answer appended := by
  rw [admitUnderAdvance] at h
  split at h
  · next live hlive =>
    rcases bindThen_cases ask caseId (.admitted live.reservationId live.seatLaunchCeiling) [] with
      ⟨notes, hnotes, heq⟩ | ⟨reason, condition, heq⟩
    · rw [heq, append_nil] at h
      cases h
      exact .again _ hlive hnotes
    · rw [heq] at h
      cases h
      exact .unbindable _ _
  · next hnone =>
    split at h
    · cases h
    · cases h
      exact .refused _
    · next reservation bindings events' hanswersted =>
      obtain ⟨guide, activity, writes, hpassed, rfl, _, rfl⟩ := admitProposal_admitted hanswersted
      rcases bindThen_cases ask caseId (.admitted ask.reservationId
          (reservationOf _ activity (ask.proposed _) writes ask.reservationId).seatLaunchCeiling)
          [.route (routeOf _ activity (ask.proposed _) ask.reservationId),
            .reservation (reservationOf _ activity (ask.proposed _) writes ask.reservationId)] with
        ⟨notes, hnotes, heq⟩ | ⟨reason, condition, heq⟩
      · have h' := (congrArg Except.ok heq).symm.trans h
        cases h'
        rw [append_cons]
        refine .anew _ rfl rfl hpassed fun e he => ?_
        rcases mem_append.mp he with he | he
        · exact hnotes e he
        · rw [mem_singleton.mp he]
          rfl
      · have h' := (congrArg Except.ok heq).symm.trans h
        cases h'
        exact .unbindable _ _

/-! ### What is left of the frame -/

theorem Projection.frameUsed_eq (projection : Projection) :
    projection.frameUsed = ⟨spent Attempt.dispatches projection.reservations,
      spent Attempt.mutatingDispatches projection.reservations⟩ := rfl

theorem Projection.mem_liveReservations {r : Attempt} :
    r ∈ projection.liveReservations ↔ r ∈ projection.reservations ∧ r.isLive = true := mem_filter

theorem within_none (used : ℕ) : Within none used := by
  intro n hn
  cases hn

theorem within_succ (h : remaining limit used ≠ some 0) : Within limit (used + 1) := by
  intro n hn
  rw [hn, remaining, map_some] at h
  have hne : n - used ≠ 0 := fun hzero => h (congrArg some hzero)
  omega

theorem within_add {need : ℕ} (h : fallsShort (remaining limit used) need = false)
    (hused : Within limit used) : Within limit (used + need) := by
  intro n hn
  have hle := hused n hn
  rw [hn, remaining, map_some, fallsShort, any_some, decide_eq_false_iff_not] at h
  omega

theorem Passed.within {proposal : Proposal} {bindingAnswers : Table Answered} {guide : Guide}
    {activity : Activity} {writes : List String} (h : Passed projection proposal bindingAnswers guide activity writes) :
    Within (projection.frame.bind Frame.dispatches) (projection.frameUsed.dispatches + 1) ∧
      (writes ≠ [] → Within (projection.frame.bind Frame.mutatingDispatches) (projection.frameUsed.mutatingDispatches + 1)) := by
  have hframe := h.frame
  rw [frameViolations] at hframe
  cases hsome : projection.frame with
  | none => exact ⟨within_none _, fun _ => within_none _⟩
  | some frame =>
    simp only [hsome, append_eq_nil_iff] at hframe
    obtain ⟨⟨⟨hdispatches, hwriting⟩, _⟩, _⟩ := hframe
    refine ⟨?_, fun hwrites => ?_⟩
    · rw [← hsome]
      refine within_succ fun hzero => ?_
      rw [if_pos (show projection.frameRemaining.dispatches = some 0 from hzero)] at hdispatches
      cases hdispatches
    · rw [if_pos hwrites] at hwriting
      rw [← hsome]
      refine within_succ fun hzero => ?_
      split at hwriting
      · cases hwriting
      · rw [if_pos (show projection.frameRemaining.mutatingDispatches = some 0 from hzero)] at hwriting
        cases hwriting

def openedFrame (normalizeGuide : Definition → Option Guide) (p : StartPayload) (q : CaseOpened) : Option Frame :=
  frameOf (some q) (guideOf normalizeGuide (some p))

theorem projectCase_frame {p : StartPayload} {q : CaseOpened} {rest : List Event} (digests : Table (Option String)) :
    (projectCase normalizeGuide (.workflowStart p :: .caseOpened q :: rest) digests).frame =
      openedFrame normalizeGuide p q := rfl

variable {p : StartPayload} {q : CaseOpened} {rest : List Event}

/-- **A Unit run is admitted.** -/
theorem Spends.admission {ask : Ask}
    (h : Spends (openedFrame normalizeGuide p q) (.workflowStart p :: .caseOpened q :: rest))
    (hnew : (.workflowStart p :: .caseOpened q :: rest : List Event).any (Event.reserves ask.reservationId) = false)
    (hanswerss : Admits normalizeGuide digestUnitRunReports (.workflowStart p :: .caseOpened q :: rest) ask answer appended) :
    Spends (openedFrame normalizeGuide p q) (.workflowStart p :: .caseOpened q :: rest ++ appended) := by
  cases hanswerss with
  | again ceiling hlive hnotes => exact h.notes hnotes
  | refused violations | unbindable answer condition => simpa using h
  | @anew projection proposal bindingAnswers guide activity writes ceiling notes hprojection hasked hpassed hnotes =>
    obtain ⟨digests, hread⟩ := readCase_eq normalizeGuide digestUnitRunReports (.workflowStart p :: .caseOpened q :: rest)
    rw [hread] at hprojection
    have hreservations : projection.reservations = attempts (.workflowStart p :: .caseOpened q :: rest) := by
      rw [hprojection]
      exact projectCase_reservations normalizeGuide _ digests
    have hframe : projection.frame = openedFrame normalizeGuide p q := by
      rw [hprojection]
      exact projectCase_frame digests
    obtain ⟨hdispatches, hmutating⟩ := hpassed.within
    rw [hframe, Projection.frameUsed_eq, hreservations] at hdispatches hmutating
    rw [← append_assoc]
    refine (h.notes hnotes).reserve ?_ ?_ ?_ fun _ r hr hlive => ?_
    · exact (any_reserves_notes hnotes).trans hnew
    · rw [attempts_notes _ hnotes]
      exact hdispatches
    · rw [attempts_notes _ hnotes]
      by_cases hwrites : writes = []
      · have hnothing : (reservationOf projection activity proposal writes ask.reservationId).attempt.mutatingDispatches = 0 := by
          simp [Attempt.mutatingDispatches, Reservation.attempt, reservationOf, hwrites]
        rw [hnothing]
        exact h.mutatingDispatches
      · have hone : (reservationOf projection activity proposal writes ask.reservationId).attempt.mutatingDispatches = 1 := by
          simp [Attempt.mutatingDispatches, Reservation.attempt, reservationOf, hwrites]
        rw [hone]
        exact hmutating hwrites
    · rw [attempts_notes _ hnotes, ← hreservations] at hr
      exact apart_of_isolation hpassed.isolation r (Projection.mem_liveReservations.mpr ⟨hr, hlive⟩)

/-- **The frame is charged for a nested case.** -/
theorem Spends.charge (h : Spends (openedFrame normalizeGuide p q) (.workflowStart p :: .caseOpened q :: rest))
    (reservationId childRef : String) (need : Counters) :
    Spends (openedFrame normalizeGuide p q) (.workflowStart p :: .caseOpened q :: rest ++
      (reserveParentFrame normalizeGuide (.workflowStart p :: .caseOpened q :: rest) reservationId childRef need).2) := by
  have hframe : (projectCase normalizeGuide (.workflowStart p :: .caseOpened q :: rest) ∅).frame =
      openedFrame normalizeGuide p q := projectCase_frame ∅
  have hreservations := projectCase_reservations normalizeGuide (.workflowStart p :: .caseOpened q :: rest) ∅
  rw [reserveParentFrame]
  generalize hprojection : projectCase normalizeGuide (.workflowStart p :: .caseOpened q :: rest) ∅ = projection at *
  split
  · simpa using h
  · next hnew =>
    rw [Bool.not_eq_true] at hnew
    simp only
    split
    · simpa using h
    · split
      · simpa using h
      · split
        · simpa using h
        · next hfits =>
          have hleft : projection.frameRemaining.dispatches = remaining ((openedFrame normalizeGuide p q).bind Frame.dispatches)
              (spent Attempt.dispatches (attempts (.workflowStart p :: .caseOpened q :: rest))) := by
            rw [Projection.frameRemaining, Projection.frameUsed_eq, hframe, hreservations]
          have hmutating : projection.frameRemaining.mutatingDispatches =
              remaining ((openedFrame normalizeGuide p q).bind Frame.mutatingDispatches)
                (spent Attempt.mutatingDispatches (attempts (.workflowStart p :: .caseOpened q :: rest))) := by
            rw [Projection.frameRemaining, Projection.frameUsed_eq, hframe, hreservations]
          rw [hframe, not_and] at hfits
          rw [hleft, hmutating] at hfits
          refine h.reserve hnew ?_ ?_ nofun
          · cases hsome : openedFrame normalizeGuide p q with
            | none => exact within_none _
            | some frame =>
              obtain ⟨hshort, _⟩ := not_or.mp (hfits (by rw [hsome]; rfl))
              rw [Bool.not_eq_true] at hshort
              rw [← hsome]
              exact within_add hshort h.dispatches
          · cases hsome : openedFrame normalizeGuide p q with
            | none => exact within_none _
            | some frame =>
              obtain ⟨_, hshort⟩ := not_or.mp (hfits (by rw [hsome]; rfl))
              rw [← hsome]
              by_cases hneed : 0 < need.mutatingDispatches
              · rw [not_and] at hshort
                have hshort' := hshort hneed
                rw [Bool.not_eq_true] at hshort'
                exact within_add hshort' h.mutatingDispatches
              · have hzero : need.mutatingDispatches = 0 := by omega
                show Within _ (_ + need.mutatingDispatches)
                rw [hzero]
                exact h.mutatingDispatches

/-! ### What is said of a case -/

end

section

variable (normalizeGuide : Definition → Option Guide) (digestUnitRunReports : List UnitRun → Option String)

/-- What is spent stays within the counts of the frame. -/
def FrameKept (ledger : List Event) : Prop :=
  let projection := projectCase normalizeGuide ledger ∅
  Within (projection.frame.bind Frame.dispatches) projection.frameUsed.dispatches ∧
    Within (projection.frame.bind Frame.mutatingDispatches) projection.frameUsed.mutatingDispatches

/-- The writes of two live reservations match no common path. -/
def WritesApart (ledger : List Event) : Prop :=
  let projection := projectCase normalizeGuide ledger ∅
  ∀ r ∈ projection.liveReservations, ∀ r' ∈ projection.liveReservations, r.reservationId ≠ r'.reservationId →
    Apart r.writes r'.writes

/-- An admitted answer gives a reservation whose recorded writes are the writes asked for. -/
def RecordedAsAsked (w : CaseWorld) : Prop :=
  ∀ g ∈ w.given, ∃ reservation, recordedReservation w.ledger g.reservationId = some reservation ∧
    canonicalizeWrites (scope g.writes) = .ok reservation.writes

/-- No two Unit runs that are alive were given the same reservation. -/
def OneRunEach (w : CaseWorld) : Prop :=
  ∀ g ∈ w.given, ∀ g' ∈ w.given, g.reservationId = g'.reservationId → g.unitRunId ∈ w.alive → g'.unitRunId ∈ w.alive →
    g.unitRunId = g'.unitRunId

/-- The writes a repeated ask asks for are those that are recorded. -/
def isRecorded (writes recorded : List String) : Bool :=
  match canonicalizeWrites (scope writes) with
  | .ok canonical => canonical == recorded
  | .error _ => false

def asksAgain (w : CaseWorld) : CaseAct → Bool
  | .admission ask =>
    (ask.liveOf (readCase digestUnitRunReports normalizeGuide w.ledger)).all fun live =>
      isRecorded ask.proposal.writes live.writes &&
        w.given.all fun g => g.reservationId != live.reservationId || !w.alive.contains g.unitRunId
  | _ => true

/-! ### One act -/

structure Kept (w : CaseWorld) : Prop where
  opened : ∃ p q rest, w.ledger = .workflowStart p :: .caseOpened q :: rest ∧
    Spends (openedFrame normalizeGuide p q) w.ledger

/-- The invariant of the answers. -/
structure Answers (w : CaseWorld) : Prop where
  recorded : RecordedAsAsked w
  oneRun : OneRunEach w

end

section

variable {normalizeGuide : Definition → Option Guide} {digestUnitRunReports : List UnitRun → Option String}
  {w w' : CaseWorld} {appended : List Event} {a : CaseAct}

theorem Kept.append (h : Kept normalizeGuide w) (hledger : w'.ledger = w.ledger ++ appended)
    (hspends : ∀ p q rest, w.ledger = .workflowStart p :: .caseOpened q :: rest →
      Spends (openedFrame normalizeGuide p q) w.ledger → Spends (openedFrame normalizeGuide p q) (w.ledger ++ appended)) :
    Kept normalizeGuide w' := by
  obtain ⟨p, q, rest, heq, hkept⟩ := h.opened
  refine ⟨p, q, rest ++ appended, ?_, ?_⟩
  · rw [hledger, heq]
    rfl
  · rw [hledger]
    exact hspends p q rest heq hkept

/-- **One act** keeps the frame and keeps the writes apart. -/
theorem Kept.act {caseId : String} {w w' : CaseWorld} (h : Kept normalizeGuide w)
    (hact : w.act normalizeGuide digestUnitRunReports caseId a = some w') : Kept normalizeGuide w' := by
  cases a with
  | admission ask =>
    rw [CaseWorld.act] at hact
    split at hact
    · next hnew =>
      rw [CaseWorld.isNew, Bool.and_eq_true, Bool.not_eq_true'] at hnew
      have hanswers : ∀ answer appended,
          admitUnderAdvance normalizeGuide digestUnitRunReports caseId w.ledger ask = .ok (answer, appended) →
          ∀ p q rest, w.ledger = .workflowStart p :: .caseOpened q :: rest →
            Spends (openedFrame normalizeGuide p q) w.ledger →
            Spends (openedFrame normalizeGuide p q) (w.ledger ++ appended) := by
        intro answer appended hok p q rest heq hspends
        have hnew' := hnew.1
        rw [heq] at hok hspends hnew' ⊢
        exact hspends.admission hnew' (admits_of_admitUnderAdvance hok)
      split at hact
      · next hok =>
        cases hact
        exact h.append rfl (hanswers _ _ hok)
      · next hok =>
        cases hact
        exact h.append rfl (hanswers _ _ hok)
      · cases hact
    · cases hact
  | settle reservationId result held =>
    obtain ⟨settle, _, rfl⟩ := map_eq_some_iff.mp hact
    split
    · exact h.append rfl fun p q rest _ hspends => hspends.settle settle
    · exact h.append (append_nil _).symm fun p q rest _ hspends => by rwa [append_nil]
  | fold reservationId =>
    obtain ⟨settle, _, rfl⟩ := map_eq_some_iff.mp hact
    exact h.append rfl fun p q rest _ hspends => hspends.settle settle
  | charge reservationId childRef need =>
    cases hact
    refine h.append rfl fun p q rest heq hspends => ?_
    rw [heq] at hspends ⊢
    exact hspends.charge reservationId childRef need
  | refund reservationId held =>
    rw [CaseWorld.act] at hact
    split at hact
    · obtain ⟨appended, happended, rfl⟩ := map_eq_some_iff.mp hact
      have heq : appended = applySettle w.ledger (refund reservationId) := by
        rw [refundParentFrame] at happended
        rw [applySettle]
        split at happended
        · split at happended
          · next hsettled =>
            rw [if_pos (show w.ledger.any (Event.settles (refund reservationId).reservationId) = true from hsettled)]
            exact (some.inj happended).symm
          · next hsettled =>
            rw [if_neg (show ¬ w.ledger.any (Event.settles (refund reservationId).reservationId) = true from hsettled)]
            exact (some.inj happended).symm
        · cases happended
      rw [heq]
      exact h.append rfl fun p q rest _ hspends => hspends.settle _
    · split at hact
      · cases hact
        exact h.append (append_nil _).symm fun p q rest _ hspends => by rwa [append_nil]
      · cases hact
  | note event =>
    rw [CaseWorld.act] at hact
    split at hact
    · next hnote =>
      cases hact
      exact h.append rfl fun p q rest _ hspends => hspends.note hnote
    · cases hact
  | ends unitRunId =>
    cases hact
    exact h.append (append_nil _).symm fun p q rest _ hspends => by rwa [append_nil]

theorem RecordedAsAsked.append (h : RecordedAsAsked w)
    (hledger : w'.ledger = w.ledger ++ appended) (hgiven : w'.given = w.given) : RecordedAsAsked w' := by
  intro g hg
  rw [hgiven] at hg
  obtain ⟨reservation, hrecorded, hwrites⟩ := h g hg
  refine ⟨reservation, ?_, hwrites⟩
  rw [hledger]
  exact recordedReservation_append hrecorded appended

theorem Answers.append (h : Answers w) (hledger : w'.ledger = w.ledger ++ appended)
    (hgiven : w'.given = w.given) (halive : ∀ unitRunId ∈ w'.alive, unitRunId ∈ w.alive) : Answers w' where
  recorded := h.recorded.append hledger hgiven
  oneRun := by
    intro g hg g' hg' hid hlive hlive'
    rw [hgiven] at hg hg'
    exact h.oneRun g hg g' hg' hid (halive _ hlive) (halive _ hlive')

theorem isRecorded_iff {writes recorded : List String} :
    isRecorded writes recorded = true ↔ canonicalizeWrites (scope writes) = .ok recorded := by
  rw [isRecorded]
  cases canonicalizeWrites (scope writes) with
  | ok canonical | error err => simp

/-- **One Unit run more is answered.** -/
theorem Answers.give {reservationId : String} {ask : Ask} (h : Answers w) (hnew : w.isNew ask = true)
    (hrecorded : ∃ reservation, recordedReservation (w.ledger ++ appended) reservationId = some reservation ∧
      canonicalizeWrites (scope ask.proposal.writes) = .ok reservation.writes)
    (hended : ∀ g ∈ w.given, g.reservationId = reservationId → g.unitRunId ∉ w.alive) :
    Answers ((w.append appended).give ⟨reservationId, ask.unitRunId, ask.proposal.writes⟩) where
  recorded := by
    intro g hg
    rcases mem_append.mp hg with hg | hg
    · have hkept : RecordedAsAsked (w.append appended) := h.recorded.append rfl rfl
      exact hkept g hg
    · rw [mem_singleton.mp hg]
      exact hrecorded
  oneRun := by
    rw [CaseWorld.isNew, Bool.and_eq_true] at hnew
    have hother : ∀ g ∈ w.given, g.unitRunId ∈ ask.unitRunId :: w.alive → g.unitRunId ∈ w.alive := by
      intro g hg hlive
      have hne := List.all_eq_true.mp hnew.2 g hg
      rw [bne_iff_ne] at hne
      exact (mem_cons.mp hlive).resolve_left hne
    intro g hg g' hg' hid hlive hlive'
    rcases mem_append.mp hg with hg | hg
    · rcases mem_append.mp hg' with hg' | hg'
      · exact h.oneRun g hg g' hg' hid (hother g hg hlive) (hother g' hg' hlive')
      · rw [mem_singleton.mp hg'] at hid
        exact absurd (hother g hg hlive) (hended g hg hid)
    · rcases mem_append.mp hg' with hg' | hg'
      · rw [mem_singleton.mp hg] at hid
        exact absurd (hother g' hg' hlive') (hended g' hg' hid.symm)
      · rw [mem_singleton.mp hg, mem_singleton.mp hg']

/-- **One act** whose ask, if it is a repeated one, asks for the same again for a run that ended. -/
theorem Answers.act {caseId : String} {w w' : CaseWorld} (h : Answers w) (hkept : Kept normalizeGuide w)
    (hmeets : asksAgain normalizeGuide digestUnitRunReports w a = true)
    (hact : w.act normalizeGuide digestUnitRunReports caseId a = some w') : Answers w' := by
  cases a with
  | admission ask =>
    rw [CaseWorld.act] at hact
    split at hact
    · next hnew =>
      split at hact
      · next reservationId ceiling appended hok =>
        cases hact
        cases admits_of_admitUnderAdvance hok with
        | again ceiling hlive hnotes =>
          rw [asksAgain, hlive, all_some, Bool.and_eq_true] at hmeets
          obtain ⟨hrecorded, hended⟩ := hmeets
          obtain ⟨p, q, rest, _, hspends⟩ := hkept.opened
          obtain ⟨unitId, _, hfind⟩ := bind_eq_some_iff.mp hlive
          obtain ⟨digests, hread⟩ := readCase_eq normalizeGuide digestUnitRunReports w.ledger
          have hmem := (Projection.mem_liveReservations.mp (mem_of_find?_eq_some hfind)).1
          rw [hread, projectCase_reservations] at hmem
          obtain ⟨recorded, hledger, hwrites⟩ := hspends.recorded _ hmem
          refine h.give hnew ⟨recorded, recordedReservation_append hledger _, ?_⟩ fun g hg hid hlive' => ?_
          · rw [hwrites]
            exact isRecorded_iff.mp hrecorded
          · have hnot := List.all_eq_true.mp hended g hg
            simp [hid, hlive'] at hnot
        | @anew projection proposal bindingAnswers guide activity writes _ notes hprojection hasked hpassed hnotes =>
          have hnone : w.ledger.any (Event.reserves ask.reservationId) = false := by
            rw [CaseWorld.isNew, Bool.and_eq_true, Bool.not_eq_true'] at hnew
            exact hnew.1
          refine h.give hnew ⟨reservationOf projection activity proposal writes ask.reservationId, ?_, ?_⟩ fun g hg hid _ => ?_
          · rw [← append_assoc]
            exact recordedReservation_new ((any_reserves_notes hnotes).trans hnone)
          · rw [← hasked]
            exact hpassed.writes_eq
          · obtain ⟨recorded, hrecorded, _⟩ := h.recorded g hg
            have hreserved := reserves_of_recorded hrecorded
            rw [hid, hnone] at hreserved
            cases hreserved
      · next hok =>
        cases hact
        exact h.append rfl rfl fun _ hlive => hlive
      · cases hact
    · cases hact
  | settle reservationId result held =>
    obtain ⟨settle, _, rfl⟩ := map_eq_some_iff.mp hact
    split
    · exact h.append rfl rfl fun _ hlive => hlive
    · exact h.append (append_nil _).symm rfl fun _ hlive => hlive
  | fold reservationId =>
    obtain ⟨settle, _, rfl⟩ := map_eq_some_iff.mp hact
    exact h.append rfl rfl fun _ hlive => hlive
  | charge reservationId childRef need =>
    cases hact
    exact h.append rfl rfl fun _ hlive => hlive
  | refund reservationId held =>
    rw [CaseWorld.act] at hact
    split at hact
    · obtain ⟨appended, _, rfl⟩ := map_eq_some_iff.mp hact
      exact h.append rfl rfl fun _ hlive => hlive
    · split at hact
      · cases hact
        exact h.append (append_nil _).symm rfl fun _ hlive => hlive
      · cases hact
  | note event =>
    rw [CaseWorld.act] at hact
    split at hact
    · cases hact
      exact h.append rfl rfl fun _ hlive => hlive
    · cases hact
  | ends unitRunId =>
    cases hact
    exact h.append (append_nil _).symm rfl fun _ hlive => mem_of_mem_filter hlive

/-! ### Every run -/

theorem Kept.opening (h : w.IsOpened) : Kept normalizeGuide w := by
  obtain ⟨p, q, rfl⟩ := h
  refine ⟨p, q, [], rfl, nodup_nil, ?_, ?_, fun n _ => Nat.zero_le n, fun n _ => Nat.zero_le n, .nil⟩
  · exact fun r hr => by cases hr
  · exact fun r hr => by cases hr

theorem Answers.opening (h : w.IsOpened) : Answers w := by
  obtain ⟨p, q, rfl⟩ := h
  refine ⟨fun g hg => ?_, fun g hg => ?_⟩
  · cases hg
  · cases hg

variable {caseId : String}

theorem kept_of_run {Meets : CaseWorld → CaseAct → Prop}
    (h : ActRun (fun w => w.act normalizeGuide digestUnitRunReports caseId) CaseWorld.IsOpened Meets w) :
    Kept normalizeGuide w := h.invariant (fun _ => .opening) fun hkept _ hact => hkept.act hact

theorem answers_of_run (h : ActRun (fun w => w.act normalizeGuide digestUnitRunReports caseId) CaseWorld.IsOpened
      (fun w a => asksAgain normalizeGuide digestUnitRunReports w a = true) w) : Answers w := by
  suffices hboth : Kept normalizeGuide w ∧ Answers w from hboth.2
  induction h with
  | start hopened => exact ⟨.opening hopened, .opening hopened⟩
  | act _ a hmeets hact ih => exact ⟨ih.1.act hact, ih.2.act ih.1 hmeets hact⟩

/-- **A case spends what its frame allows, and shares nothing.**  In every run the counts of the frame are kept and the
writes of live reservations are apart; in a run whose repeated asks ask for the same again, and for Unit runs that ended,
an admitted answer records what was asked for and no reservation is given to two Unit runs that are alive. -/
theorem case_spends_its_frame {w : CaseWorld} :
    (ActRun (fun w => w.act normalizeGuide digestUnitRunReports caseId) CaseWorld.IsOpened (fun _ _ => True) w →
        FrameKept normalizeGuide w.ledger ∧ WritesApart normalizeGuide w.ledger) ∧
      (ActRun (fun w => w.act normalizeGuide digestUnitRunReports caseId) CaseWorld.IsOpened
          (fun w a => asksAgain normalizeGuide digestUnitRunReports w a = true) w →
        RecordedAsAsked w ∧ OneRunEach w) := by
  refine ⟨fun h => ?_, fun h => ?_⟩
  · obtain ⟨p, q, rest, heq, hspends⟩ := (kept_of_run h).opened
    have hreservations := projectCase_reservations normalizeGuide w.ledger ∅
    refine ⟨?_, fun r hr r' hr' hne => ?_⟩
    · have hframe : (projectCase normalizeGuide w.ledger ∅).frame = openedFrame normalizeGuide p q := by
        rw [heq]
        exact projectCase_frame ∅
      rw [FrameKept]
      simp only [hframe, Projection.frameUsed_eq, hreservations]
      exact ⟨hspends.dispatches, hspends.mutatingDispatches⟩
    · rw [Projection.mem_liveReservations, hreservations] at hr hr'
      have hsymm : Std.Symm fun r r' : Attempt => r.isLive = true → r'.isLive = true → Apart r.writes r'.writes :=
        ⟨fun r r' hapart hlive hlive' => (hapart hlive' hlive).symm⟩
      exact hspends.apart.forall hr.1 hr'.1 (fun heq => hne (congrArg (·.reservationId) heq)) hr.2 hr'.2
  · have hanswers := answers_of_run h
    exact ⟨hanswers.recorded, hanswers.oneRun⟩

end

/-! ### A case -/

namespace Conducted

def workflow : Definition where
  id := "w"
  steps := []
  guide := some {
    kind := .guide
    milestones := ["build.settled"]
    activities := [⟨"build", [], ["build.settled"], .writes⟩]
    decisions := []
    must := []
    frameDefaults := none
    closure := []
    uniqueIds := List.nodup_singleton "build" }
  uniqueSteps := List.nodup_nil

def frame : Frame := ⟨some 3, some 2, none, none, none, none⟩

def opened : CaseWorld :=
  ⟨[.workflowStart ⟨"wf-1", "w", some workflow, none⟩,
    .caseOpened ⟨"wf-1", some .guide, some ⟨"w", "sha256:g"⟩, some frame, some "sha256:r", none⟩], [], [], []⟩

theorem isOpened : opened.IsOpened := ⟨_, _, rfl⟩

def binding : Binding := ⟨"wf-1", 1, "key-1", "/w", .bound⟩

def ask (unitId unitRunId reservationId : String) (writes : List String) (bound : Bound) : CaseAct :=
  .admission {
    proposal := ⟨"build", some unitId, none, none, writes, some "/w", false, [], none, none, none, none⟩
    unitRunId
    binding := ⟨.bound, none⟩
    bound
    reservationId }

def noReports : List UnitRun → Option String := fun _ => none

def passed : SettleResult := ⟨some "unit-run-2", "pass", [], [], some 1, false⟩

/-- A Unit run dies and its Unit asks again; another Unit writes beside it, and a nested case is charged for and given
back while `advance` is held. -/
def acts : List CaseAct := [
  ask "u1" "unit-run-1" "rsv-1" ["src/**"] (.made binding),
  .ends "unit-run-1",
  ask "u1" "unit-run-2" "rsv-2" ["src/**"] .already,
  .charge "rsv-nested" "child" ⟨1, 1⟩,
  .refund "rsv-nested" false,
  .fold "rsv-nested",
  ask "u2" "unit-run-3" "rsv-3" ["docs"] .already,
  .settle "rsv-1" passed true]

theorem conducted_spends_its_frame : ∃ w : CaseWorld, w.given.length = 3 ∧ w.ledger.length = 10 ∧
    (FrameKept (fun _ => none) w.ledger ∧ WritesApart (fun _ => none) w.ledger) ∧ RecordedAsAsked w ∧ OneRunEach w := by
  have hdone : ((acts.foldlM (ActRun.actIf (fun w => w.act (fun _ => none) noReports "wf-1")
      (asksAgain (fun _ => none) noReports)) opened).map fun w => (w.given.length, w.ledger.length)) = some (3, 10) := by
    decide +kernel
  obtain ⟨w, hw, hlengths⟩ := map_eq_some_iff.mp hdone
  obtain ⟨hgiven, hledger⟩ := Prod.mk.inj hlengths
  have hrun := ActRun.of_foldlM acts (.start isOpened) hw
  exact ⟨w, hgiven, hledger, case_spends_its_frame.1 (hrun.mono fun _ _ _ => trivial), case_spends_its_frame.2 hrun⟩

/-- The Unit asks again for other writes, while its first run is alive. -/
def twice : List CaseAct := [
  ask "u1" "unit-run-1" "rsv-1" ["src/**"] (.made binding),
  ask "u1" "unit-run-2" "rsv-2" ["docs"] .already]

/-- The second run is given the reservation of the first, which records other writes. -/
theorem repeated_ask_shares : ¬ ∀ w : CaseWorld,
    ActRun (fun w => w.act (fun _ => none) noReports "wf-1") CaseWorld.IsOpened (fun _ _ => True) w →
      RecordedAsAsked w ∧ OneRunEach w := by
  intro hclaim
  have hdone : ((twice.foldlM (ActRun.actIf (fun w => w.act (fun _ => none) noReports "wf-1") fun _ _ => true) opened).map
      fun w => (w.given, w.alive)) = some ([⟨"rsv-1", "unit-run-1", ["src/**"]⟩, ⟨"rsv-1", "unit-run-2", ["docs"]⟩],
        ["unit-run-2", "unit-run-1"]) := by
    decide +kernel
  obtain ⟨w, hw, hboth⟩ := map_eq_some_iff.mp hdone
  obtain ⟨hgiven, halive⟩ := Prod.mk.inj hboth
  have hrun := (ActRun.of_foldlM twice (.start isOpened) hw).mono fun _ _ _ => trivial
  obtain ⟨_, hone⟩ := hclaim w hrun
  rw [OneRunEach, hgiven, halive] at hone
  exact absurd (hone _ mem_cons_self _ (mem_cons_of_mem _ mem_cons_self) rfl (by decide) (by decide))
    (by decide)

end Conducted

end Forgent.Workflow
