import Forgent.Execution.Reviewed
import Mathlib.Data.List.Basic

/-!
# One launch of a seat

Every step of a launch changes the attempts of one seat in one round, and in them the last attempt alone.

* `Base`: what holds of the attempts and of the producer's launches, whoever drives the Unit.
* `Base.change`, `Base.launchProducer`, `Base.close`: what the steps do to it.
-/

namespace Forgent.Execution.Reviewed

open List Option Function

/-! ### Attempts -/

section

variable {attempts front : List Attempt} {a : Attempt} {run : Run} {result : Option Settled} {α : Type} {o : Outcome}

theorem modifyLast_concat (f : α → α) (front : List α) (a : α) : modifyLast f (front ++ [a]) = front ++ [f a] := by
  rw [modifyLast, length_append, length_singleton, Nat.add_sub_cancel]
  induction front with
  | nil => rfl
  | cons b front ih =>
    show (b :: (front ++ [a])).modify (front.length + 1) f = _
    rw [modify_succ_cons, ih]
    rfl

theorem getLast?_modifyLast (f : α → α) (l : List α) : (modifyLast f l).getLast? = l.getLast?.map f := by
  rcases eq_nil_or_concat l with rfl | ⟨front, a, rfl⟩
  · rfl
  · rw [concat_eq_append, modifyLast_concat, getLast?_concat, getLast?_concat]
    rfl

theorem concat_of_getLast? (h : attempts.getLast? = some a) : ∃ front, attempts = front ++ [a] := by
  rcases eq_nil_or_concat attempts with rfl | ⟨front, b, rfl⟩
  · cases h
  · rw [concat_eq_append, getLast?_concat] at h
    exact ⟨front, by rw [concat_eq_append, some.inj h]⟩

theorem finalOf_concat (front : List Attempt) (a : Attempt) :
    finalOf (front ++ [a]) = if a.results = [] then finalOf front else a.results.getLast?.join := by
  rw [finalOf, filter_append]
  by_cases hempty : a.results = []
  · simp [hempty, finalOf]
  · simp [hempty]

theorem results_getLast? (hrun : a.runs.getLast? = some run)
    (hstate : run.state = .settled result) : a.results.getLast? = some result := by
  rcases eq_nil_or_concat a.runs with hnil | ⟨front, last, hruns⟩
  · rw [hnil] at hrun
    cases hrun
  · rw [hruns, concat_eq_append, getLast?_concat] at hrun
    cases hrun
    rw [Attempt.results, hruns, concat_eq_append, filterMap_append]
    simp [hstate]

theorem finalOf_of_last (hlast : attempts.getLast? = some a)
    (hrun : a.runs.getLast? = some run) (hstate : run.state = .settled result) : finalOf attempts = result := by
  obtain ⟨front, rfl⟩ := concat_of_getLast? hlast
  have hresult := results_getLast? hrun hstate
  rw [finalOf_concat, hresult, if_neg]
  · rfl
  · intro hempty
    rw [hempty] at hresult
    cases hresult

def readOutcome (result : Option Settled) : Outcome := (result.getD ⟨.executionFailure, none⟩).outcome

/-- What the record of an attempt says is what its last run was settled as, or an error; and a commit waits only for
work that passed. -/
structure RecordHolds (a : Attempt) : Prop where
  outcome : ∀ o, a.outcome = some o → ∃ run result, a.runs.getLast? = some run ∧ run.state = .settled result ∧
    (o = readOutcome result ∨ o.isError = true)
  commit : commitPending a = true → ∃ run settled, a.runs.getLast? = some run ∧ run.state = .settled (some settled) ∧
    settled.outcome = .pass

theorem readOutcome_eq (h : o = readOutcome result) (ho : o.isError = false) :
    ∃ settled, result = some settled ∧ settled.outcome = o := by
  cases result with
  | none =>
    rw [h] at ho
    cases ho
  | some settled => exact ⟨settled, rfl, h.symm⟩

theorem RecordHolds.settled (h : RecordHolds a) (ha : a.outcome = some o) (ho : o.isError = false) :
    ∃ run settled, a.runs.getLast? = some run ∧ run.state = .settled (some settled) ∧ settled.outcome = o := by
  obtain ⟨run, result, hrun, hstate, heq⟩ := h.outcome o ha
  rcases heq with heq | herror
  · obtain ⟨settled, rfl, hsettled⟩ := readOutcome_eq heq ho
    exact ⟨run, settled, hrun, hstate, hsettled⟩
  · rw [ho] at herror
    cases herror

theorem RecordHolds.fresh : RecordHolds .fresh := by
  constructor
  · intro o h
    cases h
  · intro h
    cases h

theorem standing_eq (hlast : attempts.getLast? = some a) : standing attempts =
    if a.outcome = some .pass || (a.outcome.isNone && a.admitted) then a.runs.getLast?.filter fun run => run.state ≠ .abandoned
    else none := by
  rw [standing, hlast]
  rfl

theorem standing_some (h : standing attempts = some run) : ∃ a, attempts.getLast? = some a ∧ a.runs.getLast? = some run := by
  rw [standing] at h
  obtain ⟨a, hlast, ha⟩ := bind_eq_some_iff.mp h
  split at ha
  · exact ⟨a, hlast, (filter_eq_some_iff.mp ha).1⟩
  · cases ha

end

/-! ### The Unit -/

section

variable {plan : Plan} {w : World} {a : Attempt} {r : ℕ} {run : Run} {state : RunState}

/-- What stands of a checker in the round started after every launch of the producer had ended. -/
def Fresh (plan : Plan) (w : World) (r : ℕ) : Prop :=
  ∀ checker ∈ plan.checkers, ∀ run, standing (w.attempts (checker, r)) = some run → w.launches.length ≤ run.after

/-- The result that is read back of the seat in the round has findings. -/
def Found (w : World) (key : Key) : Prop := ∃ settled, finalOf (w.attempts key) = some settled ∧ settled.outcome = .findings

/-- A seat of the round has findings on record, and none of them runs. -/
structure Blocked (plan : Plan) (w : World) (r : ℕ) : Prop where
  found : ∃ seat ∈ plan.seats, Found w (seat, r)
  still : ∀ seat ∈ plan.seats, w.isRunning (seat, r) = false

/-- How the launches of the producer are counted: all have ended, or one runs. -/
inductive Counted (plan : Plan) (w : World) : Prop
  | still (hnone : ∀ r, w.isRunning (plan.producer, r) = false) (hcount : w.ended = w.launches.length)
  | running (r : ℕ) (hrun : w.isRunning (plan.producer, r) = true)
      (hone : ∀ r', w.isRunning (plan.producer, r') = true → r' = r) (hcount : w.ended + 1 = w.launches.length)

/-- **What holds of the attempts**, whoever drives the Unit. -/
structure Base (plan : Plan) (w : World) : Prop where
  keys : ∀ key, w.attempts key ≠ [] → key ∈ plan.keys
  record : ∀ key a, (w.attempts key).getLast? = some a → RecordHolds a
  /-- The producer was launched since only for later rounds. -/
  standing : ∀ checker ∈ plan.checkers, ∀ r run, standing (w.attempts (checker, r)) = some run →
    ∀ i r', run.after ≤ i → w.launches[i]? = some r' → r < r'
  counted : Counted plan w
  /-- A round the producer went on from has findings on record, or what stands of it is of the last work. -/
  whole : plan.hasVerify = false → ∀ r, Fresh plan w r ∨ Blocked plan w r
  passed : ∀ key ∈ w.passed, ∃ a, (w.attempts key).getLast? = some a ∧ a.outcome = some .pass ∧ commitPending a = false
  again : w.again = []

theorem mem_rounds : r ∈ plan.rounds ↔ 1 ≤ r ∧ r ≤ plan.maxRounds := by
  simp only [Plan.rounds, List.mem_map, mem_range]
  constructor
  · rintro ⟨i, hi, rfl⟩
    exact ⟨by omega, by omega⟩
  · rintro ⟨hpos, hle⟩
    exact ⟨r - 1, by omega, by omega⟩

variable {key : Key}

theorem mem_keys : key ∈ plan.keys ↔ key.1 ∈ plan.seats ∧ 1 ≤ key.2 ∧ key.2 ≤ plan.maxRounds := by
  obtain ⟨seat, r⟩ := key
  simp only [Plan.keys, mem_flatMap, List.mem_map, mem_rounds, Prod.mk.injEq]
  constructor
  · rintro ⟨seat', hseat, r', hr', rfl, rfl⟩
    exact ⟨hseat, hr'⟩
  · rintro ⟨hseat, hr⟩
    exact ⟨seat, hseat, r, hr, rfl, rfl⟩

theorem lastRun_eq_some : w.lastRun key = some run ↔
    ∃ a, (w.attempts key).getLast? = some a ∧ a.runs.getLast? = some run := bind_eq_some_iff

theorem isRunning_iff : w.isRunning key = true ↔ ∃ a run, (w.attempts key).getLast? = some a ∧
    a.runs.getLast? = some run ∧ run.state = .running := by
  rw [World.isRunning, Option.any_eq_true]
  constructor
  · rintro ⟨run, hrun, hstate⟩
    obtain ⟨a, ha, hlast⟩ := lastRun_eq_some.mp hrun
    exact ⟨a, run, ha, hlast, by simpa using hstate⟩
  · rintro ⟨a, run, ha, hlast, hstate⟩
    exact ⟨run, lastRun_eq_some.mpr ⟨a, ha, hlast⟩, by simpa using hstate⟩

theorem Base.mem_keys_of_isRunning (h : Base plan w) (hrun : w.isRunning key = true) : key ∈ plan.keys := by
  obtain ⟨a, _, ha, _⟩ := isRunning_iff.mp hrun
  refine h.keys key fun hnil => ?_
  rw [hnil] at ha
  cases ha

theorem Base.of_isRunning (h : Base plan w) (hrun : w.isRunning key = true) :
    ∃ a, (w.attempts key).getLast? = some a ∧ a.outcome = none ∧ commitPending a = false := by
  obtain ⟨a, run, ha, hlast, hstate⟩ := isRunning_iff.mp hrun
  have hrecord := h.record key a ha
  refine ⟨a, ha, ?_, ?_⟩
  · cases ho : a.outcome with
    | none => rfl
    | some o =>
      obtain ⟨run', result, hrun', hstate', _⟩ := hrecord.outcome o ho
      rw [some.inj (hlast.symm.trans hrun'), hstate'] at hstate
      cases hstate
  · cases hcommit : commitPending a with
    | false => rfl
    | true =>
      obtain ⟨run', settled, hrun', hstate', _⟩ := hrecord.commit hcommit
      rw [some.inj (hlast.symm.trans hrun'), hstate'] at hstate
      cases hstate

/-! ### What a step changes -/

/-- A step changes the attempts of one seat in one round. -/
structure Changes (w w' : World) (key : Key) (new : List Attempt) : Prop where
  attempts : w'.attempts = Function.update w.attempts key new
  launches : w'.launches = w.launches
  verified : w'.verified = w.verified
  again : w'.again = w.again

variable {w' : World} {key : Key} {new : List Attempt}

theorem Changes.self (h : Changes w w' key new) : w'.attempts key = new := by
  rw [h.attempts, update_self]

theorem Changes.other (h : Changes w w' key new) {key' : Key} (hne : key' ≠ key) : w'.attempts key' = w.attempts key' := by
  rw [h.attempts, update_of_ne hne]

theorem isRunning_congr (h : w'.attempts key = w.attempts key) : w'.isRunning key = w.isRunning key := by
  rw [World.isRunning, World.lastRun, h]
  rfl

theorem found_congr (h : w'.attempts key = w.attempts key) (hfound : Found w key) : Found w' key := by
  rw [Found, h]
  exact hfound

theorem Blocked.congr {r : ℕ} (h : Blocked plan w r) (hsame : ∀ seat, w'.attempts (seat, r) = w.attempts (seat, r)) :
    Blocked plan w' r := by
  obtain ⟨⟨seat, hseat, hfound⟩, hstill⟩ := h
  refine ⟨⟨seat, hseat, found_congr (hsame seat) hfound⟩, fun seat hseat => ?_⟩
  rw [isRunning_congr (hsame seat)]
  exact hstill seat hseat

/-- What stands of the seat is what stood, or was launched after all work. -/
def Stands (w : World) (key : Key) (new : List Attempt) : Prop :=
  ∀ run, standing new = some run →
    (∃ old, standing (w.attempts key) = some old ∧ old.after = run.after) ∨ w.launches.length ≤ run.after

theorem Changes.fresh (h : Changes w w' key new) (hstands : key.1 ∈ plan.checkers → Stands w key new)
    (hfresh : Fresh plan w r) : Fresh plan w' r := by
  intro checker hchecker run hrun
  rw [h.launches]
  by_cases hkey : (checker, r) = key
  · subst hkey
    rw [h.self] at hrun
    rcases hstands hchecker run hrun with ⟨old, hold, hafter⟩ | hlate
    · rw [← hafter]
      exact hfresh checker hchecker old hold
    · exact hlate
  · rw [h.other hkey] at hrun
    exact hfresh checker hchecker run hrun

theorem Counted.congr (h : Counted plan w) (hended : w'.ended = w.ended) (hlaunches : w'.launches = w.launches)
    (hrunning : ∀ r, w'.isRunning (plan.producer, r) = w.isRunning (plan.producer, r)) : Counted plan w' := by
  cases h with
  | still hnone hcount =>
    refine .still (fun r => (hrunning r).trans (hnone r)) ?_
    rw [hended, hlaunches]
    exact hcount
  | running r hrun hone hcount =>
    refine .running r ((hrunning r).trans hrun) (fun r' hr' => hone r' ((hrunning r').symm.trans hr')) ?_
    rw [hended, hlaunches]
    exact hcount

/-- **A step on a seat of the round that is open** keeps what holds of the attempts. -/
theorem Base.change (h : Base plan w) (hchanges : Changes w w' key new) (hkey : key ∈ plan.keys)
    (hrecord : ∀ a, new.getLast? = some a → RecordHolds a) (hstands : key.1 ∈ plan.checkers → Stands w key new)
    (hcounted : Counted plan w') (hfresh : plan.hasVerify = false → Fresh plan w key.2)
    (hpassed : ∀ k ∈ w'.passed, k ≠ key ∧ k ∈ w.passed ∨
      k = key ∧ ∃ a, new.getLast? = some a ∧ a.outcome = some .pass ∧ commitPending a = false) : Base plan w' := by
  constructor
  case keys =>
    intro k hk
    by_cases heq : k = key
    · rw [heq]
      exact hkey
    · rw [hchanges.other heq] at hk
      exact h.keys k hk
  case record =>
    intro k a ha
    by_cases heq : k = key
    · rw [heq, hchanges.self] at ha
      exact hrecord a ha
    · rw [hchanges.other heq] at ha
      exact h.record k a ha
  case standing =>
    intro checker hchecker r run hrun i r' hi hget
    rw [hchanges.launches] at hget
    by_cases heq : (checker, r) = key
    · subst heq
      rw [hchanges.self] at hrun
      rcases hstands hchecker run hrun with ⟨old, hold, hafter⟩ | hlate
      · exact h.standing checker hchecker r old hold i r' (hafter ▸ hi) hget
      · have hlt := (List.getElem?_eq_some_iff.mp hget).1
        omega
    · rw [hchanges.other heq] at hrun
      exact h.standing checker hchecker r run hrun i r' hi hget
  case counted => exact hcounted
  case whole =>
    intro hverify r
    by_cases hr : r = key.2
    · rw [hr]
      exact .inl (hchanges.fresh hstands (hfresh hverify))
    · refine (h.whole hverify r).imp (hchanges.fresh hstands) fun hblocked => hblocked.congr fun seat => ?_
      exact hchanges.other fun heq => hr (congrArg Prod.snd heq)
  case passed =>
    intro k hk
    rcases hpassed k hk with ⟨hne, hold⟩ | ⟨rfl, hnew⟩
    · rw [hchanges.other hne]
      exact h.passed k hold
    · rw [hchanges.self]
      exact hnew
  case again => exact hchanges.again.trans h.again

theorem Counted.change (h : Counted plan w) (hchanges : Changes w w' key new) (hended : w'.ended = w.ended)
    (hrunning : key.1 = plan.producer → w'.isRunning key = w.isRunning key) : Counted plan w' := by
  refine h.congr hended hchanges.launches fun r => ?_
  by_cases heq : (plan.producer, r) = key
  · rw [heq]
    exact hrunning (by rw [← heq])
  · exact isRunning_congr (hchanges.other heq)

theorem not_isRunning_of_last (hlast : new.getLast? = some a) (h : ∀ run, a.runs.getLast? = some run →
    run.state ≠ .running) (hself : w.attempts key = new) : w.isRunning key = false := by
  cases hrun : w.isRunning key with
  | false => rfl
  | true =>
    obtain ⟨b, run, hb, hlastRun, hstate⟩ := isRunning_iff.mp hrun
    rw [hself] at hb
    obtain rfl := some.inj (hlast.symm.trans hb)
    exact absurd hstate (h run hlastRun)

theorem isRunning_eq_of_last {b : Attempt} (ha : (w.attempts key).getLast? = some a)
    (hb : (w'.attempts key).getLast? = some b) (hruns : b.runs = a.runs) : w'.isRunning key = w.isRunning key := by
  rw [World.isRunning, World.lastRun, hb, World.isRunning, World.lastRun, ha]
  show b.runs.getLast?.any _ = a.runs.getLast?.any _
  rw [hruns]

/-! ### The launch of the producer, and the end of a run -/

theorem launch_attempts (key : Key) : (w.launch plan key).attempts = Function.update w.attempts key
    (modifyLast (fun a => { a with admitted := true, runs := a.runs ++ [⟨w.ended, .running⟩] }) (w.attempts key)) := rfl

theorem launch_again (hkey : key ∉ w.passed) : (w.launch plan key).again = w.again := if_neg hkey

structure Ready (w : World) (key : Key) (a : Attempt) : Prop where
  last : (w.attempts key).getLast? = some a
  outcome : a.outcome = none
  commit : commitPending a = false

theorem Base.not_mem_passed (h : Base plan w) (hlast : (w.attempts key).getLast? = some a) (hnone : a.outcome = none) :
    key ∉ w.passed := by
  intro hmem
  obtain ⟨b, hb, hpass, _⟩ := h.passed key hmem
  rw [← some.inj (hlast.symm.trans hb), hnone] at hpass
  cases hpass

theorem launch_last (plan : Plan) (hready : Ready w key a) : ((w.launch plan key).attempts key).getLast? =
    some { a with admitted := true, runs := a.runs ++ [⟨w.ended, .running⟩] } := by
  rw [launch_attempts, update_self, getLast?_modifyLast, hready.last]
  rfl

theorem launch_record (hready : Ready w key a) :
    RecordHolds { a with admitted := true, runs := a.runs ++ [⟨w.ended, .running⟩] } := by
  constructor
  · intro o ho
    have ho : a.outcome = some o := ho
    rw [hready.outcome] at ho
    cases ho
  · intro hcommit
    have hcommit : commitPending a = true := hcommit
    rw [hready.commit] at hcommit
    cases hcommit

/-- **A launch of the producer**: nothing of its round or a later one stands, and the rounds before it are blocked. -/
theorem Base.launchProducer (h : Base plan w) (hready : Ready w key a) (hkey : key ∈ plan.keys)
    (hproducer : key.1 = plan.producer) (hstill : ∀ r, w.isRunning (plan.producer, r) = false)
    (hclear : ∀ checker ∈ plan.checkers, ∀ r, key.2 ≤ r → Reviewed.standing (w.attempts (checker, r)) = none)
    (hearlier : plan.hasVerify = false → ∀ r, 1 ≤ r → r < key.2 → Blocked plan w r) :
    Base plan (w.launch plan key) := by
  have hother : ∀ {k : Key}, k ≠ key → (w.launch plan key).attempts k = w.attempts k := by
    intro k hne
    rw [launch_attempts, update_of_ne hne]
  have hlaunches : (w.launch plan key).launches = w.launches ++ [key.2] := if_pos hproducer
  have hchecker : ∀ checker ∈ plan.checkers, ∀ r, (checker, r) ≠ key := by
    rintro checker hchecker r rfl
    exact (nodup_cons.mp plan.nodup).1 (hproducer ▸ hchecker)
  constructor
  case keys =>
    intro k hk
    by_cases heq : k = key
    · rw [heq]
      exact hkey
    · rw [hother heq] at hk
      exact h.keys k hk
  case record =>
    intro k b hb
    by_cases heq : k = key
    · rw [heq, launch_last plan hready] at hb
      rw [← some.inj hb]
      exact launch_record hready
    · rw [hother heq] at hb
      exact h.record k b hb
  case standing =>
    intro checker hmem r run hrun i r' hi hget
    rw [hother (hchecker checker hmem r)] at hrun
    rw [hlaunches] at hget
    rcases Nat.lt_or_ge i w.launches.length with hlt | hge
    · rw [getElem?_append_left hlt] at hget
      exact h.standing checker hmem r run hrun i r' hi hget
    · -- the launch is of a later round, or nothing of the round would stand
      have hr' : r' = key.2 := by
        rw [getElem?_append_right hge] at hget
        have hmem := mem_of_getElem? hget
        simpa using hmem
      rcases Nat.lt_or_ge r key.2 with hlt | hle
      · rw [hr']
        exact hlt
      · rw [hclear checker hmem r hle] at hrun
        cases hrun
  case counted =>
    have hrunning : (w.launch plan key).isRunning (plan.producer, key.2) = true := by
      rw [← hproducer]
      refine isRunning_iff.mpr ⟨_, ⟨w.ended, .running⟩, launch_last plan hready, ?_, rfl⟩
      exact getLast?_concat
    refine .running key.2 hrunning (fun r hr => ?_) ?_
    · by_contra hne
      rw [isRunning_congr (hother fun heq => hne (congrArg Prod.snd heq)), hstill] at hr
      cases hr
    · rw [hlaunches, length_append]
      show w.ended + 1 = w.launches.length + 1
      cases h.counted with
      | still _ hcount => rw [hcount]
      | running r hrun _ _ =>
        rw [hstill] at hrun
        cases hrun
  case whole =>
    intro hverify r
    rcases Nat.lt_or_ge r key.2 with hlt | hle
    · rcases Nat.eq_zero_or_pos r with rfl | hpos
      · refine .inl fun checker hmem run hrun => ?_
        obtain ⟨b, hb, _⟩ := standing_some hrun
        rw [hother (hchecker checker hmem 0)] at hb
        have hne : w.attempts (checker, 0) ≠ [] := by
          intro hnil
          rw [hnil] at hb
          cases hb
        exact absurd (mem_keys.mp (h.keys _ hne)).2.1 (by simp)
      · refine .inr ((hearlier hverify r hpos hlt).congr fun seat => hother ?_)
        rintro rfl
        exact Nat.lt_irrefl _ hlt
    · refine .inl fun checker hmem run hrun => ?_
      rw [hother (hchecker checker hmem r), hclear checker hmem r hle] at hrun
      cases hrun
  case passed =>
    intro k hk
    have hne : k ≠ key := fun heq => h.not_mem_passed hready.last hready.outcome (heq ▸ hk)
    rw [hother hne]
    exact h.passed k hk
  case again => exact (launch_again (h.not_mem_passed hready.last hready.outcome)).trans h.again

theorem closeRun_last (plan : Plan) (state : RunState) (hlast : (w.attempts key).getLast? = some a)
    (hrun : a.runs.getLast? = some run) : ∃ b, ((w.closeRun plan key state).attempts key).getLast? = some b ∧
      b.outcome = a.outcome ∧ b.admitted = a.admitted ∧ b.commit = a.commit ∧ b.runs.getLast? = some { run with state } := by
  refine ⟨{ a with runs := modifyLast (fun run => { run with state }) a.runs }, ?_, rfl, rfl, rfl, ?_⟩
  · show (Function.update w.attempts key _ key).getLast? = _
    rw [update_self, getLast?_modifyLast, hlast]
    rfl
  · show (modifyLast _ a.runs).getLast? = _
    rw [getLast?_modifyLast, hrun]
    rfl

theorem closeRun_changes (plan : Plan) (w : World) (key : Key) (state : RunState) : Changes w (w.closeRun plan key state) key
    (modifyLast (fun a => { a with runs := modifyLast (fun run => { run with state }) a.runs }) (w.attempts key)) :=
  ⟨rfl, rfl, rfl, rfl⟩

theorem closeRun_stands (hrun : w.isRunning key = true) : Stands w key
    (modifyLast (fun a => { a with runs := modifyLast (fun run => { run with state }) a.runs }) (w.attempts key)) := by
  obtain ⟨a, run, hlast, hlastRun, hrunning⟩ := isRunning_iff.mp hrun
  intro run' hrun'
  rw [standing, getLast?_modifyLast, hlast] at hrun'
  simp only [map_some, bind_some, getLast?_modifyLast, hlastRun] at hrun'
  split at hrun'
  · next hstands =>
    obtain ⟨heq, _⟩ := filter_eq_some_iff.mp hrun'
    refine .inl ⟨run, ?_, by rw [← some.inj heq]⟩
    rw [standing_eq hlast, if_pos hstands, hlastRun]
    simp [hrunning]
  · cases hrun'

/-- **A run ends.** -/
theorem Base.close (h : Base plan w) (hrun : w.isRunning key = true) (hstate : state ≠ .running) :
    Base plan (w.closeRun plan key state) ∧ (w.closeRun plan key state).isRunning key = false := by
  obtain ⟨a, run, hlast, hlastRun, hrunning⟩ := isRunning_iff.mp hrun
  obtain ⟨a', hlast', houtcome, hcommit⟩ := h.of_isRunning hrun
  obtain rfl := some.inj (hlast.symm.trans hlast')
  obtain ⟨b, hb, hbOutcome, _, hbCommit, hbRun⟩ := closeRun_last plan state hlast hlastRun
  have hclosed : (w.closeRun plan key state).isRunning key = false := by
    refine not_isRunning_of_last hb (fun run' hrun' => ?_) rfl
    rw [hbRun] at hrun'
    rw [← some.inj hrun']
    exact hstate
  have hchanges := closeRun_changes plan w key state
  have hmem := h.mem_keys_of_isRunning hrun
  refine ⟨h.change hchanges hmem ?_ (fun _ => closeRun_stands hrun) ?_ ?_ ?_, hclosed⟩
  · intro b' hb'
    rw [hchanges.self] at hb
    obtain rfl := some.inj (hb.symm.trans hb')
    constructor
    · intro o ho
      rw [hbOutcome, houtcome] at ho
      cases ho
    · intro hpending
      rw [commitPending, hbCommit] at hpending
      rw [commitPending, hpending] at hcommit
      cases hcommit
  · by_cases hproducer : key.1 = plan.producer
    · have hkey : key = (plan.producer, key.2) := Prod.ext hproducer rfl
      have hrunning' : w.isRunning (plan.producer, key.2) = true := hkey ▸ hrun
      cases h.counted with
      | still hnone _ =>
        rw [hnone] at hrunning'
        cases hrunning'
      | running r _ hone hcount =>
        refine .still (fun r' => ?_) ?_
        · by_cases heq : (plan.producer, r') = key
          · rw [heq]
            exact hclosed
          · cases hother : w.isRunning (plan.producer, r') with
            | false => rw [isRunning_congr (hchanges.other heq), hother]
            | true =>
              have hr : r' = key.2 := (hone r' hother).trans (hone key.2 hrunning').symm
              exact absurd (hr ▸ hkey.symm) heq
        · show (if key.1 = plan.producer then w.ended + 1 else w.ended) = w.launches.length
          rw [if_pos hproducer]
          exact hcount
    · refine h.counted.change hchanges (if_neg hproducer) fun heq => absurd heq hproducer
  · intro hverify
    refine (h.whole hverify key.2).resolve_right fun hblocked => ?_
    rw [hblocked.still key.1 (mem_keys.mp hmem).1] at hrun
    cases hrun
  · intro k hk
    have hk : k ∈ w.passed := hk
    refine .inl ⟨?_, hk⟩
    rintro rfl
    obtain ⟨b', hb', hpass, _⟩ := h.passed k hk
    rw [← some.inj (hlast.symm.trans hb'), houtcome] at hpass
    cases hpass

end

end Forgent.Execution.Reviewed
