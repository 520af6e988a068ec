import Forgent.Execution.ReviewedSteps
import Forgent.Traverse

/-!
# A reviewed pass is a pass of the last work

A resume stands on the passes it finds on record.  In a run that does not reach the defect, what stands of a round that
is open was started after the last work of the producer, and a round the producer went on from keeps its findings on
record or is judged by what was started since: so a pass is given on the last work alone.
-/

namespace Forgent.Execution.Reviewed

open List Option Function

/-! ### The condition -/

/-- What a step that does not reach the defect finds. -/
def Careful (plan : Plan) (w : World) : Act → Prop
  | .dispatch seat => ∀ c, w.driver = .running c → seat = plan.producer → c.calls seat = some (.prepared false) →
      ∀ checker ∈ plan.checkers, ∀ r, c.round ≤ r → standing (w.attempts (checker, r)) = none
  | .enter _ => ∀ c, w.driver = .running c → isRoundSettledInHistory plan c.round c.history = false →
      ∀ checker ∈ plan.checkers, ∀ run, standing (w.attempts (checker, c.round)) = some run →
        ∀ i r, run.after ≤ i → w.launches[i]? = some r → r ≤ c.round
  | .start => ∀ checker ∈ plan.checkers, ∀ r a, (w.attempts (checker, r)).getLast? = some a → a.outcome = none →
      a.runs = [] → ∀ settled, finalOf (w.attempts (checker, r)) = some settled → settled.outcome ≠ .pass
  | _ => True

theorem Base.careful {plan : Plan} {w : World} (h : Base plan w) {a : Act} (hcareful : careful plan w a = true) :
    Careful plan w a := by
  have hrange : ∀ {checker r}, w.attempts (checker, r) ≠ [] → r ∈ plan.rounds := fun hne =>
    mem_rounds.mpr (mem_keys.mp (h.keys _ hne)).2
  unfold Reviewed.careful at hcareful
  cases a with
  | dispatch seat =>
    rintro c hdriver rfl hcall checker hchecker r hr
    simp only [hdriver, hcall, decide_true, Bool.and_self, Bool.not_true, Bool.false_or, List.all_eq_true] at hcareful
    cases hstanding : Reviewed.standing (w.attempts (checker, r)) with
    | none => rfl
    | some run =>
      obtain ⟨a, hlast, _⟩ := standing_some hstanding
      have hround := hcareful checker hchecker r (hrange fun hnil => by rw [hnil] at hlast; cases hlast)
      rw [hstanding] at hround
      have hlt : r < c.round := by simpa using hround
      omega
  | enter room =>
    intro c hdriver hsettled checker hchecker run hrun i r hi hget
    simp only [hdriver, hsettled, Bool.false_or, List.all_eq_true] at hcareful
    have hlaunches := hcareful checker hchecker
    rw [hrun, all_some, List.all_eq_true] at hlaunches
    refine of_decide_eq_true (hlaunches r (mem_iff_getElem?.mpr ⟨i - run.after, ?_⟩))
    rw [getElem?_drop, Nat.add_sub_cancel' hi]
    exact hget
  | start =>
    intro checker hchecker r a hlast hnone hruns settled hfinal
    simp only [List.all_eq_true] at hcareful
    have hround := hcareful checker hchecker r (hrange fun hnil => by rw [hnil] at hlast; cases hlast)
    rw [unlaunched, hlast, hfinal] at hround
    simpa [hnone, hruns] using hround
  | _ => trivial

/-! ### What holds of the controller -/

/-- The pass of the seat is on record. -/
def RecordedPass (w : World) (key : Key) : Prop := ∃ a, (w.attempts key).getLast? = some a ∧ a.outcome = some .pass

/-- What the result of a seat says of what is on disk. -/
structure Answers (w : World) (key : Key) (result : Result) : Prop where
  seat : result.seat = key.1
  pass : result.outcome = .pass → RecordedPass w key
  findings : result.outcome = .findings → Found w key

def CallHolds (plan : Plan) (w : World) (key : Key) : Call → Prop
  | .binding => key ∉ w.passed
  | .prepared continuing => ∃ a, Ready w key a ∧ (continuing = true → a.admitted = true)
  | .launched => ∃ a, (w.attempts key).getLast? = some a ∧ a.outcome = none ∧ a.admitted = true ∧
      (commitPending a = true → key.1 = plan.producer)
  | .limited result => ¬ RecordedPass w key ∧ Answers w key result
  | .returned result => Answers w key result

/-- The history is what the disk says of the seat. -/
structure Current (plan : Plan) (w : World) (c : Controller) (key : Key) : Prop where
  history : c.history key = historyOf key (w.attempts key)
  pass : key.1 ∈ plan.checkers → ∀ result, c.history key = some result → result.outcome = .pass → RecordedPass w key

/-- What holds of the verify command. -/
def VerifyHolds (plan : Plan) (w : World) (c : Controller) : VerifyCall → Prop
  | .off => plan.hasVerify = false
  | .waiting => plan.hasVerify = true
  | .running after => plan.hasVerify = true ∧ w.launches.length ≤ after
  | .returned result => plan.hasVerify = true ∧ result.seat = verifySeat ∧
      (result.outcome = .pass → ∃ v ∈ w.verified, v.round = c.round ∧ w.launches.length ≤ v.after)

structure PeersHold (plan : Plan) (w : World) (c : Controller) (producer : Result) : Prop where
  fresh : Fresh plan w c.round
  goesOn : endsRound producer plan.producer = false
  seat : producer.seat = plan.producer
  found : producer.outcome = .findings → Found w (plan.producer, c.round)
  producer : ∀ call, c.calls plan.producer = some call → ∃ result, call = .returned result
  checkers : ∀ seat ∈ plan.checkers, c.calls seat = none ↔ ∃ result, existingPass seat c.round c.history = some result
  verify : VerifyHolds plan w c c.verify

def PhaseHolds (plan : Plan) (w : World) (c : Controller) : Phase → Prop
  | .top => (∀ seat, c.calls seat = none) ∧ c.verify = .off
  | .producing => Fresh plan w c.round ∧ (∀ seat, seat ≠ plan.producer → c.calls seat = none) ∧ c.verify = .off
  | .peers producer => PeersHold plan w c producer

structure ControllerHolds (plan : Plan) (w : World) (c : Controller) : Prop where
  bound : 1 ≤ c.round ∧ c.round ≤ plan.maxRounds
  running : ∀ key, w.isRunning key = true → key.2 = c.round ∧ c.calls key.1 = some .launched
  history : ∀ key, c.round < key.2 ∨ key.2 = c.round ∧ c.calls key.1 = none → Current plan w c key
  calls : ∀ seat call, c.calls seat = some call → seat ∈ plan.seats ∧ CallHolds plan w (seat, c.round) call
  earlier : plan.hasVerify = false → ∀ r, 1 ≤ r → r < c.round → ∃ seat ∈ plan.seats, Found w (seat, r)
  phase : PhaseHolds plan w c c.phase

def DriverHolds (plan : Plan) (w : World) : Driver → Prop
  | .gone => True
  | .running c => ControllerHolds plan w c
  | .ended outcome _ _ _ => outcome = .pass → ∃ r, PassesLastWork plan w r

/-- **What holds in every run** that does not reach the defect. -/
structure Sound (plan : Plan) (w : World) : Prop where
  base : Base plan w
  driver : DriverHolds plan w w.driver

section

variable {plan : Plan} {w w' : World} {c : Controller} {key : Key} {result : Result} {producerSeat : String} {r : ℕ}

theorem Sound.passHolds (h : Sound plan w) : PassHolds plan w where
  pass := by
    intro rounds results findings hended
    have hdriver := h.driver
    rw [hended] at hdriver
    exact hdriver rfl
  again := h.base.again

/-! ### The history -/

theorem historyOf_eq_some {attempts : List Attempt} : historyOf key attempts = some result ↔
    pending attempts = false ∧ rebinds attempts = false ∧
      ∃ settled, finalOf attempts = some settled ∧ result = ⟨key.1, key.2, settled.outcome, settled.classification, []⟩ := by
  rw [historyOf]
  cases pending attempts with
  | true => simp
  | false =>
    cases rebinds attempts with
    | true => simp
    | false =>
      rw [if_neg (by simp), map_eq_some_iff]
      simp only [true_and]
      exact exists_congr fun settled => and_congr_right fun _ => eq_comm

theorem historyOf_of_passed (h : Base plan w) (hmem : key ∈ w.passed) :
    ∃ result, historyOf key (w.attempts key) = some result ∧ result.outcome = .pass := by
  obtain ⟨a, hlast, hpass, hcommit⟩ := h.passed key hmem
  obtain ⟨run, settled, hrun, hstate, hsettled⟩ := (h.record key a hlast).settled hpass rfl
  refine ⟨⟨key.1, key.2, settled.outcome, settled.classification, []⟩, ?_, hsettled⟩
  refine historyOf_eq_some.mpr ⟨?_, ?_, settled, finalOf_of_last hlast hrun hstate, rfl⟩
  · rw [pending, hlast]
    simp [hcommit, leftByDeadController, hpass]
  · rw [rebinds, hlast]
    simp [hpass, Outcome.isError]

theorem Current.found (h : Current plan w c key) (hresult : c.history key = some result)
    (hfindings : result.outcome = .findings) : Found w key := by
  rw [h.history] at hresult
  obtain ⟨_, _, settled, hfinal, rfl⟩ := historyOf_eq_some.mp hresult
  exact ⟨settled, hfinal, hfindings⟩

theorem Current.seat (h : Current plan w c key) (hresult : c.history key = some result) : result.seat = key.1 := by
  rw [h.history] at hresult
  obtain ⟨_, _, settled, _, rfl⟩ := historyOf_eq_some.mp hresult
  rfl

theorem recordedPass_of_historyOf (h : Base plan w) (hresult : historyOf key (w.attempts key) = some result)
    (hpass : result.outcome = .pass)
    (hcareful : ∀ a, (w.attempts key).getLast? = some a → a.outcome = none → a.runs = [] →
      ∀ settled, finalOf (w.attempts key) = some settled → settled.outcome ≠ .pass) : RecordedPass w key := by
  obtain ⟨hpending, hrebinds, settled, hfinal, rfl⟩ := historyOf_eq_some.mp hresult
  have hpass : settled.outcome = .pass := hpass
  cases hlast : (w.attempts key).getLast? with
  | none =>
    rw [getLast?_eq_none_iff.mp hlast] at hfinal
    cases hfinal
  | some a =>
    rw [pending, hlast] at hpending
    rw [rebinds, hlast] at hrebinds
    obtain ⟨hcommit, hleft⟩ := Bool.or_eq_false_iff.mp hpending
    refine ⟨a, hlast, ?_⟩
    cases houtcome : a.outcome with
    | none =>
      exfalso
      rw [leftByDeadController, houtcome] at hleft
      exact hcareful a hlast houtcome (by simpa using hleft) settled hfinal hpass
    | some o =>
      have herror : o.isError = false := by
        simpa [houtcome, hcommit] using hrebinds
      obtain ⟨run, settled', hrun, hstate, hsettled⟩ := (h.record key a hlast).settled houtcome herror
      rw [finalOf_of_last hlast hrun hstate] at hfinal
      rw [← hsettled, some.inj hfinal, hpass]

variable {seat : String}

theorem existingPass_eq_some {history : History} :
    existingPass seat r history = some result ↔ history (seat, r) = some result ∧ result.outcome = .pass := by
  rw [existingPass, filter_eq_some_iff]
  simp

theorem seatPasses_of_fresh (h : Base plan w) (hseat : seat ∈ plan.checkers)
    (hfresh : Fresh plan w r) (hpass : RecordedPass w (seat, r)) : SeatPassesLastWork w (seat, r) := by
  obtain ⟨a, hlast, houtcome⟩ := hpass
  obtain ⟨run, settled, hrun, hstate, hsettled⟩ := (h.record _ a hlast).settled houtcome rfl
  refine ⟨a, run, settled, hlast, houtcome, hrun, hstate, hsettled, hfresh seat hseat run ?_⟩
  rw [standing_eq hlast, houtcome, hrun]
  simp [hstate]

theorem Plan.ne_producer (hseat : seat ∈ plan.checkers) : seat ≠ plan.producer := by
  rintro rfl
  exact (nodup_cons.mp plan.nodup).1 hseat

/-! ### The judgement of a round -/

theorem extractFindings_ne_nil (h : result.outcome = .findings) : extractFindings result ≠ [] := by
  rw [extractFindings]
  by_cases hnil : result.findings = []
  · rw [if_neg (not_not_intro hnil), if_pos h]
    exact cons_ne_nil _ _
  · rw [if_pos hnil]
    exact hnil

theorem assessRound_pass {results : List Result} (herror : (assessRound results producerSeat).outcome.isError = false)
    (hfindings : (assessRound results producerSeat).findings = []) :
    ∀ res ∈ results, endsRound res producerSeat = false ∧ res.outcome ≠ .findings := by
  intro res hres
  rw [assessRound] at herror hfindings
  split at herror
  · next error hfind =>
    -- the outcome of the round is the error's own
    have hends := find?_some hfind
    have hends : error.outcome.isError = true := (Bool.and_eq_true_iff.mp hends).1
    rw [hends] at herror
    cases herror
  · next hfind =>
    have hends := find?_eq_none.mp hfind res hres
    refine ⟨by simpa using hends, fun hout => ?_⟩
    rw [hfind] at hfindings
    have hnil := flatMap_eq_nil_iff.mp hfindings res hres
    rw [if_pos (by simp [hout])] at hnil
    exact extractFindings_ne_nil hout hnil

theorem assessRound_findings {results : List Result} (hfindings : (assessRound results producerSeat).findings ≠ []) :
    ∃ res ∈ results, res.outcome = .findings ∨ res.seat = verifySeat := by
  rw [assessRound] at hfindings
  split at hfindings
  · exact absurd rfl hfindings
  · by_contra hnone
    push Not at hnone
    refine hfindings (flatMap_eq_nil_iff.mpr fun res hres => ?_)
    obtain ⟨hout, hseat⟩ := hnone res hres
    rw [if_neg]
    simp [hout, hseat]

theorem pass_of_not_ends (hseat : result.seat ≠ producerSeat)
    (hends : endsRound result producerSeat = false) (hfindings : result.outcome ≠ .findings) : result.outcome = .pass := by
  rw [endsRound, changedNothing] at hends
  cases hout : result.outcome <;> simp_all [Outcome.isError]

/-! ### The loop -/

theorem not_mem_passed (h : Base plan w) (hcurrent : Current plan w c key)
    (hpass : ∀ result, c.history key = some result → result.outcome ≠ .pass) : key ∉ w.passed := by
  intro hmem
  obtain ⟨result, hresult, hout⟩ := historyOf_of_passed h hmem
  exact hpass result (hcurrent.history.trans hresult) hout

theorem Base.driver (h : Base plan w) (driver : Driver) (verified : List Verified) :
    Base plan { w with driver, verified } where
  keys := h.keys
  record := h.record
  standing := h.standing
  counted := h.counted.congr rfl rfl fun _ => rfl
  whole := fun hverify r => (h.whole hverify r).imp id fun hblocked => hblocked.congr fun _ => rfl
  passed := h.passed
  again := h.again

theorem checkerResults_spec {results : List Result} (hresults : c.checkerResults plan = some results) :
    (∀ res ∈ results, ∃ seat ∈ plan.checkers,
      existingPass seat c.round c.history = some res ∨ c.calls seat = some (.returned res)) ∧
    ∀ seat ∈ plan.checkers, ∃ res ∈ results,
      existingPass seat c.round c.history = some res ∨ c.calls seat = some (.returned res) := by
  rw [Controller.checkerResults] at hresults
  obtain ⟨run, hrun, hresults⟩ := bind_eq_some_iff.mp hresults
  cases hresults
  have hforall := forall₂_of_mapM hrun
  have hreturned : ∀ {seat res}, c.returned? seat = some res → c.calls seat = some (.returned res) := by
    intro seat res hres
    rw [Controller.returned?] at hres
    split at hres
    · next result hcall =>
      cases hres
      exact hcall
    · cases hres
  constructor
  · intro res hres
    rcases mem_append.mp hres with hres | hres
    · obtain ⟨seat, hseat, hpass⟩ := mem_filterMap.mp hres
      exact ⟨seat, hseat, .inl hpass⟩
    · obtain ⟨seat, hseat, hcall⟩ := exists_mem_of_forall₂_flip hforall res hres
      exact ⟨seat, (mem_filter.mp hseat).1, .inr (hreturned hcall)⟩
  · intro seat hseat
    cases hpass : existingPass seat c.round c.history with
    | some res =>
      exact ⟨res, mem_append_left _ (mem_filterMap.mpr ⟨seat, hseat, hpass⟩), .inl rfl⟩
    | none =>
      obtain ⟨res, hres, hcall⟩ := exists_mem_of_forall₂ hforall seat (mem_filter.mpr ⟨hseat, by rw [hpass]; rfl⟩)
      exact ⟨res, mem_append_right _ hres, .inr (hreturned hcall)⟩

theorem verifyResult_spec (hverify : VerifyHolds plan w c c.verify) {results : List Result}
    (hresults : c.verifyResult plan = some results) :
    (∀ res ∈ results, plan.hasVerify = true ∧ res.seat = verifySeat ∧
      (res.outcome = .pass → ∃ v ∈ w.verified, v.round = c.round ∧ w.launches.length ≤ v.after)) ∧
    (plan.hasVerify = true → ∃ res, res ∈ results) := by
  rw [Controller.verifyResult] at hresults
  split at hresults
  · next hoff =>
    rw [hoff] at hverify
    have hverify : plan.hasVerify = false := hverify
    rw [if_neg (by simp [hverify])] at hresults
    cases hresults
    refine ⟨fun res hres => absurd hres (by simp), fun hv => ?_⟩
    rw [hverify] at hv
    cases hv
  · next result hreturned =>
    rw [hreturned] at hverify
    cases hresults
    refine ⟨fun res hres => ?_, fun _ => ⟨result, mem_singleton_self result⟩⟩
    rw [mem_singleton.mp hres]
    exact hverify
  · cases hresults

namespace ControllerHolds

variable (h : ControllerHolds plan w c) {producer : Result}

include h

theorem blocked (hverify : plan.hasVerify = false) {r : ℕ} (hpos : 1 ≤ r) (hlt : r < c.round) : Blocked plan w r := by
  refine ⟨h.earlier hverify r hpos hlt, fun seat _ => ?_⟩
  cases hrun : w.isRunning (seat, r) with
  | false => rfl
  | true => exact absurd (h.running _ hrun).1 (Nat.ne_of_lt hlt)

/-- The verify command leaves no record. -/
theorem history_verify (hbase : Base plan w) (hcall : c.calls verifySeat = none) :
    c.history (verifySeat, c.round) = none := by
  rw [(h.history _ (.inr ⟨rfl, hcall⟩)).history]
  have hnil : w.attempts (verifySeat, c.round) = [] := by
    by_contra hne
    exact plan.verify_not_mem (mem_keys.mp (hbase.keys _ hne)).1
  rw [hnil]
  rfl

theorem calls_verify : c.calls verifySeat = none := by
  cases hcall : c.calls verifySeat with
  | none => rfl
  | some call => exact absurd (h.calls _ call hcall).1 plan.verify_not_mem

theorem ended_eq (hbase : Base plan w) (hproducer : c.calls plan.producer ≠ some .launched) :
    (∀ r, w.isRunning (plan.producer, r) = false) ∧ w.ended = w.launches.length := by
  have hstill : ∀ r, w.isRunning (plan.producer, r) = false := by
    intro r
    cases hrun : w.isRunning (plan.producer, r) with
    | false => rfl
    | true => exact absurd (h.running _ hrun).2 hproducer
  refine ⟨hstill, ?_⟩
  cases hbase.counted with
  | still _ hcount => exact hcount
  | running r hrun _ _ =>
    rw [hstill] at hrun
    cases hrun

/-- **The next round.** -/
theorem next (hstill : ∀ seat, c.calls seat ≠ some .launched) (hlt : c.round < plan.maxRounds)
    (hfound : plan.hasVerify = false → ∃ seat ∈ plan.seats, Found w (seat, c.round)) (results : List Result)
    (findings : List String) :
    ControllerHolds plan w ⟨c.history, c.round + 1, .top, fun _ => none, .off, results, findings⟩ where
  bound := ⟨Nat.succ_pos _, hlt⟩
  running := fun key hrun => absurd (h.running key hrun).2 (hstill key.1)
  history := by
    intro key hkey
    have hlater : c.round < key.2 := by
      rcases hkey with hlt | ⟨heq, _⟩
      · exact Nat.lt_of_succ_lt hlt
      · exact heq ▸ Nat.lt_succ_self _
    obtain ⟨hhistory, hpass⟩ := h.history key (.inl hlater)
    exact ⟨hhistory, hpass⟩
  calls := nofun
  earlier := by
    intro hverify r hpos hr
    have hr : r < c.round + 1 := hr
    rcases Nat.lt_succ_iff_lt_or_eq.mp hr with hlt | rfl
    · exact h.earlier hverify r hpos hlt
    · exact hfound hverify
  phase := ⟨fun _ => rfl, rfl⟩

theorem conclude {assessment : Assessment} (hstill : ∀ seat, c.calls seat ≠ some .launched)
    (hfound : assessment.findings ≠ [] → plan.hasVerify = false → ∃ seat ∈ plan.seats, Found w (seat, c.round))
    (hpass : assessment.outcome.isError = false → assessment.findings = [] → PassesLastWork plan w c.round) :
    DriverHolds plan w (c.concludeRound plan assessment) := by
  rw [Controller.concludeRound]
  split
  · next herror =>
    intro heq
    have heq : assessment.outcome = .pass := heq
    rw [heq] at herror
    cases herror
  · next herror =>
    split
    · next hnil => exact fun _ => ⟨c.round, hpass (by simpa using herror) hnil⟩
    · next hne =>
      dsimp only
      split
      · intro heq
        cases heq
      · next hlt => exact h.next hstill (Nat.lt_of_not_le hlt) (hfound hne) _ _

theorem phase_beside (driver : Driver) (allResults : List Result) :
    PhaseHolds plan { w with driver } { c with allResults } c.phase := by
  have hphase := h.phase
  cases hc : c.phase with
  | top | producing =>
    rw [hc] at hphase
    exact hphase
  | peers producer =>
    rw [hc] at hphase
    refine ⟨hphase.fresh, hphase.goesOn, hphase.seat, hphase.found, hphase.producer, hphase.checkers, ?_⟩
    have hverify := hphase.verify
    show VerifyHolds plan _ _ c.verify
    cases hv : c.verify <;> exact hv ▸ hverify

theorem beside {driver : Driver} {verified : List Verified} {allResults : List Result} {verify : VerifyCall}
    (hphase : PhaseHolds plan { w with driver, verified } { c with allResults, verify } c.phase) :
    ControllerHolds plan { w with driver, verified } { c with allResults, verify } where
  bound := h.bound
  running := h.running
  history := fun key hkey => ⟨(h.history key hkey).history, (h.history key hkey).pass⟩
  calls := by
    intro seat call hcall
    obtain ⟨hseat, hholds⟩ := h.calls seat call hcall
    refine ⟨hseat, ?_⟩
    cases call with
    | binding | launched => exact hholds
    | prepared continuing =>
      obtain ⟨a, hready, hadmitted⟩ := hholds
      exact ⟨a, ⟨hready.last, hready.outcome, hready.commit⟩, hadmitted⟩
    | limited result => exact ⟨hholds.1, hholds.2.seat, hholds.2.pass, hholds.2.findings⟩
    | returned result => exact ⟨hholds.seat, hholds.pass, hholds.findings⟩
  earlier := h.earlier
  phase := hphase

theorem results (results : List Result) : ControllerHolds plan w { c with allResults := results } :=
  h.beside (h.phase_beside w.driver results)

section

variable (hbase : Base plan w)

include hbase

/-- **A round is judged by its results**: each is of a seat of the round or of the verify command, and each checker and
the verify command have theirs. -/
theorem judge (hstill : ∀ seat, c.calls seat ≠ some .launched) {results : List Result}
    (hfound : ∀ res ∈ producer :: results, res.outcome = .findings → plan.hasVerify = false →
      ∃ seat ∈ plan.seats, Found w (seat, c.round))
    (hseat : ∀ res ∈ producer :: results, res.seat = verifySeat → plan.hasVerify = true)
    (hfresh : (∀ res ∈ producer :: results, res.outcome ≠ .findings) → Fresh plan w c.round)
    (hcheckers : ∀ seat ∈ plan.checkers, ∃ res ∈ results, res.seat = seat ∧
      (res.outcome = .pass → RecordedPass w (seat, c.round)))
    (hverify : plan.hasVerify = true → ∃ res ∈ results, res.seat = verifySeat ∧
      (res.outcome = .pass → ∃ v ∈ w.verified, v.round = c.round ∧ w.launches.length ≤ v.after)) :
    DriverHolds plan w (c.concludeRound plan (assessRound (producer :: results) plan.producer)) := by
  refine h.conclude hstill (fun hne hnoVerify => ?_) (fun herror hnil => ?_)
  · obtain ⟨res, hres, hout | hverifySeat⟩ := assessRound_findings hne
    · exact hfound res hres hout hnoVerify
    · rw [hseat res hres hverifySeat] at hnoVerify
      cases hnoVerify
  · have hpasses := assessRound_pass herror hnil
    have hpass : ∀ res ∈ results, res.seat ≠ plan.producer → res.outcome = .pass := by
      intro res hres hne
      obtain ⟨hends, hfindings⟩ := hpasses res (mem_cons_of_mem _ hres)
      exact pass_of_not_ends hne hends hfindings
    have hfresh := hfresh fun res hres => (hpasses res hres).2
    constructor
    · intro seat hmem
      obtain ⟨res, hres, hof, hrecorded⟩ := hcheckers seat hmem
      have hne : res.seat ≠ plan.producer := hof ▸ Plan.ne_producer hmem
      exact seatPasses_of_fresh hbase hmem hfresh (hrecorded (hpass res hres hne))
    · intro hv
      obtain ⟨res, hres, hof, hverified⟩ := hverify hv
      have hne : res.seat ≠ plan.producer := by
        intro heq
        exact plan.verify_not_mem (by rw [← hof, heq]; exact mem_cons_self)
      exact hverified (hpass res hres hne)

theorem fresh_of_settled (hverify : plan.hasVerify = false) (hcalls : ∀ seat, c.calls seat = none)
    (hclean : ∀ seat ∈ plan.seats, ∃ result, c.history (seat, c.round) = some result ∧ result.outcome ≠ .findings) :
    Fresh plan w c.round := by
  refine (hbase.whole hverify c.round).resolve_right fun hblocked => ?_
  obtain ⟨seat, hseat, settled, hfinal, hfindings⟩ := hblocked.found
  obtain ⟨result, hresult, hclean⟩ := hclean seat hseat
  rw [(h.history (seat, c.round) (.inr ⟨rfl, hcalls seat⟩)).history] at hresult
  obtain ⟨_, _, settled', hfinal', rfl⟩ := historyOf_eq_some.mp hresult
  obtain rfl := some.inj (hfinal.symm.trans hfinal')
  exact hclean hfindings

theorem settledRound (hcalls : ∀ seat, c.calls seat = none)
    (hproducer : c.history (plan.producer, c.round) = some producer)
    (hsettled : isRoundSettledInHistory plan c.round c.history = true) :
    DriverHolds plan w (c.settledRound plan producer) := by
  rw [Controller.settledRound]
  dsimp only
  rw [isRoundSettledInHistory, hproducer] at hsettled
  split
  · next hends =>
    intro heq
    have heq : producer.outcome = .pass := heq
    rw [endsRound, heq] at hends
    cases hends
  · next hgoesOn =>
    have hall : ∀ seat ∈ plan.peers, (c.history (seat, c.round)).isSome = true := by
      simpa [hgoesOn] using hsettled
    -- the verify command leaves no record, so there is none
    have hverify : plan.hasVerify = false := by
      cases hv : plan.hasVerify with
      | false => rfl
      | true =>
        have hsome := hall verifySeat (by simp [Plan.peers, hv])
        rw [h.history_verify hbase (hcalls _)] at hsome
        cases hsome
    have hpeers : plan.peers = plan.checkers := by simp [Plan.peers, hverify]
    rw [hpeers] at hall ⊢
    have hcurrent : ∀ seat, Current plan w c (seat, c.round) := fun seat => h.history _ (.inr ⟨rfl, hcalls seat⟩)
    have hof : ∀ res ∈ producer :: plan.checkers.filterMap (fun seat => c.history (seat, c.round)),
        ∃ seat ∈ plan.seats, c.history (seat, c.round) = some res := by
      intro res hres
      rcases mem_cons.mp hres with rfl | hres
      · exact ⟨plan.producer, mem_cons_self, hproducer⟩
      · obtain ⟨seat, hseat, hresult⟩ := mem_filterMap.mp hres
        exact ⟨seat, mem_cons_of_mem _ hseat, hresult⟩
    have hto : ∀ seat ∈ plan.checkers, ∃ res ∈ plan.checkers.filterMap (fun seat => c.history (seat, c.round)),
        c.history (seat, c.round) = some res := by
      intro seat hseat
      obtain ⟨res, hres⟩ := isSome_iff_exists.mp (hall seat hseat)
      exact ⟨res, mem_filterMap.mpr ⟨seat, hseat, hres⟩, hres⟩
    refine (h.results _).judge hbase (fun seat => by simp [hcalls seat]) ?_ ?_ ?_ ?_ ?_
    · intro res hres hout _
      obtain ⟨seat, hseat, hresult⟩ := hof res hres
      exact ⟨seat, hseat, (hcurrent seat).found hresult hout⟩
    · intro res hres heq
      obtain ⟨seat, hseat, hresult⟩ := hof res hres
      exact absurd (heq ▸ (hcurrent seat).seat hresult ▸ hseat) plan.verify_not_mem
    · intro hclean
      refine h.fresh_of_settled hbase hverify hcalls fun seat hseat => ?_
      rcases mem_cons.mp hseat with rfl | hchecker
      · exact ⟨producer, hproducer, hclean producer mem_cons_self⟩
      · obtain ⟨res, hres, hresult⟩ := hto seat hchecker
        exact ⟨res, hresult, hclean res (mem_cons_of_mem _ hres)⟩
    · intro seat hseat
      obtain ⟨res, hres, hresult⟩ := hto seat hseat
      exact ⟨res, hres, (hcurrent seat).seat hresult, (hcurrent seat).pass hseat res hresult⟩
    · intro hv
      rw [hverify] at hv
      cases hv

/-- **The round goes on to its checks.** -/
theorem check (hfresh : Fresh plan w c.round)
    (hgoesOn : endsRound producer plan.producer = false) (hseat : producer.seat = plan.producer)
    (hfound : producer.outcome = .findings → Found w (plan.producer, c.round))
    (hproducer : ∀ call, c.calls plan.producer = some call → ∃ result, call = .returned result)
    (hcheckers : ∀ seat, seat ≠ plan.producer → c.calls seat = none) :
    DriverHolds plan w (c.check plan producer) := by
  have hcase : ∀ seat, (if seat ∈ plan.checkers && (existingPass seat c.round c.history).isNone then some .binding
        else c.calls seat) = (some .binding : Option Call) ∧ seat ∈ plan.checkers ∧
          existingPass seat c.round c.history = none ∨
      (if seat ∈ plan.checkers && (existingPass seat c.round c.history).isNone then some .binding
        else c.calls seat) = c.calls seat ∧
          (seat ∈ plan.checkers → ∃ result, existingPass seat c.round c.history = some result) := by
    intro seat
    split
    · next hwaits =>
      obtain ⟨hseat, hnone⟩ := Bool.and_eq_true_iff.mp hwaits
      exact .inl ⟨rfl, of_decide_eq_true hseat, isNone_iff_eq_none.mp hnone⟩
    · next hnot =>
      refine .inr ⟨rfl, fun hseat => ?_⟩
      cases hpass : existingPass seat c.round c.history with
      | none => exact absurd (by simp [hseat, hpass]) hnot
      | some result => exact ⟨result, rfl⟩
  rw [Controller.check]
  constructor
  case bound => exact h.bound
  case running =>
    intro key hrun
    obtain ⟨hround, hcall⟩ := h.running key hrun
    exfalso
    by_cases heq : key.1 = plan.producer
    · rw [heq] at hcall
      obtain ⟨result, hreturned⟩ := hproducer _ hcall
      cases hreturned
    · rw [hcheckers _ heq] at hcall
      cases hcall
  case history =>
    intro key hkey
    have hkey' : c.round < key.2 ∨ key.2 = c.round ∧ c.calls key.1 = none := by
      refine hkey.imp id fun ⟨hround, hcall⟩ => ⟨hround, ?_⟩
      rcases hcase key.1 with ⟨hbinding, _, _⟩ | ⟨hsame, _⟩
      · exact absurd (hbinding.symm.trans hcall) (by simp)
      · exact hsame.symm.trans hcall
    exact ⟨(h.history key hkey').history, (h.history key hkey').pass⟩
  case calls =>
    intro seat call hcall
    rcases hcase seat with ⟨hbinding, hseat, hnone⟩ | ⟨hsame, _⟩
    · obtain rfl := some.inj (hbinding.symm.trans hcall)
      refine ⟨mem_cons_of_mem _ hseat, ?_⟩
      refine not_mem_passed hbase (h.history _ (.inr ⟨rfl, hcheckers seat (Plan.ne_producer hseat)⟩)) ?_
      intro result hresult hpass
      rw [existingPass_eq_some.mpr ⟨hresult, hpass⟩] at hnone
      cases hnone
    · exact h.calls seat call (hsame.symm.trans hcall)
  case earlier => exact h.earlier
  case phase =>
    refine ⟨hfresh, hgoesOn, hseat, hfound, fun call hcall => ?_, fun seat hseat => ?_, ?_⟩
    · rcases hcase plan.producer with ⟨_, hmem, _⟩ | ⟨hsame, _⟩
      · exact absurd rfl (Plan.ne_producer hmem)
      · exact hproducer call (hsame.symm.trans hcall)
    · rcases hcase seat with ⟨hbinding, _, hnone⟩ | ⟨hsame, hsome⟩
      · refine ⟨fun hcall => absurd (hbinding.symm.trans hcall) (by simp), fun ⟨result, hresult⟩ => ?_⟩
        rw [show existingPass seat c.round c.history = some result from hresult] at hnone
        cases hnone
      · exact ⟨fun _ => hsome hseat, fun _ => hsame.trans (hcheckers seat (Plan.ne_producer hseat))⟩
    · have hnone : existingPass verifySeat c.round c.history = none := by
        rw [existingPass, h.history_verify hbase h.calls_verify]
        rfl
      show VerifyHolds plan w _ (if plan.hasVerify && (existingPass verifySeat c.round c.history).isNone then
        .waiting else .off)
      rw [hnone]
      cases hv : plan.hasVerify with
      | true | false => exact hv

theorem afterProducer (hfresh : Fresh plan w c.round)
    (hseat : producer.seat = plan.producer) (hfound : producer.outcome = .findings → Found w (plan.producer, c.round))
    (hproducer : ∀ call, c.calls plan.producer = some call → ∃ result, call = .returned result)
    (hcheckers : ∀ seat, seat ≠ plan.producer → c.calls seat = none) :
    DriverHolds plan w (c.afterProducer plan producer) := by
  rw [Controller.afterProducer]
  dsimp only
  split
  · next hends =>
    intro heq
    have heq : producer.outcome = .pass := heq
    rw [endsRound, heq] at hends
    cases hends
  · next hgoesOn =>
    exact (h.results (c.allResults ++ [producer])).check hbase hfresh (by simpa using hgoesOn) hseat hfound hproducer
      hcheckers

/-- The producer of the round is to be run. -/
theorem produce (hcalls : ∀ seat, c.calls seat = none) (hverify : c.verify = .off)
    (hfresh : Fresh plan w c.round) (hexisting : existingProducer plan c.round c.history = none) :
    ControllerHolds plan w { c.setCall plan.producer .binding with phase := .producing } := by
  have hcurrent : Current plan w c (plan.producer, c.round) := h.history _ (.inr ⟨rfl, hcalls _⟩)
  have hnotPassed : (plan.producer, c.round) ∉ w.passed := by
    refine not_mem_passed hbase hcurrent fun result hresult hpass => ?_
    rw [existingProducer, hresult] at hexisting
    simp [hpass] at hexisting
  have hother : ∀ seat, seat ≠ plan.producer → (c.setCall plan.producer .binding).calls seat = none := by
    intro seat hne
    show Function.update c.calls plan.producer _ seat = none
    rw [update_of_ne hne]
    exact hcalls seat
  constructor
  case bound => exact h.bound
  case running =>
    intro key hrun
    obtain ⟨_, hcall⟩ := h.running key hrun
    rw [hcalls] at hcall
    cases hcall
  case history =>
    intro key hkey
    have hkey' : c.round < key.2 ∨ key.2 = c.round ∧ c.calls key.1 = none :=
      hkey.imp id fun ⟨hround, _⟩ => ⟨hround, hcalls _⟩
    exact ⟨(h.history key hkey').history, (h.history key hkey').pass⟩
  case calls =>
    intro seat call hcall
    by_cases heq : seat = plan.producer
    · rw [heq] at hcall ⊢
      have hcall : Function.update c.calls plan.producer (some .binding) plan.producer = some call := hcall
      rw [update_self] at hcall
      cases hcall
      exact ⟨mem_cons_self, hnotPassed⟩
    · rw [show ({ c.setCall plan.producer .binding with phase := .producing } : Controller).calls seat = none from
        hother seat heq] at hcall
      cases hcall
  case earlier => exact h.earlier
  case phase => exact ⟨hfresh, hother, hverify⟩

/-- **The controller comes to a round.** -/
theorem enter (hphase : c.phase = .top) (room : Bool)
    (hcareful : isRoundSettledInHistory plan c.round c.history = false →
      ∀ checker ∈ plan.checkers, ∀ run, standing (w.attempts (checker, c.round)) = some run →
        ∀ i r, run.after ≤ i → w.launches[i]? = some r → r ≤ c.round) : DriverHolds plan w (c.enter plan room) := by
  have htop : PhaseHolds plan w c .top := hphase ▸ h.phase
  have hcalls := htop.1
  have hcurrent : Current plan w c (plan.producer, c.round) := h.history _ (.inr ⟨rfl, hcalls _⟩)
  have hfresh : isRoundSettledInHistory plan c.round c.history = false → Fresh plan w c.round := by
    -- no later producer was launched since, and none of this round or an earlier one
    intro hlive checker hchecker run hrun
    by_contra hlate
    obtain ⟨r, hr⟩ : ∃ r, w.launches[run.after]? = some r := ⟨_, getElem?_eq_getElem (Nat.lt_of_not_le hlate)⟩
    have hle := hcareful hlive checker hchecker run hrun run.after r (Nat.le_refl _) hr
    have hlt := hbase.standing checker hchecker c.round run hrun run.after r (Nat.le_refl _) hr
    omega
  rw [Controller.enter, if_neg (Nat.not_lt.mpr h.bound.2)]
  split
  · next producer hproducer hsettled => exact h.settledRound hbase hcalls hproducer hsettled
  · next hnot =>
    have hlive : isRoundSettledInHistory plan c.round c.history = false := by
      cases hsettled : isRoundSettledInHistory plan c.round c.history with
      | false => rfl
      | true =>
        cases hproducer : c.history (plan.producer, c.round) with
        | none =>
          rw [isRoundSettledInHistory, hproducer] at hsettled
          cases hsettled
        | some producer => exact (hnot producer hproducer hsettled).elim
    split
    · intro heq
      cases heq
    · split
      · next producer hexisting =>
        obtain ⟨hresult, _⟩ := filter_eq_some_iff.mp hexisting
        exact h.afterProducer hbase (hfresh hlive) (hcurrent.seat hresult) (fun hout => hcurrent.found hresult hout)
          (fun call hcall => by rw [hcalls] at hcall; cases hcall) fun seat _ => hcalls seat
      · next hexisting => exact h.produce hbase hcalls htop.2 (hfresh hlive) hexisting

/-- **Every peer has ended, and the round is judged.** -/
theorem concludePeers (hphase : c.phase = .peers producer) {driver : Driver}
    (hconclude : c.conclude plan producer = some driver) : DriverHolds plan w driver := by
  rw [Controller.conclude] at hconclude
  obtain ⟨results, hresults, hconclude⟩ := bind_eq_some_iff.mp hconclude
  obtain ⟨verdicts, hverdicts, hconclude⟩ := bind_eq_some_iff.mp hconclude
  cases hconclude
  have hpeers : PhaseHolds plan w c (.peers producer) := hphase ▸ h.phase
  obtain ⟨hfrom, hto⟩ := checkerResults_spec hresults
  have hcurrent : ∀ {seat res}, seat ∈ plan.checkers → existingPass seat c.round c.history = some res →
      Current plan w c (seat, c.round) := by
    intro seat res hseat hpass
    exact h.history _ (.inr ⟨rfl, (hpeers.checkers seat hseat).mpr ⟨res, hpass⟩⟩)
  -- what a checker's result says, reused or returned
  have hanswers : ∀ {seat res}, seat ∈ plan.checkers →
      existingPass seat c.round c.history = some res ∨ c.calls seat = some (.returned res) →
      Answers w (seat, c.round) res := by
    intro seat res hseat hres
    rcases hres with hpass | hcall
    · have hcur := hcurrent hseat hpass
      obtain ⟨hresult, hout⟩ := existingPass_eq_some.mp hpass
      refine ⟨hcur.seat hresult, hcur.pass hseat res hresult, fun hfindings => ?_⟩
      rw [hout] at hfindings
      cases hfindings
    · exact (h.calls seat _ hcall).2
  have hverdict := verifyResult_spec hpeers.verify hverdicts
  have hstill : ∀ seat, c.calls seat ≠ some .launched := by
    intro seat hcall
    rcases mem_cons.mp (h.calls seat _ hcall).1 with rfl | hseat
    · obtain ⟨result, hreturned⟩ := hpeers.producer _ hcall
      cases hreturned
    · obtain ⟨res, _, hpass | hreturned⟩ := hto seat hseat
      · rw [(hpeers.checkers seat hseat).mpr ⟨res, hpass⟩] at hcall
        cases hcall
      · rw [hreturned] at hcall
        cases hcall
  refine (h.results (c.allResults ++ (results ++ verdicts))).judge hbase hstill ?_ ?_ (fun _ => hpeers.fresh) ?_ ?_
  · intro res hres hout hnoVerify
    rcases mem_cons.mp hres with rfl | hres
    · exact ⟨plan.producer, mem_cons_self, hpeers.found hout⟩
    · rcases mem_append.mp hres with hres | hres
      · obtain ⟨seat, hseat, hof⟩ := hfrom res hres
        exact ⟨seat, mem_cons_of_mem _ hseat, (hanswers hseat hof).findings hout⟩
      · rw [(hverdict.1 res hres).1] at hnoVerify
        cases hnoVerify
  · intro res hres heq
    rcases mem_cons.mp hres with rfl | hres
    · rw [hpeers.seat] at heq
      exact absurd (heq ▸ mem_cons_self) plan.verify_not_mem
    · rcases mem_append.mp hres with hres | hres
      · obtain ⟨seat, hseat, hof⟩ := hfrom res hres
        have hmem : verifySeat ∈ plan.checkers := by
          rw [← heq, (hanswers hseat hof).seat]
          exact hseat
        exact absurd (mem_cons_of_mem _ hmem) plan.verify_not_mem
      · exact (hverdict.1 res hres).1
  · intro seat hseat
    obtain ⟨res, hres, hof⟩ := hto seat hseat
    exact ⟨res, mem_append_left _ hres, (hanswers hseat hof).seat, (hanswers hseat hof).pass⟩
  · intro hv
    obtain ⟨res, hres⟩ := hverdict.2 hv
    exact ⟨res, mem_append_right _ hres, (hverdict.1 res hres).2⟩

end

variable {seat : String}

/-- **A step on the launch of a seat**: nothing else changes, and what it leaves of the launch holds. -/
theorem call {before after : Call} (hcall : c.calls seat = some before)
    (hbefore : ∀ result, before ≠ .returned result)
    (hother : ∀ key, key ≠ (seat, c.round) → w'.attempts key = w.attempts key)
    (hlaunches : w'.launches = w.launches ∨ seat = plan.producer) (hverified : w'.verified = w.verified)
    (hpassed : ∀ key ∈ w'.passed, key ∈ w.passed ∨ key = (seat, c.round)) (hfresh : Fresh plan w' c.round)
    (hrunning : w'.isRunning (seat, c.round) = true → after = .launched)
    (hafter : CallHolds plan w' (seat, c.round) after) : ControllerHolds plan w' (c.setCall seat after) := by
  have hself : (c.setCall seat after).calls seat = some after := update_self _ _ _
  have hcalls : ∀ seat', seat' ≠ seat → (c.setCall seat after).calls seat' = c.calls seat' := fun seat' hne =>
    update_of_ne hne _ _
  have hfound : ∀ key, key ≠ (seat, c.round) → Found w key → Found w' key := fun key hne => found_congr (hother key hne)
  have hrecorded : ∀ key, key ≠ (seat, c.round) → RecordedPass w key → RecordedPass w' key := by
    intro key hne hrec
    rw [RecordedPass, hother key hne]
    exact hrec
  constructor
  case bound => exact h.bound
  case running =>
    intro key hrun
    by_cases heq : key = (seat, c.round)
    · subst heq
      refine ⟨rfl, ?_⟩
      show (c.setCall seat after).calls seat = _
      rw [hself, hrunning hrun]
    · rw [isRunning_congr (hother key heq)] at hrun
      obtain ⟨hround, hlaunched⟩ := h.running key hrun
      refine ⟨hround, ?_⟩
      rw [hcalls key.1 fun hseat => heq (Prod.ext hseat hround)]
      exact hlaunched
  case history =>
    intro key hkey
    have hne : key ≠ (seat, c.round) := by
      rintro rfl
      rcases hkey with hlt | ⟨_, hnone⟩
      · exact Nat.lt_irrefl _ hlt
      · rw [show (c.setCall seat after).calls seat = some after from hself] at hnone
        cases hnone
    have hkey' : c.round < key.2 ∨ key.2 = c.round ∧ c.calls key.1 = none := by
      refine hkey.imp id fun ⟨hround, hnone⟩ => ⟨hround, ?_⟩
      rw [← hcalls key.1 fun hseat => hne (Prod.ext hseat hround)]
      exact hnone
    obtain ⟨hhistory, hpass⟩ := h.history key hkey'
    refine ⟨?_, fun hchecker result hresult hout => hrecorded key hne (hpass hchecker result hresult hout)⟩
    rw [hother key hne]
    exact hhistory
  case calls =>
    intro seat' call hcall'
    by_cases heq : seat' = seat
    · subst heq
      obtain rfl := some.inj (hself.symm.trans hcall')
      exact ⟨(h.calls _ _ hcall).1, hafter⟩
    · rw [hcalls seat' heq] at hcall'
      obtain ⟨hseat, hholds⟩ := h.calls seat' call hcall'
      have hne : (seat', c.round) ≠ (seat, c.round) := fun hkey => heq (congrArg Prod.fst hkey)
      have hanswers : ∀ result, Answers w (seat', c.round) result → Answers w' (seat', c.round) result := fun result ha =>
        ⟨ha.seat, fun hout => hrecorded _ hne (ha.pass hout), fun hout => hfound _ hne (ha.findings hout)⟩
      refine ⟨hseat, ?_⟩
      show CallHolds plan w' (seat', c.round) call
      cases call with
      | binding => exact fun hmem => (hpassed _ hmem).elim hholds hne
      | prepared continuing =>
        obtain ⟨a, hready, hadmitted⟩ := hholds
        exact ⟨a, ⟨by rw [hother _ hne]; exact hready.last, hready.outcome, hready.commit⟩, hadmitted⟩
      | launched =>
        obtain ⟨a, hlast, hnone⟩ := hholds
        exact ⟨a, by rw [hother _ hne]; exact hlast, hnone⟩
      | limited result =>
        refine ⟨fun hrec => hholds.1 ?_, hanswers result hholds.2⟩
        rw [RecordedPass, ← hother _ hne]
        exact hrec
      | returned result => exact hanswers result hholds
  case earlier =>
    intro hverify r hpos hlt
    obtain ⟨seat', hseat', hfoundAt⟩ := h.earlier hverify r hpos hlt
    exact ⟨seat', hseat', hfound _ (fun hkey => Nat.ne_of_lt hlt (congrArg Prod.snd hkey)) hfoundAt⟩
  case phase =>
    show PhaseHolds plan w' _ c.phase
    have hphase := h.phase
    cases hc : c.phase with
    | top =>
      rw [hc] at hphase
      rw [hphase.1] at hcall
      cases hcall
    | producing =>
      rw [hc] at hphase
      obtain ⟨_, hnone, hoff⟩ := hphase
      refine ⟨hfresh, fun seat' hne => ?_, hoff⟩
      by_cases heq : seat' = seat
      · subst heq
        rw [hnone seat' hne] at hcall
        cases hcall
      · rw [hcalls seat' heq]
        exact hnone seat' hne
    | peers producer =>
      rw [hc] at hphase
      have hseat : seat ≠ plan.producer := by
        rintro rfl
        obtain ⟨result, heq⟩ := hphase.producer _ hcall
        exact hbefore result heq
      have hlaunches := hlaunches.resolve_right hseat
      refine ⟨hfresh, hphase.goesOn, hphase.seat, fun hout => ?_, fun call hp => ?_, fun seat' hchecker => ?_, ?_⟩
      · exact hfound _ (fun hkey => hseat (congrArg Prod.fst hkey).symm) (hphase.found hout)
      · rw [hcalls _ hseat.symm] at hp
        exact hphase.producer call hp
      · refine Iff.trans ?_ (hphase.checkers seat' hchecker)
        by_cases heq : seat' = seat
        · subst heq
          rw [hself, hcall]
          simp
        · rw [hcalls seat' heq]
      · have hverify := hphase.verify
        show VerifyHolds plan w' _ c.verify
        cases hv : c.verify with
        | off | waiting =>
          rw [hv] at hverify
          exact hverify
        | running after =>
          rw [hv] at hverify
          exact ⟨hverify.1, hlaunches ▸ hverify.2⟩
        | returned result =>
          rw [hv] at hverify
          refine ⟨hverify.1, hverify.2.1, fun hout => ?_⟩
          rw [hverified, hlaunches]
          exact hverify.2.2 hout

variable {call : Call}

theorem not_isRunning (hcall : c.calls seat = some call) (hne : call ≠ .launched) :
    w.isRunning (seat, c.round) = false := by
  cases hrun : w.isRunning (seat, c.round) with
  | false => rfl
  | true =>
    have hlaunched := (h.running _ hrun).2
    exact absurd (some.inj (hcall.symm.trans hlaunched)) hne

theorem fresh_of_call (hcall : c.calls seat = some call) : Fresh plan w c.round := by
  have hphase := h.phase
  cases hc : c.phase with
  | top =>
    rw [hc] at hphase
    rw [hphase.1] at hcall
    cases hcall
  | producing =>
    rw [hc] at hphase
    exact hphase.1
  | peers producer =>
    rw [hc] at hphase
    exact hphase.fresh

theorem key_mem (hcall : c.calls seat = some call) : (seat, c.round) ∈ plan.keys :=
  mem_keys.mpr ⟨(h.calls seat call hcall).1, h.bound⟩

end ControllerHolds

theorem DriverHolds.driver {driver : Driver} (h : DriverHolds plan w driver) (driver' : Driver) :
    DriverHolds plan { w with driver := driver' } driver := by
  cases driver with
  | gone => trivial
  | running c => exact ControllerHolds.beside h (ControllerHolds.phase_beside h driver' c.allResults)
  | ended outcome rounds results findings => exact h

theorem Sound.of_driver (hbase : Base plan w) {driver : Driver} (hdriver : DriverHolds plan w driver) :
    Sound plan { w with driver } :=
  ⟨hbase.driver driver w.verified, hdriver.driver driver⟩

/-! ### The steps of a launch -/

variable {seat : String} {new : List Attempt} {before after : Call} {a : Attempt} {settled : Settled}
  {outcome : Outcome} {refusal : Option Outcome}

theorem setAttempts_changes (w : World) (key : Key) (new : List Attempt) :
    Changes w (w.setAttempts key new) key new :=
  ⟨rfl, rfl, rfl, rfl⟩

theorem Changes.last (h : Changes w w' key new) (hlast : new.getLast? = some a) : (w'.attempts key).getLast? = some a :=
  (congrArg List.getLast? h.self).trans hlast

theorem Sound.callOnly (hbase : Base plan w) (hc : ControllerHolds plan w c)
    (hcall : c.calls seat = some before) (hbefore : ∀ result, before ≠ .returned result) (hne : before ≠ .launched)
    (hafter : CallHolds plan w (seat, c.round) after) : Sound plan (w.drive (c.setCall seat after)) := by
  refine .of_driver hbase (hc.call hcall hbefore (fun _ _ => rfl) (.inl rfl) rfl (fun _ => .inl)
    (hc.fresh_of_call hcall) (fun hrun => ?_) hafter)
  rw [hc.not_isRunning hcall hne] at hrun
  cases hrun

theorem Sound.callChange (hbase : Base plan w) (hc : ControllerHolds plan w c)
    (hcall : c.calls seat = some before) (hbefore : ∀ result, before ≠ .returned result)
    (hchanges : Changes w w' (seat, c.round) new) (hended : w'.ended = w.ended)
    (hstill : w.isRunning (seat, c.round) = false) (hstill' : w'.isRunning (seat, c.round) = false)
    (hrecord : ∀ a, new.getLast? = some a → RecordHolds a)
    (hstands : seat ∈ plan.checkers → Stands w (seat, c.round) new)
    (hpassed : ∀ k ∈ w'.passed, k ≠ (seat, c.round) ∧ k ∈ w.passed ∨ k = (seat, c.round) ∧
      ∃ a, new.getLast? = some a ∧ a.outcome = some .pass ∧ commitPending a = false)
    (hafter : CallHolds plan w' (seat, c.round) after) : Sound plan (w'.drive (c.setCall seat after)) := by
  have hfresh := hc.fresh_of_call hcall
  have hbase' : Base plan w' := by
    refine hbase.change hchanges (hc.key_mem hcall) hrecord hstands ?_ (fun _ => hfresh) hpassed
    exact hbase.counted.change hchanges hended fun _ => hstill'.trans hstill.symm
  refine .of_driver hbase' (hc.call hcall hbefore (fun key hne => hchanges.other hne) (.inl hchanges.launches)
    hchanges.verified (fun key hkey => ?_) (hchanges.fresh hstands hfresh) (fun hrun => ?_) hafter)
  · exact (hpassed key hkey).imp (fun hold => hold.2) fun hnew => hnew.1
  · rw [hstill'] at hrun
    cases hrun

theorem stands_none (hlast : new.getLast? = some a) (houtcome : a.outcome ≠ some .pass)
    (hopen : (a.outcome.isNone && a.admitted) = false) : Stands w key new := by
  intro run hrun
  rw [standing_eq hlast, if_neg (by simp [houtcome, hopen])] at hrun
  cases hrun

theorem answers_refused (key : Key) : Answers w key (World.refused key) := by
  constructor
  · rfl
  · intro h
    cases h
  · intro h
    cases h

theorem Sound.push (hbase : Base plan w) (hc : ControllerHolds plan w c)
    (hcall : c.calls seat = some before) (hbefore : ∀ result, before ≠ .returned result) (hne : before ≠ .launched)
    (hmem : (seat, c.round) ∉ w.passed) : Sound plan
      ((w.setAttempts (seat, c.round) (w.attempts (seat, c.round) ++ [.fresh])).drive
        (c.setCall seat (.prepared false))) := by
  have hchanges := setAttempts_changes w (seat, c.round) (w.attempts (seat, c.round) ++ [.fresh])
  have hlast : (w.attempts (seat, c.round) ++ [Attempt.fresh]).getLast? = some .fresh := getLast?_concat
  refine .callChange hbase hc hcall hbefore hchanges rfl (hc.not_isRunning hcall hne) ?_ ?_ ?_ ?_ ?_
  · exact not_isRunning_of_last hlast nofun hchanges.self
  · intro a ha
    rw [← some.inj (hlast.symm.trans ha)]
    exact .fresh
  · exact fun _ => stands_none hlast (by simp [Attempt.fresh]) (by simp [Attempt.fresh])
  · exact fun k hk => .inl ⟨fun heq => hmem (heq ▸ hk), hk⟩
  · exact ⟨.fresh, ⟨hchanges.last hlast, rfl, rfl⟩, fun h => by cases h⟩

/-- **The attempt is recorded before its dispatch.** -/
theorem Sound.prepare (hbase : Base plan w) (hc : ControllerHolds plan w c) (hcall : c.calls seat = some .binding)
    (hcommit : (w.attempts (seat, c.round)).getLast?.any commitPending = false) :
    Sound plan ((w.prepared (seat, c.round)).drive (c.setCall seat (.prepared (w.continues (seat, c.round))))) := by
  have hmem : (seat, c.round) ∉ w.passed := (hc.calls seat _ hcall).2
  rw [World.prepared]
  split
  · next hpush =>
    have hcontinues : w.continues (seat, c.round) = false := by
      rw [World.continues]
      cases hlast : (w.attempts (seat, c.round)).getLast? with
      | none => rfl
      | some a =>
        have hrebinds : rebinds (w.attempts (seat, c.round)) = true := by
          refine (Bool.or_eq_true_iff.mp hpush).resolve_right fun hempty => ?_
          rw [List.isEmpty_iff.mp hempty] at hlast
          cases hlast
        rw [rebinds, hlast] at hrebinds
        cases houtcome : a.outcome with
        | none => simp [houtcome] at hrebinds
        | some o => simp [houtcome]
    rw [hcontinues]
    exact .push hbase hc hcall (by simp) (by simp) hmem
  · next hkept =>
    obtain ⟨a, hlast⟩ : ∃ a, (w.attempts (seat, c.round)).getLast? = some a := by
      cases hlast : (w.attempts (seat, c.round)).getLast? with
      | some a => exact ⟨a, rfl⟩
      | none =>
        rw [getLast?_eq_none_iff.mp hlast] at hkept
        simp at hkept
    have hcommit : commitPending a = false := by
      rw [hlast] at hcommit
      exact hcommit
    split
    · next hcontinues =>
      rw [World.continues, hlast] at hcontinues
      simp only [any_some, Bool.and_eq_true] at hcontinues
      exact .callOnly hbase hc hcall (by simp) (by simp)
        ⟨a, ⟨hlast, isNone_iff_eq_none.mp hcontinues.1.1, hcommit⟩, fun _ => hcontinues.1.2⟩
    · next hcontinues =>
      have hlast' : (modifyLast (fun a => { a with outcome := none, admitted := false })
          (w.attempts (seat, c.round))).getLast? = some { a with outcome := none, admitted := false } := by
        rw [getLast?_modifyLast, hlast]
        rfl
      have hchanges := setAttempts_changes w (seat, c.round)
        (modifyLast (fun a => { a with outcome := none, admitted := false }) (w.attempts (seat, c.round)))
      have hstill := hc.not_isRunning hcall (by simp)
      refine .callChange hbase hc hcall (by simp) hchanges rfl hstill ?_ ?_ ?_ ?_ ?_
      · exact (isRunning_eq_of_last hlast (hchanges.last hlast') rfl).trans hstill
      · intro b hb
        rw [← some.inj (hlast'.symm.trans hb)]
        refine ⟨nofun, fun hpending => ?_⟩
        have hpending : commitPending a = true := hpending
        rw [hcommit] at hpending
        cases hpending
      · exact fun _ => stands_none hlast' (by simp) (by simp)
      · exact fun k hk => .inl ⟨fun heq => hmem (heq ▸ hk), hk⟩
      · refine ⟨{ a with outcome := none, admitted := false },
          ⟨hchanges.last hlast', rfl, hcommit⟩, fun h => absurd h hcontinues⟩

/-- **The agent is launched.** -/
theorem Sound.dispatch (hbase : Base plan w) (hc : ControllerHolds plan w c)
    (hcall : c.calls seat = some (.prepared false))
    (hcareful : seat = plan.producer → ∀ checker ∈ plan.checkers, ∀ r, c.round ≤ r →
      standing (w.attempts (checker, r)) = none) :
    Sound plan ((w.launch plan (seat, c.round)).drive (c.setCall seat .launched)) := by
  obtain ⟨hseat, a, hready, _⟩ := hc.calls seat _ hcall
  have hlast := launch_last plan hready
  have hafter : CallHolds plan (w.launch plan (seat, c.round)) (seat, c.round) .launched :=
    ⟨_, hlast, hready.outcome, rfl, fun hpending => absurd (hready.commit.symm.trans hpending) (by simp)⟩
  have hother : ∀ key, key ≠ (seat, c.round) → (w.launch plan (seat, c.round)).attempts key = w.attempts key := by
    intro key hne
    rw [launch_attempts, update_of_ne hne]
  by_cases hproducer : seat = plan.producer
  · have hidle := hc.ended_eq hbase (by rw [← hproducer, hcall]; simp)
    have hclear := hcareful hproducer
    have hbase' := hbase.launchProducer hready (hc.key_mem hcall) hproducer hidle.1 hclear fun hv r hpos hlt =>
      hc.blocked hv hpos hlt
    refine .of_driver hbase' (hc.call hcall (by simp) hother (.inr hproducer) rfl (fun _ => .inl) ?_ (fun _ => rfl)
      hafter)
    intro checker hchecker run hrun
    have hne : (checker, c.round) ≠ (seat, c.round) := fun heq =>
      Plan.ne_producer hchecker ((congrArg Prod.fst heq).trans hproducer)
    rw [hother _ hne, hclear checker hchecker c.round (Nat.le_refl _)] at hrun
    cases hrun
  · have hproducerCall : c.calls plan.producer ≠ some .launched := by
      intro hlaunched
      have hphase := hc.phase
      cases hcp : c.phase with
      | top =>
        rw [hcp] at hphase
        rw [hphase.1] at hlaunched
        cases hlaunched
      | producing =>
        rw [hcp] at hphase
        rw [hphase.2.1 seat hproducer] at hcall
        cases hcall
      | peers producer =>
        rw [hcp] at hphase
        obtain ⟨result, heq⟩ := hphase.producer _ hlaunched
        cases heq
    have hidle := hc.ended_eq hbase hproducerCall
    have hmem := hbase.not_mem_passed hready.last hready.outcome
    have hfresh := hc.fresh_of_call hcall
    have hchanges : Changes w (w.launch plan (seat, c.round)) (seat, c.round) _ :=
      ⟨launch_attempts _, if_neg hproducer, rfl, launch_again hmem⟩
    have hlast' := (congrArg List.getLast? hchanges.self).symm.trans hlast
    have hstands : seat ∈ plan.checkers → Stands w (seat, c.round)
        (modifyLast (fun a => { a with admitted := true, runs := a.runs ++ [⟨w.ended, .running⟩] })
          (w.attempts (seat, c.round))) := by
      intro _ run hrun
      obtain ⟨b, hb, hrun⟩ := standing_some hrun
      rw [← some.inj (hlast'.symm.trans hb)] at hrun
      have hrun : (a.runs ++ [(⟨w.ended, .running⟩ : Run)]).getLast? = some run := hrun
      rw [getLast?_concat] at hrun
      rw [← some.inj hrun]
      exact .inr (Nat.le_of_eq hidle.2.symm)
    have hbase' : Base plan (w.launch plan (seat, c.round)) := by
      refine hbase.change hchanges (hc.key_mem hcall) (fun b hb => ?_) hstands ?_ (fun _ => hfresh) fun k hk => ?_
      · rw [← some.inj (hlast'.symm.trans hb)]
        exact launch_record hready
      · exact hbase.counted.change hchanges rfl fun heq => absurd heq hproducer
      · exact .inl ⟨fun heq => hmem (heq ▸ hk), hk⟩
    exact .of_driver hbase' (hc.call hcall (by simp) hother (.inl hchanges.launches) rfl (fun _ => .inl)
      (hchanges.fresh hstands hfresh) (fun _ => rfl) hafter)

theorem read_eq_some (h : w.read key = some settled) : ∃ a run result,
    (w.attempts key).getLast? = some a ∧ a.runs.getLast? = some run ∧ run.state = .settled result ∧
      settled = result.getD ⟨.executionFailure, none⟩ := by
  rw [World.read] at h
  obtain ⟨run, hrun, h⟩ := bind_eq_some_iff.mp h
  obtain ⟨a, hlast, hrun⟩ := lastRun_eq_some.mp hrun
  split at h
  · next result hstate => exact ⟨a, run, result, hlast, hrun, hstate, (some.inj h).symm⟩
  · cases h

theorem setRecord_changes (w : World) (key : Key) (outcome : Outcome) (commit : Attempt → Commit) :
    Changes w (w.setRecord key outcome commit) key
      (modifyLast (fun a => { a with outcome := some outcome, commit := commit a }) (w.attempts key)) :=
  ⟨rfl, rfl, rfl, rfl⟩

/-- **The outcome is recorded**: what was settled, or an error. -/
theorem Sound.record (hbase : Base plan w) (hc : ControllerHolds plan w c)
    (hcall : c.calls seat = some before) (hbefore : ∀ result, before ≠ .returned result) {run : Run}
    {result : Option Settled} {commit : Attempt → Commit}
    (hmem : (seat, c.round) ∉ w.passed) (hlast : (w.attempts (seat, c.round)).getLast? = some a)
    (hrun : a.runs.getLast? = some run) (hstate : run.state = .settled result) (houtcome : outcome = readOutcome result ∨ outcome.isError = true)
    (hpending : commit a = .pending ∨ commit a = .failed → ∃ settled, result = some settled ∧ settled.outcome = .pass)
    (hclean : outcome = .pass → commit a ≠ .pending ∧ commit a ≠ .failed)
    (hkept : outcome = .pass → seat ∈ plan.checkers → a.outcome = none ∧ a.admitted = true)
    (hafter : CallHolds plan (w.setRecord (seat, c.round) outcome commit) (seat, c.round) after) :
    Sound plan ((w.setRecord (seat, c.round) outcome commit).drive (c.setCall seat after)) := by
  have hchanges := setRecord_changes w (seat, c.round) outcome commit
  have hlast' : (modifyLast (fun a => { a with outcome := some outcome, commit := commit a })
      (w.attempts (seat, c.round))).getLast? = some { a with outcome := some outcome, commit := commit a } := by
    rw [getLast?_modifyLast, hlast]
    rfl
  have hstill : w.isRunning (seat, c.round) = false :=
    not_isRunning_of_last hlast (fun run' hrun' => by rw [← some.inj (hrun.symm.trans hrun'), hstate]; simp) rfl
  refine .callChange hbase hc hcall hbefore hchanges rfl hstill ?_ ?_ ?_ ?_ hafter
  · exact (isRunning_eq_of_last hlast (hchanges.last hlast') rfl).trans hstill
  · intro b hb
    rw [← some.inj (hlast'.symm.trans hb)]
    constructor
    · intro o ho
      obtain rfl : outcome = o := some.inj ho
      exact ⟨run, result, hrun, hstate, houtcome⟩
    · intro hcommit
      have hcommit : (commit a == .pending || commit a == .failed) = true := hcommit
      obtain ⟨settled, rfl, hpass⟩ := hpending (by simpa using hcommit)
      exact ⟨run, settled, hrun, hstate, hpass⟩
  · intro hchecker run' hrun'
    by_cases hpass : outcome = .pass
    · obtain ⟨hnone, hadmitted⟩ := hkept hpass hchecker
      obtain ⟨b, hb, hbRun⟩ := standing_some hrun'
      rw [← some.inj (hlast'.symm.trans hb)] at hbRun
      have hbRun : a.runs.getLast? = some run' := hbRun
      obtain rfl := some.inj (hrun.symm.trans hbRun)
      refine .inl ⟨run, ?_, rfl⟩
      rw [standing_eq hlast, hnone, hadmitted, hrun]
      simp [hstate]
    · exact stands_none hlast' (by simpa using hpass) rfl run' hrun'
  · intro k hk
    have hk : k ∈ if outcome = .pass then w.passed ++ [(seat, c.round)] else w.passed := hk
    split at hk
    · next hpass =>
      rcases mem_append.mp hk with hk | hk
      · exact .inl ⟨fun heq => hmem (heq ▸ hk), hk⟩
      · obtain ⟨hne, hne'⟩ := hclean hpass
        refine .inr ⟨mem_singleton.mp hk, _, hlast', by rw [hpass], ?_⟩
        show (commit a == .pending || commit a == .failed) = false
        simp [hne, hne']
    · exact .inl ⟨fun heq => hmem (heq ▸ hk), hk⟩

theorem recorded_eq_some {isProducer : Bool} (h : World.recorded isProducer settled refusal = some outcome) :
    outcome = settled.outcome ∨ settled.outcome = .pass ∧ (outcome = .policyRefusal ∨ outcome = .executionFailure) := by
  unfold World.recorded at h
  split at h
  · exact .inl (some.inj h).symm
  · split at h
    · next hpass => exact .inr ⟨hpass, .inl (some.inj h).symm⟩
    · cases h
  · split at h
    · next hpass =>
      have hpass : settled.outcome = .pass := of_decide_eq_true (Bool.and_eq_true_iff.mp hpass).1
      exact .inr ⟨hpass, .inr (some.inj h).symm⟩
    · cases h
  · cases h

theorem setRecord_last {commit : Attempt → Commit}
    (hlast : (w.attempts key).getLast? = some a) : ((w.setRecord key outcome commit).attempts key).getLast? =
      some { a with outcome := some outcome, commit := commit a } := by
  rw [(setRecord_changes w key outcome commit).self, getLast?_modifyLast, hlast]
  rfl

theorem Sound.finishCommit (hbase : Base plan w) (hc : ControllerHolds plan w c) (hcall : c.calls seat = some .binding)
    (hlast : (w.attempts (seat, c.round)).getLast? = some a) (hpending : commitPending a = true)
    (hproducer : seat = plan.producer) {made : Bool} {classification : Option Classification} :
    Sound plan ((w.setRecord (seat, c.round) (if made then .pass else .executionFailure)
      fun _ => if made then .made else .failed).drive (c.setCall seat (.returned
        ⟨seat, c.round, if made then .pass else .executionFailure, classification, []⟩))) := by
  obtain ⟨run, settled, hrun, hstate, hpass⟩ := (hbase.record _ a hlast).commit hpending
  refine .record hbase hc hcall (by simp) (hc.calls seat _ hcall).2 hlast hrun hstate ?_ ?_ ?_ ?_ ?_
  · cases made with
    | true => exact .inl hpass.symm
    | false => exact .inr rfl
  · exact fun _ => ⟨settled, rfl, hpass⟩
  · cases made <;> simp
  · intro _ hchecker
    exact absurd hproducer (Plan.ne_producer hchecker)
  · refine ⟨rfl, fun hout => ⟨_, setRecord_last hlast, congrArg some hout⟩, fun hout => ?_⟩
    cases made <;> cases hout

/-- The commit of the producer's work begins. -/
theorem Sound.commit (hbase : Base plan w) (hc : ControllerHolds plan w c) (hcall : c.calls seat = some .launched)
    {settled : Settled} (hread : w.read (seat, c.round) = some settled) (hpass : settled.outcome = .pass)
    (hproducer : seat = plan.producer) : Sound plan ((w.setAttempts (seat, c.round)
      (modifyLast (fun a => { a with commit := .pending }) (w.attempts (seat, c.round)))).drive c) := by
  obtain ⟨a, run, result, hlast, hrun, hstate, hsettled⟩ := read_eq_some hread
  have hsame : c.setCall seat .launched = c := by
    rw [Controller.setCall, ← hcall, update_eq_self]
  have hlast' : (modifyLast (fun a => { a with commit := .pending }) (w.attempts (seat, c.round))).getLast? =
      some { a with commit := .pending } := by
    rw [getLast?_modifyLast, hlast]
    rfl
  have hchanges := setAttempts_changes w (seat, c.round)
    (modifyLast (fun a => { a with commit := .pending }) (w.attempts (seat, c.round)))
  have hself := hchanges.last hlast'
  have hstill : w.isRunning (seat, c.round) = false :=
    not_isRunning_of_last hlast (fun run' hrun' => by rw [← some.inj (hrun.symm.trans hrun'), hstate]; simp) rfl
  obtain ⟨b, hb, hnone, hadmitted, hcommitOf⟩ := (hc.calls seat _ hcall).2
  obtain rfl := some.inj (hlast.symm.trans hb)
  rw [← hsame]
  refine .callChange hbase hc hcall (by simp) hchanges rfl hstill ?_ ?_ ?_ ?_ ?_
  · exact (isRunning_eq_of_last hlast hself rfl).trans hstill
  · intro b hb
    rw [← some.inj (hlast'.symm.trans hb)]
    refine ⟨fun o ho => ?_, fun _ => ?_⟩
    · have ho : a.outcome = some o := ho
      rw [hnone] at ho
      cases ho
    · have hread : readOutcome result = .pass := by rw [readOutcome, ← hsettled, hpass]
      obtain ⟨settled', rfl, hpass'⟩ := readOutcome_eq hread.symm rfl
      exact ⟨run, settled', hrun, hstate, hpass'⟩
  · exact fun hchecker => absurd hproducer (Plan.ne_producer hchecker)
  · exact fun k hk => .inl ⟨fun heq => hbase.not_mem_passed hlast hnone (heq ▸ hk), hk⟩
  · exact ⟨_, hself, hnone, hadmitted, fun _ => hproducer⟩

/-- **The outcome of a launch is recorded.** -/
theorem Sound.recordOutcome (hbase : Base plan w) (hc : ControllerHolds plan w c) (hcall : c.calls seat = some .launched)
    (hread : w.read (seat, c.round) = some settled)
    (houtcome : World.recorded (seat = plan.producer) settled refusal = some outcome) (briefLost : Bool) :
    Sound plan ((w.setRecord (seat, c.round) outcome (World.committed (seat = plan.producer) settled outcome)).drive
      (c.setCall seat (if outcome = .providerLimit || (briefLost && outcome ≠ .pass) then
          .limited ⟨seat, c.round, outcome, settled.classification, []⟩
        else .returned ⟨seat, c.round, outcome, settled.classification, []⟩))) := by
  obtain ⟨a, run, result, hlast, hrun, hstate, hsettled⟩ := read_eq_some hread
  obtain ⟨b, hb, hnone, hadmitted, hcommitOf⟩ := (hc.calls seat _ hcall).2
  obtain rfl := some.inj (hlast.symm.trans hb)
  have hreadOutcome : settled.outcome = readOutcome result := by rw [readOutcome, ← hsettled]
  have hof := recorded_eq_some houtcome
  have hmem := hbase.not_mem_passed hlast hnone
  have hanswers : Answers (w.setRecord (seat, c.round) outcome (World.committed (seat = plan.producer) settled outcome))
      (seat, c.round) ⟨seat, c.round, outcome, settled.classification, []⟩ := by
    refine ⟨rfl, fun hout => ⟨_, setRecord_last hlast, congrArg some hout⟩, fun hout => ?_⟩
    have hout : outcome = .findings := hout
    have hfindings : readOutcome result = .findings := by
      rcases hof with heq | ⟨_, heq | heq⟩
      · rw [← hreadOutcome, ← heq, hout]
      · rw [heq] at hout
        cases hout
      · rw [heq] at hout
        cases hout
    obtain ⟨settled', rfl, hsettled'⟩ := readOutcome_eq hfindings.symm rfl
    exact ⟨settled', finalOf_of_last (setRecord_last hlast) hrun hstate, hsettled'⟩
  refine .record hbase hc hcall (by simp) hmem hlast hrun hstate ?_ ?_ ?_ (fun _ _ => ⟨hnone, hadmitted⟩) ?_
  · rcases hof with heq | ⟨_, heq | heq⟩
    · exact .inl (heq.trans hreadOutcome)
    · exact .inr (heq ▸ rfl)
    · exact .inr (heq ▸ rfl)
  · intro hcommit
    by_cases hpass : settled.outcome = .pass
    · exact readOutcome_eq (hreadOutcome ▸ hpass).symm rfl
    · have hcommit : commitPending a = true := by
        unfold World.committed at hcommit
        rw [if_neg (by simp [hpass])] at hcommit
        rw [commitPending]
        simpa using hcommit
      obtain ⟨run', settled', hrun', hstate', hpass'⟩ := (hbase.record _ a hlast).commit hcommit
      obtain rfl := some.inj (hrun.symm.trans hrun')
      rw [hstate] at hstate'
      exact ⟨settled', RunState.settled.inj hstate', hpass'⟩
  · intro hout
    have hpass : settled.outcome = .pass := by
      rcases hof with heq | ⟨hpass, _⟩
      · rw [← heq, hout]
      · exact hpass
    rw [hout]
    show (if settled.outcome = .pass && decide (seat = plan.producer) then Commit.made else a.commit) ≠ _ ∧
      (if settled.outcome = .pass && decide (seat = plan.producer) then Commit.made else a.commit) ≠ _
    split
    · simp
    · next hnot =>
      -- a checker's work is not committed
      have hseat : seat ≠ plan.producer := fun heq => hnot (by simp [hpass, heq])
      have hclean : commitPending a ≠ true := fun hpending => hseat (hcommitOf hpending)
      rw [commitPending] at hclean
      simpa using hclean
  · split
    · next hlimited =>
      refine ⟨?_, hanswers⟩
      rintro ⟨b, hb, hrec⟩
      rw [setRecord_last hlast] at hb
      rw [← some.inj hb] at hrec
      obtain rfl : outcome = .pass := some.inj hrec
      simp at hlimited
    · exact hanswers

variable {a : Act}

/-- **A step of the launch of a seat.** -/
theorem Sound.callStep (h : Sound plan w) (hdriver : w.driver = .running c) {call : Call} (hcall : c.calls seat = some call) (hseatOf : World.seatOf a = some seat) (hcareful : Careful plan w a)
    (hact : w.callStep plan c seat call a = some w') : Sound plan w' := by
  have hbase := h.base
  have hc : DriverHolds plan w (.running c) := hdriver ▸ h.driver
  obtain ⟨hseat, hholds⟩ := hc.calls seat call hcall
  cases a with
  | refuse seat' =>
    simp only [World.callStep] at hact
    split at hact
    · cases hact
      exact .callOnly hbase hc hcall (by simp) (by simp) (answers_refused _)
    · cases hact
  | finishCommit seat' made =>
    simp only [World.callStep] at hact
    split at hact
    · next b hlast =>
      split at hact
      · next hcommits =>
        cases hact
        obtain ⟨hpending, hproducer⟩ := Bool.and_eq_true_iff.mp hcommits
        exact .finishCommit hbase hc hcall hlast hpending (of_decide_eq_true hproducer)
      · cases hact
    · cases hact
  | prepare seat' =>
    simp only [World.callStep] at hact
    split at hact
    · split at hact
      · cases hact
      · next hcommit =>
        cases hact
        exact .prepare hbase hc hcall (by simpa using hcommit)
    · cases hact
  | dispatch seat' =>
    obtain rfl : seat' = seat := some.inj hseatOf
    simp only [World.callStep] at hact
    split at hact
    · cases hact
      obtain ⟨b, hready, hadmitted⟩ := hholds
      exact .callOnly hbase hc hcall (by simp) (by simp) ⟨b, hready.last, hready.outcome, hadmitted rfl,
        fun hpending => absurd (hready.commit.symm.trans hpending) (by simp)⟩
    · cases hact
      exact .dispatch hbase hc hcall fun hproducer => hcareful c hdriver hproducer hcall
    · cases hact
  | commit seat' =>
    simp only [World.callStep] at hact
    split at hact
    · next settled hread =>
      split at hact
      · next hpass =>
        cases hact
        obtain ⟨hpass, hproducer⟩ := Bool.and_eq_true_iff.mp hpass
        have hsound := Sound.commit hbase hc hcall hread (of_decide_eq_true hpass) (of_decide_eq_true hproducer)
        rw [World.drive, ← hdriver] at hsound
        exact hsound
      · cases hact
    · cases hact
  | record seat' refusal briefLost =>
    simp only [World.callStep] at hact
    split at hact
    · next settled hread =>
      obtain ⟨outcome, houtcome, rfl⟩ := map_eq_some_iff.mp hact
      exact .recordOutcome hbase hc hcall hread houtcome briefLost
    · cases hact
  | retry seat' =>
    simp only [World.callStep] at hact
    split at hact
    · next result =>
      cases hact
      refine .push hbase hc hcall (by simp) (by simp) fun hmem => hholds.1 ?_
      obtain ⟨b, hlast, hpass, _⟩ := hbase.passed _ hmem
      exact ⟨b, hlast, hpass⟩
    · cases hact
  | stop seat' isRefused =>
    simp only [World.callStep] at hact
    split at hact
    · next result =>
      cases hact
      refine .callOnly hbase hc hcall (by simp) (by simp) ?_
      split
      · exact answers_refused _
      · exact hholds.2
    · cases hact
  | _ => cases hseatOf

/-! ### The steps of a run -/

theorem ControllerHolds.peers_of_verify (hc : ControllerHolds plan w c) (hwaits : c.verify ≠ .off) :
    ∃ producer, c.phase = .peers producer ∧ PeersHold plan w c producer := by
  have hphase := hc.phase
  cases hcp : c.phase with
  | top =>
    rw [hcp] at hphase
    exact absurd hphase.2 hwaits
  | producing =>
    rw [hcp] at hphase
    exact absurd hphase.2.2 hwaits
  | peers producer =>
    rw [hcp] at hphase
    exact ⟨producer, rfl, hphase⟩

theorem Sound.verify (hbase : Base plan w) (hc : ControllerHolds plan w c) {producer : Result}
    (hphase : c.phase = .peers producer) (hpeers : PeersHold plan w c producer) {verified : List Verified}
    {verify : VerifyCall} (hverify : VerifyHolds plan { w with verified } { c with verify } verify) :
    Sound plan { w with verified, driver := .running { c with verify } } := by
  refine ⟨hbase.driver _ verified, ?_⟩
  refine hc.beside ?_
  rw [hphase]
  refine ⟨hpeers.fresh, hpeers.goesOn, hpeers.seat, hpeers.found, hpeers.producer, hpeers.checkers, ?_⟩
  cases verify <;> exact hverify

/-- **A step of the loop.** -/
theorem Sound.loopStep (h : Sound plan w) (hdriver : w.driver = .running c) (hcareful : Careful plan w a)
    (hact : w.loopStep plan c a = some w') : Sound plan w' := by
  have hbase := h.base
  have hc : DriverHolds plan w (.running c) := hdriver ▸ h.driver
  cases a with
  | enter room =>
    simp only [World.loopStep] at hact
    split at hact
    · next hphase =>
      cases hact
      exact .of_driver hbase (hc.enter hbase hphase room (hcareful c hdriver))
    · cases hact
  | produced =>
    simp only [World.loopStep] at hact
    split at hact
    · next producer hphase hreturned =>
      cases hact
      have hholds := hc.phase
      rw [hphase] at hholds
      obtain ⟨hfresh, hnone, _⟩ := hholds
      have hcall : c.calls plan.producer = some (.returned producer) := by
        rw [Controller.returned?] at hreturned
        split at hreturned
        · next result hcall =>
          cases hreturned
          exact hcall
        · cases hreturned
      have hanswers : Answers w (plan.producer, c.round) producer := (hc.calls _ _ hcall).2
      refine .of_driver hbase (hc.afterProducer hbase hfresh hanswers.seat hanswers.findings (fun call hp => ?_) hnone)
      exact ⟨producer, some.inj (hp.symm.trans hcall)⟩
    · cases hact
  | verifyStart =>
    simp only [World.loopStep] at hact
    split at hact
    · next hwaits =>
      cases hact
      obtain ⟨producer, hphase, hpeers⟩ := hc.peers_of_verify (by rw [hwaits]; simp)
      have hholds := hpeers.verify
      rw [hwaits] at hholds
      have hidle := hc.ended_eq hbase fun hlaunched => by
        obtain ⟨result, heq⟩ := hpeers.producer _ hlaunched
        cases heq
      exact .verify hbase hc hphase hpeers ⟨hholds, Nat.le_of_eq hidle.2.symm⟩
    · cases hact
  | verifyEnd pass findings =>
    simp only [World.loopStep] at hact
    split at hact
    · next after hruns =>
      cases hact
      obtain ⟨producer, hphase, hpeers⟩ := hc.peers_of_verify (by rw [hruns]; simp)
      have hholds := hpeers.verify
      rw [hruns] at hholds
      refine .verify hbase hc hphase hpeers ⟨hholds.1, rfl, fun hout => ?_⟩
      cases pass with
      | true => exact ⟨⟨c.round, after⟩, by simp, rfl, hholds.2⟩
      | false => cases hout
    · cases hact
  | conclude =>
    simp only [World.loopStep] at hact
    split at hact
    · next producer hphase =>
      obtain ⟨driver, hconclude, rfl⟩ := map_eq_some_iff.mp hact
      exact .of_driver hbase (hc.concludePeers hbase hphase hconclude)
    · cases hact
  | _ => cases hact

/-- **A run ends**, whoever waits for it. -/
theorem Sound.close (h : Sound plan w) {state : RunState} (hrun : w.isRunning key = true) (hstate : state ≠ .running) :
    Sound plan (w.closeRun plan key state) := by
  obtain ⟨hbase, hstill⟩ := h.base.close hrun hstate
  have hchanges := closeRun_changes plan w key state
  obtain ⟨a, hlast, hnone, hcommit⟩ := h.base.of_isRunning hrun
  refine ⟨hbase, ?_⟩
  show DriverHolds plan _ w.driver
  have hdriver := h.driver
  cases hd : w.driver with
  | gone => trivial
  | ended outcome rounds results findings =>
    rw [hd] at hdriver
    intro hout
    obtain ⟨r, hcheckers, hverify⟩ := hdriver hout
    refine ⟨r, fun seat hseat => ?_, hverify⟩
    obtain ⟨b, run, settled, hb, hpass, hrest⟩ := hcheckers seat hseat
    have hne : (seat, r) ≠ key := by
      rintro rfl
      rw [← some.inj (hlast.symm.trans hb), hnone] at hpass
      cases hpass
    exact ⟨b, run, settled, by rw [hchanges.other hne]; exact hb, hpass, hrest⟩
  | running c =>
    rw [hd] at hdriver
    have hc : ControllerHolds plan w c := hdriver
    obtain ⟨hround, hcall⟩ := hc.running key hrun
    have hkey : key = (key.1, c.round) := Prod.ext rfl hround
    have hsame : c.setCall key.1 .launched = c := by
      rw [Controller.setCall, ← hcall, update_eq_self]
    obtain ⟨b, hb, hnone, hadmitted, hcommitOf⟩ := (hc.calls _ _ hcall).2
    rw [← hkey] at hb
    obtain ⟨_, run, hlast', hlastRun, _⟩ := isRunning_iff.mp hrun
    obtain rfl := some.inj (hb.symm.trans hlast')
    obtain ⟨b', hb', hbOutcome, hbAdmitted, hbCommit, _⟩ := closeRun_last plan state hb hlastRun
    rw [← hsame]
    refine hc.call hcall (by simp) (fun k hk => hchanges.other (hkey ▸ hk)) (.inl rfl) rfl (fun _ => .inl) ?_
      (fun _ => rfl) ?_
    · exact hchanges.fresh (fun _ => closeRun_stands hrun) (hc.fresh_of_call hcall)
    · rw [← hkey]
      refine ⟨b', hb', hbOutcome.trans hnone, hbAdmitted.trans hadmitted, fun hpending => ?_⟩
      rw [commitPending, hbCommit] at hpending
      exact hcommitOf hpending

/-- **A controller starts the Unit run**, or takes it up. -/
theorem Sound.start (h : Sound plan w) (hresumable : w.resumable plan = true) (hcareful : Careful plan w .start) :
    Sound plan (w.drive w.started) := by
  refine .of_driver h.base ?_
  constructor
  case bound => exact ⟨Nat.le_refl _, plan.maxRounds_pos⟩
  case running =>
    intro key hrun
    have hstill := List.all_eq_true.mp hresumable key (h.base.mem_keys_of_isRunning hrun)
    rw [hrun] at hstill
    cases hstill
  case history =>
    intro key _
    refine ⟨rfl, fun hchecker result hresult hpass => ?_⟩
    exact recordedPass_of_historyOf h.base hresult hpass fun a hlast => hcareful key.1 hchecker key.2 a hlast
  case calls =>
    intro seat call hcall
    cases hcall
  case earlier =>
    intro _ r hpos hlt
    exact absurd (Nat.lt_of_lt_of_le hlt hpos) (Nat.lt_irrefl _)
  case phase => exact ⟨fun _ => rfl, rfl⟩

/-- **One step** of a run. -/
theorem Sound.act (h : Sound plan w) (hcareful : Careful plan w a) (hact : w.act plan a = some w') :
    Sound plan w' := by
  unfold World.act at hact
  split at hact
  · next key state =>
    split at hact
    · next hclose =>
      cases hact
      obtain ⟨hrun, hstate⟩ := Bool.and_eq_true_iff.mp hclose
      exact h.close hrun (of_decide_eq_true hstate)
    · cases hact
  · cases hact
  · next hnot =>
    split at hact
    · next hresumable =>
      cases hact
      exact h.start hresumable hcareful
    · cases hact
  · cases hact
    exact .of_driver h.base trivial
  · next c _ _ _ hdriver =>
    split at hact
    · next seat hseat =>
      split at hact
      · next call hcall => exact h.callStep hdriver hcall hseat hcareful hact
      · cases hact
    · exact h.loopStep hdriver hcareful hact
  · cases hact

end

theorem sound_initial (plan : Plan) : Sound plan World.initial := by
  refine ⟨?_, trivial⟩
  constructor
  case keys => exact fun key hne => absurd rfl hne
  case record => exact nofun
  case standing => exact nofun
  case counted => exact .still (fun _ => rfl) rfl
  case whole => exact fun _ r => .inl nofun
  case passed => exact nofun
  case again => rfl

/-- **A reviewed pass is a pass of the last work**, in every run that does not reach the defect. -/
theorem passes_last_work {plan : Plan} {w : World}
    (hrun : ActRun (World.act plan) (fun w => w = World.initial) (fun w a => careful plan w a = true) w) :
    PassHolds plan w := by
  have hsound : Sound plan w := by
    refine ActRun.invariant ?_ ?_ hrun
    · rintro w rfl
      exact sound_initial plan
    · exact fun h hcareful hact => h.act (h.base.careful hcareful) hact
  exact hsound.passHolds

/-! ### Runs -/

namespace Sample

def plan : Plan where
  producer := "producer"
  checkers := ["reviewer"]
  hasVerify := true
  maxRounds := 2
  maxRounds_pos := by decide
  nodup := by decide
  verify_not_mem := by decide

def firstRound : List Act :=
  [.start, .enter true, .prepare "producer", .dispatch "producer", .close ("producer", 1) (.settled (some ⟨.pass, none⟩)),
    .commit "producer", .record "producer" none false, .produced, .prepare "reviewer", .dispatch "reviewer", .verifyStart,
    .close ("reviewer", 1) (.settled (some ⟨.pass, none⟩)), .record "reviewer" none false, .verifyEnd false none, .conclude]

def secondRound : List Act :=
  [.enter true, .prepare "producer", .dispatch "producer", .close ("producer", 2) (.settled (some ⟨.pass, none⟩)),
    .commit "producer", .record "producer" none false, .produced, .prepare "reviewer", .dispatch "reviewer", .verifyStart,
    .close ("reviewer", 2) (.settled (some ⟨.pass, none⟩)), .record "reviewer" none false, .verifyEnd true none, .conclude]

/-- The controller goes away while the producer works in the second round; the first is judged again, and the verify
command passes on what the producer has left by then. -/
def cutShort : List Act :=
  [.enter true, .prepare "producer", .dispatch "producer", .die, .close ("producer", 2) (.settled (some ⟨.pass, none⟩)),
    .start, .enter true, .verifyStart, .verifyEnd true none, .conclude]

def passed (w : World) : Bool :=
  match w.driver with
  | .ended .pass _ _ _ => true
  | _ => false

/-- How many launches of the producer there were, the rounds the verify command passed in, and how many launches had ended
when the reviewer was launched in the first round. -/
def seen (w : World) : ℕ × List ℕ × Option ℕ :=
  (w.launches.length, w.verified.map Verified.round, (w.lastRun ("reviewer", 1)).map Run.after)

end Sample

open Sample in
theorem second_round_passes : ∃ w, (firstRound ++ secondRound).foldlM (ActRun.actIf (World.act plan) (careful plan))
    World.initial = some w ∧ passed w = true ∧ PassHolds plan w := by
  have hpassed : ((firstRound ++ secondRound).foldlM (ActRun.actIf (World.act plan) (careful plan))
      World.initial).map passed = some true := by decide
  obtain ⟨w, hw, hpass⟩ := map_eq_some_iff.mp hpassed
  exact ⟨w, hw, hpass, passes_last_work (ActRun.of_foldlM _ (.start rfl) hw)⟩

open Sample in
/-- A run that is cut in the second round ends in a pass of the first one, where the reviewer did not see the last work. -/
theorem cut_short_passes_earlier_work :
    ∃ w, ActRun (World.act plan) (fun w => w = World.initial) (fun _ _ => True) w ∧ ¬ PassHolds plan w := by
  have hrun : ((firstRound ++ cutShort).foldlM (World.act plan) World.initial).map (fun w => (passed w, seen w)) =
      some (true, 2, [1], some 1) := by decide
  obtain ⟨w, hw, heq⟩ := map_eq_some_iff.mp hrun
  obtain ⟨hpassed, hseen⟩ := Prod.mk.inj heq
  obtain ⟨hlaunches, hseen⟩ := Prod.mk.inj hseen
  obtain ⟨hverified, hafter⟩ := Prod.mk.inj hseen
  refine ⟨w, ActRun.of_acts _ (fun _ _ _ => trivial) (.start rfl) hw, fun hholds => ?_⟩
  rw [passed] at hpassed
  split at hpassed
  · next rounds results findings hended =>
    obtain ⟨r, hcheckers, hverify⟩ := hholds.pass rounds results findings hended
    obtain ⟨v, hv, hround, _⟩ := hverify rfl
    have hr : r = 1 := by
      have hmem := List.mem_map_of_mem (f := Verified.round) hv
      rw [hverified, hround] at hmem
      exact mem_singleton.mp hmem
    obtain ⟨a, run, settled, hlast, _, hlastRun, _, _, hfresh⟩ := hcheckers "reviewer" mem_cons_self
    rw [hr] at hlast
    rw [lastRun_eq_some.mpr ⟨a, hlast, hlastRun⟩] at hafter
    have hafter : run.after = 1 := some.inj hafter
    omega
  · cases hpassed

end Forgent.Execution.Reviewed
