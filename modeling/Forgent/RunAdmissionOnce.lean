import Forgent.RunAdmissionSteps

/-!
# One admission at a time

In every run of admissions on one assignment the generations are numbered upwards, each retry id has one of them, an attempt
directory shows up whole, and an attempt that is followed by another one was not busy when the later one was decided on.
-/

namespace Forgent.Admission

open List Option

variable {assignmentId : String} {s s' : Disk} {args : Args} {input : Input} {phase phase' : Phase}

/-! ### The ledger -/

theorem Ledger.later (hs : Ledger assignmentId s) (h : Later s s') (hgenerations : s'.generations = s.generations)
    (hlooked : s'.looked = s.looked) (hstamped : ∀ name st, s'.stagings name = some st → name < s'.stamp) :
    Ledger assignmentId s' where
  ordered := hgenerations ▸ hs.ordered
  named := hgenerations ▸ hs.named
  bound := hgenerations ▸ hs.bound
  looked n := by
    rw [hlooked]
    exact Nat.le_trans (hs.looked n) (h.takeups n)
  passed g hg heq := by
    rw [hgenerations] at hg
    rw [hlooked] at heq
    have hlow := hs.looked g.attemptStr
    have hgrow := h.takeups g.attemptStr
    exact h.not_busy (by omega) (hs.passed g hg (by omega))
  stamped := hstamped

/-- A generation that is installed follows all that the call listed, and those are all there are. -/
theorem Ledger.installed (hs : Ledger assignmentId s) (hassignment : args.assignmentId = assignmentId) {draft : Draft}
    (hfacts : Facts s args (.installing draft)) (hlength : s.generations.length ≤ draft.listed.length) :
    Ledger assignmentId (installed s draft) := by
  obtain ⟨hdrafted, hlook⟩ := hfacts
  have hall : draft.listed = s.generations := hdrafted.prefix_.eq_of_length_le hlength
  refine ⟨?_, fun g hg => ?_, ?_, fun n => ?_, fun g hg heq => ?_, hs.stamped⟩
  · refine pairwise_append.mpr ⟨hs.ordered, pairwise_singleton _ _, fun g hg r hr => ?_⟩
    rw [mem_singleton.mp hr]
    exact hdrafted.above g (hall ▸ hg)
  · cases mem_append.mp hg with
    | inl hold => exact hs.named g hold
    | inr hnew =>
      rw [mem_singleton.mp hnew, hdrafted.record]
      exact ⟨rfl, congrArg (runIdOf · _) hassignment⟩
  · refine pairwise_append.mpr ⟨hs.bound, pairwise_singleton _ _, fun g hg r hr retryId hretry heq => ?_⟩
    rw [mem_singleton.mp hr, hdrafted.record] at heq
    exact hdrafted.unbound retryId heq g (hall ▸ hg) hretry
  · show (if (draft.listed.getLast?).any (·.attemptStr = n) then draft.look else s.looked n) ≤ s.takeups n
    cases hlast : draft.listed.getLast? with
    | none => exact hs.looked n
    | some current =>
      rw [any_some]
      split
      · next heq => exact of_decide_eq_true heq ▸ (hlook current hlast).1
      · exact hs.looked n
  · have hg' : g ∈ s.generations := by
      have hdropped : (s.generations ++ [draft.record]).dropLast = s.generations := dropLast_concat
      rw [← hdropped]
      exact hg
    have heq' : s.takeups g.attemptStr =
        if (draft.listed.getLast?).any (·.attemptStr = g.attemptStr) then draft.look else s.looked g.attemptStr := heq
    cases hlast : s.generations.getLast? with
    | none =>
      rw [getLast?_eq_none_iff.mp hlast] at hg'
      cases hg'
    | some current =>
      obtain ⟨before, hsplit⟩ := getLast?_eq_some_iff.mp hlast
      rw [hall, hlast, any_some] at heq'
      rw [hsplit] at hg'
      cases mem_append.mp hg' with
      | inr hself =>
        rw [mem_singleton.mp hself] at heq' ⊢
        rw [if_pos (decide_eq_true rfl)] at heq'
        exact (hlook current (hall ▸ hlast)).2 heq'
      | inl hbefore =>
        -- an earlier generation lies in another directory
        have hlt : g.attempt < current.attempt :=
          (pairwise_append.mp (hsplit ▸ hs.ordered)).2.2 g hbefore current mem_cons_self
        have hne : current.attemptStr ≠ g.attemptStr := by
          rw [(hs.named current (mem_of_getLast? hlast)).1, (hs.named g (hsplit ▸ mem_append_left _ hbefore)).1]
          intro hsame
          have hattempt := attemptStr_injective hsame
          omega
        rw [if_neg (by rw [decide_eq_true_iff]; exact hne)] at heq'
        refine hs.passed g ?_ heq'
        rw [hsplit, dropLast_concat]
        exact hbefore

theorem next_ledger (hs : Ledger assignmentId s) (hassignment : args.assignmentId = assignmentId)
    (hfacts : Facts s args phase) (h : next input s args phase = some (s', phase')) : Ledger assignmentId s' := by
  have hlater := next_later h
  by_cases hreads : phase.reads = true
  · exact next_reads hreads h ▸ hs
  · cases phase with
    | installing draft =>
      rcases next_installing h with ⟨rfl, -⟩ | ⟨hlength, rfl, -⟩
      · exact hs
      · exact hs.installed hassignment hfacts hlength
    | cleaning record =>
      rcases next_cleaning h with ⟨rfl, -⟩ | ⟨name, st, -, -, -, rfl, -⟩
      · exact hs
      · refine hs.later hlater rfl rfl fun n st' hst' => ?_
        rw [stagings_setStaging] at hst'
        split at hst'
        · cases hst'
        · exact hs.stamped n st' hst'
    | staging record =>
      obtain ⟨rfl, -⟩ := read_eq h
      refine hs.later hlater rfl rfl fun n st' hst' => ?_
      have hst'' : (if n = s.stamp then _ else s.stagings n) = some st' := hst'
      show n < s.stamp + 1
      split at hst''
      · omega
      · have hlt := hs.stamped n st' hst''
        omega
    | publishing record name =>
      have hstamped : ∀ n st', (s.setStaging name none).stagings n = some st' → n < s.stamp := fun n st' hst' => by
        rw [stagings_setStaging] at hst'
        split at hst'
        · cases hst'
        · exact hs.stamped n st' hst'
      rcases next_publishing h with ⟨rfl, -⟩ | ⟨-, st, d, -, -, rfl, -⟩
      · exact hs.later hlater rfl rfl hstamped
      · exact hs.later hlater rfl rfl hstamped
    | runMeta record name | dispatchPlan record name | effectiveContract record name => exact staged_ledger hs hlater h
    | _ => exact absurd rfl hreads
where
  staged_ledger {s s' : Disk} (hs : Ledger assignmentId s) (hlater : Later s s') {name : ℕ} {f : Staging → Staging}
      {phase₁ phase' : Phase}
      (h : ((s.stagings name).map fun st => (s.setStaging name (some (f st)), phase₁)) = some (s', phase')) :
      Ledger assignmentId s' := by
    obtain ⟨st, hst, rfl, -⟩ := next_staged h
    refine hs.later hlater rfl rfl fun n st' hst' => ?_
    rw [stagings_setStaging] at hst'
    split at hst'
    · next heq => exact heq ▸ hs.stamped name st hst
    · exact hs.stamped n st' hst'

/-! ### What a call knows after its step -/

theorem priorFor_cases (args : Args) (listed : List Record) :
    (priorFor args listed = none ∧ ∀ retryId, args.retryId = some retryId → ∀ g ∈ listed, g.retryId ≠ some retryId) ∨
      ∃ prior ∈ listed, args.retryId.isSome = true ∧ prior.retryId = args.retryId ∧ priorFor args listed = some
        (if prior.destination = args.destination ∧ prior.admissionPayloadDigest = args.payloadDigest then .placing true prior
          else .done .duplicateRetry) := by
  unfold priorFor
  cases hretry : args.retryId with
  | none => exact .inl ⟨rfl, fun retryId h => by cases h⟩
  | some retryId =>
    cases hfind : listed.find? fun g => g.retryId = some retryId with
    | none =>
      refine .inl ⟨by rw [bind_some, hfind, map_none], fun r hr g hg heq => ?_⟩
      cases hr
      exact find?_eq_none.mp hfind g hg (decide_eq_true heq)
    | some prior =>
      have hprior := find?_some hfind
      refine .inr ⟨prior, mem_of_find?_eq_some hfind, rfl, of_decide_eq_true hprior, ?_⟩
      rw [bind_some, hfind, map_some]

theorem decision_cases (args : Args) (input : Input) (listed : List Record) :
    (∃ runId, decision args input listed = .done (.invalidPredecessor runId)) ∨
      decision args input listed = .settled listed (newRecord args (attemptNumber input listed)) := by
  unfold decision
  split
  · exact .inl ⟨_, rfl⟩
  · dsimp only
    split
    · exact .inl ⟨_, rfl⟩
    · exact .inr rfl

theorem dead_of_not_busy {dead : Bool} (h : (!dead) = false) : dead = true := by
  cases dead with
  | true => rfl
  | false => cases h

theorem next_facts (htrue : input.Truthful s phase)
    (hfacts : Facts s args phase) (h : next input s args phase = some (s', phase')) : Facts s' args phase' := by
  have hlater := next_later h
  cases phase with
  | marker =>
    obtain ⟨-, rfl⟩ := read_eq h
    split
    · exact trivial
    · exact trivial
  | listing =>
    obtain ⟨rfl, rfl⟩ := read_eq h
    have hsub : s.listGenerations <+: s.generations := take_prefix _ _
    rcases priorFor_cases args s.listGenerations with ⟨hnone, hunbound⟩ | ⟨prior, hprior, hsome, hretry, heq⟩
    · rw [hnone]
      exact ⟨hsub, hunbound⟩
    · rw [heq, getD_some]
      split
      · next hsame => exact ⟨hsub.subset hprior, hretry, hsame.1, hsame.2⟩
      · next hother => exact ⟨prior, hsub.subset hprior, hsome, hretry, hother⟩
  | numbering listed =>
    obtain ⟨rfl, rfl⟩ := read_eq h
    rcases decision_cases args input listed with ⟨runId, heq⟩ | heq
    · rw [heq]
      exact trivial
    · rw [heq]
      exact ⟨hfacts, fun g hg => lt_attemptNumber input hg, rfl⟩
  | settled listed record =>
    have hs := next_reads rfl h
    subst hs
    have hdrafted : Drafted s' args listed record := hfacts
    simp only [next] at h
    split at h
    · next hnone =>
      obtain ⟨-, rfl⟩ := read_eq h
      exact ⟨hdrafted, fun current hcurrent => by rw [hnone] at hcurrent; cases hcurrent⟩
    · next current hcurrent =>
      split at h
      · next hresult =>
        obtain ⟨-, rfl⟩ := read_eq h
        split
        · exact trivial
        · refine ⟨hdrafted, fun c hc => ?_⟩
          obtain rfl := some.inj (hcurrent.symm.trans hc)
          exact ⟨Nat.le_refl _, fun _ hbusy => hbusy.1 hresult⟩
      · obtain ⟨-, rfl⟩ := read_eq h
        exact ⟨hdrafted, hcurrent, Nat.le_refl _, fun _ => trivial⟩
  | control draft current =>
    have hs := next_reads rfl h
    subst hs
    have hlooked : Looked s' args draft current True := hfacts
    simp only [next] at h
    split at h
    · next hnone =>
      obtain ⟨-, rfl⟩ := read_eq h
      exact ⟨hlooked.toDrafted, hlooked.isCurrent, hlooked.look, fun _ c hc => by rw [hnone] at hc; cases hc⟩
    · next control hcontrol =>
      obtain ⟨-, rfl⟩ := read_eq h
      split
      · next hsettled =>
        refine fun _ => ⟨hlooked.toDrafted, hlooked.isCurrent, hlooked.look, fun _ => ⟨?_, fun hnone => ?_⟩⟩
        · intro hheld
          obtain ⟨c, hc, hunsettled, -⟩ := hheld
          rw [some.inj (hc.symm.trans hcontrol), hsettled] at hunsettled
          cases hunsettled
        · rw [hnone] at hcontrol
          cases hcontrol
      · refine ⟨hlooked.toDrafted, hlooked.isCurrent, hlooked.look, fun _ => ⟨?_, fun c hc => ?_⟩⟩
        · rw [hcontrol]
          exact some_ne_none control
        · exact .inr (some.inj (hc.symm.trans hcontrol))
  | releases draft current control =>
    obtain ⟨rfl, rfl⟩ := read_eq h
    have hlooked : Looked s args draft current
      (s.control current ≠ none ∧ ∀ c, s.control current = some c → c.settled = true ∨ c = control) := hfacts
    split
    · next hreleased =>
      refine fun _ => ⟨hlooked.toDrafted, hlooked.isCurrent, hlooked.look, fun heq => ⟨?_, fun hnone => ?_⟩⟩
      · intro hheld
        obtain ⟨c, hc, hunsettled, hunreleased, -⟩ := hheld
        cases (hlooked.sees heq).2 c hc with
        | inl hsettled =>
          rw [hsettled] at hunsettled
          cases hunsettled
        | inr hsame =>
          rw [hsame, hreleased] at hunreleased
          cases hunreleased
      · exact absurd hnone (hlooked.sees heq).1
    · exact hlooked
  | holder draft current control =>
    obtain ⟨rfl, rfl⟩ := read_eq h
    have hlooked : Looked s args draft current
      (s.control current ≠ none ∧ ∀ c, s.control current = some c → c.settled = true ∨ c = control) := hfacts
    intro hbusy
    refine ⟨hlooked.toDrafted, hlooked.isCurrent, hlooked.look, fun heq => ⟨?_, fun hnone => ?_⟩⟩
    · intro hheld
      obtain ⟨c, hc, hunsettled, -, halive⟩ := hheld
      cases (hlooked.sees heq).2 c hc with
      | inl hsettled =>
        rw [hsettled] at hunsettled
        cases hunsettled
      | inr hsame =>
        rw [hsame, htrue (dead_of_not_busy hbusy)] at halive
        cases halive
    · exact absurd hnone (hlooked.sees heq).1
  | admitter draft current =>
    obtain ⟨rfl, rfl⟩ := read_eq h
    have hlooked : Looked s args draft current (∀ c, s.control current = some c → c.settled = true) := hfacts
    intro hbusy
    refine ⟨hlooked.toDrafted, hlooked.isCurrent, hlooked.look, fun heq => ⟨?_, fun _ => htrue (dead_of_not_busy hbusy)⟩⟩
    intro hheld
    obtain ⟨c, hc, hunsettled, -⟩ := hheld
    rw [hlooked.sees heq c hc] at hunsettled
    cases hunsettled
  | supervisor draft current busy =>
    obtain ⟨rfl, rfl⟩ := read_eq h
    split
    · exact trivial
    · next hfree =>
      rw [Bool.or_eq_true, not_or, Bool.not_eq_true, Bool.not_eq_true] at hfree
      have hlooked := hfacts hfree.1
      refine ⟨hlooked.toDrafted, fun c hc => ?_⟩
      obtain rfl := some.inj (hlooked.isCurrent.symm.trans hc)
      refine ⟨hlooked.look, fun heq => (hlooked.sees heq).not_busy fun hworking => ?_⟩
      have hstopped : input.stopped = true := by
        have hprobe := hfree.2
        unfold stillWorking at hprobe
        rw [show (s.runs current.attemptStr).bind (·.supervisor) = some true from hworking] at hprobe
        simpa using hprobe
      exact htrue hstopped hworking
  | installing draft =>
    rcases next_installing h with ⟨-, rfl⟩ | ⟨-, rfl, rfl⟩
    · exact trivial
    · have hrecord := hfacts.1.record
      refine ⟨mem_append_right _ mem_cons_self, ?_, ?_, ?_⟩
      · rw [hrecord]
        rfl
      · rw [hrecord]
        rfl
      · rw [hrecord]
        rfl
  | placing duplicate record =>
    obtain ⟨rfl, rfl⟩ := read_eq h
    split
    · exact hfacts
    · exact hfacts
  | cleaning record =>
    rcases next_cleaning h with ⟨-, rfl | rfl⟩ | ⟨name, st, -, -, -, -, rfl⟩
    · exact Granted.later hlater hfacts
    · exact Granted.later hlater hfacts
    · exact Granted.later hlater hfacts
  | staging record =>
    obtain ⟨-, rfl⟩ := read_eq h
    exact Granted.later hlater hfacts
  | runMeta record name | dispatchPlan record name | effectiveContract record name =>
    obtain ⟨st, -, -, rfl⟩ := next_staged h
    exact Granted.later hlater hfacts
  | publishing record name =>
    rcases next_publishing h with ⟨-, rfl⟩ | ⟨-, st, d, -, -, -, rfl⟩
    · exact Granted.later hlater hfacts
    · exact Granted.later hlater hfacts
  | done answer => cases h

/-! ### Staging directories -/

theorem staged_priorFor (args : Args) (listed l : List Record) : staged args ((priorFor args listed).getD (.numbering l)) = none := by
  rcases priorFor_cases args listed with ⟨hnone, -⟩ | ⟨prior, -, -, -, heq⟩
  · rw [hnone]
    rfl
  · rw [heq, getD_some]
    split
    · rfl
    · rfl

theorem staged_of_reads (hreads : phase.reads = true) (h : next input s args phase = some (s', phase')) :
    staged args phase' = none := by
  cases phase with
  | marker | releases draft current control | supervisor draft current busy | placing duplicate record =>
    obtain ⟨-, rfl⟩ := read_eq h
    split
    · rfl
    · rfl
  | listing =>
    obtain ⟨-, rfl⟩ := read_eq h
    exact staged_priorFor args _ _
  | numbering listed =>
    obtain ⟨-, rfl⟩ := read_eq h
    rcases decision_cases args input listed with ⟨runId, heq⟩ | heq
    · rw [heq]
      rfl
    · rw [heq]
      rfl
  | settled listed record =>
    simp only [next] at h
    split at h
    · obtain ⟨-, rfl⟩ := read_eq h
      rfl
    · split at h
      · obtain ⟨-, rfl⟩ := read_eq h
        split
        · rfl
        · rfl
      · obtain ⟨-, rfl⟩ := read_eq h
        rfl
  | control draft current =>
    simp only [next] at h
    split at h
    · obtain ⟨-, rfl⟩ := read_eq h
      rfl
    · obtain ⟨-, rfl⟩ := read_eq h
      split
      · rfl
      · rfl
  | holder draft current control | admitter draft current =>
    obtain ⟨-, rfl⟩ := read_eq h
    rfl
  | done answer => cases h
  | installing draft | cleaning record | staging record | runMeta record name | dispatchPlan record name
  | effectiveContract record name | publishing record name => cases hreads

theorem next_staged_cases (h : next input s args phase = some (s', phase')) {name : ℕ} {st : Staging}
    (hst : staged args phase' = some (name, st)) :
    (name = s.stamp ∧ s'.stamp = s.stamp + 1 ∧ s'.stagings name = some st) ∨
      ∃ st₀, staged args phase = some (name, st₀) ∧ s'.stamp = s.stamp ∧ (s.stagings name = some st₀ → s'.stagings name = some st) := by
  by_cases hreads : phase.reads = true
  · rw [staged_of_reads hreads h] at hst
    cases hst
  · cases phase with
    | installing draft =>
      rcases next_installing h with ⟨-, rfl⟩ | ⟨-, -, rfl⟩
      · cases hst
      · cases hst
    | cleaning record =>
      rcases next_cleaning h with ⟨-, rfl | rfl⟩ | ⟨n, st', -, -, -, -, rfl⟩
      · cases hst
      · cases hst
      · cases hst
    | staging record =>
      obtain ⟨rfl, rfl⟩ := read_eq h
      cases hst
      exact .inl ⟨rfl, rfl, if_pos rfl⟩
    | runMeta record n | dispatchPlan record n | effectiveContract record n =>
      obtain ⟨st', hst', rfl, rfl⟩ := next_staged h
      cases hst
      refine .inr ⟨_, rfl, rfl, fun hbefore => ?_⟩
      obtain rfl := some.inj (hst'.symm.trans hbefore)
      exact if_pos rfl
    | publishing record n =>
      rcases next_publishing h with ⟨-, rfl⟩ | ⟨-, st', d, -, -, -, rfl⟩
      · cases hst
      · cases hst
    | _ => exact absurd rfl hreads

/-- A step of another call leaves the staging directory of a live process alone. -/
theorem next_others (htrue : input.Truthful s phase) (h : next input s args phase = some (s', phase'))
    {name owner : ℕ} {st : Staging} (hst : s.stagings name = some st) (howner : st.owner = some owner) (halive : s.dead owner = false)
    (hstamp : name < s.stamp) (hother : ∀ st', staged args phase ≠ some (name, st')) : s'.stagings name = some st := by
  by_cases hreads : phase.reads = true
  · rw [next_reads hreads h]
    exact hst
  · have hset : ∀ {n : ℕ} {st' : Option Staging}, name ≠ n → (s.setStaging n st').stagings name = some st := fun hne => by
      rw [stagings_setStaging, if_neg hne]
      exact hst
    cases phase with
    | installing draft =>
      rcases next_installing h with ⟨rfl, -⟩ | ⟨-, rfl, -⟩
      · exact hst
      · exact hst
    | cleaning record =>
      rcases next_cleaning h with ⟨rfl, -⟩ | ⟨n, st', habandoned, hst', hab, rfl, -⟩
      · exact hst
      · refine hset fun heq => ?_
        subst heq
        obtain rfl := some.inj (hst.symm.trans hst')
        simp only [isAbandoned, howner, Bool.and_eq_true] at hab
        rw [htrue name habandoned st hst owner howner hab.2.1] at halive
        cases halive
    | staging record =>
      obtain ⟨rfl, -⟩ := read_eq h
      exact hset (Nat.ne_of_lt hstamp)
    | runMeta record n | dispatchPlan record n | effectiveContract record n =>
      obtain ⟨st', -, rfl, -⟩ := next_staged h
      exact hset fun heq => by
        subst heq
        exact hother _ rfl
    | publishing record n =>
      have hne : name ≠ n := fun heq => by
        subst heq
        exact hother _ rfl
      rcases next_publishing h with ⟨rfl, -⟩ | ⟨-, st', d, -, -, rfl, -⟩
      · exact hset hne
      · exact hset hne
    | _ => exact absurd rfl hreads

/-! ### Every run -/

theorem dead_of_later (h : Later s s') {p : ℕ} (halive : s'.dead p = false) : s.dead p = false :=
  Bool.eq_false_iff.mpr fun hdead => by
    rw [h.dead p hdead] at halive
    cases halive

theorem happen_eq (s : Disk) (event : Event) : (s.happen event).generations = s.generations ∧ (s.happen event).looked = s.looked ∧
    (s.happen event).stagings = s.stagings ∧ (s.happen event).stamp = s.stamp := by
  have hchange : ∀ (n : String) (f : RunDir → RunDir), (s.changeRun n f).generations = s.generations ∧
      (s.changeRun n f).looked = s.looked ∧ (s.changeRun n f).stagings = s.stagings ∧ (s.changeRun n f).stamp = s.stamp := by
    intro n f
    unfold Disk.changeRun
    split
    · exact ⟨rfl, rfl, rfl, rfl⟩
    · exact ⟨rfl, rfl, rfl, rfl⟩
  have htake : ∀ (n : String) (f : RunDir → RunDir), (s.takeUp n f).generations = s.generations ∧
      (s.takeUp n f).looked = s.looked ∧ (s.takeUp n f).stagings = s.stagings ∧ (s.takeUp n f).stamp = s.stamp := by
    intro n f
    unfold Disk.takeUp
    split
    · exact ⟨rfl, rfl, rfl, rfl⟩
    · exact ⟨rfl, rfl, rfl, rfl⟩
  cases event with
  | ends process | abort retryId => exact ⟨rfl, rfl, rfl, rfl⟩
  | rewrite n built | release n | settle n | result n | stop n => exact hchange n _
  | take n holder => exact htake n _
  | start n => exact htake n _

theorem admission_exclusion (assignmentId : String) :
    (admission assignmentId).Exclusion (Ledger assignmentId) (Known assignmentId) Apart where
  symm h := h.symm
  begins {s k} _ hbegins := by
    have hnone : staged k.args k.phase = none := by
      rw [hbegins.2]
      split
      · rfl
      · rfl
    refine ⟨⟨hbegins.1, ?_, fun name st hst => ?_⟩, fun l _ name st st' hst => ?_⟩
    · rw [hbegins.2]
      split
      · exact trivial
      · exact trivial
    · rw [hnone] at hst
      cases hst
    · rw [hnone] at hst
      cases hst
  step {s k s' k'} hinv hk hstep := by
    obtain ⟨input, htrue, halive, hargs, hnext⟩ := hstep
    have hlater := next_later hnext
    refine ⟨next_ledger hinv hk.assignment hk.facts hnext, ⟨hargs ▸ hk.assignment, hargs ▸ next_facts htrue hk.facts hnext,
      fun name st hst => ?_⟩, fun l hl hapart => ⟨⟨hl.assignment, hl.facts.later hlater, fun name st hst => ?_⟩,
      fun name st st' hst hst' => ?_⟩⟩
    · rw [hargs] at hst ⊢
      rcases next_staged_cases hnext hst with ⟨rfl, hstamp, hmade⟩ | ⟨st₀, hst₀, hstamp, hkept⟩
      · exact ⟨by omega, fun _ => hmade⟩
      · obtain ⟨hlt, hown⟩ := hk.own name st₀ hst₀
        exact ⟨by omega, fun _ => hkept (hown halive)⟩
    · obtain ⟨hlt, hown⟩ := hl.own name st hst
      refine ⟨Nat.lt_of_lt_of_le hlt hlater.stamp, fun hlive => ?_⟩
      have hlive' := dead_of_later hlater hlive
      exact next_others htrue hnext (hown hlive') (staged_owner hst) hlive' hlt fun st' hst' => hapart name st' st hst' hst
    · rw [hargs] at hst
      rcases next_staged_cases hnext hst with ⟨rfl, -, -⟩ | ⟨st₀, hst₀, -, -⟩
      · exact Nat.lt_irrefl _ (hl.own _ st' hst').1
      · exact hapart name st₀ st' hst₀ hst'
  around {s s'} hinv haround := by
    obtain ⟨event, rfl⟩ := haround
    have hlater := Later.happen s event
    obtain ⟨hgenerations, hlooked, hstagings, hstamp⟩ := happen_eq s event
    refine ⟨hinv.later hlater hgenerations hlooked fun name st hst => ?_, fun l hl => ⟨hl.assignment, hl.facts.later hlater,
      fun name st hst => ?_⟩⟩
    · rw [hstamp]
      exact hinv.stamped name st (hstagings ▸ hst)
    · obtain ⟨hlt, hown⟩ := hl.own name st hst
      rw [hstamp, hstagings]
      exact ⟨hlt, fun hlive => hown (dead_of_later hlater hlive)⟩

open Interleave

theorem initial_ledger (assignmentId : String) : Ledger assignmentId initial.store where
  ordered := List.Pairwise.nil
  named g hg := by cases hg
  bound := List.Pairwise.nil
  looked _ := Nat.le_refl _
  passed g hg := by cases hg
  stamped name st hst := by cases hst

theorem initial_excluded (assignmentId : String) : Excluded (Ledger assignmentId) (Known assignmentId) Apart initial where
  outlined := ⟨initial_ledger assignmentId, fun k hk => by cases hk⟩
  apart {i j k l} _ hk := by cases hk

theorem next_world {w w' : World Disk Call} (h : (admission assignmentId).Next w w') : Later w.store w'.store := by
  cases h with
  | begin hbegins => exact Later.refl _
  | step hcall hstep =>
    obtain ⟨input, -, -, -, hnext⟩ := hstep
    exact next_later hnext
  | around haround =>
    obtain ⟨event, heq⟩ := haround
    exact heq ▸ Later.happen _ event

theorem generations_run {w w' : World Disk Call} (hrun : (admission assignmentId).Run w w') :
    w.store.generations <+: w'.store.generations := by
  induction hrun with
  | refl => exact prefix_refl _
  | tail _ hnext ih => exact ih.trans (next_world hnext).generations

end Forgent.Admission
