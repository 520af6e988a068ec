import Forgent.RunAdmissionOnce

/-!
# Retries of an admission

A call that begins after a generation of its retry id is there gets that generation back, or it is refused; and what every run
of admissions keeps, in one statement.
-/

namespace Forgent.Admission

open Interleave List Option

variable {assignmentId : String} {s s' : Disk} {args : Args} {input : Input} {g : Record} {retryId : String}

/-! ### A call that repeats a retry id -/

/-- Whether a call asks for what a generation was admitted for. -/
def SameTuple (args : Args) (g : Record) : Prop := g.destination = args.destination ∧ g.admissionPayloadDigest = args.payloadDigest

/-- Where a call can be that begins when the generation of its retry id is there. -/
def Repeats (args : Args) (g : Record) : Phase → Prop
  | .marker => True
  | .listing => True
  | .placing duplicate record => duplicate = true ∧ record = g ∧ SameTuple args g
  | .cleaning record => record = g ∧ SameTuple args g
  | .staging record => record = g ∧ SameTuple args g
  | .runMeta record _ => record = g ∧ SameTuple args g
  | .dispatchPlan record _ => record = g ∧ SameTuple args g
  | .effectiveContract record _ => record = g ∧ SameTuple args g
  | .publishing record _ => record = g ∧ SameTuple args g
  | .done (.attempt record _) => record = g ∧ SameTuple args g
  | .done .duplicateRetry => ¬SameTuple args g
  | .done .aborted => True
  | _ => False

theorem Ledger.bound_unique (hs : Ledger assignmentId s) {g' : Record} (hg : g ∈ s.generations) (hg' : g' ∈ s.generations)
    (hretry : g.retryId = some retryId) (hretry' : g'.retryId = some retryId) : g = g' := by
  have hsymm : Std.Symm fun a b : Record => ∀ retryId, a.retryId = some retryId → b.retryId ≠ some retryId :=
    ⟨fun a b h r hr hr' => h r hr' hr⟩
  by_contra hne
  exact hs.bound.forall hg hg' hne retryId hretry hretry'

theorem repeats_next (hs : Ledger assignmentId s) (hg : g ∈ s.generations)
    (hretry : g.retryId = some retryId) (hargs : args.retryId = some retryId) (hlength : s.generations.length ≤ maxListed)
    {phase phase' : Phase} (hphase : Repeats args g phase) (h : next input s args phase = some (s', phase')) :
    Repeats args g phase' := by
  cases phase with
  | marker =>
    obtain ⟨-, rfl⟩ := read_eq h
    split
    · exact trivial
    · exact trivial
  | listing =>
    obtain ⟨-, rfl⟩ := read_eq h
    have hlisted : s.listGenerations = s.generations := take_of_length_le hlength
    rcases priorFor_cases args s.listGenerations with ⟨-, hunbound⟩ | ⟨prior, hprior, -, hsame, heq⟩
    · exact absurd hretry (hunbound retryId hargs g (hlisted ▸ hg))
    · obtain rfl : g = prior := hs.bound_unique hg (hlisted ▸ hprior) hretry (hsame.trans hargs)
      rw [heq, getD_some]
      split
      · next htuple => exact ⟨rfl, rfl, htuple⟩
      · next hother => exact hother
  | placing duplicate record =>
    obtain ⟨hduplicate, hrecord⟩ := hphase
    obtain ⟨-, rfl⟩ := read_eq h
    split
    · exact hrecord
    · exact hrecord
  | cleaning record =>
    rcases next_cleaning h with ⟨-, rfl | rfl⟩ | ⟨name, st, -, -, -, -, rfl⟩
    · exact hphase
    · exact hphase
    · exact hphase
  | staging record =>
    obtain ⟨-, rfl⟩ := read_eq h
    exact hphase
  | runMeta record name | dispatchPlan record name | effectiveContract record name =>
    obtain ⟨st, -, -, rfl⟩ := next_staged h
    exact hphase
  | publishing record name =>
    rcases next_publishing h with ⟨-, rfl⟩ | ⟨-, st, d, -, -, -, rfl⟩
    · exact hphase
    · exact hphase
  | done answer => cases h
  | numbering listed | settled listed record | control draft current | releases draft current control
  | holder draft current control | admitter draft current | supervisor draft current busy | installing draft => exact hphase.elim

/-- Every call that begins in a run and repeats the retry id of a generation that was there before. -/
theorem repeats_run {w w' : World Disk Call} (hw : Excluded (Ledger assignmentId) (Known assignmentId) Apart w)
    (hrun : (admission assignmentId).Run w w') (hg : g ∈ w.store.generations)
    (hretry : g.retryId = some retryId) (hlength : w'.store.generations.length ≤ maxListed) {i : ℕ} {k : Call}
    (hi : w.calls.length ≤ i) (hk : w'.calls[i]? = some k) (hargs : k.args.retryId = some retryId) : Repeats k.args g k.phase := by
  induction hrun generalizing k with
  | refl =>
    rw [getElem?_eq_none hi] at hk
    cases hk
  | @tail u v hrun hnext ih =>
    have hgrow := (next_world hnext).generations
    have hlength' : u.store.generations.length ≤ maxListed := Nat.le_trans hgrow.length_le hlength
    have hu := (admission_exclusion assignmentId).run hw hrun
    have hgu : g ∈ u.store.generations := (generations_run hrun).subset hg
    cases hnext with
    | @begin s calls k₀ hbegins =>
      cases getElem?_append_singleton_cases hk with
      | inr hold => exact ih hlength' hold hargs
      | inl hnew =>
        rw [hnew.2, hbegins.2]
        split
        · exact trivial
        · exact trivial
    | @step s s' calls j k₀ k' hcall hstep =>
      cases getElem?_set_cases hk with
      | inr hold => exact ih hlength' hold.2 hargs
      | inl hself =>
        obtain ⟨hji, rfl⟩ := hself
        obtain ⟨input, -, -, hsame, hstep⟩ := hstep
        have hargs₀ : k₀.args.retryId = some retryId := hsame ▸ hargs
        have hbefore := ih hlength' (hji ▸ hcall) hargs₀
        rw [hsame]
        exact repeats_next hu.outlined.1 hgu hretry hargs₀ hlength' hbefore hstep
    | around haround => exact ih hlength' hk hargs

/-! ### Whole directories -/

/-- An attempt directory shows up when a call publishes what it staged, with all its files. -/
theorem published_whole {w w' : World Disk Call} (hw : Excluded (Ledger assignmentId) (Known assignmentId) Apart w)
    (hnext : (admission assignmentId).Next w w') {n : String} {d : RunDir} (hnone : w.store.runs n = none)
    (hd : w'.store.runs n = some d) :
    ∃ k ∈ w.calls, ∃ g ∈ w.store.generations, g.attemptStr = n ∧ d = ⟨k.args.build g, false, none, [], none⟩ := by
  cases hnext with
  | begin hbegins =>
    rw [hnone] at hd
    cases hd
  | @around s s' calls haround =>
    obtain ⟨event, rfl⟩ := haround
    have hchange : ∀ (n' : String) (f : RunDir → RunDir) (s : Disk), s.runs n = none → (s.changeRun n' f).runs n = none := by
      intro n' f s hs
      unfold Disk.changeRun
      split
      · exact hs
      · next d' hd' =>
        rw [runs_setRun, if_neg (fun heq => by rw [heq, hd'] at hs; cases hs)]
        exact hs
    have htake : ∀ (n' : String) (f : RunDir → RunDir) (s : Disk), s.runs n = none → (s.takeUp n' f).runs n = none := by
      intro n' f s hs
      unfold Disk.takeUp
      split
      · exact hs
      · next d' hd' =>
        show (s.setRun n' (f d')).runs n = none
        rw [runs_setRun, if_neg (fun heq => by rw [heq, hd'] at hs; cases hs)]
        exact hs
    refine absurd hd ?_
    suffices h : (s.happen event).runs n = none by
      intro hd
      have hd' := h.symm.trans hd
      cases hd'
    cases event with
    | ends process | abort retryId => exact hnone
    | rewrite n' built | release n' | settle n' | result n' | stop n' => exact hchange n' _ _ hnone
    | take n' holder | start n' => exact htake n' _ _ hnone
  | @step s s' calls i k k' hcall hstep =>
    have hk := hw.of_call hcall
    obtain ⟨input, -, halive, -, hstep⟩ := hstep
    have hsame : s'.runs = s.runs ∨ ∃ record name, k.phase = .publishing record name := by
      by_cases hreads : k.phase.reads = true
      · exact .inl (by rw [next_reads hreads hstep])
      · revert hstep hreads
        generalize k.phase = phase
        intro hstep hreads
        cases phase with
        | installing draft =>
          rcases next_installing hstep with ⟨rfl, -⟩ | ⟨-, rfl, -⟩
          · exact .inl rfl
          · exact .inl rfl
        | cleaning record =>
          rcases next_cleaning hstep with ⟨rfl, -⟩ | ⟨name, st, -, -, -, rfl, -⟩
          · exact .inl rfl
          · exact .inl rfl
        | staging record =>
          obtain ⟨rfl, -⟩ := read_eq hstep
          exact .inl rfl
        | runMeta record name | dispatchPlan record name | effectiveContract record name =>
          obtain ⟨st, -, rfl, -⟩ := next_staged hstep
          exact .inl rfl
        | publishing record name => exact .inr ⟨record, name, rfl⟩
        | _ => exact absurd rfl hreads
    rcases hsame with hsame | ⟨record, name, hphase⟩
    · have hd' : s.runs n = some d := hsame ▸ hd
      rw [show s.runs n = none from hnone] at hd'
      cases hd'
    · rw [hphase] at hstep
      have hfacts : Granted s k.args record := by
        have hf := hk.facts
        rw [hphase] at hf
        exact hf
      rcases next_publishing hstep with ⟨rfl, -⟩ | ⟨-, st, d₀, hst, hpublished, rfl, -⟩
      · have hd' : s.runs n = some d := hd
        rw [show s.runs n = none from hnone] at hd'
        cases hd'
      · have hown := (hk.own name _ (by rw [hphase]; rfl)).2 halive
        obtain rfl := some.inj (hst.symm.trans hown)
        have hd' : (if n = record.attemptStr then some d₀ else s.runs n) = some d := hd
        split at hd'
        · next heq =>
          refine ⟨k, mem_of_getElem? hcall, record, hfacts.mem, heq.symm, ?_⟩
          rw [← some.inj hd']
          exact (some.inj hpublished).symm
        · rw [show s.runs n = none from hnone] at hd'
          cases hd'

/-! ### What every run keeps -/

/-- What holds of an assignment, whatever its admissions did so far. -/
structure OneAtATime (assignmentId : String) (w : World Disk Call) : Prop where
  ordered : w.store.generations.Pairwise fun g g' => g.attempt < g'.attempt ∧ g.runId ≠ g'.runId
  kept : ∀ w', (admission assignmentId).Run w w' → w.store.generations <+: w'.store.generations
  bound : w.store.generations.Pairwise fun g g' => ∀ retryId, g.retryId = some retryId → g'.retryId ≠ some retryId
  granted : ∀ k ∈ w.calls, ∀ record resumed, k.phase = .done (.attempt record resumed) →
    record ∈ w.store.generations ∧ record.retryId = k.args.retryId ∧ SameTuple k.args record
  repeated : ∀ w', (admission assignmentId).Run w w' → w'.store.generations.length ≤ maxListed → ∀ g ∈ w.store.generations,
    ∀ retryId, g.retryId = some retryId → ∀ i k answer, w.calls.length ≤ i → w'.calls[i]? = some k →
      k.args.retryId = some retryId → k.phase = .done answer →
        answer = .aborted ∨ (SameTuple k.args g ∧ ∃ resumed, answer = .attempt g resumed) ∨
          (¬SameTuple k.args g ∧ answer = .duplicateRetry)
  whole : ∀ w', (admission assignmentId).Next w w' → ∀ n d, w.store.runs n = none → w'.store.runs n = some d →
    ∃ k ∈ w.calls, ∃ g ∈ w.store.generations, g.attemptStr = n ∧ d = ⟨k.args.build g, false, none, [], none⟩
  passed : ∀ g ∈ w.store.generations.dropLast, w.store.Busy g → w.store.looked g.attemptStr < w.store.takeups g.attemptStr

theorem admission_one_at_a_time (assignmentId : String) {w : World Disk Call} (hrun : (admission assignmentId).Run initial w) :
    OneAtATime assignmentId w := by
  have hw := (admission_exclusion assignmentId).run (initial_excluded assignmentId) hrun
  obtain ⟨hledger, hknown⟩ := hw.outlined
  refine ⟨?_, fun w' hrun' => generations_run hrun', hledger.bound, fun k hk record resumed hdone => ?_,
    fun w' hrun' hlength g hg retryId hretry i k answer hi hk hargs hdone => ?_,
    fun w' hnext n d hnone hd => published_whole hw hnext hnone hd, fun g hg hbusy => ?_⟩
  · refine hledger.ordered.imp_of_mem fun {g g'} hg hg' hlt => ⟨hlt, fun hsame => ?_⟩
    rw [(hledger.named g hg).2, (hledger.named g' hg').2] at hsame
    have hdirs := runIdOf_injective hsame
    rw [(hledger.named g hg).1, (hledger.named g' hg').1] at hdirs
    have hattempt := attemptStr_injective hdirs
    omega
  · have hgranted : Granted w.store k.args record := by
      have hf := (hknown k hk).facts
      rw [hdone] at hf
      exact hf
    exact ⟨hgranted.mem, hgranted.retryId, hgranted.destination, hgranted.payloadDigest⟩
  · have hrepeats := repeats_run hw hrun' hg hretry hlength hi hk hargs
    rw [hdone] at hrepeats
    cases answer with
    | aborted => exact .inl rfl
    | attempt record resumed =>
      obtain ⟨rfl, htuple⟩ := hrepeats
      exact .inr (.inl ⟨htuple, resumed, rfl⟩)
    | duplicateRetry => exact .inr (.inr ⟨hrepeats, rfl⟩)
    | invalidPredecessor currentRunId | runInFlight priorRunId | runAlreadySettled priorRunId => exact hrepeats.elim
  · by_contra hnot
    have hlow := hledger.looked g.attemptStr
    exact hledger.passed g hg (by omega) hbusy

/-! ### A repeated admission beside a later attempt -/

namespace Sample

/-- The next thing that happens: a call begins, one of them takes a step, or the world moves. -/
inductive Move where
  | begin (args : Args)
  | step (i : ℕ)
  | event (e : Event)

/-- What every step is told: that whoever it asks about is gone, when it asks. -/
def told : Input := ⟨true, true, fun _ => false, fun _ => none, [], [], none⟩

def truthful (disk : Disk) : Phase → Bool
  | .holder _ _ control => disk.dead control.holder
  | .admitter _ current => disk.dead current.admittedBy
  | .supervisor _ current _ => decide ((disk.runs current.attemptStr).bind (·.supervisor) ≠ some true)
  | _ => true

theorem told_truthful {disk : Disk} {phase : Phase} (h : truthful disk phase = true) : told.Truthful disk phase := by
  cases phase with
  | holder draft current control | admitter draft current => exact fun _ => h
  | supervisor draft current busy => exact fun _ => of_decide_eq_true h
  | cleaning record => exact nofun
  | _ => exact trivial

def happen (w : World Disk Call) : Move → Option (World Disk Call)
  | .begin args =>
    if args.assignmentId = "a" then
      some ⟨w.store, w.calls ++ [⟨args, if args.retryId.isSome then .marker else .listing⟩]⟩
    else none
  | .step i => do
    let k ← w.calls[i]?
    if truthful w.store k.phase && !w.store.dead k.args.self then
      let (disk, phase) ← next told w.store k.args k.phase
      some ⟨disk, w.calls.set i ⟨k.args, phase⟩⟩
    else none
  | .event e => some ⟨w.store.happen e, w.calls⟩

theorem next_of_happen {w w' : World Disk Call} {move : Move} (h : happen w move = some w') : (admission "a").Next w w' := by
  cases move with
  | begin args =>
    simp only [happen] at h
    split at h
    · next ha =>
      cases h
      exact .begin ⟨ha, rfl⟩
    · cases h
  | step i =>
    obtain ⟨k, hk, hrest⟩ := bind_eq_some_iff.mp h
    split at hrest
    · next hok =>
      rw [Bool.and_eq_true, Bool.not_eq_true'] at hok
      obtain ⟨⟨disk, phase⟩, hnext, hworld⟩ := bind_eq_some_iff.mp hrest
      cases hworld
      exact .step hk ⟨told, told_truthful hok.1, hok.2, rfl, hnext⟩
    · cases hrest
  | event e =>
    cases h
    exact .around ⟨e, rfl⟩

def asks (retryId : String) (predecessorRunId : Option String) (self : ℕ) : Args :=
  ⟨"a", some retryId, predecessorRunId, "/work", "digest", none, false, fun g => ⟨⟨g.retryId, none, g.runId⟩, none, none⟩, self⟩

def steps (i n : ℕ) : List Move := List.replicate n (.step i)

/-- The first attempt is admitted and its process ends, a second one is admitted under another retry id, and the first call is
made again. -/
def repeatedBesideLater : List Move :=
  .begin (asks "first" none 1) :: (steps 0 12 ++ .event (.ends 1) :: .begin (asks "second" (some "run_a_01") 2) :: (steps 1 15 ++
    .begin (asks "first" none 3) :: steps 2 2))

def first : Record := newRecord (asks "first" none 1) 1

def second : Record := newRecord (asks "second" (some "run_a_01") 2) 2

def thirdCall (w : World Disk Call) : Option Phase × List Record := (w.calls[2]?.map (·.phase), w.store.generations)

/-- What became of the second attempt: its result, its control, and whether its admitter is gone. -/
def secondAttempt (w : World Disk Call) : Option (Bool × Option Control) × Bool :=
  ((w.store.runs "02").map fun d => (d.result, d.control), w.store.dead 2)

theorem repeatedBesideLater_before : (repeatedBesideLater.foldlM happen initial).map thirdCall =
    some (some (.placing true first), [first, second]) := by
  decide

theorem repeatedBesideLater_after : ((repeatedBesideLater ++ [Move.step 2]).foldlM happen initial).map (fun w =>
    (thirdCall w, secondAttempt w)) =
      some ((some (.done (.attempt first true)), [first, second]), (some (false, none), false)) := by
  decide

end Sample

open Sample in
/-- A call that repeats an earlier admission is answered while a later attempt is unsettled and its admitter is alive. -/
theorem repeated_beside_later : ¬∀ (w w' : World Disk Call), (admission "a").Run initial w → (admission "a").Next w w' →
    ∀ (i : ℕ) (k k' : Call) record resumed, w.calls[i]? = some k → w'.calls[i]? = some k' → (∀ answer, k.phase ≠ .done answer) →
      k'.phase = .done (.attempt record resumed) → ∀ g ∈ w'.store.generations, g ≠ record → ¬w'.store.Busy g := by
  intro hclaim
  have hbefore := repeatedBesideLater_before
  have hafter := repeatedBesideLater_after
  obtain ⟨w, hw, hwfacts⟩ := map_eq_some_iff.mp hbefore
  obtain ⟨w', hw', hwfacts'⟩ := map_eq_some_iff.mp hafter
  rw [foldlM_append, hw] at hw'
  obtain ⟨v, hv, hlast⟩ := bind_eq_some_iff.mp hw'
  obtain rfl := some.inj hv
  rw [foldlM_cons] at hlast
  obtain ⟨u, hstep, hu⟩ := bind_eq_some_iff.mp hlast
  obtain rfl := some.inj hu
  obtain ⟨hphase, -⟩ := Prod.mk.inj hwfacts
  obtain ⟨hthird, hsecondAttempt⟩ := Prod.mk.inj hwfacts'
  obtain ⟨hphase', hgenerations⟩ := Prod.mk.inj hthird
  obtain ⟨hdir, halive⟩ := Prod.mk.inj hsecondAttempt
  obtain ⟨k, hk, hkphase⟩ := map_eq_some_iff.mp hphase
  obtain ⟨k', hk', hkphase'⟩ := map_eq_some_iff.mp hphase'
  have hsecond : second ∈ u.store.generations := by
    rw [hgenerations]
    exact mem_cons_of_mem _ mem_cons_self
  refine hclaim w u (run_of_foldlM next_of_happen repeatedBesideLater hw) (next_of_happen hstep) 2 k k' first true hk hk'
    (fun answer hdone => ?_) hkphase' second hsecond (by decide) ?_
  · rw [hkphase] at hdone
    cases hdone
  · obtain ⟨d, hd, hfacts⟩ := map_eq_some_iff.mp hdir
    obtain ⟨hresult, hcontrol⟩ := Prod.mk.inj hfacts
    have hname : second.attemptStr = "02" := by decide
    refine ⟨fun hsettled => ?_, .inr (.inr ⟨?_, halive⟩)⟩
    · unfold Disk.Settled at hsettled
      rw [hname, hd, any_some, hresult] at hsettled
      cases hsettled
    · unfold Disk.control
      rw [hname, hd]
      exact hcontrol

open Sample in
theorem admission_one_at_a_time_repeated : ∃ w, (admission "a").Run initial w ∧ OneAtATime "a" w ∧
    w.store.generations = [first, second] := by
  obtain ⟨w, hw, hfacts⟩ := map_eq_some_iff.mp repeatedBesideLater_before
  have hrun := run_of_foldlM next_of_happen repeatedBesideLater hw
  exact ⟨w, hrun, admission_one_at_a_time "a" hrun, (Prod.mk.inj hfacts).2⟩

end Forgent.Admission
