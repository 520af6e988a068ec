import Forgent.RunSettlement

/-!
# A commit again after a crash

`commitRunSettlement` publishes the settled generation before the result, so a call that stops between the two leaves a
run that is settled and has no result.  A retry with the same epoch and token knows its own settlement and finishes.
Marking the run is the last step; a retry that finds the result in place answers with it, and leaves the mark to the repair
of the run's record.
-/

namespace Forgent.RunControl

open Option

variable {Holder Report : Type} {intact : Report → Bool} {s s' : Store Holder Report} {controlEpoch : ℕ} {controlToken : String}
  {settledEpoch : ℕ} {settledToken : String}
variable {runResult : Report} {phase phase' : Committing Holder} {disk' : Disk Holder Report}

/-! ### A retry in any order of steps -/

/-- Where a retry with the settled epoch and token can be. -/
def Finishing (intact : Report → Bool) (s : Store Holder Report) : Committing Holder → Prop
  | .reading => True
  | .publishing alreadySettledByUs => alreadySettledByUs = true
  | .rereading | .marking | .stamping | .done .committed | .done .rehydrated => s.disk.result.isSome = true
  | .refusing | .done .refused => ∃ r, s.disk.result = some r ∧ intact r = false
  | _ => False

theorem Finishing.grows (hgrows : Grows s s') (h : Finishing intact s phase) : Finishing intact s' phase := by
  have hrefused : (∃ r, s.disk.result = some r ∧ intact r = false) → ∃ r, s'.disk.result = some r ∧ intact r = false :=
    fun ⟨r, hr, hintact⟩ => ⟨r, hgrows.result r hr, hintact⟩
  cases phase with
  | reading => trivial
  | publishing mine => exact h
  | rereading | marking | stamping => exact result_grows hgrows h
  | refusing => exact hrefused h
  | done outcome =>
    cases outcome with
    | committed | rehydrated => exact result_grows hgrows h
    | refused => exact hrefused h
    | unreadable => exact h
  | checking | settling phase => exact h

theorem finishing_step {input : Input} (hnamed : Named s controlEpoch controlToken) (h : Finishing intact s phase)
    (hnext : commitNext intact input s.disk controlEpoch controlToken runResult phase = some (disk', phase')) :
    Finishing intact ⟨disk', s.dead⟩ phase' := by
  cases phase with
  | reading =>
    obtain ⟨epoch, g, hcurrent, hsettles⟩ := hnamed
    rw [commitNext, hcurrent, if_pos (by simpa using hsettles)] at hnext
    cases hnext
    rfl
  | publishing mine =>
    obtain rfl : mine = true := h
    rw [commitNext] at hnext
    split at hnext
    · cases hnext
      rfl
    · next hsome =>
      cases hnext
      simpa [Finishing, isSome_iff_ne_none] using hsome
  | rereading =>
    obtain ⟨r, hr⟩ := isSome_iff_exists.mp h
    rw [commitNext, hr] at hnext
    split at hnext
    · cases hnext
      exact h
    · next hintact =>
      cases hnext
      exact ⟨r, hr, by simpa using hintact⟩
  | marking =>
    rw [commitNext] at hnext
    split at hnext <;>
    · cases hnext
      exact h
  | stamping | refusing =>
    cases hnext
    exact h
  | done outcome => cases hnext
  | checking | settling phase => exact h.elim

/-- Where a call with any other epoch or token can be. -/
def Refusing : Committing Holder → Prop
  | .reading | .checking | .settling .reading | .settling (.done (.superseded _)) | .settling (.done (.alreadySettled _)) => True
  | .refusing | .done .refused => True
  | _ => False

theorem refusing_step {input : Input} (hnamed : Named s settledEpoch settledToken)
    (hother : (controlEpoch, controlToken) ≠ (settledEpoch, settledToken)) (h : Refusing phase)
    (hnext : commitNext intact input s.disk controlEpoch controlToken runResult phase = some (disk', phase')) :
    Refusing phase' := by
  obtain ⟨epoch, g, hcurrent, hsettles⟩ := hnamed
  obtain ⟨hpurpose, htoken, hepoch⟩ := purpose_of_settles hsettles
  cases phase with
  | reading =>
    rw [commitNext] at hnext
    split at hnext
    · next hmine =>
      rw [hcurrent] at hmine
      obtain ⟨-, htoken', hepoch'⟩ := purpose_of_settles (by simpa using hmine)
      rw [htoken] at htoken'
      rw [hepoch] at hepoch'
      exact absurd (Prod.ext (some.inj hepoch').symm htoken'.symm) hother
    · cases hnext
      trivial
  | checking =>
    rw [commitNext] at hnext
    split at hnext <;>
    · cases hnext
      trivial
  | settling phase =>
    cases phase with
    | reading =>
      obtain ⟨⟨disk, phase₁⟩, hsettle, heq⟩ := map_eq_some_iff.mp hnext
      cases heq
      rw [settleNext, hcurrent] at hsettle
      dsimp only at hsettle
      rw [if_pos hpurpose] at hsettle
      split at hsettle <;>
      · cases hsettle
        trivial
    | installing e record => exact h.elim
    | done outcome =>
      cases outcome with
      | settled e | unreadable => exact h.elim
      | _ =>
        cases hnext
        trivial
  | refusing =>
    cases hnext
    trivial
  | done outcome => cases hnext
  | publishing mine | rereading | marking | stamping => exact h.elim

/-! ### A retry that nothing interrupts -/

def quiet : Input := ⟨"", 0, false⟩

theorem alone_step {last : Store Holder Report × Call Holder Report}
    (h : commitNext intact quiet s.disk controlEpoch controlToken runResult phase = some (disk', phase'))
    (hrest : (control intact).Alone (⟨disk', s.dead⟩, .commit controlEpoch controlToken runResult phase') last) :
    (control intact).Alone (s, .commit controlEpoch controlToken runResult phase) last := by
  have hstep : (control intact).step s (.commit controlEpoch controlToken runResult phase) ⟨disk', s.dead⟩
      (.commit controlEpoch controlToken runResult phase') := by
    refine ⟨quiet, nofun, ?_, rfl⟩
    show (commitNext intact quiet s.disk controlEpoch controlToken runResult phase).map _ = _
    rw [h]
    rfl
  exact Relation.ReflTransGen.head hstep hrest

variable (intact controlEpoch controlToken runResult) in
theorem alone_publishing (hresult : s.disk.result = none) (mine : Bool) :
    ∃ s', (control intact).Alone (s, .commit controlEpoch controlToken runResult (.publishing mine))
        (s', .commit controlEpoch controlToken runResult (.done .committed)) ∧
      s'.disk.result = some runResult ∧ (s.disk.status ≠ none → s'.disk.status = some "settled") := by
  have hpublish : commitNext intact quiet s.disk controlEpoch controlToken runResult (.publishing mine) =
      some ({ s.disk with result := some runResult }, .marking) := by
    rw [commitNext, if_pos (by simp [hresult])]
  by_cases hmarked : s.disk.status = none ∨ s.disk.status = some "settled"
  · have hmark : commitNext intact quiet { s.disk with result := some runResult } controlEpoch controlToken runResult .marking =
        some ({ s.disk with result := some runResult }, .done .committed) := by
      rw [commitNext, if_pos hmarked]
    exact ⟨⟨{ s.disk with result := some runResult }, s.dead⟩,
      alone_step hpublish (alone_step (s := ⟨_, s.dead⟩) hmark Relation.ReflTransGen.refl), rfl, fun hne => hmarked.resolve_left hne⟩
  · have hmark : commitNext intact quiet { s.disk with result := some runResult } controlEpoch controlToken runResult .marking =
        some ({ s.disk with result := some runResult }, .stamping) := by
      rw [commitNext, if_neg hmarked]
    exact ⟨⟨{ s.disk with result := some runResult, status := some "settled" }, s.dead⟩,
      alone_step hpublish (alone_step (s := ⟨_, s.dead⟩) hmark (alone_step (s := ⟨_, s.dead⟩) rfl Relation.ReflTransGen.refl)),
      rfl, fun _ => rfl⟩

/-- A retry with the settled epoch and token ends with the result in place, and marks the run if it published the result. -/
theorem alone_named (hnamed : Named s controlEpoch controlToken) :
    ∃ s' outcome, (control intact).Alone (s, .commit controlEpoch controlToken runResult .reading)
        (s', .commit controlEpoch controlToken runResult (.done outcome)) ∧ s'.disk.result.isSome = true ∧
      (s.disk.result = none → s'.disk.result = some runResult ∧ (s.disk.status ≠ none → s'.disk.status = some "settled")) := by
  obtain ⟨epoch, g, hcurrent, hsettles⟩ := hnamed
  have hread : commitNext intact quiet s.disk controlEpoch controlToken runResult .reading =
      some (s.disk, .publishing true) := by
    rw [commitNext, hcurrent, if_pos (by simpa using hsettles)]
  by_cases hresult : s.disk.result = none
  · obtain ⟨s', halone, hpublished, hmarked⟩ := alone_publishing intact controlEpoch controlToken runResult hresult true
    exact ⟨s', .committed, alone_step hread halone, by rw [hpublished]; rfl, fun _ => ⟨hpublished, hmarked⟩⟩
  · obtain ⟨r, hr⟩ := ne_none_iff_exists'.mp hresult
    have hthere : commitNext intact quiet s.disk controlEpoch controlToken runResult (.publishing true) =
        some (s.disk, .rereading) := by
      rw [commitNext, if_neg (by simp [hr]), if_pos rfl]
    by_cases hintact : intact r = true
    · have hreread : commitNext intact quiet s.disk controlEpoch controlToken runResult .rereading =
          some (s.disk, .done .rehydrated) := by
        rw [commitNext, hr, if_pos (by simpa using hintact)]
      exact ⟨s, .rehydrated, alone_step hread (alone_step hthere (alone_step hreread Relation.ReflTransGen.refl)),
        by rw [hr]; rfl, fun hnone => absurd hnone hresult⟩
    · have hreread : commitNext intact quiet s.disk controlEpoch controlToken runResult .rereading =
          some (s.disk, .refusing) := by
        rw [commitNext, hr, if_neg (by simpa using hintact)]
      exact ⟨⟨{ s.disk with superseded := some runResult }, s.dead⟩, .refused,
        alone_step hread (alone_step hthere (alone_step hreread (alone_step rfl Relation.ReflTransGen.refl))), by simp [hr],
        fun hnone => absurd hnone hresult⟩

variable (intact runResult) in
/-- A retry under a control that is still current settles it, publishes the result and marks the run. -/
theorem alone_current (hinv : Inv s) {g : Generation Holder} (hcurrent : currentGeneration s.disk = some (controlEpoch, g))
    (htoken : g.controlToken = controlToken) (hpurpose : g.purpose ≠ "settled") (hlisted : controlEpoch < maxListed) :
    ∃ s', (control intact).Alone (s, .commit controlEpoch controlToken runResult .reading)
        (s', .commit controlEpoch controlToken runResult (.done .committed)) ∧ s'.disk.result = some runResult ∧
      (s.disk.status ≠ none → s'.disk.status = some "settled") := by
  obtain ⟨hresult, hfree⟩ := result_none_of_unsettled hinv hcurrent hpurpose hlisted
  let settled : Disk Holder Report :=
    { s.disk with generations := s.disk.generations ++ [(controlEpoch + 1, some (settlement Holder controlEpoch controlToken 0))] }
  have hread : commitNext intact quiet s.disk controlEpoch controlToken runResult .reading = some (s.disk, .checking) := by
    rw [commitNext, hcurrent, if_neg (by simp [settles, hpurpose])]
  have hcheck : commitNext intact quiet s.disk controlEpoch controlToken runResult .checking =
      some (s.disk, .settling .reading) := by
    rw [commitNext, isRunControlCurrent, hcurrent, if_pos (by simp [htoken])]
  have hsettle : commitNext intact quiet s.disk controlEpoch controlToken runResult (.settling .reading) =
      some (s.disk, .settling (.installing (controlEpoch + 1) (settlement Holder controlEpoch controlToken 0))) := by
    show (settleNext quiet s.disk controlEpoch controlToken .reading).map _ = _
    rw [settleNext, hcurrent]
    dsimp only
    rw [if_neg (by simp [htoken]), if_neg hpurpose]
    rfl
  have hinstall : commitNext intact quiet s.disk controlEpoch controlToken runResult
      (.settling (.installing (controlEpoch + 1) (settlement Holder controlEpoch controlToken 0))) =
      some (settled, .settling (.done (.settled (controlEpoch + 1)))) := by
    show (settleNext quiet s.disk controlEpoch controlToken _).map _ = _
    rw [settleNext, install, hfree]
    rfl
  obtain ⟨s', halone, hpublished, hmarked⟩ := @alone_publishing _ _ intact ⟨settled, s.dead⟩ controlEpoch controlToken runResult
    hresult false
  exact ⟨s', alone_step hread (alone_step hcheck (alone_step hsettle (alone_step hinstall
    (alone_step (s := ⟨settled, s.dead⟩) rfl halone)))), hpublished, hmarked⟩

/-- A call with any other epoch or token is refused. -/
theorem alone_refused (hnamed : Named s settledEpoch settledToken)
    (hother : (controlEpoch, controlToken) ≠ (settledEpoch, settledToken)) :
    ∃ s', (control intact).Alone (s, .commit controlEpoch controlToken runResult .reading)
      (s', .commit controlEpoch controlToken runResult (.done .refused)) ∧ s'.disk.result = s.disk.result := by
  obtain ⟨epoch, g, hcurrent, hsettles⟩ := hnamed
  obtain ⟨hpurpose, htoken, hepoch⟩ := purpose_of_settles hsettles
  have hread : commitNext intact quiet s.disk controlEpoch controlToken runResult .reading = some (s.disk, .checking) := by
    rw [commitNext, hcurrent, if_neg]
    intro hmine
    obtain ⟨-, htoken', hepoch'⟩ := purpose_of_settles (by simpa using hmine)
    rw [htoken] at htoken'
    rw [hepoch] at hepoch'
    exact hother (Prod.ext (some.inj hepoch').symm htoken'.symm)
  have hrefuse : (control intact).Alone (s, .commit controlEpoch controlToken runResult .refusing)
      (⟨{ s.disk with superseded := some runResult }, s.dead⟩, .commit controlEpoch controlToken runResult (.done .refused)) :=
    alone_step rfl Relation.ReflTransGen.refl
  refine ⟨⟨{ s.disk with superseded := some runResult }, s.dead⟩, alone_step hread ?_, rfl⟩
  by_cases hcheck : isRunControlCurrent s.disk controlEpoch controlToken = true
  · have hgo : commitNext intact quiet s.disk controlEpoch controlToken runResult .checking =
        some (s.disk, .settling .reading) := by
      rw [commitNext, if_pos hcheck]
    apply alone_step hgo
    rw [isRunControlCurrent, hcurrent] at hcheck
    obtain ⟨rfl, htoken'⟩ : epoch = controlEpoch ∧ g.controlToken = controlToken := by simpa using hcheck
    have hsettle : commitNext intact quiet s.disk epoch controlToken runResult (.settling .reading) =
        some (s.disk, .settling (.done (.alreadySettled epoch))) := by
      show (settleNext quiet s.disk epoch controlToken .reading).map _ = _
      rw [settleNext, hcurrent]
      dsimp only
      rw [if_neg (by simp [htoken']), if_pos hpurpose]
      rfl
    exact alone_step hsettle (alone_step rfl hrefuse)
  · have hstop : commitNext intact quiet s.disk controlEpoch controlToken runResult .checking = some (s.disk, .refusing) := by
      rw [commitNext, if_neg hcheck]
    exact alone_step hstop hrefuse

/-- A commit that may finish: its control is settled by it, or still current with room for one more generation. -/
def MayFinish (s : Store Holder Report) (controlEpoch : ℕ) (controlToken : String) : Prop :=
  Named s controlEpoch controlToken ∨ ∃ g, currentGeneration s.disk = some (controlEpoch, g) ∧ g.controlToken = controlToken ∧
    g.purpose ≠ "settled" ∧ controlEpoch < maxListed

/-- How a call goes on when the settled epoch and token are `settled`. -/
def Answers (intact : Report → Bool) (mine settled : ℕ × String) (s : Store Holder Report) (phase : Committing Holder) : Prop :=
  if mine = settled then Finishing intact s phase else Refusing phase

theorem answers_reading {mine settled : ℕ × String} : Answers intact mine settled s (.reading : Committing Holder) := by
  unfold Answers
  split <;> trivial

theorem Answers.grows {mine settled : ℕ × String} (hgrows : Grows s s')
    (h : Answers intact mine settled s phase) : Answers intact mine settled s' phase := by
  unfold Answers at h ⊢
  split
  · next heq =>
    rw [if_pos heq] at h
    exact h.grows hgrows
  · next hne =>
    rw [if_neg hne] at h
    exact h

theorem answers_step {k k' : Call Holder Report}
    (houtline : (@control Holder Report intact).Outline Inv Holds Grows) (hinv : Inv s) (hholds : Holds s k)
    (h : Named s settledEpoch settledToken ∧ ∃ phase, k = .commit controlEpoch controlToken runResult phase ∧
      Answers intact (controlEpoch, controlToken) (settledEpoch, settledToken) s phase)
    (hstep : (control intact).step s k s' k') :
    Named s' settledEpoch settledToken ∧ ∃ phase, k' = .commit controlEpoch controlToken runResult phase ∧
      Answers intact (controlEpoch, controlToken) (settledEpoch, settledToken) s' phase := by
  obtain ⟨hnamed, phase, rfl, hanswers⟩ := h
  obtain ⟨hinv', -, hgrows⟩ := houtline.step hinv hholds hstep
  obtain ⟨input, -, hnext, hdead⟩ := hstep
  obtain ⟨⟨disk, phase'⟩, hcommit, heq⟩ := map_eq_some_iff.mp hnext
  obtain ⟨hdisk, rfl⟩ := Prod.mk.inj heq
  refine ⟨hnamed.grows hinv hinv' hgrows, phase', rfl, ?_⟩
  obtain ⟨disk', dead'⟩ := s'
  obtain rfl : disk = disk' := hdisk
  obtain rfl : dead' = s.dead := hdead
  unfold Answers at hanswers ⊢
  split
  · next hmine =>
    rw [if_pos hmine] at hanswers
    cases hmine
    exact finishing_step hnamed hanswers hcommit
  · next hother =>
    rw [if_neg hother] at hanswers
    exact refusing_step hnamed hother hanswers hcommit

/-- **One authoritative result for each run.**  The ledger is contiguous, each generation is followed as it may be, and a
settled one by none; nothing on file changes; the result is written once, by a commit with the epoch and token that are
settled.  A retry with these ends with the result in place, in any order of steps, and any other call is refused. -/
theorem one_authoritative_result (intact : Report → Bool) {status : Option String} {w : Interleave.World (Store Holder Report) (Call Holder Report)}
    (hrun : (control intact).Run (initial Holder Report status) w) :
    (∃ gens, Ledger w.store gens ∧ ∀ i g, gens[i]? = some g → g.purpose = "settled" → i + 1 = gens.length) ∧
    (∀ w', (control intact).Run w w' → Grows w.store w'.store) ∧
    (∀ w', (control intact).Next w w' → w'.store.disk.result ≠ w.store.disk.result → w.store.disk.result = none ∧
      ∃ (i controlEpoch : ℕ) (controlToken : String) (runResult : Report) (mine : Bool),
        w.calls[i]? = some (Call.commit controlEpoch controlToken runResult (.publishing mine)) ∧
        SettledAt w.store controlEpoch controlToken ∧ w'.store.disk.result = some runResult) ∧
    (∀ (i controlEpoch : ℕ) (controlToken : String) (runResult : Report),
      w.calls[i]? = some (Call.commit controlEpoch controlToken runResult .reading) →
      ∀ settledEpoch settledToken, Named w.store settledEpoch settledToken → ∀ w', (control intact).Run w w' →
        ∃ phase, w'.calls[i]? = some (Call.commit controlEpoch controlToken runResult phase) ∧
          Answers intact (controlEpoch, controlToken) (settledEpoch, settledToken) w'.store phase) ∧
    (∀ controlEpoch controlToken runResult, MayFinish w.store controlEpoch controlToken →
      ∃ s' outcome, (control intact).Alone (w.store, Call.commit controlEpoch controlToken runResult .reading)
          (s', Call.commit controlEpoch controlToken runResult (.done outcome)) ∧ s'.disk.result.isSome = true ∧
        (w.store.disk.result = none → s'.disk.result = some runResult ∧
          (w.store.disk.status ≠ none → s'.disk.status = some "settled"))) ∧
    (∀ controlEpoch controlToken runResult settledEpoch settledToken, Named w.store settledEpoch settledToken →
      (controlEpoch, controlToken) ≠ (settledEpoch, settledToken) →
      ∃ s', (control intact).Alone (w.store, Call.commit controlEpoch controlToken runResult .reading)
        (s', Call.commit controlEpoch controlToken runResult (.done .refused)) ∧ s'.disk.result = w.store.disk.result) := by
  have houtline := @control_outline Holder Report intact
  have hw := houtline.run (outlined_initial status) hrun
  refine ⟨?_, fun w' hrun' => ?_, ?_, ?_, ?_, fun _ _ _ _ _ => alone_refused⟩
  · obtain ⟨gens, hledger⟩ := hw.1.1
    exact ⟨gens, hledger, fun i g hg hsettled => hledger.last hg hsettled⟩
  · exact houtline.rely_run Grows.refl (fun h h' => h.trans h') hw hrun'
  · intro w' hnext hchange
    cases hnext with
    | begin _ => exact absurd rfl hchange
    | around haround => exact absurd (congrArg Disk.result haround.1) hchange
    | @step s s' calls i k k' hcall hstep =>
      obtain ⟨input, -, hnext, -⟩ := hstep
      obtain ⟨controlEpoch, controlToken, runResult, mine, rfl, hnone, hsome⟩ := (result_of_next hnext).resolve_left hchange
      exact ⟨hnone, i, controlEpoch, controlToken, runResult, mine, hcall, hw.2 _ (List.mem_of_getElem? hcall), hsome⟩
  · intro i controlEpoch controlToken runResult hcall settledEpoch settledToken hnamed w' hrun'
    have hfollow := houtline.follow
      (fun s k => Named s settledEpoch settledToken ∧ ∃ phase, k = .commit controlEpoch controlToken runResult phase ∧
        Answers intact (controlEpoch, controlToken) (settledEpoch, settledToken) s phase)
      (fun hinv hholds halong hstep => answers_step houtline hinv hholds halong hstep)
      (fun hinv hinv' halong hgrows => ⟨halong.1.grows hinv hinv' hgrows, by
        obtain ⟨phase, hk, hanswers⟩ := halong.2
        exact ⟨phase, hk, hanswers.grows hgrows⟩⟩)
      hw hrun' (fun k hk => ⟨hnamed, .reading, some.inj (hk.symm.trans hcall), answers_reading⟩) (by rw [hcall]; rfl)
    obtain ⟨⟨k, hk⟩, halong⟩ := hfollow
    obtain ⟨-, phase, rfl, hanswers⟩ := halong k hk
    exact ⟨phase, hk, hanswers⟩
  · intro controlEpoch controlToken runResult hmay
    cases hmay with
    | inl hnamed => exact alone_named hnamed
    | inr hcurrent =>
      obtain ⟨g, hcurrent, htoken, hpurpose, hlisted⟩ := hcurrent
      obtain ⟨s', halone, hresult, hmarked⟩ := alone_current intact runResult hw.1 hcurrent htoken hpurpose hlisted
      exact ⟨s', .committed, halone, by rw [hresult]; rfl, fun _ => ⟨hresult, hmarked⟩⟩

/-! ### Two controllers of one run -/

namespace TwoControllers

abbrev Here := Interleave.World (Store String String) (Call String String)

/-- What happens next: a call begins, a call takes a step, or a holder's process dies. -/
inductive Event where
  | acquire (holder : String)
  | commit (controlEpoch : ℕ) (controlToken : String) (runResult : String)
  | step (i : ℕ) (token : String) (dead : Bool)
  | dies (holder : String)

/-- One event; none when a step is not possible, or judges a holder dead that is alive. -/
def happen (w : Here) : Event → Option Here
  | .acquire holder => some ⟨w.store, w.calls ++ [.acquire ⟨holder, "supervise", none, none, 0⟩ .reading]⟩
  | .commit controlEpoch controlToken runResult =>
    some ⟨w.store, w.calls ++ [.commit controlEpoch controlToken runResult .reading]⟩
  | .step i token dead => do
    let k ← w.calls[i]?
    if dead && !(k.probed.any (w.store.dead.contains ·)) then none
    else
      let (disk, k') ← next (fun _ => true) ⟨token, 0, dead⟩ w.store.disk k
      some ⟨⟨disk, w.store.dead⟩, w.calls.set i k'⟩
  | .dies holder => some ⟨⟨w.store.disk, holder :: w.store.dead⟩, w.calls⟩

theorem next_of_happen {w w' : Here} {event : Event} (h : happen w event = some w') :
    (control (fun _ : String => true)).Next w w' := by
  cases event with
  | acquire holder =>
    cases h
    exact .begin (.acquire _)
  | commit controlEpoch controlToken runResult =>
    cases h
    exact .begin (.commit _ _ _)
  | step i token dead =>
    obtain ⟨k, hk, hrest⟩ := bind_eq_some_iff.mp h
    split at hrest
    · cases hrest
    · next hjudged =>
      obtain ⟨⟨disk, k'⟩, hnext, hworld⟩ := bind_eq_some_iff.mp hrest
      cases hworld
      refine .step hk ⟨⟨token, 0, dead⟩, fun hdead => ?_, hnext, rfl⟩
      obtain rfl : dead = true := hdead
      simp only [Bool.true_and, Bool.not_eq_true, Bool.not_eq_false'] at hjudged
      obtain ⟨holder, hholder, hmem⟩ := (any_eq_true _ _).mp (by simpa using hjudged)
      exact ⟨holder, hholder, of_decide_eq_true hmem⟩
  | dies holder =>
    cases h
    exact .around ⟨rfl, holder, rfl⟩

def start : Here := initial String String (some "running")

def acquired : Generation String := ⟨"t1", some "a", "supervise", none, 0⟩

/-- The first controller acquires, and its commit stops before the mark. -/
def unmarked : List Event :=
  [.acquire "a", .step 0 "t1" false, .step 0 "" false, .commit 1 "t1" "passed", .step 1 "" false, .step 1 "" false,
    .step 1 "" false, .step 1 "" false, .step 1 "" false, .step 1 "" false]

/-- The first controller acquires, its commit stops at once and its process dies; a second controller takes over. -/
def takenOver : List Event :=
  [.acquire "a", .step 0 "t1" false, .step 0 "" false, .commit 1 "t1" "passed", .step 1 "" false, .dies "a",
    .acquire "b", .step 2 "" false, .step 2 "" false, .step 2 "t2" true, .step 2 "" false]

def unmarkedWorld : Here :=
  ⟨⟨⟨[(1, some acquired), (2, some (settlement String 1 "t1" 0))], [], some "passed", none, some "running"⟩, []⟩,
    [.acquire ⟨"a", "supervise", none, none, 0⟩ (.done (.acquired 1 "t1")), .commit 1 "t1" "passed" .marking]⟩

def takenOverWorld : Here :=
  ⟨⟨⟨[(1, some acquired), (2, some ⟨"t2", some "b", "supervise", none, 0⟩)], [], none, none, some "running"⟩, ["a"]⟩,
    [.acquire ⟨"a", "supervise", none, none, 0⟩ (.done (.acquired 1 "t1")), .commit 1 "t1" "passed" .checking,
      .acquire ⟨"b", "supervise", none, none, 0⟩ (.done (.acquired 2 "t2"))]⟩

theorem run_unmarked : (control (fun _ : String => true)).Run start unmarkedWorld := by
  have hrun : unmarked.foldlM happen start = some unmarkedWorld := by rfl
  exact Interleave.run_of_foldlM next_of_happen unmarked hrun

theorem run_takenOver : (control (fun _ : String => true)).Run start takenOverWorld := by
  have hrun : takenOver.foldlM happen start = some takenOverWorld := by rfl
  exact Interleave.run_of_foldlM next_of_happen takenOver hrun

end TwoControllers

open TwoControllers in
theorem one_authoritative_result_unmarked : ∃ s' outcome,
    (control (fun _ : String => true)).Alone (unmarkedWorld.store, Call.commit 1 "t1" "again" .reading)
      (s', Call.commit 1 "t1" "again" (.done outcome)) ∧ s'.disk.result.isSome = true := by
  have hretry := (one_authoritative_result (fun _ : String => true) run_unmarked).2.2.2.2.1 1 "t1" "again"
    (.inl ⟨2, settlement String 1 "t1" 0, by rfl, by rfl⟩)
  obtain ⟨s', outcome, halone, hresult, -⟩ := hretry
  exact ⟨s', outcome, halone, hresult⟩

open TwoControllers in
/-- A commit that stopped before the mark is not marked by its retry, and one whose controller died and was replaced is not
finished by its retry. -/
theorem retry_incomplete :
    (∃ w s', (control (fun _ : String => true)).Run start w ∧ w.calls[1]? = some (Call.commit 1 "t1" "passed" .marking) ∧
      (control (fun _ : String => true)).Alone (w.store, Call.commit 1 "t1" "again" .reading)
        (s', Call.commit 1 "t1" "again" (.done .rehydrated)) ∧ s'.disk.status = some "running") ∧
    (∃ w s', (control (fun _ : String => true)).Run start w ∧ w.calls[1]? = some (Call.commit 1 "t1" "passed" .checking) ∧
      (control (fun _ : String => true)).Alone (w.store, Call.commit 1 "t1" "again" .reading)
        (s', Call.commit 1 "t1" "again" (.done .refused)) ∧ s'.disk.result = none) := by
  constructor
  · refine ⟨unmarkedWorld, unmarkedWorld.store, run_unmarked, rfl, ?_, rfl⟩
    have hread : commitNext (fun _ => true) quiet unmarkedWorld.store.disk 1 "t1" "again" .reading =
        some (unmarkedWorld.store.disk, .publishing true) := by rfl
    exact alone_step hread (alone_step rfl (alone_step rfl Relation.ReflTransGen.refl))
  · refine ⟨takenOverWorld, ⟨{ takenOverWorld.store.disk with superseded := some "again" }, ["a"]⟩, run_takenOver, rfl, ?_, rfl⟩
    have hread : commitNext (fun _ => true) quiet takenOverWorld.store.disk 1 "t1" "again" .reading =
        some (takenOverWorld.store.disk, .checking) := by rfl
    have hcheck : commitNext (fun _ => true) quiet takenOverWorld.store.disk 1 "t1" "again" .checking =
        some (takenOverWorld.store.disk, .refusing) := by rfl
    exact alone_step hread (alone_step hcheck (alone_step rfl Relation.ReflTransGen.refl))

end Forgent.RunControl
