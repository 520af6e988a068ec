import Forgent.RunControlLedger

/-!
# One authoritative result for each run

What every step of a call keeps, and from it what holds in every run of the control of one run.
-/

namespace Forgent.RunControl

open List Option

variable {Holder Report : Type}

/-! ### Installing a generation -/

section Install

variable {s : Store Holder Report} {gens : List (Generation Holder)} {epoch : ℕ} {record : Generation Holder}
variable {disk' : Disk Holder Report}

theorem Recorded.at_file {disk : Disk Holder Report} (h : Recorded disk gens) {g : Generation Holder}
    (hat : generationFile disk epoch = some (some g)) : ∃ i, epoch = i + 1 ∧ gens[i]? = some g := by
  cases epoch with
  | zero =>
    rw [generationFile, h] at hat
    obtain ⟨before, after, hfiled, -⟩ := lookup_eq_some_iff.mp hat
    obtain ⟨i, g', hzero, -⟩ := mem_filed.mp (show (0, some g) ∈ filed gens by rw [hfiled]; simp)
    exact absurd hzero (by omega)
  | succ i =>
    rw [h.file] at hat
    obtain ⟨g', hg', heq⟩ := map_eq_some_iff.mp hat
    exact ⟨i, rfl, some.inj heq ▸ hg'⟩

theorem install_published (h : install s.disk epoch record = (.published, disk')) :
    generationFile s.disk epoch = none ∧ disk' = { s.disk with generations := s.disk.generations ++ [(epoch, some record)] } := by
  unfold install at h
  split at h
  · next hnone => exact ⟨hnone, (Prod.mk.inj h).2.symm⟩
  · cases h
  · cases h

theorem install_kept {outcome : Installed} (h : install s.disk epoch record = (outcome, disk')) (hne : outcome ≠ .published) :
    disk' = s.disk := by
  unfold install at h
  split at h
  · exact absurd (Prod.mk.inj h).1.symm hne
  · exact (Prod.mk.inj h).2.symm
  · exact (Prod.mk.inj h).2.symm

theorem grows_install (h : install s.disk epoch record = (.published, disk')) : Grows s ⟨disk', s.dead⟩ := by
  obtain ⟨-, rfl⟩ := install_published h
  refine ⟨fun e content hfile => ?_, List.Subset.refl _, List.Subset.refl _, fun r hr => hr⟩
  show (s.disk.generations ++ _).lookup e = some content
  rw [lookup_append, show s.disk.generations.lookup e = some content from hfile]
  rfl

theorem at_install (h : install s.disk epoch record = (.published, disk')) : At ⟨disk', s.dead⟩ epoch record := by
  obtain ⟨hnone, rfl⟩ := install_published h
  show (s.disk.generations ++ [(epoch, some record)]).lookup epoch = _
  rw [lookup_append, show s.disk.generations.lookup epoch = none from hnone, none_or, lookup_cons_self]

/-- A generation that is installed goes behind the last one. -/
theorem Ledger.install (h : Ledger s gens) (hpublished : install s.disk epoch record = (.published, disk'))
    (hafter : epoch = 1 ∧ record.settledEpoch = none ∨
      ∃ before g, epoch = before + 1 ∧ At s before g ∧ Follows s before g record) :
    Ledger ⟨disk', s.dead⟩ (gens ++ [record]) := by
  have hgrows := grows_install hpublished
  obtain ⟨hnone, rfl⟩ := install_published hpublished
  -- The number of a record is one more than that of the last generation.
  have hlast : epoch = gens.length + 1 ∧ ((gens = [] ∧ record.settledEpoch = none) ∨
      ∃ i g, gens.length = i + 1 ∧ gens[i]? = some g ∧ Follows s (i + 1) g record) := by
    cases hafter with
    | inl hfirst =>
      obtain ⟨rfl, hsettled⟩ := hfirst
      rw [h.recorded.file 0, map_eq_none_iff] at hnone
      have hnil : gens = [] := length_eq_zero_iff.mp (by have := List.getElem?_eq_none_iff.mp hnone; omega)
      exact ⟨by rw [hnil]; rfl, .inl ⟨hnil, hsettled⟩⟩
    | inr hbehind =>
      obtain ⟨before, g, rfl, hat, hfollows⟩ := hbehind
      obtain ⟨i, rfl, hg⟩ := h.recorded.at_file hat
      rw [h.recorded.file (i + 1), map_eq_none_iff] at hnone
      have hlt := (List.getElem?_eq_some_iff.mp hg).1
      have hge := List.getElem?_eq_none_iff.mp hnone
      have hlength : gens.length = i + 1 := by omega
      exact ⟨by omega, .inr ⟨i, g, hlength, hg, hfollows⟩⟩
  obtain ⟨rfl, hbehind⟩ := hlast
  refine ⟨?_, fun g hg => ?_, fun i g g' hg hg' => ?_⟩
  · show s.disk.generations ++ _ = _
    rw [filed_append, ← h.recorded]
  · cases hbehind with
    | inl hfirst =>
      rw [hfirst.1] at hg
      exact some.inj hg ▸ hfirst.2
    | inr hbehind =>
      obtain ⟨i, _, hlength, -, -⟩ := hbehind
      rw [getElem?_append_left (by omega)] at hg
      exact h.first g hg
  · have hlt := (List.getElem?_eq_some_iff.mp hg').1
    rw [length_append, length_singleton] at hlt
    rw [getElem?_append_left (by omega)] at hg
    by_cases hi : i + 1 < gens.length
    · rw [getElem?_append_left hi] at hg'
      exact (h.follows i g g' hg hg').grows hgrows
    · have hi' : i + 1 = gens.length := by omega
      rw [hi', getElem?_append_right (Nat.le_refl _), Nat.sub_self] at hg'
      obtain rfl : record = g' := some.inj hg'
      cases hbehind with
      | inl hfirst =>
        rw [hfirst.1] at hi'
        cases hi'
      | inr hbehind =>
        obtain ⟨j, g₀, hlength, hg₀, hfollows⟩ := hbehind
        obtain rfl : i = j := by omega
        obtain rfl : g = g₀ := some.inj (hg.symm.trans hg₀)
        exact hfollows.grows hgrows

end Install

/-! ### One step of each call -/

section Step

variable {s : Store Holder Report} {input : Input} {disk' : Disk Holder Report} {controlEpoch : ℕ}
  {controlToken : String} {epoch : ℕ}

variable (h : Inv s)

include h

theorem Inv.current {g : Generation Holder} (hcurrent : currentGeneration s.disk = some (epoch, g)) : At s epoch g := by
  obtain ⟨gens, hledger⟩ := h.1
  obtain ⟨i, rfl, -, hg⟩ := hledger.recorded.current hcurrent
  rw [At, hledger.recorded.file, hg]
  rfl

theorem Inv.install {record : Generation Holder} (hpublished : install s.disk epoch record = (.published, disk'))
    (hafter : epoch = 1 ∧ record.settledEpoch = none ∨
      ∃ before g, epoch = before + 1 ∧ At s before g ∧ Follows s before g record) : Inv ⟨disk', s.dead⟩ := by
  obtain ⟨gens, hledger⟩ := h.1
  refine ⟨⟨gens ++ [record], hledger.install hpublished hafter⟩, fun hresult => ?_⟩
  have hgrows := grows_install hpublished
  obtain ⟨-, rfl⟩ := install_published hpublished
  obtain ⟨e, token, hsettled⟩ := h.2 hresult
  exact ⟨e, token, hsettled.grows hgrows⟩

theorem acquire_step {args : AcquireArgs Holder} {phase phase' : Acquiring Holder}
    (hholds : Holds s (.acquire args phase))
    (hdead : input.dead = true → ∃ h ∈ (Call.acquire args phase : Call Holder Report).probed, h ∈ s.dead)
    (hnext : acquireNext input s.disk args phase = some (disk', phase')) :
    Inv ⟨disk', s.dead⟩ ∧ Holds ⟨disk', s.dead⟩ (.acquire args phase') ∧ Grows s ⟨disk', s.dead⟩ := by
  cases phase with
  | reading =>
    rw [acquireNext] at hnext
    split at hnext
    · cases hnext
      exact ⟨h, trivial, Grows.refl s⟩
    · split at hnext
      · cases hnext
        exact ⟨h, ⟨rfl, .inl rfl⟩, Grows.refl s⟩
      · next epoch g hcurrent =>
        split at hnext
        · cases hnext
          exact ⟨h, trivial, Grows.refl s⟩
        · next hpurpose =>
          cases hnext
          exact ⟨h, ⟨h.current hcurrent, hpurpose⟩, Grows.refl s⟩
  | marker epoch g =>
    obtain ⟨hat, hpurpose⟩ := hholds
    rw [acquireNext] at hnext
    split at hnext
    · next hreleased =>
      cases hnext
      exact ⟨h, ⟨rfl, .inr ⟨epoch, g, rfl, hat, hpurpose, .inl hreleased⟩⟩, Grows.refl s⟩
    · split at hnext
      · cases hnext
        exact ⟨h, trivial, Grows.refl s⟩
      · cases hnext
        exact ⟨h, ⟨hat, hpurpose⟩, Grows.refl s⟩
  | probing epoch g =>
    obtain ⟨hat, hpurpose⟩ := hholds
    rw [acquireNext] at hnext
    split at hnext
    · next hjudged =>
      cases hnext
      obtain ⟨holder, hholder, hmem⟩ := hdead hjudged
      exact ⟨h, ⟨rfl, .inr ⟨epoch, g, rfl, hat, hpurpose, .inr ⟨holder, hholder, hmem⟩⟩⟩, Grows.refl s⟩
    · cases hnext
      exact ⟨h, trivial, Grows.refl s⟩
  | installing epoch record =>
    obtain ⟨hrecord, hbehind⟩ := hholds
    rw [acquireNext] at hnext
    split at hnext
    · next disk hpublished =>
      cases hnext
      refine ⟨h.install hpublished ?_, trivial, grows_install hpublished⟩
      cases hbehind with
      | inl hfirst => exact .inl ⟨hfirst, hrecord⟩
      | inr hafter =>
        obtain ⟨before, g, hepoch, hat, hpurpose, hvacant⟩ := hafter
        exact .inr ⟨before, g, hepoch, hat, hpurpose, .inr ⟨hrecord, hvacant⟩⟩
    · next disk hlost =>
      cases hnext
      rw [install_kept hlost (by decide)]
      exact ⟨h, trivial, Grows.refl s⟩
    · next disk hunreadable =>
      cases hnext
      rw [install_kept hunreadable (by decide)]
      exact ⟨h, trivial, Grows.refl s⟩
  | done outcome => cases hnext

theorem release_step {phase phase' : Releasing}
    (hnext : releaseNext s.disk controlEpoch controlToken phase = some (disk', phase')) :
    Inv ⟨disk', s.dead⟩ ∧ Grows s ⟨disk', s.dead⟩ := by
  cases phase with
  | reading =>
    rw [releaseNext] at hnext
    split at hnext
    · cases hnext
      exact ⟨h, Grows.refl s⟩
    · split at hnext <;>
      · cases hnext
        exact ⟨h, Grows.refl s⟩
  | publishing =>
    rw [releaseNext] at hnext
    split at hnext
    · cases hnext
      exact ⟨h, Grows.refl s⟩
    · cases hnext
      have hgrows : Grows s ⟨{ s.disk with releases := s.disk.releases ++ [controlEpoch] }, s.dead⟩ :=
        ⟨fun _ _ hfile => hfile, subset_append_left _ _, List.Subset.refl _, fun _ hr => hr⟩
      obtain ⟨⟨gens, hledger⟩, hresult⟩ := h
      refine ⟨⟨⟨gens, hledger.recorded, hledger.first, fun i g g' hg hg' => (hledger.follows i g g' hg hg').grows hgrows⟩, ?_⟩,
        hgrows⟩
      intro hsome
      obtain ⟨e, token, hsettled⟩ := hresult hsome
      exact ⟨e, token, hsettled.grows hgrows⟩
  | done outcome => cases hnext

/-- What one step of a settlement keeps, for `settleRunControl` and inside a commit. -/
theorem settle_step {phase phase' : Settling Holder} (hholds : SettlingHolds s controlEpoch controlToken phase)
    (hnext : settleNext input s.disk controlEpoch controlToken phase = some (disk', phase')) :
    Inv ⟨disk', s.dead⟩ ∧ SettlingHolds ⟨disk', s.dead⟩ controlEpoch controlToken phase' ∧ Grows s ⟨disk', s.dead⟩ := by
  cases phase with
  | reading =>
    rw [settleNext] at hnext
    split at hnext
    · cases hnext
      exact ⟨h, trivial, Grows.refl s⟩
    · next epoch g hcurrent =>
      split at hnext
      · cases hnext
        exact ⟨h, trivial, Grows.refl s⟩
      · next hmine =>
        split at hnext
        · cases hnext
          exact ⟨h, trivial, Grows.refl s⟩
        · next hpurpose =>
          cases hnext
          obtain ⟨hepoch, htoken⟩ := not_or.mp hmine
          obtain rfl := not_not.mp hepoch
          exact ⟨h, ⟨rfl, g, input.now, h.current hcurrent, hpurpose, not_not.mp htoken, rfl⟩, Grows.refl s⟩
  | installing epoch record =>
    obtain ⟨hepoch, g, now, hat, hpurpose, htoken, hrecord⟩ := hholds
    rw [settleNext] at hnext
    split at hnext
    · next disk hpublished =>
      cases hnext
      have hfollows : Follows s controlEpoch g record := ⟨hpurpose, .inl ⟨now, by rw [hrecord, htoken]⟩⟩
      have hsettles : settles controlEpoch controlToken record = true := by simp [hrecord, settles, settlement]
      exact ⟨h.install hpublished (.inr ⟨controlEpoch, g, hepoch, hat, hfollows⟩),
        ⟨epoch, record, at_install hpublished, hsettles⟩, grows_install hpublished⟩
    · next disk hlost =>
      cases hnext
      rw [install_kept hlost (by decide)]
      exact ⟨h, trivial, Grows.refl s⟩
    · next disk hunreadable =>
      cases hnext
      rw [install_kept hunreadable (by decide)]
      exact ⟨h, trivial, Grows.refl s⟩
  | done outcome => cases hnext

theorem Inv.beside (hgenerations : disk'.generations = s.disk.generations) (hreleases : disk'.releases = s.disk.releases)
    (hresult : disk'.result = s.disk.result) : Inv ⟨disk', s.dead⟩ ∧ Grows s ⟨disk', s.dead⟩ := by
  have hgrows : Grows s ⟨disk', s.dead⟩ := by
    refine ⟨fun e content hfile => ?_, ?_, List.Subset.refl _, fun r hr => hresult.trans hr⟩
    · show disk'.generations.lookup e = some content
      rw [hgenerations]
      exact hfile
    · show s.disk.releases ⊆ disk'.releases
      rw [hreleases]
      exact List.Subset.refl _
  obtain ⟨⟨gens, hledger⟩, hsettled⟩ := h
  refine ⟨⟨⟨gens, hgenerations.trans hledger.recorded, hledger.first,
    fun i g g' hg hg' => (hledger.follows i g g' hg hg').grows hgrows⟩, fun hsome => ?_⟩, hgrows⟩
  obtain ⟨e, token, hat⟩ := hsettled (hresult ▸ hsome)
  exact ⟨e, token, hat.grows hgrows⟩

theorem commit_step {intact : Report → Bool} {runResult : Report}
    {phase phase' : Committing Holder} (hholds : Holds s (.commit controlEpoch controlToken runResult phase))
    (hnext : commitNext intact input s.disk controlEpoch controlToken runResult phase = some (disk', phase')) :
    Inv ⟨disk', s.dead⟩ ∧ Holds ⟨disk', s.dead⟩ (.commit controlEpoch controlToken runResult phase') ∧
      Grows s ⟨disk', s.dead⟩ := by
  cases phase with
  | reading =>
    rw [commitNext] at hnext
    split at hnext
    · next hmine =>
      cases hnext
      obtain ⟨⟨epoch, g⟩, hcurrent, hsettles⟩ := (Option.any_eq_true _ _).mp hmine
      exact ⟨h, ⟨epoch, g, h.current hcurrent, hsettles⟩, Grows.refl s⟩
    · cases hnext
      exact ⟨h, trivial, Grows.refl s⟩
  | checking | rereading =>
    rw [commitNext] at hnext
    split at hnext <;>
    · cases hnext
      exact ⟨h, trivial, Grows.refl s⟩
  | settling phase =>
    cases phase with
    | done outcome =>
      cases outcome with
      | settled e =>
        cases hnext
        exact ⟨h, hholds, Grows.refl s⟩
      | _ =>
        cases hnext
        exact ⟨h, trivial, Grows.refl s⟩
    | reading =>
      obtain ⟨⟨disk, phase₁⟩, hsettle, heq⟩ := map_eq_some_iff.mp hnext
      cases heq
      have hsettling : SettlingHolds s controlEpoch controlToken .reading := hholds
      exact settle_step h hsettling hsettle
    | installing epoch record =>
      obtain ⟨⟨disk, phase₁⟩, hsettle, heq⟩ := map_eq_some_iff.mp hnext
      cases heq
      have hsettling : SettlingHolds s controlEpoch controlToken (.installing epoch record) := hholds
      exact settle_step h hsettling hsettle
  | publishing mine =>
    rw [commitNext] at hnext
    split at hnext
    · next hnone =>
      cases hnext
      have hgrows : Grows s ⟨{ s.disk with result := some runResult }, s.dead⟩ :=
        ⟨fun _ _ hfile => hfile, List.Subset.refl _, List.Subset.refl _, fun r hr => by rw [hr] at hnone; cases hnone⟩
      obtain ⟨⟨gens, hledger⟩, -⟩ := h
      exact ⟨⟨⟨gens, hledger.recorded, hledger.first,
        fun i g g' hg hg' => (hledger.follows i g g' hg hg').grows hgrows⟩,
        fun _ => ⟨controlEpoch, controlToken, SettledAt.grows hgrows hholds⟩⟩, rfl, hgrows⟩
    · next hsome =>
      split at hnext
      · cases hnext
        exact ⟨h, by simpa [Holds, isSome_iff_ne_none] using hsome, Grows.refl s⟩
      · cases hnext
        exact ⟨h, trivial, Grows.refl s⟩
  | marking =>
    rw [commitNext] at hnext
    split at hnext
    · cases hnext
      exact ⟨h, trivial, Grows.refl s⟩
    · cases hnext
      exact ⟨h, hholds, Grows.refl s⟩
  | stamping =>
    cases hnext
    obtain ⟨hinv, hgrows⟩ := @Inv.beside _ _ _ { s.disk with status := some "settled" } h rfl rfl rfl
    exact ⟨hinv, trivial, hgrows⟩
  | refusing =>
    cases hnext
    obtain ⟨hinv, hgrows⟩ := @Inv.beside _ _ _ { s.disk with superseded := some runResult } h rfl rfl rfl
    exact ⟨hinv, trivial, hgrows⟩
  | done outcome => cases hnext

end Step

/-- What every step of the control keeps. -/
theorem control_outline (intact : Report → Bool) : (@control Holder Report intact).Outline Inv Holds Grows where
  begins := by
    intro s k _ hbegins
    cases hbegins <;> trivial
  step := by
    rintro s k ⟨disk', dead'⟩ k' hinv hholds ⟨input, hdead, hnext, hsame⟩
    obtain rfl : dead' = s.dead := hsame
    cases k with
    | acquire args phase =>
      obtain ⟨⟨disk, phase'⟩, hstep, heq⟩ := map_eq_some_iff.mp hnext
      cases heq
      exact acquire_step hinv hholds hdead hstep
    | release epoch token phase =>
      obtain ⟨⟨disk, phase'⟩, hstep, heq⟩ := map_eq_some_iff.mp hnext
      cases heq
      obtain ⟨hinv', hgrows⟩ := release_step hinv hstep
      exact ⟨hinv', trivial, hgrows⟩
    | settle epoch token phase =>
      obtain ⟨⟨disk, phase'⟩, hstep, heq⟩ := map_eq_some_iff.mp hnext
      cases heq
      exact settle_step hinv hholds hstep
    | commit epoch token runResult phase =>
      obtain ⟨⟨disk, phase'⟩, hstep, heq⟩ := map_eq_some_iff.mp hnext
      cases heq
      exact commit_step hinv hholds hstep
  around := by
    rintro s ⟨disk', dead'⟩ hinv ⟨hdisk, holder, hdead⟩
    obtain rfl : disk' = s.disk := hdisk
    obtain rfl : dead' = holder :: s.dead := hdead
    have hgrows : Grows s ⟨s.disk, holder :: s.dead⟩ :=
      ⟨fun _ _ hfile => hfile, List.Subset.refl _, subset_cons_self _ _, fun _ hr => hr⟩
    obtain ⟨⟨gens, hledger⟩, hresult⟩ := hinv
    refine ⟨⟨⟨gens, hledger.recorded, hledger.first,
      fun i g g' hg hg' => (hledger.follows i g g' hg hg').grows hgrows⟩, fun hsome => ?_⟩, hgrows⟩
    obtain ⟨e, token, hsettled⟩ := hresult hsome
    exact ⟨e, token, hsettled.grows hgrows⟩
  stable := fun _ _ hholds hgrows => hholds.grows hgrows

theorem outlined_initial (status : Option String) : Interleave.Outlined Inv Holds (initial Holder Report status) :=
  ⟨⟨⟨[], rfl, by simp, by simp⟩, fun h => by cases h⟩, fun k hk => by cases hk⟩

/-! ### The settled generation -/

variable {s : Store Holder Report} {g : Generation Holder} {epoch : ℕ}

theorem Ledger.last {gens : List (Generation Holder)} (h : Ledger s gens) {i : ℕ}
    (hg : gens[i]? = some g) (hsettled : g.purpose = "settled") : i + 1 = gens.length := by
  have hlt := (List.getElem?_eq_some_iff.mp hg).1
  by_contra hne
  have hnext : i + 1 < gens.length := by omega
  exact (h.follows i g _ hg (getElem?_eq_getElem hnext)).1 hsettled

theorem purpose_of_settles {token : String} (h : settles epoch token g = true) :
    g.purpose = "settled" ∧ g.controlToken = token ∧ g.settledEpoch = some epoch := by
  simpa [settles, and_assoc] using h

def Named (s : Store Holder Report) (controlEpoch : ℕ) (controlToken : String) : Prop :=
  ∃ epoch g, currentGeneration s.disk = some (epoch, g) ∧ settles controlEpoch controlToken g = true

theorem Named.grows {s' : Store Holder Report} {controlEpoch : ℕ} {controlToken : String} (hinv : Inv s) (hinv' : Inv s')
    (hgrows : Grows s s') (h : Named s controlEpoch controlToken) : Named s' controlEpoch controlToken := by
  obtain ⟨epoch, g, hcurrent, hsettles⟩ := h
  obtain ⟨gens, hledger⟩ := hinv.1
  obtain ⟨gens', hledger'⟩ := hinv'.1
  obtain ⟨i, rfl, hlisted, hg⟩ := hledger.recorded.current hcurrent
  have hat : At s' (i + 1) g := (hinv.current hcurrent).grows hgrows
  obtain ⟨j, hj, hg'⟩ := hledger'.recorded.at_file hat
  obtain rfl : i = j := by omega
  have hlast := hledger'.last hg' (purpose_of_settles hsettles).1
  cases hcurrent' : currentGeneration s'.disk with
  | none =>
    have hnil := hledger'.recorded.current_none hcurrent'
    rw [hnil] at hg'
    cases hg'
  | some now =>
    obtain ⟨epoch', g₁⟩ := now
    obtain ⟨j, rfl, hlisted', hg₁⟩ := hledger'.recorded.current hcurrent'
    have hlt := (List.getElem?_eq_some_iff.mp hg₁).1
    have hij : j = i := by
      cases hledger'.recorded.current_last hcurrent' with
      | inl hlength | inr hmax => omega
    subst hij
    obtain rfl : g = g₁ := some.inj (hg'.symm.trans hg₁)
    exact ⟨j + 1, g, hcurrent', hsettles⟩

theorem result_none_of_unsettled (hinv : Inv s)
    (hcurrent : currentGeneration s.disk = some (epoch, g)) (hpurpose : g.purpose ≠ "settled") (hlisted : epoch < maxListed) :
    s.disk.result = none ∧ generationFile s.disk (epoch + 1) = none := by
  obtain ⟨⟨gens, hledger⟩, hresult⟩ := hinv
  obtain ⟨i, rfl, -, hg⟩ := hledger.recorded.current hcurrent
  have hlength : i + 1 = gens.length := (hledger.recorded.current_last hcurrent).resolve_right (by omega)
  constructor
  · by_contra hsome
    obtain ⟨e, token, n, g', hat, hsettles⟩ := hresult (isSome_iff_ne_none.mpr hsome)
    obtain ⟨j, rfl, hg'⟩ := hledger.recorded.at_file hat
    have hlast := hledger.last hg' (purpose_of_settles hsettles).1
    obtain rfl : i = j := by omega
    obtain rfl : g = g' := some.inj (hg.symm.trans hg')
    exact hpurpose (purpose_of_settles hsettles).1
  · rw [hledger.recorded.file, getElem?_eq_none (by omega)]
    rfl

/-- Only a commit that publishes writes the result, and only where there is none. -/
theorem result_of_next {intact : Report → Bool} {input : Input} {disk disk' : Disk Holder Report} {k k' : Call Holder Report}
    (h : next intact input disk k = some (disk', k')) : disk'.result = disk.result ∨
      ∃ controlEpoch controlToken runResult mine, k = .commit controlEpoch controlToken runResult (.publishing mine) ∧
        disk.result = none ∧ disk'.result = some runResult := by
  have hinstall : ∀ epoch record outcome disk', install disk epoch record = (outcome, disk') → disk'.result = disk.result := by
    intro epoch record outcome disk' hinstall
    unfold install at hinstall
    split at hinstall <;>
    · obtain ⟨-, rfl⟩ := Prod.mk.inj hinstall
      rfl
  have hsettle : ∀ epoch token phase disk' phase', settleNext input disk epoch token phase = some (disk', phase') →
      disk'.result = disk.result := by
    intro epoch token phase disk' phase' hnext
    cases phase with
    | reading =>
      rw [settleNext] at hnext
      repeat' split at hnext
      all_goals
        obtain ⟨rfl, -⟩ := Prod.mk.inj (some.inj hnext)
        rfl
    | installing e record =>
      rw [settleNext] at hnext
      split at hnext
      all_goals
        next hinstalled =>
          obtain ⟨rfl, -⟩ := Prod.mk.inj (some.inj hnext)
          exact hinstall _ _ _ _ hinstalled
    | done outcome => cases hnext
  cases k with
  | acquire args phase =>
    left
    obtain ⟨⟨disk₁, phase'⟩, hstep, heq⟩ := map_eq_some_iff.mp h
    obtain ⟨rfl, -⟩ := Prod.mk.inj heq
    cases phase with
    | installing e record =>
      rw [acquireNext] at hstep
      split at hstep
      all_goals
        next hinstalled =>
          obtain ⟨rfl, -⟩ := Prod.mk.inj (some.inj hstep)
          exact hinstall _ _ _ _ hinstalled
    | done outcome => cases hstep
    | _ =>
      rw [acquireNext] at hstep
      repeat' split at hstep
      all_goals
        obtain ⟨rfl, -⟩ := Prod.mk.inj (some.inj hstep)
        rfl
  | release epoch token phase =>
    left
    obtain ⟨⟨disk₁, phase'⟩, hstep, heq⟩ := map_eq_some_iff.mp h
    obtain ⟨rfl, -⟩ := Prod.mk.inj heq
    cases phase with
    | done outcome => cases hstep
    | _ =>
      rw [releaseNext] at hstep
      repeat' split at hstep
      all_goals
        obtain ⟨rfl, -⟩ := Prod.mk.inj (some.inj hstep)
        rfl
  | settle epoch token phase =>
    left
    obtain ⟨⟨disk₁, phase'⟩, hstep, heq⟩ := map_eq_some_iff.mp h
    obtain ⟨rfl, -⟩ := Prod.mk.inj heq
    exact hsettle epoch token phase disk₁ phase' hstep
  | commit epoch token runResult phase =>
    obtain ⟨⟨disk₁, phase'⟩, hstep, heq⟩ := map_eq_some_iff.mp h
    obtain ⟨rfl, -⟩ := Prod.mk.inj heq
    cases phase with
    | publishing mine =>
      rw [commitNext] at hstep
      split at hstep
      · next hnone =>
        obtain ⟨rfl, -⟩ := Prod.mk.inj (some.inj hstep)
        exact .inr ⟨epoch, token, runResult, mine, rfl, isNone_iff_eq_none.mp hnone, rfl⟩
      · left
        split at hstep <;>
        · obtain ⟨rfl, -⟩ := Prod.mk.inj (some.inj hstep)
          rfl
    | settling phase =>
      left
      cases phase with
      | done outcome =>
        cases outcome <;>
        · obtain ⟨rfl, -⟩ := Prod.mk.inj (some.inj hstep)
          rfl
      | _ =>
        obtain ⟨⟨disk₂, phase₂⟩, hsettling, heq⟩ := map_eq_some_iff.mp hstep
        obtain ⟨rfl, -⟩ := Prod.mk.inj heq
        exact hsettle epoch token _ disk₂ phase₂ hsettling
    | done outcome => cases hstep
    | _ =>
      left
      rw [commitNext] at hstep
      repeat' split at hstep
      all_goals
        obtain ⟨rfl, -⟩ := Prod.mk.inj (some.inj hstep)
        rfl

end Forgent.RunControl
