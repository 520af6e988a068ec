import Forgent.GitWalBinding

/-!
# One step of each call of the log

Every step keeps the files, what the call knows, and the binding of the id.
-/

namespace Forgent.GitWal

open Option

variable {κ φ : Type} {crate : Crate κ φ} {timely : Prop} {s s' : Store κ φ} {c : CompactReceipt}
  {records : List (Record κ φ)} {intent : Intent κ} {input : Input} {r : Record κ φ} {i : Intent κ}
  {chain : List (Record κ φ)} {k : Call κ φ}

/-! ### Reading -/

theorem compacted_error {err : WalError} (h : compacted s crate = .error err) : err = .corrupt := by
  unfold compacted at h
  split at h
  · cases h
  · split at h
    · cases h
    · exact (Except.error.inj h).symm

theorem compacted_none (h : compacted s crate = .ok none) : s.ledger = none := by
  unfold compacted at h
  split at h
  · assumption
  · split at h <;> cases h

theorem compacted_some (h : compacted s crate = .ok (some c)) : s.ledger = some c := by
  unfold compacted at h
  split at h
  · cases h
  · next c' hledger =>
    split at h
    · rw [hledger, some.inj (Except.ok.inj h)]
    · cases h

theorem Inv.bound_of_zero (h : Inv crate timely s) {d : ℕ} (hd : Handle s d) (hr : s.record d 0 = some r)
    (hs : Sure timely s) : bound crate s = keyOfRecord crate r := by
  cases hledger : s.ledger with
  | none => exact bound_of_record hledger (hd hledger) hr
  | some c =>
    have htimely : timely := hs.resolve_right (by simp [hledger])
    rw [bound_of_ledger hledger, h.entered htimely c hledger d r hr]

theorem chainIntent_eq_some (h : chainIntent records = some i) :
    ∃ r, records.head? = some r ∧ r.phase = .intent i := by
  unfold chainIntent at h
  split at h
  · next hhead => exact ⟨_, hhead, by rw [some.inj h]⟩
  · cases h

theorem Head.append (h : Head crate timely s records)
    (hfirst : records = [] → (∃ i, r.phase = .intent i ∧ i.repoIdentity = crate.identity) ∧
      (Sure timely s → bound crate s = keyOfRecord crate r)) : Head crate timely s (records ++ [r]) := by
  intro r' hr'
  cases records with
  | nil =>
    obtain rfl : r = r' := some.inj hr'
    exact hfirst rfl
  | cons r₀ records => exact h r' hr'

theorem inspect_step (h : Inv crate timely s) {inspecting : Inspecting κ φ} (hi : InspectHolds crate timely s inspecting) :
    InspectHolds crate timely s (inspectNext s crate inspecting) := by
  cases inspecting with
  | opening =>
    rw [inspectNext]
    split
    · exact .inl rfl
    · next d hroot => exact fun _ => hroot
  | listing d =>
    rw [inspectNext]
    split
    · exact .inr (.inl rfl)
    · exact ⟨hi, fun r hr => by cases hr⟩
  | reading d left records =>
    obtain ⟨hd, hhead⟩ := hi
    cases left with
    | cons n left =>
      rw [inspectNext]
      split
      · exact .inr (.inl rfl)
      · next hn =>
        split
        · exact .inl rfl
        · next r hr =>
          refine ⟨hd, hhead.append fun hnil => ?_⟩
          rw [hnil, List.length_nil, not_not] at hn
          subst hn
          exact ⟨h.zero d r hr, fun hs => h.bound_of_zero hd hr hs⟩
    | nil =>
      rw [inspectNext]
      split
      · exact .inr (.inl rfl)
      · next i hchain =>
        obtain ⟨r, hr, hphase⟩ := chainIntent_eq_some hchain
        obtain ⟨⟨i', hphase', hidentity⟩, hbound⟩ := hhead r hr
        obtain rfl : i = i' := Phase.intent.inj (hphase.symm.trans hphase')
        split
        · exact .inr (.inl rfl)
        · rw [if_neg (by simpa using hidentity)]
          refine ⟨i, hchain, fun hs => ?_⟩
          rw [hbound hs, keyOfRecord, hphase]
  | done outcome => exact hi

/-! ### `begin` -/

theorem ended_answer (h : compacted s crate = .ok (some c)) :
    Ended crate timely s intent (answer crate intent c) := by
  unfold answer
  split
  · next hbinds =>
    show bound crate s = _
    rw [bound_of_ledger (compacted_some h), of_decide_eq_true hbinds]
  · exact .inr (.inr rfl)

theorem same_request (h : Chained crate timely s records) :
    Ended crate timely s intent (sameRequest crate intent records) := by
  obtain ⟨i, hi, hbound⟩ := h
  rw [sameRequest, hi]
  dsimp only
  split
  · next hkey => exact fun hs => by rw [hbound hs, hkey]
  · exact .inr (.inr rfl)

theorem begin_step {phase phase' : Beginning κ φ} (h : Inv crate timely s)
    (hb : BeginHolds crate timely s intent phase) (hlate : timely → ∀ d, phase = .linking d → s.ledger = none)
    (hnext : beginNext s crate input intent phase = some (s', phase')) :
    Inv crate timely s' ∧ BeginHolds crate timely s' intent phase' ∧ Keeps crate s s' := by
  -- A step that leaves the files as they are.
  have hstay : ∀ {phase₁ : Beginning κ φ}, some (s, phase₁) = some (s', phase') → BeginHolds crate timely s intent phase₁ →
      Inv crate timely s' ∧ BeginHolds crate timely s' intent phase' ∧ Keeps crate s s' := by
    intro phase₁ heq hholds
    cases heq
    exact ⟨h, hholds, Keeps.refl s⟩
  cases phase with
  | admitting =>
    rw [beginNext] at hnext
    split at hnext
    · exact hstay hnext trivial
    · split at hnext
      · exact hstay hnext trivial
      · split at hnext
        · exact hstay hnext trivial
        · next hidentity => exact hstay hnext (not_not.mp hidentity)
  | looking =>
    rw [beginNext] at hnext
    split at hnext
    · next err herr => exact hstay hnext (.inr (.inl (compacted_error herr)))
    · next c hc => exact hstay hnext (ended_answer hc)
    · split at hnext
      · exact hstay hnext trivial
      · exact hstay hnext hb
  | making =>
    rw [beginNext] at hnext
    cases hnext
    obtain ⟨hinv, hkeeps⟩ := h.makeDir
    exact ⟨hinv, hb, hkeeps⟩
  | opening =>
    rw [beginNext] at hnext
    split at hnext
    · exact hstay hnext (.inl rfl)
    · next d hroot => exact hstay hnext ⟨hb, fun _ => hroot⟩
  | lookingAgain d | fallback err =>
    rw [beginNext] at hnext
    split at hnext
    · next err herr => exact hstay hnext (.inr (.inl (compacted_error herr)))
    · next c hc => exact hstay hnext (ended_answer hc)
    · exact hstay hnext hb
  | probing d =>
    rw [beginNext] at hnext
    split at hnext
    · exact hstay hnext trivial
    · exact hstay hnext hb
  | existing inspecting lost =>
    cases inspecting with
    | done outcome =>
      cases outcome with
      | ok records =>
        have hended : Ended crate timely s intent (sameRequest crate intent records) := same_request hb
        rw [beginNext] at hnext
        split at hnext
        · next begun hbegun => exact hstay hnext (hbegun ▸ hended)
        · next err herr =>
          rw [herr] at hended
          split at hnext <;> exact hstay hnext hended
      | error err =>
        rw [beginNext] at hnext
        split at hnext <;> exact hstay hnext hb
    | _ => exact hstay hnext (inspect_step h hb)
  | writing d =>
    rw [beginNext] at hnext
    split at hnext
    · exact hstay hnext (.inl rfl)
    · next s₁ hadd =>
      cases hnext
      obtain ⟨hinv, hkeeps⟩ := h.addTemporary hadd
      exact ⟨hinv, ⟨hb.1, Handle.keeps hkeeps hb.2⟩, hkeeps⟩
  | linking d =>
    rw [beginNext] at hnext
    split at hnext
    · exact hstay hnext (.inl rfl)
    · next created s₁ hlink =>
      cases hnext
      obtain ⟨hinv, hkeeps, hcreated⟩ := h.link hlink (fun _ => ⟨intent, rfl, hb.1⟩) (fun _ ht => hlate ht d rfl)
      refine ⟨hinv, fun hnew hnone => ?_, hkeeps⟩
      obtain ⟨hroot, -, hrecord, -, hroot'⟩ := hcreated hnew
      exact bound_of_record hnone (hroot'.trans hroot) hrecord
  | clearing d created =>
    rw [beginNext] at hnext
    cases hnext
    obtain ⟨hinv, hkeeps⟩ := h.dropTemporary d
    exact ⟨hinv, fun hnew hnone => hkeeps.bound _ (hb hnew (hkeeps.ledger_none hnone)), hkeeps⟩
  | lookingLast created =>
    rw [beginNext] at hnext
    split at hnext
    · next err herr => exact hstay hnext (.inr (.inl (compacted_error herr)))
    · next c hc => exact hstay hnext (ended_answer hc)
    · next hnone =>
      split at hnext
      · next hnew => exact hstay hnext (hb hnew (compacted_none hnone))
      · exact hstay hnext trivial
  | notAdmitted err | done outcome => cases hnext

/-! ### `append` -/

theorem append_step {recorded : φ} {phase phase' : Appending κ φ} (h : Inv crate timely s)
    (hb : AppendHolds crate timely s chain phase) (hnext : appendNext s crate chain recorded phase = some (s', phase')) :
    Inv crate timely s' ∧ AppendHolds crate timely s' chain phase' ∧ Keeps crate s s' := by
  have hstay : ∀ {phase₁ : Appending κ φ}, some (s, phase₁) = some (s', phase') → AppendHolds crate timely s chain phase₁ →
      Inv crate timely s' ∧ AppendHolds crate timely s' chain phase' ∧ Keeps crate s s' := by
    intro phase₁ heq hholds
    cases heq
    exact ⟨h, hholds, Keeps.refl s⟩
  cases phase with
  | validating =>
    rw [appendNext] at hnext
    split at hnext
    · exact hstay hnext trivial
    · next hvalid => exact hstay hnext ⟨fun hnil => hvalid (.inl hnil), trivial⟩
  | inspecting inspecting =>
    cases inspecting with
    | done outcome =>
      cases outcome with
      | ok actual =>
        rw [appendNext] at hnext
        split at hnext
        · exact hstay hnext trivial
        · split at hnext
          · exact hstay hnext trivial
          · exact hstay hnext hb.1
      | error err => exact hstay hnext trivial
    | _ => exact hstay hnext ⟨hb.1, inspect_step h hb.2⟩
  | opening =>
    rw [appendNext] at hnext
    split at hnext
    · exact hstay hnext trivial
    · exact hstay hnext hb
  | writing d =>
    rw [appendNext] at hnext
    split at hnext
    · exact hstay hnext trivial
    · next s₁ hadd =>
      cases hnext
      obtain ⟨hinv, hkeeps⟩ := h.addTemporary hadd
      exact ⟨hinv, hb, hkeeps⟩
  | linking d =>
    rw [appendNext] at hnext
    split at hnext
    · exact hstay hnext trivial
    · next created s₁ hlink =>
      cases hnext
      -- The record is behind those of a chain that has one: it is no record zero.
      have hbehind : (nextRecord crate chain recorded).sequence ≠ 0 := fun hzero => hb (List.length_eq_zero_iff.mp hzero)
      obtain ⟨hinv, hkeeps, -⟩ := h.link hlink (fun hzero => absurd hzero hbehind) (fun hzero => absurd hzero hbehind)
      exact ⟨hinv, hb, hkeeps⟩
  | clearing d created =>
    rw [appendNext] at hnext
    cases hnext
    obtain ⟨hinv, hkeeps⟩ := h.dropTemporary d
    exact ⟨hinv, trivial, hkeeps⟩
  | done outcome => cases hnext

/-! ### `compact` and `resume_compaction` -/

theorem remove_step (h : Inv crate timely s) (hledger : s.ledger ≠ none) (removing : Removing) :
    Inv crate timely (removeNext s removing).1 ∧ (removeNext s removing).1.ledger ≠ none ∧
      Keeps crate s (removeNext s removing).1 := by
  have hstay : Inv crate timely s ∧ s.ledger ≠ none ∧ Keeps crate s s := ⟨h, hledger, Keeps.refl s⟩
  cases removing with
  | records d left =>
    cases left with
    | nil => exact hstay
    | cons n left =>
      rw [removeNext]
      split
      · exact hstay
      · next s₁ hremove =>
        obtain ⟨hinv, hkeeps⟩ := h.removeRecord hledger hremove
        exact ⟨hinv, ledger_keeps hkeeps hledger, hkeeps⟩
  | directory =>
    rw [removeNext]
    split
    · exact hstay
    · next s₁ hremove =>
      obtain ⟨hinv, hkeeps⟩ := h.removeDir hledger hremove
      exact ⟨hinv, ledger_keeps hkeeps hledger, hkeeps⟩
  | done outcome => exact hstay

theorem compactEntry_key {actual : List (Record κ φ)} (hi : chainIntent actual = some i)
    (h : compactEntry crate actual = some c) : (c.request, c.binding) = key crate i := by
  obtain ⟨i', hi', h⟩ := bind_eq_some_iff.mp h
  obtain ⟨outcome, -, h⟩ := bind_eq_some_iff.mp h
  obtain rfl := some.inj (hi.symm.trans hi')
  rw [← some.inj h]
  rfl

theorem compact_step {phase phase' : Compacting κ φ} (h : Inv crate timely s)
    (hb : CompactHolds crate timely s phase) (hnext : compactNext s crate input chain phase = some (s', phase')) :
    Inv crate timely s' ∧ CompactHolds crate timely s' phase' ∧ Keeps crate s s' := by
  have hstay : ∀ {phase₁ : Compacting κ φ}, some (s, phase₁) = some (s', phase') → CompactHolds crate timely s phase₁ →
      Inv crate timely s' ∧ CompactHolds crate timely s' phase' ∧ Keeps crate s s' := by
    intro phase₁ heq hholds
    cases heq
    exact ⟨h, hholds, Keeps.refl s⟩
  cases phase with
  | authorizing =>
    rw [compactNext] at hnext
    split at hnext <;> exact hstay hnext trivial
  | inspecting inspecting =>
    cases inspecting with
    | done outcome =>
      cases outcome with
      | ok actual =>
        rw [compactNext] at hnext
        split at hnext
        · exact hstay hnext trivial
        · exact hstay hnext hb
      | error err => exact hstay hnext trivial
    | _ => exact hstay hnext (inspect_step h hb)
  | opening actual | reopening actual c =>
    rw [compactNext] at hnext
    split at hnext
    · exact hstay hnext trivial
    · exact hstay hnext hb
  | listing actual d =>
    obtain ⟨i, hi, hbound⟩ := hb
    rw [compactNext] at hnext
    split at hnext
    · exact hstay hnext trivial
    · split at hnext
      · exact hstay hnext trivial
      · split at hnext
        · exact hstay hnext trivial
        · next c hentry =>
          split at hnext
          · exact hstay hnext trivial
          · exact hstay hnext fun hs => by rw [hbound hs, compactEntry_key hi hentry]
  | entering actual c =>
    rw [compactNext] at hnext
    split at hnext
    · next s₁ henter =>
      cases hnext
      obtain ⟨hinv, hkeeps, hledger⟩ := h.enter henter fun hnone => hb (.inr hnone)
      exact ⟨hinv, hledger, hkeeps⟩
    · next s₁ henter =>
      cases hnext
      obtain ⟨hinv, hkeeps, hledger⟩ := h.enter henter fun hnone => hb (.inr hnone)
      exact ⟨hinv, trivial, hkeeps⟩
  | comparing actual c =>
    rw [compactNext] at hnext
    split at hnext
    · exact hstay hnext trivial
    · exact hstay hnext trivial
    · next there hthere =>
      split at hnext
      · exact hstay hnext trivial
      · exact hstay hnext (show s.ledger ≠ none by rw [compacted_some hthere]; simp)
  | removing c removing =>
    have hremove := remove_step h hb removing
    cases removing with
    | done outcome =>
      cases outcome with
      | ok _ | error err => exact hstay hnext trivial
    | _ =>
      cases hnext
      exact hremove
  | done outcome => cases hnext

theorem resume_step {phase phase' : Resuming κ φ} (h : Inv crate timely s)
    (hb : ResumeHolds s phase) (hnext : resumeNext s crate input intent phase = some (s', phase')) :
    Inv crate timely s' ∧ ResumeHolds s' phase' ∧ Keeps crate s s' := by
  have hstay : ∀ {phase₁ : Resuming κ φ}, some (s, phase₁) = some (s', phase') → ResumeHolds s phase₁ →
      Inv crate timely s' ∧ ResumeHolds s' phase' ∧ Keeps crate s s' := by
    intro phase₁ heq hholds
    cases heq
    exact ⟨h, hholds, Keeps.refl s⟩
  cases phase with
  | authorizing =>
    rw [resumeNext] at hnext
    split at hnext <;> exact hstay hnext trivial
  | looking =>
    rw [resumeNext] at hnext
    split at hnext
    · exact hstay hnext trivial
    · exact hstay hnext trivial
    · next c hc =>
      split at hnext
      · exact hstay hnext trivial
      · split at hnext
        · exact hstay hnext trivial
        · exact hstay hnext (show s.ledger ≠ none by rw [compacted_some hc]; simp)
  | opening =>
    rw [resumeNext] at hnext
    split at hnext
    · exact hstay hnext trivial
    · exact hstay hnext hb
  | listing d =>
    rw [resumeNext] at hnext
    split at hnext
    · exact hstay hnext trivial
    · split at hnext
      · exact hstay hnext trivial
      · exact hstay hnext hb
  | reading d left records =>
    cases left with
    | cons n left =>
      rw [resumeNext] at hnext
      split at hnext
      · exact hstay hnext trivial
      · exact hstay hnext hb
    | nil =>
      rw [resumeNext] at hnext
      split at hnext
      · exact hstay hnext hb
      · exact hstay hnext trivial
  | removing removing =>
    have hremove := remove_step h hb removing
    cases removing with
    | done outcome => exact hstay hnext trivial
    | _ =>
      cases hnext
      exact hremove
  | done outcome => cases hnext

/-! ### Every call -/

theorem Holds.failed (h : Holds crate timely s k) : Holds crate timely s k.failed := by
  cases k with
  | begin intent phase =>
    cases phase with
    | done outcome => exact h
    | notAdmitted err => trivial
    | _ => exact .inl rfl
  | append chain recorded phase | compact chain phase | resume intent phase => cases phase <;> trivial

theorem next_step {k' : Call κ φ} (h : Inv crate timely s) (hk : Holds crate timely s k)
    (hlate : timely → ¬ Late s k) (hnext : next s crate input k = some (s', k')) :
    Inv crate timely s' ∧ Holds crate timely s' k' ∧ Keeps crate s s' := by
  cases k with
  | begin intent phase =>
    obtain ⟨⟨s₁, phase'⟩, hbegin, heq⟩ := map_eq_some_iff.mp hnext
    cases heq
    refine begin_step h hk (fun ht d hphase => ?_) hbegin
    subst hphase
    exact not_not.mp (hlate ht)
  | append chain recorded phase =>
    obtain ⟨⟨s₁, phase'⟩, happend, heq⟩ := map_eq_some_iff.mp hnext
    cases heq
    exact append_step h hk happend
  | compact chain phase =>
    obtain ⟨⟨s₁, phase'⟩, hcompact, heq⟩ := map_eq_some_iff.mp hnext
    cases heq
    exact compact_step h hk hcompact
  | resume intent phase =>
    obtain ⟨⟨s₁, phase'⟩, hresume, heq⟩ := map_eq_some_iff.mp hnext
    cases heq
    exact resume_step h hk hresume

theorem wal_outline (crate : Crate κ φ) (timely : Prop) :
    (wal crate timely).Outline (Inv crate timely) (Holds crate timely) (Keeps crate) where
  begins := by
    intro s k _ hbegins
    cases hbegins <;> trivial
  step := by
    intro s k s' k' hinv hk hstep
    cases hstep with
    | inl hfailed =>
      obtain ⟨rfl, rfl⟩ := hfailed
      exact ⟨hinv, hk.failed, Keeps.refl _⟩
    | inr hmoves =>
      obtain ⟨hlate, input, hnext⟩ := hmoves
      exact next_step hinv hk hlate hnext
  around := fun _ haround => haround.elim
  stable := fun _ _ hk hkeeps => Holds.keeps hkeeps hk

theorem outlined_initial (crate : Crate κ φ) (timely : Prop) :
    Interleave.Outlined (Inv crate timely) (Holds crate timely) (initial κ φ) := by
  refine ⟨⟨nofun, nofun, nofun, ?_, nofun⟩, fun _ hk => by cases hk⟩
  intro d r hr
  obtain ⟨dir, hdir, -⟩ := record_eq_some.mp hr
  cases hdir

end Forgent.GitWal
