import Forgent.StoreItems

/-!
# The gate in front of `delivered`

An item is delivered with its evidence: every clause of its acceptance that has a text has evidence too, and the
plan of a heavy item stands in Git.  `moveWork` checks both, in the view in which it appends.  The settling of a
claim checks neither, so it delivers what its caller wants delivered.

`GatedRun` are the runs in which no claim is settled to `delivered` without the evidence; every delivery of
such a run is appended in a view that has it.  What stands in Git is asked before the lock, so `git` is the
set of the states in which operations find the repository.
-/

namespace Forgent

open Json List Option

section

variable {host : Host} {view middle view' : View} {drafts drafts' : List Draft}

theorem Applied.trans (h : Applied host view drafts middle) (h' : Applied host middle drafts' view') :
    Applied host view (drafts ++ drafts') view' := by
  induction h with
  | nil => exact h'
  | work ts _ ih => exact .work ts (ih h')
  | knowledge knowledge hknow _ ih => exact .knowledge knowledge hknow (ih h')

variable (host) in
theorem exists_applied (view : View) (drafts : List Draft) : ∃ view', Applied host view drafts view' := by
  induction drafts generalizing view with
  | nil => exact ⟨view, .nil view⟩
  | cons d drafts ih =>
    obtain ⟨view', h⟩ := ih (applyWorkEvent host view (d.event ""))
    exact ⟨view', .work "" h⟩

theorem Applied.decisions (h : Applied host view drafts view') (hdrafts : ∀ d ∈ drafts, d.eventType = "decision")
    (id : String) : view'.work[id]? = view.work[id]? := by
  induction h with
  | nil => rfl
  | @work view view' d drafts ts _ ih =>
    obtain ⟨hd, hdrafts⟩ := forall_mem_cons.mp hdrafts
    have hsame : itemUpdate host (d.event ts) view.work[id]? = view.work[id]? := by
      obtain ⟨eventType, payload⟩ := d
      cases hd
      rfl
    rw [ih hdrafts, work_applyWorkEvent, hsame]
    split <;> rfl
  | knowledge _ _ _ ih => exact ih (forall_mem_cons.mp hdrafts).2

end

theorem split_at {α : Type} {p : α → Prop} {l r before after : List α} {m d : α} (hl : ∀ x ∈ l, ¬ p x)
    (hr : ∀ x ∈ r, ¬ p x) (hd : p d) (h : l ++ [m] ++ r = before ++ d :: after) : before = l ∧ d = m := by
  induction l generalizing before with
  | nil =>
    cases before with
    | nil =>
      cases h
      exact ⟨rfl, rfl⟩
    | cons x before =>
      have hrest : r = before ++ d :: after := (List.cons.inj h).2
      exact absurd hd (hr d (by simp [hrest]))
  | cons a l ih =>
    obtain ⟨ha, hl⟩ := forall_mem_cons.mp hl
    cases before with
    | nil =>
      have hhead : a = d := (List.cons.inj h).1
      exact absurd hd (hhead ▸ ha)
    | cons x before =>
      obtain ⟨hhead, htail⟩ := List.cons.inj h
      obtain ⟨hbefore, hd⟩ := ih hl htail
      exact ⟨by rw [hbefore, hhead], hd⟩

namespace Store

open WorkItem DepGraph StatusFsm Handoff

variable {σ : Linked} {git : Set Repository} {b b' : Board} {id : String} {work : Fields}
  {snapshot : Option PlanSnapshot} {u : Unit} {view : View} {repo : Repository} {drafts log : List Draft}

/-! ### The evidence -/

def HasEvidence (work : Fields) : Prop :=
  ∀ clause ∈ (arrayOf work["acceptance"]?).getD [], isNonBlank (clause.field "text") = true →
    isNonBlank (clause.field "evidence") = true

instance (work : Fields) : Decidable (HasEvidence work) :=
  inferInstanceAs (Decidable (∀ clause ∈ (arrayOf work["acceptance"]?).getD [], _ → _))

/-- Git was found to have the plan of a heavy item, and the branch of the item has not moved since. -/
def HasPlan (σ : Linked) (git : Set Repository) (id : String) (work : Fields) : Prop :=
  isHeavy work = true → ∃ asked ∈ git, ∃ now ∈ git, asked.branchTip (workBranch id) = now.branchTip (workBranch id) ∧
    ∃ item, σ.digest item = σ.digest work ∧ checkPlanEvidence σ id item asked = none

structure Evidenced (σ : Linked) (git : Set Repository) (id : String) (work : Fields) : Prop where
  acceptance : HasEvidence work
  plan : HasPlan σ git id work

theorem assertAcceptanceEvidence_eq_ok (h : assertAcceptanceEvidence σ id work = .ok u) : HasEvidence work := by
  unfold assertAcceptanceEvidence at h
  unfold HasEvidence
  generalize (arrayOf work["acceptance"]?).getD [] = clauses at h ⊢
  induction clauses with
  | nil => simp
  | cons clause clauses ih =>
    obtain ⟨_, hclause, h⟩ := bind_eq_ok.mp h
    intro other hother htext
    rcases mem_cons.mp hother with rfl | hother
    · dsimp only at hclause
      rw [if_pos htext] at hclause
      exact refuseUnless_eq_ok.mp hclause
    · exact ih h other hother htext

theorem applyPlanEvidenceSnapshot_eq_ok {env : Env}
    (h : applyPlanEvidenceSnapshot σ b env snapshot id work = .ok u) (hheavy : isHeavy work = true) :
    ∃ taken, snapshot = some taken ∧ isCurrent σ b env taken id = true ∧ taken.failure = none := by
  unfold applyPlanEvidenceSnapshot at h
  rw [hheavy] at h
  cases snapshot with
  | none => cases h
  | some taken =>
    obtain ⟨_, hcurrent, h⟩ := bind_eq_ok.mp h
    refine ⟨taken, rfl, refuseUnless_eq_ok.mp hcurrent, ?_⟩
    cases hfailure : taken.failure with
    | none => rfl
    | some failure =>
      simp only [hfailure] at h
      cases h

theorem snapshotPlanEvidence_eq_some {taken : PlanSnapshot}
    (h : snapshotPlanEvidence σ view repo id = some taken) : ∃ item, taken.revision = σ.digest item ∧
      taken.tip = repo.branchTip (workBranch id) ∧ taken.failure = checkPlanEvidence σ id item repo := by
  unfold snapshotPlanEvidence at h
  split at h
  · cases h
  · rename_i item hitem
    split at h
    · cases h
      refine ⟨item, ?_, rfl, rfl⟩
      show (view.work[id]?).elim "none" σ.digest = σ.digest item
      rw [hitem]
      rfl
    · cases h

/-- **What a move to `delivered` has checked.** -/
theorem evidenced_of_move {env : Env} (henv : env.repo ∈ git)
    (hsnapshot : ∀ taken ∈ snapshot, ∃ view, ∃ repo ∈ git, snapshotPlanEvidence σ view repo id = some taken)
    (hwork : b.view.work[id]? = some work) (hacceptance : assertAcceptanceEvidence σ id work = .ok ())
    (hplan : applyPlanEvidenceSnapshot σ b env snapshot id work = .ok ()) : Evidenced σ git id work where
  acceptance := assertAcceptanceEvidence_eq_ok hacceptance
  plan hheavy := by
    obtain ⟨taken, rfl, hcurrent, hfound⟩ := applyPlanEvidenceSnapshot_eq_ok hplan hheavy
    obtain ⟨view, repo, hrepo, htaken⟩ := hsnapshot taken rfl
    obtain ⟨item, hrevision, htip, hfailure⟩ := snapshotPlanEvidence_eq_some htaken
    rw [isCurrent, Bool.and_eq_true, decide_eq_true_eq, decide_eq_true_eq] at hcurrent
    have hdigest : revision σ b.view id = σ.digest work := by
      rw [revision, hwork]
      rfl
    refine ⟨repo, hrepo, env.repo, henv, ?_, item, ?_, ?_⟩
    · rw [← htip, hcurrent.2]
    · rw [← hrevision, hcurrent.1, hdigest]
    · rw [← hfailure, hfound]

/-- The evidence stands in these members. -/
def evidenceFields : List String := ["acceptance", "risk", "docsRef"]

theorem checkPlanEvidence_congr {work' : Fields} (h : ∀ k ∈ evidenceFields, work[k]? = work'[k]?) :
    checkPlanEvidence σ id work repo = checkPlanEvidence σ id work' repo := by
  have hrisk : isHeavy work = isHeavy work' := by
    unfold isHeavy
    rw [h "risk" (by decide)]
  have hplan : planCandidates σ id work = planCandidates σ id work' := by
    unfold planCandidates
    rw [h "docsRef" (by decide)]
  unfold checkPlanEvidence
  rw [hrisk, hplan]

/-! ### Settling a claim -/

def settledItem (work : Fields) (patch : Option Json) : Fields :=
  if (patchMembers patch).isSome then work.assign (normalizedPatch (spread patch)) else work

/-- The item that a claim is settled on has its evidence, unless it is delivered already. -/
def SettledEvidence (σ : Linked) (b : Board) (env : Env) (id : String) (args : Fields) : Prop :=
  ∀ work, b.view.work[id]? = some work → work["status"]? ≠ some (.str "delivered") →
    HasEvidence (settledItem work args["patch"]?) ∧
      checkPlanEvidence σ id (settledItem work args["patch"]?) env.repo = none

theorem settled_fields {env : Env} {args : Fields} {edited : List Draft} {attempt : Fields}
    {k : String} (hwork : b.view.work[id]? = some work) (hedited : settleEdit σ b env id args = .ok edited)
    (happlied : Applied σ.toHost b.view.core (edited ++ [⟨"work.attempt", attempt⟩]) view) (hrigor : "rigor" ≠ k)
    (hwriter : "writer" ≠ k) (hk : k ∉ otherFields) :
    (view.work[id]?).isSome = true ∧ fieldOf view.work[id]? k = (settledItem work args["patch"]?)[k]? := by
  obtain ⟨middle, hfirst, hlast⟩ := happlied.append
  have hattempt : ∀ d ∈ [(⟨"work.attempt", attempt⟩ : Draft)], Leaves k d := by
    intro d hd
    cases mem_singleton.mp hd
    exact leaves_of_isOther hk rfl
  obtain ⟨hfield, hsome⟩ := hlast.leaves hattempt id
  rw [hfield, hsome, settledItem]
  rcases settleEdit_eq_ok hedited with ⟨hpatch, rfl⟩ | ⟨hpatch, work', payload, rfl, hpatched⟩
  · cases hfirst
    rw [core_work, hwork, hpatch]
    exact ⟨rfl, rfl⟩
  · have hsame : work' = work := some.inj (hpatched.found.symm.trans hwork)
    subst hsame
    rw [hpatch]
    refine ⟨?_, hpatched.applied (show b.view.core.work[id]? = some work' from hwork) hfirst hrigor hwriter⟩
    obtain ⟨ts, rfl⟩ := hfirst.single rfl
    rw [work_applyWorkEvent, core_work, hwork]
    split <;> rfl

/-! ### Runs -/

inductive GatedStep (σ : Linked) (git : Set Repository) (b : Board) : List Draft → Board → Prop
  | move {b' : Board} {decision : Decision} (env : Env) (snapshot : Option PlanSnapshot) (prior : Option Fields)
      (engineDecision : Fields → Except Refusal (Option Fields)) (id : String) (args : Fields) :
      env.repo ∈ git →
      (∀ taken ∈ snapshot, ∃ view, ∃ repo ∈ git, snapshotPlanEvidence σ view repo id = some taken) →
      moveWorkOnce σ b env snapshot prior engineDecision id args = .ok decision →
      Records σ b decision.drafts b' → b'.claims = b.claims → GatedStep σ git b decision.drafts b'
  | settle {b' : Board} {drafts : List Draft} (env : Env) (drift : Option DriftEvidence) (id : String)
      (targetClaimId : Option Json) (args : Fields) (now : String) : env.repo ∈ git →
      settleTx σ b env drift id targetClaimId args now = .ok (drafts, b'.claims) → Records σ b drafts b' →
      (args["finalStatus"]? = some (.str "delivered") → SettledEvidence σ b env id args) → GatedStep σ git b drafts b'
  | quiet {b' : Board} {drafts : List Draft} : Transaction σ b drafts b' → (∀ d ∈ drafts, ¬ Delivers d) →
      GatedStep σ git b drafts b'

/-- The runs in which no claim is settled to `delivered` without the evidence. -/
inductive GatedRun (σ : Linked) (git : Set Repository) : List Draft → Board → Prop
  | start : GatedRun σ git [] emptyBoard
  | step {log drafts : List Draft} {b b' : Board} : GatedRun σ git log b → GatedStep σ git b drafts b' →
      GatedRun σ git (log ++ drafts) b'

theorem GatedStep.transaction (h : GatedStep σ git b drafts b') : Transaction σ b drafts b' := by
  cases h with
  | move env snapshot prior engineDecision id args _ hsnapshot hmove hrecords hclaims =>
    refine .move env snapshot prior engineDecision id args (fun taken htaken => ?_) hmove hrecords hclaims
    obtain ⟨view, repo, _, htaken⟩ := hsnapshot taken htaken
    exact ⟨view, repo, htaken⟩
  | settle env drift id targetClaimId args now _ hsettle hrecords _ =>
    exact .settle env drift id targetClaimId args now hsettle hrecords
  | quiet h _ => exact h

theorem GatedRun.run (h : GatedRun σ git log b) : Run σ log b := by
  induction h with
  | start => exact .start
  | step _ hstep ih => exact .step ih hstep.transaction

/-- A delivery in a transaction, with the view in which it is appended. -/
theorem GatedStep.delivery {before after : List Draft} {d : Draft} (hb : Kept σ b)
    (h : GatedStep σ git b drafts b') (hdrafts : drafts = before ++ d :: after) (hd : Delivers d) :
    ∃ view id work, Applied σ.toHost b.view.core before view ∧ d.payload["id"]? = some (.str id) ∧
      view.work[id]? = some work ∧ Evidenced σ git id work := by
  obtain ⟨view, happlied⟩ := exists_applied σ.toHost b.view.core before
  cases h with
  | quiet _ hno => exact absurd hd (hno d (by simp [hdrafts]))
  | @move _ decision env snapshot prior engineDecision id args henv hsnapshot hmove _ _ =>
    rcases moveWorkOnce_eq_ok hmove with ⟨hnil, _⟩ |
      ⟨work, transition, decided, hwork, htransition, hgate, hreported, hdecided, hmoved⟩
    · rw [hdrafts] at hnil
      exact absurd hnil (by simp)
    · -- the move stands behind the decisions, and in front of the review
      have hreview : ∀ x ∈ reviewHandoff σ b env id work args, ¬ Delivers x := fun x hx hdelivers =>
        handed_reviewHandoff.not_move x hx hdelivers.1
      have hdecisions : ∀ x ∈ decided, ¬ Delivers x := fun x hx hdelivers => by
        have htype := hdelivers.1
        rw [hdecided x hx] at htype
        exact absurd htype (by decide)
      obtain ⟨rfl, rfl⟩ := split_at hdecisions hreview hd (hmoved.symm.trans hdrafts)
      obtain ⟨itemId, src, dst, hdst, hmovedItem⟩ := moved_of_move env id hwork htransition
      rw [← hreported] at hmovedItem
      have hid : itemId = id := by
        obtain ⟨decided', hdecided', _⟩ := hmovedItem.transition
        simpa using hdecided'.workId.symm.trans (hb.filed id work hwork)
      have hto : args["to"]? = some (.str "delivered") := by
        rw [hdst]
        exact hmovedItem.payloadTo.symm.trans hd.2
      obtain ⟨hacceptance, hplan⟩ := hgate hto
      refine ⟨view, id, work, happlied, hid ▸ hmovedItem.payloadId, ?_,
        evidenced_of_move henv hsnapshot hwork hacceptance hplan⟩
      rw [happlied.decisions hdecided, core_work, hwork]
  | settle env drift id targetClaimId args now henv hsettle _ hgate =>
    obtain ⟨claim, work, edited, moved, _, _, _, hwork, hmoved, hedited, hsettled, _⟩ := settleTx_eq_ok hsettle
    have hfront : ∀ x ∈ edited ++ [⟨"work.attempt", attemptPayload id claim args work["status"]? now⟩], ¬ Delivers x := by
      intro x hx hdelivers
      rcases mem_append.mp hx with hx | hx
      · rcases settleEdit_eq_ok hedited with ⟨_, rfl⟩ | ⟨_, _, _, rfl, _⟩
        · cases hx
        · cases mem_singleton.mp hx
          exact absurd hdelivers.1 (by simp)
      · cases mem_singleton.mp hx
        exact absurd hdelivers.1 (by simp)
    rcases settleMove_eq_ok hmoved with ⟨rfl, _⟩ | ⟨transition, htransition, rfl⟩
    · -- nothing moves
      rw [append_nil] at hsettled
      exact absurd hd (hfront d (by rw [← hsettled, hdrafts]; simp))
    · obtain ⟨rfl, rfl⟩ := split_at hfront (r := []) (by simp) hd
        ((append_nil _).trans (hsettled.symm.trans hdrafts))
      obtain ⟨itemId, src, dst, hdst, hmovedItem⟩ := moved_of_settle env hwork htransition
      obtain ⟨decided, hdecided, _⟩ := hmovedItem.transition
      have hid : itemId = id := by simpa using hdecided.workId.symm.trans (hb.filed id work hwork)
      have hdelivered : dst = "delivered" := by simpa using hmovedItem.payloadTo.symm.trans hd.2
      have hundelivered : work["status"]? ≠ some (.str "delivered") := by
        rw [hdecided.status]
        intro heq
        have hedge := hdecided.edge
        rw [hdelivered, Json.str.inj (some.inj heq)] at hedge
        simp [transitions] at hedge
      obtain ⟨hacceptance, hplan⟩ := hgate (hdst.trans (by rw [hdelivered])) work hwork hundelivered
      have hfields : ∀ k ∈ evidenceFields, (view.work[id]?).isSome = true ∧
          fieldOf view.work[id]? k = (settledItem work args["patch"]?)[k]? := by
        intro k hk
        have hne : "rigor" ≠ k ∧ "writer" ≠ k ∧ k ∉ otherFields := by
          revert k
          decide
        exact settled_fields hwork hedited happlied hne.1 hne.2.1 hne.2.2
      obtain ⟨item, hitem⟩ := isSome_iff_exists.mp (hfields "risk" (by decide)).1
      rw [hitem] at hfields
      have hsame : ∀ k ∈ evidenceFields, item[k]? = (settledItem work args["patch"]?)[k]? := fun k hk =>
        (hfields k hk).2
      refine ⟨view, id, item, happlied, hid ▸ hmovedItem.payloadId, hitem, ?_, fun _ => ?_⟩
      · rw [HasEvidence, hsame "acceptance" (by decide)]
        exact hacceptance
      · exact ⟨env.repo, henv, env.repo, henv, rfl, item, rfl, (checkPlanEvidence_congr hsame).trans hplan⟩

theorem Run.applied (h : Run σ log b) : Applied σ.toHost View.empty log b.view.core := by
  induction h with
  | start => exact .nil _
  | step hrun hstep ih => exact ih.trans (hrun.kept.applied hstep).2

namespace Sample

def fix (evidence : List (String × Json)) : Fields :=
  item "fix" "blocked" [("acceptance", some (.arr [.obj (("text", .str "the tests pass") :: evidence)]))]

def shown : List (String × Json) := [("evidence", .str "npm test")]

def claimedFix (evidence : List (String × Json)) : Board :=
  claimed (added emptyBoard (fix evidence)) "fix" claimOfBlocked

def settlement (evidence : List (String × Json)) : List Draft := (drafted (settle (claimedFix evidence) "fix" delivery)).1

def settledFix (evidence : List (String × Json)) : Board := settled (claimedFix evidence) "fix" delivery

def Played (evidence : List (String × Json)) : Prop :=
  (addWork linked emptyBoard env (fix evidence)).toOption.isSome = true ∧
    (folded linked emptyBoard.view [drafted (addWork linked emptyBoard env (fix evidence))]).toOption.isSome = true ∧
    (acquire (added emptyBoard (fix evidence)) "fix" claimOfBlocked).toOption.isSome = true ∧
    (settle (claimedFix evidence) "fix" delivery).toOption.isSome = true ∧
    (folded linked (claimedFix evidence).view (settlement evidence)).toOption.isSome = true ∧
    (settlement evidence).map (fun d => (d.eventType, d.payload["to"]?, d.payload["id"]?)) =
      [("work.attempt", some (.str "delivered"), some (.str "fix")),
        ("work.move", some (.str "delivered"), some (.str "fix"))]

instance (evidence : List (String × Json)) : Decidable (Played evidence) := inferInstanceAs (Decidable (_ ∧ _))

variable {evidence : List (String × Json)}

section

variable (h : Played evidence)

include h

theorem settlement_eq :
    ∃ attempt d, settlement evidence = [attempt, d] ∧ attempt.eventType = "work.attempt" ∧ Delivers d ∧
      d.payload["id"]? = some (.str "fix") := by
  obtain ⟨_, _, _, _, _, hmap⟩ := h
  obtain ⟨attempt, rest, hdrafts, hattempt, hrest⟩ := map_eq_cons_iff.mp hmap
  obtain ⟨d, _, rfl, hd, hnil⟩ := map_eq_cons_iff.mp hrest
  rw [map_eq_nil_iff] at hnil
  subst hnil
  simp only [Prod.mk.injEq] at hattempt hd
  exact ⟨attempt, d, hdrafts, hattempt.1, ⟨hd.1, hd.2.1⟩, hd.2.2⟩

theorem added_fix : Transaction linked emptyBoard [drafted (addWork linked emptyBoard env (fix evidence))]
      (added emptyBoard (fix evidence)) :=
  .add env _ (eq_drafted h.1) (records_after _ h.2.1) rfl

theorem claimed_fix : Transaction linked (added emptyBoard (fix evidence)) [] (claimedFix evidence) :=
  .acquire env "fix" (record claimOfBlocked) "claim" "now" (eq_drafted h.2.2.1)

theorem settled_fix :
    settle (claimedFix evidence) "fix" delivery = .ok (settlement evidence, (settledFix evidence).claims) ∧
      Records linked (claimedFix evidence) (settlement evidence) (settledFix evidence) :=
  ⟨settle_eq h.2.2.2.1, records_after _ h.2.2.2.2.1⟩

end

theorem acceptance_kept {draft attempt : Draft} {view : View} {work : Fields}
    (hadd : addWork linked emptyBoard env (fix evidence) = .ok draft) (hattempt : attempt.eventType = "work.attempt")
    (h : Applied linked.toHost View.empty [draft, attempt] view) (hwork : view.work["fix"]? = some work) :
    work["acceptance"]? = (fix evidence)["acceptance"]? := by
  have hsplit : Applied linked.toHost View.empty ([draft] ++ [attempt]) view := h
  obtain ⟨middle, hfirst, hlast⟩ := hsplit.append
  obtain ⟨ts, rfl⟩ := hfirst.single (by rw [addWork_eventType hadd]; decide)
  have hleaves : ∀ d ∈ [attempt], Leaves "acceptance" d := by
    intro d hd
    rw [mem_singleton.mp hd]
    exact leaves_of_isOther (by decide) (by rw [hattempt]; rfl)
  have hid : draft.payload["id"]? = some (.str "fix") := by
    rw [addWork_payload hadd (by decide), fix, item, getElem?_record _ (by simp)]
    rfl
  have hitem : itemOf linked.toHost (draft.event ts) = "fix" := by
    show Json.key linked.arithmetic (member (some draft.payload.toJson) "id") = "fix"
    rw [member_toJson, hid]
    rfl
  have hkept := (hlast.leaves hleaves "fix").1
  rw [hwork, work_applyWorkEvent, if_pos hitem, itemUpdate_add (addWork_eventType hadd) hid] at hkept
  exact hkept.trans (addedItem_of_addWork hadd (by decide) (by decide))

end Sample

end Store

end Forgent
