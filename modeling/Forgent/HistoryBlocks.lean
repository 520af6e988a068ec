import Forgent.Cluster
import Forgent.OrderStable

/-!
# The blocks of a history

An order contracts a promote and the branch events it takes into one node.  Which events a promote takes
is settled by the whole history: a branch event goes with the first promote that names it (`headOf`).
A clone that holds a gap-free part of the events cuts its blocks out of those (`headOf_block`).
-/

namespace Forgent

open Relation List

/-! ### What a run records -/

/-- What every run keeps true of the acknowledged events: they form a history, each is valid, and a
promote of the project stream names a number that its branch has reached. -/
structure Recorded (c : Codec) (l : List Envelope) : Prop where
  history : History l
  valid : AllValid c l
  promotes : ∀ p ∈ l, p.eventType = "store.promote" → p.scope = .project ∧ p.stream = "project" ∧
    ∃ stream n, promoteClaim p = some (stream, n) ∧ n ≤ high l (positionKey p.origin stream)

section

variable {c : Codec} {l es : List Envelope} {e x p : Envelope}

theorem recorded_nil : Recorded c [] where
  history := .nil
  valid := by simp [AllValid]
  promotes := by simp

theorem Recorded.snoc (h : Recorded c l) (he : Extends l e) (hv : e.Valid c)
    (hprom : e.eventType = "store.promote" → e.scope = .project ∧ e.stream = "project" ∧
      ∃ stream n, promoteClaim e = some (stream, n) ∧ n ≤ high l (positionKey e.origin stream)) :
    Recorded c (l ++ [e]) where
  history := h.history.snoc he
  valid := fun d hd => by
    rcases mem_append.mp hd with hd | hd
    · exact h.valid d hd
    · rw [mem_singleton.mp hd]
      exact hv
  promotes := fun p hp hpt => by
    rcases mem_append.mp hp with hp | hp
    · obtain ⟨h₁, h₂, stream, n, hclaim, hn⟩ := h.promotes p hp hpt
      exact ⟨h₁, h₂, stream, n, hclaim, hn.trans (high_mono _ _ _)⟩
    · rw [mem_singleton] at hp
      subst hp
      obtain ⟨h₁, h₂, stream, n, hclaim, hn⟩ := hprom hpt
      exact ⟨h₁, h₂, stream, n, hclaim, hn.trans (high_mono _ _ _)⟩

theorem Recorded.append (h : Recorded c l) (hgrow : History (l ++ es))
    (hes : ∀ e ∈ es, e.Valid c ∧ e.eventType ≠ "store.promote") : Recorded c (l ++ es) := by
  induction es generalizing l with
  | nil => simpa using h
  | cons e es ih =>
    obtain ⟨⟨hv, ht⟩, hes⟩ := forall_mem_cons.mp hes
    have hsplit : l ++ e :: es = l ++ [e] ++ es := by simp
    rw [hsplit]
    exact ih (h.snoc hgrow.extends hv fun hp => absurd hp ht) (hsplit ▸ hgrow) hes

theorem Recorded.not_names (h : Recorded c l) (he : Extends l e) (hp : p ∈ l) : ¬ Names p e := by
  rintro ⟨ho, n, hclaim, hle⟩
  obtain ⟨_, _, stream, n', hclaim', hhigh⟩ := h.promotes p hp (eventType_of_promoteClaim hclaim)
  rw [hclaim] at hclaim'
  cases hclaim'
  rw [ho, show positionKey e.origin e.stream = streamKey e from rfl] at hhigh
  have := he.seq
  omega
end

/-! ### The head of a block -/

instance (p e : Envelope) : Decidable (Names p e) :=
  decidable_of_iff ((claimFor e.origin e.stream p).any fun n => decide (e.seq ≤ n)) (by
    rw [Option.any_eq_true]
    constructor
    · rintro ⟨n, hn, hle⟩
      obtain ⟨ho, hclaim⟩ := claimFor_eq_some_iff.mp hn
      exact ⟨ho, n, hclaim, by simpa using hle⟩
    · rintro ⟨ho, n, hclaim, hle⟩
      exact ⟨n, claimFor_eq_some_iff.mpr ⟨ho, hclaim⟩, by simpa using hle⟩)

/-- The event that heads the block of `x`: itself, or the first promote that names it. -/
def headOf (l : List Envelope) (x : Envelope) : Option Envelope :=
  if x.scope = .project then some x else l.find? fun q => q.scope = .project && decide (Names q x)
variable {l : List Envelope}

theorem headOf_mem {x p : Envelope} (hx : x ∈ l) (h : headOf l x = some p) : p ∈ l := by
  rw [headOf] at h
  split at h
  · cases h
    exact hx
  · exact mem_of_find?_eq_some h
/-! ### Runs -/

section

variable {c : Codec} {registry : Registry} {own : String} {n : ℕ}

theorem appended_plain {stream : StreamId} {writer : String} {cursor : Positions}
    {inputs : List EventInput} {events : List Envelope}
    (h : appendEvents c registry own stream writer cursor n inputs = .ok events)
    (hno : ∀ input ∈ inputs, input.eventType ≠ "store.promote") :
    ∀ e ∈ events, e.Valid c ∧ e.eventType ≠ "store.promote" := by
  intro e he
  obtain ⟨_, _, hes⟩ := appendEvents_eq_ok h
  obtain ⟨n, hn, rfl⟩ := getElem_of_mem he
  obtain ⟨input, hmem, hin⟩ := (isAppended_of_envelopesFrom hes).2 n hn
  exact ⟨hin.valid, hin.eventType ▸ hno input hmem⟩

theorem promoted_claim {l : List Envelope} {req : PromoteRequest} {branch : SealedBranch}
    {e : Envelope} (h : promoteEvents c registry own req branch n = .ok [e])
    (hlast : branch.lastSeq ≤ high l (positionKey own req.branch.value)) :
    e.Valid c ∧ e.scope = .project ∧ e.stream = "project" ∧
      ∃ stream n, promoteClaim e = some (stream, n) ∧ n ≤ high l (positionKey e.origin stream) := by
  obtain ⟨_, hle, e', he', hin⟩ := promoteEvents_eq_ok h
  rw [singleton_inj] at he'
  subst he'
  exact ⟨hin.valid, hin.scope, hin.stream, _, _, promoteClaim_promoteInput hin,
    hin.origin ▸ hle.trans hlast⟩

end

namespace Cluster

variable {ι : Type*} [DecidableEq ι] {c : Codec} {registry : Registry} {origin : ι → String}

theorem Step.recorded {s t : Cluster ι} (hs : s.Sound) (h : Recorded c s.acks)
    (hstep : Step c registry origin s t) : Recorded c t.acks := by
  cases hstep with
  | append i stream writer cursor inputs events hcursor hno happ =>
    exact h.append (hs.history_append hcursor happ) (appended_plain happ hno)
  | promote i req branch e hcursor hlast hprom =>
    have hgrow : History (s.acks ++ [e]) := hs.history_append hcursor (promoteEvents_eq_ok hprom).1
    obtain ⟨hv, hclaim⟩ := promoted_claim hprom hlast
    exact h.snoc hgrow.extends hv fun _ => hclaim
  | fetch i j events _ => exact h

end Cluster

/-! ### Where events stand in the first sort -/

variable {m : List Envelope} {d e : Envelope}

theorem Before.append_right (h : Before l d e) : Before (l ++ m) d e := by
  obtain ⟨s, t, rfl, hd⟩ := h
  exact ⟨s, t ++ m, by simp, hd⟩

theorem Before.append_left (h : Before m d e) : Before (l ++ m) d e := by
  obtain ⟨s, t, rfl, hd⟩ := h
  exact ⟨l ++ s, t, by simp, mem_append_right _ hd⟩

theorem before_append (hd : d ∈ l) (he : e ∈ m) : Before (l ++ m) d e := by
  obtain ⟨s, t, rfl⟩ := append_of_mem he
  exact ⟨l ++ s, t, by simp, mem_append_left _ hd⟩

theorem Before.idxOf_lt (hnd : l.Nodup) (h : Before l d e) : l.idxOf d < l.idxOf e := by
  obtain ⟨s, t, rfl, hd⟩ := h
  have he : e ∉ s := fun hmem => by
    rw [nodup_append] at hnd
    exact hnd.2.2 e hmem e (by simp) rfl
  rw [idxOf_append_of_mem hd, idxOf_append_of_notMem he, idxOf_cons_self]
  exact idxOf_lt_length_of_mem hd

section

variable {E : List Envelope} {base : Positions} {r : SortResult}

/-- In what is emitted and then held, a dependency stands before the event. -/
theorem before_of_singles (hpos : (E.map position).Nodup) (h : sortNodes E (singles E) base = .ok r)
    {d e : Envelope} (hd : d ∈ E) (he : e ∈ E) (hne : d ≠ e) (hdep : position d ∈ dependencies e)
    (hab : above base (position d) = true) : Before (r.emitted ++ r.held) d e := by
  classical
  have hwell := singles_wellBlocked hpos
  obtain ⟨vs, hrun, hperm, hemitted, hheld, _⟩ := sortNodes_run hwell h
  have hedge : DependsOn (singles E) base [e] [d] := dependsOn_singles.mpr ⟨d, hd, rfl, hne, hdep, hab⟩
  obtain ⟨s, t, hst⟩ := append_of_mem (hperm.mem_iff.mpr (mem_singles.mpr he))
  have hs : [d] ∈ s := hrun.deps_before s [e] t hst [d] hedge
  have hdvs : [d] ∈ vs := hst ▸ mem_append_left _ hs
  have hevs : [e] ∈ vs := hst ▸ mem_append_right _ (by simp)
  have hdefer : Deferred E (singles E) base [d] → Deferred E (singles E) base [e] :=
    fun ⟨b₀, hl, hr⟩ => ⟨b₀, hl, hr.tail ⟨hedge, mem_singles.mpr he⟩⟩
  have hmem : ∀ {q : List Envelope → Bool} {x : Envelope}, [x] ∈ vs → q [x] = true →
      x ∈ (vs.filter q).flatten := fun hx hq =>
    mem_flatten.mpr ⟨_, mem_filter.mpr ⟨hx, hq⟩, by simp⟩
  rw [hemitted, hheld]
  by_cases hDe : Deferred E (singles E) base [e]
  · by_cases hDd : Deferred E (singles E) base [d]
    · refine Before.append_left ?_
      rw [hst]
      exact before_flatten_filter hs (by simpa using hDe) (by simpa using hDd) (by simp) (by simp)
    · exact before_append (hmem hdvs (by simpa using hDd)) (hmem hevs (by simpa using hDe))
  · have hDd : ¬ Deferred E (singles E) base [d] := fun hdef => hDe (hdefer hdef)
    refine Before.append_right ?_
    rw [hst]
    exact before_flatten_filter hs (by simpa using hDe) (by simpa using hDd) (by simp) (by simp)

end

/-! ### What a clone holds -/

/-- Every stream starts at 1 and has no gap. -/
def Contiguous (D : List Envelope) : Prop :=
  ∀ e ∈ D, 1 < e.seq → ∃ d ∈ D, position d = (streamKey e, e.seq - 1)

instance (D : List Envelope) : Decidable (Contiguous D) :=
  inferInstanceAs (Decidable (∀ e ∈ D, 1 < e.seq → ∃ d ∈ D, position d = (streamKey e, e.seq - 1)))

theorem mem_dependencies_pred (hseq : 1 < e.seq)
    (hd : position d = (streamKey e, e.seq - 1)) : position d ∈ dependencies e := by
  rw [dependencies, if_pos hseq, hd]
  exact mem_append_right _ (by simp)

theorem above_empty (h : 0 < e.seq) : above ∅ (position e) = true := by
  simpa [above, Positions.at, position] using h

theorem Envelope.Valid.scope_eq {c : Codec} (he : e.Valid c) (hd : d.Valid c)
    (h : e.stream = d.stream) : e.scope = d.scope := by
  obtain ⟨h₁, hs₁⟩ := he.stream_id
  obtain ⟨h₂, hs₂⟩ := hd.stream_id
  rw [← hs₁, ← hs₂]
  congr 1
  exact StreamId.mk.injEq .. ▸ h

section

variable {c : Codec} {l D : List Envelope} {u : EventMap} {r : SortResult}

/-- The first sort has, of a project stream, the earlier numbers first. -/
theorem idxOf_lt_of_stream (hv : AllValid c D) (hu : Holds u {e | e ∈ D}) (hcont : Contiguous D)
    (hr : sortNodes (placedEvents u ∅ true) (singles (placedEvents u ∅ true)) ∅ = .ok r) (n : ℕ)
    (hn : 0 < n) (m : ℕ) : ∀ e ∈ placedEvents u ∅ true, e.scope = .project → e.seq = n + 1 + m →
      ∃ d ∈ placedEvents u ∅ true, position d = (streamKey e, n) ∧
        (r.emitted ++ r.held).idxOf d < (r.emitted ++ r.held).idxOf e := by
  have hpos : ((placedEvents u ∅ true).map position).Nodup := placedEvents_nodup_position hu
  have hnd : (r.emitted ++ r.held).Nodup :=
    (preliminary_perm hu hr).nodup_iff.mpr (List.Nodup.of_map _ hpos)
  have hpred : ∀ e ∈ placedEvents u ∅ true, e.scope = .project → 1 < e.seq →
      ∃ d ∈ placedEvents u ∅ true, d.scope = .project ∧ position d = (streamKey e, e.seq - 1) ∧
        (r.emitted ++ r.held).idxOf d < (r.emitted ++ r.held).idxOf e := by
    intro e he hscope hseq
    have heD := placedEvents_subset hu e he
    obtain ⟨d, hd, hp⟩ := hcont e heD hseq
    have hpe : position { e with seq := e.seq - 1 } = position d := hp.symm
    have hstream := positionKey_injective (hv d hd).origin (hv e heD).origin
      (show positionKey d.origin d.stream = positionKey e.origin e.stream from (Prod.ext_iff.mp hp).1)
    have hds : d.scope = .project := ((hv d hd).scope_eq (hv e heD) hstream.2).trans hscope
    have hdE : d ∈ placedEvents u ∅ true := (mem_placedEvents_iff hu d).mpr
      ⟨hd, above_empty (hv d hd).seq_pos, .inr (.inl hds)⟩
    have hne : d ≠ e := by
      rintro rfl
      have : d.seq = d.seq - 1 := (Prod.ext_iff.mp hp).2
      omega
    exact ⟨d, hdE, hds, hp, (before_of_singles hpos hr hdE he hne (mem_dependencies_pred hseq hp)
      (above_empty (hv d hd).seq_pos)).idxOf_lt hnd⟩
  induction m with
  | zero =>
    intro e he hscope hseq
    obtain ⟨d, hd, _, hp, hlt⟩ := hpred e he hscope (by omega)
    refine ⟨d, hd, hp.trans (Prod.ext rfl ?_), hlt⟩
    show e.seq - 1 = n
    omega
  | succ m ih =>
    intro e he hscope hseq
    obtain ⟨d, hd, hds, hp, hlt⟩ := hpred e he hscope (by omega)
    have hp' := Prod.ext_iff.mp hp
    obtain ⟨d', hd', hp'', hlt'⟩ := ih d hd hds
      ((show d.seq = e.seq - 1 from hp'.2).trans (by omega))
    exact ⟨d', hd', hp''.trans (Prod.ext hp'.1 rfl), hlt'.trans hlt⟩

/-- A block of what a clone holds is part of the block its head has in the whole history. -/
theorem headOf_block (h : Recorded c l) (hsub : ∀ e ∈ D, e ∈ l) (hu : Holds u {e | e ∈ D}) (hcont : Contiguous D)
    (hr : sortNodes (placedEvents u ∅ true) (singles (placedEvents u ∅ true)) ∅ = .ok r)
    {blocks : List (List Envelope)} (hblocks : contract (placedEvents u ∅ true) true r = .ok blocks)
    {e : Envelope} {ms : List Envelope} (hb : e :: ms ∈ blocks) {x : Envelope} (hx : x ∈ e :: ms) :
    headOf l x = some e := by
  have hv : AllValid c D := h.valid.mono hsub
  have hpos : ((placedEvents u ∅ true).map position).Nodup := placedEvents_nodup_position hu
  have hperm := preliminary_perm hu hr
  have hvE : AllValid c (placedEvents u ∅ true) := placedEvents_valid hu hv
  have hc := contract_isContraction hvE (List.Nodup.of_map _ hpos) hperm hblocks
  obtain ⟨e', ms', heq, heE, _, hscope, hms⟩ := hc.shape _ hb
  cases heq
  rcases mem_cons.mp hx with rfl | hxm
  · rw [headOf, if_pos (hscope rfl)]
  · rcases hms with hnil | hpb
    · rw [hnil] at hxm
      cases hxm
    · have hbranch := hpb.scope_branch hvE hxm
      obtain ⟨ht, claim, hcheck, hmem⟩ := hpb
      obtain ⟨hxE, ho, hs, hle⟩ := hmem x hxm
      have hel : e ∈ l := hsub e (placedEvents_subset hu e heE)
      have hnames : Names e x := ⟨ho.symm, claim.2, by rw [promoteClaim_of_checkPromote ht hcheck, hs], hle⟩
      have hfind : (l.find? fun q => q.scope = .project && decide (Names q x)).isSome = true := by
        rw [find?_isSome]
        exact ⟨e, hel, by simp [hscope rfl, hnames]⟩
      obtain ⟨p, hp⟩ := Option.isSome_iff_exists.mp hfind
      have hpl := mem_of_find?_eq_some hp
      have hpn := find?_some hp
      rw [Bool.and_eq_true, decide_eq_true_eq, decide_eq_true_eq] at hpn
      rw [headOf, if_neg (by rw [hbranch]; decide), hp]
      -- the first promote that names `x` is not after `e`, and the clone holds what comes before `e`
      by_contra hne
      have hpe : p ≠ e := fun hpe => hne (by rw [hpe])
      have hpt := eventType_of_promoteClaim hpn.2.2.choose_spec.1
      have hstream : p.stream = e.stream :=
        ((h.promotes p hpl hpt).2.1).trans ((h.promotes e hel ht).2.1).symm
      have hkey : streamKey p = streamKey e := by
        rw [streamKey, streamKey, hpn.2.1, ho, hstream]
      obtain ⟨_, as, bs, hl, hno⟩ := find?_eq_some_iff_append.mp hp
      have hebs : e ∈ bs := by
        rw [hl] at hel
        rcases mem_append.mp hel with hea | hea
        · have hnot := hno e hea
          simp [hscope rfl, hnames] at hnot
        · rcases mem_cons.mp hea with heq | hea
          · exact absurd heq.symm hpe
          · exact hea
      have hlt : p.seq < e.seq := by
        obtain ⟨s, t, rfl⟩ := append_of_mem hebs
        have hgrow : History ((as ++ p :: s) ++ e :: t) := by
          have := h.history
          rw [hl] at this
          simpa using this
        have hle := seq_le_high (l := as ++ p :: s) (e := p) (by simp)
        rw [hkey] at hle
        have := hgrow.extends.seq
        omega
      have hppos := (h.valid p hpl).seq_pos
      obtain ⟨d, hdE, hdp, hidx⟩ := idxOf_lt_of_stream hv hu hcont hr p.seq hppos (e.seq - 1 - p.seq) e
        heE (hscope rfl) (by omega)
      have hdp' : d = p := h.history.event_unique (hsub d (placedEvents_subset hu d hdE)) hpl
        (hdp.trans (Prod.ext hkey.symm rfl))
      rw [hdp'] at hdE hidx
      exact contract_first hvE (List.Nodup.of_map _ hpos) hperm hblocks hb hxm hdE hidx hpn.2

end

end Forgent
