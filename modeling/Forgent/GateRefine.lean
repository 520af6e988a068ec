import Forgent.GateFold

/-!
# The gate's fold is the full fold

A view that was kept is answered by a later read only where the full fold answers the same
(`Kept.foldOrder_eq`).  And a call leaves the view that a full read of what it read, its tail and its
batch would fold from zero (`gate_refines`), as long as the tail holds no promote and releases nothing the
read had deferred: events that have seen everything emitted come last in the order (`order_append`).
-/

namespace Forgent

open PriorityRun Relation List Option Std.ExtTreeMap

/-! ### A part without a hole passes the check -/

theorem hole_eq_none {l : List ℕ} {h : ℕ} (hsorted : l.Pairwise (· < ·)) (hlow : ∀ n ∈ l, h < n)
    (hdown : ∀ n ∈ l, ∀ m, h < m → m ≤ n → m ∈ l) : hole h l = none := by
  induction l generalizing h with
  | nil => rfl
  | cons a l ih =>
    obtain ⟨ha, hsorted⟩ := pairwise_cons.mp hsorted
    have hha : h < a := hlow a (by simp)
    have hnext : a = h + 1 := by
      by_contra hne
      rcases mem_cons.mp (hdown a (by simp) (h + 1) (by omega) (by omega)) with heq | hmem
      · exact hne heq.symm
      · have := ha _ hmem
        omega
    rw [hole, if_pos hnext]
    refine ih hsorted ha fun n hn m hm hle => ?_
    rcases mem_cons.mp (hdown n (mem_cons_of_mem _ hn) m (by omega) hle) with heq | hmem
    · omega
    · exact hmem

theorem ascending_sorted {α : Type} [LinearOrder α] (l : List α) : (ascending l).Pairwise (· < ·) := by
  have hnd : (ascending l).Nodup :=
    (perm_insertionSort (· ≤ ·) l.dedup).nodup_iff.mpr (nodup_dedup l)
  exact ((pairwise_insertionSort (· ≤ ·) l.dedup).and hnd).imp fun hab => lt_of_le_of_ne hab.1 hab.2

theorem checkContiguous_of_contiguous {c : Codec} {l events : List Envelope} (hl : Recorded c l)
    (hsub : ∀ e ∈ events, e ∈ l) (hcont : Contiguous events) : checkContiguous events ∅ = .ok () := by
  refine checkContiguous_eq_ok_iff.mpr ⟨fun a ha b hb hp => ?_, fun e _ => ?_⟩
  · exact congrArg Envelope.h (hl.history.event_unique (hsub a ha) (hsub b hb) hp)
  · refine hole_eq_none ((ascending_sorted _).sublist filter_sublist) (fun n hn => ?_) fun n hn m hm hle => ?_
    · have hpos := (mem_numbers_iff.mp hn).1
      simpa [Positions.at] using hpos
    · obtain ⟨_, d, hd, hp⟩ := mem_numbers_iff.mp hn
      have hp' := Prod.ext_iff.mp hp
      have hkey : streamKey d = streamKey e := hp'.1
      have hseq : d.seq = n := hp'.2
      have hm' : 0 < m := by simpa [Positions.at] using hm
      obtain ⟨x, hx, hxp⟩ := hcont.exists_position hd hm' (hseq ▸ hle)
      exact mem_numbers_iff.mpr ⟨hm', x, hx, hkey ▸ hxp⟩

/-! ### What needs only emitted events is emitted -/

section

variable {c : Codec} {l D : List Envelope} {r : Ordered} {e : Envelope}

/-- A project event of the input whose dependencies are all emitted is emitted, unless it is a promote. -/
theorem Reading.mem_events (h : Reading c l D r) (hcol : c.CollisionFree D) (he : e ∈ D)
    (hscope : e.scope = .project) (hplain : e.eventType ≠ "store.promote")
    (hneeds : ∀ p ∈ dependencies e, ∃ d ∈ r.events, position d = p) : e ∈ r.events := by
  obtain ⟨u, pre, blocks, result, hp⟩ := h.parts hcol
  have hwell := hp.well
  have heE : e ∈ placedEvents u ∅ true := (mem_placedEvents_iff hp.holds e).mpr
    ⟨he, above_empty (hp.valid e he).seq_pos, .inr (.inl hscope)⟩
  -- the event is a block of its own
  have hblock : [e] ∈ blocks := by
    obtain ⟨b, hb, heb⟩ := mem_flatten.mp ((hp.contraction.mem e).mpr ⟨heE, .inr (.inl hscope)⟩)
    obtain ⟨x, ms, rfl, _, _, _, hms⟩ := hp.contraction.shape b hb
    rcases hms with rfl | hpb
    · rwa [mem_singleton.mp heb]
    · rcases mem_cons.mp heb with rfl | hmem
      · exact absurd hpb.1 hplain
      · have hbranch := hpb.scope_branch (placedEvents_valid hp.holds hp.valid) hmem
        rw [hscope] at hbranch
        cases hbranch
  rw [hp.events]
  refine (mem_emitted_iff hwell hp.sort e).mpr ⟨[e], hblock, ?_, by simp⟩
  have hfound : ∀ p ∈ dependencies e, ∃ b ∈ blocks, ¬ Deferred (placedEvents u ∅ true) blocks ∅ b ∧
      ∃ d ∈ b, position d = p := by
    intro p hdep
    obtain ⟨d, hd, hdp⟩ := hneeds p hdep
    obtain ⟨b, hb, hnd, hdb⟩ := (mem_emitted_iff hwell hp.sort d).mp (hp.events ▸ hd)
    exact ⟨b, hb, hnd, d, hdb, hdp⟩
  rintro ⟨b₀, hlack, hreach⟩
  rcases ReflTransGen.cases_tail hreach with heq | ⟨x, hx, ⟨hxB, _, p, hopen, d, hd, hdp⟩, _⟩
  · subst heq
    obtain ⟨p, hmiss⟩ := Finset.nonempty_of_ne_empty hlack.2
    have hclaims : promotePosition e = none := by
      rw [promotePosition, promoteClaim, if_neg hplain]
      rfl
    simp only [blockMissing, hclaims, Finset.mem_union, List.mem_toFinset, mem_filter,
      openDependencies_singleton, owner_isNone_iff, mem_filterMap, mem_singleton,
      exists_eq_left, reduceCtorEq, false_and, or_false] at hmiss
    obtain ⟨b, hb, _, d, hd, hdp⟩ := hfound p hmiss.1.1
    exact hmiss.2 b hb d hd hdp
  · obtain ⟨b, hb, hnd, d', hd', hdp'⟩ := hfound p (openDependencies_singleton.mp hopen).1
    have hdd : d = d' := hwell.event_unique hxB hb hd hd' (hdp.trans hdp'.symm)
    have hxb : x = b := hwell.block_unique hxB hb hd (hdd ▸ hd')
    exact hnd (hxb ▸ ⟨b₀, hlack, hx⟩)

/-! ### Events behind everything -/

theorem mem_dependencies_own (h : 1 < e.seq) : (streamKey e, e.seq - 1) ∈ dependencies e := by
  rw [dependencies, if_pos h]
  exact mem_append_right _ (by simp)

variable {own : String} {w t : List Envelope}

theorem Basis.needs_next (hw : Basis c l own w) (hl : Recorded c l) (he : e ∈ l)
    (hnext : Next own w e) : ∀ p ∈ dependencies e, ∃ d ∈ w, position d = p := by
  intro p hp
  obtain ⟨s, s', rfl⟩ := append_of_mem he
  obtain ⟨d, hd, hdp⟩ := hl.history.extends.dependency_mem hl.history.left hp
  have hdl : d ∈ s ++ e :: s' := mem_append_left _ hd
  have hdp' := Prod.ext_iff.mp hdp
  have hkey : streamKey d = p.1 := hdp'.1
  have hseq : d.seq = p.2 := hdp'.2
  refine ⟨d, (hw.mem_iff hl hdl).mpr ?_, hdp⟩
  rw [hkey, hseq]
  rw [dependencies, mem_append] at hp
  rcases hp with hp | hp
  · have hget := mem_toList_iff_getElem?_eq_some.mp hp
    have hne : p.1 ≠ own := by
      intro heq
      refine (hl.valid e he).notOwn ?_
      rw [hnext.stream, ← heq]
      exact mem_iff_isSome_getElem?.mpr (by rw [hget]; rfl)
    rw [← hnext.seen p.1 hne, Positions.at, getD_eq_getD_getElem?, hget]
    exact le_rfl
  · split at hp
    · rw [mem_singleton] at hp
      subst hp
      show e.seq - 1 ≤ high w (streamKey e)
      rw [hnext.stream, hnext.seq]
      omega
    · cases hp

/-- **Events that have seen everything come last**: the order with them is the order without them, with
them behind it. -/
theorem order_append (hl : Recorded c l) (hcol : c.CollisionFree l) (hread : Reading c l D r)
    (ht : ∀ e ∈ t, e ∈ l ∧ e.scope = .project ∧ e.eventType ≠ "store.promote" ∧ e ∉ D)
    (hfollow : Follow own r.events t) (hfree : ∀ d ∈ D, ∀ e ∈ t, position e ∉ dependencies d) :
    ∃ r', Reading c l (D ++ t) r' ∧ r'.events = r.events ++ t ∧ r'.deferred = r.deferred := by
  induction t using reverseRecOn with
  | nil => exact ⟨r, by simpa using hread, by simp, rfl⟩
  | append_singleton t e ih =>
    obtain ⟨hfollow, hnext⟩ := follow_snoc.mp hfollow
    obtain ⟨r', hread', hevents, hdeferred⟩ := ih (fun x hx => ht x (mem_append_left _ hx)) hfollow
      fun d hd x hx => hfree d hd x (mem_append_left _ hx)
    obtain ⟨hel, hscope, hplain, heD⟩ := ht e (by simp)
    have hbasis : Basis c l own (r.events ++ t) :=
      hfollow.basis (.read hread (hcol.mono hread.subset)) fun x hx =>
        ⟨(ht x (mem_append_left _ hx)).1, (ht x (mem_append_left _ hx)).2.1⟩
    have hneeds := hbasis.needs_next hl hel hnext
    have het : e ∉ t := fun hmem => hbasis.not_mem_next hl hel hnext (mem_append_right _ hmem)
    have hnewest : Newest c (D ++ t) r' e := by
      refine ⟨hl.valid e hel, hscope, hplain, fun d hd hp => ?_, fun d hd => ?_, fun p hp => ?_, fun d hd => ?_⟩
      · have hde : d = e := hl.history.event_unique (hread'.subset d hd) hel hp
        rcases mem_append.mp hd with hd | hd
        · exact heD (hde ▸ hd)
        · exact het (hde ▸ hd)
      · rcases mem_append.mp hd with hd | hd
        · exact hfree d hd e (by simp)
        · -- an earlier event of the stream has seen nothing of it
          obtain ⟨p, s, hps⟩ := append_of_mem hd
          have hbasis' : Basis c l own (r.events ++ p) := Follow.basis
            (fun q x s' hq => hfollow q x (s' ++ d :: s) (by rw [hps, hq]; simp))
            (.read hread (hcol.mono hread.subset)) fun x hx => by
              have hxt : x ∈ t ++ [e] := by
                rw [hps]
                simp [hx]
              exact ⟨(ht x hxt).1, (ht x hxt).2.1⟩
          intro hdep
          obtain ⟨x, hx, hxp⟩ := hbasis'.needs_next hl (ht d (mem_append_left _ hd)).1
            (hfollow p d s hps) _ hdep
          have hxw : x ∈ r.events ++ t := by
            rw [hps]
            rcases mem_append.mp hx with hx | hx <;> simp [hx]
          have hxe : x = e := hl.history.event_unique (hbasis.subset hl x hxw) hel hxp
          exact hbasis.not_mem_next hl hel hnext (hxe ▸ hxw)
      · rw [hevents]
        exact hneeds p hp
      · rw [hevents] at hd ⊢
        have hle := seq_le_high hd
        have hpos := (hl.valid d (hbasis.subset hl d hd)).seq_pos
        have hhigh : high (r.events ++ t) (streamKey d) ≠ 0 := by omega
        obtain ⟨x, hx, hxp⟩ := exists_high hhigh
        have hxp' := Prod.ext_iff.mp hxp
        exact ⟨x, hx, hxp'.1, hle.trans hxp'.2.ge, hxp ▸ hnext.depends hhigh⟩
    have hsub : ∀ x ∈ D ++ t ++ [e], x ∈ l := by
      intro x hx
      rcases mem_append.mp hx with hx | hx
      · exact hread'.subset x hx
      · rw [mem_singleton.mp hx]
        exact hel
    obtain ⟨r'', hr'', hevents', hdeferred'⟩ := order_snoc (hcol.mono hsub) hread'.order hnewest
    refine ⟨r'', ⟨?_, ?_, ?_⟩, ?_, hdeferred'.trans hdeferred⟩
    · rw [← append_assoc]
      exact hsub
    · rw [← append_assoc]
      intro x hx hseq
      rcases mem_append.mp hx with hx | hx
      · obtain ⟨d, hd, hp⟩ := hread'.contiguous x hx hseq
        exact ⟨d, mem_append_left _ hd, hp⟩
      · rw [mem_singleton] at hx
        subst hx
        obtain ⟨d, hd, hp⟩ := hneeds _ (mem_dependencies_own hseq)
        rw [← hevents] at hd
        exact ⟨d, mem_append_left _
          (hread'.mem_input (hcol.mono hread'.subset) d (mem_append_left _ hd)), hp⟩
    · rw [← append_assoc]
      exact hr''
    · rw [hevents', hevents, append_assoc]

/-- What follows an order was not in its input. -/
theorem Follow.not_mem_input (hfollow : Follow own r.events t) (hl : Recorded c l) (hcol : c.CollisionFree l)
    (hread : Reading c l D r)
    (ht : ∀ e ∈ t, e ∈ l ∧ e.scope = .project ∧ e.eventType ≠ "store.promote") : ∀ e ∈ t, e ∉ D := by
  induction t using reverseRecOn with
  | nil => simp
  | append_singleton t e ih =>
    obtain ⟨hinit, hnext⟩ := follow_snoc.mp hfollow
    have hold := ih hinit fun x hx => ht x (mem_append_left _ hx)
    have hcolD := hcol.mono hread.subset
    obtain ⟨hel, hscope, hplain⟩ := ht e (by simp)
    have hbasis : Basis c l own (r.events ++ t) := hinit.basis (.read hread hcolD) fun x hx =>
      ⟨(ht x (mem_append_left _ hx)).1, (ht x (mem_append_left _ hx)).2.1⟩
    intro x hx
    rcases mem_append.mp hx with hx | hx
    · exact hold x hx
    rw [mem_singleton] at hx
    subst hx
    intro hxD
    refine hbasis.not_mem_next hl hel hnext (mem_append_left _ ?_)
    refine hread.mem_events hcolD hxD hscope hplain fun p hp => ?_
    obtain ⟨d, hd, hdp⟩ := hbasis.needs_next hl hel hnext p hp
    refine ⟨d, (mem_append.mp hd).resolve_right fun hdt => ?_, hdp⟩
    -- an event of the list that is a dependency is the one before, and is in the input with `x`
    have hdl := (ht d (mem_append_left _ hdt)).1
    obtain ⟨q, s, hqs⟩ := append_of_mem hdt
    have hdown : streamKey d = own := (hinit q d s hqs).stream
    have hp1 : p.1 = own := by
      rw [← hdp]
      exact hdown
    rw [dependencies, mem_append] at hp
    rcases hp with hp | hp
    · refine (hl.valid x hel).notOwn ?_
      rw [hnext.stream, ← hp1]
      exact mem_iff_isSome_getElem?.mpr
        (by rw [mem_toList_iff_getElem?_eq_some.mp hp]; rfl)
    · split at hp
      · rename_i hseq
        rw [mem_singleton] at hp
        obtain ⟨d', hd', hp'⟩ := hread.contiguous x hxD hseq
        have hdd : d' = d :=
          hl.history.event_unique (hread.subset d' hd') hdl (hp'.trans (hp.symm.trans hdp.symm))
        exact hold d hdt (hdd ▸ hd')
      · cases hp

theorem Follow.append {t' : List Envelope} (h : Follow own w t) (h' : Follow own (w ++ t) t') :
    Follow own w (t ++ t') := by
  induction t' using reverseRecOn with
  | nil => simpa using h
  | append_singleton t' e ih =>
    obtain ⟨h', hnext⟩ := follow_snoc.mp h'
    rw [← append_assoc]
    exact follow_snoc.mpr ⟨ih h', by rwa [← append_assoc]⟩

theorem Follow.advance_cursor (h : Follow own w t) (deferred : Finset String) :
    advance ⟨coverOf w, deferred⟩ t = ⟨coverOf (w ++ t), deferred⟩ := by
  induction t using reverseRecOn with
  | nil => simp [advance]
  | append_singleton t e ih =>
    obtain ⟨h, hnext⟩ := follow_snoc.mp h
    have hmax : max ((coverOf (w ++ t)).at (streamKey e)) e.seq = e.seq := by
      rw [coverOf_at, hnext.stream, hnext.seq]
      omega
    rw [advance_snoc, ih h, ← append_assoc, coverOf_snoc, hmax]
    rfl

end

/-! ### What a read keeps of a clone's events -/

section

variable {c : Codec} {l union : List Envelope} {r : Ordered} {e : Envelope}

theorem mem_retained_project : e ∈ retainedEvents union ["project"] true ↔ e ∈ union ∧ (e.stream = "project" ∨
      ∃ p ∈ union, p.stream = "project" ∧ ∃ n, promotePosition p = some (streamKey e, n) ∧ e.seq ≤ n) := by
  rw [retainedEvents, mem_filter, Bool.or_eq_true, Bool.and_eq_true, promotedHigh_any_iff]
  simp

theorem Envelope.Valid.scope_project (hv : e.Valid c) (h : e.stream = "project") : e.scope = .project := by
  obtain ⟨hid, hscope⟩ := hv.stream_id
  rw [← hscope]
  simp only [h]
  show projectStream.scope = .project
  decide

theorem mem_ordered_of_retained (hread : Reading c l (retainedEvents union ["project"] true) r)
    (hcol : c.CollisionFree (retainedEvents union ["project"] true))
    (he : e ∈ retainedEvents union ["project"] true) : e ∈ r.events ++ r.deferred := by
  obtain ⟨u, pre, blocks, result, hp⟩ := hread.parts hcol
  have hv := hp.valid e he
  refine (hp.causal.mem e).mpr ⟨he, above_empty hv.seq_pos, .inr ?_⟩
  rcases (mem_retained_project.mp he).2 with hs | ⟨p, hpu, hps, n, hpos, hle⟩
  · exact .inl (hv.scope_project hs)
  · have hpD : p ∈ retainedEvents union ["project"] true := mem_retained_project.mpr ⟨hpu, .inl hps⟩
    have hpv := hp.valid p hpD
    obtain ⟨⟨stream, m⟩, hclaim, hkey⟩ := map_eq_some_iff.mp hpos
    have hkey' := Prod.ext_iff.mp hkey
    have hm : m = n := hkey'.2
    obtain ⟨ho, hstream⟩ := positionKey_injective hpv.origin hv.origin hkey'.1
    have hpE : p ∈ placedEvents u ∅ true := (mem_placedEvents_iff hp.holds p).mpr
      ⟨hpD, above_empty hpv.seq_pos, .inr (.inl (hpv.scope_project hps))⟩
    have hpt := eventType_of_promoteClaim hclaim
    obtain ⟨claim, hcheck⟩ := hp.contraction.checked rfl p hpE hpt
    have hclaim' := promoteClaim_of_checkPromote hpt hcheck
    rw [hclaim] at hclaim'
    cases hclaim'
    obtain ⟨_, _, hpre, _⟩ := checkPromote_eq_ok_iff.mp hcheck
    rw [Bool.and_eq_true] at hpre
    refine .inr ⟨hv.scope_branch (hstream ▸ hpre.1), p, ⟨hpD, above_empty hpv.seq_pos, hpv.scope_project hps⟩,
      ho, m, ?_, hm ▸ hle⟩
    rw [hclaim]
    exact congrArg (fun s => some (s, m)) hstream

end

/-! ### One call and the full read after it -/

section

variable {ι : Type*} {σ : Setting ι} {l : List Envelope} {i : ι} {call : Call} {r : Ordered} {s : Gated ι}

/-- The own tail holds no promote, and nothing that the read deferred depends on it. -/
structure Call.Undisturbed (σ : Setting ι) (call : Call) : Prop where
  plain : ∀ e ∈ call.tail, e.eventType ≠ "store.promote"
  free : ∀ r, foldHistory σ.codec call.union ["project"] true none = .ok r → ∀ d ∈ r.deferred,
    ∀ e ∈ call.tail, position e ∉ dependencies d

theorem mem_retained_after {D : List Envelope} {t : List Envelope} (hD : ∀ e, e ∈ D ↔ e ∈ call.union ∨ e ∈ t)
    (ht : ∀ e ∈ t, e.stream = "project" ∧ e.eventType ≠ "store.promote") (e : Envelope) :
    e ∈ retainedEvents D ["project"] true ↔ e ∈ retainedEvents call.union ["project"] true ++ t := by
  rw [mem_append, mem_retained_project, mem_retained_project, hD]
  have hclaim : ∀ p ∈ t, promotePosition p = none := fun p hp => by
    rw [promotePosition, promoteClaim, if_neg (ht p hp).2]
    rfl
  constructor
  · rintro ⟨he | he, hs | ⟨p, hp, hps, n, hpos, hle⟩⟩
    · exact .inl ⟨he, .inl hs⟩
    · rcases (hD p).mp hp with hp | hp
      · exact .inl ⟨he, .inr ⟨p, hp, hps, n, hpos, hle⟩⟩
      · rw [hclaim p hp] at hpos
        cases hpos
    · exact .inr he
    · exact .inr he
  · rintro (⟨he, hs | ⟨p, hp, hrest⟩⟩ | he)
    · exact ⟨.inl he, .inl hs⟩
    · exact ⟨.inl he, .inr ⟨p, (hD p).mpr (.inl hp), hrest⟩⟩
    · exact ⟨.inr he, .inl (ht e he).1⟩

theorem Call.Made.mem_tail (h : call.Made σ s i) {e : Envelope} (he : e ∈ call.tail) :
    e ∈ s.store.acks ∧ streamKey e = σ.own i := by
  rw [h.tail] at he
  obtain ⟨hel, hown⟩ := mem_filter.mp he
  rw [Bool.and_eq_true, decide_eq_true_eq] at hown
  exact ⟨hel, hown.1⟩

/-- **The order after a call**: what was emitted, the tail, the batch; what was deferred stays deferred. -/
theorem Call.Folds.order_after (h : call.Folds σ s.store.acks i r) (hmade : call.Made σ s i)
    (hs : s.store.Sound) (hquiet : call.Undisturbed σ)
    (hcol : σ.codec.CollisionFree (s.store.acks ++ call.events)) {D : List Envelope}
    (hD : ∀ e, e ∈ D ↔ e ∈ call.union ∨ e ∈ call.tail ++ call.events) :
    ∃ r', foldHistory σ.codec D ["project"] true none = .ok r' ∧
      r'.events = r.events ++ (call.tail ++ call.events) ∧ r'.deferred = r.deferred := by
  have hl := h.recorded
  have hunion : ∀ e ∈ call.union, e ∈ s.store.acks := fun e he => hs.held i e (hmade.union e he)
  have hread := foldHistory_reading (l := s.store.acks ++ call.events)
    (fun e he => mem_append_left _ (hunion e he)) h.read
  have hold : ∀ e ∈ retainedEvents call.union ["project"] true, e ∈ s.store.acks := fun e he =>
    hunion e (retainedEvents_subset _ _ _ e he)
  have hcolD := hcol.mono hread.subset
  have hfollow : Follow (σ.own i) r.events (call.tail ++ call.events) := h.tail.append h.events
  have ht : ∀ e ∈ call.tail ++ call.events, e ∈ s.store.acks ++ call.events ∧ e.scope = .project ∧
      e.eventType ≠ "store.promote" := by
    intro e he
    rcases mem_append.mp he with he | he
    · obtain ⟨hel, hown⟩ := hmade.mem_tail he
      exact ⟨mem_append_left _ hel, hl.scope_of_own (mem_append_left _ hel) hown, hquiet.plain e he⟩
    · exact ⟨mem_append_right _ he, h.plain e he⟩
  have hnot := hfollow.not_mem_input hl hcol hread ht
  have hfree : ∀ d ∈ retainedEvents call.union ["project"] true, ∀ e ∈ call.tail ++ call.events,
      position e ∉ dependencies d := by
    intro d hd e he hdep
    rcases mem_append.mp (mem_ordered_of_retained hread hcolD hd) with hdr | hdr
    · -- an emitted event depends on emitted events only
      obtain ⟨bs, hbs⟩ := hread.emits hl hcolD
      obtain ⟨x, hx, hxp⟩ := hbs.needs d hdr _ hdep
      have hxe : x = e := hl.history.event_unique (hbs.subset x hx) (ht e he).1 hxp
      exact hnot e he (hread.mem_input hcolD e (mem_append_left _ (hxe ▸ hx)))
    · rcases mem_append.mp he with he | he
      · exact hquiet.free r h.read d hdr e he hdep
      · -- nothing that is there can depend on an event of the batch
        obtain ⟨p, q, hpq⟩ := append_of_mem (hold d hd)
        obtain ⟨p', q', hpq'⟩ := append_of_mem he
        have hhist := hl.history
        rw [hpq, hpq'] at hhist
        have hleft : History (p ++ d :: q) := hhist.left
        obtain ⟨x, hx, hxp⟩ := hleft.extends.dependency_mem hleft.left hdep
        have hxl : x ∈ s.store.acks := by
          rw [hpq]
          exact mem_append_left _ hx
        have hxe : x = e := hl.history.event_unique (mem_append_left _ hxl)
          (mem_append_right _ he) hxp
        exact (nodup_append.mp hl.history.nodup).2.2 x hxl e he hxe
  obtain ⟨r', hread', hevents, hdeferred⟩ := order_append hl hcol hread
    (fun e he => ⟨(ht e he).1, (ht e he).2.1, (ht e he).2.2, hnot e he⟩) hfollow hfree
  have hstream : ∀ e ∈ call.tail ++ call.events, e.stream = "project" ∧ e.eventType ≠ "store.promote" := by
    intro e he
    obtain ⟨p, q, hpq⟩ := append_of_mem he
    have hkey := (hfollow p e q hpq).stream
    exact ⟨(positionKey_injective (hl.valid e (ht e he).1).origin (σ.origin_valid i) hkey).2, (ht e he).2.2⟩
  have hmem := mem_retained_after hD hstream
  refine ⟨r', ?_, hevents, hdeferred⟩
  have hsub' : ∀ e ∈ retainedEvents D ["project"] true, e ∈ s.store.acks ++ call.events := fun e he =>
    hread'.subset e ((hmem e).mp he)
  have hcont : Contiguous (retainedEvents D ["project"] true) := by
    intro e he hseq
    obtain ⟨d, hd, hp⟩ := hread'.contiguous e ((hmem e).mp he) hseq
    exact ⟨d, (hmem d).mpr hd, hp⟩
  rw [foldHistory, bind_eq_ok]
  refine ⟨(), checkContiguous_of_contiguous hl hsub' hcont, ?_⟩
  rw [orderRetained_eq_order]
  exact (order_eq_ok_congr (hcol.mono hsub') hmem r').mpr hread'.order

theorem Call.Made.tx_cursor (h : call.Made σ s i) : call.tx.cursor = advance call.candidate.cursor call.tail := by
  have hopen := h.opened
  rw [openTx] at hopen
  split at hopen
  · cases hopen
  · obtain ⟨view, _, hopen⟩ := bind_eq_ok.mp hopen
    have htx : ({ view := view, cursor := advance call.candidate.cursor call.tail } : Candidate) = call.tx :=
      Except.ok.inj hopen
    rw [← htx]

end

/-! ### Every run -/

section

variable {ι : Type*} [DecidableEq ι] {σ : Setting ι} {s : Gated ι} {admitted : Call → Prop}
  {stores : Cluster ι → Cluster ι → Prop}

omit [DecidableEq ι] in
theorem readWorkState_kept (hs : Gated.Sound σ s) (hcol : σ.codec.CollisionFree s.store.acks) {i : ι}
    {m : Candidate} (hm : m ∈ s.caches i) {union : List Envelope} (hunion : ∀ e ∈ union, e ∈ s.store.disk i) :
    readWorkState σ.codec σ.host σ.legacy union (some m) = readWorkState σ.codec σ.host σ.legacy union none := by
  rw [readWorkState, readWorkState]
  cases hr : foldHistory σ.codec union ["project"] true none with
  | error err => rfl
  | ok r =>
    dsimp only [Except.mapError, bind, Except.bind]
    by_cases hcursor : m.cursor = cursorOf r
    · have hread := foldHistory_reading (fun e he => hs.store.held i e (hunion e he)) hr
      have hfold := (hs.kept i m hm).foldOrder_eq hs.recorded hread (hcol.mono hread.subset) hcursor
      rw [hfold]
      simp only [filter_some, hcursor, decide_true, if_true, filter_none]
    · simp only [filter_some, hcursor, decide_false, filter_none, Bool.false_eq_true, if_false]

/-- **The gate refines the full fold.**  In every run: a read answers the same with a view that was kept
and without one; and what a call leaves, when its tail holds no promote and releases nothing, is the view
and the cursor that a full read folds from zero of what the call read, its tail and its batch. -/
theorem gate_refines (hrun : Gated.Run σ admitted stores s) (hcol : σ.codec.CollisionFree s.store.acks) (i : ι) :
    (∀ m ∈ s.caches i, ∀ union : List Envelope, (∀ e ∈ union, e ∈ s.store.disk i) →
      readWorkState σ.codec σ.host σ.legacy union (some m) = readWorkState σ.codec σ.host σ.legacy union none) ∧
    ∀ call : Call, call.Made σ s i → call.Undisturbed σ → σ.codec.CollisionFree (s.store.acks ++ call.events) →
      ∀ m, closeTx σ.host call.tx call.events = .ok m →
        ∀ D : List Envelope, (∀ e, e ∈ D ↔ e ∈ call.union ∨ e ∈ call.tail ++ call.events) →
          readWorkState σ.codec σ.host σ.legacy D none = .ok m := by
  have hs := hrun.sound hcol
  refine ⟨fun m hm union hunion => readWorkState_kept hs hcol hm hunion,
    fun call hcall hquiet hcol' m hclose D hD => ?_⟩
  obtain ⟨r, hr⟩ := hs.folds hcol hcall
  obtain ⟨r', hr', hevents, hdeferred⟩ := hr.order_after hcall hs.store hquiet hcol' hD
  have hview : foldOrder σ.host σ.legacy r'.events = .ok m.view := by
    rw [hevents, ← append_assoc]
    exact (hr.closed hclose).fold
  have hcursor : m.cursor = cursorOf r' := by
    rw [closeTx] at hclose
    obtain ⟨view, _, hclose⟩ := bind_eq_ok.mp hclose
    cases hclose
    show advance call.tx.cursor call.events = cursorOf r'
    rw [hcall.tx_cursor, hr.cursor, cursorOf, hr.tail.advance_cursor, hr.events.advance_cursor, cursorOf,
      hevents, hdeferred, append_assoc]
  rw [readWorkState, hr']
  show (do
    let view ← (foldOrder σ.host σ.legacy r'.events).mapError ReadError.fold
    return ({ view := view, cursor := cursorOf r' } : Candidate)) = .ok m
  rw [hview, ← hcursor]
  rfl

end

namespace GateHistory

open Envelope

def kept (event : Envelope) : Candidate := ⟨folded [event], advance opening.cursor [event]⟩

theorem close_kept {event : Envelope} (h : (foldOrder host [] [event]).toOption.isSome = true) :
    closeTx host opening [event] = .ok (kept event) := by
  have hfold : foldEvents host ([event].map LogEvent.ofEnvelope) View.empty = .ok (folded [event]) :=
    foldOrder_folded h
  rw [closeTx, show opening.view = View.empty from rfl, hfold]
  rfl

theorem close_here : closeTx host opening [here] = .ok (kept here) := close_kept (by decide)

theorem close_there : closeTx host opening [there] = .ok (kept there) := close_kept (by decide)

theorem exchanged_run : Gated.Run setting (fun _ => True) (fun _ _ => True) exchanged :=
  run_exchanged trivial fun _ _ _ => trivial

theorem undisturbed_here : (call (draft "x") here).Undisturbed setting where
  plain := fun _ he => nomatch he
  free := fun _ _ _ _ _ he => nomatch he

end GateHistory

open GateHistory in
/-- The clone that added an item reads with the view it kept; the other one, which read before it fetched,
leaves what a full read of its own event gives. -/
theorem gate_refines_exchange :
    readWorkState .integral host [] [there] (some (kept there)) = readWorkState .integral host [] [there] none ∧
    readWorkState .integral host [] [here] none = .ok (kept here) := by
  have hcol : Codec.integral.CollisionFree exchanged.store.acks := collisionFree.mono (by decide)
  have hcache : kept there ∈ exchanged.caches false := .inr close_there
  have hdisk : ∀ e ∈ [there], e ∈ exchanged.store.disk false := fun e he => by
    rw [mem_singleton.mp he]
    exact disk_added
  exact ⟨(gate_refines exchanged_run hcol false).1 _ hcache _ hdisk,
    (gate_refines exchanged_run hcol true).2 _ made_here undisturbed_here collisionFree _ close_here _ (by simp [call])⟩

open GateHistory in
/-- What was fetched between the read and the append is not in the view that is kept. -/
theorem gate_refines_counterexample :
    Gated.Run setting (fun _ => True) (fun _ _ => True) exchanged ∧ (call (draft "x") here).Made setting exchanged true ∧
    Codec.integral.CollisionFree merged.store.acks ∧ closeTx host opening [here] = .ok (kept here) ∧
    (∀ e, e ∈ merged.store.disk true ↔ e ∈ [there, here]) ∧
    ∃ m, readWorkState .integral host [] [there, here] none = .ok m ∧
      (kept here).view.conflicts = [] ∧ m.view.conflicts ≠ [] := by
  have hfold : foldOrder host [] ordered.events = .ok (folded [here, there]) := foldOrder_folded (by decide)
  have hread : readWorkState .integral host [] [there, here] none =
      .ok ⟨folded [here, there], cursorOf ordered⟩ := by
    rw [readWorkState, fold_merged]
    show (do
      let view ← (foldOrder host [] ordered.events).mapError ReadError.fold
      return ({ view := view, cursor := cursorOf ordered } : Candidate)) = _
    rw [hfold]
    rfl
  exact ⟨exchanged_run, made_here, collisionFree, close_here, disk_merged, _, hread, by decide,
    by decide⟩

end Forgent
