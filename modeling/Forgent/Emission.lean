import Forgent.HistoryBlocks
import Forgent.OrderExtend

/-!
# What two reads of one history have in common

Two clones hold different parts of one history, and their orders emit different events.  What both emit,
they emit in the same sequence (`Emits.filter_eq`): an emitted block is complete, so it is the same list
of events in both, and the run over the blocks of the one restricts to the run over those of the other.

So how far a read covers every stream settles what it emits, and in which sequence
(`Emits.eq_of_mem_iff`).
-/

namespace Forgent

open PriorityRun Relation List

/-- An order in project mode of a gap-free part of a history. -/
structure Reading (c : Codec) (l D : List Envelope) (r : Ordered) : Prop where
  subset : ∀ e ∈ D, e ∈ l
  contiguous : Contiguous D
  order : order c D ∅ true = .ok r

structure Emits (l : List Envelope) (r : Ordered) (bs : List (List Envelope)) : Prop where
  events : r.events = bs.flatten
  well : WellBlocked bs
  run : BlockRun bs ∅ bs
  subset : ∀ e ∈ r.events, e ∈ l
  heads : ∀ e ms, e :: ms ∈ bs → ∀ x ∈ e :: ms, headOf l x = some e
  whole : ∀ e ms, e :: ms ∈ bs → ∀ x ∈ l, headOf l x = some e → x ∈ e :: ms
  sorted : ∀ e ms, e :: ms ∈ bs → ms.Pairwise fun a b => a.seq < b.seq
  needs : ∀ e ∈ r.events, ∀ p ∈ dependencies e, ∃ d ∈ r.events, position d = p

/-! ### The blocks of a promote are sorted -/

variable {events : List Envelope} {blocks : List (List Envelope)}

theorem promoteBlocks_sorted {rest : List Envelope} {B : List (List Envelope)}
    (hB : promoteBlocks events rest blocks = .ok B)
    (h : ∀ e ms, e :: ms ∈ blocks → ms.Pairwise fun a b => a.seq ≤ b.seq) :
    ∀ e ms, e :: ms ∈ B → ms.Pairwise fun a b => a.seq ≤ b.seq := by
  induction rest generalizing blocks with
  | nil =>
    cases hB
    exact h
  | cons q rest ih =>
    rw [promoteBlocks] at hB
    split at hB
    · obtain ⟨claim, _, hB⟩ := bind_eq_ok.mp hB
      refine ih hB fun e ms hmem => ?_
      rcases mem_append.mp hmem with hmem | hmem
      · exact h e ms hmem
      · rw [mem_singleton, List.cons.injEq] at hmem
        rw [hmem.2]
        exact pairwise_insertionSort _ _
    · exact ih hB h

theorem contract_sorted {r : SortResult} (h : contract events true r = .ok blocks) :
    ∀ e ms, e :: ms ∈ blocks → ms.Pairwise fun a b => a.seq ≤ b.seq := by
  simp only [contract, if_true] at h
  obtain ⟨B, hB, h⟩ := bind_eq_ok.mp h
  cases h
  intro e ms hmem
  rcases mem_append.mp hmem with hmem | hmem
  · exact promoteBlocks_sorted hB (by simp) e ms hmem
  · obtain ⟨x, _, hx⟩ := List.mem_map.mp hmem
    rw [(List.cons.inj hx).2.symm]
    exact .nil

/-! ### The emitted blocks of one order -/

section

variable {c : Codec} {l D : List Envelope} {u : EventMap} {r : SortResult} {blocks : List (List Envelope)}
  {e : Envelope} {ms : List Envelope}

theorem Contiguous.exists_position (hcont : Contiguous D) (he : e ∈ D) {n : ℕ} (hn : 0 < n)
    (hle : n ≤ e.seq) : ∃ d ∈ D, position d = (streamKey e, n) := by
  generalize hm : e.seq - n = m
  induction m generalizing e with
  | zero =>
    refine ⟨e, he, Prod.ext rfl ?_⟩
    show e.seq = n
    omega
  | succ m ih =>
    obtain ⟨d, hd, hp⟩ := hcont e he (by omega)
    have hp' := Prod.ext_iff.mp hp
    have hseq : d.seq = e.seq - 1 := hp'.2
    obtain ⟨d', hd', hp''⟩ := ih hd (by omega) (by omega)
    exact ⟨d', hd', hp''.trans (Prod.ext hp'.1 rfl)⟩

theorem Deferred.of_dependsOn {events : List Envelope} {base : Positions} {b b' : List Envelope}
    (hb : b ∈ blocks) (hdep : DependsOn blocks base b b') (h : Deferred events blocks base b') :
    Deferred events blocks base b := by
  obtain ⟨b₀, hlack, hreach⟩ := h
  exact ⟨b₀, hlack, hreach.tail ⟨hdep, hb⟩⟩

theorem above_of_mem_dependencies (hv : e.Valid c) {p : Position} (hp : p ∈ dependencies e) : above ∅ p = true := by
  suffices hpos : 0 < p.2 by simpa [above, Positions.at] using hpos
  rw [dependencies, mem_append] at hp
  rcases hp with hp | hp
  · have hcounter := (hv.seen p.1 p.2 (Std.ExtTreeMap.mem_toList_iff_getElem?_eq_some.mp hp)).2
    rw [positiveCounter, Bool.and_eq_true, decide_eq_true_eq] at hcounter
    exact hcounter.1
  · split at hp
    · rw [mem_singleton] at hp
      subst hp
      show 0 < e.seq - 1
      omega
    · cases hp

/-- A block that is not deferred holds every event of the history that its head heads. -/
theorem mem_block_of_headOf (h : Recorded c l) (hsub : ∀ e ∈ D, e ∈ l) (hu : Holds u {e | e ∈ D})
    (hcont : Contiguous D) (hr : sortNodes (placedEvents u ∅ true) (singles (placedEvents u ∅ true)) ∅ = .ok r)
    (hblocks : contract (placedEvents u ∅ true) true r = .ok blocks)
    (hb : e :: ms ∈ blocks) (hnd : ¬ Deferred (placedEvents u ∅ true) blocks ∅ (e :: ms)) {x : Envelope}
    (hx : x ∈ l) (hhead : headOf l x = some e) : x ∈ e :: ms := by
  have hv : AllValid c D := h.valid.mono hsub
  have hpos : ((placedEvents u ∅ true).map position).Nodup := placedEvents_nodup_position hu
  have hc := contract_isContraction (placedEvents_valid hu hv) (List.Nodup.of_map _ hpos)
    (preliminary_perm hu hr) hblocks
  have hwell := hc.wellBlocked hpos
  have heE : e ∈ placedEvents u ∅ true := ((hc.mem e).mp (mem_flatten.mpr ⟨_, hb, by simp⟩)).1
  have heD : e ∈ D := placedEvents_subset hu e heE
  by_cases hscope : x.scope = .project
  · rw [headOf, if_pos hscope] at hhead
    cases hhead
    exact mem_cons_self
  · rw [headOf, if_neg hscope] at hhead
    have hfound := find?_some hhead
    rw [Bool.and_eq_true, decide_eq_true_eq, decide_eq_true_eq] at hfound
    obtain ⟨heproject, hnames⟩ := hfound
    obtain ⟨ho, n, hclaim, hle⟩ := id hnames
    obtain ⟨claim, hcheck⟩ := hc.checked rfl e heE (eventType_of_promoteClaim hclaim)
    have hclaim' := promoteClaim_of_checkPromote (eventType_of_promoteClaim hclaim) hcheck
    rw [hclaim] at hclaim'
    cases hclaim'
    obtain ⟨_, _, hpre, _, hn, _⟩ := checkPromote_eq_ok_iff.mp hcheck
    rw [Bool.and_eq_true] at hpre
    have hbranch : x.scope = .branch := (h.valid x hx).scope_branch hpre.1
    have hxpos := (h.valid x hx).seq_pos
    -- the branch has reached the number the promote names, or the block would be deferred
    obtain ⟨t, ht, htp⟩ : ∃ t ∈ placedEvents u ∅ true,
        position t = (positionKey e.origin x.stream, n) := by
      by_contra hnone
      push Not at hnone
      refine hnd ⟨e :: ms, ⟨hb, Finset.ne_empty_of_mem (a := (positionKey e.origin x.stream, n)) ?_⟩, .refl⟩
      rw [blockMissing, Finset.mem_union, List.mem_toFinset, List.mem_toFinset]
      refine .inr (mem_filter.mpr ⟨mem_filterMap.mpr ⟨e, by simp, ?_⟩, ?_⟩)
      · rw [promotePosition, hclaim]
        rfl
      · rw [Bool.and_eq_true, Bool.not_eq_true', List.any_eq_false]
        refine ⟨?_, fun d hd => by simpa using hnone d hd⟩
        have : 0 < n := by omega
        simpa [above, Positions.at] using this
    have htp' := Prod.ext_iff.mp htp
    have htkey : streamKey t = streamKey x := htp'.1.trans (by rw [ho]; rfl)
    have htseq : t.seq = n := htp'.2
    obtain ⟨x', hx'D, hx'p⟩ := hcont.exists_position (placedEvents_subset hu t ht) hxpos (by omega)
    have hxx : x' = x :=
      h.history.event_unique (hsub x' hx'D) hx (hx'p.trans (Prod.ext htkey rfl))
    subst hxx
    have hxE : x' ∈ placedEvents u ∅ true := (mem_placedEvents_iff hu x').mpr
      ⟨hx'D, above_empty hxpos, .inr (.inr ⟨e, heD, above_empty (hv e heD).seq_pos, hnames⟩)⟩
    obtain ⟨b, hbB, hxb⟩ := mem_flatten.mp
      ((hc.mem x').mpr ⟨hxE, .inr (.inr ⟨hbranch, e, heE, heproject, hnames⟩)⟩)
    obtain ⟨e', ms', rfl, _⟩ := hc.shape b hbB
    have hee : headOf l x' = some e' := headOf_block h hsub hu hcont hr hblocks hbB hxb
    rw [headOf, if_neg hscope, hhead, Option.some.injEq] at hee
    subst hee
    have hsame := hwell.block_unique hbB hb (e := e) (by simp) (by simp)
    rwa [hsame] at hxb

theorem block_sorted (hv : AllValid c D) (hu : Holds u {e | e ∈ D})
    (hr : sortNodes (placedEvents u ∅ true) (singles (placedEvents u ∅ true)) ∅ = .ok r)
    (hblocks : contract (placedEvents u ∅ true) true r = .ok blocks)
    (hb : e :: ms ∈ blocks) : ms.Pairwise fun a b => a.seq < b.seq := by
  have hpos : ((placedEvents u ∅ true).map position).Nodup := placedEvents_nodup_position hu
  have hc := contract_isContraction (placedEvents_valid hu hv) (List.Nodup.of_map _ hpos)
    (preliminary_perm hu hr) hblocks
  have hwell := hc.wellBlocked hpos
  have hnd : (e :: ms).Nodup := (nodup_flatten.mp hc.nodup).1 _ hb
  have hle := contract_sorted hblocks e ms hb
  obtain ⟨e', ms', heq, _, _, _, hms⟩ := hc.shape _ hb
  cases heq
  refine (hle.and (nodup_cons.mp hnd).2).imp_of_mem fun {a b} ha hb' hab => ?_
  refine lt_of_le_of_ne hab.1 fun hseq => hab.2 ?_
  rcases hms with hnil | ⟨_, claim, _, hmem⟩
  · rw [hnil] at ha
    cases ha
  · obtain ⟨_, hoa, hsa, _⟩ := hmem a ha
    obtain ⟨_, hob, hsb, _⟩ := hmem b hb'
    refine hwell.event_unique hb hb (mem_cons_of_mem _ ha) (mem_cons_of_mem _ hb') (Prod.ext ?_ hseq)
    show positionKey a.origin a.stream = positionKey b.origin b.stream
    rw [hoa, hsa, hob, hsb]

end

section

variable {c : Codec} {l D : List Envelope} {r : Ordered}

structure Reading.Parts (c : Codec) (D : List Envelope) (r : Ordered) (u : EventMap) (pre : SortResult)
    (blocks : List (List Envelope)) (result : SortResult) : Prop where
  valid : AllValid c D
  holds : Holds u {e | e ∈ D}
  first : sortNodes (placedEvents u ∅ true) (singles (placedEvents u ∅ true)) ∅ = .ok pre
  contract : contract (placedEvents u ∅ true) true pre = .ok blocks
  contraction : IsContraction (placedEvents u ∅ true) true blocks
  well : WellBlocked blocks
  sort : sortNodes (placedEvents u ∅ true) blocks ∅ = .ok result
  events : r.events = result.emitted
  deferred : r.deferred = result.held
  causal : CausalOrder D ∅ true blocks r

theorem Reading.parts (h : Reading c l D r) (hcol : c.CollisionFree D) :
    ∃ u pre blocks result, Reading.Parts c D r u pre blocks result := by
  have hord := h.order
  rw [Forgent.order, orderRetained, bind_eq_ok] at hord
  obtain ⟨u, hcollect, hord⟩ := hord
  obtain ⟨hv, _, hu⟩ := (collect_input_eq_ok_iff hcol none u).mp hcollect
  obtain ⟨pre, blocks, result, hpre, hblocks, hresult, rfl⟩ := orderUnique_eq_ok_iff.mp hord
  have hpos : ((placedEvents u ∅ true).map position).Nodup := placedEvents_nodup_position hu
  have hc := contract_isContraction (placedEvents_valid hu hv) (List.Nodup.of_map _ hpos)
    (preliminary_perm hu hpre) hblocks
  exact ⟨u, pre, blocks, result, hv, hu, hpre, hblocks, hc, hc.wellBlocked hpos, hresult, rfl, rfl,
    causalOrder_of_contraction hu hv hc hresult⟩

theorem Reading.mem_input (h : Reading c l D r) (hcol : c.CollisionFree D) : ∀ e ∈ r.events ++ r.deferred, e ∈ D := by
  obtain ⟨_, _, _, _, hp⟩ := h.parts hcol
  exact fun e he => ((hp.causal.mem e).mp he).1

/-- **What a read emits** are whole blocks of the history, in the one run over them. -/
theorem Reading.emits (h : Reading c l D r) (hl : Recorded c l) (hcol : c.CollisionFree D) : ∃ bs, Emits l r bs := by
  classical
  obtain ⟨u, pre, blocks, result, hp⟩ := h.parts hcol
  obtain ⟨vs, hrun, hperm, hemitted, _, _⟩ := sortNodes_run hp.well hp.sort
  have hin : ∀ e ∈ r.events, e ∈ D := fun e he =>
    ((hp.causal.mem e).mp (mem_append_left _ he)).1
  set kept : List Envelope → Prop := fun b => b ∈ blocks ∧ ¬ Deferred (placedEvents u ∅ true) blocks ∅ b
    with hkept
  have hmem : ∀ b, b ∈ vs.filter (fun b => ¬ Deferred (placedEvents u ∅ true) blocks ∅ b) ↔ kept b := by
    intro b
    rw [mem_filter, hperm.mem_iff, decide_eq_true_eq]
  have hclosed : ∀ b, kept b → ∀ b', DependsOn blocks ∅ b b' → kept b' := fun b hb b' hdep =>
    ⟨hdep.1, fun hdef => hb.2 (hdef.of_dependsOn hb.1 hdep)⟩
  have hkeptrun : Run {b | kept b} (fun b => {b' | DependsOn blocks ∅ b b'}) headKey
      (vs.filter fun b => b ∈ {b | kept b}) := hrun.filter (fun b hb => hb.1) hclosed
  have hfilter : (vs.filter fun b => decide (b ∈ {b | kept b})) =
      vs.filter fun b => decide (¬ Deferred (placedEvents u ∅ true) blocks ∅ b) := by
    refine filter_congr fun b hb => ?_
    simp [hkept, hperm.mem_iff.mp hb]
  refine ⟨vs.filter fun b => ¬ Deferred (placedEvents u ∅ true) blocks ∅ b, ?_⟩
  refine ⟨hp.events.trans hemitted, ⟨fun b hb => hp.well.nonempty b ((hmem b).mp hb).1, ?_⟩, ?_,
    fun e he => h.subset e (hin e he),
    fun e ms hb x hx => headOf_block hl h.subset hp.holds h.contiguous hp.first hp.contract ((hmem _).mp hb).1 hx,
    fun e ms hb x hx hhead => mem_block_of_headOf hl h.subset hp.holds h.contiguous hp.first hp.contract
      ((hmem _).mp hb).1 ((hmem _).mp hb).2 hx hhead,
    fun e ms hb => block_sorted hp.valid hp.holds hp.first hp.contract ((hmem _).mp hb).1, fun e he p hdep => ?_⟩
  · exact (hperm.flatten.map position).nodup_iff.mpr hp.well.positions |>.sublist
      ((filter_sublist.flatten).map position)
  · rw [hfilter] at hkeptrun
    have hnodes : {b | b ∈ vs.filter fun b => decide (¬ Deferred (placedEvents u ∅ true) blocks ∅ b)} =
        {b | kept b} := Set.ext hmem
    show Run _ _ _ _
    rw [hnodes]
    refine hkeptrun.congr_deps fun b hb => Set.ext fun b' => ?_
    show DependsOn blocks ∅ b b' ↔ DependsOn _ ∅ b b'
    constructor
    · exact fun hdep => ⟨(hmem b').mpr (hclosed b hb b' hdep), hdep.2⟩
    · exact fun hdep => ⟨((hmem b').mp hdep.1).1, hdep.2⟩
  · obtain ⟨d, hd, hdp, _⟩ := hp.causal.before e he p hdep
      (above_of_mem_dependencies (hp.valid e (hin e he)) hdep)
    exact ⟨d, hd, hdp⟩

end

/-! ### Two orders of one history -/

section

variable {c : Codec} {l : List Envelope} {r r' : Ordered} {bs bs' : List (List Envelope)} {x : Envelope}

theorem Emits.exists_block (h : Emits l r bs) (hx : x ∈ r.events) :
    ∃ e ms, e :: ms ∈ bs ∧ x ∈ e :: ms ∧ headOf l x = some e := by
  rw [h.events] at hx
  obtain ⟨b, hb, hxb⟩ := mem_flatten.mp hx
  cases b with
  | nil => cases hxb
  | cons e ms => exact ⟨e, ms, hb, hxb, h.heads e ms hb x hxb⟩

theorem Emits.mem_of_block (h : Emits l r bs) {b : List Envelope} (hb : b ∈ bs) (hx : x ∈ b) : x ∈ r.events := by
  rw [h.events]
  exact mem_flatten.mpr ⟨b, hb, hx⟩

theorem Emits.nodup (h : Emits l r bs) : r.events.Nodup := by
  rw [h.events]
  exact List.Nodup.of_map _ h.well.positions

theorem Emits.block_mem (h : Emits l r bs) (h' : Emits l r' bs') {e : Envelope} {ms : List Envelope}
    (hb : e :: ms ∈ bs) (he : e ∈ r'.events) : e :: ms ∈ bs' := by
  obtain ⟨e', ms', hb', heb', hhead⟩ := h'.exists_block he
  have hself := h.heads e ms hb e (by simp)
  rw [hself, Option.some.injEq] at hhead
  subst hhead
  have hnd : (e :: ms).Nodup := (nodup_flatten.mp (List.Nodup.of_map _ h.well.positions)).1 _ hb
  have hnd' : (e :: ms').Nodup := (nodup_flatten.mp (List.Nodup.of_map _ h'.well.positions)).1 _ hb'
  suffices hms : ms = ms' by rwa [hms]
  have hirr : Std.Irrefl fun a b : Envelope => a.seq < b.seq := ⟨fun a => lt_irrefl _⟩
  have hanti : Std.Antisymm fun a b : Envelope => a.seq < b.seq :=
    ⟨fun a b hab hba => absurd hba (lt_asymm hab)⟩
  refine (h.sorted e ms hb).eq_of_mem_iff (h'.sorted e ms' hb') fun x => ?_
  constructor
  · intro hx
    have hxl := h.subset x (h.mem_of_block hb (mem_cons_of_mem _ hx))
    have hxb' := h'.whole e ms' hb' x hxl (h.heads e ms hb x (mem_cons_of_mem _ hx))
    refine (mem_cons.mp hxb').resolve_left fun hxe => ?_
    exact (nodup_cons.mp hnd).1 (hxe ▸ hx)
  · intro hx
    have hxl := h'.subset x (h'.mem_of_block hb' (mem_cons_of_mem _ hx))
    have hxb := h.whole e ms hb x hxl (h'.heads e ms' hb' x (mem_cons_of_mem _ hx))
    refine (mem_cons.mp hxb).resolve_left fun hxe => ?_
    exact (nodup_cons.mp hnd').1 (hxe ▸ hx)

theorem flatten_filter_blocks {α : Type*} {L : List (List α)} {p : List α → Bool} {q : α → Bool}
    (h : ∀ b ∈ L, ∀ x ∈ b, q x = p b) : L.flatten.filter q = (L.filter p).flatten := by
  induction L with
  | nil => rfl
  | cons b L ih =>
    obtain ⟨hb, hL⟩ := forall_mem_cons.mp h
    rw [flatten_cons, filter_append, ih hL]
    cases hp : p b with
    | true =>
      rw [filter_cons_of_pos hp, flatten_cons, List.filter_eq_self.mpr fun x hx => (hb x hx).trans hp]
    | false =>
      rw [filter_cons_of_neg (by simp [hp]),
        filter_eq_nil_iff.mpr fun x hx => by simp [hb x hx, hp], nil_append]

/-- **One sequence for all.**  What two orders of a history both emit stands in one sequence. -/
theorem Emits.filter_eq (hl : History l) (h : Emits l r bs) (h' : Emits l r' bs')
    (hsub : ∀ e ∈ r.events, e ∈ r'.events) : r'.events.filter (· ∈ r.events) = r.events := by
  classical
  have hbs : ∀ b ∈ bs, b ∈ bs' := by
    intro b hb
    cases b with
    | nil => exact absurd rfl (h.well.nonempty _ hb)
    | cons e ms => exact h.block_mem h' hb (hsub e (h.mem_of_block hb (by simp)))
  -- an event of an emitted block that `r` emits too is in a block of `r`
  have hback : ∀ b ∈ bs', ∀ x ∈ b, x ∈ r.events → b ∈ bs := by
    intro b hb x hx hxr
    obtain ⟨e, ms, hb₀, hx₀, _⟩ := h.exists_block hxr
    exact h'.well.block_unique hb (hbs _ hb₀) hx hx₀ ▸ hb₀
  have hclosed : ∀ b ∈ bs, ∀ b', DependsOn bs' ∅ b b' → b' ∈ bs := by
    rintro b hb b' ⟨hb', _, p, hp, y, hy, rfl⟩
    obtain ⟨x, hx, hxp⟩ := mem_flatMap.mp (mem_filter.mp hp).1
    obtain ⟨d, hd, hdp⟩ := h.needs x (h.mem_of_block hb hx) _ hxp
    have hdy : d = y := hl.event_unique (h.subset d hd) (h'.subset y (h'.mem_of_block hb' hy)) hdp
    exact hback b' hb' y hy (hdy ▸ hd)
  have hrun' : BlockRun bs ∅ (bs'.filter fun b => b ∈ {b | b ∈ bs}) := by
    have hfilter : Run {b | b ∈ bs} (fun b => {b' | DependsOn bs' ∅ b b'}) headKey
        (bs'.filter fun b => b ∈ {b | b ∈ bs}) := h'.run.filter hbs hclosed
    refine hfilter.congr_deps fun b hb => Set.ext fun b' => ?_
    constructor
    · exact fun hdep => ⟨hclosed b hb b' hdep, hdep.2⟩
    · exact fun hdep => ⟨hbs b' hdep.1, hdep.2⟩
  have heq : (bs'.filter fun b => decide (b ∈ {b | b ∈ bs})) = bs := by
    refine hrun'.unique h.well.headKey_injOn h.run (complete_of_forall_mem fun b hb => ?_)
      (complete_of_forall_mem fun b hb => hb)
    exact mem_filter.mpr ⟨hbs b hb, by simpa using hb⟩
  calc r'.events.filter (· ∈ r.events)
      = bs'.flatten.filter (· ∈ r.events) := by rw [h'.events]
    _ = (bs'.filter fun b => decide (b ∈ {b | b ∈ bs})).flatten := by
        refine flatten_filter_blocks fun b hb x hx => ?_
        rw [Bool.eq_iff_iff, decide_eq_true_eq, decide_eq_true_eq]
        exact ⟨hback b hb x hx, fun hbbs => h.mem_of_block hbbs hx⟩
    _ = bs.flatten := by rw [heq]
    _ = r.events := h.events.symm

end

end Forgent
