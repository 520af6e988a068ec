import Forgent.OrderPlacement

/-!
# Causal safety of the order

A successful `order` is read here as one statement about the events of its input (`CausalOrder`):

* what is emitted and what is deferred are together the present events, each once;
* an emitted event has every open dependency before it, or with it in its block;
* an event is deferred exactly when it waits for a position where no present event is;
* the reported missing positions are those a present event itself depends on.

An event waits for what its dependencies wait for, and for what the other events of its block wait for:
a block is one node of the graph, so this is taken at every step and not only at the end.
-/

namespace Forgent

open PriorityRun Relation List

/-- The events an order of `input` above `base` is about. -/
def Present (input : List Envelope) (base : Positions) (project : Bool) (e : Envelope) : Prop :=
  e ∈ input ∧ above base (position e) = true ∧ Visible input base project e

/-- Nothing the order is about is at this position. -/
def Absent (input : List Envelope) (base : Positions) (project : Bool) (p : Position) : Prop :=
  ∀ d, Present input base project d → position d ≠ p

/-- The positions an event needs itself: its dependencies, and what a promote names. -/
def Needs (base : Positions) (e : Envelope) (p : Position) : Prop :=
  (p ∈ dependencies e ∨ promotePosition e = some p) ∧ above base p = true

inductive Waits (input : List Envelope) (base : Positions) (project : Bool)
    (blocks : List (List Envelope)) : Envelope → Position → Prop
  | needs {e p} : Needs base e p → Waits input base project blocks e p
  | through {e d p} : Present input base project d → position d ∈ dependencies e →
      Waits input base project blocks d p → Waits input base project blocks e p
  | mate {e m p b} : b ∈ blocks → e ∈ b → m ∈ b → Waits input base project blocks m p →
      Waits input base project blocks e p

/-- `d` stands before `e` in the list. -/
def Before (l : List Envelope) (d e : Envelope) : Prop :=
  ∃ s t, l = s ++ e :: t ∧ d ∈ s

/-- What an order says about the events it was given. -/
structure CausalOrder (input : List Envelope) (base : Positions) (project : Bool)
    (blocks : List (List Envelope)) (r : Ordered) : Prop where
  nodup : (r.events ++ r.deferred).Nodup
  mem : ∀ e, e ∈ r.events ++ r.deferred ↔ Present input base project e
  before : ∀ e ∈ r.events, ∀ p ∈ dependencies e, above base p = true →
    ∃ d ∈ r.events, position d = p ∧ (Before r.events d e ∨ ∃ b ∈ blocks, d ∈ b ∧ e ∈ b)
  deferred : ∀ e, Present input base project e →
    (e ∈ r.deferred ↔ ∃ p, Waits input base project blocks e p ∧ Absent input base project p)
  missing : ∀ p, p ∈ r.missing ↔
    Absent input base project p ∧ ∃ e, Present input base project e ∧ Needs base e p

def CallBlocks (c : Codec) (input : List Envelope) (base : Positions) (project : Bool)
    (blocks : List (List Envelope)) : Prop :=
  ∃ u preliminary, collect c none input ∅ = .ok u ∧
    sortNodes (placedEvents u base project) ((placedEvents u base project).map fun e => [e]) base =
      .ok preliminary ∧
    contract (placedEvents u base project) project preliminary = .ok blocks

/-- The blocks hold every present event once; a block is one event, or in project mode a promote and
branch events that it names. -/
structure PresentBlocks (input : List Envelope) (base : Positions) (project : Bool)
    (blocks : List (List Envelope)) : Prop where
  shape : ∀ b ∈ blocks, IsBlock input project b
  nodup : blocks.flatten.Nodup
  mem : ∀ e, e ∈ blocks.flatten ↔ Present input base project e

/-! ### The parts of a call -/

variable {base : Positions}

theorem orderUnique_eq_ok_iff {u : EventMap} {project : Bool} {r : Ordered} :
    orderUnique u base project = .ok r ↔ ∃ preliminary blocks result,
      sortNodes (placedEvents u base project) ((placedEvents u base project).map fun e => [e]) base =
        .ok preliminary ∧ contract (placedEvents u base project) project preliminary = .ok blocks ∧
      sortNodes (placedEvents u base project) blocks base = .ok result ∧
      r = { events := result.emitted, deferred := result.held, missing := result.missing,
            concurrent := concurrentPairs result.emitted ∅ } := by
  simp only [orderUnique, bind_eq_ok, pure, Except.pure, Except.ok.injEq, exists_and_left]
  constructor
  · rintro ⟨pre, hpre, blocks, hblocks, result, hresult, rfl⟩
    exact ⟨pre, hpre, blocks, hblocks, result, hresult, rfl⟩
  · rintro ⟨pre, hpre, blocks, hblocks, result, hresult, rfl⟩
    exact ⟨pre, hpre, blocks, hblocks, result, hresult, rfl⟩

theorem sortNodes_perm {events : List Envelope} {blocks : List (List Envelope)}
    (hb : WellBlocked blocks) {r : SortResult} (h : sortNodes events blocks base = .ok r) :
    (r.emitted ++ r.held).Perm blocks.flatten := by
  classical
  obtain ⟨vs, _, hperm, hemitted, hheld, _⟩ := sortNodes_run hb h
  have hsplit : (vs.filter (fun b => ¬ Deferred events blocks base b) ++
      vs.filter fun b => Deferred events blocks base b).Perm vs := by
    refine perm_append_comm.trans ?_
    simpa using filter_append_perm (fun b => Deferred events blocks base b) vs
  rw [hemitted, hheld, ← flatten_append]
  exact (hsplit.trans hperm).flatten

section

variable {c : Codec} {input : List Envelope} {base : Positions} {project : Bool} {u : EventMap}
  {blocks : List (List Envelope)} {d e : Envelope} {b : List Envelope} {events b' : List Envelope} {p : Position}

section

variable (hu : Holds u {e | e ∈ input})

include hu

theorem placedEvents_subset : ∀ e ∈ placedEvents u base project, e ∈ input :=
  fun e he => ((mem_placedEvents_iff hu e).mp he).1

theorem placedEvents_valid (hv : AllValid c input) : AllValid c (placedEvents u base project) :=
  fun e he => hv e (placedEvents_subset hu e he)

theorem preliminary_perm {preliminary : SortResult}
    (h : sortNodes (placedEvents u base project) ((placedEvents u base project).map fun e => [e]) base =
      .ok preliminary) : (preliminary.emitted ++ preliminary.held).Perm (placedEvents u base project) := by
  have := sortNodes_perm (singles_wellBlocked (placedEvents_nodup_position hu)) h
  rwa [flatten_map_singleton] at this

theorem IsContraction.mem_iff_present
    (hc : IsContraction (placedEvents u base project) project blocks) (e : Envelope) :
    e ∈ blocks.flatten ↔ Present input base project e := by
  rw [hc.mem, Present, Visible]
  constructor
  · rintro ⟨he, hvis⟩
    obtain ⟨hin, habove, _⟩ := (mem_placedEvents_iff hu e).mp he
    refine ⟨hin, habove, ?_⟩
    rcases hvis with h | h | ⟨hb, p, hp, hps, hn⟩
    · exact .inl h
    · exact .inr (.inl h)
    · obtain ⟨hpin, hpab, _⟩ := (mem_placedEvents_iff hu p).mp hp
      exact .inr (.inr ⟨hb, p, ⟨hpin, hpab, hps⟩, hn⟩)
  · rintro ⟨hin, habove, hvis⟩
    rcases hvis with h | h | ⟨hb, p, ⟨hpin, hpab, hps⟩, hn⟩
    · exact ⟨(mem_placedEvents_iff hu e).mpr ⟨hin, habove, .inl h⟩, .inl h⟩
    · exact ⟨(mem_placedEvents_iff hu e).mpr ⟨hin, habove, .inr (.inl h)⟩, .inr (.inl h)⟩
    · have hpe : p ∈ placedEvents u base project :=
        (mem_placedEvents_iff hu p).mpr ⟨hpin, hpab, .inr (.inl hps)⟩
      exact ⟨(mem_placedEvents_iff hu e).mpr ⟨hin, habove, .inr (.inr ⟨p, hpin, hpab, hn⟩)⟩,
        .inr (.inr ⟨hb, p, hpe, hps, hn⟩)⟩

theorem IsContraction.presentBlocks
    (hc : IsContraction (placedEvents u base project) project blocks) : PresentBlocks input base project blocks where
  shape := fun b hb => by
    obtain ⟨e, ms, rfl, he, hsingle, hscope, hms⟩ := hc.shape b hb
    refine ⟨e, ms, rfl, placedEvents_subset hu e he, hsingle, hscope, ?_⟩
    rcases hms with hms | ⟨ht, claim, hclaim, hms⟩
    · exact .inl hms
    · exact .inr ⟨ht, claim, hclaim, fun m hm =>
        ⟨placedEvents_subset hu m (hms m hm).1, (hms m hm).2⟩⟩
  nodup := hc.nodup
  mem := hc.mem_iff_present hu

end

/-! ### Missing positions -/

theorem IsContraction.promote_target
    (hvalid : AllValid c events) (hc : IsContraction events project blocks) {q : Envelope}
    (hq : q ∈ events) (hd : d ∈ events) (hp : promotePosition q = some (position d)) : d ∈ blocks.flatten := by
  rw [hc.mem]
  refine ⟨hd, ?_⟩
  cases hproject : project with
  | false => exact .inl rfl
  | true =>
    obtain ⟨⟨stream, n⟩, hclaim, hpos⟩ := Option.map_eq_some_iff.mp hp
    have hpt := eventType_of_promoteClaim hclaim
    obtain ⟨claim, hcheck⟩ := hc.checked hproject q hq hpt
    have hEq := promoteClaim_of_checkPromote hpt hcheck
    rw [hclaim] at hEq
    cases hEq
    obtain ⟨hqs, _, hpre, _⟩ := checkPromote_eq_ok_iff.mp hcheck
    rw [Bool.and_eq_true] at hpre
    -- the position determines the stream, which is the branch stream of the promote
    have hpos' := Prod.ext_iff.mp hpos
    obtain ⟨ho, hs⟩ := positionKey_injective (hvalid q hq).origin (hvalid d hd).origin hpos'.1
    refine .inr (.inr ⟨(hvalid d hd).scope_branch (hs ▸ hpre.1), q, hq, hqs, ho, n, ?_, ?_⟩)
    · rw [hclaim]
      exact congrArg (fun s => some (s, n)) hs
    · exact le_of_eq hpos'.2.symm

theorem absent_iff_owner_isNone (hP : PresentBlocks input base project blocks) (p : Position) :
    (owner blocks p).isNone = true ↔ Absent input base project p := by
  rw [owner_isNone_iff]
  constructor
  · intro h d hd
    obtain ⟨b, hb, hdb⟩ := mem_flatten.mp ((hP.mem d).mpr hd)
    exact h b hb d hdb
  · intro h b hb e he
    exact h e ((hP.mem e).mp (mem_flatten.mpr ⟨b, hb, he⟩))

theorem mem_blockMissing_iff (hu : Holds u {e | e ∈ input})
    (hv : AllValid c input) (hc : IsContraction (placedEvents u base project) project blocks)
    (hb : b ∈ blocks) (p : Position) : p ∈ blockMissing (placedEvents u base project) blocks base b ↔
      Absent input base project p ∧ ∃ e ∈ b, Needs base e p := by
  have hP := hc.presentBlocks hu
  have hbe : ∀ e ∈ b, e ∈ placedEvents u base project := fun e he =>
    ((hc.mem e).mp (mem_flatten.mpr ⟨b, hb, he⟩)).1
  simp only [blockMissing, Finset.mem_union, List.mem_toFinset, mem_filter,
    absent_iff_owner_isNone hP, openDependencies, mem_flatMap, mem_filterMap,
    Bool.and_eq_true, Bool.not_eq_true', List.any_eq_false, decide_eq_true_eq]
  constructor
  · intro h
    rcases h with ⟨⟨⟨e, he, hdep⟩, hab⟩, habs⟩ | ⟨⟨e, he, hprom⟩, hab, hnone⟩
    · exact ⟨habs, e, he, .inl hdep, hab⟩
    · refine ⟨fun d hd hdp => ?_, e, he, .inr hprom, hab⟩
      exact hnone d ((hc.mem d).mp ((hP.mem d).mpr hd)).1 hdp
  · rintro ⟨habs, e, he, hdep | hprom, hab⟩
    · exact .inl ⟨⟨⟨e, he, hdep⟩, hab⟩, habs⟩
    · refine .inr ⟨⟨e, he, hprom⟩, hab, fun d hd hdp => ?_⟩
      have hblock := hc.promote_target (placedEvents_valid hu hv) (hbe e he) hd (hdp ▸ hprom)
      exact habs d ((hP.mem d).mp hblock) hdp

/-! ### Deferral -/

theorem dependsOn_of_mem (hb' : b' ∈ blocks) (hne : b' ≠ b) (he : e ∈ b) (hd : d ∈ b')
    (hdep : position d ∈ dependencies e) (hab : above base (position d) = true) : DependsOn blocks base b b' :=
  ⟨hb', hne, position d, mem_filter.mpr ⟨mem_flatMap.mpr ⟨e, he, hdep⟩, hab⟩, d, hd, rfl⟩

theorem deferred_of_waits (hu : Holds u {e | e ∈ input})
    (hv : AllValid c input) (hc : IsContraction (placedEvents u base project) project blocks)
    (hwell : WellBlocked blocks) (habs : Absent input base project p) (h : Waits input base project blocks e p) :
    ∀ b ∈ blocks, e ∈ b → Deferred (placedEvents u base project) blocks base b := by
  have hP := hc.presentBlocks hu
  induction h with
  | @needs e p hneed =>
    intro b hb he
    have hmiss := (mem_blockMissing_iff hu hv hc hb p).mpr ⟨habs, e, he, hneed⟩
    exact ⟨b, ⟨hb, Finset.ne_empty_of_mem hmiss⟩, .refl⟩
  | @through e d p hd hdep _ ih =>
    intro b hb he
    obtain ⟨b', hb', hdb'⟩ := mem_flatten.mp ((hP.mem d).mpr hd)
    obtain ⟨b₀, hlack, hreach⟩ := ih habs b' hb' hdb'
    by_cases hne : b' = b
    · exact ⟨b₀, hlack, hne ▸ hreach⟩
    · exact ⟨b₀, hlack, hreach.tail ⟨dependsOn_of_mem hb' hne he hdb' hdep hd.2.1, hb⟩⟩
  | @mate e m p b₁ hb₁ he₁ hm₁ _ ih =>
    intro b hb he
    rw [hwell.block_unique hb hb₁ he he₁]
    exact ih habs b₁ hb₁ hm₁

theorem waits_of_deferred (hu : Holds u {e | e ∈ input})
    (hv : AllValid c input) (hc : IsContraction (placedEvents u base project) project blocks)
    (h : Deferred (placedEvents u base project) blocks base b) :
    ∃ p, Absent input base project p ∧ ∀ e ∈ b, Waits input base project blocks e p := by
  have hP := hc.presentBlocks hu
  obtain ⟨b₀, ⟨hb₀, hlack⟩, hreach⟩ := h
  obtain ⟨p, hp⟩ := Finset.nonempty_of_ne_empty hlack
  obtain ⟨habs, m, hm, hneed⟩ := (mem_blockMissing_iff hu hv hc hb₀ p).mp hp
  refine ⟨p, habs, ?_⟩
  induction hreach with
  | refl => exact fun e he => .mate hb₀ he hm (.needs hneed)
  | @tail x y _ hxy ih =>
    intro e he
    obtain ⟨⟨hx, _, q, hq, d, hd, hdq⟩, hy⟩ := hxy
    obtain ⟨e', he', hdep⟩ := mem_flatMap.mp (mem_filter.mp hq).1
    have hdP := (hP.mem d).mp (mem_flatten.mpr ⟨x, hx, hd⟩)
    exact .mate hy he he' (.through hdP (hdq ▸ hdep) (ih d hd))

/-! ### The emitted sequence -/

theorem before_flatten_filter {s t : List (List Envelope)} {q : List Envelope → Bool}
    (hb' : b' ∈ s) (hq : q b = true) (hq' : q b' = true) (hd : d ∈ b') (he : e ∈ b) :
    Before ((s ++ b :: t).filter q).flatten d e := by
  obtain ⟨x, y, hxy⟩ := append_of_mem he
  refine ⟨(s.filter q).flatten ++ x, y ++ (t.filter q).flatten, ?_, ?_⟩
  · rw [filter_append, filter_cons_of_pos hq, flatten_append, flatten_cons, hxy]
    simp
  · have : d ∈ (s.filter q).flatten :=
      mem_flatten.mpr ⟨b', mem_filter.mpr ⟨hb', hq'⟩, hd⟩
    exact mem_append_left x this

theorem before_of_emitted (hwell : WellBlocked blocks) {r : SortResult} (h : sortNodes events blocks base = .ok r)
    (he : e ∈ r.emitted) (hp : p ∈ dependencies e) (hab : above base p = true) :
    ∃ d ∈ r.emitted, position d = p ∧ (Before r.emitted d e ∨ ∃ b ∈ blocks, d ∈ b ∧ e ∈ b) := by
  classical
  obtain ⟨vs, hrun, hperm, hemitted, _, _⟩ := sortNodes_run hwell h
  rw [hemitted] at he ⊢
  obtain ⟨b, hbf, heb⟩ := mem_flatten.mp he
  obtain ⟨hbvs, hnd⟩ := mem_filter.mp hbf
  have hb := hperm.mem_iff.mp hbvs
  have hopen : p ∈ openDependencies base b :=
    mem_filter.mpr ⟨mem_flatMap.mpr ⟨e, heb, hp⟩, hab⟩
  have hnotdef : ¬ Deferred events blocks base b := by simpa using hnd
  -- a position without an owner would make the block lack a dependency
  have howner : ∃ b' ∈ blocks, ∃ d ∈ b', position d = p := by
    by_contra hno
    push Not at hno
    have hmiss : p ∈ blockMissing events blocks base b := by
      rw [blockMissing, Finset.mem_union, List.mem_toFinset, mem_filter]
      exact .inl ⟨hopen, owner_isNone_iff.mpr hno⟩
    exact hnotdef ⟨b, ⟨hb, Finset.ne_empty_of_mem hmiss⟩, .refl⟩
  obtain ⟨b', hb', d, hd, hdp⟩ := howner
  by_cases hne : b' = b
  · subst hne
    exact ⟨d, mem_flatten.mpr ⟨b', hbf, hd⟩, hdp, .inr ⟨b', hb, hd, heb⟩⟩
  · have hdep : DependsOn blocks base b b' := ⟨hb', hne, p, hopen, d, hd, hdp⟩
    have hnotdef' : ¬ Deferred events blocks base b' := fun ⟨b₀, hl, hr⟩ =>
      hnotdef ⟨b₀, hl, hr.tail ⟨hdep, hb⟩⟩
    obtain ⟨s, t, hst⟩ := append_of_mem hbvs
    have hbefore : b' ∈ s := hrun.deps_before s b t hst b' hdep
    have hb'f : b' ∈ vs.filter fun b => ¬ Deferred events blocks base b :=
      mem_filter.mpr ⟨hperm.mem_iff.mpr hb', by simpa using hnotdef'⟩
    refine ⟨d, mem_flatten.mpr ⟨b', hb'f, hd⟩, hdp, .inl ?_⟩
    rw [hst]
    exact before_flatten_filter hbefore hnd (mem_filter.mp hb'f).2 hd heb

/-! ### The whole call -/

theorem causalOrder_of_contraction (hu : Holds u {e | e ∈ input})
    (hv : AllValid c input) (hc : IsContraction (placedEvents u base project) project blocks)
    {result : SortResult} (h : sortNodes (placedEvents u base project) blocks base = .ok result) :
    CausalOrder input base project blocks
      { events := result.emitted, deferred := result.held, missing := result.missing,
        concurrent := concurrentPairs result.emitted ∅ } := by
  classical
  have hP := hc.presentBlocks hu
  have hwell := hc.wellBlocked (placedEvents_nodup_position hu)
  have hperm := sortNodes_perm hwell h
  obtain ⟨vs, _, hvs, hemitted, hheld, hmissing⟩ := sortNodes_run hwell h
  refine ⟨?_, fun e => ?_, fun e he p hp hab => ?_, fun e he => ?_, fun p => ?_⟩
  · exact hperm.nodup_iff.mpr hP.nodup
  · exact hperm.mem_iff.trans (hP.mem e)
  · exact before_of_emitted hwell h he hp hab
  · obtain ⟨b, hb, heb⟩ := mem_flatten.mp ((hP.mem e).mpr he)
    have hheldiff : e ∈ result.held ↔ Deferred (placedEvents u base project) blocks base b := by
      rw [hheld, mem_flatten]
      constructor
      · rintro ⟨b', hb', heb'⟩
        obtain ⟨hb'vs, hdef⟩ := mem_filter.mp hb'
        rw [hwell.block_unique hb (hvs.mem_iff.mp hb'vs) heb heb']
        simpa using hdef
      · exact fun hdef => ⟨b, mem_filter.mpr ⟨hvs.mem_iff.mpr hb, by simpa using hdef⟩, heb⟩
    rw [hheldiff]
    constructor
    · intro hdef
      obtain ⟨p, habs, hw⟩ := waits_of_deferred hu hv hc hdef
      exact ⟨p, hw e heb, habs⟩
    · rintro ⟨p, hw, habs⟩
      exact deferred_of_waits hu hv hc hwell habs hw b hb heb
  · rw [hmissing]
    constructor
    · rintro ⟨b, hb, hp⟩
      obtain ⟨habs, e, he, hneed⟩ := (mem_blockMissing_iff hu hv hc hb p).mp hp
      exact ⟨habs, e, (hP.mem e).mp (mem_flatten.mpr ⟨b, hb, he⟩), hneed⟩
    · rintro ⟨habs, e, he, hneed⟩
      obtain ⟨b, hb, heb⟩ := mem_flatten.mp ((hP.mem e).mpr he)
      exact ⟨b, hb, (mem_blockMissing_iff hu hv hc hb p).mpr ⟨habs, e, heb, hneed⟩⟩

end

/-- **Causal safety, conservation and exact deferral** of `order` and `order_retained`. -/
theorem orderRetained_causal {c : Codec} {input : List Envelope} {base : Positions} {project : Bool}
    {view : Option (VerifiedView c)} {r : Ordered} (hcol : c.CollisionFree input)
    (h : orderRetained c input base project view = .ok r) :
    ∃ blocks, CallBlocks c input base project blocks ∧ PresentBlocks input base project blocks ∧
      CausalOrder input base project blocks r := by
  rw [orderRetained, collect_view_irrelevant, bind_eq_ok] at h
  obtain ⟨u, hcollect, h⟩ := h
  obtain ⟨hv, _, hu⟩ := (collect_input_eq_ok_iff hcol none u).mp hcollect
  obtain ⟨preliminary, blocks, result, hpre, hblocks, hresult, rfl⟩ := orderUnique_eq_ok_iff.mp h
  have hnd : (placedEvents u base project).Nodup := List.Nodup.of_map _ (placedEvents_nodup_position hu)
  have hc := contract_isContraction (placedEvents_valid hu hv) hnd (preliminary_perm hu hpre) hblocks
  exact ⟨blocks, ⟨u, preliminary, hcollect, hpre, hblocks⟩, hc.presentBlocks hu,
    causalOrder_of_contraction hu hv hc hresult⟩

/-! ### A small history -/

namespace SmallHistory

open Envelope

def keyOf (digit : Char) (stream : String) : String := positionKey (store digit) stream

def tip : String := String.ofList (List.replicate 40 '0')

def branch : Envelope :=
  sample 'a' "branch:x" 1 [(keyOf 'c' "project", 1)] "work.add" .null
    "79acdc7ae6de90697229f0d4a5393ac4215c59bbeee979a1a1b91ec15a6b34a8"

/-- A promote of the branch event that has seen an event of store `d`. -/
def promote : Envelope :=
  sample 'a' "project" 1 [(keyOf 'd' "project", 1)] "store.promote" (promotePayload "branch:x" 1 tip)
    "37e0b56607ad212bc1960fe0ea7e6eb7fce708e5af59f3ce51c3a678e2561a58"

/-- A second promote of the branch event, in another project stream. -/
def promoteAgain : Envelope :=
  sample 'a' "project:y" 1 [] "store.promote" (promotePayload "branch:x" 1 tip)
    "e978c169de744998d3711f0338250103f957e55320991364c8e72468911cd4c3"

def reader : Envelope :=
  sample 'b' "project" 1 [(keyOf 'a' "branch:x", 1)] "work.add" .null
    "f89d979f2a332725839b65866719fff184f1756ed9f18ad20927d3927eacbbc3"

theorem valid : AllValid .integral [branch, promote, promoteAgain, reader] := by
  simp only [AllValid, forall_mem_cons, ← validate_eq_ok_iff]
  exact ⟨by decide +kernel, by decide +kernel, by decide +kernel, by decide +kernel, forall_mem_nil _⟩

theorem branch_valid : branch.Valid .integral := valid _ (by simp)

theorem reader_valid : reader.Valid .integral := valid _ (by simp)

theorem order_eq {input : List Envelope} (hsub : input ⊆ [branch, promote, promoteAgain, reader])
    (hnd : (input.map position).Nodup) (base : Positions) (project : Bool) :
    order .integral input base project = orderUnique (eventMap input) base project :=
  order_of_nodup (fun e he => valid e (hsub he)) hnd base project

def seenBase : Positions := .ofList [(keyOf 'c' "project", 1), (keyOf 'd' "project", 1)]

end SmallHistory

open SmallHistory

theorem orderRetained_causal_promote : ∃ blocks, CallBlocks .integral [promote, branch] seenBase true blocks ∧
      PresentBlocks [promote, branch] seenBase true blocks ∧ CausalOrder [promote, branch] seenBase true blocks
        { events := [promote, branch], concurrent := [(promote.h, branch.h)] } := by
  have hv : AllValid .integral [promote, branch] := fun e he => valid e (by grind)
  have horder : orderRetained .integral [promote, branch] seenBase true none =
      .ok { events := [promote, branch], concurrent := [(promote.h, branch.h)] } := by
    show order _ _ _ _ = _
    rw [order_of_nodup hv (by decide)]
    decide
  exact orderRetained_causal (.of_nodup hv (by decide)) horder

/-- A promote at the base makes nothing visible; an event waits for what the other events of a block on
its way need; and the position a promote names is no dependency once an event is there. -/
theorem orderRetained_causal_counterexample : (∃ r, order .integral [promote, branch]
        (.ofList [(keyOf 'a' "project", 1), (keyOf 'c' "project", 1)]) true = .ok r ∧
      promote.scope = .project ∧ branch.scope = .branch ∧ Names promote branch ∧ branch ∉ r.events ++ r.deferred) ∧
    (∃ r, order .integral [branch, promote, reader] (.ofList [(keyOf 'c' "project", 1)]) true = .ok r ∧
      dependencies reader = [position branch] ∧ promotePosition reader = none ∧
      dependencies branch = [(keyOf 'c' "project", 1)] ∧ promotePosition branch = none ∧ reader ∈ r.deferred) ∧
    (∃ r, order .integral [branch, promote, promoteAgain] (.ofList [(keyOf 'd' "project", 1)]) true = .ok r ∧
      promotePosition promoteAgain = some (position branch) ∧
      dependencies branch = [(keyOf 'c' "project", 1)] ∧ promoteAgain ∈ r.events) := by
  refine ⟨⟨{}, ?_, rfl, rfl, ⟨rfl, 1, ?_, le_refl 1⟩, by simp⟩,
    ⟨{ deferred := [promote, branch, reader], missing := {(keyOf 'd' "project", 1)} }, ?_, ?_⟩,
    ⟨{ events := [promoteAgain], deferred := [promote, branch]
       missing := {(keyOf 'c' "project", 1)} }, ?_, ?_⟩⟩
  · rw [order_eq (by simp) (by decide)]
    decide
  · decide
  · rw [order_eq (by simp) (by decide)]
    decide
  · decide
  · rw [order_eq (by simp) (by decide)]
    decide
  · decide

end Forgent
