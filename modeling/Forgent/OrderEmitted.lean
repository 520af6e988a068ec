import Forgent.Graph.Acyclic
import Forgent.OrderStable

/-!
# What an order emits

The emitted events stand at distinct positions; above the base each stands with everything it depends on, so from the
empty base with every earlier number of its stream; and no chain of dependencies among them leads back.
-/

namespace Forgent

open FiniteGraph Relation List Std.ExtTreeMap

variable {c : Codec} {input : List Envelope} {base : Positions} {project : Bool} {r : Ordered}

/-- The emitted events of an order: valid events of the input at distinct positions, each with every number of its
stream between the base and its own. -/
structure Emitted (c : Codec) (input : List Envelope) (base : Positions) (events : List Envelope) : Prop where
  valid : ∀ e ∈ events, e.Valid c
  mem : ∀ e ∈ events, e ∈ input
  above : ∀ e ∈ events, above base (position e) = true
  nodup : (events.map position).Nodup
  dependencies : ∀ e ∈ events, ∀ p ∈ dependencies e, Forgent.above base p = true → ∃ d ∈ events, position d = p
  acyclic : Acyclic fun e d => e ∈ events ∧ d ∈ events ∧ position d ∈ Forgent.dependencies e

namespace Emitted

variable {events : List Envelope} {d e : Envelope}

theorem eq_of_position (h : Emitted c input base events) (hd : d ∈ events) (he : e ∈ events)
    (hat : position d = position e) : d = e := inj_on_of_nodup_map h.nodup hd he hat

theorem earlier (h : Emitted c input base events) (he : e ∈ events) {n : ℕ} (hbase : base.at (streamKey e) < n)
    (hlt : n < e.seq) : ∃ d ∈ events, position d = (streamKey e, n) ∧
      TransGen (fun e d => e ∈ events ∧ d ∈ events ∧ position d ∈ Forgent.dependencies e) e d := by
  generalize hgap : e.seq - n = gap
  induction gap generalizing e with
  | zero => omega
  | succ gap ih =>
    have hdep : (streamKey e, e.seq - 1) ∈ Forgent.dependencies e := by
      rw [Forgent.dependencies, if_pos (by omega)]
      exact mem_append_right _ mem_cons_self
    have habove : Forgent.above base (streamKey e, e.seq - 1) = true := by
      rw [Forgent.above, decide_eq_true_eq]
      show base.at (streamKey e) < e.seq - 1
      omega
    obtain ⟨d, hd, hat⟩ := h.dependencies e he _ hdep habove
    obtain ⟨hstream, hseq⟩ := Prod.ext_iff.mp hat
    have hstream : streamKey d = streamKey e := hstream
    have hseq : d.seq = e.seq - 1 := hseq
    have hstep : TransGen (fun e d => e ∈ events ∧ d ∈ events ∧ position d ∈ Forgent.dependencies e) e d :=
      .single ⟨he, hd, hat ▸ hdep⟩
    by_cases hn : n = d.seq
    · exact ⟨d, hd, Prod.ext hstream hn.symm, hstep⟩
    · obtain ⟨x, hx, hxat, hchain⟩ := ih hd (by rw [hstream]; exact hbase) (by omega) (by omega)
      exact ⟨x, hx, hstream ▸ hxat, hstep.trans hchain⟩

end Emitted

theorem Envelope.Valid.position_notMem_dependencies {e : Envelope} (h : e.Valid c) : position e ∉ dependencies e := by
  rw [dependencies, mem_append]
  rintro (hseen | hown)
  · have hkey : e.seen[streamKey e]? = some e.seq := mem_toList_iff_getElem?_eq_some.mp hseen
    exact h.notOwn (mem_iff_isSome_getElem?.mpr (by rw [hkey]; rfl))
  · split at hown
    · have hseq : e.seq = e.seq - 1 := (Prod.ext_iff.mp (mem_singleton.mp hown)).2
      omega
    · cases hown

theorem acyclic_of_before {l : List Envelope} {r : Envelope → Envelope → Prop} (hnodup : l.Nodup)
    (h : ∀ e d, r e d → Before l d e) : Acyclic r := by
  have hlt : ∀ e d, TransGen r e d → l.idxOf d < l.idxOf e := by
    have hstep : ∀ e d, r e d → l.idxOf d < l.idxOf e := by
      intro e d hr
      obtain ⟨s, t, hl, hd⟩ := h e d hr
      rw [hl] at hnodup ⊢
      have he : e ∉ s := fun he => (nodup_append.mp hnodup).2.2 e he e mem_cons_self rfl
      rw [idxOf_append_of_mem hd, idxOf_append_of_notMem he]
      have := idxOf_lt_length_of_mem hd
      omega
    intro e d hr
    induction hr with
    | single hr => exact hstep _ _ hr
    | tail _ hr ih => exact (hstep _ _ hr).trans ih
  exact fun e hcycle => (hlt e e hcycle).false

theorem acyclic_of_sortNodes {events : List Envelope} {preliminary : SortResult}
    (hnodup : (events.map position).Nodup) (h : sortNodes events (singles events) base = .ok preliminary) :
    Acyclic fun e d => e ∈ events ∧ d ∈ events ∧ e ≠ d ∧ position d ∈ dependencies e ∧
      above base (position d) = true := by
  classical
  obtain ⟨vs, hrun, hperm, _⟩ := sortNodes_run (singles_wellBlocked hnodup) h
  have hflat : vs.flatten.Perm events := by
    have hall := hperm.flatten
    rwa [flatten_map_singleton] at hall
  refine acyclic_of_before (hflat.nodup_iff.mpr (List.Nodup.of_map _ hnodup)) fun e d hdep => ?_
  obtain ⟨he, hd, hne, hat, habove⟩ := hdep
  obtain ⟨s, t, hst⟩ := append_of_mem (hperm.mem_iff.mpr (mem_singles.mpr he))
  have hbefore : [d] ∈ s := hrun.deps_before s [e] t hst [d] (dependsOn_singles.mpr ⟨d, hd, rfl, hne.symm, hat, habove⟩)
  refine ⟨s.flatten, t.flatten, ?_, mem_flatten.mpr ⟨[d], hbefore, mem_singleton_self d⟩⟩
  rw [hst, flatten_append, flatten_cons]
  rfl

/-- What an order emits. -/
theorem emitted_orderRetained {view : Option (VerifiedView c)} (hcol : c.CollisionFree input)
    (h : orderRetained c input base project view = .ok r) : Emitted c input base r.events := by
  rw [orderRetained, collect_view_irrelevant, bind_eq_ok] at h
  obtain ⟨u, hcollect, h⟩ := h
  obtain ⟨hv, hconf, hu⟩ := (collect_input_eq_ok_iff hcol none u).mp hcollect
  obtain ⟨preliminary, blocks, result, hpre, hblocks, hresult, rfl⟩ := orderUnique_eq_ok_iff.mp h
  have hpositions : ((placedEvents u base project).map position).Nodup := placedEvents_nodup_position hu
  have hc := contract_isContraction (placedEvents_valid hu hv) (List.Nodup.of_map _ hpositions)
    (preliminary_perm hu hpre) hblocks
  have hcausal := causalOrder_of_contraction hu hv hc hresult
  have hplaced : ∀ e ∈ result.emitted, e ∈ placedEvents u base project := fun e he =>
    ((hc.mem e).mp ((hc.mem_iff_present hu e).mpr ((hcausal.mem e).mp (mem_append_left _ he)))).1
  have hin : ∀ e ∈ result.emitted, e ∈ input := fun e he => placedEvents_subset hu e (hplaced e he)
  have habove : ∀ e ∈ result.emitted, above base (position e) = true := fun e he =>
    ((mem_placedEvents_iff hu e).mp (hplaced e he)).2.1
  refine ⟨fun e he => hv e (hin e he), hin, habove, ?_, ?_, ?_⟩
  · refine List.Nodup.map_on (fun d hd e he hat => ?_) (nodup_append.mp hcausal.nodup).1
    exact inj_on_of_nodup_map hpositions (hplaced d hd) (hplaced e he) hat
  · intro e he p hp hopen
    obtain ⟨d, hd, hat, _⟩ := hcausal.before e he p hp hopen
    exact ⟨d, hd, hat⟩
  · refine (acyclic_of_sortNodes hpositions hpre).mono fun e d hdep => ?_
    obtain ⟨he, hd, hat⟩ := hdep
    refine ⟨hplaced e he, hplaced d hd, ?_, hat, habove d hd⟩
    rintro rfl
    exact (hv e (hin e he)).position_notMem_dependencies hat

end Forgent
