import Forgent.Order

/-!
# The sort of the blocks as a priority run

`sortNodes` numbers the blocks and works on the numbers.  Here its result is restated on the blocks
themselves: it is defined exactly when the priority run over the blocks visits them all, and then the
emitted events are the events of the blocks that are not deferred, in the sequence of the run, and the
held ones those of the deferred blocks (`sortNodes_run`).  A block is deferred when it lacks a
dependency or is reached from one that does.
-/

namespace Forgent

open PriorityRun Relation List

/-- No block is empty, and no position occurs twice. -/
structure WellBlocked (blocks : List (List Envelope)) : Prop where
  nonempty : ∀ b ∈ blocks, b ≠ []
  positions : (blocks.flatten.map position).Nodup

/-- Some event of `b` depends on the position of an event of the other block `b'`. -/
def DependsOn (blocks : List (List Envelope)) (base : Positions) (b b' : List Envelope) : Prop :=
  b' ∈ blocks ∧ b' ≠ b ∧ ∃ p ∈ openDependencies base b, ∃ e ∈ b', position e = p

/-- The block itself depends on a position that is not there. -/
def Lacks (events : List Envelope) (blocks : List (List Envelope)) (base : Positions)
    (b : List Envelope) : Prop :=
  b ∈ blocks ∧ blockMissing events blocks base b ≠ ∅

def Deferred (events : List Envelope) (blocks : List (List Envelope)) (base : Positions)
    (b : List Envelope) : Prop :=
  ∃ b₀, Lacks events blocks base b₀ ∧
    ReflTransGen (fun x y => DependsOn blocks base y x ∧ y ∈ blocks) b₀ b

abbrev BlockRun (blocks : List (List Envelope)) (base : Positions) : List (List Envelope) → Prop :=
  Run {b | b ∈ blocks} (fun b => {b' | DependsOn blocks base b b'}) headKey

section

variable {events : List Envelope} {blocks : List (List Envelope)} {base : Positions} {n : ℕ} {b : List Envelope}
  {b' : List Envelope} {e : Envelope} {p : Position} {m : ℕ}

/-! ### Blocks and their numbers -/

theorem blockAt_eq_getElem (h : n < blocks.length) : blockAt blocks n = blocks[n] := by
  simp [blockAt, h]

theorem blockAt_mem (h : n < blocks.length) : blockAt blocks n ∈ blocks := by
  rw [blockAt_eq_getElem h]
  exact getElem_mem h

theorem exists_blockAt (h : b ∈ blocks) : ∃ n, n < blocks.length ∧ blockAt blocks n = b := by
  obtain ⟨n, hn, rfl⟩ := getElem_of_mem h
  exact ⟨n, hn, blockAt_eq_getElem hn⟩

theorem map_blockAt_range : (List.range blocks.length).map (blockAt blocks) = blocks := by
  refine ext_getElem (by simp) fun n h _ => ?_
  rw [length_map, length_range] at h
  simp [blockAt, h]

section

variable (hb : WellBlocked blocks)

include hb

theorem WellBlocked.event_unique {e' : Envelope}
    (hbm : b ∈ blocks) (hbm' : b' ∈ blocks) (he : e ∈ b) (he' : e' ∈ b') (hp : position e = position e') : e = e' :=
  inj_on_of_nodup_map hb.positions (mem_flatten.mpr ⟨b, hbm, he⟩)
    (mem_flatten.mpr ⟨b', hbm', he'⟩) hp

theorem WellBlocked.pairwise_disjoint : blocks.Pairwise List.Disjoint :=
  (nodup_flatten.mp (List.Nodup.of_map _ hb.positions)).2

theorem WellBlocked.block_unique (hbm : b ∈ blocks) (hbm' : b' ∈ blocks) (he : e ∈ b) (he' : e ∈ b') : b = b' := by
  by_contra hne
  have : Std.Symm (List.Disjoint (α := Envelope)) := ⟨fun _ _ h => h.symm⟩
  exact hb.pairwise_disjoint.forall hbm hbm' hne he he'

theorem WellBlocked.nodup : blocks.Nodup := by
  refine hb.pairwise_disjoint.imp_of_mem fun {b b'} hbm _ hdis hbb => ?_
  obtain ⟨e, he⟩ := exists_mem_of_ne_nil b (hb.nonempty b hbm)
  exact hdis he (hbb ▸ he)

theorem WellBlocked.blockAt_injOn : Set.InjOn (blockAt blocks) {n | n < blocks.length} := by
  intro m hm n hn h
  have hm' : m < blocks.length := hm
  have hn' : n < blocks.length := hn
  rw [blockAt_eq_getElem hm', blockAt_eq_getElem hn'] at h
  exact (List.Nodup.getElem_inj_iff hb.nodup).mp h

end

/-! ### Owners and dependencies -/

theorem owner_eq_some_iff (hb : WellBlocked blocks) :
    owner blocks p = some m ↔ m < blocks.length ∧ ∃ e ∈ blockAt blocks m, position e = p := by
  rw [owner, findIdx?_eq_some_iff_getElem]
  simp only [List.any_eq_true, decide_eq_true_eq]
  constructor
  · rintro ⟨hm, he, _⟩
    exact ⟨hm, by rwa [blockAt_eq_getElem hm]⟩
  · rintro ⟨hm, e, he, hp⟩
    have hat : blockAt blocks m = blocks[m] := blockAt_eq_getElem hm
    refine ⟨hm, ⟨e, hat ▸ he, hp⟩, fun j hjm => ?_⟩
    rintro ⟨e', he', hp'⟩
    -- an event of an earlier block at the same position would be the same event
    have hj : j < blocks.length := by omega
    have heq : e' = e := hb.event_unique (getElem_mem hj) (blockAt_mem hm) he' he (hp'.trans hp.symm)
    have hblock : blockAt blocks j = blockAt blocks m := by
      rw [blockAt_eq_getElem hj]
      exact hb.block_unique (getElem_mem hj) (blockAt_mem hm) (heq ▸ he') he
    exact absurd (hb.blockAt_injOn hj hm hblock) (by omega)

theorem owner_isNone_iff : (owner blocks p).isNone = true ↔ ∀ b ∈ blocks, ∀ e ∈ b, position e ≠ p := by
  rw [Option.isNone_iff_eq_none, owner, findIdx?_eq_none_iff]
  simp

theorem mem_nodeDeps (hb : WellBlocked blocks) (hn : n < blocks.length) : m ∈ nodeDeps blocks base n ↔
      m < blocks.length ∧ DependsOn blocks base (blockAt blocks n) (blockAt blocks m) := by
  simp only [nodeDeps, Finset.mem_erase, List.mem_toFinset, mem_filterMap, owner_eq_some_iff hb, DependsOn]
  constructor
  · rintro ⟨hne, p, hp, hm, he⟩
    exact ⟨hm, blockAt_mem hm, fun h => hne (hb.blockAt_injOn hm hn h), p, hp, he⟩
  · rintro ⟨hm, _, hne, p, hp, he⟩
    exact ⟨fun h => hne (h ▸ rfl), p, hp, hm, he⟩

theorem WellBlocked.headKey_injOn (hb : WellBlocked blocks) : Set.InjOn headKey {b | b ∈ blocks} := by
  intro b hbm b' hbm' h
  cases b with
  | nil => exact absurd rfl (hb.nonempty _ hbm)
  | cons e b =>
    cases b' with
    | nil => exact absurd rfl (hb.nonempty _ hbm')
    | cons e' b' =>
      simp only [headKey, Forgent.key, EmbeddingLike.apply_eq_iff_eq, Prod.mk.injEq] at h
      have hp : position e = position e' := by
        simp only [position, streamKey, h]
      have he : e = e' := hb.event_unique hbm hbm' (by simp) (by simp) hp
      exact hb.block_unique hbm hbm' (e := e) (by simp) (by simp [he])

/-! ### The run over the blocks -/

theorem blockRun_map_visited (hb : WellBlocked blocks) :
    BlockRun blocks base ((Kahn.run blocks.length (fun n => headKey (blockAt blocks n))
      (nodeDeps blocks base)).visited.map (blockAt blocks)) := by
  have hrun := (Kahn.run_isRun blocks.length (fun n => headKey (blockAt blocks n))
    (nodeDeps blocks base)).of_key_le (fun _ _ => Kahn.key_le_of_entry_le)
  refine hrun.map (blockAt blocks) hb.blockAt_injOn ?_ ?_ ?_ fun n _ => rfl
  · ext b
    constructor
    · intro h
      obtain ⟨n, hn, rfl⟩ := exists_blockAt h
      exact ⟨n, hn, rfl⟩
    · rintro ⟨n, hn, rfl⟩
      exact blockAt_mem hn
  · intro n hn
    ext b
    constructor
    · intro h
      obtain ⟨m, hm, rfl⟩ := exists_blockAt h.1
      exact ⟨m, (mem_nodeDeps hb hn).mpr ⟨hm, h⟩, rfl⟩
    · rintro ⟨m, hm, rfl⟩
      exact ((mem_nodeDeps hb hn).mp hm).2
  · exact fun n hn m hm => ((mem_nodeDeps hb hn).mp hm).1

theorem mem_deferredNodes (hb : WellBlocked blocks) (hn : n < blocks.length) :
    n ∈ deferredNodes events blocks base ↔ Deferred events blocks base (blockAt blocks n) := by
  rw [deferredNodes, Worklist.mem_closure (nodup_range.filter _) (by simp; tauto)
    (by simp [Kahn.dependents]; tauto)]
  have hstep : ∀ a b, a < blocks.length → (b ∈ Kahn.dependents blocks.length (nodeDeps blocks base) a ↔
      b < blocks.length ∧ DependsOn blocks base (blockAt blocks b) (blockAt blocks a)) := by
    intro a b ha
    simp only [Kahn.dependents, mem_filter, mem_range, decide_eq_true_eq]
    exact and_congr_right fun hb' => (mem_nodeDeps hb hb').trans (and_iff_right ha)
  constructor
  · rintro ⟨a, ha, hreach⟩
    simp only [mem_filter, mem_range, decide_eq_true_eq] at ha
    refine ⟨blockAt blocks a, ⟨blockAt_mem ha.1, ha.2⟩, ?_⟩
    have : ∀ b, Worklist.Reaches (Kahn.dependents blocks.length (nodeDeps blocks base)) a b →
        b < blocks.length ∧ ReflTransGen (fun x y => DependsOn blocks base y x ∧ y ∈ blocks)
          (blockAt blocks a) (blockAt blocks b) := by
      intro b hab
      induction hab with
      | refl => exact ⟨ha.1, .refl⟩
      | tail _ hbc ih =>
        have h := (hstep _ _ ih.1).mp hbc
        exact ⟨h.1, ih.2.tail ⟨h.2, blockAt_mem h.1⟩⟩
    exact (this n hreach).2
  · rintro ⟨b₀, ⟨hb₀, hlack⟩, hreach⟩
    obtain ⟨a, ha, rfl⟩ := exists_blockAt hb₀
    refine ⟨a, by simp [ha, hlack], ?_⟩
    have : ∀ b, ReflTransGen (fun x y => DependsOn blocks base y x ∧ y ∈ blocks) (blockAt blocks a) b →
        ∃ m, m < blocks.length ∧ blockAt blocks m = b ∧
          Worklist.Reaches (Kahn.dependents blocks.length (nodeDeps blocks base)) a m := by
      intro b hab
      induction hab with
      | refl => exact ⟨a, ha, rfl, .refl⟩
      | tail _ hbc ih =>
        obtain ⟨m, hm, rfl, hr⟩ := ih
        obtain ⟨k, hk, rfl⟩ := exists_blockAt hbc.2
        exact ⟨k, hk, rfl, hr.tail ((hstep m k hm).mpr ⟨hk, hbc.1⟩)⟩
    obtain ⟨m, hm, hmn, hr⟩ := this _ hreach
    rwa [hb.blockAt_injOn hm hn hmn] at hr

open Classical in
/-- **What `sortNodes` answers**, in terms of the run over the blocks. -/
theorem sortNodes_run (hb : WellBlocked blocks) {r : SortResult} (h : sortNodes events blocks base = .ok r) :
    ∃ vs, BlockRun blocks base vs ∧ vs.Perm blocks ∧
      r.emitted = (vs.filter fun b => ¬ Deferred events blocks base b).flatten ∧
      r.held = (vs.filter fun b => Deferred events blocks base b).flatten ∧
      ∀ p, p ∈ r.missing ↔ ∃ b ∈ blocks, p ∈ blockMissing events blocks base b := by
  set visited := (Kahn.run blocks.length (fun n => headKey (blockAt blocks n))
    (nodeDeps blocks base)).visited with hvisited
  simp only [sortNodes, ← hvisited] at h
  split at h
  · cases h
  · rename_i hlen
    rw [not_not] at hlen
    cases h
    have hperm := Kahn.run_visited_perm_of_length _ _ _ hlen
    have hlt : ∀ n ∈ visited, n < blocks.length :=
      fun n hn => mem_range.mp (hperm.mem_iff.mp hn)
    have hfilter : ∀ (q : Finset ℕ → ℕ → Bool) (q' : List Envelope → Bool),
        (∀ n ∈ visited, q (deferredNodes events blocks base) n = q' (blockAt blocks n)) →
        (visited.filter (q (deferredNodes events blocks base))).flatMap (blockAt blocks) =
          ((visited.map (blockAt blocks)).filter q').flatten := by
      intro q q' hq
      rw [List.filter_map, flatMap_def]
      congr 2
      exact filter_congr hq
    refine ⟨visited.map (blockAt blocks), blockRun_map_visited hb, ?_, ?_, ?_, fun p => ?_⟩
    · have := hperm.map (blockAt blocks)
      rwa [map_blockAt_range] at this
    · refine hfilter (fun d n => n ∉ d) _ fun n hn => ?_
      simp [mem_deferredNodes hb (hlt n hn)]
    · refine hfilter (fun d n => n ∈ d) _ fun n hn => ?_
      simp [mem_deferredNodes hb (hlt n hn)]
    · simp only [Finset.mem_biUnion, Finset.mem_range]
      constructor
      · rintro ⟨n, hn, hp⟩
        exact ⟨blockAt blocks n, blockAt_mem hn, hp⟩
      · rintro ⟨b, hbm, hp⟩
        obtain ⟨n, hn, rfl⟩ := exists_blockAt hbm
        exact ⟨n, hn, hp⟩

theorem sortNodes_ok_of_rank (hb : WellBlocked blocks) (rank : List Envelope → ℕ)
    (hrank : ∀ b ∈ blocks, ∀ b', DependsOn blocks base b b' → rank b' < rank b) :
    ∃ r, sortNodes events blocks base = .ok r := by
  have hmem := (Kahn.run_complete blocks.length (fun n => headKey (blockAt blocks n))
    (nodeDeps blocks base)).mem_of_rank (fun n => rank (blockAt blocks n)) fun n hn m hm => by
      obtain ⟨hm', hdep⟩ := (mem_nodeDeps hb hn).mp hm
      exact ⟨hm', hrank _ (blockAt_mem hn) _ hdep⟩
  have hrun := Kahn.run_isRun blocks.length (fun n => headKey (blockAt blocks n))
    (nodeDeps blocks base)
  have hperm := (perm_ext_iff_of_nodup hrun.nodup (nodup_range (n := blocks.length))).mpr
    fun n => ⟨fun hn => mem_range.mpr (hrun.mem_nodes n hn),
      fun hn => hmem n (mem_range.mp hn)⟩
  have hlen := hperm.length_eq
  rw [length_range] at hlen
  simp only [sortNodes, hlen]
  exact ⟨_, if_neg (by simp)⟩

end

end Forgent
