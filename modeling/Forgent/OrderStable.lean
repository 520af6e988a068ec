import Forgent.OrderCausal

/-!
# The order is stable under growth

Events that arrive later never reorder what was already there: when `S` holds, with every event, the
events of `D` that it needs, the order of `S` is the order of `D` with the other events left out
(`order_stable`).  The run over the blocks of `D` restricts to the run over the blocks of `S`, and a
block of `S` is deferred in the one exactly when it is deferred in the other.

This holds of any closed part of the blocks (`ClosedBlocks`).  A closed part of the events is one where
the blocks are single events: outside project mode, and in project mode while nothing is promoted.
-/

namespace Forgent

open PriorityRun Relation List

/-! ### A run determines the sort -/

section

variable {events : List Envelope} {blocks : List (List Envelope)} {base : Positions}

open Classical in
/-- A run over all blocks is the one the sort makes. -/
theorem sortNodes_of_run (hb : WellBlocked blocks) {vs : List (List Envelope)}
    (hrun : BlockRun blocks base vs) (hperm : vs.Perm blocks) : ∃ r, sortNodes events blocks base = .ok r ∧
      r.emitted = (vs.filter fun b => ¬ Deferred events blocks base b).flatten ∧
      r.held = (vs.filter fun b => Deferred events blocks base b).flatten := by
  have hmap : BlockRun blocks base ((Kahn.run blocks.length (fun n => headKey (blockAt blocks n))
      (nodeDeps blocks base)).visited.map (blockAt blocks)) := blockRun_map_visited hb
  have hcomplete : Complete {b | b ∈ blocks} (fun b => {b' | DependsOn blocks base b b'}) vs :=
    complete_of_forall_mem fun b hbm => hperm.mem_iff.mpr hbm
  have hlen : vs.length ≤ (Kahn.run blocks.length (fun n => headKey (blockAt blocks n))
      (nodeDeps blocks base)).visited.length := by
    -- Kahn's run is complete, so no run is longer
    have hcompleteK := Kahn.run_complete blocks.length (fun n => headKey (blockAt blocks n))
      (nodeDeps blocks base)
    have hle := hrun.length_le_of_complete hb.headKey_injOn hmap fun b hready => by
      obtain ⟨n, hn, rfl⟩ := exists_blockAt hready.1
      refine hcompleteK n ⟨hn, fun hmem => hready.2.1 (List.mem_map_of_mem hmem), fun d hd => ?_⟩
      obtain ⟨hd', hdep⟩ := (mem_nodeDeps hb hn).mp hd
      obtain ⟨m, hm, hmd⟩ := List.mem_map.mp (hready.2.2 _ hdep)
      have hmlt := (Kahn.run_isRun blocks.length (fun n => headKey (blockAt blocks n))
        (nodeDeps blocks base)).mem_nodes m hm
      exact hb.blockAt_injOn hmlt hd' hmd ▸ hm
    rwa [length_map] at hle
  have hvislen : (Kahn.run blocks.length (fun n => headKey (blockAt blocks n))
      (nodeDeps blocks base)).visited.length = blocks.length := by
    have hle := hmap.length_le_of_complete hb.headKey_injOn hrun hcomplete
    rw [length_map] at hle
    have := hperm.length_eq
    omega
  have hok : ∃ r, sortNodes events blocks base = .ok r := by
    simp only [sortNodes]
    exact ⟨_, if_neg (by simp [hvislen])⟩
  obtain ⟨r, hr⟩ := hok
  obtain ⟨vs', hrun', hperm', hemitted, hheld, _⟩ := sortNodes_run hb hr
  have hvs : vs' = vs := hrun'.unique hb.headKey_injOn hrun
    (complete_of_forall_mem fun b hbm => hperm'.mem_iff.mpr hbm) hcomplete
  rw [hvs] at hemitted hheld
  exact ⟨r, hr, hemitted, hheld⟩

end

/-! ### Restriction to a closed part of the blocks -/

/-- `C` is a part of the blocks `B` that holds, with every block, the blocks it depends on; what a block
lacks is the same in both. -/
structure ClosedBlocks (P Q : List Envelope) (B C : List (List Envelope)) (base : Positions) : Prop where
  subset : ∀ b ∈ C, b ∈ B
  closed : ∀ b ∈ C, ∀ b', DependsOn B base b b' → b' ∈ C
  missing : ∀ b ∈ C, blockMissing P B base b = blockMissing Q C base b

section

variable {P Q : List Envelope} {B C : List (List Envelope)} {base : Positions} {b : List Envelope}

section

variable (h : ClosedBlocks P Q B C base)

include h

theorem ClosedBlocks.dependsOn_iff (hb : b ∈ C) (b' : List Envelope) : DependsOn B base b b' ↔ DependsOn C base b b' := by
  constructor
  · exact fun hdep => ⟨h.closed b hb b' hdep, hdep.2⟩
  · exact fun hdep => ⟨h.subset b' hdep.1, hdep.2⟩

theorem ClosedBlocks.deferred_iff (hb : b ∈ C) : Deferred P B base b ↔ Deferred Q C base b := by
  constructor
  · rintro ⟨b₀, ⟨_, hmiss⟩, hreach⟩
    -- the way to a block of the part stays in the part
    have hpath : ∀ y, ReflTransGen (fun x y => DependsOn B base y x ∧ y ∈ B) b₀ y → y ∈ C →
        b₀ ∈ C ∧ ReflTransGen (fun x y => DependsOn C base y x ∧ y ∈ C) b₀ y := by
      intro y hy
      induction hy with
      | refl => exact fun hyC => ⟨hyC, .refl⟩
      | @tail x y _ hxy ih =>
        intro hyC
        have hdep := (h.dependsOn_iff hyC x).mp hxy.1
        obtain ⟨hstart, hr⟩ := ih hdep.1
        exact ⟨hstart, hr.tail ⟨hdep, hyC⟩⟩
    obtain ⟨hstart, hr⟩ := hpath b hreach hb
    exact ⟨b₀, ⟨hstart, h.missing b₀ hstart ▸ hmiss⟩, hr⟩
  · rintro ⟨b₀, ⟨hb₀, hmiss⟩, hreach⟩
    refine ⟨b₀, ⟨h.subset b₀ hb₀, h.missing b₀ hb₀ ▸ hmiss⟩, ?_⟩
    refine ReflTransGen.mono (fun x y hxy => ?_) _ _ hreach
    exact ⟨(h.dependsOn_iff hxy.2 x).mpr hxy.1, h.subset y hxy.2⟩

theorem ClosedBlocks.blockRun {vs : List (List Envelope)}
    (hrun : BlockRun B base vs) : BlockRun C base (vs.filter (· ∈ C)) := by
  have hfilter : Run {b | b ∈ C} (fun b => {b' | DependsOn B base b b'}) headKey
      (vs.filter (· ∈ C)) := hrun.filter h.subset h.closed
  refine hfilter.congr_deps fun b hb => ?_
  ext b'
  exact h.dependsOn_iff hb b'

end

open Classical in
/-- **Stability of the sort**: the sort of a closed part of the blocks is the sort of all of them, with
the other blocks left out. -/
theorem ClosedBlocks.sortNodes (h : ClosedBlocks P Q B C base) (hB : WellBlocked B) (hC : WellBlocked C)
    {r : SortResult} (hr : sortNodes P B base = .ok r) : ∃ vs r', BlockRun B base vs ∧ vs.Perm B ∧
      r.emitted = (vs.filter fun b => ¬ Deferred P B base b).flatten ∧
      r.held = (vs.filter fun b => Deferred P B base b).flatten ∧ Forgent.sortNodes Q C base = .ok r' ∧
      r'.emitted = (vs.filter fun b => b ∈ C ∧ ¬ Deferred P B base b).flatten ∧
      r'.held = (vs.filter fun b => b ∈ C ∧ Deferred P B base b).flatten := by
  obtain ⟨vs, hrun, hperm, hemitted, hheld, _⟩ := sortNodes_run hB hr
  have hpermC : (vs.filter (· ∈ C)).Perm C := by
    refine (perm_ext_iff_of_nodup (hrun.nodup.filter _) hC.nodup).mpr fun b => ?_
    rw [mem_filter, decide_eq_true_eq]
    exact ⟨fun hb => hb.2, fun hb => ⟨hperm.mem_iff.mpr (h.subset b hb), hb⟩⟩
  obtain ⟨r', hr', hemitted', hheld'⟩ := sortNodes_of_run hC (h.blockRun hrun) hpermC
  refine ⟨vs, r', hrun, hperm, hemitted, hheld, hr', ?_, ?_⟩
  · rw [hemitted', List.filter_filter]
    congr 1
    refine filter_congr fun b _ => ?_
    by_cases hb : b ∈ C
    · simp [hb, h.deferred_iff hb]
    · simp [hb]
  · rw [hheld', List.filter_filter]
    congr 1
    refine filter_congr fun b _ => ?_
    by_cases hb : b ∈ C
    · simp [hb, h.deferred_iff hb]
    · simp [hb]

end

/-! ### Blocks of one event -/

/-- Every event a block of its own. -/
abbrev singles (events : List Envelope) : List (List Envelope) := events.map fun e => [e]

variable {events : List Envelope} {e : Envelope} {base : Positions} {p : Position}

theorem mem_singles : [e] ∈ singles events ↔ e ∈ events := by
  rw [List.mem_map]
  constructor
  · rintro ⟨d, hd, h⟩
    rwa [← singleton_inj.mp h]
  · exact fun he => ⟨e, he, rfl⟩

theorem openDependencies_singleton : p ∈ openDependencies base [e] ↔ p ∈ dependencies e ∧ above base p = true := by
  simp [openDependencies]

theorem dependsOn_singles {b : List Envelope} :
    DependsOn (singles events) base [e] b ↔ ∃ d ∈ events, b = [d] ∧ d ≠ e ∧
      position d ∈ dependencies e ∧ above base (position d) = true := by
  constructor
  · rintro ⟨hb, hne, p, hp, d, hd, rfl⟩
    obtain ⟨d', hd', rfl⟩ := List.mem_map.mp hb
    rw [mem_singleton] at hd
    subst hd
    exact ⟨d, hd', rfl, fun h => hne (by rw [h]), openDependencies_singleton.mp hp⟩
  · rintro ⟨d, hd, rfl, hne, hdep⟩
    exact ⟨mem_singles.mpr hd, fun h => hne (singleton_inj.mp h), position d,
      openDependencies_singleton.mpr hdep, d, by simp, rfl⟩

theorem owner_singles_isNone : (owner (singles events) p).isNone = true ↔ ∀ d ∈ events, position d ≠ p := by
  rw [owner_isNone_iff]
  constructor
  · exact fun h d hd => h [d] (mem_singles.mpr hd) d (by simp)
  · intro h b hb d hd
    obtain ⟨d', hd', rfl⟩ := List.mem_map.mp hb
    rw [mem_singleton.mp hd]
    exact h d' hd'

theorem mem_blockMissing_singles : p ∈ blockMissing events (singles events) base [e] ↔
      Needs base e p ∧ ∀ d ∈ events, position d ≠ p := by
  simp only [blockMissing, Finset.mem_union, List.mem_toFinset, mem_filter,
    owner_singles_isNone, openDependencies_singleton, Needs, mem_filterMap, mem_singleton,
    exists_eq_left, Bool.and_eq_true, Bool.not_eq_true', List.any_eq_false, decide_eq_true_eq]
  tauto

/-! ### Placement without promotes -/

/-- Nothing is contracted: outside project mode, or while nothing is promoted. -/
def NoContraction (events : List Envelope) (project : Bool) : Prop :=
  project = false ∨ ∀ e ∈ events, e.eventType ≠ "store.promote"

section

variable {input : List Envelope} {base : Positions} {project : Bool} {u : EventMap}

theorem promoteBlocks_of_forall {events rest : List Envelope} {blocks : List (List Envelope)}
    (h : ∀ e ∈ rest, e.eventType ≠ "store.promote") : promoteBlocks events rest blocks = .ok blocks := by
  induction rest with
  | nil => rfl
  | cons e rest ih =>
    obtain ⟨he, hrest⟩ := forall_mem_cons.mp h
    rw [promoteBlocks, if_neg he]
    exact ih hrest

variable (hu : Holds u {e | e ∈ input})

include hu

variable (hmode : NoContraction input project)

include hmode

theorem mem_placedEvents_of_noContraction (e : Envelope) :
    e ∈ placedEvents u base project ↔ e ∈ input ∧ above base (position e) = true ∧
      (project = false ∨ e.scope = .project) := by
  rw [mem_placedEvents_iff hu]
  refine and_congr_right fun _ => and_congr_right fun _ => ?_
  constructor
  · rintro (h | h | ⟨p, hp, _, _, n, hclaim, _⟩)
    · exact .inl h
    · exact .inr h
    · rcases hmode with h | h
      · exact .inl h
      · exact absurd (eventType_of_promoteClaim hclaim) (h p hp)
  · rintro (h | h)
    · exact .inl h
    · exact .inr (.inl h)

theorem contract_of_noContraction {preliminary : SortResult}
    (hpre : sortNodes (placedEvents u base project) (singles (placedEvents u base project)) base = .ok preliminary) :
    contract (placedEvents u base project) project preliminary = .ok (singles (placedEvents u base project)) := by
  cases project with
  | false => rfl
  | true =>
    have hperm := preliminary_perm hu hpre
    have hno : ∀ e ∈ preliminary.emitted ++ preliminary.held, e.eventType ≠ "store.promote" := by
      intro e he
      rcases hmode with h | h
      · cases h
      · exact h e (placedEvents_subset hu e (hperm.mem_iff.mp he))
    have hall : (placedEvents u base true).filter
        (fun e => e.scope = .project && e ∉ ([] : List (List Envelope)).flatten) =
          placedEvents u base true := by
      rw [List.filter_eq_self]
      intro e he
      obtain ⟨_, _, h⟩ := (mem_placedEvents_of_noContraction hu hmode e).mp he
      rcases h with h | h
      · cases h
      · simp [h]
    rw [contract, if_pos rfl, promoteBlocks_of_forall hno]
    show Except.ok ([] ++ singleBlocks (placedEvents u base true) []) = _
    rw [nil_append, singleBlocks, hall]

theorem orderUnique_of_noContraction {r : Ordered} : orderUnique u base project = .ok r ↔ ∃ result,
      sortNodes (placedEvents u base project) (singles (placedEvents u base project)) base = .ok result ∧
      r = { events := result.emitted, deferred := result.held, missing := result.missing,
            concurrent := concurrentPairs result.emitted ∅ } := by
  rw [orderUnique_eq_ok_iff]
  constructor
  · rintro ⟨preliminary, blocks, result, hpre, hblocks, hresult, hr⟩
    rw [contract_of_noContraction hu hmode hpre] at hblocks
    cases hblocks
    exact ⟨result, hresult, hr⟩
  · rintro ⟨result, hresult, hr⟩
    exact ⟨result, _, result, hresult, contract_of_noContraction hu hmode hresult, hresult, hr⟩

end

/-! ### A closed part of the events -/

section

variable {P Q : List Envelope} {base : Positions}

/-- `Q` is a part of `P` that holds, with every event, the events of `P` it needs. -/
structure ClosedPart (P Q : List Envelope) : Prop where
  subset : ∀ e ∈ Q, e ∈ P
  closed : ∀ e ∈ Q, ∀ d ∈ P,
    position d ∈ dependencies e ∨ promotePosition e = some (position d) → d ∈ Q

theorem ClosedPart.blockMissing_eq (h : ClosedPart P Q) {e : Envelope} (he : e ∈ Q) :
    blockMissing P (singles P) base [e] = blockMissing Q (singles Q) base [e] := by
  ext p
  rw [mem_blockMissing_singles, mem_blockMissing_singles]
  refine and_congr_right fun hneed => ?_
  constructor
  · exact fun hno d hd => hno d (h.subset d hd)
  · intro hno d hd hdp
    have hneed' : position d ∈ dependencies e ∨ promotePosition e = some (position d) :=
      hdp ▸ hneed.1
    exact hno d (h.closed e he d hd hneed') hdp

theorem ClosedPart.closedBlocks (h : ClosedPart P Q) : ClosedBlocks P Q (singles P) (singles Q) base where
  subset := fun b hb => by
    obtain ⟨e, he, rfl⟩ := List.mem_map.mp hb
    exact mem_singles.mpr (h.subset e he)
  closed := fun b hb b' hdep => by
    obtain ⟨e, he, rfl⟩ := List.mem_map.mp hb
    obtain ⟨d, hd, rfl, _, hde, _⟩ := dependsOn_singles.mp hdep
    exact mem_singles.mpr (h.closed e he d hd (.inl hde))
  missing := fun b hb => by
    obtain ⟨e, he, rfl⟩ := List.mem_map.mp hb
    exact h.blockMissing_eq he

theorem flatten_filter_singles {vs : List (List Envelope)} {p q : List Envelope → Bool}
    {r : Envelope → Bool} (hvs : ∀ b ∈ vs, ∃ e, b = [e]) (hpq : ∀ e, [e] ∈ vs → (p [e] && r e) = q [e]) :
    (vs.filter p).flatten.filter r = (vs.filter q).flatten := by
  induction vs with
  | nil => rfl
  | cons b vs ih =>
    obtain ⟨⟨e, rfl⟩, hvs'⟩ := forall_mem_cons.mp hvs
    have htail := ih hvs' fun d hd => hpq d (mem_cons_of_mem _ hd)
    have hhead := hpq e (by simp)
    cases hp : p [e] with
    | false =>
      rw [hp, Bool.false_and] at hhead
      rw [filter_cons_of_neg (by simp [hp]), filter_cons_of_neg (by simp [← hhead]), htail]
    | true =>
      rw [hp, Bool.true_and] at hhead
      rw [filter_cons_of_pos hp, flatten_cons, filter_append, htail]
      cases hr : r e with
      | false =>
        rw [filter_cons_of_neg (l := vs) (by simp [← hhead, hr])]
        simp [hr]
      | true =>
        rw [filter_cons_of_pos (l := vs) (by rw [← hhead, hr])]
        simp [hr]

theorem ClosedPart.sortNodes (h : ClosedPart P Q) (hP : (P.map position).Nodup)
    (hQ : (Q.map position).Nodup) {r : SortResult} (hr : sortNodes P (singles P) base = .ok r) :
    ∃ r', Forgent.sortNodes Q (singles Q) base = .ok r' ∧ r'.emitted = r.emitted.filter (· ∈ Q) ∧
      r'.held = r.held.filter (· ∈ Q) := by
  classical
  obtain ⟨vs, r', _, hperm, hemitted, hheld, hr', hemitted', hheld'⟩ :=
    h.closedBlocks.sortNodes (singles_wellBlocked hP) (singles_wellBlocked hQ) hr
  have hsingle : ∀ b ∈ vs, ∃ e, b = [e] := by
    intro b hb
    obtain ⟨e, _, rfl⟩ := List.mem_map.mp (hperm.mem_iff.mp hb)
    exact ⟨e, rfl⟩
  refine ⟨r', hr', ?_, ?_⟩
  · rw [hemitted', hemitted]
    refine (flatten_filter_singles hsingle fun e _ => ?_).symm
    simp [mem_singles, Bool.and_comm]
  · rw [hheld', hheld]
    refine (flatten_filter_singles hsingle fun e _ => ?_).symm
    simp [mem_singles, Bool.and_comm]

end

/-! ### Stability of the order -/

section

variable {c : Codec} {D S : List Envelope} {base : Positions} {project : Bool} {u' : EventMap}

theorem closedPart_placedEvents {u : EventMap} (hu : Holds u {e | e ∈ D})
    (hu' : Holds u' {e | e ∈ S}) (hmode : NoContraction D project) (h : ClosedPart D S) :
    ClosedPart (placedEvents u base project) (placedEvents u' base project) := by
  have hmodeS : NoContraction S project := hmode.imp_right fun hno e he => hno e (h.subset e he)
  refine ⟨fun e he => ?_, fun e he d hd hdep => ?_⟩
  · obtain ⟨hes, hrest⟩ := (mem_placedEvents_of_noContraction hu' hmodeS e).mp he
    exact (mem_placedEvents_of_noContraction hu hmode e).mpr ⟨h.subset e hes, hrest⟩
  · obtain ⟨hes, _⟩ := (mem_placedEvents_of_noContraction hu' hmodeS e).mp he
    obtain ⟨hdD, hrest⟩ := (mem_placedEvents_of_noContraction hu hmode d).mp hd
    exact (mem_placedEvents_of_noContraction hu' hmodeS d).mpr ⟨h.closed e hes d hdD hdep, hrest⟩

theorem Codec.CollisionFree.mono (h : c.CollisionFree D) (hsub : ∀ e ∈ S, e ∈ D) : c.CollisionFree S :=
  fun a ha b hb => h a (hsub a ha) b (hsub b hb)

theorem AllValid.mono (h : AllValid c D) (hsub : ∀ e ∈ S, e ∈ D) : AllValid c S :=
  fun e he => h e (hsub e he)

theorem NoSeqConflict.mono {T T' : Set Envelope} (h : NoSeqConflict T) (hsub : T' ⊆ T) : NoSeqConflict T' :=
  fun a ha b hb => h a (hsub ha) b (hsub hb)

theorem placed_iff_mem (hu' : Holds u' {e | e ∈ S}) (hmode : NoContraction S project)
    {e : Envelope} (he : above base (position e) = true ∧ (project = false ∨ e.scope = .project)) :
    e ∈ placedEvents u' base project ↔ e ∈ S := by
  rw [mem_placedEvents_of_noContraction hu' hmode]
  exact ⟨fun h => h.1, fun h => ⟨h, he⟩⟩

/-- The order of a closed part of the events is the order of all of them with the others left out; so is
what it defers. -/
theorem ClosedPart.order (hcol : c.CollisionFree D) (h : ClosedPart D S) (hmode : NoContraction D project)
    {rD : Ordered} (hD : Forgent.order c D base project = .ok rD) :
    ∃ rS, Forgent.order c S base project = .ok rS ∧ rS.events = rD.events.filter (· ∈ S) ∧
      rS.deferred = rD.deferred.filter (· ∈ S) := by
  have hmodeS : NoContraction S project := hmode.imp_right fun hno e he => hno e (h.subset e he)
  rw [Forgent.order, orderRetained, bind_eq_ok] at hD
  obtain ⟨u, hcollect, hD⟩ := hD
  obtain ⟨hv, hno, hu⟩ := (collect_input_eq_ok_iff hcol none u).mp hcollect
  obtain ⟨result, hresult, rfl⟩ := (orderUnique_of_noContraction hu hmode).mp hD
  have hcolS := hcol.mono h.subset
  obtain ⟨u', hcollect'⟩ := collect_input_ok hcolS none (hv.mono h.subset) (hno.mono h.subset)
  have hu' := ((collect_input_eq_ok_iff hcolS none u').mp hcollect').2.2
  obtain ⟨result', hresult', hemitted, hheld⟩ :=
    (closedPart_placedEvents hu hu' hmode h).sortNodes (placedEvents_nodup_position hu)
      (placedEvents_nodup_position hu') hresult
  have hperm := preliminary_perm hu hresult
  have hmem : ∀ e ∈ result.emitted ++ result.held, e ∈ placedEvents u' base project ↔ e ∈ S :=
    fun e he => placed_iff_mem hu' hmodeS
      ((mem_placedEvents_of_noContraction hu hmode e).mp (hperm.mem_iff.mp he)).2
  refine ⟨{ events := result'.emitted, deferred := result'.held, missing := result'.missing
            concurrent := concurrentPairs result'.emitted ∅ }, ?_, hemitted.trans ?_, hheld.trans ?_⟩
  · rw [Forgent.order, orderRetained, hcollect']
    exact (orderUnique_of_noContraction hu' hmodeS).mpr ⟨result', hresult', rfl⟩
  · refine filter_congr fun e he => ?_
    simp [hmem e (mem_append_left _ he)]
  · refine filter_congr fun e he => ?_
    simp [hmem e (mem_append_right _ he)]

/-- **Stability under growth.**  The order of a closed part of the events is the order of all of them
with the others left out; so is what it defers. -/
theorem order_stable (hcol : c.CollisionFree D) (h : ClosedPart D S) (hmode : NoContraction D project)
    {rD : Ordered} (hD : order c D base project = .ok rD) :
    ∃ rS, order c S base project = .ok rS ∧ rS.events = rD.events.filter (· ∈ S) ∧
      rS.deferred = rD.deferred.filter (· ∈ S) :=
  h.order hcol hmode hD

end

open SmallHistory in
theorem order_stable_reader : ∃ rS, order .integral [branch] seenBase false = .ok rS ∧
      rS.events = [branch, reader].filter (· ∈ [branch]) ∧ rS.deferred = [].filter (· ∈ [branch]) := by
  have hv : AllValid .integral [branch, reader] := by simp [AllValid, branch_valid, reader_valid]
  have hD : order .integral [branch, reader] seenBase false = .ok { events := [branch, reader] } := by
    rw [order_of_nodup hv (by decide)]
    decide
  refine order_stable (.of_nodup hv (by decide)) ⟨by simp, ?_⟩ (.inl rfl) hD
  decide

open SmallHistory in
/-- A part that is closed under dependencies alone may lack the position a promote names: the promote is
deferred in the part and emitted in the whole. -/
theorem order_stable_counterexample :
    ∃ rD rS, (∀ e ∈ [promoteAgain], e ∈ [promoteAgain, branch]) ∧ dependencies promoteAgain = [] ∧
      order .integral [promoteAgain, branch] seenBase false = .ok rD ∧
      order .integral [promoteAgain] seenBase false = .ok rS ∧ rS.events ≠ rD.events.filter (· ∈ [promoteAgain]) := by
  refine ⟨{
      events := [branch, promoteAgain]
      concurrent := [(branch.h, promoteAgain.h)] }, {
      deferred := [promoteAgain]
      missing := {(keyOf 'a' "branch:x", 1)} }, by simp, rfl, ?_, ?_, ?_⟩
  · rw [order_eq (by simp) (by decide)]
    decide
  · rw [order_eq (by simp) (by decide)]
    decide
  · decide

end Forgent
