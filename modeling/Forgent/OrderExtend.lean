import Forgent.OrderStable

/-!
# One more event behind all others

An event whose writer had seen everything that an order emits comes last: the order of the larger set
is the order of the smaller one with the event behind it (`order_snoc`).  Promotes may be among the
events that are there; the new event is none, so the blocks stay as they were and it is a block of its
own.
-/

namespace Forgent

open PriorityRun Relation List Std.ExtTreeMap

/-! ### One more block -/

section

variable {P Q : List Envelope} {B C : List (List Envelope)} {base : Positions} {e : Envelope} {r : SortResult}

/-- `B` has one block more than `C`, the single event `e`, and nothing of `C` needs it. -/
structure OneMore (P Q : List Envelope) (B C : List (List Envelope)) (base : Positions) (e : Envelope) :
    Prop where
  mem : ∀ b, b ∈ B ↔ b ∈ C ∨ b = [e]
  fresh : [e] ∉ C
  events : ∀ x, x ∈ P ↔ x ∈ Q ∨ x = e
  free : ∀ b ∈ C, ∀ x ∈ b, ¬ Needs base x (position e)

/-- What the new event needs is there and not deferred, and it stands behind every block that is not
deferred. -/
structure Last (Q : List Envelope) (B C : List (List Envelope)) (base : Positions) (e : Envelope) :
    Prop where
  claims : promotePosition e = none
  needs : ∀ p ∈ dependencies e, above base p = true →
    ∃ b ∈ C, ¬ Deferred Q C base b ∧ ∃ d ∈ b, position d = p
  behind : ∀ b ∈ C, ¬ Deferred Q C base b →
    ∃ b', DependsOn B base [e] b' ∧ ReflTransGen (DependsOn C base) b' b

theorem OneMore.closedBlocks (h : OneMore P Q B C base e) : ClosedBlocks P Q B C base where
  subset := fun b hb => (h.mem b).mpr (.inl hb)
  closed := by
    intro b hb b' hdep
    obtain ⟨hb', _, p, hp, d, hd, hdp⟩ := hdep
    rcases (h.mem b').mp hb' with hC | rfl
    · exact hC
    · rw [mem_singleton] at hd
      subst hd hdp
      obtain ⟨hp, hab⟩ := mem_filter.mp hp
      obtain ⟨x, hx, hxp⟩ := mem_flatMap.mp hp
      exact absurd ⟨.inl hxp, hab⟩ (h.free b hb x hx)
  missing := by
    intro b hb
    have howner : ∀ p, p ≠ position e → ((owner B p).isNone = true ↔ (owner C p).isNone = true) := by
      intro p hp
      rw [owner_isNone_iff, owner_isNone_iff]
      constructor
      · exact fun hall b' hb' => hall b' ((h.mem b').mpr (.inl hb'))
      · intro hall b' hb' d hd
        rcases (h.mem b').mp hb' with hC | rfl
        · exact hall b' hC d hd
        · rw [mem_singleton.mp hd]
          exact fun heq => hp heq.symm
    have hany : ∀ p, p ≠ position e → ((∀ d ∈ P, position d ≠ p) ↔ ∀ d ∈ Q, position d ≠ p) := by
      intro p hp
      constructor
      · exact fun hall d hd => hall d ((h.events d).mpr (.inl hd))
      · intro hall d hd
        rcases (h.events d).mp hd with hQ | rfl
        · exact hall d hQ
        · exact fun heq => hp heq.symm
    ext p
    simp only [blockMissing, Finset.mem_union, List.mem_toFinset, mem_filter, openDependencies,
      mem_flatMap, mem_filterMap, Bool.and_eq_true, Bool.not_eq_true', List.any_eq_false, decide_eq_true_eq]
    refine or_congr (and_congr_right ?_) (and_congr_right ?_)
    · rintro ⟨⟨x, hx, hxp⟩, hab⟩
      exact howner p fun heq => h.free b hb x hx (heq ▸ ⟨.inl hxp, hab⟩)
    · rintro ⟨x, hx, hxp⟩
      refine and_congr_right fun hab => hany p fun heq => ?_
      exact h.free b hb x hx (heq ▸ ⟨.inr hxp, hab⟩)

theorem OneMore.sorted (h : OneMore P Q B C base e) (hB : WellBlocked B) (hC : WellBlocked C)
    (hr : sortNodes Q C base = .ok r) : ∃ r', sortNodes P B base = .ok r' := by
  obtain ⟨vs, hrun, hperm, _⟩ := sortNodes_run hC hr
  have hlast : [e] ∉ vs := fun hmem => h.fresh (hperm.mem_iff.mp hmem)
  refine sortNodes_ok_of_rank hB (vs.idxOf ·) fun b hb b' hdep => ?_
  show vs.idxOf b' < vs.idxOf b
  rcases (h.mem b).mp hb with hbC | rfl
  · have hdepC := (h.closedBlocks.dependsOn_iff hbC b').mp hdep
    obtain ⟨s, t, hst⟩ := append_of_mem (hperm.mem_iff.mpr hbC)
    have hb's : b' ∈ s := hrun.deps_before s b t hst b' hdepC
    have hbs : b ∉ s := fun hmem => by
      have hnd := hrun.nodup
      rw [hst, nodup_append] at hnd
      exact hnd.2.2 b hmem b (by simp) rfl
    rw [hst, idxOf_append_of_mem hb's, idxOf_append_of_notMem hbs, idxOf_cons_self]
    have := idxOf_lt_length_of_mem hb's
    omega
  · have hb'C : b' ∈ C := ((h.mem b').mp hdep.1).resolve_right hdep.2.1
    rw [idxOf_eq_length hlast]
    exact idxOf_lt_length_of_mem (hperm.mem_iff.mpr hb'C)

theorem OneMore.not_deferred (h : OneMore P Q B C base e) (hl : Last Q B C base e) (hB : WellBlocked B) :
    ¬ Deferred P B base [e] := by
  rintro ⟨b₀, hlack, hreach⟩
  rcases ReflTransGen.cases_tail hreach with heq | ⟨x, hx, ⟨hxB, hne, p, hp, d, hd, hdp⟩, _⟩
  · subst heq
    obtain ⟨p, hp⟩ := Finset.nonempty_of_ne_empty hlack.2
    simp only [blockMissing, hl.claims, Finset.mem_union, List.mem_toFinset, mem_filter,
      openDependencies_singleton, owner_isNone_iff, mem_filterMap, mem_singleton,
      exists_eq_left, reduceCtorEq, false_and, or_false] at hp
    obtain ⟨⟨hdep, hab⟩, hnone⟩ := hp
    obtain ⟨b, hb, _, d, hd, hdp⟩ := hl.needs p hdep hab
    exact hnone b ((h.mem b).mpr (.inl hb)) d hd hdp
  · have hxC : x ∈ C := ((h.mem x).mp hxB).resolve_right hne
    obtain ⟨hdep, hab⟩ := openDependencies_singleton.mp hp
    obtain ⟨b, hb, hnd, d', hd', hdp'⟩ := hl.needs p hdep hab
    -- the block at that position is the one that is not deferred
    have hbB : b ∈ B := (h.mem b).mpr (.inl hb)
    have hdd : d = d' := hB.event_unique hxB hbB hd hd' (hdp.trans hdp'.symm)
    have hxb : x = b := hB.block_unique hxB hbB hd (hdd ▸ hd')
    exact hnd ((h.closedBlocks.deferred_iff hb).mp (hxb ▸ ⟨b₀, hlack, hx⟩))

theorem OneMore.mem_before (h : OneMore P Q B C base e) (hl : Last Q B C base e) {s t : List (List Envelope)}
    (hrun : BlockRun B base (s ++ [e] :: t)) {b : List Envelope} (hb : b ∈ C)
    (hnd : ¬ Deferred Q C base b) : b ∈ s := by
  obtain ⟨b', hdep, hpath⟩ := hl.behind b hb hnd
  have hb' : b' ∈ s := hrun.deps_before s [e] t rfl b' hdep
  have hb'C : b' ∈ C := ((h.mem b').mp hdep.1).resolve_right hdep.2.1
  clear hdep
  induction hpath using ReflTransGen.head_induction_on with
  | refl => exact hb'
  | @head x y hxy _ ih =>
    obtain ⟨s₁, s₂, hs⟩ := append_of_mem hb'
    have hdepB : DependsOn B base x y := (h.closedBlocks.dependsOn_iff hb'C y).mpr hxy
    have hy : y ∈ s₁ := hrun.deps_before s₁ x (s₂ ++ [e] :: t) (by rw [hs]; simp) y hdepB
    exact ih (hs ▸ mem_append_left _ hy) hxy.1

/-- **One more block**: it is emitted behind everything, and nothing else changes. -/
theorem OneMore.sortNodes (h : OneMore P Q B C base e) (hl : Last Q B C base e) (hB : WellBlocked B) (hC : WellBlocked C)
    (hr : sortNodes Q C base = .ok r) :
    ∃ r', Forgent.sortNodes P B base = .ok r' ∧ r'.emitted = r.emitted ++ [e] ∧ r'.held = r.held := by
  classical
  obtain ⟨r', hr'⟩ := h.sorted hB hC hr
  obtain ⟨vs, r₁, hrun, hperm, hemitted, hheld, hr₁, hemitted₁, hheld₁⟩ :=
    h.closedBlocks.sortNodes hB hC hr'
  have hrr : r = r₁ := Except.ok.inj (hr.symm.trans hr₁)
  subst hrr
  have hnd := h.not_deferred hl hB
  have hother : ∀ b ∈ vs, b ≠ [e] → b ∈ C := fun b hb hne =>
    ((h.mem b).mp (hperm.mem_iff.mp hb)).resolve_right hne
  refine ⟨r', hr', ?_, ?_⟩
  · obtain ⟨s, t, rfl⟩ := append_of_mem (hperm.mem_iff.mpr ((h.mem [e]).mpr (.inr rfl)))
    have hnodup := hrun.nodup
    rw [nodup_append] at hnodup
    have hs : ∀ b ∈ s, b ∈ C := fun b hb =>
      hother b (mem_append_left _ hb) (hnodup.2.2 b hb [e] (by simp))
    have ht : ∀ b ∈ t, Deferred P B base b := by
      intro b hb
      by_contra hndb
      have hne : b ≠ [e] := fun heq => (nodup_cons.mp hnodup.2.1).1 (heq ▸ hb)
      have hbC := hother b (by simp [hb]) hne
      have hbs := h.mem_before hl hrun hbC fun hdef => hndb ((h.closedBlocks.deferred_iff hbC).mpr hdef)
      exact hnodup.2.2 b hbs b (by simp [hb]) rfl
    have htail : t.filter (fun b => decide ¬Deferred P B base b) = [] :=
      filter_eq_nil_iff.mpr fun b hb => by simp [ht b hb]
    have htail' : t.filter (fun b => decide (b ∈ C ∧ ¬Deferred P B base b)) = [] :=
      filter_eq_nil_iff.mpr fun b hb => by simp [ht b hb]
    have hhead : s.filter (fun b => decide ¬Deferred P B base b) =
        s.filter fun b => decide (b ∈ C ∧ ¬Deferred P B base b) :=
      filter_congr fun b hb => by simp [hs b hb]
    rw [hemitted, hemitted₁, filter_append, filter_append,
      filter_cons_of_pos (by simpa using hnd), filter_cons_of_neg (by simp [h.fresh]), htail,
      htail', hhead, append_nil, flatten_append, flatten_singleton]
  · rw [hheld, hheld₁]
    congr 1
    refine filter_congr fun b hb => ?_
    by_cases hbe : b = [e]
    · simp [hbe, hnd]
    · simp [hother b hb hbe]

end

/-! ### The contraction with one more event -/

section

variable {c : Codec} {D : List Envelope} {e : Envelope} {u u' : EventMap} {q : Envelope} {claim : String × ℕ}

theorem placedEvents_sorted {S : Set Envelope} (hu : Holds u S) {base : Positions} {project : Bool} :
    (placedEvents u base project).Pairwise fun a b =>
      (toLex (position a) : PositionKey) < toLex (position b) := by
  have hkeys : (u.toList.map Prod.snd).Pairwise fun a b =>
      (toLex (position a) : PositionKey) < toLex (position b) := by
    rw [pairwise_map]
    refine ordered_keys_toList.imp_of_mem fun {a b} ha hb hlt => ?_
    rw [((hu a.1 a.2).mp (mem_toList_iff_getElem?_eq_some.mp ha)).2,
      ((hu b.1 b.2).mp (mem_toList_iff_getElem?_eq_some.mp hb)).2]
    exact compare_lt_iff_lt.mp hlt
  exact (hkeys.filter _).filter _

theorem promoteBlocks_filter (events rest : List Envelope) (blocks : List (List Envelope)) :
    promoteBlocks events rest blocks =
      promoteBlocks events (rest.filter fun e => e.eventType = "store.promote") blocks := by
  induction rest generalizing blocks with
  | nil => rfl
  | cons q rest ih =>
    by_cases hq : q.eventType = "store.promote"
    · rw [filter_cons_of_pos (by simpa using hq), promoteBlocks, if_pos hq, promoteBlocks, if_pos hq]
      cases checkPromote q with
      | error err => rfl
      | ok claim => exact ih _
    · rw [filter_cons_of_neg (by simpa using hq), promoteBlocks, if_neg hq]
      exact ih blocks

theorem promoteBlocks_members {events events' : List Envelope} (h : ∀ q claim assigned, checkPromote q = .ok claim →
      members events assigned q claim = members events' assigned q claim)
    (rest : List Envelope) (blocks : List (List Envelope)) :
    promoteBlocks events rest blocks = promoteBlocks events' rest blocks := by
  induction rest generalizing blocks with
  | nil => rfl
  | cons q rest ih =>
    rw [promoteBlocks, promoteBlocks]
    split
    · cases hcheck : checkPromote q with
      | error err => rfl
      | ok claim =>
        show promoteBlocks _ _ _ = promoteBlocks _ _ _
        rw [h q claim _ hcheck]
        exact ih _
    · exact ih blocks

/-- `e` is new to `D`, no promote, depends on emitted events only, and on the newest of each stream. -/
structure Newest (c : Codec) (D : List Envelope) (r : Ordered) (e : Envelope) : Prop where
  valid : e.Valid c
  scope : e.scope = .project
  plain : e.eventType ≠ "store.promote"
  fresh : ∀ d ∈ D, position d ≠ position e
  free : ∀ d ∈ D, position e ∉ dependencies d
  needs : ∀ p ∈ dependencies e, ∃ d ∈ r.events, position d = p
  behind : ∀ d ∈ r.events, ∃ t ∈ r.events, streamKey t = streamKey d ∧ d.seq ≤ t.seq ∧
    position t ∈ dependencies e

variable {r : Ordered}

variable (h : Newest c D r e)

include h

theorem Newest.mem_placedEvents (hu : Holds u {x | x ∈ D}) (hu' : Holds u' {x | x ∈ D ++ [e]}) (x : Envelope) :
    x ∈ placedEvents u' ∅ true ↔ x ∈ placedEvents u ∅ true ∨ x = e := by
  have hab : above ∅ (position e) = true := by
    have := h.valid.seq_pos
    simpa [above, Positions.at, position] using this
  have hnames : ∀ y, ¬ Names e y := by
    rintro y ⟨_, n, hclaim, _⟩
    exact h.plain (eventType_of_promoteClaim hclaim)
  rw [mem_placedEvents_iff hu', mem_placedEvents_iff hu]
  simp only [mem_append, mem_singleton]
  constructor
  · rintro ⟨hx | rfl, habx, hvis⟩
    · refine .inl ⟨hx, habx, hvis.imp_right (Or.imp_right ?_)⟩
      rintro ⟨p, hp | rfl, hrest⟩
      · exact ⟨p, hp, hrest⟩
      · exact absurd hrest.2 (hnames x)
    · exact .inr rfl
  · rintro (⟨hx, habx, hvis⟩ | rfl)
    · exact ⟨.inl hx, habx, hvis.imp_right (Or.imp_right (Exists.imp fun _ => And.imp_left .inl))⟩
    · exact ⟨.inr rfl, hab, .inr (.inl h.scope)⟩

theorem Newest.not_claimed (hq : q.Valid c)
    (ht : q.eventType = "store.promote") (hcheck : checkPromote q = .ok claim) :
    promotePosition q ≠ some (position e) := by
  intro hpos
  obtain ⟨claim', hclaim, hp⟩ := Option.map_eq_some_iff.mp hpos
  rw [promoteClaim_of_checkPromote ht hcheck] at hclaim
  cases hclaim
  obtain ⟨_, _, hpre, _⟩ := checkPromote_eq_ok_iff.mp hcheck
  rw [Bool.and_eq_true] at hpre
  obtain ⟨_, hs⟩ := positionKey_injective hq.origin h.valid.origin (Prod.ext_iff.mp hp).1
  have hbranch := h.valid.scope_branch (hs ▸ hpre.1)
  rw [h.scope] at hbranch
  cases hbranch

theorem Newest.members_eq (hu : Holds u {x | x ∈ D}) (hu' : Holds u' {x | x ∈ D ++ [e]})
    (hcheck : checkPromote q = .ok claim) (assigned : List Envelope) :
    members (placedEvents u' ∅ true) assigned q claim = members (placedEvents u ∅ true) assigned q claim := by
  obtain ⟨_, _, hpre, _⟩ := checkPromote_eq_ok_iff.mp hcheck
  rw [Bool.and_eq_true] at hpre
  rw [members, members]
  congr 1
  have hirr : Std.Irrefl fun a b : Envelope =>
      (toLex (position a) : PositionKey) < toLex (position b) := ⟨fun a => lt_irrefl _⟩
  have hanti : Std.Antisymm fun a b : Envelope =>
      (toLex (position a) : PositionKey) < toLex (position b) :=
    ⟨fun a b hab hba => absurd hba (lt_asymm hab)⟩
  refine ((placedEvents_sorted hu').filter _).eq_of_mem_iff ((placedEvents_sorted hu).filter _) fun x => ?_
  rw [mem_filter, mem_filter, h.mem_placedEvents hu hu' x]
  constructor
  · rintro ⟨hx | rfl, hsel⟩
    · exact ⟨hx, hsel⟩
    · simp only [Bool.and_eq_true, decide_eq_true_eq] at hsel
      have hbranch := h.valid.scope_branch (hsel.1.1.2 ▸ hpre.1)
      rw [h.scope] at hbranch
      cases hbranch
  · exact And.imp_left .inl

theorem Newest.oneMore_singles (hu : Holds u {x | x ∈ D}) (hu' : Holds u' {x | x ∈ D ++ [e]}) (hv : AllValid c D)
    (hchecked : ∀ q ∈ placedEvents u ∅ true, q.eventType = "store.promote" → ∃ claim, checkPromote q = .ok claim) :
    OneMore (placedEvents u' ∅ true) (placedEvents u ∅ true) (singles (placedEvents u' ∅ true))
      (singles (placedEvents u ∅ true)) ∅ e where
  mem := by
    intro b
    rw [List.mem_map, List.mem_map]
    simp only [h.mem_placedEvents hu hu']
    constructor
    · rintro ⟨x, hx | rfl, rfl⟩
      · exact .inl ⟨x, hx, rfl⟩
      · exact .inr rfl
    · rintro (⟨x, hx, rfl⟩ | rfl)
      · exact ⟨x, .inl hx, rfl⟩
      · exact ⟨e, .inr rfl, rfl⟩
  fresh := fun hmem => h.fresh e (placedEvents_subset hu e (mem_singles.mp hmem)) rfl
  events := h.mem_placedEvents hu hu'
  free := by
    intro b hb x hx
    obtain ⟨y, hy, rfl⟩ := List.mem_map.mp hb
    rw [mem_singleton] at hx
    subst hx
    have hxD := placedEvents_subset hu x hy
    rintro ⟨hdep | hclaim, _⟩
    · exact h.free x hxD hdep
    · obtain ⟨claim, hcl, _⟩ := Option.map_eq_some_iff.mp hclaim
      have ht := eventType_of_promoteClaim hcl
      obtain ⟨claim', hcheck⟩ := hchecked x hy ht
      exact h.not_claimed (hv x hxD) ht hcheck hclaim

/-- The contraction gets one block more. -/
theorem Newest.contract (hu : Holds u {x | x ∈ D}) (hu' : Holds u' {x | x ∈ D ++ [e]}) {pre pre' : SortResult}
    (hpre' : sortNodes (placedEvents u' ∅ true) (singles (placedEvents u' ∅ true)) ∅ = .ok pre')
    (hfilter : (pre'.emitted ++ pre'.held).filter (· ∈ placedEvents u ∅ true) = pre.emitted ++ pre.held)
    {blocks : List (List Envelope)} (hblocks : contract (placedEvents u ∅ true) true pre = .ok blocks)
    (hc : IsContraction (placedEvents u ∅ true) true blocks) :
    ∃ blocks', Forgent.contract (placedEvents u' ∅ true) true pre' = .ok blocks' ∧
      ∀ b, b ∈ blocks' ↔ b ∈ blocks ∨ b = [e] := by
  simp only [Forgent.contract, if_true, bind_eq_ok, pure, Except.pure, Except.ok.injEq] at hblocks ⊢
  obtain ⟨B, hB, rfl⟩ := hblocks
  have hperm' := preliminary_perm hu' hpre'
  have heB : e ∉ B.flatten := by
    intro hmem
    have heE := ((hc.mem e).mp (by rw [flatten_append]; exact mem_append_left _ hmem)).1
    exact h.fresh e (placedEvents_subset hu e heE) rfl
  have hB' : promoteBlocks (placedEvents u' ∅ true) (pre'.emitted ++ pre'.held) [] = .ok B := by
    rw [promoteBlocks_members fun q claim assigned hcheck => h.members_eq hu hu' hcheck assigned,
      promoteBlocks_filter, ← hB, promoteBlocks_filter _ (pre.emitted ++ pre.held), ← hfilter, List.filter_filter]
    congr 1
    refine filter_congr fun q hq => ?_
    by_cases ht : q.eventType = "store.promote"
    · have hne : q ≠ e := fun heq => h.plain (heq ▸ ht)
      have hq' := ((h.mem_placedEvents hu hu' q).mp (hperm'.mem_iff.mp hq)).resolve_right hne
      simp [ht, hq']
    · simp [ht]
  refine ⟨_, ⟨B, hB', rfl⟩, fun b => ?_⟩
  rw [mem_append, mem_append, or_assoc]
  refine or_congr_right ?_
  simp only [singleBlocks, List.mem_map, mem_filter, h.mem_placedEvents hu hu', Bool.and_eq_true, decide_eq_true_eq]
  constructor
  · rintro ⟨x, ⟨hx | rfl, hsel⟩, rfl⟩
    · exact .inl ⟨x, ⟨hx, hsel⟩, rfl⟩
    · exact .inr rfl
  · rintro (⟨x, ⟨hx, hsel⟩, rfl⟩ | rfl)
    · exact ⟨x, ⟨.inl hx, hsel⟩, rfl⟩
    · exact ⟨e, ⟨.inr rfl, h.scope, heB⟩, rfl⟩

end

/-! ### The order with one more event -/

section

variable {blocks : List (List Envelope)} {events : List Envelope} {result : SortResult}

theorem mem_emitted_iff {base : Positions} (hwell : WellBlocked blocks)
    (h : sortNodes events blocks base = .ok result) (x : Envelope) :
    x ∈ result.emitted ↔ ∃ b ∈ blocks, ¬ Deferred events blocks base b ∧ x ∈ b := by
  classical
  obtain ⟨vs, _, hperm, hemitted, _, _⟩ := sortNodes_run hwell h
  rw [hemitted, mem_flatten]
  simp only [mem_filter, hperm.mem_iff, decide_eq_true_eq, and_assoc]

theorem reaches_earlier (hwell : WellBlocked blocks)
    (h : sortNodes events blocks ∅ = .ok result) {x y : Envelope} (hx : x ∈ result.emitted)
    {bx by' : List Envelope} (hbx : bx ∈ blocks) (hxb : x ∈ bx) (hby : by' ∈ blocks) (hyb : y ∈ by')
    (hstream : streamKey y = streamKey x) (hpos : 0 < y.seq) (hle : y.seq ≤ x.seq) :
    ReflTransGen (DependsOn blocks ∅) bx by' := by
  generalize hn : x.seq - y.seq = n
  induction n generalizing x bx with
  | zero =>
    have hxy : x = y := by
      refine hwell.event_unique hbx hby hxb hyb (Prod.ext hstream.symm ?_)
      show x.seq = y.seq
      omega
    rw [hwell.block_unique hbx hby hxb (hxy ▸ hyb)]
  | succ n ih =>
    have hdep : (streamKey x, x.seq - 1) ∈ dependencies x := by
      rw [dependencies, if_pos (by omega)]
      exact mem_append_right _ (by simp)
    have hab : above ∅ (streamKey x, x.seq - 1) = true := by
      simp only [above, Positions.at, getD_empty, decide_eq_true_eq]
      omega
    obtain ⟨d, hd, hdp, _⟩ := before_of_emitted hwell h hx hdep hab
    obtain ⟨bd, hbd, _, hdb⟩ := (mem_emitted_iff hwell h d).mp hd
    have hdp' := Prod.ext_iff.mp hdp
    have hds : streamKey d = streamKey x := hdp'.1
    have hdq : d.seq = x.seq - 1 := hdp'.2
    have hrest := ih hd hbd hdb (hstream.trans hds.symm) (by omega) (by omega)
    by_cases hne : bd = bx
    · exact hne ▸ hrest
    · exact .head (dependsOn_of_mem hbd hne hxb hdb (hdp ▸ hdep) (hdp ▸ hab)) hrest

end

section

variable {c : Codec} {D : List Envelope} {e : Envelope} {u u' : EventMap} {r : Ordered}

/-- The new block stands behind every block that is not deferred. -/
theorem Newest.last (h : Newest c D r e) (hu : Holds u {x | x ∈ D}) (hv : AllValid c D)
    {blocks blocks' : List (List Envelope)} (hwell : WellBlocked blocks) {result : SortResult}
    (hresult : sortNodes (placedEvents u ∅ true) blocks ∅ = .ok result) (hevents : r.events = result.emitted)
    (hc : IsContraction (placedEvents u ∅ true) true blocks) (hmem : ∀ b, b ∈ blocks' ↔ b ∈ blocks ∨ b = [e]) :
    Last (placedEvents u ∅ true) blocks' blocks ∅ e := by
  have hin : ∀ b ∈ blocks, ∀ x ∈ b, x ∈ D := fun b hb x hx =>
    placedEvents_subset hu x ((hc.mem x).mp (mem_flatten.mpr ⟨b, hb, hx⟩)).1
  have hfresh : [e] ∉ blocks := fun hb => h.fresh e (hin [e] hb e (by simp)) rfl
  have hemitted := fun x => hevents ▸ mem_emitted_iff hwell hresult x
  refine ⟨?_, fun p hp _ => ?_, fun b hb hnd => ?_⟩
  · rw [promotePosition, promoteClaim, if_neg h.plain]
    rfl
  · obtain ⟨d, hd, hdp⟩ := h.needs p hp
    obtain ⟨b, hb, hnd, hdb⟩ := (hemitted d).mp hd
    exact ⟨b, hb, hnd, d, hdb, hdp⟩
  · obtain ⟨d, hdb⟩ := exists_mem_of_ne_nil b (hwell.nonempty b hb)
    obtain ⟨t, ht, hstream, hle, hdep⟩ := h.behind d ((hemitted d).mpr ⟨b, hb, hnd, hdb⟩)
    obtain ⟨bt, hbt, _, htb⟩ := (hemitted t).mp ht
    have hpos : 0 < d.seq := (hv d (hin b hb d hdb)).seq_pos
    have hab : above ∅ (position t) = true := by
      simp only [above, Positions.at, position, getD_empty, decide_eq_true_eq]
      omega
    refine ⟨bt, dependsOn_of_mem ((hmem bt).mpr (.inl hbt)) (fun heq => hfresh (heq ▸ hbt)) (by simp)
      htb hdep hab, ?_⟩
    exact reaches_earlier hwell hresult (hevents ▸ ht) hbt htb hb hdb hstream.symm hpos hle

/-- **One more event**: behind everything that is emitted, and nothing else changes. -/
theorem order_snoc (hcol : c.CollisionFree (D ++ [e])) (hD : order c D ∅ true = .ok r) (h : Newest c D r e) :
    ∃ r', order c (D ++ [e]) ∅ true = .ok r' ∧ r'.events = r.events ++ [e] ∧ r'.deferred = r.deferred := by
  have hsub : ∀ x ∈ D, x ∈ D ++ [e] := fun x hx => mem_append_left _ hx
  rw [order, orderRetained, bind_eq_ok] at hD
  obtain ⟨u, hcollect, hD⟩ := hD
  obtain ⟨hv, hno, hu⟩ := (collect_input_eq_ok_iff (hcol.mono hsub) none u).mp hcollect
  obtain ⟨pre, blocks, result, hpre, hblocks, hresult, rfl⟩ := orderUnique_eq_ok_iff.mp hD
  -- the larger input is collected
  have hv' : AllValid c (D ++ [e]) := by
    intro x hx
    rcases mem_append.mp hx with hx | hx
    · exact hv x hx
    · rw [mem_singleton.mp hx]
      exact h.valid
  have hno' : NoSeqConflict {x | x ∈ D ++ [e]} := by
    intro a ha b hb hp
    rcases mem_append.mp ha with ha | ha <;> rcases mem_append.mp hb with hb | hb
    · exact hno a ha b hb hp
    · rw [mem_singleton.mp hb] at hp
      exact absurd hp (h.fresh a ha)
    · rw [mem_singleton.mp ha] at hp
      exact absurd hp.symm (h.fresh b hb)
    · rw [mem_singleton.mp ha, mem_singleton.mp hb]
  obtain ⟨u', hcollect'⟩ := collect_input_ok hcol none hv' hno'
  have hu' := ((collect_input_eq_ok_iff hcol none u').mp hcollect').2.2
  -- the first sort
  have hnd : ((placedEvents u ∅ true).map position).Nodup := placedEvents_nodup_position hu
  have hnd' : ((placedEvents u' ∅ true).map position).Nodup := placedEvents_nodup_position hu'
  have hvE : AllValid c (placedEvents u ∅ true) := placedEvents_valid hu hv
  have hc := contract_isContraction hvE (List.Nodup.of_map _ hnd) (preliminary_perm hu hpre) hblocks
  have hone := h.oneMore_singles hu hu' hv (hc.checked rfl)
  obtain ⟨pre', hpre'⟩ := hone.sorted (singles_wellBlocked hnd') (singles_wellBlocked hnd) hpre
  have hpart : ClosedPart (placedEvents u' ∅ true) (placedEvents u ∅ true) := by
    refine ⟨fun x hx => (h.mem_placedEvents hu hu' x).mpr (.inl hx), fun x hx d hd hdep => ?_⟩
    rcases (h.mem_placedEvents hu hu' d).mp hd with hd | rfl
    · exact hd
    · refine absurd ⟨hdep, ?_⟩ (hone.free [x] (mem_singles.mpr hx) x (by simp))
      have := h.valid.seq_pos
      simpa [above, Positions.at, position] using this
  obtain ⟨pre₁, hpre₁, hemitted₁, hheld₁⟩ := hpart.sortNodes hnd' hnd hpre'
  have hpp : pre = pre₁ := Except.ok.inj (hpre.symm.trans hpre₁)
  obtain ⟨blocks', hblocks', hmem⟩ := h.contract hu hu' hpre'
    (by rw [filter_append, ← hemitted₁, ← hheld₁, hpp]) hblocks hc
  -- the second sort
  have hvE' : AllValid c (placedEvents u' ∅ true) := placedEvents_valid hu' hv'
  have hc' := contract_isContraction hvE' (List.Nodup.of_map _ hnd') (preliminary_perm hu' hpre') hblocks'
  have hwell := hc.wellBlocked hnd
  have hone' : OneMore (placedEvents u' ∅ true) (placedEvents u ∅ true) blocks' blocks ∅ e :=
    { mem := hmem
      fresh := fun hb => h.fresh e (placedEvents_subset hu e
        ((hc.mem e).mp (mem_flatten.mpr ⟨[e], hb, by simp⟩)).1) rfl
      events := h.mem_placedEvents hu hu'
      free := fun b hb x hx => hone.free [x]
        (mem_singles.mpr ((hc.mem x).mp (mem_flatten.mpr ⟨b, hb, hx⟩)).1) x (by simp) }
  obtain ⟨result', hresult', hemitted, hheld⟩ := hone'.sortNodes
    (h.last hu hv hwell hresult rfl hc hmem) (hc'.wellBlocked hnd') hwell hresult
  refine ⟨{ events := result'.emitted, deferred := result'.held, missing := result'.missing
            concurrent := concurrentPairs result'.emitted ∅ }, ?_, hemitted, hheld⟩
  rw [order, orderRetained, hcollect']
  exact orderUnique_eq_ok_iff.mpr ⟨pre', blocks', result', hpre', hblocks', hresult', rfl⟩

end

end Forgent
