import Forgent.OrderCollect

/-!
# Placement and contraction

Which of the collected events the order is about, and how they are put into blocks.  The results used
later are that the contraction is a partition: no position twice, no empty block (`contract_wellBlocked`),
and that it holds exactly the visible events (`mem_contract_iff`).
-/

namespace Forgent

open List

/-! ### Positions of valid events -/

variable {n : ℕ}

theorem lowercaseHex_length {value : String} (h : lowercaseHex value n = true) : value.toList.length = n := by
  rw [lowercaseHex, Bool.and_eq_true] at h
  simpa using h.1

/-- A position key can be cut where the origin, which has a fixed length, ends. -/
theorem positionKey_injective {o o' s s' : String} (ho : validStoreId o = true)
    (ho' : validStoreId o' = true) (h : positionKey o s = positionKey o' s') : o = o' ∧ s = s' := by
  have hlist := congrArg String.toList h
  simp only [positionKey, String.toList_append, append_assoc] at hlist
  have hlen : o.toList.length = o'.toList.length := by
    rw [lowercaseHex_length ho, lowercaseHex_length ho']
  obtain ⟨h₁, h₂⟩ := append_inj hlist hlen
  exact ⟨String.toList_inj.mp h₁, String.toList_inj.mp (append_cancel_left h₂)⟩

variable {c : Codec} {e : Envelope}

theorem Envelope.Valid.seq_pos (h : e.Valid c) : 0 < e.seq := by
  have := h.seq
  rw [positiveCounter, Bool.and_eq_true, decide_eq_true_eq] at this
  exact this.1

/-! ### Scopes of valid events -/

theorem Envelope.Valid.stream_id (he : e.Valid c) :
    ∃ h : isStreamId e.stream = true, (StreamId.mk e.stream h).scope = e.scope := by
  have h := he.scope
  rw [scopeMatches, StreamId.parse] at h
  split at h
  · rename_i id hid
    split at hid
    · rename_i hs
      cases hid
      exact ⟨hs, by simpa using h⟩
    · cases hid
  · cases h

theorem Envelope.Valid.scope_branch (he : e.Valid c)
    (hb : "branch:".toList.isPrefixOf e.stream.toList = true) : e.scope = .branch := by
  obtain ⟨hs, hscope⟩ := he.stream_id
  rw [List.isPrefixOf_iff_prefix] at hb
  obtain ⟨rest, hrest⟩ := hb
  rw [← hscope, StreamId.scope, ← hrest]
  have hne : e.stream ≠ "local" := by
    intro h
    rw [h] at hrest
    exact absurd (congrArg List.head? hrest) (by simp)
  simp [hne]

/-! ### The placed events -/

/-- A promote that names `e`: of the same origin, for its stream, not below it. -/
def Names (p e : Envelope) : Prop :=
  p.origin = e.origin ∧ ∃ n, promoteClaim p = some (e.stream, n) ∧ e.seq ≤ n

theorem claimFor_eq_some_iff {origin stream : String} {p : Envelope} :
    claimFor origin stream p = some n ↔ p.origin = origin ∧ promoteClaim p = some (stream, n) := by
  rw [claimFor]
  cases promoteClaim p with
  | none => simp
  | some claim =>
    obtain ⟨s, m⟩ := claim
    simp only [Option.ite_none_right_eq_some, Option.some.injEq, Prod.mk.injEq]
    tauto

theorem any_max?_iff (l : List ℕ) (n : ℕ) : (l.max?.any fun m => decide (n ≤ m)) = true ↔ ∃ m ∈ l, n ≤ m := by
  cases hmax : l.max? with
  | none =>
    rw [max?_eq_none_iff] at hmax
    simp [hmax]
  | some m =>
    obtain ⟨hm, hle⟩ := max?_eq_some_iff.mp hmax
    simp only [Option.any_some, decide_eq_true_eq]
    exact ⟨fun h => ⟨m, hm, h⟩, fun ⟨k, hk, h⟩ => h.trans (hle k hk)⟩

theorem claimHigh_any_iff (events : List Envelope) (e : Envelope) :
    ((claimHigh events e.origin e.stream).any fun n => decide (e.seq ≤ n)) = true ↔ ∃ p ∈ events, Names p e := by
  rw [claimHigh, any_max?_iff]
  simp only [mem_filterMap, claimFor_eq_some_iff]
  constructor
  · rintro ⟨n, ⟨p, hp, ho, hc⟩, h⟩
    exact ⟨p, hp, ho, n, hc, h⟩
  · rintro ⟨p, hp, ho, n, hc, h⟩
    exact ⟨n, ⟨p, hp, ho, hc⟩, h⟩

/-- A promote that may make branch events visible: project scoped and above the base. -/
def ActivePromote (input : List Envelope) (base : Positions) (p : Envelope) : Prop :=
  p ∈ input ∧ above base (position p) = true ∧ p.scope = .project

/-- The events an order of `input` is about. -/
def Visible (input : List Envelope) (base : Positions) (project : Bool) (e : Envelope) : Prop :=
  project = false ∨ e.scope = .project ∨
    e.scope = .branch ∧ ∃ p, ActivePromote input base p ∧ Names p e

section

variable {c : Codec} {input : List Envelope} {base : Positions} {project : Bool} {u : EventMap} {S : Set Envelope}

theorem map_position_toList (hu : Holds u S) :
    (u.toList.map Prod.snd).map position = u.toList.map fun p => ofLex p.1 := by
  rw [List.map_map]
  refine map_congr_left fun p hp => ?_
  have := ((hu p.1 p.2).mp (Std.ExtTreeMap.mem_toList_iff_getElem?_eq_some.mp hp)).2
  rw [← this]
  rfl

theorem nodup_position_toList (hu : Holds u S) : ((u.toList.map Prod.snd).map position).Nodup := by
  rw [map_position_toList hu, List.Nodup, pairwise_map]
  refine Std.ExtTreeMap.distinct_keys_toList.imp fun {a b} h heq => ?_
  rw [Std.LawfulEqCmp.compare_eq_iff_eq] at h
  exact h (ofLex.injective heq)

theorem mem_values_iff (hu : Holds u S) (e : Envelope) : e ∈ u.toList.map Prod.snd ↔ e ∈ S := by
  rw [List.mem_map]
  constructor
  · rintro ⟨p, hp, rfl⟩
    exact ((hu p.1 p.2).mp (Std.ExtTreeMap.mem_toList_iff_getElem?_eq_some.mp hp)).1
  · intro he
    exact ⟨(toLex (position e), e),
      Std.ExtTreeMap.mem_toList_iff_getElem?_eq_some.mpr ((hu _ e).mpr ⟨he, rfl⟩), rfl⟩

theorem placed_iff (events : List Envelope) (e : Envelope) : placed events project e = true ↔
      project = false ∨ e.scope = .project ∨ ∃ p ∈ events, Names p e := by
  rw [placed, Bool.or_eq_true, Bool.or_eq_true, claimHigh_any_iff, decide_eq_true_eq, or_assoc]
  simp

theorem placedEvents_nodup_position (hu : Holds u S) : ((placedEvents u base project).map position).Nodup := by
  rw [placedEvents]
  exact (nodup_position_toList hu).sublist ((filter_sublist.trans filter_sublist).map position)

theorem mem_placedEvents_iff (hu : Holds u {e | e ∈ input}) (e : Envelope) : e ∈ placedEvents u base project ↔
      e ∈ input ∧ above base (position e) = true ∧ (project = false ∨ e.scope = .project ∨
        ∃ p, p ∈ input ∧ above base (position p) = true ∧ Names p e) := by
  have hmem : ∀ d, d ∈ ((u.toList.map Prod.snd).filter fun e => above base (position e)) ↔
      d ∈ input ∧ above base (position d) = true := by
    intro d
    rw [mem_filter, mem_values_iff hu]
    exact Iff.rfl
  rw [placedEvents, mem_filter, hmem, placed_iff, and_assoc]
  simp only [hmem, and_assoc]

end

/-! ### Promotes and their blocks -/

variable {claim : String × ℕ}

theorem checkPromote_eq_ok_iff : checkPromote e = .ok claim ↔
      e.scope = .project ∧ (e.payload.get "stream").asStr = some claim.1 ∧
        ("branch:".toList.isPrefixOf claim.1.toList && isStreamId claim.1) = true ∧
        (e.payload.get "throughSeq").asU64 = some claim.2 ∧ 0 < claim.2 ∧
        (e.payload.get "tip").asStr.any validObjectId = true := by
  obtain ⟨s, n⟩ := claim
  rw [checkPromote]
  cases hs : (e.payload.get "stream").asStr with
  | none => simp [bind_eq_ok]
  | some s' =>
    cases hn : (e.payload.get "throughSeq").asU64 with
    | none => simp [bind_eq_ok]
    | some n' =>
      by_cases hpos : 0 < n'
      · simp only [bind_eq_ok, ensure_eq_ok, decide_eq_true_eq, if_pos hpos, Except.ok.injEq,
          exists_and_left, exists_eq_left', exists_const, pure, Except.pure, Prod.mk.injEq, Option.some.injEq]
        constructor
        · rintro ⟨hscope, hpre, htip, rfl, rfl⟩
          exact ⟨hscope, rfl, hpre, rfl, hpos, htip⟩
        · rintro ⟨hscope, rfl, hpre, rfl, _, htip⟩
          exact ⟨hscope, hpre, htip, rfl, rfl⟩
      · simp only [bind_eq_ok, if_neg hpos, reduceCtorEq, false_and, exists_false, and_false,
          false_iff, Option.some.injEq]
        rintro ⟨_, _, _, rfl, h, _⟩
        exact hpos h

theorem promoteClaim_of_checkPromote (ht : e.eventType = "store.promote") (h : checkPromote e = .ok claim) :
    promoteClaim e = some claim := by
  obtain ⟨_, hs, _, hn, _⟩ := checkPromote_eq_ok_iff.mp h
  rw [promoteClaim, if_pos ht, hs, hn]

theorem eventType_of_promoteClaim (h : promoteClaim e = some claim) : e.eventType = "store.promote" := by
  rw [promoteClaim] at h
  by_contra hne
  rw [if_neg hne] at h
  cases h

theorem mem_members_iff {events assigned : List Envelope} {m : Envelope} : m ∈ members events assigned e claim ↔
      m ∈ events ∧ m.origin = e.origin ∧ m.stream = claim.1 ∧ m.seq ≤ claim.2 ∧ m ∉ assigned := by
  rw [members, mem_insertionSort, mem_filter]
  simp only [Bool.and_eq_true, decide_eq_true_eq, and_assoc]

/-- A promote at the head, and behind it events of the branch stream it names. -/
def IsPromoteBlock (events : List Envelope) (p : Envelope) (ms : List Envelope) : Prop :=
  p.eventType = "store.promote" ∧ ∃ claim, checkPromote p = .ok claim ∧
    ∀ m ∈ ms, m ∈ events ∧ m.origin = p.origin ∧ m.stream = claim.1 ∧ m.seq ≤ claim.2

/-- What the promotes of `done` have been made into. -/
structure Contracted (events done : List Envelope) (blocks : List (List Envelope)) : Prop where
  shape : ∀ b ∈ blocks, ∃ p ms, b = p :: ms ∧ p ∈ done ∧ IsPromoteBlock events p ms
  nodup : blocks.flatten.Nodup
  heads : ∀ p ∈ done, p.eventType = "store.promote" → ∃ ms, p :: ms ∈ blocks
  covers : ∀ p ∈ done, p.eventType = "store.promote" → ∀ claim, checkPromote p = .ok claim →
    ∀ m ∈ events, m.origin = p.origin → m.stream = claim.1 → m.seq ≤ claim.2 → m ∈ blocks.flatten
  first : ∀ p ms, p :: ms ∈ blocks → ∀ m ∈ ms, ∀ q ∈ done, q.eventType = "store.promote" →
    done.idxOf q < done.idxOf p → ∀ claim, checkPromote q = .ok claim →
      ¬ (m.origin = q.origin ∧ m.stream = claim.1 ∧ m.seq ≤ claim.2)

section

variable {c : Codec} {events : List Envelope} {p : Envelope} {ms : List Envelope} {blocks : List (List Envelope)}
  {m : Envelope} {done : List Envelope} {project : Bool} {preliminary : SortResult}

theorem IsPromoteBlock.scope_project (h : IsPromoteBlock events p ms) : p.scope = .project := by
  obtain ⟨_, claim, hclaim, _⟩ := h
  exact (checkPromote_eq_ok_iff.mp hclaim).1

theorem IsPromoteBlock.scope_branch (h : IsPromoteBlock events p ms)
    (hvalid : AllValid c events) (hm : m ∈ ms) : m.scope = .branch := by
  obtain ⟨_, claim, hclaim, hms⟩ := h
  obtain ⟨_, _, hpre, _⟩ := checkPromote_eq_ok_iff.mp hclaim
  obtain ⟨hme, _, hstream, _⟩ := hms m hm
  rw [Bool.and_eq_true] at hpre
  exact (hvalid m hme).scope_branch (hstream ▸ hpre.1)

theorem Contracted.snoc {blocks : List (List Envelope)}
    (h : Contracted events done blocks) (hvalid : AllValid c events) (hnd : events.Nodup)
    {e : Envelope} (he : e ∉ done) (ht : e.eventType = "store.promote") {claim : String × ℕ}
    (hclaim : checkPromote e = .ok claim) :
    Contracted events (done ++ [e]) (blocks ++ [e :: members events blocks.flatten e claim]) := by
  have hblock : IsPromoteBlock events e (members events blocks.flatten e claim) :=
    ⟨ht, claim, hclaim, fun m hm => by
      obtain ⟨h₁, h₂, h₃, h₄, _⟩ := mem_members_iff.mp hm
      exact ⟨h₁, h₂, h₃, h₄⟩⟩
  have hproject : e.scope = .project := (checkPromote_eq_ok_iff.mp hclaim).1
  have hmem : ∀ m, m ∈ (blocks ++ [e :: members events blocks.flatten e claim]).flatten ↔
      m ∈ blocks.flatten ∨ m = e ∨ m ∈ members events blocks.flatten e claim := by
    intro m
    simp [flatten_append]
  refine ⟨?_, ?_, ?_, ?_, ?_⟩
  · intro b hb
    rcases mem_append.mp hb with hb | hb
    · obtain ⟨p, ms, hp, hpd, hpb⟩ := h.shape b hb
      exact ⟨p, ms, hp, mem_append_left _ hpd, hpb⟩
    · exact ⟨e, _, mem_singleton.mp hb, by simp, hblock⟩
  · have hnotin : e ∉ blocks.flatten := by
      intro hmemb
      obtain ⟨b, hb, heb⟩ := mem_flatten.mp hmemb
      obtain ⟨p, ms, rfl, hpd, hpb⟩ := h.shape b hb
      rcases mem_cons.mp heb with rfl | hems
      · exact he hpd
      · exact absurd (hpb.scope_branch hvalid hems) (by rw [hproject]; decide)
    have hself : e ∉ members events blocks.flatten e claim := fun hm =>
      absurd (hblock.scope_branch hvalid hm) (by rw [hproject]; decide)
    have hms : (members events blocks.flatten e claim).Nodup :=
      ((perm_insertionSort _ _).nodup_iff).mpr (hnd.sublist filter_sublist)
    rw [flatten_append, flatten_singleton, nodup_append]
    refine ⟨h.nodup, nodup_cons.mpr ⟨hself, hms⟩, fun a ha b hb hab => ?_⟩
    rcases mem_cons.mp hb with rfl | hb
    · exact hnotin (hab ▸ ha)
    · exact (mem_members_iff.mp hb).2.2.2.2 (hab ▸ ha)
  · intro p hp hpt
    rcases mem_append.mp hp with hp | hp
    · obtain ⟨ms, hms⟩ := h.heads p hp hpt
      exact ⟨ms, mem_append_left _ hms⟩
    · rw [mem_singleton.mp hp]
      exact ⟨_, mem_append_right _ (mem_singleton.mpr rfl)⟩
  · intro p hp hpt claim' hclaim' m hm ho hs hle
    rw [hmem]
    rcases mem_append.mp hp with hp | hp
    · exact .inl (h.covers p hp hpt claim' hclaim' m hm ho hs hle)
    · rw [mem_singleton] at hp
      subst hp
      rw [hclaim] at hclaim'
      cases hclaim'
      by_cases hin : m ∈ blocks.flatten
      · exact .inl hin
      · exact .inr (.inr (mem_members_iff.mpr ⟨hm, ho, hs, hle, hin⟩))
  · intro p ms hb m hm q hq hqt hlt claim' hclaim' hnames
    have hidx : ∀ x ∈ done, (done ++ [e]).idxOf x = done.idxOf x := fun x hx =>
      idxOf_append_of_mem hx
    have hlast : (done ++ [e]).idxOf e = done.length := by
      rw [idxOf_append_of_notMem he, idxOf_cons_self, Nat.add_zero]
    rcases mem_append.mp hb with hb | hb
    · -- an earlier block: the promote before it is an earlier one too
      obtain ⟨p', ms', hpp, hpd, _⟩ := h.shape _ hb
      rw [← (List.cons.inj hpp).1] at hpd
      rcases mem_append.mp hq with hq | hq
      · rw [hidx q hq, hidx p hpd] at hlt
        exact h.first p ms hb m hm q hq hqt hlt claim' hclaim' hnames
      · rw [mem_singleton.mp hq, hlast, hidx p hpd] at hlt
        have := idxOf_lt_length_of_mem hpd
        omega
    · -- the new block: what an earlier promote names was taken
      rw [mem_singleton, List.cons.injEq] at hb
      rw [hb.2] at hm
      obtain ⟨hme, _, _, _, hnot⟩ := mem_members_iff.mp hm
      rcases mem_append.mp hq with hq | hq
      · exact hnot (h.covers q hq hqt claim' hclaim' m hme hnames.1 hnames.2.1 hnames.2.2)
      · rw [mem_singleton.mp hq, hb.1] at hlt
        omega

theorem Contracted.skip {blocks : List (List Envelope)}
    (h : Contracted events done blocks) {e : Envelope} (ht : e.eventType ≠ "store.promote") :
    Contracted events (done ++ [e]) blocks where
  shape := fun b hb => by
    obtain ⟨p, ms, hp, hpd, hpb⟩ := h.shape b hb
    exact ⟨p, ms, hp, mem_append_left _ hpd, hpb⟩
  nodup := h.nodup
  heads := fun p hp hpt => by
    rcases mem_append.mp hp with hp | hp
    · exact h.heads p hp hpt
    · exact absurd (mem_singleton.mp hp ▸ hpt) ht
  covers := fun p hp hpt => by
    rcases mem_append.mp hp with hp | hp
    · exact h.covers p hp hpt
    · exact absurd (mem_singleton.mp hp ▸ hpt) ht
  first := fun p ms hb m hm q hq hqt hlt => by
    obtain ⟨p', ms', hpp, hpd, _⟩ := h.shape _ hb
    rw [← (List.cons.inj hpp).1] at hpd
    rcases mem_append.mp hq with hq | hq
    · rw [idxOf_append_of_mem hq, idxOf_append_of_mem hpd] at hlt
      exact h.first p ms hb m hm q hq hqt hlt
    · exact absurd (mem_singleton.mp hq ▸ hqt) ht

theorem promoteBlocks_contracted (hvalid : AllValid c events) (hnd : events.Nodup)
    (rest done : List Envelope) (blocks B : List (List Envelope)) (hdr : (done ++ rest).Nodup)
    (h : Contracted events done blocks) (hB : promoteBlocks events rest blocks = .ok B) :
    Contracted events (done ++ rest) B := by
  induction rest generalizing done blocks with
  | nil =>
    cases hB
    simpa using h
  | cons e rest ih =>
    have hsplit : done ++ e :: rest = done ++ [e] ++ rest := by simp
    have he : e ∉ done := fun hmem =>
      (nodup_append.mp hdr).2.2 e hmem e (by simp) rfl
    rw [hsplit] at hdr ⊢
    rw [promoteBlocks] at hB
    split at hB
    · rename_i ht
      obtain ⟨claim, hclaim, hB⟩ := bind_eq_ok.mp hB
      exact ih _ _ hdr (h.snoc hvalid hnd he ht hclaim) hB
    · rename_i ht
      exact ih _ _ hdr (h.skip ht) hB

theorem contracted_nil : Contracted events [] [] :=
  ⟨by simp, by simp, by simp, by simp, by simp⟩

/-- A block is one event; in project mode it has a project event at its head, and behind a promote it
has the branch events the promote takes. -/
def IsBlock (events : List Envelope) (project : Bool) (b : List Envelope) : Prop :=
  ∃ e ms, b = e :: ms ∧ e ∈ events ∧ (project = false → ms = []) ∧
    (project = true → e.scope = .project) ∧ (ms = [] ∨ IsPromoteBlock events e ms)

/-- **What the contraction is**, whatever sequence the promotes were taken in. -/
structure IsContraction (events : List Envelope) (project : Bool) (blocks : List (List Envelope)) :
    Prop where
  shape : ∀ b ∈ blocks, IsBlock events project b
  nodup : blocks.flatten.Nodup
  mem : ∀ e, e ∈ blocks.flatten ↔ e ∈ events ∧
    (project = false ∨ e.scope = .project ∨
      e.scope = .branch ∧ ∃ p ∈ events, p.scope = .project ∧ Names p e)
  checked : project = true → ∀ p ∈ events, p.eventType = "store.promote" →
    ∃ claim, checkPromote p = .ok claim

theorem flatten_map_singleton {α : Type*} (l : List α) : (l.map fun e => [e]).flatten = l := by
  induction l with
  | nil => rfl
  | cons a l ih => rw [map_cons, flatten_cons, ih, singleton_append]

theorem contract_isContraction (hvalid : AllValid c events) (hnd : events.Nodup)
    (hperm : (preliminary.emitted ++ preliminary.held).Perm events)
    (h : contract events project preliminary = .ok blocks) : IsContraction events project blocks := by
  cases project with
  | false =>
    simp only [contract, Bool.false_eq_true, if_false] at h
    cases h
    have hflat := flatten_map_singleton events
    refine ⟨fun b hb => ?_, hflat.symm ▸ hnd, fun e => by rw [hflat]; simp, by simp⟩
    obtain ⟨e, he, rfl⟩ := List.mem_map.mp hb
    exact ⟨e, [], rfl, he, fun _ => rfl, by simp, .inl rfl⟩
  | true =>
    simp only [contract, if_true] at h
    obtain ⟨B, hB, h⟩ := bind_eq_ok.mp h
    cases h
    have hC := promoteBlocks_contracted hvalid hnd _ [] [] B
      (by simpa using hperm.nodup_iff.mpr hnd) contracted_nil hB
    rw [nil_append] at hC
    have hsingles : (singleBlocks events B).flatten =
        events.filter fun e => e.scope = .project && e ∉ B.flatten :=
      flatten_map_singleton _
    have hmemS : ∀ e, e ∈ (singleBlocks events B).flatten ↔
        e ∈ events ∧ e.scope = .project ∧ e ∉ B.flatten := by
      intro e
      rw [hsingles, mem_filter]
      simp only [Bool.and_eq_true, decide_eq_true_eq]
    have hBevents : ∀ e ∈ B.flatten, e ∈ events := by
      intro e he
      obtain ⟨b, hb, heb⟩ := mem_flatten.mp he
      obtain ⟨p, ms, rfl, hp, _, claim, _, hms⟩ := hC.shape b hb
      rcases mem_cons.mp heb with rfl | hems
      · exact hperm.mem_iff.mp hp
      · exact (hms e hems).1
    -- every promote heads a block, so it passed its check
    have hchecked : ∀ p ∈ events, p.eventType = "store.promote" →
        ∃ claim, checkPromote p = .ok claim := by
      intro p hp ht
      obtain ⟨ms, hms⟩ := hC.heads p (hperm.mem_iff.mpr hp) ht
      obtain ⟨q, ms', hq, _, _, claim, hcheck, _⟩ := hC.shape _ hms
      rw [List.cons.injEq] at hq
      exact ⟨claim, hq.1 ▸ hcheck⟩
    refine ⟨fun b hb => ?_, ?_, fun e => ?_, fun _ => hchecked⟩
    · rcases mem_append.mp hb with hb | hb
      · obtain ⟨p, ms, rfl, hp, hpb⟩ := hC.shape b hb
        exact ⟨p, ms, rfl, hperm.mem_iff.mp hp, by simp, fun _ => hpb.scope_project, .inr hpb⟩
      · obtain ⟨e, he, rfl⟩ := List.mem_map.mp hb
        have he' := mem_filter.mp he
        simp only [Bool.and_eq_true, decide_eq_true_eq] at he'
        exact ⟨e, [], rfl, he'.1, by simp, fun _ => he'.2.1, .inl rfl⟩
    · rw [flatten_append, nodup_append]
      refine ⟨hC.nodup, hsingles ▸ hnd.sublist filter_sublist, fun a ha b hb hab => ?_⟩
      exact ((hmemS b).mp hb).2.2 (hab ▸ ha)
    · rw [flatten_append, mem_append, hmemS]
      simp only [Bool.true_eq_false, false_or]
      constructor
      · rintro (he | ⟨he, hp, _⟩)
        · refine ⟨hBevents e he, ?_⟩
          obtain ⟨b, hb, heb⟩ := mem_flatten.mp he
          obtain ⟨p, ms, rfl, hp, hpb⟩ := hC.shape b hb
          have hproject := hpb.scope_project
          obtain ⟨ht, claim, hclaim, hms⟩ := hpb
          rcases mem_cons.mp heb with rfl | hems
          · exact .inl hproject
          · obtain ⟨_, ho, hs, hle⟩ := hms e hems
            refine .inr ⟨IsPromoteBlock.scope_branch ⟨ht, claim, hclaim, hms⟩ hvalid hems, p,
              hperm.mem_iff.mp hp, hproject, ho.symm, claim.2, ?_, hle⟩
            rw [promoteClaim_of_checkPromote ht hclaim, hs]
        · exact ⟨he, .inl hp⟩
      · rintro ⟨he, hscope | ⟨_, p, hp, hproject, ho, n, hclaim, hle⟩⟩
        · by_cases hin : e ∈ B.flatten
          · exact .inl hin
          · exact .inr ⟨he, hscope, hin⟩
        · -- the naming promote passed its check, so it covers `e`
          have hpt := eventType_of_promoteClaim hclaim
          obtain ⟨claim, hcheck⟩ := hchecked p hp hpt
          have hEq := promoteClaim_of_checkPromote hpt hcheck
          rw [hclaim] at hEq
          cases hEq
          exact .inl (hC.covers p (hperm.mem_iff.mpr hp) hpt _ hcheck e he ho.symm rfl hle)

theorem contract_first (hvalid : AllValid c events) (hnd : events.Nodup)
    (hperm : (preliminary.emitted ++ preliminary.held).Perm events)
    (h : contract events true preliminary = .ok blocks)
    (hb : p :: ms ∈ blocks) (hm : m ∈ ms) {q : Envelope} (hq : q ∈ events)
    (hlt : (preliminary.emitted ++ preliminary.held).idxOf q <
      (preliminary.emitted ++ preliminary.held).idxOf p) : ¬ Names q m := by
  have hc := contract_isContraction hvalid hnd hperm h
  simp only [contract, if_true] at h
  obtain ⟨B, hB, h⟩ := bind_eq_ok.mp h
  cases h
  have hC := promoteBlocks_contracted hvalid hnd _ [] [] B
    (by simpa using hperm.nodup_iff.mpr hnd) contracted_nil hB
  rw [nil_append] at hC
  rintro ⟨ho, n, hclaim, hle⟩
  have hqt := eventType_of_promoteClaim hclaim
  obtain ⟨claim, hcheck⟩ := hc.checked rfl q hq hqt
  have hEq := promoteClaim_of_checkPromote hqt hcheck
  rw [hclaim] at hEq
  cases hEq
  rcases mem_append.mp hb with hb | hb
  · exact hC.first p ms hb m hm q (hperm.mem_iff.mpr hq) hqt hlt _ hcheck ⟨ho.symm, rfl, hle⟩
  · obtain ⟨e, _, he⟩ := List.mem_map.mp hb
    rw [List.cons.injEq] at he
    rw [← he.2] at hm
    cases hm

theorem IsContraction.wellBlocked (h : IsContraction events project blocks) (hpos : (events.map position).Nodup) :
    WellBlocked blocks where
  nonempty := by
    intro b hb
    obtain ⟨e, ms, rfl, _⟩ := h.shape b hb
    exact cons_ne_nil e ms
  positions := by
    refine (nodup_map_iff_inj_on h.nodup).mpr fun a ha b hb hab => ?_
    exact inj_on_of_nodup_map hpos ((h.mem a).mp ha).1 ((h.mem b).mp hb).1 hab

theorem singles_wellBlocked (hpos : (events.map position).Nodup) : WellBlocked (events.map fun e => [e]) where
  nonempty := by simp
  positions := (flatten_map_singleton events).symm ▸ hpos

end

end Forgent
