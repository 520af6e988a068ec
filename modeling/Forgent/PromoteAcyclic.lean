import Forgent.Graph.Acyclic
import Forgent.HistoryBlocks

/-!
# When promotion keeps a history readable

The order contracts a promote and the branch events it takes into one node.  The events themselves never
depend on each other in a circle, but their blocks can: an event that has seen a branch event before it
was promoted stands behind the block, and the promote, when it has seen that event, stands behind the
event.  `order` then answers with a cycle (`order_ne_cycle_counterexample`).

The condition that excludes this is one on the promote alone (`Safe`): what the new block depends on must
not lead to an event that has seen one of the block.  When every promote of a run meets it, no clone
ever gets the cycle answer, whatever part of the events it holds (`order_ne_cycle`).  The argument: the
graph of the blocks of the whole history stays acyclic (`Promoted.snoc`), and the blocks of what a clone
holds are parts of those blocks (`headOf_block`).
-/

namespace Forgent

open FiniteGraph Relation List

/-! ### The graph of the blocks -/

/-- Some event of the block of `p` depends on one of the block of `q`. -/
def HeadEdge (l : List Envelope) (p q : Envelope) : Prop :=
  p ≠ q ∧ ∃ x ∈ l, ∃ y ∈ l, headOf l x = some p ∧ headOf l y = some q ∧ position y ∈ dependencies x

/-- The promote and the branch events that it is the first to name. -/
def NewBlock (l : List Envelope) (p x : Envelope) : Prop :=
  x = p ∨ x ∈ l ∧ Names p x ∧ headOf l x = none

/-- What the new block depends on does not lead, from block to block, to an event that has seen one of
the new block. -/
def Safe (l : List Envelope) (p : Envelope) : Prop :=
  ∀ x, NewBlock l p x → ∀ y ∈ l, position y ∈ dependencies x → ∀ q, headOf l y = some q →
    ∀ b, ReflTransGen (HeadEdge l) q b → ∀ z ∈ l, headOf l z = some b →
      ∀ m, NewBlock l p m → position m ∉ dependencies z

/-- What a run keeps true when its promotes meet the condition. -/
structure Promoted (c : Codec) (l : List Envelope) : Prop extends Recorded c l where
  acyclic : Acyclic (HeadEdge l)

section

variable {c : Codec} {l : List Envelope} {e x y p q : Envelope}

theorem headOf_snoc (h : headOf (l ++ [e]) x = some p) :
    headOf l x = some p ∨ (p = e ∧ headOf l x = none ∧ e.scope = .project ∧ Names e x) := by
  rw [headOf] at h
  rw [headOf]
  split at h
  · rename_i hx
    rw [if_pos hx]
    exact .inl h
  · rename_i hx
    rw [if_neg hx]
    rw [find?_append, Option.or_eq_some_iff] at h
    rcases h with h | ⟨hnone, h⟩
    · exact .inl h
    · rw [find?_singleton] at h
      split at h
      · rename_i hnames
        cases h
        rw [Bool.and_eq_true, decide_eq_true_eq, decide_eq_true_eq] at hnames
        exact .inr ⟨rfl, hnone, hnames⟩
      · cases h

theorem not_mem_dependencies_last (hl : History l) (he : Extends l e) (hx : x ∈ l ++ [e]) :
    position e ∉ dependencies x := by
  intro hdep
  have hmem : ∃ d ∈ l, position d = position e := by
    rcases mem_append.mp hx with hx | hx
    · obtain ⟨s, t, rfl⟩ := append_of_mem hx
      obtain ⟨d, hd, hp⟩ := hl.extends.dependency_mem hl.left hdep
      exact ⟨d, mem_append_left _ hd, hp⟩
    · rw [mem_singleton.mp hx] at hdep
      exact he.dependency_mem hl hdep
  obtain ⟨d, hd, hp⟩ := hmem
  exact he.position_ne hd hp

theorem newBlock_of_headOf (he : e ∉ l) (hx : x ∈ l ++ [e]) (h : headOf (l ++ [e]) x = some e) : NewBlock l e x := by
  rcases mem_append.mp hx with hx | hx
  · rcases headOf_snoc h with h | ⟨_, hnone, _, hnames⟩
    · exact absurd (headOf_mem hx h) he
    · exact .inr ⟨hx, hnames, hnone⟩
  · exact .inl (mem_singleton.mp hx)

theorem headOf_of_snoc_ne (h : Promoted c l) (he : Extends l e) (hx : x ∈ l ++ [e])
    (hp : headOf (l ++ [e]) x = some p) (hne : p ≠ e) : x ∈ l ∧ headOf l x = some p := by
  have hold : headOf l x = some p := by
    rcases headOf_snoc hp with h | ⟨h, _⟩
    · exact h
    · exact absurd h hne
  rcases mem_append.mp hx with hx | hx
  · exact ⟨hx, hold⟩
  · rw [mem_singleton] at hx
    subst hx
    rw [headOf] at hold
    split at hold
    · cases hold
      exact absurd rfl hne
    · have hmem := mem_of_find?_eq_some hold
      have hfound := find?_some hold
      rw [Bool.and_eq_true, decide_eq_true_eq, decide_eq_true_eq] at hfound
      exact absurd hfound.2 (h.toRecorded.not_names he hmem)

/-- **One step.**  A consumer event, or a promote that meets the condition, keeps the blocks acyclic. -/
theorem Promoted.acyclic_snoc (h : Promoted c l) (he : Extends l e)
    (hsafe : e.eventType = "store.promote" → Safe l e) : Acyclic (HeadEdge (l ++ [e])) := by
  have hel : e ∉ l := fun hmem => he.position_ne hmem rfl
  refine acyclic_insert e h.acyclic ?_ (fun hself => hself.1 rfl) ?_
  · rintro a b ha hb ⟨hab, x, hx, y, hy, hxa, hyb, hdep⟩
    obtain ⟨hx, hxa⟩ := headOf_of_snoc_ne h he hx hxa ha
    obtain ⟨hy, hyb⟩ := headOf_of_snoc_ne h he hy hyb hb
    exact ⟨hab, x, hx, y, hy, hxa, hyb, hdep⟩
  · rintro a b ⟨hea, x, hx, y, hy, hxe, hya, hdep⟩ hab ⟨hbe, z, hz, m, hm, hzb, hme, hdep'⟩
    obtain ⟨hy, hya⟩ := headOf_of_snoc_ne h he hy hya hea.symm
    obtain ⟨hzl, hzb⟩ := headOf_of_snoc_ne h he hz hzb hbe
    have hmb := newBlock_of_headOf hel hm hme
    rcases hmb with rfl | ⟨_, ⟨_, _, hclaim, _⟩, _⟩
    · exact not_mem_dependencies_last h.history he hz hdep'
    · have ht := eventType_of_promoteClaim hclaim
      exact hsafe ht x (newBlock_of_headOf hel hx hxe) y hy hdep a hya b hab z hzl hzb m
        (newBlock_of_headOf hel hm hme) hdep'

theorem Promoted.snoc (h : Promoted c l) (he : Extends l e) (hv : e.Valid c)
    (hprom : e.eventType = "store.promote" → e.scope = .project ∧ e.stream = "project" ∧
      ∃ stream n, promoteClaim e = some (stream, n) ∧ n ≤ high l (positionKey e.origin stream))
    (hsafe : e.eventType = "store.promote" → Safe l e) : Promoted c (l ++ [e]) :=
  ⟨h.toRecorded.snoc he hv hprom, h.acyclic_snoc he hsafe⟩

end

/-! ### Runs whose promotes meet the condition -/

variable {c : Codec}

theorem Promoted.append {l es : List Envelope} (h : Promoted c l)
    (hgrow : History (l ++ es)) (hes : ∀ e ∈ es, e.Valid c ∧ e.eventType ≠ "store.promote") :
    Promoted c (l ++ es) := by
  induction es generalizing l with
  | nil => simpa using h
  | cons e es ih =>
    obtain ⟨⟨hv, ht⟩, hes⟩ := forall_mem_cons.mp hes
    have hsplit : l ++ e :: es = l ++ [e] ++ es := by simp
    rw [hsplit]
    exact ih (h.snoc hgrow.extends hv (fun hp => absurd hp ht) fun hp => absurd hp ht)
      (hsplit ▸ hgrow) hes

theorem promoted_nil : Promoted c [] := by
  refine ⟨recorded_nil, fun a h => ?_⟩
  obtain ⟨b, ⟨_, x, hx, _⟩, _⟩ := TransGen.head'_iff.mp h
  cases hx

namespace Cluster

variable {ι : Type*} [DecidableEq ι] {c : Codec} {registry : Registry} {origin : ι → String} {s : Cluster ι}

/-- A promote that the step adds meets the condition. -/
def SafeStep (s t : Cluster ι) : Prop :=
  ∀ p, t.acks = s.acks ++ [p] → p.eventType = "store.promote" → Safe s.acks p

theorem Step.promoted {t : Cluster ι} (hs : s.Sound) (h : Promoted c s.acks)
    (hstep : Step c registry origin s t) (hsafe : SafeStep s t) : Promoted c t.acks := by
  cases hstep with
  | append i stream writer cursor inputs events hcursor hno happ =>
    exact h.append (hs.history_append hcursor happ) (appended_plain happ hno)
  | promote i req branch e hcursor hlast hprom =>
    have hgrow : History (s.acks ++ [e]) := hs.history_append hcursor (promoteEvents_eq_ok hprom).1
    obtain ⟨hv, hclaim⟩ := promoted_claim hprom hlast
    exact h.snoc hgrow.extends hv (fun _ => hclaim) fun ht => hsafe e rfl ht
  | fetch i j events _ => exact h

theorem Run.promoted (h : Run c registry origin SafeStep s) : s.Sound ∧ Promoted c s.acks := by
  induction h with
  | initial => exact ⟨sound_initial, promoted_nil⟩
  | step _ hstep hsafe ih => exact ⟨hstep.sound ih.1, hstep.promoted ih.1 ih.2 hsafe⟩

end Cluster

/-! ### No cycle -/

variable {err : Error} {events : List Envelope}

theorem checkPromote_error {e : Envelope} (h : checkPromote e = .error err) : err.code = .integrity := by
  have hensure : ∀ (ok : Bool) (detail : String) (f : Unit → Except Error (String × ℕ)),
      (ensure ok (invalid detail) >>= f) = .error err → (∀ u, f u = .error err → err.code = .integrity) →
        err.code = .integrity := by
    intro ok detail f hbind hf
    cases ok with
    | true => exact hf () hbind
    | false =>
      cases hbind
      rfl
  refine hensure _ _ _ h fun _ h => ?_
  cases hs : (e.payload.get "stream").asStr with
  | none =>
    rw [hs] at h
    cases h
    rfl
  | some stream =>
    rw [hs] at h
    refine hensure _ _ _ h fun _ h => ?_
    cases hn : (e.payload.get "throughSeq").asU64 with
    | none =>
      rw [hn] at h
      cases h
      rfl
    | some n =>
      rw [hn] at h
      by_cases hpos : 0 < n
      · simp only [if_pos hpos] at h
        refine hensure _ _ _ h fun _ h => ?_
        cases h
      · simp only [if_neg hpos] at h
        cases h
        rfl

theorem promoteBlocks_error {rest : List Envelope} {blocks : List (List Envelope)}
    (h : promoteBlocks events rest blocks = .error err) : err.code = .integrity := by
  induction rest generalizing blocks with
  | nil => cases h
  | cons e rest ih =>
    rw [promoteBlocks] at h
    split at h
    · cases hcheck : checkPromote e with
      | error err' =>
        rw [hcheck] at h
        cases h
        exact checkPromote_error hcheck
      | ok claim =>
        rw [hcheck] at h
        exact ih h
    · exact ih h

theorem contract_error {project : Bool} {r : SortResult}
    (h : contract events project r = .error err) : err.code = .integrity := by
  cases project with
  | false => cases h
  | true =>
    simp only [contract, if_true] at h
    cases hB : promoteBlocks events (r.emitted ++ r.held) [] with
    | error err' =>
      rw [hB] at h
      cases h
      exact promoteBlocks_error hB
    | ok B =>
      rw [hB] at h
      cases h

section

variable {c : Codec} {l D : List Envelope} {u : EventMap}

/-- The first event of a block stands for it. -/
def rankOfHead (rank : Envelope → ℕ) : List Envelope → ℕ
  | e :: _ => rank e
  | [] => 0

theorem preliminary_ok (h : History l) (hsub : ∀ e ∈ D, e ∈ l) (hu : Holds u {e | e ∈ D})
    {base : Positions} {project : Bool} :
    ∃ r, sortNodes (placedEvents u base project) (singles (placedEvents u base project)) base = .ok r := by
  refine sortNodes_ok_of_rank (singles_wellBlocked (placedEvents_nodup_position hu))
    (rankOfHead (l.idxOf ·)) fun b hb b' hdep => ?_
  obtain ⟨e, he, rfl⟩ := List.mem_map.mp hb
  obtain ⟨d, hd, rfl, _, hde, _⟩ := dependsOn_singles.mp hdep
  exact h.dependency_before (hsub d (placedEvents_subset hu d hd)) (hsub e (placedEvents_subset hu e he)) hde

theorem blocks_ok (h : Promoted c l) (hsub : ∀ e ∈ D, e ∈ l) (hu : Holds u {e | e ∈ D})
    (hcont : Contiguous D) {r : SortResult}
    (hr : sortNodes (placedEvents u ∅ true) (singles (placedEvents u ∅ true)) ∅ = .ok r)
    {blocks : List (List Envelope)} (hblocks : contract (placedEvents u ∅ true) true r = .ok blocks) :
    ∃ r', sortNodes (placedEvents u ∅ true) blocks ∅ = .ok r' := by
  have hpos : ((placedEvents u ∅ true).map position).Nodup := placedEvents_nodup_position hu
  have hvE : AllValid c (placedEvents u ∅ true) := placedEvents_valid hu (h.valid.mono hsub)
  have hc := contract_isContraction hvE (List.Nodup.of_map _ hpos) (preliminary_perm hu hr) hblocks
  have hwell := hc.wellBlocked hpos
  obtain ⟨rank, hrank⟩ := exists_rank h.acyclic (s := {e | e ∈ l}) l.finite_toSet
  have hmem : ∀ b ∈ blocks, ∀ x ∈ b, x ∈ l := fun b hb x hx =>
    hsub x (placedEvents_subset hu x ((hc.mem x).mp (mem_flatten.mpr ⟨b, hb, hx⟩)).1)
  refine sortNodes_ok_of_rank hwell (rankOfHead rank) fun b hb b' hdep => ?_
  obtain ⟨hb', hne, p, hp, y, hy, hyp⟩ := hdep
  obtain ⟨x, hx, hxp⟩ := mem_flatMap.mp (mem_filter.mp hp).1
  obtain ⟨e, ms, rfl, _⟩ := hc.shape b hb
  obtain ⟨e', ms', rfl, _⟩ := hc.shape b' hb'
  refine hrank e (hmem _ hb e (by simp)) e' (hmem _ hb' e' (by simp)) ⟨?_, x, hmem _ hb x hx, y,
    hmem _ hb' y hy, headOf_block h.toRecorded hsub hu hcont hr hblocks hb hx,
    headOf_block h.toRecorded hsub hu hcont hr hblocks hb' hy, hyp ▸ hxp⟩
  intro heq
  exact hne (hwell.block_unique hb' hb (e := e') (by simp) (by simp [heq]))

end

/-- **A readable history stays readable**, in every run whose promotes all meet the condition: whatever
gap-free part of its events a clone orders in project mode, the answer is never a cycle. -/
theorem order_ne_cycle {ι : Type*} [DecidableEq ι] {c : Codec} {registry : Registry}
    {origin : ι → String} {s : Cluster ι} (hrun : Cluster.Run c registry origin Cluster.SafeStep s) (i : ι)
    {D : List Envelope} (hD : ∀ e ∈ D, e ∈ s.disk i) (hcont : Contiguous D)
    (hcol : c.CollisionFree D) (detail : String) : order c D ∅ true ≠ .error ⟨.orderCycle, detail⟩ := by
  obtain ⟨hsound, hprom⟩ := hrun.promoted
  have hsub : ∀ e ∈ D, e ∈ s.acks := fun e he => hsound.held i e (hD e he)
  have hno : NoSeqConflict {e | e ∈ D} := fun a ha b hb hp =>
    congrArg Envelope.h (hprom.history.event_unique (hsub a ha) (hsub b hb) hp)
  obtain ⟨u, hcollect⟩ := collect_input_ok hcol none (hprom.valid.mono hsub) hno
  have hu := ((collect_input_eq_ok_iff hcol none u).mp hcollect).2.2
  obtain ⟨r, hr⟩ : ∃ r, sortNodes (placedEvents u ∅ true) (singles (placedEvents u ∅ true)) ∅ = .ok r :=
    preliminary_ok hprom.history hsub hu
  rw [order, orderRetained, hcollect]
  show orderUnique u ∅ true ≠ _
  cases hblocks : contract (placedEvents u ∅ true) true r with
  | error err =>
    have hcode := contract_error hblocks
    rw [orderUnique, hr]
    show (contract (placedEvents u ∅ true) true r >>= _) ≠ _
    rw [hblocks]
    rintro ⟨⟩
    cases hcode
  | ok blocks =>
    obtain ⟨r', hr'⟩ := blocks_ok hprom hsub hu hcont hr hblocks
    rw [orderUnique_eq_ok_iff.mpr ⟨r, blocks, r', hr, hblocks, hr', rfl⟩]
    rintro ⟨⟩

/-! ### Two small histories -/

namespace PromoteHistory

open Envelope SmallHistory Cluster

def registry : Registry := fun eventType =>
  if eventType = "note.add" then some ⟨.branch, 1⟩
  else if eventType = "work.add" then some ⟨.project, 1⟩
  else Registry.initial eventType

def branchStream : StreamId := ⟨"branch:x", by decide⟩

def input (eventType : String) : EventInput where
  eventType := eventType
  schemaVersion := 1
  payload := .null
  ts := "2026-01-01T00:00:00.000Z"

def request : PromoteRequest where
  branch := branchStream
  throughSeq := 1
  writer := "agent"
  ts := "2026-01-01T00:00:00.000Z"
  cursor := ∅

def note : Envelope :=
  sample 'a' "branch:x" 1 [] "note.add" .null
    "346194c211e60f014c9eab293e9f5f8bf6857300842b22418f76c022e32bb39b"

def plain : Envelope :=
  sample 'a' "project" 1 [] "work.add" .null
    "6e9e22e8ddfab9194b51817cad3598bfc61e6ebee4100a7fe7571e2c613f0faf"

def follower : Envelope :=
  sample 'a' "project" 1 [(keyOf 'a' "branch:x", 1)] "work.add" .null
    "988e68da1ad61402e3386c22cd47019be8dc22d4a67b01620fb8d4bd02087767"

def promotion : Envelope :=
  sample 'a' "project" 2 [] "store.promote" (promotePayload "branch:x" 1 tip)
    "c30ab4c2d0eb61ef22743b31c6c5194e14c1584dc30564a5c620439638028fe1"

theorem appends :
    appendEvents .integral registry (store 'a') branchStream "agent" ∅ 0 [input "note.add"] = .ok [note] ∧
    appendEvents .integral registry (store 'a') projectStream "agent" ∅ 0 [input "work.add"] = .ok [plain] ∧
    appendEvents .integral registry (store 'a') projectStream "agent" (.ofList [(keyOf 'a' "branch:x", 1)]) 0
      [input "work.add"] = .ok [follower] ∧
    promoteEvents .integral registry (store 'a') request ⟨1, tip⟩ 1 = .ok [promotion] :=
  ⟨by decide +kernel, by decide +kernel, by decide +kernel, by decide +kernel⟩

/-- What one clone has when it has appended these events and nothing else. -/
def holding (events : List Envelope) : Cluster Unit where
  acks := events
  disk := fun _ => {e | e ∈ events}

theorem acked_holding (events more : List Envelope) : (holding events).acked () more = holding (events ++ more) := by
  rw [acked, holding, holding]
  congr 1
  funext i
  ext e
  simp

theorem initial_eq : (initial : Cluster Unit) = holding [] := by
  rw [initial, holding]
  congr 1
  funext i
  ext e
  simp

/-- The note, a project event with the given cursor, and the promote. -/
theorem run_promotion {admitted : Cluster Unit → Cluster Unit → Prop} {cursor : Positions}
    {event : Envelope} (hcursor : CursorOn cursor {e | e ∈ [note]})
    (hkey : streamKey event = keyOf 'a' "project") (hseq : event.seq = 1)
    (happ : appendEvents .integral registry (store 'a') projectStream "agent" cursor 0
      [input "work.add"] = .ok [event])
    (h₁ : admitted (holding []) (holding [note])) (h₂ : admitted (holding [note]) (holding [note, event]))
    (h₃ : admitted (holding [note, event]) (holding [note, event, promotion])) :
    Run .integral registry (fun _ => store 'a') admitted (holding [note, event, promotion]) := by
  have hempty : ∀ disk, CursorOn ∅ disk := fun disk k n hk => by simp at hk
  have hhigh : high [note, event] (keyOf 'a' "project") = 1 := by
    rw [show [note, event] = [note] ++ [event] from rfl, high_append, high_singleton, high_singleton,
      if_pos hkey, hseq]
    decide
  have hbranch : 1 ≤ high [note, event] (positionKey (store 'a') branchStream.value) := by
    rw [show [note, event] = [note] ++ [event] from rfl, high_append, high_singleton]
    exact le_max_of_le_left (by decide)
  have r₁ : Run .integral registry (fun _ => store 'a') admitted (holding [note]) :=
    .step (initial_eq ▸ .initial) (acked_holding [] [note] ▸ .append () branchStream "agent" ∅
      [input "note.add"] [note] (hempty _) (by decide) appends.1) h₁
  have hzero : high [note] (positionKey (store 'a') projectStream.value) = 0 := by decide
  have r₂ : Run .integral registry (fun _ => store 'a') admitted (holding [note, event]) :=
    .step r₁ (acked_holding [note] [event] ▸ .append () projectStream "agent" cursor [input "work.add"]
      [event] hcursor (by decide) (by rw [show (holding [note]).acks = [note] from rfl, hzero]; exact happ)) h₂
  exact .step r₂ (acked_holding [note, event] [promotion] ▸ .promote () request ⟨1, tip⟩ promotion
    (hempty _) hbranch (by
      show promoteEvents .integral registry (store 'a') request ⟨1, tip⟩ (high [note, event] (keyOf 'a' "project")) = _
      rw [hhigh]
      exact appends.2.2.2)) h₃

theorem valid : AllValid .integral [note, plain, follower, promotion] := by
  obtain ⟨hnote, hplain, hfollower, hpromotion⟩ := appends
  simp [AllValid, valid_of_append hnote, valid_of_append hplain, valid_of_append hfollower,
    valid_of_append (promoteEvents_eq_ok hpromotion).1]

end PromoteHistory

open PromoteHistory in
theorem order_ne_cycle_plain : order .integral [note, plain, promotion] ∅ true ≠
      .error ⟨.orderCycle, "causal graph contains a cycle"⟩ := by
  have hv : AllValid .integral [note, plain, promotion] := fun e he => valid e (by grind)
  have hrun : Cluster.Run .integral registry (fun _ => Envelope.store 'a') Cluster.SafeStep
      (holding [note, plain, promotion]) := by
    have hconsumer : ∀ (l : List Envelope) (e : Envelope), e.eventType ≠ "store.promote" →
        Cluster.SafeStep (holding l) (holding (l ++ [e])) := by
      intro l e ht p hp hpt
      have := append_inj_right' (show l ++ [e] = l ++ [p] from hp) rfl
      rw [← singleton_inj.mp this] at hpt
      exact absurd hpt ht
    refine run_promotion (cursorOn_of_toList (by simp)) (by decide) rfl appends.2.1
      (hconsumer [] note (by decide)) (hconsumer [note] plain (by decide)) ?_
    intro p _ _ x _ y _ _ q _ b _ z hz _ m _ hdep
    have hno : ∀ z ∈ [note, plain], dependencies z = [] := by decide
    rw [hno z hz] at hdep
    cases hdep
  exact order_ne_cycle hrun () (fun e he => he) (by decide)
    (.of_nodup hv (by decide)) _

open PromoteHistory in
/-- A project event that has seen a branch event, and then the promote of that event in the same store:
the clone that wrote them can no longer read its history. -/
theorem order_ne_cycle_counterexample :
    Cluster.Run .integral registry (fun _ : Unit => Envelope.store 'a') (fun _ _ => True)
      (holding [note, follower, promotion]) ∧
    Contiguous [note, follower, promotion] ∧ Codec.integral.CollisionFree [note, follower, promotion] ∧
    order .integral [note, follower, promotion] ∅ true = .error ⟨.orderCycle, "causal graph contains a cycle"⟩ := by
  have hv : AllValid .integral [note, follower, promotion] := fun e he => valid e (by grind)
  refine ⟨?_, by decide, .of_nodup hv (by decide), ?_⟩
  · have hseen : ∀ p ∈ (Std.ExtTreeMap.ofList [(SmallHistory.keyOf 'a' "branch:x", 1)] : Positions).toList,
        ∃ d ∈ [note], position d = p := by decide
    exact run_promotion (cursorOn_of_toList hseen) (by decide) rfl appends.2.2.1 trivial
      trivial trivial
  · rw [order_of_nodup hv (by decide)]
    decide

end Forgent
