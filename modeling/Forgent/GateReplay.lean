import Forgent.ReplayLocal

/-!
# A merged history folds

Every event that goes through the gate records what its writer relied on, and its `seen` says how far its
writer had folded every stream.  When such an event is folded at its place in a merged order, either
everything before it had been seen: then that is what its writer folded, in the same sequence, and the
precondition holds again; or something before it had not been seen: then a precondition that fails is
recorded as a conflict, and the event is skipped.  So no read stops at a precondition
(`merged_history_folds`).

What had not been seen is about the same item, unless a precondition asks for capacity: a capacity counts
the other items too.
-/

namespace Forgent

open Json List Std.ExtTreeMap Option

section

variable {ι : Type*} {σ : Setting ι} {l w : List Envelope} {e : Envelope} {own : String}

/-- Every event of the batch that carries a precondition was decided on a view, behind the batch's earlier
events, and its precondition held there. -/
def Call.Held (σ : Setting ι) (call : Call) : Prop :=
  ∀ p e rest, call.events = p ++ e :: rest → truthy (conditionOf (.ofEnvelope e)) = true →
    ∃ view, foldEvents σ.host (p.map LogEvent.ofEnvelope) call.tx.view = .ok view ∧
      failure σ.host view (itemOf σ.host (.ofEnvelope e)) (conditionOf (.ofEnvelope e)) = none

/-- Beside the gate no event with a precondition is written. -/
def Cluster.Unguarded (s t : Cluster ι) : Prop :=
  ∀ e ∈ t.acks, e ∈ s.acks ∨ truthy (conditionOf (.ofEnvelope e)) = false

/-- The event was decided on the fold of what it has seen, and its precondition held there. -/
structure DecidedOn (σ : Setting ι) (l : List Envelope) (e : Envelope) (own : String) (w : List Envelope)
    (view : View) : Prop where
  basis : Basis σ.codec l own w
  scope : e.scope = .project
  next : Next own w e
  fold : foldOrder σ.host σ.legacy w = .ok view
  holds : failure σ.host view (itemOf σ.host (.ofEnvelope e)) (conditionOf (.ofEnvelope e)) = none

theorem DecidedOn.mono
    {view : View} (h : DecidedOn σ l e own w view) (t : List Envelope) : DecidedOn σ (l ++ t) e own w view :=
  { h with basis := h.basis.mono t }

/-- Some event of `p` is of another stream, and the writer of `e` had not seen it. -/
def Unseen (e d : Envelope) : Prop := streamKey d ≠ streamKey e ∧ e.seen.at (streamKey d) < d.seq

instance (e d : Envelope) : Decidable (Unseen e d) :=
  inferInstanceAs (Decidable (streamKey d ≠ streamKey e ∧ e.seen.at (streamKey d) < d.seq))

/-- An event of `p` had not been seen by the writer of `e`, and, as long as no event about the item of `e`
asks for capacity, one about that item. -/
structure Overtaken (host : Host) (p : List Envelope) (e : Envelope) : Prop where
  unseen : ∃ d ∈ p, Unseen e d
  item : (∀ d ∈ p ++ [e], itemOf host (.ofEnvelope d) = itemOf host (.ofEnvelope e) →
    asksCapacity (.ofEnvelope d) = false) →
      ∃ d ∈ p, Unseen e d ∧ itemOf host (.ofEnvelope d) = itemOf host (.ofEnvelope e)

/-- The view behind an event that was skipped: it is registered, and its conflict recorded. -/
def skipped (view : View) (e : Envelope) (conflict : Conflict) : View :=
  { registerHead view (.ofEnvelope e) with conflicts := view.conflicts ++ [conflict] }

/-! ### Runs -/

theorem Follow.left {p s : List Envelope} (h : Follow own w (p ++ s)) : Follow own w p :=
  fun q e t hq => h q e (t ++ s) (by rw [hq]; simp)

theorem Call.Folds.decided {i : ι} {call : Call} {r : Ordered}
    (h : call.Folds σ l i r) (hheld : call.Held σ) (he : e ∈ call.events)
    (hcond : truthy (conditionOf (.ofEnvelope e)) = true) :
    ∃ own w view, DecidedOn σ (l ++ call.events) e own w view := by
  obtain ⟨p, rest, hps⟩ := append_of_mem he
  obtain ⟨view, hview, hholds⟩ := hheld p e rest hps hcond
  have hfollow : Follow (σ.own i) (r.events ++ call.tail) p := Follow.left (hps ▸ h.events)
  have hmem : ∀ x ∈ p, x ∈ l ++ call.events ∧ x.scope = .project := fun x hx => by
    have hxe : x ∈ call.events := hps ▸ mem_append_left _ hx
    exact ⟨mem_append_right _ hxe, (h.plain x hxe).1⟩
  exact ⟨σ.own i, r.events ++ call.tail ++ p, view, hfollow.basis (h.tx.basis.mono _) hmem,
    (h.plain e he).1, h.events p e rest hps, foldOrder_append_eq_ok.mpr ⟨call.tx.view, h.tx.fold, hview⟩, hholds⟩

variable [DecidableEq ι]

/-- **Every run**: an event with a precondition was decided on what it has seen. -/
theorem Gated.Run.decided {s : Gated ι}
    (h : Gated.Run σ (Call.Held σ) Cluster.Unguarded s) (hcol : σ.codec.CollisionFree s.store.acks) :
    ∀ e ∈ s.store.acks, truthy (conditionOf (.ofEnvelope e)) = true →
      ∃ own w view, DecidedOn σ s.store.acks e own w view := by
  induction h with
  | initial => exact nofun
  | @call s i call hrun hcall hheld ih =>
    have hcol' : σ.codec.CollisionFree s.store.acks := hcol.mono fun e he => mem_append_left _ he
    obtain ⟨r, hr⟩ := (hrun.sound hcol').folds hcol' hcall
    intro e he hcond
    rcases mem_append.mp he with he | he
    · obtain ⟨own, w, view, hd⟩ := ih hcol' e he hcond
      exact ⟨own, w, view, hd.mono call.events⟩
    · exact hr.decided hheld he hcond
  | @store s t _ hstep hplain ih =>
    obtain ⟨events, hacks⟩ := hstep.acks_append
    have hcol' : σ.codec.CollisionFree s.store.acks := hcol.mono fun e he => by
      show e ∈ t.acks
      rw [hacks]
      exact mem_append_left _ he
    intro e he hcond
    rcases hplain e he with he | hno
    · obtain ⟨own, w, view, hd⟩ := ih hcol' e he hcond
      refine ⟨own, w, view, ?_⟩
      show DecidedOn σ t.acks e own w view
      rw [hacks]
      exact hd.mono events
    · rw [hno] at hcond
      cases hcond

end

/-! ### Unseen events -/

section

variable {view : View} {p : List Envelope} {e : Envelope}

theorem unseenEarlier_iff (hheads : view.streamHeads = coverOf p) :
    unseenEarlier view (.ofEnvelope e) = true ↔ ∃ d ∈ p, Unseen e d := by
  simp only [unseenEarlier, LogEvent.ofEnvelope, map_some, getD_some, List.any_eq_true,
    Bool.and_eq_true, decide_eq_true_eq, ne_eq, some.injEq, hheads]
  constructor
  · rintro ⟨⟨k, n⟩, hmem, hk, hlt⟩
    have hlt : e.seen.at k < n := of_decide_eq_true hlt
    have hat : high p k = n := by
      rw [← coverOf_at, Positions.at, getD_eq_getD_getElem?, mem_toList_iff_getElem?_eq_some.mp hmem]
      rfl
    obtain ⟨d, hd, hp⟩ := exists_high (w := p) (k := k) (by omega)
    have hp' := Prod.ext_iff.mp hp
    have hdk : streamKey d = k := hp'.1
    have hdn : d.seq = high p k := hp'.2
    refine ⟨d, hd, fun heq => hk (hdk.symm.trans heq), ?_⟩
    rw [hdk]
    omega
  · rintro ⟨d, hd, hk, hlt⟩
    have hle := seq_le_high hd
    have hcover := coverOf_at p (streamKey d)
    rw [Positions.at, getD_eq_getD_getElem?] at hcover
    cases hget : (coverOf p)[streamKey d]? with
    | none =>
      rw [hget] at hcover
      have hzero : high p (streamKey d) = 0 := hcover.symm
      omega
    | some n =>
      rw [hget] at hcover
      have hn : n = high p (streamKey d) := hcover
      have hlt' : e.seen.at (streamKey d) < n := by omega
      exact ⟨(streamKey d, n), mem_toList_iff_getElem?_eq_some.mpr hget, hk,
        decide_eq_true hlt'⟩

end

/-! ### An event at its place in an order -/

section

variable {ι : Type*} {σ : Setting ι} {l : List Envelope} {r : Ordered} {bs : List (List Envelope)}
  {e : Envelope} {own : String} {w p rest : List Envelope} {view before : View}

section

variable (h : DecidedOn σ l e own w before)

include h

theorem DecidedOn.holds_again (hl : Recorded σ.codec l)
    (hr : Emits l r bs) (he : e ∈ l) (hps : r.events = p ++ e :: rest)
    (hview : foldOrder σ.host σ.legacy p = .ok view) (hseen : ∀ d ∈ p, ¬ Unseen e d) :
    failure σ.host view (itemOf σ.host (.ofEnvelope e)) (conditionOf (.ofEnvelope e)) = none := by
  have hpw : p = w := h.basis.eq_prefix hl hr he h.scope h.next hps fun d hd hk => by
    by_contra hlt
    exact hseen d hd ⟨h.next.stream ▸ hk, by omega⟩
  rw [hpw, h.fold] at hview
  cases hview
  exact h.holds

theorem DecidedOn.same_item (hl : Recorded σ.codec l)
    (hr : Emits l r bs) (he : e ∈ l) (hps : r.events = p ++ e :: rest)
    (hview : foldOrder σ.host σ.legacy p = .ok view) {id : String}
    (hcap : ∀ d ∈ p, itemOf σ.host (.ofEnvelope d) = id → asksCapacity (.ofEnvelope d) = false)
    (hseen : ∀ d ∈ p, itemOf σ.host (.ofEnvelope d) = id → ¬ Unseen e d) : view.work[id]? = before.work[id]? := by
  obtain ⟨hsub, hfilter⟩ := h.basis.filter_prefix hl hr he h.scope h.next hps
  have hmem : ∀ d ∈ p, itemOf σ.host (.ofEnvelope d) = id → d ∈ w := fun d hd hid =>
    h.basis.mem_of_seen hl hr he h.scope h.next hps hd fun hk => by
      by_contra hlt
      exact hseen d hd hid ⟨h.next.stream ▸ hk, by omega⟩
  have hsame : p.filter (fun d => itemOf σ.host (.ofEnvelope d) = id) =
      w.filter fun d => itemOf σ.host (.ofEnvelope d) = id := by
    conv_rhs => rw [← hfilter]
    rw [List.filter_filter]
    refine filter_congr fun d hd => ?_
    by_cases hid : itemOf σ.host (.ofEnvelope d) = id
    · simp [hid, hmem d hd hid]
    · simp [hid]
  obtain ⟨start, hstart, hfoldp⟩ := (foldEvents_append_eq_ok σ.host).mp hview
  obtain ⟨start', hstart', hfoldw⟩ := (foldEvents_append_eq_ok σ.host).mp h.fold
  rw [hstart] at hstart'
  cases hstart'
  rw [foldEvents_item hcap hfoldp, foldEvents_item (fun d hd => hcap d (hsub d hd)) hfoldw, hsame]

theorem DecidedOn.overtaken (hl : Recorded σ.codec l)
    (hr : Emits l r bs) (he : e ∈ l) (hps : r.events = p ++ e :: rest)
    (hview : foldOrder σ.host σ.legacy p = .ok view)
    (hfail : failure σ.host view (itemOf σ.host (.ofEnvelope e)) (conditionOf (.ofEnvelope e)) ≠ none) :
    Overtaken σ.host p e := by
  constructor
  · by_contra hnone
    push Not at hnone
    exact hfail (h.holds_again hl hr he hps hview hnone)
  · intro hcap
    by_contra hnone
    push Not at hnone
    have hitem := h.same_item hl hr he hps hview
      (fun d hdp hid => hcap d (mem_append_left _ hdp) hid) fun d hdp hid hun => hnone d hdp hun hid
    have hcape : truthy (member (conditionOf (.ofEnvelope e)) "capacity") = false := hcap e (by simp) rfl
    have hholds := h.holds
    rw [failure_eq_itemFailure hcape] at hfail hholds
    rw [hitem] at hfail
    exact hfail hholds

end

theorem foldEvent_conflict {host : Host} {reason : Reason} (hcond : truthy (conditionOf (.ofEnvelope e)) = true)
    (hfail : failure host view (itemOf host (.ofEnvelope e)) (conditionOf (.ofEnvelope e)) = some reason)
    (hunseen : unseenEarlier view (.ofEnvelope e) = true) :
    ∃ conflict : Conflict, conflict.h = e.h ∧ conflict.reason = reason ∧
      foldEvent host view (.ofEnvelope e) = .ok (skipped view e conflict) := by
  have hfail' : failure host (registerHead view (.ofEnvelope e)) (itemOf host (.ofEnvelope e))
      (conditionOf (.ofEnvelope e)) = some reason := failure_registerHead.trans hfail
  let source : Source :=
    { origin := e.origin, stream := e.stream, seq := e.seq, seen := e.seen, h := e.h }
  let against := conflictHead (registerHead view (.ofEnvelope e)) source (itemOf host (.ofEnvelope e))
    (conditionOf (.ofEnvelope e)) reason
  refine ⟨⟨e.h, member (some e.payload) "id", e.origin, reason, against.map Head.h⟩, rfl, rfl, ?_⟩
  rw [conditionOf] at hcond
  rw [conditionOf, itemOf] at hfail'
  simp only [foldEvent, hcond, hfail', hunseen, if_true]
  rfl

end

/-! ### Every read -/

variable {legacy : List LogEvent}

theorem readWorkState_error {c : Codec} {host : Host} {union : List Envelope}
    {cached : Option Candidate} {err : FoldError}
    (h : readWorkState c host legacy union cached = .error (.fold err)) :
    ∃ r, foldHistory c union ["project"] true none = .ok r ∧ foldOrder host legacy r.events = .error err := by
  rw [readWorkState] at h
  cases hr : foldHistory c union ["project"] true none with
  | error err' =>
    rw [hr] at h
    cases h
  | ok r =>
    rw [hr] at h
    refine ⟨r, rfl, ?_⟩
    dsimp only [Except.mapError, bind, Except.bind] at h
    split at h
    · cases h
    · cases hfold : foldOrder host legacy r.events with
      | ok view =>
        rw [hfold] at h
        cases h
      | error err' =>
        rw [hfold] at h
        cases h
        rfl

theorem split_of_source (hlegacy : ∀ event ∈ legacy, event.source = none)
    {events : List Envelope} {p rest : List LogEvent} {event : LogEvent}
    (h : legacy ++ events.map LogEvent.ofEnvelope = p ++ event :: rest) (hsource : event.source ≠ none) :
    ∃ q e rest', events = q ++ e :: rest' ∧ p = legacy ++ q.map LogEvent.ofEnvelope ∧ event = .ofEnvelope e := by
  rcases append_eq_append_iff.mp h with ⟨a, rfl, ha⟩ | ⟨a, rfl, ha⟩
  · obtain ⟨q, s, rfl, rfl, hs⟩ := map_eq_append_iff.mp ha
    obtain ⟨e, rest', rfl, rfl, rfl⟩ := map_eq_cons_iff.mp hs
    exact ⟨q, e, rest', rfl, rfl, rfl⟩
  · cases a with
    | nil =>
      rw [nil_append] at ha
      obtain ⟨e, rest', rfl, rfl, rfl⟩ := map_eq_cons_iff.mp ha.symm
      exact ⟨[], e, rest', rfl, by simp, rfl⟩
    | cons x a =>
      have hx : event = x := (List.cons.inj ha).1
      exact absurd (hlegacy event (by simp [hx])) hsource

section

variable {ι : Type*} [DecidableEq ι] {σ : Setting ι} {s : Gated ι}

theorem Gated.Run.overtaken (hrun : Gated.Run σ (Call.Held σ) Cluster.Unguarded s)
    (hcol : σ.codec.CollisionFree s.store.acks) {i : ι} {union : List Envelope}
    (hunion : ∀ e ∈ union, e ∈ s.store.disk i) {r : Ordered}
    (hr : foldHistory σ.codec union ["project"] true none = .ok r) {p rest : List Envelope} {e : Envelope}
    {view : View} (hps : r.events = p ++ e :: rest) (hview : foldOrder σ.host σ.legacy p = .ok view)
    (hcond : truthy (conditionOf (.ofEnvelope e)) = true)
    (hfail : failure σ.host view (itemOf σ.host (.ofEnvelope e)) (conditionOf (.ofEnvelope e)) ≠ none) :
    Overtaken σ.host p e := by
  have hs := hrun.sound hcol
  have hread := foldHistory_reading (fun e he => hs.store.held i e (hunion e he)) hr
  obtain ⟨bs, hbs⟩ := hread.emits hs.recorded (hcol.mono hread.subset)
  have he : e ∈ s.store.acks := hbs.subset e (by rw [hps]; simp)
  obtain ⟨own, w, before, hd⟩ := hrun.decided hcol e he hcond
  exact hd.overtaken hs.recorded hbs he hps hview hfail

/-- **A merged history folds.**  Whatever part of its disk a clone reads, a precondition never stops the
fold; an event whose precondition fails at its place was overtaken, is recorded as a conflict and changes
nothing else. -/
theorem merged_history_folds (hrun : Gated.Run σ (Call.Held σ) Cluster.Unguarded s)
    (hcol : σ.codec.CollisionFree s.store.acks) (i : ι) {union : List Envelope}
    (hunion : ∀ e ∈ union, e ∈ s.store.disk i) :
    (∀ cached, readWorkState σ.codec σ.host σ.legacy union cached ≠ .error (.fold .precondition)) ∧
    ∀ r, foldHistory σ.codec union ["project"] true none = .ok r → ∀ p e rest view reason,
      r.events = p ++ e :: rest → foldOrder σ.host σ.legacy p = .ok view →
      truthy (conditionOf (.ofEnvelope e)) = true →
      failure σ.host view (itemOf σ.host (.ofEnvelope e)) (conditionOf (.ofEnvelope e)) = some reason →
        Overtaken σ.host p e ∧ ∃ conflict : Conflict, conflict.h = e.h ∧ conflict.reason = reason ∧
          foldEvent σ.host view (.ofEnvelope e) = .ok (skipped view e conflict) := by
  refine ⟨fun cached hread => ?_, fun r hr p e rest view reason hps hview hcond hfail => ?_⟩
  · -- a read that stops there stops at an event whose writer had seen everything before it
    obtain ⟨r, hr, hfold⟩ := readWorkState_error hread
    obtain ⟨p, event, rest, middle, hps, hmiddle, hstop⟩ := foldEvents_error hfold
    obtain ⟨hsource, hcond, hfail, hunseen⟩ := foldEvent_precondition hstop
    obtain ⟨q, e, rest', hq, rfl, rfl⟩ := split_of_source σ.legacy_source hps hsource
    rw [Bool.eq_false_iff, ne_eq, unseenEarlier_iff (foldOrder_streamHeads σ.legacy_source hmiddle)] at hunseen
    exact hunseen (hrun.overtaken hcol hunion hr hq hmiddle hcond hfail).unseen
  · have hover := hrun.overtaken hcol hunion hr hps hview hcond (by simp [hfail])
    exact ⟨hover, foldEvent_conflict hcond hfail
      ((unseenEarlier_iff (foldOrder_streamHeads σ.legacy_source hview)).mpr hover.unseen)⟩

end

namespace GateHistory

open Envelope

theorem fold_here : foldOrder host [] [here] = .ok (folded [here]) :=
  foldOrder_folded (by decide)

theorem failure_there : failure host (folded [here]) (itemOf host (.ofEnvelope there)) (conditionOf (.ofEnvelope there)) =
    some .capacity := by decide

theorem held_of_singleton {input : TxEvent} {event : Envelope}
    (h : failure host .empty (itemOf host (.ofEnvelope event)) (conditionOf (.ofEnvelope event)) = none) :
    (call input event).Held setting := by
  intro p e rest hps _
  cases p with
  | nil =>
    obtain ⟨rfl, rfl⟩ : event = e ∧ [] = rest := List.cons.inj hps
    exact ⟨.empty, rfl, h⟩
  | cons x p =>
    have htail : [] = p ++ e :: rest := (List.cons.inj hps).2
    simp at htail

theorem run_held : Gated.Run setting (Call.Held setting) Cluster.Unguarded merged :=
  run_merged (held_of_singleton (by decide)) (held_of_singleton (by decide))
    fun s t hacks e he => .inl (hacks ▸ he)

end GateHistory

open GateHistory in
/-- Two clones each added an item while no other was being worked on: the later one is skipped. -/
theorem merged_history_folds_capacity :
    (∀ cached, readWorkState .integral host [] [there, here] cached ≠ .error (.fold .precondition)) ∧
    Overtaken host [here] there ∧ ∃ conflict : Conflict, conflict.h = there.h ∧ conflict.reason = .capacity ∧
      foldEvent host (folded [here]) (.ofEnvelope there) = .ok (skipped (folded [here]) there conflict) := by
  obtain ⟨hread, hskip⟩ := merged_history_folds run_held collisionFree true fun e he => (disk_merged e).mpr he
  exact ⟨hread, hskip ordered fold_merged [here] there [] (folded [here]) .capacity rfl fold_here (by decide)
    failure_there⟩

open GateHistory in
/-- What it had not seen is an event about another item. -/
theorem merged_history_folds_counterexample :
    Gated.Run setting (Call.Held setting) Cluster.Unguarded merged ∧ Codec.integral.CollisionFree merged.store.acks ∧
    (∀ e, e ∈ merged.store.disk true ↔ e ∈ [there, here]) ∧
    foldHistory .integral [there, here] ["project"] true none = .ok ordered ∧ ordered.events = [here, there] ∧
    foldOrder host [] [here] = .ok (folded [here]) ∧
    failure host (folded [here]) (itemOf host (.ofEnvelope there)) (conditionOf (.ofEnvelope there)) =
      some .capacity ∧ ∀ d ∈ [here], itemOf host (.ofEnvelope d) ≠ itemOf host (.ofEnvelope there) :=
  ⟨run_held, collisionFree, disk_merged, fold_merged, rfl, fold_here, failure_there, by decide⟩

end Forgent
