import Forgent.GateFold
import Forgent.OrderEmitted

/-!
# What an order reports as concurrent

Two emitted events are reported when neither names the other.  Under covers that are full, naming is seeing: what an
event saw through others it names itself, so the pairs reported are those of different streams where neither saw the
other, over any number of events between them.

* `mem_concurrentPairs`: the pairs are those of which neither names the other, in the order they stand.
* `Emitted.names_of_saw` and `Emitted.saw_of_names`: naming and seeing agree.
* `concurrent_iff`: what the report says.
-/

namespace Forgent

open FiniteGraph Relation List Std.ExtTreeMap

variable {c : Codec} {input : List Envelope} {base : Positions} {project : Bool} {r : Ordered} {a b e : Envelope}
  {q : String × String} {l : List Envelope} {d : Envelope} {prior : EventMap} {done : List Envelope}

/-! ### Seeing -/

/-- An event sees what it names, and what that sees. -/
def Saw (input : List Envelope) : Envelope → Envelope → Prop :=
  TransGen fun e d => d ∈ input ∧ position d ∈ dependencies e

/-- Every event names at least what the events that it names have named, the one before it in its stream included. -/
def FullCovers (input : List Envelope) : Prop :=
  ∀ e ∈ input, ∀ d ∈ input, position d ∈ dependencies e → ∀ k ≠ streamKey e, d.seen.at k ≤ e.seen.at k

/-- The base is a coverage that was emitted before: what it covers depends on nothing above it. -/
def ClosedBase (input : List Envelope) (base : Positions) : Prop :=
  ∀ e ∈ input, above base (position e) = false → ∀ p ∈ dependencies e, above base p = false

/-- The cover of the event reaches the other. -/
def NamesPast (e d : Envelope) : Prop := d.seq ≤ e.seen.at (streamKey d)

/-- Two events of different streams of which neither names the other. -/
structure Apart (a b : Envelope) : Prop where
  streams : streamKey a ≠ streamKey b
  left : ¬ NamesPast b a
  right : ¬ NamesPast a b

theorem Apart.symm (h : Apart a b) : Apart b a := ⟨h.streams.symm, h.right, h.left⟩

theorem seen_at_of_mem (hne : streamKey d ≠ streamKey e) (h : position d ∈ dependencies e) :
    e.seen.at (streamKey d) = d.seq := by
  rw [dependencies, mem_append] at h
  rcases h with hseen | hown
  · have hkey : e.seen[streamKey d]? = some d.seq := mem_toList_iff_getElem?_eq_some.mp hseen
    rw [Positions.at, getD_eq_getD_getElem?, hkey]
    rfl
  · split at hown
    · exact absurd (Prod.ext_iff.mp (mem_singleton.mp hown)).1 hne
    · cases hown

theorem mem_dependencies_of_seen {k : String} (hpos : 0 < e.seen.at k) : (k, e.seen.at k) ∈ dependencies e := by
  rw [dependencies]
  refine mem_append_left _ (mem_toList_iff_getElem?_eq_some.mpr ?_)
  rw [Positions.at, getD_eq_getD_getElem?] at hpos ⊢
  cases hk : e.seen[k]? with
  | none => simp [hk] at hpos
  | some n => rfl

/-! ### The pairs -/

theorem mem_concurrentWith (hprior : Holds prior {e | e ∈ done}) :
    q ∈ concurrentWith prior b ↔ ∃ a ∈ done, Apart a b ∧ q = (a.h, b.h) := by
  simp only [concurrentWith, List.mem_map, mem_filter, Prod.exists, Bool.and_eq_true, decide_eq_true_eq,
    mem_toList_iff_getElem?_eq_some, hprior _ _, Set.mem_ofPred_eq]
  constructor
  · rintro ⟨_, a, ⟨⟨ha, _⟩, ⟨hstreams, hleft⟩, hright⟩, hq⟩
    exact ⟨a, ha, ⟨hstreams, Nat.not_le.mpr hleft, Nat.not_le.mpr hright⟩, hq.symm⟩
  · rintro ⟨a, ha, hapart, hq⟩
    exact ⟨toLex (position a), a,
      ⟨⟨ha, rfl⟩, ⟨hapart.streams, Nat.not_le.mp hapart.left⟩, Nat.not_le.mp hapart.right⟩, hq.symm⟩

theorem mem_concurrentPairs_of (hprior : Holds prior {e | e ∈ done}) (hnodup : ((done ++ l).map position).Nodup) :
    q ∈ concurrentPairs l prior ↔ ∃ s b t, l = s ++ b :: t ∧ ∃ a ∈ done ++ s, Apart a b ∧ q = (a.h, b.h) := by
  induction l generalizing done prior with
  | nil => simp [concurrentPairs]
  | cons x l ih =>
    have hfresh : ∀ a ∈ done, position a = position x → a = x := by
      intro a ha hat
      refine inj_on_of_nodup_map hnodup (mem_append_left _ ha) ?_ hat
      exact mem_append_right _ mem_cons_self
    have hput : Holds (prior.insert (toLex (position x)) x) {e | e ∈ done ++ [x]} := by
      have hset : {e | e ∈ done ++ [x]} = insert x {e | e ∈ done} := by
        ext e
        simp [or_comm]
      rw [hset]
      exact hprior.put hfresh
    rw [concurrentPairs, mem_append, mem_concurrentWith hprior,
      ih hput (by rwa [append_assoc, singleton_append])]
    constructor
    · rintro (⟨a, ha, h⟩ | ⟨s, b, t, rfl, a, ha, h⟩)
      · exact ⟨[], x, l, rfl, a, mem_append_left _ ha, h⟩
      · refine ⟨x :: s, b, t, rfl, a, ?_, h⟩
        rwa [append_assoc, singleton_append] at ha
    · rintro ⟨s, b, t, hl, a, ha, h⟩
      cases s with
      | nil =>
        cases hl
        rw [append_nil] at ha
        exact .inl ⟨a, ha, h⟩
      | cons y s =>
        cases hl
        refine .inr ⟨s, b, t, rfl, a, ?_, h⟩
        rwa [append_assoc, singleton_append]

/-- **The pairs of a list** are those of which neither names the other, in the order they stand. -/
theorem mem_concurrentPairs (hnodup : (l.map position).Nodup) :
    q ∈ concurrentPairs l ∅ ↔ ∃ a b, Before l a b ∧ Apart a b ∧ q = (a.h, b.h) := by
  have hempty : Holds ∅ {e : Envelope | e ∈ ([] : List Envelope)} := by simpa using holds_empty
  rw [mem_concurrentPairs_of hempty (by rwa [nil_append])]
  constructor
  · rintro ⟨s, b, t, hl, a, ha, h⟩
    exact ⟨a, b, ⟨s, t, hl, ha⟩, h⟩
  · rintro ⟨a, b, ⟨s, t, hl, ha⟩, h⟩
    exact ⟨s, b, t, hl, a, ha, h⟩

theorem before_or_before (ha : a ∈ l) (hb : b ∈ l) (hne : a ≠ b) : Before l a b ∨ Before l b a := by
  obtain ⟨s, t, rfl⟩ := append_of_mem hb
  rcases mem_append.mp ha with hs | ht
  · exact .inl ⟨s, t, rfl, hs⟩
  · rcases mem_cons.mp ht with rfl | ht
    · exact absurd rfl hne
    · obtain ⟨x, y, rfl⟩ := append_of_mem ht
      exact .inr ⟨s ++ b :: x, y, by simp, by simp⟩

theorem Before.left_mem (h : Before l a b) : a ∈ l := by
  obtain ⟨s, t, rfl, ha⟩ := h
  exact mem_append_left _ ha

theorem Before.right_mem (h : Before l a b) : b ∈ l := by
  obtain ⟨s, t, rfl, _⟩ := h
  exact mem_append_right _ mem_cons_self

/-! ### Naming is seeing -/

namespace Emitted

variable {events : List Envelope} {a b e d : Envelope}

variable (h : Emitted c input base events)

include h

theorem saw_cases (hbase : ClosedBase input base)
    (hone : ∀ d ∈ input, ∀ e ∈ input, position d = position e → d = e) (he : e ∈ events) (hsaw : Saw input e d) :
    Forgent.above base (position d) = false ∨
      d ∈ events ∧ TransGen (fun e d => e ∈ events ∧ d ∈ events ∧ position d ∈ Forgent.dependencies e) e d := by
  have hstep : ∀ x y, x ∈ events → y ∈ input → position y ∈ Forgent.dependencies x →
      Forgent.above base (position y) = false ∨ y ∈ events := by
    intro x y hx hy hat
    rcases Bool.eq_false_or_eq_true (Forgent.above base (position y)) with habove | hbelow
    · obtain ⟨z, hz, hzat⟩ := h.dependencies x hx _ hat habove
      exact .inr (hone z (h.mem z hz) y hy hzat ▸ hz)
    · exact .inl hbelow
  induction hsaw with
  | single hd =>
    rcases hstep _ _ he hd.1 hd.2 with hbelow | hmem
    · exact .inl hbelow
    · exact .inr ⟨hmem, .single ⟨he, hmem, hd.2⟩⟩
  | @tail x y hprev hd ih =>
    rcases ih with hbelow | ⟨hmem, hchain⟩
    · have hin : x ∈ input := by
        cases hprev with
        | single h | tail _ h => exact h.1
      exact .inl (hbase x hin hbelow _ hd.2)
    · rcases hstep _ _ hmem hd.1 hd.2 with hbelow | hmem'
      · exact .inl hbelow
      · exact .inr ⟨hmem', hchain.tail ⟨hmem, hmem', hd.2⟩⟩

theorem seq_le_of_chain (hd : d ∈ events) (hb : b ∈ events) (hstream : streamKey d = streamKey b)
    (hchain : TransGen (fun e d => e ∈ events ∧ d ∈ events ∧ position d ∈ Forgent.dependencies e) d b) :
    b.seq ≤ d.seq := by
  by_contra hlt
  rw [Nat.not_le] at hlt
  have habove : base.at (streamKey d) < d.seq := of_decide_eq_true (h.above d hd)
  obtain ⟨x, hx, hat, hback⟩ := h.earlier hb (hstream ▸ habove) hlt
  obtain rfl : x = d := h.eq_of_position hx hd (by rw [hat, ← hstream]; rfl)
  exact h.acyclic b (hback.trans hchain)

theorem names_of_saw (hfull : FullCovers input) (hbase : ClosedBase input base)
    (hone : ∀ d ∈ input, ∀ e ∈ input, position d = position e → d = e) (ha : a ∈ events) (hb : b ∈ events)
    (hne : streamKey a ≠ streamKey b) (hsaw : Saw input a b) : NamesPast a b := by
  rcases h.saw_cases hbase hone ha hsaw with hbelow | ⟨_, hchain⟩
  · rw [h.above b hb] at hbelow
    cases hbelow
  · clear ha hsaw
    induction hchain using TransGen.head_induction_on with
    | single hstep => exact (seen_at_of_mem hne.symm hstep.2.2).ge
    | @head e d hstep hrest ih =>
      obtain ⟨he, hd, hat⟩ := hstep
      by_cases hstream : streamKey d = streamKey b
      · have hle := h.seq_le_of_chain hd hb hstream hrest
        rw [NamesPast, ← hstream, seen_at_of_mem (hstream ▸ hne.symm) hat]
        exact hle
      · exact (ih hstream).trans (hfull e (h.mem e he) d (h.mem d hd) hat _ hne.symm)

theorem saw_of_names (ha : a ∈ events) (hb : b ∈ events) (hnames : NamesPast a b) : Saw input a b := by
  have hpos := (h.valid b hb).seq_pos
  have habove : base.at (streamKey b) < b.seq := of_decide_eq_true (h.above b hb)
  have hdep := mem_dependencies_of_seen (hpos.trans_le hnames)
  obtain ⟨d, hd, hat⟩ := h.dependencies a ha _ hdep (by simpa [Forgent.above] using habove.trans_le hnames)
  obtain ⟨hstream, hseq⟩ := Prod.ext_iff.mp hat
  have hstream : streamKey d = streamKey b := hstream
  have hseq : d.seq = a.seen.at (streamKey b) := hseq
  have hfirst : Saw input a d := .single ⟨h.mem d hd, hat ▸ hdep⟩
  rcases Nat.lt_or_ge b.seq d.seq with hlt | hge
  · obtain ⟨x, hx, hxat, hchain⟩ := h.earlier hd (hstream ▸ habove) hlt
    obtain rfl : x = b := h.eq_of_position hx hb (by rw [hxat, hstream]; rfl)
    exact hfirst.trans (TransGen.mono (fun _ y hstep => ⟨h.mem y hstep.2.1, hstep.2.2⟩) _ _ hchain)
  · have hle : b.seq ≤ a.seen.at (streamKey b) := hnames
    obtain rfl : d = b := h.eq_of_position hd hb (Prod.ext hstream (by show d.seq = b.seq; omega))
    exact hfirst

theorem apart_iff (hfull : FullCovers input) (hbase : ClosedBase input base)
    (hone : ∀ d ∈ input, ∀ e ∈ input, position d = position e → d = e) (ha : a ∈ events) (hb : b ∈ events) :
    Apart a b ↔ streamKey a ≠ streamKey b ∧ ¬ Saw input a b ∧ ¬ Saw input b a := by
  constructor
  · intro hapart
    refine ⟨hapart.streams, fun hsaw => hapart.right ?_, fun hsaw => hapart.left ?_⟩
    · exact h.names_of_saw hfull hbase hone ha hb hapart.streams hsaw
    · exact h.names_of_saw hfull hbase hone hb ha hapart.streams.symm hsaw
  · rintro ⟨hne, hright, hleft⟩
    exact ⟨hne, fun hnames => hleft (h.saw_of_names hb ha hnames), fun hnames => hright (h.saw_of_names ha hb hnames)⟩

end Emitted

/-! ### The base -/

theorem closedBase_empty (hv : AllValid c input) : ClosedBase input ∅ := by
  intro e he hbelow
  have hpos := (hv e he).seq_pos
  have hopen : above ∅ (position e) = true := decide_eq_true (by simpa [Positions.at, position] using hpos)
  rw [hopen] at hbelow
  cases hbelow

/-! ### The report -/

variable {view : Option (VerifiedView c)}

theorem eq_of_position_of_orderRetained (hcol : c.CollisionFree input)
    (h : orderRetained c input base project view = .ok r) (hd : d ∈ input) (he : e ∈ input)
    (hat : position d = position e) : d = e := by
  rw [orderRetained, collect_view_irrelevant, bind_eq_ok] at h
  obtain ⟨u, hcollect, _⟩ := h
  obtain ⟨hv, hconf, _⟩ := (collect_input_eq_ok_iff hcol none u).mp hcollect
  exact hcol.identified d hd e he (hv d hd) (hv e he) (hconf d hd e he hat)

theorem concurrent_of_orderRetained
    (h : orderRetained c input base project view = .ok r) : r.concurrent = concurrentPairs r.events ∅ := by
  rw [orderRetained, bind_eq_ok] at h
  obtain ⟨u, _, h⟩ := h
  obtain ⟨_, _, _, _, _, _, rfl⟩ := orderUnique_eq_ok_iff.mp h
  rfl

/-- **The report is exact**: what is reported are pairs of emitted events, and of two emitted events one pair is
reported just when they are of different streams and neither saw the other. -/
theorem concurrent_iff {view : Option (VerifiedView c)} (hcol : c.CollisionFree input) (hfull : FullCovers input)
    (hbase : ClosedBase input base) (h : orderRetained c input base project view = .ok r) :
    (∀ q ∈ r.concurrent, ∃ a ∈ r.events, ∃ b ∈ r.events, q = (a.h, b.h)) ∧
      ∀ a ∈ r.events, ∀ b ∈ r.events, ((a.h, b.h) ∈ r.concurrent ∨ (b.h, a.h) ∈ r.concurrent ↔
        streamKey a ≠ streamKey b ∧ ¬ Saw input a b ∧ ¬ Saw input b a) := by
  have hemitted := emitted_orderRetained hcol h
  have hone : ∀ d ∈ input, ∀ e ∈ input, position d = position e → d = e := fun d hd e he =>
    eq_of_position_of_orderRetained hcol h hd he
  rw [concurrent_of_orderRetained h]
  refine ⟨fun q hq => ?_, fun a ha b hb => ?_⟩
  · obtain ⟨a, b, hbefore, _, hpair⟩ := (mem_concurrentPairs hemitted.nodup).mp hq
    exact ⟨a, hbefore.left_mem, b, hbefore.right_mem, hpair⟩
  · rw [← hemitted.apart_iff hfull hbase hone ha hb]
    -- a digest names one emitted event
    have hsame : ∀ x ∈ r.events, ∀ y ∈ r.events, x.h = y.h → x = y := fun x hx y hy =>
      hcol.identified x (hemitted.mem x hx) y (hemitted.mem y hy) (hemitted.valid x hx) (hemitted.valid y hy)
    have hpair : ∀ x ∈ r.events, ∀ y ∈ r.events, (x.h, y.h) ∈ concurrentPairs r.events ∅ →
        Before r.events x y ∧ Apart x y := by
      intro x hx y hy hmem
      obtain ⟨x', y', hbefore, hapart, heq⟩ := (mem_concurrentPairs hemitted.nodup).mp hmem
      obtain ⟨hleft, hright⟩ := Prod.ext_iff.mp heq
      obtain rfl := hsame x hx x' hbefore.left_mem hleft
      obtain rfl := hsame y hy y' hbefore.right_mem hright
      exact ⟨hbefore, hapart⟩
    constructor
    · rintro (hmem | hmem)
      · exact (hpair a ha b hb hmem).2
      · exact (hpair b hb a ha hmem).2.symm
    · intro hapart
      have hne : a ≠ b := fun heq => hapart.streams (heq ▸ rfl)
      rcases before_or_before ha hb hne with hbefore | hbefore
      · exact .inl ((mem_concurrentPairs hemitted.nodup).mpr ⟨a, b, hbefore, hapart, rfl⟩)
      · exact .inr ((mem_concurrentPairs hemitted.nodup).mpr ⟨b, a, hbefore, hapart.symm, rfl⟩)

/-! ### A third store that saw two -/

namespace Meeting

open Envelope GateHistory SmallHistory

/-- An event of store `c` that has seen the first events of two stores. -/
def meeting : Envelope :=
  sample 'c' "project" 1 [(keyOf 'a' "project", 1), (keyOf 'b' "project", 1)] "work.add" .null
    "598f24b03ae599b866dddada88c563f14b0de9b800576d96bce867eb2f5530e7"

def history : List Envelope := [meeting, there, here]

theorem valid_meeting : meeting.Valid .integral := (validate_eq_ok_iff _ _).mp (by decide +kernel)

theorem valid : AllValid .integral history := by simp [AllValid, history, valid_meeting, valid_there, valid_here]

/-- The two first events did not see each other; the third saw both. -/
def met : Ordered := ⟨[here, there, meeting], [], ∅, [(here.h, there.h)]⟩

theorem order_history : orderRetained .integral history ∅ true none = .ok met := by
  show order .integral history ∅ true = .ok met
  rw [order_of_nodup valid (by decide)]
  decide

theorem fullCovers : FullCovers history := by
  have hnone : ∀ d ∈ history, ∀ e ∈ history, position d ∈ dependencies e → d.seen = ∅ := by decide
  intro e he d hd hat k _
  rw [hnone d hd e he hat]
  simp [Positions.at]

end Meeting

open Meeting in
theorem concurrent_iff_meeting : (∀ q ∈ met.concurrent, ∃ a ∈ met.events, ∃ b ∈ met.events, q = (a.h, b.h)) ∧
      ∀ a ∈ met.events, ∀ b ∈ met.events, ((a.h, b.h) ∈ met.concurrent ∨ (b.h, a.h) ∈ met.concurrent ↔
        streamKey a ≠ streamKey b ∧ ¬ Saw history a b ∧ ¬ Saw history b a) :=
  concurrent_iff (.of_nodup valid (by decide)) fullCovers (closedBase_empty valid) order_history

end Forgent
