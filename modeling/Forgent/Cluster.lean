import Forgent.Promote

/-!
# Clones and what they exchange

A cluster is any number of clones.  A clone appends to its own streams, promotes its own branches, and
fetches any part of what another clone holds.  The events of all clones are kept in the sequence in
which they became durable (`acks`); no clone can see that sequence, the statements about it are what is
true of every run:

* every stream is numbered from 1 without a gap, and an event has seen only earlier events (`History`);
* a clone holds acknowledged events only.
-/

namespace Forgent

open List Std.ExtTreeMap

/-! ### Numbers of a stream -/

/-- The highest number of a stream among the events. -/
def high (events : List Envelope) (key : String) : ℕ :=
  ((events.filter fun e => streamKey e = key).map Envelope.seq).foldr max 0

theorem high_append (l m : List Envelope) (key : String) :
    high (l ++ m) key = max (high l key) (high m key) := by
  induction l with
  | nil => simp [high]
  | cons e l ih =>
    have hcons : ∀ l, high (e :: l) key = if streamKey e = key then max e.seq (high l key) else high l key := by
      intro l
      by_cases he : streamKey e = key <;> simp [high, he]
    rw [cons_append, hcons, hcons, ih]
    split
    · rw [max_assoc]
    · rfl

theorem high_singleton (e : Envelope) (key : String) :
    high [e] key = if streamKey e = key then e.seq else 0 := by
  by_cases he : streamKey e = key <;> simp [high, he]

theorem high_mono (l m : List Envelope) (key : String) : high l key ≤ high (l ++ m) key := by
  rw [high_append]
  exact le_max_left _ _

variable {l : List Envelope} {key : String} {d : Envelope}

theorem seq_le_high {e : Envelope} (he : e ∈ l) : e.seq ≤ high l (streamKey e) := by
  obtain ⟨s, t, rfl⟩ := append_of_mem he
  rw [high_append, show e :: t = [e] ++ t from rfl, high_append, high_singleton, if_pos rfl]
  exact le_max_of_le_right (le_max_left _ _)

/-! ### Histories -/

/-- The event is the next of its stream, and what it has seen is there. -/
structure Extends (l : List Envelope) (e : Envelope) : Prop where
  seq : e.seq = high l (streamKey e) + 1
  seen : ∀ k n, e.seen[k]? = some n → ∃ d ∈ l, position d = (k, n)

/-- Events in the sequence in which they became durable. -/
inductive History : List Envelope → Prop
  | nil : History []
  | snoc {l e} : History l → Extends l e → History (l ++ [e])

theorem history_snoc_iff {e : Envelope} :
    History (l ++ [e]) ↔ History l ∧ Extends l e := by
  constructor
  · intro h
    generalize hm : l ++ [e] = m at h
    cases h with
    | nil => simp at hm
    | snoc hl he =>
      obtain ⟨rfl, hx⟩ := append_inj' hm rfl
      cases hx
      exact ⟨hl, he⟩
  · rintro ⟨hl, he⟩
    exact .snoc hl he

theorem History.left {m : List Envelope} (h : History (l ++ m)) : History l := by
  induction m using reverseRecOn with
  | nil => simpa using h
  | append_singleton m e ih =>
    rw [← append_assoc] at h
    exact ih (history_snoc_iff.mp h).1

theorem History.extends {p s : List Envelope} {e : Envelope} (h : History (p ++ e :: s)) :
    Extends p e := by
  rw [show p ++ e :: s = p ++ [e] ++ s by simp] at h
  exact (history_snoc_iff.mp h.left).2

theorem Extends.high_snoc {e : Envelope} (he : Extends l e) :
    high (l ++ [e]) (streamKey e) = high l (streamKey e) + 1 := by
  rw [high_append, high_singleton, if_pos rfl, he.seq]
  omega

theorem high_snoc_of_ne {e : Envelope} (h : streamKey e ≠ key) :
    high (l ++ [e]) key = high l key := by
  rw [high_append, high_singleton, if_neg h]
  omega

theorem History.exists_position (h : History l) {n : ℕ} (hpos : 0 < n)
    (hn : n ≤ high l key) : ∃ d ∈ l, position d = (key, n) := by
  induction h with
  | nil =>
    rw [show high [] key = 0 from rfl] at hn
    omega
  | @snoc l e _ he ih =>
    by_cases hkey : streamKey e = key
    · subst hkey
      rw [he.high_snoc] at hn
      rcases Nat.lt_or_ge (high l (streamKey e)) n with hlt | hge
      · refine ⟨e, by simp, Prod.ext rfl ?_⟩
        show e.seq = n
        rw [he.seq]
        omega
      · obtain ⟨d, hd, hp⟩ := ih hge
        exact ⟨d, mem_append_left _ hd, hp⟩
    · rw [high_snoc_of_ne hkey] at hn
      obtain ⟨d, hd, hp⟩ := ih hn
      exact ⟨d, mem_append_left _ hd, hp⟩

theorem Extends.position_ne {e : Envelope} (he : Extends l e) (hd : d ∈ l) :
    position d ≠ position e := by
  intro hp
  have hp' := Prod.ext_iff.mp hp
  have hle := seq_le_high hd
  rw [show streamKey d = streamKey e from hp'.1, show d.seq = e.seq from hp'.2, he.seq] at hle
  omega

theorem History.nodup_position (h : History l) : (l.map position).Nodup := by
  induction h with
  | nil => simp
  | snoc _ he ih =>
    rw [map_append, nodup_append]
    refine ⟨ih, by simp, fun p hp q hq hpq => ?_⟩
    obtain ⟨d, hd, rfl⟩ := List.mem_map.mp hp
    rw [map_singleton, mem_singleton] at hq
    exact he.position_ne hd (hpq.trans hq)

theorem History.nodup (h : History l) : l.Nodup :=
  List.Nodup.of_map _ h.nodup_position

theorem Extends.dependency_mem {e : Envelope} (hl : History l) (he : Extends l e)
    {p : Position} (hp : p ∈ dependencies e) : ∃ d ∈ l, position d = p := by
  rw [dependencies, mem_append] at hp
  rcases hp with hp | hp
  · exact he.seen p.1 p.2 (mem_toList_iff_getElem?_eq_some.mp hp)
  · split at hp
    · rw [mem_singleton] at hp
      have hseq := he.seq
      obtain ⟨d, hd, hdp⟩ : ∃ d ∈ l, position d = (streamKey e, e.seq - 1) :=
        hl.exists_position (by omega) (by omega)
      exact ⟨d, hd, hdp.trans hp.symm⟩
    · cases hp

theorem History.event_unique (h : History l) {e : Envelope} (hd : d ∈ l)
    (he : e ∈ l) (hp : position d = position e) : d = e :=
  inj_on_of_nodup_map h.nodup_position hd he hp

theorem History.dependency_before (h : History l) {e : Envelope} (hd : d ∈ l)
    (he : e ∈ l) (hdep : position d ∈ dependencies e) : l.idxOf d < l.idxOf e := by
  obtain ⟨p, s, rfl⟩ := append_of_mem he
  have hnd := h.nodup
  have hep : e ∉ p := fun hmem => by
    rw [nodup_append] at hnd
    exact hnd.2.2 e hmem e (by simp) rfl
  obtain ⟨d', hd', hpos⟩ := h.extends.dependency_mem h.left hdep
  have hdd : d = d' := h.event_unique hd (mem_append_left _ hd') hpos.symm
  rw [hdd, idxOf_append_of_mem hd', idxOf_append_of_notMem hep, idxOf_cons_self]
  have := idxOf_lt_length_of_mem hd'
  omega

theorem History.append {es : List Envelope} (h : History l)
    (hes : ∀ i (hi : i < es.length), streamKey es[i] = key ∧ es[i].seq = high l key + 1 + i ∧
      ∀ k n, es[i].seen[k]? = some n → ∃ d ∈ l, position d = (k, n)) : History (l ++ es) := by
  induction es generalizing l with
  | nil => simpa using h
  | cons e es ih =>
    obtain ⟨hkey, hseq, hseen⟩ := hes 0 (by simp)
    rw [getElem_cons_zero] at hkey hseq hseen
    have he : Extends l e := ⟨by rw [hkey, hseq], hseen⟩
    rw [show l ++ e :: es = l ++ [e] ++ es by simp]
    refine ih (h.snoc he) fun i hi => ?_
    obtain ⟨hkey', hseq', hseen'⟩ := hes (i + 1) (by simpa using hi)
    rw [getElem_cons_succ] at hkey' hseq' hseen'
    refine ⟨hkey', ?_, fun k n hk => ?_⟩
    · have hhigh := he.high_snoc
      rw [hkey] at hhigh
      omega
    · obtain ⟨d, hd, hp⟩ := hseen' k n hk
      exact ⟨d, mem_append_left _ hd, hp⟩

/-- Every position of the cursor is that of an event that is there. -/
def CursorOn (cursor : Positions) (disk : Set Envelope) : Prop :=
  ∀ k n, cursor[k]? = some n → n ≠ 0 → ∃ d ∈ disk, position d = (k, n)

theorem cursorOn_of_toList {cursor : Positions} {disk : Set Envelope}
    (h : ∀ p ∈ cursor.toList, ∃ d ∈ disk, position d = p) : CursorOn cursor disk :=
  fun _ _ hk _ => h _ (mem_toList_iff_getElem?_eq_some.mpr hk)

theorem History.append_events (h : History l) {c : Codec} {registry : Registry}
    {own : String} {stream : StreamId} {writer : String} {cursor : Positions} {inputs : List EventInput}
    {events : List Envelope} (hcursor : CursorOn cursor {e | e ∈ l})
    (happ : appendEvents c registry own stream writer cursor
      (high l (positionKey own stream.value)) inputs = .ok events) :
    History (l ++ events) := by
  obtain ⟨_, _, hes⟩ := appendEvents_eq_ok happ
  obtain ⟨_, hat⟩ := isAppended_of_envelopesFrom hes
  suffices hnext : ∀ n (hn : n < events.length), streamKey events[n] = positionKey own stream.value ∧
      events[n].seq = high l (positionKey own stream.value) + 1 + n ∧
      ∀ k m, events[n].seen[k]? = some m → ∃ d ∈ l, position d = (k, m) from h.append hnext
  intro n hn
  obtain ⟨input, _, hin⟩ := hat n hn
  refine ⟨?_, hin.seq, fun k m hk => ?_⟩
  · rw [streamKey, hin.origin, hin.stream]
  · rw [hin.seen, getElem?_seenOf] at hk
    exact hcursor k m hk.2.1 hk.2.2

/-! ### The clones -/

/-- All acknowledged events, and what each clone has on its disk. -/
structure Cluster (ι : Type*) where
  acks : List Envelope
  disk : ι → Set Envelope

namespace Cluster

variable {ι : Type*} {events : List Envelope} {c : Codec} {registry : Registry}

/-- No event yet. -/
def initial : Cluster ι where
  acks := []
  disk := fun _ => ∅

/-- Clones hold acknowledged events, and these form a history. -/
structure Sound (s : Cluster ι) : Prop where
  history : History s.acks
  held : ∀ i, ∀ e ∈ s.disk i, e ∈ s.acks

theorem sound_initial : Sound (initial : Cluster ι) := ⟨.nil, fun _ _ h => h.elim⟩

variable [DecidableEq ι] {s : Cluster ι} {i : ι}

/-- Clone `i` made the events durable. -/
def acked (s : Cluster ι) (i : ι) (events : List Envelope) : Cluster ι where
  acks := s.acks ++ events
  disk := Function.update s.disk i (s.disk i ∪ {e | e ∈ events})

/-- Clone `i` fetched the events. -/
def fetched (s : Cluster ι) (i : ι) (events : Set Envelope) : Cluster ι where
  acks := s.acks
  disk := Function.update s.disk i (s.disk i ∪ events)

/-- What a clone can do.  An append writes consumer events; only `promote` writes promotes. -/
inductive Step (c : Codec) (registry : Registry) (origin : ι → String) : Cluster ι → Cluster ι → Prop
  | append {s : Cluster ι} (i : ι) (stream : StreamId) (writer : String) (cursor : Positions)
      (inputs : List EventInput) (events : List Envelope) :
      CursorOn cursor (s.disk i) → (∀ input ∈ inputs, input.eventType ≠ "store.promote") →
      appendEvents c registry (origin i) stream writer cursor
        (high s.acks (positionKey (origin i) stream.value)) inputs = .ok events →
      Step c registry origin s (s.acked i events)
  | promote {s : Cluster ι} (i : ι) (req : PromoteRequest) (branch : SealedBranch) (e : Envelope) :
      CursorOn req.cursor (s.disk i) →
      branch.lastSeq ≤ high s.acks (positionKey (origin i) req.branch.value) →
      promoteEvents c registry (origin i) req branch
        (high s.acks (positionKey (origin i) "project")) = .ok [e] →
      Step c registry origin s (s.acked i [e])
  | fetch {s : Cluster ι} (i j : ι) (events : Set Envelope) : events ⊆ s.disk j →
      Step c registry origin s (s.fetched i events)

/-- The clusters that runs reach whose steps are all admitted. -/
inductive Run (c : Codec) (registry : Registry) (origin : ι → String)
    (admitted : Cluster ι → Cluster ι → Prop) : Cluster ι → Prop
  | initial : Run c registry origin admitted initial
  | step {s t} : Run c registry origin admitted s → Step c registry origin s t → admitted s t →
      Run c registry origin admitted t

theorem mem_disk_acked {j : ι} {e : Envelope}
    (h : e ∈ (s.acked i events).disk j) : e ∈ s.disk j ∨ e ∈ events := by
  by_cases hij : j = i
  · subst hij
    simpa [acked] using h
  · simp only [acked, Function.update_of_ne hij] at h
    exact .inl h

theorem mem_disk_fetched {j : ι} {events : Set Envelope} {e : Envelope}
    (h : e ∈ (s.fetched i events).disk j) : e ∈ s.disk j ∨ e ∈ events := by
  by_cases hij : j = i
  · subst hij
    simpa [fetched] using h
  · simp only [fetched, Function.update_of_ne hij] at h
    exact .inl h

theorem Sound.acked (h : s.Sound)
    (hgrow : History (s.acks ++ events)) : (s.acked i events).Sound := by
  refine ⟨hgrow, fun j e he => ?_⟩
  show e ∈ s.acks ++ events
  rcases mem_disk_acked he with he | he
  · exact mem_append_left _ (h.held j e he)
  · exact mem_append_right _ he

theorem Sound.fetched (h : s.Sound) {j : ι} {events : Set Envelope}
    (hsub : events ⊆ s.disk j) : (s.fetched i events).Sound := by
  refine ⟨h.history, fun k e he => ?_⟩
  rcases mem_disk_fetched he with he | he
  · exact h.held k e he
  · exact h.held j e (hsub he)

omit [DecidableEq ι] in
theorem Sound.history_append (h : s.Sound)
    {own : String} {stream : StreamId} {writer : String} {cursor : Positions} {inputs : List EventInput}
     (hcursor : CursorOn cursor (s.disk i))
    (happ : appendEvents c registry own stream writer cursor
      (high s.acks (positionKey own stream.value)) inputs = .ok events) :
    History (s.acks ++ events) :=
  h.history.append_events (fun k n hk hn => (hcursor k n hk hn).imp fun d hd => ⟨h.held i d hd.1, hd.2⟩) happ

theorem Step.acks_append {origin : ι → String} {t : Cluster ι}
    (h : Step c registry origin s t) : ∃ events, t.acks = s.acks ++ events := by
  cases h with
  | append i stream writer cursor inputs events => exact ⟨events, rfl⟩
  | promote i req branch e => exact ⟨[e], rfl⟩
  | fetch => exact ⟨[], by simp [fetched]⟩

theorem Step.sound {origin : ι → String} {t : Cluster ι}
    (h : s.Sound) (hstep : Step c registry origin s t) : t.Sound := by
  cases hstep with
  | append i stream writer cursor inputs events hcursor _ happ =>
    exact h.acked (h.history_append hcursor happ)
  | promote i req branch e hcursor _ hprom =>
    exact h.acked (h.history_append hcursor (promoteEvents_eq_ok hprom).1)
  | fetch i j events hsub => exact h.fetched hsub

end Cluster

end Forgent
