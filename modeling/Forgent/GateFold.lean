import Forgent.Gate
import Forgent.OrderConverge

/-!
# What the gate folds

Every view that a clone keeps is the fold of a basis (`Kept`): a full read, and behind it events of the
own stream that have seen all of it.  One call takes such a view to such a view (`Call.Made.kept`): the
check of the tail and the `seen` of the batch are what makes tail and batch continue the basis.  A full
read therefore answers the same with a kept view and without one.
-/

namespace Forgent

open List Option Std.ExtTreeMap Function

/-! ### Covers and numbers -/

theorem coverOf_snoc (l : List Envelope) (e : Envelope) : coverOf (l ++ [e]) =
    (coverOf l).insert (streamKey e) (max ((coverOf l).at (streamKey e)) e.seq) := by
  simp [coverOf]

theorem at_insert (p : Positions) (k k' : String) (n : ℕ) :
    Positions.at (p.insert k n) k' = if k = k' then n else p.at k' := by
  rw [Positions.at, getD_insert]
  simp only [compare_eq_iff_eq]
  rfl

theorem coverOf_at (l : List Envelope) (k : String) : (coverOf l).at k = high l k := by
  induction l using reverseRecOn with
  | nil => rfl
  | append_singleton l e ih =>
    rw [coverOf_snoc, at_insert, high_append, high_singleton]
    by_cases hk : streamKey e = k
    · rw [if_pos hk, if_pos hk, hk, ih]
    · rw [if_neg hk, if_neg hk, ih, Nat.max_zero]

/-! ### Streams without a hole -/

theorem mem_of_hole {h : ℕ} {l : List ℕ} (hhole : hole h l = none) : ∀ n ∈ l, ∀ m, h < m → m ≤ n → m ∈ l := by
  induction l generalizing h with
  | nil => simp
  | cons a l ih =>
    rw [hole] at hhole
    split at hhole
    · rename_i ha
      intro n hn m hm hle
      by_cases hma : m = a
      · simp [hma]
      · rcases mem_cons.mp hn with rfl | hn
        · omega
        · exact mem_cons_of_mem _ (ih hhole n hn m (by omega) hle)
    · cases hhole

theorem mem_ascending {α : Type} [LinearOrder α] {l : List α} {x : α} : x ∈ ascending l ↔ x ∈ l := by
  rw [ascending, mem_insertionSort, mem_dedup]

variable {events : List Envelope}

theorem mem_numbers_iff {stream : String} {n : ℕ} :
    n ∈ (ascending ((events.filter fun e => streamKey e = stream).map Envelope.seq)).filter
        (fun n => (∅ : Positions).at stream < n) ↔ 0 < n ∧ ∃ d ∈ events, position d = (stream, n) := by
  rw [mem_filter, mem_ascending, List.mem_map]
  simp only [mem_filter, decide_eq_true_eq, Positions.at, getD_empty]
  constructor
  · rintro ⟨⟨d, ⟨hd, hk⟩, rfl⟩, hn⟩
    exact ⟨hn, d, hd, Prod.ext hk rfl⟩
  · rintro ⟨hn, d, hd, hp⟩
    have hp' := Prod.ext_iff.mp hp
    exact ⟨⟨d, ⟨hd, hp'.1⟩, hp'.2⟩, hn⟩

theorem checkContiguous_eq_ok_iff : checkContiguous events ∅ = .ok () ↔
    (∀ a ∈ events, ∀ b ∈ events, position a = position b → a.h = b.h) ∧
      ∀ e ∈ events, streamHole events ∅ (streamKey e) = none := by
  have hconflict : (events.all fun a => events.all fun b => position a ≠ position b || a.h = b.h) = true ↔
      ∀ a ∈ events, ∀ b ∈ events, position a = position b → a.h = b.h := by
    simp only [List.all_eq_true, Bool.or_eq_true, decide_eq_true_eq]
    refine forall₂_congr fun a _ => forall₂_congr fun b _ => ?_
    tauto
  have hholes : ((ascending (events.map streamKey)).filterMap fun stream =>
      (streamHole events ∅ stream).map fun high => (stream, high)) = [] ↔
        ∀ e ∈ events, streamHole events ∅ (streamKey e) = none := by
    rw [filterMap_eq_nil_iff]
    simp only [mem_ascending, List.mem_map, map_eq_none_iff, forall_exists_index, and_imp, forall_apply_eq_imp_iff₂]
  rw [← hconflict, ← hholes, checkContiguous, bind_eq_ok]
  simp only [ensure_eq_ok, exists_and_left, exists_const]
  refine and_congr_right fun _ => ?_
  split
  · rename_i heq
    exact iff_of_true rfl heq
  · rename_i heq
    exact iff_of_false (fun h => nomatch h) (by simp [heq])

theorem contiguous_of_checkContiguous (h : checkContiguous events ∅ = .ok ()) : Contiguous events := by
  intro e he hseq
  have hhole := (checkContiguous_eq_ok_iff.mp h).2 e he
  have hmem := mem_of_hole hhole e.seq (mem_numbers_iff.mpr ⟨by omega, e, he, rfl⟩) (e.seq - 1) ?_ (by omega)
  · exact (mem_numbers_iff.mp hmem).2
  · simp only [Positions.at, getD_empty]
    omega

/-! ### Events that continue a basis -/

/-- Each event is the next behind what comes before it. -/
def Follow (own : String) (w t : List Envelope) : Prop :=
  ∀ p e s, t = p ++ e :: s → Next own (w ++ p) e

section

variable {c : Codec} {l : List Envelope} {own : String} {w t : List Envelope} {e : Envelope} {cover : Positions}
  {k : String}

theorem follow_nil : Follow own w [] := by
  intro p e s h
  simp at h

theorem follow_snoc : Follow own w (t ++ [e]) ↔ Follow own w t ∧ Next own (w ++ t) e := by
  constructor
  · intro h
    exact ⟨fun p x s hps => h p x (s ++ [e]) (by rw [hps]; simp), h t e [] rfl⟩
  · rintro ⟨h, hnext⟩ p x s hps
    rcases eq_nil_or_concat s with rfl | ⟨s', y, rfl⟩
    · obtain ⟨rfl, hx⟩ := append_inj' hps rfl
      cases hx
      exact hnext
    · have hps' : t ++ [e] = (p ++ x :: s') ++ [y] := by simpa using hps
      exact h p x s' (append_inj' hps' rfl).1

theorem Follow.basis (h : Follow own w t) (hw : Basis c l own w)
    (ht : ∀ e ∈ t, e ∈ l ∧ e.scope = .project) : Basis c l own (w ++ t) := by
  induction t using reverseRecOn with
  | nil => simpa using hw
  | append_singleton t e ih =>
    obtain ⟨h, hnext⟩ := follow_snoc.mp h
    have hold := ih h fun x hx => ht x (mem_append_left _ hx)
    rw [← append_assoc]
    exact hold.snoc (ht e (by simp)).1 (ht e (by simp)).2 hnext

theorem Next.high_snoc (h : Next own w e) (k : String) : high (w ++ [e]) k = if own = k then e.seq else high w k := by
  rw [high_append, high_singleton, h.stream]
  split
  · rename_i hk
    have hseq := h.seq
    rw [hk] at hseq
    omega
  · rw [Nat.max_zero]

theorem advance_snoc (cursor : Cursor) (t : List Envelope) (e : Envelope) :
    advance cursor (t ++ [e]) = advance (advance cursor t) [e] := by
  simp [advance]

theorem Follow.advance_at (h : Follow own w t) {cursor : Cursor} (hcover : ∀ k, cursor.cover.at k = high w k)
    (k : String) : (advance cursor t).cover.at k = high (w ++ t) k := by
  induction t using reverseRecOn with
  | nil => simpa [advance] using hcover k
  | append_singleton t e ih =>
    obtain ⟨h, hnext⟩ := follow_snoc.mp h
    rw [advance_snoc, ← append_assoc, hnext.high_snoc, ← ih h]
    show Positions.at ((advance cursor t).cover.insert (streamKey e) e.seq) k = _
    rw [at_insert, hnext.stream]

/-! ### The tail -/

theorem ownTail_snoc (l : List Envelope) (own : String) (n : ℕ) (x : Envelope) : ownTail (l ++ [x]) own n =
      ownTail l own n ++ if streamKey x = own ∧ n < x.seq then [x] else [] := by
  rw [ownTail, ownTail, filter_append]
  congr 1
  by_cases hx : streamKey x = own ∧ n < x.seq
  · rw [if_pos hx, filter_cons_of_pos (by simpa using hx), filter_nil]
  · rw [if_neg hx, filter_cons_of_neg (by simpa using hx), filter_nil]

theorem max_high_ownTail (l : List Envelope) (own : String) (n : ℕ) :
    max n (high (ownTail l own n) own) = max n (high l own) := by
  induction l using reverseRecOn with
  | nil => rfl
  | append_singleton l x ih =>
    rw [ownTail_snoc, high_append, high_append, ← max_assoc, ih]
    by_cases hx : streamKey x = own ∧ n < x.seq
    · rw [if_pos hx, max_assoc]
    · rw [if_neg hx, high_singleton]
      show max (max n (high l own)) 0 = _
      split
      · rename_i hk
        have hle : x.seq ≤ n := Nat.le_of_not_lt fun hlt => hx ⟨hk, hlt⟩
        omega
      · omega

theorem ownTail_seq (hl : History l) {n : ℕ} : ∀ p e s, ownTail l own n = p ++ e :: s →
    e.seq = max n (high p own) + 1 := by
  induction hl with
  | nil =>
    intro p e s h
    simp [ownTail] at h
  | @snoc l x _ hx ih =>
    intro p e s h
    rw [ownTail_snoc] at h
    split at h
    · rename_i hown
      rcases eq_nil_or_concat s with rfl | ⟨s', y, rfl⟩
      · obtain ⟨rfl, hxe⟩ := append_inj' h rfl
        cases hxe
        rw [max_high_ownTail]
        have hseq := hx.seq
        rw [hown.1] at hseq
        omega
      · have h' : ownTail l own n ++ [x] = (p ++ e :: s') ++ [y] := by simpa using h
        exact ih p e s' (append_inj' h' rfl).1
    · rw [append_nil] at h
      exact ih p e s h

theorem seen_of_not_foreign (h : foreignTail own cover e = false) (hk : k ≠ own) : e.seen.at k = cover.at k := by
  rw [foreignTail, Bool.or_eq_false_iff, List.any_eq_false, List.any_eq_false] at h
  obtain ⟨hseen, hcover⟩ := h
  refine le_antisymm ?_ ?_
  · rw [Positions.at, getD_eq_getD_getElem?]
    cases hget : e.seen[k]? with
    | none => exact Nat.zero_le _
    | some n =>
      have := hseen (k, n) (mem_toList_iff_getElem?_eq_some.mpr hget)
      simpa using this
  · rw [Positions.at, getD_eq_getD_getElem?]
    cases hget : cover[k]? with
    | none => exact Nat.zero_le _
    | some n =>
      have := hcover (k, n) (mem_toList_iff_getElem?_eq_some.mpr hget)
      simpa [hk] using this

theorem ownTail_follow (hl : History l) (hcover : ∀ k, cover.at k = high w k)
    (hcheck : (ownTail l own (cover.at own)).any (foreignTail own cover) = false) :
    Follow own w (ownTail l own (cover.at own)) := by
  have hown : ∀ e ∈ ownTail l own (cover.at own), streamKey e = own := by
    intro e he
    have := (mem_filter.mp he).2
    rw [Bool.and_eq_true, decide_eq_true_eq] at this
    exact this.1
  intro p e s hps
  have hp : ∀ x ∈ p, streamKey x = own := fun x hx => hown x (by rw [hps]; exact mem_append_left _ hx)
  have hhigh : ∀ k ≠ own, high (w ++ p) k = high w k := by
    intro k hk
    have hnone : p.filter (fun x => streamKey x = k) = [] :=
      filter_eq_nil_iff.mpr fun x hx => by simpa [hp x hx] using hk.symm
    have hzero : high p k = 0 := by
      rw [high, hnone]
      rfl
    rw [high_append, hzero, Nat.max_zero]
  refine ⟨hown e (by rw [hps]; simp), ?_, fun k hk => ?_⟩
  · rw [ownTail_seq hl p e s hps, high_append, hcover]
  · rw [hhigh k hk, ← hcover]
    rw [List.any_eq_false] at hcheck
    exact seen_of_not_foreign (by simpa using hcheck e (by rw [hps]; simp)) hk

/-! ### The batch -/

theorem Follow.high_own (h : Follow own w t) : high (w ++ t) own = high w own + t.length := by
  induction t using reverseRecOn with
  | nil => simp
  | append_singleton t e ih =>
    obtain ⟨h, hnext⟩ := follow_snoc.mp h
    rw [← append_assoc, hnext.high_snoc, if_pos rfl, hnext.seq, ih h, length_append]
    simp only [length_singleton]
    omega

theorem Follow.high_of_ne (h : Follow own w t) (hk : k ≠ own) : high (w ++ t) k = high w k := by
  induction t using reverseRecOn with
  | nil => simp
  | append_singleton t e ih =>
    obtain ⟨h, hnext⟩ := follow_snoc.mp h
    rw [← append_assoc, hnext.high_snoc, if_neg hk.symm, ih h]

theorem follow_of_numbered (h : ∀ i (hi : i < t.length), streamKey t[i] = own ∧
    t[i].seq = high w own + 1 + i ∧ ∀ k ≠ own, t[i].seen.at k = high w k) : Follow own w t := by
  induction t using reverseRecOn with
  | nil => exact follow_nil
  | append_singleton t e ih =>
    have hold : Follow own w t := ih fun i hi => by
      have := h i (by simp; omega)
      rwa [getElem_append_left hi] at this
    obtain ⟨hkey, hseq, hseen⟩ := h t.length (by simp)
    rw [getElem_concat_length rfl] at hkey hseq hseen
    refine follow_snoc.mpr ⟨hold, hkey, ?_, fun k hk => ?_⟩
    · rw [hold.high_own, hseq]
      omega
    · rw [hold.high_of_ne hk, hseen k hk]

theorem seenOf_at (cursor : Positions) (hk : k ≠ own) : (seenOf cursor own).at k = cursor.at k := by
  rw [Positions.at, Positions.at, getD_eq_getD_getElem?, getD_eq_getD_getElem?]
  cases hget : cursor[k]? with
  | none =>
    have hnone : (seenOf cursor own)[k]? = none := by
      rw [eq_none_iff_forall_ne_some]
      intro n hn
      rw [getElem?_seenOf, hget] at hn
      cases hn.2.1
    rw [hnone]
  | some n =>
    by_cases hn : n = 0
    · have hnone : (seenOf cursor own)[k]? = none := by
        rw [eq_none_iff_forall_ne_some]
        intro m hm
        rw [getElem?_seenOf, hget, Option.some.injEq] at hm
        omega
      rw [hnone, hn]
      rfl
    · have hsome : (seenOf cursor own)[k]? = some n := (getElem?_seenOf cursor own k n).mpr ⟨hk, hget, hn⟩
      rw [hsome]

theorem append_follow {registry : Registry} {origin writer : String}
    {inputs : List EventInput} {events : List Envelope} (hown : own = positionKey origin "project")
    (hcover : ∀ k, cover.at k = high w k) (hhigh : high w own = high l own)
    (h : appendEvents c registry origin projectStream writer cover (high l own) inputs = .ok events) :
    Follow own w events ∧ ∀ e ∈ events, e.scope = .project := by
  obtain ⟨_, _, hes⟩ := appendEvents_eq_ok h
  obtain ⟨_, hat⟩ := isAppended_of_envelopesFrom hes
  refine ⟨follow_of_numbered fun i hi => ?_, fun e he => ?_⟩
  · obtain ⟨input, _, hin⟩ := hat i hi
    refine ⟨?_, ?_, fun k hk => ?_⟩
    · rw [streamKey, hin.origin, hin.stream, hown]
      rfl
    · rw [hin.seq, hhigh]
    · show events[i].seen.at k = high w k
      have hseen : events[i].seen = seenOf cover own := by rw [hin.seen, hown]; rfl
      rw [hseen, seenOf_at cover hk, hcover]
  · obtain ⟨i, hi, rfl⟩ := getElem_of_mem he
    obtain ⟨input, _, hin⟩ := hat i hi
    exact hin.scope

end

/-! ### One call -/

theorem high_le_of_subset {w l : List Envelope} (h : ∀ e ∈ w, e ∈ l) (k : String) : high w k ≤ high l k := by
  by_cases hk : high w k = 0
  · omega
  · obtain ⟨t, ht, hp⟩ := exists_high hk
    have hp' := Prod.ext_iff.mp hp
    have hle := seq_le_high (h t ht)
    rw [show streamKey t = k from hp'.1, show t.seq = high w k from hp'.2] at hle
    exact hle

section

variable {ι : Type*} {σ : Setting ι} {l w t : List Envelope} {i : ι} {m : Candidate} {r : Ordered}
  {union : List Envelope} {tx : Candidate}

theorem Recorded.scope_of_own (hl : Recorded σ.codec l) {e : Envelope} (he : e ∈ l)
    (hown : streamKey e = σ.own i) : e.scope = .project := by
  have hv := hl.valid e he
  obtain ⟨_, hs⟩ := positionKey_injective hv.origin (σ.origin_valid i) hown
  obtain ⟨hid, hscope⟩ := hv.stream_id
  rw [← hscope]
  simp only [hs]
  show projectStream.scope = .project
  decide

theorem foldOrder_append_eq_ok {host : Host} {legacy : List LogEvent} {view : View} :
    foldOrder host legacy (w ++ t) = .ok view ↔ ∃ middle, foldOrder host legacy w = .ok middle ∧
      foldEvents host (t.map LogEvent.ofEnvelope) middle = .ok view := by
  rw [foldOrder, map_append, ← append_assoc, foldEvents_append_eq_ok]
  rfl

structure FoldOf (σ : Setting ι) (l : List Envelope) (i : ι) (w : List Envelope) (m : Candidate) : Prop where
  basis : Basis σ.codec l (σ.own i) w
  fold : foldOrder σ.host σ.legacy w = .ok m.view
  cover : ∀ k, m.cursor.cover.at k = high w k

theorem FoldOf.mono (h : FoldOf σ l i w m) (t : List Envelope) : FoldOf σ (l ++ t) i w m :=
  ⟨h.basis.mono t, h.fold, h.cover⟩

theorem FoldOf.append {m' : Candidate} (h : FoldOf σ l i w m) (ht : Follow (σ.own i) w t)
    (hin : ∀ e ∈ t, e ∈ l ∧ e.scope = .project)
    (hview : foldEvents σ.host (t.map LogEvent.ofEnvelope) m.view = .ok m'.view)
    (hcursor : m'.cursor = advance m.cursor t) : FoldOf σ l i (w ++ t) m' where
  basis := ht.basis h.basis hin
  fold := foldOrder_append_eq_ok.mpr ⟨m.view, h.fold, hview⟩
  cover := fun k => hcursor ▸ ht.advance_at h.cover k

/-- A view that a clone keeps. -/
def Kept (σ : Setting ι) (l : List Envelope) (i : ι) (m : Candidate) : Prop := ∃ w, FoldOf σ l i w m

theorem mapError_eq_ok {ε ε' α : Type} {f : ε → ε'} {x : Except ε α} {a : α} : x.mapError f = .ok a ↔ x = .ok a := by
  cases x <;> simp [Except.mapError]

theorem foldHistory_reading {c : Codec} (hsub : ∀ e ∈ union, e ∈ l)
    (h : foldHistory c union ["project"] true none = .ok r) :
    Reading c l (retainedEvents union ["project"] true) r := by
  rw [foldHistory, bind_eq_ok] at h
  obtain ⟨_, hcont, hord⟩ := h
  rw [orderRetained_eq_order] at hord
  exact ⟨fun e he => hsub e (retainedEvents_subset union _ _ e he), contiguous_of_checkContiguous hcont, hord⟩

theorem Kept.foldOrder_eq (h : Kept σ l i m) (hl : Recorded σ.codec l)
    {D : List Envelope} (hread : Reading σ.codec l D r) (hcol : σ.codec.CollisionFree D)
    (hcursor : m.cursor = cursorOf r) : foldOrder σ.host σ.legacy r.events = .ok m.view := by
  obtain ⟨w, hw⟩ := h
  have heq : r.events = w := hw.basis.eq_events hl hread hcol fun k => by
    rw [← coverOf_at, ← hw.cover, hcursor]
    rfl
  rw [heq]
  exact hw.fold

theorem readWorkState_fold (hl : Recorded σ.codec l) (hcol : σ.codec.CollisionFree l)
    (hsub : ∀ e ∈ union, e ∈ l) {cached : Option Candidate} (hcached : ∀ m ∈ cached, Kept σ l i m)
    (h : readWorkState σ.codec σ.host σ.legacy union cached = .ok m) :
    ∃ r, foldHistory σ.codec union ["project"] true none = .ok r ∧ m.cursor = cursorOf r ∧
      FoldOf σ l i r.events m := by
  rw [readWorkState, bind_eq_ok] at h
  obtain ⟨r, hr, h⟩ := h
  rw [mapError_eq_ok] at hr
  have hread := foldHistory_reading hsub hr
  have hcolR : σ.codec.CollisionFree (retainedEvents union ["project"] true) := hcol.mono hread.subset
  have hcover : ∀ k, (cursorOf r).cover.at k = high r.events k := coverOf_at r.events
  refine ⟨r, hr, ?_⟩
  dsimp only at h
  cases hkept : cached.filter fun m => m.cursor = cursorOf r with
  | some m' =>
    rw [hkept] at h
    cases h
    obtain ⟨hmem, hcursor⟩ := filter_eq_some_iff.mp hkept
    refine ⟨rfl, .read hread hcolR, ?_, hcover⟩
    exact (hcached m' hmem).foldOrder_eq hl hread hcolR (by simpa using hcursor)
  | none =>
    rw [hkept] at h
    obtain ⟨view, hview, h⟩ := bind_eq_ok.mp h
    cases h
    exact ⟨rfl, .read hread hcolR, mapError_eq_ok.mp hview, hcover⟩

theorem openTx_foldOf (hl : Recorded σ.codec l) (h : FoldOf σ l i w m)
    (hopen : openTx σ.host (σ.own i) m (ownTail l (σ.own i) (m.cursor.cover.at (σ.own i))) = .ok tx) :
    FoldOf σ l i (w ++ ownTail l (σ.own i) (m.cursor.cover.at (σ.own i))) tx ∧
      Follow (σ.own i) w (ownTail l (σ.own i) (m.cursor.cover.at (σ.own i))) := by
  rw [openTx] at hopen
  split at hopen
  · cases hopen
  · rename_i hcheck
    obtain ⟨view, hview, hopen⟩ := bind_eq_ok.mp hopen
    cases hopen
    have hfollow := ownTail_follow hl.history h.cover (by simpa using hcheck)
    refine ⟨h.append hfollow (fun e he => ?_) (mapError_eq_ok.mp hview) rfl, hfollow⟩
    obtain ⟨hel, hown⟩ := mem_filter.mp he
    rw [Bool.and_eq_true, decide_eq_true_eq] at hown
    exact ⟨hel, hl.scope_of_own hel hown.1⟩

theorem commitEvents_follow (hl : Recorded σ.codec l) (h : FoldOf σ l i w tx)
    (hown : high w (σ.own i) = high l (σ.own i)) {writer : String} {inputs : List TxEvent}
    {events : List Envelope} (hplain : ∀ input ∈ inputs, input.eventType ≠ "store.promote")
    (hcommit : commitEvents σ.host σ.codec σ.registry (σ.origin i) writer (high l (σ.own i)) tx inputs = .ok events) :
    Follow (σ.own i) w events ∧ Recorded σ.codec (l ++ events) ∧
      ∀ e ∈ events, e.scope = .project ∧ e.eventType ≠ "store.promote" := by
  rw [commitEvents] at hcommit
  split at hcommit
  · cases hcommit
    exact ⟨follow_nil, by simpa using hl, by simp⟩
  · have hcursor : CursorOn tx.cursor.cover {e | e ∈ l} := by
      intro k n hk hn
      have hat : high w k = n := by
        rw [← h.cover k, Positions.at, getD_eq_getD_getElem?, hk]
        rfl
      obtain ⟨d, hd, hp⟩ := exists_high (hat.symm ▸ hn)
      exact ⟨d, h.basis.subset hl d hd, hat ▸ hp⟩
    have hgrow := hl.history.append_events hcursor hcommit
    obtain ⟨hfollow, hscope⟩ := append_follow rfl h.cover hown hcommit
    have hall := appended_plain hcommit fun input hin => by
      obtain ⟨event, hevent, rfl⟩ := List.mem_map.mp hin
      obtain ⟨input, hinput, htype⟩ := eventType_of_mem_prepareEvents hevent
      exact htype ▸ hplain input hinput
    exact ⟨hfollow, hl.append hgrow hall, fun e he => ⟨hscope e he, (hall e he).2⟩⟩

/-- What one call folds: an order `r` of what it read, its tail, its batch. -/
structure Call.Folds (σ : Setting ι) (l : List Envelope) (i : ι) (call : Call) (r : Ordered) : Prop where
  read : foldHistory σ.codec call.union ["project"] true none = .ok r
  cursor : call.candidate.cursor = cursorOf r
  candidate : FoldOf σ l i r.events call.candidate
  tail : Follow (σ.own i) r.events call.tail
  tx : FoldOf σ l i (r.events ++ call.tail) call.tx
  events : Follow (σ.own i) (r.events ++ call.tail) call.events
  recorded : Recorded σ.codec (l ++ call.events)
  plain : ∀ e ∈ call.events, e.scope = .project ∧ e.eventType ≠ "store.promote"

theorem Call.Made.folds {s : Gated ι} {call : Call} (h : call.Made σ s i) (hs : s.store.Sound)
    (hl : Recorded σ.codec s.store.acks) (hcol : σ.codec.CollisionFree s.store.acks)
    (hkept : ∀ m ∈ s.caches i, Kept σ s.store.acks i m) : ∃ r, call.Folds σ s.store.acks i r := by
  obtain ⟨r, hr, hcursor, hcandidate⟩ := readWorkState_fold hl hcol (fun e he => hs.held i e (h.union e he))
    (fun m hm => hkept m (h.cached m hm)) h.read
  obtain ⟨htx, htail⟩ := openTx_foldOf hl hcandidate (h.tail ▸ h.opened)
  rw [← h.tail] at htx htail
  have hown : high (r.events ++ call.tail) (σ.own i) = high s.store.acks (σ.own i) := by
    rw [high_append, h.tail, hcandidate.cover, max_high_ownTail]
    exact max_eq_right (high_le_of_subset (hcandidate.basis.subset hl) _)
  obtain ⟨hevents, hrecorded, hplain⟩ := commitEvents_follow hl htx hown h.plain h.events
  exact ⟨r, hr, hcursor, hcandidate, htail, htx, hevents, hrecorded, hplain⟩

theorem Call.Folds.closed {call : Call} (h : call.Folds σ l i r)
    (hclose : closeTx σ.host call.tx call.events = .ok m) :
    FoldOf σ (l ++ call.events) i (r.events ++ call.tail ++ call.events) m := by
  rw [closeTx] at hclose
  obtain ⟨view, hview, hclose⟩ := bind_eq_ok.mp hclose
  cases hclose
  exact (h.tx.mono call.events).append h.events
    (fun e he => ⟨mem_append_right _ he, (h.plain e he).1⟩) hview rfl

end

/-! ### Runs -/

namespace Gated

variable {ι : Type*} [DecidableEq ι] {σ : Setting ι} {admitted : Call → Prop}
  {stores : Cluster ι → Cluster ι → Prop} {s : Gated ι} {i : ι}

/-- What every run keeps true. -/
structure Sound (σ : Setting ι) (s : Gated ι) : Prop where
  store : s.store.Sound
  recorded : Recorded σ.codec s.store.acks
  kept : ∀ i, ∀ m ∈ s.caches i, Kept σ s.store.acks i m

omit [DecidableEq ι] in
theorem Sound.folds (h : Sound σ s) (hcol : σ.codec.CollisionFree s.store.acks)
    {call : Call} (hcall : call.Made σ s i) : ∃ r, call.Folds σ s.store.acks i r :=
  hcall.folds h.store h.recorded hcol (h.kept i)

omit [DecidableEq ι] in
theorem sound_initial : Sound σ (initial : Gated ι) where
  store := Cluster.sound_initial
  recorded := recorded_nil
  kept := fun _ _ hm => hm.elim

/-- **One call** keeps it. -/
theorem Sound.after (h : Sound σ s) (hcol : σ.codec.CollisionFree s.store.acks)
    {call : Call} (hcall : call.Made σ s i) : Sound σ (s.after σ.host i call) := by
  obtain ⟨r, hr⟩ := h.folds hcol hcall
  refine ⟨h.store.acked hr.recorded.history, hr.recorded, fun j m hm => ?_⟩
  have hold : ∀ m ∈ s.caches j, Kept σ (s.store.acks ++ call.events) j m := fun m hm => by
    obtain ⟨w, hw⟩ := h.kept j m hm
    exact ⟨w, hw.mono call.events⟩
  by_cases hij : j = i
  · subst hij
    simp only [Gated.after, update_self] at hm
    rcases hm with hm | hm
    · exact hold m hm
    · exact ⟨_, hr.closed hm⟩
  · simp only [Gated.after, update_of_ne hij] at hm
    exact hold m hm

theorem Sound.stored (h : Sound σ s) {t : Cluster ι}
    (hstep : Cluster.Step σ.codec σ.registry σ.origin s.store t) : Sound σ { s with store := t } := by
  refine ⟨hstep.sound h.store, hstep.recorded h.store h.recorded, fun i m hm => ?_⟩
  obtain ⟨events, hacks⟩ := hstep.acks_append
  obtain ⟨w, hw⟩ := h.kept i m hm
  refine ⟨w, ?_⟩
  show FoldOf σ t.acks i w m
  rw [hacks]
  exact hw.mono events

/-- **Every run** keeps it, while no two events have one digest. -/
theorem Run.sound (h : Run σ admitted stores s) (hcol : σ.codec.CollisionFree s.store.acks) : Sound σ s := by
  induction h with
  | initial => exact sound_initial
  | @call s i call _ hcall _ ih =>
    have hcol' : σ.codec.CollisionFree s.store.acks := hcol.mono fun e he => mem_append_left _ he
    exact (ih hcol').after hcol' hcall
  | @store s t _ hstep _ ih =>
    obtain ⟨events, hacks⟩ := hstep.acks_append
    refine (ih (hcol.mono fun e he => ?_)).stored hstep
    show e ∈ t.acks
    rw [hacks]
    exact mem_append_left _ he

end Gated

/-! ### A small run -/

namespace GateHistory

open Envelope SmallHistory

def host : Host where
  arithmetic := { decimal := fun _ => "", plusOne := fun v => v, atLeast := fun _ _ => false }
  domains := ∅

def registry : Registry := fun eventType =>
  if eventType = "work.add" ∨ eventType = "topic.register" then some ⟨.project, 1⟩
  else Registry.initial eventType

def setting : Setting Bool where
  codec := .integral
  registry := registry
  origin := fun i => if i then store 'a' else store 'b'
  origin_valid := by decide
  host := host
  legacy := []
  legacy_source := by simp

/-- A new item, which may only be added while no other item is being worked on. -/
def draft (id : String) : TxEvent where
  eventType := "work.add"
  payload := .obj [("id", .str id),
    ("precondition", .obj [("capacity", .obj [("max", .nat 1), ("status", .str "doing")])]),
    ("status", .str "doing")]
  ts := "2026-01-01T00:00:00.000Z"

def prepared (id : String) : Json :=
  .obj [("id", .str id),
    ("precondition", .obj [("capacity", .obj [("max", .nat 1), ("status", .str "doing")]),
      ("exists", .bool false)]),
    ("status", .str "doing")]

def here : Envelope :=
  sample 'a' "project" 1 [] "work.add" (prepared "x")
    "c4b2be7f66bcf693e99a369e943dbd91477897380575599c0fc816514c4e8eb3"

def there : Envelope :=
  sample 'b' "project" 1 [] "work.add" (prepared "y")
    "692d7b0f1ebcb97390c791b7b7e19ae3bbd9ddbde5eb91a283d2ebd896ae4d0b"

def opening : Candidate := ⟨.empty, ⟨∅, ∅⟩⟩

def call (input : TxEvent) (event : Envelope) : Call where
  union := []
  cached := none
  candidate := opening
  tail := []
  tx := opening
  writer := "agent"
  inputs := [input]
  events := [event]

def folded (events : List Envelope) : View := (foldOrder host [] events).toOption.getD .empty

theorem foldOrder_folded {events : List Envelope} (h : (foldOrder host [] events).toOption.isSome = true) :
    foldOrder host [] events = .ok (folded events) := by
  rw [folded]
  cases hfold : foldOrder host [] events with
  | ok view => rfl
  | error err =>
    rw [hfold] at h
    cases h

theorem commits : commitEvents host .integral registry (store 'a') "agent" 0 opening [draft "x"] = .ok [here] ∧
    commitEvents host .integral registry (store 'b') "agent" 0 opening [draft "y"] = .ok [there] :=
  ⟨by decide +kernel, by decide +kernel⟩

variable {input : TxEvent}

theorem call_made {s : Gated Bool} {i : Bool} {event : Envelope}
    (htail : ownTail s.store.acks (setting.own i) 0 = []) (hplain : input.eventType ≠ "store.promote")
    (hcommit : commitEvents host .integral registry (setting.origin i) "agent"
      (high s.store.acks (setting.own i)) opening [input] = .ok [event]) : (call input event).Made setting s i where
  union := fun _ he => nomatch he
  cached := fun _ hm => nomatch hm
  read := rfl
  tail := htail.symm
  opened := rfl
  plain := fun _ hinput => mem_singleton.mp hinput ▸ hplain
  events := hcommit

def added : Gated Bool := Gated.initial.after host false (call (draft "y") there)

def exchanged : Gated Bool := { added with store := added.store.fetched true {there} }

/-- Clone `true`, which had read its disk before, added an item too. -/
def merged : Gated Bool := exchanged.after host true (call (draft "x") here)

theorem made_there : (call (draft "y") there).Made setting (Gated.initial : Gated Bool) false :=
  call_made rfl (by decide) commits.2

theorem made_here : (call (draft "x") here).Made setting exchanged true :=
  call_made (by decide) (by decide) commits.1

theorem disk_added : there ∈ added.store.disk false := by
  show there ∈ Function.update (fun _ => (∅ : Set Envelope)) false (∅ ∪ {e | e ∈ [there]}) false
  rw [update_self]
  exact .inr (mem_singleton_self _)

theorem disk_merged (e : Envelope) : e ∈ merged.store.disk true ↔ e ∈ [there, here] := by
  show e ∈ Function.update exchanged.store.disk true
    (Function.update added.store.disk true (∅ ∪ {there}) true ∪ {e | e ∈ [here]}) true ↔ _
  rw [update_self, update_self]
  simp [or_comm]

section

variable {admitted : Call → Prop} {stores : Cluster Bool → Cluster Bool → Prop}

theorem run_exchanged (h : admitted (call (draft "y") there)) (hstores : ∀ s t, t.acks = s.acks → stores s t) :
    Gated.Run setting admitted stores exchanged := by
  exact .store (.call false _ .initial made_there h)
    (.fetch true false {there} (Set.singleton_subset_iff.mpr disk_added)) (hstores _ _ rfl)

theorem run_merged (h : admitted (call (draft "y") there)) (h' : admitted (call (draft "x") here))
    (hstores : ∀ s t, t.acks = s.acks → stores s t) : Gated.Run setting admitted stores merged :=
  .call true _ (run_exchanged h hstores) made_here h'

end

theorem valid_of_commit {origin : String} {e : Envelope}
    (h : commitEvents host .integral registry origin "agent" 0 opening [input] = .ok [e]) : e.Valid .integral := by
  rw [commitEvents, if_neg (by simp)] at h
  exact valid_of_append h

theorem valid_here : here.Valid .integral := valid_of_commit commits.1

theorem valid_there : there.Valid .integral := valid_of_commit commits.2

theorem collisionFree : Codec.integral.CollisionFree [there, here] :=
  .of_nodup (by simp [AllValid, valid_here, valid_there]) (by decide)

def ordered : Ordered := ⟨[here, there], [], ∅, [(here.h, there.h)]⟩

theorem fold_merged : foldHistory .integral [there, here] ["project"] true none = .ok ordered := by
  have hv : AllValid .integral [there, here] := by simp [AllValid, valid_here, valid_there]
  rw [foldHistory_of_contiguous (l := [there, here]) (by decide) (by decide),
    order_of_nodup hv (by decide)]
  decide

end GateHistory

end Forgent
