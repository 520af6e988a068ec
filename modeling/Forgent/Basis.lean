import Forgent.Emission

/-!
# What a writer has folded

A clone that appends to its stream has folded a list of events: what an order of its events emitted, and
behind it the events it appended itself since then, each of which has seen everything before it
(`Basis`).  The list is no order of anything on the disk as it stands, but every order finds it again: an
order that emits an event whose writer had folded `w` emits all of `w` before the event, in the same
sequence (`Basis.filter_prefix`); and an order that emits the events of `w` and no others emits `w`
(`Basis.eq_events`).
-/

namespace Forgent

open Relation List Std.ExtTreeMap

/-- The next event of the stream `own` behind `w`: it has seen every other stream as far as `w` goes. -/
structure Next (own : String) (w : List Envelope) (e : Envelope) : Prop where
  stream : streamKey e = own
  seq : e.seq = high w own + 1
  seen : ∀ k ≠ own, e.seen.at k = high w k

/-- What a clone with the project stream `own` can have folded. -/
inductive Basis (c : Codec) (l : List Envelope) (own : String) : List Envelope → Prop
  | read {D r} : Reading c l D r → c.CollisionFree D → Basis c l own r.events
  | snoc {w e} : Basis c l own w → e ∈ l → e.scope = .project → Next own w e → Basis c l own (w ++ [e])

/-! ### Closed parts of a history -/

/-- With every event its dependencies are there. -/
def DependencyClosed (P : List Envelope) : Prop :=
  ∀ x ∈ P, ∀ p ∈ dependencies x, ∃ d ∈ P, position d = p

section

variable {l P : List Envelope}

theorem DependencyClosed.earlier (h : DependencyClosed P) (hl : History l) (hsub : ∀ x ∈ P, x ∈ l)
    {t d : Envelope} (ht : t ∈ P) (hd : d ∈ l) (hkey : streamKey d = streamKey t) (hpos : 0 < d.seq)
    (hle : d.seq ≤ t.seq) : d ∈ P := by
  have hcont : Contiguous P := fun e he hseq => by
    refine h e he _ ?_
    rw [dependencies, if_pos hseq]
    exact mem_append_right _ (by simp)
  obtain ⟨d', hd', hp⟩ := hcont.exists_position ht hpos hle
  have hdd : d' = d := hl.event_unique (hsub d' hd') hd (hp.trans (Prod.ext hkey.symm rfl))
  exact hdd ▸ hd'

theorem exists_high {w : List Envelope} {k : String} (h : high w k ≠ 0) : ∃ t ∈ w, position t = (k, high w k) := by
  induction w with
  | nil => exact absurd rfl h
  | cons e w ih =>
    have hcons : high (e :: w) k = max (high [e] k) (high w k) := high_append [e] w k
    rw [hcons] at h ⊢
    rcases le_total (high [e] k) (high w k) with hle | hle
    · rw [max_eq_right hle] at h ⊢
      obtain ⟨t, ht, hp⟩ := ih h
      exact ⟨t, mem_cons_of_mem _ ht, hp⟩
    · rw [max_eq_left hle] at h ⊢
      rw [high_singleton] at h ⊢
      split at h
      · rename_i hk
        rw [if_pos hk]
        exact ⟨e, by simp, Prod.ext hk rfl⟩
      · exact absurd rfl h

end

theorem filter_append_left {s t w : List Envelope} (h : ∀ x ∈ t, x ∉ w) :
    (s ++ t).filter (· ∈ w) = s.filter (· ∈ w) := by
  have ht : t.filter (· ∈ w) = [] := filter_eq_nil_iff.mpr fun x hx => by simpa using h x hx
  rw [filter_append, ht, append_nil]

/-! ### What is in a basis -/

section

variable {c : Codec} {l : List Envelope} {own : String} {w : List Envelope} {e : Envelope}
  {S T : List (List Envelope)} {p s : List Envelope} {ms : List Envelope}

theorem Basis.mono (h : Basis c l own w) (m : List Envelope) : Basis c (l ++ m) own w := by
  induction h with
  | read hread hcol =>
    exact .read ⟨fun e he => mem_append_left _ (hread.subset e he), hread.contiguous, hread.order⟩ hcol
  | snoc _ he hscope hnext ih => exact ih.snoc (mem_append_left _ he) hscope hnext

variable (hl : Recorded c l)
include hl

theorem Basis.subset (h : Basis c l own w) : ∀ x ∈ w, x ∈ l := by
  induction h with
  | read hread hcol =>
    obtain ⟨bs, hbs⟩ := hread.emits hl hcol
    exact hbs.subset
  | snoc _ he _ _ ih =>
    intro x hx
    rcases mem_append.mp hx with hx | hx
    · exact ih x hx
    · rw [mem_singleton.mp hx]
      exact he

theorem Basis.head_mem (h : Basis c l own w) : ∀ x ∈ w, ∃ p ∈ w, headOf l x = some p := by
  induction h with
  | read hread hcol =>
    obtain ⟨bs, hbs⟩ := hread.emits hl hcol
    intro x hx
    obtain ⟨e, ms, hb, _, hhead⟩ := hbs.exists_block hx
    exact ⟨e, hbs.mem_of_block hb (by simp), hhead⟩
  | snoc _ _ hscope _ ih =>
    intro x hx
    rcases mem_append.mp hx with hx | hx
    · obtain ⟨p, hp, hhead⟩ := ih x hx
      exact ⟨p, mem_append_left _ hp, hhead⟩
    · rw [mem_singleton] at hx
      subst hx
      exact ⟨x, by simp, by rw [headOf, if_pos hscope]⟩

theorem Basis.mem_iff (h : Basis c l own w) {x : Envelope} (hx : x ∈ l) : x ∈ w ↔ x.seq ≤ high w (streamKey x) := by
  refine ⟨seq_le_high, ?_⟩
  have hpos := (hl.valid x hx).seq_pos
  induction h with
  | read hread hcol =>
    obtain ⟨bs, hbs⟩ := hread.emits hl hcol
    intro hle
    have hhigh : high _ (streamKey x) ≠ 0 := Nat.ne_of_gt (hpos.trans_le hle)
    obtain ⟨t, ht, hp⟩ := exists_high hhigh
    have hp' := Prod.ext_iff.mp hp
    exact DependencyClosed.earlier hbs.needs hl.history hbs.subset ht hx hp'.1.symm hpos
      (hle.trans hp'.2.ge)
  | @snoc w e hw he hscope hnext ih =>
    intro hle
    rw [high_append, high_singleton] at hle
    by_cases hkey : streamKey e = streamKey x
    · rw [if_pos hkey, le_max_iff] at hle
      rcases hle with hle | hle
      · exact mem_append_left _ (ih hle)
      · rcases Nat.lt_or_eq_of_le hle with hlt | heq
        · refine mem_append_left _ (ih ?_)
          have hseq := hnext.seq
          rw [← hnext.stream, hkey] at hseq
          omega
        · have hxe : x = e := hl.history.event_unique hx he (Prod.ext hkey.symm heq)
          simp [hxe]
    · rw [if_neg hkey, Nat.max_zero] at hle
      exact mem_append_left _ (ih hle)

theorem Basis.not_mem_next (h : Basis c l own w) (he : e ∈ l) (hnext : Next own w e) : e ∉ w := by
  rw [h.mem_iff hl he, hnext.stream, hnext.seq]
  omega

omit hl in
theorem Next.depends (hnext : Next own w e) {k : String} (hk : high w k ≠ 0) : (k, high w k) ∈ dependencies e := by
  rw [dependencies, mem_append]
  by_cases hown : k = own
  · subst hown
    refine .inr ?_
    rw [if_pos (by have := hnext.seq; omega), mem_singleton, hnext.stream, hnext.seq]
    rfl
  · refine .inl (mem_toList_iff_getElem?_eq_some.mpr ?_)
    have hseen := hnext.seen k hown
    rw [Positions.at, getD_eq_getD_getElem?] at hseen
    cases hget : e.seen[k]? with
    | none =>
      rw [hget] at hseen
      exact absurd hseen.symm hk
    | some n =>
      rw [hget] at hseen
      exact congrArg some hseen

/-! ### A basis inside an order -/

variable {r : Ordered} {bs : List (List Envelope)}

theorem Emits.closed_left (h : Emits l r bs) (hbs : bs = S ++ T) : DependencyClosed S.flatten := by
  intro x hx p hp
  obtain ⟨b, hb, hxb⟩ := mem_flatten.mp hx
  have hbbs : b ∈ bs := hbs ▸ mem_append_left _ hb
  obtain ⟨d, hd, hdp⟩ := h.needs x (h.mem_of_block hbbs hxb) p hp
  obtain ⟨e, ms, hb', hdb', _⟩ := h.exists_block hd
  by_cases hsame : e :: ms = b
  · exact ⟨d, mem_flatten.mpr ⟨b, hb, hsame ▸ hdb'⟩, hdp⟩
  · obtain ⟨s, t, hS⟩ := append_of_mem hb
    have hdep : DependsOn bs ∅ b (e :: ms) := by
      refine ⟨hb', hsame, p, mem_filter.mpr ⟨mem_flatMap.mpr ⟨x, hxb, hp⟩, ?_⟩, d, hdb', hdp⟩
      exact above_of_mem_dependencies (hl.valid x (h.subset x (h.mem_of_block hbbs hxb))) hp
    have hbefore : e :: ms ∈ s := h.run.deps_before s b (t ++ T) (by rw [hbs, hS]; simp) _ hdep
    refine ⟨d, mem_flatten.mpr ⟨e :: ms, ?_, hdb'⟩, hdp⟩
    rw [hS]
    exact mem_append_left _ hbefore

omit hl in
theorem Emits.block_of_project (h : Emits l r bs) (he : e ∈ r.events)
    (hscope : e.scope = .project) : ∃ S ms T, bs = S ++ (e :: ms) :: T := by
  obtain ⟨e', ms, hb, _, hhead⟩ := h.exists_block he
  rw [headOf, if_pos hscope, Option.some.injEq] at hhead
  subst hhead
  obtain ⟨S, T, hbs⟩ := append_of_mem hb
  exact ⟨S, ms, T, hbs⟩

/-- What the writer of an emitted event had folded stands before the block of the event. -/
theorem Basis.mem_left (h : Basis c l own w) (hr : Emits l r bs) (he : e ∈ l) (hnext : Next own w e)
    (hbs : bs = S ++ (e :: ms) :: T) : ∀ d ∈ w, d ∈ S.flatten := by
  intro d hd
  have hblock : e :: ms ∈ bs := by
    rw [hbs]
    simp
  have hdl := h.subset hl d hd
  have hdpos := (hl.valid d hdl).seq_pos
  have hhigh : high w (streamKey d) ≠ 0 := by
    have := seq_le_high hd
    omega
  -- the last event of the stream of `d` in the basis
  obtain ⟨t, ht, htp⟩ := exists_high hhigh
  have htp' := Prod.ext_iff.mp htp
  have htkey : streamKey t = streamKey d := htp'.1
  have htseq : t.seq = high w (streamKey d) := htp'.2
  have hdep := hnext.depends hhigh
  obtain ⟨t', ht', htp''⟩ := hr.needs e (hr.mem_of_block hblock (by simp)) _ hdep
  have htt : t' = t := hl.history.event_unique (hr.subset t' ht') (h.subset hl t ht) (htp''.trans htp.symm)
  subst htt
  have htS : t' ∈ S.flatten := by
    obtain ⟨e', ms', hb', htb', hhead⟩ := hr.exists_block ht'
    obtain ⟨p, hp, hhead'⟩ := h.head_mem hl t' ht
    rw [hhead, Option.some.injEq] at hhead'
    subst hhead'
    have hne : e' :: ms' ≠ e :: ms := by
      intro heq
      have hee : e' = e := (List.cons.inj heq).1
      exact h.not_mem_next hl he hnext (hee ▸ hp)
    have hdepb : DependsOn bs ∅ (e :: ms) (e' :: ms') := by
      refine ⟨hb', hne, _, mem_filter.mpr ⟨mem_flatMap.mpr ⟨e, by simp, hdep⟩, ?_⟩, t', htb', htp''⟩
      exact above_of_mem_dependencies (hl.valid e he) hdep
    have hbefore : e' :: ms' ∈ S := hr.run.deps_before S (e :: ms) T hbs _ hdepb
    exact mem_flatten.mpr ⟨_, hbefore, htb'⟩
  have hsub : ∀ x ∈ S.flatten, x ∈ l := fun x hx => by
    obtain ⟨b, hb, hxb⟩ := mem_flatten.mp hx
    exact hr.subset x (hr.mem_of_block (hbs ▸ mem_append_left _ hb) hxb)
  exact (hr.closed_left hl hbs).earlier hl.history hsub htS hdl htkey.symm hdpos (htseq ▸ seq_le_high hd)

omit hl in
theorem Emits.prefix_eq (h : Emits l r bs) (hps : r.events = p ++ e :: s)
    (hbs : bs = S ++ (e :: ms) :: T) : p = S.flatten ∧ s = ms ++ T.flatten := by
  have hevents : p ++ e :: s = S.flatten ++ e :: (ms ++ T.flatten) := by
    rw [← hps, h.events, hbs]
    simp
  have hnd : (p ++ e :: s).Nodup := hps ▸ h.nodup
  have hp : e ∉ p := fun hmem => (nodup_append.mp hnd).2.2 e hmem e (by simp) rfl
  have hS : e ∉ S.flatten := fun hmem =>
    (nodup_append.mp (hevents ▸ hnd)).2.2 e hmem e (by simp) rfl
  have hidx := congrArg (List.idxOf e) hevents
  rw [idxOf_append_of_notMem hp, idxOf_append_of_notMem hS, idxOf_cons_self, idxOf_cons_self] at hidx
  obtain ⟨hpS, hrest⟩ := append_inj hevents (by omega)
  exact ⟨hpS, (List.cons.inj hrest).2⟩

variable (h : Basis c l own w)

include h

section

variable (hr : Emits l r bs)

include hr

/-- **An order finds a basis again.** -/
theorem Basis.filter_eq (hsub : ∀ x ∈ w, x ∈ r.events) : r.events.filter (· ∈ w) = w := by
  induction h with
  | read hread hcol =>
    obtain ⟨bs', hbs'⟩ := hread.emits hl hcol
    exact hbs'.filter_eq hl.history hr hsub
  | @snoc w e hw he hscope hnext ih =>
    have hwsub : ∀ x ∈ w, x ∈ r.events := fun x hx => hsub x (mem_append_left _ hx)
    have her : e ∈ r.events := hsub e (by simp)
    obtain ⟨S, ms, T, hbs⟩ := hr.block_of_project her hscope
    have hevents : r.events = S.flatten ++ e :: (ms ++ T.flatten) := by
      rw [hr.events, hbs]
      simp
    have hnd := hr.nodup
    rw [hevents] at hnd
    have hleft := hw.mem_left hl hr he hnext hbs
    have hrest : ∀ x ∈ ms ++ T.flatten, x ∉ w := fun x hx hxw =>
      (nodup_append.mp hnd).2.2 x (hleft x hxw) x (mem_cons_of_mem _ hx) rfl
    have hew := hw.not_mem_next hl he hnext
    have hSe : ∀ x ∈ S.flatten, x ≠ e := fun x hx hxe =>
      (nodup_append.mp hnd).2.2 x hx e (by simp) hxe
    have hrestne : ∀ x ∈ ms ++ T.flatten, x ≠ e := fun x hx hxe =>
      (nodup_cons.mp (nodup_append.mp hnd).2.1).1 (hxe ▸ hx)
    have hold : S.flatten.filter (· ∈ w) = w := by
      have hfold := ih hwsub
      rwa [hevents, filter_append_left fun x hx => ?_] at hfold
      rcases mem_cons.mp hx with rfl | hx
      · exact hew
      · exact hrest x hx
    have hnew : S.flatten.filter (· ∈ w ++ [e]) = S.flatten.filter (· ∈ w) := by
      refine filter_congr fun x hx => ?_
      simp [hSe x hx]
    rw [hevents, filter_append, filter_cons_of_pos (by simp), hnew, hold,
      filter_eq_nil_iff.mpr fun x hx => by simp [hrest x hx, hrestne x hx]]

theorem Basis.filter_prefix (he : e ∈ l) (hscope : e.scope = .project) (hnext : Next own w e)
    (hps : r.events = p ++ e :: s) : (∀ d ∈ w, d ∈ p) ∧ p.filter (· ∈ w) = w := by
  obtain ⟨S, ms, T, hbs⟩ := hr.block_of_project (e := e) (by rw [hps]; simp) hscope
  obtain ⟨rfl, rfl⟩ := hr.prefix_eq hps hbs
  have hleft := h.mem_left hl hr he hnext hbs
  refine ⟨hleft, ?_⟩
  have hfold := h.filter_eq hl hr fun x hx => by
    rw [hps]
    exact mem_append_left _ (hleft x hx)
  have hnd := hr.nodup
  rw [hps] at hnd hfold
  have hrest : ∀ x ∈ e :: (ms ++ T.flatten), x ∉ w := fun x hx hxw =>
    (nodup_append.mp hnd).2.2 x (hleft x hxw) x hx rfl
  rwa [filter_append_left hrest] at hfold

theorem Basis.mem_of_seen (he : e ∈ l)
    (hscope : e.scope = .project) (hnext : Next own w e) (hps : r.events = p ++ e :: s) {d : Envelope} (hd : d ∈ p)
    (hseen : streamKey d ≠ own → d.seq ≤ e.seen.at (streamKey d)) : d ∈ w := by
  obtain ⟨S, ms, T, hbs⟩ := hr.block_of_project (e := e) (by rw [hps]; simp) hscope
  obtain ⟨rfl, rfl⟩ := hr.prefix_eq hps hbs
  have hsub : ∀ x ∈ S.flatten, x ∈ l := fun x hx => hr.subset x (by rw [hps]; exact mem_append_left _ hx)
  have hnd := hr.nodup
  rw [hps] at hnd
  have heS : e ∉ S.flatten := fun hmem => (nodup_append.mp hnd).2.2 e hmem e (by simp) rfl
  rw [h.mem_iff hl (hsub d hd)]
  by_cases hkey : streamKey d = own
  · -- of the own stream only earlier events come before `e`
    have hlt : ¬ e.seq ≤ d.seq := fun hle => heS ((hr.closed_left hl hbs).earlier hl.history hsub hd he
      (hnext.stream.trans hkey.symm) (hl.valid e he).seq_pos hle)
    have hseq := hnext.seq
    rw [hkey]
    omega
  · rw [← hnext.seen _ hkey]
    exact hseen hkey

theorem Basis.eq_prefix (he : e ∈ l)
    (hscope : e.scope = .project) (hnext : Next own w e) (hps : r.events = p ++ e :: s)
    (hseen : ∀ d ∈ p, streamKey d ≠ own → d.seq ≤ e.seen.at (streamKey d)) : p = w := by
  obtain ⟨_, hfilter⟩ := h.filter_prefix hl hr he hscope hnext hps
  have hall : ∀ d ∈ p, d ∈ w := fun d hd => h.mem_of_seen hl hr he hscope hnext hps hd (hseen d hd)
  rwa [List.filter_eq_self.mpr fun d hd => by simpa using hall d hd] at hfilter

end

/-- **An order that goes as far as a basis in every stream emits the basis.** -/
theorem Basis.eq_events {D : List Envelope} (hread : Reading c l D r)
    (hcol : c.CollisionFree D) (hhigh : ∀ k, high r.events k = high w k) : r.events = w := by
  obtain ⟨bs, hbs⟩ := hread.emits hl hcol
  have hr : Basis c l own r.events := .read hread hcol
  have hmem : ∀ x, x ∈ r.events ↔ x ∈ w := by
    intro x
    constructor
    · intro hx
      have hxl := hbs.subset x hx
      rwa [h.mem_iff hl hxl, ← hhigh, ← hr.mem_iff hl hxl]
    · intro hx
      have hxl := h.subset hl x hx
      rwa [hr.mem_iff hl hxl, hhigh, ← h.mem_iff hl hxl]
  have hfilter := h.filter_eq hl hbs fun x hx => (hmem x).mpr hx
  rwa [List.filter_eq_self.mpr fun x hx => by simpa using (hmem x).mp hx] at hfilter

end

end Forgent
