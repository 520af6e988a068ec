import Forgent.GitWal

/-!
# What binds an operation id

While the id has no ledger entry, record zero of the directory that carries its name binds it; from then on the entry does.
No step of a call takes a binding away.
-/

namespace Forgent.GitWal

open List Option

variable {κ φ : Type} (crate : Crate κ φ) {c : CompactReceipt} {d n : ℕ} {e : ℕ} {created : Bool}

/-- What a record zero binds. -/
def keyOfRecord (r : Record κ φ) : Option (String × String) :=
  match r.phase with
  | .intent i => some (key crate i)
  | .later _ => none

/-- What binds the id. -/
def bound (s : Store κ φ) : Option (String × String) :=
  match s.ledger with
  | some c => some (c.request, c.binding)
  | none => s.root.bind fun d => (s.record d 0).bind (keyOfRecord crate)

/-- The files of the id in every run; the last field in runs without a late record zero. -/
structure Inv (timely : Prop) (s : Store κ φ) : Prop where
  linked : ∀ d, s.root = some d → ∃ dir, s.dirs[d]? = some dir ∧ dir.linked = true
  named : ∀ d dir, s.dirs[d]? = some dir → dir.linked = true → s.root = some d
  gone : ∀ (d : ℕ) (dir : Dir κ φ), s.dirs[d]? = some dir → dir.linked = false → dir.records = []
  zero : ∀ d r, s.record d 0 = some r → ∃ i, r.phase = .intent i ∧ i.repoIdentity = crate.identity
  entered : timely → ∀ c, s.ledger = some c → ∀ d r, s.record d 0 = some r → keyOfRecord crate r = some (c.request, c.binding)

/-- What no step changes. -/
structure Keeps (s s' : Store κ φ) : Prop where
  ledger : ∀ c, s.ledger = some c → s'.ledger = some c
  bound : ∀ k, bound crate s = some k → bound crate s' = some k
  root : ∀ d, s'.ledger = none → s.root = some d → s'.root = some d

variable {crate} {timely : Prop} {s s' s'' : Store κ φ} {r : Record κ φ} {dir dir' : Dir κ φ}

theorem Keeps.refl (s : Store κ φ) : Keeps crate s s := ⟨fun _ h => h, fun _ h => h, fun _ _ h => h⟩

theorem Keeps.ledger_none (h : Keeps crate s s') (hnone : s'.ledger = none) : s.ledger = none := by
  cases hledger : s.ledger with
  | none => rfl
  | some c =>
    rw [h.ledger c hledger] at hnone
    cases hnone

theorem Keeps.trans (h : Keeps crate s s') (h' : Keeps crate s' s'') : Keeps crate s s'' :=
  ⟨fun c hc => h'.ledger c (h.ledger c hc), fun k hk => h'.bound k (h.bound k hk),
    fun d hnone hd => h'.root d hnone (h.root d (h'.ledger_none hnone) hd)⟩

theorem bound_of_ledger (h : s.ledger = some c) : bound crate s = some (c.request, c.binding) := by
  rw [bound, h]

theorem bound_of_record (hledger : s.ledger = none) (hroot : s.root = some d)
    (hrecord : s.record d 0 = some r) : bound crate s = keyOfRecord crate r := by
  rw [bound, hledger, hroot]
  show (s.record d 0).bind _ = _
  rw [hrecord]
  rfl

theorem Keeps.of_entered (h : s.ledger = some c) (hsame : s'.ledger = s.ledger) : Keeps crate s s' := by
  refine ⟨fun c' hc' => hsame.trans hc', fun k hk => ?_, fun d hnone => ?_⟩
  · rw [bound_of_ledger h] at hk
    rw [bound_of_ledger (hsame.trans h), hk]
  · rw [hsame, h] at hnone
    cases hnone

theorem lookup_filter_ne {α : Type} (l : List (ℕ × α)) {m : ℕ} (h : n ≠ m) :
    (l.filter fun r => decide (r.1 ≠ n)).lookup m = l.lookup m := by
  induction l with
  | nil => rfl
  | cons r l ih =>
    obtain ⟨k, v⟩ := r
    by_cases hk : k = n
    · subst hk
      rw [filter_cons_of_neg (by simp), ih, lookup_cons, beq_false_of_ne (Ne.symm h)]
    · rw [filter_cons_of_pos (by simpa using hk), lookup_cons, lookup_cons, ih]

/-! ### The operations on the files -/

theorem record_eq_some :
    s.record d n = some r ↔ ∃ dir, s.dirs[d]? = some dir ∧ dir.records.lookup n = some r := bind_eq_some_iff

theorem record_set {ledger : Option CompactReceipt} {root : Option ℕ} (hdir : s.dirs[d]? = some dir) :
    (Store.mk ledger root (s.dirs.set d dir')).record e n = if e = d then dir'.records.lookup n else s.record e n := by
  show ((s.dirs.set d dir')[e]?).bind _ = _
  have hlt := (List.getElem?_eq_some_iff.mp hdir).1
  by_cases heq : e = d
  · rw [if_pos heq, heq, getElem?_set_self hlt]
    rfl
  · rw [if_neg heq, getElem?_set_ne (Ne.symm heq)]
    rfl

theorem getElem?_set_cases {dir'' : Dir κ φ} (h : (s.dirs.set d dir')[e]? = some dir'') :
    (e = d ∧ dir'' = dir') ∨ s.dirs[e]? = some dir'' := by
  by_cases heq : d = e
  · subst heq
    have hlt := (List.getElem?_eq_some_iff.mp h).1
    rw [length_set] at hlt
    rw [getElem?_set_self hlt] at h
    exact .inl ⟨rfl, (some.inj h).symm⟩
  · rw [getElem?_set_ne heq] at h
    exact .inr h

variable (h : Inv crate timely s)

include h

theorem Inv.setDir (hdir : s.dirs[d]? = some dir)
    (hlinked : dir'.linked = dir.linked) (hgone : dir.linked = false → dir.records = [] → dir'.records = [])
    (hzero : ∀ e r, (Store.mk s.ledger s.root (s.dirs.set d dir')).record e 0 = some r → s.record e 0 = some r ∨
      (∃ i, r.phase = .intent i ∧ i.repoIdentity = crate.identity) ∧ (timely → s.ledger = none)) :
    Inv crate timely { s with dirs := s.dirs.set d dir' } := by
  have hlt := (List.getElem?_eq_some_iff.mp hdir).1
  refine ⟨fun e he => ?_, fun e dir'' he hl => ?_, fun e dir'' he hl => ?_, fun e r hr => ?_, fun ht c hc e r hr => ?_⟩
  · obtain ⟨dir₀, hdir₀, hl⟩ := h.linked e he
    by_cases heq : d = e
    · subst heq
      obtain rfl := some.inj (hdir.symm.trans hdir₀)
      exact ⟨dir', getElem?_set_self hlt, hlinked.trans hl⟩
    · exact ⟨dir₀, (getElem?_set_ne heq).trans hdir₀, hl⟩
  · cases getElem?_set_cases he with
    | inl hself => exact hself.1 ▸ h.named d dir hdir (hlinked ▸ hself.2 ▸ hl)
    | inr hold => exact h.named e dir'' hold hl
  · cases getElem?_set_cases he with
    | inl hself =>
      obtain ⟨-, rfl⟩ := hself
      have hl : dir.linked = false := hlinked ▸ hl
      exact hgone hl (h.gone d dir hdir hl)
    | inr hold => exact h.gone e dir'' hold hl
  · exact (hzero e r hr).elim (h.zero e r) And.left
  · refine (hzero e r hr).elim (h.entered ht c hc e r) fun hnew => ?_
    rw [show s.ledger = some c from hc] at hnew
    cases hnew.2 ht

theorem Inv.temporaries (hdir : s.dirs[d]? = some dir)
    (hlinked : dir'.linked = dir.linked) (hrecords : dir'.records = dir.records) :
    Inv crate timely { s with dirs := s.dirs.set d dir' } ∧ Keeps crate s { s with dirs := s.dirs.set d dir' } := by
  have hrecord : ∀ e n, (Store.mk s.ledger s.root (s.dirs.set d dir')).record e n = s.record e n := by
    intro e n
    rw [record_set hdir]
    split
    · next heq =>
      rw [heq, hrecords, Store.record, hdir]
      rfl
    · rfl
  refine ⟨h.setDir hdir hlinked (fun _ hnil => hrecords.trans hnil) fun e r hr => .inl ((hrecord e 0).symm.trans hr),
    ⟨fun c hc => hc, fun k hk => ?_, fun e _ he => he⟩⟩
  · rw [bound] at hk ⊢
    simp only [hrecord]
    exact hk

theorem Inv.addTemporary (hstep : s.addTemporary d = some s') : Inv crate timely s' ∧ Keeps crate s s' := by
  obtain ⟨dir, hdir, hstep⟩ := bind_eq_some_iff.mp hstep
  split at hstep
  · cases hstep
    exact h.temporaries hdir rfl rfl
  · cases hstep

theorem Inv.dropTemporary (d : ℕ) : Inv crate timely (s.dropTemporary d) ∧ Keeps crate s (s.dropTemporary d) := by
  cases hdir : s.dirs[d]? with
  | none =>
    have hsame : s.dropTemporary d = s := by
      rw [Store.dropTemporary, modify_eq_self (List.getElem?_eq_none_iff.mp hdir)]
    rw [hsame]
    exact ⟨h, Keeps.refl s⟩
  | some dir =>
    have hset : s.dropTemporary d = { s with dirs := s.dirs.set d { dir with temporaries := dir.temporaries - 1 } } := by
      have hlt := (List.getElem?_eq_some_iff.mp hdir).1
      rw [Store.dropTemporary]
      congr 1
      apply ext_getElem?
      intro e
      rw [getElem?_modify, List.getElem?_set]
      by_cases heq : d = e
      · subst heq
        rw [if_pos rfl, if_pos hlt, hdir]
        simp
      · rw [if_neg heq]
        simp [heq]
    rw [hset]
    exact h.temporaries hdir rfl rfl

theorem Inv.makeDir : Inv crate timely s.makeDir ∧ Keeps crate s s.makeDir := by
  unfold Store.makeDir
  cases hroot : s.root with
  | some d => exact ⟨h, Keeps.refl s⟩
  | none =>
    have hrecord : ∀ e n, (Store.mk s.ledger (some s.dirs.length) (s.dirs ++ [⟨true, [], 0⟩])).record e n = s.record e n := by
      intro e n
      show ((s.dirs ++ [⟨true, [], 0⟩])[e]?).bind _ = (s.dirs[e]?).bind _
      by_cases hlt : e < s.dirs.length
      · rw [getElem?_append_left hlt]
      · rw [getElem?_eq_none (Nat.le_of_not_lt hlt), getElem?_append_right (Nat.le_of_not_lt hlt)]
        cases e - s.dirs.length <;> rfl
    have hcases : ∀ (e : ℕ) (dir : Dir κ φ), (s.dirs ++ [⟨true, [], 0⟩])[e]? = some dir →
        s.dirs[e]? = some dir ∨ e = s.dirs.length ∧ dir = ⟨true, [], 0⟩ := by
      intro e dir he
      have hlt := (List.getElem?_eq_some_iff.mp he).1
      rw [length_append, length_singleton] at hlt
      by_cases hold : e < s.dirs.length
      · rw [getElem?_append_left hold] at he
        exact .inl he
      · obtain rfl : e = s.dirs.length := by omega
        rw [getElem?_append_right (Nat.le_refl _), Nat.sub_self] at he
        exact .inr ⟨rfl, (some.inj he).symm⟩
    have hunlinked : ∀ (e : ℕ) (dir : Dir κ φ), s.dirs[e]? = some dir → dir.linked = false := by
      intro e dir he
      cases hl : dir.linked with
      | false => rfl
      | true =>
        have := h.named e dir he hl
        rw [hroot] at this
        cases this
    refine ⟨⟨fun e he => ?_, fun e dir he hl => ?_, fun e dir he hl => ?_, fun e r hr => ?_, fun ht c hc e r hr => ?_⟩,
      ⟨fun c hc => hc, fun k hk => ?_, fun e _ he => by rw [hroot] at he; cases he⟩⟩
    · cases he
      exact ⟨⟨true, [], 0⟩, by rw [getElem?_append_right (Nat.le_refl _), Nat.sub_self]; rfl, rfl⟩
    · cases hcases e dir he with
      | inl hold =>
        rw [hunlinked e dir hold] at hl
        cases hl
      | inr hnew => exact congrArg some hnew.1.symm
    · cases hcases e dir he with
      | inl hold => exact h.gone e dir hold hl
      | inr hnew =>
        rw [hnew.2] at hl
        cases hl
    · exact h.zero e r ((hrecord e 0).symm.trans hr)
    · exact h.entered ht c hc e r ((hrecord e 0).symm.trans hr)
    · rw [bound] at hk ⊢
      rw [hroot] at hk
      cases hledger : s.ledger with
      | none =>
        rw [hledger] at hk
        cases hk
      | some c =>
        rw [hledger] at hk
        exact hk

/-- A record that is installed: no record zero is replaced, and a new one is an intent of this repository. -/
theorem Inv.link (hstep : s.link d r = some (created, s'))
    (hzero : r.sequence = 0 → ∃ i, r.phase = .intent i ∧ i.repoIdentity = crate.identity)
    (hlate : r.sequence = 0 → timely → s.ledger = none) : Inv crate timely s' ∧ Keeps crate s s' ∧
      (created = true → s.root = some d ∧ s.record d r.sequence = none ∧ s'.record d r.sequence = some r ∧ s'.ledger = s.ledger ∧
        s'.root = s.root) := by
  obtain ⟨dir, hdir, hstep⟩ := bind_eq_some_iff.mp hstep
  by_cases hlinked : dir.linked = true
  · rw [if_neg (by simp [hlinked])] at hstep
    have hroot := h.named d dir hdir hlinked
    split at hstep
    · cases hstep
      exact ⟨h, Keeps.refl s, fun hcreated => by cases hcreated⟩
    · next hfree =>
      cases hstep
      have hnone : s.record d r.sequence = none := by
        rw [Store.record, hdir]
        exact hfree
      have hrecord : ∀ e n r', (Store.mk s.ledger s.root
          (s.dirs.set d { dir with records := dir.records ++ [(r.sequence, r)] })).record e n = some r' →
          s.record e n = some r' ∨ e = d ∧ n = r.sequence ∧ r' = r := by
        intro e n r' hr'
        rw [record_set hdir] at hr'
        split at hr'
        · next heq =>
          subst heq
          have hold : s.record e n = dir.records.lookup n := by rw [Store.record, hdir]; rfl
          rw [lookup_append] at hr'
          cases hlookup : dir.records.lookup n with
          | some r'' =>
            rw [hlookup, some_or] at hr'
            exact .inl (by rw [hold, hlookup, hr'])
          | none =>
            rw [hlookup, none_or, lookup_cons] at hr'
            split at hr'
            · next hn => exact .inr ⟨rfl, by simpa using hn, (some.inj hr').symm⟩
            · cases hr'
        · exact .inl hr'
      have hkeeps : Keeps crate s (Store.mk s.ledger s.root
          (s.dirs.set d { dir with records := dir.records ++ [(r.sequence, r)] })) := by
        refine ⟨fun c hc => hc, fun k hk => ?_, fun e _ he => he⟩
        rw [bound] at hk ⊢
        rw [hroot] at hk ⊢
        cases hledger : s.ledger with
        | some c =>
          rw [hledger] at hk
          exact hk
        | none =>
          rw [hledger] at hk
          change (s.record d 0).bind (keyOfRecord crate) = some k at hk
          obtain ⟨r₀, hr₀, hkey⟩ := bind_eq_some_iff.mp hk
          show ((Store.mk none (some d) _).record d 0).bind _ = _
          have hold : dir.records.lookup 0 = some r₀ := by
            rw [Store.record, hdir] at hr₀
            exact hr₀
          rw [record_set hdir, if_pos rfl, lookup_append, hold]
          exact hkey
      refine ⟨h.setDir hdir rfl (fun hl => by rw [hlinked] at hl; cases hl) fun e r' hr' => ?_, hkeeps,
        fun _ => ⟨hroot, hnone, ?_, rfl, rfl⟩⟩
      · refine (hrecord e 0 r' hr').imp_right fun ⟨_, hsequence, hsame⟩ => ?_
        exact ⟨hsame ▸ hzero hsequence.symm, hlate hsequence.symm⟩
      · rw [record_set hdir, if_pos rfl, lookup_append, hfree, none_or, lookup_cons_self]
  · rw [if_pos (by simpa using hlinked)] at hstep
    cases hstep

theorem Inv.removeRecord (hledger : s.ledger ≠ none) (hstep : s.removeRecord d n = some s') :
    Inv crate timely s' ∧ Keeps crate s s' := by
  obtain ⟨dir, hdir, hstep⟩ := bind_eq_some_iff.mp hstep
  obtain ⟨r₀, hr₀, hstep⟩ := bind_eq_some_iff.mp hstep
  cases hstep
  obtain ⟨c, hc⟩ := ne_none_iff_exists'.mp hledger
  have hrecord : ∀ e r', (Store.mk s.ledger s.root
      (s.dirs.set d { dir with records := dir.records.filter fun r => r.1 ≠ n })).record e 0 = some r' →
      s.record e 0 = some r' := by
    intro e r' hr'
    rw [record_set hdir] at hr'
    split at hr'
    · next heq =>
      subst heq
      rw [Store.record, hdir]
      show dir.records.lookup 0 = some r'
      rw [← hr']
      by_cases hn : n = 0
      · subst hn
        have hnone : (dir.records.filter fun r => decide (r.1 ≠ 0)).lookup 0 = none := by
          rw [lookup_eq_none_iff]
          intro p hp
          have hne : p.1 ≠ 0 := of_decide_eq_true (mem_filter.mp hp).2
          exact bne_iff_ne.mpr (Ne.symm hne)
        rw [hnone] at hr'
        cases hr'
      · symm
        exact lookup_filter_ne dir.records hn
    · exact hr'
  exact ⟨h.setDir hdir rfl (fun _ hnil => by rw [hnil]; rfl) fun e r' hr' => .inl (hrecord e r' hr'), Keeps.of_entered hc rfl⟩

theorem Inv.removeDir (hledger : s.ledger ≠ none) (hstep : s.removeDir = some s') :
    Inv crate timely s' ∧ Keeps crate s s' := by
  obtain ⟨d, hroot, hstep⟩ := bind_eq_some_iff.mp hstep
  obtain ⟨dir, hdir, hstep⟩ := bind_eq_some_iff.mp hstep
  obtain ⟨c, hc⟩ := ne_none_iff_exists'.mp hledger
  split at hstep
  · next hempty =>
    cases hstep
    have hrecords : dir.records = [] := by
      rw [Bool.and_eq_true, List.isEmpty_iff] at hempty
      exact hempty.1
    have hrecord : ∀ e r', (Store.mk s.ledger none (s.dirs.set d { dir with linked := false })).record e 0 = some r' →
        s.record e 0 = some r' := by
      intro e r' hr'
      rw [record_set hdir] at hr'
      split at hr'
      · next heq =>
        subst heq
        rw [Store.record, hdir]
        exact hr'
      · exact hr'
    refine ⟨⟨fun e he => by (cases he), fun e dir' he hl => ?_, fun e dir' he hl => ?_,
      fun e r' hr' => h.zero e r' (hrecord e r' hr'), fun ht c' hc' e r' hr' => h.entered ht c' hc' e r' (hrecord e r' hr')⟩,
      Keeps.of_entered hc rfl⟩
    · cases getElem?_set_cases he with
      | inl hself =>
        rw [hself.2] at hl
        cases hl
      | inr hold =>
        have hsame := h.named e dir' hold hl
        rw [hroot] at hsame
        cases hsame
        have hlt := (List.getElem?_eq_some_iff.mp hdir).1
        rw [getElem?_set_self hlt] at he
        rw [← some.inj he] at hl
        cases hl
    · cases getElem?_set_cases he with
      | inl hself => exact hself.2 ▸ hrecords
      | inr hold => exact h.gone e dir' hold hl
  · cases hstep

theorem Inv.enter (hstep : s.enter c = (created, s'))
    (hbound : s.ledger = none → bound crate s = some (c.request, c.binding)) :
    Inv crate timely s' ∧ Keeps crate s s' ∧ s'.ledger ≠ none := by
  unfold Store.enter at hstep
  cases hledger : s.ledger with
  | some c' =>
    rw [hledger] at hstep
    cases hstep
    exact ⟨h, Keeps.refl s, by simp [hledger]⟩
  | none =>
    rw [hledger] at hstep
    cases hstep
    have hkey := hbound hledger
    have hkeeps : Keeps crate s { s with ledger := some c } := by
      refine ⟨fun c' hc' => ?_, fun k hk => ?_, fun d hnone => ?_⟩
      · rw [hledger] at hc'
        cases hc'
      · rw [hkey] at hk
        exact hk
      · cases hnone
    refine ⟨⟨h.linked, h.named, h.gone, h.zero, fun _ c' hc' d r hr => ?_⟩, hkeeps, by simp⟩
    obtain rfl : c = c' := some.inj hc'
    obtain ⟨dir, hdir, hlookup⟩ := record_eq_some.mp hr
    have hlinked : dir.linked = true := by
      cases hl : dir.linked with
      | true => rfl
      | false =>
        rw [h.gone d dir hdir hl] at hlookup
        cases hlookup
    rw [← hkey, bound_of_record hledger (h.named d dir hdir hlinked) hr]

end Forgent.GitWal
