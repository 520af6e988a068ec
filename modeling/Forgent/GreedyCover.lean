import Mathlib.Algebra.GroupWithZero.Nat
import Mathlib.Data.Finset.Card

/-!
# Greedy cover

Each candidate covers itself and the nodes of its list.  In each round the candidate is picked that covers the most that no
earlier pick covers, the first one of several.

* `gain`, `best`, `picks`: the loops.
* `Ranked`: what the picks are; `ranked_picks`: it holds of every list of candidates and every number of rounds.
-/

namespace GreedyCover

open List

variable {α : Type*} [DecidableEq α]

structure Pick (α : Type*) where
  id : α
  unblocks : ℕ
  newlyUnblocks : ℕ
  deriving DecidableEq

section

variable (downstream : α → List α)

def fresh (covered : List α) (a : α) : ℕ := (downstream a).countP (· ∉ covered)

/-- The candidate itself becomes covered, too. -/
def gain (covered : List α) (a : α) : ℕ := 1 + fresh downstream covered a

/-- The turn of one candidate, with the best one so far and its gain. -/
def improve (covered : List α) (s : Option α × ℕ) (a : α) : Option α × ℕ :=
  if a ∈ covered then s
  else if s.2 < gain downstream covered a then (some a, gain downstream covered a)
  else s

def best (candidates covered : List α) : Option α × ℕ := candidates.foldl (improve downstream covered) (none, 0)

/-- The rounds that are left, and what is covered. -/
def picksFrom (candidates : List α) : ℕ → List α → List (Pick α)
  | 0, _ => []
  | rounds + 1, covered =>
    match best downstream candidates covered with
    | (none, _) => []
    | (some a, gained) =>
      ⟨a, (downstream a).length, gained⟩ :: picksFrom candidates rounds (covered ++ a :: downstream a)

def picks (candidates : List α) (k : ℕ) : List (Pick α) := picksFrom downstream candidates k []

/-- What some picks cover. -/
def coveredBy (picks : List (Pick α)) : List α := picks.flatMap fun p => p.id :: downstream p.id

/-- What a pick is, behind the ones in front of it. -/
structure Chosen (candidates : List α) (before : List (Pick α)) (p : Pick α) : Prop where
  candidate : p.id ∈ candidates
  uncovered : p.id ∉ coveredBy downstream before
  unblocks : p.unblocks = (downstream p.id).length
  newlyUnblocks : p.newlyUnblocks = 1 + fresh downstream (coveredBy downstream before) p.id
  largest : ∀ c ∈ candidates, c ∉ coveredBy downstream before →
    fresh downstream (coveredBy downstream before) c ≤ fresh downstream (coveredBy downstream before) p.id

/-- What the picks are: each is the best behind the ones in front of it, their gains never increase, and where none is in its
own list the gains add up to the number of nodes that are covered. -/
structure Ranked (candidates : List α) (k : ℕ) (picks : List (Pick α)) : Prop where
  chosen : ∀ before p after, picks = before ++ p :: after → Chosen downstream candidates before p
  antitone : picks.Pairwise fun p q => q.newlyUnblocks ≤ p.newlyUnblocks
  total : (∀ p ∈ picks, p.id ∉ downstream p.id) →
    (picks.map Pick.newlyUnblocks).sum = (coveredBy downstream picks).toFinset.card
  rounds : picks.length ≤ k
  ended : picks.length < k → ∀ c ∈ candidates, c ∈ coveredBy downstream picks

end

variable {downstream : α → List α} {candidates covered : List α}

/-! ### One round -/

/-- What the best of the candidates that were looked at is. -/
def IsBest (downstream : α → List α) (covered seen : List α) (s : Option α × ℕ) : Prop :=
  match s with
  | (none, gained) => gained = 0 ∧ ∀ c ∈ seen, c ∈ covered
  | (some a, gained) => a ∈ seen ∧ a ∉ covered ∧ gained = gain downstream covered a ∧
      ∀ c ∈ seen, c ∉ covered → gain downstream covered c ≤ gained

theorem IsBest.improve {seen : List α} {s : Option α × ℕ} (h : IsBest downstream covered seen s) (a : α) :
    IsBest downstream covered (seen ++ [a]) (improve downstream covered s a) := by
  have hsplit : ∀ P : α → Prop, (∀ c ∈ seen, P c) → P a → ∀ c ∈ seen ++ [a], P c := by
    intro P hseen ha c hc
    rcases mem_append.mp hc with hc | hc
    · exact hseen c hc
    · rw [mem_singleton.mp hc]
      exact ha
  obtain ⟨found, gained⟩ := s
  rw [GreedyCover.improve]
  by_cases hcovered : a ∈ covered
  · rw [if_pos hcovered]
    cases found with
    | none => exact ⟨h.1, hsplit _ h.2 hcovered⟩
    | some b =>
      obtain ⟨hb, hfree, hgain, hmax⟩ := h
      exact ⟨mem_append_left [a] hb, hfree, hgain, hsplit _ hmax fun hnot => absurd hcovered hnot⟩
  · rw [if_neg hcovered]
    by_cases hless : gained < gain downstream covered a
    · rw [if_pos hless]
      refine ⟨by simp, hcovered, rfl, hsplit _ (fun c hc hnot => ?_) fun _ => Nat.le_refl _⟩
      cases found with
      | none => exact absurd (h.2 c hc) hnot
      | some b => exact Nat.le_trans (h.2.2.2 c hc hnot) (Nat.le_of_lt hless)
    · rw [if_neg hless]
      cases found with
      | none =>
        have hpos : 0 < gain downstream covered a := by
          rw [gain]
          omega
        exact absurd (h.1 ▸ hpos) hless
      | some b =>
        obtain ⟨hb, hfree, hgain, hmax⟩ := h
        exact ⟨mem_append_left [a] hb, hfree, hgain, hsplit _ hmax fun _ => Nat.le_of_not_lt hless⟩

theorem isBest_best (downstream : α → List α) (candidates covered : List α) :
    IsBest downstream covered candidates (best downstream candidates covered) := by
  have hfold : ∀ (rest seen : List α) (s : Option α × ℕ), IsBest downstream covered seen s →
      IsBest downstream covered (seen ++ rest) (rest.foldl (improve downstream covered) s) := by
    intro rest
    induction rest with
    | nil =>
      intro seen s h
      rwa [append_nil]
    | cons a rest ih =>
      intro seen s h
      rw [append_cons, foldl_cons]
      exact ih _ _ (h.improve a)
  exact hfold candidates [] (none, 0) ⟨rfl, fun c hc => by cases hc⟩

/-! ### All rounds -/

omit [DecidableEq α] in
theorem coveredBy_append (before after : List (Pick α)) :
    coveredBy downstream (before ++ after) = coveredBy downstream before ++ coveredBy downstream after :=
  flatMap_append

theorem fresh_antitone {covered' : List α} (hsub : ∀ a ∈ covered, a ∈ covered') (a : α) :
    fresh downstream covered' a ≤ fresh downstream covered a := by
  refine countP_mono_left fun b _ hb => ?_
  rw [decide_eq_true_eq] at hb ⊢
  exact fun hmem => hb (hsub b hmem)

/-- **One pick more covers as much more as it gains**, where it is not in its own list. -/
theorem card_covered {a : α} (hnodup : (downstream a).Nodup) (hself : a ∉ downstream a) (hfree : a ∉ covered) :
    (covered ++ a :: downstream a).toFinset.card = covered.toFinset.card + gain downstream covered a := by
  have hnew : (covered ++ a :: downstream a).toFinset =
      covered.toFinset ∪ ((a :: downstream a).filter (· ∉ covered)).toFinset := by
    ext b
    simp only [List.mem_toFinset, Finset.mem_union, mem_append, mem_filter, decide_eq_true_eq]
    by_cases hb : b ∈ covered
    · simp [hb]
    · simp [hb]
  have hapart : Disjoint covered.toFinset ((a :: downstream a).filter (· ∉ covered)).toFinset := by
    rw [Finset.disjoint_left]
    intro b hb hb'
    exact of_decide_eq_true (mem_filter.mp (List.mem_toFinset.mp hb')).2 (List.mem_toFinset.mp hb)
  have hcard : ((a :: downstream a).filter (· ∉ covered)).toFinset.card = gain downstream covered a := by
    have hcons : (a :: downstream a).countP (· ∉ covered) = fresh downstream covered a + 1 :=
      countP_cons_of_pos (by simpa using hfree)
    rw [toFinset_card_of_nodup ((nodup_cons.mpr ⟨hself, hnodup⟩).filter _), ← countP_eq_length_filter, hcons,
      gain, Nat.add_comm]
  rw [hnew, Finset.card_union_of_disjoint hapart, hcard]

/-- What the rounds behind some picks give. -/
theorem picksFrom_spec (hnodup : ∀ a, (downstream a).Nodup) (k : ℕ) (before : List (Pick α)) :
    let more := picksFrom downstream candidates k (coveredBy downstream before)
    (∀ between p after, more = between ++ p :: after → Chosen downstream candidates (before ++ between) p) ∧
      ((∀ p ∈ more, p.id ∉ downstream p.id) →
        (coveredBy downstream before).toFinset.card + (more.map Pick.newlyUnblocks).sum =
          (coveredBy downstream (before ++ more)).toFinset.card) ∧
      more.length ≤ k ∧ (more.length < k → ∀ c ∈ candidates, c ∈ coveredBy downstream (before ++ more)) := by
  induction k generalizing before with
  | zero =>
    refine ⟨fun between p after h => ?_, fun _ => ?_, Nat.le_refl 0, fun h => absurd h (Nat.lt_irrefl 0)⟩
    · rw [picksFrom] at h
      exact absurd h.symm (by simp)
    · simp [picksFrom]
  | succ k ih =>
    have hbest := isBest_best downstream candidates (coveredBy downstream before)
    rw [picksFrom]
    generalize best downstream candidates (coveredBy downstream before) = found at hbest
    obtain ⟨found, gained⟩ := found
    cases found with
    | none =>
      refine ⟨fun between p after h => absurd h.symm (by simp), fun _ => ?_, Nat.zero_le _, fun _ c hc => ?_⟩
      · simp
      · rw [append_nil]
        exact hbest.2 c hc
    | some a =>
      dsimp only
      obtain ⟨hcandidate, hfree, hgain, hmax⟩ := hbest
      have hnext : coveredBy downstream (before ++ [⟨a, (downstream a).length, gained⟩]) =
          coveredBy downstream before ++ a :: downstream a := by
        rw [coveredBy_append]
        simp [coveredBy]
      obtain ⟨hchosen, htotal, hlength, hended⟩ := ih (before ++ [⟨a, (downstream a).length, gained⟩])
      rw [hnext] at hchosen htotal hlength hended
      refine ⟨fun between p after h => ?_, fun hself => ?_, Nat.succ_le_succ hlength, fun hless => ?_⟩
      · cases between with
        | nil =>
          obtain ⟨rfl, _⟩ := List.cons.inj h
          rw [append_nil]
          refine ⟨hcandidate, hfree, rfl, hgain, fun c hc hnot => ?_⟩
          have hle := hmax c hc hnot
          rw [hgain, gain, gain] at hle
          show fresh downstream _ c ≤ fresh downstream _ a
          omega
        | cons q between =>
          obtain ⟨rfl, hrest⟩ := List.cons.inj h
          rw [append_cons]
          exact hchosen between p after hrest
      · obtain ⟨hfirst, hrest⟩ := forall_mem_cons.mp hself
        have hcard := card_covered (hnodup a) hfirst hfree
        have htotal := htotal hrest
        rw [hcard] at htotal
        rw [map_cons, sum_cons, append_cons before, ← htotal]
        show _ + (gained + _) = _
        omega
      · rw [append_cons before]
        exact hended (Nat.lt_of_succ_lt_succ hless)

/-- **The greedy picks are ranked**, of every list of candidates and for every number of rounds. -/
theorem ranked_picks (hnodup : ∀ a, (downstream a).Nodup) (candidates : List α) (k : ℕ) :
    Ranked downstream candidates k (picks downstream candidates k) := by
  obtain ⟨hchosen, htotal, hlength, hended⟩ := @picksFrom_spec α _ downstream candidates hnodup k []
  refine ⟨hchosen, ?_, fun hself => ?_, hlength, hended⟩
  · -- what a later pick gains it would have gained earlier, too
    have hsuffix : ∀ rest before, picks downstream candidates k = before ++ rest →
        rest.Pairwise fun p q => q.newlyUnblocks ≤ p.newlyUnblocks := by
      intro rest
      induction rest with
      | nil => exact fun _ _ => .nil
      | cons p rest ih =>
        intro before heq
        refine pairwise_cons.mpr ⟨fun q hq => ?_, ih (before ++ [p]) (by rw [heq, append_cons])⟩
        obtain ⟨between, after, rfl⟩ := append_of_mem hq
        have hp := hchosen before p _ heq
        have hq' := hchosen (before ++ p :: between) q after (by
          show picks downstream candidates k = _
          rw [heq, append_assoc]
          rfl)
        have hsub : ∀ a ∈ coveredBy downstream before, a ∈ coveredBy downstream (before ++ p :: between) := by
          intro a ha
          rw [coveredBy_append]
          exact mem_append_left _ ha
        have hless := hp.largest q.id hq'.candidate fun hmem => hq'.uncovered (hsub _ hmem)
        have hfresh := @fresh_antitone α _ downstream _ _ hsub q.id
        have hgainp := hp.newlyUnblocks
        have hgainq := hq'.newlyUnblocks
        rw [nil_append] at hgainp hgainq hless
        omega
    exact hsuffix _ [] rfl
  · have hsum := htotal hself
    have hnothing : (coveredBy downstream ([] : List (Pick α))).toFinset.card = 0 := rfl
    rw [hnothing, Nat.zero_add, nil_append] at hsum
    exact hsum

end GreedyCover
