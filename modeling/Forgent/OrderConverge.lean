import Forgent.OrderStable
import Forgent.ReadState

/-!
# Convergence

The order depends on which events are there, and on nothing else: not on the sequence in which they
arrived, and not on how often.  So two clones that hold the same events read the same view
(`order_converges`).

What may depend on the arrival is which of several errors is answered.  The input is checked event by
event, and the first bad event, or the first two events that claim one position, end the call; with at
most one such error the answer is the same again.
-/

namespace Forgent

open List Option

/-! ### Functions of the set of events -/

theorem ascending_congr {α : Type} [LinearOrder α] {l m : List α} (h : ∀ x, x ∈ l ↔ x ∈ m) :
    ascending l = ascending m := by
  have hperm : l.dedup.Perm m.dedup := by
    refine (perm_ext_iff_of_nodup (nodup_dedup l) (nodup_dedup m)).mpr fun x => ?_
    rw [mem_dedup, mem_dedup]
    exact h x
  have hsorted : (ascending l).Perm (ascending m) :=
    ((perm_insertionSort (· ≤ ·) l.dedup).trans hperm).trans
      (perm_insertionSort (· ≤ ·) m.dedup).symm
  exact hsorted.eq_of_pairwise' (pairwise_insertionSort _ _) (pairwise_insertionSort _ _)

section

variable {events events' : List Envelope}

theorem mem_map_congr {β : Type} (f : Envelope → β) (h : ∀ e, e ∈ events ↔ e ∈ events') (x : β) :
    x ∈ events.map f ↔ x ∈ events'.map f := by
  simp only [List.mem_map, h]

theorem streamHole_congr (h : ∀ e, e ∈ events ↔ e ∈ events') (base : Positions) (stream : String) :
    streamHole events base stream = streamHole events' base stream := by
  rw [streamHole, streamHole]
  congr 2
  exact ascending_congr fun n => mem_map_congr _ (fun e => by simp [h e]) n

theorem checkContiguous_congr (h : ∀ e, e ∈ events ↔ e ∈ events') (base : Positions) :
    checkContiguous events base = checkContiguous events' base := by
  have hconflict : (events.all fun a => events.all fun b => position a ≠ position b || a.h = b.h) =
      events'.all fun a => events'.all fun b => position a ≠ position b || a.h = b.h := by
    rw [Bool.eq_iff_iff, List.all_eq_true, List.all_eq_true]
    simp only [List.all_eq_true, h]
  have hstreams : ascending (events.map streamKey) = ascending (events'.map streamKey) :=
    ascending_congr (mem_map_congr streamKey h)
  rw [checkContiguous, checkContiguous, hconflict, hstreams]
  simp only [streamHole_congr h]

theorem promotedHigh_any_iff (union : List Envelope) (query : List String) (e : Envelope) :
    ((promotedHigh union query (streamKey e)).any fun high => decide (e.seq ≤ high)) = true ↔
      ∃ p ∈ union, p.stream ∈ query ∧ ∃ n, promotePosition p = some (streamKey e, n) ∧ e.seq ≤ n := by
  rw [promotedHigh, any_max?_iff]
  simp only [mem_filterMap, contains_iff_mem, ite_none_right_eq_some, bind_eq_some_iff, some.injEq]
  constructor
  · rintro ⟨n, ⟨p, hp, hq, ⟨k, m⟩, hpos, rfl, rfl⟩, hle⟩
    exact ⟨p, hp, hq, m, hpos, hle⟩
  · rintro ⟨p, hp, hq, n, hpos, hle⟩
    exact ⟨n, ⟨p, hp, hq, (streamKey e, n), hpos, rfl, rfl⟩, hle⟩

theorem mem_retainedEvents_congr (h : ∀ e, e ∈ events ↔ e ∈ events') (query : List String)
    (project : Bool) (e : Envelope) :
    e ∈ retainedEvents events query project ↔ e ∈ retainedEvents events' query project := by
  simp only [retainedEvents, mem_filter, Bool.or_eq_true, Bool.and_eq_true, promotedHigh_any_iff, h]

theorem retainedEvents_subset (union : List Envelope) (query : List String) (project : Bool) :
    ∀ e ∈ retainedEvents union query project, e ∈ union :=
  fun _ he => (mem_filter.mp he).1

end

/-! ### The order -/

section

variable {c : Codec} {input input' : List Envelope} {base : Positions} {project : Bool}

theorem inputErrors_congr (h : ∀ e, e ∈ input ↔ e ∈ input') : InputErrors c input = InputErrors c input' := by
  simp only [InputErrors, h]

section

variable (hcol : c.CollisionFree input)

include hcol

variable (h : ∀ e, e ∈ input ↔ e ∈ input')

include h

theorem collect_congr : (∃ u, collect c none input ∅ = .ok u ∧ collect c none input' ∅ = .ok u) ∨
      ∃ err err', collect c none input ∅ = .error err ∧ collect c none input' ∅ = .error err' ∧
        err ∈ InputErrors c input ∧ err' ∈ InputErrors c input := by
  have hcol' : c.CollisionFree input' := hcol.mono fun e he => (h e).mpr he
  cases hu : collect c none input ∅ with
  | ok u =>
    obtain ⟨hv, hno, hholds⟩ := (collect_input_eq_ok_iff hcol none u).mp hu
    refine .inl ⟨u, rfl, (collect_input_eq_ok_iff hcol' none u).mpr ?_⟩
    have hset : {e | e ∈ input'} = {e | e ∈ input} := Set.ext fun e => (h e).symm
    exact ⟨fun e he => hv e ((h e).mpr he), hset ▸ hno, hset ▸ hholds⟩
  | error err =>
    cases hu' : collect c none input' ∅ with
    | ok u =>
      obtain ⟨hv, hno, _⟩ := (collect_input_eq_ok_iff hcol' none u).mp hu'
      have hset : {e | e ∈ input} = {e | e ∈ input'} := Set.ext h
      obtain ⟨u', hok⟩ := collect_input_ok hcol none (fun e he => hv e ((h e).mp he)) (hset ▸ hno)
      rw [hok] at hu
      cases hu
    | error err' =>
      refine .inr ⟨err, err', rfl, rfl, collect_input_error hcol none hu, ?_⟩
      rw [inputErrors_congr h]
      exact collect_input_error hcol' none hu'

theorem order_congr : order c input base project = order c input' base project ∨
      ∃ err err', order c input base project = .error err ∧ order c input' base project = .error err' ∧
        err ∈ InputErrors c input ∧ err' ∈ InputErrors c input := by
  simp only [order, orderRetained]
  rcases collect_congr hcol h with ⟨u, hu, hu'⟩ | ⟨err, err', hu, hu', herr, herr'⟩
  · rw [hu, hu']
    exact .inl rfl
  · rw [hu, hu']
    exact .inr ⟨err, err', rfl, rfl, herr, herr'⟩

theorem order_eq_ok_congr (r : Ordered) : order c input base project = .ok r ↔ order c input' base project = .ok r := by
  have hcongr : order c input base project = order c input' base project ∨ _ := order_congr hcol h
  rcases hcongr with heq | ⟨err, err', herr, herr', _⟩
  · rw [heq]
  · rw [herr, herr']
    simp

end

theorem inputErrors_subsingleton (hv : AllValid c input) : (InputErrors c input).Subsingleton := by
  have honly : ∀ err ∈ InputErrors c input, err = twoHashes := by
    intro err herr
    rcases herr with ⟨e, he, hbad⟩ | ⟨_, rfl⟩
    · rw [(Envelope.validate_eq_ok_iff c e).mpr (hv e he)] at hbad
      cases hbad
    · rfl
  intro a ha b hb
  rw [honly a ha, honly b hb]

/-! ### The view -/

theorem foldHistory_eq_ok_congr (hcol : c.CollisionFree input) (h : ∀ e, e ∈ input ↔ e ∈ input')
    (query : List String) (view : Option (VerifiedView c)) (r : Ordered) :
    foldHistory c input query project view = .ok r ↔ foldHistory c input' query project view = .ok r := by
  have hmem := mem_retainedEvents_congr h query project
  have hcolR : c.CollisionFree (retainedEvents input query project) :=
    hcol.mono (retainedEvents_subset input query project)
  simp only [foldHistory, checkContiguous_congr hmem, orderRetained_eq_order, bind_eq_ok]
  exact exists_congr fun _ => and_congr_right fun _ => order_eq_ok_congr hcolR hmem r

theorem readWorkState_eq_ok_congr (hcol : c.CollisionFree input) (h : ∀ e, e ∈ input ↔ e ∈ input')
    (host : Host) (legacy : List LogEvent) (cached : Option Candidate) (m : Candidate) :
    readWorkState c host legacy input cached = .ok m ↔ readWorkState c host legacy input' cached = .ok m := by
  have hmap : ∀ (x : Except Error Ordered) (r : Ordered), x.mapError ReadError.store = .ok r ↔ x = .ok r := by
    intro x r
    cases x <;> simp [Except.mapError]
  simp only [readWorkState, bind_eq_ok, hmap]
  exact exists_congr fun r => and_congr_left fun _ => foldHistory_eq_ok_congr hcol h ["project"] none r

/-- **Convergence.**  The order and the view of a read are those of the set of events: the same result,
or, where the events themselves are refused, an error that some of them give. -/
theorem order_converges (hcol : c.CollisionFree input) (h : ∀ e, e ∈ input ↔ e ∈ input') :
    (order c input base project = order c input' base project ∨
      ∃ err err', order c input base project = .error err ∧ order c input' base project = .error err' ∧
        err ∈ InputErrors c input ∧ err' ∈ InputErrors c input) ∧
    (AllValid c input → order c input base project = order c input' base project) ∧
    ∀ (host : Host) (legacy : List LogEvent) (cached : Option Candidate) (m : Candidate),
      readWorkState c host legacy input cached = .ok m ↔ readWorkState c host legacy input' cached = .ok m := by
  refine ⟨order_congr hcol h, fun hv => ?_, readWorkState_eq_ok_congr hcol h⟩
  have hcongr : order c input base project = order c input' base project ∨ _ := order_congr hcol h
  rcases hcongr with heq | ⟨err, err', herr, herr', hin, hin'⟩
  · exact heq
  · rw [herr, herr', inputErrors_subsingleton hv hin hin']

end

open SmallHistory

theorem order_converges_reader :
    (order .integral [branch, reader] ∅ true = order .integral [reader, branch, reader] ∅ true ∨
      ∃ err err', order .integral [branch, reader] ∅ true = .error err ∧
        order .integral [reader, branch, reader] ∅ true = .error err' ∧
        err ∈ InputErrors .integral [branch, reader] ∧ err' ∈ InputErrors .integral [branch, reader]) ∧
    (AllValid .integral [branch, reader] →
      order .integral [branch, reader] ∅ true = order .integral [reader, branch, reader] ∅ true) ∧
    ∀ (host : Host) (legacy : List LogEvent) (cached : Option Candidate) (m : Candidate),
      readWorkState .integral host legacy [branch, reader] cached = .ok m ↔
        readWorkState .integral host legacy [reader, branch, reader] cached = .ok m := by
  have hv : AllValid .integral [branch, reader] := by simp [AllValid, branch_valid, reader_valid]
  refine order_converges (.of_nodup hv (by decide)) fun e => ?_
  simp only [mem_cons, not_mem_nil, or_false]
  tauto

/-- A second event at the position of `reader`. -/
def SmallHistory.rival : Envelope :=
  Envelope.sample 'b' "project" 1 [] "work.add" .null
    "f307b0479fbe12e5bfd4a26ddc71e30b183d12d2243a52b46bac7116c5fa2665"

/-- An event of another envelope version. -/
def SmallHistory.damaged : Envelope := { branch with v := 3 }

theorem SmallHistory.rival_valid : rival.Valid .integral :=
  (Envelope.validate_eq_ok_iff _ _).mp (by decide +kernel)

theorem collect_cons_of_valid {c : Codec} {view : Option (VerifiedView c)} {e : Envelope} (hv : e.Valid c)
    (rest : List Envelope) (u : EventMap) :
    collect c view (e :: rest) u = (checkReplaced u[(toLex (position e) : PositionKey)]? e >>= fun _ =>
      collect c view rest (u.insert (toLex (position e)) e)) := by
  rw [collect, validateNew_eq, (Envelope.validate_eq_ok_iff c e).mpr hv]
  rfl

/-- Of two faults the one that arrives first is reported. -/
theorem order_converges_counterexample : [damaged, reader, rival].Perm [reader, rival, damaged] ∧
    order .integral [damaged, reader, rival] ∅ true = .error (invalid "invalid v4 envelope fields") ∧
    order .integral [reader, rival, damaged] ∅ true = .error twoHashes := by
  refine ⟨by decide, ?_, ?_⟩
  · rw [order, orderRetained, collect, validateNew_eq]
    decide
  · rw [order, orderRetained, collect_cons_of_valid reader_valid, collect_cons_of_valid rival_valid]
    decide

end Forgent
