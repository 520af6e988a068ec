import Forgent.GateFold
import Forgent.OrderEmitted

/-!
# Incremental answers

A consumer keeps what it folded, in order, with the cursor of that read.  The next read orders everything anew, gives
the events the cursor does not cover, and says whether the consumer may fold these alone, behind what it folded.

* `delta_append`: the events above the cover of a prefix are what stands behind the prefix.
* `readFrom_extends`: an incremental answer is what stands behind the folded sequence, and the answer to rebuild
  names a position up to which the two agree.
-/

namespace Forgent.Coverage

open List

/-! ### The cursor -/

/-- The canonical coverage of one read. -/
structure Cursor where
  streams : Finset String
  projectOrder : Bool
  cover : Positions
  certified : Finset String
  verifiedTips : Table String
  mirrorTips : Table String
  legacyTips : Table String
  legacyDigest : Option String
  deferred : Finset String

inductive Fold where
  | incremental
  | rebuildRequired (firstDifference : ℕ)
deriving DecidableEq

/-- The first index where two orders differ, or the end of the shorter one. -/
def firstDifference (oldOrder fullOrder : List String) : ℕ :=
  ((oldOrder.zip fullOrder).findIdx? fun p => p.1 ≠ p.2).getD (min oldOrder.length fullOrder.length)

/-- Whether an event of the delta is the reader's own, no promote, and has seen all that was covered. -/
def continues (old : Cursor) (ownOrigin : String) (e : Envelope) : Bool :=
  e.origin = ownOrigin && e.eventType ≠ "store.promote" &&
    old.cover.toList.all fun p => p.1 = streamKey e || p.2 ≤ e.seen.at p.1

def foldAnswer (old new : Cursor) (oldOrder fullOrder : List String) (delta : List Envelope) (ownOrigin : String) :
    Fold :=
  let legacyChanged := old.legacyTips ≠ new.legacyTips || old.legacyDigest ≠ new.legacyDigest
  let first := if legacyChanged then 0 else firstDifference oldOrder fullOrder
  let released := !decide (old.deferred ⊆ new.deferred)
  if old.streams = new.streams && old.projectOrder = new.projectOrder && old.mirrorTips = new.mirrorTips &&
      !legacyChanged && !released && first = oldOrder.length && delta.all (continues old ownOrigin) then .incremental
  else .rebuildRequired first

/-! ### The read -/

structure ReadRequest where
  origin : String
  streams : List String
  cursor : Cursor
  /-- What the consumer folded, in order. -/
  folded : List Envelope
  project : Bool

structure Tip where
  name : String
  oid : String
  mirror : Bool

/-- What a read finds: the events of the own files and of the refs, the tips it takes, and the old log. -/
structure Observed where
  own : List Envelope
  walked : List Envelope
  tips : List Tip
  legacyTips : Table String
  legacyDigest : Option String
  legacy : List String

structure ReadResult where
  events : List Envelope
  sequence : List Envelope
  deferred : List Envelope
  missing : Finset Position
  concurrent : List (String × String)
  cursor : Cursor
  fold : Fold
  fullOrder : List String

def holdsHistory (req : ReadRequest) : Bool :=
  (req.cursor.cover = ∅ || req.folded ≠ []) && req.cursor.streams = req.streams.toFinset &&
    req.cursor.projectOrder = req.project

/-- The names and objects of some tips. -/
def tipsOf (tips : List Tip) : Table String := .ofList (tips.map fun t => (t.name, t.oid))

def cursorAfter (req : ReadRequest) (observed : Observed) (ordered : Ordered) : Cursor :=
  let certified :=
    if ordered.deferred = [] then (observed.tips.map Tip.oid).toFinset
    else if holdsHistory req then req.cursor.certified else ∅
  { streams := req.streams.toFinset
    projectOrder := req.project
    cover := coverOf ordered.events
    certified
    verifiedTips := tipsOf (observed.tips.filter fun t => t.oid ∈ certified)
    mirrorTips := tipsOf (observed.tips.filter Tip.mirror)
    legacyTips := observed.legacyTips
    legacyDigest := observed.legacyDigest
    deferred := (ordered.deferred.map Envelope.h).toFinset }

def deltaOf (cover : Positions) (events : List Envelope) : List Envelope :=
  events.filter fun e => cover.at (streamKey e) < e.seq

/-- What a read orders: what the consumer kept, the own files, and the refs. -/
def unionOf (req : ReadRequest) (observed : Observed) : List Envelope := req.folded ++ observed.own ++ observed.walked

/-- `read_from`, once the files and the refs are read. -/
def readFrom (c : Codec) (req : ReadRequest) (observed : Observed) (view : Option (VerifiedView c)) :
    Except Error ReadResult := do
  let ordered ← foldHistory c (unionOf req observed) req.streams req.project view
  let cursor := cursorAfter req observed ordered
  let delta := deltaOf req.cursor.cover ordered.events
  let order := ordered.events.map Envelope.h
  return {
    events := delta
    sequence := ordered.events
    deferred := ordered.deferred
    missing := ordered.missing
    concurrent := ordered.concurrent
    cursor
    fold :=
      if holdsHistory req then foldAnswer req.cursor cursor (req.folded.map Envelope.h) order delta req.origin
      else .rebuildRequired 0
    fullOrder := observed.legacy ++ order }

/-! ### Where two orders differ -/

@[simp] theorem firstDifference_nil (full : List String) : firstDifference [] full = 0 := rfl

@[simp] theorem firstDifference_nil_right (old : List String) : firstDifference old [] = 0 := by
  cases old <;> rfl

theorem firstDifference_cons (a b : String) (old full : List String) :
    firstDifference (a :: old) (b :: full) = if a = b then firstDifference old full + 1 else 0 := by
  rw [firstDifference, zip_cons_cons, findIdx?_cons]
  by_cases hab : a = b
  · rw [if_pos hab]
    simp only [hab, ne_eq, not_true_eq_false, decide_false, Bool.false_eq_true, if_false, length_cons]
    rw [firstDifference]
    cases (old.zip full).findIdx? fun p => decide (p.1 ≠ p.2) with
    | some i => rfl
    | none => simp
  · rw [if_neg hab]
    simp [hab]

theorem take_firstDifference (old full : List String) :
    full.take (firstDifference old full) = old.take (firstDifference old full) := by
  induction old generalizing full with
  | nil => simp
  | cons a old ih =>
    cases full with
    | nil => simp
    | cons b full =>
      rw [firstDifference_cons]
      split
      · rename_i hab
        rw [take_succ_cons, take_succ_cons, ih, hab]
      · rfl

theorem prefix_of_firstDifference {old full : List String} (h : firstDifference old full = old.length) : old <+: full := by
  have htake := take_firstDifference old full
  rw [h, take_length] at htake
  rw [← htake]
  exact take_prefix ..

section

variable {old new : Cursor} {oldOrder fullOrder : List String} {delta : List Envelope} {ownOrigin : String}

theorem foldAnswer_of_legacy (hlegacy : ¬(old.legacyTips = new.legacyTips ∧ old.legacyDigest = new.legacyDigest)) :
    foldAnswer old new oldOrder fullOrder delta ownOrigin = .rebuildRequired 0 := by
  have hchanged : (decide (old.legacyTips ≠ new.legacyTips) || decide (old.legacyDigest ≠ new.legacyDigest)) = true := by
    rw [Bool.or_eq_true, decide_eq_true_eq, decide_eq_true_eq]
    exact not_and_or.mp hlegacy
  simp only [foldAnswer, hchanged, Bool.not_true, Bool.and_false, Bool.false_and, Bool.false_eq_true, if_false, if_true]

theorem foldAnswer_cases (htips : old.legacyTips = new.legacyTips) (hdigest : old.legacyDigest = new.legacyDigest) :
    (foldAnswer old new oldOrder fullOrder delta ownOrigin = .incremental ∧ oldOrder <+: fullOrder) ∨
      foldAnswer old new oldOrder fullOrder delta ownOrigin = .rebuildRequired (firstDifference oldOrder fullOrder) := by
  simp only [foldAnswer, htips, hdigest, ne_eq, not_true_eq_false, decide_false, Bool.or_self, Bool.false_eq_true,
    if_false]
  split
  · rename_i hsame
    simp only [Bool.and_eq_true, decide_eq_true_eq] at hsame
    exact .inl ⟨rfl, prefix_of_firstDifference hsame.1.2⟩
  · exact .inr rfl

theorem foldAnswer_eq_incremental (h : foldAnswer old new oldOrder fullOrder delta ownOrigin = .incremental) :
    oldOrder <+: fullOrder ∧ old.legacyTips = new.legacyTips ∧ old.legacyDigest = new.legacyDigest := by
  by_cases hlegacy : old.legacyTips = new.legacyTips ∧ old.legacyDigest = new.legacyDigest
  · rcases @foldAnswer_cases _ _ oldOrder fullOrder delta ownOrigin hlegacy.1 hlegacy.2 with ⟨_, hfront⟩ | hrebuild
    · exact ⟨hfront, hlegacy⟩
    · rw [hrebuild] at h
      cases h
  · rw [foldAnswer_of_legacy hlegacy] at h
    cases h

theorem foldAnswer_eq_rebuild {first : ℕ}
    (h : foldAnswer old new oldOrder fullOrder delta ownOrigin = .rebuildRequired first) :
    fullOrder.take first = oldOrder.take first := by
  by_cases hlegacy : old.legacyTips = new.legacyTips ∧ old.legacyDigest = new.legacyDigest
  · rcases @foldAnswer_cases _ _ oldOrder fullOrder delta ownOrigin hlegacy.1 hlegacy.2 with ⟨hnone, _⟩ | hrebuild
    · rw [hnone] at h
      cases h
    · rw [hrebuild] at h
      cases h
      exact take_firstDifference oldOrder fullOrder
  · rw [foldAnswer_of_legacy hlegacy] at h
    cases h
    rfl

end

/-! ### Orders and covers -/

section

variable {c : Codec} {input : List Envelope} {project : Bool} {r : Ordered}

theorem emitted_foldHistory {query : List String} {view : Option (VerifiedView c)} (hcol : c.CollisionFree input)
    (h : foldHistory c input query project view = .ok r) : Emitted c input ∅ r.events := by
  rw [foldHistory, bind_eq_ok] at h
  obtain ⟨_, _, horder⟩ := h
  have hsub := retainedEvents_subset input query project
  have hemitted := emitted_orderRetained (hcol.mono hsub) horder
  exact { hemitted with mem := fun e he => hsub e (hemitted.mem e he) }

end

/-- What is above the cover of a prefix stands behind it. -/
theorem delta_append {c : Codec} {input input' front rest : List Envelope} (hfront : Emitted c input ∅ front)
    (hall : Emitted c input' ∅ (front ++ rest)) : deltaOf (coverOf front) (front ++ rest) = rest := by
  have hcovered : deltaOf (coverOf front) front = [] := by
    rw [deltaOf, filter_eq_nil_iff]
    intro e he
    rw [decide_eq_true_eq, not_lt, coverOf_at]
    exact seq_le_high he
  have hopen : deltaOf (coverOf front) rest = rest := by
    rw [deltaOf, List.filter_eq_self]
    intro e he
    rw [decide_eq_true_eq, coverOf_at]
    by_contra hle
    rw [not_lt] at hle
    have hpos := (hall.valid e (mem_append_right _ he)).seq_pos
    obtain ⟨top, htop, hat⟩ := exists_high (by omega : high front (streamKey e) ≠ 0)
    obtain ⟨hstream, hseq⟩ := Prod.ext_iff.mp hat
    have hstream : streamKey top = streamKey e := hstream
    have hseq : top.seq = high front (streamKey e) := hseq
    obtain ⟨d, hd, hdat⟩ : ∃ d ∈ front, position d = (streamKey e, e.seq) := by
      rcases Nat.lt_or_ge e.seq top.seq with hlt | hge
      · obtain ⟨d, hd, hdat, _⟩ := hfront.earlier htop (by simpa [Positions.at] using hpos) hlt
        exact ⟨d, hd, hstream ▸ hdat⟩
      · exact ⟨top, htop, Prod.ext hstream (by show top.seq = e.seq; omega)⟩
    have hnodup := hall.nodup
    rw [map_append] at hnodup
    refine (nodup_append.mp hnodup).2.2 (position d) (List.mem_map_of_mem hd) (position e)
      (List.mem_map_of_mem he) ?_
    rw [hdat]
    rfl
  rw [deltaOf, filter_append]
  show deltaOf (coverOf front) front ++ deltaOf (coverOf front) rest = rest
  rw [hcovered, hopen, nil_append]

/-! ### What a read answers -/

theorem take_eq_of_hashes {T : Set Envelope} {c : Codec} (hid : Identified c T) {l m : List Envelope}
    (hl : ∀ e ∈ l, e ∈ T ∧ e.Valid c) (hm : ∀ e ∈ m, e ∈ T ∧ e.Valid c)
    (h : l.map Envelope.h = m.map Envelope.h) : l = m := by
  induction l generalizing m with
  | nil =>
    rw [map_nil, eq_comm, map_eq_nil_iff] at h
    exact h.symm
  | cons a l ih =>
    cases m with
    | nil => cases h
    | cons b m =>
      obtain ⟨hhead, htail⟩ := List.cons.inj h
      obtain ⟨haT, hav⟩ := hl a mem_cons_self
      obtain ⟨hbT, hbv⟩ := hm b mem_cons_self
      rw [hid a haT b hbT hav hbv hhead, ih (fun e he => hl e (mem_cons_of_mem _ he))
        (fun e he => hm e (mem_cons_of_mem _ he)) htail]

/-- What a read answers to a consumer that folded `folded`: the full order, and either all of it behind the folded
sequence, with the old log unchanged, or the position from which it is folded anew. -/
structure Extends (req : ReadRequest) (observed : Observed) (full : List Envelope) (answer : ReadResult) : Prop where
  sequence : answer.sequence = full
  fullOrder : answer.fullOrder = observed.legacy ++ full.map Envelope.h
  incremental : answer.fold = .incremental → full = req.folded ++ answer.events ∧
    req.cursor.legacyTips = observed.legacyTips ∧ req.cursor.legacyDigest = observed.legacyDigest
  rebuild : ∀ first, answer.fold = .rebuildRequired first → full.take first = req.folded.take first

/-- **An incremental answer extends the folded one**, for a consumer whose cursor covers what it folded. -/
theorem readFrom_extends {c : Codec} {before : List Envelope} {query : List String} {project : Bool}
    {view view' : Option (VerifiedView c)} {earlier : Ordered} {req : ReadRequest} {observed : Observed}
    {answer : ReadResult} (hearlier : foldHistory c before query project view = .ok earlier)
    (hfolded : req.folded = earlier.events) (hcover : req.cursor.cover = coverOf earlier.events)
    (hcol : c.CollisionFree (before ++ unionOf req observed)) (hread : readFrom c req observed view' = .ok answer) :
    ∃ ordered, foldHistory c (unionOf req observed) req.streams req.project none = .ok ordered ∧
      Extends req observed ordered.events answer := by
  rw [readFrom, bind_eq_ok] at hread
  obtain ⟨ordered, horder, hanswer⟩ := hread
  cases hanswer
  have hkept : foldHistory c (unionOf req observed) req.streams req.project none = .ok ordered := by
    rw [← horder]
    simp only [foldHistory, orderRetained_eq_order]
  have hfront := emitted_foldHistory (hcol.mono fun e he => mem_append_left _ he) hearlier
  have hall := emitted_foldHistory (hcol.mono fun e he => mem_append_right _ he) horder
  have hold : ∀ e ∈ req.folded, e ∈ before ++ unionOf req observed ∧ e.Valid c := by
    intro e he
    rw [hfolded] at he
    exact ⟨mem_append_left _ (hfront.mem e he), hfront.valid e he⟩
  have hnew : ∀ e ∈ ordered.events, e ∈ before ++ unionOf req observed ∧ e.Valid c := fun e he =>
    ⟨mem_append_right _ (hall.mem e he), hall.valid e he⟩
  refine ⟨ordered, hkept, rfl, rfl, ?_, ?_⟩
  · intro hfold
    dsimp only at hfold ⊢
    split at hfold
    · obtain ⟨hinfront, htips, hdigest⟩ := foldAnswer_eq_incremental hfold
      refine ⟨?_, htips, hdigest⟩
      have hhashes : (ordered.events.take req.folded.length).map Envelope.h = req.folded.map Envelope.h := by
        have htake := prefix_iff_eq_take.mp hinfront
        rw [length_map] at htake
        rw [map_take, ← htake]
      have htake : ordered.events.take req.folded.length = req.folded :=
        take_eq_of_hashes hcol.identified (fun e he => hnew e (mem_of_mem_take he)) hold hhashes
      have hsplit := take_append_drop req.folded.length ordered.events
      rw [htake] at hsplit
      have hbehind : deltaOf req.cursor.cover ordered.events = ordered.events.drop req.folded.length := by
        rw [← hsplit, hfolded] at hall
        rw [hcover]
        nth_rewrite 1 [← hsplit]
        rw [hfolded]
        exact delta_append hfront hall
      rw [hbehind, hsplit]
    · cases hfold
  · intro first hfold
    dsimp only at hfold
    have hhashes : (ordered.events.take first).map Envelope.h = (req.folded.take first).map Envelope.h := by
      rw [map_take, map_take]
      split at hfold
      · exact foldAnswer_eq_rebuild hfold
      · cases hfold
        rfl
    exact take_eq_of_hashes hcol.identified (fun e he => hnew e (mem_of_mem_take he))
      (fun e he => hold e (mem_of_mem_take he)) hhashes

/-! ### A reader that appends behind what it folded -/

namespace Behind

open GateHistory

def next : Envelope :=
  Envelope.sample 'a' "project" 2 [] "work.add" .null
    "c5c88ee423679c0676439b35bf815f125b91b7aaedcba6e780cb4b55265fb498"

theorem valid_next : next.Valid .integral := (Envelope.validate_eq_ok_iff _ _).mp (by decide +kernel)

theorem valid : AllValid .integral [here, next] := by simp [AllValid, valid_here, valid_next]

def cursor : Cursor := ⟨{"project"}, true, coverOf [here], ∅, ∅, ∅, ∅, none, ∅⟩

def request : ReadRequest := ⟨Envelope.store 'a', ["project"], cursor, [here], true⟩

def observed : Observed := ⟨[next], [], [], ∅, none, []⟩

def both : Ordered := ⟨[here, next], [], ∅, []⟩

theorem foldHistory_here : foldHistory .integral [here] ["project"] true none = .ok ⟨[here], [], ∅, []⟩ := by
  have hv : AllValid .integral [here] := valid.mono fun e he => mem_cons.mpr (.inl (mem_singleton.mp he))
  rw [foldHistory_of_contiguous (l := [here]) (by decide) (by decide),
    order_of_nodup hv (by decide)]
  decide

theorem foldHistory_both : foldHistory .integral (unionOf request observed) ["project"] true none = .ok both := by
  rw [foldHistory_of_contiguous (l := [here, next]) (by decide) (by decide),
    order_of_nodup valid (by decide)]
  decide

end Behind

open Behind

/-- The reader folds its second event behind its first. -/
theorem readFrom_extends_next :
    ∃ answer ordered, readFrom .integral request observed none = .ok answer ∧ answer.fold = .incremental ∧
      answer.events = [next] ∧
      foldHistory .integral (unionOf request observed) request.streams request.project none = .ok ordered ∧
      Extends request observed ordered.events answer := by
  have hcol : Codec.integral.CollisionFree ([GateHistory.here] ++ unionOf request observed) :=
    (Codec.CollisionFree.of_nodup valid (by decide)).mono (by decide)
  have hread : readFrom .integral request observed none = .ok
      { events := deltaOf request.cursor.cover both.events
        sequence := both.events
        deferred := both.deferred
        missing := both.missing
        concurrent := both.concurrent
        cursor := cursorAfter request observed both
        fold := .incremental
        fullOrder := both.events.map Envelope.h } := by
    have hfold : (if holdsHistory request then foldAnswer request.cursor (cursorAfter request observed both)
        (request.folded.map Envelope.h) (both.events.map Envelope.h) (deltaOf request.cursor.cover both.events)
        request.origin else .rebuildRequired 0) = Fold.incremental := by decide
    rw [readFrom, show foldHistory .integral (unionOf request observed) request.streams request.project none = _ from
      foldHistory_both]
    simp only [bind, Except.bind, hfold]
    rfl
  obtain ⟨ordered, horder, hextends⟩ := readFrom_extends foldHistory_here rfl rfl hcol hread
  exact ⟨_, ordered, hread, rfl, by decide, horder, hextends⟩

end Forgent.Coverage
