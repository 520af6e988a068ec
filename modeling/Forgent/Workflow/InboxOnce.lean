import Forgent.Workflow.Inbox

/-!
# The ledger takes each acknowledgement once

Whoever appends a settle or an answer holds `advance` and has read the ledger as it is, so no second one is appended.  A
file of the inbox is removed only when its event is on the ledger, and a drain goes through every file that was there when
it began.

* `Kept`: what holds of the ledger, the inbox and the calls.
* `DrainHolds`: what holds of the drain besides.
-/

namespace Forgent.Workflow.Inbox

open List Option Std.ExtTreeMap

def Safe (w : World) (ack : Ack) : Prop := OnLedger w.events ack ∨ Waits w ack

def CallHolds (w : World) : Call → Prop
  | .applied reservationId => Safe w (.settle reservationId)
  | .installed round => Safe w (.answer round.key)
  | _ => True

/-- **What holds of the ledger, the inbox and the calls.** -/
structure Kept (w : World) : Prop where
  numbered : LedgerFile.Numbered w.file.lines
  returned : ∀ stored ∈ w.returned, 0 < stored.seq ∧ w.file.lines[stored.seq - 1]? = some stored
  once : ∀ ack, w.events.countP (records ack) ≤ 1
  named : ∀ (reservationId : String) (settle : Settle),
    w.pending[reservationId]? = some settle → settle.reservationId = reservationId
  keys : (w.rounds.map Round.key).Nodup
  acked : ∀ ack ∈ w.acked, Safe w ack
  collected : ∀ ack ∈ w.collected, OnLedger w.events ack
  calls : ∀ i, CallHolds w (w.calls i)

/-- On the ledger, or in a file the drain has yet to come to. -/
def Queued (w : World) (names : List String) : Ack → Prop
  | .settle reservationId => reservationId ∈ names ∧ reservationId ∈ w.pending
  | .answer key => Waits w (.answer key)

/-- What holds of a drain, and of what was acknowledged when it began. -/
def DrainHolds (w : World) (due : List Ack) : Drain → Prop
  | .folding names events => events = w.events ∧ ∀ ack ∈ due, OnLedger w.events ack ∨ Queued w names ack
  | .folded name names => OnLedger w.events (.settle name) ∧ ∀ ack ∈ due, OnLedger w.events ack ∨ Queued w names ack
  | .answering rounds events => events = w.events ∧ (rounds.map Round.key).Nodup ∧
      (∀ r ∈ rounds, ¬ OnLedger w.events (.answer r.key)) ∧
      ∀ ack ∈ due, OnLedger w.events ack ∨ ∃ r ∈ rounds, ack = .answer r.key

def HolderHolds (w : World) : Holder → Prop
  | .draining due drain => DrainHolds w due drain
  | _ => True

/-- **What holds in every run.** -/
structure Sound (w : World) : Prop where
  kept : Kept w
  drain : HolderHolds w w.holder

theorem Kept.exactly {w : World} (h : Kept w) : Exactly w where
  numbered := h.numbered
  returned := h.returned
  once := h.once
  kept := h.acked
  collected := h.collected

/-! ### Appends -/

section

variable {w w' : World} {event : Event} {ack : Ack} {settle : Settle} {round : Round}

theorem CallHolds.mono {call : Call} (h : CallHolds w call) (hsafe : ∀ ack, Safe w ack → Safe w' ack) :
    CallHolds w' call := by
  cases call with
  | applied reservationId | installed round => exact hsafe _ h
  | _ => trivial

theorem onLedger_iff_any {events : List Event} : OnLedger events ack ↔ events.any (records ack) = true := by
  rw [List.any_eq_true]
  exact Iff.rfl

theorem OnLedger.append {events : List Event} (h : OnLedger events ack) (event : Event) :
    OnLedger (events ++ [event]) ack := by
  obtain ⟨e, he, hrecords⟩ := h
  exact ⟨e, mem_append_left _ he, hrecords⟩

theorem onLedger_last {events : List Event} (h : records ack event = true) : OnLedger (events ++ [event]) ack :=
  ⟨event, mem_append_right _ (mem_singleton_self event), h⟩

/-- The world with one more event on its ledger. -/
def World.grow (w : World) (event : Event) : World :=
  { w with
    file := ⟨w.file.lines ++ [⟨w.file.lines.length + 1, event⟩], []⟩
    returned := w.returned ++ [⟨w.file.lines.length + 1, event⟩] }

@[simp] theorem World.events_grow : (w.grow event).events = w.events ++ [event] := by
  show List.map Stored.event (w.file.lines ++ [_]) = _
  rw [map_append]
  rfl

theorem read_eq {events : List Stored} (h : w.file.read = .ok events) : events.map Stored.event = w.events := by
  rw [LedgerFile.read] at h
  split at h
  · split at h
    · cases h
      rfl
    · cases h
  · cases h

theorem append_eq (h : w.append event = some w') : w' = w.grow event := by
  rw [World.append, LedgerFile.append, LedgerFile.read] at h
  split at h
  case h_1 file hfile =>
    split at hfile
    · split at hfile
      · cases hfile
        cases h
        simp [World.grow]
      · cases hfile
    · cases hfile
  case h_2 => cases h

/-- **An event that records nothing the ledger has** may be appended. -/
theorem Kept.grow (h : Kept w) (hfresh : ∀ ack, records ack event = true → ¬ OnLedger w.events ack) :
    Kept (w.grow event) := by
  have hsafe : ∀ ack, Safe w ack → Safe (w.grow event) ack := by
    intro ack hack
    refine hack.imp (fun hon => ?_) (fun hwaits => ?_)
    · rw [World.events_grow]
      exact hon.append event
    · cases ack <;> exact hwaits
  constructor
  case numbered =>
    intro i stored hi
    rcases Nat.lt_trichotomy i w.file.lines.length with hlt | heq | hgt
    · exact h.numbered i stored (by rw [← hi]; exact (getElem?_append_left hlt).symm)
    · have hlast : some (⟨w.file.lines.length + 1, event⟩ : Stored) = some stored := by
        rw [← hi, heq]
        exact getElem?_concat_length.symm
      cases hlast
      rw [heq]
    · have hnone : (w.file.lines ++ [⟨w.file.lines.length + 1, event⟩])[i]? = none := by
        rw [List.getElem?_eq_none_iff, length_append, length_singleton]
        omega
      exact absurd (hnone.symm.trans hi) (by simp)
  case returned =>
    intro stored hstored
    rcases mem_append.mp hstored with hstored | hstored
    · obtain ⟨hpos, hget⟩ := h.returned stored hstored
      exact ⟨hpos, by rw [← hget]; exact getElem?_append_left (List.getElem?_eq_some_iff.mp hget).1⟩
    · obtain rfl := mem_singleton.mp hstored
      exact ⟨Nat.succ_pos _, getElem?_concat_length⟩
  case once =>
    intro ack
    rw [World.events_grow, countP_append, countP_singleton]
    split
    · rename_i hrecords
      have hzero : w.events.countP (records ack) = 0 :=
        countP_eq_zero.mpr fun e he hrec => hfresh ack hrecords ⟨e, he, hrec⟩
      omega
    · exact h.once ack
  case named => exact h.named
  case keys => exact h.keys
  case acked => exact fun ack hack => hsafe ack (h.acked ack hack)
  case collected =>
    intro ack hack
    rw [World.events_grow]
    exact (h.collected ack hack).append event
  case calls =>
    intro i
    show CallHolds _ (w.calls i)
    exact (h.calls i).mono hsafe

theorem applySettle_cases (h : w.applySettle w.events settle = some w') :
    (w' = w ∧ OnLedger w.events (.settle settle.reservationId)) ∨
      (w' = w.grow (.settle settle) ∧ ¬ OnLedger w.events (.settle settle.reservationId)) := by
  rw [World.applySettle] at h
  split at h
  · next hany =>
    cases h
    exact .inl ⟨rfl, onLedger_iff_any.mpr hany⟩
  · next hany => exact .inr ⟨append_eq h, fun hon => hany (onLedger_iff_any.mp hon)⟩

theorem records_settle (h : records ack (.settle settle) = true) : ack = .settle settle.reservationId := by
  cases ack with
  | settle reservationId =>
    rw [show settle.reservationId = reservationId from of_decide_eq_true h]
  | answer key => cases h

theorem records_gateAnswer (h : records ack (.gateAnswer round.payload) = true) : ack = .answer round.key := by
  cases ack with
  | settle reservationId => cases h
  | answer key =>
    rw [← show round.key = key from of_decide_eq_true h]

theorem records_other (hsettle : ∀ p, event = .settle p → False) (hanswer : ∀ p, event = .gateAnswer p → False)
    (ack : Ack) : records ack event = false := by
  unfold records
  split
  · exact (hsettle _ rfl).elim
  · exact (hanswer _ rfl).elim
  · rfl

theorem records_payload (round : Round) : records (.answer round.key) (.gateAnswer round.payload) = true :=
  decide_eq_true rfl

theorem Kept.applySettle (h : Kept w) (hact : w.applySettle w.events settle = some w') :
    Kept w' ∧ OnLedger w'.events (.settle settle.reservationId) ∧ (∀ ack, OnLedger w.events ack → OnLedger w'.events ack) ∧
      w'.pending = w.pending ∧ w'.rounds = w.rounds ∧ w'.holder = w.holder := by
  rcases applySettle_cases hact with ⟨rfl, hon⟩ | ⟨rfl, hfresh⟩
  · exact ⟨h, hon, fun _ h => h, rfl, rfl, rfl⟩
  · refine ⟨h.grow fun ack hrecords => records_settle hrecords ▸ hfresh, ?_, fun ack hack => ?_, rfl, rfl, rfl⟩
    · rw [World.events_grow]
      exact onLedger_last (decide_eq_true rfl)
    · rw [World.events_grow]
      exact hack.append _

/-! ### What does not append -/

theorem HolderHolds.mono {holder : Holder} (h : HolderHolds w holder) (hevents : w'.events = w.events)
    (hpending : ∀ name, name ∈ w.pending → name ∈ w'.pending) (hrounds : ∀ r ∈ w.rounds, r ∈ w'.rounds) :
    HolderHolds w' holder := by
  have hqueued : ∀ names ack, Queued w names ack → Queued w' names ack := by
    intro names ack hack
    cases ack with
    | settle reservationId => exact ⟨hack.1, hpending _ hack.2⟩
    | answer key =>
      obtain ⟨r, hr, hkey⟩ := hack
      exact ⟨r, hrounds r hr, hkey⟩
  cases holder with
  | free | held => trivial
  | draining due drain =>
    cases drain with
    | folding names events =>
      obtain ⟨hread, hdue⟩ := h
      refine ⟨hread.trans hevents.symm, fun ack hack => ?_⟩
      rw [hevents]
      exact (hdue ack hack).imp id (hqueued names ack)
    | folded name names =>
      obtain ⟨hon, hdue⟩ := h
      refine ⟨hevents ▸ hon, fun ack hack => ?_⟩
      rw [hevents]
      exact (hdue ack hack).imp id (hqueued names ack)
    | answering rounds events =>
      obtain ⟨hread, hkeys, hfresh, hdue⟩ := h
      rw [← hevents] at hread hfresh hdue
      exact ⟨hread, hkeys, hfresh, hdue⟩

/-- What a step does that neither appends nor takes a file away: files may come, and it may acknowledge what is safe. -/
structure Quiet (w w' : World) : Prop where
  lines : w'.file.lines = w.file.lines
  returned : w'.returned = w.returned
  pending : ∀ name, name ∈ w.pending → name ∈ w'.pending
  named : ∀ (reservationId : String) (settle : Settle), w'.pending[reservationId]? = some settle →
    w.pending[reservationId]? = some settle ∨ settle.reservationId = reservationId
  rounds : ∀ r ∈ w.rounds, r ∈ w'.rounds
  keys : (w.rounds.map Round.key).Nodup → (w'.rounds.map Round.key).Nodup
  acked : ∀ ack ∈ w'.acked, ack ∈ w.acked ∨ Safe w' ack
  collected : ∀ ack ∈ w'.collected, ack ∈ w.collected ∨ OnLedger w.events ack
  calls : ∀ i, w'.calls i = w.calls i ∨ CallHolds w' (w'.calls i)

namespace Quiet

variable (h : Quiet w w')

include h

theorem events : w'.events = w.events := congrArg (List.map Stored.event) h.lines

theorem safe (hack : Safe w ack) : Safe w' ack := by
  refine hack.imp (fun hon => ?_) (fun hwaits => ?_)
  · rw [h.events]
    exact hon
  · cases ack with
    | settle reservationId => exact h.pending _ hwaits
    | answer key =>
      obtain ⟨r, hr, hkey⟩ := hwaits
      exact ⟨r, h.rounds r hr, hkey⟩

theorem kept (hkept : Kept w) : Kept w' := by
  constructor
  case numbered =>
    rw [h.lines]
    exact hkept.numbered
  case returned =>
    rw [h.returned, h.lines]
    exact hkept.returned
  case once =>
    rw [h.events]
    exact hkept.once
  case named =>
    intro reservationId settle hget
    exact (h.named reservationId settle hget).elim (hkept.named reservationId settle) id
  case keys => exact h.keys hkept.keys
  case acked => exact fun ack hack => (h.acked ack hack).elim (fun hack => h.safe (hkept.acked ack hack)) id
  case collected =>
    intro ack hack
    rw [h.events]
    exact (h.collected ack hack).elim (hkept.collected ack) id
  case calls =>
    intro i
    rcases h.calls i with hcall | hcall
    · rw [hcall]
      exact (hkept.calls i).mono fun ack => h.safe
    · exact hcall

theorem holder {holder : Holder} (hholds : HolderHolds w holder) : HolderHolds w' holder :=
  hholds.mono h.events h.pending h.rounds

end Quiet

theorem update_calls (w w' : World) (i : ℕ) (call : Call) (hcall : CallHolds w' call)
    (hcalls : w'.calls = Function.update w.calls i call) (j : ℕ) :
    w'.calls j = w.calls j ∨ CallHolds w' (w'.calls j) := by
  rw [hcalls, Function.update_apply]
  split
  · exact .inr hcall
  · exact .inl rfl

variable {i : ℕ} {due : List Ack} {name : String} {names : List String}

theorem Quiet.setCall {call : Call} (hcall : CallHolds w call) : Quiet w (w.setCall i call) where
  lines := rfl
  returned := rfl
  pending := fun _ h => h
  named := fun _ _ h => .inl h
  rounds := fun _ h => h
  keys := id
  acked := fun _ h => .inl h
  collected := fun _ h => .inl h
  calls := update_calls w (w.setCall i call) i call (hcall.mono fun _ h => h) rfl

/-! ### One act -/

theorem Sound.quiet (h : Sound w) (hquiet : Quiet w w')
    (hholder : w'.holder = w.holder ∨ w'.holder = .free ∨ w'.holder = .held) : Sound w' := by
  refine ⟨hquiet.kept h.kept, ?_⟩
  rcases hholder with hsame | hfree | hheld
  · rw [hsame]
    exact hquiet.holder h.drain
  · rw [hfree]
    trivial
  · rw [hheld]
    trivial

theorem Sound.held (hkept : Kept w') (hholder : w'.holder = .held) : Sound w' := by
  refine ⟨hkept, ?_⟩
  rw [hholder]
  trivial

theorem Sound.call (h : Sound w) {i : ℕ} {call : Call} (hcall : CallHolds w call) : Sound (w.setCall i call) :=
  h.quiet (.setCall hcall) (.inl rfl)

theorem Quiet.pending_insert (settle : Settle) {calls : ℕ → Call}
    (hcalls : ∀ j, calls j = w.calls j ∨ calls j = .applied settle.reservationId) :
    Quiet w { w with calls, pending := w.pending.insert settle.reservationId settle } where
  lines := rfl
  returned := rfl
  pending := fun name hname => mem_insert.mpr (.inr hname)
  named := by
    intro reservationId settle' hget
    have hget : (w.pending.insert settle.reservationId settle)[reservationId]? = some settle' := hget
    rw [Std.ExtTreeMap.getElem?_insert] at hget
    split at hget
    · next hkey =>
      cases hget
      exact .inr (compare_key.mp hkey)
    · exact .inl hget
  rounds := fun _ h => h
  keys := id
  acked := fun _ h => .inl h
  collected := fun _ h => .inl h
  calls := by
    intro j
    refine (hcalls j).imp id fun hj => ?_
    show CallHolds _ (calls j)
    rw [hj]
    exact .inr (Std.ExtTreeMap.mem_insert_self)

theorem Quiet.install (hnew : ∀ r ∈ w.rounds, r.key ≠ round.key) :
    Quiet w { w.setCall i (.installed round) with rounds := w.rounds ++ [round] } where
  lines := rfl
  returned := rfl
  pending := fun _ h => h
  named := fun _ _ h => .inl h
  rounds := fun r hr => mem_append_left _ hr
  keys := by
    intro hkeys
    rw [map_append, nodup_append]
    refine ⟨hkeys, nodup_singleton _, fun key hkey key' hkey' => ?_⟩
    obtain ⟨r, hr, rfl⟩ := List.mem_map.mp hkey
    rw [mem_singleton.mp hkey']
    exact hnew r hr
  acked := fun _ h => .inl h
  collected := fun _ h => .inl h
  calls := update_calls w { w.setCall i (.installed round) with rounds := w.rounds ++ [round] } i (.installed round)
    (.inr ⟨round, mem_append_right _ (mem_singleton_self _), rfl⟩) rfl

theorem Quiet.acknowledge (hsafe : Safe w ack) :
    Quiet w { w.setCall i .returned with acked := w.acked ++ [ack] } where
  lines := rfl
  returned := rfl
  pending := fun _ h => h
  named := fun _ _ h => .inl h
  rounds := fun _ h => h
  keys := id
  acked := by
    intro ack' hack'
    refine (mem_append.mp hack').imp id fun hlast => ?_
    rw [mem_singleton.mp hlast]
    exact hsafe
  collected := fun _ h => .inl h
  calls := update_calls w { w.setCall i .returned with acked := w.acked ++ [ack] } i .returned trivial rfl

section

variable (h : Kept w)

include h

theorem Kept.tail (holder : Holder) (tail : List Char) : Kept { w with holder, file := { w.file with tail } } where
  numbered := h.numbered
  returned := h.returned
  once := h.once
  named := h.named
  keys := h.keys
  acked := fun ack hack => (h.acked ack hack).imp id (by cases ack <;> exact id)
  collected := h.collected
  calls := fun i => (h.calls i).mono fun ack hack => hack.imp id (by cases ack <;> exact id)

theorem Kept.holder (holder : Holder) : Kept { w with holder } := h.tail holder w.file.tail

theorem Kept.erase (hon : OnLedger w.events (.settle name)) : Kept { w with pending := w.pending.erase name } := by
  have hsafe : ∀ ack, Safe w ack → Safe { w with pending := w.pending.erase name } ack := by
    intro ack hack
    rcases hack with hack | hwaits
    · exact .inl hack
    · cases ack with
      | settle reservationId =>
        by_cases heq : name = reservationId
        · exact .inl (heq ▸ hon)
        · exact .inr (mem_erase.mpr ⟨fun hcmp => heq (compare_key.mp hcmp), hwaits⟩)
      | answer key => exact .inr hwaits
  refine { h with named := ?named, acked := ?acked, calls := ?calls }
  case named =>
    intro reservationId settle hget
    have hget : (w.pending.erase name)[reservationId]? = some settle := hget
    rw [getElem?_erase] at hget
    split at hget
    · cases hget
    · exact h.named reservationId settle hget
  case acked => exact fun ack hack => hsafe ack (h.acked ack hack)
  case calls => exact fun i => (h.calls i).mono hsafe

theorem Kept.nothing (hpending : w.pending.isEmpty = true) (hrounds : w.rounds.isEmpty = true) :
    Kept { w with collected := w.collected ++ w.acked } := by
  have hcollected : ∀ ack ∈ w.collected ++ w.acked, OnLedger w.events ack := by
    intro ack hack
    rcases mem_append.mp hack with hack | hack
    · exact h.collected ack hack
    · refine (h.acked ack hack).elim id fun hwaits => ?_
      cases ack with
      | settle reservationId =>
        have hwaits : reservationId ∈ w.pending := hwaits
        rw [Std.ExtTreeMap.isEmpty_iff.mp hpending] at hwaits
        exact absurd hwaits not_mem_empty
      | answer key =>
        obtain ⟨r, hr, _⟩ := hwaits
        rw [List.isEmpty_iff.mp hrounds] at hr
        exact absurd hr (by simp)
  exact { h.holder w.holder with collected := hcollected }

theorem unconsumed_holds : ((unconsumedGateRounds w.rounds w.events).map Round.key).Nodup ∧
      (∀ r ∈ unconsumedGateRounds w.rounds w.events, ¬ OnLedger w.events (.answer r.key)) ∧
      ∀ r ∈ w.rounds, OnLedger w.events (.answer r.key) ∨ r ∈ unconsumedGateRounds w.rounds w.events := by
  have hperm : (unconsumedGateRounds w.rounds w.events).Perm (w.rounds.filter fun r => !roundConsumed w.events r) :=
    perm_insertionSort _ _
  have hmem : ∀ r, r ∈ unconsumedGateRounds w.rounds w.events ↔ r ∈ w.rounds ∧ ¬ OnLedger w.events (.answer r.key) := by
    intro r
    rw [hperm.mem_iff, mem_filter, onLedger_iff_any]
    simp [roundConsumed]
  refine ⟨?_, fun r hr => ((hmem r).mp hr).2, fun r hr => ?_⟩
  · rw [(hperm.map Round.key).nodup_iff]
    exact h.keys.sublist (filter_sublist.map Round.key)
  · by_cases hon : OnLedger w.events (.answer r.key)
    · exact .inl hon
    · exact .inr ((hmem r).mpr ⟨hr, hon⟩)

/-- The drain comes to the file of a settle, or is done with the files. -/
theorem Sound.fold (hdue : ∀ ack ∈ due, OnLedger w.events ack ∨ Queued w names ack)
    (hact : w.drainStep due (.folding names w.events) = some w') : Sound w' := by
  cases names with
  | nil =>
    -- every settle that was due is on the ledger now, and every answer is on it or among the rounds left
    simp only [World.drainStep, some.injEq] at hact
    subst hact
    obtain ⟨hkeys, hfresh, hleft⟩ := unconsumed_holds h
    refine ⟨h.holder _, rfl, hkeys, hfresh, fun ack hack => ?_⟩
    rcases hdue ack hack with hon | hqueued
    · exact .inl hon
    · cases ack with
      | settle reservationId => exact absurd hqueued.1 (by simp)
      | answer key =>
        obtain ⟨r, hr, rfl⟩ := hqueued
        exact (hleft r hr).imp id fun hr => ⟨r, hr, rfl⟩
  | cons name names =>
    rw [World.drainStep] at hact
    split at hact
    · next hnone =>
      cases hact
      refine ⟨h.holder _, rfl, fun ack hack => ?_⟩
      refine (hdue ack hack).imp id fun hqueued => ?_
      cases ack with
      | settle reservationId =>
        obtain ⟨hin, hpending⟩ := hqueued
        refine ⟨(mem_cons.mp hin).resolve_left fun heq => ?_, hpending⟩
        rw [heq, mem_iff_isSome_getElem?, hnone] at hpending
        cases hpending
      | answer key => exact hqueued
    · next settle hsome =>
      obtain ⟨u, hu, rfl⟩ := map_eq_some_iff.mp hact
      obtain ⟨hkept, hon, hmono, hpending, hrounds, _⟩ := h.applySettle hu
      rw [h.named name settle hsome] at hon
      refine ⟨hkept.holder _, hon, fun ack hack => ?_⟩
      rcases hdue ack hack with hack | hqueued
      · exact .inl (hmono ack hack)
      · cases ack with
        | settle reservationId =>
          rcases mem_cons.mp hqueued.1 with rfl | hin
          · exact .inl hon
          · exact .inr ⟨hin, hpending ▸ hqueued.2⟩
        | answer key =>
          obtain ⟨r, hr, hkey⟩ := hqueued
          exact .inr ⟨r, hrounds ▸ hr, hkey⟩

theorem Sound.folded
    (hon : OnLedger w.events (.settle name)) (hdue : ∀ ack ∈ due, OnLedger w.events ack ∨ Queued w names ack)
    (hact : w.drainStep due (.folded name names) = some w') : Sound w' := by
  rw [World.drainStep] at hact
  split at hact
  · next events hread =>
    cases hact
    refine ⟨(h.erase hon).holder _, read_eq hread, fun ack hack => ?_⟩
    rcases hdue ack hack with hack | hqueued
    · exact .inl hack
    · cases ack with
      | settle reservationId =>
        by_cases heq : name = reservationId
        · exact .inl (heq ▸ hon)
        · exact .inr ⟨hqueued.1, mem_erase.mpr ⟨fun hcmp => heq (compare_key.mp hcmp), hqueued.2⟩⟩
      | answer key => exact .inr hqueued
  · cases hact

/-- The drain appends the next answer, or is done. -/
theorem Sound.answer {rounds : List Round} (hdrain : DrainHolds w due (.answering rounds w.events))
    (hact : w.drainStep due (.answering rounds w.events) = some w') : Sound w' := by
  obtain ⟨_, hkeys, hfresh, hdue⟩ := hdrain
  cases rounds with
  | nil =>
    simp only [World.drainStep, some.injEq] at hact
    subst hact
    refine Sound.held ?_ rfl
    have hcollected : ∀ ack ∈ w.collected ++ due, OnLedger w.events ack := by
      intro ack hack
      rcases mem_append.mp hack with hack | hack
      · exact h.collected ack hack
      · rcases hdue ack hack with hon | ⟨r, hr, _⟩
        · exact hon
        · exact absurd hr (by simp)
    exact { h.holder .held with collected := hcollected }
  | cons r rounds =>
    rw [World.drainStep] at hact
    obtain ⟨u, hu, rfl⟩ := map_eq_some_iff.mp hact
    obtain rfl := append_eq hu
    obtain ⟨hnotin, hkeys⟩ := nodup_cons.mp hkeys
    have hgrow : Kept (w.grow (.gateAnswer r.payload)) :=
      h.grow fun ack hrecords => records_gateAnswer hrecords ▸ hfresh r (by simp)
    have hevents : (w.grow (.gateAnswer r.payload)).events = w.events ++ [.gateAnswer r.payload] := World.events_grow
    refine ⟨hgrow.holder _, hevents.symm, hkeys, fun r' hr' hon => ?_, fun ack hack => ?_⟩
    · -- the answer that was appended is of another round
      obtain ⟨e, he, hrecords⟩ := hon
      have he : e ∈ w.events ++ [.gateAnswer r.payload] := hevents ▸ he
      rcases mem_append.mp he with he | he
      · exact hfresh r' (mem_cons_of_mem _ hr') ⟨e, he, hrecords⟩
      · rw [mem_singleton.mp he] at hrecords
        have hkey : r'.key = r.key := Ack.answer.inj (records_gateAnswer hrecords)
        exact hnotin (hkey ▸ List.mem_map_of_mem hr')
    · show OnLedger (w.grow (.gateAnswer r.payload)).events ack ∨ _
      rw [hevents]
      rcases hdue ack hack with hon | ⟨r', hr', rfl⟩
      · exact .inl (hon.append _)
      · rcases mem_cons.mp hr' with rfl | hr'
        · exact .inl (onLedger_last (records_payload _))
        · exact .inr ⟨r', hr', rfl⟩

/-- **One step of the drain.** -/
theorem Sound.drainStep {drain : Drain} (hdrain : DrainHolds w due drain)
    (hact : w.drainStep due drain = some w') : Sound w' := by
  cases drain with
  | folding names events =>
    obtain ⟨rfl, hdue⟩ := hdrain
    exact Sound.fold h hdue hact
  | folded name names => exact Sound.folded h hdrain.1 hdrain.2 hact
  | answering rounds events =>
    obtain rfl : events = w.events := hdrain.1
    exact Sound.answer h hdrain hact

end

theorem Sound.applySettle (h : Sound w) (hholder : w.holder = .held)
    (hact : w.applySettle w.events settle = some w') :
    Sound w' ∧ OnLedger w'.events (.settle settle.reservationId) := by
  obtain ⟨hkept, hon, _, _, _, hsame⟩ := h.kept.applySettle hact
  exact ⟨.held hkept (hsame.trans hholder), hon⟩

theorem Sound.append (h : Sound w) (hholder : w.holder = .held) (hnone : ∀ ack, records ack event = false)
    (hact : w.append event = some w') : Sound w' := by
  obtain rfl := append_eq hact
  refine .held (h.kept.grow fun ack hrecords => ?_) hholder
  rw [hnone] at hrecords
  cases hrecords

/-- **One act.** -/
theorem Sound.act (h : Sound w) {a : Act} (hact : w.act a = some w') : Sound w' := by
  cases a with
  | take | drainThrow =>
    simp only [World.act] at hact
    split at hact
    · cases hact
      exact .held (h.kept.holder .held) rfl
    · cases hact
  | release =>
    simp only [World.act] at hact
    split at hact
    · cases hact
      exact ⟨h.kept.holder .free, trivial⟩
    · cases hact
  | crash torn =>
    simp only [World.act] at hact
    split at hact
    · cases hact
      exact ⟨h.kept.holder .free, trivial⟩
    · split at hact
      · split at hact
        · cases hact
        · cases hact
          exact ⟨h.kept.tail .free torn, trivial⟩
      · cases hact
  | truncate =>
    simp only [World.act] at hact
    split at hact
    · next hholder =>
      cases hact
      exact .held (h.kept.tail w.holder []) hholder
    · cases hact
  | append event =>
    simp only [World.act] at hact
    split at hact
    · cases hact
    · cases hact
    · next hholder hsettle hanswer =>
      exact h.append hholder (records_other hsettle hanswer) hact
    · cases hact
  | settleRead i reservationId result | answerDecide i =>
    simp only [World.act] at hact
    split at hact
    · split at hact
      · cases hact
        exact h.call trivial
      · cases hact
        exact h.call trivial
    · cases hact
  | settleHeld i =>
    simp only [World.act] at hact
    split at hact
    · next settle known hholder _ hread =>
      rw [read_eq hread] at hact
      obtain ⟨u, hu, rfl⟩ := map_eq_some_iff.mp hact
      obtain ⟨hsound, hon⟩ := h.applySettle hholder hu
      exact hsound.call (.inl hon)
    · cases hact
  | settlePending i =>
    simp only [World.act] at hact
    split at hact
    · next settle _ =>
      cases hact
      refine h.quiet (Quiet.pending_insert _ fun j => ?_) (.inl rfl)
      show Function.update w.calls i _ j = _ ∨ Function.update w.calls i _ j = _
      rw [Function.update_apply]
      split
      · exact .inr rfl
      · exact .inl rfl
    · cases hact
  | settleReturn i =>
    simp only [World.act] at hact
    split at hact
    · next reservationId hcall =>
      cases hact
      have hholds := h.kept.calls i
      rw [hcall] at hholds
      exact h.quiet (.acknowledge hholds) (.inl rfl)
    · cases hact
  | refundHeld reservationId =>
    simp only [World.act] at hact
    split at hact
    · next hholder hread =>
      rw [read_eq hread] at hact
      split at hact
      · exact (h.applySettle hholder hact).1
      · cases hact
    · cases hact
  | refundPending reservationId =>
    cases hact
    exact h.quiet (Quiet.pending_insert (refund reservationId) fun _ => .inl rfl) (.inl rfl)
  | answerRead i ask =>
    simp only [World.act] at hact
    split at hact
    · cases hact
      exact h.call trivial
    · cases hact
  | answerInstall i =>
    simp only [World.act] at hact
    split at hact
    · next round _ =>
      split at hact
      · cases hact
        exact h.call trivial
      · next hnew =>
        cases hact
        refine h.quiet (.install fun r hr heq => hnew ?_) (.inl rfl)
        exact List.any_eq_true.mpr ⟨r, hr, decide_eq_true heq⟩
    · cases hact
  | answerReturn i =>
    simp only [World.act] at hact
    split at hact
    · next round hcall =>
      cases hact
      have hholds := h.kept.calls i
      rw [hcall] at hholds
      exact h.quiet (.acknowledge hholds) (.inl rfl)
    · cases hact
  | fail i =>
    cases hact
    exact h.call trivial
  | drainNothing =>
    simp only [World.act] at hact
    split at hact
    · next hholder =>
      split at hact
      · next hempty =>
        cases hact
        obtain ⟨hpending, hrounds⟩ := Bool.and_eq_true_iff.mp hempty
        exact .held (h.kept.nothing hpending hrounds) hholder
      · cases hact
    · cases hact
  | drainBegin =>
    simp only [World.act] at hact
    split at hact
    · next events _ hread =>
      cases hact
      refine ⟨h.kept.holder _, read_eq hread, fun ack hack => ?_⟩
      refine (h.kept.acked ack hack).imp id fun hwaits => ?_
      cases ack with
      | settle reservationId => exact ⟨Std.ExtTreeMap.mem_keys.mpr hwaits, hwaits⟩
      | answer key => exact hwaits
    · cases hact
  | drain =>
    simp only [World.act] at hact
    split at hact
    · next due drain hholder =>
      have hdrain := h.drain
      rw [hholder] at hdrain
      exact .drainStep h.kept hdrain hact
    · cases hact

end

theorem sound_created (p : StartPayload) : Sound (World.created p) := by
  refine ⟨?_, trivial⟩
  constructor
  case numbered =>
    intro i stored hi
    cases i with
    | zero =>
      obtain rfl : (⟨1, .workflowStart p⟩ : Stored) = stored := some.inj hi
      rfl
    | succ i => cases hi
  case once =>
    intro ack
    show List.countP (records ack) [.workflowStart p] ≤ 1
    exact countP_le_length
  case named =>
    intro reservationId settle hget
    have hget : (∅ : Table Settle)[reservationId]? = some settle := hget
    simp at hget
  case returned => exact fun stored hstored => absurd hstored (by simp [World.created])
  case keys => exact nodup_nil
  case acked => exact fun ack hack => absurd hack (by simp [World.created])
  case collected => exact fun ack hack => absurd hack (by simp [World.created])
  case calls => exact fun i => trivial

/-- **The ledger of a case takes each settle and each answer exactly once and loses none**, in every run of its
processes. -/
theorem taken_exactly_once {w : World}
    (hrun : ActRun World.act (fun w => ∃ p, w = World.created p) (fun _ _ => True) w) : Exactly w := by
  have hsound : Sound w := by
    refine ActRun.invariant ?_ ?_ hrun
    · rintro w ⟨p, rfl⟩
      exact sound_created p
    · exact fun h _ hact => h.act hact
  exact hsound.kept.exactly

/-! ### A run -/

namespace Sample

def started : StartPayload where
  workflowRunId := "run"
  workflowId := "workflow"
  workflow := none
  request := none

def reservation : Reservation where
  reservationId := "r1"
  activity := none
  unitId := none
  nested := none
  writes := []
  worktree := none
  counters := none
  seatLaunchCeiling := none
  blind := false
  unitRunId := none

def done : SettleResult where
  unitRunId := none
  outcome := "passed"
  receipts := []
  achieved := []
  seatLaunchesUsed := none
  frameExhausted := false

def yes : AnswerAsk where
  stepId := "approve"
  answer := "yes"
  approved := true
  question := "ready?"
  mode := .consent
  subjectDigest := none
  answeredAt := "2026-01-01"

/-- The settle waits as a file, the drain that appends it dies in the append, and the next holder repairs the ledger and
drains again. -/
def acts : List Act :=
  [.take, .append (.reservation reservation), .settleRead 0 "r1" done, .settlePending 0, .settleReturn 0,
    .answerRead 1 yes, .answerDecide 1, .answerInstall 1, .answerReturn 1, .drainBegin, .crash ['\x7b'], .take, .truncate,
    .drainBegin, .drain, .drain, .drain, .drain, .drain, .release]

/-- How many settles and answers there are, and how many acknowledgements a drain has collected. -/
def seen (w : World) : ℕ × ℕ × ℕ :=
  (w.events.countP (records (.settle "r1")), w.events.countP (records (.answer ("approve", 1, 1))), w.collected.length)

end Sample

open Sample in
theorem drained_after_a_crash : ∃ w, (acts.foldlM World.act (World.created started)) = some w ∧
    seen w = (1, 1, 2) ∧ Exactly w := by
  have hseen : (acts.foldlM World.act (World.created started)).map seen = some (1, 1, 2) := by decide
  obtain ⟨w, hw, hpair⟩ := map_eq_some_iff.mp hseen
  exact ⟨w, hw, hpair, taken_exactly_once (ActRun.of_acts acts (fun _ _ _ => trivial) (.start ⟨started, rfl⟩) hw)⟩

end Forgent.Workflow.Inbox
