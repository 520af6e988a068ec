import Forgent.Terminal.Slots

/-!
# What a step does to the slots

* `Later`: what no step takes back.
* `CallHolds`, `Sound`: what a call in flight, and the slots, keep to.
* `Sound.moves`, `Sound.quiet`, `Sound.record`, `Sound.close`, `Sound.typed`, `Sound.markReleased`: the kinds of effects.
-/

namespace Forgent.Terminal

open List Std.ExtTreeMap

variable {w w' : World} {i : ℕ} {α : Type} {key : String} {r : AllocationRecord} {table : Table α} {name : String}
  {call : Call}

theorem getElem?_insert_of_not_mem {value old : α} (hkey : key ∉ table)
    (h : table[name]? = some old) : (table.insert key value)[name]? = some old := by
  rw [Std.ExtTreeMap.getElem?_insert, if_neg, h]
  intro heq
  rw [compare_key.mp heq, mem_iff_isSome_getElem?, h] at hkey
  exact hkey rfl

theorem getElem?_insert_cases {value found : α}
    (h : (table.insert key value)[name]? = some found) : name = key ∧ found = value ∨ table[name]? = some found := by
  rw [Std.ExtTreeMap.getElem?_insert] at h
  split at h
  · next heq => exact .inl ⟨(compare_key.mp heq).symm, (Option.some.inj h).symm⟩
  · exact .inr h

theorem not_mem_of_none (h : table[key]? = none) : key ∉ table := by
  rw [mem_iff_isSome_getElem?, h]
  exact fun hfalse => Bool.false_ne_true hfalse

theorem none_of_not_mem (h : key ∉ table) : table[key]? = none :=
  Std.ExtTreeMap.getElem?_eq_none h

/-! ### What no step takes back -/

structure Later (w w' : World) : Prop where
  records : ∀ ⦃key : String⦄ ⦃r : AllocationRecord⦄, w.records[key]? = some r → w'.records[key]? = some r
  launched : ∀ ⦃key : String⦄ ⦃l : ProcessIdentity⦄, w.launched[key]? = some l → w'.launched[key]? = some l
  released : ∀ ⦃key : String⦄ ⦃m : ReleasedMarker⦄, w.released[key]? = some m → w'.released[key]? = some m
  requested : ∀ key ∈ w.launchRequested, key ∈ w'.launchRequested
  created : ∀ pane ∈ w.created, pane ∈ w'.created
  present : ∀ pane, w.panes pane ≠ .absent → w'.panes pane ≠ .absent
  born : ∀ tuple, w.life tuple ≠ .unborn → w'.life tuple ≠ .unborn
  dead : ∀ tuple, w.life tuple = .over → w'.life tuple = .over

theorem Later.setCall (w : World) (i : ℕ) (call : Call) : Later w (w.setCall i call) :=
  ⟨fun _ _ => id, fun _ _ => id, fun _ _ => id, fun _ => id, fun _ => id, fun _ => id, fun _ => id, fun _ => id⟩

def InSlot (w : World) (r : AllocationRecord) : Prop := w.records[r.key]? = some r ∧ r.origin = .allocated

def LaunchedKnown (w : World) (r : AllocationRecord) (launched : Option ProcessIdentity) : Prop :=
  ∀ l, launched = some l → w.launched[r.key]? = some l

/-- All of the foreground was the shell, or the launched process while it ran. -/
def Owned (launched : Option ProcessIdentity) (info : ProcessInfo) (running : Bool) : Prop :=
  info.foreground ≠ [] ∧
    ∀ p ∈ info.foreground, p.pid = info.shellPid ∨ ∃ l, launched = some l ∧ l.tuple.pid = p.pid ∧ running = true

def CallHolds (w : World) : Call → Prop
  | .measuring _ _ pane _ | .recording _ _ pane _ | .losing _ _ pane => pane ∈ w.created
  | .attaching _ _ pane _ => w.panes pane ≠ .absent
  | .unreleased r _ | .living r _ | .marked r _ _ _ => w.records[r.key]? = some r
  | .unrequested r _ _ | .waiting r _ _ _ | .bare r _ _ | .requesting r _ _ | .identifying r _ | .readingLaunched r =>
    InSlot w r
  | .typing r _ _ => InSlot w r ∧ r.key ∈ w.launchRequested
  | .closingOwn r callerPane => w.records[r.key]? = some r ∧ r.origin = .attached ∧ callerPane = r.paneId
  | .runningBefore r launched => InSlot w r ∧ LaunchedKnown w r launched
  | .readingInfo r launched before =>
    InSlot w r ∧ LaunchedKnown w r launched ∧ (before = true → ∀ l, launched = some l → w.life l.tuple ≠ .unborn)
  | .runningAfter r launched before info running =>
    InSlot w r ∧ LaunchedKnown w r launched ∧ info.foreground ≠ [] ∧
      (before = true → running = false → ∀ l, launched = some l → w.life l.tuple = .over)
  | .closing r launched info running => InSlot w r ∧ LaunchedKnown w r launched ∧ Owned launched info running
  | .released key disposition => ∃ m, w.released[key]? = some m ∧ m.disposition = disposition
  | _ => True

theorem InSlot.later (h : InSlot w r) (hl : Later w w') : InSlot w' r := ⟨hl.records h.1, h.2⟩

theorem LaunchedKnown.later {launched : Option ProcessIdentity} (h : LaunchedKnown w r launched)
    (hl : Later w w') : LaunchedKnown w' r launched :=
  fun l hlaunched => hl.launched (h l hlaunched)

theorem CallHolds.later (h : CallHolds w call) (hl : Later w w') : CallHolds w' call := by
  cases call with
  | measuring _ _ pane _ | recording _ _ pane _ | losing _ _ pane => exact hl.created pane h
  | attaching _ _ pane _ => exact hl.present pane h
  | unreleased r _ | living r _ | marked r _ _ _ => exact hl.records h
  | unrequested r _ _ | waiting r _ _ _ | bare r _ _ | requesting r _ _ | identifying r _ | readingLaunched r => exact InSlot.later h hl
  | typing r _ _ => exact ⟨h.1.later hl, hl.requested _ h.2⟩
  | closingOwn r _ => exact ⟨hl.records h.1, h.2⟩
  | runningBefore r _ => exact ⟨h.1.later hl, h.2.later hl⟩
  | readingInfo r _ _ => exact ⟨h.1.later hl, h.2.1.later hl, fun hb l hlaunched => hl.born _ (h.2.2 hb l hlaunched)⟩
  | runningAfter r _ _ _ _ =>
    exact ⟨h.1.later hl, h.2.1.later hl, h.2.2.1, fun hb hr l hlaunched => hl.dead _ (h.2.2.2 hb hr l hlaunched)⟩
  | closing r _ _ _ => exact ⟨h.1.later hl, h.2.1.later hl, h.2.2⟩
  | released key disposition =>
    obtain ⟨m, hm, hd⟩ := h
    exact ⟨m, hl.released hm, hd⟩
  | _ => trivial

/-- The key whose launch line the call is about to type. -/
def Call.types : Call → Option String
  | .typing record _ _ => some record.key
  | _ => none

structure Sound (w : World) : Prop where
  keyed : ∀ ⦃key : String⦄ ⦃r : AllocationRecord⦄, w.records[key]? = some r → r.key = key
  recorded : ∀ r ∈ w.recorded, w.records[r.key]? = some r
  present : ∀ ⦃key : String⦄ ⦃r : AllocationRecord⦄, w.records[key]? = some r → w.panes r.paneId ≠ .absent
  created : ∀ pane ∈ w.created, w.panes pane ≠ .absent
  apart : ∀ ⦃key key' : String⦄ ⦃r r' : AllocationRecord⦄, w.records[key]? = some r →
    w.records[key']? = some r' → r.origin = .allocated → r'.origin = .allocated → r.paneId = r'.paneId → key = key'
  markers : ∀ m ∈ w.markers, w.released[m.key]? = some m
  beyond : ∀ j, w.count ≤ j → w.calls j = .over
  calls : ∀ j, CallHolds w (w.calls j)
  /-- A pane an allocate has created for itself is in no record, and was not closed. -/
  held : ∀ ⦃j pane⦄, (w.calls j).holds = some pane →
    (∀ ⦃key : String⦄ ⦃r : AllocationRecord⦄, w.records[key]? = some r → r.paneId ≠ pane) ∧ ∀ c ∈ w.closed, c.why.isUnrecorded = true → c.pane ≠ pane
  heldOnce : ∀ ⦃j k pane⦄, (w.calls j).holds = some pane → (w.calls k).holds = some pane → j = k
  past : ∀ ⦃j key⦄, (w.calls j).looksPast = some key → w.released[key]? = none
  typing : ∀ ⦃j key⦄, (w.calls j).types = some key → key ∉ w.typed.map Typed.key
  typingOnce : ∀ ⦃j k key⦄, (w.calls j).types = some key → (w.calls k).types = some key → j = k
  typedRequested : ∀ t ∈ w.typed, t.key ∈ w.launchRequested
  typedOnce : (w.typed.map Typed.key).Nodup
  typedInto : ∀ t ∈ w.typed, ∃ r : AllocationRecord, w.records[t.key]? = some r ∧ r.origin = .allocated ∧ r.paneId = t.pane
  typedBefore : ∀ t ∈ w.typed, t.marker = none
  retained : ∀ c ∈ w.closed, ∀ m, c.marker = some m → m.outcome ≠ .retained
  closed : ∀ c ∈ w.closed, ClosedHolds w c

theorem sound_initial : Sound World.initial where
  keyed := fun _ _ h => by cases getElem?_empty.symm.trans h
  recorded := nofun
  present := fun _ _ h => by cases getElem?_empty.symm.trans h
  created := nofun
  apart := fun _ _ _ _ h => by cases getElem?_empty.symm.trans h
  markers := nofun
  beyond := fun _ _ => rfl
  calls := fun _ => trivial
  held := nofun
  heldOnce := nofun
  past := nofun
  typing := nofun
  typingOnce := nofun
  typedRequested := nofun
  typedOnce := nodup_nil
  typedInto := nofun
  typedBefore := nofun
  retained := nofun
  closed := nofun

/-! ### The kinds of effects -/

structure MayMove (w : World) (i : ℕ) (call : Call) : Prop where
  called : i < w.count ∨ call = .over
  stands : CallHolds w call
  holds : ∀ pane, call.holds = some pane → (w.calls i).holds = some pane ∨
    (∀ ⦃key : String⦄ ⦃r : AllocationRecord⦄, w.records[key]? = some r → r.paneId ≠ pane) ∧
      (∀ c ∈ w.closed, c.why.isUnrecorded = true → c.pane ≠ pane) ∧ ∀ j, (w.calls j).holds ≠ some pane
  past : ∀ key, call.looksPast = some key → w.released[key]? = none
  types : ∀ key, call.types = some key → key ∉ w.typed.map Typed.key ∧ ∀ j, (w.calls j).types ≠ some key

theorem ClosedHolds.later {c : Closed} (h : ClosedHolds w c) (hl : Later w w')
    (hrecords : c.why.isUnrecorded = true → ∀ ⦃key : String⦄ ⦃r : AllocationRecord⦄, w'.records[key]? = some r →
      w.records[key]? = some r ∨ r.paneId ≠ c.pane) : ClosedHolds w' c := by
  unfold ClosedHolds at h ⊢
  split
  · next hwhy =>
    rw [hwhy] at h
    refine ⟨hl.created _ h.1, fun key r hr => ?_⟩
    exact (hrecords (by rw [hwhy]; rfl) hr).elim (h.2 key r) id
  · next hwhy =>
    rw [hwhy] at h
    exact ⟨hl.records h.1, h.2.1, h.2.2.1, fun l hlaunched => hl.launched (h.2.2.2.1 l hlaunched), h.2.2.2.2⟩
  · next hwhy =>
    rw [hwhy] at h
    exact ⟨hl.records h.1, h.2⟩

/-- Only a call moves on. -/
theorem Sound.moves (h : Sound w) (hmay : MayMove w i call) : Sound (w.setCall i call) := by
  have hcalls : ∀ j, (w.setCall i call).calls j = if j = i then call else w.calls j :=
    fun j => Function.update_apply ..
  have hl : Later w (w.setCall i call) := .setCall w i call
  refine { h with
      beyond := ?beyond, calls := ?calls, held := ?held, heldOnce := ?heldOnce, past := ?past, typing := ?typing,
      typingOnce := ?typingOnce }
  case beyond =>
    intro j hj
    rw [hcalls]
    split
    · next heq =>
      rcases hmay.called with hlt | hover
      · exact absurd (heq ▸ hj) (Nat.not_le.mpr hlt)
      · exact hover
    · exact h.beyond j hj
  case calls =>
    intro j
    rw [hcalls]
    split
    · exact hmay.stands.later hl
    · exact (h.calls j).later hl
  case held =>
    intro j pane hj
    rw [hcalls] at hj
    split at hj
    · rcases hmay.holds pane hj with hold | ⟨hrecords, hclosed, -⟩
      · exact h.held hold
      · exact ⟨hrecords, hclosed⟩
    · exact h.held hj
  case heldOnce =>
    intro j k pane hj hk
    rw [hcalls] at hj hk
    -- whoever else holds what the call moves on with is the call itself
    have hother : ∀ k, k ≠ i → call.holds = some pane → (w.calls k).holds = some pane → False := by
      intro k hne hcall hk
      rcases hmay.holds pane hcall with hold | ⟨-, -, hnone⟩
      · exact hne (h.heldOnce hk hold)
      · exact hnone k hk
    split at hj <;> split at hk
    · next hji hki => rw [hji, hki]
    · next hki => exact (hother k hki hj hk).elim
    · next hji _ => exact (hother j hji hk hj).elim
    · exact h.heldOnce hj hk
  case past =>
    intro j key hj
    rw [hcalls] at hj
    split at hj
    · exact hmay.past key hj
    · exact h.past hj
  case typing =>
    intro j key hj
    rw [hcalls] at hj
    split at hj
    · exact (hmay.types key hj).1
    · exact h.typing hj
  case typingOnce =>
    intro j k key hj hk
    rw [hcalls] at hj hk
    split at hj <;> split at hk
    · next hji hki => rw [hji, hki]
    · exact ((hmay.types key hj).2 k hk).elim
    · exact ((hmay.types key hk).2 j hj).elim
    · exact h.typingOnce hj hk

/-- What the invariant is about is as it was, or more. -/
structure Quiet (w w' : World) : Prop where
  later : Later w w'
  records : w'.records = w.records
  recorded : w'.recorded = w.recorded
  released : w'.released = w.released
  markers : w'.markers = w.markers
  calls : w'.calls = w.calls
  count : w.count ≤ w'.count
  typed : w'.typed = w.typed
  closed : w'.closed = w.closed
  created : ∀ pane ∈ w'.created, w'.panes pane ≠ .absent

theorem Sound.quiet (h : Sound w) (hq : Quiet w w') : Sound w' := by
  have hread : ∀ {key : String} {r : AllocationRecord}, w'.records[key]? = some r → w.records[key]? = some r := by
    intro key r hr
    rwa [hq.records] at hr
  constructor
  case keyed => exact fun key r hr => h.keyed (hread hr)
  case recorded =>
    rw [hq.recorded, hq.records]
    exact h.recorded
  case present => exact fun key r hr => hq.later.present _ (h.present (hread hr))
  case created => exact hq.created
  case apart => exact fun key key' r r' hr hr' => h.apart (hread hr) (hread hr')
  case markers =>
    rw [hq.markers, hq.released]
    exact h.markers
  case beyond =>
    rw [hq.calls]
    exact fun j hj => h.beyond j (Nat.le_trans hq.count hj)
  case calls =>
    rw [hq.calls]
    exact fun j => (h.calls j).later hq.later
  case held =>
    rw [hq.calls, hq.records, hq.closed]
    exact h.held
  case heldOnce =>
    rw [hq.calls]
    exact h.heldOnce
  case past =>
    rw [hq.calls, hq.released]
    exact h.past
  case typing =>
    rw [hq.calls, hq.typed]
    exact h.typing
  case typingOnce =>
    rw [hq.calls]
    exact h.typingOnce
  case typedRequested =>
    rw [hq.typed]
    exact fun t ht => hq.later.requested _ (h.typedRequested t ht)
  case typedOnce =>
    rw [hq.typed]
    exact h.typedOnce
  case typedInto =>
    rw [hq.typed, hq.records]
    exact h.typedInto
  case typedBefore =>
    rw [hq.typed]
    exact h.typedBefore
  case retained =>
    rw [hq.closed]
    exact h.retained
  case closed =>
    rw [hq.closed]
    exact fun c hc => (h.closed c hc).later hq.later fun _ key r hr => .inl (hread hr)

/-- A record is installed, for a pane that no other slot of the core has. -/
theorem Sound.record (h : Sound w) (hkey : r.key ∉ w.records) (hpane : w.panes r.paneId ≠ .absent)
    (hfree : r.origin = .allocated → ∀ ⦃key : String⦄ ⦃r' : AllocationRecord⦄, w.records[key]? = some r' → r'.paneId ≠ r.paneId)
    (hheld : ∀ j, (w.calls j).holds ≠ some r.paneId)
    (hclosed : ∀ c ∈ w.closed, c.why.isUnrecorded = true → c.pane ≠ r.paneId) : Sound (w.record r) := by
  have hl : Later w (w.record r) :=
    ⟨fun _ _ => getElem?_insert_of_not_mem hkey, fun _ _ => id, fun _ _ => id, fun _ => id, fun _ => id, fun _ => id,
      fun _ => id, fun _ => id⟩
  have hself : (w.record r).records[r.key]? = some r := getElem?_insert_self
  have hread : ∀ {key : String} {r' : AllocationRecord}, (w.record r).records[key]? = some r' →
      key = r.key ∧ r' = r ∨ w.records[key]? = some r' := getElem?_insert_cases
  refine { h with
      keyed := ?keyed, recorded := ?recorded, present := ?present, apart := ?apart, calls := ?calls,
      held := ?held, typedInto := ?typedInto, closed := ?closed }
  case keyed =>
    intro key r' hr
    rcases hread hr with ⟨rfl, rfl⟩ | hold
    · rfl
    · exact h.keyed hold
  case recorded =>
    intro r' hr
    rcases mem_append.mp hr with hold | hlast
    · exact hl.records (h.recorded r' hold)
    · rw [mem_singleton.mp hlast]
      exact hself
  case present =>
    intro key r' hr
    rcases hread hr with ⟨rfl, rfl⟩ | hold
    · exact hpane
    · exact h.present hold
  case apart =>
    intro key key' r₁ r₂ hr₁ hr₂ ho₁ ho₂ hsame
    rcases hread hr₁ with ⟨rfl, rfl⟩ | hold₁ <;> rcases hread hr₂ with ⟨rfl, rfl⟩ | hold₂
    · rfl
    · exact absurd hsame.symm (hfree ho₁ hold₂)
    · exact absurd hsame (hfree ho₂ hold₁)
    · exact h.apart hold₁ hold₂ ho₁ ho₂ hsame
  case calls => exact fun j => (h.calls j).later hl
  case held =>
    intro j pane hj
    refine ⟨fun key r' hr => ?_, (h.held hj).2⟩
    rcases hread hr with ⟨rfl, rfl⟩ | hold
    · exact fun heq => hheld j (heq ▸ hj)
    · exact (h.held hj).1 hold
  case typedInto =>
    intro t ht
    obtain ⟨r', hr, hrest⟩ := h.typedInto t ht
    exact ⟨r', hl.records hr, hrest⟩
  case closed =>
    refine fun c hc => (h.closed c hc).later hl fun hwhy key r' hr => ?_
    rcases hread hr with ⟨rfl, rfl⟩ | hold
    · exact .inr (hclosed c hc hwhy).symm
    · exact .inl hold

/-- The core closes a pane. -/
theorem Sound.close (h : Sound w) {pane : String} {why : Why} {marker : Option ReleasedMarker}
    (hholds : ClosedHolds w ⟨pane, why, marker⟩) (hmarker : ∀ m, marker = some m → m.outcome ≠ .retained)
    (hheld : why.isUnrecorded = true → ∀ j, (w.calls j).holds ≠ some pane) : Sound (w.close pane why marker) := by
  unfold World.close
  split
  · next hlive =>
    have hpresent : ∀ p, w.panes p ≠ .absent → Function.update w.panes pane .gone p ≠ .absent := by
      intro p hp
      rw [Function.update_apply]
      split
      · exact nofun
      · exact hp
    have hl : Later w { w.setPane pane .gone with closed := w.closed ++ [⟨pane, why, marker⟩] } :=
      ⟨fun _ _ => id, fun _ _ => id, fun _ _ => id, fun _ => id, fun _ => id, hpresent, fun _ => id, fun _ => id⟩
    refine { h with
        present := ?present, created := ?created, calls := ?calls, held := ?held, retained := ?retained,
        closed := ?closed }
    case present => exact fun key r hr => hpresent _ (h.present hr)
    case created => exact fun p hp => hpresent p (h.created p hp)
    case calls => exact fun j => (h.calls j).later hl
    case held =>
      intro j p hj
      refine ⟨(h.held hj).1, fun c hc hwhy => ?_⟩
      rcases mem_append.mp hc with hold | hlast
      · exact (h.held hj).2 c hold hwhy
      · obtain rfl := mem_singleton.mp hlast
        exact fun heq => hheld hwhy j (hj.trans (congrArg some heq.symm))
    case retained =>
      intro c hc
      rcases mem_append.mp hc with hold | hlast
      · exact h.retained c hold
      · rw [mem_singleton.mp hlast]
        exact hmarker
    case closed =>
      intro c hc
      rcases mem_append.mp hc with hold | hlast
      · exact (h.closed c hold).later hl fun _ _ _ hr => .inl hr
      · rw [mem_singleton.mp hlast]
        exact hholds.later hl fun _ _ _ hr => .inl hr
  · exact h

/-- A launch line is typed, the first of its key. -/
theorem Sound.type (h : Sound w) {t : Typed} (hfirst : t.key ∉ w.typed.map Typed.key)
    (hothers : ∀ j, (w.calls j).types ≠ some t.key) (hrequested : t.key ∈ w.launchRequested)
    (hinto : ∃ r : AllocationRecord, w.records[t.key]? = some r ∧ r.origin = .allocated ∧ r.paneId = t.pane)
    (hmarker : t.marker = none) : Sound { w with typed := w.typed ++ [t] } := by
  have hl : Later w { w with typed := w.typed ++ [t] } :=
    ⟨fun _ _ => id, fun _ _ => id, fun _ _ => id, fun _ => id, fun _ => id, fun _ => id, fun _ => id, fun _ => id⟩
  have hall : ∀ {P : Typed → Prop}, (∀ t ∈ w.typed, P t) → P t → ∀ t' ∈ w.typed ++ [t], P t' := by
    intro P hold hnew t' ht
    rcases mem_append.mp ht with hmem | hlast
    · exact hold t' hmem
    · exact mem_singleton.mp hlast ▸ hnew
  refine { h with
      calls := ?calls, typing := ?typing, typedRequested := ?typedRequested, typedOnce := ?typedOnce,
      typedInto := ?typedInto, typedBefore := ?typedBefore, closed := ?closed }
  case calls => exact fun j => (h.calls j).later hl
  case typing =>
    intro j key hj hmem
    rw [map_append, mem_append] at hmem
    rcases hmem with hold | hlast
    · exact h.typing hj hold
    · exact hothers j (hj.trans (congrArg some (mem_singleton.mp hlast)))
  case typedRequested => exact hall h.typedRequested hrequested
  case typedOnce =>
    show ((w.typed ++ [t]).map Typed.key).Nodup
    rw [map_append, nodup_append]
    refine ⟨h.typedOnce, nodup_singleton _, fun key hkey key' hkey' => ?_⟩
    rw [mem_singleton.mp hkey']
    exact fun heq => hfirst (heq ▸ hkey)
  case typedInto => exact hall h.typedInto hinto
  case typedBefore => exact hall h.typedBefore hmarker
  case closed => exact fun c hc => (h.closed c hc).later hl fun _ _ _ hr => .inl hr

theorem Sound.markReleased (h : Sound w) {m : ReleasedMarker} (hothers : ∀ j, (w.calls j).looksPast ≠ some m.key) :
    Sound (w.markReleased m) := by
  unfold World.markReleased
  split
  · exact h
  · next hkey =>
    have hl : Later w { w with released := w.released.insert m.key m, markers := w.markers ++ [m] } :=
      ⟨fun _ _ => id, fun _ _ => id, fun _ _ => getElem?_insert_of_not_mem hkey, fun _ => id, fun _ => id, fun _ => id,
        fun _ => id, fun _ => id⟩
    refine { h with markers := ?markers, calls := ?calls, past := ?past, closed := ?closed }
    case markers =>
      intro m' hm
      rcases mem_append.mp hm with hold | hlast
      · exact hl.released (h.markers m' hold)
      · rw [mem_singleton.mp hlast]
        exact getElem?_insert_self
    case calls => exact fun j => (h.calls j).later hl
    case past =>
      intro j key hj
      show (w.released.insert m.key m)[key]? = none
      rw [Std.ExtTreeMap.getElem?_insert, if_neg, h.past hj]
      intro heq
      exact hothers j (compare_key.mp heq ▸ hj)
    case closed => exact fun c hc => (h.closed c hc).later hl fun _ _ _ hr => .inl hr

end Forgent.Terminal
