import Forgent.Terminal.SlotSteps

/-!
# Terminal slots keep to their records and markers

* `Sound.stepAllocate`, `Sound.stepAttach`, `Sound.stepLaunch`, `Sound.stepRelease`: the steps of the four commands.
* `slots_hold`: every run in which no released marker is installed, and no created pane attached, behind the back of a call
  that goes on.
-/

namespace Forgent.Terminal

open List Option Function

variable {w w' : World} {i : ℕ} {sight : Sight}

namespace Sound

theorem called (h : Sound w) {call : Call} (hcall : w.calls i = call) (hne : call ≠ .over) : i < w.count := by
  by_contra hge
  exact hne (hcall.symm.trans (h.beyond i (Nat.not_lt.mp hge)))

variable {old call : Call} {pane : String} {r : AllocationRecord} {marker : ReleasedMarker}

theorem passes (h : Sound w) (hold : w.calls i = old) (hne : old ≠ .over) (hcall : CallHolds w call)
    (hholds : call.holds = none) (htypes : call.types = none)
    (hpast : ∀ key, call.looksPast = some key → old.looksPast = some key ∨ w.released[key]? = none) :
    Sound (w.setCall i call) := by
  refine h.moves ⟨.inl (h.called hold hne), hcall, fun pane hpane => ?_, fun key hkey => ?_, fun key hkey => ?_⟩
  · rw [hholds] at hpane
    cases hpane
  · rcases hpast key hkey with hbefore | hnone
    · exact h.past (hold ▸ hbefore)
    · exact hnone
  · rw [htypes] at hkey
    cases hkey

theorem ends (h : Sound w) (hcalled : i < w.count ∨ call = .over) (hcall : CallHolds w call)
    (hholds : call.holds = none) (htypes : call.types = none) (hpast : call.looksPast = none) : Sound (w.setCall i call) := by
  refine h.moves ⟨hcalled, hcall, fun pane hpane => ?_, fun key hkey => ?_, fun key hkey => ?_⟩
  · rw [hholds] at hpane
    cases hpane
  · rw [hpast] at hkey
    cases hkey
  · rw [htypes] at hkey
    cases hkey

theorem stops (h : Sound w) : Sound (w.setCall i .over) := h.ends (.inr rfl) trivial rfl rfl rfl

theorem keeps (h : Sound w) (hold : w.calls i = old) (hne : old ≠ .over) (hcall : CallHolds w call)
    (hholds : ∀ pane, call.holds = some pane → old.holds = some pane) (htypes : call.types = none)
    (hpast : call.looksPast = none) : Sound (w.setCall i call) := by
  refine h.moves ⟨.inl (h.called hold hne), hcall, fun pane hpane => ?_, fun key hkey => ?_, fun key hkey => ?_⟩
  · exact .inl (hold ▸ hholds pane hpane)
  · rw [hpast] at hkey
    cases hkey
  · rw [htypes] at hkey
    cases hkey

theorem setCall_self (w : World) (call : Call) : (w.setCall i call).calls i = call := update_self ..

theorem setCall_of_ne (w : World) (call : Call) {j : ℕ} (hj : j ≠ i) : (w.setCall i call).calls j = w.calls j :=
  update_of_ne hj ..

section

variable (h : Sound w)

include h

theorem released_pane (hpane : (w.calls i).holds = some pane)
    (hcall : call.holds = none) (j : ℕ) : ((w.setCall i call).calls j).holds ≠ some pane := by
  by_cases hj : j = i
  · rw [hj, setCall_self, hcall]
    exact nofun
  · rw [setCall_of_ne w call hj]
    exact fun heq => hj (h.heldOnce heq hpane)

/-- A pane is created for a call. -/
theorem create (hold : w.calls i = old) (hne : old ≠ .over)
    (hstands : ∀ v : World, pane ∈ v.created → CallHolds v call) (hholds : call.holds = some pane) (htypes : call.types = none)
    (hpast : call.looksPast = none) (hact : w.create i pane call = some w') : Sound w' := by
  unfold World.create at hact
  split at hact
  · next habsent =>
    have hpresent : ∀ p, w.panes p ≠ .absent → Function.update w.panes pane .live p ≠ .absent := by
      intro p hp
      rw [update_apply]
      split
      · exact nofun
      · exact hp
    have hquiet : Quiet w { w.setPane pane .live with created := w.created ++ [pane] } := by
      refine ⟨⟨fun _ _ => id, fun _ _ => id, fun _ _ => id, fun _ => id, fun _ => mem_append_left _, hpresent,
        fun _ => id, fun _ => id⟩, rfl, rfl, rfl, rfl, rfl, Nat.le_refl _, rfl, rfl, fun p hp => ?_⟩
      rcases mem_append.mp hp with hbefore | hlast
      · exact hpresent p (h.created p hbefore)
      · rw [mem_singleton.mp hlast]
        show Function.update w.panes pane .live pane ≠ .absent
        rw [update_self]
        exact nofun
    -- no record, no closed pane and no call names a pane that was not there
    have hrecords : ∀ ⦃key : String⦄ ⦃r : AllocationRecord⦄, w.records[key]? = some r → r.paneId ≠ pane :=
      fun key r hr heq => h.present hr (heq ▸ habsent)
    have hclosed : ∀ c ∈ w.closed, c.why.isUnrecorded = true → c.pane ≠ pane := by
      intro c hc hwhy heq
      have hholds := h.closed c hc
      unfold ClosedHolds at hholds
      split at hholds
      · exact h.created c.pane hholds.1 (heq ▸ habsent)
      · next hw => rw [hw] at hwhy; cases hwhy
      · next hw => rw [hw] at hwhy; cases hwhy
    have hcalls : ∀ j, (w.calls j).holds ≠ some pane := by
      intro j hj
      refine h.created pane ?_ habsent
      have hholds := h.calls j
      cases hc : w.calls j <;> rw [hc] at hj hholds <;> cases hj <;> exact hholds
    have hmay : MayMove { w.setPane pane .live with created := w.created ++ [pane] } i call := by
      refine ⟨.inl (h.called hold hne), hstands _ (mem_append_right _ (mem_singleton_self pane)), ?_, ?_, ?_⟩
      · intro p hp
        obtain rfl := some.inj (hholds.symm.trans hp)
        exact .inr ⟨hrecords, hclosed, hcalls⟩
      · intro key hkey
        rw [hpast] at hkey
        cases hkey
      · intro key hkey
        rw [htypes] at hkey
        cases hkey
    have hmoved := (h.quiet hquiet).moves hmay
    exact some.inj hact ▸ hmoved
  · cases hact

theorem closeUnrecorded (hold : w.calls i = old)
    (hpane : old.holds = some pane) (hcreated : pane ∈ w.created) (hcall : CallHolds w call) (hholds : call.holds = none)
    (htypes : call.types = none) (hpast : call.looksPast = none) :
    Sound ((w.setCall i call).close pane .unrecorded none) := by
  have hne : old ≠ .over := by
    rintro rfl
    cases hpane
  have hmoved := h.passes hold hne hcall hholds htypes fun key hkey => by rw [hpast] at hkey; cases hkey
  refine hmoved.close ⟨hcreated, fun key r hr => ?_⟩ nofun fun _ j => ?_
  · exact (h.held (hold ▸ hpane)).1 hr
  · exact h.released_pane (hold ▸ hpane) hholds j

theorem stepAllocate (hcall : w.calls i = call) (hact : w.stepAllocate i call sight = some w') : Sound w' := by
  have hholds := h.calls i
  rw [hcall] at hholds
  unfold World.stepAllocate at hact
  split at hact
  case h_1 key groupKey =>
    split at hact
    · exact some.inj hact ▸ h.passes hcall nofun trivial rfl rfl fun _ hkey => by cases hkey
    · exact some.inj hact ▸ h.passes hcall nofun trivial rfl rfl fun _ hkey => by cases hkey
  case h_2 record =>
    cases hact
    split
    · exact h.passes hcall nofun trivial rfl rfl fun _ hkey => by cases hkey
    · exact h.stops
  case h_3 key groupKey tabOnly pane tab => exact h.create hcall nofun (fun _ => id) rfl rfl rfl hact
  case h_4 key groupKey pane tab => exact h.create hcall nofun (fun _ => id) rfl rfl rfl hact
  case h_5 key groupKey pane tab =>
    exact some.inj hact ▸ h.keeps hcall nofun hholds (fun _ => id) rfl rfl
  case h_6 key groupKey pane tab =>
    exact some.inj hact ▸ h.closeUnrecorded hcall rfl hholds trivial rfl rfl rfl
  case h_7 key groupKey pane tab =>
    split at hact
    · exact some.inj hact ▸ h.keeps hcall nofun hholds (fun _ => id) rfl rfl
    · next hkey =>
      cases hact
      have hpane : (w.calls i).holds = some pane := by rw [hcall]; rfl
      have hmoved : Sound (w.setCall i (.allocation ⟨key, groupKey, tab, pane, .allocated⟩)) :=
        h.passes hcall nofun trivial rfl rfl fun _ hkey => by cases hkey
      exact hmoved.record hkey (h.created pane hholds) (fun _ => (h.held hpane).1) (h.released_pane hpane rfl)
        (h.held hpane).2
  case h_8 key groupKey pane =>
    exact some.inj hact ▸ h.closeUnrecorded hcall rfl hholds trivial rfl rfl rfl
  case h_9 key groupKey pane =>
    exact some.inj hact ▸ h.passes hcall nofun trivial rfl rfl fun _ hkey => by cases hkey
  case h_10 => cases hact

theorem all_calls {P : Call → Prop} (hover : P .over) (hall : ∀ j < w.count, P (w.calls j)) (j : ℕ) : P (w.calls j) := by
  by_cases hj : j < w.count
  · exact hall j hj
  · rw [h.beyond j (Nat.not_lt.mp hj)]
    exact hover

theorem stepAttach (hcall : w.calls i = call) (hunseen : unseen w (.step i sight) = true)
    (hact : w.stepAttach i call sight = some w') : Sound w' := by
  have hholds := h.calls i
  rw [hcall] at hholds
  unfold World.stepAttach at hact
  split at hact
  case h_1 key groupKey pane ancestors =>
    cases hact
    split
    · exact h.passes hcall nofun trivial rfl rfl fun _ hkey => by cases hkey
    · exact h.stops
  case h_2 key groupKey pane =>
    split at hact
    · cases hact
      split
      · exact h.passes hcall nofun trivial rfl rfl fun _ hkey => by cases hkey
      · exact h.stops
    · exact some.inj hact ▸ h.passes hcall nofun trivial rfl rfl fun _ hkey => by cases hkey
  case h_3 key groupKey pane tab =>
    cases hact
    split
    · next hlive =>
      refine h.passes hcall nofun ?_ rfl rfl fun _ hkey => by cases hkey
      show w.panes pane ≠ .absent
      rw [hlive]
      exact nofun
    · exact h.stops
  case h_4 key groupKey pane tab =>
    split at hact
    · exact some.inj hact ▸ h.passes hcall nofun trivial rfl rfl fun _ hkey => by cases hkey
    · next hkey =>
      cases hact
      simp only [unseen, hcall, Bool.and_eq_true, List.all_eq_true, mem_range, decide_eq_true_eq, Bool.or_eq_true,
        Bool.not_eq_true'] at hunseen
      have hheld := h.all_calls (P := fun c => c.holds ≠ some pane) nofun hunseen.1
      have hclosed : ∀ c ∈ w.closed, c.why.isUnrecorded = true → c.pane ≠ pane := by
        intro c hc hwhy
        rcases hunseen.2 c hc with hnot | hne
        · rw [hwhy] at hnot
          cases hnot
        · exact hne
      have hmoved : Sound (w.setCall i (.allocation ⟨key, groupKey, tab, pane, .attached⟩)) :=
        h.passes hcall nofun trivial rfl rfl fun _ hkey => by cases hkey
      refine hmoved.record hkey hholds nofun (fun j => ?_) hclosed
      by_cases hj : j = i
      · rw [hj, setCall_self]
        exact nofun
      · rw [setCall_of_ne w _ hj]
        exact hheld j
  case h_5 => cases hact

end

theorem types_eq_some {key : String} (h : call.types = some key) :
    ∃ r spec line, call = .typing r spec line ∧ r.key = key := by
  cases call with
  | typing r spec line => exact ⟨r, spec, line, rfl, some.inj h⟩
  | _ => cases h

theorem types_once (h : Sound w) {spec : LaunchSpec} {line : String}
    (hcall : w.calls i = .typing r spec line) (htypes : call.types = none) (j : ℕ) :
    ((w.setCall i call).calls j).types ≠ some r.key := by
  by_cases hj : j = i
  · rw [hj, setCall_self, htypes]
    exact nofun
  · rw [setCall_of_ne w call hj]
    exact fun heq => hj (h.typingOnce heq (by rw [hcall]; rfl))

theorem stepLaunch (h : Sound w) (hcall : w.calls i = call) (hact : w.stepLaunch i call sight = some w') :
    Sound w' := by
  have hholds := h.calls i
  rw [hcall] at hholds
  unfold World.stepLaunch at hact
  split at hact
  case h_1 key spec =>
    split at hact
    · next r hr =>
      refine some.inj hact ▸ h.passes hcall nofun ?_ rfl rfl fun _ hkey => by cases hkey
      show w.records[r.key]? = some r
      rw [h.keyed hr, hr]
    · exact some.inj hact ▸ h.stops
  case h_2 r spec =>
    cases hact
    split
    · exact h.stops
    · next hnot =>
      refine h.passes hcall nofun hholds rfl rfl fun key hkey => .inr ?_
      cases hkey
      exact none_of_not_mem hnot
  case h_3 r spec =>
    split at hact
    · exact some.inj hact ▸ h.stops
    · next hnot =>
      split at hact
      · rw [not_or] at hnot
        have horigin : r.origin = .allocated := by
          cases ho : r.origin with
          | allocated => rfl
          | attached => exact absurd ho hnot.2
        exact some.inj hact ▸ h.passes hcall nofun ⟨hholds, horigin⟩ rfl rfl fun _ => .inl
      · exact some.inj hact ▸ h.stops
  case h_4 r spec line =>
    cases hact
    split
    · exact h.stops
    · exact h.passes hcall nofun hholds rfl rfl fun _ => .inl
  case h_5 r spec line probes =>
    split at hact
    · exact some.inj hact ▸ h.passes hcall nofun hholds rfl rfl fun _ => .inl
    · cases hact
  case h_6 r spec line probes =>
    split at hact
    · exact some.inj hact ▸ h.passes hcall nofun hholds rfl rfl fun _ => .inl
    · cases hact
  case h_7 => exact some.inj hact ▸ h.stops
  case h_8 r spec line =>
    cases hact
    split
    · exact h.passes hcall nofun hholds rfl rfl fun _ => .inl
    · exact h.stops
  case h_9 r spec line =>
    split at hact
    · exact some.inj hact ▸ h.stops
    · next hnot =>
      cases hact
      have hquiet : Quiet w { w with launchRequested := w.launchRequested ++ [r.key] } :=
        ⟨⟨fun _ _ => id, fun _ _ => id, fun _ _ => id, fun _ => mem_append_left _, fun _ => id, fun _ => id,
          fun _ => id, fun _ => id⟩, rfl, rfl, rfl, rfl, rfl, Nat.le_refl _, rfl, rfl, h.created⟩
      refine (h.quiet hquiet).moves ⟨.inl (h.called hcall fun heq => by cases heq),
        ⟨hholds, mem_append_right _ (mem_singleton_self _)⟩, fun pane hpane => ?_, fun key hkey => ?_,
        fun key hkey => ?_⟩
      · cases hpane
      · exact h.past (j := i) (hcall ▸ hkey)
      · cases hkey
        refine ⟨fun hmem => ?_, fun j hj => ?_⟩
        · obtain ⟨t, ht, hkey⟩ := List.mem_map.mp hmem
          exact hnot (hkey ▸ h.typedRequested t ht)
        · -- a call that is about to type has had its request installed
          have hj : (w.calls j).types = some r.key := hj
          obtain ⟨r', spec', line', htyping, hsame⟩ := types_eq_some hj
          have hstands := h.calls j
          rw [htyping] at hstands
          exact hnot (hsame ▸ hstands.2)
  case h_10 sight r spec line =>
    cases hact
    have hself : (w.calls i).types = some r.key := by rw [hcall]; rfl
    have hmarker : w.released[r.key]? = none := h.past (j := i) (by rw [hcall]; rfl)
    have hinto : ∃ r' : AllocationRecord, w.records[r.key]? = some r' ∧ r'.origin = .allocated ∧ r'.paneId = r.paneId :=
      ⟨r, hholds.1.1, hholds.1.2, rfl⟩
    have htyped : ∀ call : Call, Sound (w.setCall i call) → call.types = none →
        Sound { w.setCall i call with typed := w.typed ++ [⟨r.key, r.paneId, line, w.released[r.key]?⟩] } :=
      fun call hmoved htypes => hmoved.type (h.typing hself) (h.types_once hcall htypes) hholds.2 hinto hmarker
    split
    · exact htyped _ h.stops rfl
    · exact htyped _ (h.passes hcall nofun hholds.1 rfl rfl fun _ hkey => by cases hkey) rfl
  case h_11 r spec identity =>
    split at hact
    · split at hact
      · exact some.inj hact ▸ h.passes hcall nofun trivial rfl rfl fun _ hkey => by cases hkey
      · cases hact
    · cases hact
  case h_12 => exact some.inj hact ▸ h.stops
  case h_13 key identity =>
    cases hact
    have hmoved : Sound (w.setCall i (.launched identity)) :=
      h.passes hcall nofun trivial rfl rfl fun _ hkey => by cases hkey
    refine hmoved.quiet ⟨⟨fun _ _ => id, fun name l hl => ?_, fun _ _ => id, fun _ => id, fun _ => id, fun _ => id,
      fun _ => id, fun _ => id⟩, rfl, rfl, rfl, rfl, rfl, Nat.le_refl _, rfl, rfl, h.created⟩
    show (if key ∈ w.launched then w.launched else w.launched.insert key identity)[name]? = some l
    split
    · exact hl
    · next hkey => exact getElem?_insert_of_not_mem hkey hl
  case h_14 => cases hact

theorem closeRecorded (h : Sound w) {why : Why} (marker : ReleasedMarker)
    (hold : w.calls i = old) (hne : old ≠ .over) (hpast : old.looksPast = some marker.key)
    (hholds : ClosedHolds w ⟨pane, why, w.released[marker.key]?⟩) (hwhy : why.isUnrecorded = false) :
    Sound ((w.setCall i (.publishing marker)).close pane why w.released[marker.key]?) := by
  have hmoved : Sound (w.setCall i (.publishing marker)) :=
    h.passes hold hne trivial rfl rfl fun key hkey => .inl (hpast.trans hkey)
  refine hmoved.close (hholds.later (.setCall ..) fun _ _ _ hr => .inl hr) (fun m hm => ?_) fun hun => ?_
  · rw [h.past (hold ▸ hpast)] at hm
    cases hm
  · rw [hwhy] at hun
    cases hun

theorem afterMarker_holds (h : Sound w) {disposition : Disposition} {«until» : Option ℕ}
    {callerPane : Option String} (hr : w.records[r.key]? = some r) :
    Sound (w.setCall i (w.afterMarker r disposition «until» callerPane)) ∨ w.calls i = .over := by
  by_cases hover : w.calls i = .over
  · exact .inr hover
  · refine .inl ?_
    unfold World.afterMarker
    split
    · next done hdone =>
      split
      · exact h.stops
      · exact h.passes rfl hover ⟨done, hdone, rfl⟩ rfl rfl nofun
    · next hnone =>
      split
      · next horigin =>
        split
        · next hcaller =>
          refine h.passes rfl hover ⟨hr, horigin, ?_⟩ rfl rfl fun key hkey => .inr (some.inj hkey ▸ hnone)
          rw [hcaller, getD_some]
        · exact h.passes rfl hover trivial rfl rfl fun key hkey => .inr (some.inj hkey ▸ hnone)
      · exact h.passes rfl hover trivial rfl rfl fun key hkey => .inr (some.inj hkey ▸ hnone)
      · exact h.passes rfl hover trivial rfl rfl fun key hkey => .inr (some.inj hkey ▸ hnone)
      · next horigin =>
        exact h.passes rfl hover ⟨hr, horigin⟩ rfl rfl fun key hkey => .inr (some.inj hkey ▸ hnone)

theorem owned_of_foregroundIsOwned {launched : Option ProcessIdentity} {before running : Bool} {info : ProcessInfo}
    (hinfo : info.foreground ≠ [])
    (hover : before = true → running = false → ∀ l, launched = some l → w.life l.tuple = .over)
    (howned : w.foregroundIsOwned launched before info = true) : Owned launched info running := by
  refine ⟨hinfo, fun p hp => ?_⟩
  have hcheck := List.all_eq_true.mp howned p hp
  rw [Bool.or_eq_true, decide_eq_true_eq] at hcheck
  refine hcheck.imp id fun hlaunched => ?_
  obtain ⟨l, hl, hsame⟩ := (Option.any_eq_true _ _).mp hlaunched
  rw [Bool.and_eq_true, Bool.and_eq_true, decide_eq_true_eq, decide_eq_true_eq] at hsame
  refine ⟨l, hl, hsame.1.1, ?_⟩
  cases running with
  | true => rfl
  | false =>
    rw [hover hsame.1.2 rfl l hl] at hsame
    cases hsame.2

theorem markReleased_count (w : World) (marker : ReleasedMarker) : (w.markReleased marker).count = w.count := by
  unfold World.markReleased
  split <;> rfl

theorem markReleased_of_mem (h : marker.key ∈ w.released) : w.markReleased marker = w := if_pos h

theorem markReleased_of_not_mem (h : marker.key ∉ w.released) : w.markReleased marker =
    { w with released := w.released.insert marker.key marker, markers := w.markers ++ [marker] } :=
  if_neg h

theorem setCall_markReleased (w : World) (marker : ReleasedMarker) (call call' : Call) :
    ((w.setCall i call).markReleased marker).setCall i call' = (w.setCall i call').markReleased marker := by
  by_cases hkey : marker.key ∈ w.released
  · rw [markReleased_of_mem (w := w.setCall i call) hkey, markReleased_of_mem (w := w.setCall i call') hkey]
    show { w with calls := Function.update (Function.update w.calls i call) i call' } = w.setCall i call'
    rw [update_idem]
    rfl
  · rw [markReleased_of_not_mem (w := w.setCall i call) hkey, markReleased_of_not_mem (w := w.setCall i call') hkey]
    show { w with
      released := w.released.insert marker.key marker
      markers := w.markers ++ [marker]
      calls := Function.update (Function.update w.calls i call) i call' } = _
    rw [update_idem]
    rfl

theorem stepRelease (h : Sound w) (hcall : w.calls i = call) (hunseen : unseen w (.step i sight) = true)
    (hact : w.stepRelease i call sight = some w') : Sound w' := by
  have hholds := h.calls i
  rw [hcall] at hholds
  unfold World.stepRelease at hact
  split at hact
  case h_1 key disposition «until» callerPane =>
    split at hact
    · next r hr =>
      refine some.inj hact ▸ h.passes hcall nofun ?_ rfl rfl fun _ hkey => by cases hkey
      show w.records[r.key]? = some r
      rw [h.keyed hr, hr]
    · exact some.inj hact ▸ h.stops
  case h_2 r disposition «until» callerPane =>
    rcases h.afterMarker_holds hholds with hmoved | hover
    · exact some.inj hact ▸ hmoved
    · rw [hcall] at hover
      cases hover
  case h_3 r callerPane =>
    exact some.inj hact ▸ h.closeRecorded ⟨r.key, .close, none, .closed⟩ hcall nofun rfl
      ⟨hholds.1, hholds.2.1, rfl, hholds.2.2⟩ rfl
  case h_4 r =>
    exact some.inj hact ▸ h.passes hcall nofun ⟨hholds, fun _ => id⟩ rfl rfl fun _ => .inl
  case h_5 r launched =>
    refine some.inj hact ▸ h.passes hcall nofun ⟨hholds.1, hholds.2, fun hbefore l hl => ?_⟩ rfl rfl
      fun _ => .inl
    rw [World.isRunning, hl, any_some, decide_eq_true_eq] at hbefore
    rw [hbefore]
    exact nofun
  case h_6 r launched before =>
    cases hact
    split
    · exact h.stops
    · next hinfo =>
      refine h.passes hcall nofun ⟨hholds.1, hholds.2.1, hinfo, fun hbefore hrunning l hl => ?_⟩ rfl rfl
        fun _ => .inl
      have hborn := hholds.2.2 hbefore l hl
      rw [World.isRunning, hl, any_some, decide_eq_false_iff_not] at hrunning
      cases hlife : w.life l.tuple with
      | unborn => exact absurd hlife hborn
      | running => exact absurd hlife hrunning
      | «over» => rfl
  case h_7 r launched before info running =>
    cases hact
    split
    · next howned =>
      exact h.passes hcall nofun
        ⟨hholds.1, hholds.2.1, owned_of_foregroundIsOwned hholds.2.2.1 hholds.2.2.2 howned⟩ rfl rfl fun _ => .inl
    · exact h.stops
  case h_8 r launched info running =>
    exact some.inj hact ▸ h.closeRecorded ⟨r.key, .close, none, .closed⟩ hcall nofun rfl
      ⟨hholds.1.1, hholds.1.2, rfl, hholds.2.1, hholds.2.2⟩ rfl
  case h_9 marker =>
    cases hact
    simp only [unseen, hcall, List.all_eq_true, mem_range, decide_eq_true_eq, Bool.or_eq_true] at hunseen
    have hover : Sound (w.setCall i .over) := h.stops
    have hmarked : Sound ((w.setCall i .over).markReleased marker) := by
      refine hover.markReleased fun j => ?_
      by_cases hj : j = i
      · rw [hj, setCall_self]
        exact nofun
      · rw [setCall_of_ne w _ hj]
        by_cases hlt : j < w.count
        · exact (hunseen j hlt).resolve_left hj
        · rw [h.beyond j (Nat.not_lt.mp hlt)]
          exact nofun
    -- the marker that is there is this one
    have hfound : ((w.setCall i .over).markReleased marker).released[marker.key]? = some marker := by
      have hnone : marker.key ∉ w.released := not_mem_of_none (h.past (j := i) (by rw [hcall]; rfl))
      rw [markReleased_of_not_mem (w := w.setCall i .over) hnone]
      exact Std.ExtTreeMap.getElem?_insert_self
    have hcalled : i < ((w.setCall i .over).markReleased marker).count := by
      rw [markReleased_count]
      exact h.called hcall nofun
    have hmoved : Sound (((w.setCall i .over).markReleased marker).setCall i (.released marker.key marker.disposition)) :=
      hmarked.ends (.inl hcalled) ⟨marker, hfound, rfl⟩ rfl rfl rfl
    rwa [setCall_markReleased] at hmoved
  case h_10 => cases hact

theorem step (h : Sound w) (hunseen : unseen w (.step i sight) = true) (hact : w.step i sight = some w') : Sound w' := by
  unfold World.step at hact
  split at hact
  · next hallocate => exact h.stepAllocate rfl (hallocate.trans hact)
  · split at hact
    · next hattach => exact h.stepAttach rfl hunseen (hattach.trans hact)
    · split at hact
      · next hlaunch => exact h.stepLaunch rfl (hlaunch.trans hact)
      · split at hact
        · next hrelease => exact h.stepRelease rfl hunseen (hrelease.trans hact)
        · split at hact
          · exact some.inj hact ▸ h.stops
          · cases hact

theorem start (h : Sound w) {call : Call} (hcall : ∀ v, CallHolds v call) (hholds : call.holds = none)
    (htypes : call.types = none) (hpast : call.looksPast = none) : Sound (w.start call) := by
  have hquiet : Quiet w { w with count := w.count + 1 } :=
    ⟨⟨fun _ _ => id, fun _ _ => id, fun _ _ => id, fun _ => id, fun _ => id, fun _ => id, fun _ => id, fun _ => id⟩,
      rfl, rfl, rfl, rfl, rfl, Nat.le_succ _, rfl, rfl, h.created⟩
  exact (h.quiet hquiet).ends (.inl (Nat.lt_succ_self _)) (hcall _) hholds htypes hpast

theorem setPane (h : Sound w) {state : Pane} (hstate : state ≠ .absent) : Sound (w.setPane pane state) := by
  have hpresent : ∀ p, w.panes p ≠ .absent → Function.update w.panes pane state p ≠ .absent := by
    intro p hp
    rw [update_apply]
    split
    · exact hstate
    · exact hp
  exact h.quiet ⟨⟨fun _ _ => id, fun _ _ => id, fun _ _ => id, fun _ => id, fun _ => id, hpresent, fun _ => id, fun _ => id⟩,
    rfl, rfl, rfl, rfl, rfl, Nat.le_refl _, rfl, rfl, fun p hp => hpresent p (h.created p hp)⟩

theorem setLife (h : Sound w) {tuple : ProcTuple} {state : Life} (hborn : state ≠ .unborn)
    (hover : w.life tuple = .over → state = .over) : Sound { w with life := Function.update w.life tuple state } := by
  have hstays : ∀ t, w.life t ≠ .unborn → Function.update w.life tuple state t ≠ .unborn := by
    intro t ht
    rw [update_apply]
    split
    · exact hborn
    · exact ht
  have hends : ∀ t, w.life t = .over → Function.update w.life tuple state t = .over := by
    intro t ht
    rw [update_apply]
    split
    · next heq => exact hover (heq ▸ ht)
    · exact ht
  exact h.quiet ⟨⟨fun _ _ => id, fun _ _ => id, fun _ _ => id, fun _ => id, fun _ => id, fun _ => id, hstays, hends⟩,
    rfl, rfl, rfl, rfl, rfl, Nat.le_refl _, rfl, rfl, h.created⟩

theorem act {a : Act} (h : Sound w) (hunseen : unseen w a = true) (hact : w.act a = some w') : Sound w' := by
  cases a with
  | allocate key groupKey | attach key groupKey pane ancestors | launch key spec
  | releaseAs key disposition «until» callerPane =>
    cases hact
    split
    · exact h.start (fun _ => trivial) rfl rfl rfl
    · exact h.start (fun _ => trivial) rfl rfl rfl
  | step i sight => exact h.step hunseen hact
  | crash i => exact some.inj hact ▸ h.stops
  | opens pane | closes pane =>
    simp only [World.act] at hact
    split at hact
    · exact some.inj hact ▸ h.setPane nofun
    · cases hact
  | shows pane info =>
    cases hact
    exact h.quiet ⟨⟨fun _ _ => id, fun _ _ => id, fun _ _ => id, fun _ => id, fun _ => id, fun _ => id, fun _ => id,
      fun _ => id⟩, rfl, rfl, rfl, rfl, rfl, Nat.le_refl _, rfl, rfl, h.created⟩
  | starts tuple =>
    simp only [World.act] at hact
    split at hact
    · next hunborn =>
      refine some.inj hact ▸ h.setLife nofun fun hover => ?_
      rw [hunborn] at hover
      cases hover
    · cases hact
  | exits tuple =>
    simp only [World.act] at hact
    split at hact
    · exact some.inj hact ▸ h.setLife nofun fun _ => rfl
    · cases hact

theorem slotsHold (h : Sound w) : SlotsHold w where
  record := h.recorded
  apart := h.apart
  typedOnce := h.typedOnce
  typedInto := h.typedInto
  typedBefore := h.typedBefore
  marker := h.markers
  answers := by
    intro i key disposition hcall
    have hholds := h.calls i
    rw [hcall] at hholds
    exact hholds
  retained := h.retained
  closed := h.closed

end Sound

/-- **Slots keep to their records and markers.**  In every run in which a released marker is installed only while no other
call of the key goes on without having seen it, and no pane is attached that an allocate has created and not recorded: a
record never changes and no two allocated ones share a pane; the line of a key is typed once at most, into its own pane and
never after its release; every release answers with the marker there is, and no retained slot is closed; and every pane the
core closes is one it may close. -/
theorem slots_hold (h : ActRun World.act (fun w => w = World.initial) (fun w a => unseen w a = true) w) : SlotsHold w := by
  have hsound : Sound w := by
    refine ActRun.invariant ?_ ?_ h
    · rintro w rfl
      exact sound_initial
    · exact fun hsound hunseen hact => hsound.act hunseen hact
  exact hsound.slotsHold

/-! ### Runs -/

namespace Sample

def steps (i n : ℕ) : List Act := List.replicate n (.step i .plain)

def allocated : List Act :=
  [.allocate "slot" "group", .step 0 .plain, .step 0 (.tab "w1:p1" "w1:t1"), .step 0 .plain,
    .shows "w1:p1" ⟨10, 10, [⟨10, ["zsh"]⟩]⟩]

def spec : LaunchSpec where
  cwd := "/repo"
  env := [("FGOS_ROLE", "worker")]
  command := "/usr/bin/claude"
  args := ["--model", "x"]
  expect := none

def launchedAndClosed : List Act :=
  allocated ++ [.launch "slot" spec] ++ steps 1 4 ++ [.step 1 .probe] ++ steps 1 4 ++
    [.shows "w1:p1" ⟨10, 11, [⟨11, ["claude", "--model", "x"]⟩]⟩, .starts ⟨11, "500", "boot"⟩,
      .step 1 (.identified ⟨⟨11, "500", "boot"⟩, 11⟩), .step 1 .plain, .releaseAs "slot" .close none none] ++ steps 2 8

/-- A release that closes has looked for the marker when another one retains the slot. -/
def releasedTwice : List Act :=
  allocated ++ [.releaseAs "slot" .close none none] ++ steps 1 6 ++ [.releaseAs "slot" .retain none none] ++ steps 2 3 ++
    steps 1 2

def launchedLate : List Act :=
  allocated ++ [.launch "slot" spec] ++ steps 1 4 ++ [.step 1 .probe, .releaseAs "slot" .retain none none] ++ steps 2 3 ++
    steps 1 4

def answer (w : World) (i : ℕ) : Option (String × Disposition) :=
  match w.calls i with
  | .released key disposition => some (key, disposition)
  | _ => none

theorem calls_of_answer {i : ℕ} {key : String} {disposition : Disposition} (h : answer w i = some (key, disposition)) :
    w.calls i = .released key disposition := by
  unfold answer at h
  split at h
  · next heq =>
    cases h
    exact heq
  · cases h

end Sample

open Sample in
theorem launched_and_closed : ∃ w, launchedAndClosed.foldlM (ActRun.actIf World.act unseen) World.initial = some w ∧
    w.typed.map Typed.line = ["cd '/repo' && env FGOS_ROLE='worker' '/usr/bin/claude' '--model' 'x'"] ∧
    answer w 2 = some ("slot", .close) ∧ SlotsHold w := by
  have hrun : (launchedAndClosed.foldlM (ActRun.actIf World.act unseen) World.initial).map
      (fun w => (w.typed.map Typed.line, answer w 2)) =
      some (["cd '/repo' && env FGOS_ROLE='worker' '/usr/bin/claude' '--model' 'x'"], some ("slot", .close)) := by
    decide
  obtain ⟨w, hw, heq⟩ := map_eq_some_iff.mp hrun
  obtain ⟨hline, hanswer⟩ := Prod.mk.inj heq
  exact ⟨w, hw, hline, hanswer, slots_hold (ActRun.of_foldlM _ (.start rfl) hw)⟩

open Sample in
/-- Two releases of a slot: it is closed while its marker says retained, and one of them answers what the marker does not
say.  And a launch that waits: its line is typed into a slot that was released. -/
theorem looked_too_early : (∃ w, ActRun World.act (fun w => w = World.initial) (fun _ _ => True) w ∧
      w.calls 1 = .released "slot" .close ∧ w.released["slot"]? = some ⟨"slot", .retain, none, .retained⟩ ∧
      w.closed.map Closed.marker = [some ⟨"slot", .retain, none, .retained⟩]) ∧
    ∃ w, ActRun World.act (fun w => w = World.initial) (fun _ _ => True) w ∧
      w.typed.map Typed.marker = [some ⟨"slot", .retain, none, .retained⟩] := by
  refine ⟨?_, ?_⟩
  · have hrun : (releasedTwice.foldlM World.act World.initial).map
        (fun w => (answer w 1, w.released["slot"]?, w.closed.map Closed.marker)) =
        some (some ("slot", .close), some ⟨"slot", .retain, none, .retained⟩,
          [some ⟨"slot", .retain, none, .retained⟩]) := by decide
    obtain ⟨w, hw, heq⟩ := map_eq_some_iff.mp hrun
    simp only [Prod.mk.injEq] at heq
    exact ⟨w, ActRun.of_acts _ (fun _ _ _ => trivial) (.start rfl) hw, calls_of_answer heq.1, heq.2.1, heq.2.2⟩
  · have hrun : (launchedLate.foldlM World.act World.initial).map (fun w => w.typed.map Typed.marker) =
        some [some ⟨"slot", .retain, none, .retained⟩] := by decide
    obtain ⟨w, hw, heq⟩ := map_eq_some_iff.mp hrun
    exact ⟨w, ActRun.of_acts _ (fun _ _ _ => trivial) (.start rfl) hw, heq⟩

end Forgent.Terminal
