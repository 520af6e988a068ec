import Forgent.Identity.Directory

/-!
# The directory keeps its sessions

In every run whose removals and replacements find the file as their call read it, the entries of live sessions stay, and
their roles move only where a call asks for it.

* `CallHolds`, `Sound`: what a call in flight and the directory keep to.
* `Changes`: a step writes one file.
* `directory_holds`: every run.
-/

namespace Forgent.Identity.Directory

open List Option Std.ExtTreeMap Function

variable {naming : Naming} {w w' : World} {i : ℕ} {files : Files} {file role : String} {e held : Entry}
  {roles : List String} {dead : String → Bool} {call : Call}

/-! ### Reads and writes -/

theorem readEntry_eq_some (h : readEntry naming files file = some e) :
    e.v = formatVersion ∧ naming.fileName e.handle = file := by
  unfold readEntry at h
  split at h
  · split at h
    · next hread => exact some.inj h ▸ hread
    · cases h
  · cases h

theorem readEntry_of_not_mem (h : file ∉ files) : readEntry naming files file = none := by
  unfold readEntry
  rw [Std.ExtTreeMap.getElem?_eq_none h]

theorem readEntry_insert (hv : e.v = formatVersion) (file : String) :
    readEntry naming (files.insert (naming.fileName e.handle) (.entry e)) file =
      if file = naming.fileName e.handle then some e else readEntry naming files file := by
  unfold readEntry
  rw [Std.ExtTreeMap.getElem?_insert]
  by_cases hfile : file = naming.fileName e.handle
  · rw [if_pos (compare_key.mpr hfile.symm), if_pos hfile]
    simp only [hv, hfile, and_self, if_true]
  · rw [if_neg (fun h => hfile (compare_key.mp h).symm), if_neg hfile]

theorem readEntry_erase (name file : String) :
    readEntry naming (files.erase name) file = if file = name then none else readEntry naming files file := by
  unfold readEntry
  rw [getElem?_erase]
  by_cases hfile : file = name
  · rw [if_pos (compare_key.mpr hfile.symm), if_pos hfile]
  · rw [if_neg (fun h => hfile (compare_key.mp h).symm), if_neg hfile]

theorem mem_destutter_ne : ∀ {roles : List String}, role ∈ roles.destutter (· ≠ ·) ↔ role ∈ roles
  | [] => Iff.rfl
  | first :: roles => by
    rw [destutter_cons']
    induction roles generalizing first with
    | nil => rfl
    | cons next roles ih =>
      rw [destutter'_cons]
      split
      · rw [mem_cons, mem_cons, ih next]
      · next heq =>
        rw [ih first, not_not.mp heq, mem_cons, mem_cons, mem_cons, or_self_left]

theorem refreshFrom_roles {merged : Entry} :
    role ∈ (refreshFrom merged held).roles ↔ role ∈ merged.roles ∨ role ∈ held.roles := by
  show role ∈ ((merged.roles ++ held.roles).insertionSort (· ≤ ·)).destutter (· ≠ ·) ↔ _
  rw [mem_destutter_ne, mem_insertionSort, mem_append]

theorem mem_without :
    role ∈ (e.without roles).roles ↔ role ∈ e.roles ∧ role ∉ roles := by
  show role ∈ e.roles.filter (· ∉ roles) ↔ _
  rw [mem_filter, decide_eq_true_eq]

/-! ### The calls in flight -/

/-- An entry as a registration stores it. -/
structure Named (naming : Naming) (e : Entry) : Prop where
  v : e.v = formatVersion
  handle : e.handle = naming.handle e.id

structure RowHolds (naming : Naming) (row : Row) : Prop where
  file : row.file = naming.fileName row.entry.handle
  named : Named naming row.entry

/-- What a registration is about to store, by what it read under its handle. -/
structure Merged (naming : Naming) (asked : List String) (merged : Entry) (read : Option Entry) : Prop where
  named : Named naming merged
  same : ∀ held, read = some held → held.id = merged.id
  roles : ∀ role, role ∈ merged.roles ↔ role ∈ asked ∨ ∃ held, read = some held ∧ role ∈ held.roles

/-- A registration that stores what it was asked for, whatever is there. -/
structure Fresh (naming : Naming) (asked : List String) (merged : Entry) : Prop where
  named : Named naming merged
  roles : merged.roles = asked

def PurposeHolds (naming : Naming) : Purpose → Prop
  | .register entry _ => Named naming entry
  | .again asked merged rows => Fresh naming asked merged ∧ ∀ row ∈ rows, RowHolds naming row
  | .dropRole _ _ => True

def CallHolds (naming : Naming) (dead : String → Bool) : Call → Prop
  | .counting entry _ | .creating entry | .readingHolder entry | .creatingAgain entry | .readingAgain entry =>
    Fresh naming [] entry
  | .removingHolder entry holder => Fresh naming [] entry ∧ dead holder.entry.id = true
  | .refreshing merged read => Merged naming [] merged read
  | .listing purpose => PurposeHolds naming purpose
  | .scanning purpose _ scan =>
    PurposeHolds naming purpose ∧
      ∀ row ∈ scan.rows, RowHolds naming row ∧ (row.verdict = .dead → dead row.entry.id = true)
  | .sweeping entry _ gone kept _ =>
    Named naming entry ∧ (∀ row ∈ gone, dead row.entry.id = true) ∧ ∀ row ∈ kept, RowHolds naming row
  | .storing asked merged own rows =>
    Merged naming asked merged own ∧ (own = none → merged.roles = asked) ∧ ∀ row ∈ rows, RowHolds naming row
  | .replacing asked merged current rows =>
    Fresh naming asked merged ∧ (∀ held, current = some held → held.id = merged.id) ∧ ∀ row ∈ rows, RowHolds naming row
  | .rewriting asked merged holders => (∀ role ∈ asked, role ∈ merged.roles) ∧ ∀ row ∈ holders, RowHolds naming row
  | .dropping row _ => RowHolds naming row
  | .idle | .registered _ | .dropped _ | .refused _ => True

def Call.stored : Call → Option Entry
  | .rewriting _ merged _ | .registered merged => some merged
  | _ => none

def Call.takes (file role : String) : Call → Prop
  | .rewriting _ merged holders => role ∈ merged.roles ∧ ∃ row ∈ holders, row.file = file
  | _ => False

structure Sound (naming : Naming) (w : World) : Prop where
  entries : ∀ ⦃file e⦄, readEntry naming w.files file = some e → Named naming e
  calls : ∀ i, CallHolds naming w.dead (w.calls i)
  stored : ∀ ⦃i e⦄, (w.calls i).stored = some e → w.dead e.id = false →
    ∃ e', readEntry naming w.files (naming.fileName e.handle) = some e' ∧ e'.id = e.id
  /-- A role that two files hold is being taken from one of them. -/
  roles : ∀ ⦃file file' e e' role⦄, file ≠ file' → readEntry naming w.files file = some e →
    readEntry naming w.files file' = some e' → w.dead e.id = false → w.dead e'.id = false → role ∈ e.roles →
    role ∈ e'.roles → ∃ i, (w.calls i).takes file role ∨ (w.calls i).takes file' role
  left : ∀ ⦃session role held⦄, w.left (session, role) = some held → w.dead session = false →
    (Has (readEntry naming w.files (naming.fileName (naming.handle session))) session role ↔ held = true)

theorem CallHolds.mono {dead' : String → Bool} (hdead : ∀ s, dead s = true → dead' s = true)
    (h : CallHolds naming dead call) : CallHolds naming dead' call := by
  cases call with
  | removingHolder entry holder => exact ⟨h.1, hdead _ h.2⟩
  | scanning purpose names scan => exact ⟨h.1, fun row hrow => ⟨(h.2 row hrow).1, fun hv => hdead _ ((h.2 row hrow).2 hv)⟩⟩
  | sweeping entry take gone kept foreign => exact ⟨h.1, fun row hrow => hdead _ (h.2.1 row hrow), h.2.2⟩
  | _ => exact h

/-! ### One file is written -/

/-- Call `i` moves on to `call`, and leaves `new` to be read in the file and every other file as it is. -/
structure Changes (naming : Naming) (w w' : World) (i : ℕ) (call : Call) (file : String) (new : Option Entry) : Prop where
  dead : w'.dead = w.dead
  calls : w'.calls = Function.update w.calls i call
  reads : ∀ name, readEntry naming w'.files name = if name = file then new else readEntry naming w.files name

namespace Changes

variable {call : Call} {file : String} {new : Option Entry}

variable (h : Changes naming w w' i call file new)

include h

theorem call_self : w'.calls i = call := by
  rw [h.calls, update_self]

theorem call_of_ne {j : ℕ} (hj : j ≠ i) : w'.calls j = w.calls j := by
  rw [h.calls, update_of_ne hj]

theorem read_self : readEntry naming w'.files file = new := by
  rw [h.reads, if_pos rfl]

theorem read_of_ne {name : String} (hne : name ≠ file) :
    readEntry naming w'.files name = readEntry naming w.files name := by
  rw [h.reads, if_neg hne]

end Changes

/-- What the step must keep to, so that the directory stays sound. -/
structure Allowed (naming : Naming) (w w' : World) (i : ℕ) (call : Call) (file : String) (new : Option Entry) : Prop where
  holds : CallHolds naming w.dead call
  named : ∀ e, new = some e → Named naming e
  /-- A live session's entry is replaced by one of the same session. -/
  lives : ∀ e, readEntry naming w.files file = some e → w.dead e.id = false → ∃ e', new = some e' ∧ e'.id = e.id
  stored : ∀ e, call.stored = some e → (w.calls i).stored = some e ∨ naming.fileName e.handle = file ∧ new = some e
  /-- A role the entry gains is being taken from whoever else has it. -/
  gains : ∀ e, new = some e → ∀ role ∈ e.roles, Has (readEntry naming w.files file) e.id role ∨
    ∀ name e', name ≠ file → readEntry naming w.files name = some e' → w.dead e'.id = false → role ∈ e'.roles →
      call.takes name role
  /-- What was to be taken still is, or is gone. -/
  takes : ∀ name role, (w.calls i).takes name role →
    call.takes name role ∨ name = file ∧ ∀ e, new = some e → role ∉ e.roles
  left : ∀ session role, w.dead session = false →
    (w'.left (session, role) = w.left (session, role) ∧
      (Has new session role ↔ Has (readEntry naming w.files file) session role)) ∨
    ∃ held, w'.left (session, role) = some held ∧ file = naming.fileName (naming.handle session) ∧
      (Has new session role ↔ held = true)

theorem Sound.changes (h : Sound naming w) {new : Option Entry}
    (hch : Changes naming w w' i call file new) (hal : Allowed naming w w' i call file new) : Sound naming w' where
  entries := by
    intro name e hread
    rw [hch.reads] at hread
    split at hread
    · exact hal.named e hread
    · exact h.entries hread
  calls := by
    intro j
    rw [hch.dead]
    by_cases hj : j = i
    · rw [hj, hch.call_self]
      exact hal.holds
    · exact hch.call_of_ne hj ▸ h.calls j
  stored := by
    intro j e hstored hdead
    rw [hch.dead] at hdead
    -- an entry that was stored before is there before the step, and its session is kept by it
    have hbefore : ∀ j, (w.calls j).stored = some e →
        ∃ e', readEntry naming w'.files (naming.fileName e.handle) = some e' ∧ e'.id = e.id := by
      intro j hj
      obtain ⟨e', hread, hid⟩ := h.stored hj hdead
      by_cases hfile : naming.fileName e.handle = file
      · obtain ⟨e'', hnew, hid'⟩ := hal.lives e' (hfile ▸ hread) (hid ▸ hdead)
        exact ⟨e'', by rw [hfile, hch.read_self, hnew], hid'.trans hid⟩
      · exact ⟨e', by rw [hch.read_of_ne hfile, hread], hid⟩
    by_cases hj : j = i
    · subst hj
      rw [hch.call_self] at hstored
      rcases hal.stored e hstored with hold | ⟨hfile, hnew⟩
      · exact hbefore j hold
      · exact ⟨e, by rw [hfile, hch.read_self, hnew], rfl⟩
    · exact hbefore j (hch.call_of_ne hj ▸ hstored)
  roles := by
    intro name name' e e' role hne hread hread' hdead hdead' hrole hrole'
    rw [hch.dead] at hdead hdead'
    -- a role that both files held before the step
    have hboth : ∀ e₀ e₀', readEntry naming w.files name = some e₀ → readEntry naming w.files name' = some e₀' →
        e₀.id = e.id → e₀'.id = e'.id → role ∈ e₀.roles → role ∈ e₀'.roles →
        ∃ j, (w'.calls j).takes name role ∨ (w'.calls j).takes name' role := by
      intro e₀ e₀' h₀ h₀' hid hid' hr hr'
      obtain ⟨j, htakes⟩ := h.roles hne h₀ h₀' (hid ▸ hdead) (hid' ▸ hdead') hr hr'
      by_cases hj : j = i
      · subst hj
        refine ⟨j, ?_⟩
        rw [hch.call_self]
        rcases htakes with htakes | htakes
        · rcases hal.takes name role htakes with hafter | ⟨rfl, hgone⟩
          · exact .inl hafter
          · exact absurd hrole (hgone e (hch.read_self.symm.trans hread))
        · rcases hal.takes name' role htakes with hafter | ⟨rfl, hgone⟩
          · exact .inr hafter
          · exact absurd hrole' (hgone e' (hch.read_self.symm.trans hread'))
      · exact ⟨j, hch.call_of_ne hj ▸ htakes⟩
    by_cases hname : name = file
    · subst hname
      have hother := (hch.read_of_ne hne.symm).symm.trans hread'
      rcases hal.gains e (hch.read_self.symm.trans hread) role hrole with ⟨e₀, h₀, hid, hr⟩ | hgain
      · exact hboth e₀ e' h₀ hother hid rfl hr hrole'
      · exact ⟨i, .inr (hch.call_self ▸ hgain name' e' hne.symm hother hdead' hrole')⟩
    · have hsame := (hch.read_of_ne hname).symm.trans hread
      by_cases hname' : name' = file
      · subst hname'
        rcases hal.gains e' (hch.read_self.symm.trans hread') role hrole' with ⟨e₀', h₀', hid', hr'⟩ | hgain
        · exact hboth e e₀' hsame h₀' rfl hid' hrole hr'
        · exact ⟨i, .inl (hch.call_self ▸ hgain name e hname hsame hdead hrole)⟩
      · exact hboth e e' hsame ((hch.read_of_ne hname').symm.trans hread') rfl rfl hrole hrole'
  left := by
    intro session role held hleft hdead
    rw [hch.dead] at hdead
    rcases hal.left session role hdead with ⟨hsame, hhas⟩ | ⟨held', hheld, hfile, hhas⟩
    · rw [hsame] at hleft
      rw [← h.left hleft hdead, hch.reads]
      split
      · next hfile => rw [hhas, hfile]
      · rfl
    · rw [hheld] at hleft
      rw [← hfile, hch.read_self, hhas, some.inj hleft]

theorem Sound.setCall (h : Sound naming w) (hcall : CallHolds naming w.dead call)
    (hstored : call.stored = none ∨ call.stored = (w.calls i).stored)
    (htakes : ∀ file role, (w.calls i).takes file role → call.takes file role) : Sound naming (w.setCall i call) where
  entries := h.entries
  calls := by
    intro j
    show CallHolds naming w.dead (Function.update w.calls i call j)
    rw [update_apply]
    split
    · exact hcall
    · exact h.calls j
  stored := by
    intro j e hj hdead
    have hj : (Function.update w.calls i call j).stored = some e := hj
    rw [update_apply] at hj
    split at hj
    · rcases hstored with hnone | hsame
      · rw [hnone] at hj
        cases hj
      · exact h.stored (hsame ▸ hj) hdead
    · exact h.stored hj hdead
  roles := by
    intro file file' e e' role hne hread hread' hdead hdead' hrole hrole'
    obtain ⟨j, hj⟩ := h.roles hne hread hread' hdead hdead' hrole hrole'
    refine ⟨j, ?_⟩
    show (Function.update w.calls i call j).takes file role ∨ (Function.update w.calls i call j).takes file' role
    rw [update_apply]
    split
    · next heq => exact hj.imp (heq ▸ htakes file role) (heq ▸ htakes file' role)
    · exact hj
  left := h.left

/-! ### The steps -/

theorem dead_of_truthful (h : truthful dead e .dead = true) : dead e.id = true := by
  simp only [truthful, Bool.and_eq_true] at h
  exact h.1

theorem Fresh.merged {asked : List String} {merged : Entry} {read : Option Entry} (h : Fresh naming asked merged)
    (hsame : ∀ held, read = some held → held.id = merged.id)
    (hroles : ∀ held, read = some held → ∀ role ∈ held.roles, role ∈ asked) : Merged naming asked merged read where
  named := h.named
  same := hsame
  roles := by
    intro role
    rw [h.roles]
    exact ⟨.inl, fun hrole => hrole.elim id fun ⟨held, hread, hheld⟩ => hroles held hread role hheld⟩

theorem Named.refreshFrom {entry : Entry} (h : Named naming entry) : Named naming (refreshFrom entry held) :=
  ⟨h.v, h.handle⟩

theorem merged_refreshFrom {entry : Entry} (h : Named naming entry) (hid : held.id = entry.id) :
    Merged naming entry.roles (refreshFrom entry held) (some held) where
  named := h.refreshFrom
  same := fun held' hheld => by rw [← some.inj hheld]; exact hid
  roles := by
    intro role
    rw [refreshFrom_roles]
    exact or_congr_right ⟨fun hrole => ⟨held, rfl, hrole⟩, fun ⟨_, hheld, hrole⟩ => some.inj hheld ▸ hrole⟩

theorem afterRead_holds {entry : Entry} (h : Fresh naming [] entry) (read : Option Entry) :
    CallHolds naming dead (afterRead entry read) := by
  cases read with
  | none => exact h.merged nofun nofun
  | some held =>
    unfold afterRead
    dsimp only
    split
    · trivial
    · next hid =>
      have hmerged := merged_refreshFrom h.named (not_not.mp hid)
      rw [h.roles] at hmerged
      exact hmerged

variable {rows : List Row}

theorem swept_holds {entry : Entry} (take : Bool) (foreign : ℕ)
    (h : Named naming entry) (hrows : ∀ row ∈ rows, RowHolds naming row) :
    CallHolds naming dead (swept entry take rows foreign) := by
  unfold swept
  dsimp only
  split
  · trivial
  · next hother =>
    split
    · trivial
    · split
      · trivial
      · split
        · exact ⟨(Fresh.mk h rfl).merged nofun nofun,
            fun _ => rfl, hrows⟩
        · next row hown =>
          have hid : row.entry.id = entry.id := by
            rw [hown, any_some, decide_eq_true_eq, not_not] at hother
            exact hother
          exact ⟨merged_refreshFrom h hid, nofun, hrows⟩

theorem scanned_holds {purpose : Purpose} {scan : Scan} (h : PurposeHolds naming purpose)
    (hrows : ∀ row ∈ scan.rows, RowHolds naming row ∧ (row.verdict = .dead → dead row.entry.id = true)) :
    CallHolds naming dead (scanned scan purpose) := by
  cases purpose with
  | register entry take =>
    refine ⟨h, fun row hrow => ?_, fun row hrow => (hrows row (mem_of_mem_filter hrow)).1⟩
    exact (hrows row (mem_of_mem_filter hrow)).2 (of_decide_eq_true (mem_filter.mp hrow).2)
  | again asked merged rows =>
    simp only [scanned]
    split
    · split
      · trivial
      · next hid => exact ⟨h.1, fun held hheld => some.inj hheld ▸ not_not.mp hid, h.2⟩
    · exact ⟨h.1, nofun, h.2⟩
  | dropRole ownId role =>
    simp only [scanned]
    split
    · trivial
    · next row hfind =>
      split
      · exact (hrows row (mem_of_find?_eq_some hfind)).1
      · trivial

theorem leave_eq {session : String} {held : Bool} (hrole : role ∈ roles) :
    w.leave session roles held (session, role) = some held := if_pos ⟨rfl, hrole⟩

theorem leave_of_not {session session' : String} {held : Bool}
    (h : ¬ (session' = session ∧ role ∈ roles)) : w.leave session roles held (session', role) = w.left (session', role) :=
  if_neg h

/-- A registration stores its entry over what it read. -/
theorem Sound.storeOwn (h : Sound naming w) {asked : List String} {merged : Entry}
    (hmerged : Merged naming asked merged (readEntry naming w.files (naming.fileName merged.handle)))
    (hold : ∀ file role, ¬ (w.calls i).takes file role) (call : Call) (hcall : CallHolds naming w.dead call)
    (hstored : call.stored = some merged)
    (hseen : ∀ role ∈ asked, ∀ name e', name ≠ naming.fileName merged.handle → readEntry naming w.files name = some e' →
      w.dead e'.id = false → role ∈ e'.roles → call.takes name role) :
    Sound naming { w.setCall i call with files := w.store naming merged, left := w.leave merged.id asked true } := by
  refine h.changes ⟨rfl, rfl, readEntry_insert hmerged.named.v⟩ ?_
  constructor
  case holds => exact hcall
  case named => exact fun e he => some.inj he ▸ hmerged.named
  case lives => exact fun e he _ => ⟨merged, rfl, (hmerged.same e he).symm⟩
  case stored =>
    intro e he
    rw [hstored] at he
    exact .inr (some.inj he ▸ ⟨rfl, rfl⟩)
  case gains =>
    intro e he role hrole
    cases he
    rcases (hmerged.roles role).mp hrole with hasked | ⟨held, hread, hheld⟩
    · exact .inr (hseen role hasked)
    · exact .inl ⟨held, hread, hmerged.same held hread, hheld⟩
  case takes => exact fun name role htakes => absurd htakes (hold name role)
  case left =>
    intro session role hdead
    by_cases hasked : session = merged.id ∧ role ∈ asked
    · obtain ⟨rfl, hrole⟩ := hasked
      refine .inr ⟨true, leave_eq hrole, congrArg _ hmerged.named.handle, ?_⟩
      exact ⟨fun _ => rfl, fun _ => ⟨merged, rfl, rfl, (hmerged.roles role).mpr (.inl hrole)⟩⟩
    · refine .inl ⟨leave_of_not hasked, ?_, ?_⟩
      · rintro ⟨e, he, rfl, hrole⟩
        cases he
        rcases (hmerged.roles role).mp hrole with hrole | ⟨held, hread, hheld⟩
        · exact absurd ⟨rfl, hrole⟩ hasked
        · exact ⟨held, hread, hmerged.same held hread, hheld⟩
      · rintro ⟨held, hread, rfl, hheld⟩
        exact ⟨merged, rfl, (hmerged.same held hread).symm, (hmerged.roles role).mpr (.inr ⟨held, hread, hheld⟩)⟩

theorem Sound.erase (h : Sound naming w)
    (hgone : ∀ e, readEntry naming w.files file = some e → w.dead e.id = true) (hold : ∀ file role, ¬ (w.calls i).takes file role)
    (hcall : CallHolds naming w.dead call) (hstored : call.stored = none) :
    Sound naming { w.setCall i call with files := w.files.erase file } := by
  refine h.changes ⟨rfl, rfl, readEntry_erase file⟩ ?_
  constructor
  case holds => exact hcall
  case named => exact nofun
  case lives => exact fun e he hdead => by rw [hgone e he] at hdead; cases hdead
  case stored =>
    intro e he
    rw [hstored] at he
    cases he
  case gains => exact nofun
  case takes => exact fun name role htakes => absurd htakes (hold name role)
  case left =>
    intro session role hdead
    refine .inl ⟨rfl, ?_, ?_⟩
    · rintro ⟨e, he, -⟩
      cases he
    · rintro ⟨e, he, rfl, -⟩
      rw [hgone e he] at hdead
      cases hdead

/-- An entry is rewritten without roles that the call names, or that it had not. -/
theorem Sound.without (h : Sound naming w) {row : Row} {gone named : List String} (hrow : RowHolds naming row)
    (hread : readEntry naming w.files row.file = some row.entry) (hgone : ∀ role ∈ named, role ∈ gone)
    (hnamed : ∀ role ∈ row.entry.roles, role ∈ gone → role ∈ named) (hcall : CallHolds naming w.dead call)
    (hstored : ∀ e, call.stored = some e → (w.calls i).stored = some e)
    (htakes : ∀ name role, (w.calls i).takes name role → call.takes name role ∨ name = row.file ∧ role ∈ gone) :
    Sound naming { w.setCall i call with
      files := w.store naming (row.entry.without gone), left := w.leave row.entry.id named false } := by
  have hv : Named naming (row.entry.without gone) := ⟨hrow.named.v, hrow.named.handle⟩
  have hfile : naming.fileName (row.entry.without gone).handle = row.file := hrow.file.symm
  have hreads : ∀ name, readEntry naming (w.store naming (row.entry.without gone)) name =
      if name = row.file then some (row.entry.without gone) else readEntry naming w.files name := by
    intro name
    rw [World.store, readEntry_insert hv.v, hfile]
  refine h.changes ⟨rfl, rfl, hreads⟩ ?_
  constructor
  case holds => exact hcall
  case named => exact fun e he => some.inj he ▸ hv
  case lives =>
    intro e he _
    rw [hread] at he
    exact ⟨_, rfl, some.inj he ▸ rfl⟩
  case stored => exact fun e he => .inl (hstored e he)
  case gains =>
    intro e he role hrole
    cases he
    exact .inl ⟨row.entry, hread, rfl, (mem_without.mp hrole).1⟩
  case takes =>
    intro name role hold
    rcases htakes name role hold with hafter | ⟨hname, hrole⟩
    · exact .inl hafter
    · exact .inr ⟨hname, fun e he hmem => (mem_without.mp (some.inj he ▸ hmem)).2 hrole⟩
  case left =>
    intro session role hdead
    by_cases hcase : session = row.entry.id ∧ role ∈ named
    · obtain ⟨rfl, hrole⟩ := hcase
      refine .inr ⟨false, leave_eq hrole, by rw [hrow.file, hrow.named.handle], ?_, fun hfalse => by cases hfalse⟩
      rintro ⟨e, he, -, hmem⟩
      exact absurd (hgone role hrole) (mem_without.mp (some.inj he ▸ hmem)).2
    · refine .inl ⟨leave_of_not hcase, ?_, ?_⟩
      · rintro ⟨e, he, rfl, hmem⟩
        cases he
        exact ⟨row.entry, hread, rfl, (mem_without.mp hmem).1⟩
      · rintro ⟨e, he, rfl, hmem⟩
        rw [hread] at he
        cases he
        exact ⟨_, rfl, rfl, mem_without.mpr ⟨hmem, fun hrole => hcase ⟨rfl, hnamed role hmem hrole⟩⟩⟩

theorem takes_of_othersSeen {asked : List String} {merged : Entry}
    (hasked : ∀ role ∈ asked, role ∈ merged.roles) (hseen : othersSeen naming w asked merged rows = true) (role : String)
    (hrole : role ∈ asked) (name : String) (e : Entry) (hne : name ≠ naming.fileName merged.handle)
    (hread : readEntry naming w.files name = some e) (hdead : w.dead e.id = false) (hmem : role ∈ e.roles) :
    (Call.rewriting asked merged (holdersOf merged rows)).takes name role := by
  have hname : name ∈ w.files := by
    by_contra hnot
    rw [readEntry_of_not_mem hnot] at hread
    cases hread
  have hcheck := List.all_eq_true.mp hseen name (Std.ExtTreeMap.mem_keys.mpr hname)
  have hany : e.roles.any (· ∈ asked) = true := List.any_eq_true.mpr ⟨role, hmem, decide_eq_true hrole⟩
  simp only [hread, hne, hdead, hany, all_some, decide_false, Bool.false_or, Bool.not_true] at hcheck
  obtain ⟨row, hrow, hfile⟩ := List.any_eq_true.mp hcheck
  exact ⟨hasked role hrole, row, hrow, of_decide_eq_true hfile⟩

theorem rowHolds_holdersOf {merged : Entry} (hrows : ∀ row ∈ rows, RowHolds naming row) :
    ∀ row ∈ holdersOf merged rows, RowHolds naming row :=
  fun row hrow => hrows row (mem_of_mem_filter hrow)

theorem Merged.asked {asked : List String} {merged : Entry} {read : Option Entry} (h : Merged naming asked merged read) :
    ∀ role ∈ asked, role ∈ merged.roles :=
  fun role hrole => (h.roles role).mpr (.inl hrole)

theorem Sound.die (h : Sound naming w) (session : String) :
    Sound naming { w with dead := Function.update w.dead session true } := by
  have hdead : ∀ s, w.dead s = true → Function.update w.dead session true s = true := by
    intro s hs
    rw [update_apply]
    split
    · rfl
    · exact hs
  have halive : ∀ s, Function.update w.dead session true s = false → w.dead s = false := by
    intro s hs
    by_contra hnot
    rw [hdead s (Bool.not_eq_false _ ▸ hnot)] at hs
    cases hs
  constructor
  case entries => exact h.entries
  case calls => exact fun i => (h.calls i).mono hdead
  case stored => exact fun i e hstored hlive => h.stored hstored (halive _ hlive)
  case roles =>
    intro file file' e e' role hne hread hread' hlive hlive'
    exact h.roles hne hread hread' (halive _ hlive) (halive _ hlive')
  case left => exact fun session role held hleft hlive => h.left hleft (halive _ hlive)

theorem Sound.moves (h : Sound naming w) (hcall : CallHolds naming w.dead call) (hstored : call.stored = none)
    (hold : ∀ file role, ¬ (w.calls i).takes file role) : Sound naming (w.setCall i call) :=
  h.setCall hcall (.inl hstored) fun file role htakes => absurd htakes (hold file role)

theorem afterRead_stored (entry : Entry) (read : Option Entry) : (afterRead entry read).stored = none := by
  unfold afterRead
  split
  · rfl
  · split <;> rfl

theorem swept_stored (entry : Entry) (take : Bool) (rows : List Row) (foreign : ℕ) :
    (swept entry take rows foreign).stored = none := by
  unfold swept
  dsimp only
  split
  · rfl
  · split
    · rfl
    · split
      · rfl
      · split <;> rfl

theorem scanned_stored (scan : Scan) (purpose : Purpose) : (scanned scan purpose).stored = none := by
  cases purpose with
  | register entry take => rfl
  | again asked merged rows =>
    simp only [scanned]
    split
    · split <;> rfl
    · rfl
  | dropRole ownId role =>
    simp only [scanned]
    split
    · rfl
    · split <;> rfl

theorem Sound.create (h : Sound naming w) {entry : Entry} (hentry : Fresh naming [] entry)
    (htaken : ¬ w.taken naming entry = true) (hold : ∀ file role, ¬ (w.calls i).takes file role) :
    Sound naming { w.setCall i (.registered entry) with files := w.store naming entry } := by
  have hnone : readEntry naming w.files (naming.fileName entry.handle) = none :=
    readEntry_of_not_mem fun hmem => htaken (decide_eq_true hmem)
  have hmerged : Merged naming [] entry (readEntry naming w.files (naming.fileName entry.handle)) := by
    rw [hnone]
    exact hentry.merged nofun nofun
  have hstore := h.storeOwn hmerged hold (.registered entry) trivial rfl nofun
  rwa [show w.leave entry.id [] true = w.left from funext fun key => if_neg fun hkey => by cases hkey.2] at hstore

theorem Sound.step {sight : Sight} (h : Sound naming w) (hread : asRead naming w (.step i sight) = true)
    (hact : w.step naming i sight = some w') : Sound naming w' := by
  have hcall := h.calls i
  unfold World.step at hact
  simp only [asRead] at hread
  split at hact
  case h_1 entry take heq =>
    cases hact
    rw [heq] at hcall
    refine h.moves ?_ ?_ (by rw [heq]; exact fun _ _ => id)
    · split
      · exact hcall.named
      · exact hcall
    · split <;> rfl
  case h_2 entry heq =>
    rw [heq] at hcall
    split at hact
    · cases hact
      exact h.moves hcall rfl (by rw [heq]; exact fun _ _ => id)
    · next htaken =>
      cases hact
      exact h.create hcall htaken (by rw [heq]; exact fun _ _ => id)
  case h_3 entry heq =>
    rw [heq] at hcall
    dsimp only at hact
    split at hact
    · cases hact
      exact h.moves (afterRead_holds hcall none) (afterRead_stored ..) (by rw [heq]; exact fun _ _ => id)
    · split at hact
      · next held _ htruth =>
        cases hact
        refine h.moves ?_ ?_ (by rw [heq]; exact fun _ _ => id)
        · split
          · next hverdict => exact ⟨hcall, dead_of_truthful (hverdict ▸ htruth)⟩
          · exact afterRead_holds hcall (some held)
        · split
          · rfl
          · exact afterRead_stored ..
      · cases hact
  case h_4 entry holder heq =>
    cases hact
    rw [heq] at hcall hread
    refine h.erase (fun e he => ?_) (by rw [heq]; exact fun _ _ => id) hcall.1 rfl
    dsimp only at hread
    rw [he, all_some, decide_eq_true_eq] at hread
    exact hread ▸ hcall.2
  case h_5 entry heq =>
    rw [heq] at hcall
    split at hact
    · cases hact
      exact h.moves hcall rfl (by rw [heq]; exact fun _ _ => id)
    · next htaken =>
      cases hact
      exact h.create hcall htaken (by rw [heq]; exact fun _ _ => id)
  case h_6 entry heq =>
    cases hact
    rw [heq] at hcall
    exact h.moves (afterRead_holds hcall _) (afterRead_stored ..) (by rw [heq]; exact fun _ _ => id)
  case h_7 merged read heq =>
    cases hact
    rw [heq] at hcall hread
    obtain rfl := of_decide_eq_true hread
    have hstore := h.storeOwn hcall (by rw [heq]; exact fun _ _ => id) (.registered merged) trivial rfl
      nofun
    rwa [show w.leave merged.id [] true = w.left from funext fun key => if_neg fun hkey => by cases hkey.2] at hstore
  case h_8 purpose heq =>
    rw [heq] at hcall
    split at hact
    · cases hact
      exact h.moves ⟨hcall, fun _ hrow => by cases hrow⟩ rfl (by rw [heq]; exact fun _ _ => id)
    · cases hact
  case h_9 purpose file names scan heq =>
    rw [heq] at hcall
    split at hact
    · cases hact
      exact h.moves hcall rfl (by rw [heq]; exact fun _ _ => id)
    · next entry hentry =>
      split at hact
      · next htruth =>
        cases hact
        refine h.moves ⟨hcall.1, fun row hrow => ?_⟩ rfl (by rw [heq]; exact fun _ _ => id)
        rcases mem_append.mp hrow with hrow | hlast
        · exact hcall.2 row hrow
        · rw [mem_singleton.mp hlast]
          exact ⟨⟨(readEntry_eq_some hentry).2.symm, h.entries hentry⟩,
            fun hverdict => dead_of_truthful (hverdict ▸ htruth)⟩
      · cases hact
  case h_10 purpose scan heq =>
    cases hact
    rw [heq] at hcall
    exact h.moves (scanned_holds hcall.1 hcall.2) (scanned_stored ..) (by rw [heq]; exact fun _ _ => id)
  case h_11 entry take row gone kept foreign heq =>
    cases hact
    rw [heq] at hcall hread
    refine h.erase (fun e he => ?_) (by rw [heq]; exact fun _ _ => id)
      ⟨hcall.1, fun row' hrow => hcall.2.1 row' (mem_cons_of_mem _ hrow), hcall.2.2⟩ rfl
    dsimp only at hread
    rw [he, all_some, decide_eq_true_eq] at hread
    exact hread ▸ hcall.2.1 row mem_cons_self
  case h_12 entry take kept foreign heq =>
    cases hact
    rw [heq] at hcall
    exact h.moves (swept_holds take foreign hcall.1 hcall.2.2) (swept_stored ..) (by rw [heq]; exact fun _ _ => id)
  case h_13 asked merged own rows heq =>
    rw [heq] at hcall hread
    split at hact
    · next htaken =>
      cases hact
      rw [Bool.and_eq_true, isNone_iff_eq_none] at htaken
      obtain ⟨rfl, -⟩ := htaken
      exact h.moves ⟨⟨hcall.1.named, hcall.2.1 rfl⟩, hcall.2.2⟩ rfl (by rw [heq]; exact fun _ _ => id)
    · next htaken =>
      cases hact
      rw [Bool.not_eq_true] at htaken
      dsimp only at hread
      rw [htaken, Bool.false_or, Bool.and_eq_true, decide_eq_true_eq] at hread
      obtain ⟨rfl, hseen⟩ := hread
      exact h.storeOwn hcall.1 (by rw [heq]; exact fun _ _ => id) _ ⟨hcall.1.asked, rowHolds_holdersOf hcall.2.2⟩ rfl
        (takes_of_othersSeen hcall.1.asked hseen)
  case h_14 asked merged current rows heq =>
    cases hact
    rw [heq] at hcall hread
    dsimp only at hread
    rw [Bool.and_eq_true, Bool.and_eq_true, decide_eq_true_eq] at hread
    obtain ⟨⟨rfl, hroles⟩, hseen⟩ := hread
    have hmerged := hcall.1.merged hcall.2.1 fun held hheld role hrole => by
      rw [hheld, all_some] at hroles
      exact of_decide_eq_true (List.all_eq_true.mp hroles role hrole)
    exact h.storeOwn hmerged (by rw [heq]; exact fun _ _ => id) _ ⟨hmerged.asked, rowHolds_holdersOf hcall.2.2⟩ rfl
      (takes_of_othersSeen hmerged.asked hseen)
  case h_15 asked merged row holders heq =>
    cases hact
    rw [heq] at hcall hread
    dsimp only at hread
    rw [Bool.and_eq_true, decide_eq_true_eq] at hread
    refine h.without (hcall.2 row mem_cons_self) hread.1 ?_ ?_
      ⟨hcall.1, fun row' hrow => hcall.2 row' (mem_cons_of_mem _ hrow)⟩ (by rw [heq]; exact fun _ => id) ?_
    · exact fun role hrole => hcall.1 role (mem_of_mem_filter hrole)
    · intro role hrole hgone
      have hasked := List.all_eq_true.mp hread.2 role hrole
      rw [contains_iff_mem.mpr hgone, Bool.not_true, Bool.false_or, List.contains_iff_mem] at hasked
      exact mem_filter.mpr ⟨hasked, decide_eq_true hrole⟩
    · rw [heq]
      rintro name role ⟨hrole, row', hrow', hname⟩
      rcases mem_cons.mp hrow' with rfl | hrest
      · exact .inr ⟨hname.symm, hrole⟩
      · exact .inl ⟨hrole, row', hrest, hname⟩
  case h_16 asked merged heq =>
    cases hact
    refine h.setCall trivial (.inr (by rw [heq]; rfl)) ?_
    rw [heq]
    rintro name role ⟨-, row, hrow, -⟩
    cases hrow
  case h_17 row role heq =>
    cases hact
    rw [heq] at hcall hread
    refine h.without hcall (of_decide_eq_true hread) (fun _ => id) (fun _ _ => id) trivial nofun ?_
    rw [heq]
    exact fun _ _ htakes => htakes.elim
  case h_18 => cases hact

theorem Sound.act {a : Act} (h : Sound naming w) (hread : asRead naming w a = true) (hact : w.act naming a = some w') :
    Sound naming w' := by
  cases a with
  | die session =>
    cases hact
    exact h.die session
  | register i entry take =>
    unfold World.act at hact
    dsimp only at hact
    split at hact
    · next heq =>
      cases hact
      refine h.moves ?_ ?_ (by rw [heq]; exact fun _ _ => id)
      · split
        · trivial
        · split
          · next hroles => exact ⟨⟨rfl, rfl⟩, hroles⟩
          · exact ⟨rfl, rfl⟩
      · split
        · rfl
        · split <;> rfl
    · cases hact
  | dropRole i ownId role =>
    unfold World.act at hact
    dsimp only at hact
    split at hact
    · next heq =>
      cases hact
      refine h.moves ?_ ?_ (by rw [heq]; exact fun _ _ => id)
      · split <;> trivial
      · split <;> rfl
    · cases hact
  | step i sight => exact h.step hread hact

/-! ### Every run -/

theorem Start.sound (h : Start naming w) : Sound naming w where
  entries := fun _ _ hread => ⟨(readEntry_eq_some hread).1, h.entries hread⟩
  calls := by
    intro i
    rw [h.calls i]
    trivial
  stored := by
    intro i e hstored
    rw [h.calls i] at hstored
    cases hstored
  roles := fun _ _ _ _ _ hne hread hread' hdead hdead' hrole hrole' =>
    absurd (h.roles hread hread' hdead hdead' hrole hrole') hne
  left := by
    intro session role held hleft
    rw [h.left] at hleft
    cases hleft

theorem Call.not_takes_of_isOver (h : call.isOver) (file role : String) : ¬ call.takes file role := by
  cases call <;> first | exact id | exact h.elim

theorem Sound.directoryHolds (h : Sound naming w) : DirectoryHolds naming w where
  kept := by
    intro i e hcall
    exact h.stored (by rw [hcall]; rfl)
  alone := by
    intro i j e e' hcall hcall' hhandle hid
    by_contra hboth
    rw [not_or, Bool.not_eq_true, Bool.not_eq_true] at hboth
    obtain ⟨held, hread, hheld⟩ := h.stored (i := i) (by rw [hcall]; rfl) hboth.1
    obtain ⟨held', hread', hheld'⟩ := h.stored (i := j) (by rw [hcall']; rfl) hboth.2
    rw [hhandle, hread'] at hread
    exact hid (hheld.symm.trans (some.inj hread ▸ hheld'))
  roles := by
    intro hover file file' e e' role hread hread' hdead hdead' hrole hrole'
    by_contra hne
    obtain ⟨i, htakes⟩ := h.roles hne hread hread' hdead hdead' hrole hrole'
    exact htakes.elim (Call.not_takes_of_isOver (hover i) file role) (Call.not_takes_of_isOver (hover i) file' role)
  left := h.left

/-- The states of the runs whose steps find the directory as their call read it. -/
abbrev RunAsRead (naming : Naming) : World → Prop :=
  ActRun (World.act naming) (Start naming) fun w a => asRead naming w a = true

theorem act_calls_of_ne {a : Act} (hact : w.act naming a = some w') {j : ℕ} (hj : ∀ i, a.call = some i → j ≠ i) :
    w'.calls j = w.calls j := by
  cases a with
  | die session => exact some.inj hact ▸ rfl
  | register i entry take | dropRole i ownId role =>
    have hne : j ≠ i := hj i rfl
    unfold World.act at hact
    dsimp only at hact
    split at hact
    · exact some.inj hact ▸ update_of_ne hne ..
    · cases hact
  | step i sight =>
    have hne : j ≠ i := hj i rfl
    have hset : ∀ call, Function.update w.calls i call j = w.calls j := fun call => update_of_ne hne ..
    unfold World.act World.step at hact
    dsimp only at hact
    split at hact <;> (try split at hact) <;> (try split at hact) <;>
      first | cases hact; done | exact some.inj hact ▸ hset _

def World.initial : World where
  files := ∅
  dead := fun _ => false
  calls := fun _ => .idle
  left := fun _ => none

theorem readEntry_initial (file : String) : readEntry naming World.initial.files file = none :=
  readEntry_of_not_mem not_mem_empty

theorem start_initial : Start naming World.initial where
  calls := fun _ => rfl
  left := fun _ => rfl
  entries := fun _ _ hread => by
    rw [readEntry_initial] at hread
    cases hread
  roles := fun _ _ _ _ _ hread => by
    rw [readEntry_initial] at hread
    cases hread

namespace Sample

def digests : Naming where
  handle := fun id =>
    if id = "fg-abc234/aaaa" then "claude-mg7f@fg" else if id = "fg-abc234/bbbb" then "claude-qhgf@fg" else "claude-rapa@fg"
  fileName := fun handle =>
    if handle = "claude-mg7f@fg" then "otow7wokbeup.json"
    else if handle = "claude-qhgf@fg" then "2nvoet7ksfsh.json"
    else "vm23yecmw5oy.json"
  roleProblem := fun role => if role = "lead:MAIL" ∨ role = "lead:DOCS" then none else some "invalid-identifier"

def entry (id : String) (roles : List String) : Entry where
  v := formatVersion
  id := id
  handle := digests.handle id
  cli := "claude"
  projectId := none
  clone := none
  registeredAt := "2026-07-01T00:00:00.000Z"
  roles := roles
  liveness := some "10"

def step (i : ℕ) : Act := .step i ⟨.alive, []⟩

def scans (i : ℕ) (id : String) (roles : List String) (take : Bool) (names : List String) : List Act :=
  [.register i (entry id roles) take, .step i ⟨.alive, names⟩] ++ names.map (fun _ => step i) ++ [step i, step i]

def handedOn : List Act :=
  scans 0 "fg-abc234/aaaa" ["lead:MAIL"] false [] ++ [step 0, step 0] ++
    scans 1 "fg-abc234/bbbb" ["lead:MAIL"] true ["otow7wokbeup.json"] ++ [step 1, step 1, step 1] ++
    [.dropRole 2 "fg-abc234/bbbb" "lead:MAIL", .step 2 ⟨.alive, ["2nvoet7ksfsh.json", "otow7wokbeup.json"]⟩, step 2, step 2,
      step 2, step 2]

/-- Two sessions find the dead holder of their handle, and the second removes the entry of the first. -/
def removedTwice : List Act :=
  [.register 0 (entry "fg-abc234/s3330" []) false, step 0, step 0, .die "fg-abc234/s3330",
    .register 1 (entry "fg-abc234/s15172" []) false, step 1, step 1,
    .register 2 (entry "fg-abc234/s17903" []) false, step 2, step 2,
    .step 1 ⟨.dead, []⟩, .step 2 ⟨.dead, []⟩, step 1, step 1, step 2, step 2]

/-- Two sessions register one role, and both scan before either writes. -/
def registeredTwice : List Act :=
  scans 0 "fg-abc234/aaaa" ["lead:MAIL"] false [] ++ scans 1 "fg-abc234/bbbb" ["lead:MAIL"] false [] ++
    [step 0, step 0, step 1, step 1]

/-- A session registers two roles in two calls, and the second loses the create. -/
def replaced : List Act :=
  scans 0 "fg-abc234/aaaa" ["lead:MAIL"] false [] ++ scans 1 "fg-abc234/aaaa" ["lead:DOCS"] false [] ++
    [step 0, step 0, step 1, .step 1 ⟨.alive, ["otow7wokbeup.json"]⟩, step 1, step 1, step 1, step 1]

def answer (w : World) (i : ℕ) : Option Entry :=
  match w.calls i with
  | .registered e => some e
  | _ => none

theorem calls_of_answer {w : World} {i : ℕ} {e : Entry} (h : answer w i = some e) : w.calls i = .registered e := by
  unfold answer at h
  split at h
  · next heq => rw [heq, some.inj h]
  · cases h

theorem calls_eq_idle {n : ℕ} {w : World}
    (h : ActRun (World.act digests) (Start digests) (fun _ a => ∀ i, a.call = some i → i < n) w) {j : ℕ} (hj : n ≤ j) :
    w.calls j = .idle := by
  refine h.invariant (fun w hstart => hstart.calls j) fun hidle hlt hact => ?_
  rw [act_calls_of_ne hact fun i hi heq => absurd (hlt i hi) (by omega), hidle]

end Sample

end Forgent.Identity.Directory
