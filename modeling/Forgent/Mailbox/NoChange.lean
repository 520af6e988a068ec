import Forgent.Mailbox.Hook
import Forgent.Mailbox.Dedupe

/-!
# Operations that report no change

A hold writes the record only when the operation it ran reports a change.  An operation is silent when it leaves the
record as it was whenever it reports none; each of them is, but for the ingest cursor, which notes an origin it never
heard of at zero and reports nothing.
-/

namespace Forgent.Mailbox

open List Std.ExtTreeMap Option

namespace MailboxState

variable {s s' s'' : MailboxState} {limits : Limits} {key : WriterKey} {generation : Generation} {now : Timestamp}
  {ids : IdSource} {changed : Bool} {held : Table ℕ}

/-- What an operation reports, and the record it leaves: without a change, the record as it was. -/
def Silent (s : MailboxState) (changed : Bool) (s' : MailboxState) : Prop := changed = false → s' = s

theorem Silent.refl (s : MailboxState) (changed : Bool) : s.Silent changed s := fun _ => rfl

theorem Silent.of_changed (h : changed = true) : s.Silent changed s' := by
  intro hchanged
  rw [h] at hchanged
  cases hchanged

theorem Silent.trans {changed' : Bool} (h : s.Silent changed s') (h' : s'.Silent changed' s'') :
    s.Silent (changed || changed') s'' := by
  intro hchanged
  obtain ⟨hfirst, hsecond⟩ := Bool.or_eq_false_iff.mp hchanged
  rw [h' hsecond, h hfirst]

/-- A change only a registration that is not a refresh reports. -/
def registerChanged : Except RegisterRefusal Registered → Bool
  | .ok (.created _ _) | .ok (.replaced _ _) => true
  | .ok (.refreshed _ _) | .error _ => false

theorem silent_register (s : MailboxState) (limits : Limits) (req : RegisterRequest) (judged : Option StoredHead)
    (now : Timestamp) (ids : IdSource) :
    s.Silent (registerChanged (s.register limits req judged now ids).1) (s.register limits req judged now ids).2.1 := by
  have hregistration := registration s limits req judged now ids
  generalize s.register limits req judged now ids = r at hregistration ⊢
  obtain ⟨result, s', ids'⟩ := r
  dsimp only at hregistration ⊢
  cases hregistration with
  | refused judged refusal | refreshed hbound hsame => exact Silent.refl s _
  | created hswept hunbound hname hfree | moved hswept hunbound hname hheld hgeneration
  | replaced hswept hbound hother hdead hgeneration => exact Silent.of_changed rfl

theorem silent_claim (s : MailboxState) (limits : Limits) (key : WriterKey) (generation : Generation)
    (checkpoint : Checkpoint) (now : Timestamp) (ids : IdSource) :
    s.Silent (s.claim limits key generation checkpoint now ids).1.changed
      (s.claim limits key generation checkpoint now ids).2.1 := by
  have hclaiming := claiming s limits key generation checkpoint now ids
  generalize s.claim limits key generation checkpoint now ids = r at hclaiming ⊢
  obtain ⟨claim, s', ids'⟩ := r
  dsimp only at hclaiming ⊢
  cases hclaiming with
  | idle tooLarge => exact Silent.refl s _
  | drained tooLarge hcurrent hswept | took hold tooLarge hcurrent hswept hdrained hhold hpicks => exact Silent.of_changed rfl

theorem finishHeader_eq_self {token : AttemptToken} {since : Timestamp} {h : Header}
    (hfree : h.heldBy key token = none) : s.finishHeader key generation token since h = h := by
  rw [finishHeader, hfree]
  rfl

theorem silent_finish (s : MailboxState) (key : WriterKey) (generation : Generation) (token : AttemptToken)
    (now : Timestamp) :
    s.Silent (s.finish key generation token now).1.changed (s.finish key generation token now).2 := by
  intro hchanged
  have htouched : (!(s.messages.filter fun h => (h.heldBy key token).isSome).isEmpty ||
      !(s.notices.filter fun n => (n.heldBy key token).isSome).isEmpty) = false := hchanged
  obtain ⟨hmail, hnotices⟩ := Bool.or_eq_false_iff.mp htouched
  rw [Bool.not_eq_false', List.isEmpty_iff, filter_eq_nil_iff] at hmail hnotices
  have hmessages : s.messages.map (s.finishHeader key generation token (max s.lastNow now)) = s.messages := by
    refine (map_congr_left fun h hh => finishHeader_eq_self ?_).trans (List.map_id _)
    exact not_isSome_iff_eq_none.mp (hmail h hh)
  have hkept : (s.notices.filter fun n => !(n.heldBy key token).any (s.accepts key generation)) = s.notices := by
    rw [List.filter_eq_self]
    intro n hn
    rw [not_isSome_iff_eq_none.mp (hnotices n hn)]
    rfl
  simp only [finish, hmessages, hkept, htouched, Bool.false_eq_true, if_false]

theorem silent_noteStop (s : MailboxState) (key : WriterKey) (generation : Generation) (blocked : Bool) :
    s.Silent (s.noteStop key generation blocked).1 (s.noteStop key generation blocked).2 := by
  rw [noteStop]
  cases hbinding : s.bindings[key]? with
  | none => exact Silent.refl s _
  | some binding =>
    simp only
    split
    · exact Silent.refl s _
    · intro hsame
      have hcount : (if blocked then min (binding.stopBlocks + 1) u32Max else 0) = binding.stopBlocks :=
        not_ne_iff.mp (of_decide_eq_false hsame)
      simp only [hcount]
      have hbindings : s.bindings.insert key binding = s.bindings := by
        apply Std.ExtTreeMap.ext_getElem?
        intro other
        rw [Std.ExtTreeMap.getElem?_insert]
        split
        · rename_i heq
          rw [← Std.LawfulEqCmp.eq_of_compare heq, hbinding]
        · rfl
      rw [hbindings]

theorem silent_clearRemoteRefusals (s : MailboxState) (told : List String) :
    s.Silent (s.clearRemoteRefusals told).1 (s.clearRemoteRefusals told).2 := by
  intro hchanged
  have hlength : (s.remote.refusals.filter fun r => !told.contains r.id).length = s.remote.refusals.length :=
    not_ne_iff.mp (of_decide_eq_false hchanged)
  have hkept := List.filter_eq_self.mpr (length_filter_eq_length_iff.mp hlength)
  rw [clearRemoteRefusals, hkept]

theorem silent_markRemoteSettled (s : MailboxState) (told : List MessageId) :
    s.Silent (s.markRemoteSettled told).1 (s.markRemoteSettled told).2 := by
  intro hchanged
  have hnone := List.any_eq_false.mp hchanged
  have hmessages : s.messages.map (settleHeader told) = s.messages := by
    refine (map_congr_left fun h hh => ?_).trans (List.map_id _)
    have hsettled := hnone h hh
    rw [settleHeader]
    cases horigin : h.origin with
    | none => rfl
    | some origin =>
      rw [horigin] at hsettled
      exact if_neg hsettled
  rw [markRemoteSettled, hmessages]

/-! ### The ingest cursor -/

/-- The ingest cursor notes an origin at zero and reports nothing: the baseline is taken, the cursor is ahead
nowhere, and it names an origin the record has no position of. -/
def NotesOrigin (s : MailboxState) (cursor : Table ℕ) : Prop :=
  s.remote.baselined = true ∧ (∀ e ∈ cursor.toList, e.2 ≤ s.remote.cursor.getD e.1 0) ∧
    ∃ e ∈ cursor.toList, s.remote.cursor.contains e.1 = false

/-- Moves the position of one origin forward. -/
def moved (held : Table ℕ) (e : String × ℕ) : Table ℕ := held.insert e.1 (max (held.getD e.1 0) e.2)

theorem contains_moved (held : Table ℕ) (e : String × ℕ) (origin : String) :
    (moved held e).contains origin = (decide (e.1 = origin) || held.contains origin) := by
  rw [moved, Std.ExtTreeMap.contains_insert]
  congr 1
  rw [Bool.eq_iff_iff, beq_iff_eq, decide_eq_true_eq, Std.LawfulEqCmp.compare_eq_iff_eq]

theorem contains_foldl_moved (cursor : List (String × ℕ)) (held : Table ℕ) (origin : String) :
    (cursor.foldl moved held).contains origin = true ↔ held.contains origin = true ∨ ∃ e ∈ cursor, e.1 = origin := by
  induction cursor generalizing held with
  | nil => simp
  | cons e cursor ih =>
    rw [foldl_cons, ih, contains_moved, Bool.or_eq_true, decide_eq_true_eq]
    simp only [mem_cons, exists_eq_or_imp]
    tauto

theorem moved_eq_self {e : String × ℕ} (hcontains : held.contains e.1 = true)
    (hbehind : e.2 ≤ held.getD e.1 0) : moved held e = held := by
  rw [moved, max_eq_left hbehind]
  apply Std.ExtTreeMap.ext_getElem?
  intro origin
  rw [Std.ExtTreeMap.getElem?_insert]
  split
  · rename_i heq
    rw [← Std.LawfulEqCmp.eq_of_compare heq, getD_eq_getD_getElem?]
    rw [contains_eq_isSome_getElem?] at hcontains
    obtain ⟨position, hposition⟩ := isSome_iff_exists.mp hcontains
    rw [hposition]
    rfl
  · rfl

theorem foldl_moved_eq_self {cursor : List (String × ℕ)}
    (hheld : ∀ e ∈ cursor, held.contains e.1 = true ∧ e.2 ≤ held.getD e.1 0) : cursor.foldl moved held = held := by
  induction cursor with
  | nil => rfl
  | cons e cursor ih =>
    obtain ⟨hcontains, hbehind⟩ := hheld e mem_cons_self
    rw [foldl_cons, moved_eq_self hcontains hbehind]
    exact ih fun e he => hheld e (mem_cons_of_mem _ he)

theorem advanceRemoteCursor_unchanged {cursor : Table ℕ} : (s.advanceRemoteCursor cursor).1 = false ↔
    s.remote.baselined = true ∧ ∀ e ∈ cursor.toList, e.2 ≤ s.remote.cursor.getD e.1 0 := by
  simp only [advanceRemoteCursor, Bool.or_eq_false_iff, Bool.not_eq_false', List.any_eq_false, decide_eq_true_eq, not_lt]

theorem advanceRemoteCursor_snd (s : MailboxState) (cursor : Table ℕ) : (s.advanceRemoteCursor cursor).2 =
    { s with remote := { s.remote with baselined := true, cursor := cursor.toList.foldl moved s.remote.cursor } } := rfl

theorem silent_advanceRemoteCursor_iff (s : MailboxState) (cursor : Table ℕ) :
    s.Silent (s.advanceRemoteCursor cursor).1 (s.advanceRemoteCursor cursor).2 ↔ ¬s.NotesOrigin cursor := by
  rw [Silent, advanceRemoteCursor_unchanged, advanceRemoteCursor_snd]
  constructor
  · rintro hsilent ⟨hbaselined, hbehind, e, he, hnew⟩
    have hsame := congrArg (fun s => s.remote.cursor.contains e.1) (hsilent ⟨hbaselined, hbehind⟩)
    have hnoted := (contains_foldl_moved cursor.toList s.remote.cursor e.1).mpr (.inr ⟨e, he, rfl⟩)
    simp only [hnoted, hnew] at hsame
    cases hsame
  · rintro hnotes ⟨hbaselined, hbehind⟩
    have hheld : ∀ e ∈ cursor.toList, s.remote.cursor.contains e.1 = true := by
      intro e he
      by_contra hnew
      exact hnotes ⟨hbaselined, hbehind, e, he, Bool.not_eq_true _ ▸ hnew⟩
    rw [foldl_moved_eq_self fun e he => ⟨hheld e he, hbehind e he⟩, ← hbaselined]

end MailboxState

/-! ### The hook -/

namespace Hook

open MailboxState

variable {s : MailboxState} {limits : Limits} {now : Timestamp} {ids : IdSource} {s₀ : MailboxState}

/-- What a hold of the hook reports is silent. -/
def Holding.Silent (s : MailboxState) (holding : Holding) : Prop :=
  s.Silent holding.1.stateChanged holding.2.1

theorem silent_drain (s : MailboxState) (limits : Limits) (bound : Bound) (checkpoint : Checkpoint) (now : Timestamp)
    (ids : IdSource) (hbound : s₀.Silent bound.changed s) :
    Holding.Silent s₀ (drain s limits bound checkpoint now ids) := by
  have hclaim := hbound.trans (silent_claim s limits bound.key bound.generation checkpoint now ids)
  rw [drain]
  generalize s.claim limits bound.key bound.generation checkpoint now ids = r at hclaim ⊢
  obtain ⟨claim, s', ids'⟩ := r
  dsimp only at hclaim ⊢
  split
  · exact MailboxState.Silent.of_changed rfl
  · split
    · exact hclaim
    · split
      · exact hclaim.trans (silent_noteStop s' bound.key bound.generation false)
      · exact hclaim

theorem silent_drainStop (s : MailboxState) (limits : Limits) (stopBlockMax : ℕ) (bound : Bound) (firstStop : Option Bool)
    (now : Timestamp) (ids : IdSource) (hbound : s₀.Silent bound.changed s) :
    Holding.Silent s₀ (drainStop s limits stopBlockMax bound firstStop now ids) := by
  have hfirst : s₀.Silent (bound.changed || (if firstStop = some true then s.noteStop bound.key bound.generation false
      else (false, s)).1) (if firstStop = some true then s.noteStop bound.key bound.generation false
      else (false, s)).2 := by
    split
    · exact hbound.trans (silent_noteStop s bound.key bound.generation false)
    · rw [Bool.or_false]
      exact hbound
  rw [drainStop]
  generalize (if firstStop = some true then s.noteStop bound.key bound.generation false else (false, s)) = r at hfirst ⊢
  obtain ⟨first, s'⟩ := r
  dsimp only at hfirst ⊢
  split
  · exact hfirst.trans (silent_noteStop s' bound.key bound.generation false)
  · exact silent_drain s' limits _ .stop now ids hfirst

theorem silent_enter (s : MailboxState) (limits : Limits) (stopBlockMax : ℕ) (call : HookCall) (facts : AdapterFacts)
    (firstStop : Option Bool) (generation : Generation) (registered : Option Generation) (now : Timestamp)
    (ids : IdSource) (hregistered : s₀.Silent registered.isSome s) :
    Holding.Silent s₀ (enter s limits stopBlockMax call facts firstStop generation registered now ids) := by
  unfold enter
  dsimp only
  split
  · exact hregistered
  · split
    · exact silent_drainStop s limits stopBlockMax _ firstStop now ids hregistered
    · split
      · exact silent_drain s limits _ _ now ids hregistered
      · exact hregistered

theorem isSome_generationOf (result : Registered) :
    (generationOf result).2.isSome = registerChanged (.ok result) := by cases result <;> rfl

theorem silent_begin (host : Host) (tested : TestedClis) (s : MailboxState) (limits : Limits) (stopBlockMax : ℕ)
    (call : HookCall) (now : Timestamp) (ids : IdSource) :
    Holding.Silent s (begin host tested s limits stopBlockMax call now ids) := by
  rw [begin]
  split
  · exact MailboxState.Silent.refl s _
  · rename_i payload hparse
    split
    · exact MailboxState.Silent.refl s _
    · split
      · exact MailboxState.Silent.refl s _
      · split
        · exact MailboxState.Silent.refl s _
        · split
          · exact MailboxState.Silent.refl s _
          · have hregister := silent_register s limits (call.request host payload)
              (s.bindings[call.writer]?.map fun binding => host.judgeStored binding call.head.process) now ids
            dsimp only
            generalize s.register limits (call.request host payload)
              (s.bindings[call.writer]?.map fun binding => host.judgeStored binding call.head.process) now ids = r at hregister ⊢
            obtain ⟨result, s', ids'⟩ := r
            cases result with
            | error refusal => exact hregister
            | ok result =>
              refine silent_enter s' limits stopBlockMax call _ _ _ _ now ids' ?_
              rw [isSome_generationOf]
              exact hregister

end Hook

/-! ### Every operation that reports -/

/-- An operation that reports whether it changed the record. -/
inductive Reporting
  | claim (key : WriterKey) (generation : Generation) (checkpoint : Checkpoint) (now : Timestamp)
  | finish (key : WriterKey) (generation : Generation) (token : AttemptToken) (now : Timestamp)
  | register (req : RegisterRequest) (judged : Option StoredHead) (now : Timestamp)
  | noteStop (key : WriterKey) (generation : Generation) (blocked : Bool)
  | advanceRemoteCursor (cursor : Table ℕ)
  | clearRemoteRefusals (told : List String)
  | markRemoteSettled (told : List MessageId)
  | begin (host : Hook.Host) (tested : Hook.TestedClis) (stopBlockMax : ℕ) (call : Hook.HookCall) (now : Timestamp)

namespace Reporting

/-- Whether the operation reports a change, and the record it leaves. -/
def run (limits : Limits) (s : MailboxState) (ids : IdSource) : Reporting → Bool × MailboxState
  | claim key generation checkpoint now =>
    let (taken, s, _) := s.claim limits key generation checkpoint now ids
    (taken.changed, s)
  | finish key generation token now =>
    let (finished, s) := s.finish key generation token now
    (finished.changed, s)
  | register req judged now =>
    let (result, s, _) := s.register limits req judged now ids
    (MailboxState.registerChanged result, s)
  | noteStop key generation blocked => s.noteStop key generation blocked
  | advanceRemoteCursor cursor => s.advanceRemoteCursor cursor
  | clearRemoteRefusals told => s.clearRemoteRefusals told
  | markRemoteSettled told => s.markRemoteSettled told
  | begin host tested stopBlockMax call now =>
    let (begun, s, _) := Hook.begin host tested s limits stopBlockMax call now ids
    (begun.stateChanged, s)

/-- Whether the operation moves the ingest cursor to a position that notes an origin at zero. -/
def NotesOrigin (s : MailboxState) : Reporting → Prop
  | advanceRemoteCursor cursor => s.NotesOrigin cursor
  | _ => False

/-- An operation that reports no change leaves the record as it was, unless it notes an origin of mail at zero. -/
theorem unchanged_iff (limits : Limits) (s : MailboxState) (ids : IdSource) (op : Reporting) :
    ((op.run limits s ids).1 = false → (op.run limits s ids).2 = s) ↔ ¬op.NotesOrigin s := by
  cases op with
  | advanceRemoteCursor cursor => exact MailboxState.silent_advanceRemoteCursor_iff s cursor
  | claim key generation checkpoint now =>
    exact iff_of_true (MailboxState.silent_claim s limits key generation checkpoint now ids) id
  | finish key generation token now => exact iff_of_true (MailboxState.silent_finish s key generation token now) id
  | register req judged now => exact iff_of_true (MailboxState.silent_register s limits req judged now ids) id
  | noteStop key generation blocked => exact iff_of_true (MailboxState.silent_noteStop s key generation blocked) id
  | clearRemoteRefusals told => exact iff_of_true (MailboxState.silent_clearRemoteRefusals s told) id
  | markRemoteSettled told => exact iff_of_true (MailboxState.silent_markRemoteSettled s told) id
  | begin host tested stopBlockMax call now =>
    exact iff_of_true (Hook.silent_begin host tested s limits stopBlockMax call now ids) id

/-- The first message of a machine is held back, so the ingest cursor notes the machine's store at zero: nothing is
reported, yet the record is another. -/
theorem origin_noted_silently : ¬∀ (limits : Limits) (s : MailboxState) (ids : IdSource) (op : Reporting),
      (op.run limits s ids).1 = false → (op.run limits s ids).2 = s := by
  intro hsilent
  have hbaselined : ((MailboxState.new.advanceRemoteCursor ∅).2.advanceRemoteCursor
      ((∅ : Table ℕ).insert "m" 0)).1 = false := by decide
  have hsame := hsilent Sample.limits (MailboxState.new.advanceRemoteCursor ∅).2 Sample.ids
    (.advanceRemoteCursor ((∅ : Table ℕ).insert "m" 0)) hbaselined
  have hnoted : ((MailboxState.new.advanceRemoteCursor ∅).2.advanceRemoteCursor
      ((∅ : Table ℕ).insert "m" 0)).2.remote.cursor.size = 1 := by decide
  have hempty : (MailboxState.new.advanceRemoteCursor ∅).2.remote.cursor.size = 0 := by decide
  have hsizes := congrArg (fun s => s.remote.cursor.size) hsame
  exact absurd (hnoted.symm.trans (hsizes.trans hempty)) (by decide)

end Reporting

end Forgent.Mailbox
