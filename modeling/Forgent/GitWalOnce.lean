import Forgent.GitWalSteps

/-!
# An acknowledged begin binds the id for good

Two acknowledged begins of one id ask for the same thing, and only the first answers that it was created.  For a land the
destination stands for the whole resource set.
-/

namespace Forgent.GitWal

open Option

section

variable {κ φ : Type} {crate : Crate κ φ} {timely : Prop} {s s' : Store κ φ} {intent : Intent κ} {begun : Begin κ φ}
  {k : Call κ φ}

/-- Intents that ask for the same operation. -/
structure Alike (i j : Intent κ) : Prop where
  requestDigest : i.requestDigest = j.requestDigest
  authorityBinding : i.authorityBinding = j.authorityBinding
  expected : i.expected = j.expected
  next : i.next = j.next
  resources : i.resourceSet = j.resourceSet ∨
    (∃ p q, i.kind = .land p ∧ j.kind = .land q) ∧ i.resourceSet.head? = j.resourceSet.head?

theorem alike_of_binding {i j : Intent κ} (hrequest : i.requestDigest = j.requestDigest) (hbinding : bindingOf i = bindingOf j) :
    Alike i j := by
  unfold bindingOf at hbinding
  cases hi : i.kind with
  | land p =>
    cases hj : j.kind with
    | land q =>
      rw [hi, hj] at hbinding
      injection hbinding with _ hdestination hauthority _ hexpected hnext _
      exact ⟨hrequest, hauthority, hexpected, hnext, .inr ⟨⟨p, q, hi, hj⟩, hdestination⟩⟩
    | other q =>
      rw [hi, hj] at hbinding
      cases hbinding
  | other p =>
    cases hj : j.kind with
    | land q =>
      rw [hi, hj] at hbinding
      cases hbinding
    | other q =>
      rw [hi, hj] at hbinding
      injection hbinding with _ hresources hauthority hexpected hnext _
      exact ⟨hrequest, hauthority, hexpected, hnext, .inl hresources⟩

/-- An acknowledgement that stands in any case; that of an existing chain only where no record zero is installed late. -/
def Certain (timely : Prop) : Begin κ φ → Prop
  | .existing _ => timely
  | _ => True

theorem Ended.binds (h : Ended crate timely s intent (.ok begun))
    (hcertain : Certain timely begun) : bound crate s = some (key crate intent) := by
  cases begun with
  | created r => exact h
  | existing records => exact h (.inl hcertain)
  | compacted c => exact h

theorem Ended.bound_ne (h : Ended crate timely s intent (.ok begun)) : bound crate s ≠ none := by
  cases hledger : s.ledger with
  | some c => rw [bound_of_ledger hledger]; simp
  | none =>
    have hsome : bound crate s = some (key crate intent) := by
      cases begun with
      | created r => exact h
      | existing records => exact h (.inr hledger)
      | compacted c => exact h
    rw [hsome]
    simp

/-! ### A begin after the id was bound -/

/-- A begin that can no more answer that it was created. -/
def NotFirst (s : Store κ φ) : Call κ φ → Prop
  | .begin _ (.clearing _ true) => s.ledger ≠ none
  | .begin _ (.lookingLast true) => s.ledger ≠ none
  | .begin _ (.done (.ok (.created _))) => False
  | _ => True

theorem NotFirst.keeps (h : Keeps crate s s') (hk : NotFirst s k) : NotFirst s' k := by
  unfold NotFirst at hk ⊢
  split at hk
  · exact ledger_keeps h hk
  · exact ledger_keeps h hk
  · exact hk
  · trivial

theorem ledger_of_link {d : ℕ} {r : Record κ φ} (h : Inv crate timely s) (hbound : bound crate s ≠ none) (hzero : r.sequence = 0)
    (hphase : ∃ i, r.phase = .intent i ∧ i.repoIdentity = crate.identity) (hlate : timely → s.ledger = none)
    (hlink : s.link d r = some (true, s')) : s'.ledger ≠ none := by
  intro hnone
  obtain ⟨-, -, hcreated⟩ := h.link hlink (fun _ => hphase) (fun _ => hlate)
  obtain ⟨hroot, hfree, -, hledger, -⟩ := hcreated rfl
  apply hbound
  rw [bound, ← hledger, hnone, hroot]
  show (s.record d 0).bind _ = none
  rw [← hzero, hfree]
  rfl

theorem NotFirst.begin_step {input : Input} {phase phase' : Beginning κ φ} (h : Inv crate timely s)
    (hb : BeginHolds crate timely s intent phase) (hlate : timely → ¬ Late s (Call.begin intent phase : Call κ φ))
    (hbound : bound crate s ≠ none) (hk : NotFirst s (Call.begin intent phase : Call κ φ))
    (hnext : beginNext s crate input intent phase = some (s', phase')) :
    NotFirst s' (Call.begin intent phase' : Call κ φ) := by
  have hstay : ∀ {phase₁ : Beginning κ φ}, some (s, phase₁) = some (s', phase') →
      NotFirst s (Call.begin intent phase₁ : Call κ φ) → NotFirst s' (Call.begin intent phase' : Call κ φ) := by
    intro phase₁ heq hnot
    cases heq
    exact hnot
  have hanswer : ∀ c, NotFirst s (Call.begin intent (.done (answer crate intent c)) : Call κ φ) := by
    intro c
    unfold answer
    split <;> trivial
  cases phase with
  | admitting =>
    rw [beginNext] at hnext
    split at hnext
    · exact hstay hnext trivial
    · split at hnext
      · exact hstay hnext trivial
      · split at hnext <;> exact hstay hnext trivial
  | looking =>
    rw [beginNext] at hnext
    split at hnext
    · exact hstay hnext trivial
    · next c _ => exact hstay hnext (hanswer c)
    · split at hnext <;> exact hstay hnext trivial
  | making =>
    cases hnext
    trivial
  | opening | probing d =>
    rw [beginNext] at hnext
    split at hnext <;> exact hstay hnext trivial
  | lookingAgain d | fallback err =>
    rw [beginNext] at hnext
    split at hnext
    · exact hstay hnext trivial
    · next c _ => exact hstay hnext (hanswer c)
    · exact hstay hnext trivial
  | existing inspecting lost =>
    cases inspecting with
    | done outcome =>
      cases outcome with
      | ok records =>
        rw [beginNext] at hnext
        split at hnext
        · next begun hbegun =>
          refine hstay hnext ?_
          unfold sameRequest at hbegun
          split at hbegun
          · cases hbegun
          · split at hbegun
            · cases hbegun
              trivial
            · cases hbegun
        · split at hnext <;> exact hstay hnext trivial
      | error err =>
        rw [beginNext] at hnext
        split at hnext <;> exact hstay hnext trivial
    | _ => exact hstay hnext trivial
  | writing d =>
    rw [beginNext] at hnext
    split at hnext
    · exact hstay hnext trivial
    · cases hnext
      trivial
  | linking d =>
    rw [beginNext] at hnext
    split at hnext
    · exact hstay hnext trivial
    · next created s₁ hlink =>
      cases hnext
      cases created with
      | false => trivial
      | true =>
        exact ledger_of_link h hbound rfl ⟨intent, rfl, hb.1⟩ (fun ht => not_not.mp (hlate ht)) hlink
  | clearing d created =>
    cases hnext
    cases created with
    | false => trivial
    | true => exact hk
  | lookingLast created =>
    rw [beginNext] at hnext
    split at hnext
    · exact hstay hnext trivial
    · next c _ => exact hstay hnext (hanswer c)
    · next hnone =>
      cases created with
      | false => exact hstay hnext trivial
      | true => exact absurd (compacted_none hnone) hk
  | notAdmitted err | done outcome => cases hnext

theorem notFirst_step {k' : Call κ φ} (h : Inv crate timely s) (hholds : Holds crate timely s k) (hbound : bound crate s ≠ none)
    (hk : NotFirst s k) (hstep : (wal crate timely).step s k s' k') : NotFirst s' k' := by
  cases hstep with
  | inl hfailed =>
    obtain ⟨rfl, rfl⟩ := hfailed
    cases k with
    | begin intent phase =>
      cases phase with
      | done outcome => exact hk
      | _ => trivial
    | append chain recorded phase | compact chain phase | resume intent phase => cases phase <;> trivial
  | inr hmoves =>
    obtain ⟨hlate, input, hnext⟩ := hmoves
    cases k with
    | begin intent phase =>
      obtain ⟨⟨s₁, phase'⟩, hbegin, heq⟩ := map_eq_some_iff.mp hnext
      cases heq
      exact NotFirst.begin_step h hholds hlate hbound hk hbegin
    | append chain recorded phase | compact chain phase | resume intent phase =>
      obtain ⟨⟨s₁, phase'⟩, -, heq⟩ := map_eq_some_iff.mp hnext
      cases heq
      trivial

theorem bound_keeps (h : Keeps crate s s') (hbound : bound crate s ≠ none) : bound crate s' ≠ none := by
  obtain ⟨k, hk⟩ := ne_none_iff_exists'.mp hbound
  rw [h.bound k hk]
  simp

/-- **An operation id stays bound to its first request.**  After a begin of the id was acknowledged, a begin that starts later
never answers that it was created; when it is admitted and asks for something else it ends in a conflict or in an I/O or
corruption error. -/
theorem id_stays_bound (crate : Crate κ φ) (timely : Prop) {w w' : Interleave.World (Store κ φ) (Call κ φ)}
    (hrun : (wal crate timely).Run (initial κ φ) w) {a b : ℕ} {i j : Intent κ} {begun : Begin κ φ}
    {outcome : Except WalError (Begin κ φ)} (hacknowledged : w.calls[a]? = some (.begin i (.done (.ok begun))))
    (hlater : (wal crate timely).Run w w') (hb : w.calls.length ≤ b) (hended : w'.calls[b]? = some (.begin j (.done outcome)))
    (hdigest : crate.bindingDigest (bindingOf i) = crate.bindingDigest (bindingOf j) → bindingOf i = bindingOf j) :
    (∀ r, outcome ≠ .ok (.created r)) ∧ (∀ err, outcome = .error err → Plain err) ∧
      ∀ begun', outcome = .ok begun' → Certain timely begun → Certain timely begun' → Alike i j := by
  have houtline := wal_outline crate timely
  have hw := houtline.run (outlined_initial crate timely) hrun
  have hw' := houtline.run hw hlater
  have hfirst : Ended crate timely w.store i (.ok begun) := hw.2 _ (List.mem_of_getElem? hacknowledged)
  have hsecond : Ended crate timely w'.store j outcome := hw'.2 _ (List.mem_of_getElem? hended)
  have hkept : ∀ {u}, (wal crate timely).Run w u → Keeps crate w.store u.store := fun hu =>
    houtline.rely_run Keeps.refl (fun h h' => h.trans h') hw hu
  refine ⟨fun r hr => ?_, fun err herr => ?_, fun begun' hbegun hcertain hcertain' => ?_⟩
  · have hnot := houtline.later
      (fun s k => bound crate s ≠ none ∧ NotFirst s k)
      (fun hu hbegins => ⟨bound_keeps (hkept hu) hfirst.bound_ne, by cases hbegins <;> trivial⟩)
      (fun hinv hholds hnot hstep =>
        ⟨bound_keeps (houtline.step hinv hholds hstep).2.2 hnot.1, notFirst_step hinv hholds hnot.1 hnot.2 hstep⟩)
      (fun _ _ hnot hkeeps => ⟨bound_keeps hkeeps hnot.1, hnot.2.keeps hkeeps⟩)
      hw hlater b _ hb hended
    subst hr
    exact hnot.2
  · subst herr
    exact hsecond
  · subst hbegun
    have hi := (hkept hlater).bound _ (hfirst.binds hcertain)
    have hj := hsecond.binds hcertain'
    obtain ⟨hrequest, hbinding⟩ := Prod.mk.inj (Option.some.inj (hi.symm.trans hj))
    exact alike_of_binding hrequest (hdigest hbinding)

end

/-! ### Three calls on one id -/

namespace ThreeCalls

abbrev Here := Interleave.World (Store String String) (Call String String)

/-- A crate that admits and compacts whatever it is given, of the repository `repo`. -/
def permissive : Crate String String where
  id := "land-1"
  identity := "repo"
  bindingDigest
    | .land _ destination _ _ _ _ _ => destination.getD ""
    | .other _ _ authorityBinding _ _ _ => authorityBinding
  recordDigest r :=
    match r.phase with
    | .intent i => i.requestDigest
    | .later p => p
  ledgerDigest c := c.request
  validateIntent _ := true
  validateTransition _ _ := true
  mayCompact _ := true
  compactOutcome _ := some []
  entryVersion _ := 2
  entryReference _ := none
  entryValid _ := true
  entryFits _ := true
  recordFits _ := true
  suffixEnds _ := true

def landing : Intent String :=
  ⟨.land "candidate", "request-1", "repo", ["refs/heads/main", "worktree:/w"], "authority", "writer", .sha1, .oid "aa", .oid "bb"⟩

def custody : Intent String := { landing with resourceSet := ["refs/heads/main", "worktree:/w:custody:/lock"] }

def another : Intent String := { landing with requestDigest := "request-2" }

def elsewhere : Intent String := { landing with repoIdentity := "other" }

inductive Event where
  | begin (intent : Intent String)
  | append (chain : List (Record String String)) (recorded : String)
  | compact (chain : List (Record String String))
  | step (i : ℕ)

def late (s : Store String String) : Call String String → Bool
  | .begin _ (.linking _) => s.ledger.isSome
  | _ => false

/-- One event: a call starts, or takes a step that nothing refuses; with `timely` no step is late. -/
def happen (timely : Bool) (w : Here) : Event → Option Here
  | .begin intent => some ⟨w.store, w.calls ++ [.begin intent .admitting]⟩
  | .append chain recorded => some ⟨w.store, w.calls ++ [.append chain recorded .validating]⟩
  | .compact chain => some ⟨w.store, w.calls ++ [.compact chain .authorizing]⟩
  | .step i => do
    let k ← w.calls[i]?
    if timely && late w.store k then none
    else
      let (s, k') ← next w.store permissive ⟨none, true⟩ k
      some ⟨s, w.calls.set i k'⟩

variable {k : Call String String} {w : Here}

theorem not_late {s : Store String String} (h : late s k = false) : ¬ Late s k := by
  intro hlate
  unfold Late at hlate
  split at hlate
  · exact hlate (by simpa [late] using h)
  · exact hlate

theorem next_of_happen {timely : Bool} {w' : Here} {event : Event} (h : happen timely w event = some w') :
    (wal permissive (timely = true)).Next w w' := by
  cases event with
  | begin intent =>
    cases h
    exact .begin (Begins.begin _)
  | append chain recorded =>
    cases h
    exact .begin (Begins.append _ _)
  | compact chain =>
    cases h
    exact .begin (Begins.compact _)
  | step i =>
    obtain ⟨k, hk, hrest⟩ := bind_eq_some_iff.mp h
    split at hrest
    · cases hrest
    · next hlate =>
      obtain ⟨⟨s, k'⟩, hnext, hworld⟩ := bind_eq_some_iff.mp hrest
      cases hworld
      refine .step hk (.inr ⟨fun ht => not_late ?_, _, hnext⟩)
      rw [ht, Bool.true_and] at hlate
      exact Bool.eq_false_of_not_eq_true hlate

theorem run_to (timely : Bool) (events : List Event) {i : ℕ}
    (h : ((events.foldlM (happen timely) w).bind fun w' => w'.calls[i]?) = some k) :
    ∃ w', (wal permissive (timely = true)).Run w w' ∧ w'.calls[i]? = some k := by
  obtain ⟨w', hw', hk⟩ := bind_eq_some_iff.mp h
  exact ⟨w', Interleave.run_of_foldlM next_of_happen events hw', hk⟩

def start : Here := initial String String

def steps (i n : ℕ) : List Event := List.replicate n (.step i)

def recordZero (intent : Intent String) : Record String String := makeRecord permissive 0 none (.intent intent)

def recordOne : Record String String := nextRecord permissive [recordZero landing] "done"

def files (records : List (ℕ × Record String String)) : Store String String := ⟨none, some 0, [⟨true, records, 0⟩]⟩

def created : Here :=
  ⟨files [(0, recordZero landing)], [.begin landing (.done (.ok (.created (recordZero landing))))]⟩

theorem run_created (timely : Bool) : (wal permissive (timely = true)).Run start created := by
  have hrun : (.begin landing :: steps 0 10 : List Event).foldlM (happen timely) start = some created := by
    cases timely <;> rfl
  exact Interleave.run_of_foldlM next_of_happen _ hrun

theorem run_custody (timely : Bool) : ∃ w, (wal permissive (timely = true)).Run created w ∧
    w.calls[1]? = some (.begin custody (.done (.ok (.existing [recordZero landing])))) := by
  cases timely
  · exact run_to false (.begin custody :: steps 1 11) (by rfl)
  · exact run_to true (.begin custody :: steps 1 11) (by rfl)

/-- One begin of another request has listed the records, and one has looked at the ledger twice, when the operation is
appended to and compacted; then the one installs record zero, and the other reads it. -/
def race : List Event :=
  .begin another :: steps 1 8 ++ .begin another :: steps 2 5 ++ .append [recordZero landing] "done" :: steps 3 10 ++
    .compact [recordZero landing, recordOne] :: steps 4 13 ++ steps 2 3 ++ steps 1 3

theorem run_race : ∃ w, (wal permissive (false = true)).Run created w ∧
    w.calls[1]? = some (.begin another (.done (.ok (.existing [recordZero another])))) :=
  run_to false race (by rfl)

theorem run_elsewhere : ∃ w, (wal permissive (false = true)).Run created w ∧
    w.calls[1]? = some (.begin elsewhere (.notAdmitted .untrusted)) :=
  run_to false (.begin elsewhere :: steps 1 1) (by rfl)

end ThreeCalls

open ThreeCalls in
theorem id_stays_bound_custody : Alike landing custody := by
  obtain ⟨w, hlater, hended⟩ := run_custody true
  exact (id_stays_bound permissive (true = true) (run_created true) (a := 0) rfl hlater (Nat.le_refl 1) hended fun _ => rfl).2.2
    _ rfl trivial rfl

open ThreeCalls in
/-- A landing with another resource set is answered with the chain; so is, in a race with a compaction, one with another
request; and one of another repository is refused as such. -/
theorem existing_for_another : (∃ w w', (wal permissive False).Run start w ∧ (wal permissive False).Run w w' ∧
      w.calls = [.begin landing (.done (.ok (.created (recordZero landing))))] ∧
      w'.calls[1]? = some (.begin custody (.done (.ok (.existing [recordZero landing])))) ∧
      custody.resourceSet ≠ landing.resourceSet) ∧
    (∃ w w', (wal permissive False).Run start w ∧ (wal permissive False).Run w w' ∧
      w.calls = [.begin landing (.done (.ok (.created (recordZero landing))))] ∧
      w'.calls[1]? = some (.begin another (.done (.ok (.existing [recordZero another])))) ∧
      another.requestDigest ≠ landing.requestDigest) ∧
    ∃ w w', (wal permissive False).Run start w ∧ (wal permissive False).Run w w' ∧
      w.calls = [.begin landing (.done (.ok (.created (recordZero landing))))] ∧
      w'.calls[1]? = some (.begin elsewhere (.notAdmitted .untrusted)) := by
  have hfalse : (false = true) = False := by simp
  have hcreated := run_created false
  obtain ⟨w₁, hcustody, hended₁⟩ := run_custody false
  obtain ⟨w₂, hrace, hended₂⟩ := run_race
  obtain ⟨w₃, helsewhere, hended₃⟩ := run_elsewhere
  rw [hfalse] at hcreated hcustody hrace helsewhere
  exact ⟨⟨created, w₁, hcreated, hcustody, rfl, hended₁, by decide⟩, ⟨created, w₂, hcreated, hrace, rfl, hended₂, by decide⟩,
    created, w₃, hcreated, helsewhere, rfl, hended₃⟩

end Forgent.GitWal
