import Forgent.GitWalFiles

/-!
# An operation id stays bound to its first request

What every call knows at each of its steps, and from it: whatever begin is acknowledged, the id is bound to its request, and
a begin after that is never the first one again.
-/

namespace Forgent.GitWal

variable {κ φ : Type} (crate : Crate κ φ) (timely : Prop)

/-! ### What a call knows -/

/-- The errors of a begin that was admitted. -/
def Plain (err : WalError) : Prop := err = .io ∨ err = .corrupt ∨ err = .operationIdConflict

/-- A record zero that is read now is the one that binds the id. -/
def Sure (s : Store κ φ) : Prop := timely ∨ s.ledger = none

/-- An open directory has the name of the id as long as there is no ledger entry. -/
def Handle (s : Store κ φ) (d : ℕ) : Prop := s.ledger = none → s.root = some d

/-- The first record that was read. -/
def Head (s : Store κ φ) (records : List (Record κ φ)) : Prop :=
  ∀ r, records.head? = some r → (∃ i, r.phase = .intent i ∧ i.repoIdentity = crate.identity) ∧
    (Sure timely s → bound crate s = keyOfRecord crate r)

/-- A chain that was read. -/
def Chained (s : Store κ φ) (records : List (Record κ φ)) : Prop :=
  ∃ i, chainIntent records = some i ∧ (Sure timely s → bound crate s = some (key crate i))

def InspectHolds (s : Store κ φ) : Inspecting κ φ → Prop
  | .opening => True
  | .listing d => Handle s d
  | .reading d _ records => Handle s d ∧ Head crate timely s records
  | .done (.ok records) => Chained crate timely s records
  | .done (.error err) => Plain err

/-- What a begin that ended knows. -/
def Ended (s : Store κ φ) (intent : Intent κ) : Except WalError (Begin κ φ) → Prop
  | .ok (.created _) => bound crate s = some (key crate intent)
  | .ok (.existing _) => Sure timely s → bound crate s = some (key crate intent)
  | .ok (.compacted _) => bound crate s = some (key crate intent)
  | .error err => Plain err

def BeginHolds (s : Store κ φ) (intent : Intent κ) : Beginning κ φ → Prop
  | .admitting => True
  | .notAdmitted _ => True
  | .looking => intent.repoIdentity = crate.identity
  | .making => intent.repoIdentity = crate.identity
  | .opening => intent.repoIdentity = crate.identity
  | .lookingAgain d => intent.repoIdentity = crate.identity ∧ Handle s d
  | .probing d => intent.repoIdentity = crate.identity ∧ Handle s d
  | .writing d => intent.repoIdentity = crate.identity ∧ Handle s d
  | .linking d => intent.repoIdentity = crate.identity ∧ Handle s d
  | .existing inspecting _ => InspectHolds crate timely s inspecting
  | .fallback err => Plain err
  | .clearing _ created => created = true → s.ledger = none → bound crate s = some (key crate intent)
  | .lookingLast created => created = true → s.ledger = none → bound crate s = some (key crate intent)
  | .done outcome => Ended crate timely s intent outcome

def AppendHolds (s : Store κ φ) (chain : List (Record κ φ)) : Appending κ φ → Prop
  | .validating => True
  | .done _ => True
  | .inspecting inspecting => chain ≠ [] ∧ InspectHolds crate timely s inspecting
  | .opening => chain ≠ []
  | .writing _ => chain ≠ []
  | .linking _ => chain ≠ []
  | .clearing _ _ => chain ≠ []

def CompactHolds (s : Store κ φ) : Compacting κ φ → Prop
  | .authorizing => True
  | .done _ => True
  | .inspecting inspecting => InspectHolds crate timely s inspecting
  | .opening actual => Chained crate timely s actual
  | .listing actual _ => Chained crate timely s actual
  | .entering _ c => Sure timely s → bound crate s = some (c.request, c.binding)
  | .comparing _ _ => True
  | .reopening _ _ => s.ledger ≠ none
  | .removing _ _ => s.ledger ≠ none

def ResumeHolds (s : Store κ φ) : Resuming κ φ → Prop
  | .authorizing => True
  | .looking => True
  | .done _ => True
  | _ => s.ledger ≠ none

def Holds (s : Store κ φ) : Call κ φ → Prop
  | .begin intent phase => BeginHolds crate timely s intent phase
  | .append chain _ phase => AppendHolds crate timely s chain phase
  | .compact _ phase => CompactHolds crate timely s phase
  | .resume _ phase => ResumeHolds s phase

section Keeps

variable {crate} {timely} {s s' : Store κ φ} (h : Keeps crate s s') {records : List (Record κ φ)}
include h

theorem Sure.of_keeps (hs : Sure timely s') : Sure timely s := hs.imp_right h.ledger_none

theorem Handle.keeps {d : ℕ} (hd : Handle s d) : Handle s' d := fun hnone => h.root d hnone (hd (h.ledger_none hnone))

theorem sure_bound_keeps {k : String × String} (hk : Sure timely s → bound crate s = some k) (hs : Sure timely s') :
    bound crate s' = some k := h.bound k (hk (Sure.of_keeps h hs))

theorem Head.keeps (hhead : Head crate timely s records) : Head crate timely s' records := by
  intro r hr
  obtain ⟨⟨i, hphase, hidentity⟩, hbound⟩ := hhead r hr
  have hkey : keyOfRecord crate r = some (key crate i) := by rw [keyOfRecord, hphase]
  refine ⟨⟨i, hphase, hidentity⟩, fun hs => ?_⟩
  rw [hkey] at hbound ⊢
  exact sure_bound_keeps h hbound hs

theorem Chained.keeps (hchained : Chained crate timely s records) : Chained crate timely s' records := by
  obtain ⟨i, hi, hbound⟩ := hchained
  exact ⟨i, hi, sure_bound_keeps h hbound⟩

theorem InspectHolds.keeps {inspecting : Inspecting κ φ} (hi : InspectHolds crate timely s inspecting) :
    InspectHolds crate timely s' inspecting := by
  cases inspecting with
  | opening => trivial
  | listing d => exact Handle.keeps h hi
  | reading d left records => exact ⟨Handle.keeps h hi.1, Head.keeps h hi.2⟩
  | done outcome =>
    cases outcome with
    | ok records => exact Chained.keeps h hi
    | error err => exact hi

theorem BeginHolds.keeps {intent : Intent κ} {phase : Beginning κ φ} (hb : BeginHolds crate timely s intent phase) :
    BeginHolds crate timely s' intent phase := by
  cases phase with
  | lookingAgain d | probing d | writing d | linking d => exact ⟨hb.1, Handle.keeps h hb.2⟩
  | existing inspecting lost => exact InspectHolds.keeps h hb
  | clearing d created | lookingLast created => exact fun hcreated hnone => h.bound _ (hb hcreated (h.ledger_none hnone))
  | done outcome =>
    cases outcome with
    | error err => exact hb
    | ok begun =>
      cases begun with
      | created r | compacted c => exact h.bound _ hb
      | existing records => exact sure_bound_keeps h hb
  | _ => exact hb

theorem ledger_keeps (hledger : s.ledger ≠ none) : s'.ledger ≠ none := fun hnone => hledger (h.ledger_none hnone)

theorem Holds.keeps {k : Call κ φ} (hk : Holds crate timely s k) : Holds crate timely s' k := by
  cases k with
  | begin intent phase => exact BeginHolds.keeps h hk
  | append chain recorded phase =>
    cases phase with
    | inspecting inspecting => exact ⟨hk.1, InspectHolds.keeps h hk.2⟩
    | _ => exact hk
  | compact chain phase =>
    cases phase with
    | inspecting inspecting => exact InspectHolds.keeps h hk
    | opening actual | listing actual d => exact Chained.keeps h hk
    | entering actual c => exact sure_bound_keeps h hk
    | reopening actual c | removing c removing => exact ledger_keeps h hk
    | _ => trivial
  | resume intent phase =>
    cases phase with
    | authorizing | looking | done outcome => trivial
    | _ => exact ledger_keeps h hk

end Keeps

end Forgent.GitWal
