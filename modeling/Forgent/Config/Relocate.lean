import Forgent.Config.Concurrent
import Forgent.Config.Removal

/-!
# Moving keys out of the global file

`copy` and `finish` of `packages/config/rust/src/relocate.rs` step by step, on a machine whose global file is a JSON one, at
the same time as other transactions.  `copy` fills the destinations and verifies them; `finish` holds the lock of the global
scope from its first read to the rewrite.  Any call can be stopped for good after any step, which gives its lock back.
-/

namespace Forgent.Config

/-- The global JSON file; a parsed mapping has each key once. -/
structure Source where
  file : File
  unique : uniqueKeys file.json = true

structure Machine where
  project : Option File
  source : Source
  accounts : Option File
  trusted : Option Json
  token : Option String
  /-- The backups of the source, by their names. -/
  backups : List (String × String)
  locked : Lock → Bool

def Machine.files (m : Machine) : Files := ⟨m.project, some m.source.file, m.accounts, m.trusted, m.token.isSome⟩

/-- The machine as a transaction sees it. -/
def Machine.shared (m : Machine) : Shared := ⟨m.files, m.locked⟩

/-- The machine as the transaction of a copy sees it: no project file. -/
def Machine.withoutProject (m : Machine) : Shared := ⟨{ m.files with project := none, trusted := none }, m.locked⟩

def valueOf (file : Option File) : Json := (file.map File.json).getD .null

/-- What a call returns: the paths, and whether the rewrite changed the format beyond the removal. -/
structure Moved where
  paths : List Path
  reformatted : Bool
deriving DecidableEq

inductive Copying where
  | starting (confined : Bool)
  | opened (found : List Key)
  | tokenRead (found : List Key) (token : Option String)
  | filling (found left : List Key) (dest : Dest) (edits : List Edit)
  | ensuring (found : List Key) (text : String) (left : List Key) (dest : Dest) (edits : List Edit)
  | writing (found : List Key) (req : Request) (phase : Committing)
  | written (found : List Key)
  | verifying (found : List Key) (token : Option String)
  | done (outcome : Except (List Refusal) Moved)

inductive Finishing where
  | starting (machineChecked confined : Bool)
  | waiting
  | holding
  | opened (source : Source) (found : List Key)
  | tokenRead (source : Source) (found : List Key) (token : Option String)
  | checked (source : Source) (found : List Key)
  | backedUp (source : Source) (found : List Key)
  | rewriting (source : Source) (found : List Key)
  | releasing (outcome : Except (List Refusal) Moved)
  | done (outcome : Except (List Refusal) Moved)

inductive Call where
  | write (c : Commit)
  | copy (phase : Copying)
  | finish (phase : Finishing)
  | stopped

def paths (found : List Key) : List Path := found.map Key.path

def leafEntries (found : List Key) : List (Path × Json) := found.flatMap fun key => leaves key.path key.value

def leafEdits (found : List Key) : List Edit := (leafEntries found).map fun entry => .set entry.1 entry.2

/-- The write of a copy, computed against the accounts file as the copy read it. -/
def copyRequest (dest : Dest) (edits : List Edit) : Request := ⟨.accounts, edits, true, dest.revision, false, false⟩

def Machine.take (m : Machine) (lock : Lock) : Machine := { m with locked := fun other => other = lock || m.locked other }

def Machine.release (m : Machine) (lock : Option Lock) : Machine :=
  { m with locked := fun other => some other ≠ lock && m.locked other }

section

variable (ctx : Context) (ed : Editor) (c : Codec) (render : Json → String)

def destOf (token : Option String) (accounts : Option File) : Dest :=
  ⟨token, valueOf accounts, accounts.map fun file => ed.revision file.text⟩

def Machine.dest (m : Machine) : Dest := destOf ed m.token m.accounts

/-- One step of a copy; `gives` says whether it gives up the wait for a lock. -/
def copyNext (m : Machine) (gives : Bool) : Copying → Option (Machine × Copying)
  | .starting confined =>
    if confined then some (m, .done (.error [refusal "config-write-confined" []]))
    else match keys ctx.schemas m.source.file.json with
      | .error refused => some (m, .done (.error refused))
      | .ok found => some (m, .opened found)
  | .opened found => some (m, .tokenRead found m.token)
  | .tokenRead found token =>
    let dest := destOf ed token m.accounts
    match states c found dest true with
    | .error refused => some (m, .done (.error refused))
    | .ok all => some (m, .filling found (missingOf found all) dest [])
  | .filling found (key :: left) dest edits =>
    if key.token then
      if m.locked .globalConfig then
        if gives then some (m, .done (.error [conflict "lock-held"])) else none
      else some (m.take .globalConfig, .ensuring found (key.value.asStr.getD "") left dest edits)
    else some (m, .filling found left dest (edits ++ leafEdits [key]))
  | .filling found [] dest edits =>
    if edits.isEmpty then some (m, .written found) else some (m, .writing found (copyRequest dest edits) .starting)
  | .ensuring found text left dest edits =>
    -- The token is created only when it is missing.
    some ({ m with token := some (m.token.getD text) }.release (some .globalConfig), .filling found left dest edits)
  | .writing found _ (.done (.ok _)) => some (m, .written found)
  | .writing _ _ (.done (.error refused)) => some (m, .done (.error refused))
  | .writing found req phase => (commitNext ctx ed m.withoutProject req gives phase).map fun (s, phase) =>
    ({ m with accounts := s.files.accounts, locked := s.locked }, .writing found req phase)
  | .written found => some (m, .verifying found m.token)
  | .verifying found token =>
    match states c found (destOf ed token m.accounts) false with
    | .error refused => some (m, .done (.error refused))
    | .ok _ => some (m, .done (.ok ⟨paths found, false⟩))
  | .done _ => none

def Source.without (source : Source) (found : List Key) : Source where
  file := ⟨render (removeAll source.file.json (paths found)), removeAll source.file.json (paths found)⟩
  unique := uniqueKeys_removeAll source.unique

def backupName (source : Source) : String := String.ofList ((ed.revision source.file.text).toList.take 16) ++ "-config.json"

def finishNext (m : Machine) (gives : Bool) : Finishing → Option (Machine × Finishing)
  | .starting machineChecked confined =>
    if !machineChecked then some (m, .done (.error [refusal "config-machine-check-required" []]))
    else if confined then some (m, .done (.error [refusal "config-write-confined" []]))
    else some (m, .waiting)
  | .waiting =>
    if m.locked .globalConfig then
      if gives then some (m, .done (.error [conflict "lock-held"])) else none
    else some (m.take .globalConfig, .holding)
  | .holding =>
    match keys ctx.schemas m.source.file.json with
    | .error refused => some (m, .releasing (.error refused))
    | .ok found => if found.isEmpty then some (m, .releasing (.ok ⟨[], false⟩)) else some (m, .opened m.source found)
  | .opened source found => some (m, .tokenRead source found m.token)
  | .tokenRead source found token =>
    match states c found (destOf ed token m.accounts) false with
    | .error refused => some (m, .releasing (.error refused))
    | .ok _ => some (m, .checked source found)
  | .checked source found =>
    -- A backup of the same name is kept.
    let backups := if (m.backups.lookup (backupName ed source)).isSome then m.backups
      else (backupName ed source, source.file.text) :: m.backups
    some ({ m with backups := backups }, .backedUp source found)
  | .backedUp source found =>
    if ed.revision m.source.file.text = ed.revision source.file.text then some (m, .rewriting source found)
    else some (m, .releasing (.error [conflict "revision-changed"]))
  | .rewriting source found =>
    some ({ m with source := source.without render found },
      .releasing (.ok ⟨paths found, render source.file.json ≠ source.file.text⟩))
  | .releasing outcome => some (m.release (some .globalConfig), .done outcome)
  | .done _ => none

/-- One step of another transaction; the global file is a JSON one, which is migrated and never edited. -/
def writeNext (m : Machine) (gives : Bool) (commit : Commit) : Option (Machine × Commit) :=
  if commit.req.target = .global then
    match commit.phase with
    | .starting => some (m, ⟨commit.req, .done (.error [refusal "config-format-legacy-json" []])⟩)
    | _ => none
  else (commitNext ctx ed m.shared commit.req gives commit.phase).map fun (s, phase) =>
    ({ m with project := s.files.project, accounts := s.files.accounts, locked := s.locked }, ⟨commit.req, phase⟩)

def callNext (m : Machine) (gives : Bool) : Call → Option (Machine × Call)
  | .write commit => (writeNext ctx ed m gives commit).map fun (m, commit) => (m, .write commit)
  | .copy phase => (copyNext ctx ed c m gives phase).map fun (m, phase) => (m, .copy phase)
  | .finish phase => (finishNext ctx ed c render m gives phase).map fun (m, phase) => (m, .finish phase)
  | .stopped => none

/-- The lock that a call holds. -/
def Call.owns : Call → Option Lock
  | .write commit => commit.owns
  | .copy (.ensuring ..) => some .globalConfig
  | .copy (.writing _ req phase) => (Commit.mk req phase).owns
  | .copy _ => none
  | .finish (.starting ..) | .finish .waiting | .finish (.done _) => none
  | .finish _ => some .globalConfig
  | .stopped => none

def Call.begins : Call → Prop
  | .write commit => commit.phase = .starting
  | .copy phase => ∃ confined, phase = .starting confined
  | .finish phase => ∃ machineChecked confined, phase = .starting machineChecked confined
  | .stopped => False

/-- Any number of copies, of finishes and of other transactions, each stopped at any step or not at all.  `keeps` is what the
other transactions keep, step by step. -/
def relocation (keeps : Machine → Machine → Prop) : Interleave Machine Call where
  begins := Call.begins
  step m k m' k' := ((∃ gives, callNext ctx ed c render m gives k = some (m', k')) ∧ ((∃ commit, k = .write commit) → keeps m m')) ∨
    (m' = m.release k.owns ∧ k' = .stopped)
  around _ _ := False

end

end Forgent.Config
