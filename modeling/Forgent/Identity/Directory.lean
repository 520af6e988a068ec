import Forgent.ActRun
import Forgent.Members
import Mathlib.Data.List.Destutter

/-!
# The session directory

The sessions of a machine are one file each, named after the handle.  A registration that takes no role creates that file
once, and reads it only if the name is taken; one that takes a role scans the directory first, removes the entries whose
process is dead, writes its own, and rewrites those it takes a role from.  No lock is held.

* `Entry`, `Files`, `readEntry`: the directory, and what is read of it.
* `Call`, `World`, `World.act`: the calls of all sessions, one file step at a time.
* `DirectoryHolds`: what the directory is to keep to.
* `asRead`: the steps that find the file they change as their call read it.
-/

namespace Forgent.Identity.Directory

def maxEntries : ℕ := 512

/-- Files looked at in one scan. -/
def maxScan : ℕ := 2 * maxEntries

def formatVersion : ℕ := 1

/-- What the facts of a recorded process prove. -/
inductive Verdict where
  | alive
  | dead
  | unknown
deriving DecidableEq

structure Entry where
  v : ℕ
  id : String
  handle : String
  cli : String
  projectId : Option String
  clone : Option String
  registeredAt : String
  roles : List String
  /-- The record of the agent head; without one nothing is proven. -/
  liveness : Option String
deriving DecidableEq

/-- What the directory takes from the other modules: the handle of a session, the name of a handle's file, and what makes
a role no role alias. -/
structure Naming where
  handle : String → String
  fileName : String → String
  roleProblem : String → Option String

/-- The content of a file; `foreign` is one that is no entry. -/
inductive Content where
  | entry (e : Entry)
  | foreign

abbrev Files := Table Content

variable (naming : Naming)

def readEntry (files : Files) (file : String) : Option Entry :=
  match files[file]? with
  | some (.entry e) => if e.v = formatVersion ∧ naming.fileName e.handle = file then some e else none
  | _ => none

structure Row where
  file : String
  entry : Entry
  verdict : Verdict

structure Scan where
  rows : List Row
  /-- Files that are not entries this build reads. -/
  foreign : ℕ

/-- `merged` keeps the first registration time and the roles `held` already has. -/
def refreshFrom (merged held : Entry) : Entry :=
  { merged with
    registeredAt := held.registeredAt
    roles := ((merged.roles ++ held.roles).insertionSort (· ≤ ·)).destutter (· ≠ ·) }

inductive Purpose where
  | register (entry : Entry) (take : Bool)
  /-- The name was taken between the scan that found `rows` and the create. -/
  | again (asked : List String) (merged : Entry) (rows : List Row)
  | dropRole (ownId role : String)

/-- Where a call is: before which of its file steps, or what it answered. -/
inductive Call where
  | idle
  /-- `holds_cap` of a registration that takes no role. -/
  | counting (entry : Entry) (take : Bool)
  /-- `register_by_handle`: the create, the read of the holder, its removal, the create again, the read again. -/
  | creating (entry : Entry)
  | readingHolder (entry : Entry)
  | removingHolder (entry : Entry) (holder : Row)
  | creatingAgain (entry : Entry)
  | readingAgain (entry : Entry)
  /-- The entry replaces what was read under its handle. -/
  | refreshing (merged : Entry) (read : Option Entry)
  | listing (purpose : Purpose)
  | scanning (purpose : Purpose) (names : List String) (scan : Scan)
  | sweeping (entry : Entry) (take : Bool) (gone kept : List Row) (foreign : ℕ)
  | storing (asked : List String) (merged : Entry) (own : Option Entry) (rows : List Row)
  | replacing (asked : List String) (merged : Entry) (current : Option Entry) (rows : List Row)
  /-- The holders a role is taken from are rewritten. -/
  | rewriting (asked : List String) (merged : Entry) (holders : List Row)
  | registered (entry : Entry)
  | dropping (row : Row) (role : String)
  | dropped (entry : Entry)
  | refused (reason : String)

structure World where
  files : Files
  /-- The sessions that are dead. -/
  dead : String → Bool
  calls : ℕ → Call
  /-- Whether a session was left with a role, by the last step of a call that takes, drops or registers the role. -/
  left : String × String → Option Bool

/-- What the environment of a step decides: what the judge says of the entry read, and the names a directory read gives. -/
structure Sight where
  verdict : Verdict
  names : List String

inductive Act where
  | die (session : String)
  | register (i : ℕ) (entry : Entry) (take : Bool)
  | dropRole (i : ℕ) (ownId role : String)
  | step (i : ℕ) (sight : Sight)

/-- The call a step belongs to. -/
def Act.call : Act → Option ℕ
  | .die _ => none
  | .register i _ _ | .dropRole i _ _ | .step i _ => some i

/-- A process that is proven dead belongs to a dead session, one that is proven alive to no dead one. -/
def truthful (dead : String → Bool) (e : Entry) : Verdict → Bool
  | .alive => !dead e.id && e.liveness.isSome
  | .dead => dead e.id && e.liveness.isSome
  | .unknown => true

/-- The names a read of the directory may give: all of them, or as many as are looked at. -/
def lists (files : Files) (names : List String) : Bool :=
  names.Nodup && names.all (· ∈ files) && (names.length = min files.size maxScan)

/-- The holders a role is taken from. -/
def holdersOf (merged : Entry) (rows : List Row) : List Row :=
  rows.filter fun row => row.entry.id ≠ merged.id && row.entry.roles.any (· ∈ merged.roles)

def Entry.ofSession (e : Entry) : Entry := { e with v := formatVersion, handle := naming.handle e.id }

def Entry.without (e : Entry) (roles : List String) : Entry := { e with roles := e.roles.filter (· ∉ roles) }

/-- What was read of the file that an entry is to be stored as. -/
def afterRead (entry : Entry) : Option Entry → Call
  | none => .refreshing entry none
  | some held => if held.id ≠ entry.id then .refused "handle-in-use" else .refreshing (refreshFrom entry held) (some held)

/-- A call that has read every file of its scan. -/
def scanned (scan : Scan) : Purpose → Call
  | .register entry take =>
    .sweeping entry take (scan.rows.filter (·.verdict = .dead)) (scan.rows.filter (·.verdict ≠ .dead)) scan.foreign
  | .again asked merged rows =>
    match scan.rows.find? (·.entry.handle = merged.handle) with
    | some row =>
      if row.entry.id ≠ merged.id then .refused "handle-in-use" else .replacing asked merged (some row.entry) rows
    | none => .replacing asked merged none rows
  | .dropRole ownId role =>
    match scan.rows.find? (·.entry.id = ownId) with
    | none => .refused "not-registered"
    | some row => if role ∈ row.entry.roles then .dropping row role else .refused "role-not-held"

/-- A registration that has removed the dead rows of its scan. -/
def swept (entry : Entry) (take : Bool) (rows : List Row) (foreign : ℕ) : Call :=
  let own := rows.find? (·.entry.handle = entry.handle)
  if own.any (·.entry.id ≠ entry.id) then .refused "handle-in-use"
  else if !take && entry.roles.any (fun role => rows.any fun row => row.entry.id ≠ entry.id && row.entry.roles.contains role)
  then .refused "role-held"
  else if own.isNone && maxEntries ≤ rows.length + foreign then .refused "directory-full"
  else
    match own with
    | none => .storing entry.roles entry none rows
    | some row => .storing entry.roles (refreshFrom entry row.entry) (some row.entry) rows

namespace World

variable (w : World)

def setCall (i : ℕ) (call : Call) : World := { w with calls := Function.update w.calls i call }

/-- `store`, of an entry of the format version. -/
def store (e : Entry) : Files := w.files.insert (naming.fileName e.handle) (.entry e)

/-- The create-once finds the name taken. -/
def taken (e : Entry) : Bool := naming.fileName e.handle ∈ w.files

/-- The session is left with the roles, or without them. -/
def leave (session : String) (roles : List String) (held : Bool) : String × String → Option Bool :=
  fun key => if key.1 = session ∧ key.2 ∈ roles then some held else w.left key

/-- The entry is stored, and the call goes on to the holders of its roles. -/
def storeOwn (i : ℕ) (asked : List String) (merged : Entry) (rows : List Row) : World :=
  { w.setCall i (.rewriting asked merged (holdersOf merged rows)) with
    files := w.store naming merged
    left := w.leave merged.id asked true }

def step (i : ℕ) (sight : Sight) : Option World :=
  match w.calls i with
  | .counting entry take =>
    some (w.setCall i (if maxEntries ≤ w.files.size then .listing (.register entry take) else .creating entry))
  | .creating entry =>
    if w.taken naming entry then some (w.setCall i (.readingHolder entry))
    else some { w.setCall i (.registered entry) with files := w.store naming entry }
  | .readingHolder entry =>
    let file := naming.fileName entry.handle
    match readEntry naming w.files file with
    | none => some (w.setCall i (afterRead entry none))
    | some held =>
      if truthful w.dead held sight.verdict then
        some (w.setCall i
          (if sight.verdict = .dead then .removingHolder entry ⟨file, held, .dead⟩ else afterRead entry (some held)))
      else none
  | .removingHolder entry holder =>
    some { w.setCall i (.creatingAgain entry) with files := w.files.erase holder.file }
  | .creatingAgain entry =>
    if w.taken naming entry then some (w.setCall i (.readingAgain entry))
    else some { w.setCall i (.registered entry) with files := w.store naming entry }
  | .readingAgain entry =>
    some (w.setCall i (afterRead entry (readEntry naming w.files (naming.fileName entry.handle))))
  | .refreshing merged _ => some { w.setCall i (.registered merged) with files := w.store naming merged }
  | .listing purpose =>
    if lists w.files sight.names then some (w.setCall i (.scanning purpose sight.names ⟨[], 0⟩)) else none
  | .scanning purpose (file :: names) scan =>
    match readEntry naming w.files file with
    | none => some (w.setCall i (.scanning purpose names { scan with foreign := scan.foreign + 1 }))
    | some entry =>
      if truthful w.dead entry sight.verdict then
        some (w.setCall i (.scanning purpose names { scan with rows := scan.rows ++ [⟨file, entry, sight.verdict⟩] }))
      else none
  | .scanning purpose [] scan => some (w.setCall i (scanned scan purpose))
  | .sweeping entry take (row :: gone) kept foreign =>
    some { w.setCall i (.sweeping entry take gone kept foreign) with files := w.files.erase row.file }
  | .sweeping entry take [] kept foreign => some (w.setCall i (swept entry take kept foreign))
  | .storing asked merged own rows =>
    if own.isNone && w.taken naming merged then some (w.setCall i (.listing (.again asked merged rows)))
    else some (w.storeOwn naming i asked merged rows)
  | .replacing asked merged _ rows => some (w.storeOwn naming i asked merged rows)
  | .rewriting asked merged (row :: holders) =>
    some { w.setCall i (.rewriting asked merged holders) with
      files := w.store naming (row.entry.without merged.roles)
      left := w.leave row.entry.id (asked.filter (· ∈ row.entry.roles)) false }
  | .rewriting _ merged [] => some (w.setCall i (.registered merged))
  | .dropping row role =>
    some { w.setCall i (.dropped (row.entry.without [role])) with
      files := w.store naming (row.entry.without [role])
      left := w.leave row.entry.id [role] false }
  | _ => none

def act : Act → Option World
  | .die session => some { w with dead := Function.update w.dead session true }
  | .register i entry take =>
    match w.calls i with
    | .idle =>
      some (w.setCall i
        (if entry.roles.any fun role => (naming.roleProblem role).isSome then .refused "invalid-role"
        else if entry.roles = [] then .counting (entry.ofSession naming) take
        else .listing (.register (entry.ofSession naming) take)))
    | _ => none
  | .dropRole i ownId role =>
    match w.calls i with
    | .idle =>
      some (w.setCall i
        (if (naming.roleProblem role).isSome then .refused "invalid-role" else .listing (.dropRole ownId role)))
    | _ => none
  | .step i sight => w.step naming i sight

end World

/-! ### What the directory is to keep to -/

def Call.isOver : Call → Prop
  | .idle | .registered _ | .dropped _ | .refused _ => True
  | _ => False

def Has (read : Option Entry) (session role : String) : Prop := ∃ e, read = some e ∧ e.id = session ∧ role ∈ e.roles

/-- No two files of sessions that are not dead hold one role. -/
def RolesAlone (files : Files) (dead : String → Bool) : Prop :=
  ∀ ⦃file file' e e' role⦄, readEntry naming files file = some e → readEntry naming files file' = some e' →
    dead e.id = false → dead e'.id = false → role ∈ e.roles → role ∈ e'.roles → file = file'

structure DirectoryHolds (w : World) : Prop where
  /-- The entry of a registration that answered is there, with its session, while the session is alive. -/
  kept : ∀ ⦃i e⦄, w.calls i = .registered e → w.dead e.id = false →
    ∃ e', readEntry naming w.files (naming.fileName e.handle) = some e' ∧ e'.id = e.id
  /-- Two live sessions are not both registered under one handle. -/
  alone : ∀ ⦃i j e e'⦄, w.calls i = .registered e → w.calls j = .registered e' → e.handle = e'.handle → e.id ≠ e'.id →
    w.dead e.id = true ∨ w.dead e'.id = true
  roles : (∀ i, (w.calls i).isOver) → RolesAlone naming w.files w.dead
  /-- A live session has a role as the last call that takes, drops or registers the role left it. -/
  left : ∀ ⦃session role held⦄, w.left (session, role) = some held → w.dead session = false →
    (Has (readEntry naming w.files (naming.fileName (naming.handle session))) session role ↔ held = true)

structure Start (w : World) : Prop where
  calls : ∀ i, w.calls i = .idle
  left : ∀ key, w.left key = none
  /-- The entries are those of earlier calls. -/
  entries : ∀ ⦃file e⦄, readEntry naming w.files file = some e → e.handle = naming.handle e.id
  roles : RolesAlone naming w.files w.dead

/-! ### The steps that find the directory as their call read it -/

/-- Whoever else is alive and holds a role that is asked for was seen by the scan. -/
def othersSeen (w : World) (asked : List String) (merged : Entry) (rows : List Row) : Bool :=
  w.files.keys.all fun file =>
    file = naming.fileName merged.handle || (readEntry naming w.files file).all fun e =>
      w.dead e.id || !e.roles.any (· ∈ asked) || (holdersOf merged rows).any (·.file = file)

def asRead (w : World) : Act → Bool
  | .step i _ =>
    match w.calls i with
    | .removingHolder _ row | .sweeping _ _ (row :: _) _ _ => (readEntry naming w.files row.file).all (· = row.entry)
    | .refreshing merged read => readEntry naming w.files (naming.fileName merged.handle) = read
    | .storing asked merged own rows =>
      own.isNone && w.taken naming merged ||
        readEntry naming w.files (naming.fileName merged.handle) = own && othersSeen naming w asked merged rows
    | .replacing asked merged current rows =>
      readEntry naming w.files (naming.fileName merged.handle) = current &&
        current.all (fun e => e.roles.all (· ∈ asked)) && othersSeen naming w asked merged rows
    | .rewriting asked merged (row :: _) =>
      readEntry naming w.files row.file = some row.entry &&
        row.entry.roles.all fun role => !merged.roles.contains role || asked.contains role
    | .dropping row _ => readEntry naming w.files row.file = some row.entry
    | _ => true
  | _ => true

end Forgent.Identity.Directory
