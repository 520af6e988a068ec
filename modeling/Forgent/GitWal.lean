import Forgent.Interleave
import Mathlib.Data.List.Sort

/-!
# The write-ahead log of Git operations, for one operation id

`packages/git/rust/src/wal.rs`: `begin`, `append`, `compact` and `resume_compaction`.  An id has a directory of numbered
records, each installed once under its own name, and a ledger entry that replaces the directory when the operation is
compacted.  A call takes one step for each file operation and can fail or stop at each; an open directory is a descriptor,
which stays when the name is removed.
-/

namespace Forgent.GitWal

inductive Tip where
  | absent
  | oid (oid : String)
deriving DecidableEq

inductive ObjectFormat where
  | sha1
  | sha256
deriving DecidableEq

/-- The kinds of operation.  A `land` is bound by its destination alone, the others by their whole resource set. -/
inductive OperationKind (κ : Type) where
  | land (payload : κ)
  | other (payload : κ)
deriving DecidableEq

structure Intent (κ : Type) where
  kind : OperationKind κ
  requestDigest : String
  repoIdentity : String
  resourceSet : List String
  authorityBinding : String
  writerIdentity : String
  objectFormat : ObjectFormat
  expected : Tip
  next : Tip
deriving DecidableEq

/-- The phase of a record: the intent, or one behind it. -/
inductive Phase (κ φ : Type) where
  | intent (intent : Intent κ)
  | later (phase : φ)
deriving DecidableEq

structure Record (κ φ : Type) where
  version : ℕ
  operationId : String
  sequence : ℕ
  previousDigest : Option String
  phase : Phase κ φ
  digest : String
deriving DecidableEq

/-- A ledger entry. -/
structure CompactReceipt where
  v : ℕ
  id : String
  request : String
  binding : String
  expected : String
  next : String
  receipt : List String
  reference : Option String
  digest : String
deriving DecidableEq

inductive WalError where
  | io
  | corrupt
  | recordTooLarge
  | untrusted
  | operationIdConflict
  | publicationBorrowUnavailable
  | busy
  | recoveryRequired
deriving DecidableEq

/-- What `binding_digest` digests. -/
inductive Binding where
  | land (repoIdentity : String) (destination : Option String) (authorityBinding writerIdentity : String) (expected next : Tip)
    (objectFormat : ObjectFormat)
  | other (repoIdentity : String) (resourceSet : List String) (authorityBinding : String) (expected next : Tip)
    (objectFormat : ObjectFormat)
deriving DecidableEq

section

variable {κ φ : Type}

def bindingOf (i : Intent κ) : Binding :=
  match i.kind with
  | .land _ => .land i.repoIdentity i.resourceSet.head? i.authorityBinding i.writerIdentity i.expected i.next i.objectFormat
  | .other _ => .other i.repoIdentity i.resourceSet i.authorityBinding i.expected i.next i.objectFormat

/-- What the log takes from the rest of the crate: the canonical digests, and what it decides from the kind of an intent and
the phases behind it. -/
structure Crate (κ φ : Type) where
  id : String
  identity : String
  bindingDigest : Binding → String
  recordDigest : Record κ φ → String
  ledgerDigest : CompactReceipt → String
  validateIntent : Intent κ → Bool
  validateTransition : List (Record κ φ) → φ → Bool
  mayCompact : List (Record κ φ) → Bool
  compactOutcome : List (Record κ φ) → Option (List String)
  entryVersion : Intent κ → ℕ
  entryReference : Intent κ → Option String
  entryValid : CompactReceipt → Bool
  entryFits : CompactReceipt → Bool
  recordFits : Record κ φ → Bool
  suffixEnds : φ → Bool

/-! ### The files of one id -/

/-- An operation directory: its records by number, and the temporaries that writers left. -/
structure Dir (κ φ : Type) where
  linked : Bool
  records : List (ℕ × Record κ φ)
  temporaries : ℕ
deriving DecidableEq

/-- The ledger entry, which directory carries the name of the id, and every directory that ever did. -/
structure Store (κ φ : Type) where
  ledger : Option CompactReceipt
  root : Option ℕ
  dirs : List (Dir κ φ)
deriving DecidableEq

variable (s : Store κ φ)

def Store.record (d n : ℕ) : Option (Record κ φ) := (s.dirs[d]?).bind fun dir => dir.records.lookup n

/-- `mkdir`; a name that is there is left as it is. -/
def Store.makeDir : Store κ φ :=
  match s.root with
  | some _ => s
  | none => { s with root := some s.dirs.length, dirs := s.dirs ++ [⟨true, [], 0⟩] }

/-- A temporary in a directory that still has its name. -/
def Store.addTemporary (d : ℕ) : Option (Store κ φ) := do
  let dir ← s.dirs[d]?
  if dir.linked then some { s with dirs := s.dirs.set d { dir with temporaries := dir.temporaries + 1 } } else none

def Store.dropTemporary (d : ℕ) : Store κ φ :=
  { s with dirs := s.dirs.modify d fun dir => { dir with temporaries := dir.temporaries - 1 } }

/-- The name of a record, installed without overwrite: whether it was created. -/
def Store.link (d : ℕ) (r : Record κ φ) : Option (Bool × Store κ φ) := do
  let dir ← s.dirs[d]?
  if !dir.linked then none
  else match dir.records.lookup r.sequence with
    | some _ => some (false, s)
    | none => some (true, { s with dirs := s.dirs.set d { dir with records := dir.records ++ [(r.sequence, r)] } })

def Store.removeRecord (d n : ℕ) : Option (Store κ φ) := do
  let dir ← s.dirs[d]?
  let _ ← dir.records.lookup n
  some { s with dirs := s.dirs.set d { dir with records := dir.records.filter fun r => r.1 ≠ n } }

/-- `rmdir` of the directory that has the name; only an empty one goes. -/
def Store.removeDir : Option (Store κ φ) := do
  let d ← s.root
  let dir ← s.dirs[d]?
  if dir.records.isEmpty && dir.temporaries = 0 then
    some { s with root := none, dirs := s.dirs.set d { dir with linked := false } }
  else none

/-- The ledger entry, installed without overwrite: whether it was created. -/
def Store.enter (c : CompactReceipt) : Bool × Store κ φ :=
  match s.ledger with
  | some _ => (false, s)
  | none => (true, { s with ledger := some c })

/-! ### Reading -/

variable (crate : Crate κ φ)

def compacted : Except WalError (Option CompactReceipt) :=
  match s.ledger with
  | none => .ok none
  | some c => if crate.entryValid c then .ok (some c) else .error .corrupt

def key (i : Intent κ) : String × String := (i.requestDigest, crate.bindingDigest (bindingOf i))

/-- `CompactReceipt::matches`. -/
def CompactReceipt.binds (c : CompactReceipt) (i : Intent κ) : Bool := (c.request, c.binding) = key crate i

/-- `record_digest`: a record without its digest. -/
def recordDigest (r : Record κ φ) : String := crate.recordDigest { r with digest := "" }

def maxRecords : ℕ := 16

/-- `Chain::validate`, and the intent of the chain. -/
def chainIntent (records : List (Record κ φ)) : Option (Intent κ) :=
  match records.head? with
  | some ⟨_, _, _, _, .intent i, _⟩ => some i
  | _ => none

def validChain (records : List (Record κ φ)) : Bool :=
  records.zipIdx.all fun (r, n) =>
    r.version = 1 && r.sequence = n && r.operationId = crate.id && r.digest = recordDigest crate r &&
      r.previousDigest = (if n = 0 then none else (records[n - 1]?).map Record.digest) &&
      match r.phase with
      | .intent i => n = 0 && crate.validateIntent i
      | .later p => n ≠ 0 && crate.validateTransition (records.take n) p

/-- `inspect`: the directory is opened by its name and listed, and each name is read. -/
inductive Inspecting (κ φ : Type) where
  | opening
  | listing (d : ℕ)
  | reading (d : ℕ) (left : List ℕ) (records : List (Record κ φ))
  | done (outcome : Except WalError (List (Record κ φ)))

def inspectNext : Inspecting κ φ → Inspecting κ φ
  | .opening =>
    match s.root with
    | none => .done (.error .io)
    | some d => .listing d
  | .listing d =>
    let names := ((s.dirs[d]?).elim [] fun dir => dir.records.map Prod.fst).insertionSort (· ≤ ·)
    if maxRecords < names.length then .done (.error .corrupt) else .reading d names []
  | .reading d (n :: left) records =>
    if n ≠ records.length then .done (.error .corrupt)
    else match s.record d n with
      | none => .done (.error .io)
      | some r => .reading d left (records ++ [r])
  | .reading _ [] records =>
    match chainIntent records with
    | none => .done (.error .corrupt)
    | some i =>
      if !validChain crate records then .done (.error .corrupt)
      else if i.repoIdentity ≠ crate.identity then .done (.error .untrusted)
      else .done (.ok records)
  | .done outcome => .done outcome

def makeRecord (sequence : ℕ) (previousDigest : Option String) (phase : Phase κ φ) : Record κ φ :=
  let r : Record κ φ := ⟨1, crate.id, sequence, previousDigest, phase, ""⟩
  { r with digest := recordDigest crate r }

/-! ### The calls -/

/-- What a step takes from outside: the answers of the caller's authority and of Git. -/
structure Input where
  refuses : Option WalError
  candidateAbsent : Bool

inductive Begin (κ φ : Type) where
  | created (record : Record κ φ)
  | existing (records : List (Record κ φ))
  | compacted (receipt : CompactReceipt)

inductive Beginning (κ φ : Type) where
  | admitting
  | looking
  | making
  | opening
  | lookingAgain (d : ℕ)
  | probing (d : ℕ)
  | existing (inspecting : Inspecting κ φ) (lostInstall : Bool)
  | fallback (error : WalError)
  | writing (d : ℕ)
  | linking (d : ℕ)
  | clearing (d : ℕ) (created : Bool)
  | lookingLast (created : Bool)
  /-- Refused for the request itself, before anything of the id was written. -/
  | notAdmitted (error : WalError)
  | done (outcome : Except WalError (Begin κ φ))

inductive Appending (κ φ : Type) where
  | validating
  | inspecting (inspecting : Inspecting κ φ)
  | opening
  | writing (d : ℕ)
  | linking (d : ℕ)
  | clearing (d : ℕ) (created : Bool)
  | done (outcome : Except WalError (List (Record κ φ)))

/-- The removal of an operation: its records one by one, then its directory. -/
inductive Removing where
  | records (d : ℕ) (left : List ℕ)
  | directory
  | done (outcome : Except WalError Unit)

inductive Compacting (κ φ : Type) where
  | authorizing
  | inspecting (inspecting : Inspecting κ φ)
  | opening (actual : List (Record κ φ))
  | listing (actual : List (Record κ φ)) (d : ℕ)
  | entering (actual : List (Record κ φ)) (c : CompactReceipt)
  | comparing (actual : List (Record κ φ)) (c : CompactReceipt)
  | reopening (actual : List (Record κ φ)) (c : CompactReceipt)
  | removing (c : CompactReceipt) (removing : Removing)
  | done (outcome : Except WalError CompactReceipt)

inductive Resuming (κ φ : Type) where
  | authorizing
  | looking
  | opening
  | listing (d : ℕ)
  | reading (d : ℕ) (left : List ℕ) (records : List (Record κ φ))
  | removing (removing : Removing)
  | done (outcome : Except WalError Unit)

inductive Call (κ φ : Type) where
  | begin (intent : Intent κ) (phase : Beginning κ φ)
  | append (chain : List (Record κ φ)) (recorded : φ) (phase : Appending κ φ)
  | compact (chain : List (Record κ φ)) (phase : Compacting κ φ)
  | resume (intent : Intent κ) (phase : Resuming κ φ)

/-- The chain a call answers for a lost install or an existing record zero: it has to bind the same request. -/
def sameRequest (intent : Intent κ) (records : List (Record κ φ)) : Except WalError (Begin κ φ) :=
  match chainIntent records with
  | none => .error .corrupt
  | some i => if key crate i = key crate intent then .ok (.existing records) else .error .operationIdConflict

/-- What a ledger entry says to `begin`. -/
def answer (intent : Intent κ) (c : CompactReceipt) : Except WalError (Begin κ φ) :=
  if c.binds crate intent then .ok (.compacted c) else .error .operationIdConflict

/-- One step of `begin`. -/
def beginNext (input : Input) (intent : Intent κ) : Beginning κ φ → Option (Store κ φ × Beginning κ φ)
  | .admitting =>
    match input.refuses with
    | some err => some (s, .notAdmitted err)
    | none =>
      if !crate.validateIntent intent then some (s, .notAdmitted .corrupt)
      else if intent.repoIdentity ≠ crate.identity then some (s, .notAdmitted .untrusted)
      else some (s, .looking)
  | .looking =>
    match compacted s crate with
    | .error err => some (s, .done (.error err))
    | .ok (some c) => some (s, .done (answer crate intent c))
    | .ok none =>
      if !crate.recordFits (makeRecord crate 0 none (.intent intent)) then some (s, .notAdmitted .recordTooLarge)
      else some (s, .making)
  | .making => some (s.makeDir, .opening)
  | .opening =>
    match s.root with
    | none => some (s, .done (.error .io))
    | some d => some (s, .lookingAgain d)
  | .lookingAgain d =>
    match compacted s crate with
    | .error err => some (s, .done (.error err))
    | .ok (some c) => some (s, .done (answer crate intent c))
    | .ok none => some (s, .probing d)
  | .probing d =>
    -- A record zero that is there binds the id already.
    if (s.record d 0).isSome then some (s, .existing .opening false) else some (s, .writing d)
  | .existing (.done (.ok records)) lostInstall =>
    match sameRequest crate intent records with
    | .ok begun => some (s, .done (.ok begun))
    | .error err => if lostInstall then some (s, .done (.error err)) else some (s, .fallback err)
  | .existing (.done (.error err)) lostInstall =>
    if lostInstall then some (s, .done (.error err)) else some (s, .fallback err)
  | .existing inspecting lostInstall => some (s, .existing (inspectNext s crate inspecting) lostInstall)
  | .fallback err =>
    match compacted s crate with
    | .error err => some (s, .done (.error err))
    | .ok (some c) => some (s, .done (answer crate intent c))
    | .ok none => some (s, .done (.error err))
  | .writing d =>
    match s.addTemporary d with
    | none => some (s, .done (.error .io))
    | some s => some (s, .linking d)
  | .linking d =>
    match s.link d (makeRecord crate 0 none (.intent intent)) with
    | none => some (s, .done (.error .io))
    | some (created, s) => some (s, .clearing d created)
  | .clearing d created => some (s.dropTemporary d, .lookingLast created)
  | .lookingLast created =>
    -- A compactor may have removed record zero; its ledger entry wins.
    match compacted s crate with
    | .error err => some (s, .done (.error err))
    | .ok (some c) => some (s, .done (answer crate intent c))
    | .ok none =>
      if created then some (s, .done (.ok (.created (makeRecord crate 0 none (.intent intent)))))
      else some (s, .existing .opening true)
  | .notAdmitted _ => none
  | .done _ => none

/-- The record that an append installs. -/
def nextRecord (chain : List (Record κ φ)) (recorded : φ) : Record κ φ :=
  makeRecord crate chain.length (chain.getLast?.map Record.digest) (.later recorded)

/-- One step of `append`. -/
def appendNext (chain : List (Record κ φ)) (recorded : φ) : Appending κ φ → Option (Store κ φ × Appending κ φ)
  | .validating =>
    if chain = [] ∨ validChain crate chain = false then some (s, .done (.error .corrupt)) else some (s, .inspecting .opening)
  | .inspecting (.done (.ok actual)) =>
    if (actual.getLast?.map Record.digest) ≠ (chain.getLast?.map Record.digest) then some (s, .done (.error .busy))
    else if !crate.validateTransition chain recorded then some (s, .done (.error .corrupt))
    else some (s, .opening)
  | .inspecting (.done (.error err)) => some (s, .done (.error err))
  | .inspecting inspecting => some (s, .inspecting (inspectNext s crate inspecting))
  | .opening =>
    match s.root with
    | none => some (s, .done (.error .io))
    | some d => some (s, .writing d)
  | .writing d =>
    match s.addTemporary d with
    | none => some (s, .done (.error .io))
    | some s => some (s, .linking d)
  | .linking d =>
    match s.link d (nextRecord crate chain recorded) with
    | none => some (s, .done (.error .io))
    | some (created, s) => some (s, .clearing d created)
  | .clearing d created =>
    some (s.dropTemporary d,
      .done (if created then .ok (chain ++ [nextRecord crate chain recorded]) else .error .busy))
  | .done _ => none

/-- One step of `remove_operation`. -/
def removeNext : Removing → Store κ φ × Removing
  | .records d (n :: left) =>
    match s.removeRecord d n with
    | none => (s, .done (.error .io))
    | some s => (s, .records d left)
  | .records _ [] => (s, .directory)
  | .directory =>
    match s.removeDir with
    | none => (s, .done (.error .io))
    | some s => (s, .done (.ok ()))
  | .done outcome => (s, .done outcome)

def compactTip : Tip → String
  | .absent => "-"
  | .oid o => o

def compactEntry (actual : List (Record κ φ)) : Option CompactReceipt := do
  let i ← chainIntent actual
  let outcome ← crate.compactOutcome actual
  let c : CompactReceipt := ⟨crate.entryVersion i, crate.id, i.requestDigest, crate.bindingDigest (bindingOf i),
    compactTip i.expected, compactTip i.next, outcome, crate.entryReference i, ""⟩
  return { c with digest := crate.ledgerDigest c }

/-- One step of `compact`. -/
def compactNext (input : Input) (chain : List (Record κ φ)) : Compacting κ φ → Option (Store κ φ × Compacting κ φ)
  | .authorizing =>
    match input.refuses with
    | some err => some (s, .done (.error err))
    | none => some (s, .inspecting .opening)
  | .inspecting (.done (.ok actual)) =>
    if actual.getLast?.map Record.digest ≠ chain.getLast?.map Record.digest ∨ crate.mayCompact actual = false ∨
      input.candidateAbsent = false then some (s, .done (.error .recoveryRequired))
    else some (s, .opening actual)
  | .inspecting (.done (.error err)) => some (s, .done (.error err))
  | .inspecting inspecting => some (s, .inspecting (inspectNext s crate inspecting))
  | .opening actual =>
    match s.root with
    | none => some (s, .done (.error .io))
    | some d => some (s, .listing actual d)
  | .listing actual d =>
    -- Whatever is no record of the chain is evidence, and stays.
    match s.dirs[d]? with
    | none => some (s, .done (.error .io))
    | some dir =>
      if dir.temporaries ≠ 0 ∨ (dir.records.any fun r => !(actual.map Record.sequence).contains r.1) = true then
        some (s, .done (.error .recoveryRequired))
      else match compactEntry crate actual with
        | none => some (s, .done (.error .recoveryRequired))
        | some c => if !crate.entryFits c then some (s, .done (.error .corrupt)) else some (s, .entering actual c)
  | .entering actual c =>
    match s.enter c with
    | (true, s) => some (s, .reopening actual c)
    | (false, s) => some (s, .comparing actual c)
  | .comparing actual c =>
    match compacted s crate with
    | .error err => some (s, .done (.error err))
    | .ok none => some (s, .done (.error .corrupt))
    | .ok (some there) =>
      if there.digest ≠ c.digest then some (s, .done (.error .operationIdConflict)) else some (s, .reopening actual c)
  | .reopening actual c =>
    match s.root with
    | none => some (s, .done (.error .io))
    | some d => some (s, .removing c (.records d (actual.map Record.sequence)))
  | .removing c (.done (.ok _)) => some (s, .done (.ok c))
  | .removing _ (.done (.error err)) => some (s, .done (.error err))
  | .removing c removing => some ((removeNext s removing).1, .removing c (removeNext s removing).2)
  | .done _ => none

/-- `compaction_suffix`: what a compaction left has to be the end of a chain. -/
def validSuffix (records : List (Record κ φ)) : Bool :=
  (records.all fun r => r.version = 1 && r.operationId = crate.id && r.digest = recordDigest crate r) &&
    ((records.zip records.tail).all fun (a, b) => b.sequence = a.sequence + 1 && b.previousDigest = some a.digest) &&
    match records.getLast? with
    | some ⟨_, _, _, _, .later p, _⟩ => crate.suffixEnds p
    | some _ => false
    | none => true

/-- One step of `resume_compaction`. -/
def resumeNext (input : Input) (intent : Intent κ) : Resuming κ φ → Option (Store κ φ × Resuming κ φ)
  | .authorizing =>
    match input.refuses with
    | some err => some (s, .done (.error err))
    | none => some (s, .looking)
  | .looking =>
    match compacted s crate with
    | .error err => some (s, .done (.error err))
    | .ok none => some (s, .done (.error .recoveryRequired))
    | .ok (some c) =>
      if !c.binds crate intent then some (s, .done (.error .operationIdConflict))
      else if !input.candidateAbsent then some (s, .done (.error .recoveryRequired))
      else some (s, .opening)
  | .opening =>
    match s.root with
    | none => some (s, .done (.ok ()))
    | some d => some (s, .listing d)
  | .listing d =>
    match s.dirs[d]? with
    | none => some (s, .done (.error .io))
    | some dir =>
      if dir.temporaries ≠ 0 ∨ maxRecords < dir.records.length then some (s, .done (.error .corrupt))
      else some (s, .reading d ((dir.records.map Prod.fst).insertionSort (· ≤ ·)) [])
  | .reading d (n :: left) records =>
    match s.record d n with
    | none => some (s, .done (.error .io))
    | some r => some (s, .reading d left (records ++ [r]))
  | .reading d [] records =>
    if validSuffix crate records then some (s, .removing (.records d (records.map Record.sequence)))
    else some (s, .done (.error .corrupt))
  | .removing (.done outcome) => some (s, .done outcome)
  | .removing removing => some ((removeNext s removing).1, .removing (removeNext s removing).2)
  | .done _ => none

/-- One step of a call. -/
def next (input : Input) : Call κ φ → Option (Store κ φ × Call κ φ)
  | .begin intent phase => (beginNext s crate input intent phase).map fun (s, phase) => (s, .begin intent phase)
  | .append chain recorded phase => (appendNext s crate chain recorded phase).map fun (s, phase) => (s, .append chain recorded phase)
  | .compact chain phase => (compactNext s crate input chain phase).map fun (s, phase) => (s, .compact chain phase)
  | .resume intent phase => (resumeNext s crate input intent phase).map fun (s, phase) => (s, .resume intent phase)

/-- A call whose file operation failed. -/
def Call.failed : Call κ φ → Call κ φ
  | .begin intent (.done outcome) => .begin intent (.done outcome)
  | .begin intent (.notAdmitted err) => .begin intent (.notAdmitted err)
  | .begin intent _ => .begin intent (.done (.error .io))
  | .append chain recorded (.done outcome) => .append chain recorded (.done outcome)
  | .append chain recorded _ => .append chain recorded (.done (.error .io))
  | .compact chain (.done outcome) => .compact chain (.done outcome)
  | .compact chain _ => .compact chain (.done (.error .io))
  | .resume intent (.done outcome) => .resume intent (.done outcome)
  | .resume intent _ => .resume intent (.done (.error .io))

end

inductive Begins {κ φ : Type} : Call κ φ → Prop
  | begin (intent : Intent κ) : Begins (.begin intent .admitting)
  | append (chain : List (Record κ φ)) (recorded : φ) : Begins (.append chain recorded .validating)
  | compact (chain : List (Record κ φ)) : Begins (.compact chain .authorizing)
  | resume (intent : Intent κ) : Begins (.resume intent .authorizing)

/-- A `begin` that installs record zero although the ledger has an entry for the id. -/
def Late {κ φ : Type} (s : Store κ φ) : Call κ φ → Prop
  | .begin _ (.linking _) => s.ledger ≠ none
  | _ => False

/-- Calls on one id: any number, in any order, each stopping or failing at any of its steps.  With `timely` no record zero is
installed late. -/
def wal {κ φ : Type} (crate : Crate κ φ) (timely : Prop) : Interleave (Store κ φ) (Call κ φ) where
  begins := Begins
  step s k s' k' := (s' = s ∧ k' = k.failed) ∨ ((timely → ¬ Late s k) ∧ ∃ input, next s crate input k = some (s', k'))
  around _ _ := False

def initial (κ φ : Type) : Interleave.World (Store κ φ) (Call κ φ) := ⟨⟨none, none, []⟩, []⟩

end Forgent.GitWal
