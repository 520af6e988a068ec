import Forgent.ActRun
import Forgent.Members

/-!
# Terminal slots

A slot is a pane of a terminal multiplexer under a key.  Its record and its three markers are files that are installed once
and never rewritten; the pane is changed by calls to the driver.  There is no lock.

* `launchLine`, `matchLaunched`, `isBareShell`: what a launch types, and what it looks for.
* `Call`, `World`, `World.act`: the calls of all processes, one driver or file step at a time.
* `SlotsHold`: what the slots are to keep to.
* `unseen`: the steps that no other call has looked past.
-/

namespace Forgent.Terminal

inductive Origin where
  | allocated
  | attached
deriving DecidableEq

inductive Disposition where
  | close
  | retain
deriving DecidableEq

inductive ReleaseMarkerOutcome where
  | closed
  | retained
  | unlinked
deriving DecidableEq

structure AllocationRecord where
  key : String
  groupKey : String
  tabId : String
  paneId : String
  origin : Origin
deriving DecidableEq

structure ReleasedMarker where
  key : String
  disposition : Disposition
  «until» : Option ℕ
  outcome : ReleaseMarkerOutcome
deriving DecidableEq

/-- The tuple that names a process: a number that is used again comes with another start time or boot. -/
structure ProcTuple where
  pid : ℕ
  startTime : String
  bootId : String
deriving DecidableEq

structure ProcessIdentity where
  tuple : ProcTuple
  pgid : ℕ
deriving DecidableEq

structure ForegroundProcess where
  pid : ℕ
  argv : List String
deriving DecidableEq

structure ProcessInfo where
  shellPid : ℕ
  foregroundPgid : ℕ
  foreground : List ForegroundProcess
deriving DecidableEq

structure ExpectedProcess where
  argv0 : String
  command : String
  args : List String

structure LaunchSpec where
  cwd : String
  env : List (String × String)
  command : String
  args : List String
  expect : Option ExpectedProcess

/-! ### Keys, lines and processes -/

def markerSuffixes : List String := ["launch-requested", "launched", "released"]

def validKey (key : String) : Bool :=
  key.toList.head?.any Char.isAlphanum && key.toList.length ≤ 128 &&
    key.toList.all (fun c => c.isAlphanum || c = '.' || c = '_' || c = '-') &&
    !markerSuffixes.any fun suffix => ('.' :: suffix.toList).isSuffixOf key.toList

/-- A pane whose shell is the only thing in the foreground. -/
def isBareShell (info : ProcessInfo) : Bool := info.foreground.all (·.pid = info.shellPid)

def fileName (path : String) : String :=
  match ((path.toList.splitOn '/').filter fun part => part ≠ [] && part ≠ ['.']).getLast? with
  | none => path
  | some name => if name = ['.', '.'] then path else String.ofList name

def runs (names args : List String) (p : ForegroundProcess) : Bool :=
  match p.argv with
  | [] => false
  | argv0 :: rest => names.contains argv0 && rest = args.filter (· ≠ "")

def matchLaunched (info : ProcessInfo) (command : String) (args : List String) : Option ForegroundProcess :=
  info.foreground.find? (runs [command, fileName command] args)

def matchExpected (info : ProcessInfo) (expect : ExpectedProcess) : Option ForegroundProcess :=
  info.foreground.find? (runs [expect.argv0, expect.command, fileName expect.command] expect.args)

/-- The process that a launch started, among those of the pane. -/
def launchedRoot (info : ProcessInfo) (spec : LaunchSpec) : Option ForegroundProcess :=
  match spec.expect with
  | some expect => matchExpected info expect
  | none => matchLaunched info spec.command spec.args

def shellQuote (s : String) : String :=
  "'" ++ String.ofList (s.toList.flatMap fun c => if c = '\'' then ['\'', '\\', '\'', '\''] else [c]) ++ "'"

def isEnvName (name : String) : Bool :=
  match name.toList with
  | [] => false
  | c :: rest => (c.isAlpha || c = '_') && rest.all fun c => c.isAlphanum || c = '_'

/-- The line a launch types; none for a name that is no environment variable. -/
def launchLine (spec : LaunchSpec) : Option String :=
  if spec.env.all fun e => isEnvName e.1 then
    some ("cd " ++ shellQuote spec.cwd ++ " &&" ++ (if spec.env = [] then "" else " env") ++
      String.join (spec.env.map fun e => " " ++ e.1 ++ "=" ++ shellQuote e.2) ++ " " ++ shellQuote spec.command ++
      String.join (spec.args.map fun arg => " " ++ shellQuote arg))
  else none

/-! ### The calls -/

/-- Where a call is: before which of its driver and file steps, or what it answered. -/
inductive Call where
  | reading (key groupKey : String)
  | existing (record : AllocationRecord)
  /-- `place`; `tabOnly` once a pane that was split off was too small. -/
  | placing (key groupKey : String) (tabOnly : Bool)
  | measuring (key groupKey pane tab : String)
  | recording (key groupKey pane tab : String)
  /-- Another allocate of the key published first. -/
  | losing (key groupKey pane : String)
  /-- `attach` of a pane that runs the caller, by the process numbers of its ancestors. -/
  | owning (key groupKey pane : String) (ancestors : List ℕ)
  | linking (key groupKey pane : String)
  | looking (key groupKey pane : String)
  | attaching (key groupKey pane tab : String)
  /-- `allocate` and `attach` answered with the slot. -/
  | allocation (record : AllocationRecord)
  | finding (key : String) (spec : LaunchSpec)
  | unreleased (record : AllocationRecord) (spec : LaunchSpec)
  | living (record : AllocationRecord) (spec : LaunchSpec)
  | unrequested (record : AllocationRecord) (spec : LaunchSpec) (line : String)
  /-- `wait_for_shell`, after so many probes. -/
  | waiting (record : AllocationRecord) (spec : LaunchSpec) (line : String) (probes : ℕ)
  | bare (record : AllocationRecord) (spec : LaunchSpec) (line : String)
  | requesting (record : AllocationRecord) (spec : LaunchSpec) (line : String)
  | typing (record : AllocationRecord) (spec : LaunchSpec) (line : String)
  | identifying (record : AllocationRecord) (spec : LaunchSpec)
  | launching (key : String) (identity : ProcessIdentity)
  | launched (identity : ProcessIdentity)
  | releasing (key : String) (disposition : Disposition) («until» : Option ℕ) (callerPane : Option String)
  | marked (record : AllocationRecord) (disposition : Disposition) («until» : Option ℕ) (callerPane : Option String)
  | closingOwn (record : AllocationRecord) (callerPane : String)
  /-- `foreground_is_owned`: the launched marker, the process, the foreground, the process again. -/
  | readingLaunched (record : AllocationRecord)
  | runningBefore (record : AllocationRecord) (launched : Option ProcessIdentity)
  | readingInfo (record : AllocationRecord) (launched : Option ProcessIdentity) (before : Bool)
  /-- `running` says whether the launched process was running when the foreground was read; nothing reads it. -/
  | runningAfter (record : AllocationRecord) (launched : Option ProcessIdentity) (before : Bool) (info : ProcessInfo)
      (running : Bool)
  | closing (record : AllocationRecord) (launched : Option ProcessIdentity) (info : ProcessInfo) (running : Bool)
  | publishing (marker : ReleasedMarker)
  /-- A release answered `Released`. -/
  | released (key : String) (disposition : Disposition)
  /-- Refused, kept, not started, or stopped. -/
  | over

inductive Pane where
  | absent
  | live
  | gone
deriving DecidableEq

inductive Life where
  | unborn
  | running
  | over
deriving DecidableEq

structure Typed where
  key : String
  pane : String
  line : String
  marker : Option ReleasedMarker

inductive Why where
  /-- The core created the pane, and recorded it nowhere. -/
  | unrecorded
  /-- It is the slot's, and all of its foreground was the shell or the launched process. -/
  | owned (record : AllocationRecord) (launched : Option ProcessIdentity) (info : ProcessInfo) (running : Bool)
  /-- It is attached, and the caller's own. -/
  | own (record : AllocationRecord) (callerPane : String)

/-- A pane the core closed, and the released marker of its key then. -/
structure Closed where
  pane : String
  why : Why
  marker : Option ReleasedMarker

structure World where
  records : Table AllocationRecord
  launchRequested : List String
  launched : Table ProcessIdentity
  released : Table ReleasedMarker
  panes : String → Pane
  shows : String → ProcessInfo
  life : ProcTuple → Life
  calls : ℕ → Call
  /-- How many calls were made. -/
  count : ℕ
  /-- What happened: the panes the core created, the records and released markers that were installed, the lines that were
  typed, and the panes the core closed. -/
  created : List String
  recorded : List AllocationRecord
  markers : List ReleasedMarker
  typed : List Typed
  closed : List Closed

def World.initial : World where
  records := ∅
  launchRequested := []
  launched := ∅
  released := ∅
  panes := fun _ => .absent
  shows := fun _ => ⟨0, 0, []⟩
  life := fun _ => .unborn
  calls := fun _ => .over
  count := 0
  created := []
  recorded := []
  markers := []
  typed := []
  closed := []

/-- What the environment of a step decides. -/
inductive Sight where
  | plain
  /-- The driver or the store answers an error. -/
  | fails
  | tab (pane tab : String)
  | split (pane tab : String)
  /-- The pane is below the minimum, and is closed. -/
  | cramped
  | layout (tab : String)
  /-- A probe is typed to the shell. -/
  | probe
  | late
  | identified (identity : ProcessIdentity)

inductive Act where
  | allocate (key groupKey : String)
  | attach (key : String) (groupKey : Option String) (pane : String) (ancestors : List ℕ)
  | launch (key : String) (spec : LaunchSpec)
  | releaseAs (key : String) (disposition : Disposition) («until» : Option ℕ) (callerPane : Option String)
  | step (i : ℕ) (sight : Sight)
  | crash (i : ℕ)
  /-- A person opens or closes a pane; a pane shows other processes; a process starts or exits. -/
  | opens (pane : String)
  | closes (pane : String)
  | shows (pane : String) (info : ProcessInfo)
  | starts (tuple : ProcTuple)
  | exits (tuple : ProcTuple)

def maxProbes : ℕ := 3

namespace World

variable (w : World)

def setCall (i : ℕ) (call : Call) : World := { w with calls := Function.update w.calls i call }

def setPane (pane : String) (state : Pane) : World := { w with panes := Function.update w.panes pane state }

def isRunning (launched : Option ProcessIdentity) : Bool := launched.any fun l => w.life l.tuple = .running

def create (i : ℕ) (pane : String) (call : Call) : Option World :=
  if w.panes pane = .absent then some { (w.setCall i call).setPane pane .live with created := w.created ++ [pane] } else none

/-- `pane_close` of a live pane; one that is gone stays so. -/
def close (pane : String) (why : Why) (marker : Option ReleasedMarker) : World :=
  if w.panes pane = .live then { w.setPane pane .gone with closed := w.closed ++ [⟨pane, why, marker⟩] } else w

/-- `publish_record`, once. -/
def record (record : AllocationRecord) : World :=
  { w with records := w.records.insert record.key record, recorded := w.recorded ++ [record] }

/-- `publish_marker` of a released marker, once; whether it was published is not looked at. -/
def markReleased (marker : ReleasedMarker) : World :=
  if marker.key ∈ w.released then w
  else { w with released := w.released.insert marker.key marker, markers := w.markers ++ [marker] }

def afterMarker (record : AllocationRecord) (disposition : Disposition) («until» : Option ℕ) (callerPane : Option String) :
    Call :=
  match w.released[record.key]? with
  | some done =>
    if done.disposition = .retain ∧ disposition = .close ∧ record.origin = .allocated then .over
    else .released record.key done.disposition
  | none =>
    match record.origin, disposition with
    | .attached, .close =>
      if callerPane = some record.paneId then .closingOwn record (callerPane.getD "")
      else .publishing ⟨record.key, .close, none, .unlinked⟩
    | .attached, .retain => .publishing ⟨record.key, .retain, «until», .unlinked⟩
    | .allocated, .retain => .publishing ⟨record.key, .retain, «until», .retained⟩
    | .allocated, .close => .readingLaunched record

def foregroundIsOwned (launched : Option ProcessIdentity) (before : Bool) (info : ProcessInfo) : Bool :=
  info.foreground.all fun p =>
    p.pid = info.shellPid || launched.any fun l => l.tuple.pid = p.pid && before && w.life l.tuple = .running

/-- One step of `allocate`. -/
def stepAllocate (i : ℕ) : Call → Sight → Option World
  | .reading key groupKey, .plain =>
    match w.records[key]? with
    | some record => some (w.setCall i (.existing record))
    | none => some (w.setCall i (.placing key groupKey false))
  | .existing record, .plain => some (w.setCall i (if w.panes record.paneId = .live then .allocation record else .over))
  | .placing key groupKey _, .tab pane tab => w.create i pane (.recording key groupKey pane tab)
  | .placing key groupKey false, .split pane tab => w.create i pane (.measuring key groupKey pane tab)
  | .measuring key groupKey pane tab, .plain => some (w.setCall i (.recording key groupKey pane tab))
  | .measuring key groupKey pane _, .cramped =>
    some ((w.setCall i (.placing key groupKey true)).close pane .unrecorded none)
  | .recording key groupKey pane tab, .plain =>
    if key ∈ w.records then some (w.setCall i (.losing key groupKey pane))
    else
      let record := ⟨key, groupKey, tab, pane, .allocated⟩
      some ((w.setCall i (.allocation record)).record record)
  | .losing key groupKey pane, .plain => some ((w.setCall i (.reading key groupKey)).close pane .unrecorded none)
  | .losing key groupKey _, .fails => some (w.setCall i (.reading key groupKey))
  | _, _ => none

/-- One step of `attach`. -/
def stepAttach (i : ℕ) : Call → Sight → Option World
  | .owning key groupKey pane ancestors, .plain =>
    some (w.setCall i (if (w.shows pane).shellPid ∈ ancestors then .linking key groupKey pane else .over))
  | .linking key groupKey pane, .plain =>
    match w.records[key]? with
    | some record => some (w.setCall i (if record.paneId = pane then .allocation record else .over))
    | none => some (w.setCall i (.looking key groupKey pane))
  | .looking key groupKey pane, .layout tab =>
    some (w.setCall i (if w.panes pane = .live then .attaching key groupKey pane tab else .over))
  | .attaching key groupKey pane tab, .plain =>
    if key ∈ w.records then some (w.setCall i (.linking key groupKey pane))
    else
      let record := ⟨key, groupKey, tab, pane, .attached⟩
      some ((w.setCall i (.allocation record)).record record)
  | _, _ => none

/-- One step of `launch`. -/
def stepLaunch (i : ℕ) : Call → Sight → Option World
  | .finding key spec, .plain =>
    match w.records[key]? with
    | some record => some (w.setCall i (.unreleased record spec))
    | none => some (w.setCall i .over)
  | .unreleased record spec, .plain =>
    some (w.setCall i (if record.key ∈ w.released then .over else .living record spec))
  | .living record spec, .plain =>
    if w.panes record.paneId ≠ .live ∨ record.origin = .attached then some (w.setCall i .over)
    else
      match launchLine spec with
      | some line => some (w.setCall i (.unrequested record spec line))
      | none => some (w.setCall i .over)
  | .unrequested record spec line, .plain =>
    some (w.setCall i (if record.key ∈ w.launchRequested then .over else .waiting record spec line 0))
  | .waiting record spec line probes, .probe =>
    if isBareShell (w.shows record.paneId) ∧ probes < maxProbes then
      some (w.setCall i (.waiting record spec line (probes + 1)))
    else none
  | .waiting record spec line probes, .plain =>
    if isBareShell (w.shows record.paneId) ∧ probes ≠ 0 then some (w.setCall i (.bare record spec line)) else none
  | .waiting _ _ _ _, .late => some (w.setCall i .over)
  | .bare record spec line, .plain =>
    some (w.setCall i (if isBareShell (w.shows record.paneId) then .requesting record spec line else .over))
  | .requesting record spec line, .plain =>
    if record.key ∈ w.launchRequested then some (w.setCall i .over)
    else
      some { w.setCall i (.typing record spec line) with launchRequested := w.launchRequested ++ [record.key] }
  | .typing record spec line, sight =>
    some { w.setCall i (match sight with | .fails => .over | _ => .identifying record spec) with
      typed := w.typed ++ [⟨record.key, record.paneId, line, w.released[record.key]?⟩] }
  | .identifying record spec, .identified identity =>
    match launchedRoot (w.shows record.paneId) spec with
    | some p =>
      if p.pid = identity.tuple.pid ∧ identity.pgid = (w.shows record.paneId).foregroundPgid ∧
          w.life identity.tuple = .running then
        some (w.setCall i (.launching record.key identity))
      else none
    | none => none
  | .identifying _ _, .late => some (w.setCall i .over)
  | .launching key identity, .plain =>
    some { w.setCall i (.launched identity) with
      launched := if key ∈ w.launched then w.launched else w.launched.insert key identity }
  | _, _ => none

/-- One step of `release_as`. -/
def stepRelease (i : ℕ) : Call → Sight → Option World
  | .releasing key disposition «until» callerPane, .plain =>
    match w.records[key]? with
    | some record => some (w.setCall i (.marked record disposition «until» callerPane))
    | none => some (w.setCall i .over)
  | .marked record disposition «until» callerPane, .plain =>
    some (w.setCall i (w.afterMarker record disposition «until» callerPane))
  | .closingOwn record callerPane, .plain =>
    some ((w.setCall i (.publishing ⟨record.key, .close, none, .closed⟩)).close record.paneId (.own record callerPane)
      w.released[record.key]?)
  | .readingLaunched record, .plain => some (w.setCall i (.runningBefore record w.launched[record.key]?))
  | .runningBefore record launched, .plain => some (w.setCall i (.readingInfo record launched (w.isRunning launched)))
  | .readingInfo record launched before, .plain =>
    let info := w.shows record.paneId
    some (w.setCall i
      (if info.foreground = [] then .over else .runningAfter record launched before info (w.isRunning launched)))
  | .runningAfter record launched before info running, .plain =>
    some (w.setCall i (if w.foregroundIsOwned launched before info then .closing record launched info running else .over))
  | .closing record launched info running, .plain =>
    some ((w.setCall i (.publishing ⟨record.key, .close, none, .closed⟩)).close record.paneId
      (.owned record launched info running) w.released[record.key]?)
  | .publishing marker, .plain => some ((w.setCall i (.released marker.key marker.disposition)).markReleased marker)
  | _, _ => none

/-- One step of a call: one that its command takes, or an error that ends it. -/
def step (i : ℕ) (sight : Sight) : Option World :=
  match w.stepAllocate i (w.calls i) sight with
  | some w' => some w'
  | none =>
    match w.stepAttach i (w.calls i) sight with
    | some w' => some w'
    | none =>
      match w.stepLaunch i (w.calls i) sight with
      | some w' => some w'
      | none =>
        match w.stepRelease i (w.calls i) sight with
        | some w' => some w'
        | none =>
          match sight with
          | .fails => some (w.setCall i .over)
          | _ => none

/-- A call is made. -/
def start (call : Call) : World := { w.setCall w.count call with count := w.count + 1 }

def act : Act → Option World
  | .allocate key groupKey =>
    some (w.start (if validKey key && validKey groupKey then .reading key groupKey else .over))
  | .attach key groupKey pane ancestors =>
    some (w.start (if validKey key && groupKey.all validKey then .owning key (groupKey.getD key) pane ancestors else .over))
  | .launch key spec => some (w.start (if validKey key then .finding key spec else .over))
  | .releaseAs key disposition «until» callerPane =>
    some (w.start (if validKey key then .releasing key disposition «until» callerPane else .over))
  | .step i sight => w.step i sight
  | .crash i => some (w.setCall i .over)
  | .opens pane => if w.panes pane = .absent then some (w.setPane pane .live) else none
  | .closes pane => if w.panes pane = .live then some (w.setPane pane .gone) else none
  | .shows pane info => some { w with shows := Function.update w.shows pane info }
  | .starts tuple =>
    if w.life tuple = .unborn then some { w with life := Function.update w.life tuple .running } else none
  | .exits tuple =>
    if w.life tuple = .running then some { w with life := Function.update w.life tuple .over } else none

end World

/-! ### What the slots are to keep to -/

/-- Why the core may close a pane. -/
def ClosedHolds (w : World) (c : Closed) : Prop :=
  match c.why with
  | .unrecorded =>
    c.pane ∈ w.created ∧ ∀ (key : String) (record : AllocationRecord), w.records[key]? = some record → record.paneId ≠ c.pane
  | .owned record launched info running =>
    w.records[record.key]? = some record ∧ record.origin = .allocated ∧ record.paneId = c.pane ∧
      (∀ l, launched = some l → w.launched[record.key]? = some l) ∧ info.foreground ≠ [] ∧
      ∀ p ∈ info.foreground, p.pid = info.shellPid ∨ ∃ l, launched = some l ∧ l.tuple.pid = p.pid ∧ running = true
  | .own record callerPane =>
    w.records[record.key]? = some record ∧ record.origin = .attached ∧ record.paneId = c.pane ∧ callerPane = c.pane

structure SlotsHold (w : World) : Prop where
  /-- The record of a key is the one that was installed. -/
  record : ∀ r ∈ w.recorded, w.records[r.key]? = some r
  apart : ∀ ⦃key key' : String⦄ ⦃r r' : AllocationRecord⦄, w.records[key]? = some r →
    w.records[key']? = some r' → r.origin = .allocated → r'.origin = .allocated → r.paneId = r'.paneId → key = key'
  typedOnce : (w.typed.map Typed.key).Nodup
  typedInto : ∀ t ∈ w.typed, ∃ r, w.records[t.key]? = some r ∧ r.origin = .allocated ∧ r.paneId = t.pane
  typedBefore : ∀ t ∈ w.typed, t.marker = none
  marker : ∀ m ∈ w.markers, w.released[m.key]? = some m
  answers : ∀ ⦃i key disposition⦄, w.calls i = .released key disposition →
    ∃ m, w.released[key]? = some m ∧ m.disposition = disposition
  retained : ∀ c ∈ w.closed, ∀ m, c.marker = some m → m.outcome ≠ .retained
  closed : ∀ c ∈ w.closed, ClosedHolds w c

/-! ### The steps that no other call has looked past -/

/-- The key whose released marker the call has looked for and not found, before the last of what it does. -/
def Call.looksPast : Call → Option String
  | .living record _ | .unrequested record _ _ | .waiting record _ _ _ | .bare record _ _ | .requesting record _ _
  | .typing record _ _ | .closingOwn record _ | .readingLaunched record | .runningBefore record _ | .readingInfo record _ _
  | .runningAfter record _ _ _ _ | .closing record _ _ _ => some record.key
  | .publishing marker => some marker.key
  | _ => none

/-- The pane an allocate has created and not recorded. -/
def Call.holds : Call → Option String
  | .measuring _ _ pane _ | .recording _ _ pane _ | .losing _ _ pane => some pane
  | _ => none

def Why.isUnrecorded : Why → Bool
  | .unrecorded => true
  | _ => false

/-- A released marker is installed while no other call has looked for it and goes on, and a pane is attached that no
allocate has created for itself. -/
def unseen (w : World) : Act → Bool
  | .step i .plain =>
    match w.calls i with
    | .publishing marker => (List.range w.count).all fun j => j = i || (w.calls j).looksPast ≠ some marker.key
    | .attaching _ _ pane _ =>
      ((List.range w.count).all fun j => (w.calls j).holds ≠ some pane) &&
        w.closed.all fun c => !c.why.isUnrecorded || c.pane ≠ pane
    | _ => true
  | _ => true

end Forgent.Terminal
