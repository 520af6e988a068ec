import Forgent.Patterns.Catalog

/-!
# The collaboration of a Unit run

`resolveCollaboration` says which pattern runs a Unit, with which parameters and which seats.  A parameter comes from
the first of eight layers that has it: the request, the caller's selector, the seats of the Unit, the activity, the
Unit, the defaults of the pattern, the config of the loop, and the language of the loop itself.  Then come the floors
and the fixed values of the pattern's invariants, and of the activity's pattern where another one was asked for.

* `selectPattern`: the pattern that is selected, and whether it was swapped for the activity's.
* `layerParams`, `addFloors`, `applyFixedInvariants`: the parameters.
* `resolveCollaboration`: all of it, with the checks in their order.
-/

namespace Forgent.Patterns

open Json

/-! ### What is resolved -/

structure Bound where
  min : Option ℤ
  max : Option ℤ

structure LoopConfig where
  maxRounds : Option ℤ
  checkersByRigor : Table (List String)
  bounds : Table Bound

structure RunnerConfig where
  patterns : Table Json
  capabilities : Table Capability
  loops : Table LoopConfig

structure Shipped where
  patterns : Table Fields
  checkersByRigor : Table (List String)

structure Selectors where
  callerObject : Option Json
  callerString : Option Json
  activityUnit : Option Json

structure Options where
  unit : Option Json
  selectors : Selectors
  request : Option Json
  inCase : Bool
  reason : Option Json
  runnerConfig : RunnerConfig
  shipped : Shipped

/-! ### The selected pattern -/

inductive Source where
  | callerObject
  | unit
  | callerString
  | activity
  | solo
  deriving DecidableEq

structure Selection where
  baseline : Source
  selectedName : String
  isSwap : Bool
  activityPattern : Option String

def nonEmptyString : Option Json → Option String
  | some (.str s) => if s = "" then none else some s
  | _ => none

def hasReason : Option Json → Bool
  | some (.str reason) => trim reason ≠ ""
  | _ => false

/-- The patterns that are asked for, each by whom. -/
def explicitSelectors (unit : Option Json) (selectors : Selectors) : List (Source × String) :=
  let named (source : Source) (name : Option String) : List (Source × String) := name.toList.map (source, ·)
  named .callerObject ((nonEmptyString selectors.callerObject).or (nonEmptyString (member selectors.callerObject "pattern"))) ++
    named .unit ((nonEmptyString (member unit "pattern")).or (nonEmptyString (member (member unit "pattern") "pattern"))) ++
    named .callerString (nonEmptyString selectors.callerString)

def selectPattern (o : Options) : Except Code Selection := do
  let activityPattern := nonEmptyString (member o.selectors.activityUnit "pattern")
  let ofCase := if o.inCase then activityPattern else none
  match explicitSelectors o.unit o.selectors with
  | [] =>
    let baseline := if ofCase.isSome then Source.activity else Source.solo
    .ok { baseline, selectedName := ofCase.getD "solo", isSwap := false, activityPattern }
  | (source, name) :: others =>
    check (others.all (·.2 = name)) "selector-conflict"
    let isSwap := ofCase.any (· ≠ name)
    check (!isSwap || hasReason o.reason) "request-reason-required"
    .ok { baseline := if isSwap then .activity else source, selectedName := name, isSwap, activityPattern }

/-! ### What the carriers declare -/

def requirePlainObject (value : Option Json) : Except Code Unit := check (value.isNone || isPlainObject value) "param-invalid"

def checkCarrierDomainValue (n : Numerals) (key : String) (val : Json) : Except Code Unit :=
  match key with
  | "maxRounds" => check (isPositiveInteger n val) "param-invalid"
  | "minCheckers" =>
    match val with
    | .arr items => check (items.all fun c => (asChecker c).isOk) "param-invalid"
    | _ => .error "param-invalid"
  | "rebuttal" => check (isBoolean val) "param-invalid"
  | "seats" => do
    let _ ← checkDeclaredSeats val
    pure ()
  | "roleTasks" =>
    match val with
    | .obj fields => check ((spread (some (.obj fields))).toList.all fun e => isText e.2) "param-invalid"
    | _ => .error "param-invalid"
  | _ => pure ()

def checkCarrierParam (n : Numerals) (table : ParamTable) (key : String) (val : Json) : Except Code Unit := do
  check (table.lookup key).isSome "param-unknown"
  checkCarrierDomainValue n key val

def checkCarrierParams (n : Numerals) (table : ParamTable) (params : Fields) : Except Code Unit :=
  params.toList.forM fun e => checkCarrierParam n table e.1 e.2

/-- The seats and role tasks a Unit or an activity declares beside its params. -/
def loosePartsOf (carrier : Option Json) : Fields :=
  record [("seats", member carrier "seats"), ("roleTasks", member carrier "roleTasks")]

def unitPatternObject (unit : Option Json) : Option Json :=
  if isPlainObject (member unit "pattern") then member unit "pattern" else none

def unitDeclaredOf (unit : Option Json) : Fields :=
  ((spread (member (unitPatternObject unit) "params")).assign (loosePartsOf unit)).assign (spread (member unit "params"))

/-- `entryNamed`. -/
def entryOr (o : Options) (name : String) : Except Code Fields :=
  match entryNamed o.shipped.patterns o.runnerConfig.patterns name with
  | some entry => .ok entry
  | none => .error "unknown-pattern"

/-- The params of the activity, checked against its own loop, with its seats and role tasks. -/
def activityDeclaredParamsOf (n : Numerals) (o : Options) : Except Code Fields := do
  let activity := o.selectors.activityUnit
  requirePlainObject (member activity "params")
  let declared := (loosePartsOf activity).assign (spread (member activity "params"))
  let loop ← match nonEmptyString (member activity "pattern") with
    | some name => do
      let entry ← entryOr o name
      pure entry["loop"]?
    | none => pure (some (.str "solo"))
  checkCarrierParams n ((paramTableOf loop).getD []) declared
  pure declared

/-! ### The request -/

def isDecimal (text : List Char) : Bool :=
  let digits := match text with
    | '-' :: rest => rest
    | rest => rest
  !digits.isEmpty && digits.all fun c => '0' ≤ c && c ≤ '9'

def parseScalarValue (n : Numerals) (type : ScalarType) (raw : Json) : Except Code Json :=
  match type, raw with
  | .integer, .num v => if isPositiveInteger n (.num v) then .ok (.num v) else .error "param-invalid"
  | .integer, .str text =>
    if isDecimal text.toList && isPositiveInteger n (n.number text) then .ok (n.number text) else .error "param-invalid"
  | .boolean, .bool b => .ok (.bool b)
  | .boolean, .str text => if text = "true" ∨ text = "false" then .ok (.bool (text = "true")) else .error "param-invalid"
  | _, _ => .error "param-invalid"

def scalarPairs : Json → Except Code (List (Option Json × Option Json))
  | .str item =>
    let text := item.toList
    if '=' ∈ text then
      .ok [(some (.str (String.ofList (text.takeWhile (· ≠ '=')))), some (.str (String.ofList ((text.dropWhile (· ≠ '=')).drop 1))))]
    else .error "param-invalid"
  | .arr [key] => .ok [(some key, none)]
  | .arr [key, value] => .ok [(some key, some value)]
  | .obj fields =>
    let item : Json := .obj fields
    if (item.field "key").isSome then .ok [(item.field "key", item.field "value")]
    else if (spread (some item)).isEmpty then .error "param-invalid"
    else .ok ((spread (some item)).toList.map fun e => (some (.str e.1), some e.2))
  | _ => .error "param-invalid"

def scalarPairsOf : Json → Except Code (List (Option Json × Option Json))
  | .arr items => do
    let pairs ← items.mapM scalarPairs
    pure pairs.flatten
  | .obj fields => .ok ((spread (some (.obj fields))).toList.map fun e => (some (.str e.1), some e.2))
  | _ => .error "param-invalid"

def addScalar (n : Numerals) (table : ParamTable) (params : Option Json) (parsed : Fields) (pair : Option Json × Option Json) :
    Except Code Fields := do
  let some key := nonEmptyString pair.1 | .error "param-invalid"
  check (key ∉ parsed) "param-request-conflict"
  check (member params key).isNone "param-request-conflict"
  let some type := table.lookup key | .error "param-unknown"
  let some type := type | .error "param-invalid"
  let some raw := pair.2 | .error "param-invalid"
  let value ← parseScalarValue n type raw
  pure (parsed.insert key value)

def parseRequestScalars (n : Numerals) (table : ParamTable) (request : Option Json) : Except Code Fields :=
  match member request "scalars" with
  | none => pure ∅
  | some scalars => do
    let pairs ← scalarPairsOf scalars
    pairs.foldlM (addScalar n table (member request "params")) ∅

def checkRequestParam (n : Numerals) (table : ParamTable) (key : String) (val : Json) : Except Code Unit := do
  check (key ≠ "roleTasks") "param-not-requestable"
  checkCarrierParam n table key val

def normalizeRequest (n : Numerals) (table : ParamTable) (request : Option Json) : Except Code Fields := do
  check (request.isNone || request = some .null || isPlainObject request) "param-invalid"
  let scalars ← parseRequestScalars n table request
  requirePlainObject (member request "params")
  let params := spread (member request "params")
  params.toList.forM fun e => checkRequestParam n table e.1 e.2
  pure (params.assign scalars)

/-! ### The parameters -/

/-- The parameters, and the layer each comes from. -/
structure Params where
  effective : Fields
  provenance : Table String

/-- `DEFAULT_MAX_ROUNDS` and `DEFAULT_REBUTTAL`. -/
def builtin (loop : Option Json) (param : String) : Option Json :=
  if loop = some (.str "reviewed") ∧ param = "maxRounds" then some (nat 2)
  else if loop = some (.str "debate") ∧ param = "rebuttal" then some (.bool true)
  else none

/-- What the layers say of a parameter, the strongest first. -/
structure Layers where
  request : Fields
  selector : Fields
  unit : Fields
  activity : Option Fields
  defaults : Option Json
  config : Option LoopConfig
  loop : Option Json

def Layers.values (l : Layers) (param : String) : List (Option Json × String) :=
  [(l.request[param]?, "request"), (l.selector[param]?, "selector"),
    (if param = "seats" then l.unit["seats"]? else none, "unit"), (l.activity.bind fun a => a[param]?, "activity"),
    (l.unit[param]?, "unit"), (member l.defaults param, "pattern-default"),
    (if param = "maxRounds" then (l.config.bind (·.maxRounds)).map fun i => .num (.int i) else none, "config"),
    (builtin l.loop param, "builtin")]

/-- The layer that wins, and its value. -/
def Layers.winner (l : Layers) (param : String) : Option (Json × String) :=
  (l.values param).findSome? fun (value, slot) => value.map (·, slot)

def Params.take (p : Params) (param : String) (value : Json) (slot : String) : Params where
  effective := p.effective.insert param value
  provenance := p.provenance.insert param slot

def layerParams (l : Layers) (table : ParamTable) : Params :=
  table.foldl (fun p entry => (l.winner entry.1).elim p fun (value, slot) => p.take entry.1 value slot) ⟨∅, ∅⟩

def floorsOf (entry : Fields) (name : String) : List Floor :=
  (itemsOf (member (member entry["invariants"]? "minCheckers") "atLeast")).map (⟨·, name⟩)

/-- The list with the name, at its end where it does not have it. -/
def addName (list : List Json) (name : Json) : List Json := if includes list name then list else list ++ [name]

def addFloors (table : ParamTable) (floors : List Floor) (p : Params) : Params :=
  if floors.isEmpty || (table.lookup "minCheckers").isNone then p
  else
    { effective := p.effective.insert "minCheckers"
        (.arr ((floors.map (·.name)).foldl addName (itemsOf p.effective["minCheckers"]?)))
      provenance := p.provenance.insertIfNew "minCheckers" "pattern-invariant" }

/-- One fixed value; another one is refused where it comes from one of the slots (from any where none are given). -/
def applyFixed (weakeningSlots : Option (List String)) (p : Params) (param : String) (inv : Json) : Except Code Params :=
  match inv.field "fixed" with
  | none => .ok p
  | some value =>
    let clash := (p.effective[param]?).any fun v => !deepEqual v value
    let counts := weakeningSlots.elim true fun slots => (p.provenance[param]?).any (· ∈ slots)
    if clash && counts then .error "pattern-invariant-weakened" else .ok (p.take param value "pattern-invariant")

def applyFixedInvariants (invariants : Option Json) (weakeningSlots : Option (List String)) (p : Params) : Except Code Params :=
  (spread invariants).toList.foldlM (fun p e => applyFixed weakeningSlots p e.1 e.2) p

def checkRequestedBound (lt : Number → Number → Bool) (p : Params) (param : String) (bound : Bound) : Except Code Unit :=
  match p.effective[param]? with
  | some (.num v) =>
    if p.provenance[param]? = some "request" then do
      check (!bound.min.any fun least => lt v (.int least)) "param-out-of-bounds"
      check (!bound.max.any fun most => lt (.int most) v) "param-out-of-bounds"
    else pure ()
  | _ => pure ()

/-! ### The resolution -/

/-- The result, with what the pin of the run records of it. -/
structure Collaboration where
  loop : Option Json
  params : Fields
  seats : List Seat
  roleTasks : Json
  entry : Fields
  pattern : String
  baseline : Source
  requested : Option (Option String × Fields)
  provenance : Table String

/-- The entry of the activity's pattern where another one was asked for; the selected loop reads the parameters of all
its invariants. -/
def swappedEntry (o : Options) (selection : Selection) (table : ParamTable) : Except Code (Option Fields) :=
  match selection.activityPattern with
  | some activityPattern =>
    if selection.isSwap then do
      let entry ← entryOr o activityPattern
      check ((keysOf entry["invariants"]?).all fun param => (table.lookup param).isSome) "pattern-invariant-weakened"
      pure (some entry)
    else pure none
  | none => pure none

/-- What the callers and the Unit declare, checked in turn. -/
def checkCarriers (n : Numerals) (o : Options) (table : ParamTable) : Except Code Unit := do
  let callerParams := member o.selectors.callerObject "params"
  requirePlainObject callerParams
  checkCarrierParams n table (spread callerParams)
  checkCarrierParams n table (spread (member (unitPatternObject o.unit) "params"))
  checkCarrierParams n table (spread (member o.unit "params"))
  checkCarrierParams n table (loosePartsOf o.unit)

/-- The slots a selected pattern's fixed value may not be contradicted from. -/
def weakeningSlots : List String := ["request", "selector", "unit", "activity"]

def loopConfigOf (o : Options) (loop : Option Json) : Option LoopConfig :=
  match loop with
  | some (.str name) => o.runnerConfig.loops[name]?
  | _ => none

def layersOf (o : Options) (selection : Selection) (entry request activity : Fields) : Layers where
  request := request
  selector := spread (member o.selectors.callerObject "params")
  unit := unitDeclaredOf o.unit
  activity := if selection.baseline = .activity ∧ !selection.isSwap then some activity else none
  defaults := entry["defaults"]?
  config := loopConfigOf o entry["loop"]?
  loop := entry["loop"]?

/-- The floors and the fixed values of the invariants, on the layered parameters. -/
def applyInvariants (table : ParamTable) (floors : List Floor) (entry : Fields) (activityEntry : Option Fields) (p : Params) :
    Except Code Params := do
  let p ← applyFixedInvariants entry["invariants"]? (some weakeningSlots) (addFloors table floors p)
  match activityEntry with
  | some activityEntry => applyFixedInvariants activityEntry["invariants"]? none p
  | none => pure p

def seatInputOf (o : Options) (loop : Option Json) (floors : List Floor) (p : Params) : SeatInput where
  loop := loopNamed loop
  params := p.effective
  floors := floors
  unit := unitParts o.unit
  staffing :=
    { capabilities := o.runnerConfig.capabilities
      configured := (o.runnerConfig.loops["reviewed"]?).elim ∅ (·.checkersByRigor)
      shipped := o.shipped.checkersByRigor }
  slot := p.provenance["minCheckers"]?

/-- The floors of the selected pattern, then those of the activity's. -/
def allFloors (selection : Selection) (entry : Fields) (activityEntry : Option Fields) : List Floor :=
  floorsOf entry selection.selectedName ++
    activityEntry.elim [] fun activityEntry => floorsOf activityEntry (selection.activityPattern.getD "")

def resolveCollaboration (n : Numerals) (o : Options) : Except Code Collaboration := do
  (checkCatalog n o.shipped.patterns o.runnerConfig.patterns).forM .error
  requirePlainObject (member o.unit "params")
  requirePlainObject (member (unitPatternObject o.unit) "params")
  let selection ← selectPattern o
  let entry ← entryOr o selection.selectedName
  let some table := paramTableOf entry["loop"]? | .error "unknown-pattern"
  let activityEntry ← swappedEntry o selection table
  let request ← normalizeRequest n table o.request
  check (!(o.inCase && !request.isEmpty) || hasReason o.reason) "request-reason-required"
  checkCarriers n o table
  let activity ← activityDeclaredParamsOf n o
  let floors := allFloors selection entry activityEntry
  let p ← applyInvariants table floors entry activityEntry (layerParams (layersOf o selection entry request activity) table)
  ((loopConfigOf o entry["loop"]?).elim ∅ (·.bounds)).toList.forM fun e => checkRequestedBound n.lt p e.1 e.2
  let seats ← resolveSeats (seatInputOf o entry["loop"]? floors p)
  pure
    { loop := entry["loop"]?
      params := p.effective
      seats
      roleTasks := orNull (orElse (orElse p.effective["roleTasks"]? (member entry["defaults"]? "roleTasks")) (some (.obj [])))
      entry
      pattern := selection.selectedName
      baseline := selection.baseline
      requested := if selection.isSwap || !request.isEmpty then
        some (if selection.isSwap then some selection.selectedName else none, request) else none
      provenance := p.provenance }

end Forgent.Patterns
