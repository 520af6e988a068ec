import Forgent.Members
import Forgent.WriteScope

/-!
# The seats a Unit's pattern fills

The seat resolver says which seats a loop fills for a Unit.  A solo loop has one producer; a reviewed loop a producer
and one seat for every checker of its plan; a panel its declared producers and a synthesizer; a debate two producers
and a judge.  The checker plan of a reviewed Unit is put together from the row of its rigor, what its capability asks
for, the floors of the patterns, and what its parameters ask for.  A refusal is told by its code.

* `checkDeclaredSeats`: the seats that a pattern, a Unit or a request declares.
* `checkerPlanOf`: the checkers a reviewed Unit needs, each with where it comes from.
* `resolveSeats`: the seats.
-/

namespace Forgent.Patterns

open Json

abbrev Code := String

def check (ok : Bool) (code : Code) : Except Code Unit := if ok then .ok () else .error code

/-! ### The vocabulary -/

inductive Loop where
  | solo
  | reviewed
  | panel
  | debate
  deriving DecidableEq

/-- `LOOP_NAMES`. -/
def loopNames : List (String × Loop) :=
  [("solo", .solo), ("reviewed", .reviewed), ("panel", .panel), ("debate", .debate)]

/-- `SEAT_ROLES`. -/
def seatRoles : List String := ["producer", "synthesizer", "reviewer", "red-team", "judge"]

structure CheckerSeat where
  role : String
  verdict : Bool
  deriving DecidableEq

/-- `CHECKER_SEATS`. -/
def checkerSeats : List (String × CheckerSeat) :=
  [("reviewer", ⟨"reviewer", true⟩), ("red-team", ⟨"red-team", true⟩), ("tester", ⟨"reviewer", false⟩)]

def checkerSeat? (name : String) : Option CheckerSeat := checkerSeats.lookup name

/-- `RESERVED_SEAT_IDS`. -/
def reservedSeatIds : List String := ["verify", "verifier"]

/-- How a seat may run. -/
structure Posture where
  readOnly : Bool := false
  writer : Bool := false
  forceOutOfProcess : Bool := false
  stance : Bool := false
  verdict : Bool := false
  deriving DecidableEq

def Posture.toJson (p : Posture) : Json :=
  .obj [("readOnly", .bool p.readOnly), ("writer", .bool p.writer), ("forceOutOfProcess", .bool p.forceOutOfProcess),
    ("stance", .bool p.stance), ("verdict", .bool p.verdict)]

def isPlainObject : Option Json → Bool
  | some (.obj _) => true
  | _ => false

/-- The names of the members of an object. -/
def keysOf (value : Option Json) : List String := (spread value).keys

/-! ### Rigor -/

/-- `RIGOR_VALUES`, from the weakest to the strongest. -/
def rigorValues : List String := ["low", "standard", "high", "critical"]

def rigorRank (rigor : String) : ℕ := rigorValues.idxOf rigor

def readRigor : Option Json → Except Code (Option String)
  | none | some .null => .ok none
  | some (.str rigor) => if rigor ∈ rigorValues then .ok (some rigor) else .error "RangeError"
  | some _ => .error "RangeError"

def resolveStrongerRigor (a b : Option Json) : Except Code (Option String) := do
  match ← readRigor a, ← readRigor b with
  | none, b => pure b
  | a, none => pure a
  | some a, some b => pure (some (if rigorRank a < rigorRank b then b else a))

structure Capability where
  rigor : Option String
  minCheckers : Option (List String)

/-- The entries that apply to a capability, the exact one first. -/
def capabilityEntriesOf {α : Type} (capabilities : Table α) (capability : Option Json) : List (String × α) :=
  match capability with
  | some (.str name) =>
    let text := name.toList
    let keys := if ':' ∈ text then [name, String.ofList (text.takeWhile (· ≠ ':')) ++ ":*"] else [name]
    if name = "" then [] else keys.filterMap fun key => (capabilities[key]?).map fun entry => (key, entry)
  | _ => []

/-- `DEFAULT_CAPABILITY_MIN_CHECKERS`. -/
def defaultCapabilityMinCheckers : Table (List String) :=
  Std.ExtTreeMap.ofList [("code", ["red-team"]), ("code:*", ["red-team"])]

/-- What the resolver reads of a Unit. -/
structure UnitParts where
  rigor : Option Json
  capability : Option Json
  writes : Option Json
  seats : Option Json

def unitParts (unit : Option Json) : UnitParts where
  rigor := member unit "rigor"
  capability := member unit "capability"
  writes := member unit "writes"
  seats := member unit "seats"

/-- What the resolver reads of the config: the capabilities, and the configured and shipped rows of `checkersByRigor`. -/
structure Staffing where
  capabilities : Table Capability
  configured : Table (List String)
  shipped : Table (List String)

def capabilityRigorOf (staffing : Staffing) (unit : UnitParts) : Except Code (Option String) :=
  match (capabilityEntriesOf staffing.capabilities unit.capability).findSome? (·.2.rigor) with
  | none => .ok none
  | some rigor => if rigor ∈ rigorValues then .ok (some rigor) else .error "RangeError"

/-- With `standard` where neither the Unit nor its capability says one. -/
def effectiveRigorOf (staffing : Staffing) (unit : UnitParts) : Except Code String := do
  let capabilityRigor ← capabilityRigorOf staffing unit
  let rigor ← resolveStrongerRigor unit.rigor (capabilityRigor.map .str)
  pure (rigor.getD "standard")

/-! ### The checker plan -/

/-- A checker of the plan, with the provenance strings that brought it in. -/
structure CheckerPlan where
  seat : String
  contributions : List String
  deriving DecidableEq

def addChecker (plan : List CheckerPlan) (seat contribution : String) : List CheckerPlan :=
  if plan.any (·.seat = seat) then
    plan.map fun p => if p.seat = seat ∧ contribution ∉ p.contributions then
      { p with contributions := p.contributions ++ [contribution] } else p
  else plan ++ [⟨seat, [contribution]⟩]

/-- A floor: a checker that an invariant of a pattern asks for, and that pattern. -/
structure Floor where
  name : Json
  source : String

/-- `Array.isArray(value) ? value : (value ? [value] : [])`. -/
def listOf (value : Option Json) : List Json :=
  match value with
  | some (.arr items) => items
  | some v => if truthy (some v) then [v] else []
  | none => []

/-- The rows of `checkersByRigor` for a rigor: the configured one, the shipped one, and below `standard` that of `standard`. -/
def rigorRow (staffing : Staffing) (rigor : String) : Option (List String) :=
  let row (name : String) : Option (List String) := (staffing.configured[name]?).or staffing.shipped[name]?
  (row rigor).or (if rigorRank rigor < rigorRank "standard" then row "standard" else none)

/-- What a capability asks for: the first of its entries that says something, else the shipped default. -/
def capabilityCheckers (staffing : Staffing) (unit : UnitParts) : List (String × String) :=
  match (capabilityEntriesOf staffing.capabilities unit.capability).findSome? fun (key, entry) => entry.minCheckers.map (key, ·) with
  | some (key, names) => names.map fun name => (name, "capability:" ++ key)
  | none =>
    match (capabilityEntriesOf defaultCapabilityMinCheckers unit.capability).head? with
    | some (_, names) => names.map fun name => (name, "code:default-red-team")
    | none => []

def slotContribution (slot : Option String) : String :=
  match slot with
  | none => "request"
  | some slot => if slot = "" ∨ slot = "request" then "request" else if "param:".toList.isPrefixOf slot.toList then slot else "param:" ++ slot

/-- Everything that brings a checker in, in order.  Of what is requested only the names count. -/
def contributionsOf (staffing : Staffing) (unit : UnitParts) (floors : List Floor) (requested : Option Json)
    (slot : Option String) : Except Code (List (Json × String)) := do
  let rigor ← effectiveRigorOf staffing unit
  let some fromRigor := rigorRow staffing rigor | .error "configuration-error"
  let asked := (listOf requested).filter fun item => match item with | .str _ => true | _ => false
  pure (fromRigor.map (fun name => (.str name, "rigor:" ++ rigor)) ++
    (capabilityCheckers staffing unit).map (fun c => (.str c.1, c.2)) ++
    floors.map (fun floor => (floor.name, "pattern-invariant:" ++ floor.source)) ++
    asked.map (fun item => (item, slotContribution slot)))

def asChecker : Json → Except Code String
  | .str name => if (checkerSeat? name).isSome then .ok name else .error "param-invalid"
  | _ => .error "param-invalid"

def checkerPlanOf (staffing : Staffing) (unit : UnitParts) (floors : List Floor) (requested : Option Json)
    (slot : Option String) : Except Code (List CheckerPlan) := do
  let contributions ← contributionsOf staffing unit floors requested slot
  let named ← contributions.mapM fun c => do
    let name ← asChecker c.1
    pure (name, c.2)
  pure (named.foldl (fun plan c => addChecker plan c.1 c.2) [])

/-! ### Declared seats -/

structure Declared where
  seat : String
  role : String
  persona : Option String
  tier : Option Json

/-- `DECLARED_KEYS`. -/
def declaredKeys : List String := ["seat", "role", "persona", "tier"]

/-- The identifier rule `seat-id`. -/
def isSeatId (value : String) : Bool :=
  let first := "abcdefghijklmnopqrstuvwxyz".toList
  let rest := "abcdefghijklmnopqrstuvwxyz0123456789-".toList
  match value.toList with
  | [] => false
  | c :: cs => first.contains c && (c :: cs).length ≤ 40 && cs.all rest.contains &&
    value ∉ ["runs", "outbox", "inbox", "inputs", "unit-control", "control", "sync", "verify", "verifier"]

def trim (text : String) : String := String.ofList (WriteScope.trim text.toList)

def readPersona : Option Json → Except Code (Option String)
  | none => .ok none
  | some (.str persona) => if trim persona = "" then .error "invalid-seats" else .ok (some (trim persona))
  | some _ => .error "invalid-seats"

def checkDeclaredSeat (seen : List String) (entry : Json) : Except Code Declared := do
  check (isPlainObject (some entry)) "invalid-seats"
  check ((keysOf (some entry)).all (· ∈ declaredKeys)) "invalid-seats"
  let some (.str seat) := entry.field "seat" | .error "invalid-seat-id"
  check (seat ∉ reservedSeatIds) "param-invalid"
  check (isSeatId seat) "invalid-seat-id"
  check (seat ∉ seen) "duplicate-seat"
  let some (.str role) := entry.field "role" | .error "invalid-seat-role"
  check (role ∈ seatRoles) "invalid-seat-role"
  let persona ← readPersona (entry.field "persona")
  let tier := entry.field "tier"
  pure { seat, role, persona, tier := if truthy tier then tier else none }

def checkSeatsAfter : List String → List Json → Except Code (List Declared)
  | _, [] => .ok []
  | seen, entry :: rest => do
    let declared ← checkDeclaredSeat seen entry
    let others ← checkSeatsAfter (declared.seat :: seen) rest
    pure (declared :: others)

def checkDeclaredSeats : Json → Except Code (List Declared)
  | .arr (entry :: rest) => checkSeatsAfter [] (entry :: rest)
  | _ => .error "invalid-seats"

/-! ### The resolver -/

abbrev Seat := Fields

def seatOf (seat role : String) (posture : Posture) : Seat :=
  record [("seat", some (.str seat)), ("role", some (.str role)), ("posture", some posture.toJson)]

def withDeclared (declared : Declared) (base : Seat) : Seat :=
  (base.keep "persona" (declared.persona.map .str)).keep "tier" declared.tier

/-- `(unit?.writes ?? []).length === 0`. -/
def noWrites (unit : UnitParts) : Bool :=
  match unit.writes with
  | none | some .null | some (.arr []) | some (.str "") => true
  | some (.obj fields) => same (Json.field (.obj fields) "length") (some (.num (.int 0)))
  | _ => false

/-- The role a checker of the plan takes. -/
def roleOf (name : String) : Option String := (checkerSeat? name).map (·.role)

def checkerPosture (name : String) : Posture :=
  { readOnly := true, forceOutOfProcess := true, verdict := ((checkerSeat? name).map (·.verdict)).getD false }

/-- The first element that passes the test, and the list without it. -/
def takeFirst {α : Type} (test : α → Bool) : List α → Option (α × List α)
  | [] => none
  | a :: rest => if test a then some (a, rest) else (takeFirst test rest).map fun (b, others) => (b, a :: others)

def unassignedAfter : List CheckerPlan → List Declared → List CheckerPlan × List String
  | plan, [] => (plan, [])
  | plan, d :: declared =>
    match takeFirst (fun p => roleOf p.seat = some d.role) plan with
    | some (_, rest) => unassignedAfter rest declared
    | none => ((unassignedAfter plan declared).1, d.role :: (unassignedAfter plan declared).2)

def assignSeats (producerPosture : Posture) : List String → List Declared → Except Code (List Seat)
  | _, [] => .ok []
  | names, d :: declared =>
    if d.role = "producer" then do
      let others ← assignSeats producerPosture names declared
      pure (withDeclared d (seatOf d.seat d.role producerPosture) :: others)
    else
      match takeFirst (fun name => roleOf name = some d.role) names with
      | some (name, rest) => do
        let others ← assignSeats producerPosture rest declared
        pure (withDeclared d (seatOf d.seat d.role (checkerPosture name)) :: others)
      | none => do
        let some name := names.getLast? | .error "TypeError"
        let others ← assignSeats producerPosture names.dropLast declared
        pure (withDeclared d (seatOf d.seat d.role (checkerPosture name)) :: others)

/-- Whether a role is one of those a loop has a use for, in the number it needs (none for at least one). -/
def requireRoles (declared : List Declared) (expected : List (String × Option ℕ)) : Except Code Unit := do
  let count (role : String) : ℕ := declared.countP (·.role = role)
  check (expected.all fun (role, n) => n.elim (1 ≤ count role) (count role = ·)) "seat-multiplicity"
  check (declared.all fun d => d.role ∈ expected.map Prod.fst) "seat-multiplicity"

/-- Seats that carry their posture already are taken as they are. -/
def givenSeats (raw : Option Json) : Option (List Json) :=
  match raw with
  | some (.arr items) => if items ≠ [] ∧ items.all (fun d => truthy (d.field "posture")) then some items else none
  | _ => none

structure SeatInput where
  loop : Option Loop
  params : Fields
  floors : List Floor
  unit : UnitParts
  staffing : Staffing
  slot : Option String

def soloSeats (input : SeatInput) : Option (List Declared) → Except Code (List Seat)
  | none => .ok [seatOf "producer" "producer" { readOnly := noWrites input.unit, writer := true }]
  | some [d] =>
    if d.role = "producer" then
      .ok [withDeclared d (seatOf d.seat "producer" { readOnly := noWrites input.unit, writer := true })]
    else .error "seat-multiplicity"
  | some _ => .error "seat-multiplicity"

def reviewedSeats (input : SeatInput) (declared : Option (List Declared)) : Except Code (List Seat) := do
  let plan ← checkerPlanOf input.staffing input.unit input.floors input.params["minCheckers"]? input.slot
  let required := plan.map (·.seat)
  let producerPosture : Posture := { readOnly := noWrites input.unit, writer := true }
  match declared with
  | none =>
    pure (seatOf "producer" "producer" producerPosture ::
      required.map fun name => seatOf name ((roleOf name).getD "") (checkerPosture name))
  | some declared => do
    check (declared.countP (·.role = "producer") = 1) "seat-multiplicity"
    let (unassigned, extra) := unassignedAfter plan (declared.filter fun d => d.role ≠ "producer")
    let fromInvariant := unassigned.any fun p => p.contributions.any ("pattern-invariant:".toList.isPrefixOf ·.toList)
    check (unassigned.isEmpty && extra.isEmpty) (if fromInvariant then "pattern-invariant-weakened" else "seat-multiplicity")
    assignSeats producerPosture required declared

def panelSeats (input : SeatInput) : Option (List Declared) → Except Code (List Seat)
  | none => .error "seats-required"
  | some declared => do
    requireRoles declared [("producer", none), ("synthesizer", some 1)]
    let seatsOf (role : String) (posture : Posture) : List Seat :=
      (declared.filter fun d => d.role = role).map fun d => withDeclared d (seatOf d.seat d.role posture)
    pure (seatsOf "producer" { readOnly := true, forceOutOfProcess := true, stance := true } ++
      seatsOf "synthesizer" { readOnly := noWrites input.unit, forceOutOfProcess := true })

def debateSeats : Option (List Declared) → Except Code (List Seat)
  | none => .error "seats-required"
  | some declared => do
    requireRoles declared [("producer", some 2), ("judge", some 1)]
    let seatsOf (role : String) : List Seat :=
      (declared.filter fun d => d.role = role).map fun d =>
        withDeclared d (seatOf d.seat d.role { readOnly := true, forceOutOfProcess := true })
    pure (seatsOf "producer" ++ seatsOf "judge")

def resolveSeats (input : SeatInput) : Except Code (List Seat) :=
  let raw := (input.params["seats"]?).or input.unit.seats
  match givenSeats raw with
  | some items => .ok (items.map fun d => spread (some d))
  | none => do
    let declared ← match raw with
      | none => pure none
      | some raw => do
        let declared ← checkDeclaredSeats raw
        pure (some declared)
    match input.loop with
    | some .solo => soloSeats input declared
    | some .reviewed => reviewedSeats input declared
    | some .panel => panelSeats input declared
    | some .debate => debateSeats declared
    | none => .error "unknown-pattern"

end Forgent.Patterns
