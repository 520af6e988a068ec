import Forgent.Patterns.Seats

/-!
# The catalog of patterns

A pattern has a promise, the loop that runs it, defaults of the loop's parameters, and invariants: for a list the names
it holds at least, for any other parameter the exact value it has.  The shipped catalog is overlaid by the project's,
section by section; `checkCatalog` says what is wrong with the two together.

* `checkParamDomain`, `checkInvariantForm`: the values a parameter may have, and the two forms of an invariant.
* `checkShippedOverride`: what the project may not do to a shipped entry.
* `checkCatalog`: the codes of the problems; `entryNamed`: the entry of the merged catalog.
-/

namespace Forgent.Patterns

open Json

/-! ### The parameters of a loop -/

/-- The type of a parameter that may be requested as a scalar. -/
inductive ScalarType where
  | integer
  | boolean
  deriving DecidableEq

/-- The parameters a loop reads, with the type of those that are scalars. -/
abbrev ParamTable := List (String × Option ScalarType)

/-- `PARAMS` of the loops. -/
def Loop.params : Loop → ParamTable
  | solo => [("seats", none)]
  | reviewed => [("maxRounds", some .integer), ("minCheckers", none), ("seats", none), ("roleTasks", none)]
  | panel => [("seats", none), ("roleTasks", none)]
  | debate => [("seats", none), ("roleTasks", none), ("rebuttal", some .boolean)]

/-- The loop that a value names. -/
def loopNamed (loop : Option Json) : Option Loop :=
  match loop with
  | some (.str name) => loopNames.lookup name
  | _ => none

/-- `paramTableOf`: of the name of a loop, or of an object that has one. -/
def paramTableOf (loop : Option Json) : Option ParamTable :=
  match loop with
  | some (.str name) => (loopNamed (some (.str name))).map Loop.params
  | loop => (loopNamed (orElse (member loop "loop") (member loop "pattern"))).map Loop.params

/-- What the language does with numbers that are not kept as integers: which of them are whole and positive, which is
less, and the number a decimal text stands for. -/
structure Numerals where
  isPositiveInteger : UInt64 → Bool
  lt : Number → Number → Bool
  number : String → Json

def isPositiveInteger (n : Numerals) : Json → Bool
  | .num (.int i) => decide (0 < i)
  | .num (.float bits) => n.isPositiveInteger bits
  | _ => false

/-- The elements of an array. -/
def itemsOf : Option Json → List Json
  | some (.arr items) => items
  | _ => []

def allowedRoleTaskTargets (loop : Loop) (entry : Fields) : List String :=
  let allDeclared := itemsOf (member entry["defaults"]? "seats") ++
    itemsOf (member (member entry["invariants"]? "seats") "fixed")
  let named := allDeclared.filterMap fun s => match s.field "seat" with
    | some (.str seat) => if trim seat = "" then none else some (seat, same (s.field "role") (some (.str "producer")))
    | _ => none
  let targets := named.map Prod.fst
  match loop with
  | .solo => targets
  | .reviewed =>
    let checkers := itemsOf (member entry["defaults"]? "minCheckers") ++
      itemsOf (member (member entry["invariants"]? "minCheckers") "atLeast")
    targets ++ ["producer"] ++ if allDeclared.isEmpty then
      "reviewer" :: checkers.filterMap fun c => match asChecker c with
        | .ok name => some name
        | .error _ => none
    else []
  | .panel => targets ++ ["panelist", "synthesizer"]
  | .debate =>
    targets ++ ["thesis", "antithesis", "thesis-rebuttal", "antithesis-rebuttal", "judge"] ++
      (named.filter (·.2)).map (·.1 ++ "-rebuttal")

def checkLoopSeatCardinality (loop : Loop) (declared : List Declared) : Except Code Unit :=
  let count (role : String) : ℕ := declared.countP (·.role = role)
  let onlyRoles (roles : List String) : Bool := declared.all (·.role ∈ roles)
  match loop with
  | .solo => check (declared.length = 1 && onlyRoles ["producer"]) "seat-multiplicity"
  | .reviewed =>
    check (count "producer" = 1 && onlyRoles ("producer" :: checkerSeats.map (·.2.role))) "seat-multiplicity"
  | .panel =>
    check (1 ≤ count "producer" && count "synthesizer" = 1 && onlyRoles ["producer", "synthesizer"]) "seat-multiplicity"
  | .debate => check (count "producer" = 2 && count "judge" = 1 && onlyRoles ["producer", "judge"]) "seat-multiplicity"

/-- The problem a failed check is. -/
def problemsOf {α : Type} (rename : Code → Code) : Except Code α → List Code
  | .ok _ => []
  | .error code => [rename code]

def flagged (ok : Bool) (code : Code) : List Code := if ok then [] else [code]

def isText : Json → Bool
  | .str _ => true
  | _ => false

def isBoolean : Json → Bool
  | .bool _ => true
  | _ => false

/-- What a refused list of seats is called in a catalog. -/
def seatsProblem (code : Code) : Code :=
  if code ∈ ["invalid-seats", "invalid-seat-id", "invalid-seat-role", "invalid-seat-tier"] then "param-invalid" else code

/-- `checkParamDomain`: whether a default or a fixed value is one the parameter can have. -/
def checkParamDomain (n : Numerals) (loop : Loop) (param : String) (val : Json) (entry : Fields) : List Code :=
  match param with
  | "maxRounds" => flagged (isPositiveInteger n val) "param-invalid"
  | "minCheckers" =>
    match val with
    | .arr (c :: cs) => (c :: cs).flatMap fun c => problemsOf id (asChecker c)
    | _ => ["param-invalid"]
  | "rebuttal" => flagged (isBoolean val) "param-invalid"
  | "seats" =>
    problemsOf seatsProblem do
      let declared ← checkDeclaredSeats val
      checkLoopSeatCardinality loop declared
  | "roleTasks" =>
    match val with
    | .obj fields => (spread (some (.obj fields))).toList.flatMap fun (target, text) =>
      flagged (isText text) "param-invalid" ++ flagged (target ∈ allowedRoleTaskTargets loop entry) "param-invalid"
    | _ => ["param-invalid"]
  | _ => []

/-! ### The entries of the project -/

/-- `RESERVED_PATTERN_NAMES`. -/
def reservedPatternNames : List String := ["seatBinding", "defaultRule"]

/-- `RETIRED_GATED_NAME`. -/
def retiredGatedName : String := "research-fan-out-gated"

/-- The keys of `RETIRED_CONFIG_KEYS` under `runner.patterns`. -/
def retiredKeys : List (List String) :=
  [["defaultRule"], ["reviewed", "maxRounds"], ["reviewed", "checkersByRigor"], [retiredGatedName]]

def detectRetiredPatternKeys (patterns : Table Json) : List (List String) :=
  retiredKeys.filter fun path => match path with
    | [name] => patterns.contains name
    | [name, key] => (member patterns[name]? key).isSome
    | _ => false

/-- `ALLOWED_PATTERN_ENTRY_KEYS`. -/
def allowedPatternEntryKeys : List String := ["promise", "loop", "defaults", "invariants"]

/-- The two sections of an entry. -/
def sections : List String := ["defaults", "invariants"]

def checkDeclaredEntry (retired : List (List String)) (name : String) (entry : Json) : List Code :=
  if name = "seatBinding" then []
  else flagged (name ∉ reservedPatternNames) "config-error" ++
    if isPlainObject (some entry) then
      ((keysOf (some entry)).filter fun key => [name, key] ∉ retired ∧ key ∉ allowedPatternEntryKeys).map
        (fun _ => "param-unknown") ++
      sections.flatMap fun part =>
        flagged ((entry.field part).isNone || isPlainObject (entry.field part)) "param-invalid"
    else ["param-invalid"]

def checkDeclaredEntries (patterns : Table Json) : List Code :=
  let retired := detectRetiredPatternKeys patterns
  let seatBinding := patterns["seatBinding"]?
  retired.map (fun _ => "config-key-retired") ++
    flagged (!allowedPatternEntryKeys.any fun key => (member seatBinding key).isSome) "config-error" ++
    patterns.toList.flatMap fun (name, entry) => checkDeclaredEntry retired name entry

/-! ### The merged entry -/

def overlaySection (effectiveEntry merged : Fields) (part : String) : Fields :=
  match effectiveEntry[part]? with
  | some (.obj own) => merged.insert part ((spread merged[part]?).assign (spread (some (.obj own)))).toJson
  | _ => merged

/-- The shipped entry overlaid by the promise, the loop, the defaults and the invariants of the project's. -/
def overlay (shippedEntry effectiveEntry : Fields) : Fields :=
  sections.foldl (overlaySection effectiveEntry)
    ((shippedEntry.keep "promise" effectiveEntry["promise"]?).keep "loop" effectiveEntry["loop"]?)

/-- `mergeEntry`; where the project's entry is no object, the shipped one stands. -/
def mergeEntry (shippedEntry : Option Fields) (effectiveEntry : Option Json) : Option Fields :=
  match shippedEntry, effectiveEntry with
  | shipped, none => shipped
  | none, some (.obj own) => some (spread (some (.obj own)))
  | some shipped, some (.obj own) => some (overlay shipped (spread (some (.obj own))))
  | shipped, some _ => shipped

/-- What an override does to one invariant of the shipped entry. -/
def weakenedBy (own : Fields) (param : String) (shippedInv : Json) : List Code :=
  let weakened := "pattern-invariant-weakened"
  if own.isEmpty then [weakened]
  else match own[param]? with
    | none => []
    | some effInv =>
      (match shippedInv.field "atLeast" with
        | none => []
        | some required =>
          match effInv.field "atLeast" with
          | some (.arr items) => (itemsOf (some required)).flatMap fun name => flagged (includes items name) weakened
          | _ => [weakened]) ++
      match shippedInv.field "fixed" with
        | none => []
        | some value => flagged ((effInv.field "fixed").any (deepEqual · value)) weakened

/-- `checkShippedOverride`: an override of a shipped entry may not change its loop or promise, nor drop or change its
invariants. -/
def checkShippedOverride (shippedEntry effectiveEntry : Fields) : List Code :=
  let weakened := "pattern-invariant-weakened"
  let unchanged (key : String) : Bool := (effectiveEntry[key]?).isNone || same effectiveEntry[key]? shippedEntry[key]?
  flagged (unchanged "loop") weakened ++ flagged (unchanged "promise") weakened ++
    match effectiveEntry["invariants"]? with
    | some (.obj own) =>
      if truthy shippedEntry["invariants"]? then
        (spread shippedEntry["invariants"]?).toList.flatMap fun (param, inv) => weakenedBy (spread (some (.obj own))) param inv
      else []
    | _ => []

def checkCustomEntry (merged : Fields) : List Code :=
  flagged (match merged["promise"]? with | some (.str promise) => trim promise ≠ "" | _ => false) "param-invalid" ++
    flagged (loopNamed merged["loop"]?).isSome "param-invalid"

/-- `checkInvariantForm`: exactly one of `atLeast` (for `minCheckers` only) and `fixed` (for any other parameter). -/
def checkInvariantForm (n : Numerals) (loop : Loop) (param : String) (inv : Json) (merged : Fields) : List Code :=
  match inv.field "atLeast", inv.field "fixed" with
  | some required, none =>
    if keysOf (some inv) ≠ ["atLeast"] then ["param-invalid"]
    else if param ≠ "minCheckers" then ["param-invalid"]
    else match required with
      | .arr (c :: cs) => (c :: cs).flatMap fun c => problemsOf id (asChecker c)
      | _ => ["param-invalid"]
  | none, some value =>
    if keysOf (some inv) ≠ ["fixed"] then ["param-invalid"]
    else if param = "minCheckers" then ["param-invalid"]
    else checkParamDomain n loop param value merged
  | _, _ => ["param-invalid"]

def checkSectionParam (n : Numerals) (loop : Loop) (merged : Fields) (part param : String) (val : Json) : List Code :=
  if (loop.params.lookup param).isNone then ["param-unknown"]
  else if part = "defaults" then checkParamDomain n loop param val merged
  else if isPlainObject (some val) then checkInvariantForm n loop param val merged
  else ["param-invalid"]

def checkMergedSections (n : Numerals) (loop : Loop) (merged : Fields) : List Code :=
  sections.flatMap fun (part : String) => match merged[part]? with
    | none => []
    | some (.obj own) => (spread (some (.obj own))).toList.flatMap fun (param, val) => checkSectionParam n loop merged part param val
    | some _ => ["param-invalid"]

/-! ### The catalog -/

/-- What is wrong with the entry of a name. -/
def checkEntry (n : Numerals) (shippedEntry : Option Fields) (effectiveEntry : Option Json) : List Code :=
  if effectiveEntry.isSome && !isPlainObject effectiveEntry then []
  else
    (match shippedEntry, effectiveEntry with
      | some shipped, some own => checkShippedOverride shipped (spread (some own))
      | none, some own => checkCustomEntry (spread (some own))
      | _, none => []) ++
    match mergeEntry shippedEntry effectiveEntry with
    | none => []
    | some merged => (loopNamed merged["loop"]?).elim [] fun loop => checkMergedSections n loop merged

def isDropped (name : String) : Bool := name ∈ reservedPatternNames || name = retiredGatedName

/-- `checkCatalog`: the problems, in the order of the names. -/
def checkCatalog (n : Numerals) (shipped : Table Fields) (effective : Table Json) : List Code :=
  let names := shipped.keys ++ effective.keys.filter (· ∉ shipped)
  checkDeclaredEntries effective ++
    (names.filter fun name => !isDropped name).flatMap fun name => checkEntry n shipped[name]? effective[name]?

def entryNamed (shipped : Table Fields) (effective : Table Json) (name : String) : Option Fields :=
  if isDropped name then none else mergeEntry shipped[name]? effective[name]?

end Forgent.Patterns
