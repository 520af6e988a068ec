import Forgent.Replay

/-!
# The shape of a work item

What the store asks of a work item before it writes it: `validateWork` checks the fields one after the other,
and the first that does not pass refuses the write with a message that names it.  A new item is checked
throughout, an edit only in the fields that its patch touches.

Beside the workflows a domain declares labels and categories for statuses, the words it classifies work with,
and the graph of the roles that may call each other.
-/

namespace Forgent

open Json

/-! ### Refusals -/

/-- What an error is reported as.  The last two only send a transaction back to its start. -/
inductive Category where
  | precondition
  | conflict
  | validation
  | catchUpRequired
  | planEvidenceStale
deriving DecidableEq

structure Refusal where
  category : Category
  message : String
deriving DecidableEq

/-- `if (!ok) throw refusal`. -/
def refuseUnless (ok : Bool) (refusal : Refusal) : Except Refusal Unit := if ok then .ok () else .error refusal

@[simp] theorem refuseUnless_eq_ok {ok : Bool} {refusal : Refusal} {u : Unit} :
    refuseUnless ok refusal = .ok u ↔ ok = true := by
  rw [refuseUnless]
  cases ok <;> simp

/-- The check of a `WorkValidationError`. -/
def demand (ok : Bool) (message : String) : Except Refusal Unit := refuseUnless ok ⟨.validation, message⟩

@[simp] theorem demand_eq_ok {ok : Bool} {message : String} {u : Unit} : demand ok message = .ok u ↔ ok = true :=
  refuseUnless_eq_ok

/-! ### What a domain declares -/

/-- A role may call another one, for a reason; an asynchronous call hands the item over. -/
structure CallEdge where
  fromRole : String
  toRole : String
  reason : String
  mode : String
deriving DecidableEq

structure RoleGraph where
  roles : List String
  defaultRole : Option String
  callstackCap : Option ℕ
  edges : Table (List CallEdge)

/-- The part of a domain's registry entry that is not about steps. -/
structure Policy where
  statusLabels : Table String
  parkReason : Table String
  classification : Table (List String)
  roleGraph : Option RoleGraph
  fieldSchema : List (String × String)

/-- What the store is compiled with: the domains by name in the order of their declaration, and which parts
of the decision template a question to the owner lacks (`checkDecisionQuestion`). -/
structure StoreHost extends Host where
  policies : Table Policy
  domainNames : List String
  missingParts : String → List String → List String

namespace StoreHost

variable (σ : StoreHost)

/-- `getDomain`. -/
def policy (name : Option Json) : Option Policy := σ.policies[resolveDomainName σ.arithmetic σ.domains name]?

/-- `DOMAINS[name ?? DEFAULT_DOMAIN]`. -/
def declaredPolicy (name : Option Json) : Option Policy :=
  σ.policies[key σ.arithmetic (orElse name (some (.str defaultDomain)))]?

def statusCategoryFor (policy : Option Policy) (status : String) : Option String :=
  policy.bind fun d => d.statusLabels[status]?

def parkReasonForStatus (policy : Option Policy) (status : String) : Option String :=
  policy.bind fun d => d.parkReason[status]?

def roleGraphFor (policy : Option Policy) : Option RoleGraph := policy.bind Policy.roleGraph

/-- The steps an item of this kind can be at. -/
def domainSteps (name kind : Option Json) : List String :=
  let domain := σ.domains[key σ.arithmetic (orElse name (some (.str defaultDomain)))]?
  ((resolveWorkflow σ.arithmetic domain kind).elim [] Workflow.steps).filterMap fun s => s.phase.map fun _ => s.id

/-- `effectiveStep`: the step that was recorded, or the execute step. -/
def effectiveStep (item : Fields) : Option String :=
  let wf := resolveWorkflow σ.arithmetic (getDomain σ.arithmetic σ.domains item["domain"]?) item["kind"]?
  match item["workflowStep"]? with
  | some step => some (match step with
      | .str name => Workflow.resolveAlias wf name
      | other => text σ.arithmetic other)
  | none => Workflow.stepForPhase wf "execute"

end StoreHost

/-! ### Words with a fixed list -/

namespace WorkItem

/-- `STATUSES`. -/
def statuses : List String :=
  ["backlog", "todo", "doing", "blocked", "awaiting-approval", "delivered", "retrospective", "cleanup", "done",
    "awaiting-human", "wontfix"]

def sizes : List String := ["light", "standard", "heavy"]

def rigorValues : List String := ["low", "standard", "high", "critical"]

def urgencyLevels : List String := ["low", "medium", "high", "critical"]

def goalTiers : List String := ["mvp", "milestone"]

def maxIdLength : ℕ := 30

def maxTitleLength : ℕ := 100

/-! ### Tests of one value -/

/-- `!text.trim()`. -/
def isBlank (text : String) : Bool := text.toList.all Knowledge.isBlankChar

/-- `typeof value === 'string' && value.trim()`. -/
def isNonBlank : Option Json → Bool
  | some (.str s) => !isBlank s
  | _ => false

def isNonEmpty : Option Json → Bool
  | some (.str s) => s ≠ ""
  | _ => false

/-- `value !== undefined && value !== null`. -/
def isPresent : Option Json → Bool
  | none | some .null => false
  | some _ => true

def arrayOf : Option Json → Option (List Json)
  | some (.arr items) => some items
  | _ => none

def isOneOf (allowed : List String) : Option Json → Bool
  | some (.str s) => allowed.contains s
  | _ => false

/-- `Number.isInteger(value)`: a number that is an integer is kept as one. -/
def isInteger : Option Json → Bool
  | some (.num (.int _)) => true
  | _ => false

/-- `Number.isInteger(value) && value >= 0`. -/
def isNatural : Option Json → Bool
  | some (.num (.int n)) => 0 ≤ n
  | _ => false

/-- A finite number that is not negative. -/
def isNonNegative : Option Json → Bool
  | some (.num (.int n)) => 0 ≤ n
  | some (.num (.float bits)) => bits ≤ 0x8000000000000000
  | _ => false

def isLower (c : Char) : Bool := 'a' ≤ c && c ≤ 'z'

def isLowerOrDigit (c : Char) : Bool := isLower c || ('0' ≤ c && c ≤ '9')

/-- `ID_PATTERN`: words of lowercase letters and digits with hyphens between them, the first of which starts
with a letter. -/
def matchesIdPattern (id : String) : Bool :=
  match id.toList.splitOn '-' with
  | first :: rest => first.head?.any isLower && first.all isLowerOrDigit &&
      rest.all fun word => !word.isEmpty && word.all isLowerOrDigit
  | [] => false

/-- The first characters that need at most so many UTF-16 units. -/
def takeUnits : ℕ → List Char → List Char
  | _, [] => []
  | budget, c :: rest =>
    let units := if c.toNat < 0x10000 then 1 else 2
    if units ≤ budget then c :: takeUnits (budget - units) rest else []

/-- `truncateTitle`: an over-long title is cut at a word, and the cut is marked. -/
def truncateTitle : Option Json → Option Json
  | some (.str title) =>
    if (encodeUtf16 title).length ≤ maxTitleLength then some (.str title)
    else
      let cut := takeUnits (maxTitleLength - 1) title.toList
      -- up to the last space, unless there is none behind the first character
      let words := (cut.reverse.dropWhile (· ≠ ' ')).tail.reverse
      let kept := if words.isEmpty then cut else words
      let trimmed := ((kept.dropWhile Knowledge.isBlankChar).reverse.dropWhile Knowledge.isBlankChar).reverse
      some (.str (String.ofList trimmed ++ "…"))
  | title => title

section

variable (σ : StoreHost)

/-- A value inside a message, as `JSON.stringify` writes it. -/
def shown (value : Option Json) : String := value.elim "undefined" (stringify σ.arithmetic)

def shownList (words : List String) : String := stringify σ.arithmetic (.arr (words.map .str))

/-- A value inside a message, as a template writes it. -/
def named (value : Option Json) : String := key σ.arithmetic value

/-! ### Checks of one field -/

variable (work : Fields)

def requireNonEmptyString (field : String) : Except Refusal Unit :=
  demand (isNonBlank work[field]?) ("work." ++ field ++ " is required and must be a non-empty string.")

def requireArray (field : String) : Except Refusal Unit :=
  demand (arrayOf work[field]?).isSome ("work." ++ field ++ " must be an array.")

def requireDeclaredClassification (field : String) : Except Refusal Unit :=
  match (σ.policy work["domain"]?).bind fun d => d.classification[field]? with
  | none => .ok ()
  | some allowed => demand (isOneOf allowed work[field]?)
      ("work." ++ field ++ " must be one of " ++ shownList σ allowed ++ " for domain \"" ++
        named σ (orElse work["domain"]? (some (.str defaultDomain))) ++ "\", got: " ++ shown σ work[field]?)

/-- A field that is absent, or passes the test. -/
def optional (field : String) (test : Option Json → Bool) (must : String) : Except Refusal Unit :=
  demand (work[field]?.isNone || test work[field]?)
    ("work." ++ field ++ " must be " ++ must ++ " when present, got: " ++ shown σ work[field]?)

/-- A text that may be left out. -/
def optionalText (field : String) : Except Refusal Unit :=
  demand (!isPresent work[field]? || isNonBlank work[field]?)
    ("work." ++ field ++ " must be a non-empty string when present.")

/-- A list of the ids of other items that may be left out. -/
def optionalIds (field : String) : Except Refusal Unit :=
  if isPresent work[field]? then
    match arrayOf work[field]? with
    | none => demand false ("work." ++ field ++ " must be an array of non-empty strings when present, got: " ++
        shown σ work[field]?)
    | some items => items.forM fun target => do
      demand (isNonEmpty (some target))
        ("work." ++ field ++ " entries must be non-empty strings, got: " ++ shown σ (some target))
      demand (!same (some target) work["id"]?)
        ("work \"" ++ named σ work["id"]? ++ "\" cannot list itself in its own " ++ field ++ ".")
  else .ok ()

/-- The id of another item that may be left out. -/
def optionalId (field : String) (test : Option Json → Bool) : Except Refusal Unit :=
  if isPresent work[field]? then do
    demand (test work[field]?)
      ("work." ++ field ++ " must be a non-empty string when present, got: " ++ shown σ work[field]?)
    demand (!same work[field]? work["id"]?)
      ("work \"" ++ named σ work["id"]? ++ "\" cannot list itself as its own " ++ field ++ ".")
  else .ok ()

def checkId : Except Refusal Unit :=
  match work["id"]? with
  | some (.str id) => do
    demand (matchesIdPattern id)
      ("work.id must be a stable kebab-case identifier (e.g. \"add-login-form\"), got: " ++ shown σ work["id"]?)
    demand ((encodeUtf16 id).length ≤ maxIdLength)
      ("work.id must be at most " ++ toString maxIdLength ++ " characters (got " ++
        toString (encodeUtf16 id).length ++ "): " ++ shown σ work["id"]? ++
        " — pick a short descriptive id, not a slugified title.")
  | _ => demand false
      ("work.id must be a stable kebab-case identifier (e.g. \"add-login-form\"), got: " ++ shown σ work["id"]?)

def checkStatus : Except Refusal Unit := do
  requireNonEmptyString work "status"
  demand (isOneOf statuses work["status"]?)
    ("work.status must be one of " ++ shownList σ statuses ++ ", got: " ++ shown σ work["status"]?)

def checkDeps : Except Refusal Unit := do
  requireArray work "deps"
  ((arrayOf work["deps"]?).getD []).forM fun dep =>
    demand (isNonEmpty (some dep)) ("work.deps entries must be non-empty strings, got: " ++ shown σ (some dep))

def checkWorkflowStep : Except Refusal Unit :=
  let steps := σ.domainSteps work["domain"]? work["kind"]?
  optional σ work "workflowStep" (isOneOf steps) ("one of " ++ shownList σ steps)

def checkHolder : Except Refusal Unit :=
  if work["holder"]?.isSome then
    let domain := named σ (orElse work["domain"]? (some (.str defaultDomain)))
    match StoreHost.roleGraphFor (σ.declaredPolicy work["domain"]?) with
    | none => demand false ("work.holder is set but domain \"" ++ domain ++ "\" declares no roleGraph.")
    | some roleGraph => demand (isOneOf roleGraph.roles work["holder"]?)
        ("work.holder must be one of " ++ shownList σ roleGraph.roles ++ " for domain \"" ++ domain ++ "\", got: " ++
          shown σ work["holder"]?)
  else .ok ()

def checkFootprint : Except Refusal Unit :=
  if isPresent work["footprint"]? then
    match arrayOf work["footprint"]? with
    | none => demand false ("work.footprint must be an array of non-empty strings when present, got: " ++
        shown σ work["footprint"]?)
    | some paths => paths.forM fun path =>
      demand (isNonBlank (some path))
        ("work.footprint entries must be non-empty strings, got: " ++ shown σ (some path))
  else .ok ()

def isObject : Json → Bool
  | .obj _ => true
  | _ => false

def checkAcceptance : Except Refusal Unit :=
  if isPresent work["acceptance"]? then
    match arrayOf work["acceptance"]? with
    | none => demand false ("work.acceptance must be an array of \x7btext, evidence\x7d clauses when present, got: " ++
        shown σ work["acceptance"]?)
    | some clauses => clauses.forM fun clause => do
      demand (isObject clause) ("work.acceptance entries must be objects, got: " ++ shown σ (some clause))
      demand (isNonBlank (clause.field "text"))
        ("work.acceptance entries must have a non-empty \"text\", got: " ++ shown σ (some clause))
      demand (!isPresent (clause.field "evidence") || isNonBlank (clause.field "evidence"))
        ("work.acceptance entry \"evidence\" must be a non-empty string when present, got: " ++
          shown σ (some clause))
  else .ok ()

def checkDomainFieldsShape : Except Refusal Unit :=
  match work["domainFields"]? with
  | none | some .null => .ok ()
  | some (.obj fields) => fields.forM fun e =>
    demand (isObject e.2)
      ("work.domainFields." ++ e.1 ++ " must be a plain object when present, got: " ++ shown σ (some e.2))
  | some other => demand false
      ("work.domainFields must be a plain object (\x7b [domainName]: \x7b...\x7d \x7d) when present, got: " ++
        shown σ (some other))

/-! ### The whole item -/

variable (touchedFields : Option (List String))

/-- Whether the field is to be checked. -/
def touched (field : String) : Bool := touchedFields.all fun fields => fields.contains field

def validateWorkShape : Except Refusal Unit := do
  let check := fun (field : String) (c : Except Refusal Unit) =>
    if touched touchedFields field then c else .ok ()
  check "id" (checkId σ work)
  check "title" (requireNonEmptyString work "title")
  check "kind" do
    requireNonEmptyString work "kind"
    requireDeclaredClassification σ work "kind"
  check "status" (checkStatus σ work)
  check "deps" (checkDeps σ work)
  check "mergeAfter" (optionalIds σ work "mergeAfter")
  check "supersededBy" (optionalId σ work "supersededBy" isNonEmpty)
  check "duplicates" (optionalIds σ work "duplicates")
  check "risk" do
    requireNonEmptyString work "risk"
    requireDeclaredClassification σ work "risk"
  check "refs" (requireArray work "refs")
  check "verify" (requireNonEmptyString work "verify")
  check "learn" (demand (!isPresent work["learn"]? || (match work["learn"]? with
    | some (.str _) => true
    | _ => false)) "work.learn must be a string when present (it is optional).")
  check "size" (optional σ work "size" (isOneOf sizes) ("one of " ++ shownList σ sizes))
  check "rigor" (optional σ work "rigor" (isOneOf rigorValues) ("one of " ++ shownList σ rigorValues))
  check "tier" (demand work["tier"]?.isNone
    "work.tier is retired; use work.size (light|standard|heavy) or work.rigor (low|standard|high|critical) instead")
  check "domain" (optional σ work "domain" (fun v => σ.domainNames.contains (named σ v))
    ("one of " ++ shownList σ σ.domainNames))
  check "priority" (optional σ work "priority" isNatural "a non-negative integer")
  check "intent" (optional σ work "intent" isInteger "an integer")
  check "urgent" (optional σ work "urgent" (isOneOf urgencyLevels) ("one of " ++ shownList σ urgencyLevels))
  check "impact" (optional σ work "impact" isNonNegative "a non-negative number")
  check "effort" (optional σ work "effort" isNonNegative "a non-negative number")
  demand work["stage"]?.isNone "work.stage is retired; a work item records its step as work.workflowStep."
  check "workflowStep" (checkWorkflowStep σ work)
  check "workflowRunId" (demand (work["workflowRunId"]?.isNone || isNonBlank work["workflowRunId"]?)
    "work.workflowRunId must be a non-empty string when present.")
  check "holder" (checkHolder σ work)
  check "parent" (optionalId σ work "parent" isNonBlank)
  check "discoveredFrom" (optionalId σ work "discoveredFrom" isNonBlank)
  check "footprint" (checkFootprint σ work)
  check "acceptance" (checkAcceptance σ work)
  check "description" (optionalText work "description")
  check "docsRef" (optionalText work "docsRef")
  check "action" (optionalText work "action")
  check "goalTier" (optional σ work "goalTier" (isOneOf goalTiers) ("one of " ++ shownList σ goalTiers))
  check "targets" (optionalIds σ work "targets")
  check "domainFields" (checkDomainFieldsShape σ work)
  check "deps" (demand (!work["id"]?.any fun id => includes ((arrayOf work["deps"]?).getD []) id)
    ("work \"" ++ named σ work["id"]? ++ "\" cannot list itself as a dep."))

/-- `typeof value`. -/
def typeOf : Json → String
  | .null | .arr _ | .obj _ => "object"
  | .bool _ => "boolean"
  | .num _ => "number"
  | .str _ => "string"

def validateDomainFields : Except Refusal Unit :=
  let ownDomain := named σ (orElse work["domain"]? (some (.str defaultDomain)))
  let ownFields := member (work["domainFields"]?) ownDomain
  ((σ.policy work["domain"]?).elim [] Policy.fieldSchema).forM fun rule =>
    match member ownFields rule.1 with
    | none => .ok ()
    | some value => demand (typeOf value = rule.2)
        ("work.domainFields." ++ ownDomain ++ "." ++ rule.1 ++ " must be of type \"" ++ rule.2 ++
          "\" per its domain's fieldSchema, got: " ++ shown σ (some value))

variable (existingIds : List String)

def isKnown (id : Json) : Bool :=
  match id with
  | .str s => existingIds.contains s
  | _ => false

def validateDeps : Except Refusal Unit :=
  ((arrayOf work["deps"]?).getD []).forM fun dep => demand (isKnown existingIds dep)
    ("work \"" ++ named σ work["id"]? ++ "\" depends on unknown id \"" ++ text σ.arithmetic dep ++ "\".")

/-- The items that a field lists are there. -/
def validateTargets (field : String) : Except Refusal Unit :=
  ((arrayOf work[field]?).getD []).forM fun target => demand (isKnown existingIds target)
    ("work \"" ++ named σ work["id"]? ++ "\" has " ++ field ++ " target \"" ++ text σ.arithmetic target ++
      "\", which is not a known id.")

def validateMergeAfter : Except Refusal Unit := validateTargets σ work existingIds "mergeAfter"

def validateDuplicates : Except Refusal Unit := validateTargets σ work existingIds "duplicates"

def validateSupersededBy : Except Refusal Unit :=
  match work["supersededBy"]? with
  | some (.str id) => demand (existingIds.contains id)
      ("work \"" ++ named σ work["id"]? ++ "\" has supersededBy target \"" ++ id ++ "\", which is not a known id.")
  | _ => .ok ()

def validateWork : Except Refusal Unit := do
  let check := fun (field : String) (c : Except Refusal Unit) =>
    if touched touchedFields field then c else .ok ()
  validateWorkShape σ work touchedFields
  check "deps" (validateDeps σ work existingIds)
  check "mergeAfter" (validateMergeAfter σ work existingIds)
  check "supersededBy" (validateSupersededBy σ work existingIds)
  check "duplicates" (validateDuplicates σ work existingIds)

/-- A clause that has a text and evidence for it names, in its evidence, a file that is there; `cites` says
whether a text names one. -/
def checkAcceptanceEvidenceTraceable (cites : String → Bool) : Except Refusal Unit :=
  ((arrayOf work["acceptance"]?).getD []).forM fun clause =>
    match clause.field "evidence" with
    | some (.str evidence) =>
      if isNonBlank (clause.field "text") && !isBlank evidence then
        demand (cites evidence)
          ("work.acceptance clause with both \"text\" and \"evidence\" must cite a real, existing path in " ++
            "\"evidence\" — none found/resolved in: " ++ shown σ (some (.str evidence)))
      else .ok ()
    | _ => .ok ()

end

end WorkItem

end Forgent
