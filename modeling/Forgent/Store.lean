import Forgent.DepGraph
import Forgent.Handoff

/-!
# The operations of the store

An operation reads a board, which is the folded view with the ids in the order of their declaration and the
runtime claims, and decides: it is refused, or it hands events to the transaction.  Every function here is
that decision alone.  What a transaction makes of the events is the subject of `Forgent.StoreRun`.
-/

namespace Forgent

open Json

/-! ### What an operation reads -/

/-- The view with what is kept beside it: the order of its items and the runtime claims. -/
structure Board where
  view : View
  ids : List String
  claims : Table Fields

/-- `view.work`. -/
def Board.workMap (b : Board) : WorkMap := b.ids.filterMap fun id => (b.view.work[id]?).map fun item => (id, item)

/-- The Git repository beside the store: the tip of a branch as the ports resolve it, whether a revision has
a path, whether the working tree has one, and the tip that the ref files name. -/
structure Repository where
  tip : String → Option String
  present : String → String → Bool
  inTree : String → Bool
  branchTip : String → Option String

/-- The rest of what an operation reads: who writes, and which texts cite a path that is there. -/
structure Env where
  writer : Json
  cites : String → Bool
  repo : Repository

/-- What the store of a clone is linked with: its id, the digest of an item (`getItemDurableRevision`) and the path
of the plan below a directory. -/
structure Linked extends StoreHost where
  origin : String
  digest : Fields → String
  planBelow : String → String

namespace Store

open WorkItem DepGraph StatusFsm Handoff

variable (σ : Linked) (b : Board) (env : Env)

/-- `if (condition) check()`. -/
def onlyIf (condition : Bool) (check : Except Refusal Unit) : Except Refusal Unit := if condition then check else .ok ()

/-! ### Adding and editing -/

def stampStatus (item : Fields) (status : Option Json) (f : Fields) : Fields :=
  let policy := σ.policy item["domain"]?
  let category := StoreHost.statusCategoryFor policy (key σ.arithmetic status)
  let park := StoreHost.parkReasonForStatus policy (key σ.arithmetic status)
  (f.keep "statusCategory" (category.map .str)).keep "parkReason" (park.map .str)

/-- The item that `addWork` checks: with its defaults, the title cut, and the category of its status. -/
def normalizedWork (work : Fields) : Fields :=
  (work.set "size" (orElse work["size"]? (some (.str "standard")))).set "title" (truncateTitle work["title"]?)

def addWork (work : Fields) : Except Refusal Draft := do
  refuseUnless (b.view.work[key σ.arithmetic work["id"]?]?).isNone
    ⟨.validation, "work \"" ++ key σ.arithmetic work["id"]? ++ "\" already exists."⟩
  let item := normalizedWork work
  validateWork σ.toStoreHost item none b.ids
  validateDomainFields σ.toStoreHost item
  let item := stampStatus σ item item["status"]? item
  checkAcceptanceEvidenceTraceable σ.toStoreHost item env.cites
  assertNoCycle σ.toStoreHost item b.workMap
  assertNoUnifiedCycle σ.toStoreHost item b.workMap
  return ⟨"work.add", item.insert "writer" env.writer⟩

/-- `EDITABLE_FIELDS`. -/
def editableFields : List String :=
  ["title", "description", "kind", "risk", "verify", "size", "rigor", "refs", "deps", "acceptance", "priority",
    "intent", "docsRef", "parent", "urgent", "impact", "effort", "footprint", "action", "mergeAfter", "supersededBy",
    "duplicates", "domainFields", "goalTier", "nextOperation", "secondaryOperation", "workflowRunId"]

/-- The members of a patch, if it has any. -/
def patchMembers : Option Json → Option (List (String × Json))
  | some (.obj (m :: members)) => some (m :: members)
  | _ => none

def requirePatch (patch : Option Json) : Except Refusal (List (String × Json)) :=
  match patchMembers patch with
  | some members => .ok members
  | none => .error ⟨.validation, "edit requires at least one field to change."⟩

/-- The patch with its title cut. -/
def normalizedPatch (patch : Fields) : Fields :=
  match patch["title"]? with
  | some (.str title) => patch.set "title" (truncateTitle (some (.str title)))
  | _ => patch

def validateWorkPatch (id : String) (patch role : Option Json) : Except Refusal Fields := do
  let work ← requireWork b.view id
  let members ← requirePatch patch
  let touchedFields := members.map Prod.fst
  touchedFields.forM fun field => demand (editableFields.contains field)
    ("edit cannot change \"" ++ field ++ "\" — allowed fields are: " ++ ", ".intercalate editableFields ++ ".")
  demand ((member patch "kind").isNone || same work["status"]? (some (.str "todo")))
    ("edit cannot change \"kind\" on work \"" ++ id ++ "\" -- status is \"" ++ key σ.arithmetic work["status"]? ++
      "\", not \"todo\". kind selects the item's Workflow; it can only change while status is still todo, " ++
      "before a claim lets the item start walking that graph.")
  let normalized := normalizedPatch (spread patch)
  let candidate := work.assign normalized
  validateWork σ.toStoreHost candidate (some touchedFields) b.ids
  onlyIf (touchedFields.contains "domainFields") (validateDomainFields σ.toStoreHost candidate)
  onlyIf (touchedFields.contains "acceptance") (checkAcceptanceEvidenceTraceable σ.toStoreHost candidate env.cites)
  assertNoCycle σ.toStoreHost candidate b.workMap
  assertNoUnifiedCycle σ.toStoreHost candidate b.workMap
  return record [("id", some (.str id)), ("patch", some normalized.toJson), ("role", role), ("writer", some env.writer)]

def editWork (id : String) (patch role : Option Json) : Except Refusal Draft := do
  let payload ← validateWorkPatch σ b env id patch role
  return ⟨"work.edit", payload⟩

/-! ### The gate in front of `delivered` -/

def assertAcceptanceEvidence (id : String) (work : Fields) : Except Refusal Unit :=
  ((arrayOf work["acceptance"]?).getD []).forM fun clause =>
    if isNonBlank (clause.field "text") then
      refuseUnless (isNonBlank (clause.field "evidence"))
        ⟨.precondition, "work \"" ++ id ++ "\" cannot move to \"delivered\" — acceptance clause \"" ++
          key σ.arithmetic (clause.field "text") ++
          "\" has no evidence yet; edit --acceptance must supply it before \"delivered\"."⟩
    else .ok ()

def isHeavy (work : Fields) : Bool := same work["risk"]? (some (.str "heavy"))

def workBranch (id : String) : String := "fgw/" ++ id

/-- Where the plan of an item may stand. -/
def planCandidates (id : String) (work : Fields) : List String :=
  (match work["docsRef"]? with
    | some (.str docs) => if isBlank docs then [] else [σ.planBelow docs]
    | _ => []) ++ ["docs/history/" ++ id ++ "/plan.md"]

/-- `checkPlanEvidence`: why the plan of a heavy item is missing, if it is. -/
def checkPlanEvidence (id : String) (work : Fields) (repo : Repository) : Option String :=
  if !isHeavy work then none
  else
    let candidates := planCandidates σ id work
    let branch := workBranch id
    let hasPlan := match repo.tip branch with
      | some tip => candidates.any (repo.present tip)
      | none => candidates.any repo.inTree
    let locDesc :=
      if (repo.tip branch).isSome then "on branch \"" ++ branch ++ "\""
      else "in current tree (no branch \"" ++ branch ++ "\")"
    if hasPlan then none
    else some ("work \"" ++ id ++ "\" cannot move to \"delivered\" — risk:heavy but no plan.md found " ++ locDesc ++
      " (checked " ++ ", ".intercalate candidates ++ "); write one before landing.")

/-- `getItemDurableRevision`. -/
def revision (view : View) (id : String) : String := (view.work[id]?).elim "none" σ.digest

/-- What the gate has asked Git about an item before the lock. -/
structure PlanSnapshot where
  revision : String
  tip : Option String
  failure : Option String

def snapshotPlanEvidence (view : View) (repo : Repository) (id : String) : Option PlanSnapshot :=
  match view.work[id]? with
  | none => none
  | some work =>
    if isHeavy work then
      some ⟨revision σ view id, repo.branchTip (workBranch id), checkPlanEvidence σ id work repo⟩
    else none

/-- The snapshot is still about this item and this branch. -/
def isCurrent (snapshot : PlanSnapshot) (id : String) : Bool :=
  snapshot.revision = revision σ b.view id && snapshot.tip = env.repo.branchTip (workBranch id)

def applyPlanEvidenceSnapshot (snapshot : Option PlanSnapshot) (id : String) (work : Fields) : Except Refusal Unit :=
  if !isHeavy work then .ok ()
  else
    match snapshot with
    | none => .error ⟨.planEvidenceStale, ""⟩
    | some taken => do
      refuseUnless (isCurrent σ b env taken id) ⟨.planEvidenceStale, ""⟩
      match taken.failure with
      | some failure => .error ⟨.precondition, failure⟩
      | none => .ok ()

/-! ### Moves -/

/-- What is kept of an item when it closes: how its last attempt ended, and how often it was settled by whom. -/
def composeLearning (id : String) (role : Option Json) : Fields :=
  let actual := (b.view.outcomes[id]?).bind fun outcome : Fields => outcome["actual"]?
  let outcome :=
    if truthy actual then
      some (Fields.toJson (record [("disposition", some (orNull (member actual "outcome"))),
        ("attempts", some (orNull (member actual "attempts"))),
        ("errorClass", some (orNull (member actual "errorClass")))]))
    else some Json.null
  let records := b.view.settlements.getD id [] ++ [record [("kind", some (.str "close")), ("role", some (orNull role))]]
  let settlements := records.foldl (fun (counts : Table ℕ) settled =>
    let name := key σ.arithmetic settled["kind"]? ++ "/" ++
      key σ.arithmetic (orElse settled["role"]? (some (.str "unknown")))
    counts.insert name (counts.getD name 0 + 1)) ∅
  record [("outcome", outcome), ("settlements", some (.obj (settlements.toList.map fun e => (e.1, .nat e.2))))]

/-- `LAND_SETTLEMENT_KEYS`. -/
def sameLandSettlement (recorded settled : Option Json) : Bool :=
  ["repoIdentity", "operationId", "settlementKind"].all fun k => same (member recorded k) (member settled k)

def checkLandOperationIds (args : Fields) : Except Refusal Unit :=
  demand (args["landOperationIds"]?.isNone || (same args["to"]? (some (.str "blocked")) &&
      (arrayOf args["landOperationIds"]?).any fun ids => !ids.isEmpty && ids.all fun id => isNonEmpty (some id)))
    "only a move to \"blocked\" records Land operation ids, as a non-empty list of operation ids."

def isLandSettlement (args : Fields) : Bool :=
  let settlement := args["landSettlement"]?
  same args["to"]? (some (.str "delivered")) && truthy settlement &&
    same (member settlement "settlementKind") (some (.str "delivered")) &&
    ["repoIdentity", "operationId"].all fun k => isNonEmpty (member settlement k)

def effectiveItem (claims : Table Fields) (id : String) (item : Fields) : Fields :=
  match claims[id]? with
  | none => item
  | some claim =>
    if isPresent claim["preClaimStatus"]? && !same claim["preClaimStatus"]? item["status"]? then
      item.insert "staleClaim" claim.toJson
    else
      let truthyOr := fun (a c : Option Json) => if truthy a then a else c
      let working : Fields := (item.insert "status" (.str "doing")).insert "statusCategory" (.str "in-progress")
      let overlaid : Fields := (working.set "claimRole"
        (truthyOr claim["claimRole"]? (truthyOr claim["actor"]? item["claimRole"]?))).insert "activeClaim" claim.toJson
      ["headAtTake", "branchHeadAtTake", "claimTrigger"].foldl
        (fun (f : Fields) k => f.set k (if isPresent claim[k]? then claim[k]? else none)) overlaid

/-- `buildEffectiveView`: what the items look like to those who work on them. -/
def effectiveWork : WorkMap := b.workMap.map fun e => (e.1, effectiveItem b.claims e.1 e.2)

/-- What a move decides: the events, and the payload of the one it reports. -/
structure Decision where
  drafts : List Draft
  reported : Fields

/-- The members of the arguments that a move carries into its payload. -/
def carried : List String :=
  ["role", "headAtTake", "headAtReturn", "branchHeadAtTake", "branchHeadAtReturn", "mergedSha", "mergedInto",
    "landSettlement", "landOperationIds", "claimTrigger", "parentSnapshotAtAsk", "rationale", "alternatives", "source",
    "askSource", "releaseTrigger"]

def movePayload (id : String) (work args transition : Fields) : Fields :=
  let dst := args["to"]?
  let payload : Fields := (stampStatus σ work dst transition).insert "writer" env.writer
  let payload : Fields := payload.keepAll (some args.toJson) carried
  let payload : Fields :=
    if same dst (some (.str "awaiting-human")) then
      (payload.keep "statusAtAsk" args["statusAtAsk"]?).keep "durableStatusAtAsk" work["status"]?
    else payload
  let payload : Fields :=
    if same args["approved"]? (some (.bool true)) then payload.insert "approved" (.bool true) else payload
  if same dst (some (.str "done")) then
    payload.insert "learning" (Fields.toJson (composeLearning σ b id args["role"]?))
  else payload

/-- The call of the reviewer that an item makes when it reaches `awaiting-approval`. -/
def reviewArgs : Fields :=
  record [("toRole", some (.str "reviewer")), ("reason", some (.str "review")),
    ("note", some (.str "auto-fired on reaching awaiting-approval (tsk-2t9c D18)"))]

/-- The review hand-over of a move; one that the graph of roles refuses is left out. -/
def reviewHandoff (id : String) (work args : Fields) : List Draft :=
  if same args["to"]? (some (.str "awaiting-approval")) &&
      (StoreHost.roleGraphFor (σ.policy work["domain"]?)).isSome then
    match callEvent σ.toStoreHost b.view env.writer id reviewArgs 0 with
    | .ok draft => [draft]
    | .error _ => []
  else []

/-- The decision of a caller, recorded ahead of the move. -/
def engineDraft (id : String) (decision : Fields) : Draft :=
  ⟨"decision", (((record [("id", some (.str id))]).assign decision).insert "kind" (.str "engine")).insert "source"
    (.str "session")⟩

/-- `moveWorkOnce`: one try of a move.  `prior` is the payload of an earlier move with the same Land
settlement, and `engineDecision` the decision that a caller records with the move. -/
def moveWorkOnce (snapshot : Option PlanSnapshot) (prior : Option Fields)
    (engineDecision : Fields → Except Refusal (Option Fields)) (id : String) (args : Fields) :
    Except Refusal Decision := do
  checkLandOperationIds args
  let settlement := args["landSettlement"]?
  onlyIf settlement.isSome (demand (isLandSettlement args) "delivery requires a complete Land settlement identity.")
  match prior.filter fun _ => settlement.isSome with
  | some recorded => do
    refuseUnless (same recorded["id"]? (some (.str id)) && same recorded["mergedSha"]? args["mergedSha"]? &&
        same recorded["mergedInto"]? args["mergedInto"]?)
      ⟨.conflict, "Land settlement identity is already bound to a different delivery."⟩
    return ⟨[], recorded⟩
  | none => do
    onlyIf settlement.isSome (refuseUnless (b.workMap.all fun e => !sameLandSettlement e.2["landSettlement"]? settlement)
      ⟨.catchUpRequired, "catch-up-required"⟩)
    let work ← requireWork b.view id
    let decision ← engineDecision (effectiveItem b.claims id work)
    let transition ← transitionWork σ.toStoreHost work args["to"]? args["expectedStatus"]? args["reason"]?
      args["ask"]? args["answer"]?
    onlyIf (same args["to"]? (some (.str "delivered"))) do
      assertAcceptanceEvidence σ id work
      applyPlanEvidenceSnapshot σ b env snapshot id work
    let payload := movePayload σ b env id work args transition
    return ⟨decision.toList.map (engineDraft id) ++ [⟨"work.move", payload⟩] ++ reviewHandoff σ b env id work args,
      payload⟩

/-- The status that an answer resumes to. -/
def resumeStatus (view : View) (id : String) : Option Json :=
  let gate : Fields := view.gates.getD id ∅
  let recorded := orElse gate["durableStatusAtAsk"]? gate["statusAtAsk"]?
  if same recorded (some (.str "doing")) then some (.str "todo") else orElse recorded (some (.str "todo"))

/-- The arguments of the move that `answerAwaiting` makes. -/
def answerArgs (view : View) (id : String) (args : Fields) : Fields :=
  (((∅ : Fields).keepAll (some args.toJson)
    ["expectedStatus", "answer", "role", "rationale", "alternatives", "source", "approved"])).set "to"
      (resumeStatus view id)

/-- The arguments of the move that `putInAwaiting` makes for an item that nobody claims. -/
def askArgs (args : Fields) : Fields :=
  ((((∅ : Fields).keepAll (some args.toJson) ["expectedStatus", "ask", "parentSnapshotAtAsk", "statusAtAsk"]).set
    "to" (some (.str "awaiting-human")))).keep "askSource" args["source"]?

/-! ### Claims -/

/-- The identity of the writer, as claims record it. -/
def writerId : Json := .str (key σ.arithmetic (member (some env.writer) "id"))

/-- The writer owns the claim; a claim that names no writer belongs to everyone. -/
def owns (claim : Fields) : Bool :=
  claim["writerId"]?.isNone || same claim["writerId"]? (some (writerId σ env))

/-- `acquireClaimTx`: the record of the claim; `now` and `claimId` are new. -/
def acquireClaim (id : String) (args : Fields) (claimId now : String) : Except Refusal (Table Fields) := do
  onlyIf (!truthy args["force"]?) do
    refuseUnless (b.claims[id]?).isNone
      ⟨.conflict, "Item \"" ++ id ++ "\" is already claimed by claimId \"" ++
        key σ.arithmetic ((b.claims[id]?).bind fun existing : Fields => existing["claimId"]?) ++ "\""⟩
    refuseUnless (!same args["preClaimStatus"]? (some (.str "doing")))
      ⟨.conflict, "Item \"" ++ id ++ "\" is already in status \"doing\""⟩
  let given := fun k => some (orNull args[k]?)
  return b.claims.insert id (record [("claimId", some (.str claimId)), ("id", some (.str id)), ("actor", given "actor"),
    ("writerId", some (writerId σ env)), ("source", given "source"), ("branch", given "branch"),
    ("branchHeadAtTake", given "branchHeadAtTake"), ("headAtTake", given "headAtTake"),
    ("claimTrigger", given "claimTrigger"), ("preClaimStatus", given "preClaimStatus"),
    ("preClaimRevision", given "preClaimRevision"),
    ("claimRole", some (orNull (orElse args["claimRole"]? args["actor"]?))), ("acquiredAt", some (.str now)),
    ("lastObservedActivityAt", if truthy args["lastObservedActivityAt"]? then args["lastObservedActivityAt"]?
      else some (.str now)),
    ("hardExpiresAt", given "hardExpiresAt")])

/-- `releaseClaimTx`: what is left of the claims.  A claim that is not there, or that the caller does not
mean, is left alone; one of another writer wants a reason. -/
def releaseClaim (id : String) (claimId adminReason : Option Json) : Except Refusal (Table Fields) := do
  demand (adminReason.isNone || isNonBlank adminReason)
    "releaseClaim: \"adminReason\" must be a non-empty string when given"
  match b.claims[id]? with
  | none => return b.claims
  | some existing =>
    if truthy claimId && !same existing["claimId"]? claimId then return b.claims
    else do
      refuseUnless (owns σ env existing || adminReason.isSome)
        ⟨.conflict, "releaseClaim: writer identity mismatch for \"" ++ id ++ "\" — claim acquired by writer \"" ++
          key σ.arithmetic existing["writerId"]? ++ "\", releasing as writer \"" ++
          key σ.arithmetic (some (writerId σ env)) ++ "\"."⟩
      return b.claims.erase id

/-! ### Settling a claim -/

/-- What was found out about the item before the gate: its revision, and whether the writer of the claim made all
the changes since. -/
structure DriftEvidence where
  revision : String
  allowed : Bool

/-- The members of the arguments that the move of a settle carries into its payload. -/
def settleCarried : List String :=
  ["role", "headAtReturn", "releaseTrigger", "branchHeadAtReturn", "mergedSha", "mergedInto", "reason",
    "parentSnapshotAtAsk", "askSource"]

def settleMovePayload (work args : Fields) (preClaimStatus : Option Json) (transition : Fields) : Fields :=
  let dst := args["finalStatus"]?
  let payload := (stampStatus σ work dst (transition.insert "writer" env.writer)).keepAll (some args.toJson)
    settleCarried
  if same dst (some (.str "awaiting-human")) then
    (payload.keep "statusAtAsk" args["statusAtAsk"]?).keep "durableStatusAtAsk" preClaimStatus
  else payload

def attemptPayload (id : String) (claim args : Fields) (preClaimStatus : Option Json) (now : String) : Fields :=
  let dst := args["finalStatus"]?
  let success := isOneOf ["awaiting-approval", "delivered", "done"] dst
  let truthyOr := fun (a c : Option Json) => if truthy a then a else c
  let ifPresent := fun k => if isPresent claim[k]? then claim[k]? else none
  (record [("id", some (.str id)), ("phase", some (args.getD "phase" (.str "execute"))),
    ("result", truthyOr args["result"]? (some (.str (if success then "success" else "failed")))),
    ("from", preClaimStatus), ("to", dst), ("claimId", claim["claimId"]?),
    ("actor", truthyOr claim["actor"]? (truthyOr args["role"]? (some (.str "unknown")))),
    ("endedAt", some (.str now)), ("startedAt", ifPresent "acquiredAt"), ("branch", ifPresent "branch"),
    ("headAtTake", ifPresent "headAtTake"), ("branchHeadAtTake", ifPresent "branchHeadAtTake")]).keepAll
    (some args.toJson) ["branchHeadAtReturn", "headAtReturn", "reason", "releaseTrigger"]

/-- What a settle checks before it takes the lock, when the item is claimed. -/
def requireOwnClaim (id : String) (claim : Fields) (claimId : Option Json) : Except Refusal Unit := do
  demand (truthy claimId) ("settleClaim: \"claimId\" is required for \"" ++ id ++
    "\" — an active claim exists (\"" ++ key σ.arithmetic claim["claimId"]? ++ "\") and the caller must name it.")
  refuseUnless (same claim["claimId"]? claimId) ⟨.conflict, "settleClaim: claimId mismatch for \"" ++ id ++
    "\": active claim is \"" ++ key σ.arithmetic claim["claimId"]? ++ "\", got \"" ++ key σ.arithmetic claimId ++ "\"."⟩
  refuseUnless (owns σ env claim)
    ⟨.conflict, "settleClaim: writer identity mismatch for \"" ++ id ++ "\" — claim acquired by writer \"" ++
      key σ.arithmetic claim["writerId"]? ++ "\", settling as writer \"" ++ key σ.arithmetic (some (writerId σ env)) ++
      "\"."⟩

/-- The item is as it was claimed, or only its own writer has changed it since. -/
def requireClaimedRevision (id : String) (claim : Fields) (drift : Option DriftEvidence) : Except Refusal Unit :=
  let current := revision σ b.view id
  refuseUnless (!truthy claim["preClaimRevision"]? || same claim["preClaimRevision"]? (some (.str current)) ||
      drift.any fun found => found.allowed && found.revision = current)
    ⟨.conflict, "settleClaim: item \"" ++ id ++ "\" durable revision changed from \"" ++
      key σ.arithmetic claim["preClaimRevision"]? ++ "\" to \"" ++ current ++ "\"."⟩

/-- The claim that is meant is still the one of the item. -/
def requireFreshClaim (id : String) (targetClaimId : Option Json) : Except Refusal Fields :=
  match b.claims[id]? with
  | none => .error ⟨.conflict, "settleClaim: claim for \"" ++ id ++
      "\" changed while waiting for the write lock — had \"" ++ key σ.arithmetic targetClaimId ++ "\", now none."⟩
  | some claim =>
    if same claim["claimId"]? targetClaimId then .ok claim
    else .error ⟨.conflict, "settleClaim: claim for \"" ++ id ++
      "\" changed while waiting for the write lock — had \"" ++ key σ.arithmetic targetClaimId ++ "\", now \"" ++
      key σ.arithmetic claim["claimId"]? ++ "\"."⟩

/-- The move of a settle; one that leaves the status as it is has nothing to move. -/
def settleMove (work args : Fields) (preClaimStatus : Option Json) : Except Refusal (List Draft) :=
  if same args["finalStatus"]? preClaimStatus then .ok []
  else do
    let transition ← transitionWork σ.toStoreHost work args["finalStatus"]? preClaimStatus args["reason"]? args["ask"]?
      args["answer"]?
    return [⟨"work.move", settleMovePayload σ env work args preClaimStatus transition⟩]

def settleEdit (id : String) (args : Fields) : Except Refusal (List Draft) :=
  if (patchMembers args["patch"]?).isSome then do
    let draft ← editWork σ b env id args["patch"]? args["role"]?
    return [draft]
  else .ok []

/-- The transaction of `settleClaim`: the claim `targetClaimId` is settled, and released. -/
def settleTx (drift : Option DriftEvidence) (id : String) (targetClaimId : Option Json) (args : Fields) (now : String) :
    Except Refusal (List Draft × Table Fields) := do
  let claim ← requireFreshClaim σ b id targetClaimId
  refuseUnless (owns σ env claim)
    ⟨.conflict, "settleClaim: writer identity for \"" ++ id ++ "\" changed while waiting for the write lock."⟩
  let work ← requireWork b.view id
  let preClaimStatus := if truthy claim["preClaimStatus"]? then claim["preClaimStatus"]? else work["status"]?
  refuseUnless (!truthy claim["preClaimStatus"]? || same work["status"]? claim["preClaimStatus"]?)
    ⟨.conflict, "settleClaim: item \"" ++ id ++ "\" status changed from preClaimStatus \"" ++
      key σ.arithmetic claim["preClaimStatus"]? ++ "\" to \"" ++ key σ.arithmetic work["status"]? ++ "\"."⟩
  requireClaimedRevision σ b id claim drift
  let moved ← settleMove σ env work args preClaimStatus
  let edited ← settleEdit σ b env id args
  return (edited ++ [⟨"work.attempt", attemptPayload id claim args preClaimStatus now⟩] ++ moved, b.claims.erase id)

end Store

end Forgent
