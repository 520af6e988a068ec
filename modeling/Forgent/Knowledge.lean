import Forgent.Value

/-!
# The knowledge registry

Topics, and the documents that are kept under them.  Every `topic.*` and `doc.*` event is checked
against the registry as it stands and refused with a message when it does not fit; the fold of a history
applies the same function, so a refused event stops the fold.
-/

namespace Forgent

/-! ### Objects as lists of properties -/

/-- The index a property name is, when it is one: such properties come first, in ascending order. -/
def arrayIndex (key : String) : Option ℕ :=
  let n := key.toList.foldl (fun n c => 10 * n + (c.toNat - '0'.toNat)) 0
  if toString n = key ∧ n < 2 ^ 32 - 1 then some n else none

/-- `entries[key] = value`, in the order `Object.values` lists the properties. -/
def setProperty {α : Type} (entries : List (String × α)) (key : String) (value : α) :
    List (String × α) :=
  if entries.any fun e => e.1 = key then entries.map fun e => if e.1 = key then (key, value) else e
  else
    match arrayIndex key with
    | none => entries ++ [(key, value)]
    | some n =>
      let smaller := fun e : String × α => (arrayIndex e.1).any fun m => m < n
      entries.takeWhile smaller ++ (key, value) :: entries.dropWhile smaller

/-! ### Topics and documents -/

inductive TopicStatus where
  | active
  | retired
deriving DecidableEq

def TopicStatus.name : TopicStatus → String
  | .active => "active"
  | .retired => "retired"

structure Topic where
  topicId : String
  purposeSlug : String
  purposeTitle : Json
  entities : List Json
  status : TopicStatus
  lineage : Option Fields
  createdAt : String
  updatedAt : String

inductive DocLifecycle where
  | reserved
  | provisional
  | active
  | superseded
  | retired
deriving DecidableEq

namespace DocLifecycle

/-- `VALID_DOC_LIFECYCLE`. -/
def valid : List DocLifecycle := [reserved, provisional, active, superseded, retired]

def name : DocLifecycle → String
  | reserved => "reserved"
  | provisional => "provisional"
  | active => "active"
  | superseded => "superseded"
  | retired => "retired"

/-- `isLiveDocLifecycle`. -/
def isLive (l : DocLifecycle) : Bool := l ≠ retired && l ≠ superseded

end DocLifecycle

/-- A document; `docId` and `topicId` are kept as the events give them. -/
structure Doc where
  docId : Json
  topicId : Json
  role : String
  framework : String
  mode : String
  docLifecycle : DocLifecycle
  currentPath : String
  aliases : List Json
  sourceCaptureIds : List Json
  supersededBy : Option Json
  createdAt : String
  updatedAt : String

structure Knowledge where
  topics : Table Topic
  docs : List (String × Doc)

namespace Knowledge

open Json

def empty : Knowledge where
  topics := ∅
  docs := []

/-- `view.docs[id]`. -/
def doc? (view : Knowledge) (key : String) : Option Doc := view.docs.lookup key

/-- `Object.values(view.docs)`. -/
def docValues (view : Knowledge) : List Doc := view.docs.map Prod.snd

/-- The check of a `KnowledgeValidationError`. -/
def require (ok : Bool) (message : String) : Except String Unit :=
  if ok then .ok () else .error message

def found {α : Type} (value : Option α) (message : String) : Except String α :=
  match value with
  | some v => .ok v
  | none => .error message

/-! ### The checks -/

def isSlugChar (c : Char) : Bool :=
  ('A' ≤ c && c ≤ 'Z') || ('a' ≤ c && c ≤ 'z') || ('0' ≤ c && c ≤ '9')

/-- `SAFE_SLUG_RE`. -/
def isSafeSlug (s : String) : Bool :=
  match s.toList with
  | [] => false
  | c :: cs => isSlugChar c && cs.all fun d => isSlugChar d || d = '.' || d = '_' || d = '-'

def assertSafeSlug (n : Arithmetic) (value : Option Json) (label : String) : Except String String :=
  let message := label ++ " must be a safe single path segment (letters/digits, then letters/digits/./-/_, never '/', '\\', or starting with '.'): got " ++
    value.elim "undefined" (stringify n)
  match value with
  | some (.str s) => if isSafeSlug s then .ok s else .error message
  | _ => .error message

def segments (path : String) : List (List Char) := path.toList.splitOn '/'

def assertSafeDocPath (n : Arithmetic) (value : Option Json) (label : String) : Except String String :=
  match value with
  | some (.str s) => do
    let got := stringify n (.str s)
    let cs := s.toList
    require (s ≠ "") (label ++ " must be a non-empty string")
    require (!cs.contains '\\') (label ++ " must not contain backslashes: got " ++ got)
    let drive := (cs.head?.any fun c => ('A' ≤ c && c ≤ 'Z') || ('a' ≤ c && c ≤ 'z')) && cs[1]? = some ':'
    require (cs.head? ≠ some '/' && !drive) (label ++ " must be repo-relative, never absolute: got " ++ got)
    require ("docs/".toList.isPrefixOf cs) (label ++ " must live under 'docs/': got " ++ got)
    require ((segments s).all fun seg => seg ≠ ".".toList && seg ≠ "..".toList && seg ≠ [])
      (label ++ " must not contain '.', '..', or empty path segments: got " ++ got)
    return s
  | _ => .error (label ++ " must be a non-empty string")

/-- `VALID_FRAMEWORKS`. -/
def frameworks : List String := ["diataxis"]

/-- `DIATAXIS_MODES`. -/
def diataxisModes : List String := ["tutorial", "how-to", "reference", "explanation"]

/-- The registered framework and mode, once both and the role fit together. -/
def assertFrameworkModeRoleValid (n : Arithmetic) (framework mode : Json) (role : String) :
    Except String (String × String) := do
  let f ← found (frameworks.find? fun f => same (some (.str f)) (some framework))
    ("Invalid framework: '" ++ text n framework ++ "' — registered frameworks are: " ++
      ", ".intercalate frameworks ++ ".")
  let m ← found (diataxisModes.find? fun m => same (some (.str m)) (some mode))
    ("Invalid mode: '" ++ text n mode ++ "' for framework 'diataxis' — valid modes are: " ++
      ", ".intercalate diataxisModes ++ ".")
  require (!diataxisModes.contains role)
    ("Invalid role: '" ++ role ++ "' — a role name must not equal a Diataxis mode name (" ++
      ", ".intercalate diataxisModes ++ ").")
  return (f, m)

def getActiveDocs (view : Knowledge) (topicId : Json) (role : String) : List Doc :=
  view.docValues.filter fun d =>
    same (some d.topicId) (some topicId) && d.role = role && d.docLifecycle = .active

def assertActiveDocCardinality (n : Arithmetic) (view : Knowledge) (topicId : Json) (role : String) :
    Except String Unit :=
  let count := (view.getActiveDocs topicId role).length
  require (count ≤ 1) ("Invariant violation: activeDoc(" ++ text n topicId ++ ", " ++ role ++ ") count is " ++
    toString count ++ ", max allowed is 1.")

def assertCurrentPathUnique (n : Arithmetic) (view : Knowledge) (id : Json) (currentPath : String) :
    Except String Unit :=
  match view.docValues.find? fun d => !same (some d.docId) (some id) && d.currentPath = currentPath &&
      d.docLifecycle ≠ .retired with
  | none => .ok ()
  | some d => .error ("currentPath \"" ++ currentPath ++ "\" is already claimed by doc '" ++ text n d.docId ++
      "' — currentPath must be unique among non-retired docs.")

def assertDocSlotAvailable (n : Arithmetic) (view : Knowledge) (id topicId : Json) (role : String) :
    Except String Unit :=
  match view.docValues.find? fun d => !same (some d.docId) (some id) &&
      same (some d.topicId) (some topicId) && d.role = role && d.docLifecycle.isLive with
  | none => .ok ()
  | some d => .error ("doc slot (" ++ text n topicId ++ ", " ++ role ++ ") is already occupied by doc '" ++
      text n d.docId ++ "' (" ++ d.docLifecycle.name ++
      ") — retire or supersede it first, or use \"fgos topic split\" to give the new doc its own topicId with lineage.")

def assertTopicWritable (n : Arithmetic) (view : Knowledge) (topicId : Json) (verb : String) :
    Except String Unit :=
  require (view.topics[text n topicId]?.all fun t => t.status ≠ .retired)
    (verb ++ ": topic '" ++ text n topicId ++
      "' is retired — no new doc content may be written into a retired topic; migrate this doc to a live topic (via \"fgos topic split\"/\"fgos topic merge\") first.")

/-- The document the payload means: by its id, or the one that holds topic and role, a live one first. -/
def resolveDocId (view : Knowledge) (docId topicId role : Option Json) : Json :=
  if truthy docId then orNull docId
  else if !truthy topicId || !truthy role then .null
  else
    let held := view.docValues.filter fun d =>
      same (some d.topicId) topicId && same (some (.str d.role)) role
    (((held.find? fun d => d.docLifecycle.isLive).orElse fun _ => held.head?).map Doc.docId).getD .null

/-! ### Topics -/

variable (n : Arithmetic) (view : Knowledge) (payload : Option Json) (ts : String)

def entitiesOf (entities : Option Json) (otherwise : List Json) : List Json :=
  match entities with
  | some (.arr items) => items
  | _ => otherwise

def topicRegister : Except String Knowledge := do
  let topicId := member payload "topicId"
  let purposeSlug := member payload "purposeSlug"
  require (truthy topicId && truthy purposeSlug) "topic.register requires topicId and purposeSlug"
  let id ← assertSafeSlug n topicId "topic.register: topicId"
  let slug ← assertSafeSlug n purposeSlug "topic.register: purposeSlug"
  match view.topics[id]? with
  | some topic => .error ("topic.register: topic '" ++ id ++ "' already exists (" ++ topic.status.name ++
      ") — register is create-only; use \"fgos topic rename\"/\"fgos topic split\"/\"fgos topic merge\" to change an existing topic.")
  | none =>
    return { view with topics := view.topics.insert id {
      topicId := id
      purposeSlug := slug
      purposeTitle := (orElse (member payload "purposeTitle") none).getD (.str slug)
      entities := entitiesOf (member payload "entities") []
      status := .active
      lineage := none
      createdAt := ts
      updatedAt := ts } }

def topicRename : Except String Knowledge := do
  let key := key n (member payload "topicId")
  let newPurposeSlug := member payload "newPurposeSlug"
  let newPurposeTitle := member payload "newPurposeTitle"
  let topic ← found view.topics[key]? ("topic.rename: topic '" ++ key ++ "' not found")
  let slug ←
    if truthy newPurposeSlug then assertSafeSlug n newPurposeSlug "topic.rename: newPurposeSlug"
    else pure topic.purposeSlug
  return { view with topics := view.topics.insert key { topic with
    lineage := some ((topic.lineage.getD ∅).insert "renamedFrom" (.str topic.purposeSlug))
    purposeSlug := slug
    purposeTitle := if truthy newPurposeTitle then orNull newPurposeTitle else topic.purposeTitle
    updatedAt := ts } }

/-- The successors of a split, each checked before anything changes. -/
def checkSuccessors (topicId : Option Json) : List String → List Json → Except String Unit
  | _, [] => .ok ()
  | seen, nt :: rest => do
    let newTopicId := nt.field "topicId"
    let purposeSlug := nt.field "purposeSlug"
    require (truthy newTopicId && truthy purposeSlug)
      "topic.split new topic requires topicId and purposeSlug"
    let id ← assertSafeSlug n newTopicId "topic.split: successor topicId"
    let _ ← assertSafeSlug n purposeSlug "topic.split: successor purposeSlug"
    require (!same (some (.str id)) topicId)
      ("topic.split: successor topicId '" ++ id ++ "' cannot equal the source topicId")
    require (!seen.contains id)
      ("topic.split: successor topicId '" ++ id ++ "' listed more than once in newTopics")
    match view.topics[id]? with
    | some topic => .error ("topic.split: successor topicId '" ++ id ++ "' already exists (" ++
        topic.status.name ++ ") -- topic ids are create-only")
    | none => checkSuccessors topicId (id :: seen) rest

def rolesOf (nt : Json) : List Json :=
  match nt.field "rolesToMove" with
  | some (.arr roles) => roles
  | _ => []

def assignRoles (nt : Json) : List (Json × String) → List Json → Except String (List (Json × String))
  | assigned, [] => .ok assigned
  | assigned, role :: rest =>
    match assigned.find? fun a => same (some a.1) (some role) with
    | some a => .error ("topic.split: role '" ++ text n role ++
        "' is listed in more than one successor's rolesToMove (both '" ++ a.2 ++ "' and '" ++
        key n (nt.field "topicId") ++ "') -- a role can only move to exactly one successor")
    | none => assignRoles nt (assigned ++ [(role, key n (nt.field "topicId"))]) rest

def assignAllRoles : List (Json × String) → List Json → Except String (List (Json × String))
  | assigned, [] => .ok assigned
  | assigned, nt :: rest => do
    let assigned ← assignRoles n nt assigned (rolesOf nt)
    assignAllRoles assigned rest

/-- One successor: its topic, and the documents of the source that move to it. -/
def addSuccessor (source : Option Json) (oldTopic : Topic) (oldDocs : List String) (view : Knowledge)
    (nt : Json) : Knowledge :=
  let id := key n (nt.field "topicId")
  let slug := key n (nt.field "purposeSlug")
  { topics := view.topics.insert id {
      topicId := id
      purposeSlug := slug
      purposeTitle := (orElse (nt.field "purposeTitle") none).getD (.str slug)
      entities := entitiesOf (nt.field "entities") oldTopic.entities
      status := .active
      lineage := some (Fields.set ∅ "splitFrom" source)
      createdAt := ts
      updatedAt := ts }
    docs := view.docs.map fun e =>
      if oldDocs.contains e.1 && includes (rolesOf nt) (.str e.2.role) then
        (e.1, { e.2 with topicId := .str id, updatedAt := ts })
      else e }

def topicSplit : Except String Knowledge := do
  let topicId := member payload "topicId"
  let key := key n topicId
  let oldTopic ← found view.topics[key]? ("topic.split: old topic '" ++ key ++ "' not found")
  require (oldTopic.status = .active)
    ("topic.split: source topic '" ++ key ++ "' is '" ++ oldTopic.status.name ++ "', must be 'active'")
  let newTopics ← match member payload "newTopics" with
    | some (.arr (a :: b :: rest)) => pure (a :: b :: rest)
    | _ => .error "topic.split requires at least 2 successor topics -- a single-successor split is a rename (\"fgos topic rename\"), not a split"
  checkSuccessors n view topicId [] newTopics
  let oldDocs := view.docs.filter fun e => same (some e.2.topicId) topicId
  let assigned ← assignAllRoles n [] newTopics
  let stranded := oldDocs.filter fun e =>
    e.2.docLifecycle.isLive && !includes (assigned.map Prod.fst) (.str e.2.role)
  require stranded.isEmpty ("topic.split: " ++ toString stranded.length ++ " live doc(s) under source topic '" ++
    key ++ "' are not assigned to any successor's rolesToMove (" ++
    ", ".intercalate (stranded.map fun e => text n e.2.docId ++ " (role '" ++ e.2.role ++ "')") ++
    ") -- every live doc must move to a successor, or be explicitly retired/superseded first")
  let retired := { view with
    topics := view.topics.insert key { oldTopic with status := .retired, updatedAt := ts } }
  return newTopics.foldl (addSuccessor n ts topicId oldTopic (oldDocs.map Prod.fst)) retired

/-- The sources of a merge, each checked before anything changes. -/
def checkSources (targetTopicId : Option Json) : List Json → List Json → Except String Unit
  | _, [] => .ok ()
  | seen, sId :: rest => do
    let t := text n sId
    require (!same (some sId) targetTopicId)
      ("topic.merge: source '" ++ t ++ "' cannot equal targetTopicId")
    require (!includes seen sId)
      ("topic.merge: source '" ++ t ++ "' listed more than once in sourceTopicIds")
    let srcTopic ← found view.topics[t]? ("topic.merge: source topic '" ++ t ++ "' not found")
    require (srcTopic.status = .active)
      ("topic.merge: source topic '" ++ t ++ "' is '" ++ srcTopic.status.name ++ "', must be 'active'")
    checkSources targetTopicId (sId :: seen) rest

def checkOccupants (target : String) : List (String × Json) → List Doc → Except String Unit
  | _, [] => .ok ()
  | occupants, d :: rest => do
    match occupants.lookup d.role with
    | some prior =>
      require (!(truthy (some prior) && !same (some prior) (some d.docId)))
        ("topic.merge: role '" ++ d.role ++ "' would have two live docs under target '" ++ target ++
          "' after merge ('" ++ text n prior ++ "' and '" ++ text n d.docId ++
          "') — supersede or retire one first.")
    | none => pure ()
    checkOccupants target ((d.role, d.docId) :: occupants) rest

/-- One source: it is retired and its documents move to the target. -/
def mergeSource (target : Json) (view : Knowledge) (sId : Json) : Knowledge where
  topics :=
    match view.topics[text n sId]? with
    | some topic => view.topics.insert (text n sId) { topic with status := .retired, updatedAt := ts }
    | none => view.topics
  docs := view.docs.map fun e =>
    if same (some e.2.topicId) (some sId) then (e.1, { e.2 with topicId := target, updatedAt := ts })
    else e

def topicMerge : Except String Knowledge := do
  let targetTopicId := member payload "targetTopicId"
  let sourceTopicIds ← match member payload "sourceTopicIds", truthy targetTopicId with
    | some (.arr sources), true => pure sources
    | _, _ => .error "topic.merge requires sourceTopicIds and targetTopicId"
  let target := key n targetTopicId
  let targetTopic ← found view.topics[target]? ("topic.merge: target topic '" ++ target ++ "' not found")
  require (targetTopic.status = .active)
    ("topic.merge: target topic '" ++ target ++ "' is '" ++ targetTopic.status.name ++ "', must be 'active'")
  checkSources n view targetTopicId [] sourceTopicIds
  checkOccupants n target [] (view.docValues.filter fun d => d.docLifecycle.isLive &&
    (same (some d.topicId) targetTopicId || includes sourceTopicIds d.topicId))
  let lineage := targetTopic.lineage.getD ∅
  let mergedFrom := match lineage["mergedFrom"]? with
    | some (.arr items) => items ++ sourceTopicIds
    | _ => sourceTopicIds
  let merged := { view with topics := view.topics.insert target { targetTopic with
    lineage := some (lineage.insert "mergedFrom" (.arr mergedFrom))
    updatedAt := ts } }
  return sourceTopicIds.foldl (mergeSource n ts (orNull targetTopicId)) merged

def topicRetire : Except String Knowledge := do
  let key := key n (member payload "topicId")
  let topic ← found view.topics[key]? ("topic.retire: topic '" ++ key ++ "' not found")
  return { view with topics := view.topics.insert key { topic with status := .retired, updatedAt := ts } }

/-! ### Documents -/

/-- What `doc.reserve` and `doc.register` check first: a registered, writable topic, a role and a path. -/
def checkDocTarget (verb : String) : Except String (Json × String × String) := do
  let topicId := member payload "topicId"
  let role := member payload "role"
  let currentPath := member payload "currentPath"
  require (truthy topicId && truthy role && truthy currentPath)
    (verb ++ " requires topicId, role, and currentPath")
  require (view.topics[key n topicId]?).isSome
    (verb ++ ": topicId \"" ++ key n topicId ++ "\" is not registered — run \"fgos topic register\" first")
  let role ← assertSafeSlug n role (verb ++ ": role")
  let path ← assertSafeDocPath n currentPath (verb ++ ": currentPath")
  assertTopicWritable n view (orNull topicId) verb
  return (orNull topicId, role, path)

/-- `docId ?? topicId:role`. -/
def docIdOf (topicId : Json) (role : String) : Json :=
  (orElse (member payload "docId") none).getD (.str (text n topicId ++ ":" ++ role))

def docReserve : Except String Knowledge := do
  let (topicId, role, path) ← checkDocTarget n view payload "doc.reserve"
  let (framework, mode) ← assertFrameworkModeRoleValid n
    ((orElse (member payload "framework") none).getD (.str "diataxis"))
    ((orElse (member payload "mode") none).getD (.str "explanation")) role
  let id := docIdOf n payload topicId role
  match view.doc? (text n id) with
  | some d => .error ("doc.reserve: doc '" ++ text n id ++ "' already exists (" ++ d.docLifecycle.name ++
      ") — reserve is create-only; use \"fgos doc register\" for an explicit update.")
  | none =>
    assertDocSlotAvailable n view id topicId role
    assertCurrentPathUnique n view id path
    return { view with docs := setProperty view.docs (text n id) {
      docId := id
      topicId := topicId
      role := role
      framework := framework
      mode := mode
      docLifecycle := .reserved
      currentPath := path
      aliases := []
      sourceCaptureIds := []
      supersededBy := none
      createdAt := ts
      updatedAt := ts } }

/-- The lifecycle a register leaves: an existing document keeps its own, or goes from reserved to
provisional; a new one starts where the payload says. -/
def registerLifecycle (id : Json) (existing : Option Doc) (docLifecycle : Option Json) :
    Except String DocLifecycle :=
  match existing with
  | some d =>
    if docLifecycle.isNone || same docLifecycle (some (.str d.docLifecycle.name)) then .ok d.docLifecycle
    else if d.docLifecycle = .reserved && same docLifecycle (some (.str "provisional")) then
      .ok .provisional
    else .error ("doc.register: doc '" ++ text n id ++ "' already exists with docLifecycle='" ++
      d.docLifecycle.name ++ "' — register cannot change lifecycle to '" ++ key n docLifecycle ++
      "'; use \"fgos doc promote\"/\"fgos doc supersede\"/\"fgos doc retire\" instead.")
  | none =>
    let lifecycle := (orElse docLifecycle none).getD (.str "provisional")
    found (DocLifecycle.valid.find? fun l => same (some (.str l.name)) (some lifecycle))
      ("Invalid docLifecycle: '" ++ text n lifecycle ++ "'")

/-- An existing document keeps its topic, role and path. -/
def checkSameIdentity (id topicId : Json) (role path : String) (existing : Option Doc) :
    Except String Unit :=
  match existing with
  | none => .ok ()
  | some d =>
    require (same (some d.topicId) (some topicId) && d.role = role && d.currentPath = path)
      ("doc.register: doc '" ++ text n id ++ "' already exists with topicId='" ++ text n d.topicId ++
        "', role='" ++ d.role ++ "', currentPath='" ++ d.currentPath ++
        "' — register cannot change a doc's identity or path. Use \"fgos topic split\"/\"fgos topic merge\" to change topicId/role (with lineage), or \"fgos doc move-path\" to change currentPath (preserves the old path as an alias).")

/-- The first active document of topic and role, when it is another one. -/
def checkNotActiveElsewhere (view : Knowledge) (id topicId : Json) (role : String) (verb : String) :
    Except String Unit :=
  match (view.getActiveDocs topicId role).head? with
  | none => .ok ()
  | some d => require (same (some d.docId) (some id))
      (verb ++ "activeDoc(" ++ text n topicId ++ ", " ++ role ++ ") already exists: '" ++ d.currentPath ++ "'")

def docRegister : Except String Knowledge := do
  let (topicId, role, path) ← checkDocTarget n view payload "doc.register"
  let id := docIdOf n payload topicId role
  let existing := view.doc? (text n id)
  checkSameIdentity n id topicId role path existing
  let lifecycle ← registerLifecycle n id existing (member payload "docLifecycle")
  let (framework, mode) ← assertFrameworkModeRoleValid n
    ((orElse (member payload "framework") (existing.map fun d => .str d.framework)).getD (.str "diataxis"))
    ((orElse (member payload "mode") (existing.map fun d => .str d.mode)).getD (.str "explanation")) role
  if lifecycle = .active then checkNotActiveElsewhere n view id topicId role ""
  assertDocSlotAvailable n view id topicId role
  assertCurrentPathUnique n view id path
  let view := { view with docs := setProperty view.docs (text n id) {
    docId := id
    topicId := topicId
    role := role
    framework := framework
    mode := mode
    docLifecycle := lifecycle
    currentPath := path
    aliases := entitiesOf (member payload "aliases") ((existing.map Doc.aliases).getD [])
    sourceCaptureIds :=
      entitiesOf (member payload "sourceCaptureIds") ((existing.map Doc.sourceCaptureIds).getD [])
    supersededBy := none
    createdAt := (existing.map Doc.createdAt).getD ts
    updatedAt := ts } }
  assertActiveDocCardinality n view topicId role
  return view

/-- The document the payload means, with its id. -/
def resolveDoc (verb : String) : Except String (Json × Doc) := do
  let id := view.resolveDocId (member payload "docId") (member payload "topicId") (member payload "role")
  let d ← found (view.doc? (text n id)) (verb ++ ": doc '" ++ text n id ++ "' not found")
  return (id, d)

def putDoc (id : Json) (d : Doc) : Knowledge :=
  { view with docs := setProperty view.docs (text n id) { d with updatedAt := ts } }

def docMarkRendered : Except String Knowledge := do
  let (id, d) ← resolveDoc n view payload "doc.mark-rendered"
  assertTopicWritable n view d.topicId "doc.mark-rendered"
  require (d.docLifecycle = .reserved)
    ("doc.mark-rendered: doc '" ++ text n id ++ "' is '" ++ d.docLifecycle.name ++ "', must be 'reserved'")
  return view.putDoc n ts id { d with docLifecycle := .provisional }

def docPromote : Except String Knowledge := do
  let (id, d) ← resolveDoc n view payload "doc.promote"
  assertTopicWritable n view d.topicId "doc.promote"
  require (d.docLifecycle ≠ .reserved) ("doc.promote: cannot promote doc '" ++ text n id ++
    "' from 'reserved' state (must mark-rendered/provisional first)")
  require (d.docLifecycle = .provisional) ("doc.promote: doc '" ++ text n id ++ "' is in '" ++
    d.docLifecycle.name ++ "' state, must be 'provisional'")
  checkNotActiveElsewhere n view id d.topicId d.role "doc.promote: "
  let view := view.putDoc n ts id { d with docLifecycle := .active }
  assertActiveDocCardinality n view d.topicId d.role
  return view

def docDemote : Except String Knowledge := do
  let (id, d) ← resolveDoc n view payload "doc.demote"
  assertTopicWritable n view d.topicId "doc.demote"
  require (d.docLifecycle = .active)
    ("doc.demote: doc '" ++ text n id ++ "' is '" ++ d.docLifecycle.name ++ "', must be 'active'")
  return view.putDoc n ts id { d with docLifecycle := .provisional }

def checkSuccessorDoc (id supersededBy : Json) : Except String Unit := do
  let s := text n supersededBy
  require (!same (some supersededBy) (some id))
    ("doc.supersede: doc '" ++ text n id ++ "' cannot be supersededBy itself")
  let successor ← found (view.doc? s) ("doc.supersede: supersededBy doc '" ++ s ++ "' not found")
  require successor.docLifecycle.isLive ("doc.supersede: supersededBy doc '" ++ s ++ "' is '" ++
    successor.docLifecycle.name ++ "' — must be a live doc, not another dead one")
  let topic := view.topics[text n successor.topicId]?
  require (topic.any fun t => t.status = .active)
    ("doc.supersede: supersededBy doc '" ++ s ++ "' is under topic '" ++ text n successor.topicId ++
      "', which is '" ++ (topic.map fun t => t.status.name).getD "missing" ++
      "' (not active) — the successor's own topic must be active for any reader to ever resolve this pointer")

def docSupersede : Except String Knowledge := do
  let (id, d) ← resolveDoc n view payload "doc.supersede"
  let supersededBy := member payload "supersededBy"
  if truthy supersededBy then checkSuccessorDoc n view id (orNull supersededBy)
  return view.putDoc n ts id { d with
    docLifecycle := .superseded
    supersededBy := if truthy supersededBy then supersededBy else d.supersededBy }

def docRetire : Except String Knowledge := do
  let (id, d) ← resolveDoc n view payload "doc.retire"
  return view.putDoc n ts id { d with docLifecycle := .retired }

/-- The white space of `String.prototype.trim`. -/
def isBlankChar (c : Char) : Bool :=
  (9 ≤ c.toNat && c.toNat ≤ 13) || c.toNat = 0x20 || c.toNat = 0xA0 || c.toNat = 0x1680 ||
    (0x2000 ≤ c.toNat && c.toNat ≤ 0x200A) || c.toNat = 0x2028 || c.toNat = 0x2029 ||
    c.toNat = 0x202F || c.toNat = 0x205F || c.toNat = 0x3000 || c.toNat = 0xFEFF

def docAttest : Except String Knowledge := do
  let (id, d) ← resolveDoc n view payload "doc.attest"
  require d.docLifecycle.isLive ("doc.attest: doc '" ++ text n id ++ "' is " ++ d.docLifecycle.name)
  assertTopicWritable n view d.topicId "doc.attest"
  match member payload "captureId" with
  | some (.str captureId) =>
    require (!captureId.toList.all isBlankChar) "doc.attest requires captureId"
    let known := includes d.sourceCaptureIds (.str captureId)
    let ids := if known then d.sourceCaptureIds else d.sourceCaptureIds ++ [.str captureId]
    return view.putDoc n ts id { d with sourceCaptureIds := ids }
  | _ => .error "doc.attest requires captureId"

def docPathMove : Except String Knowledge := do
  let (id, d) ← resolveDoc n view payload "doc.path-move"
  let newPath := member payload "newPath"
  require (truthy newPath) "doc.path-move requires newPath"
  let path ← assertSafeDocPath n newPath "doc.path-move: newPath"
  assertCurrentPathUnique n view id path
  return view.putDoc n ts id { d with
    currentPath := path
    aliases :=
      if d.currentPath ≠ "" && d.currentPath ≠ path && !includes d.aliases (.str d.currentPath) then
        d.aliases ++ [.str d.currentPath]
      else d.aliases }

/-- The knowledge types of `applyEvent`. -/
def isKnowledgeType (eventType : String) : Bool :=
  ["topic.register", "topic.rename", "topic.split", "topic.merge", "topic.retire", "doc.reserve",
    "doc.register", "doc.mark-rendered", "doc.promote", "doc.demote", "doc.supersede", "doc.retire",
    "doc.path-move", "doc.attest"].contains eventType

/-- `applyKnowledgeEvent`. -/
def apply (eventType : String) : Except String Knowledge :=
  match eventType with
  | "topic.register" => topicRegister n view payload ts
  | "topic.rename" => topicRename n view payload ts
  | "topic.split" => topicSplit n view payload ts
  | "topic.merge" => topicMerge n view payload ts
  | "topic.retire" => topicRetire n view payload ts
  | "doc.reserve" => docReserve n view payload ts
  | "doc.register" => docRegister n view payload ts
  | "doc.mark-rendered" => docMarkRendered n view payload ts
  | "doc.promote" => docPromote n view payload ts
  | "doc.demote" => docDemote n view payload ts
  | "doc.supersede" => docSupersede n view payload ts
  | "doc.retire" => docRetire n view payload ts
  | "doc.path-move" => docPathMove n view payload ts
  | "doc.attest" => docAttest n view payload ts
  | _ => .ok view

end Knowledge

end Forgent
