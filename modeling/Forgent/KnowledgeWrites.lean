import Forgent.InPlace
import Forgent.KnowledgeUnique

/-!
# The reducers as they write

The reducers of the registry change the view in place.  Here each stands with its checks and its writes in
the sequence in which it makes them, and is shown to come to what the function of the same name says
(`apply_outcome`).  What a refused event leaves behind depends on that sequence: eleven reducers make all
their checks before they write, `topic.rename`, `doc.register` and `doc.promote` do not
(`refused_leaves_view`).
-/

namespace Forgent

open Json List

namespace Knowledge

/-- `view.topics[key] = topic`. -/
def setTopic (key : String) (topic : Topic) (view : Knowledge) : Knowledge :=
  { view with topics := view.topics.insert key topic }

/-- An assignment to members of `view.topics[key]`. -/
def editTopic (key : String) (edit : Topic → Topic) (view : Knowledge) : Knowledge :=
  match view.topics[key]? with
  | some topic => view.setTopic key (edit topic)
  | none => view

/-- Assignments to members of `view.docs[key]`. -/
def editDoc (key : String) (edit : Doc → Doc) (view : Knowledge) : Knowledge :=
  match view.doc? key with
  | some d => view.withDoc key (edit d)
  | none => view

namespace Reducer

open InPlace

variable (n : Arithmetic) (payload : Option Json) (ts : String) {α : Type}

/-- A step of a reducer. -/
abbrev Step := EStateM String Knowledge

/-! ### Topics -/

def topicRegister : Step Unit := do
  let topicId := member payload "topicId"
  let purposeSlug := member payload "purposeSlug"
  check fun _ => require (truthy topicId && truthy purposeSlug) "topic.register requires topicId and purposeSlug"
  let id ← check fun _ => assertSafeSlug n topicId "topic.register: topicId"
  let slug ← check fun _ => assertSafeSlug n purposeSlug "topic.register: purposeSlug"
  check fun view =>
    match view.topics[id]? with
    | some topic => .error ("topic.register: topic '" ++ id ++ "' already exists (" ++ topic.status.name ++
        ") — register is create-only; use \"fgos topic rename\"/\"fgos topic split\"/\"fgos topic merge\" to change an existing topic.")
    | none => .ok ()
  update fun view => view.setTopic id {
    topicId := id
    purposeSlug := slug
    purposeTitle := (orElse (member payload "purposeTitle") none).getD (.str slug)
    entities := entitiesOf (member payload "entities") []
    status := .active
    lineage := none
    createdAt := ts
    updatedAt := ts }

/-- The lineage is written before the new slug is checked. -/
def topicRename : Step Unit := do
  let key := key n (member payload "topicId")
  let newPurposeSlug := member payload "newPurposeSlug"
  let newPurposeTitle := member payload "newPurposeTitle"
  let topic ← check fun view => found view.topics[key]? ("topic.rename: topic '" ++ key ++ "' not found")
  update fun view => view.editTopic key fun t => { t with
    lineage := some ((t.lineage.getD ∅).insert "renamedFrom" (.str t.purposeSlug)) }
  let slug ← check fun _ =>
    if truthy newPurposeSlug then assertSafeSlug n newPurposeSlug "topic.rename: newPurposeSlug"
    else .ok topic.purposeSlug
  update fun view => view.editTopic key fun t => { t with
    purposeSlug := slug
    purposeTitle := if truthy newPurposeTitle then orNull newPurposeTitle else t.purposeTitle
    updatedAt := ts }

def topicSplit : Step Unit := do
  let topicId := member payload "topicId"
  let key := key n topicId
  let oldTopic ← check fun view => found view.topics[key]? ("topic.split: old topic '" ++ key ++ "' not found")
  check fun _ => require (oldTopic.status = .active)
    ("topic.split: source topic '" ++ key ++ "' is '" ++ oldTopic.status.name ++ "', must be 'active'")
  let newTopics ← check fun _ => match member payload "newTopics" with
    | some (.arr (a :: b :: rest)) => .ok (a :: b :: rest)
    | _ => .error "topic.split requires at least 2 successor topics -- a single-successor split is a rename (\"fgos topic rename\"), not a split"
  check fun view => checkSuccessors n view topicId [] newTopics
  let oldDocs ← check fun view => .ok (view.docs.filter fun e => same (some e.2.topicId) topicId)
  let assigned ← check fun _ => assignAllRoles n [] newTopics
  let stranded := oldDocs.filter fun e =>
    e.2.docLifecycle.isLive && !includes (assigned.map Prod.fst) (.str e.2.role)
  check fun _ => require stranded.isEmpty ("topic.split: " ++ toString stranded.length ++
    " live doc(s) under source topic '" ++ key ++ "' are not assigned to any successor's rolesToMove (" ++
    ", ".intercalate (stranded.map fun e => text n e.2.docId ++ " (role '" ++ e.2.role ++ "')") ++
    ") -- every live doc must move to a successor, or be explicitly retired/superseded first")
  update fun view => view.editTopic key fun t => { t with status := .retired, updatedAt := ts }
  newTopics.forM fun nt => update fun view => addSuccessor n ts topicId oldTopic (oldDocs.map Prod.fst) view nt

def topicMerge : Step Unit := do
  let targetTopicId := member payload "targetTopicId"
  let sourceTopicIds ← check fun _ => match member payload "sourceTopicIds", truthy targetTopicId with
    | some (.arr sources), true => .ok sources
    | _, _ => .error "topic.merge requires sourceTopicIds and targetTopicId"
  let target := key n targetTopicId
  let targetTopic ← check fun view =>
    found view.topics[target]? ("topic.merge: target topic '" ++ target ++ "' not found")
  check fun _ => require (targetTopic.status = .active)
    ("topic.merge: target topic '" ++ target ++ "' is '" ++ targetTopic.status.name ++ "', must be 'active'")
  check fun view => checkSources n view targetTopicId [] sourceTopicIds
  check fun view => checkOccupants n target [] (view.docValues.filter fun d => d.docLifecycle.isLive &&
    (same (some d.topicId) targetTopicId || includes sourceTopicIds d.topicId))
  update fun view => view.editTopic target fun t => { t with
    lineage := some ((t.lineage.getD ∅).insert "mergedFrom" (.arr
      (match (t.lineage.getD ∅)["mergedFrom"]? with
        | some (.arr items) => items ++ sourceTopicIds
        | _ => sourceTopicIds)))
    updatedAt := ts }
  sourceTopicIds.forM fun sId => update fun view => mergeSource n ts (orNull targetTopicId) view sId

def topicRetire : Step Unit := do
  let key := key n (member payload "topicId")
  let _ ← check fun view => found view.topics[key]? ("topic.retire: topic '" ++ key ++ "' not found")
  update fun view => view.editTopic key fun t => { t with status := .retired, updatedAt := ts }

/-! ### Documents -/

def docReserve : Step Unit := do
  let (topicId, role, path) ← check fun view => checkDocTarget n view payload "doc.reserve"
  let (framework, mode) ← check fun _ => assertFrameworkModeRoleValid n
    ((orElse (member payload "framework") none).getD (.str "diataxis"))
    ((orElse (member payload "mode") none).getD (.str "explanation")) role
  let id := docIdOf n payload topicId role
  check fun view =>
    match view.doc? (text n id) with
    | some d => .error ("doc.reserve: doc '" ++ text n id ++ "' already exists (" ++ d.docLifecycle.name ++
        ") — reserve is create-only; use \"fgos doc register\" for an explicit update.")
    | none => .ok ()
  check fun view => assertDocSlotAvailable n view id topicId role
  check fun view => assertCurrentPathUnique n view id path
  update fun view => view.withDoc (text n id) {
    docId := id
    topicId := topicId
    role := role
    framework := framework
    mode := mode
    docLifecycle := .reserved
    currentPath := path
    aliases := []
    sourceCaptureIds := []
    supersededBy := none
    createdAt := ts
    updatedAt := ts }

/-- The record that a register is about to write, once its checks have passed. -/
def registered : Step (String × Doc) := do
  let (topicId, role, path) ← check fun view => checkDocTarget n view payload "doc.register"
  let id := docIdOf n payload topicId role
  let existing ← check fun view => .ok (view.doc? (text n id))
  check fun _ => checkSameIdentity n id topicId role path existing
  let lifecycle ← check fun _ => registerLifecycle n id existing (member payload "docLifecycle")
  let (framework, mode) ← check fun _ => assertFrameworkModeRoleValid n
    ((orElse (member payload "framework") (existing.map fun d => .str d.framework)).getD (.str "diataxis"))
    ((orElse (member payload "mode") (existing.map fun d => .str d.mode)).getD (.str "explanation")) role
  check fun view =>
    if lifecycle = .active then checkNotActiveElsewhere n view id topicId role "" else .ok ()
  check fun view => assertDocSlotAvailable n view id topicId role
  check fun view => assertCurrentPathUnique n view id path
  return (text n id, {
    docId := id
    topicId := topicId
    role := role
    framework := framework
    mode := mode
    docLifecycle := lifecycle
    currentPath := path
    aliases := entitiesOf (member payload "aliases") ((existing.map Doc.aliases).getD [])
    sourceCaptureIds :=
      entitiesOf (member payload "sourceCaptureIds") ((existing.map Doc.sourceCaptureIds).getD [])
    supersededBy := none
    createdAt := (existing.map Doc.createdAt).getD ts
    updatedAt := ts })

/-- The number of active documents is checked behind the write. -/
def docRegister : Step Unit := do
  let (key, d) ← registered n payload ts
  update fun view => view.withDoc key d
  check fun view => assertActiveDocCardinality n view d.topicId d.role

def docMarkRendered : Step Unit := do
  let (id, d) ← check fun view => resolveDoc n view payload "doc.mark-rendered"
  check fun view => assertTopicWritable n view d.topicId "doc.mark-rendered"
  check fun _ => require (d.docLifecycle = .reserved)
    ("doc.mark-rendered: doc '" ++ text n id ++ "' is '" ++ d.docLifecycle.name ++ "', must be 'reserved'")
  update fun view => view.editDoc (text n id) fun d => { d with docLifecycle := .provisional, updatedAt := ts }

/-- The document that is promoted, once the checks before the write have passed. -/
def promoted : Step (Json × Doc) := do
  let (id, d) ← check fun view => resolveDoc n view payload "doc.promote"
  check fun view => assertTopicWritable n view d.topicId "doc.promote"
  check fun _ => require (d.docLifecycle ≠ .reserved) ("doc.promote: cannot promote doc '" ++ text n id ++
    "' from 'reserved' state (must mark-rendered/provisional first)")
  check fun _ => require (d.docLifecycle = .provisional) ("doc.promote: doc '" ++ text n id ++ "' is in '" ++
    d.docLifecycle.name ++ "' state, must be 'provisional'")
  check fun view => checkNotActiveElsewhere n view id d.topicId d.role "doc.promote: "
  return (id, d)

/-- The number of active documents is checked behind the write. -/
def docPromote : Step Unit := do
  let (id, d) ← promoted n payload
  update fun view => view.editDoc (text n id) fun d => { d with docLifecycle := .active, updatedAt := ts }
  check fun view => assertActiveDocCardinality n view d.topicId d.role

def docDemote : Step Unit := do
  let (id, d) ← check fun view => resolveDoc n view payload "doc.demote"
  check fun view => assertTopicWritable n view d.topicId "doc.demote"
  check fun _ => require (d.docLifecycle = .active)
    ("doc.demote: doc '" ++ text n id ++ "' is '" ++ d.docLifecycle.name ++ "', must be 'active'")
  update fun view => view.editDoc (text n id) fun d => { d with docLifecycle := .provisional, updatedAt := ts }

def docSupersede : Step Unit := do
  let (id, _) ← check fun view => resolveDoc n view payload "doc.supersede"
  let supersededBy := member payload "supersededBy"
  check fun view =>
    if truthy supersededBy then checkSuccessorDoc n view id (orNull supersededBy) else .ok ()
  update fun view => view.editDoc (text n id) fun d => { d with
    supersededBy := if truthy supersededBy then supersededBy else d.supersededBy }
  update fun view => view.editDoc (text n id) fun d => { d with docLifecycle := .superseded, updatedAt := ts }

def docRetire : Step Unit := do
  let (id, _) ← check fun view => resolveDoc n view payload "doc.retire"
  update fun view => view.editDoc (text n id) fun d => { d with docLifecycle := .retired, updatedAt := ts }

def docAttest : Step Unit := do
  let (id, d) ← check fun view => resolveDoc n view payload "doc.attest"
  check fun _ => require d.docLifecycle.isLive ("doc.attest: doc '" ++ text n id ++ "' is " ++ d.docLifecycle.name)
  check fun view => assertTopicWritable n view d.topicId "doc.attest"
  let captureId ← check fun _ => match member payload "captureId" with
    | some (.str captureId) => do
      require (!captureId.toList.all isBlankChar) "doc.attest requires captureId"
      return captureId
    | _ => .error "doc.attest requires captureId"
  update fun view => view.editDoc (text n id) fun d => { d with
    sourceCaptureIds :=
      if includes d.sourceCaptureIds (.str captureId) then d.sourceCaptureIds
      else d.sourceCaptureIds ++ [.str captureId] }
  update fun view => view.editDoc (text n id) fun d => { d with updatedAt := ts }

def docPathMove : Step Unit := do
  let (id, _) ← check fun view => resolveDoc n view payload "doc.path-move"
  let newPath := member payload "newPath"
  check fun _ => require (truthy newPath) "doc.path-move requires newPath"
  let path ← check fun _ => assertSafeDocPath n newPath "doc.path-move: newPath"
  check fun view => assertCurrentPathUnique n view id path
  update fun view => view.editDoc (text n id) fun d => { d with
    aliases :=
      if d.currentPath ≠ "" && d.currentPath ≠ path && !includes d.aliases (.str d.currentPath) then
        d.aliases ++ [.str d.currentPath]
      else d.aliases }
  update fun view => view.editDoc (text n id) fun d => { d with currentPath := path, updatedAt := ts }

/-- The reducer of an event. -/
def apply (eventType : String) : Step Unit :=
  match eventType with
  | "topic.register" => topicRegister n payload ts
  | "topic.rename" => topicRename n payload ts
  | "topic.split" => topicSplit n payload ts
  | "topic.merge" => topicMerge n payload ts
  | "topic.retire" => topicRetire n payload ts
  | "doc.reserve" => docReserve n payload ts
  | "doc.register" => docRegister n payload ts
  | "doc.mark-rendered" => docMarkRendered n payload ts
  | "doc.promote" => docPromote n payload ts
  | "doc.demote" => docDemote n payload ts
  | "doc.supersede" => docSupersede n payload ts
  | "doc.retire" => docRetire n payload ts
  | "doc.path-move" => docPathMove n payload ts
  | "doc.attest" => docAttest n payload ts
  | _ => pure ()

/-! ### What they come to -/

variable {n payload ts} {view : Knowledge} {entries : List (String × α)}

/-- The answer of a step that answers nothing but the state. -/
def done (x : Except String Knowledge) : Except String (Unit × Knowledge) := x.map fun next => ((), next)

theorem done_bind (x : Except String α) (k : α → Except String Knowledge) :
    done (x >>= k) = x >>= fun a => done (k a) := by
  cases x <;> rfl

theorem topicRegister_outcome :
    outcome (topicRegister n payload ts) view = done (Knowledge.topicRegister n view payload ts) := by
  unfold topicRegister Knowledge.topicRegister
  simp only [outcome_check_bind, outcome_update, done_bind]
  congr 1; funext _
  congr 1; funext id
  congr 1; funext slug
  cases view.topics[id]? <;> rfl

theorem editTopic_eq {key : String} {edit : Topic → Topic} {topic : Topic} (h : view.topics[key]? = some topic) :
    view.editTopic key edit = view.setTopic key (edit topic) := by
  rw [editTopic, h]

theorem setTopic_setTopic (key : String) (a b : Topic) :
    (view.setTopic key a).setTopic key b = view.setTopic key b := by
  have htopics : (view.topics.insert key a).insert key b = view.topics.insert key b := by
    apply Std.ExtTreeMap.ext_getElem?
    intro k
    rw [Std.ExtTreeMap.getElem?_insert, Std.ExtTreeMap.getElem?_insert, Std.ExtTreeMap.getElem?_insert]
    split <;> rfl
  show { view with topics := (view.topics.insert key a).insert key b } = view.setTopic key b
  rw [htopics]
  rfl

theorem topics_setTopic (key : String) (topic : Topic) : (view.setTopic key topic).topics[key]? = some topic :=
  Std.ExtTreeMap.getElem?_insert_self

theorem editTopic_editTopic (key : String) (f g : Topic → Topic) :
    (view.editTopic key f).editTopic key g = view.editTopic key fun t => g (f t) := by
  cases htopic : view.topics[key]? with
  | none => rw [editTopic, editTopic, editTopic, htopic, htopic]
  | some topic => rw [editTopic_eq htopic, editTopic_eq htopic, editTopic_eq (topics_setTopic key _), setTopic_setTopic]

theorem lookup_map_set {key : String} {value d : α} (h : entries.lookup key = some d) :
    (entries.map fun e => if e.1 = key then (key, value) else e).lookup key = some value := by
  induction entries with
  | nil => cases h
  | cons e entries ih =>
    by_cases hk : e.1 = key
    · rw [map_cons, if_pos hk]
      exact lookup_cons_self
    · rw [show e = (e.1, e.2) from rfl, lookup_cons,
        show (key == e.1) = false from beq_eq_false_iff_ne.mpr (Ne.symm hk)] at h
      rw [map_cons, if_neg hk, show e = (e.1, e.2) from rfl, lookup_cons,
        show (key == e.1) = false from beq_eq_false_iff_ne.mpr (Ne.symm hk)]
      exact ih h

theorem setProperty_of_lookup {key : String} {value d : α} (h : entries.lookup key = some d) :
    setProperty entries key value = entries.map fun e => if e.1 = key then (key, value) else e :=
  if_pos (List.any_eq_true.mpr ⟨(key, d), mem_of_lookup h, decide_eq_true rfl⟩)

theorem editDoc_eq {key : String} {edit : Doc → Doc} {d : Doc} (h : view.doc? key = some d) :
    view.editDoc key edit = view.withDoc key (edit d) := by
  rw [editDoc, h]

theorem editDoc_editDoc (key : String) (f g : Doc → Doc) :
    (view.editDoc key f).editDoc key g = view.editDoc key fun d => g (f d) := by
  cases hd : view.doc? key with
  | none => rw [editDoc, editDoc, editDoc, hd, hd]
  | some d =>
    have hset : ∀ v, setProperty view.docs key v = view.docs.map fun e => if e.1 = key then (key, v) else e :=
      fun v => setProperty_of_lookup hd
    have hfd : (view.withDoc key (f d)).doc? key = some (f d) := by
      show (setProperty view.docs key (f d)).lookup key = some (f d)
      rw [hset]
      exact lookup_map_set hd
    rw [editDoc_eq hd, editDoc_eq hd, editDoc_eq hfd]
    have hdocs : setProperty (setProperty view.docs key (f d)) key (g (f d)) =
        setProperty view.docs key (g (f d)) := by
      rw [setProperty_of_lookup (show (setProperty view.docs key (f d)).lookup key = some (f d) from hfd), hset,
        hset, List.map_map]
      apply map_congr_left
      intro e _
      by_cases hk : e.1 = key
      · simp [hk]
      · simp [hk]
    show { view with docs := setProperty (setProperty view.docs key (f d)) key (g (f d)) } = _
    rw [hdocs]
    rfl

theorem ok_bind {β : Type} (a : α) (f : α → Except String β) : (Except.ok a >>= f) = f a := rfl

theorem found_some (a : α) (message : String) : found (some a) message = .ok a := rfl

theorem topicRename_outcome :
    outcome (topicRename n payload ts) view = done (Knowledge.topicRename n view payload ts) := by
  unfold topicRename Knowledge.topicRename
  simp only [outcome_check_bind, outcome_update_bind, outcome_update, done_bind, editTopic_editTopic]
  cases htopic : view.topics[key n (member payload "topicId")]? with
  | none => rfl
  | some topic =>
    simp only [editTopic_eq htopic, found_some, ok_bind]
    split
    · cases assertSafeSlug n (member payload "newPurposeSlug") "topic.rename: newPurposeSlug" <;> rfl
    · rfl

theorem topicRetire_outcome :
    outcome (topicRetire n payload ts) view = done (Knowledge.topicRetire n view payload ts) := by
  unfold topicRetire Knowledge.topicRetire
  simp only [outcome_check_bind, outcome_update, done_bind]
  cases htopic : view.topics[key n (member payload "topicId")]? with
  | none => rfl
  | some topic =>
    show Except.ok ((), view.editTopic _ _) = Except.ok ((), view.setTopic _ _)
    rw [editTopic_eq htopic]

theorem docRetire_outcome : outcome (docRetire n payload ts) view = done (Knowledge.docRetire n view payload ts) := by
  unfold docRetire Knowledge.docRetire
  simp only [outcome_check_bind, outcome_update, done_bind]
  cases hold : resolveDoc n view payload "doc.retire" with
  | error message => rfl
  | ok p =>
    show Except.ok ((), view.editDoc (text n p.1) _) = Except.ok ((), view.putDoc n ts p.1 _)
    rw [editDoc_eq (resolveDoc_eq_ok hold).2.found]
    rfl

theorem topicSplit_outcome :
    outcome (topicSplit n payload ts) view = done (Knowledge.topicSplit n view payload ts) := by
  unfold topicSplit Knowledge.topicSplit
  simp only [outcome_check_bind, outcome_update_bind, outcome_forM_update, done_bind]
  cases htopic : view.topics[key n (member payload "topicId")]? with
  | none => rfl
  | some topic =>
    simp only [editTopic_eq htopic, found_some, ok_bind]
    congr 1; funext _
    split
    · rename_i hnew
      simp only [hnew, ok_bind, done_bind]
      rfl
    · rename_i hfew
      first
        | rfl
        | split
          · rename_i hnew
            exact absurd hnew (hfew _ _ _)
          · rfl

theorem topicMerge_outcome :
    outcome (topicMerge n payload ts) view = done (Knowledge.topicMerge n view payload ts) := by
  unfold topicMerge Knowledge.topicMerge
  simp only [outcome_check_bind, outcome_update_bind, outcome_forM_update]
  split
  · rename_i hsources htruthy
    simp only [hsources, htruthy, done_bind, ok_bind]
    cases htopic : view.topics[key n (member payload "targetTopicId")]? with
    | none => rfl
    | some topic =>
      simp only [editTopic_eq htopic, found_some, ok_bind]
      rfl
  · rename_i hnone
    first
      | rfl
      | split
        · rename_i hsources htruthy
          exact absurd htruthy (hnone _ hsources)
        · rfl

theorem docReserve_outcome :
    outcome (docReserve n payload ts) view = done (Knowledge.docReserve n view payload ts) := by
  unfold docReserve Knowledge.docReserve
  simp only [outcome_check_bind, outcome_update, done_bind]
  congr 1; funext p
  congr 1; funext q
  cases view.doc? (text n (docIdOf n payload p.1 p.2.1)) with
  | none =>
    simp only [ok_bind, done_bind]
    rfl
  | some d => rfl

theorem docMarkRendered_outcome :
    outcome (docMarkRendered n payload ts) view = done (Knowledge.docMarkRendered n view payload ts) := by
  unfold docMarkRendered Knowledge.docMarkRendered
  simp only [outcome_check_bind, outcome_update, done_bind]
  cases hold : resolveDoc n view payload "doc.mark-rendered" with
  | error message => rfl
  | ok p =>
    simp only [ok_bind, editDoc_eq (resolveDoc_eq_ok hold).2.found]
    rfl

theorem docDemote_outcome : outcome (docDemote n payload ts) view = done (Knowledge.docDemote n view payload ts) := by
  unfold docDemote Knowledge.docDemote
  simp only [outcome_check_bind, outcome_update, done_bind]
  cases hold : resolveDoc n view payload "doc.demote" with
  | error message => rfl
  | ok p =>
    simp only [ok_bind, editDoc_eq (resolveDoc_eq_ok hold).2.found]
    rfl

theorem docSupersede_outcome :
    outcome (docSupersede n payload ts) view = done (Knowledge.docSupersede n view payload ts) := by
  unfold docSupersede Knowledge.docSupersede
  simp only [outcome_check_bind, outcome_update_bind, outcome_update, done_bind, editDoc_editDoc]
  cases hold : resolveDoc n view payload "doc.supersede" with
  | error message => rfl
  | ok p =>
    simp only [ok_bind, editDoc_eq (resolveDoc_eq_ok hold).2.found]
    split
    · rw [done_bind]
      rfl
    · rfl

theorem docAttest_outcome : outcome (docAttest n payload ts) view = done (Knowledge.docAttest n view payload ts) := by
  unfold docAttest Knowledge.docAttest
  simp only [outcome_check_bind, outcome_update_bind, outcome_update, done_bind, editDoc_editDoc]
  cases hold : resolveDoc n view payload "doc.attest" with
  | error message => rfl
  | ok p =>
    simp only [ok_bind, editDoc_eq (resolveDoc_eq_ok hold).2.found]
    congr 1; funext _
    congr 1; funext _
    split
    · rename_i captureId hcapture
      simp only [hcapture, done_bind]
      cases require (!captureId.toList.all isBlankChar) "doc.attest requires captureId" <;> rfl
    · rename_i hnone
      first
        | rfl
        | split
          · rename_i hcapture
            exact absurd hcapture (hnone _)
          · rfl

theorem docPathMove_outcome :
    outcome (docPathMove n payload ts) view = done (Knowledge.docPathMove n view payload ts) := by
  unfold docPathMove Knowledge.docPathMove
  simp only [outcome_check_bind, outcome_update_bind, outcome_update, done_bind, editDoc_editDoc]
  cases hold : resolveDoc n view payload "doc.path-move" with
  | error message => rfl
  | ok p =>
    simp only [ok_bind, editDoc_eq (resolveDoc_eq_ok hold).2.found]
    rfl

theorem map_check (x : Except String Unit) (next : Knowledge) :
    x.map (fun a => (a, next)) = x >>= fun _ => done (.ok next) := by
  cases x <;> rfl

theorem docRegister_outcome :
    outcome (docRegister n payload ts) view = done (Knowledge.docRegister n view payload ts) := by
  unfold docRegister registered Knowledge.docRegister
  rw [outcome_bind]
  simp only [outcome_check_bind, outcome_update_bind, done_bind, bind_assoc, outcome_pure, ok_bind, outcome_check,
    map_check]
  congr 1; funext p
  congr 1; funext _
  congr 1; funext lifecycle
  congr 1; funext q
  split
  · simp only [done_bind]
    rfl
  · simp only [done_bind]
    rfl

theorem docPromote_outcome :
    outcome (docPromote n payload ts) view = done (Knowledge.docPromote n view payload ts) := by
  unfold docPromote promoted Knowledge.docPromote
  rw [outcome_bind]
  simp only [outcome_check_bind, outcome_update_bind, done_bind, bind_assoc, outcome_pure, ok_bind, outcome_check,
    map_check]
  cases hold : resolveDoc n view payload "doc.promote" with
  | error message => rfl
  | ok p =>
    simp only [ok_bind, editDoc_eq (resolveDoc_eq_ok hold).2.found]
    rfl

/-- **The reducers come to the functions of the same names.** -/
theorem apply_outcome (eventType : String) :
    outcome (apply n payload ts eventType) view = done (view.apply n payload ts eventType) := by
  unfold apply Knowledge.apply
  split
  · exact topicRegister_outcome
  · exact topicRename_outcome
  · exact topicSplit_outcome
  · exact topicMerge_outcome
  · exact topicRetire_outcome
  · exact docReserve_outcome
  · exact docRegister_outcome
  · exact docMarkRendered_outcome
  · exact docPromote_outcome
  · exact docDemote_outcome
  · exact docSupersede_outcome
  · exact docRetire_outcome
  · exact docPathMove_outcome
  · exact docAttest_outcome
  · -- no other type has a reducer
    first
      | rfl
      | split <;> first | rfl | simp_all

end Reducer

end Knowledge

end Forgent
