import Forgent.Config.Snapshot

/-!
# Writing a configuration file

`packages/config/rust/src/write.rs` and the edits of `packages/yaml-doc/rust/src/edit.rs`: a request holds edits of one of
the three files.  The new text is read again and has to mean the edited value, and the snapshot over it has to build.  The
bytes of an edit, and whether the layout or the notes of a file admit it, are fields of the editor.
-/

namespace Forgent.Config

open List Option

/-! ### Edits of a value -/

/-- `nested_map`: a value below new mappings. -/
def nestedMap : Path → Json → Option Json
  | [], leaf => some leaf
  | .key key :: rest, leaf => (nestedMap rest leaf).map fun value => .obj [(key, value)]
  | .index _ :: _, _ => none

/-- The entries of a mapping; a null is an empty one. -/
def entriesOf : Json → Option (List (String × Json))
  | .null => some []
  | .obj fields => some fields
  | _ => none

def itemsOf : Json → Option (List Json)
  | .arr items => some items
  | _ => none

def applySet : Json → Path → Json → Option Json
  | _, [], new => some new
  | node, .key key :: rest, new => do
    let fields ← entriesOf node
    match fields.lookup key with
    | some kid => (applySet kid rest new).map fun kid => .obj (setField key kid fields)
    | none => (nestedMap rest new).map fun leaf => .obj (fields ++ [(key, leaf)])
  | node, .index i :: rest, new => do
    let items ← itemsOf node
    let item ← items[i]?
    (applySet item rest new).map fun item => .arr (items.set i item)

/-- A node with another child in a place that it has. -/
def replaceChild : Json → Segment → Json → Option Json
  | .obj fields, .key key, kid => some (.obj (setField key kid fields))
  | .arr items, .index i, kid => some (.arr (items.set i kid))
  | _, _, _ => none

def applyRemove : Json → Path → Option Json
  | .obj fields, [.key key] => (fields.lookup key).map fun _ => .obj (fields.filter fun field => field.1 ≠ key)
  | .arr items, [.index i] => if i < items.length then some (.arr (items.eraseIdx i)) else none
  | node, segment :: next :: rest => do
    let kid ← childOf node segment
    let kid ← applyRemove kid (next :: rest)
    replaceChild node segment kid
  | _, _ => none

mutual

/-- Equality of values, whatever the order of the entries. -/
def same : Json → Json → Bool
  | .obj fields, .obj others => fields.length = others.length && sameFields fields others
  | .arr items, .arr others => sameItems items others
  | value, other => value = other

def sameFields : List (String × Json) → List (String × Json) → Bool
  | [], _ => true
  | (key, value) :: fields, others => (others.lookup key).any (same value ·) && sameFields fields others

def sameItems : List Json → List Json → Bool
  | [], [] => true
  | value :: items, other :: others => same value other && sameItems items others
  | _, _ => false

end

/-! ### The files and a request -/

/-- A file: its text, and the value it means. -/
structure File where
  text : String
  json : Json
deriving DecidableEq

/-- The files a snapshot is built over; `trusted` is what the main checkout holds when this one is linked to it. -/
structure Files where
  project : Option File
  global : Option File
  accounts : Option File
  trusted : Option Json
  token : Bool
deriving DecidableEq

def Files.get (files : Files) : SourceKind → Option File
  | .project => files.project
  | .global => files.global
  | .accounts => files.accounts

def Files.put (files : Files) (file : File) : SourceKind → Files
  | .project => { files with project := some file }
  | .global => { files with global := some file }
  | .accounts => { files with accounts := some file }

def Files.sources (files : Files) : Sources where
  project := files.project.map File.json
  trusted := files.trusted
  global := files.global.map File.json
  accounts := files.accounts.map File.json
  token := files.token

inductive Edit where
  | set (path : Path) (value : Json)
  | unset (path : Path)

def Edit.path : Edit → Path
  | .set path _ => path
  | .unset path => path

/-- A request; `reason` says whether its reason can be parsed, and `expected` is the revision it was made against. -/
structure Request where
  target : SourceKind
  edits : List Edit
  reason : Bool
  expected : Option String
  acknowledge : Bool
  confined : Bool

structure Editor where
  header : String
  revision : String → String
  /-- The text in which a path has a new value, or is gone; none when the document refuses the edit. -/
  write : File → Bool → Path → Option Json → Option String

def refusal (code : String) (path : Path) : Refusal := ⟨code, path, none, none⟩

def conflict (reason : String) : Refusal := ⟨"config-write-conflict", [], none, some reason⟩

section

variable (ctx : Context) (ed : Editor)

def standardIs (path : Path) (value : Json) : Bool := (jsonAt ctx.standard path).any (same · value)

/-- An edit that sets what the key inherits already. -/
def redundant (held : Json) : Edit → Bool
  | .set path value => standardIs ctx path value && (jsonAt held path).isNone
  | .unset _ => false

def allRedundant (seen : Option File) (edits : List Edit) : Bool :=
  !edits.isEmpty && edits.all (redundant ctx ((seen.map File.json).getD .null))

/-- What the edits set, beside nothing. -/
def proposed (edits : List Edit) : Json :=
  edits.foldl (fun json edit => match edit with
    | .set path value => jsonPut json path (some value)
    | .unset _ => json) .null

/-- What is refused without a lock; otherwise whether there is a reason to write into the file. -/
def admitted (seen : Option File) (req : Request) : Except (List Refusal) Bool :=
  if req.confined then .error [refusal "config-write-confined" []]
  else if !allRedundant ctx seen req.edits && !req.reason then .error [refusal "config-comment-reason-required" []]
  else if req.edits.any (·.path = []) then .error [refusal "config-key-out-of-scope" []]
  else match judge ctx.schemas req.target (proposed req.edits) with
    | [] => .ok req.reason
    | refused => .error refused

/-- What an edit puts at its path; no answer when there is nothing to write.  A value equal to the standard is no value. -/
def written (held : Bool) : Edit → Option (Option Json)
  | .set path value => if standardIs ctx path value then if held then some none else none else some (some value)
  | .unset _ => some none

/-- One edit of a file, with what was applied so far. -/
def editFile (acknowledge reason : Bool) (base : File × List (Path × Bool)) (edit : Edit) :
    Except (List Refusal) (File × List (Path × Bool)) :=
  match written ctx (jsonAt base.1.json edit.path).isSome edit with
  | none => .ok base
  | some new =>
    if !reason then .error [refusal "config-comment-reason-required" []]
    else
      let json := new.elim (applyRemove base.1.json edit.path) (applySet base.1.json edit.path)
      match json, ed.write base.1 acknowledge edit.path new with
      | some json, some text => .ok (⟨text, json⟩, base.2 ++ [(edit.path, new.isNone)])
      | _, _ => .error [refusal "yaml-edit" edit.path]

/-- `produce`: every edit on one document. -/
def produce (req : Request) (reason : Bool) (base : Option File) : Except (List Refusal) (File × List (Path × Bool)) :=
  req.edits.foldlM (editFile ctx ed req.acknowledge reason) (base.getD ⟨ed.header, .null⟩, [])

/-- `current`: the file now, unless it is not the one the edits were made against. -/
def current (req : Request) (now : Option File) : Except (List Refusal) (Option File) :=
  if now.map (fun file => ed.revision file.text) = req.expected then .ok now else .error [conflict "revision-changed"]

/-- `commit`, with nothing in between: the files afterwards, and what was applied. -/
def commit (files : Files) (req : Request) : Except (List Refusal) (Files × List (Path × Bool)) := do
  let reason ← admitted ctx (files.get req.target) req
  let base ← current ed req (files.get req.target)
  let (file, applied) ← produce ctx ed req reason base
  if applied = [] then return (files, [])
  let _ ← build ctx (files.put file req.target).sources
  return (files.put file req.target, applied)

end

/-! ### What a commit does -/

section Commit

variable {ctx : Context} {ed : Editor} {req : Request}

theorem admitted_ok {seen : Option File} {reason : Bool} (h : admitted ctx seen req = .ok reason) :
    (∀ edit ∈ req.edits, edit.path ≠ []) ∧ judge ctx.schemas req.target (proposed req.edits) = [] := by
  unfold admitted at h
  split at h
  · cases h
  · split at h
    · cases h
    · split at h
      · cases h
      · next hpaths =>
        split at h
        · next hjudge =>
          refine ⟨fun edit hedit hnil => hpaths ?_, hjudge⟩
          exact List.any_eq_true.mpr ⟨edit, hedit, decide_eq_true hnil⟩
        · cases h

theorem current_ok {now base : Option File} (h : current ed req now = .ok base) :
    base = now ∧ now.map (fun file => ed.revision file.text) = req.expected := by
  unfold current at h
  split at h
  · next heq => exact ⟨(Except.ok.inj h).symm, heq⟩
  · cases h

theorem commit_ok {files files' : Files} {applied : List (Path × Bool)} (h : commit ctx ed files req = .ok (files', applied)) :
    ∃ reason file, admitted ctx (files.get req.target) req = .ok reason ∧
      produce ctx ed req reason (files.get req.target) = .ok (file, applied) ∧ (applied = [] ∧ files' = files ∨
        applied ≠ [] ∧ files' = files.put file req.target ∧ ∃ merged, build ctx files'.sources = .ok merged) := by
  obtain ⟨reason, hadmitted, h⟩ := bind_eq_ok.mp h
  obtain ⟨base, hcurrent, h⟩ := bind_eq_ok.mp h
  obtain ⟨rfl, -⟩ := current_ok hcurrent
  obtain ⟨⟨file, applied'⟩, hproduce, h⟩ := bind_eq_ok.mp h
  dsimp only at h
  split at h
  · next hnone =>
    cases h
    exact ⟨reason, file, hadmitted, by rw [hproduce, hnone], .inl ⟨rfl, rfl⟩⟩
  · next hsome =>
    obtain ⟨merged, hbuild, h⟩ := bind_eq_ok.mp h
    cases h
    exact ⟨reason, file, hadmitted, hproduce, .inr ⟨hsome, rfl, merged, hbuild⟩⟩

theorem Files.get_put (files : Files) (file : File) (kind : SourceKind) : (files.put file kind).get kind = some file := by
  cases kind <;> rfl

theorem produce_single {reason : Bool} {base : Option File} {file : File} {applied : List (Path × Bool)} {edit : Edit}
    (hedits : req.edits = [edit]) (h : produce ctx ed req reason base = .ok (file, applied)) :
    editFile ctx ed req.acknowledge reason (base.getD ⟨ed.header, .null⟩, []) edit = .ok (file, applied) := by
  rw [produce, hedits, foldlM_cons] at h
  obtain ⟨produced, hedit, h⟩ := bind_eq_ok.mp h
  cases h
  exact hedit

theorem editFile_ok {acknowledge reason : Bool} {base result : File × List (Path × Bool)} {edit : Edit}
    (h : editFile ctx ed acknowledge reason base edit = .ok result) :
    (written ctx (jsonAt base.1.json edit.path).isSome edit = none ∧ result = base) ∨
      ∃ new, written ctx (jsonAt base.1.json edit.path).isSome edit = some new ∧
        new.elim (applyRemove base.1.json edit.path) (applySet base.1.json edit.path) = some result.1.json ∧
        result.2 = base.2 ++ [(edit.path, new.isNone)] := by
  unfold editFile at h
  split at h
  · next hnone => exact .inl ⟨hnone, (Except.ok.inj h).symm⟩
  · next new hnew =>
    split at h
    · cases h
    · dsimp only at h
      split at h
      · next json text hjson htext =>
        cases h
        exact .inr ⟨new, hnew, hjson, rfl⟩
      · cases h

end Commit

/-! ### What an edit does to a value -/

theorem jsonAt_nestedMap {path : Path} {leaf value : Json} (h : nestedMap path leaf = some value) :
    jsonAt value path = some leaf := by
  induction path generalizing value with
  | nil =>
    obtain rfl : leaf = value := some.inj h
    rfl
  | cons segment path ih =>
    cases segment with
    | index i => cases h
    | key key =>
      obtain ⟨kid, hkid, rfl⟩ := map_eq_some_iff.mp h
      show (([(key, kid)] : List (String × Json)).lookup key).bind _ = _
      rw [lookup_cons_self]
      exact ih hkid

theorem jsonAt_applySet {node new value : Json} {path : Path} (h : applySet node path new = some value) :
    jsonAt value path = some new := by
  induction path generalizing node value with
  | nil =>
    obtain rfl : new = value := some.inj h
    rfl
  | cons segment path ih =>
    cases segment with
    | key key =>
      obtain ⟨fields, -, h⟩ := bind_eq_some_iff.mp h
      split at h
      · obtain ⟨kid, hkid, rfl⟩ := map_eq_some_iff.mp h
        show ((setField key kid fields).lookup key).bind _ = _
        rw [lookup_setField, if_pos rfl]
        exact ih hkid
      · next hnone =>
        obtain ⟨leaf, hleaf, rfl⟩ := map_eq_some_iff.mp h
        show ((fields ++ [(key, leaf)]).lookup key).bind _ = _
        rw [lookup_append, hnone, none_or, lookup_cons_self]
        exact jsonAt_nestedMap hleaf
    | index i =>
      obtain ⟨items, -, h⟩ := bind_eq_some_iff.mp h
      obtain ⟨item, hitem, h⟩ := bind_eq_some_iff.mp h
      obtain ⟨kid, hkid, rfl⟩ := map_eq_some_iff.mp h
      have hlt := (List.getElem?_eq_some_iff.mp hitem).1
      show ((items.set i kid)[i]?).bind _ = _
      rw [getElem?_set_self hlt]
      exact ih hkid

theorem childOf_replaceChild {node old kid value : Json} {segment : Segment} (hat : childOf node segment = some old)
    (h : replaceChild node segment kid = some value) : childOf value segment = some kid := by
  cases node with
  | obj fields =>
    cases segment with
    | key key =>
      cases h
      exact (lookup_setField fields key key kid).trans (if_pos rfl)
    | index i => cases h
  | arr items =>
    cases segment with
    | key key => cases h
    | index i =>
      cases h
      exact getElem?_set_self (List.getElem?_eq_some_iff.mp hat).1
  | _ => cases h

theorem jsonAt_applyRemove {node value : Json} {path : Path} {key : String} (h : applyRemove node (path ++ [.key key]) = some value) :
    jsonAt value (path ++ [.key key]) = none := by
  induction path generalizing node value with
  | nil =>
    cases node with
    | obj fields =>
      obtain ⟨_, -, rfl⟩ := map_eq_some_iff.mp h
      rw [nil_append, jsonAt_singleton]
      show (fields.filter _).lookup key = none
      rw [lookup_eq_none_iff]
      intro field hfield
      have hne : field.1 ≠ key := of_decide_eq_true (mem_filter.mp hfield).2
      exact bne_iff_ne.mpr (Ne.symm hne)
    | _ => cases h
  | cons segment path ih =>
    obtain ⟨next, rest, hrest⟩ : ∃ next rest, path ++ [Segment.key key] = next :: rest := by
      cases path with
      | nil | cons next path => exact ⟨_, _, rfl⟩
    rw [cons_append, hrest] at h ⊢
    rw [hrest] at ih
    rw [applyRemove] at h
    obtain ⟨kid, hkid, h⟩ := bind_eq_some_iff.mp h
    obtain ⟨kid', hkid', h⟩ := bind_eq_some_iff.mp h
    show (childOf value segment).bind _ = _
    rw [childOf_replaceChild hkid h]
    exact ih hkid'

end Forgent.Config
