import Forgent.Json

/-!
# Paths into a configuration value

A configuration value is a JSON tree, and a path names a node of it by keys and indexes.  `descend` lists the nodes below
a value in the order in which the source visits them; it looks below a node only where the visitor asks for it.
-/

namespace Forgent.Config

open List Option

inductive Segment where
  | key (name : String)
  | index (i : ℕ)
deriving DecidableEq

abbrev Path := List Segment

def KeyPath (p : Path) : Prop := ∀ segment ∈ p, ∃ name, segment = .key name

/-- The child of a node: keys through objects, indexes through arrays. -/
def childOf : Json → Segment → Option Json
  | .obj fields, .key name => fields.lookup name
  | .arr items, .index i => items[i]?
  | _, _ => none

def jsonAt (value : Json) : Path → Option Json
  | [] => some value
  | segment :: rest => (childOf value segment).bind (jsonAt · rest)

def isObject : Json → Bool
  | .obj _ => true
  | _ => false

/-- `insert` on the entries of an object. -/
def setField (key : String) (value : Json) : List (String × Json) → List (String × Json)
  | [] => [(key, value)]
  | (k, v) :: fields => if k = key then (key, value) :: fields else (k, v) :: setField key value fields

def fieldsOf : Json → List (String × Json)
  | .obj fields => fields
  | _ => []

/-- `json_put`: sets (or, with `none`, removes) the value at a key path, creating the mappings above it. -/
def jsonPut (node : Json) : Path → Option Json → Json
  | [], _ => node
  | .index _ :: _, _ => node
  | .key key :: rest, new =>
    if new.isNone ∧ !isObject node then node
    else
      let fields := fieldsOf node
      match rest, new with
      | [], some value => .obj (setField key value fields)
      | [], none => .obj (fields.filter fun field => field.1 ≠ key)
      | _ :: _, some value =>
        .obj (setField key (jsonPut ((fields.lookup key).getD .null) rest (some value)) fields)
      | _ :: _, none =>
        match fields.lookup key with
        | some child => .obj (setField key (jsonPut child rest none) fields)
        | none => node

mutual

/-- Every node visited below a value, with its path; `visit` says whether to look deeper. -/
def descend (visit : Path → Json → Bool) (path : Path) : Json → List (Path × Json)
  | .obj fields => descendFields visit path fields
  | .arr items => descendItems visit path 0 items
  | _ => []

def descendFields (visit : Path → Json → Bool) (path : Path) : List (String × Json) → List (Path × Json)
  | [] => []
  | (key, kid) :: fields =>
    ((path ++ [.key key], kid) ::
      if visit (path ++ [.key key]) kid then descend visit (path ++ [.key key]) kid else []) ++
        descendFields visit path fields

def descendItems (visit : Path → Json → Bool) (path : Path) (i : ℕ) : List Json → List (Path × Json)
  | [] => []
  | kid :: items =>
    ((path ++ [.index i], kid) ::
      if visit (path ++ [.index i]) kid then descend visit (path ++ [.index i]) kid else []) ++
        descendItems visit path (i + 1) items

end

theorem jsonAt_append (value : Json) (p q : Path) : jsonAt value (p ++ q) = (jsonAt value p).bind (jsonAt · q) := by
  induction p generalizing value with
  | nil => rfl
  | cons segment p ih =>
    rw [cons_append, jsonAt, jsonAt, bind_assoc]
    congr 1
    funext kid
    exact ih kid

theorem jsonAt_singleton (value : Json) (segment : Segment) : jsonAt value [segment] = childOf value segment := by
  rw [jsonAt]
  cases childOf value segment <;> rfl

theorem lookup_setField (fields : List (String × Json)) (key name : String) (value : Json) :
    (setField key value fields).lookup name = if name = key then some value else fields.lookup name := by
  induction fields with
  | nil => by_cases h : name = key <;> simp [setField, h]
  | cons field fields ih =>
    obtain ⟨k, v⟩ := field
    rw [setField]
    by_cases hk : k = key
    · rw [if_pos hk, hk, lookup_cons, lookup_cons]
      by_cases hname : name = key
      · simp [hname]
      · rw [if_neg hname, beq_false_of_ne hname]
    · rw [if_neg hk, lookup_cons, lookup_cons, ih]
      by_cases hname : name = k
      · have hne : name ≠ key := fun heq => hk (hname ▸ heq)
        simp [hname, hk]
      · rw [beq_false_of_ne hname]

theorem childOf_key (value : Json) (name : String) : childOf value (.key name) = (fieldsOf value).lookup name := by
  cases value <;> rfl

theorem isObject_jsonPut (node value : Json) (key : String) (rest : Path) :
    isObject (jsonPut node (.key key :: rest) (some value)) = true := by
  rw [jsonPut, if_neg (by simp)]
  cases rest <;> rfl

/-- A value put at a key path is found below its first key, and nothing else of the node is changed. -/
theorem childOf_jsonPut (node value : Json) (key name : String) (rest : Path) :
    childOf (jsonPut node (.key key :: rest) (some value)) (.key name) = if name = key then
        some (if rest = [] then value else jsonPut ((childOf node (.key key)).getD .null) rest (some value))
      else childOf node (.key name) := by
  rw [jsonPut, if_neg (by simp), childOf_key node, childOf_key node]
  cases rest with
  | nil | cons segment rest => exact lookup_setField _ _ _ _

section Descend

variable {visit : Path → Json → Bool} {path : Path}

theorem mem_descendFields {fields : List (String × Json)} {name : String} {kid : Json} (h : (name, kid) ∈ fields) :
    (path ++ [.key name], kid) ∈ descendFields visit path fields ∧ (visit (path ++ [.key name]) kid = true →
        descend visit (path ++ [.key name]) kid ⊆ descendFields visit path fields) := by
  induction fields with
  | nil => cases h
  | cons field fields ih =>
    obtain ⟨key, value⟩ := field
    rw [descendFields]
    cases mem_cons.mp h with
    | inl heq =>
      cases heq
      refine ⟨mem_append_left _ mem_cons_self, fun hvisit => ?_⟩
      rw [if_pos hvisit]
      exact List.Subset.trans (subset_cons_self _ _) (subset_append_left _ _)
    | inr hmem =>
      obtain ⟨hself, hbelow⟩ := ih hmem
      exact ⟨mem_append_right _ hself, fun hvisit => List.Subset.trans (hbelow hvisit) (subset_append_right _ _)⟩

theorem mem_descendItems {items : List Json} {i j : ℕ} {kid : Json} (h : items[j]? = some kid) :
    (path ++ [.index (i + j)], kid) ∈ descendItems visit path i items ∧ (visit (path ++ [.index (i + j)]) kid = true →
        descend visit (path ++ [.index (i + j)]) kid ⊆ descendItems visit path i items) := by
  induction items generalizing i j with
  | nil => cases h
  | cons value items ih =>
    rw [descendItems]
    cases j with
    | zero =>
      obtain rfl : value = kid := some.inj h
      refine ⟨mem_append_left _ mem_cons_self, fun hvisit => ?_⟩
      rw [Nat.add_zero] at hvisit ⊢
      rw [if_pos hvisit]
      exact List.Subset.trans (subset_cons_self _ _) (subset_append_left _ _)
    | succ j =>
      have hih := ih (i := i + 1) (j := j) h
      rw [Nat.succ_add_eq_add_succ] at hih
      obtain ⟨hself, hbelow⟩ := hih
      exact ⟨mem_append_right _ hself, fun hvisit => List.Subset.trans (hbelow hvisit) (subset_append_right _ _)⟩

theorem mem_descend_child {value kid : Json} {segment : Segment} (h : childOf value segment = some kid) :
    (path ++ [segment], kid) ∈ descend visit path value ∧ (visit (path ++ [segment]) kid = true →
        descend visit (path ++ [segment]) kid ⊆ descend visit path value) := by
  cases value with
  | obj fields =>
    cases segment with
    | key name =>
      obtain ⟨before, after, hfields, -⟩ := lookup_eq_some_iff.mp h
      exact mem_descendFields (by rw [hfields]; simp)
    | index i => cases h
  | arr items =>
    cases segment with
    | key name => cases h
    | index i =>
      have hitem := @mem_descendItems visit path items 0 i kid h
      rwa [Nat.zero_add] at hitem
  | null | bool b | num n | str s => cases segment <;> cases h

theorem mem_descend {value node : Json} {rest : Path} (hat : jsonAt value rest = some node) (hne : rest ≠ [])
    (habove : ∀ front back kid, rest = front ++ back → front ≠ [] → back ≠ [] → jsonAt value front = some kid →
      visit (path ++ front) kid = true) : (path ++ rest, node) ∈ descend visit path value := by
  induction rest generalizing value path with
  | nil => exact absurd rfl hne
  | cons segment rest ih =>
    obtain ⟨kid, hkid, hrest⟩ := bind_eq_some_iff.mp hat
    obtain ⟨hself, hbelow⟩ := @mem_descend_child visit path value kid segment hkid
    cases rest with
    | nil =>
      obtain rfl : kid = node := some.inj hrest
      exact hself
    | cons next rest =>
      have hvisit : visit (path ++ [segment]) kid = true :=
        habove [segment] (next :: rest) kid rfl (by simp) (by simp) (by rw [jsonAt_singleton, hkid])
      apply hbelow hvisit
      have hih := @ih (path ++ [segment]) kid hrest (by simp) (by
        intro front back below hsplit hfront hback hbelow'
        rw [append_assoc]
        apply habove (segment :: front) back below (by rw [hsplit]; rfl) (by simp) hback
        show (childOf value segment).bind _ = _
        rw [hkid]
        exact hbelow')
      rwa [append_assoc] at hih

end Descend

end Forgent.Config
