import Forgent.Config.Tree

/-!
# Section schemas

`packages/config/rust/src/schema.rs`: JSON Schema documents, one for each section, with the annotations of the
configuration.  `locate` finds the schema node of a path and the annotations in force there: each node may state one,
and what it does not state it takes from the nearest node above, through every `$ref`.
-/

namespace Forgent.Config

/-- A row of `annotations.v1.json`. -/
structure Annotation where
  name : String
  values : List String
  default : Option String

def annotations : List Annotation := [
  ⟨"x-fgos-scope", ["both", "project-only", "global-only"], some "both"⟩,
  ⟨"x-fgos-sensitivity", ["public", "command", "secret-reference", "secret-value"], some "public"⟩,
  ⟨"x-fgos-file", ["config", "accounts", "token"], some "config"⟩,
  ⟨"x-fgos-merge", ["deep", "replace", "tighten", "leaf"], none⟩,
  ⟨"x-fgos-absent", ["detected", "required", "off"], none⟩]

/-- What a node states for an annotation: its value when it is one of the allowed ones. -/
def stated (row : Annotation) (node : Json) : Option String :=
  (node.get row.name).asStr.filter fun value => row.values.contains value

structure Section where
  name : String
  root : Json

abbrev Schemas := List Section

/-- A schema node and the section it sits in. -/
structure At where
  sec : ℕ
  node : Json

/-- The annotations stated so far on the way down, in the order of `annotations`. -/
abbrev Inherited := List (Option String)

def Inherited.empty : Inherited := annotations.map fun _ => none

def Inherited.apply (inherited : Inherited) (node : Json) : Inherited :=
  List.zipWith (fun slot row => (stated row node).or slot) inherited annotations

/-- The effective value of an annotation: stated above, else the default of the contract. -/
def Inherited.value (inherited : Inherited) (name : String) : Option String :=
  ((inherited.zip annotations).find? fun (_, row) => row.name = name).bind fun (slot, row) => slot.or row.default

structure Resolved where
  scope : String
  sensitivity : String
  file : String
  merge : Option String
  absent : Option String
deriving DecidableEq

def Resolved.of (inherited : Inherited) : Resolved where
  scope := (inherited.value "x-fgos-scope").getD ""
  sensitivity := (inherited.value "x-fgos-sensitivity").getD ""
  file := (inherited.value "x-fgos-file").getD ""
  merge := inherited.value "x-fgos-merge"
  absent := inherited.value "x-fgos-absent"

/-- `~1` and `~0` undone. -/
def unescapePointer : List Char → List Char
  | '~' :: '1' :: rest => '/' :: unescapePointer rest
  | '~' :: '0' :: rest => '~' :: unescapePointer rest
  | c :: rest => c :: unescapePointer rest
  | [] => []

/-- The tokens of a JSON pointer, or `none` where it is none. -/
def pointerTokens (pointer : List Char) : Option (List String) :=
  match pointer with
  | [] => some []
  | '/' :: rest => some ((rest.splitOn '/').map fun token => String.ofList (unescapePointer token))
  | _ => none

/-- The member a pointer token names; an array index is a number without leading zeros. -/
def pointerChild (node : Json) (token : String) : Option Json :=
  match node with
  | .obj fields => fields.lookup token
  | .arr items => (token.toNat?.filter fun i => toString i = token).bind (items[·]?)
  | _ => none

def pointer (node : Json) (text : List Char) : Option Json :=
  (pointerTokens text).bind fun tokens => tokens.foldlM pointerChild node

section

variable (schemas : Schemas)

/-- The node a `$ref` names: `#/pointer` in the same section or `<$id>#/pointer` in another. -/
def target (sec : ℕ) (reference : String) : Option At := do
  let base := reference.toList.takeWhile (· ≠ '#')
  let rest := (reference.toList.dropWhile (· ≠ '#')).drop 1
  let sec ← if base = [] then some sec
    else schemas.findIdx? fun s => s.root.get "$id" = .str (String.ofList base)
  let node ← pointer (← schemas[sec]?).root rest
  return ⟨sec, node⟩

/-- A node followed through its `$ref` chain, referrer first; `none` when a reference dangles or the chain is too long. -/
def chain : ℕ → At → Option (List At)
  | 0, _ => none
  | fuel + 1, node =>
    match (node.node.get "$ref").asStr with
    | none => some [node]
    | some reference => do return node :: (← chain fuel (← target schemas node.sec reference))

/-- The longest chain that is followed. -/
def maxChain : ℕ := 32

/-- A node followed through its `$ref` chain, with its annotations taken over. -/
def enter (node : At) (inherited : Inherited) : Option (At × Inherited) := do
  let nodes ← chain schemas maxChain node
  let last ← nodes.getLast?
  return (last, nodes.reverse.foldl (fun inherited node => inherited.apply node.node) inherited)

/-- The schema node at `key`, which has to be a mapping. -/
def subNode (node : At) (key : String) : Option At :=
  ((childOf node.node (.key key)).filter isObject).map fun child => ⟨node.sec, child⟩

def subProperty (node : At) (name : String) : Option At :=
  ((childOf node.node (.key "properties")).bind (childOf · (.key name))).map fun child => ⟨node.sec, child⟩

/-- The schema nodes one level below: each named property, then `additionalProperties` and `items`. -/
def children (node : At) : List (Option String × At) :=
  ((fieldsOf (node.node.get "properties")).filterMap fun (name, _) => (subProperty node name).map fun kid => (some name, kid)) ++
    [subNode node "additionalProperties", subNode node "items"].filterMap fun kid => kid.map fun kid => (none, kid)

/-- The schema node of a child: a property wins over `additionalProperties`, and an index takes `items`. -/
def schemaChild (node : At) : Segment → Option At
  | .key name => (subProperty node name).or (subNode node "additionalProperties")
  | .index _ => subNode node "items"

def down (here : At × Inherited) (segment : Segment) : Option (At × Inherited) :=
  (schemaChild here.1 segment).bind fun kid => enter schemas kid here.2

/-- The schema node of a path, with the annotations stated on the way down.  The first segment names the section. -/
def locate : Path → Option (At × Inherited)
  | .key name :: rest => do
    let sec ← schemas.findIdx? fun s => s.name = name
    let root ← schemas[sec]?
    let here ← enter schemas ⟨sec, root.root⟩ Inherited.empty
    rest.foldlM (down schemas) here
  | _ => none

def resolve (path : Path) : Option Resolved := (locate schemas path).map fun here => Resolved.of here.2

variable {schemas}

theorem mem_fieldsOf_properties {node kid : At} {name : String} (h : subProperty node name = some kid) :
    ∃ value, (name, value) ∈ fieldsOf (node.node.get "properties") := by
  obtain ⟨child, hchild, -⟩ := Option.map_eq_some_iff.mp h
  obtain ⟨properties, hproperties, hname⟩ := Option.bind_eq_some_iff.mp hchild
  cases hnode : node.node with
  | obj fields =>
    rw [hnode] at hproperties
    have hget : (Json.obj fields).get "properties" = properties := by
      show (fields.lookup "properties").getD .null = properties
      rw [show fields.lookup "properties" = some properties from hproperties, Option.getD_some]
    rw [hget]
    cases properties with
    | obj entries =>
      obtain ⟨before, after, hentries, -⟩ := List.lookup_eq_some_iff.mp hname
      exact ⟨child, by rw [fieldsOf, hentries]; simp⟩
    | _ => cases hname
  | _ =>
    rw [hnode] at hproperties
    cases hproperties

theorem schemaChild_mem_children {node kid : At} {segment : Segment} (h : schemaChild node segment = some kid) :
    ∃ name, (name, kid) ∈ children node := by
  cases segment with
  | index i => exact ⟨none, List.mem_append_right _ (List.mem_filterMap.mpr ⟨some kid, by simp [← h, schemaChild], rfl⟩)⟩
  | key name =>
    rw [schemaChild] at h
    cases hproperty : subProperty node name with
    | none =>
      rw [hproperty, Option.none_or] at h
      exact ⟨none, List.mem_append_right _ (List.mem_filterMap.mpr ⟨some kid, by simp [h], rfl⟩)⟩
    | some kid' =>
      rw [hproperty, Option.some_or] at h
      cases h
      have hmem := mem_fieldsOf_properties hproperty
      obtain ⟨value, hvalue⟩ := hmem
      exact ⟨some name, List.mem_append_left _ (List.mem_filterMap.mpr ⟨(name, value), hvalue, by
        show (subProperty node name).map _ = _
        rw [hproperty]
        rfl⟩)⟩

theorem locate_append {p q : Path} (hp : p ≠ []) :
    locate schemas (p ++ q) = (locate schemas p).bind fun here => q.foldlM (down schemas) here := by
  cases p with
  | nil => exact absurd rfl hp
  | cons segment p =>
    cases segment with
    | index i => rfl
    | key name =>
      rw [List.cons_append, locate, locate, ← Option.bind_eq_bind]
      simp only [List.foldlM_append, bind_assoc]

end

end Forgent.Config
