import Forgent.Config.Tree

/-!
# Merging layers

`packages/yaml-doc/rust/src/merge.rs`: values of several layers, highest priority first, become one value.  At a deep
path mappings merge key by key, and a null of a lower layer masks the layers below it; everywhere else the highest layer
is taken whole.  The depth that is left, of `maxDepth`, is the measure of the recursion.
-/

namespace Forgent.Config

open List

inductive MergeRule where
  | deep
  | replace
  | leaf
deriving DecidableEq

inductive MergeError where
  | depthExceeded (path : Path)
  | typeMismatch (path : Path)
deriving DecidableEq

inductive Kind where
  | map
  | seq
  | scalar
deriving DecidableEq

def Kind.of : Json → Kind
  | .obj _ => .map
  | .arr _ => .seq
  | _ => .scalar

/-- The deepest path a merged value may have. -/
def maxDepth : ℕ := 64

/-- The first path of a value that is too deep, where `depth` more levels are allowed. -/
def tooDeep : ℕ → Path → Json → Option Path
  | 0, path, _ => some path
  | depth + 1, path, .obj fields => fields.findSome? fun (key, kid) => tooDeep depth (path ++ [.key key]) kid
  | depth + 1, path, .arr items =>
    items.zipIdx.findSome? fun (item, i) => tooDeep depth (path ++ [.index i]) item
  | _ + 1, _, _ => none

def takeWhole (depth : ℕ) (path : Path) (value : Json) : Except MergeError Json :=
  match tooDeep depth path value with
  | some path => .error (.depthExceeded path)
  | none => .ok value

variable (rules : Path → Option MergeRule) {depth : ℕ} {path : Path} {merged : Json} {key : String} {top : Json}
  {below : List Json}

/-- The rule at a path; without one a mapping is deep and anything else a leaf. -/
def ruleFor (path : Path) (top : Json) : MergeRule := (rules path).getD (if isObject top then .deep else .leaf)

/-- The children of one key in the layers that have it. -/
def holders (maps : List Json) (key : String) : List Json := maps.filterMap fun map => childOf map (.key key)

/-- The keys of mappings, in the order in which they are first seen. -/
def keysOf (maps : List Json) : List String := (maps.flatMap fun map => (fieldsOf map).map Prod.fst).eraseDups

/-- `merge_node`: the layers that have this path, highest priority first. -/
def mergeNode : ℕ → Path → List Json → Except MergeError Json
  | 0, path, _ => .error (.depthExceeded path)
  | _ + 1, _, [] => .ok .null
  | depth + 1, path, top :: below =>
    if ruleFor rules path top ≠ .deep ∨ top = .null then takeWhole (depth + 1) path top
    else
      -- A null below the top masks every layer under it.
      let considered := below.takeWhile (· ≠ .null)
      if considered.any fun other => Kind.of other ≠ Kind.of top then .error (.typeMismatch path)
      else if Kind.of top ≠ .map then takeWhole (depth + 1) path top
      else do
        let merged ← (keysOf (top :: considered)).mapM fun key => do
          return (key, ← mergeNode depth (path ++ [.key key]) (holders (top :: considered) key))
        return .obj merged

/-- `merge`. -/
def mergeLayers (layers : List Json) : Except MergeError Json := mergeNode rules (maxDepth + 1) [] layers

variable {rules}

theorem takeWhole_ok {value : Json} (h : takeWhole depth path value = .ok merged) : merged = value := by
  unfold takeWhole at h
  split at h
  · cases h
  · exact (Except.ok.inj h).symm

theorem mem_fieldsOf_iff {map : Json} :
    key ∈ (fieldsOf map).map Prod.fst ↔ (childOf map (.key key)).isSome = true := by
  cases map with
  | obj fields =>
    show key ∈ fields.map Prod.fst ↔ (fields.lookup key).isSome = true
    rw [Option.isSome_iff_ne_none, Ne, lookup_eq_none_iff]
    constructor
    · intro h hnone
      obtain ⟨field, hfield, rfl⟩ := List.mem_map.mp h
      simpa using hnone field hfield
    · intro h
      by_contra hnot
      apply h
      intro field hfield
      have hne : key ≠ field.1 := fun heq => hnot (heq ▸ List.mem_map_of_mem hfield)
      simpa using hne
  | _ => simp [fieldsOf, childOf]

theorem mem_keysOf {maps : List Json} : key ∈ keysOf maps ↔ holders maps key ≠ [] := by
  rw [keysOf, mem_eraseDups, mem_flatMap, holders, Ne, filterMap_eq_nil_iff]
  simp only [mem_fieldsOf_iff, Option.isSome_iff_ne_none, not_forall, exists_prop]

theorem lookup_of_mapM {ε : Type} {make : String → Except ε Json} {keys : List String} {entries : List (String × Json)}
    (h : (keys.mapM fun key => do return (key, ← make key)) = .ok entries) (key : String) :
    (key ∈ keys → ∃ kid, entries.lookup key = some kid ∧ make key = .ok kid) ∧
      (key ∉ keys → entries.lookup key = none) := by
  induction keys generalizing entries with
  | nil =>
    obtain rfl : [] = entries := Except.ok.inj h
    simp
  | cons first keys ih =>
    rw [mapM_cons] at h
    obtain ⟨_, hentry, h⟩ := bind_eq_ok.mp h
    obtain ⟨kid, hfirst, hentry⟩ := bind_eq_ok.mp hentry
    cases hentry
    obtain ⟨rest, hrest, h⟩ := bind_eq_ok.mp h
    obtain rfl : (first, kid) :: rest = entries := Except.ok.inj h
    obtain ⟨hin, hout⟩ := ih hrest
    by_cases heq : key = first
    · rw [heq, lookup_cons_self]
      exact ⟨fun _ => ⟨kid, rfl, hfirst⟩, fun hnot => absurd mem_cons_self hnot⟩
    · have hlookup : ((first, kid) :: rest).lookup key = rest.lookup key := by
        rw [lookup_cons, beq_false_of_ne heq]
      rw [hlookup]
      exact ⟨fun hmem => hin ((mem_cons.mp hmem).resolve_left heq),
        fun hnot => hout fun hmem => hnot (mem_cons_of_mem first hmem)⟩

/-- What a deep merge of mappings gives: each key holds the merge of its holders. -/
structure DeepMerge (rules : Path → Option MergeRule) (depth : ℕ) (path : Path) (maps : List Json) (merged : Json) : Prop where
  object : isObject merged = true
  child : ∀ key, holders maps key ≠ [] →
    ∃ kid, childOf merged (.key key) = some kid ∧ mergeNode rules depth (path ++ [.key key]) (holders maps key) = .ok kid
  absent : ∀ key, holders maps key = [] → childOf merged (.key key) = none

theorem mergeNode_deep
    (h : mergeNode rules (depth + 1) path (top :: below) = .ok merged) (hrule : ruleFor rules path top = .deep)
    (htop : isObject top = true) : (∀ other ∈ below.takeWhile (· ≠ .null), isObject other = true) ∧
      DeepMerge rules depth path (top :: below.takeWhile (· ≠ .null)) merged := by
  have hmap : Kind.of top = .map := by
    cases top with
    | obj _ => rfl
    | _ => cases htop
  have hnull : top ≠ .null := by
    intro heq
    rw [heq] at htop
    cases htop
  rw [mergeNode, if_neg (by simp [hrule, hnull])] at h
  by_cases hkind : ((below.takeWhile (· ≠ .null)).any fun other => Kind.of other ≠ Kind.of top) = true
  · dsimp only at h
    rw [if_pos hkind] at h
    cases h
  · dsimp only at h
    rw [if_neg hkind, if_neg (not_not_intro hmap)] at h
    constructor
    · intro other hother
      have hsame : Kind.of other = .map := by
        by_contra hne
        exact hkind (List.any_eq_true.mpr ⟨other, hother, by simp [hmap, hne]⟩)
      cases other with
      | obj _ => rfl
      | _ => cases hsame
    · generalize top :: below.takeWhile (· ≠ .null) = maps at h ⊢
      cases hentries : (keysOf maps).mapM (fun key => do
          return (key, ← mergeNode rules depth (path ++ [.key key]) (holders maps key)) :
          String → Except MergeError (String × Json)) with
      | error err =>
        rw [hentries] at h
        cases h
      | ok entries =>
        have hlookup := lookup_of_mapM hentries
        rw [hentries] at h
        obtain rfl : Json.obj entries = merged := Except.ok.inj h
        exact {
          object := rfl
          child := fun key hkey => (hlookup key).1 (mem_keysOf.mpr hkey)
          absent := fun key hkey => (hlookup key).2 fun hmem => mem_keysOf.mp hmem hkey }

theorem mergeNode_whole (h : mergeNode rules (depth + 1) path (top :: below) = .ok merged)
    (htop : ruleFor rules path top ≠ .deep ∨ isObject top = false) : merged = top := by
  rw [mergeNode] at h
  by_cases hwhole : ruleFor rules path top ≠ .deep ∨ top = .null
  · rw [if_pos hwhole] at h
    exact takeWhole_ok h
  · rw [if_neg hwhole] at h
    have hobject : isObject top = false := htop.resolve_left fun hne => hwhole (.inl hne)
    have hmap : Kind.of top ≠ .map := by
      cases top with
      | obj _ => cases hobject
      | arr _ => simp [Kind.of]
      | _ => simp [Kind.of]
    by_cases hkind : ((below.takeWhile (· ≠ .null)).any fun other => Kind.of other ≠ Kind.of top) = true
    · dsimp only at h
      rw [if_pos hkind] at h
      cases h
    · dsimp only at h
      rw [if_neg hkind, if_pos hmap] at h
      exact takeWhole_ok h

end Forgent.Config
