import Forgent.Config.Write

/-!
# Values set leaf by leaf

A value is put into a file as one edit for each of its leaves.  The edits have paths of which none leads to another, so each
leaves what the others set, and in a place that was empty they make up the value.
-/

namespace Forgent.Config

open List Option

/-! ### Paths of which none leads to the other -/

def Unrelated (p q : Path) : Prop := ¬ p <+: q ∧ ¬ q <+: p

theorem Unrelated.symm {p q : Path} (h : Unrelated p q) : Unrelated q p := ⟨h.2, h.1⟩

theorem Unrelated.tail {segment : Segment} {p q : Path} (h : Unrelated (segment :: p) (segment :: q)) : Unrelated p q :=
  ⟨fun hp => h.1 (cons_prefix_cons.mpr ⟨rfl, hp⟩), fun hq => h.2 (cons_prefix_cons.mpr ⟨rfl, hq⟩)⟩

theorem Unrelated.longer {p q : Path} (h : Unrelated p q) (more : Path) : Unrelated (p ++ more) q := by
  constructor
  · exact fun hprefix => h.1 ((prefix_append p more).trans hprefix)
  · intro hprefix
    cases prefix_or_prefix_of_prefix hprefix (prefix_append p more) with
    | inl hqp => exact h.2 hqp
    | inr hpq => exact h.1 hpq

theorem Unrelated.of_keys {front : Path} {a b : String} (hne : a ≠ b) (p q : Path) :
    Unrelated (front ++ .key a :: p) (front ++ .key b :: q) := by
  constructor
  · intro hprefix
    have hheads := (prefix_append_right_inj front).mp hprefix
    exact hne (Segment.key.inj (cons_prefix_cons.mp hheads).1)
  · intro hprefix
    have hheads := (prefix_append_right_inj front).mp hprefix
    exact hne (Segment.key.inj (cons_prefix_cons.mp hheads).1).symm

variable {value : Json}

theorem jsonAt_nestedMap_unrelated {p q : Path} {leaf : Json} (h : nestedMap p leaf = some value) (hpq : Unrelated p q) :
    jsonAt value q = none := by
  induction p generalizing q value with
  | nil => exact absurd nil_prefix hpq.1
  | cons segment p ih =>
    cases segment with
    | index i => cases h
    | key key =>
      obtain ⟨kid, hkid, rfl⟩ := map_eq_some_iff.mp h
      cases q with
      | nil => exact absurd nil_prefix hpq.2
      | cons next q =>
        cases next with
        | index i => rfl
        | key name =>
          show (([(key, kid)] : List (String × Json)).lookup name).bind _ = none
          by_cases hname : name = key
          · subst hname
            rw [lookup_cons_self]
            exact ih hkid hpq.tail
          · rw [lookup_cons, beq_false_of_ne hname]
            rfl

variable {fields : List (String × Json)} {node : Json}

theorem childOf_of_entriesOf (h : entriesOf node = some fields) (name : String) :
    childOf node (.key name) = fields.lookup name := by
  cases node with
  | null =>
    obtain rfl : [] = fields := some.inj h
    rfl
  | obj entries =>
    obtain rfl : entries = fields := some.inj h
    rfl
  | _ => cases h

theorem childOf_index_of_entriesOf (h : entriesOf node = some fields) (i : ℕ) :
    childOf node (.index i) = none := by
  cases node with
  | arr items => cases h
  | _ => rfl

theorem eq_arr_of_itemsOf {items : List Json} (h : itemsOf node = some items) : node = .arr items := by
  cases node with
  | arr entries =>
    obtain rfl : entries = items := some.inj h
    rfl
  | _ => cases h

/-- What is set beside a path leaves what is there. -/
theorem jsonAt_applySet_unrelated {new : Json} {p q : Path} (h : applySet node p new = some value)
    (hpq : Unrelated p q) : jsonAt value q = jsonAt node q := by
  induction p generalizing node value q with
  | nil => exact absurd nil_prefix hpq.1
  | cons segment p ih =>
    cases q with
    | nil => exact absurd nil_prefix hpq.2
    | cons next q =>
      cases segment with
      | key key =>
        obtain ⟨fields, hfields, h⟩ := bind_eq_some_iff.mp h
        have hnode := childOf_of_entriesOf hfields
        have hindex := childOf_index_of_entriesOf hfields
        split at h
        · next kid hkid =>
          obtain ⟨kid', hkid', rfl⟩ := map_eq_some_iff.mp h
          cases next with
          | index i =>
            show none = (childOf node (.index i)).bind _
            rw [hindex]
            rfl
          | key name =>
            show ((setField key kid' fields).lookup name).bind _ = (childOf node (.key name)).bind _
            rw [lookup_setField, hnode]
            by_cases hname : name = key
            · subst hname
              rw [if_pos rfl, hkid]
              exact ih hkid' hpq.tail
            · rw [if_neg hname]
        · next hnone =>
          obtain ⟨leaf, hleaf, rfl⟩ := map_eq_some_iff.mp h
          cases next with
          | index i =>
            show none = (childOf node (.index i)).bind _
            rw [hindex]
            rfl
          | key name =>
            show ((fields ++ [(key, leaf)]).lookup name).bind _ = (childOf node (.key name)).bind _
            rw [lookup_append, hnode]
            by_cases hname : name = key
            · subst hname
              rw [hnone, none_or, lookup_cons_self]
              exact jsonAt_nestedMap_unrelated hleaf hpq.tail
            · rw [lookup_cons, beq_false_of_ne hname]
              show ((fields.lookup name).or none).bind _ = _
              rw [or_none]
      | index i =>
        obtain ⟨items, hitems, h⟩ := bind_eq_some_iff.mp h
        obtain ⟨item, hitem, h⟩ := bind_eq_some_iff.mp h
        obtain ⟨kid, hkid, rfl⟩ := map_eq_some_iff.mp h
        obtain rfl := eq_arr_of_itemsOf hitems
        cases next with
        | key name => rfl
        | index j =>
          show ((items.set i kid)[j]?).bind _ = (items[j]?).bind _
          by_cases hij : i = j
          · subst hij
            rw [getElem?_set_self (List.getElem?_eq_some_iff.mp hitem).1, hitem]
            exact ih hkid hpq.tail
          · rw [getElem?_set_ne hij]

/-! ### Setting below a path -/

/-- What is set in a place: a new mapping where there is nothing. -/
def putIn : Option Json → Path × Json → Option Json
  | none, (path, new) => nestedMap path new
  | some node, (path, new) => applySet node path new

theorem nestedMap_append {p q : Path} {leaf : Json} (h : nestedMap (p ++ q) leaf = some value) :
    jsonAt value p = nestedMap q leaf := by
  induction p generalizing value with
  | nil => exact h.symm
  | cons segment p ih =>
    cases segment with
    | index i => cases h
    | key key =>
      obtain ⟨kid, hkid, rfl⟩ := map_eq_some_iff.mp h
      show (([(key, kid)] : List (String × Json)).lookup key).bind _ = _
      rw [lookup_cons_self]
      exact ih hkid

theorem jsonAt_applySet_below {new : Json} {p q : Path} (h : applySet node (p ++ q) new = some value) :
    jsonAt value p = putIn (jsonAt node p) (q, new) := by
  induction p generalizing node value with
  | nil => exact h.symm
  | cons segment p ih =>
    cases segment with
    | key key =>
      obtain ⟨fields, hfields, h⟩ := bind_eq_some_iff.mp h
      have hnode := childOf_of_entriesOf hfields key
      split at h
      · next kid hkid =>
        obtain ⟨kid', hkid', rfl⟩ := map_eq_some_iff.mp h
        show ((setField key kid' fields).lookup key).bind _ = putIn ((childOf node (.key key)).bind _) _
        rw [lookup_setField, if_pos rfl, hnode, hkid]
        exact ih hkid'
      · next hnone =>
        obtain ⟨leaf, hleaf, rfl⟩ := map_eq_some_iff.mp h
        show ((fields ++ [(key, leaf)]).lookup key).bind _ = putIn ((childOf node (.key key)).bind _) _
        rw [lookup_append, hnode, hnone, none_or, lookup_cons_self]
        exact nestedMap_append hleaf
    | index i =>
      obtain ⟨items, hitems, h⟩ := bind_eq_some_iff.mp h
      obtain ⟨item, hitem, h⟩ := bind_eq_some_iff.mp h
      obtain ⟨kid, hkid, rfl⟩ := map_eq_some_iff.mp h
      obtain rfl := eq_arr_of_itemsOf hitems
      show ((items.set i kid)[i]?).bind _ = putIn ((items[i]?).bind _) _
      rw [getElem?_set_self (List.getElem?_eq_some_iff.mp hitem).1, hitem]
      exact ih hkid

/-! ### The leaves of a value -/

mutual

/-- `leaves`: the values below a path; a filled mapping descends, anything else is a leaf. -/
def leaves (path : Path) : Json → List (Path × Json)
  | .obj (field :: fields) => leavesFields path (field :: fields)
  | value => [(path, value)]

def leavesFields (path : Path) : List (String × Json) → List (Path × Json)
  | [] => []
  | (key, kid) :: fields => leaves (path ++ [.key key]) kid ++ leavesFields path fields

end

mutual

/-- Every mapping has each key once, as a parsed one does. -/
def uniqueKeys : Json → Bool
  | .obj fields => uniqueFields fields
  | .arr items => uniqueItems items
  | _ => true

def uniqueFields : List (String × Json) → Bool
  | [] => true
  | (key, kid) :: fields => (fields.lookup key).isNone && uniqueKeys kid && uniqueFields fields

def uniqueItems : List Json → Bool
  | [] => true
  | kid :: items => uniqueKeys kid && uniqueItems items

end

variable {key : String}

theorem uniqueFields_cons {kid : Json} :
    uniqueFields ((key, kid) :: fields) = true ↔
      fields.lookup key = none ∧ uniqueKeys kid = true ∧ uniqueFields fields = true := by
  rw [uniqueFields, Bool.and_eq_true, Bool.and_eq_true, isNone_iff_eq_none, and_assoc]

mutual

theorem leaves_shift (front path : Path) (value : Json) :
    leaves (front ++ path) value = (leaves path value).map fun entry => (front ++ entry.1, entry.2) := by
  cases value with
  | obj fields =>
    cases fields with
    | nil => rfl
    | cons field fields => exact leavesFields_shift front path (field :: fields)
  | _ => rfl

theorem leavesFields_shift (front path : Path) (fields : List (String × Json)) :
    leavesFields (front ++ path) fields = (leavesFields path fields).map fun entry => (front ++ entry.1, entry.2) := by
  cases fields with
  | nil => rfl
  | cons field fields =>
    obtain ⟨key, kid⟩ := field
    rw [leavesFields, leavesFields, map_append, append_assoc, leaves_shift front (path ++ [Segment.key key]) kid,
      leavesFields_shift front path fields]

end

variable {entry : Path × Json} {path : Path}

theorem prefix_of_mem_leaves (h : entry ∈ leaves path value) : path <+: entry.1 := by
  have hshift := leaves_shift path [] value
  rw [append_nil] at hshift
  rw [hshift] at h
  obtain ⟨below, -, rfl⟩ := List.mem_map.mp h
  exact prefix_append path below.1

theorem mem_leavesFields (h : entry ∈ leavesFields path fields) :
    ∃ key rest, (fields.lookup key).isSome = true ∧ entry.1 = path ++ .key key :: rest := by
  induction fields with
  | nil => cases h
  | cons field fields ih =>
    obtain ⟨key, kid⟩ := field
    rw [leavesFields] at h
    cases mem_append.mp h with
    | inl hkid =>
      obtain ⟨rest, hrest⟩ := prefix_of_mem_leaves hkid
      exact ⟨key, rest, by rw [lookup_cons_self]; rfl, by rw [← hrest, append_assoc]; rfl⟩
    | inr hfields =>
      obtain ⟨name, rest, hname, hrest⟩ := ih hfields
      refine ⟨name, rest, ?_, hrest⟩
      rw [lookup_cons]
      split
      · rfl
      · exact hname

mutual

theorem leaves_pairwise {value : Json} (path : Path) (h : uniqueKeys value = true) :
    (leaves path value).Pairwise fun a b => Unrelated a.1 b.1 := by
  cases value with
  | obj fields =>
    cases fields with
    | nil => exact pairwise_singleton _ _
    | cons field fields => exact leavesFields_pairwise path h
  | _ => exact pairwise_singleton _ _

theorem leavesFields_pairwise {fields : List (String × Json)} (path : Path) (h : uniqueFields fields = true) :
    (leavesFields path fields).Pairwise fun a b => Unrelated a.1 b.1 := by
  cases fields with
  | nil => exact List.Pairwise.nil
  | cons field fields =>
    obtain ⟨key, kid⟩ := field
    obtain ⟨hkey, hkid, hfields⟩ := uniqueFields_cons.mp h
    rw [leavesFields, pairwise_append]
    refine ⟨leaves_pairwise _ hkid, leavesFields_pairwise path hfields, fun a ha b hb => ?_⟩
    obtain ⟨p, hp⟩ := prefix_of_mem_leaves ha
    obtain ⟨name, q, hname, hq⟩ := mem_leavesFields hb
    have hne : key ≠ name := fun heq => by
      rw [← heq, hkey] at hname
      cases hname
    rw [← hp, hq, append_assoc]
    exact Unrelated.of_keys hne p q

end

/-! ### A value that its leaves make up -/

/-- Entries set one after the other in a place. -/
def putAll : Option Json → List (Path × Json) → Option Json
  | cell, [] => cell
  | cell, entry :: entries => (putIn cell entry).bind fun node => putAll (some node) entries

theorem putAll_append {cell : Option Json} {entries : List (Path × Json)} (h : putAll cell entries = some node)
    (more : List (Path × Json)) : putAll cell (entries ++ more) = putAll (some node) more := by
  induction entries generalizing cell with
  | nil =>
    obtain rfl : cell = some node := h
    rfl
  | cons entry entries ih =>
    obtain ⟨first, hfirst, hrest⟩ := bind_eq_some_iff.mp h
    show (putIn cell entry).bind _ = _
    rw [hfirst]
    exact ih hrest

/-- A mapping, where a mapping without entries is nothing yet. -/
def mapping (fields : List (String × Json)) : Option Json := if fields = [] then none else some (.obj fields)

theorem setField_last (h : fields.lookup key = none) (old new : Json) :
    setField key new (fields ++ [(key, old)]) = fields ++ [(key, new)] := by
  induction fields with
  | nil => simp [setField]
  | cons field fields ih =>
    obtain ⟨k, v⟩ := field
    by_cases hk : k = key
    · subst hk
      rw [lookup_cons_self] at h
      cases h
    · rw [lookup_cons, beq_false_of_ne (Ne.symm hk)] at h
      rw [cons_append, setField, if_neg hk, ih h, cons_append]

/-- Where a mapping has its entries and one more, which grows. -/
def grown (fields : List (String × Json)) (key : String) : Option Json → Option Json
  | none => mapping fields
  | some kid => some (.obj (fields ++ [(key, kid)]))

theorem putIn_grown (hkey : fields.lookup key = none) {cell : Option Json} {new kid : Json} (h : putIn cell (path, new) = some kid) :
    putIn (grown fields key cell) (.key key :: path, new) = grown fields key (some kid) := by
  cases cell with
  | none =>
    change nestedMap path new = some kid at h
    unfold grown mapping
    by_cases hfields : fields = []
    · subst hfields
      show (nestedMap path new).map _ = _
      rw [h]
      rfl
    · rw [if_neg hfields]
      show applySet (.obj fields) (.key key :: path) new = _
      simp only [applySet, entriesOf, Option.bind_eq_bind, Option.bind_some, hkey]
      show (nestedMap path new).map _ = _
      rw [h]
      rfl
  | some node =>
    change applySet node path new = some kid at h
    have hnode : (fields ++ [(key, node)]).lookup key = some node := by
      rw [lookup_append, hkey, none_or, lookup_cons_self]
    show applySet (.obj (fields ++ [(key, node)])) (.key key :: path) new = _
    simp only [applySet, entriesOf, Option.bind_eq_bind, Option.bind_some, hnode]
    show (applySet node path new).map _ = _
    rw [h]
    show some (Json.obj (setField key kid (fields ++ [(key, node)]))) = _
    rw [setField_last hkey]
    rfl

theorem putAll_grown (hkey : fields.lookup key = none) {kid : Json}
    {entries : List (Path × Json)} {cell : Option Json} (h : putAll cell entries = some kid) :
    putAll (grown fields key cell) (entries.map fun entry => (.key key :: entry.1, entry.2)) = grown fields key (some kid) := by
  induction entries generalizing cell with
  | nil =>
    obtain rfl : cell = some kid := h
    rfl
  | cons entry entries ih =>
    obtain ⟨path, new⟩ := entry
    obtain ⟨first, hfirst, hrest⟩ := bind_eq_some_iff.mp h
    show (putIn (grown fields key cell) (.key key :: path, new)).bind _ = _
    rw [putIn_grown hkey hfirst]
    exact ih hrest

mutual

theorem putAll_leaves {value : Json} (h : uniqueKeys value = true) : putAll none (leaves [] value) = some value := by
  cases value with
  | obj fields =>
    cases fields with
    | nil => rfl
    | cons field fields => exact @putAll_leavesFields [] (field :: fields) none rfl (cons_ne_nil _ _) h fun _ _ => rfl
  | _ => rfl

theorem putAll_leavesFields {before fields : List (String × Json)} {cell : Option Json} (hcell : cell = mapping before)
    (hne : before ++ fields ≠ []) (h : uniqueFields fields = true)
    (hbefore : ∀ key, (fields.lookup key).isSome = true → before.lookup key = none) :
    putAll cell (leavesFields [] fields) = some (.obj (before ++ fields)) := by
  cases fields with
  | nil =>
    rw [append_nil] at hne ⊢
    rw [hcell, mapping, if_neg hne]
    rfl
  | cons field fields =>
    obtain ⟨key, kid⟩ := field
    obtain ⟨hkey, hkid, hfields⟩ := uniqueFields_cons.mp h
    have hnew : before.lookup key = none := hbefore key (by rw [lookup_cons_self]; rfl)
    have hfirst : putAll cell (leaves [.key key] kid) = some (.obj (before ++ [(key, kid)])) := by
      have hshift := leaves_shift [.key key] [] kid
      rw [append_nil] at hshift
      rw [hshift, hcell]
      exact @putAll_grown before key hnew kid (leaves [] kid) none (putAll_leaves hkid)
    show putAll cell (leaves [.key key] kid ++ leavesFields [] fields) = _
    rw [putAll_append hfirst]
    have happend : before ++ (key, kid) :: fields = before ++ [(key, kid)] ++ fields := by
      rw [append_assoc]
      rfl
    rw [happend]
    refine @putAll_leavesFields (before ++ [(key, kid)]) fields _ ?_ (happend ▸ hne) hfields fun name hname => ?_
    · rw [mapping, if_neg (by simp)]
    · have hne : name ≠ key := fun heq => by
        rw [heq, hkey] at hname
        cases hname
      have hmem : (((key, kid) :: fields).lookup name).isSome = true := by
        rwa [lookup_cons, beq_false_of_ne hne]
      rw [lookup_append, hbefore name hmem, lookup_cons, beq_false_of_ne hne]
      rfl

end

/-! ### Edits that set entries -/

def setAll (json : Json) (entries : List (Path × Json)) : Option Json :=
  entries.foldlM (fun json entry => applySet json entry.1 entry.2) json

theorem setAll_cons {json json' : Json} {entries : List (Path × Json)} :
    setAll json (entry :: entries) = some json' ↔ ∃ first, applySet json entry.1 entry.2 = some first ∧ setAll first entries = some json' := by
  rw [setAll, foldlM_cons]
  exact bind_eq_some_iff

theorem setAll_append {json json' : Json} {before after : List (Path × Json)} :
    setAll json (before ++ after) = some json' ↔ ∃ first, setAll json before = some first ∧ setAll first after = some json' := by
  rw [setAll, foldlM_append]
  exact bind_eq_some_iff

theorem setAll_unrelated {json json' : Json} {entries : List (Path × Json)} {q : Path} (h : setAll json entries = some json')
    (hq : ∀ entry ∈ entries, Unrelated entry.1 q) : jsonAt json' q = jsonAt json q := by
  induction entries generalizing json with
  | nil =>
    obtain rfl : json = json' := some.inj h
    rfl
  | cons entry entries ih =>
    obtain ⟨first, hfirst, hrest⟩ := setAll_cons.mp h
    rw [ih hrest fun other hother => hq other (mem_cons_of_mem _ hother)]
    exact jsonAt_applySet_unrelated hfirst (hq entry mem_cons_self)

theorem setAll_below {json json' : Json} {entries : List (Path × Json)} {p : Path}
    (h : setAll json (entries.map fun entry => (p ++ entry.1, entry.2)) = some json') :
    jsonAt json' p = putAll (jsonAt json p) entries := by
  induction entries generalizing json with
  | nil =>
    obtain rfl : json = json' := some.inj h
    rfl
  | cons entry entries ih =>
    obtain ⟨first, hfirst, hrest⟩ := setAll_cons.mp h
    have hput := jsonAt_applySet_below hfirst
    rw [ih hrest, hput]
    -- The place holds something once a leaf is set in it.
    have hsome : (jsonAt first p).isSome = true := by
      have hset := jsonAt_applySet hfirst
      rw [jsonAt_append] at hset
      obtain ⟨node, hnode, -⟩ := bind_eq_some_iff.mp hset
      rw [hnode]
      rfl
    obtain ⟨node, hnode⟩ := isSome_iff_exists.mp hsome
    show putAll (putIn (jsonAt json p) entry) entries = (putIn (jsonAt json p) entry).bind _
    rw [← hput, hnode]
    rfl

theorem setAll_leaves {json json' : Json} (hnone : jsonAt json path = none) (hunique : uniqueKeys value = true)
    (h : setAll json (leaves path value) = some json') : jsonAt json' path = some value := by
  have hshift := leaves_shift path [] value
  rw [append_nil] at hshift
  rw [hshift] at h
  rw [setAll_below h, hnone]
  exact putAll_leaves hunique

section

variable {ctx : Context} {ed : Editor} {req : Request}

/-- Entries of which none lies below another, and none is held yet, are set except those that the standard has. -/
theorem produce_sets {entries : List (Path × Json)} {reason : Bool} {base : Option File} {file : File} {applied : List (Path × Bool)}
    (hedits : req.edits = entries.map fun entry => .set entry.1 entry.2)
    (hpairwise : entries.Pairwise fun a b => Unrelated a.1 b.1)
    (hnone : ∀ entry ∈ entries, jsonAt ((base.map File.json).getD .null) entry.1 = none)
    (h : produce ctx ed req reason base = .ok (file, applied)) :
    setAll ((base.map File.json).getD .null) (entries.filter fun entry => !standardIs ctx entry.1 entry.2) = some file.json := by
  rw [produce, hedits] at h
  have hjson : (base.map File.json).getD .null = (base.getD ⟨ed.header, .null⟩).json := by
    cases base <;> rfl
  rw [hjson] at hnone ⊢
  generalize base.getD ⟨ed.header, .null⟩ = start at h hnone
  generalize ([] : List (Path × Bool)) = before at h
  clear hjson hedits
  induction entries generalizing start before with
  | nil =>
    obtain ⟨rfl, -⟩ := Prod.mk.inj (Except.ok.inj h)
    rfl
  | cons entry entries ih =>
    obtain ⟨path, value⟩ := entry
    rw [pairwise_cons] at hpairwise
    rw [map_cons, foldlM_cons] at h
    obtain ⟨⟨first, applied₁⟩, hedit, hafter⟩ := bind_eq_ok.mp h
    have hheld : (jsonAt start.json path).isSome = false := by
      rw [hnone (path, value) mem_cons_self]
      rfl
    have hkept : ∀ {json : Json}, (∀ q, Unrelated path q → jsonAt json q = jsonAt start.json q) →
        ∀ other ∈ entries, jsonAt json other.1 = none := by
      intro json hsame other hother
      rw [hsame other.1 (hpairwise.1 other hother)]
      exact hnone other (mem_cons_of_mem _ hother)
    cases editFile_ok hedit with
    | inl hnothing =>
      obtain ⟨hwritten, heq⟩ := hnothing
      obtain ⟨rfl, rfl⟩ := Prod.mk.inj heq
      have hstandard : standardIs ctx path value = true := by
        by_contra hnot
        change written ctx (jsonAt first.json path).isSome (.set path value) = none at hwritten
        rw [written, if_neg hnot] at hwritten
        cases hwritten
      rw [filter_cons_of_neg (by simp [hstandard])]
      exact ih hpairwise.2 first (hkept fun _ _ => rfl) _ hafter
    | inr hchanged =>
      obtain ⟨new, hwritten, hnew, -⟩ := hchanged
      change written ctx (jsonAt start.json path).isSome (.set path value) = some new at hwritten
      rw [hheld, written] at hwritten
      split at hwritten
      · cases hwritten
      · next hstandard =>
        obtain rfl := some.inj hwritten
        change applySet start.json path value = some first.json at hnew
        rw [filter_cons_of_pos (by simp [hstandard])]
        refine setAll_cons.mpr ⟨first.json, hnew, ih hpairwise.2 first (hkept fun q hq => ?_) _ hafter⟩
        exact jsonAt_applySet_unrelated hnew hq

end

end Forgent.Config
