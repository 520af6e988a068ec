import Forgent.Config.Keys

/-!
# What the destination holds, and what is removed

A key is held when its destination has a value with the same canonical text; a key with nothing to carry counts as held.  The
removal of keys leaves every other key of the file where it was, with its value.
-/

namespace Forgent.Config

open List Option

/-! ### What the destination holds -/

/-- The destination of every key: the token, and the accounts file with its revision. -/
structure Dest where
  token : Option String
  accounts : Json
  revision : Option String

inductive Held where
  | missing
  | equal
  | differs
deriving DecidableEq

def Dest.have (dest : Dest) (key : Key) : Option Json := if key.token then dest.token.map .str else jsonAt dest.accounts key.path

section Held

variable (c : Codec) {dest : Dest} {key : Key}

/-- `held`; none is a number without canonical text. -/
def Dest.held (dest : Dest) (key : Key) : Option Held :=
  if !carries key.value then some .equal
  else match dest.have key with
    | none => some .missing
    | some there => do
      let text ← Json.write c there
      let wanted ← Json.write c key.value
      return if text = wanted then .equal else .differs

/-- `states`: a key whose destination differs, or is missing where it must not, is refused. -/
def states (found : List Key) (dest : Dest) (missingOk : Bool) : Except (List Refusal) (List Held) :=
  match found.mapM (Dest.held c dest) with
  | none => .error [⟨"io", [], none, some "number"⟩]
  | some all =>
    match (found.zip all).find? fun entry => entry.2 = .differs || (!missingOk && entry.2 = .missing) with
    | none => .ok all
    | some (key, _) => .error [⟨"config-move-destination-differs", key.path, none, none⟩]

/-- The destination has a value with the canonical text of the key's. -/
def HeldEqual (dest : Dest) (key : Key) : Prop :=
  ∃ there text, dest.have key = some there ∧ Json.write c there = some text ∧ Json.write c key.value = some text

variable {c}

theorem heldEqual_of_held (h : Dest.held c dest key = some .equal) (hcarries : carries key.value = true) :
    HeldEqual c dest key := by
  unfold Dest.held at h
  rw [hcarries] at h
  change (match dest.have key with
    | none => some Held.missing
    | some there => _) = _ at h
  split at h
  · cases h
  · next there hthere =>
    obtain ⟨text, htext, h⟩ := bind_eq_some_iff.mp h
    obtain ⟨wanted, hwanted, h⟩ := bind_eq_some_iff.mp h
    by_cases heq : text = wanted
    · exact ⟨there, text, hthere, htext, heq ▸ hwanted⟩
    · rw [if_neg heq] at h
      cases h

theorem held_of_heldEqual (h : HeldEqual c dest key) : Dest.held c dest key = some .equal := by
  obtain ⟨there, text, hthere, htext, hwanted⟩ := h
  unfold Dest.held
  split
  · rfl
  · rw [hthere]
    show (Json.write c there).bind _ = _
    rw [htext]
    show (Json.write c key.value).bind _ = _
    rw [hwanted]
    exact congrArg some (if_pos rfl)

theorem missing_of_held (h : Dest.held c dest key = some .missing) :
    carries key.value = true ∧ dest.have key = none := by
  unfold Dest.held at h
  split at h
  · cases h
  · next hcarries =>
    split at h
    · next hnone => exact ⟨by simpa using hcarries, hnone⟩
    · obtain ⟨text, -, h⟩ := bind_eq_some_iff.mp h
      obtain ⟨wanted, -, h⟩ := bind_eq_some_iff.mp h
      have hcases := some.inj h
      split at hcases <;> cases hcases

/-- The keys that the destination does not have. -/
def missingOf (found : List Key) (all : List Held) : List Key := ((found.zip all).filter fun entry => entry.2 = .missing).map Prod.fst

theorem states_ok {found : List Key} {missingOk : Bool} {all : List Held} (h : states c found dest missingOk = .ok all) :
    (∀ key ∈ found, Dest.held c dest key = some .equal ∨ missingOk = true ∧ Dest.held c dest key = some .missing) ∧
      missingOf found all = found.filter fun key => Dest.held c dest key = some .missing := by
  unfold states at h
  split at h
  · cases h
  · next all' hall =>
    split at h
    · next hfind =>
      obtain rfl := Except.ok.inj h
      have hforall := forall₂_of_mapM hall
      rw [find?_eq_none] at hfind
      clear hall h
      unfold missingOf
      induction hforall with
      | nil => exact ⟨fun key hkey => absurd hkey not_mem_nil, rfl⟩
      | @cons key state found all hkey hrest ih =>
        rw [zip_cons_cons] at hfind ⊢
        obtain ⟨hstates, hmissing⟩ := ih fun entry hentry => hfind entry (mem_cons_of_mem _ hentry)
        have hfirst := hfind (key, state) mem_cons_self
        constructor
        · intro k hk
          cases mem_cons.mp hk with
          | inl hself =>
            subst hself
            cases state with
            | equal => exact .inl hkey
            | missing => exact .inr ⟨by simpa using hfirst, hkey⟩
            | differs => simp at hfirst
          | inr hmem => exact hstates k hmem
        · cases state with
          | missing =>
            rw [filter_cons_of_pos (by simp), filter_cons_of_pos (by simp [hkey]), map_cons, hmissing]
          | equal | differs => rw [filter_cons_of_neg (by simp), filter_cons_of_neg (by simp [hkey]), hmissing]
    · cases h

/-- Keys that are all held, or may be missing, are not refused. -/
theorem states_of_held {found : List Key} {dest : Dest} {missingOk : Bool}
    (h : ∀ key ∈ found, Dest.held c dest key = some .equal ∨ missingOk = true ∧ Dest.held c dest key = some .missing) :
    ∃ all, states c found dest missingOk = .ok all := by
  obtain ⟨all, hall⟩ : ∃ all, found.mapM (Dest.held c dest) = some all := by
    induction found with
    | nil => exact ⟨[], rfl⟩
    | cons key found ih =>
      obtain ⟨rest, hrest⟩ := ih (forall_mem_cons.mp h).2
      obtain ⟨state, hstate⟩ : ∃ state, Dest.held c dest key = some state := by
        cases h key mem_cons_self with
        | inl hequal => exact ⟨_, hequal⟩
        | inr hmissing => exact ⟨_, hmissing.2⟩
      refine ⟨state :: rest, ?_⟩
      rw [mapM_cons, hstate]
      show (found.mapM (Dest.held c dest)).bind _ = _
      rw [hrest]
      rfl
  refine ⟨all, ?_⟩
  unfold states
  rw [hall]
  have hforall := forall₂_of_mapM hall
  have hnone : (found.zip all).find? (fun entry => entry.2 = .differs || (!missingOk && entry.2 = .missing)) = none := by
    rw [find?_eq_none]
    intro entry hentry
    clear hall
    induction hforall with
    | nil => cases hentry
    | @cons key state found all hkey hrest ih =>
      rw [zip_cons_cons] at hentry
      cases mem_cons.mp hentry with
      | inl hself =>
        subst hself
        cases h key mem_cons_self with
        | inl hequal =>
          obtain rfl : state = .equal := some.inj (hkey.symm.trans hequal)
          simp
        | inr hmissing =>
          obtain rfl : state = .missing := some.inj (hkey.symm.trans hmissing.2)
          simp [hmissing.1]
      | inr hmem => exact ih (forall_mem_cons.mp h).2 hmem
  dsimp only
  rw [hnone]

end Held

/-! ### The removal -/

/-- `remove_at`: every other key stays where it was, and an emptied mapping stays. -/
def removeAt : Json → Path → Json
  | .obj fields, [.key name] => .obj (fields.filter fun field => field.1 ≠ name)
  | .obj fields, .key name :: next :: rest =>
    match fields.lookup name with
    | some kid => .obj (setField name (removeAt kid (next :: rest)) fields)
    | none => .obj fields
  | node, _ => node

def removeAll (json : Json) (paths : List Path) : Json := paths.foldl removeAt json

theorem removeAt_eq (node : Json) (path : Path) : removeAt node path = jsonPut node path none := by
  induction path generalizing node with
  | nil => cases node <;> rfl
  | cons segment path ih =>
    cases segment with
    | index i => cases node <;> rfl
    | key key =>
      cases node with
      | obj fields =>
        rw [jsonPut, if_neg (by simp [isObject])]
        cases path with
        | nil => rfl
        | cons next path =>
          show (match fields.lookup key with
            | some kid => Json.obj (setField key (removeAt kid (next :: path)) fields)
            | none => Json.obj fields) = (match fields.lookup key with
            | some kid => Json.obj (setField key (jsonPut kid (next :: path) none) fields)
            | none => Json.obj fields)
          cases fields.lookup key with
          | none => rfl
          | some kid =>
            show Json.obj (setField key (removeAt kid (next :: path)) fields) = _
            rw [ih kid]
      | _ => cases path <;> rfl

/-- A path of keys only; nothing is removed at any other. -/
def keysOnly (path : Path) : Bool := path.all fun segment => match segment with
  | .key _ => true
  | .index _ => false

variable {node : Json} {p q : Path} {paths : List Path} {fields : List (String × Json)}

theorem removeAt_of_not_keysOnly {path : Path} (h : keysOnly path = false) : removeAt node path = node := by
  rw [removeAt_eq]
  apply jsonPut_none_self
  left
  obtain ⟨segment, hmem, hsegment⟩ := List.all_eq_false.mp h
  cases segment with
  | key name => exact absurd rfl hsegment
  | index i => exact ⟨i, hmem⟩

theorem jsonAt_removeAt (h : Unrelated p q) : jsonAt (removeAt node p) q = jsonAt node q := by
  rw [removeAt_eq]
  exact jsonAt_jsonPut_none h.1 h.2

theorem isSome_of_removeAt (h : (jsonAt (removeAt node p) q).isSome = true) : (jsonAt node q).isSome = true := by
  rw [removeAt_eq] at h
  exact isSome_of_jsonPut_none h

theorem jsonAt_removeAll (h : ∀ p ∈ paths, Unrelated p q) : jsonAt (removeAll node paths) q = jsonAt node q := by
  induction paths generalizing node with
  | nil => rfl
  | cons p paths ih =>
    show jsonAt (removeAll (removeAt node p) paths) q = _
    rw [ih (forall_mem_cons.mp h).2]
    exact jsonAt_removeAt (h p mem_cons_self)

theorem isSome_of_removeAll {paths : List Path} {node : Json} {q : Path} (h : (jsonAt (removeAll node paths) q).isSome = true) :
    (jsonAt node q).isSome = true := by
  induction paths generalizing node with
  | nil => exact h
  | cons p paths ih => exact isSome_of_removeAt (ih h)

theorem removeAll_append (node : Json) (before after : List Path) :
    removeAll node (before ++ after) = removeAll (removeAll node before) after := foldl_append

theorem removeAll_filter (node : Json) (paths : List Path) : removeAll node paths = removeAll node (paths.filter keysOnly) := by
  induction paths generalizing node with
  | nil => rfl
  | cons p paths ih =>
    by_cases hkeys : keysOnly p = true
    · rw [filter_cons_of_pos hkeys]
      exact ih (removeAt node p)
    · rw [filter_cons_of_neg hkeys]
      show removeAll (removeAt node p) paths = _
      rw [removeAt_of_not_keysOnly (Bool.eq_false_of_not_eq_true hkeys)]
      exact ih node

theorem uniqueFields_filter (keep : String × Json → Bool) (h : uniqueFields fields = true) :
    uniqueFields (fields.filter keep) = true := by
  induction fields with
  | nil => rfl
  | cons field fields ih =>
    obtain ⟨key, kid⟩ := field
    obtain ⟨hkey, hkid, hfields⟩ := uniqueFields_cons.mp h
    by_cases hkeep : keep (key, kid) = true
    · rw [filter_cons_of_pos hkeep]
      refine uniqueFields_cons.mpr ⟨?_, hkid, ih hfields⟩
      rw [lookup_eq_none_iff] at hkey ⊢
      exact fun other hother => hkey other (mem_of_mem_filter hother)
    · rw [filter_cons_of_neg hkeep]
      exact ih hfields

theorem uniqueFields_setField {key : String} {kid : Json} (hkid : uniqueKeys kid = true)
    (h : uniqueFields fields = true) : uniqueFields (setField key kid fields) = true := by
  induction fields with
  | nil => exact uniqueFields_cons.mpr ⟨rfl, hkid, rfl⟩
  | cons field fields ih =>
    obtain ⟨k, v⟩ := field
    obtain ⟨hk, hv, hfields⟩ := uniqueFields_cons.mp h
    rw [setField]
    by_cases heq : k = key
    · rw [if_pos heq]
      exact uniqueFields_cons.mpr ⟨heq ▸ hk, hkid, hfields⟩
    · rw [if_neg heq]
      refine uniqueFields_cons.mpr ⟨?_, hv, ih hfields⟩
      rw [lookup_setField, if_neg heq]
      exact hk

theorem uniqueKeys_removeAt (h : uniqueKeys node = true) : uniqueKeys (removeAt node p) = true := by
  induction p generalizing node with
  | nil => cases node <;> exact h
  | cons segment p ih =>
    cases segment with
    | index i => cases node <;> exact h
    | key key =>
      cases node with
      | obj fields =>
        cases p with
        | nil => exact uniqueFields_filter _ h
        | cons next p =>
          show uniqueKeys (match fields.lookup key with
            | some kid => Json.obj (setField key (removeAt kid (next :: p)) fields)
            | none => Json.obj fields) = true
          cases hkid : fields.lookup key with
          | none => exact h
          | some kid => exact uniqueFields_setField (ih (uniqueKeys_of_lookup h hkid)) h
      | _ => cases p <;> exact h

theorem uniqueKeys_removeAll (h : uniqueKeys node = true) : uniqueKeys (removeAll node paths) = true := by
  induction paths generalizing node with
  | nil => exact h
  | cons p paths ih => exact ih (uniqueKeys_removeAt h)

/-! ### The order of the other keys -/

/-- The keys of a mapping, in their order. -/
def names (node : Json) : List String := (fieldsOf node).map Prod.fst

theorem names_setField {key : String} (value : Json) (h : (fields.lookup key).isSome = true) :
    (setField key value fields).map Prod.fst = fields.map Prod.fst := by
  induction fields with
  | nil => cases h
  | cons field fields ih =>
    obtain ⟨k, v⟩ := field
    rw [setField]
    by_cases hk : k = key
    · rw [if_pos hk, map_cons, map_cons, hk]
    · rw [lookup_cons, beq_false_of_ne (Ne.symm hk)] at h
      rw [if_neg hk, map_cons, map_cons, ih h]

/-- The keys that stay in the mapping at a path. -/
def staying (gone : List Path) (q : Path) (node : Json) : List String :=
  (names node).filter fun name => !gone.contains (q ++ [.key name])

theorem staying_nil (q : Path) (node : Json) : staying [] q node = names node := by
  unfold staying
  rw [List.filter_eq_self]
  intro name _
  rfl

/-- A removal takes one key out of one mapping; the others have the same keys in the same order. -/
theorem names_removeAt {node : Json} {p q : Path} (hkeys : keysOnly p = true) (h : ¬ p <+: q) :
    (jsonAt (removeAt node p) q).map names = (jsonAt node q).map (staying [p] q) := by
  rw [removeAt_eq]
  induction p generalizing node q with
  | nil => exact absurd nil_prefix h
  | cons segment p ih =>
    obtain ⟨hsegment, hrest⟩ : (∃ key, segment = .key key) ∧ keysOnly p = true := by
      cases segment with
      | key key => exact ⟨⟨key, rfl⟩, hkeys⟩
      | index i => cases hkeys
    obtain ⟨key, rfl⟩ := hsegment
    cases q with
    | nil =>
      show some (names (jsonPut node (.key key :: p) none)) = some (staying [.key key :: p] [] node)
      congr 1
      cases node with
      | obj fields =>
        rw [jsonPut, if_neg (by simp [isObject])]
        cases p with
        | nil =>
          show (fields.filter fun field => field.1 ≠ key).map Prod.fst = (fields.map Prod.fst).filter _
          rw [List.filter_map]
          congr 1
          apply filter_congr
          intro field _
          simp
        | cons next p =>
          have hall : staying [.key key :: next :: p] [] (.obj fields) = fields.map Prod.fst := by
            unfold staying
            rw [List.filter_eq_self.mpr fun name _ => by simp]
            rfl
          rw [hall]
          show names (match fields.lookup key with
            | some kid => Json.obj (setField key (jsonPut kid (next :: p) none) fields)
            | none => Json.obj fields) = _
          cases hkid : fields.lookup key with
          | none => rfl
          | some kid => exact names_setField _ (by rw [hkid]; rfl)
      | _ => rfl
    | cons next q =>
      -- The keys below another child are no keys of the removed path.
      have hother : next ≠ .key key → ∀ kid, staying [.key key :: p] (next :: q) kid = names kid := by
        intro hne kid
        unfold staying
        rw [List.filter_eq_self]
        intro name _
        simp [hne]
      show ((childOf _ next).bind _).map names = ((childOf node next).bind _).map _
      cases next with
      | index i =>
        rw [childOf_index_jsonPut_none]
        exact congrArg (fun f => Option.map f _) (funext fun kid => (hother (by simp) kid).symm)
      | key name =>
        rw [childOf_jsonPut_none]
        by_cases hname : name = key
        · subst hname
          have hprefix : ¬ p <+: q := fun hp => h (cons_prefix_cons.mpr ⟨rfl, hp⟩)
          have hne : p ≠ [] := fun hnil => hprefix (hnil ▸ nil_prefix)
          rw [if_pos rfl, if_neg hne]
          have hsame : staying [.key name :: p] (.key name :: q) = staying [p] q := by
            funext kid
            unfold staying
            apply filter_congr
            intro key _
            simp
          rw [hsame]
          cases childOf node (.key name) with
          | none => rfl
          | some kid => exact ih hrest hprefix
        · rw [if_neg hname]
          have hne : Segment.key name ≠ .key key := fun heq => hname (Segment.key.inj heq)
          exact congrArg (fun f => Option.map f _) (funext fun kid => (hother hne kid).symm)

theorem names_removeAll (hkeys : ∀ p ∈ paths, keysOnly p = true)
    (h : ∀ p ∈ paths, ¬ p <+: q) : (jsonAt (removeAll node paths) q).map names = (jsonAt node q).map (staying paths q) := by
  induction paths generalizing node with
  | nil => exact congrArg (fun f => Option.map f (jsonAt node q)) (funext fun kid => (staying_nil q kid).symm)
  | cons p paths ih =>
    have hrest := @ih (removeAt node p) (forall_mem_cons.mp hkeys).2
      (forall_mem_cons.mp h).2
    have hfirst := @names_removeAt node p q (hkeys p mem_cons_self) (h p mem_cons_self)
    show (jsonAt (removeAll (removeAt node p) paths) q).map names = _
    rw [hrest]
    have hstay : ∀ there : Option Json, there.map (staying paths q) =
        (there.map names).map fun keys => keys.filter fun name => !paths.contains (q ++ [.key name]) := by
      intro there
      cases there <;> rfl
    rw [hstay, hfirst, Option.map_map]
    congr 1
    funext kid
    show ((names kid).filter _).filter _ = (names kid).filter _
    rw [List.filter_filter]
    apply filter_congr
    intro name _
    simp [Bool.and_comm]

end Forgent.Config
