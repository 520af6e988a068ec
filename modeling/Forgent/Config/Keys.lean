import Forgent.Config.Leaves
import Forgent.Config.Through

/-!
# Keys that belong in another file

`packages/config/rust/src/relocate.rs`: the account pools and the gateway token in the global file, what their destination
holds of them, and their removal.  A key is found at the topmost path whose schema node lives in the accounts or the token
file; whether it does depends on the path alone.
-/

namespace Forgent.Config

open List Option

/-! ### What is visited below a value -/

section Visited

variable {visit : Path → Json → Bool} {path : Path} {segment : Segment} {kid value : Json} {entry : Path × Json}
  {fields : List (String × Json)} {items : List Json} {i : ℕ}

theorem cases_visited
    (h : entry ∈ (path ++ [segment], kid) :: if visit (path ++ [segment]) kid then descend visit (path ++ [segment]) kid else []) :
    entry = (path ++ [segment], kid) ∨ visit (path ++ [segment]) kid = true ∧ entry ∈ descend visit (path ++ [segment]) kid := by
  cases mem_cons.mp h with
  | inl hself => exact .inl hself
  | inr hbelow =>
    split at hbelow
    · next hvisit => exact .inr ⟨hvisit, hbelow⟩
    · cases hbelow

theorem cases_descendFields (hunique : uniqueFields fields = true)
    (h : entry ∈ descendFields visit path fields) : ∃ name kid, fields.lookup name = some kid ∧
      (entry = (path ++ [.key name], kid) ∨
        visit (path ++ [.key name]) kid = true ∧ entry ∈ descend visit (path ++ [.key name]) kid) := by
  induction fields with
  | nil => cases h
  | cons field fields ih =>
    obtain ⟨key, value⟩ := field
    obtain ⟨hkey, -, hfields⟩ := uniqueFields_cons.mp hunique
    rw [descendFields] at h
    cases mem_append.mp h with
    | inl hfirst => exact ⟨key, value, lookup_cons_self, cases_visited hfirst⟩
    | inr hrest =>
      obtain ⟨name, kid, hname, hentry⟩ := ih hfields hrest
      have hne : name ≠ key := fun heq => by
        rw [heq, hkey] at hname
        cases hname
      exact ⟨name, kid, by rwa [lookup_cons, beq_false_of_ne hne], hentry⟩

theorem cases_descendItems (h : entry ∈ descendItems visit path i items) : ∃ j kid, items[j]? = some kid ∧
      (entry = (path ++ [.index (i + j)], kid) ∨
        visit (path ++ [.index (i + j)]) kid = true ∧ entry ∈ descend visit (path ++ [.index (i + j)]) kid) := by
  induction items generalizing i with
  | nil => cases h
  | cons value items ih =>
    rw [descendItems] at h
    cases mem_append.mp h with
    | inl hfirst => exact ⟨0, value, rfl, cases_visited hfirst⟩
    | inr hrest =>
      obtain ⟨j, kid, hitem, hentry⟩ := ih hrest
      rw [Nat.add_assoc, Nat.add_comm 1 j] at hentry
      exact ⟨j + 1, kid, hitem, hentry⟩

theorem cases_descend (hunique : uniqueKeys value = true) (h : entry ∈ descend visit path value) :
    ∃ segment kid, childOf value segment = some kid ∧
      (entry = (path ++ [segment], kid) ∨ visit (path ++ [segment]) kid = true ∧ entry ∈ descend visit (path ++ [segment]) kid) := by
  cases value with
  | obj fields =>
    obtain ⟨name, kid, hkid, hentry⟩ := cases_descendFields hunique h
    exact ⟨.key name, kid, hkid, hentry⟩
  | arr items =>
    obtain ⟨j, kid, hkid, hentry⟩ := cases_descendItems h
    rw [Nat.zero_add] at hentry
    exact ⟨.index j, kid, hkid, hentry⟩
  | _ => cases h

theorem uniqueKeys_of_lookup {name : String} (h : uniqueFields fields = true)
    (hkid : fields.lookup name = some kid) : uniqueKeys kid = true := by
  induction fields with
  | nil => cases hkid
  | cons field fields ih =>
    obtain ⟨key, value⟩ := field
    obtain ⟨-, hvalue, hfields⟩ := uniqueFields_cons.mp h
    rw [lookup_cons] at hkid
    split at hkid
    · exact some.inj hkid ▸ hvalue
    · exact ih hfields hkid

theorem uniqueKeys_of_getElem? (h : uniqueItems items = true)
    (hkid : items[i]? = some kid) : uniqueKeys kid = true := by
  induction items generalizing i with
  | nil => cases hkid
  | cons value items ih =>
    obtain ⟨hvalue, hitems⟩ := Bool.and_eq_true_iff.mp h
    cases i with
    | zero => exact some.inj hkid ▸ hvalue
    | succ i => exact ih hitems hkid

theorem uniqueKeys_childOf (h : uniqueKeys value = true)
    (hkid : childOf value segment = some kid) : uniqueKeys kid = true := by
  cases value with
  | obj fields =>
    cases segment with
    | key name => exact uniqueKeys_of_lookup h hkid
    | index i => cases hkid
  | arr items =>
    cases segment with
    | key name => cases hkid
    | index i => exact uniqueKeys_of_getElem? h hkid
  | _ => cases segment <;> cases hkid

theorem uniqueKeys_jsonAt {node : Json} {p : Path} (h : uniqueKeys value = true) (hnode : jsonAt value p = some node) :
    uniqueKeys node = true := by
  induction p generalizing value with
  | nil =>
    obtain rfl : value = node := some.inj hnode
    exact h
  | cons segment p ih =>
    obtain ⟨kid, hkid, hrest⟩ := bind_eq_some_iff.mp hnode
    exact ih (uniqueKeys_childOf h hkid) hrest

theorem sizeOf_childOf {value kid : Json} {segment : Segment} (h : childOf value segment = some kid) : sizeOf kid < sizeOf value := by
  cases value with
  | obj fields =>
    cases segment with
    | index i => cases h
    | key name =>
      obtain ⟨before, after, hfields, -⟩ := lookup_eq_some_iff.mp h
      have hmem : (name, kid) ∈ fields := by
        rw [hfields]
        simp
      have hlt := sizeOf_lt_of_mem hmem
      simp only [Json.obj.sizeOf_spec, Prod.mk.sizeOf_spec] at hlt ⊢
      omega
  | arr items =>
    cases segment with
    | key name => cases h
    | index i =>
      have hlt := sizeOf_lt_of_mem (mem_of_getElem? h)
      simp only [Json.arr.sizeOf_spec]
      omega
  | _ => cases segment <;> cases h

/-- What is visited is held where its path says, and the visitor asked to look below every node above it. -/
theorem of_mem_descend {value : Json} {path : Path} {entry : Path × Json} (hunique : uniqueKeys value = true)
    (h : entry ∈ descend visit path value) : ∃ rest, rest ≠ [] ∧ entry.1 = path ++ rest ∧ jsonAt value rest = some entry.2 ∧
      ∀ front back, rest = front ++ back → front ≠ [] → back ≠ [] → ∃ kid, jsonAt value front = some kid ∧ visit (path ++ front) kid = true := by
  obtain ⟨segment, kid, hkid, hentry⟩ := cases_descend hunique h
  cases hentry with
  | inl hself =>
    subst hself
    refine ⟨[segment], cons_ne_nil _ _, rfl, by rw [jsonAt_singleton]; exact hkid, fun front back hsplit hfront hback => ?_⟩
    have hlength := congrArg List.length hsplit
    rw [length_append, length_singleton] at hlength
    have hfront' := length_pos_of_ne_nil hfront
    have hback' := length_pos_of_ne_nil hback
    omega
  | inr hbelow =>
    obtain ⟨hvisit, hmem⟩ := hbelow
    have hlt := sizeOf_childOf hkid
    obtain ⟨rest, hne, hpath, hat, habove⟩ := of_mem_descend (uniqueKeys_childOf hunique hkid) hmem
    have hdown : ∀ p, jsonAt value (segment :: p) = jsonAt kid p := fun p => by
      show (childOf value segment).bind _ = _
      rw [hkid]
      rfl
    refine ⟨segment :: rest, cons_ne_nil _ _, by rw [hpath, append_assoc]; rfl, by rw [hdown, hat], ?_⟩
    intro front back hsplit hfront hback
    cases front with
    | nil => exact absurd rfl hfront
    | cons first front =>
      obtain ⟨rfl, hrest⟩ := List.cons.inj hsplit
      by_cases hnil : front = []
      · subst hnil
        exact ⟨kid, by rw [hdown]; rfl, hvisit⟩
      · obtain ⟨below, hbelow, hvisits⟩ := habove front back hrest hnil hback
        rw [append_assoc] at hvisits
        exact ⟨below, by rw [hdown, hbelow], hvisits⟩
  termination_by sizeOf value

theorem path_of_visited (hunique : uniqueKeys kid = true)
    (h : entry = (path ++ [segment], kid) ∨ visit (path ++ [segment]) kid = true ∧ entry ∈ descend visit (path ++ [segment]) kid) :
    ∃ rest, entry.1 = path ++ segment :: rest := by
  cases h with
  | inl hself => exact ⟨[], congrArg Prod.fst hself⟩
  | inr hbelow =>
    obtain ⟨rest, -, hrest, -⟩ := of_mem_descend hunique hbelow.2
    exact ⟨rest, by rw [hrest, append_assoc]; rfl⟩

theorem nodup_visited (hunique : uniqueKeys kid = true)
    (hbelow : ((descend visit (path ++ [segment]) kid).map Prod.fst).Nodup) :
    (((path ++ [segment], kid) :: if visit (path ++ [segment]) kid then descend visit (path ++ [segment]) kid else []).map
      Prod.fst).Nodup := by
  rw [map_cons, nodup_cons]
  split
  · refine ⟨fun hmem => ?_, hbelow⟩
    obtain ⟨entry, hentry, hpath⟩ := List.mem_map.mp hmem
    obtain ⟨rest, hne, hrest, -⟩ := of_mem_descend hunique hentry
    rw [hpath] at hrest
    exact hne (self_eq_append_right.mp hrest)
  · exact ⟨not_mem_nil, nodup_nil⟩

theorem nodup_descendFields (hunique : uniqueFields fields = true)
    (hbelow : ∀ name kid, fields.lookup name = some kid → ((descend visit (path ++ [.key name]) kid).map Prod.fst).Nodup) :
    ((descendFields visit path fields).map Prod.fst).Nodup := by
  induction fields with
  | nil => exact nodup_nil
  | cons field fields ih =>
    obtain ⟨key, value⟩ := field
    obtain ⟨hkey, hvalue, hfields⟩ := uniqueFields_cons.mp hunique
    rw [descendFields, map_append, nodup_append]
    refine ⟨nodup_visited hvalue (hbelow key value lookup_cons_self), ih hfields fun name kid hkid => hbelow name kid ?_,
      fun p hp q hq heq => ?_⟩
    · have hne : name ≠ key := fun heq => by
        rw [heq, hkey] at hkid
        cases hkid
      rwa [lookup_cons, beq_false_of_ne hne]
    · subst heq
      obtain ⟨first, hfirst, rfl⟩ := List.mem_map.mp hp
      obtain ⟨other, hother, hpath⟩ := List.mem_map.mp hq
      obtain ⟨rest, hrest⟩ := path_of_visited hvalue (cases_visited hfirst)
      obtain ⟨name, kid, hname, hentry⟩ := cases_descendFields hfields hother
      obtain ⟨rest', hrest'⟩ := path_of_visited (uniqueKeys_of_lookup hfields hname) hentry
      rw [hrest, hrest'] at hpath
      obtain ⟨hsegment, -⟩ := List.cons.inj (append_cancel_left hpath)
      rw [Segment.key.inj hsegment, hkey] at hname
      cases hname

theorem nodup_descendItems (hunique : uniqueItems items = true)
    (hbelow : ∀ j kid, items[j]? = some kid → ((descend visit (path ++ [.index (i + j)]) kid).map Prod.fst).Nodup) :
    ((descendItems visit path i items).map Prod.fst).Nodup := by
  induction items generalizing i with
  | nil => exact nodup_nil
  | cons value items ih =>
    obtain ⟨hvalue, hitems⟩ := Bool.and_eq_true_iff.mp hunique
    rw [descendItems, map_append, nodup_append]
    refine ⟨nodup_visited hvalue (hbelow 0 value rfl), ih hitems fun j kid hkid => ?_, fun p hp q hq heq => ?_⟩
    · rw [Nat.add_assoc, Nat.add_comm 1 j]
      exact hbelow (j + 1) kid hkid
    · subst heq
      obtain ⟨first, hfirst, rfl⟩ := List.mem_map.mp hp
      obtain ⟨other, hother, hpath⟩ := List.mem_map.mp hq
      obtain ⟨rest, hrest⟩ := path_of_visited hvalue (cases_visited hfirst)
      obtain ⟨j, kid, hitem, hentry⟩ := cases_descendItems hother
      obtain ⟨rest', hrest'⟩ := path_of_visited (uniqueKeys_of_getElem? hitems hitem) hentry
      rw [hrest, hrest'] at hpath
      obtain ⟨hsegment, -⟩ := List.cons.inj (append_cancel_left hpath)
      have hindex := Segment.index.inj hsegment
      omega

theorem nodup_descend {value : Json} {path : Path} (hunique : uniqueKeys value = true) :
    ((descend visit path value).map Prod.fst).Nodup := by
  cases value with
  | obj fields =>
    refine nodup_descendFields hunique fun name kid hkid => ?_
    have hlt := @sizeOf_childOf (.obj fields) kid (.key name) hkid
    exact nodup_descend (uniqueKeys_of_lookup hunique hkid)
  | arr items =>
    refine nodup_descendItems hunique fun j kid hkid => ?_
    have hlt := @sizeOf_childOf (.arr items) kid (.index j) hkid
    exact nodup_descend (uniqueKeys_of_getElem? hunique hkid)
  | _ => exact nodup_nil
  termination_by sizeOf value

end Visited

/-! ### The keys to move -/

/-- A key of the source: `token` says that its destination is the token file and not the accounts file. -/
structure Key where
  path : Path
  token : Bool
  value : Json
deriving DecidableEq

section Keys

variable (schemas : Schemas) {json : Json}

/-- The file that a path lives in, where its schema node is known. -/
def fileAt (path : Path) : Option String := (resolve schemas path).map Resolved.file

def moves (path : Path) : Bool := fileAt schemas path = some "accounts" || fileAt schemas path = some "token"

def keyOf (entry : Path × Json) : Option Key :=
  if moves schemas entry.1 then some ⟨entry.1, fileAt schemas entry.1 = some "token", entry.2⟩ else none

/-- The topmost keys of the source whose schema node lives in the accounts or the token file. -/
def keysIn (json : Json) : List Key := (descend (fun path _ => !moves schemas path) [] json).filterMap (keyOf schemas)

/-- `token::line` of a text and a newline: printable ASCII without a space, 1 to 512 characters. -/
def isTokenLine (text : String) : Bool :=
  (text.toList.all fun c => 0x21 ≤ c.toNat && c.toNat ≤ 0x7e) && 1 ≤ text.length && text.length ≤ 512

def keys (json : Json) : Except (List Refusal) (List Key) :=
  if (keysIn schemas json).any fun key => key.token && carries key.value && !key.value.asStr.any isTokenLine then
    .error [⟨"config-token-invalid", [], none, some "shape"⟩]
  else .ok (keysIn schemas json)

/-- A path of a key: its file is another one, and that of no path above it is. -/
def Topmost (path : Path) : Prop :=
  moves schemas path = true ∧ ∀ front back, path = front ++ back → front ≠ [] → back ≠ [] → moves schemas front = false

variable {schemas}

theorem not_moves_nil : moves schemas [] = false := rfl

theorem Topmost.ne_nil {path : Path} (h : Topmost schemas path) : path ≠ [] := by
  rintro rfl
  have hmoves := h.1
  rw [not_moves_nil] at hmoves
  cases hmoves

theorem Topmost.eq_of_prefix {p q : Path} (hp : Topmost schemas p) (hq : Topmost schemas q) (h : p <+: q) : p = q := by
  obtain ⟨rest, rfl⟩ := h
  by_contra hne
  have hrest : rest ≠ [] := fun hnil => hne (by rw [hnil, append_nil])
  have hnot := hq.2 p rest rfl hp.ne_nil hrest
  rw [hp.1] at hnot
  cases hnot

theorem Topmost.unrelated {p q : Path} (hp : Topmost schemas p) (hq : Topmost schemas q) (hne : p ≠ q) : Unrelated p q :=
  ⟨fun h => hne (hp.eq_of_prefix hq h), fun h => hne (hq.eq_of_prefix hp h).symm⟩

theorem mem_keysIn (hunique : uniqueKeys json = true) {key : Key} :
    key ∈ keysIn schemas json ↔ Topmost schemas key.path ∧ jsonAt json key.path = some key.value ∧
      key.token = decide (fileAt schemas key.path = some "token") := by
  unfold keysIn
  rw [mem_filterMap]
  constructor
  · intro h
    obtain ⟨entry, hentry, hkey⟩ := h
    obtain ⟨rest, -, hpath, hat, habove⟩ := of_mem_descend hunique hentry
    rw [nil_append] at hpath
    unfold keyOf at hkey
    split at hkey
    · next hmoves =>
      cases hkey
      refine ⟨⟨hmoves, fun front back hsplit hfront hback => ?_⟩, hpath ▸ hat, rfl⟩
      obtain ⟨kid, -, hvisit⟩ := habove front back (hpath ▸ hsplit) hfront hback
      rwa [nil_append, Bool.not_eq_true'] at hvisit
    · cases hkey
  · intro h
    obtain ⟨htop, hat, htoken⟩ := h
    refine ⟨(key.path, key.value), ?_, ?_⟩
    · have hmem := @mem_descend (fun path _ => !moves schemas path) [] json key.value key.path hat htop.ne_nil
        fun front back kid hsplit hfront hback _ => by
          rw [nil_append, htop.2 front back hsplit hfront hback]
          rfl
      rwa [nil_append] at hmem
    · rw [keyOf, if_pos htop.1, ← htoken]

theorem keysIn_pairwise (hunique : uniqueKeys json = true) :
    (keysIn schemas json).Pairwise fun a b => Unrelated a.path b.path := by
  have hnodup := @nodup_descend (fun path _ => !moves schemas path) json [] hunique
  have hpaths : (keysIn schemas json).Pairwise fun a b => a.path ≠ b.path := by
    rw [List.Nodup, pairwise_map] at hnodup
    refine List.Pairwise.filterMap (keyOf schemas) (fun a a' hne b hb b' hb' => ?_) hnodup
    unfold keyOf at hb hb'
    split at hb
    · split at hb'
      · cases hb
        cases hb'
        exact hne
      · cases hb'
    · cases hb
  refine hpaths.imp_of_mem fun ha hb hne => ?_
  exact ((mem_keysIn hunique).mp ha).1.unrelated ((mem_keysIn hunique).mp hb).1 hne

theorem keys_ok {found : List Key} (h : keys schemas json = .ok found) : found = keysIn schemas json ∧
    ∀ key ∈ found, key.token = true → carries key.value = true → ∃ text, key.value = .str text ∧ isTokenLine text = true := by
  unfold keys at h
  split at h
  · cases h
  · next hvalid =>
    cases h
    refine ⟨rfl, fun key hkey htoken hcarries => ?_⟩
    have hnot := Bool.eq_false_of_not_eq_true fun hany => hvalid hany
    have hkey' := List.any_eq_false.mp hnot key hkey
    rw [htoken, hcarries] at hkey'
    cases hvalue : key.value with
    | str text =>
      refine ⟨text, rfl, ?_⟩
      rw [hvalue] at hkey'
      simpa [Json.asStr] using hkey'
    | _ =>
      rw [hvalue] at hkey'
      simp [Json.asStr] at hkey'

end Keys

end Forgent.Config
