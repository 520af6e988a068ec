import Forgent.Replay

/-!
# The members of an object

What a member of an object is after the object was made from members, read back as a value, or written to, and when two
values are the same: `deepEqual` compares them part by part, whatever the order of the members of their objects.
-/

namespace Forgent

open Json List Std.ExtTreeMap

theorem compare_key {a b : String} : compare a b = .eq ↔ a = b := Std.LawfulEqCmp.compare_eq_iff_eq

/-! ### Values and objects -/

theorem lookup_toList {α : Type} (f : Table α) (k : String) : f.toList.lookup k = f[k]? := by
  cases hf : f[k]? with
  | some v =>
    have hmem : (k, v) ∈ f.toList := mem_toList_iff_getElem?_eq_some.mpr hf
    have hdistinct := distinct_keys_toList (t := f)
    revert hmem hdistinct
    generalize f.toList = l
    intro hmem hdistinct
    induction l with
    | nil => cases hmem
    | cons e l ih =>
      obtain ⟨hhead, htail⟩ := pairwise_cons.mp hdistinct
      rcases mem_cons.mp hmem with rfl | hmem
      · simp
      · have hne : (k == e.1) = false := by
          rw [beq_eq_false_iff_ne]
          intro heq
          exact hhead _ hmem (compare_key.mpr heq.symm)
        rw [lookup_cons, hne]
        exact ih hmem htail
  | none =>
    cases hl : f.toList.lookup k with
    | none => rfl
    | some v =>
      have hmem : (k, v) ∈ f.toList := by
        obtain ⟨a, b, hab, _⟩ := lookup_eq_some_iff.mp hl
        rw [hab]
        simp
      rw [mem_toList_iff_getElem?_eq_some, hf] at hmem
      cases hmem

@[simp] theorem member_toJson (f : Fields) (k : String) : member (some f.toJson) k = f[k]? := lookup_toList f k

@[simp] theorem spread_toJson (f : Fields) : spread (some f.toJson) = f := by
  apply Std.ExtTreeMap.ext_getElem?
  intro k
  show (Std.ExtTreeMap.ofList f.toList.reverse)[k]? = f[k]?
  cases hf : f[k]? with
  | some v =>
    refine getElem?_ofList_of_mem (compare_key.mpr rfl) ?_
      (mem_reverse.mpr (mem_toList_iff_getElem?_eq_some.mpr hf))
    rw [pairwise_reverse]
    exact distinct_keys_toList.imp fun h heq =>
      h (compare_key.mpr (compare_key.mp heq).symm)
  | none =>
    refine getElem?_ofList_of_contains_eq_false ?_
    rw [contains_eq_any_beq, List.any_eq_false]
    intro a ha
    obtain ⟨e, he, rfl⟩ := List.mem_map.mp ha
    rw [beq_iff_eq]
    intro heq
    have hmem : (k, e.2) ∈ f.toList := by
      rw [heq]
      exact mem_reverse.mp he
    rw [mem_toList_iff_getElem?_eq_some, hf] at hmem
    cases hmem

/-! ### Writing members -/

namespace Fields

variable (f : Fields) (k k' : String) (v : Option Json)

@[simp] theorem getElem?_keep : (f.keep k v)[k']? = if k = k' then v.or f[k']? else f[k']? := by
  cases v with
  | none =>
    show f[k']? = _
    split <;> rfl
  | some v =>
    show (f.insert k v)[k']? = _
    rw [Std.ExtTreeMap.getElem?_insert]
    simp only [compare_key, Option.some_or]

@[simp] theorem getElem?_set : (f.set k v)[k']? = if k = k' then v else f[k']? := by
  cases v with
  | none =>
    show (f.erase k)[k']? = _
    rw [getElem?_erase]
    simp only [compare_key]
  | some v =>
    show (f.insert k v)[k']? = _
    rw [Std.ExtTreeMap.getElem?_insert]
    simp only [compare_key]

@[simp] theorem getElem?_insert' (v : Json) : (f.insert k v)[k']? = if k = k' then some v else f[k']? := by
  rw [Std.ExtTreeMap.getElem?_insert]
  simp only [compare_key]

@[simp] theorem getElem?_erase' : (f.erase k)[k']? = if k = k' then none else f[k']? := by
  rw [getElem?_erase]
  simp only [compare_key]

theorem getElem?_keepAll (payload : Option Json) (keys : List String) :
    (f.keepAll payload keys)[k]? = if k ∈ keys then (member payload k).or f[k]? else f[k]? := by
  induction keys generalizing f with
  | nil => rfl
  | cons key keys ih =>
    show ((f.keep key (member payload key)).keepAll payload keys)[k]? = _
    rw [ih, getElem?_keep]
    by_cases hkey : key = k
    · subst hkey
      simp only [if_true, mem_cons_self]
      split
      · cases member payload key <;> rfl
      · rfl
    · have hmem : k ∈ key :: keys ↔ k ∈ keys := by simp [Ne.symm hkey]
      simp only [hkey, if_false, hmem]

theorem getElem?_assign (other : Fields) : (f.assign other)[k]? = other[k]?.or f[k]? := by
  show (f.insertMany other.toList)[k]? = _
  cases hother : other[k]? with
  | some v =>
    exact getElem?_insertMany_list_of_mem (compare_key.mpr rfl)
      distinct_keys_toList (mem_toList_iff_getElem?_eq_some.mpr hother)
  | none =>
    refine getElem?_insertMany_list_of_contains_eq_false ?_
    rw [contains_eq_any_beq, List.any_eq_false]
    intro a ha
    obtain ⟨e, he, rfl⟩ := List.mem_map.mp ha
    rw [beq_iff_eq]
    intro heq
    have hmem : (k, e.2) ∈ other.toList := by
      rw [heq]
      exact he
    rw [mem_toList_iff_getElem?_eq_some, hother] at hmem
    cases hmem

end Fields

theorem getElem?_spread_obj (fields : List (String × Json)) (k : String) :
    (spread (some (.obj fields)))[k]? = fields.lookup k := by
  induction fields with
  | nil => simp [spread]
  | cons e rest ih =>
    have hstep : spread (some (.obj (e :: rest))) = (spread (some (.obj rest))).insert e.1 e.2 := by
      show Std.ExtTreeMap.ofList (e :: rest).reverse = (Std.ExtTreeMap.ofList rest.reverse).insert e.1 e.2
      rw [reverse_cons, ofList_eq_insertMany_empty, ofList_eq_insertMany_empty, insertMany_append]
      rfl
    rw [hstep, Fields.getElem?_insert', ih, lookup_cons]
    by_cases heq : e.1 = k
    · simp [heq]
    · have hne : (k == e.1) = false := beq_eq_false_iff_ne.mpr (Ne.symm heq)
      simp [heq, hne]

theorem getElem?_record (members : List (String × Option Json)) (hnames : (members.map Prod.fst).Nodup) (k : String) :
    (record members)[k]? = (members.lookup k).join := by
  have hgen : ∀ f : Fields, (∀ m ∈ members, f[m.1]? = none) →
      (members.foldl (fun f m => f.keep m.1 m.2) f)[k]? = (members.lookup k).join.or f[k]? := by
    induction members with
    | nil => intro f _; rfl
    | cons m members ih =>
      intro f hf
      rw [map_cons, nodup_cons] at hnames
      rw [foldl_cons, ih hnames.2, Fields.getElem?_keep, lookup_cons]
      · by_cases hk : k = m.1
        · subst hk
          have hnone : members.lookup m.1 = none := by
            rw [lookup_eq_none_iff]
            intro e he
            rw [bne_iff_ne]
            exact fun heq => hnames.1 (heq ▸ List.mem_map_of_mem he)
          simp [hnone]
        · have hbeq : (k == m.1) = false := beq_eq_false_iff_ne.mpr hk
          simp only [Ne.symm hk, if_false, hbeq]
      · intro e he
        have hne : m.1 ≠ e.1 := fun heq => hnames.1 (heq ▸ List.mem_map_of_mem he)
        rw [Fields.getElem?_keep, if_neg hne]
        exact hf e (mem_cons_of_mem m he)
  rw [record, hgen ∅ (by simp)]
  simp

/-! ### Two values that are the same -/

namespace Json

mutual

/-- The value with the members of every object in the order of their names. -/
def canonical : Json → Json
  | .arr items => .arr (canonicalItems items)
  | .obj fields => (spread (some (.obj (canonicalFields fields)))).toJson
  | .null => .null
  | .bool b => .bool b
  | .num n => .num n
  | .str s => .str s

def canonicalItems : List Json → List Json
  | [] => []
  | v :: rest => canonical v :: canonicalItems rest

def canonicalFields : List (String × Json) → List (String × Json)
  | [] => []
  | (k, v) :: rest => (k, canonical v) :: canonicalFields rest

end

def deepEqual (a b : Json) : Bool := canonical a = canonical b

theorem deepEqual_iff {a b : Json} : deepEqual a b = true ↔ canonical a = canonical b := decide_eq_true_iff

theorem deepEqual_refl (a : Json) : deepEqual a a = true := deepEqual_iff.mpr rfl

theorem deepEqual_symm {a b : Json} (h : deepEqual a b = true) : deepEqual b a = true :=
  deepEqual_iff.mpr (deepEqual_iff.mp h).symm

theorem deepEqual_trans {a b c : Json} (hab : deepEqual a b = true) (hbc : deepEqual b c = true) : deepEqual a c = true :=
  deepEqual_iff.mpr ((deepEqual_iff.mp hab).trans (deepEqual_iff.mp hbc))

end Json

end Forgent
