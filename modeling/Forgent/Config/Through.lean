import Forgent.Config.Tighten

/-!
# Through the layers above

A layer that has nothing at a path, and only mappings merged key by key above it, lets the value of a layer beneath through.
Removing another path from a layer leaves that value in place.
-/

namespace Forgent.Config

open List Option

section Through

variable {rules : Path → Option MergeRule} {path rest : Path} {layer : Json} {segment : Segment}

/-- A layer with only mappings merged key by key above a path, and nothing at it. -/
def LetsThrough (rules : Path → Option MergeRule) (path : Path) (layer : Json) (rest : Path) : Prop :=
  (∀ front back node, rest = front ++ back → back ≠ [] → jsonAt layer front = some node →
    isObject node = true ∧ ruleFor rules (path ++ front) node = .deep) ∧ jsonAt layer rest = none

theorem LetsThrough.top {path rest : Path}
    (h : LetsThrough rules path layer (segment :: rest)) : isObject layer = true ∧ ruleFor rules path layer = .deep := by
  have htop := h.1 [] (segment :: rest) layer rfl (by simp) rfl
  rwa [append_nil] at htop

theorem LetsThrough.child {kid : Json}
    (h : LetsThrough rules path layer (segment :: rest)) (hkid : childOf layer segment = some kid) :
    LetsThrough rules (path ++ [segment]) kid rest := by
  refine ⟨fun front back node hsplit hback hnode => ?_, ?_⟩
  · rw [append_assoc]
    apply h.1 (segment :: front) back node (by rw [hsplit]; rfl) hback
    show (childOf layer segment).bind _ = _
    rw [hkid]
    exact hnode
  · have hnone := h.2
    rwa [jsonAt, hkid] at hnone

theorem LetsThrough.longer (h : LetsThrough rules path layer rest) (more : Path) :
    LetsThrough rules path layer (rest ++ more) := by
  refine ⟨fun front back node hsplit hback hnode => ?_, ?_⟩
  · cases append_eq_append_iff.mp hsplit with
    | inl hinside =>
      obtain ⟨middle, hfront, -⟩ := hinside
      rw [hfront, jsonAt_append, h.2] at hnode
      cases hnode
    | inr hinside =>
      obtain ⟨middle, hrest, -⟩ := hinside
      cases middle with
      | nil =>
        rw [append_nil] at hrest
        rw [← hrest, h.2] at hnode
        cases hnode
      | cons segment middle => exact h.1 front (segment :: middle) node hrest (by simp) hnode
  · rw [jsonAt_append, h.2]
    rfl

theorem takeWhile_append_of_forall {above below : List Json} {top : Json} (habove : ∀ layer ∈ above, nonNull layer = true)
    (htop : nonNull top = true) :
    (above ++ top :: below).takeWhile nonNull = above ++ top :: below.takeWhile nonNull := by
  rw [takeWhile_append_of_pos habove, takeWhile_cons_of_pos htop]

/-- A value that is taken whole is in force where the layers above let its path through. -/
theorem merge_reaches_through {depth : ℕ} {above below : List Json} {top merged value : Json}
    (hmerged : mergeNode rules depth path (above ++ top :: below) = .ok merged)
    (habove : ∀ layer ∈ above, LetsThrough rules path layer rest) (hat : jsonAt top rest = some value)
    (hwhole : ruleFor rules (path ++ rest) value ≠ .deep ∨ isObject value = false) : jsonAt merged rest = some value := by
  induction rest generalizing depth path above below top merged with
  | nil =>
    obtain rfl : top = value := some.inj hat
    rw [append_nil] at hwhole
    cases above with
    | cons layer above =>
      have hnone := (habove layer mem_cons_self).2
      cases hnone
    | nil =>
      cases depth with
      | zero => cases hmerged
      | succ depth =>
        rw [mergeNode_whole hmerged hwhole]
        rfl
  | cons segment rest ih =>
    cases depth with
    | zero => cases hmerged
    | succ depth =>
      have hnull : nonNull top = true := by
        cases top with
        | null => cases segment <;> cases hat
        | _ => rfl
      by_cases htop : above = [] ∧ (ruleFor rules path top ≠ .deep ∨ isObject top = false)
      · obtain ⟨rfl, hself⟩ := htop
        rw [mergeNode_whole hmerged hself]
        exact hat
      · -- The first layer is a mapping that is merged key by key.
        have hdeep : isObject top = true ∧ DeepMerge rules depth path (above ++ top :: below.takeWhile nonNull) merged := by
          cases above with
          | nil =>
            have hself : ¬ (ruleFor rules path top ≠ .deep ∨ isObject top = false) := fun hself => htop ⟨rfl, hself⟩
            rw [not_or, not_not, Bool.not_eq_false] at hself
            exact ⟨hself.2, (mergeNode_deep hmerged hself.1 hself.2).2⟩
          | cons layer above =>
            obtain ⟨hobject, hrule⟩ := (habove layer mem_cons_self).top
            obtain ⟨hobjects, hmerge⟩ := mergeNode_deep hmerged hrule hobject
            have hcut : (above ++ top :: below).takeWhile nonNull = above ++ top :: below.takeWhile nonNull :=
              takeWhile_append_of_forall
                (fun other hother => ne_null_of_isObject (habove other (mem_cons_of_mem _ hother)).top.1) hnull
            change ∀ other ∈ (above ++ top :: below).takeWhile nonNull, _ at hobjects
            change DeepMerge rules depth path (layer :: (above ++ top :: below).takeWhile nonNull) merged at hmerge
            rw [hcut] at hobjects hmerge
            exact ⟨hobjects top (by simp), hmerge⟩
        obtain ⟨hobject, hmerge⟩ := hdeep
        obtain ⟨kid, hkid, hrest⟩ := bind_eq_some_iff.mp hat
        cases segment with
        | index i =>
          rw [childOf_index_of_isObject hobject] at hkid
          cases hkid
        | key key =>
          have hholders : holders (above ++ top :: below.takeWhile nonNull) key =
              holders above key ++ kid :: holders (below.takeWhile nonNull) key := by
            rw [holders_append, holders_cons, hkid]
            rfl
          obtain ⟨kidmerged, hkidmerged, hkidmerge⟩ := hmerge.child key (by rw [hholders]; simp)
          rw [hholders] at hkidmerge
          show (childOf merged (.key key)).bind _ = _
          rw [hkidmerged]
          apply ih hkidmerge _ hrest
          · rwa [append_assoc]
          · intro layer hlayer
            obtain ⟨whole, hmem, hchild⟩ := mem_filterMap.mp hlayer
            exact (habove whole hmem).child hchild

end Through

/-! ### What is removed elsewhere -/

theorem setField_self {fields : List (String × Json)} {key : String} {value : Json} (h : fields.lookup key = some value) :
    setField key value fields = fields := by
  induction fields with
  | nil => cases h
  | cons field fields ih =>
    obtain ⟨k, v⟩ := field
    rw [setField]
    by_cases hk : k = key
    · subst hk
      rw [lookup_cons_self] at h
      rw [if_pos rfl, some.inj h]
    · rw [lookup_cons, beq_false_of_ne (Ne.symm hk)] at h
      rw [if_neg hk, ih h]

variable {node : Json} {q : Path}

theorem jsonPut_key_none (fields : List (String × Json)) (key : String) (next : Segment) (q : Path) :
    jsonPut (.obj fields) (.key key :: next :: q) none = ((fields.lookup key).elim (.obj fields) fun child =>
      .obj (setField key (jsonPut child (next :: q) none) fields)) := by
  rw [jsonPut, if_neg (by simp [isObject])]
  dsimp only [fieldsOf]
  cases fields.lookup key <;> rfl

theorem jsonPut_none_self (h : (∃ i, Segment.index i ∈ q) ∨ jsonAt node q = none) : jsonPut node q none = node := by
  induction q generalizing node with
  | nil => rfl
  | cons segment q ih =>
    cases segment with
    | index i => rfl
    | key key =>
      cases node with
      | obj fields =>
        cases q with
        | nil =>
          rw [jsonPut, if_neg (by simp [isObject])]
          have hnone : fields.lookup key = none := by
            cases h with
            | inl hindex =>
              obtain ⟨i, hi⟩ := hindex
              cases mem_singleton.mp hi
            | inr hnone => rwa [jsonAt_singleton] at hnone
          show Json.obj (fields.filter _) = _
          congr 1
          rw [List.filter_eq_self]
          intro field hfield
          have hne := lookup_eq_none_iff.mp hnone field hfield
          simpa using Ne.symm (bne_iff_ne.mp hne)
        | cons next q =>
          rw [jsonPut_key_none]
          cases hkid : fields.lookup key with
          | none => rfl
          | some kid =>
            have hsame : jsonPut kid (next :: q) none = kid := by
              apply ih
              cases h with
              | inl hindex =>
                obtain ⟨i, hi⟩ := hindex
                exact .inl ⟨i, (mem_cons.mp hi).resolve_left (by simp)⟩
              | inr hnone =>
                right
                change (fields.lookup key).bind _ = none at hnone
                rwa [hkid] at hnone
            show Json.obj (setField key (jsonPut kid (next :: q) none) fields) = _
            rw [hsame, setField_self hkid]
      | _ => rfl

theorem childOf_jsonPut_none (node : Json) (key name : String) (q : Path) :
    childOf (jsonPut node (.key key :: q) none) (.key name) =
      if name = key then (if q = [] then none else (childOf node (.key key)).map (jsonPut · q none))
      else childOf node (.key name) := by
  cases node with
  | obj fields =>
    cases q with
    | nil =>
      rw [jsonPut, if_neg (by simp [isObject])]
      show (fields.filter fun field => field.1 ≠ key).lookup name = _
      by_cases hname : name = key
      · rw [if_pos hname, if_pos rfl, lookup_eq_none_iff]
        intro field hfield
        have hne : field.1 ≠ key := of_decide_eq_true (mem_filter.mp hfield).2
        exact bne_iff_ne.mpr fun heq => hne (heq.symm.trans hname)
      · rw [if_neg hname]
        show (fields.filter fun field => field.1 ≠ key).lookup name = fields.lookup name
        induction fields with
        | nil => rfl
        | cons field fields ih =>
          obtain ⟨k, v⟩ := field
          by_cases hk : k = key
          · rw [filter_cons_of_neg (by simp [hk]), ih, lookup_cons, beq_false_of_ne (hk ▸ hname)]
          · rw [filter_cons_of_pos (by simp [hk]), lookup_cons, lookup_cons, ih]
    | cons next q =>
      rw [jsonPut_key_none]
      show _ = if name = key then (if next :: q = [] then none else (fields.lookup key).map _) else fields.lookup name
      rw [if_neg (cons_ne_nil next q)]
      cases hkid : fields.lookup key with
      | none =>
        show fields.lookup name = _
        by_cases hname : name = key
        · rw [if_pos hname, hname, hkid]
          rfl
        · rw [if_neg hname]
      | some kid => exact lookup_setField fields key name _
  | _ =>
    show childOf _ (.key name) = _
    simp [jsonPut, isObject, childOf]

theorem childOf_index_jsonPut_none (node : Json) (q : Path) (i : ℕ) :
    childOf (jsonPut node q none) (.index i) = childOf node (.index i) := by
  cases q with
  | nil => rfl
  | cons segment q =>
    cases segment with
    | index j => rfl
    | key key =>
      cases node with
      | obj fields =>
        cases q with
        | nil =>
          rw [jsonPut, if_neg (by simp [isObject])]
          rfl
        | cons next q =>
          rw [jsonPut_key_none]
          cases fields.lookup key <;> rfl
      | _ => rfl

theorem jsonAt_jsonPut_none {r : Path} (hq : ¬ q <+: r) (hr : ¬ r <+: q) :
    jsonAt (jsonPut node q none) r = jsonAt node r := by
  induction q generalizing node r with
  | nil => exact absurd nil_prefix hq
  | cons segment q ih =>
    cases r with
    | nil => exact absurd nil_prefix hr
    | cons next r =>
      cases segment with
      | index i => rfl
      | key key =>
        show (childOf _ next).bind _ = (childOf node next).bind _
        cases next with
        | index i => rw [childOf_index_jsonPut_none]
        | key name =>
          rw [childOf_jsonPut_none]
          by_cases hname : name = key
          · subst hname
            have hq' : ¬ q <+: r := fun hprefix => hq (cons_prefix_cons.mpr ⟨rfl, hprefix⟩)
            have hr' : ¬ r <+: q := fun hprefix => hr (cons_prefix_cons.mpr ⟨rfl, hprefix⟩)
            have hne : q ≠ [] := fun hnil => hq' (hnil ▸ nil_prefix)
            rw [if_pos rfl, if_neg hne]
            cases childOf node (.key name) with
            | none => rfl
            | some kid => exact ih hq' hr'
          · rw [if_neg hname]

theorem isSome_of_jsonPut_none {p : Path} (h : (jsonAt (jsonPut node q none) p).isSome = true) :
    (jsonAt node p).isSome = true := by
  induction q generalizing node p with
  | nil => exact h
  | cons segment q ih =>
    cases p with
    | nil => rfl
    | cons next p =>
      cases segment with
      | index i => exact h
      | key key =>
        change ((childOf _ next).bind _).isSome = true at h
        show ((childOf node next).bind _).isSome = true
        cases next with
        | index i => rwa [childOf_index_jsonPut_none] at h
        | key name =>
          rw [childOf_jsonPut_none] at h
          by_cases hname : name = key
          · subst hname
            rw [if_pos rfl] at h
            split at h
            · cases h
            · cases hkid : childOf node (.key name) with
              | none =>
                rw [hkid] at h
                cases h
              | some kid =>
                rw [hkid] at h
                exact ih h
          · rwa [if_neg hname] at h

end Forgent.Config
