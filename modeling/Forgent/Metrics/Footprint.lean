import Forgent.Frontier
import Forgent.WriteScope

/-!
# Declared footprints that overlap

The footprint of an item is the list of the paths it declares.  `footprintOverlapAmong` compares the footprints of a list of
items pair by pair, and reports the pairs that share a path; two spellings of one path count as one.
-/

namespace Forgent.Metrics

open Json DepGraph List

/-- Backslash-to-slash, strip a leading `./`, trim surrounding whitespace. -/
def normalizePath (n : Arithmetic) (p : Json) : List Char :=
  let slashed := (text n p).toList.map fun c => if c = '\\' then '/' else c
  WriteScope.trim (if ['.', '/'].isPrefixOf slashed then slashed.drop 2 else slashed)

/-- `FOOTPRINT_CONFLICT_SUGGESTIONS`. -/
def footprintConflictSuggestions : List String := ["sequence", "hoist", "re-slice"]

/-- The `id` member of an item. -/
abbrev Id := Option Json

def idOf (item : Fields) : Id := item["id"]?

/-- A pair that shares paths, in the order of the candidates, with the paths as the first one spells them. -/
structure Conflict where
  a : Id
  b : Id
  shared : List Json
  suggestions : List String

section

variable (n : Arithmetic) {candidates : List Fields} {a b : Id}

def sharedPaths (item other : Fields) : List Json :=
  let footprintB := (listOf other "footprint").map (normalizePath n)
  (listOf item "footprint").filter fun path => footprintB.contains (normalizePath n path)

def conflictsWith (item : Fields) (behind : List Fields) : List Conflict :=
  if listOf item "footprint" = [] then []
  else behind.filterMap fun other =>
    let shared := sharedPaths n item other
    if shared = [] then none else some ⟨idOf item, idOf other, shared, footprintConflictSuggestions⟩

def footprintOverlapAmong : List Fields → List Conflict
  | [] => []
  | item :: behind => conflictsWith n item behind ++ footprintOverlapAmong behind

/-! ### What is reported -/

/-- Two items declare one path. -/
def Overlap (item other : Fields) : Prop :=
  ∃ path ∈ listOf item "footprint", ∃ path' ∈ listOf other "footprint", normalizePath n path = normalizePath n path'

/-- Two of the items, at different places of the list, have these ids and overlap. -/
def Conflicting (candidates : List Fields) (a b : Id) : Prop :=
  ∃ item other, ([item, other].Sublist candidates ∨ [other, item].Sublist candidates) ∧ Overlap n item other ∧
    idOf item = a ∧ idOf other = b

variable {n}

theorem Overlap.symm {item other : Fields} (h : Overlap n item other) : Overlap n other item := by
  obtain ⟨path, hpath, path', hpath', heq⟩ := h
  exact ⟨path', hpath', path, hpath, heq.symm⟩

theorem Conflicting.symm (h : Conflicting n candidates a b) : Conflicting n candidates b a := by
  obtain ⟨item, other, hsub, hoverlap, ha, hb⟩ := h
  exact ⟨other, item, hsub.symm, hoverlap.symm, hb, ha⟩

theorem sharedPaths_ne_nil {item other : Fields} : sharedPaths n item other ≠ [] ↔ Overlap n item other := by
  rw [ne_eq, sharedPaths, filter_eq_nil_iff]
  simp only [contains_iff_mem, List.mem_map, not_forall, not_not, Overlap]
  constructor
  · rintro ⟨path, hpath, path', hpath', heq⟩
    exact ⟨path, hpath, path', hpath', heq.symm⟩
  · rintro ⟨path, hpath, path', hpath', heq⟩
    exact ⟨path, hpath, path', hpath', heq.symm⟩

/-- A pair is reported when some item has the one id, and an item behind it the other, and they overlap. -/
theorem mem_footprintOverlapAmong : (∃ c ∈ footprintOverlapAmong n candidates, c.a = a ∧ c.b = b) ↔
      ∃ item other, [item, other].Sublist candidates ∧ Overlap n item other ∧ idOf item = a ∧ idOf other = b := by
  induction candidates with
  | nil => simp [footprintOverlapAmong]
  | cons first behind ih =>
    have hfirst : (∃ c ∈ conflictsWith n first behind, c.a = a ∧ c.b = b) ↔
        ∃ other ∈ behind, Overlap n first other ∧ idOf first = a ∧ idOf other = b := by
      rw [conflictsWith]
      split
      · next hempty => simp [Overlap, hempty]
      · simp only [mem_filterMap, ← sharedPaths_ne_nil]
        constructor
        · rintro ⟨c, ⟨other, hother, hc⟩, ha, hb⟩
          split at hc
          · cases hc
          · next hshared =>
            cases hc
            exact ⟨other, hother, hshared, ha, hb⟩
        · rintro ⟨other, hother, hshared, ha, hb⟩
          exact ⟨_, ⟨other, hother, if_neg hshared⟩, ha, hb⟩
    rw [footprintOverlapAmong]
    constructor
    · rintro ⟨c, hc, hids⟩
      rcases mem_append.mp hc with hc | hc
      · obtain ⟨other, hother, hoverlap, ha, hb⟩ := hfirst.mp ⟨c, hc, hids⟩
        exact ⟨first, other, (singleton_sublist.mpr hother).cons_cons first, hoverlap, ha, hb⟩
      · obtain ⟨item, other, hsub, hrest⟩ := ih.mp ⟨c, hc, hids⟩
        exact ⟨item, other, hsub.cons first, hrest⟩
    · rintro ⟨item, other, hsub, hoverlap, ha, hb⟩
      rcases sublist_cons_iff.mp hsub with hsub | ⟨r, hr, hsub⟩
      · obtain ⟨c, hc, hids⟩ := ih.mpr ⟨item, other, hsub, hoverlap, ha, hb⟩
        exact ⟨c, mem_append_right _ hc, hids⟩
      · cases hr
        obtain ⟨c, hc, hids⟩ := hfirst.mpr ⟨other, singleton_sublist.mp hsub, hoverlap, ha, hb⟩
        exact ⟨c, mem_append_left _ hc, hids⟩

/-- **The pairs that are reported are those that overlap.** -/
theorem conflicting_iff : Conflicting n candidates a b ↔
    ∃ c ∈ footprintOverlapAmong n candidates, c.a = a ∧ c.b = b ∨ c.a = b ∧ c.b = a := by
  have hsplit : (∃ c ∈ footprintOverlapAmong n candidates, c.a = a ∧ c.b = b ∨ c.a = b ∧ c.b = a) ↔
      (∃ c ∈ footprintOverlapAmong n candidates, c.a = a ∧ c.b = b) ∨
        ∃ c ∈ footprintOverlapAmong n candidates, c.a = b ∧ c.b = a := by
    constructor
    · rintro ⟨c, hc, hids | hids⟩
      · exact .inl ⟨c, hc, hids⟩
      · exact .inr ⟨c, hc, hids⟩
    · rintro (⟨c, hc, hids⟩ | ⟨c, hc, hids⟩)
      · exact ⟨c, hc, .inl hids⟩
      · exact ⟨c, hc, .inr hids⟩
  rw [hsplit, mem_footprintOverlapAmong, mem_footprintOverlapAmong]
  constructor
  · rintro ⟨item, other, hsub | hsub, hoverlap, ha, hb⟩
    · exact .inl ⟨item, other, hsub, hoverlap, ha, hb⟩
    · exact .inr ⟨other, item, hsub, hoverlap.symm, hb, ha⟩
  · rintro (⟨item, other, hsub, hoverlap, ha, hb⟩ | ⟨item, other, hsub, hoverlap, ha, hb⟩)
    · exact ⟨item, other, .inl hsub, hoverlap, ha, hb⟩
    · exact ⟨other, item, .inr hsub, hoverlap.symm, hb, ha⟩

end

end Forgent.Metrics
