import Forgent.KnowledgeChange
import Forgent.Patterns.Catalog
import Forgent.Patterns.SeatSteps

/-!
# What an accepted catalog has

An entry of an accepted catalog has checked sections (`Sound`), and it follows the shipped entry of its name
(`Follows`): the project could neither change a fixed value nor take a name off a list.

* `Sound.invariant`, `invariant_cases`: the invariants of a sound entry, in their two forms.
* `entry_sound`: an entry of the merged catalog.
-/

namespace Forgent.Patterns

open Json List Std.ExtTreeMap Option

/-! ### Problems -/

@[simp] theorem flagged_eq_nil {ok : Bool} {code : Code} : flagged ok code = [] ↔ ok = true := by
  cases ok <;> simp [flagged]

@[simp] theorem problemsOf_eq_nil {α : Type} {rename : Code → Code} {r : Except Code α} :
    problemsOf rename r = [] ↔ ∃ a, r = .ok a := by
  cases r <;> simp [problemsOf]

variable {name : String}

theorem mem_of_includes {items : List Json} (h : includes items (.str name) = true) : .str name ∈ items := by
  obtain ⟨v, hv, hsame⟩ := List.any_eq_true.mp h
  rw [← some.inj (eq_of_same hsame)]
  exact hv

theorem getElem?_spread {value : Option Json} (h : value.isNone || isPlainObject value) (k : String) :
    (spread value)[k]? = member value k := by
  match value, h with
  | none, _ => exact getElem?_empty
  | some (.obj fields), _ => exact getElem?_spread_obj fields k

/-! ### The overlay -/

section

variable (s own : Fields)

theorem overlaySection_other (merged : Fields) {part k : String} (h : part ≠ k) :
    (overlaySection own merged part)[k]? = merged[k]? := by
  unfold overlaySection
  split
  · rw [Fields.getElem?_insert', if_neg h]
  · rfl

theorem overlay_loop : (overlay s own)["loop"]? = (own["loop"]?).or s["loop"]? := by
  show (overlaySection own (overlaySection own _ "defaults") "invariants")["loop"]? = _
  rw [overlaySection_other _ _ (by decide), overlaySection_other _ _ (by decide), Fields.getElem?_keep, if_pos rfl,
    Fields.getElem?_keep, if_neg (by decide)]

theorem overlay_invariants : (overlay s own)["invariants"]? = match own["invariants"]? with
      | some (.obj invariants) => some ((spread s["invariants"]?).assign (spread (some (.obj invariants)))).toJson
      | _ => s["invariants"]? := by
  show (overlaySection own (overlaySection own ((s.keep "promise" own["promise"]?).keep "loop" own["loop"]?) "defaults")
    "invariants")["invariants"]? = _
  have hbefore : (overlaySection own ((s.keep "promise" own["promise"]?).keep "loop" own["loop"]?) "defaults")["invariants"]? =
      s["invariants"]? := by
    rw [overlaySection_other _ _ (by decide), Fields.getElem?_keep, if_neg (by decide), Fields.getElem?_keep,
      if_neg (by decide)]
  rw [overlaySection]
  cases hown : own["invariants"]? with
  | none => exact hbefore
  | some v =>
    cases v with
    | obj invariants =>
      show (Std.ExtTreeMap.insert _ _ _)["invariants"]? = _
      rw [Fields.getElem?_insert', if_pos rfl, hbefore]
    | _ => exact hbefore

end

/-! ### Sound entries -/

variable {n : Numerals} {entry s : Fields} {loop : Loop} {param : String} {inv v : Json} {shipped : Table Fields}
  {effective : Table Json}

structure Sound (n : Numerals) (entry : Fields) (loop : Loop) : Prop where
  named : loopNamed entry["loop"]? = some loop
  checked : checkMergedSections n loop entry = []

section

variable (h : Sound n entry loop)

include h

theorem Sound.sectionParam {part : String} (hpart : part ∈ sections)
    (hval : member entry[part]? param = some v) : checkSectionParam n loop entry part param v = [] := by
  have hsection := flatMap_eq_nil_iff.mp h.checked part hpart
  dsimp only at hsection
  cases hentry : entry[part]? with
  | none =>
    rw [hentry] at hval
    cases hval
  | some own =>
    rw [hentry] at hsection hval
    cases own with
    | obj fields =>
      have hmem : (param, v) ∈ (spread (some (.obj fields))).toList := by
        rw [mem_toList_iff_getElem?_eq_some, getElem?_spread_obj]
        exact hval
      exact flatMap_eq_nil_iff.mp hsection _ hmem
    | _ => cases hval

theorem Sound.invariants_plain : (entry["invariants"]?.isNone || isPlainObject entry["invariants"]?) = true := by
  have hsection := flatMap_eq_nil_iff.mp h.checked "invariants" (by decide)
  dsimp only at hsection
  cases hentry : entry["invariants"]? with
  | none => rfl
  | some own =>
    rw [hentry] at hsection
    cases own with
    | obj fields => rfl
    | _ => cases hsection

theorem Sound.default (hval : member entry["defaults"]? param = some v) : checkParamDomain n loop param v entry = [] := by
  have hparam := h.sectionParam (show "defaults" ∈ sections by decide) hval
  rw [checkSectionParam] at hparam
  split at hparam
  · cases hparam
  · exact hparam

theorem Sound.invariant (hinv : member entry["invariants"]? param = some inv) :
    (loop.params.lookup param).isSome = true ∧ checkInvariantForm n loop param inv entry = [] := by
  have hparam := h.sectionParam (show "invariants" ∈ sections by decide) hinv
  rw [checkSectionParam] at hparam
  split at hparam
  · cases hparam
  · next hread =>
    rw [if_neg (by decide)] at hparam
    split at hparam
    · exact ⟨by simpa using hread, hparam⟩
    · cases hparam

end

theorem invariant_cases (h : checkInvariantForm n loop param inv entry = []) :
    (param = "minCheckers" ∧ inv.field "fixed" = none ∧
      ∃ names, inv.field "atLeast" = some (.arr names) ∧ ∀ name ∈ names, ∃ text, asChecker name = .ok text) ∨
    (inv.field "atLeast" = none ∧ ∃ value, inv.field "fixed" = some value ∧ param ≠ "minCheckers" ∧
      checkParamDomain n loop param value entry = []) := by
  rw [checkInvariantForm] at h
  split at h
  · next required hatLeast hfixed =>
    left
    split at h
    · cases h
    · split at h
      · cases h
      · next hparam =>
        rw [not_not] at hparam
        cases required with
        | arr names =>
          cases names with
          | nil => cases h
          | cons c cs =>
            refine ⟨hparam, hfixed, c :: cs, hatLeast, fun name hname => ?_⟩
            exact problemsOf_eq_nil.mp (flatMap_eq_nil_iff.mp h name hname)
        | _ => cases h
  · next value hatLeast hfixed =>
    right
    split at h
    · cases h
    · split at h
      · cases h
      · next hparam => exact ⟨hatLeast, value, hfixed, hparam, h⟩
  · cases h

theorem seats_of_checkParamDomain (h : checkParamDomain n loop "seats" v entry = []) :
    ∃ declared, checkDeclaredSeats v = .ok declared := by
  obtain ⟨_, h⟩ := problemsOf_eq_nil.mp h
  obtain ⟨declared, hdeclared, -⟩ := bind_eq_ok.mp h
  exact ⟨declared, hdeclared⟩

/-! ### An override follows the shipped entry -/

/-- The second invariant asks for all that the first one does. -/
def AsStrong (inv inv' : Json) : Prop :=
  (∀ value, inv.field "fixed" = some value → ∃ value', inv'.field "fixed" = some value' ∧ deepEqual value' value = true) ∧
    ∀ name ∈ itemsOf (inv.field "atLeast"), name ∈ itemsOf (inv'.field "atLeast")

theorem asStrong_refl (inv : Json) : AsStrong inv inv := ⟨fun value h => ⟨value, h, deepEqual_refl value⟩, fun _ h => h⟩

/-- Every invariant of the shipped entry stands in the merged one, unchanged or stronger. -/
def Follows (s entry : Fields) : Prop :=
  ∀ param inv, member s["invariants"]? param = some inv →
    ∃ inv', member entry["invariants"]? param = some inv' ∧ AsStrong inv inv'

theorem asStrong_of_not_weakened {own : Fields} {inv' : Json} (hown : own[param]? = some inv')
    (hform : checkInvariantForm n loop param inv entry = []) (h : weakenedBy own param inv = []) : AsStrong inv inv' := by
  rw [weakenedBy] at h
  split at h
  · cases h
  · rw [hown] at h
    dsimp only at h
    obtain ⟨hlist, hvalue⟩ := append_eq_nil_iff.mp h
    rcases invariant_cases hform with ⟨-, hfixed, names, hatLeast, hnames⟩ | ⟨hatLeast, value, hfixed, -, -⟩
    · constructor
      · intro value hsome
        rw [hfixed] at hsome
        cases hsome
      · intro name hname
        rw [hatLeast] at hname hlist
        obtain ⟨text, htext⟩ := hnames name hname
        obtain rfl := (asChecker_eq_ok htext).1
        cases heff : inv'.field "atLeast" with
        | none =>
          rw [heff] at hlist
          cases hlist
        | some list =>
          rw [heff] at hlist
          cases list with
          | arr items =>
            exact mem_of_includes (flagged_eq_nil.mp (flatMap_eq_nil_iff.mp hlist _ hname))
          | _ => cases hlist
    · constructor
      · intro value' hsome
        rw [hfixed] at hsome hvalue
        cases hsome
        obtain ⟨w, hw, hequal⟩ := (Option.any_eq_true _ _).mp (flagged_eq_nil.mp hvalue)
        exact ⟨w, hw, hequal⟩
      · intro name hname
        rw [hatLeast] at hname
        cases hname

theorem checkEntry_of_checkCatalog (h : checkCatalog n shipped effective = []) (hname : isDropped name = false)
    (hentry : (shipped[name]?).isSome = true ∨ (effective[name]?).isSome = true) :
    checkEntry n shipped[name]? effective[name]? = [] := by
  have hproblems := (append_eq_nil_iff.mp h).2
  refine flatMap_eq_nil_iff.mp hproblems name (mem_filter.mpr ⟨?_, by rw [hname]; rfl⟩)
  rw [mem_append, Std.ExtTreeMap.mem_keys, mem_filter, Std.ExtTreeMap.mem_keys, decide_eq_true_eq]
  by_cases hshipped : name ∈ shipped
  · exact .inl hshipped
  · refine .inr ⟨?_, hshipped⟩
    rw [mem_iff_isSome_getElem?] at hshipped ⊢
    exact hentry.resolve_left hshipped

theorem plain_of_checkCatalog {v : Json}
    (h : checkCatalog n shipped effective = []) (hname : isDropped name = false) (hv : effective[name]? = some v) :
    ∃ fields, v = .obj fields := by
  have hdeclared := (append_eq_nil_iff.mp (append_eq_nil_iff.mp h).1).2
  have hentry := flatMap_eq_nil_iff.mp hdeclared (name, v) (mem_toList_iff_getElem?_eq_some.mpr hv)
  have hne : name ≠ "seatBinding" := by
    rintro rfl
    revert hname
    decide
  dsimp only at hentry
  rw [checkDeclaredEntry, if_neg hne] at hentry
  cases v with
  | obj fields => exact ⟨fields, rfl⟩
  | _ => cases (append_eq_nil_iff.mp hentry).2

theorem sound_of_sections (hloop : loopNamed entry["loop"]? = some loop)
    (h : (loopNamed entry["loop"]?).elim [] (fun loop => checkMergedSections n loop entry) = []) : Sound n entry loop := by
  rw [hloop] at h
  exact ⟨hloop, h⟩

/-- An override that was accepted has the shipped loop, and follows the shipped entry. -/
theorem overlay_follows {own : Fields} (hs : Sound n s loop) (h : checkShippedOverride s own = []) :
    (overlay s own)["loop"]? = s["loop"]? ∧ Follows s (overlay s own) := by
  obtain ⟨hloops, hinvariants⟩ := append_eq_nil_iff.mp h
  have hunchanged := flagged_eq_nil.mp (append_eq_nil_iff.mp hloops).1
  constructor
  · rw [overlay_loop]
    rcases Bool.or_eq_true_iff.mp hunchanged with hnone | hsame
    · rw [isNone_iff_eq_none.mp hnone]
      rfl
    · rw [eq_of_same hsame]
      cases s["loop"]? <;> rfl
  · intro param inv hinv
    rw [overlay_invariants]
    cases hown : own["invariants"]? with
    | none => exact ⟨inv, hinv, asStrong_refl inv⟩
    | some v =>
      cases v with
      | obj invariants =>
        rw [hown] at hinvariants
        have hplain := hs.invariants_plain
        show ∃ inv', member (some ((spread s["invariants"]?).assign (spread (some (.obj invariants)))).toJson) param =
          some inv' ∧ _
        rw [member_toJson, Fields.getElem?_assign, getElem?_spread hplain, hinv]
        cases hparam : (spread (some (.obj invariants)))[param]? with
        | none => exact ⟨inv, rfl, asStrong_refl inv⟩
        | some inv' =>
          refine ⟨inv', rfl, asStrong_of_not_weakened hparam (hs.invariant hinv).2 ?_⟩
          have htruthy : truthy s["invariants"]? = true := by
            cases hshipped : s["invariants"]? with
            | none =>
              rw [hshipped] at hinv
              cases hinv
            | some v =>
              rw [hshipped] at hplain
              cases v with
              | obj _ => rfl
              | _ => cases hplain
          dsimp only at hinvariants
          rw [if_pos htruthy] at hinvariants
          refine flatMap_eq_nil_iff.mp hinvariants (param, inv) ?_
          rw [mem_toList_iff_getElem?_eq_some, getElem?_spread hplain]
          exact hinv
      | _ => exact ⟨inv, hinv, asStrong_refl inv⟩

/-- Every entry of the shipped catalog names a loop; a name that is no pattern's is left alone. -/
def NamesLoops (shipped : Table Fields) : Prop :=
  ∀ ⦃name : String⦄ ⦃s : Fields⦄, isDropped name = false → shipped[name]? = some s → (loopNamed s["loop"]?).isSome = true

theorem shipped_sound (hloops : NamesLoops shipped)
    (halone : checkCatalog n shipped ∅ = []) (hname : isDropped name = false) (hs : shipped[name]? = some s) :
    ∃ loop, Sound n s loop := by
  have hcheck := checkEntry_of_checkCatalog halone hname (.inl (by rw [hs]; rfl))
  rw [hs, getElem?_empty] at hcheck
  obtain ⟨loop, hloop⟩ := isSome_iff_exists.mp (hloops hname hs)
  exact ⟨loop, sound_of_sections hloop hcheck⟩

/-- **An entry of the merged catalog** is sound, and follows the shipped one of its name. -/
theorem entry_sound (hloops : NamesLoops shipped)
    (halone : checkCatalog n shipped ∅ = []) (h : checkCatalog n shipped effective = [])
    (hentry : entryNamed shipped effective name = some entry) : ∃ loop, Sound n entry loop ∧
      ∀ s, shipped[name]? = some s → entry["loop"]? = s["loop"]? ∧ Follows s entry := by
  rw [entryNamed] at hentry
  split at hentry
  · cases hentry
  · next hdropped =>
    rw [Bool.not_eq_true] at hdropped
    cases heffective : effective[name]? with
    | none =>
      rw [heffective] at hentry
      cases hshipped : shipped[name]? with
      | none =>
        rw [hshipped] at hentry
        cases hentry
      | some s =>
        rw [hshipped] at hentry
        cases hentry
        obtain ⟨loop, hsound⟩ := shipped_sound hloops halone hdropped hshipped
        refine ⟨loop, hsound, fun s' hs' => ?_⟩
        cases hs'
        exact ⟨rfl, fun _ inv hinv => ⟨inv, hinv, asStrong_refl inv⟩⟩
    | some v =>
      obtain ⟨fields, rfl⟩ := plain_of_checkCatalog h hdropped heffective
      have hcheck := checkEntry_of_checkCatalog h hdropped (.inr (by rw [heffective]; rfl))
      rw [heffective] at hentry hcheck
      cases hshipped : shipped[name]? with
      | none =>
        rw [hshipped] at hentry hcheck
        cases hentry
        obtain ⟨hcustom, hsections⟩ := append_eq_nil_iff.mp hcheck
        obtain ⟨loop, hloop⟩ := isSome_iff_exists.mp (flagged_eq_nil.mp (append_eq_nil_iff.mp hcustom).2)
        exact ⟨loop, sound_of_sections hloop hsections, fun s hs => nomatch hs⟩
      | some s =>
        rw [hshipped] at hentry hcheck
        cases hentry
        obtain ⟨hoverride, hsections⟩ := append_eq_nil_iff.mp hcheck
        obtain ⟨loop, hsound⟩ := shipped_sound hloops halone hdropped hshipped
        have hfollows := overlay_follows hsound hoverride
        have hloop : loopNamed (overlay s (spread (some (.obj fields))))["loop"]? = some loop := by
          rw [hfollows.1]
          exact hsound.named
        refine ⟨loop, sound_of_sections hloop hsections, fun s' hs' => ?_⟩
        cases hs'
        exact hfollows

end Forgent.Patterns
