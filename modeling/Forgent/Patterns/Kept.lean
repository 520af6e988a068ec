import Forgent.Patterns.CatalogSteps
import Forgent.Patterns.Collaboration

/-!
# No layer weakens a shipped pattern

Whatever the project, the Unit, the request and the activity say, a resolved collaboration runs a shipped pattern's
loop with its fixed values, and seats a checker for every name its lists hold.  The layers only choose the parameters;
the floors and the fixed values come after them, and every layer's seats were checked, so that none are taken with a
posture of their own.

* `applyFixedInvariants_effective`, `applyFixedInvariants_agrees`: the fixed values win, and where every slot counts
  they agree with what was there.
* `seats_checked`: the declared seats were checked whatever layer they come from.
* `Keeps`: what an invariant asks of a collaboration; `shipped_invariants_kept`: every resolution.
-/

namespace Forgent.Patterns

open Json List Option Std.ExtTreeMap

/-! ### Fixed values -/

section

variable {slots : Option (List String)} {p p' : Params} {param k : String} {inv v w : Json} {invariants : Option Json}

theorem applyFixed_effective (h : applyFixed slots p param inv = .ok p') :
    p'.effective[k]? = if param = k then (inv.field "fixed").or p.effective[k]? else p.effective[k]? := by
  rw [applyFixed] at h
  cases hfixed : inv.field "fixed" with
  | none =>
    rw [hfixed] at h
    cases h
    split <;> rfl
  | some value =>
    rw [hfixed] at h
    dsimp only at h
    split at h
    · cases h
    · cases h
      exact Fields.getElem?_insert' _ _ _ _

theorem applyFixedInvariants_effective (h : applyFixedInvariants invariants slots p = .ok p') :
    p'.effective[k]? = ((spread invariants)[k]?.bind fun inv => inv.field "fixed").or p.effective[k]? := by
  rw [applyFixedInvariants] at h
  rw [← lookup_toList (spread invariants)]
  have hdistinct := distinct_keys_toList (t := spread invariants)
  revert hdistinct h
  generalize (spread invariants).toList = l
  intro h hdistinct
  induction l generalizing p with
  | nil =>
    cases h
    rfl
  | cons e l ih =>
    obtain ⟨hhead, htail⟩ := pairwise_cons.mp hdistinct
    rw [foldlM_cons] at h
    obtain ⟨p₁, hfirst, h⟩ := bind_eq_ok.mp h
    rw [ih h htail, applyFixed_effective hfirst, lookup_cons]
    by_cases heq : e.1 = k
    · subst heq
      have hnone : l.lookup e.1 = none := by
        rw [lookup_eq_none_iff]
        intro e' he'
        rw [bne_iff_ne]
        exact fun heq => hhead e' he' (compare_key.mpr heq)
      simp [hnone]
    · have hne : (k == e.1) = false := beq_eq_false_iff_ne.mpr (Ne.symm heq)
      rw [hne, if_neg heq]

theorem applyFixed_agrees (h : applyFixed none p param inv = .ok p') (hv : p.effective[k]? = some v) :
    ∃ w, p'.effective[k]? = some w ∧ deepEqual v w = true := by
  rw [applyFixed_effective h]
  by_cases heq : param = k
  · subst heq
    rw [if_pos rfl]
    cases hfixed : inv.field "fixed" with
    | none => exact ⟨v, hv, deepEqual_refl v⟩
    | some value =>
      refine ⟨value, rfl, ?_⟩
      rw [applyFixed, hfixed] at h
      dsimp only at h
      rw [hv] at h
      by_contra hclash
      rw [Bool.not_eq_true] at hclash
      simp [hclash] at h
  · rw [if_neg heq]
    exact ⟨v, hv, deepEqual_refl v⟩

theorem applyFixedInvariants_agrees (h : applyFixedInvariants invariants none p = .ok p')
    (hv : p.effective[k]? = some v) : ∃ w, p'.effective[k]? = some w ∧ deepEqual v w = true := by
  rw [applyFixedInvariants] at h
  revert h
  generalize (spread invariants).toList = l
  intro h
  induction l generalizing p v with
  | nil =>
    cases h
    exact ⟨v, hv, deepEqual_refl v⟩
  | cons e l ih =>
    rw [foldlM_cons] at h
    obtain ⟨p₁, hfirst, h⟩ := bind_eq_ok.mp h
    obtain ⟨w, hw, hequal⟩ := applyFixed_agrees hfirst hv
    obtain ⟨w', hw', hequal'⟩ := ih hw h
    exact ⟨w', hw', deepEqual_trans hequal hequal'⟩

end

/-! ### Where the seats come from -/

/-- The seats among these parameters, if any, are declared as they should be. -/
def SeatsChecked (f : Fields) : Prop := ∀ raw, f["seats"]? = some raw → ∃ declared, checkDeclaredSeats raw = .ok declared

theorem SeatsChecked.assign {f g : Fields} (hf : SeatsChecked f) (hg : SeatsChecked g) : SeatsChecked (f.assign g) := by
  intro raw hraw
  rw [Fields.getElem?_assign] at hraw
  rcases or_eq_some_iff.mp hraw with hraw | ⟨-, hraw⟩
  · exact hg raw hraw
  · exact hf raw hraw

section

variable {n : Numerals} {table : ParamTable} {params : Fields} {u : Unit}

theorem seats_of_carrierParam {raw : Json} (h : checkCarrierParam n table "seats" raw = .ok u) :
    ∃ declared, checkDeclaredSeats raw = .ok declared := by
  obtain ⟨_, -, h⟩ := bind_eq_ok.mp h
  obtain ⟨declared, hdeclared, -⟩ := bind_eq_ok.mp h
  exact ⟨declared, hdeclared⟩

theorem forM_eq_ok {α : Type} {f : α → Except Code Unit} {l : List α} (h : l.forM f = .ok u) :
    ∀ a ∈ l, f a = .ok () := by
  induction l with
  | nil => simp
  | cons a l ih =>
    obtain ⟨_, hfirst, h⟩ := bind_eq_ok.mp h
    intro b hb
    rcases mem_cons.mp hb with rfl | hb
    · exact hfirst
    · exact ih h b hb

theorem seatsChecked_of_carrier (h : checkCarrierParams n table params = .ok u) : SeatsChecked params :=
  fun raw hraw => seats_of_carrierParam (forM_eq_ok h ("seats", raw) (mem_toList_iff_getElem?_eq_some.mpr hraw))

theorem scalars_seats {params : Option Json} {pairs : List (Option Json × Option Json)} {parsed parsed' : Fields}
    (htable : ∀ type, table.lookup "seats" ≠ some (some type)) (hparsed : parsed["seats"]? = none)
    (h : pairs.foldlM (addScalar n table params) parsed = .ok parsed') : parsed'["seats"]? = none := by
  induction pairs generalizing parsed with
  | nil =>
    cases h
    exact hparsed
  | cons pair pairs ih =>
    rw [foldlM_cons] at h
    obtain ⟨parsed₁, hfirst, h⟩ := bind_eq_ok.mp h
    refine ih ?_ h
    rw [addScalar] at hfirst
    cases hkey : nonEmptyString pair.1 with
    | none =>
      rw [hkey] at hfirst
      cases hfirst
    | some key =>
      rw [hkey] at hfirst
      obtain ⟨_, -, hfirst⟩ := bind_eq_ok.mp hfirst
      obtain ⟨_, -, hfirst⟩ := bind_eq_ok.mp hfirst
      cases hlookup : table.lookup key with
      | none =>
        rw [hlookup] at hfirst
        cases hfirst
      | some type =>
        cases type with
        | none =>
          rw [hlookup] at hfirst
          cases hfirst
        | some type =>
          rw [hlookup] at hfirst
          cases hraw : pair.2 with
          | none =>
            rw [hraw] at hfirst
            cases hfirst
          | some raw =>
            rw [hraw] at hfirst
            obtain ⟨value, -, hfirst⟩ := bind_eq_ok.mp hfirst
            cases hfirst
            have hne : key ≠ "seats" := by
              rintro rfl
              exact htable type hlookup
            rw [Fields.getElem?_insert', if_neg hne]
            exact hparsed

theorem Loop.params_seats (loop : Loop) : loop.params.lookup "seats" = some none := by
  cases loop <;> rfl

theorem normalizeRequest_seats {loop : Loop} {request : Option Json} {params : Fields}
    (h : normalizeRequest n loop.params request = .ok params) : SeatsChecked params := by
  rw [normalizeRequest] at h
  obtain ⟨_, -, h⟩ := bind_eq_ok.mp h
  obtain ⟨scalars, hscalars, h⟩ := bind_eq_ok.mp h
  obtain ⟨_, -, h⟩ := bind_eq_ok.mp h
  obtain ⟨_, hparams, h⟩ := bind_eq_ok.mp h
  cases h
  refine SeatsChecked.assign (fun raw hraw => ?_) fun raw hraw => ?_
  · have hcheck := forM_eq_ok hparams ("seats", raw) (mem_toList_iff_getElem?_eq_some.mpr hraw)
    obtain ⟨_, -, hcheck⟩ := bind_eq_ok.mp hcheck
    exact seats_of_carrierParam hcheck
  · have htable : ∀ type, loop.params.lookup "seats" ≠ some (some type) := by
      intro type heq
      rw [loop.params_seats] at heq
      cases heq
    have hnone : scalars["seats"]? = none := by
      rw [parseRequestScalars] at hscalars
      split at hscalars
      · cases hscalars
        exact getElem?_empty
      · obtain ⟨pairs, -, hscalars⟩ := bind_eq_ok.mp hscalars
        exact scalars_seats htable getElem?_empty hscalars
    rw [hnone] at hraw
    cases hraw

theorem unitDeclared_seats {n : Numerals} {o : Options} (h : checkCarriers n o table = .ok u) :
    SeatsChecked (spread (member o.selectors.callerObject "params")) ∧ SeatsChecked (unitDeclaredOf o.unit) ∧
      SeatsChecked (loosePartsOf o.unit) := by
  obtain ⟨_, -, h⟩ := bind_eq_ok.mp h
  obtain ⟨_, hcaller, h⟩ := bind_eq_ok.mp h
  obtain ⟨_, hpattern, h⟩ := bind_eq_ok.mp h
  obtain ⟨_, hunit, h⟩ := bind_eq_ok.mp h
  have hloose := seatsChecked_of_carrier h
  exact ⟨seatsChecked_of_carrier hcaller,
    ((seatsChecked_of_carrier hpattern).assign hloose).assign (seatsChecked_of_carrier hunit), hloose⟩

end

/-! ### The layers -/

section

variable {l : Layers} {table : ParamTable} {p : Params}

theorem layerParams_winner {k : String} {v : Json} (h : (layerParams l table).effective[k]? = some v) :
    ∃ slot, l.winner k = some (v, slot) := by
  have hgen : ∀ (table : ParamTable) (p : Params), (∀ k v, p.effective[k]? = some v → ∃ slot, l.winner k = some (v, slot)) →
      ∀ k v, (table.foldl (fun p entry => (l.winner entry.1).elim p fun won => p.take entry.1 won.1 won.2) p).effective[k]? =
        some v → ∃ slot, l.winner k = some (v, slot) := by
    intro table
    induction table with
    | nil => exact fun _ hp => hp
    | cons entry table ih =>
      intro p hp
      rw [foldl_cons]
      refine ih _ ?_
      cases hwinner : l.winner entry.1 with
      | none => exact hp
      | some won =>
        intro k v hv
        have hv : (p.effective.insert entry.1 won.1)[k]? = some v := hv
        rw [Fields.getElem?_insert'] at hv
        split at hv
        · next heq =>
          cases hv
          exact ⟨won.2, by rw [← heq, hwinner]⟩
        · exact hp k v hv
  exact hgen table ⟨∅, ∅⟩ (fun k v hv => by rw [getElem?_empty] at hv; cases hv) k v h

theorem layerParams_seats (hrequest : SeatsChecked l.request) (hselector : SeatsChecked l.selector)
    (hunit : SeatsChecked l.unit) (hactivity : ∀ a, l.activity = some a → SeatsChecked a)
    (hdefaults : ∀ raw, member l.defaults "seats" = some raw → ∃ declared, checkDeclaredSeats raw = .ok declared) :
    SeatsChecked (layerParams l table).effective := by
  intro raw hraw
  obtain ⟨slot, hwinner⟩ := layerParams_winner hraw
  obtain ⟨⟨value, slot'⟩, hmem, hvalue⟩ := exists_of_findSome?_eq_some hwinner
  obtain ⟨raw', hsome, heq⟩ := map_eq_some_iff.mp hvalue
  cases heq
  subst hsome
  simp only [Layers.values, if_pos, mem_cons, Prod.mk.injEq, not_mem_nil, or_false] at hmem
  rcases hmem with ⟨h, -⟩ | ⟨h, -⟩ | ⟨h, -⟩ | ⟨h, -⟩ | ⟨h, -⟩ | ⟨h, -⟩ | ⟨h, -⟩ | ⟨h, -⟩
  · exact hrequest raw h.symm
  · exact hselector raw h.symm
  · exact hunit raw h.symm
  · obtain ⟨a, ha, hseats⟩ := bind_eq_some_iff.mp h.symm
    exact hactivity a ha raw hseats
  · exact hunit raw h.symm
  · exact hdefaults raw h.symm
  · rw [if_neg (by decide)] at h
    cases h
  · simp [builtin] at h

theorem addFloors_seats {floors : List Floor} (h : SeatsChecked p.effective) :
    SeatsChecked (addFloors table floors p).effective := by
  rw [addFloors]
  split
  · exact h
  · intro raw hraw
    have hraw : (p.effective.insert "minCheckers" _)["seats"]? = some raw := hraw
    rw [Fields.getElem?_insert', if_neg (by decide)] at hraw
    exact h raw hraw

theorem applyFixedInvariants_seats {n : Numerals} {entry : Fields} {loop : Loop} {slots : Option (List String)} {p' : Params}
    (hentry : Sound n entry loop) (h : applyFixedInvariants entry["invariants"]? slots p = .ok p')
    (hp : SeatsChecked p.effective) : SeatsChecked p'.effective := by
  intro raw hraw
  rw [applyFixedInvariants_effective h, getElem?_spread hentry.invariants_plain] at hraw
  rcases or_eq_some_iff.mp hraw with hraw | ⟨-, hraw⟩
  · obtain ⟨inv, hinv, hfixed⟩ := bind_eq_some_iff.mp hraw
    rcases invariant_cases (hentry.invariant hinv).2 with ⟨hparam, -⟩ | ⟨-, value, hvalue, -, hdomain⟩
    · exact absurd hparam (by decide)
    · rw [hfixed] at hvalue
      cases hvalue
      exact seats_of_checkParamDomain hdomain
  · exact hp raw hraw

end

/-! ### A resolution -/

/-- What an entry's invariants ask of a collaboration: the fixed values, and a checker for every name of a list. -/
structure Keeps (invariants : Option Json) (c : Collaboration) : Prop where
  fixed : ∀ param inv value, member invariants param = some inv → inv.field "fixed" = some value →
    ∃ value', c.params[param]? = some value' ∧ deepEqual value' value = true
  atLeast : ∀ param inv name, member invariants param = some inv → name ∈ itemsOf (inv.field "atLeast") →
    ∃ seat ∈ c.seats, IsChecker name seat

theorem Keeps.of_follows {s entry : Fields} {c : Collaboration} (hkeeps : Keeps entry["invariants"]? c) (h : Follows s entry) :
    Keeps s["invariants"]? c where
  fixed := by
    intro param inv value hinv hvalue
    obtain ⟨inv', hinv', hfixed, -⟩ := h param inv hinv
    obtain ⟨value', hvalue', hequal⟩ := hfixed value hvalue
    obtain ⟨value'', hparam, hequal'⟩ := hkeeps.fixed param inv' value' hinv' hvalue'
    exact ⟨value'', hparam, deepEqual_trans hequal' hequal⟩
  atLeast := by
    intro param inv name hinv hname
    obtain ⟨inv', hinv', -, hlist⟩ := h param inv hinv
    exact hkeeps.atLeast param inv' name hinv' (hlist name hname)

section

variable {n : Numerals} {o : Options} {c : Collaboration} {loop : Loop} {name : String}

/-- The steps of a resolution that succeeds. -/
structure Resolution (n : Numerals) (o : Options) (c : Collaboration) (selection : Selection) (entry : Fields)
    (table : ParamTable) (activityEntry : Option Fields) (request activity : Fields) (p : Params) : Prop where
  catalog : checkCatalog n o.shipped.patterns o.runnerConfig.patterns = []
  selected : selectPattern o = .ok selection
  merged : entryNamed o.shipped.patterns o.runnerConfig.patterns selection.selectedName = some entry
  read : paramTableOf entry["loop"]? = some table
  swapped : swappedEntry o selection table = .ok activityEntry
  requested : normalizeRequest n table o.request = .ok request
  carriers : checkCarriers n o table = .ok ()
  declared : activityDeclaredParamsOf n o = .ok activity
  resolved : applyInvariants table (allFloors selection entry activityEntry) entry activityEntry
    (layerParams (layersOf o selection entry request activity) table) = .ok p
  seated : resolveSeats (seatInputOf o entry["loop"]? (allFloors selection entry activityEntry) p) = .ok c.seats
  loop : c.loop = entry["loop"]?
  effective : c.params = p.effective
  pattern : c.pattern = selection.selectedName

theorem entryOr_eq_ok {entry : Fields} (h : entryOr o name = .ok entry) :
    entryNamed o.shipped.patterns o.runnerConfig.patterns name = some entry := by
  rw [entryOr] at h
  split at h
  · next heq =>
    cases h
    exact heq
  · cases h

theorem resolveCollaboration_eq_ok (h : resolveCollaboration n o = .ok c) :
    ∃ selection entry table activityEntry request activity p,
      Resolution n o c selection entry table activityEntry request activity p := by
  rw [resolveCollaboration] at h
  obtain ⟨_, hcatalog, h⟩ := bind_eq_ok.mp h
  obtain ⟨_, -, h⟩ := bind_eq_ok.mp h
  obtain ⟨_, -, h⟩ := bind_eq_ok.mp h
  obtain ⟨selection, hselection, h⟩ := bind_eq_ok.mp h
  obtain ⟨entry, hentry, h⟩ := bind_eq_ok.mp h
  cases htable : paramTableOf entry["loop"]? with
  | none =>
    rw [htable] at h
    cases h
  | some table =>
    rw [htable] at h
    obtain ⟨activityEntry, hswapped, h⟩ := bind_eq_ok.mp h
    obtain ⟨request, hrequest, h⟩ := bind_eq_ok.mp h
    obtain ⟨_, -, h⟩ := bind_eq_ok.mp h
    obtain ⟨_, hcarriers, h⟩ := bind_eq_ok.mp h
    obtain ⟨activity, hactivity, h⟩ := bind_eq_ok.mp h
    obtain ⟨p, hparams, h⟩ := bind_eq_ok.mp h
    obtain ⟨_, -, h⟩ := bind_eq_ok.mp h
    obtain ⟨seats, hseats, h⟩ := bind_eq_ok.mp h
    cases h
    refine ⟨selection, entry, table, activityEntry, request, activity, p, ?_, hselection, entryOr_eq_ok hentry, htable,
      hswapped, hrequest, hcarriers, hactivity, hparams, hseats, rfl, rfl, rfl⟩
    rw [eq_nil_iff_forall_not_mem]
    intro code hcode
    cases forM_eq_ok hcatalog code hcode

variable {selection : Selection} {entry request activity : Fields} {table : ParamTable} {activityEntry : Option Fields}
  {p : Params}

theorem paramTableOf_named {value : Option Json} (h : loopNamed value = some loop) :
    paramTableOf value = some loop.params := by
  match value, h with
  | some (.str name), h =>
    show (loopNamed (some (.str name))).map Loop.params = _
    rw [h]
    rfl

theorem Resolution.params_of_sound (r : Resolution n o c selection entry table activityEntry request activity p)
    (hentry : Sound n entry loop) : table = loop.params := by
  have hread := r.read
  rw [paramTableOf_named hentry.named] at hread
  exact (some.inj hread).symm

theorem swappedEntry_eq_ok {swapped : Fields} (h : swappedEntry o selection table = .ok (some swapped)) :
    ∃ name, selection.activityPattern = some name ∧ entryNamed o.shipped.patterns o.runnerConfig.patterns name = some swapped ∧
      ∀ param ∈ keysOf swapped["invariants"]?, (table.lookup param).isSome = true := by
  rw [swappedEntry] at h
  split at h
  · next name hname =>
    split at h
    · obtain ⟨found, hfound, h⟩ := bind_eq_ok.mp h
      obtain ⟨_, hkeys, h⟩ := bind_eq_ok.mp h
      cases h
      exact ⟨name, hname, entryOr_eq_ok hfound, List.all_eq_true.mp (check_eq_ok.mp hkeys)⟩
    · cases h
  · cases h

theorem activityDeclared_seats (h : activityDeclaredParamsOf n o = .ok activity) : SeatsChecked activity := by
  rw [activityDeclaredParamsOf] at h
  obtain ⟨_, -, h⟩ := bind_eq_ok.mp h
  dsimp only at h
  split at h
  · obtain ⟨_, -, h⟩ := bind_eq_ok.mp h
    obtain ⟨_, -, h⟩ := bind_eq_ok.mp h
    obtain ⟨_, hcheck, h⟩ := bind_eq_ok.mp h
    cases h
    exact seatsChecked_of_carrier hcheck
  · obtain ⟨_, -, h⟩ := bind_eq_ok.mp h
    obtain ⟨_, hcheck, h⟩ := bind_eq_ok.mp h
    cases h
    exact seatsChecked_of_carrier hcheck

theorem applyInvariants_eq_ok {floors : List Floor} {start : Params}
    (h : applyInvariants table floors entry activityEntry start = .ok p) :
    ∃ p₁, applyFixedInvariants entry["invariants"]? (some weakeningSlots) (addFloors table floors start) = .ok p₁ ∧
      match activityEntry with
      | some swapped => applyFixedInvariants swapped["invariants"]? none p₁ = .ok p
      | none => p₁ = p := by
  obtain ⟨p₁, hfirst, h⟩ := bind_eq_ok.mp h
  refine ⟨p₁, hfirst, ?_⟩
  cases activityEntry with
  | none => exact Except.ok.inj h
  | some swapped => exact h

/-- The seats of a resolution were checked, whatever layer they come from. -/
theorem Resolution.seats_checked (r : Resolution n o c selection entry table activityEntry request activity p)
    (hentry : Sound n entry loop) (hswapped : ∀ swapped, activityEntry = some swapped → ∃ loop, Sound n swapped loop) :
    ∀ raw, (p.effective["seats"]?).or (unitParts o.unit).seats = some raw → ∃ declared, checkDeclaredSeats raw = .ok declared := by
  obtain ⟨hselector, hunit, hloose⟩ := unitDeclared_seats r.carriers
  have hrequest : SeatsChecked request := by
    have hrequested := r.requested
    rw [r.params_of_sound hentry] at hrequested
    exact normalizeRequest_seats hrequested
  have hlayers : SeatsChecked (layerParams (layersOf o selection entry request activity) table).effective := by
    refine layerParams_seats hrequest hselector hunit ?_ fun raw hraw => seats_of_checkParamDomain (hentry.default hraw)
    intro a ha
    dsimp only [layersOf] at ha
    split at ha
    · cases ha
      exact activityDeclared_seats r.declared
    · cases ha
  obtain ⟨p₁, hfirst, hsecond⟩ := applyInvariants_eq_ok r.resolved
  have hp₁ := applyFixedInvariants_seats hentry hfirst (addFloors_seats hlayers)
  have hp : SeatsChecked p.effective := by
    cases activityEntry with
    | none =>
      obtain rfl : p₁ = p := hsecond
      exact hp₁
    | some swapped =>
      obtain ⟨_, hsound⟩ := hswapped swapped rfl
      exact applyFixedInvariants_seats hsound hsecond hp₁
  intro raw hraw
  rcases or_eq_some_iff.mp hraw with hraw | ⟨-, hraw⟩
  · exact hp raw hraw
  · refine hloose raw ?_
    rw [loosePartsOf, getElem?_record _ (by show List.Nodup ["seats", "roleTasks"]; decide)]
    exact hraw

theorem reviewed_of_minCheckers (h : (loop.params.lookup "minCheckers").isSome = true) : loop = .reviewed := by
  cases loop with
  | reviewed => rfl
  | solo | panel | debate => cases h

theorem Resolution.checks (r : Resolution n o c selection entry table activityEntry request activity p)
    (hentry : Sound n entry loop) (hswapped : ∀ swapped, activityEntry = some swapped → ∃ loop, Sound n swapped loop)
    (hread : (table.lookup "minCheckers").isSome = true) :
    ∀ floor ∈ allFloors selection entry activityEntry, ∃ seat ∈ c.seats, IsChecker floor.name seat := by
  have hloop : loop = .reviewed := reviewed_of_minCheckers (by rw [← r.params_of_sound hentry]; exact hread)
  refine resolveSeats_checks ?_ (r.seats_checked hentry hswapped) r.seated
  show loopNamed entry["loop"]? = some .reviewed
  rw [hentry.named, hloop]

theorem floor_of_atLeast {inv v : Json} (hinv : member entry["invariants"]? "minCheckers" = some inv)
    (hmem : v ∈ itemsOf (inv.field "atLeast")) : ⟨v, name⟩ ∈ floorsOf entry name := by
  rw [floorsOf, hinv]
  exact List.mem_map.mpr ⟨v, hmem, rfl⟩

/-- **The selected pattern's invariants are kept.** -/
theorem Resolution.keeps_entry (r : Resolution n o c selection entry table activityEntry request activity p)
    (hentry : Sound n entry loop) (hswapped : ∀ swapped, activityEntry = some swapped → ∃ loop, Sound n swapped loop) :
    Keeps entry["invariants"]? c where
  fixed := by
    intro param inv value hinv hvalue
    obtain ⟨p₁, hfirst, hsecond⟩ := applyInvariants_eq_ok r.resolved
    have hp₁ : p₁.effective[param]? = some value := by
      rw [applyFixedInvariants_effective hfirst, getElem?_spread hentry.invariants_plain, hinv]
      show (inv.field "fixed").or _ = _
      rw [hvalue]
      rfl
    rw [r.effective]
    cases activityEntry with
    | none =>
      obtain rfl : p₁ = p := hsecond
      exact ⟨value, hp₁, deepEqual_refl value⟩
    | some swapped =>
      obtain ⟨w, hw, hequal⟩ := applyFixedInvariants_agrees hsecond hp₁
      exact ⟨w, hw, deepEqual_symm hequal⟩
  atLeast := by
    intro param inv name hinv hname
    obtain ⟨hread, hform⟩ := hentry.invariant hinv
    rcases invariant_cases hform with ⟨rfl, -, -⟩ | ⟨hatLeast, -⟩
    · rw [← r.params_of_sound hentry] at hread
      exact r.checks hentry hswapped hread _ (mem_append_left _ (floor_of_atLeast hinv hname))
    · rw [hatLeast] at hname
      cases hname

/-- **So are those of the activity's pattern** that was swapped away from. -/
theorem Resolution.keeps_activity {swapped : Fields}
    (r : Resolution n o c selection entry table (some swapped) request activity p) (hentry : Sound n entry loop)
    (hswapped : ∃ loop, Sound n swapped loop)
    (hkeys : ∀ param ∈ keysOf swapped["invariants"]?, (table.lookup param).isSome = true) :
    Keeps swapped["invariants"]? c := by
  obtain ⟨_, hsound⟩ := hswapped
  have hall : ∀ other, some swapped = some other → ∃ loop, Sound n other loop := by
    intro other heq
    cases heq
    exact ⟨_, hsound⟩
  constructor
  · intro param inv value hinv hvalue
    obtain ⟨p₁, -, hsecond⟩ := applyInvariants_eq_ok r.resolved
    refine ⟨value, ?_, deepEqual_refl value⟩
    rw [r.effective, applyFixedInvariants_effective hsecond, getElem?_spread hsound.invariants_plain, hinv]
    show (inv.field "fixed").or _ = _
    rw [hvalue]
    rfl
  · intro param inv v hinv hv
    rcases invariant_cases (hsound.invariant hinv).2 with ⟨rfl, -, -⟩ | ⟨hatLeast, -⟩
    · have hread : (table.lookup "minCheckers").isSome = true := by
        refine hkeys _ ?_
        rw [keysOf, Std.ExtTreeMap.mem_keys, mem_iff_isSome_getElem?, getElem?_spread hsound.invariants_plain, hinv]
        rfl
      refine r.checks hentry hall hread ⟨v, selection.activityPattern.getD ""⟩ (mem_append_right _ ?_)
      exact floor_of_atLeast hinv hv
    · rw [hatLeast] at hv
      cases hv

/-- The loop and the invariants of the shipped patterns stand: those of the selected one, and where another one was asked
for than the activity's, those of the activity's. -/
def Unweakened (o : Options) (c : Collaboration) : Prop :=
  (∀ s, o.shipped.patterns[c.pattern]? = some s → c.loop = s["loop"]? ∧ Keeps s["invariants"]? c) ∧
    ∀ selection name, selectPattern o = .ok selection → selection.isSwap = true → selection.activityPattern = some name →
      (∃ entry, entryNamed o.shipped.patterns o.runnerConfig.patterns name = some entry ∧ Keeps entry["invariants"]? c) ∧
        ∀ s, o.shipped.patterns[name]? = some s → Keeps s["invariants"]? c

/-- **No layer weakens a shipped pattern.**  Where every shipped entry names a loop, a resolution that succeeds runs the
shipped loop and keeps the shipped invariants. -/
theorem shipped_invariants_kept (n : Numerals) (o : Options) (c : Collaboration)
    (hloops : NamesLoops o.shipped.patterns) (halone : checkCatalog n o.shipped.patterns ∅ = [])
    (h : resolveCollaboration n o = .ok c) : Unweakened o c := by
  obtain ⟨selection, entry, table, activityEntry, request, activity, p, r⟩ := resolveCollaboration_eq_ok h
  obtain ⟨loop, hentry, hshipped⟩ := entry_sound hloops halone r.catalog r.merged
  have hswapped : ∀ swapped, activityEntry = some swapped → ∃ loop, Sound n swapped loop := by
    rintro swapped rfl
    obtain ⟨name, -, hfound, -⟩ := swappedEntry_eq_ok r.swapped
    obtain ⟨loop, hsound, -⟩ := entry_sound hloops halone r.catalog hfound
    exact ⟨loop, hsound⟩
  constructor
  · intro s hs
    rw [r.pattern] at hs
    obtain ⟨hloop, hfollows⟩ := hshipped s hs
    exact ⟨r.loop.trans hloop, (r.keeps_entry hentry hswapped).of_follows hfollows⟩
  · intro selection' name hselected hswap hname
    obtain rfl : selection = selection' := Except.ok.inj (r.selected.symm.trans hselected)
    have hmoved := r.swapped
    rw [swappedEntry, hname] at hmoved
    dsimp only at hmoved
    rw [if_pos hswap] at hmoved
    obtain ⟨swapped, hfound, hmoved⟩ := bind_eq_ok.mp hmoved
    obtain ⟨_, hkeys, hmoved⟩ := bind_eq_ok.mp hmoved
    obtain rfl : some swapped = activityEntry := Except.ok.inj hmoved
    obtain ⟨_, hsound, hactivity⟩ := entry_sound hloops halone r.catalog (entryOr_eq_ok hfound)
    have hkeeps := r.keeps_activity hentry ⟨_, hsound⟩ (List.all_eq_true.mp (check_eq_ok.mp hkeys))
    exact ⟨⟨swapped, entryOr_eq_ok hfound, hkeeps⟩, fun s hs => hkeeps.of_follows (hactivity s hs).2⟩

end

/-! ### A swap in a case -/

namespace Sample

def numerals : Numerals where
  isPositiveInteger _ := false
  lt
    | .int a, .int b => a < b
    | _, _ => false
  number _ := .null

def entry (members : List (String × Json)) : Fields := Std.ExtTreeMap.ofList members

def atLeast (names : List String) : Json := .obj [("minCheckers", .obj [("atLeast", .arr (names.map .str))])]

def seat (name role : String) : Json := .obj [("seat", .str name), ("role", .str role)]

/-- A case whose activity runs one pattern, where the caller asks for `code-change`. -/
def options (patterns : Table Fields) (own : Table Json) (activityPattern : String) (unit : Json) : Options where
  unit := some unit
  selectors :=
    { callerObject := none, callerString := some (.str "code-change")
      activityUnit := some (.obj [("pattern", .str activityPattern)]) }
  request := some (.obj [("params", .obj [("maxRounds", nat 3)])])
  inCase := true
  reason := some (.str "the change is risky")
  runnerConfig := { patterns := own, capabilities := ∅, loops := ∅ }
  shipped := { patterns := patterns, checkersByRigor := Std.ExtTreeMap.ofList [("standard", ["reviewer"])] }

def codeChange : Fields := entry [("loop", .str "reviewed"), ("invariants", atLeast ["reviewer", "red-team"])]

def patterns : Table Fields :=
  Std.ExtTreeMap.ofList
    [("code-change", codeChange),
      ("rfc", entry [("loop", .str "reviewed"), ("invariants", atLeast ["red-team"]),
        ("defaults", .obj [("maxRounds", nat 1)])])]

/-- The project asks for a tester too, and the Unit declares a seat for everyone. -/
def swapped : Options :=
  options patterns (Std.ExtTreeMap.ofList [("code-change", Json.obj [("invariants", atLeast ["red-team", "tester", "reviewer"])])])
    "rfc" (.obj [("seats", .arr [seat "lead" "producer", seat "eyes" "reviewer", seat "foe" "red-team", seat "tries" "reviewer"])])

/-- A shipped pattern that names no loop, so that nobody checked the seat it fixes. -/
def loopless : Options :=
  options
    (Std.ExtTreeMap.ofList
      [("code-change", codeChange),
        ("direct", entry [("invariants", .obj [("seats", .obj [("fixed", .arr [.obj
          [("seat", .str "worker"), ("role", .str "producer"), ("posture", .obj [])]])])])])])
    ∅ "direct" (Json.obj [])

def resolvesWith (o : Options) (test : Collaboration → Bool) : Bool :=
  match resolveCollaboration numerals o with
  | .ok c => test c
  | .error _ => false

theorem exists_of_resolvesWith {o : Options} {test : Collaboration → Bool} (h : resolvesWith o test = true) :
    ∃ c, resolveCollaboration numerals o = .ok c ∧ test c = true := by
  rw [resolvesWith] at h
  split at h
  · next c hc => exact ⟨c, hc, h⟩
  · cases h

theorem namesLoops_of_all {patterns : Table Fields} (h : patterns.toList.all (fun e => (loopNamed e.2["loop"]?).isSome) = true) :
    NamesLoops patterns := by
  intro name s _ hs
  exact List.all_eq_true.mp h (name, s) (mem_toList_iff_getElem?_eq_some.mpr hs)

end Sample

theorem swap_keeps_both_patterns :
    ∃ c, resolveCollaboration Sample.numerals Sample.swapped = .ok c ∧ c.pattern = "code-change" ∧ c.seats.length = 4 ∧
      Unweakened Sample.swapped c := by
  have hresolves : Sample.resolvesWith Sample.swapped (fun c => c.pattern = "code-change" && c.seats.length = 4) = true := by
    decide
  obtain ⟨c, hc, htest⟩ := Sample.exists_of_resolvesWith hresolves
  rw [Bool.and_eq_true, decide_eq_true_eq, decide_eq_true_eq] at htest
  exact ⟨c, hc, htest.1, htest.2, shipped_invariants_kept Sample.numerals Sample.swapped c
    (Sample.namesLoops_of_all (by decide)) (by decide) hc⟩

/-- A shipped catalog that is accepted alone may hold a pattern that names no loop, and nobody checks its sections: the
seat it fixes comes with its posture and is taken as it is, without the checkers of the pattern that was asked for. -/
theorem unchecked_seats_stand_alone :
    ¬ ∀ (n : Numerals) (o : Options) (c : Collaboration), checkCatalog n o.shipped.patterns ∅ = [] →
      resolveCollaboration n o = .ok c → Unweakened o c := by
  intro hall
  have hresolves : Sample.resolvesWith Sample.loopless
      (fun c => c.pattern = "code-change" && c.seats.all fun s => s["role"]? ≠ some (.str "red-team")) = true := by
    decide
  obtain ⟨c, hc, htest⟩ := Sample.exists_of_resolvesWith hresolves
  rw [Bool.and_eq_true, decide_eq_true_eq, List.all_eq_true] at htest
  obtain ⟨hpattern, hseats⟩ := htest
  obtain ⟨hselected, -⟩ := hall Sample.numerals Sample.loopless c (by decide) hc
  have hshipped : Sample.loopless.shipped.patterns[c.pattern]? = some Sample.codeChange := by
    rw [hpattern]
    decide
  obtain ⟨-, hkeeps⟩ := hselected Sample.codeChange hshipped
  obtain ⟨seat, hseat, text, checker, hname, hchecker, hrole, -⟩ :=
    hkeeps.atLeast "minCheckers" (.obj [("atLeast", .arr [.str "reviewer", .str "red-team"])]) (.str "red-team") (by decide)
      (by decide)
  cases hname
  obtain rfl : checker = ⟨"red-team", true⟩ := (some.inj (hchecker.symm.trans (by decide)))
  exact of_decide_eq_true (hseats seat hseat) hrole

end Forgent.Patterns
