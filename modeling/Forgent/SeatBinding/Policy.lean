import Forgent.Envelope
import Forgent.Value
import Mathlib.Order.MinMax

/-!
# The tier of a seat

The tier a seat is worked at is declared in several places, of which the first that declares one counts, and a ceiling
lowers it.  Only an authorized door may raise it.

* `resolveTier`, `resolveMax`, `applyCap`, `policy`: the functions.
* `policy_eq_ok`: the tier that is resolved, and the checks it passed.
* `tier_not_raised`: without authorization neither an override nor a persona raises the tier, and nothing lifts it above
  the ceiling.
-/

namespace Forgent.SeatBinding

open Option

/-! ### Configuration -/

/-- The tiers, weakest first. -/
inductive Tier where
  | nano
  | mini
  | standard
  | advanced
  | flagship
  | frontier

namespace Tier

def strength : Tier → ℕ
  | .nano => 1
  | .mini => 2
  | .standard => 3
  | .advanced => 4
  | .flagship => 5
  | .frontier => 6

theorem strength_injective : Function.Injective strength := by
  intro a b h
  cases a <;> cases b <;> first | rfl | cases h

instance : LinearOrder Tier := LinearOrder.lift' strength strength_injective

end Tier

inductive Role where
  | producer
  | synthesizer
  | reviewer
  | redTeam
  | judge

def Role.name : Role → String
  | .producer => "producer"
  | .synthesizer => "synthesizer"
  | .reviewer => "reviewer"
  | .redTeam => "red-team"
  | .judge => "judge"

structure CapabilityEntry where
  tier : Option Tier
  maxTier : Option Tier
  /-- The tiers of the scopes. -/
  roles : Table (Option Tier)
  personas : Table (Option Tier)
  seats : Table (Option Tier)

/-- What the runner config says of tiers. -/
structure Config where
  /-- `defaults.tier`. -/
  tier : Tier
  maxTier : Option Tier
  capabilities : Table CapabilityEntry

/-- A tier the workflow recommends on the seat, and where it was declared. -/
structure WorkflowTier where
  tier : Tier
  source : String

structure Ask where
  capability : String
  seat : String
  role : Role
  persona : Option String
  workflow : Option WorkflowTier
  /-- `selectors.persona`: the persona an override names for the seat. -/
  selectors : Option String
  raiseAuthorized : Bool
  /-- `override.tier`. -/
  override : Option Tier

namespace Ask

variable (ask : Ask)

/-- The same ask with the override and all selectors removed. -/
def plain : Ask := { ask with selectors := none, override := none }

def overrides : Bool := ask.raiseAuthorized && (ask.override.isSome || ask.selectors.isSome)

end Ask

/-! ### Resolution -/

def capPath (key : String) : String := "capabilities.\"" ++ key ++ "\""

/-- `<prefix>:*` for a capability containing `:`. -/
def prefixKey (capability : String) : Option String :=
  if ':' ∈ capability.toList then some (.ofList (capability.toList.takeWhile (· ≠ ':')) ++ ":*") else none

section

variable (config : Config) (capability : String)

def entries : List (String × CapabilityEntry) :=
  (capability :: (prefixKey capability).toList).filterMap fun key => config.capabilities[key]?.map (capPath key, ·)

def declaredIn (scopes : CapabilityEntry → Table (Option Tier)) (group name : String) : Option (Tier × String) :=
  (entries config capability).findSome? fun (path, entry) =>
    ((scopes entry)[name]?.join).map (·, path ++ "." ++ group ++ "." ++ name ++ ".tier")

def resolveTier (seat : String) (persona : Option String) (role : Role) (workflow : Option WorkflowTier) : Tier × String :=
  (declaredIn config capability CapabilityEntry.seats "seats" seat <|>
    persona.bind (declaredIn config capability CapabilityEntry.personas "personas") <|>
    declaredIn config capability CapabilityEntry.roles "roles" role.name <|>
    workflow.map (fun recommended => (recommended.tier, recommended.source)) <|>
    (entries config capability).findSome? fun (path, entry) => entry.tier.map (·, path ++ ".tier")).getD
      (config.tier, "defaults.tier")

/-- The ceiling; absent means none. -/
def resolveMax : Option (Tier × String) :=
  ((entries config capability).findSome? fun (path, entry) => entry.maxTier.map (·, path ++ ".maxTier")) <|>
    config.maxTier.map (·, "maxTier")

end

structure Lowered where
  source : Tier
  fromSource : String
  reason : String

structure Capped where
  tier : Tier
  source : String
  lowered : Option Lowered

def applyCap (tier : Tier × String) : Option (Tier × String) → Capped
  | some max => if max.1 < tier.1 then ⟨max.1, max.2, some ⟨tier.1, tier.2, "max-tier-cap"⟩⟩ else ⟨tier.1, tier.2, none⟩
  | none => ⟨tier.1, tier.2, none⟩

structure MaxTier where
  value : Tier
  source : String
  applied : Bool

structure Policy (σ : Type) where
  tier : Tier
  tierSource : String
  raisedBy : Option String
  recommendation : Option WorkflowTier
  loweredFrom : Option Lowered
  maxTier : Option MaxTier
  /-- The `prefer` list, the tier fallback and the cells at the tier. -/
  served : σ
  seatTierPath : String

/-- The `reason` of a refusal, and the config line it names. -/
structure Refusal where
  reason : String
  config : Option String

def unauthorized : Refusal := ⟨"tier-escalation-unauthorized", none⟩

section

variable (config : Config) (ask : Ask)

/-- The tier of the ask before any check. -/
def resolved : Tier × String :=
  resolveTier config ask.capability ask.seat (ask.selectors <|> ask.persona) ask.role ask.workflow

/-- A persona an override names that lifts the tier above the answer without it is a raise. -/
def raisedBy : Except Refusal (Option String) :=
  let max := resolveMax config ask.capability
  if ask.selectors.isNone then .ok none
  else if (applyCap (resolved config ask.plain) max).tier < (applyCap (resolved config ask) max).tier then
    if !ask.raiseAuthorized then .error unauthorized else .ok (some "selector:persona")
  else .ok none

/-- An override at or below the resolved tier is accepted; above needs an authorized door. -/
def overridden (tier : Tier × String) : Except Refusal (Tier × String) :=
  match ask.override with
  | none => .ok tier
  | some requested =>
    if tier.1 < requested && !ask.raiseAuthorized then .error unauthorized else .ok (requested, "override")

/-- `policy`, where `valid` is what `validate` answers on the config, and `serve` reads what is served at a tier. -/
def policy {σ : Type} (valid : Except Refusal Unit) (serve : Ask → Tier → Except Refusal σ) : Except Refusal (Policy σ) := do
  valid
  let max := resolveMax config ask.capability
  let raised ← raisedBy config ask
  let tier ← overridden ask (resolved config ask)
  let capped := applyCap tier max
  let served ← serve ask capped.tier
  return {
    tier := capped.tier
    tierSource := capped.source
    raisedBy := raised
    recommendation := ask.workflow.filter fun recommended => recommended.source ≠ (resolved config ask).2
    loweredFrom := capped.lowered
    maxTier := max.map fun ceiling => ⟨ceiling.1, ceiling.2, capped.lowered.isSome⟩
    served
    seatTierPath := capPath ask.capability ++ ".seats." ++ ask.seat ++ ".tier" }

end

/-! ### No escalation -/

section

variable {config : Config} {ask : Ask} {max : Option (Tier × String)} {tier asked ceiling : Tier × String} {σ : Type}
  {valid : Except Refusal Unit} {serve : Ask → Tier → Except Refusal σ} {p : Policy σ}

theorem applyCap_tier : (applyCap tier max).tier = max.elim tier.1 fun ceiling => min tier.1 ceiling.1 := by
  cases max with
  | none => rfl
  | some ceiling =>
    rw [applyCap, elim_some]
    split
    · next hlt => exact (min_eq_right hlt.le).symm
    · next hle => exact (min_eq_left (not_lt.mp hle)).symm

theorem applyCap_mono (h : tier.1 ≤ asked.1) : (applyCap tier max).tier ≤ (applyCap asked max).tier := by
  rw [applyCap_tier, applyCap_tier]
  cases max with
  | none => exact h
  | some ceiling => exact min_le_min h (le_refl ceiling.1)

theorem applyCap_le (h : ceiling ∈ max) : (applyCap tier max).tier ≤ ceiling.1 := by
  rw [applyCap_tier, mem_def.mp h]
  exact min_le_right tier.1 ceiling.1

theorem overridden_le (hno : ask.raiseAuthorized = false) (h : overridden ask tier = .ok asked) : asked.1 ≤ tier.1 := by
  rw [overridden] at h
  split at h
  · cases h
    exact le_refl tier.1
  · split at h
    · cases h
    · next hkeeps =>
      cases h
      simpa [hno] using hkeeps

theorem raisedBy_le {raised : Option String} (hno : ask.raiseAuthorized = false) (h : raisedBy config ask = .ok raised) :
    (applyCap (resolved config ask) (resolveMax config ask.capability)).tier ≤
      (applyCap (resolved config ask.plain) (resolveMax config ask.capability)).tier := by
  rw [raisedBy] at h
  split at h
  · next hnone =>
    rw [resolved, isNone_iff_eq_none.mp hnone]
    exact le_refl _
  · by_contra hraises
    rw [hno, Bool.not_false, if_pos rfl, if_pos (not_le.mp hraises)] at h
    cases h

theorem policy_eq_ok (h : policy config ask valid serve = .ok p) : ∃ raised asked,
    raisedBy config ask = .ok raised ∧ overridden ask (resolved config ask) = .ok asked ∧
    p.tier = (applyCap asked (resolveMax config ask.capability)).tier ∧
    p.maxTier.map MaxTier.value = (resolveMax config ask.capability).map Prod.fst := by
  obtain ⟨_, _, h⟩ := bind_eq_ok.mp h
  obtain ⟨raised, hraised, h⟩ := bind_eq_ok.mp h
  obtain ⟨asked, hasked, h⟩ := bind_eq_ok.mp h
  obtain ⟨_, _, h⟩ := bind_eq_ok.mp h
  cases h
  exact ⟨raised, asked, hraised, hasked, rfl, by simp [Function.comp_def]⟩

/-- **No escalation**: without an authorized override the tier is at most the one of the plain ask, and it is never above
the ceiling. -/
theorem tier_not_raised (h : policy config ask valid serve = .ok p) :
    (ask.overrides = false → ∀ plain, policy config ask.plain valid serve = .ok plain → p.tier ≤ plain.tier) ∧
      ∀ ceiling ∈ p.maxTier, p.tier ≤ ceiling.value := by
  obtain ⟨raised, asked, hraised, hasked, htier, hmax⟩ := policy_eq_ok h
  constructor
  · intro hno plain hplain
    cases hauthorized : ask.raiseAuthorized with
    | true =>
      have hnone : ask.override = none ∧ ask.selectors = none := by simpa [Ask.overrides, hauthorized] using hno
      have hsame : ask.plain = ask := by
        rw [Ask.plain, ← hnone.1, ← hnone.2]
      rw [hsame, h] at hplain
      exact le_of_eq (congrArg Policy.tier (Except.ok.inj hplain))
    | false =>
      obtain ⟨_, _, _, hbase, hplainTier, _⟩ := policy_eq_ok hplain
      cases hbase
      rw [htier, hplainTier]
      exact (applyCap_mono (overridden_le hauthorized hasked)).trans (raisedBy_le hauthorized hraised)
  · intro ceiling hceiling
    rw [mem_def.mp hceiling] at hmax
    obtain ⟨max, hresolved, heq⟩ := map_eq_some_iff.mp hmax.symm
    rw [htier, ← heq]
    exact applyCap_le hresolved

end

/-- A capability with a ceiling, for which one persona works at a tier of its own. -/
def reviewing : Config where
  tier := .standard
  maxTier := none
  capabilities := (∅ : Table CapabilityEntry).insert "review"
    ⟨some .frontier, some .advanced, ∅, (∅ : Table (Option Tier)).insert "junior" (some .mini), ∅⟩

/-- The persona is chosen, and its tier is overridden. -/
def junior : Ask := ⟨"review", "checker", .reviewer, none, none, some "junior", false, some .nano⟩

theorem junior_not_raised : ∃ p plain, policy reviewing junior (.ok ()) (fun _ _ => .ok ()) = .ok p ∧
    policy reviewing junior.plain (.ok ()) (fun _ _ => .ok ()) = .ok plain ∧ p.tier ≤ plain.tier ∧
    ∀ ceiling ∈ p.maxTier, p.tier ≤ ceiling.value := by
  have h := @tier_not_raised reviewing junior Unit (.ok ()) (fun _ _ => .ok ()) _ rfl
  exact ⟨_, _, rfl, rfl, h.1 rfl _ rfl, h.2⟩

end Forgent.SeatBinding
