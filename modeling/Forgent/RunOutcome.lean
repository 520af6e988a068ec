import Forgent.Value

/-!
# What a stored result is worth

A worker can rewrite the record of its run.  A reader therefore gives `runOutcome` a floor, which is derived from the
evidence once more.

* `deriveEvidenceFloor`, `interpretRunResult`, `deriveOutcome`, `runOutcome`: the functions.
* `outcome_within_floor_iff`: when an outcome asserts no more than the floor.
-/

namespace Forgent.RunOutcome

open Json

/-! ### The floor -/

structure Floor where
  status : Json
  confidence : Json
  deriving DecidableEq

/-- Whether a path is a claim in an outbox: `/[/\\]outbox[/\\]result-\d+\.json$/`. -/
def isOutboxResult (path : List Char) : Bool :=
  ((path.reverse.map fun c => if c = '\\' then '/' else c).dropPrefix? ".json".toList.reverse).any fun named =>
    named.head?.any Char.isDigit && "/outbox/result-".toList.reverse.isPrefixOf (named.dropWhile Char.isDigit)

/-- What a worker left beside its claim. -/
def isCompanion : Json → Bool
  | .str path => !"agent-result.json".toList.isSuffixOf path.toList && !isOutboxResult path.toList
  | _ => false

def items : Option Json → List Json
  | some (.arr items) => items
  | _ => []

/-- The number, its absence, or its being another value. -/
def exitCode : Option Json → Option Number
  | some (.num n) => some n
  | _ => none

def deriveEvidenceFloor (evidenceFloor : Json) : Floor :=
  let read := member (some evidenceFloor)
  match read "status", read "confidence" with
  | some status, some confidence => ⟨status, confidence⟩
  | _, _ =>
    let code := exitCode (read "exitCode")
    let isTimeout := read "isTimeout" = some (.bool true)
    let signalled := match read "signal" with
      | some (.str signal) => signal ≠ ""
      | _ => false
    let claim := orElse (read "agentClaim") none
    let isReadOnly := read "isReadOnlyOperation" = some (.bool true)
    let hasWorkerReport := (items (read "workerArtifacts")).any isCompanion
    let hasExternalEvidence := !(items (read "changedFiles")).isEmpty || read "hasDirtyBeforeMutation" = some (.bool true)
    if isTimeout || code.any (!isZero ·) || signalled then ⟨.str "failed", .str "failed"⟩
    else if read "claimInvalid" = some (.bool true) then ⟨.str "failed", .str "failed"⟩
    else if member claim "status" = some (.str "failed") then
      if member (member claim "assessment") "verdict" = some (.str "findings") && hasWorkerReport && code.any isZero &&
          !isTimeout then ⟨.str "failed", .str "reported"⟩
      else ⟨.str "failed", .str "failed"⟩
    else if member claim "status" = some (.str "blocked") then ⟨.str "blocked", .str "reported"⟩
    else if member claim "status" = some (.str "done") then
      if isReadOnly then
        if hasWorkerReport then ⟨.str "done", .str "reported"⟩ else ⟨.str "no-evidence", .str "no-evidence"⟩
      else if hasExternalEvidence then ⟨.str "done", .str "verified"⟩
      else ⟨.str "no-evidence", .str "no-evidence"⟩
    else if !isReadOnly && hasExternalEvidence then ⟨.str "done", .str "inferred"⟩
    else ⟨.str "no-evidence", .str "no-evidence"⟩

def isRelied (level : Json) : Bool := level = .str "reported" || level = .str "verified"

namespace Floor

variable (floor : Floor)

/-- `derivedAdvances`. -/
def advances : Bool := floor.status = .str "done" && isRelied floor.confidence

def denies : Bool := floor.status = .str "failed" || floor.status = .str "no-evidence"

end Floor

/-! ### The record -/

/-- What `runOutcome` reads of an interpreted record. -/
structure Result where
  corrupt : Bool
  classification : Option Json

def corruptResult (code : String) : Result :=
  ⟨true, some (.obj [("failure", .obj [("family", .str "contract"), ("code", .str code)])])⟩

/-- The classification that is read from a record of the first version. -/
def legacyClassification (record : Json) : Json :=
  let read := member (some record)
  let status := if truthy (read "status") then read "status" else some (.str "no-evidence")
  let confidence := if truthy (read "confidence") then read "confidence"
    else some (.str (if status = some (.str "done") then "reported" else "failed"))
  let classified (execution verdict : String) (failure : Option String) : Json :=
    .obj [("execution", .obj [("status", .str execution)]), ("assessment", .obj [("verdict", .str verdict)]),
      ("confidence", .obj [("level", orNull confidence)]),
      ("failure", failure.elim .null fun code => .obj [("family", .str "unknown"), ("code", .str code)]),
      ("policy", .obj [("disposition", .str "not-applicable"), ("code", .null)]), ("provenance", .str "legacy-derived")]
  if status = some (.str "no-evidence") || confidence = some (.str "no-evidence") then
    classified "completion-unknown" "inconclusive" (some "no-evidence")
  else if status = some (.str "failed") &&
      (confidence = some (.str "failed") || truthy (member (read "runtime") "isTimeout")) then
    classified "failed" "not-applicable" (some "legacy-failure")
  else if status = some (.str "failed") &&
      member (member (read "agentClaim") "assessment") "verdict" = some (.str "findings") then
    classified "completed" "findings" none
  else if status = some (.str "blocked") then classified "completed" "blocked" none
  else if status = some (.str "done") then classified "completed" "pass" none
  else classified "completed" "not-applicable" none

/-- `RECOGNIZED_LEGACY_STATUSES`. -/
def recognizedLegacyStatuses : List Json := [.str "done", .str "failed", .str "blocked", .str "no-evidence"]

section

-- `validateRunResultV3` and `validateRunResultV2` on a record of their version
variable (isValid : ℕ → Json → Bool)

def stored (version : ℕ) (record : Json) : Result :=
  let read := member (some record)
  if isValid version record then
    ⟨truthy (read "corrupt") || truthy (read "contractCorrupt") || truthy (read "resultCorrupt"), read "classification"⟩
  else corruptResult "contract-corrupt"

def interpretRunResult (record : Json) : Result :=
  let read := member (some record)
  let isVersion (version : ℤ) := member (read "contract") "version" = some (.num (.int version)) &&
    member (read "contract") "id" = some (.str "assignment-run-result")
  match record with
  | .obj _ =>
    if isVersion 3 then stored isValid 3 record
    else if isVersion 2 then stored isValid 2 record
    else if read "contract" ≠ none then corruptResult "contract-corrupt"
    else if !truthy (read "status") && !truthy (read "runId") then corruptResult "invalid-run-result-structure"
    else if ∀ status ∈ orElse (read "status") none, status ∈ recognizedLegacyStatuses then
      ⟨false, some (legacyClassification record)⟩
    else corruptResult "non-standard-status"
  | _ => corruptResult "invalid-run-result-structure"

end

/-- `deriveOutcome`: the category of a classification. -/
def deriveOutcome (classification : Option Json) : String :=
  let text (part field : String) := match member (member classification part) field with
    | some (.str s) => some s
    | _ => none
  let execution := (text "execution" "status").getD "unknown"
  let verdict := (text "assessment" "verdict").getD "inconclusive"
  let disposition := (text "policy" "disposition").getD "allow"
  let family := (text "failure" "family").filter (· ≠ "")
  match classification with
  | some (.obj _) =>
    if member classification "provenance" = some (.str "contract-corrupt") then "corrupt"
    else if family = some "provider" && text "failure" "code" = some "blocked" then "blocked"
    else if execution ∈ ["failed", "cancelled", "completion-unknown"] &&
      family ∈ [none, some "provider", some "resource", some "unknown"] then "infra"
    else if disposition = "refuse" || family ∈ [some "contract", some "policy"] then "policy"
    else if disposition = "needs-input" then "infra"
    else if verdict = "blocked" then "blocked"
    else if verdict ∈ ["pass", "not-applicable"] && execution = "completed" then "ok"
    else "verdict"
  | _ => "corrupt"

namespace Result

variable (result : Result)

/-- Whether the reader refuses the record. -/
def isCorrupt : Bool := result.corrupt || member result.classification "provenance" = some (.str "contract-corrupt")

/-- The category the record asserts. -/
def category : Json :=
  let stored := member (member result.classification "outcome") "category"
  if truthy stored then orNull stored else .str (deriveOutcome result.classification)

/-- The level the record asserts. -/
def level : Json := orNull (orElse (member (member result.classification "confidence") "level") (some (.str "none")))

end Result

/-! ### The outcome -/

structure Outcome where
  category : Json
  executed : Json
  verdict : Json
  refused : Bool
  evidence : Json
  satisfied : Bool
  infraFailure : Bool
  failure : Json
  deriving DecidableEq

def Floor.clamp (floor : Floor) (category level : Json) : Json × Json :=
  let settlesAdvance := category = .str "ok" && isRelied level
  if !floor.advances || settlesAdvance then
    if floor.status = .str "failed" then (.str "infra", orNull (orElse (some floor.confidence) (some (.str "failed"))))
    else if floor.status = .str "no-evidence" then
      (.str "infra", orNull (orElse (some floor.confidence) (some (.str "no-evidence"))))
    else (category, level)
  else (category, level)

/-- The floor, where one is given. -/
def floorOf : Option Json → Option Floor
  | some (.obj facts) => some (deriveEvidenceFloor (.obj facts))
  | some (.arr facts) => some (deriveEvidenceFloor (.arr facts))
  | _ => none

/-- `runOutcome` of an interpreted record. -/
def runOutcome (result : Result) (evidenceFloor : Option Json) : Outcome :=
  let floor := floorOf evidenceFloor
  let failure := member result.classification "failure"
  if result.isCorrupt then
    let bare := floor.any fun f => f.confidence = .str "no-evidence" || f.status = .str "no-evidence"
    ⟨.str "corrupt", .str "unknown", .str "inconclusive", true, .str (if bare then "no-evidence" else "failed"), false, true,
      orNull (orElse failure (some (.obj [("family", .str "contract"), ("code", .str "corrupt-record")])))⟩
  else
    let read := fun part field (absent : String) =>
      orNull (orElse (member (member result.classification part) field) (some (.str absent)))
    let (category, evidence) := floor.elim (result.category, result.level) fun f => f.clamp result.category result.level
    ⟨category, read "execution" "status" "unknown", read "assessment" "verdict" "inconclusive",
      category = .str "policy" || member (member result.classification "policy") "disposition" = some (.str "refuse"),
      evidence, category = .str "ok", category = .str "infra" || category = .str "corrupt", orNull failure⟩

/-! ### What it asserts -/

/-- The strength of a level of evidence. -/
def strength : Json → ℕ
  | .str level => if level = "verified" then 3 else if level = "reported" then 2 else if level = "inferred" then 1 else 0
  | _ => 0

/-- What is asserted goes no further than the floor. -/
structure Bounded (floor : Floor) (satisfied : Bool) (level : Json) : Prop where
  satisfied : satisfied = true → floor.advances = true
  evidence : strength level ≤ strength floor.confidence

section

variable {result : Result} {floor : Floor}

theorem clamp_denies (h : floor.denies = true) (category level : Json) : floor.advances = false ∧
    (floor.clamp category level).1 = .str "infra" ∧ strength (floor.clamp category level).2 = strength floor.confidence := by
  obtain ⟨status, confidence⟩ := floor
  rcases of_decide_eq_true (by simpa [Floor.denies] using h : decide (status = .str "failed" ∨ status = .str "no-evidence") = true)
    with rfl | rfl
  · cases confidence <;> simp [Floor.clamp, Floor.advances, orElse, orNull, strength]
  · cases confidence <;> simp [Floor.clamp, Floor.advances, orElse, orNull, strength]

theorem clamp_of_not_denies (h : floor.denies = false) (category level : Json) :
    floor.clamp category level = (category, level) := by
  simp only [Floor.denies, Bool.or_eq_false_iff, decide_eq_false_iff_not] at h
  simp [Floor.clamp, h.1, h.2]

end

/-- **When an outcome asserts no more than its floor**: the record is corrupt, the floor denies, or the record asserts no
more by itself. -/
theorem outcome_within_floor_iff (isValid : ℕ → Json → Bool) (record : Json) (facts : List (String × Json)) :
    Bounded (deriveEvidenceFloor (.obj facts)) (runOutcome (interpretRunResult isValid record) (some (.obj facts))).satisfied
        (runOutcome (interpretRunResult isValid record) (some (.obj facts))).evidence ↔
      (interpretRunResult isValid record).isCorrupt = true ∨ (deriveEvidenceFloor (.obj facts)).denies = true ∨
        Bounded (deriveEvidenceFloor (.obj facts)) ((interpretRunResult isValid record).category = .str "ok")
          (interpretRunResult isValid record).level := by
  generalize interpretRunResult isValid record = result
  have hfloor : floorOf (some (.obj facts)) = some (deriveEvidenceFloor (.obj facts)) := rfl
  rw [runOutcome, hfloor]
  generalize deriveEvidenceFloor (.obj facts) = floor
  cases hcorrupt : result.isCorrupt with
  | true =>
    refine iff_of_true ⟨nofun, ?_⟩ (.inl rfl)
    simp only [if_true]
    split <;> exact Nat.zero_le _
  | false =>
    simp only [Bool.false_eq_true, if_false, Option.elim_some, false_or]
    cases hdenies : floor.denies with
    | true =>
      obtain ⟨_, hcategory, hlevel⟩ := clamp_denies hdenies result.category result.level
      refine iff_of_true ⟨fun hok => ?_, hlevel.le⟩ (.inl rfl)
      simp [hcategory] at hok
    | false =>
      simp [clamp_of_not_denies hdenies]

/-! ### A record that was flipped -/

namespace Flipped

def record : Json := .obj [("status", .str "done")]

def facts : List (String × Json) := [("exitCode", .num (.int 0)), ("agentClaim", .obj [("status", .str "blocked")])]

/-- A floor that is blocked lets a record pass that says done. -/
theorem flipped_record_passes : ¬ ∀ (isValid : ℕ → Json → Bool) (record : Json) (facts : List (String × Json)),
    Bounded (deriveEvidenceFloor (.obj facts)) (runOutcome (interpretRunResult isValid record) (some (.obj facts))).satisfied
      (runOutcome (interpretRunResult isValid record) (some (.obj facts))).evidence := by
  intro hclaim
  have hadvances := (hclaim (fun _ _ => true) record facts).satisfied (by decide)
  exact absurd hadvances (by decide)

end Flipped

end Forgent.RunOutcome
