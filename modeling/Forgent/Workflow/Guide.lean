import Forgent.Graph.DepthFirst

/-!
# The guide of a Workflow

The definition a Workflow run advances, and the guide that is read from it: milestones, the activities that
need some of them and produce others, the decision points, and the hard rules, each of which names one check.

* `ancestorsOf`: the activities whose result an activity builds on; `isDownstream`: whether an activity comes
  after a milestone.
* `ComesAfter`, `isDownstream_iff`: what that means, without the walk.
-/

namespace Forgent.Workflow

/-! ### The definition -/

inductive GateMode where
  | consent
  | input
  deriving DecidableEq

/-- A person's gate of a step. -/
structure StepGate where
  kind : String
  mode : Option GateMode
  question : Option String
  header : Option String
  deriving DecidableEq

inductive StepKind where
  | standard
  | integrate
  | other (kind : String)
  deriving DecidableEq

structure StepUnit where
  id : String
  writes : List String
  acceptOutcomes : Option (List String)
  deriving DecidableEq

structure Step where
  id : String
  dependsOn : List String
  kind : StepKind
  gate : Option StepGate
  units : List StepUnit
  deriving DecidableEq

/-! ### The guide -/

inductive GuideKind where
  | playbook
  | guide
  deriving DecidableEq

inductive Effects where
  | none
  | writes
  deriving DecidableEq

/-- The checks a hard rule may name. -/
inductive Guard where
  | milestoneReached
  | humanConsent
  | verifyReceipt
  | writeScopeIsolation
  | independenceBlind
  | frameAllowance
  | platform (name : String)
  deriving DecidableEq

structure Activity where
  id : String
  entry : List String
  produces : List String
  effects : Effects
  deriving DecidableEq

structure Decision where
  at_ : String
  should : List String
  mayInstead : List String
  reason : Option String
  listedRoutesOnly : Bool
  gate : Option GateMode
  deriving DecidableEq

structure MustRow where
  id : String
  guard : Guard
  subject : Option String
  deriving DecidableEq

/-- The frame a case runs under: `none` is a count that was left to the approver, or not given. -/
structure Frame where
  dispatches : Option ℕ
  mutatingDispatches : Option ℕ
  fallbackPerSeat : Option ℕ
  deviationsBeforeAsk : Option ℕ
  seatLaunchesPerDispatch : Option ℕ
  rigorFloor : Option String
  deriving DecidableEq

/-- The guide model.  Its activities have different ids. -/
structure Guide where
  kind : GuideKind
  milestones : List String
  activities : List Activity
  decisions : List Decision
  must : List MustRow
  frameDefaults : Option Frame
  closure : List String
  uniqueIds : (activities.map Activity.id).Nodup
  deriving DecidableEq

/-- The part of a Workflow definition that a run reads; a stored one may have no guide.  A definition with two steps
of one id is refused when it is read. -/
structure Definition where
  id : String
  steps : List Step
  guide : Option Guide
  uniqueSteps : (steps.map Step.id).Nodup
  deriving DecidableEq

namespace Guide

variable (guide : Guide) {activity : Activity} {id : String} {builder : Activity}

def activityOf (id : String) : Option Activity := guide.activities.find? (·.id == id)

/-- The milestones the activity `id` produces. -/
def producesOf (id : String) : List String := ((guide.activityOf id).map Activity.produces).getD []

/-- A delivery milestone needs `pass` plus a current verify receipt; every other one accepts `findings`. -/
def isDeliveryMilestone (milestoneId : String) : Bool :=
  guide.must.any fun row => row.guard == .verifyReceipt && row.subject == some milestoneId

def producersOf (milestoneId : String) : List Activity :=
  guide.activities.filter (·.produces.contains milestoneId)

/-- What an activity builds on directly: the producers of the milestones it needs. -/
def buildsOn (activity : Activity) : List Activity := activity.entry.flatMap guide.producersOf

/-- Activities whose result the given activity builds on, directly or through the milestones it needs. -/
def ancestorsOf (activity : Activity) : List Activity :=
  DepthFirst.behind guide.buildsOn (guide.activities.length + 1) activity

/-- Whether `activity` comes after milestone `id`: it needs it, or builds on an activity that produces it. -/
def isDownstream (activity : Activity) (id : String) : Bool :=
  activity.entry.contains id || (guide.producersOf id).any ((guide.ancestorsOf activity).contains ·)

/-! ### What comes after a milestone -/

variable {guide}

theorem mem_producersOf : activity ∈ guide.producersOf id ↔ activity ∈ guide.activities ∧ id ∈ activity.produces := by
  simp [producersOf]

theorem mem_buildsOn : builder ∈ guide.buildsOn activity ↔
      builder ∈ guide.activities ∧ ∃ id ∈ activity.entry, id ∈ builder.produces := by
  simp only [buildsOn, List.mem_flatMap, mem_producersOf]
  constructor
  · intro h
    obtain ⟨id, hentry, hmem, hproduces⟩ := h
    exact ⟨hmem, id, hentry, hproduces⟩
  · intro h
    obtain ⟨hmem, id, hentry, hproduces⟩ := h
    exact ⟨id, hentry, hmem, hproduces⟩

variable (guide) in
/-- The activity needs the milestone, or builds, through any number of activities, on one that produces it. -/
def ComesAfter (activity : Activity) (id : String) : Prop :=
  id ∈ activity.entry ∨
    ∃ builder, Relation.TransGen (fun a b => b ∈ guide.buildsOn a) activity builder ∧ id ∈ builder.produces

theorem mem_activities_of_transGen
    (h : Relation.TransGen (fun a b => b ∈ guide.buildsOn a) activity builder) : builder ∈ guide.activities := by
  cases h with
  | single h | tail _ h => exact (mem_buildsOn.mp h).1

/-- **The walk over the producers decides what comes after a milestone.** -/
theorem isDownstream_iff : guide.isDownstream activity id = true ↔ guide.ComesAfter activity id := by
  have hnodes : ∀ a, ∀ b ∈ guide.buildsOn a, b ∈ guide.activities := fun a b hb => (mem_buildsOn.mp hb).1
  have hbehind : ∀ b, b ∈ guide.ancestorsOf activity ↔
      Relation.TransGen (fun a b => b ∈ guide.buildsOn a) activity b := fun b =>
    DepthFirst.mem_behind_iff hnodes
  simp only [isDownstream, ComesAfter, Bool.or_eq_true, List.contains_iff_mem, List.any_eq_true,
    mem_producersOf, hbehind]
  constructor
  · intro h
    rcases h with h | h
    · exact .inl h
    · obtain ⟨builder, hproduces, hreach⟩ := h
      exact .inr ⟨builder, hreach, hproduces.2⟩
  · intro h
    rcases h with h | h
    · exact .inl h
    · obtain ⟨builder, hreach, hproduces⟩ := h
      exact .inr ⟨builder, ⟨mem_activities_of_transGen hreach, hproduces⟩, hreach⟩

end Guide

end Forgent.Workflow
