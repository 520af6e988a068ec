import Forgent.FirstFit
import Forgent.Metrics.Footprint

/-!
# The computed schedule

Which items of the frontier can run in parallel now, and which must wait for one whose footprint overlaps with theirs: the
frontier is packed into waves by first fit, in its own order.

* `packWaves`, `computeSchedule`: the packing, and the packing of the frontier.
* `computeSchedule_firstFit`: what the waves are.
-/

namespace Forgent.Metrics

open Json Option

/-- `conflictsOf.get(id)`: a pair counts from either side. -/
def conflictsOf (conflicts : List Conflict) (id : Id) : List Id :=
  conflicts.filterMap fun c => if c.a = id then some c.b else if c.b = id then some c.a else none

def packWaves (n : Arithmetic) (candidates : List Fields) : List (List Id) :=
  let conflicts := footprintOverlapAmong n candidates
  FirstFit.waves (fun placed id => (conflictsOf conflicts id).contains placed) (candidates.map idOf)

/-- The frontier, or the part of it that is asked for. -/
def scopedTo (candidateIds : Option (List Id)) (ready : List Fields) : List Fields :=
  match candidateIds with
  | some ids => ready.filter fun item => ids.contains (idOf item)
  | none => ready

/-- `computeSchedule`; none when the frontier throws. -/
def computeSchedule (host : Host) (work : WorkMap) (candidateIds : Option (List Id)) : Option (List (List Id)) :=
  (Frontier.frontier host work "execute").map fun ready => packWaves host.arithmetic (scopedTo candidateIds ready)

theorem contains_conflictsOf {n : Arithmetic} {candidates : List Fields} {a b : Id} :
    (conflictsOf (footprintOverlapAmong n candidates) b).contains a = true ↔ Conflicting n candidates a b := by
  rw [conflicting_iff, List.contains_iff_mem, conflictsOf, List.mem_filterMap]
  constructor
  · rintro ⟨c, hc, hsome⟩
    split at hsome
    · next hid => exact ⟨c, hc, .inr ⟨hid, some.inj hsome⟩⟩
    · split at hsome
      · next hid => exact ⟨c, hc, .inl ⟨some.inj hsome, hid⟩⟩
      · cases hsome
  · rintro ⟨c, hc, ⟨rfl, rfl⟩ | ⟨rfl, rfl⟩⟩
    · refine ⟨c, hc, ?_⟩
      by_cases hid : c.a = c.b
      · rw [if_pos hid, hid]
      · rw [if_neg hid, if_pos rfl]
    · exact ⟨c, hc, if_pos rfl⟩

theorem packed_packWaves (n : Arithmetic) (candidates : List Fields) :
    FirstFit.Packed (Conflicting n candidates) (candidates.map idOf) (packWaves n candidates) := by
  have hconflict : (fun a b => (conflictsOf (footprintOverlapAmong n candidates) b).contains a = true) =
      Conflicting n candidates := by
    funext a b
    exact propext contains_conflictsOf
  rw [← hconflict]
  exact FirstFit.packed_waves _ _

/-- **The schedule is a first-fit colouring**: of every list of candidates, and so of the part of the frontier that is
asked for, each candidate is in one wave, no two of a wave are in conflict, and whatever is in a wave is in conflict with
something of each earlier wave that stands in front of it. -/
theorem computeSchedule_firstFit : (∀ (n : Arithmetic) (candidates : List Fields),
      FirstFit.Packed (Conflicting n candidates) (candidates.map idOf) (packWaves n candidates)) ∧
    ∀ (host : Host) (work : WorkMap) (candidateIds : Option (List Id)) (waves : List (List Id)),
      computeSchedule host work candidateIds = some waves →
        ∃ ready, Frontier.frontier host work "execute" = some ready ∧
          FirstFit.Packed (Conflicting host.arithmetic (scopedTo candidateIds ready)) ((scopedTo candidateIds ready).map idOf)
            waves := by
  refine ⟨packed_packWaves, fun host work candidateIds waves h => ?_⟩
  obtain ⟨ready, hready, rfl⟩ := map_eq_some_iff.mp h
  exact ⟨ready, hready, packed_packWaves host.arithmetic (scopedTo candidateIds ready)⟩

/-! ### Three items, one of them between the others -/

namespace Scheduled

def domain : Domain where
  workflows := (∅ : Table Workflow).insert "feature" { steps := [⟨"executing", some "execute"⟩], aliases := ∅ }
  defaultWorkflow := "feature"
  workflowFor := ∅

def host : Host where
  arithmetic := { decimal := fun _ => "", plusOne := fun v => v, atLeast := fun _ _ => false }
  domains := (∅ : Domains).insert "coding" domain

def item (id : String) (footprint : List String) : String × Fields :=
  (id, record [("id", some (.str id)), ("status", some (.str "todo")), ("deps", some (.arr [])),
    ("footprint", some (.arr (footprint.map .str)))])

/-- The second one shares a path with each of the others, which share none. -/
def work : WorkMap := [item "a" ["./src/a.js"], item "b" ["src\\a.js", "src/c.js"], item "c" ["src/c.js "]]

def id (name : String) : Id := some (.str name)

theorem scheduled_in_two_waves : ∃ ready, Frontier.frontier host work "execute" = some ready ∧
    FirstFit.Packed (Conflicting host.arithmetic (scopedTo none ready)) ((scopedTo none ready).map idOf)
      [[id "a", id "c"], [id "b"]] :=
  computeSchedule_firstFit.2 host work none _ (by decide)

end Scheduled

end Forgent.Metrics
