import Forgent.Value

/-!
# The steps of a work item

Each domain declares workflows, and a workflow its steps with the phase each plays and the names that
older records use for them.  The fold of a history asks two things of it: which step an older name has
become, and which step plays a phase.
-/

namespace Forgent

structure WorkflowStep where
  id : String
  phase : Option String

structure Workflow where
  steps : List WorkflowStep
  aliases : Table String

structure Domain where
  workflows : Table Workflow
  defaultWorkflow : String
  workflowFor : Table String

/-- The domains that are compiled into the program. -/
abbrev Domains := Table Domain

def defaultDomain : String := "coding"

open Json

section

variable (n : Arithmetic) (domains : Domains)

def resolveDomainName (name : Option Json) : String :=
  match name with
  | none | some .null => defaultDomain
  | some v => if text n v ∈ domains then text n v else defaultDomain

def getDomain (name : Option Json) : Option Domain := domains[resolveDomainName n domains name]?

def resolveWorkflow (domain : Option Domain) (kind : Option Json) : Option Workflow := do
  let d ← domain
  let declared := (kind.bind fun k => d.workflowFor[text n k]?).filter fun name => name ≠ ""
  (d.workflows[declared.getD d.defaultWorkflow]?).orElse fun _ => d.workflows[d.defaultWorkflow]?

end

namespace Workflow

/-- `resolveStepAlias`. -/
def resolveAlias (wf : Option Workflow) (name : String) : String :=
  match wf with
  | none => name
  | some w => if w.steps.any fun s => s.id = name then name else w.aliases.getD name name

def stepForPhase (wf : Option Workflow) (phase : String) : Option String := do
  let w ← wf
  (w.steps.find? fun s => s.phase = some phase).map WorkflowStep.id

end Workflow

/-- `canonicalStep`: the current id of a step that an older record names. -/
def canonicalStep (n : Arithmetic) (domains : Domains) (item : Option Fields) (step : Option Json) :
    Option Json :=
  match step with
  | some (.str name) =>
    let field := fun k => item.bind fun i : Fields => i[k]?
    let wf := resolveWorkflow n (getDomain n domains (field "domain")) (field "kind")
    some (.str (Workflow.resolveAlias wf name))
  | other => other

def stepForPhase (n : Arithmetic) (domains : Domains) (item : Fields) (phase : String) : Option String :=
  Workflow.stepForPhase (resolveWorkflow n (getDomain n domains item["domain"]?) item["kind"]?) phase

end Forgent
