import WorkflowAudit.Text.Span
import WorkflowAudit.Workflow.Basic

/-!
# Places in a resolved workflow
-/

namespace WorkflowAudit.Workflow

/-- The first part of every place. -/
def placeName (w : Workflow) : String := if w.name.isEmpty then "workflow" else w.name

def place (w : Workflow) : Location := .object w.placeName

def jobPlace (w : Workflow) (job : String) : Location := .object s!"{w.placeName}/{job}"

/-- A step of a job, counted from 1. -/
def stepPlace (w : Workflow) (job : String) (index : Nat) : Location :=
  .object s!"{w.placeName}/{job}/step {index}"

end WorkflowAudit.Workflow
