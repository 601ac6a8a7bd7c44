import WorkflowAudit.Data.Json
import WorkflowAudit.Data.OrderedMap

/-!
# Resolved workflows

A resolved workflow is what a script evaluates to: its triggers, and its jobs with their steps.
Maps keep the order of the document.
-/

namespace WorkflowAudit

/-- What a workflow's token may do. -/
inductive Permissions where
  | readAll
  | writeAll
  /-- Grants by scope. -/
  | scopes (grants : OrderedMap String String)
deriving DecidableEq, Repr

namespace Permissions

/-- The word for a blanket grant. -/
def ofPreset? (word : String) : Option Permissions :=
  if word = "read-all" then some .readAll
  else if word = "write-all" then some .writeAll
  else none

def isWriteAll : Permissions → Bool
  | .writeAll => true
  | _ => false

end Permissions

structure Step where
  name : Option String := none
  id : Option String := none
  /-- The action that the step runs. -/
  uses : Option String := none
  /-- The shell command that the step runs. -/
  run : Option String := none
  /-- Inputs of the action. -/
  inputs : OrderedMap String Json := .empty
  env : OrderedMap String String := .empty
  condition : Option String := none

structure Job where
  name : Option String := none
  runsOn : Option Json := none
  /-- Ids of the jobs that this one waits for. -/
  needs : List String := []
  steps : List Step := []
  timeoutMinutes : Option Nat := none
  environment : Option Json := none
  permissions : Option Permissions := none
  env : OrderedMap String String := .empty
  outputs : OrderedMap String String := .empty
  strategy : Option Json := none
  /-- The reusable workflow that the job calls. -/
  uses : Option String := none
  condition : Option String := none

structure Workflow where
  name : String := ""
  /-- Trigger events with their settings. -/
  triggers : OrderedMap String Json := .empty
  env : OrderedMap String String := .empty
  permissions : Option Permissions := none
  jobs : OrderedMap String Job := .empty

namespace Workflow

/-- Every step with the id of its job and its place there, counted from 1. -/
def steps (w : Workflow) : List (String × Nat × Step) :=
  w.jobs.entries.flatMap fun (id, job) =>
    job.steps.zipIdx.map fun (step, index) => (id, index + 1, step)

end Workflow

end WorkflowAudit
