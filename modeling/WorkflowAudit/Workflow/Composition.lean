import WorkflowAudit.Data.Sorting
import WorkflowAudit.Dependency.Check
import WorkflowAudit.Workflow.Basic

/-!
# Composing workflows

A composition collects triggers, jobs and settings. Needs are kept beside the jobs and checked
when the workflow is built, so what is built has sound dependencies. A workflow read from a
document may need jobs that it does not have, or be triggered by events that do not exist; all
its problems are listed.
-/

namespace WorkflowAudit

structure Composition where
  name : String := ""
  triggers : OrderedMap String Json := .empty
  jobs : OrderedMap String Job := .empty
  /-- What each job waits for. -/
  needs : DependencyMap := .empty
  env : OrderedMap String String := .empty
  permissions : Option Permissions := none

namespace Composition

/-- Events that may trigger a workflow. -/
def triggerEvents : List String := [
  "push", "pull_request", "pull_request_target", "schedule", "workflow_dispatch",
  "workflow_call", "workflow_run", "repository_dispatch", "release", "issues",
  "issue_comment", "label", "milestone", "project", "project_card", "project_column",
  "discussion", "discussion_comment", "create", "delete", "deployment", "deployment_status",
  "fork", "gollum", "page_build", "public", "pull_request_review",
  "pull_request_review_comment", "pull_request_comment", "registry_package", "check_run",
  "check_suite", "status", "watch", "member", "membership", "org_block", "organization",
  "team", "team_add", "merge_group", "branch_protection_rule"]

/-- The events in alphabetical order. -/
def sortedEvents : List String := sortBy (fun a b => a ≤ b) triggerEvents

def setName (c : Composition) (name : String) : Composition := { c with name }

def addTrigger (c : Composition) (event : String) (config : Json) :
    Except CompositionError Composition :=
  if triggerEvents.contains event then
    .ok { c with triggers := c.triggers.insert event config }
  else .error (.unknownTrigger event sortedEvents)

/-- Own needs as they stand, and those of `more` that are not among them yet. -/
def mergeNeeds (own more : List String) : List String :=
  more.foldl (fun all need => if all.contains need then all else all ++ [need]) own

/-- The composition with a job; an earlier job of the same id is replaced in its place. -/
def addJob (c : Composition) (id : String) (job : Job) (needs : List String) : Composition :=
  { c with
    jobs := c.jobs.insert id job
    needs := c.needs.insert id (mergeNeeds job.needs needs) }

def addEnv (c : Composition) (pairs : List (String × String)) : Composition :=
  { c with env := pairs.foldl (fun m p => m.insert p.1 p.2) c.env }

def setPermissions (c : Composition) (p : Permissions) : Composition :=
  { c with permissions := some p }

def setPreset (c : Composition) (word : String) : Except CompositionError Composition :=
  match Permissions.ofPreset? word with
  | some p => .ok (c.setPermissions p)
  | none => .error (.invalidPermissions word)

/-- The workflow, each job with its collected needs. -/
def build (c : Composition) : Except CompositionError Workflow := do
  c.needs.validate
  .ok {
    name := c.name
    triggers := c.triggers
    env := c.env
    permissions := c.permissions
    jobs := c.jobs.mapValues fun id job =>
      match c.needs.get? id with
      | some needs => { job with needs }
      | none => job }

end Composition

/-! ## Checking workflows -/

namespace Workflow

/-- What each job needs. -/
def dependencyMap (w : Workflow) : DependencyMap := w.jobs.mapValues fun _ job => job.needs

/-- A problem for each trigger that is no event. -/
def unknownTriggers (w : Workflow) : List CompositionError :=
  (w.triggers.keys.filter fun event => !Composition.triggerEvents.contains event).map fun event =>
    .unknownTrigger event Composition.sortedEvents

/-- Every problem of a workflow: those of its needs, then those of its triggers. -/
def problems (w : Workflow) : List CompositionError := w.dependencyMap.problems ++ w.unknownTriggers

end Workflow

end WorkflowAudit
