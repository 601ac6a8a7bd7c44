import WorkflowAudit.Action.Pin
import WorkflowAudit.Policy.Place
import WorkflowAudit.Rule

/-!
# Organizational policies
-/

namespace WorkflowAudit.Policy

/-- A policy that reports at most one message for each place it looks at. -/
def policy (id description : String) (severity : Severity)
    (findings : Workflow → List (String × Location × Option String)) : Rule Workflow where
  id := id
  description := description
  category := .policy
  severity := severity
  evaluate w := (findings w).map fun (message, location, suggestion) =>
    ⟨id, severity, message, location, suggestion⟩
  fix? := none

/-- Jobs that run steps of their own instead of calling a workflow. -/
def stepJobs (w : Workflow) : List (String × Job) :=
  w.jobs.entries.filter fun (_, job) => job.uses.isNone

def usesCheckout (step : Step) : Bool :=
  match step.uses with
  | some action => Text.contains action "checkout"
  | none => false

def requireCheckout : Rule Workflow :=
  policy "require_checkout" "All jobs must use actions/checkout action" .medium fun w =>
    ((stepJobs w).filter fun (_, job) => !job.steps.any usesCheckout).map fun (id, _) =>
      (s!"Job '{id}' does not use actions/checkout", w.jobPlace id, none)

def requireTimeouts : Rule Workflow :=
  policy "require_timeouts" "All jobs should have timeout-minutes set" .medium fun w =>
    ((stepJobs w).filter fun (_, job) => job.timeoutMinutes.isNone).map fun (id, _) =>
      (s!"Job '{id}' has no timeout-minutes", w.jobPlace id,
        some "Set timeout-minutes so a hung job cannot run until the platform limit")

def pinActions : Rule Workflow :=
  policy "pin_actions" "Actions should be pinned to SHA or version" .high fun w =>
    w.steps.filterMap fun (job, index, step) => do
      let action ← step.uses
      if Action.isStrictlyPinned action then none
      else some (s!"Action '{action}' is not pinned to a commit SHA or version tag",
        w.stepPlace job index, none)

/-- Jobs allowed in a workflow, unless set otherwise. -/
def defaultMaxJobs : Nat := 10

def limitJobCount (maxJobs : Nat) : Rule Workflow :=
  policy "limit_job_count" s!"Workflow should not exceed {maxJobs} jobs" .low fun w =>
    if w.jobs.size ≤ maxJobs then []
    else [(s!"Workflow has {w.jobs.size} jobs, exceeds limit of {maxJobs}", w.place, none)]

/-- Environments can ask for reviewers, so jobs should run in one. -/
def requireApproval : Rule Workflow :=
  policy "require_approval" "Jobs should use environment with reviewers (detection only)" .low
    fun w =>
      (w.jobs.entries.filter fun (_, job) => job.environment.all (· == .null)).map fun (id, _) =>
        (s!"Job '{id}' does not use a deployment environment", w.jobPlace id, none)

end WorkflowAudit.Policy
