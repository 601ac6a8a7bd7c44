import WorkflowAudit.Policy.Report
import WorkflowAudit.Policy.Selection
import WorkflowAudit.Project.Lint
import WorkflowAudit.Workflow.Composition
import WorkflowAudit.Workflow.Document

/-!
# Checks of workflow documents
-/

namespace WorkflowAudit.Project

/-- The workflow in a file. -/
def readWorkflow (t : FileTree) (path : String) : Except String Workflow :=
  match t.readText path with
  | .error _ => .error s!"reading {path}"
  | .ok text =>
    match Workflow.ofDocument text with
    | .error _ => .error s!"parsing {path}"
    | .ok w => .ok w

/-- The number of violations of each severity, the highest first. -/
def summaryLine (r : PolicyReport) : String :=
  "Summary: " ++ String.intercalate " "
    (Severity.all.reverse.map fun s => s!"{s.name}={r.count s}")

def policyLines (r : PolicyReport) (failOn : Severity) : ReportFormat → List String
  | .json => [r.toJson.pretty]
  | .text => violationLines r.violations ++ [summaryLine r,
      if r.passed failOn then "PASSED" else s!"FAILED (fail-on {failOn.name})"]

/-- Applies policy rules to a workflow. It fails if a violation is as severe as `failOn`. -/
def checkPolicy (p : Project) (t : FileTree) (path : String) (preset : Option String)
    (failOn : Option Severity) (format : ReportFormat) : Outcome :=
  match readWorkflow t (p.target path) with
  | .error message => .failure t message
  | .ok w =>
    let settings := { p.settings.policy with preset := preset <|> p.settings.policy.preset }
    match Policy.select settings with
    | .error e => .failure t e.message
    | .ok rules =>
      let r := PolicyReport.of rules w
      let failOn := failOn.getD settings.failOn
      .report t (r.passed failOn) (reportLines (policyLines r failOn format))

/-- Checks the needs and triggers of a workflow. -/
def validate (p : Project) (t : FileTree) (path : String) : Outcome :=
  match readWorkflow t (p.target path) with
  | .error message => .failure t message
  | .ok w =>
    match w.problems with
    | [] => .report t true (reportLines [s!"{path}: {w.jobs.size} job(s), ok"])
    | problems => .report t false (reportLines (problems.map fun e => s!"error: {e.message}"))

end WorkflowAudit.Project
