import WorkflowAudit.Rule
import WorkflowAudit.Workflow.Basic

/-!
# Policy reports
-/

namespace WorkflowAudit

/-- What policy rules found in a workflow. -/
structure PolicyReport where
  workflow : String
  violations : List Violation
  /-- Number of violations of each severity that occurs, in increasing order. -/
  counts : List (Severity × Nat)
deriving DecidableEq, Repr

namespace PolicyReport

/-- How many violations there are of each severity that occurs. -/
def tally (violations : List Violation) : List (Severity × Nat) :=
  Severity.all.filterMap fun s =>
    let n := (violations.filter fun v => v.severity = s).length
    if n = 0 then none else some (s, n)

def ofViolations (workflow : String) (violations : List Violation) : PolicyReport :=
  ⟨workflow, violations, tally violations⟩

/-- The report of some rules on a workflow. -/
def of (rules : RuleSet Workflow) (w : Workflow) : PolicyReport :=
  ofViolations w.name (rules.evaluate w)

def count (r : PolicyReport) (s : Severity) : Nat := (r.counts.lookup s).getD 0

/-- The highest severity that occurs. -/
def maxSeverity (r : PolicyReport) : Option Severity := (r.counts.getLast?).map Prod.fst

/-- Whether every severity that occurs is below `failOn`. -/
def passed (r : PolicyReport) (failOn : Severity) : Bool :=
  r.maxSeverity.all fun s => !s.atLeast failOn

def toJson (r : PolicyReport) : Json :=
  .obj [("workflow", .str r.workflow), ("violations", .arr (r.violations.map Violation.toJson)),
    ("counts", .obj (r.counts.map fun (s, n) => (s.name, .nat n)))]

end PolicyReport

end WorkflowAudit
