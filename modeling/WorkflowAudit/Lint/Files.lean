import WorkflowAudit.Discovery.Walk
import WorkflowAudit.Error
import WorkflowAudit.Lint.Linter

/-!
# Checking and fixing files

A single file that cannot be read is an error. In a directory such files are passed over.
-/

namespace WorkflowAudit

/-- The source file at a path. -/
def SourceUnit.load (t : FileTree) (path : String) : Except AuditError SourceUnit :=
  match t.read path with
  | .error e => .error (.io path e.reason)
  | .ok f =>
    match f.text? with
    | some text => .ok (.ofText path text)
    | none => .error .invalidEncoding

namespace Lint

def reportFile (rules : RuleSet SourceUnit) (t : FileTree) (path : String) :
    Except AuditError LintReport := do
  .ok (report rules (← SourceUnit.load t path))

/-- A fixed file. The tree has its new text if that differs from the old one. -/
def fixFile (rules : RuleSet SourceUnit) (t : FileTree) (path : String) :
    Except AuditError (FixOutcome × FileTree) := do
  let u ← SourceUnit.load t path
  let outcome := fix rules u
  if outcome.source = u.text then .ok (outcome, t)
  else
    match t.save path outcome.source with
    | .ok t => .ok (outcome, t)
    | .error e => .error (.io path e.reason)

/-- Reports on the source files that a path leads to, in the order of paths. -/
def reportDirectory (rules : RuleSet SourceUnit) (t : FileTree) (o : SourceFilter)
    (path : String) : List LintReport :=
  (t.sourceFiles o path).paths.filterMap fun path => (reportFile rules t path).toOption

end Lint

end WorkflowAudit
