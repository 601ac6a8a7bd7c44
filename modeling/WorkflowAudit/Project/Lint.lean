import WorkflowAudit.Lint.Files
import WorkflowAudit.Project.Basic

/-!
# Linting projects

Checking a directory passes over files that cannot be read. Fixing stops at the first of them;
what was fixed before stays fixed.
-/

namespace WorkflowAudit

/-- A violation on one line, and what to do about it on another one. -/
def violationLines (vs : List Violation) : List String :=
  vs.flatMap fun v => v.describe :: (v.suggestion.map fun s => s!"  help: {s}").toList

namespace Project

def lintRules (p : Project) : RuleSet SourceUnit := Lint.rules p.settings.lint

/-- What is left to report after some files were looked at. -/
structure LintSummary where
  violations : List Violation := []
  files : Nat := 0
deriving DecidableEq, Repr

def LintSummary.add (s : LintSummary) (vs : List Violation) : LintSummary :=
  ⟨s.violations ++ vs, s.files + 1⟩

def LintSummary.lines (s : LintSummary) : ReportFormat → List String
  | .json => [(Json.arr (s.violations.map Violation.toJson)).pretty]
  | .text =>
    violationLines s.violations ++ [s!"{s.violations.length} violation(s) in {s.files} file(s)"]

/-- The last part of a lint command: it passes if nothing is left to report. -/
def LintSummary.outcome (s : LintSummary) (t : FileTree) (before : List String)
    (format : ReportFormat) : Outcome :=
  .report t s.violations.isEmpty (reportLines (before ++ s.lines format))

/-- Checks a file or the source files of a directory. -/
def lint (p : Project) (t : FileTree) (path : Option String) (format : ReportFormat) : Outcome :=
  let target := p.target path
  if t.isFile target then
    match Lint.reportFile p.lintRules t target with
    | .ok r => (LintSummary.add {} r.violations).outcome t [] format
    | .error e => .failure t e.describe
  else
    let reports :=
      Lint.reportDirectory p.lintRules t p.settings.discovery.sourceFilter target
    (reports.foldl (fun (s : LintSummary) r => s.add r.violations) {}).outcome t [] format

/-- Progress of fixing: what was said and what is left to report. -/
structure FixProgress where
  tree : FileTree
  lines : List String := []
  summary : LintSummary := {}

/-- Fixes files in turn. The first one that cannot be read or written ends it. -/
def fixFiles (rules : RuleSet SourceUnit) (format : ReportFormat) :
    List String → FixProgress → FixProgress × Option String
  | [], progress => (progress, none)
  | file :: files, progress =>
    match Lint.fixFile rules progress.tree file with
    | .error _ => (progress, some s!"fixing {file}")
    | .ok (outcome, tree) =>
      let said := if 0 < outcome.applied ∧ format = .text then
        [s!"Fixed {outcome.applied} issue(s) in {file}"] else []
      fixFiles rules format files {
        tree
        lines := progress.lines ++ said
        summary := progress.summary.add outcome.remaining }

/-- Fixes a file or the source files of a directory, and reports what is left. -/
def fix (p : Project) (t : FileTree) (path : Option String) (format : ReportFormat) : Outcome :=
  let (progress, failure) :=
    fixFiles p.lintRules format (p.sources t path) { tree := t }
  match failure with
  | some message => ⟨reportLines progress.lines, .error message, progress.tree⟩
  | none => progress.summary.outcome progress.tree progress.lines format

end Project

end WorkflowAudit
