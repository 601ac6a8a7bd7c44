import WorkflowAudit.Config.Settings
import WorkflowAudit.Lint.ActionRules
import WorkflowAudit.Lint.ConditionRule
import WorkflowAudit.Lint.ExtractionRules
import WorkflowAudit.Lint.StructureRules
import WorkflowAudit.Lint.WorkflowRules

/-!
# Checking and fixing source files

A file that does not parse has nothing to report and nothing to fix. Fixing runs every rule
that can mend on the text that the rule before it left, and repeats this until a whole pass
changes nothing, within a limit.
-/

namespace WorkflowAudit

namespace Lint

/-- All style rules in the order of their ids. -/
def rules (s : LintSettings) : RuleSet SourceUnit where
  rules := [typedWrappers, conditionBuilders, secretsContext, matrixBuilder, repeatedStepEnv,
    duplicateWorkflowNames, fileTooLarge s.maxJobs, hardcodedExpressions, eventTypes,
    complexConditions s.maxConditionOperators, (inlineEnv s.maxInlineEnv).rule,
    (inlineMatrix s.maxMatrixKeys s.maxMatrixValues).rule,
    (inlineOutputs s.maxInlineOutputs).rule, hardcodedSecretsInRun, unpinnedActions,
    circularNeeds]
  disabled := s.disabled

end Lint

/-- What rules report on a file. -/
structure LintReport where
  path : String
  violations : List Violation
  parsed : Bool
deriving DecidableEq, Repr

def LintReport.isClean (r : LintReport) : Bool := r.violations.isEmpty

namespace Lint

def report (rules : RuleSet SourceUnit) (u : SourceUnit) : LintReport :=
  ⟨u.path, if u.parses then rules.evaluate u else [], u.parses⟩

/-- Passes over all rules when fixing a file. -/
def maxFixPasses : Nat := 8

/-- One rule: the file it leaves and how much it applied. -/
def fixStep (state : SourceUnit × Nat) (r : Rule SourceUnit) : SourceUnit × Nat :=
  match r.fix? with
  | none => state
  | some fix =>
    let outcome := fix state.1
    if outcome.applied = 0 then state
    else (.ofText state.1.path outcome.source, state.2 + outcome.applied)

/-- All rules once. -/
def fixPass (rules : RuleSet SourceUnit) (u : SourceUnit) : SourceUnit × Nat :=
  rules.enabled.foldl fixStep (u, 0)

/-- At most so many passes, until one applies nothing. -/
def fixPasses (rules : RuleSet SourceUnit) : Nat → SourceUnit → SourceUnit × Nat
  | 0, u => (u, 0)
  | passes + 1, u =>
    if !u.parses then (u, 0)
    else
      let (next, applied) := fixPass rules u
      if applied = 0 then (next, 0)
      else
        let (final, more) := fixPasses rules passes next
        (final, applied + more)

/-- The fixed text, how much was applied, and what is left to report. -/
def fix (rules : RuleSet SourceUnit) (u : SourceUnit) : FixOutcome :=
  let (final, applied) := fixPasses rules maxFixPasses u
  ⟨final.text, applied, (report rules final).violations⟩

end Lint

end WorkflowAudit
