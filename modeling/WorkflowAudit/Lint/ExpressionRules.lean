import WorkflowAudit.Lint.SourceUnit
import WorkflowAudit.Text.Placeholder

/-!
# Rules on expressions in strings
-/

namespace WorkflowAudit.Lint

open Script

/-- Calls of steps, then of jobs, with their conditions, in order of their starts. -/
def conditions (u : SourceUnit) : List (Call × Expr) :=
  let found := (u.callsTo "Step" ++ u.callsTo "Job").filterMap fun call =>
    (call.keyword? "if_").map fun condition => (call, condition)
  sortOn (fun (call, _) => call.span.start) found

/-! ## Status functions -/

/-- Conditions that call a status function in an expression: the call, the constant, the
    function, and whether there is nothing else in the constant. -/
def statusConditions (u : SourceUnit) : List (Call × Span × String × Bool) :=
  (conditions u).filterMap fun (call, condition) => do
    let (function, isWhole) ← Text.statusExpression? (← condition.asString?)
    some (call, condition.span, function, isWhole)

def statusFindings (u : SourceUnit) : List (String × Location × Option String) :=
  (statusConditions u).map fun (call, _, function, _) =>
    (s!"Use {function}() helper instead of hardcoded '$\x7b\x7b {function}() \x7d\x7d'",
      u.location call.span.start,
      some s!"Import {function} from wetwire_github.workflow.expressions")

def statusEdits (u : SourceUnit) : EditBuffer :=
  (statusConditions u).foldl (fun edits (_, literal, function, isWhole) =>
    if isWhole then edits.push ⟨literal, function ++ "()"⟩ else edits) .empty

def conditionBuilders : Rule SourceUnit :=
  checkWithEdits "WAG002"
    "Use condition builders (always(), failure(), etc.) instead of raw strings" .style .low
    statusFindings statusEdits

/-! ## Secrets -/

/-- Constants that name a secret in an expression: the constant, the secret, and whether there
    is nothing else in the constant. -/
def secretLiterals (u : SourceUnit) : List (Span × String × Bool) :=
  u.stringLiterals.filterMap fun (literal, value) =>
    (Text.secretExpression? value).map fun (name, isWhole) => (literal, name, isWhole)

def secretFindings (u : SourceUnit) : List (String × Location × Option String) :=
  (secretLiterals u).map fun (literal, name, _) =>
    (s!"Use Secrets.get('{name}') instead of hardcoded '$\x7b\x7b secrets.{name} \x7d\x7d'",
      u.location literal.start, some ("Replace with: Secrets.get(\"" ++ name ++ "\")"))

def secretEdits (u : SourceUnit) : EditBuffer :=
  (secretLiterals u).foldl (fun edits (literal, name, isWhole) =>
    if isWhole then edits.push ⟨literal, "Secrets.get(\"" ++ name ++ "\")"⟩ else edits) .empty

def secretsContext : Rule SourceUnit :=
  checkWithEdits "WAG003" "Use Secrets.get() helper instead of hardcoded secrets access"
    .style .low secretFindings secretEdits

/-! ## Any expression -/

/-- The start of a text that a message shows. -/
def preview (text : String) : String := String.ofList (text.toList.take 50)

def hardcodedExpressions : Rule SourceUnit :=
  check "WAG008" "Detect hardcoded GitHub expression strings; use Expression objects instead"
    .style .info fun u =>
      (u.stringLiterals.filter fun (_, value) => Text.hasExpression value).map
        fun (literal, value) =>
          (s!"Hardcoded expression string '{preview value}...'; use Expression objects",
            u.location literal.start, some "Use wetwire_github.workflow.expressions helpers")

end WorkflowAudit.Lint
