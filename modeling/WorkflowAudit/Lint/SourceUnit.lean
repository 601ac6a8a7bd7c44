import WorkflowAudit.Lint.EditBuffer
import WorkflowAudit.Rule
import WorkflowAudit.Script.Parser.Statement
import WorkflowAudit.Script.Walk
import WorkflowAudit.Text.Search

/-!
# Source files as subjects of rules
-/

namespace WorkflowAudit

open Script

/-- A source file with its syntax tree, if it parses. -/
structure SourceUnit where
  path : String
  text : String
  tree : Option Module

namespace SourceUnit

def ofText (path text : String) : SourceUnit := ⟨path, text, (parse text).toOption⟩

def parses (u : SourceUnit) : Bool := u.tree.isSome

/-- Line and column of an offset; what does not parse has only its start. -/
def location (u : SourceUnit) (offset : Nat) : Location :=
  match u.tree with
  | some m =>
    let (line, column) := m.lines.lineColumn offset
    .source u.path line column
  | none => .source u.path 1 1

/-- Line of an offset. -/
def lineOf (u : SourceUnit) (offset : Nat) : Nat :=
  match u.tree with
  | some m => m.lineOf offset
  | none => 1

/-- All calls of a constructor. -/
def callsTo (u : SourceUnit) (constructor : String) : List Call :=
  match u.tree with
  | some m => m.calls.filter (·.isCallTo constructor)
  | none => []

/-- All string constants with their values. -/
def stringLiterals (u : SourceUnit) : List (Span × String) :=
  match u.tree with
  | some m => m.expressions.filterMap fun e => e.asString?.map fun s => (e.span, s)
  | none => []

end SourceUnit

namespace Lint

/-- The outcome that changes nothing. -/
def unchanged (u : SourceUnit) (remaining : List Violation) : FixOutcome :=
  ⟨u.text, 0, remaining⟩

/-- The outcome of some edits, which are given up when the result does not parse. -/
def applyEdits (evaluate : SourceUnit → List Violation) (u : SourceUnit) (edits : EditBuffer) :
    FixOutcome :=
  if edits.isEmpty then unchanged u (evaluate u)
  else
    let (text, applied) := edits.apply u.text
    let fixed := SourceUnit.ofText u.path text
    if fixed.parses then ⟨text, applied, evaluate fixed⟩ else unchanged u (evaluate u)

/-- The quote that a string constant is written with; other texts get double quotes. -/
def quoteOf (literal : String) : String := if Text.startsWith literal "'" then "'" else "\""

/-- A rule on source files that only reports. -/
def check (id description : String) (category : Category) (severity : Severity)
    (findings : SourceUnit → List (String × Location × Option String)) : Rule SourceUnit where
  id := id
  description := description
  category := category
  severity := severity
  evaluate u := (findings u).map fun (message, location, suggestion) =>
    ⟨id, severity, message, location, suggestion⟩
  fix? := none

/-- A rule that also mends what it reports, by edits. -/
def checkWithEdits (id description : String) (category : Category) (severity : Severity)
    (findings : SourceUnit → List (String × Location × Option String))
    (edits : SourceUnit → EditBuffer) : Rule SourceUnit :=
  let rule := check id description category severity findings
  { rule with fix? := some fun u => applyEdits rule.evaluate u (edits u) }

end Lint

end WorkflowAudit
