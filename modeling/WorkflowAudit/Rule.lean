import WorkflowAudit.Data.Json
import WorkflowAudit.Text.CharClass
import WorkflowAudit.Text.Span

/-!
# Rules and what they report

A rule inspects one subject, a source file or a resolved workflow, and reports violations. A
rule set runs every enabled rule on the same subject, in order.
-/

namespace WorkflowAudit

/-- How serious a violation is, from `info` up to `critical`. -/
inductive Severity where
  | info
  | low
  | medium
  | high
  | critical
deriving DecidableEq, Repr, Inhabited

namespace Severity

/-- All severities in increasing order. -/
def all : List Severity := [.info, .low, .medium, .high, .critical]

def rank : Severity → Nat
  | .info => 0
  | .low => 1
  | .medium => 2
  | .high => 3
  | .critical => 4

def name : Severity → String
  | .info => "info"
  | .low => "low"
  | .medium => "medium"
  | .high => "high"
  | .critical => "critical"

/-- The severity with exactly this name. -/
def ofName? (name : String) : Option Severity := all.find? fun s => s.name = name

/-- The severity that a text names in any case; a text that names none comes back in lower
    case. -/
def ofText (text : String) : Except String Severity :=
  match ofName? (Text.asciiLowercase text) with
  | some s => .ok s
  | none => .error (Text.asciiLowercase text)

/-- The wording for a text that names no severity. -/
def unknownMessage (text : String) : String := s!"unknown severity '{text}'"

def atLeast (s floor : Severity) : Bool := floor.rank ≤ s.rank

/-- The highest of some severities. -/
def max? (severities : List Severity) : Option Severity :=
  severities.foldl (fun best s =>
    match best with
    | some b => if b.rank ≤ s.rank then some s else some b
    | none => some s) none

end Severity

/-- Families of rules. -/
inductive Category where
  | style
  | policy
  | security
deriving DecidableEq, Repr, Inhabited

def Category.name : Category → String
  | .style => "style"
  | .policy => "policy"
  | .security => "security"

/-- One finding of a rule. -/
structure Violation where
  ruleId : String
  severity : Severity
  message : String
  location : Location
  suggestion : Option String
deriving DecidableEq, Repr

namespace Violation

def describe (v : Violation) : String :=
  s!"{v.location.describe}: [{v.ruleId}] {v.severity.name}: {v.message}"

end Violation

/-- A changed source with the number of changes and what is left to report on it. -/
structure FixOutcome where
  source : String
  applied : Nat
  remaining : List Violation
deriving DecidableEq, Repr

/-- A check on subjects of type `σ`, possibly with a way to mend them. -/
structure Rule (σ : Type) where
  id : String
  description : String
  category : Category
  severity : Severity
  evaluate : σ → List Violation
  fix? : Option (σ → FixOutcome)

def Rule.isFixable (r : Rule σ) : Bool := r.fix?.isSome

/-- Rules in order, with the ids that are switched off. -/
structure RuleSet (σ : Type) where
  rules : List (Rule σ)
  disabled : List String

namespace RuleSet

/-- The rules that run. -/
def enabled (set : RuleSet σ) : List (Rule σ) :=
  set.rules.filter fun r => !set.disabled.contains r.id

def isEnabled (set : RuleSet σ) (id : String) : Bool :=
  !set.disabled.contains id && set.rules.any (·.id = id)

def get? (set : RuleSet σ) (id : String) : Option (Rule σ) := set.enabled.find? (·.id = id)

def size (set : RuleSet σ) : Nat := set.enabled.length

def isEmpty (set : RuleSet σ) : Bool := set.enabled.isEmpty

def evaluate (set : RuleSet σ) (subject : σ) : List Violation :=
  set.enabled.flatMap (·.evaluate subject)

end RuleSet

/-! ## Reports as JSON -/

def Location.toJson : Location → Json
  | .source file line column =>
    .obj [("type", .str "source"), ("file_path", .str file), ("line", .nat line),
      ("column", .nat column)]
  | .object path => .obj [("type", .str "object"), ("path", .str path)]

def Violation.toJson (v : Violation) : Json :=
  .obj ([("rule_id", .str v.ruleId), ("severity", .str v.severity.name),
    ("message", .str v.message), ("location", v.location.toJson)] ++
    (v.suggestion.map fun s => ("suggestion", Json.str s)).toList)

end WorkflowAudit
