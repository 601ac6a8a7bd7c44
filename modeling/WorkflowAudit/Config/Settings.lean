import WorkflowAudit.Data.OrderedMap
import WorkflowAudit.Discovery.Scan
import WorkflowAudit.Rule

/-!
# Settings of a project

Every setting has a default, so a missing file or table stands for the defaults.
-/

namespace WorkflowAudit

/-- How scripts are found. -/
structure DiscoverySettings where
  /-- Part of an import path that marks imports of constructors. -/
  package : String := Discovery.defaultPackage
  /-- Names of directories that are never entered. -/
  reservedDirs : List String := ["__pycache__", ".git", "node_modules", ".venv", "venv"]
  /-- Whether directories with a leading dot are left out. -/
  excludeHidden : Bool := true
  /-- Number of workers; 0 leaves it to the machine. -/
  workers : Nat := 0
  /-- Directory of the cache below the project's root. -/
  cacheDir : String := ".wetwire-cache"
  cacheEnabled : Bool := true
deriving DecidableEq, Repr

/-- Limits of the style rules. -/
structure LintSettings where
  /-- Keys of an inline environment of a step. -/
  maxInlineEnv : Nat := 3
  /-- Entries of inline outputs of a job. -/
  maxInlineOutputs : Nat := 2
  /-- Keys of an inline matrix. -/
  maxMatrixKeys : Nat := 2
  /-- Values of a key of an inline matrix. -/
  maxMatrixValues : Nat := 3
  /-- Jobs of a file. -/
  maxJobs : Nat := 10
  /-- Operators of a condition. -/
  maxConditionOperators : Nat := 3
  /-- Ids of rules that are switched off. -/
  disabled : List String := []
deriving DecidableEq, Repr

/-- Settings of one policy rule. -/
structure RuleSettings where
  /-- Whether the rule is on; `none` leaves what is set elsewhere. -/
  enabled : Option Bool := none
  params : OrderedMap String Json := .empty

/-- A parameter that is a whole number from 0. -/
def RuleSettings.natParam? (s : RuleSettings) (key : String) : Option Nat :=
  match s.params.get? key with
  | some (.int n) => if 0 ≤ n then some n.toNat else none
  | _ => none

/-- Which policy rules apply. -/
structure PolicySettings where
  /-- Name of the selection that the other settings change. -/
  preset : Option String := none
  /-- The lowest severity that fails a report. -/
  failOn : Severity := .high
  rules : OrderedMap String RuleSettings := .empty

structure ProjectSettings where
  discovery : DiscoverySettings := {}
  lint : LintSettings := {}
  policy : PolicySettings := {}

end WorkflowAudit
