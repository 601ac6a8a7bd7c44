import WorkflowAudit.Config.Settings
import WorkflowAudit.Error
import WorkflowAudit.Files.Tree
import WorkflowAudit.Toml.Document

/-!
# Settings of a project

Settings are the tables of a TOML document. Keys that mean nothing are ignored. A table may be
given as an array of its values in order.
-/

namespace WorkflowAudit

namespace Settings

open Toml

/-- How to take an `α` from a value. -/
abbrev Reading (α : Type) := Value → Option α

/-- Key under which a date or time stands when a table is expected. -/
def momentKey : String := "$__toml_private_datetime"

/-- The entries of a table; a date or time is a table with one entry. -/
def entries? : Reading (List (String × Value))
  | .table entries => some entries
  | .moment text => some [(momentKey, .string text)]
  | _ => none

def text : Reading String
  | .string s => some s
  | _ => none

/-- A whole number from 0. -/
def nat : Reading Nat
  | .integer n => if 0 ≤ n then some n.toNat else none
  | _ => none

def bool : Reading Bool
  | .boolean b => some b
  | _ => none

def list (item : Reading α) : Reading (List α)
  | .array items => items.mapM item
  | _ => none

def map (item : Reading α) : Reading (OrderedMap String α) := fun v => do
  (← entries? v).foldlM (fun m (key, value) => do some (m.insert key (← item value))) .empty

/-- The name of a severity, alone or as the key of nothing. -/
def severity : Reading Severity := fun v =>
  match v with
  | .string name => Severity.ofName? name
  | .table [(name, .array [])] | .table [(name, .table [])] => Severity.ofName? name
  | _ => none

mutual
/-- A free value. Floats that are not finite become null. -/
def json : Value → Json
  | .string s => .str s
  | .integer n => .int n
  | .float (some x) => .float x
  | .float none => .null
  | .boolean b => .bool b
  | .moment text => .obj [(momentKey, .str text)]
  | .array items => .arr (jsonItems items)
  | .table entries => .obj (Json.sortFields (jsonEntries entries))

def jsonItems : List Value → List Json
  | [] => []
  | v :: vs => json v :: jsonItems vs

def jsonEntries : List (String × Value) → List (String × Json)
  | [] => []
  | (key, v) :: more => (key, json v) :: jsonEntries more
end

/-- A setting: its key and how its value changes the settings. -/
structure Field (σ : Type) where
  name : String
  load : σ → Value → Option σ

def Field.of (name : String) (item : Reading α) (set : σ → α → σ) : Field σ :=
  ⟨name, fun settings v => do some (set settings (← item v))⟩

/-- Settings loaded from values in the order of the fields; further values do not count. -/
def loadInOrder : List (Field σ) → List Value → σ → Option σ
  | f :: fields, v :: vs, settings => do loadInOrder fields vs (← f.load settings v)
  | _, _, settings => some settings

/-- A table of settings. What is not given keeps its value. -/
def table (fields : List (Field σ)) (initial : σ) : Reading σ := fun v =>
  match v with
  | .array items => loadInOrder fields items initial
  | v => do
    (← entries? v).foldlM (fun settings (key, value) =>
      match fields.find? (·.name = key) with
      | some f => f.load settings value
      | none => some settings) initial

def discovery : Reading DiscoverySettings :=
  table [
    .of "package" text fun s v => { s with package := v },
    .of "reserved_dirs" (list text) fun s v => { s with reservedDirs := v },
    .of "exclude_hidden" bool fun s v => { s with excludeHidden := v },
    .of "workers" nat fun s v => { s with workers := v },
    .of "cache_dir" text fun s v => { s with cacheDir := v },
    .of "cache_enabled" bool fun s v => { s with cacheEnabled := v }] {}

def lint : Reading LintSettings :=
  table [
    .of "max_inline_env" nat fun s v => { s with maxInlineEnv := v },
    .of "max_inline_outputs" nat fun s v => { s with maxInlineOutputs := v },
    .of "max_matrix_keys" nat fun s v => { s with maxMatrixKeys := v },
    .of "max_matrix_values" nat fun s v => { s with maxMatrixValues := v },
    .of "max_jobs" nat fun s v => { s with maxJobs := v },
    .of "max_condition_operators" nat fun s v => { s with maxConditionOperators := v },
    .of "disabled" (list text) fun s v => { s with disabled := v }] {}

def ruleSettings : Reading RuleSettings :=
  table [
    .of "enabled" bool fun s v => { s with enabled := some v },
    .of "params" (map fun v => some (json v)) fun s v => { s with params := v }] {}

def policy : Reading PolicySettings :=
  table [
    .of "preset" text fun s v => { s with preset := some v },
    .of "fail_on" severity fun s v => { s with failOn := v },
    .of "rules" (map ruleSettings) fun s v => { s with rules := v }] {}

def project : Reading ProjectSettings :=
  table [
    .of "discovery" discovery fun s v => { s with discovery := v },
    .of "lint" lint fun s v => { s with lint := v },
    .of "policy" policy fun s v => { s with policy := v }] {}

end Settings

namespace ProjectSettings

/-- Name of the file that holds the settings of a project. -/
def fileName : String := "wetwire.toml"

/-- The settings that a document describes, unless it is malformed. -/
def ofDocument (document : String) : Option ProjectSettings := do
  Settings.project (.table (← Toml.read document))

/-! ## Finding the settings of a project -/

/-- The settings in a file. If there is no such file, they are the defaults. -/
def load (t : FileTree) (path : String) : Except AuditError ProjectSettings :=
  match t.readText path with
  | .error .notFound => .ok {}
  | .error e => .error (.io path e.reason)
  | .ok text =>
    match ofDocument text with
    | some settings => .ok settings
    | none => .error (.config s!"{path} is malformed")

/-- The settings of the project in a directory. -/
def discover (t : FileTree) (root : String) : Except AuditError ProjectSettings :=
  load t (Path.join root fileName)

end ProjectSettings

end WorkflowAudit
