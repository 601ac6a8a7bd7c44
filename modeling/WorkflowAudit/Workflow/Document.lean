import WorkflowAudit.Data.Json.Decoder
import WorkflowAudit.Workflow.Basic

/-!
# Workflow documents

A document is read leniently: needs may be one name or a list, environment values any JSON, and
what is missing is empty. It is written in one form: members in a fixed order, empty ones left
out.
-/

namespace WorkflowAudit

/-- Why a document is no workflow. -/
inductive WorkflowError where
  | malformed
  /-- A word that names no blanket grant. -/
  | unknownPermissions (word : String)
deriving DecidableEq, Repr

instance : Malformed WorkflowError := ⟨.malformed⟩

/-- The wording of an error; that of a malformed document is not fixed. -/
def WorkflowError.message? : WorkflowError → Option String
  | .malformed => none
  | .unknownPermissions word =>
    some s!"invalid permission string '{word}'; use 'read-all' or 'write-all'"

/-! ## Reading -/

namespace WorkflowDocument

open Decoder

/-- An environment value as text: nothing for null, compact JSON for what is no string. -/
def envText : Json → String
  | .str s => s
  | .null => ""
  | v => v.compact

def env : Decoder WorkflowError (OrderedMap String String) := fun levels d => do
  let values ← optional (map json) levels d
  .ok ((values.getD .empty).mapValues fun _ v => envText v)

/-- A value that is read as JSON before its form is looked at. -/
def buffered (decoder : Decoder WorkflowError α) : Decoder WorkflowError α := fun levels d => do
  let _ ← json levels d
  decoder levels d

def needs : Decoder WorkflowError (List String) := buffered fun levels d =>
  match d with
  | .null => .ok []
  | .string (some name) => .ok [name]
  | d => list string levels d

def permissions : Decoder WorkflowError Permissions := buffered fun levels d =>
  match d with
  | .string (some word) =>
    match Permissions.ofPreset? word with
    | some p => .ok p
    | none => .error (.unknownPermissions word)
  | d => .scopes <$> map string levels d

def step : Decoder WorkflowError Step :=
  record [
    .of "name" (optional string) fun s v => { s with name := v },
    .of "id" (optional string) fun s v => { s with id := v },
    .of "uses" (optional string) fun s v => { s with uses := v },
    .of "run" (optional string) fun s v => { s with run := v },
    .of "with" (map json) fun s v => { s with inputs := v },
    .of "env" env fun s v => { s with env := v },
    .of "if" (optional string) fun s v => { s with condition := v }] {}

def job : Decoder WorkflowError Job :=
  record [
    .of "name" (optional string) fun j v => { j with name := v },
    .of "runs-on" (optional json) fun j v => { j with runsOn := v },
    .of "needs" needs fun j v => { j with needs := v },
    .of "steps" (list step) fun j v => { j with steps := v },
    .of "timeout-minutes" (optional (natBelow UInt32.size)) fun j v =>
      { j with timeoutMinutes := v },
    .of "environment" (optional json) fun j v => { j with environment := v },
    .of "permissions" (optional permissions) fun j v => { j with permissions := v },
    .of "env" env fun j v => { j with env := v },
    .of "outputs" (map string) fun j v => { j with outputs := v },
    .of "strategy" (optional json) fun j v => { j with strategy := v },
    .of "uses" (optional string) fun j v => { j with uses := v },
    .of "if" (optional string) fun j v => { j with condition := v }] {}

def workflow : Decoder WorkflowError Workflow :=
  record [
    .of "name" string fun w v => { w with name := v },
    .of "on" (map json) fun w v => { w with triggers := v },
    .of "env" env fun w v => { w with env := v },
    .of "permissions" (optional permissions) fun w v => { w with permissions := v },
    .of "jobs" (map job) fun w v => { w with jobs := v }] {}

end WorkflowDocument

/-- The workflow that a document holds. -/
def Workflow.ofDocument (text : String) : Except WorkflowError Workflow :=
  Decoder.run WorkflowDocument.workflow text

/-! ## Writing -/

namespace WorkflowDocument

/-- A member that is left out when there is no value. -/
def optionalMember (name : String) (value : Option Json) : List (String × Json) :=
  (value.map fun v => (name, v)).toList

def textMember (name : String) (value : Option String) : List (String × Json) :=
  optionalMember name (value.map .str)

def mapJson (f : α → Json) (m : OrderedMap String α) : Json :=
  .obj (m.entries.map fun (k, v) => (k, f v))

/-- A map that is left out when it is empty. -/
def mapMember (name : String) (f : α → Json) (m : OrderedMap String α) : List (String × Json) :=
  if m.isEmpty then [] else [(name, mapJson f m)]

def listMember (name : String) (items : List Json) : List (String × Json) :=
  if items.isEmpty then [] else [(name, .arr items)]

def permissionsJson : Permissions → Json
  | .readAll => .str "read-all"
  | .writeAll => .str "write-all"
  | .scopes grants => mapJson .str grants

def stepJson (s : Step) : Json :=
  .obj (textMember "name" s.name ++ textMember "id" s.id ++ textMember "uses" s.uses ++
    textMember "run" s.run ++ mapMember "with" id s.inputs ++ mapMember "env" .str s.env ++
    textMember "if" s.condition)

def jobJson (j : Job) : Json :=
  .obj (textMember "name" j.name ++ optionalMember "runs-on" j.runsOn ++
    listMember "needs" (j.needs.map .str) ++ listMember "steps" (j.steps.map stepJson) ++
    optionalMember "timeout-minutes" (j.timeoutMinutes.map .nat) ++
    optionalMember "environment" j.environment ++
    optionalMember "permissions" (j.permissions.map permissionsJson) ++
    mapMember "env" .str j.env ++ mapMember "outputs" .str j.outputs ++
    optionalMember "strategy" j.strategy ++ textMember "uses" j.uses ++
    textMember "if" j.condition)

def workflowJson (w : Workflow) : Json :=
  .obj ([("name", .str w.name), ("on", mapJson id w.triggers)] ++ mapMember "env" .str w.env ++
    optionalMember "permissions" (w.permissions.map permissionsJson) ++
    [("jobs", mapJson jobJson w.jobs)])

end WorkflowDocument

/-- The document of a workflow, on one line. -/
def Workflow.toDocument (w : Workflow) : String := (WorkflowDocument.workflowJson w).compact

end WorkflowAudit
