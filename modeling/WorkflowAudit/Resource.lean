import WorkflowAudit.Data.Json

/-!
# Declared resources

A resource is a workflow or job that a script binds to a name. Its dependencies are the names
that its declaration mentions, each once, in the order of first mention.
-/

namespace WorkflowAudit

/-- What a declaration constructs. -/
inductive ResourceKind where
  | workflow
  | job
deriving DecidableEq, Repr, Inhabited

namespace ResourceKind

def all : List ResourceKind := [.workflow, .job]

/-- The constructor that a script calls. -/
def constructor : ResourceKind → String
  | .workflow => "Workflow"
  | .job => "Job"

/-- The word for the kind in records and reports. -/
def label : ResourceKind → String
  | .workflow => "workflow"
  | .job => "job"

def ofConstructor? (name : String) : Option ResourceKind :=
  all.find? fun k => k.constructor = name

def ofLabel? (label : String) : Option ResourceKind := all.find? fun k => k.label = label

end ResourceKind

/-- A resource found in a source file. -/
structure Resource where
  name : String
  kind : ResourceKind
  filePath : String
  /-- Line of the binding. -/
  line : Nat
  /-- File name without its extension. -/
  moduleId : String
  dependencies : List String
deriving DecidableEq, Repr

def Resource.toJson (r : Resource) : Json :=
  .obj [("name", .str r.name), ("kind", .str r.kind.label), ("file_path", .str r.filePath),
    ("line", .nat r.line), ("module_id", .str r.moduleId),
    ("dependencies", Json.ofStrings r.dependencies)]

end WorkflowAudit
