/-!
# Errors of the analyses

Each error names its cause; `describe` gives its wording.
-/

namespace WorkflowAudit

/-- Why an operation of the library failed. -/
inductive AuditError where
  | invalidEncoding
  /-- A file operation failed. -/
  | io (path reason : String)
  /-- A text does not have the expected form. -/
  | parse (message : String)
  | config (reason : String)
  | validation (field reason : String)
  | notFound (kind id : String)
  | alreadyExists (kind id : String)
  | cancelled
  | internal (message : String)
deriving DecidableEq, Repr

/-- Why the record of a file could not be kept. -/
inductive CacheError where
  | io (path reason : String)
  | serialization (reason : String)
deriving DecidableEq, Repr

namespace AuditError

def describe : AuditError → String
  | .invalidEncoding => "Invalid encoding"
  | .io path reason => s!"I/O error on {path}: {reason}"
  | .parse message => s!"Parse error: {message}"
  | .config reason => s!"Invalid configuration: {reason}"
  | .validation field reason => s!"Validation failed for {field}: {reason}"
  | .notFound kind id => s!"{kind} not found: {id}"
  | .alreadyExists kind id => s!"{kind} already exists: {id}"
  | .cancelled => "Operation cancelled"
  | .internal message => s!"Internal error: {message}"

end AuditError

namespace CacheError

def describe : CacheError → String
  | .io path reason => s!"Cache IO error on {path}: {reason}"
  | .serialization reason => s!"Cache serialization error: {reason}"

/-- A cache error as an error of the analysis that used the cache. -/
def toAuditError (e : CacheError) : AuditError := .validation "cache" e.describe

end CacheError

end WorkflowAudit
