import WorkflowAudit.Data.Json.Decoder
import WorkflowAudit.Fingerprint.Basic
import WorkflowAudit.Resource

/-!
# Records of scanned files

A record says which resources a file declares. It names the file and the fingerprint that the
file had, and it is kept as a JSON document.
-/

namespace WorkflowAudit

structure ScanRecord where
  filePath : String
  fingerprint : Fingerprint
  resources : List Resource
deriving DecidableEq

namespace ScanRecord

/-! ## Writing -/

def toJson (r : ScanRecord) : Json :=
  .obj [("file_path", .str r.filePath), ("fingerprint", .str r.fingerprint.toHex),
    ("resources", .arr (r.resources.map Resource.toJson))]

def toDocument (r : ScanRecord) : String := r.toJson.pretty

/-! ## Reading -/

namespace Reading

open Decoder

/-- The fields of a resource as they are found. -/
structure ResourceFields where
  name : Option String := none
  kind : Option ResourceKind := none
  filePath : Option String := none
  line : Option Nat := none
  moduleId : Option String := none
  dependencies : List String := []

/-- The resource of fields that are all there, except that it may depend on nothing. -/
def ResourceFields.resource? (f : ResourceFields) : Option Resource := do
  some {
    name := ← f.name
    kind := ← f.kind
    filePath := ← f.filePath
    line := ← f.line
    moduleId := ← f.moduleId
    dependencies := dedupFirst f.dependencies }

/-- A kind by its label, which may be the key of a null. -/
def kind : Decoder BadDocument ResourceKind := fun _ d =>
  match d with
  | .string (some label) | .object [(some label, .null)] =>
    ofOption (ResourceKind.ofLabel? label)
  | _ => fail

def resource : Decoder BadDocument Resource := fun levels d => do
  let fields ← record [
    .of "name" string fun f v => { f with name := some v },
    .of "kind" kind fun f v => { f with kind := some v },
    .of "file_path" string fun f v => { f with filePath := some v },
    .of "line" (natBelow UInt64.size) fun f v => { f with line := some v },
    .of "module_id" string fun f v => { f with moduleId := some v },
    .of "dependencies" (list string) fun f v => { f with dependencies := v }]
    ({} : ResourceFields) levels d
  ofOption fields.resource?

def fingerprint : Decoder BadDocument Fingerprint := fun levels d => do
  ofOption (Fingerprint.ofHex (← string levels d)).toOption

/-- The fields of a record as they are found. -/
structure Fields where
  filePath : Option String := none
  fingerprint : Option Fingerprint := none
  resources : Option (List Resource) := none

def Fields.record? (f : Fields) : Option ScanRecord := do
  some ⟨← f.filePath, ← f.fingerprint, ← f.resources⟩

def scanRecord : Decoder BadDocument ScanRecord := fun levels d => do
  let fields ← record [
    .of "file_path" string fun f v => { f with filePath := some v },
    .of "fingerprint" fingerprint fun f v => { f with fingerprint := some v },
    .of "resources" (list resource) fun f v => { f with resources := some v }]
    ({} : Fields) levels d
  ofOption fields.record?

end Reading

/-- The record that a document holds. -/
def ofDocument? (text : String) : Option ScanRecord :=
  (Decoder.run Reading.scanRecord text).toOption

end ScanRecord

end WorkflowAudit
