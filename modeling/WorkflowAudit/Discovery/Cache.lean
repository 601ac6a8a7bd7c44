import WorkflowAudit.Discovery.Record
import WorkflowAudit.Files.Tree

/-!
# Cache of scans

The cache is a directory with a record for each scan, named by the fingerprint of the file. A
file that changes gets another fingerprint, so its old record is not found. Whatever cannot be
read counts as missing, and a record that cannot be written is left out.
-/

namespace WorkflowAudit

/-- The fingerprint of what a path leads to, or of the path itself if it leads nowhere. -/
def FileTree.fingerprint (t : FileTree) (path : String) : Fingerprint :=
  match t.find path with
  | .ok (.file f) => .ofFile path f.modified f.size
  | .ok (.directory _) => .ofFile path 0 0
  | .error _ => .ofText path

/-- A cache with counters of its use. -/
structure DiscoveryCache where
  dir : String
  /-- Lookups that found a record. -/
  hits : Nat := 0
  /-- Lookups that found none. -/
  misses : Nat := 0
  /-- Records written. -/
  writes : Nat := 0
deriving DecidableEq, Repr

namespace DiscoveryCache

/-- Extension of records. -/
def extension : String := "json"

def recordPath (c : DiscoveryCache) (f : Fingerprint) : String :=
  Path.join c.dir s!"{f.toHex}.{extension}"

/-- What is recorded for a file under a fingerprint. -/
def lookup (c : DiscoveryCache) (t : FileTree) (path : String) (f : Fingerprint) :
    Option (List Resource) :=
  match t.readText (c.recordPath f) with
  | .error _ => none
  | .ok text =>
    match ScanRecord.ofDocument? text with
    | some r => if r.filePath = path ∧ r.fingerprint = f then some r.resources else none
    | none => none

/-- A lookup that is counted. -/
def get (c : DiscoveryCache) (t : FileTree) (path : String) (f : Fingerprint) :
    Option (List Resource) × DiscoveryCache :=
  match c.lookup t path f with
  | some resources => (some resources, { c with hits := c.hits + 1 })
  | none => (none, { c with misses := c.misses + 1 })

/-- A record of a file under a fingerprint, kept if possible, and counted then. The directory of
    the cache is made if it is missing. -/
def put (c : DiscoveryCache) (t : FileTree) (path : String) (f : Fingerprint)
    (resources : List Resource) : FileTree × DiscoveryCache :=
  match t.makeDirectory c.dir with
  | (t, .error _) => (t, c)
  | (t, .ok ()) =>
    match t.save (c.recordPath f) (ScanRecord.toDocument ⟨path, f, resources⟩) with
    | .ok t => (t, { c with writes := c.writes + 1 })
    | .error _ => (t, c)

/-- Whether an entry of the cache's directory is a record. -/
def isRecord (name : String) (n : Node) : Bool :=
  n.isFile && Path.extension? name == some extension

/-- The names of the records in the cache. -/
def records (c : DiscoveryCache) (t : FileTree) : List String :=
  match t.list c.dir with
  | .ok entries => (entries.filter fun (name, n) => isRecord name n).map Prod.fst
  | .error _ => []

/-- The tree without the records, and how many there were. -/
def clear (c : DiscoveryCache) (t : FileTree) : FileTree × Nat :=
  (c.records t).foldl (fun (t, removed) name =>
    match t.remove (Path.join c.dir name) with
    | .ok t => (t, removed + 1)
    | .error _ => (t, removed)) (t, 0)

end DiscoveryCache

end WorkflowAudit
