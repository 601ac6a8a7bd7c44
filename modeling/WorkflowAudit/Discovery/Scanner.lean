import WorkflowAudit.Discovery.Cache
import WorkflowAudit.Discovery.Walk

/-!
# Scanning files

A file is looked up in the cache under its fingerprint. If nothing is recorded, it is read and
scanned, and the resources are recorded under the fingerprint that was taken first. Files that
cannot be read or do not parse declare nothing and are not recorded.
-/

namespace WorkflowAudit

structure Scanner where
  /-- Part of an import path that marks imports of constructors. -/
  package : String := Discovery.defaultPackage
  /-- Texts whose reading asks for the rest of a directory to be left out. -/
  cancelsOn : String → Bool := fun _ => false

/-- What a scan may change. -/
structure ScanSession where
  tree : FileTree
  cache : Option DiscoveryCache := none
  /-- Whether the files that follow are left out. -/
  cancelled : Bool := false

/-- What was found in a directory. -/
structure DirectoryScan where
  /-- In the order of the files. -/
  resources : List Resource := []
  filesScanned : Nat := 0
  /-- Number of places that could not be looked at. -/
  skipped : Nat := 0
  /-- Whether files were left out. -/
  cancelled : Bool := false
deriving DecidableEq, Repr

namespace Scanner

/-- The resources of a text, unless it does not parse. -/
def scanText? (s : Scanner) (path text : String) : Option (List Resource) :=
  match Script.parse text with
  | .ok m => some (Discovery.scanModule s.package path m)
  | .error _ => none

/-- A file read and scanned, and recorded under a fingerprint if one is given. -/
def scanUncached (s : Scanner) (path : String) (fingerprint : Option Fingerprint)
    (session : ScanSession) : List Resource × ScanSession :=
  match session.tree.readText path with
  | .error _ => ([], session)
  | .ok text =>
    let session := { session with cancelled := session.cancelled || s.cancelsOn text }
    match s.scanText? path text, session.cache, fingerprint with
    | some resources, some cache, some f =>
      let (tree, cache) := cache.put session.tree path f resources
      (resources, { session with tree, cache := some cache })
    | some resources, _, _ => (resources, session)
    | none, _, _ => ([], session)

/-- The resources of a file. -/
def scanFile (s : Scanner) (path : String) (session : ScanSession) :
    List Resource × ScanSession :=
  match session.cache with
  | none => s.scanUncached path none session
  | some cache =>
    let f := session.tree.fingerprint path
    match cache.get session.tree path f with
    | (some resources, cache) => (resources, { session with cache := some cache })
    | (none, cache) => s.scanUncached path (some f) { session with cache := some cache }

/-- One file of a directory, left out if the scan is cancelled. -/
def scanNext (s : Scanner) (state : DirectoryScan × ScanSession) (path : String) :
    DirectoryScan × ScanSession :=
  let (scan, session) := state
  if session.cancelled then ({ scan with cancelled := true }, session)
  else
    let (found, session) := s.scanFile path session
    ({ scan with
        resources := scan.resources ++ found
        filesScanned := scan.filesScanned + 1 }, session)

/-- The resources of the source files that a path leads to. -/
def scanDirectory (s : Scanner) (o : SourceFilter) (path : String) (session : ScanSession) :
    DirectoryScan × ScanSession :=
  let sources := session.tree.sourceFiles o path
  sources.paths.foldl s.scanNext ({ skipped := sources.skipped }, session)

end Scanner

end WorkflowAudit
