import WorkflowAudit.Config.Project
import WorkflowAudit.Discovery.Scanner

/-!
# Projects

A project is a directory with settings. Paths of commands start there, and scans use the cache of
the project unless that is switched off.
-/

namespace WorkflowAudit

/-- How findings are written. -/
inductive ReportFormat where
  /-- A line for each finding. -/
  | text
  | json
deriving DecidableEq, Repr

structure Project where
  root : String
  settings : ProjectSettings
  cache : Option DiscoveryCache

/-- What a command leaves behind. -/
structure Outcome where
  output : String
  /-- Whether the check passed, or why the command broke off. -/
  verdict : Except String Bool
  tree : FileTree

namespace Outcome

/-- The outcome of a command that changes no files. -/
def report (t : FileTree) (passed : Bool) (output : String) : Outcome := ⟨output, .ok passed, t⟩

/-- The outcome of a command that broke off before it wrote anything. -/
def failure (t : FileTree) (message : String) : Outcome := ⟨"", .error message, t⟩

end Outcome

/-- Lines of a report, each ended. -/
def reportLines (lines : List String) : String := String.join (lines.map (· ++ "\n"))

namespace Project

/-- The project in a directory. -/
def load (t : FileTree) (root : String) (useCache : Bool) : Except String Project :=
  match ProjectSettings.discover t root with
  | .error _ => .error s!"loading configuration from {root}"
  | .ok settings =>
    let dir := Path.join root settings.discovery.cacheDir
    .ok {
      root, settings
      cache := if useCache && settings.discovery.cacheEnabled then some { dir } else none }

/-- The path that a command works on; without one it is the whole project. -/
def target (p : Project) : Option String → String
  | some path => Path.join p.root path
  | none => p.root

def scanner (p : Project) : Scanner := { package := p.settings.discovery.package }

/-- The resources of a file or of the source files of a directory. A single file counts as
    scanned whatever its name is. -/
def scan (p : Project) (t : FileTree) (path : Option String) : DirectoryScan × FileTree :=
  let target := p.target path
  let session : ScanSession := { tree := t, cache := p.cache }
  if t.isFile target then
    let (resources, session) := p.scanner.scanFile target session
    ({ resources, filesScanned := 1 }, session.tree)
  else
    let (scan, session) :=
      p.scanner.scanDirectory p.settings.discovery.sourceFilter target session
    (scan, session.tree)

/-- A file itself, or the source files of a directory. -/
def sources (p : Project) (t : FileTree) (path : Option String) : List String :=
  let target := p.target path
  if t.isFile target then [target]
  else (t.sourceFiles p.settings.discovery.sourceFilter target).paths

end Project

end WorkflowAudit
