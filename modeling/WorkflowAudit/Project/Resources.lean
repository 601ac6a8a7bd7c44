import WorkflowAudit.Dependency.Diagram
import WorkflowAudit.Discovery.Reusable
import WorkflowAudit.Project.Basic

/-!
# Reports on what a project declares
-/

namespace WorkflowAudit

/-- Languages of diagrams. -/
inductive DiagramFormat where
  | mermaid
  | dot
deriving DecidableEq, Repr

/-- A graph as a diagram. -/
def Graph.render (g : Graph) : DiagramFormat → String
  | .mermaid => g.toMermaid
  | .dot => g.toDot

namespace Project

/-- A text filled up with spaces to a number of characters. -/
def padRight (width : Nat) (text : String) : String :=
  text ++ String.ofList (List.replicate (width - text.length) ' ')

def resourceLine (r : Resource) : String :=
  s!"{padRight 8 r.kind.constructor} {padRight 24 r.name} {r.filePath}:{r.line}"

/-- Lists the resources that are declared. -/
def listResources (p : Project) (t : FileTree) (path : Option String) (format : ReportFormat) :
    Outcome :=
  let (scan, t) := p.scan t path
  let lines := match format with
    | .json => [(Json.arr (scan.resources.map Resource.toJson)).pretty]
    | .text => scan.resources.map resourceLine ++
        [s!"{scan.resources.length} resource(s) in {scan.filesScanned} file(s)"]
  .report t true (reportLines lines)

/-- Draws what resources depend on; a cycle is an error. -/
def drawGraph (p : Project) (t : FileTree) (path : Option String) (format : DiagramFormat) :
    Outcome :=
  let (scan, t) := p.scan t path
  let g := Graph.ofResources scan.resources
  match g.topologicalSort with
  | .ok _ => .report t true (reportLines [g.render format])
  | .error cycle =>
    .report t false (reportLines [g.render format, s!"error: {cycle.message}"])

/-- The reusable workflows of each source file that has some. -/
def reusableWorkflows (p : Project) (t : FileTree) (path : Option String) :
    List (String × List ReusableWorkflow) :=
  (p.sources t path).filterMap fun file =>
    match t.readText file with
    | .error _ => none
    | .ok text =>
      match ReusableWorkflow.discover p.settings.discovery.package text file with
      | [] => none
      | found => some (file, found)

/-- Lists the interfaces of reusable workflows. -/
def listReusable (p : Project) (t : FileTree) (path : Option String) : Outcome :=
  let found := p.reusableWorkflows t path
  let json : Json := .obj (found.map fun (file, workflows) =>
    (file, .arr (workflows.map ReusableWorkflow.toJson)))
  .report t true (reportLines [json.pretty])

/-- Removes what the cache holds. -/
def clearCache (p : Project) (t : FileTree) : Outcome :=
  match p.cache with
  | none => .report t true (reportLines ["Cache disabled"])
  | some cache =>
    let (t, removed) := cache.clear t
    .report t true (reportLines [s!"Removed {removed} cache entries from {cache.dir}"])

end Project

end WorkflowAudit
