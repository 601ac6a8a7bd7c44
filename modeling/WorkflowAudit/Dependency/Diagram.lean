import WorkflowAudit.Dependency.Graph
import WorkflowAudit.Text.Search

/-!
# Diagrams of graphs

A node called `group/job` belongs to a group; nodes without a slash belong to one group of
their own. Groups are drawn as frames when there are several.
-/

namespace WorkflowAudit.Graph

/-- A name as an identifier of a diagram: dashes, blanks and slashes become underscores. -/
def diagramId (name : String) : String := Text.replaceChars ['-', ' ', '/'] '_' name

/-- The text shown for a node: its name without groups. -/
def label (id : String) : String := Text.afterLast '/' id

/-- Group of nodes whose name has no slash. -/
def ungrouped : String := "_default"

def groupOf (id : String) : String := ((Text.cutAt? '/' id).map Prod.fst).getD ungrouped

/-- The groups in order of their first node, each with its nodes in order. -/
def groups (g : Graph) : OrderedMap String (List DependencyNode) :=
  g.nodes.entries.foldl (fun m (id, node) => m.modify (groupOf id) [] (· ++ [node])) .empty

/-- How the lines of a diagram are written. -/
structure DiagramStyle where
  opening : String
  closing : List String
  frameOpening : String → List String
  frameClosing : String
  node : String → String
  /-- Whether nodes with dependencies get a line of their own. -/
  showsDependents : Bool
  edge : String → String → String
  call : String → String → List String

private def quoted (s : String) : String := "\"" ++ s ++ "\""

def mermaidStyle : DiagramStyle where
  opening := "graph TD"
  closing := []
  frameOpening group := [s!"    subgraph {diagramId group}[{group}]"]
  frameClosing := "    end"
  node id := s!"{diagramId id}[{label id}]"
  showsDependents := false
  edge source target := s!"{diagramId source} --> {diagramId target}"
  call caller callee :=
    [s!"    {diagramId caller}([{caller}]) -.-> {diagramId callee}([{callee}])"]

def dotStyle : DiagramStyle where
  opening := "digraph G \x7b\n    rankdir=TB;\n    node [shape=box];"
  closing := ["\x7d"]
  frameOpening group :=
    ["    subgraph cluster_" ++ diagramId group ++ " \x7b", "        label=" ++ quoted group ++ ";"]
  frameClosing := "    \x7d"
  node id := quoted (diagramId id) ++ " [label=" ++ quoted (label id) ++ "];"
  showsDependents := true
  edge source target := quoted (diagramId source) ++ " -> " ++ quoted (diagramId target) ++ ";"
  call _ _ := []

/-- The lines of a group: its nodes, then its edges. -/
def groupLines (g : Graph) (style : DiagramStyle) (nodes : List DependencyNode) : List String :=
  let shown := nodes.filter fun node => style.showsDependents || (g.knownDependencies node).isEmpty
  shown.map (fun node => style.node node.id) ++
    nodes.flatMap fun node => (g.knownDependencies node).map fun dep => style.edge dep node.id

/-- All lines of a diagram. -/
def diagramLines (g : Graph) (style : DiagramStyle) : List String :=
  let groups := g.groups
  let isFramed := groups.size > 1
  let body := groups.entries.flatMap fun (group, nodes) =>
    if isFramed then
      style.frameOpening group ++ (g.groupLines style nodes).map ("        " ++ ·) ++
        [style.frameClosing]
    else (g.groupLines style nodes).map ("    " ++ ·)
  style.opening :: body ++ g.calls.flatMap (fun (caller, callee) => style.call caller callee) ++
    style.closing

def draw (g : Graph) (style : DiagramStyle) : String :=
  String.intercalate "\n" (g.diagramLines style)

def toMermaid (g : Graph) : String := g.draw mermaidStyle

def toDot (g : Graph) : String := g.draw dotStyle

end WorkflowAudit.Graph
