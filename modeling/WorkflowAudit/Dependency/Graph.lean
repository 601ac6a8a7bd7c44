import WorkflowAudit.Dependency.Order
import WorkflowAudit.Resource
import WorkflowAudit.Rule

/-!
# Dependency graphs

A graph holds nodes under their names, and calls between workflows. A need that is no node
stays on the node that lists it, but is no edge; it becomes one when the node is added.
-/

namespace WorkflowAudit

structure DependencyNode where
  id : String
  kind : ResourceKind
  dependsOn : List String
  /-- Where the node was declared, if known. -/
  origin : Option Location
deriving DecidableEq, Repr

structure Graph where
  nodes : OrderedMap String DependencyNode
  /-- Callers with the reusable workflows that they call. -/
  calls : List (String × String)

/-- A dependency and the node that needs it. -/
structure Edge where
  source : String
  target : String
deriving DecidableEq, Repr

namespace Graph

def empty : Graph := ⟨.empty, []⟩

/-- A graph of jobs, one for each key. -/
def ofDependencies (m : DependencyMap) : Graph where
  nodes := m.mapValues fun id needs => ⟨id, .job, needs, none⟩
  calls := []

/-- A graph of resources. A dependency that names no resource is dropped, and of two
    resources with one name the last counts, at its own place. -/
def ofResources (resources : List Resource) : Graph :=
  let names := resources.map (·.name)
  let node (r : Resource) : DependencyNode :=
    ⟨r.name, r.kind, r.dependencies.filter names.contains, some (.source r.filePath r.line 1)⟩
  ⟨resources.foldl (fun nodes r => nodes.insertLast r.name (node r)) .empty, []⟩

/-- The graph with one more node, unless its id is taken. -/
def addNode (g : Graph) (node : DependencyNode) : Except AuditError Graph :=
  if g.nodes.contains node.id then .error (.alreadyExists "node" node.id)
  else .ok { g with nodes := g.nodes.insert node.id node }

def addCall (g : Graph) (caller callee : String) : Graph :=
  { g with calls := g.calls ++ [(caller, callee)] }

def isEmpty (g : Graph) : Bool := g.nodes.isEmpty

/-- What each node depends on. -/
def dependencyMap (g : Graph) : DependencyMap := g.nodes.mapValues fun _ node => node.dependsOn

/-- The dependencies of a node that are nodes, each once. -/
def knownDependencies (g : Graph) (node : DependencyNode) : List String :=
  dedupFirst (node.dependsOn.filter g.nodes.contains)

/-- All edges, node by node. -/
def edges (g : Graph) : List Edge :=
  g.nodes.values.flatMap fun node => (g.knownDependencies node).map fun dep => ⟨dep, node.id⟩

def topologicalSort (g : Graph) : Except CycleError (List String) :=
  g.dependencyMap.topologicalSort

def cycles (g : Graph) : List (List String) := g.dependencyMap.cycles

/-- The nodes that list a name. -/
def dependents (g : Graph) (id : String) : List String :=
  (g.nodes.values.filter fun node => node.dependsOn.contains id).map (·.id)

/-- The names that a node lists; none if there is no such node. -/
def dependencies (g : Graph) (id : String) : List String :=
  ((g.nodes.get? id).map (·.dependsOn)).getD []

end Graph

end WorkflowAudit
