import WorkflowAudit.Dependency.Order

/-!
# Checks of a dependency map

A map is sound when it is closed, names no need of itself and has no cycle. Problems are listed
in a fixed order: dangling needs, then needs of oneself, then longer cycles.
-/

namespace WorkflowAudit

/-- Why a composition is refused. -/
inductive CompositionError where
  /-- A need that is no node. -/
  | missingDependency (node dependency : String)
  | selfDependency (node : String)
  /-- A closed walk through at least two nodes. -/
  | circular (walk : List String)
  /-- An event that triggers nothing, with the events that do. -/
  | unknownTrigger (event : String) (valid : List String)
  | invalidPermissions (value : String)
deriving DecidableEq, Repr

namespace CompositionError

def message : CompositionError → String
  | .missingDependency node dependency =>
    s!"node '{node}' depends on non-existent node '{dependency}'"
  | .selfDependency node => s!"node '{node}' cannot depend on itself"
  | .circular walk => "Circular dependency detected: " ++ String.intercalate " -> " walk
  | .unknownTrigger event valid =>
    s!"Unknown trigger type: {event}. Valid types: " ++ String.intercalate ", " valid
  | .invalidPermissions value =>
    s!"Invalid permission string: {value}. Use 'read-all' or 'write-all'"

/-- The part of a workflow that an error is about. -/
def subject : CompositionError → String
  | .unknownTrigger .. => "on"
  | .invalidPermissions _ => "permissions"
  | _ => "needs"

def toAuditError (e : CompositionError) : AuditError := .validation e.subject e.message

end CompositionError

namespace DependencyMap

/-- A problem for each distinct need of a node that is no key. -/
def danglingNeeds (m : DependencyMap) : List CompositionError :=
  m.entries.flatMap fun (node, needs) =>
    ((dedupFirst needs).filter fun need => !m.contains need).map (.missingDependency node)

def selfNeeds (m : DependencyMap) : List CompositionError :=
  (m.entries.filter fun (node, needs) => needs.contains node).map fun (node, _) =>
    .selfDependency node

def longCycles (m : DependencyMap) : List CompositionError :=
  (m.cycles.filter fun walk => walk.length > 2).map .circular

/-- Every problem of a map. -/
def problems (m : DependencyMap) : List CompositionError :=
  m.danglingNeeds ++ m.selfNeeds ++ m.longCycles

/-- The first problem of a map, if it has one. -/
def validate (m : DependencyMap) : Except CompositionError Unit :=
  match m.problems with
  | [] => .ok ()
  | e :: _ => .error e

end DependencyMap

end WorkflowAudit
